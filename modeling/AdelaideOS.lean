import AdelaideOS.Buddy.Requests
import AdelaideOS.Kernel.Streams
import AdelaideOS.Kernel.Lineage
import AdelaideOS.Mptest.Ring
import AdelaideOS.Kernel.Keyboard
import AdelaideOS.Kernel.Private
import AdelaideOS.Kernel.Console
import AdelaideOS.Kernel.Execve
import AdelaideOS.Kernel.Break
import AdelaideOS.Kernel.Fork
import AdelaideOS.Kernel.Pointers
import AdelaideOS.Process.Slots
import AdelaideOS.Process.Waitpid
import AdelaideOS.Kernel.Records
import AdelaideOS.Page.Mappings
import AdelaideOS.Image.Reading
import AdelaideOS.Image.Tool
import AdelaideOS.Image.Dump
import AdelaideOS.Image.Browse
import AdelaideOS.Image.Names
import AdelaideOS.Image.Listing
import AdelaideOS.Kernel.Atomic
import AdelaideOS.Kernel.Detaching
import AdelaideOS.Kernel.Directories
import AdelaideOS.Kernel.Registers
import AdelaideOS.Process.Rotation
import AdelaideOS.Process.Starvation
import AdelaideOS.Versions.Meaning
import AdelaideOS.Kernel.Intervals
import AdelaideOS.Libc.Strings
import AdelaideOS.Libc.Truncation
import AdelaideOS.Screen.Canvas
import AdelaideOS.Shell.Ignored
import AdelaideOS.Shell.Tokens
import AdelaideOS.Kernel.Stopping
