import Mathlib.Tactic

/-!
# Constants of `constants.h`, `kernel.h` and `user.h`

Only the constants that the model uses, under their names in the source.  Error numbers are negated where
a handler returns them, as in the source.
-/

namespace AdelaideOS

/-! ### Memory -/

abbrev MB : ℕ := 1048576
abbrev PAGE_SIZE : ℕ := 4096
abbrev BUFSIZE : ℕ := 1024
abbrev MAX_PROCESSES : ℕ := 32
abbrev PROCESS_STACK_BASE : ℕ := 0x40000000
abbrev PROCESS_STACK_SIZE : ℕ := 65536
abbrev KERNEL_MEM_BASE : ℕ := 2 * MB
abbrev KERNEL_MEM_SIZEPOW2 : ℕ := 22
abbrev PAGE_START : ℕ := 6 * MB
abbrev PROCESS_DATA_BASE : ℕ := 0x20000000
abbrev PROCESS_DATA_MAX : ℕ := 4 * MB
abbrev PROCESS_TEXT_BASE : ℕ := 0x10000000

/-! ### Page table entries -/

abbrev PAGE_ADDRESS_MASK : ℕ := 0xFFFFF000
abbrev PAGE_USER : ℕ := 4
abbrev PAGE_SUPERVISOR : ℕ := 0
abbrev PAGE_READ_WRITE : ℕ := 2
abbrev PAGE_READ_ONLY : ℕ := 0
abbrev PAGE_PRESENT : ℕ := 1

/-! ### Processes -/

abbrev USER_CODE_SEGMENT : ℕ := 0x18
abbrev USER_DATA_SEGMENT : ℕ := 0x20
abbrev RING_3 : ℕ := 3
abbrev MAX_FDS : ℕ := 16
abbrev PATH_MAX : ℕ := 1024
abbrev NAME_MAX : ℕ := 1024
abbrev MAX_MESSAGE_SIZE : ℕ := 1024

/-! ### System calls -/

abbrev SYSCALL_GETPID : ℕ := 1
abbrev SYSCALL_EXIT : ℕ := 2
abbrev SYSCALL_WRITE : ℕ := 3
abbrev SYSCALL_READ : ℕ := 4
abbrev SYSCALL_GETERRNO : ℕ := 5
abbrev SYSCALL_BRK : ℕ := 6
abbrev SYSCALL_SEND : ℕ := 7
abbrev SYSCALL_RECEIVE : ℕ := 8
abbrev SYSCALL_CLOSE : ℕ := 9
abbrev SYSCALL_PIPE : ℕ := 10
abbrev SYSCALL_DUP2 : ℕ := 11
abbrev SYSCALL_FORK : ℕ := 12
abbrev SYSCALL_EXECVE : ℕ := 13
abbrev SYSCALL_WAITPID : ℕ := 14
abbrev SYSCALL_STAT : ℕ := 15
abbrev SYSCALL_OPEN : ℕ := 16
abbrev SYSCALL_GETDENT : ℕ := 17
abbrev SYSCALL_CHDIR : ℕ := 18
abbrev SYSCALL_GETCWD : ℕ := 19
abbrev SYSCALL_KILL : ℕ := 20

/-! ### Error numbers -/

abbrev EBADF : ℤ := 2
abbrev EINVAL : ℤ := 3
abbrev ESRCH : ℤ := 4
abbrev ENOENT : ℤ := 6
abbrev EMFILE : ℤ := 7
abbrev EISDIR : ℤ := 8
abbrev ENOTDIR : ℤ := 9
abbrev ENOSYS : ℤ := 10
abbrev ENOMEM : ℤ := 11
abbrev EFAULT : ℤ := 12
abbrev EAGAIN : ℤ := 13
abbrev ECHILD : ℤ := 14
abbrev ESUSPEND : ℤ := 1000

end AdelaideOS
