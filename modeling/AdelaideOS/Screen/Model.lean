import AdelaideOS.Kernel.Filesystem

/-!
# The text screen

Video memory is an array of characters with colours, row by row.  `write_to_screen` stores characters at the cursor and
scrolls; it never changes a colour, but scrolling moves the colours with the characters.

* **`scroll_cell`**, **`scroll_cursor`** — the characters and the cursor after `scroll`;
* **`scroll_inside`** — it writes cells of the screen only.
-/

namespace AdelaideOS.Screen

open AdelaideOS.Kernel

def SCREEN_WIDTH : ℕ := 80

def SCREEN_HEIGHT : ℕ := 25

structure Screenchar where
  c : UInt8
  fg : BitVec 4
  bg : BitVec 4

/-- Video memory, the cursor of the kernel and that of the video card; and, which is not kept by the kernel, the cells that
have been written. -/
structure Display where
  screen : ℕ → Screenchar
  xpos : ℕ
  ypos : ℕ
  cursor : ℕ
  written : List ℕ

/-- `screen[i] = s` -/
def Display.put (d : Display) (i : ℕ) (s : Screenchar) : Display :=
  { d with screen := Function.update d.screen i s, written := i :: d.written }

/-- `screen[i].c = c` -/
def Display.putChar (d : Display) (i : ℕ) (c : UInt8) : Display := d.put i { d.screen i with c := c }

/-! ### `scroll` -/

/-- The cell at `x` in the row `y` gets the contents of the cell below. -/
def moveUp (y : ℕ) (d : Display) (x : ℕ) : Display :=
  d.put (y * SCREEN_WIDTH + x) (d.screen ((y + 1) * SCREEN_WIDTH + x))

def moveRow (d : Display) (y : ℕ) : Display := (List.range SCREEN_WIDTH).foldl (moveUp y) d

def clearCell (d : Display) (x : ℕ) : Display := d.putChar ((SCREEN_HEIGHT - 1) * SCREEN_WIDTH + x) (char ' ')

def moveLines (d : Display) : Display := (List.range (SCREEN_HEIGHT - 1)).foldl moveRow d

def clearLast (d : Display) : Display := (List.range SCREEN_WIDTH).foldl clearCell d

/-- `ypos--` -/
def Display.lineUp (d : Display) : Display := { d with ypos := d.ypos - 1 }

def scroll (d : Display) : Display := (clearLast (moveLines d)).lineUp

/-! ### `write_to_screen` -/

/-- What a character does before the cursor is brought back onto the screen. -/
def typeChar (d : Display) (c : UInt8) : Display :=
  if c = char '\n' then { d with xpos := 0, ypos := d.ypos + 1 }
  else if c = char '\t' then { d with xpos := d.xpos + (8 - d.xpos % 8) }
  else
    let d := d.putChar (d.ypos * SCREEN_WIDTH + d.xpos) c
    { d with xpos := d.xpos + 1 }

def wrapLine (d : Display) : Display :=
  if SCREEN_WIDTH ≤ d.xpos then { d with xpos := 0, ypos := d.ypos + 1 } else d

/-- One round of the loop. -/
def writeChar (d : Display) (c : UInt8) : Display :=
  let d := wrapLine (typeChar d c)
  if SCREEN_HEIGHT ≤ d.ypos then scroll d else d

def moveCursor (d : Display) : Display := { d with cursor := d.ypos * 80 + d.xpos }

def writeToScreen (d : Display) (data : List UInt8) : Display := moveCursor (data.foldl writeChar d)

variable {d : Display} {i x y : ℕ}

@[simp] theorem lineUp_screen : d.lineUp.screen = d.screen := rfl

@[simp] theorem lineUp_xpos : d.lineUp.xpos = d.xpos := rfl

@[simp] theorem lineUp_ypos : d.lineUp.ypos = d.ypos - 1 := rfl

/-- No cell behind the screen has been written: it is as it was in `d₀`. -/
structure Inside (d₀ d : Display) : Prop where
  written : ∀ i ∈ d.written, i < SCREEN_WIDTH * SCREEN_HEIGHT
  behind : ∀ i, SCREEN_WIDTH * SCREEN_HEIGHT ≤ i → d.screen i = d₀.screen i

theorem Inside.put {d₀ : Display} (h : Inside d₀ d) (hi : i < SCREEN_WIDTH * SCREEN_HEIGHT) (s : Screenchar) :
    Inside d₀ (d.put i s) := by
  constructor
  · intro a ha
    rcases List.mem_cons.mp ha with rfl | ha
    · exact hi
    · exact h.written a ha
  · intro a ha
    have hne : a ≠ i := by omega
    exact (Function.update_of_ne hne _ _).trans (h.behind a ha)

/-! ### What `scroll` does -/

theorem put_screen (d : Display) (i : ℕ) (s : Screenchar) (a : ℕ) :
    (d.put i s).screen a = if a = i then s else d.screen a := Function.update_apply _ _ _ _

/-- The first `n` cells of the row `y` are those of the row below. -/
theorem moveUp_cells (d : Display) (y n i : ℕ) (hn : n ≤ SCREEN_WIDTH) :
    ((List.range n).foldl (moveUp y) d).screen i =
      if y * SCREEN_WIDTH ≤ i ∧ i < y * SCREEN_WIDTH + n then d.screen (i + SCREEN_WIDTH) else d.screen i := by
  have hrow : (y + 1) * SCREEN_WIDTH = y * SCREEN_WIDTH + SCREEN_WIDTH := Nat.succ_mul y SCREEN_WIDTH
  induction n generalizing i with
  | zero => rw [if_neg (by omega)]; rfl
  | succ n ih =>
    rw [List.range_succ, List.foldl_append, List.foldl_cons, List.foldl_nil, moveUp, put_screen]
    by_cases he : i = y * SCREEN_WIDTH + n
    · -- the cell below has not been changed yet
      rw [if_pos he, ih _ (by omega), if_neg (by omega), if_pos (by omega), he, hrow, Nat.add_right_comm]
    · rw [if_neg he, ih i (by omega)]
      by_cases hin : y * SCREEN_WIDTH ≤ i ∧ i < y * SCREEN_WIDTH + n
      · rw [if_pos hin, if_pos (by omega)]
      · rw [if_neg hin, if_neg (by omega)]

/-- The first `n` rows have moved up. -/
theorem moveRow_cells (d : Display) (n i : ℕ) :
    ((List.range n).foldl moveRow d).screen i = if i < n * SCREEN_WIDTH then d.screen (i + SCREEN_WIDTH) else d.screen i := by
  induction n generalizing i with
  | zero => rw [if_neg (by omega)]; rfl
  | succ n ih =>
    have hrow : (n + 1) * SCREEN_WIDTH = n * SCREEN_WIDTH + SCREEN_WIDTH := Nat.succ_mul n SCREEN_WIDTH
    rw [List.range_succ, List.foldl_append, List.foldl_cons, List.foldl_nil, moveRow, moveUp_cells _ n _ i le_rfl, ih, ih]
    by_cases hin : n * SCREEN_WIDTH ≤ i ∧ i < n * SCREEN_WIDTH + SCREEN_WIDTH
    · rw [if_pos hin, if_neg (by omega), if_pos (by omega)]
    · rw [if_neg hin]
      by_cases hlt : i < n * SCREEN_WIDTH
      · rw [if_pos hlt, if_pos (by omega)]
      · rw [if_neg hlt, if_neg (by omega)]

/-- The first `n` cells of the last row have been cleared. -/
theorem clearCell_cells (d : Display) (n i : ℕ) :
    ((List.range n).foldl clearCell d).screen i =
      if (SCREEN_HEIGHT - 1) * SCREEN_WIDTH ≤ i ∧ i < (SCREEN_HEIGHT - 1) * SCREEN_WIDTH + n then
        { d.screen i with c := char ' ' } else d.screen i := by
  induction n generalizing i with
  | zero => rw [if_neg (by omega)]; rfl
  | succ n ih =>
    rw [List.range_succ, List.foldl_append, List.foldl_cons, List.foldl_nil, clearCell, Display.putChar, put_screen]
    by_cases he : i = (SCREEN_HEIGHT - 1) * SCREEN_WIDTH + n
    · rw [if_pos he, ← he, ih, if_neg (by omega), if_pos (by omega)]
    · rw [if_neg he, ih i]
      by_cases hin : (SCREEN_HEIGHT - 1) * SCREEN_WIDTH ≤ i ∧ i < (SCREEN_HEIGHT - 1) * SCREEN_WIDTH + n
      · rw [if_pos hin, if_pos (by omega)]
      · rw [if_neg hin, if_neg (by omega)]

/-- **The characters after `scroll`.** -/
theorem scroll_cell (d : Display) (hx : x < SCREEN_WIDTH) (hy : y < SCREEN_HEIGHT) :
    ((scroll d).screen (y * SCREEN_WIDTH + x)).c =
      if y = SCREEN_HEIGHT - 1 then char ' ' else (d.screen ((y + 1) * SCREEN_WIDTH + x)).c := by
  have hrow : (y + 1) * SCREEN_WIDTH = y * SCREEN_WIDTH + SCREEN_WIDTH := Nat.succ_mul y SCREEN_WIDTH
  rw [scroll, lineUp_screen, clearLast, clearCell_cells, moveLines, moveRow_cells]
  by_cases hlast : y = SCREEN_HEIGHT - 1
  · rw [if_pos hlast, hlast, if_pos (by omega)]
  · have hle : (y + 1) * SCREEN_WIDTH ≤ (SCREEN_HEIGHT - 1) * SCREEN_WIDTH := Nat.mul_le_mul_right _ (by omega)
    rw [if_neg hlast, if_neg (by omega), if_pos (by omega), hrow, Nat.add_right_comm]

theorem foldl_keep {α : Type} {P : Display → Prop} {f : Display → α → Display} {l : List α} (h : P d)
    (hstep : ∀ d, ∀ a ∈ l, P d → P (f d a)) : P (l.foldl f d) := by
  induction l generalizing d with
  | nil => exact h
  | cons a l ih => exact ih (hstep d a (by simp) h) fun d b hb => hstep d b (by simp [hb])

theorem Inside.lineUp {d₀ : Display} (h : Inside d₀ d) : Inside d₀ d.lineUp := ⟨h.written, h.behind⟩

theorem scroll_inside {d₀ : Display} (h : Inside d₀ d) : Inside d₀ (scroll d) := by
  have hmoved : Inside d₀ (moveLines d) := by
    refine foldl_keep h fun d y hy h => foldl_keep h fun d x hx h => h.put ?_ _
    simp only [List.mem_range, SCREEN_WIDTH, SCREEN_HEIGHT] at *
    omega
  have hcleared : Inside d₀ (clearLast (moveLines d)) := by
    refine foldl_keep hmoved fun d x hx h => h.put ?_ _
    simp only [List.mem_range, SCREEN_WIDTH, SCREEN_HEIGHT] at *
    omega
  exact hcleared.lineUp

theorem scroll_cursor (d : Display) : (scroll d).xpos = d.xpos ∧ (scroll d).ypos = d.ypos - 1 := by
  have hmoved : (moveLines d).xpos = d.xpos ∧ (moveLines d).ypos = d.ypos :=
    foldl_keep (P := fun d' => d'.xpos = d.xpos ∧ d'.ypos = d.ypos) ⟨rfl, rfl⟩ fun _ _ _ h =>
      foldl_keep (P := fun d' => d'.xpos = d.xpos ∧ d'.ypos = d.ypos) h fun _ _ _ h => h
  obtain ⟨hx, hy⟩ : (clearLast (moveLines d)).xpos = d.xpos ∧ (clearLast (moveLines d)).ypos = d.ypos :=
    foldl_keep (P := fun d' => d'.xpos = d.xpos ∧ d'.ypos = d.ypos) hmoved fun _ _ _ h => h
  rw [scroll, lineUp_xpos, lineUp_ypos, hx, hy]
  exact ⟨rfl, rfl⟩

end AdelaideOS.Screen
