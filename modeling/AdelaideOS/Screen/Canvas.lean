import AdelaideOS.Screen.Model

/-!
# The screen as a window

A canvas has 80 columns and no last row, so nothing is ever lost on it.  The screen shows the last 25 of its rows.

* **`Follows.writeChar`** — a character is written to the screen as it is laid out on the canvas;
* **`screen_shows_tail`** — after any sequence of calls, the screen is the end of the canvas.
-/

namespace AdelaideOS.Screen

open AdelaideOS.Kernel

/-! ### The canvas -/

/-- The characters by row and column, and the place where the next one goes. -/
structure Canvas where
  cell : ℕ → ℕ → UInt8
  row : ℕ
  col : ℕ

def Canvas.blank : Canvas := ⟨fun _ _ => char ' ', 0, 0⟩

/-- The beginning of the next row. -/
def Canvas.newline (v : Canvas) : Canvas := { v with row := v.row + 1, col := 0 }

/-- The column `col`, or the next row if there is no such column. -/
def Canvas.goto (v : Canvas) (col : ℕ) : Canvas := if col < SCREEN_WIDTH then { v with col := col } else v.newline

def Canvas.set (v : Canvas) (c : UInt8) : Canvas :=
  { v with cell := fun row col => if row = v.row ∧ col = v.col then c else v.cell row col }

/-- A character is laid out. -/
def Canvas.write (v : Canvas) (c : UInt8) : Canvas :=
  if c = char '\n' then v.newline
  else if c = char '\t' then v.goto ((v.col / 8 + 1) * 8)
  else (v.set c).goto (v.col + 1)

/-- The canvas with a text. -/
def Canvas.text (data : List UInt8) : Canvas := data.foldl Canvas.write .blank

/-- The first of the last 25 rows. -/
def Canvas.top (v : Canvas) : ℕ := v.row + 1 - SCREEN_HEIGHT

/-- Nothing has been laid out in the row `r` from the column `k` on, or below it. -/
def Canvas.BlankFrom (v : Canvas) (r k : ℕ) : Prop :=
  ∀ row col, r < row ∨ (row = r ∧ k ≤ col) → v.cell row col = char ' '

/-- Nothing has been laid out behind the cursor. -/
def Canvas.Fresh (v : Canvas) : Prop := v.BlankFrom v.row v.col

/-! ### The screen and the canvas -/

/-- The screen is cleared, and the cursor is at the top left. -/
structure Cleared (d : Display) : Prop where
  xpos : d.xpos = 0
  ypos : d.ypos = 0
  cells : ∀ i < SCREEN_WIDTH * SCREEN_HEIGHT, (d.screen i).c = char ' '
  written : d.written = []

/-- The screen shows the rows of the canvas from the row `top` on. -/
structure Window (d : Display) (v : Canvas) (top : ℕ) : Prop where
  xpos : d.xpos = v.col
  ypos : top + d.ypos = v.row
  cells : ∀ y < SCREEN_HEIGHT, ∀ x < SCREEN_WIDTH, (d.screen (y * SCREEN_WIDTH + x)).c = v.cell (top + y) x

/-- What holds after each character. -/
structure Follows (d₀ d : Display) (v : Canvas) : Prop where
  inside : Inside d₀ d
  xpos : d.xpos < SCREEN_WIDTH
  ypos : d.ypos < SCREEN_HEIGHT
  window : Window d v v.top
  fresh : v.Fresh

variable {d₀ d : Display} {v : Canvas} {c : UInt8} {top : ℕ}

/-- The row is one of those that are shown. -/
theorem cell_lt {x y : ℕ} (hx : x < SCREEN_WIDTH) (hy : y < SCREEN_HEIGHT) :
    y * SCREEN_WIDTH + x < SCREEN_WIDTH * SCREEN_HEIGHT := by
  simp only [SCREEN_WIDTH, SCREEN_HEIGHT] at *
  omega

/-- The index tells row and column. -/
theorem cell_inj {x y x' y' : ℕ} (hx : x < SCREEN_WIDTH) (hx' : x' < SCREEN_WIDTH) :
    y * SCREEN_WIDTH + x = y' * SCREEN_WIDTH + x' ↔ y = y' ∧ x = x' := by
  simp only [SCREEN_WIDTH] at *
  omega

/-! ### One character -/

/-- Storing a character. -/
theorem Window.putChar (h : Window d v top) (hx : d.xpos < SCREEN_WIDTH) (c : UInt8) :
    Window (d.putChar (d.ypos * SCREEN_WIDTH + d.xpos) c) (v.set c) top := by
  refine ⟨h.xpos, h.ypos, fun y hy x hx' => ?_⟩
  have hplace : y * SCREEN_WIDTH + x = d.ypos * SCREEN_WIDTH + d.xpos ↔ top + y = v.row ∧ x = v.col := by
    rw [cell_inj hx' hx, ← h.xpos, ← h.ypos, Nat.add_left_cancel_iff]
  unfold Display.putChar Canvas.set
  rw [put_screen]
  simp only
  by_cases he : top + y = v.row ∧ x = v.col
  · rw [if_pos he, if_pos (hplace.mpr he)]
  · rw [if_neg he, if_neg (mt hplace.mp he)]
    exact h.cells y hy x hx'

/-- The cursor is moved to a column, which may be the first one behind the screen. -/
theorem Window.goto (h : Window d v top) (x : ℕ) : Window (wrapLine { d with xpos := x }) (v.goto x) top := by
  unfold wrapLine Canvas.goto
  simp only
  by_cases hx : x < SCREEN_WIDTH
  · rw [if_pos hx, if_neg (Nat.not_le.mpr hx)]
    exact ⟨rfl, h.ypos, h.cells⟩
  · rw [if_neg hx, if_pos (Nat.not_lt.mp hx)]
    exact ⟨rfl, congrArg (· + 1) h.ypos, h.cells⟩

theorem Window.newline (h : Window d v top) : Window { d with xpos := 0, ypos := d.ypos + 1 } v.newline top :=
  ⟨rfl, congrArg (· + 1) h.ypos, h.cells⟩

/-- A character, before the screen is scrolled. -/
theorem Window.typeChar (h : Window d v top) (hx : d.xpos < SCREEN_WIDTH) (c : UInt8) :
    Window (wrapLine (typeChar d c)) (v.write c) top := by
  unfold Screen.typeChar Canvas.write
  by_cases hn : c = char '\n'
  · rw [if_pos hn, if_pos hn]
    exact h.newline
  · rw [if_neg hn, if_neg hn]
    by_cases ht : c = char '\t'
    · rw [if_pos ht, if_pos ht]
      have hstop : d.xpos + (8 - d.xpos % 8) = (v.col / 8 + 1) * 8 := by
        rw [h.xpos]
        omega
      rw [hstop]
      exact h.goto _
    · rw [if_neg ht, if_neg ht, ← h.xpos]
      exact (h.putChar hx c).goto _

/-- What is shown after scrolling. -/
theorem Window.scroll (h : Window d v top) (hy : d.ypos = SCREEN_HEIGHT) (hcol : v.col = 0) (hfresh : v.Fresh) :
    Window (scroll d) v (top + 1) := by
  have hrow := h.ypos
  have hheight : 0 < SCREEN_HEIGHT := by decide
  obtain ⟨hxpos, hypos⟩ := scroll_cursor d
  refine ⟨hxpos.trans h.xpos, by omega, fun y hylt x hx => ?_⟩
  rw [scroll_cell d hx hylt]
  by_cases hlast : y = SCREEN_HEIGHT - 1
  · -- the row of the cursor is still blank
    rw [if_pos hlast, hfresh]
    exact .inr ⟨by omega, by omega⟩
  · rw [if_neg hlast, h.cells (y + 1) (by omega) x hx, Nat.add_assoc, Nat.add_comm 1]

/-! ### The cursor on the canvas -/

theorem Canvas.BlankFrom.mono {r k k' : ℕ} (h : v.BlankFrom r k) (hle : k ≤ k') : v.BlankFrom r k' := by
  rintro row col (hrow | ⟨hrow, hcol⟩)
  · exact h row col (.inl hrow)
  · exact h row col (.inr ⟨hrow, hle.trans hcol⟩)

theorem Canvas.BlankFrom.newline {k : ℕ} (h : v.BlankFrom v.row k) : v.newline.Fresh := by
  intro row col hbehind
  refine h row col (.inl ?_)
  rcases hbehind with hrow | ⟨hrow, -⟩
  · exact (Nat.lt_succ_self v.row).trans hrow
  · rw [hrow]
    exact Nat.lt_succ_self v.row

theorem Canvas.BlankFrom.goto {k : ℕ} (h : v.BlankFrom v.row k) : (v.goto k).Fresh := by
  unfold Canvas.goto
  split
  · exact h
  · exact h.newline

theorem Canvas.BlankFrom.set (h : v.Fresh) (c : UInt8) : (v.set c).BlankFrom v.row (v.col + 1) := by
  intro row col hbehind
  have hold : v.cell row col = char ' ' := h.mono (Nat.le_succ _) row col hbehind
  unfold Canvas.set
  simp only
  rw [if_neg (by omega), hold]

/-- **What is behind the cursor stays blank.** -/
theorem Canvas.Fresh.write (h : v.Fresh) (c : UInt8) : (v.write c).Fresh := by
  unfold Canvas.write
  split
  · exact Canvas.BlankFrom.newline h
  · split
    · exact (h.mono (by omega)).goto
    · exact (Canvas.BlankFrom.set h c).goto

theorem Canvas.goto_cursor (v : Canvas) (k : ℕ) :
    (v.goto k).col < SCREEN_WIDTH ∧ ((v.goto k).row = v.row ∨ ((v.goto k).row = v.row + 1 ∧ (v.goto k).col = 0)) := by
  unfold Canvas.goto
  split
  · rename_i hk
    exact ⟨hk, .inl rfl⟩
  · exact ⟨show 0 < SCREEN_WIDTH by decide, .inr ⟨rfl, rfl⟩⟩

/-- The cursor moves down by one row at most, and then to its beginning. -/
theorem Canvas.write_cursor (v : Canvas) (c : UInt8) :
    (v.write c).col < SCREEN_WIDTH ∧
      ((v.write c).row = v.row ∨ ((v.write c).row = v.row + 1 ∧ (v.write c).col = 0)) := by
  unfold Canvas.write
  split
  · exact ⟨show 0 < SCREEN_WIDTH by decide, .inr ⟨rfl, rfl⟩⟩
  · split
    · exact v.goto_cursor _
    · exact (v.set c).goto_cursor _

/-! ### The screen follows the canvas -/

theorem Inside.typeChar (h : Inside d₀ d) (hx : d.xpos < SCREEN_WIDTH) (hy : d.ypos < SCREEN_HEIGHT) (c : UInt8) :
    Inside d₀ (wrapLine (typeChar d c)) := by
  have htyped : Inside d₀ (Screen.typeChar d c) := by
    unfold Screen.typeChar
    split
    · exact ⟨h.written, h.behind⟩
    · split
      · exact ⟨h.written, h.behind⟩
      · have hput := h.put (cell_lt hx hy) { d.screen (d.ypos * SCREEN_WIDTH + d.xpos) with c := c }
        exact ⟨hput.written, hput.behind⟩
  unfold wrapLine
  split
  · exact ⟨htyped.written, htyped.behind⟩
  · exact htyped

/-- **One character**: the screen follows the canvas. -/
theorem Follows.writeChar (h : Follows d₀ d v) (c : UInt8) : Follows d₀ (writeChar d c) (v.write c) := by
  have hinside := h.inside.typeChar h.xpos h.ypos c
  have hwindow := h.window.typeChar h.xpos c
  have hfresh := h.fresh.write c
  obtain ⟨hcol, hrow⟩ := v.write_cursor c
  have hold := h.window.ypos
  have hnew := hwindow.ypos
  have hlt := h.ypos
  have hheight : SCREEN_HEIGHT = 25 := rfl
  unfold Screen.writeChar
  simp only
  unfold Canvas.top at *
  by_cases hfull : SCREEN_HEIGHT ≤ (wrapLine (Screen.typeChar d c)).ypos
  · -- the cursor was in the last row
    rw [if_pos hfull]
    have hzero : (v.write c).col = 0 := by
      rcases hrow with hrow | hrow
      · omega
      · exact hrow.2
    have hscrolled := hwindow.scroll (by omega) hzero hfresh
    have htop : v.row + 1 - SCREEN_HEIGHT + 1 = (v.write c).row + 1 - SCREEN_HEIGHT := by omega
    rw [htop] at hscrolled
    have hypos := hscrolled.ypos
    refine ⟨scroll_inside hinside, ?_, by omega, hscrolled, hfresh⟩
    rw [hscrolled.xpos]
    exact hcol
  · rw [if_neg hfull]
    have htop : v.row + 1 - SCREEN_HEIGHT = (v.write c).row + 1 - SCREEN_HEIGHT := by omega
    rw [htop] at hwindow
    refine ⟨hinside, ?_, by omega, hwindow, hfresh⟩
    rw [hwindow.xpos]
    exact hcol

theorem Follows.moveCursor (h : Follows d₀ d v) : Follows d₀ (moveCursor d) v :=
  ⟨⟨h.inside.written, h.inside.behind⟩, h.xpos, h.ypos, ⟨h.window.xpos, h.window.ypos, h.window.cells⟩, h.fresh⟩

/-- **A call**, or the first characters of one. -/
theorem Follows.run (h : Follows d₀ d v) (data : List UInt8) :
    Follows d₀ (data.foldl Screen.writeChar d) (data.foldl Canvas.write v) := by
  induction data generalizing d v with
  | nil => exact h
  | cons c data ih => exact ih (h.writeChar c)

/-- **Any sequence of calls.** -/
theorem Follows.calls (h : Follows d₀ d v) (calls : List (List UInt8)) :
    Follows d₀ (calls.foldl writeToScreen d) (calls.flatten.foldl Canvas.write v) := by
  induction calls generalizing d v with
  | nil => exact h
  | cons data calls ih =>
    rw [List.foldl_cons, List.flatten_cons, List.foldl_append]
    exact ih (h.run data).moveCursor

theorem Cleared.follows (h : Cleared d) : Follows d d .blank := by
  refine ⟨⟨by simp [h.written], fun _ _ => rfl⟩, ?_, ?_, ⟨h.xpos, by rw [h.ypos]; rfl, fun y hy x hx => ?_⟩, fun _ _ _ => rfl⟩
  · rw [h.xpos]
    decide
  · rw [h.ypos]
    decide
  · exact h.cells _ (cell_lt hx hy)

/-- **The screen shows the end of the output.**  After the calls `calls` and the characters `data` of the next one, the
cursor is on the screen, nothing has been written outside it, and its rows are the last ones of the canvas. -/
theorem screen_shows_tail (h : Cleared d) (calls : List (List UInt8)) (data : List UInt8) :
    Follows d (data.foldl writeChar (calls.foldl writeToScreen d)) (.text (calls.flatten ++ data)) := by
  unfold Canvas.text
  rw [List.foldl_append]
  exact (h.follows.calls calls).run data

/-- A cleared screen. -/
def cleared : Display := ⟨fun _ => ⟨char ' ', 7, 0⟩, 0, 0, 0, []⟩

theorem cleared_cleared : Cleared cleared := ⟨rfl, rfl, fun _ _ => rfl, rfl⟩

/-- Lines of one character, one in each call. -/
def column (n : ℕ) : List (List UInt8) := (List.range n).map fun i => [UInt8.ofNat (65 + i), char '\n']

/-- Thirty lines and a tab: the screen has scrolled by six rows. -/
theorem screen_shows_tail_scrolled :
    Follows cleared ([char '\t', char 'x'].foldl writeChar ((column 30).foldl writeToScreen cleared))
        (.text ((column 30).flatten ++ [char '\t', char 'x'])) ∧
      (Canvas.text ((column 30).flatten ++ [char '\t', char 'x'])).top = 6 :=
  ⟨screen_shows_tail cleared_cleared (column 30) [char '\t', char 'x'], by decide +kernel⟩

end AdelaideOS.Screen
