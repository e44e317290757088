import AdelaideOS.Libc.Format

/-!
# Characters in the buffer

Printing a text is adding its characters one by one.  What the buffer holds afterwards depends on the text printed last
at each place only, which is why a field may be printed twice.

* **`puts_over`** — a text that is printed over a shorter one leaves nothing of it;
* **`puts_str`** — the buffer after a text that does not wrap around;
* **`puts_last`** — the buffer after any text.
-/

namespace AdelaideOS.Libc

open AdelaideOS.Kernel AdelaideOS.Lib.Bytes

/-- The characters of a text are added. -/
def puts (size : ℕ) (cs : List UInt8) (o : Printer) : Printer := cs.foldl (fun o c => addchar size c o) o

/-- The same text, with other notes about what was fetched and looked at. -/
def Printer.mark (o : Printer) (ap : ℕ) (seen : List ℕ) : Printer := { o with ap := ap, seen := seen }

/-- The next character goes to `pos`. -/
def Printer.rewind (o : Printer) (pos : ℕ) : Printer := { o with pos := pos }

/-- A text of `n` characters from `pos` on is stored at `i`, among other places. -/
def Touched (size : ℕ) : ℕ → ℕ → ℕ → Prop
  | _, 0, _ => False
  | pos, n + 1, i => (i = pos ∧ (pos + 1) % wordSize < size) ∨ Touched size ((pos + 1) % wordSize) n i

variable {size i n p : ℕ} {c : UInt8} {cs ds : List UInt8} {o o' : Printer}

@[simp] theorem addchar_pos : (addchar size c o).pos = (o.pos + 1) % wordSize := rfl

@[simp] theorem addchar_ap : (addchar size c o).ap = o.ap := rfl

@[simp] theorem addchar_seen : (addchar size c o).seen = o.seen := rfl

theorem puts_cons (size : ℕ) (c : UInt8) (cs : List UInt8) (o : Printer) :
    puts size (c :: cs) o = puts size cs (addchar size c o) := rfl

theorem puts_append (size : ℕ) (cs ds : List UInt8) (o : Printer) :
    puts size (cs ++ ds) o = puts size ds (puts size cs o) := List.foldl_append

theorem puts_one (size : ℕ) (c : UInt8) (o : Printer) : addchar size c o = puts size [c] o := rfl

@[simp] theorem puts_ap (size : ℕ) (cs : List UInt8) (o : Printer) : (puts size cs o).ap = o.ap := by
  induction cs generalizing o with
  | nil => rfl
  | cons c cs ih => rw [puts_cons, ih, addchar_ap]

@[simp] theorem puts_seen (size : ℕ) (cs : List UInt8) (o : Printer) : (puts size cs o).seen = o.seen := by
  induction cs generalizing o with
  | nil => rfl
  | cons c cs ih => rw [puts_cons, ih, addchar_seen]

theorem puts_pos (size : ℕ) (cs : List UInt8) (hpos : o.pos < wordSize) :
    (puts size cs o).pos = (o.pos + cs.length) % wordSize := by
  induction cs generalizing o with
  | nil => exact (Nat.mod_eq_of_lt hpos).symm
  | cons c cs ih =>
    rw [puts_cons, ih (Nat.mod_lt _ (by decide)), addchar_pos, List.length_cons, Nat.mod_add_mod, Nat.add_assoc,
      Nat.add_comm 1]

theorem puts_pos_lt (size : ℕ) (cs : List UInt8) (hpos : o.pos < wordSize) : (puts size cs o).pos < wordSize := by
  rw [puts_pos size cs hpos]
  exact Nat.mod_lt _ (by decide)

theorem padLoop_eq (size pad : ℕ) (o : Printer) :
    padLoop size pad o = puts size (List.replicate pad (char ' ')) o := by
  induction pad generalizing o with
  | zero => rfl
  | succ pad ih => rw [padLoop, ih, List.replicate_succ, puts_cons]

/-! ### Printing over a text -/

theorem Touched.mono {m : ℕ} (h : Touched size p n i) (hle : n ≤ m) : Touched size p m i := by
  induction n generalizing p m with
  | zero => exact h.elim
  | succ n ih =>
    obtain ⟨m, rfl⟩ : ∃ x, m = x + 1 := ⟨m - 1, by omega⟩
    rcases h with hfirst | hrest
    · exact .inl hfirst
    · exact .inr (ih hrest (by omega))

/-- **Frame.**  A text is stored where it goes, and nowhere else. -/
theorem puts_outside (h : ¬ Touched size o.pos cs.length i) : (puts size cs o).str i = o.str i := by
  induction cs generalizing o with
  | nil => rfl
  | cons c cs ih =>
    rw [List.length_cons, Touched, not_or] at h
    rw [puts_cons, ih h.2]
    unfold addchar
    simp only
    split
    · rename_i hfits
      exact Function.update_of_ne (fun he => h.1 ⟨he, hfits⟩) _ _
    · rfl

/-- Two buffers that differ only where the text goes are the same after the text. -/
theorem puts_agree (hpos : o.pos = o'.pos) (h : ∀ i, ¬ Touched size o.pos cs.length i → o.str i = o'.str i) :
    (puts size cs o).str = (puts size cs o').str := by
  induction cs generalizing o o' with
  | nil =>
    funext i
    exact h i id
  | cons c cs ih =>
    rw [puts_cons, puts_cons]
    refine ih (by rw [addchar_pos, addchar_pos, hpos]) fun i hi => ?_
    unfold addchar
    simp only [← hpos]
    by_cases hfits : (o.pos + 1) % wordSize < size
    · rw [if_pos hfits, if_pos hfits]
      by_cases he : i = o.pos
      · rw [he, Function.update_self, Function.update_self]
      · rw [Function.update_of_ne he, Function.update_of_ne he]
        refine h i ?_
        rintro (hfirst | hrest)
        · exact he hfirst.1
        · exact hi hrest
    · rw [if_neg hfits, if_neg hfits]
      refine h i ?_
      rintro (hfirst | hrest)
      · exact hfits hfirst.2
      · exact hi hrest

theorem puts_pos_congr (hpos : o.pos = o'.pos) : (puts size cs o).pos = (puts size cs o').pos := by
  induction cs generalizing o o' with
  | nil => exact hpos
  | cons c cs ih =>
    rw [puts_cons, puts_cons]
    exact ih (by rw [addchar_pos, addchar_pos, hpos])

theorem Printer.ext {o o' : Printer} (hstr : o.str = o'.str) (hpos : o.pos = o'.pos) (hap : o.ap = o'.ap)
    (hseen : o.seen = o'.seen) : o = o' := by
  cases o
  cases o'
  simp only [Printer.mk.injEq]
  exact ⟨hstr, hpos, hap, hseen⟩

theorem puts_mark (size : ℕ) (cs : List UInt8) (o : Printer) (ap : ℕ) (seen : List ℕ) :
    puts size cs (o.mark ap seen) = (puts size cs o).mark ap seen := by
  refine Printer.ext ?_ ?_ ?_ ?_
  · exact puts_agree rfl fun _ _ => rfl
  · exact puts_pos_congr rfl
  · exact puts_ap size cs _
  · exact puts_seen size cs _

/-- **Printing over.**  After a rewind, a text that is at least as long leaves nothing of the first one. -/
theorem puts_over (size : ℕ) (o : Printer) (hle : cs.length ≤ ds.length) :
    puts size ds ((puts size cs o).rewind o.pos) = puts size ds o := by
  refine Printer.ext ?_ ?_ ?_ ?_
  · refine puts_agree rfl fun i hi => ?_
    exact puts_outside fun ht => hi (ht.mono hle)
  · exact puts_pos_congr rfl
  · rw [puts_ap, puts_ap]
    exact puts_ap size cs o
  · rw [puts_seen, puts_seen]
    exact puts_seen size cs o

/-! ### The buffer afterwards -/

/-- **A text that does not wrap around** is stored as far as it fits. -/
theorem puts_str (hfits : o.pos + cs.length < wordSize) (i : ℕ) :
    (puts size cs o).str i =
      if o.pos ≤ i ∧ i < o.pos + cs.length ∧ i + 1 < size then cs.getD (i - o.pos) 0 else o.str i := by
  induction cs generalizing o with
  | nil => rw [if_neg (by simp only [List.length_nil]; omega)]; rfl
  | cons c cs ih =>
    simp only [List.length_cons] at hfits ⊢
    have hnext : (o.pos + 1) % wordSize = o.pos + 1 := Nat.mod_eq_of_lt (by omega)
    rw [puts_cons, ih (by rw [addchar_pos, hnext]; omega), addchar_pos, hnext]
    have hold : (addchar size c o).str i = if i = o.pos ∧ i + 1 < size then c else o.str i := by
      unfold addchar
      simp only [hnext]
      by_cases hroom : o.pos + 1 < size
      · rw [if_pos hroom]
        by_cases he : i = o.pos
        · rw [if_pos ⟨he, by omega⟩, he, Function.update_self]
        · rw [if_neg fun hc => he hc.1, Function.update_of_ne he]
      · rw [if_neg hroom, if_neg (by omega)]
    rw [hold]
    by_cases he : i = o.pos
    · subst he
      rw [if_neg (by omega), Nat.sub_self, List.getD_cons_zero]
      by_cases hroom : o.pos + 1 < size
      · rw [if_pos ⟨rfl, hroom⟩, if_pos ⟨le_rfl, by omega, hroom⟩]
      · rw [if_neg fun hc => hroom hc.2, if_neg fun hc => hroom hc.2.2]
    · by_cases hin : o.pos ≤ i ∧ i < o.pos + (cs.length + 1) ∧ i + 1 < size
      · rw [if_pos (by omega), if_pos hin, show i - o.pos = i - (o.pos + 1) + 1 by omega, List.getD_cons_succ]
      · rw [if_neg (by omega), if_neg hin, if_neg fun hc => he hc.1]

/-- **Any text** from the beginning of the buffer on: a place holds the last character that went there. -/
theorem puts_last (hpos : o.pos = 0) (hi : i < cs.length % wordSize) (hroom : i + 1 < size) (hsize : size ≤ wordSize) :
    cs[wordSize * (cs.length / wordSize) + i]? = some ((puts size cs o).str i) := by
  induction cs using List.reverseRecOn with
  | nil => simp at hi
  | append_singleton cs c ih =>
    have hp : (puts size cs o).pos = cs.length % wordSize := by
      rw [puts_pos size cs (by rw [hpos]; decide), hpos, Nat.zero_add]
    rw [List.length_append, List.length_singleton] at hi ⊢
    rw [puts_append, ← puts_one]
    unfold addchar
    simp only [hp]
    have hstep : (cs.length + 1) % wordSize = cs.length % wordSize + 1 ∧
        (cs.length + 1) / wordSize = cs.length / wordSize := by
      simp only [wordSize] at *
      omega
    have hmod : (cs.length % wordSize + 1) % wordSize = cs.length % wordSize + 1 := by
      rw [← hstep.1, Nat.mod_mod]
    have hdiv := Nat.div_add_mod cs.length wordSize
    rw [hmod, hstep.2]
    rw [hstep.1] at hi
    by_cases he : i = cs.length % wordSize
    · rw [if_pos (by omega), he, Function.update_self, hdiv]
      simp
    · have hrest := ih (by omega)
      rw [List.getElem?_append_left (by
        have := (List.getElem?_eq_some_iff.mp hrest).1
        exact this), hrest]
      congr 1
      split
      · exact (Function.update_of_ne he _ _).symm
      · rfl

end AdelaideOS.Libc
