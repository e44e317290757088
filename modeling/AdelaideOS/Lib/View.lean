import AdelaideOS.Lib.Triple

/-!
# What stateful code does to a view of the state

Of a large state one often needs a part only.  `Acts v F o m R` says that `m`, started in a state whose view
under `v` is `o`, returns a value and a state whose view is related to it by `R`, or stops with an error that
satisfies `F`.  The rules follow the code from its first line to its last, one view after the other.

* **`Acts.bind`**, **`Acts.seq`**, **`Acts.ite`**, **`Acts.get`** — one rule for each way of putting computations together;
* **`Still`** — computations that leave the view alone, with rules of the same names;
* **`Upholds`** — computations that keep a property of the view, with rules of the same names.

States, views and errors are arbitrary.
-/

namespace AdelaideOS.Lib.View

variable {ε σ ω α β : Type} {v : σ → ω} {F : ε → Prop} {o : ω}

/-- `Q` holds of a result, `F` of the error with which the computation stopped. -/
def Outcome (Q : α → σ → Prop) (F : ε → Prop) : EStateM.Result ε σ α → Prop
  | .ok a s => Q a s
  | .error e _ => F e

structure Acts (v : σ → ω) (F : ε → Prop) (o : ω) (m : EStateM ε σ α) (R : α → ω → Prop) : Prop where
  run : ∀ s, v s = o → Outcome (fun a s' => R a (v s')) F (m s)

variable {m : EStateM ε σ α} {R R' : α → ω → Prop}

theorem Acts.ok (h : Acts v F o m R) {s s' : σ} {a : α} (hs : v s = o) (hm : m s = .ok a s') :
    R a (v s') := by
  have hrun := h.run s hs
  rw [hm] at hrun
  exact hrun

theorem Acts.error (h : Acts v F o m R) {s s' : σ} {e : ε} (hs : v s = o) (hm : m s = .error e s') :
    F e := by
  have hrun := h.run s hs
  rw [hm] at hrun
  exact hrun

/-- A computation that cannot fail returns. -/
theorem Acts.returns {s : σ} (h : Acts v (fun _ : ε => False) (v s) m R) : ∃ a s', m s = .ok a s' ∧ R a (v s') := by
  have hrun := h.run s rfl
  cases hm : m s with
  | ok a s' =>
    rw [hm] at hrun
    exact ⟨a, s', rfl, hrun⟩
  | error e s' =>
    rw [hm] at hrun
    exact hrun.elim

theorem Acts.mono (h : Acts v F o m R) (hR : ∀ a o', R a o' → R' a o') : Acts v F o m R' := by
  constructor
  intro s hs
  have hrun := h.run s hs
  cases hm : m s with
  | ok a s' =>
    rw [hm] at hrun
    exact hR a (v s') hrun
  | error e s' =>
    rw [hm] at hrun
    exact hrun

theorem Acts.pure {a : α} (h : R a o) : Acts v F o (Pure.pure a : EStateM ε σ α) R := by
  constructor
  intro s hs
  show R a (v s)
  rw [hs]
  exact h

theorem Acts.bind {m : EStateM ε σ β} {f : β → EStateM ε σ α} {R : β → ω → Prop} {R' : α → ω → Prop}
    (hm : Acts v F o m R) (hf : ∀ b o', R b o' → Acts v F o' (f b) R') : Acts v F o (m >>= f) R' := by
  constructor
  intro s hs
  show Outcome _ F (EStateM.bind m f s)
  unfold EStateM.bind
  have hrun := hm.run s hs
  cases hr : m s with
  | ok b s' =>
    rw [hr] at hrun
    exact (hf b (v s') hrun).run s' rfl
  | error e s' =>
    rw [hr] at hrun
    exact hrun

/-- The same with the second part as the aim of the first. -/
theorem Acts.seq {m : EStateM ε σ β} {f : β → EStateM ε σ α} {R : α → ω → Prop}
    (h : Acts v F o m fun b o' => Acts v F o' (f b) R) : Acts v F o (m >>= f) R :=
  h.bind fun _ _ hf => hf

theorem Acts.get {f : σ → EStateM ε σ α} (hf : ∀ s, v s = o → Acts v F o (f s) R) :
    Acts v F o (MonadState.get >>= f) R :=
  ⟨fun s hs => (hf s hs).run s hs⟩

theorem Acts.modify {f : σ → σ} {R : Unit → ω → Prop} (h : ∀ s, v s = o → R () (v (f s))) :
    Acts v F o (modify f : EStateM ε σ Unit) R := ⟨h⟩

theorem Acts.ite {c : Prop} [Decidable c] {m m' : EStateM ε σ α} (h : c → Acts v F o m R)
    (h' : ¬ c → Acts v F o m' R) : Acts v F o (if c then m else m') R := by
  split
  · exact h ‹_›
  · exact h' ‹_›

/-! ### Computations that leave the view alone -/

/-- The view stays what it is. -/
def Still (v : σ → ω) (F : ε → Prop) (m : EStateM ε σ α) : Prop := ∀ o, Acts v F o m fun _ o' => o' = o

theorem Still.acts (h : Still v F m) (hR : ∀ a, R a o) : Acts v F o m R := by
  refine (h o).mono fun a o' ho => ?_
  rw [ho]
  exact hR a

theorem still_pure (a : α) : Still v F (Pure.pure a : EStateM ε σ α) := fun _ => Acts.pure rfl

theorem Still.bind {m : EStateM ε σ β} {f : β → EStateM ε σ α} (hm : Still v F m)
    (hf : ∀ b, Still v F (f b)) : Still v F (m >>= f) := by
  intro o
  refine (hm o).bind fun b o' ho => ?_
  rw [ho]
  exact hf b o

theorem still_get {f : σ → EStateM ε σ α} (hf : ∀ s, Still v F (f s)) :
    Still v F (MonadState.get >>= f) :=
  fun o => Acts.get fun s _ => hf s o

theorem still_modify {f : σ → σ} (h : ∀ s, v (f s) = v s) :
    Still v F (modify f : EStateM ε σ Unit) :=
  fun _ => Acts.modify fun s hs => (h s).trans hs

theorem Still.ite {c : Prop} [Decidable c] {m m' : EStateM ε σ α} (h : Still v F m)
    (h' : Still v F m') : Still v F (if c then m else m') :=
  fun o => Acts.ite (fun _ => h o) fun _ => h' o

/-- A first part that leaves the view alone. -/
theorem Still.andThen {m : EStateM ε σ β} {f : β → EStateM ε σ α} (hm : Still v F m)
    (hf : ∀ b, Acts v F o (f b) R) : Acts v F o (m >>= f) R := by
  refine (hm o).bind fun b o' ho => ?_
  rw [ho]
  exact hf b

/-- The view stays what it is, so does every part of it. -/
theorem Still.map {ω' : Type} {G : ε → Prop} (h : Still v F m) (g : ω → ω') (hF : ∀ e, F e → G e) :
    Still (fun s => g (v s)) G m := by
  intro o
  constructor
  intro s hs
  have hrun := (h (v s)).run s rfl
  cases hm : m s with
  | ok a s' =>
    rw [hm] at hrun
    show g (v s') = o
    rw [show v s' = v s from hrun]
    exact hs
  | error e s' =>
    rw [hm] at hrun
    exact hF e hrun

/-! ### Invariants of the view -/

/-- The view keeps the property `I`. -/
def Upholds (v : σ → ω) (F : ε → Prop) (I : ω → Prop) (m : EStateM ε σ α) : Prop :=
  ∀ o, I o → Acts v F o m fun _ o' => I o'

variable {I : ω → Prop}

theorem Still.upholds (h : Still v F m) : Upholds v F I m := fun _ ho => h.acts fun _ => ho

theorem upholds_pure (a : α) : Upholds v F I (Pure.pure a : EStateM ε σ α) := (still_pure a).upholds

theorem Upholds.bind {m : EStateM ε σ β} {f : β → EStateM ε σ α} (hm : Upholds v F I m)
    (hf : ∀ b, Upholds v F I (f b)) : Upholds v F I (m >>= f) :=
  fun o ho => (hm o ho).bind fun b o' ho' => hf b o' ho'

theorem upholds_get {f : σ → EStateM ε σ α} (hf : ∀ s, Upholds v F I (f s)) :
    Upholds v F I (MonadState.get >>= f) :=
  fun o ho => Acts.get fun s _ => hf s o ho

theorem Upholds.ite {c : Prop} [Decidable c] {m m' : EStateM ε σ α} (h : Upholds v F I m)
    (h' : Upholds v F I m') : Upholds v F I (if c then m else m') :=
  fun o ho => Acts.ite (fun _ => h o ho) fun _ => h' o ho

/-! ### The state itself as a view -/

/-- A computation of two parts that succeeds. -/
theorem bind_ok {m : EStateM ε σ β} {f : β → EStateM ε σ α} {s s' : σ} {a : α}
    (h : (m >>= f) s = .ok a s') : ∃ b s₁, m s = .ok b s₁ ∧ f b s₁ = .ok a s' := by
  have hrun : EStateM.bind m f s = .ok a s' := h
  unfold EStateM.bind at hrun
  cases hm : m s with
  | ok b s₁ =>
    rw [hm] at hrun
    exact ⟨b, s₁, rfl, hrun⟩
  | error e s₁ =>
    rw [hm] at hrun
    cases hrun

theorem Acts.whole {s : σ} (h : Acts v F (v s) m R) : Acts id F s m fun a s' => R a (v s') := by
  constructor
  intro s' hs
  obtain rfl : s' = s := hs
  exact h.run s' rfl

/-- Two views of one computation. -/
theorem Acts.both {s : σ} {G : ε → Prop} {R : α → σ → Prop} {R' : α → ω → Prop} (h : Acts id F s m R)
    (h' : Acts v G (v s) m R') : Acts id F s m fun a s' => R a s' ∧ R' a (v s') := by
  constructor
  intro s₀ hs
  obtain rfl : s₀ = s := hs
  have hrun := h.run s₀ rfl
  have hrun' := h'.run s₀ rfl
  cases hm : m s₀ with
  | ok a s' =>
    rw [hm] at hrun hrun'
    exact ⟨hrun, hrun'⟩
  | error e s' =>
    rw [hm] at hrun
    exact hrun

end AdelaideOS.Lib.View
