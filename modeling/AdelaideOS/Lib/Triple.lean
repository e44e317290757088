import Mathlib.Tactic

/-!
# Triples for stateful code that can stop

A computation of `EStateM ε σ α` returns a value or stops with an error, and leaves a state in both cases.
`Sat P m Q E` says that `m`, started in a state that satisfies `P`, ends in `Q` if it returns and in `E` if it
stops.

* **`Sat.bind`**, **`Sat.ite`**, **`Sat.get`** — one rule for each way of putting computations together;
* **`Sat.weaken`** — consequence;
* **`Sat.ok`** — what a triple says about a run that returns.

The states and errors are arbitrary.
-/

namespace AdelaideOS.Lib.Triple

variable {ε σ α β : Type} {P P' : σ → Prop} {Q Q' : α → σ → Prop} {R : β → σ → Prop} {E E' : σ → Prop}

/-- `Q` holds of a result, `E` of a state in which the computation stopped. -/
def Ends (Q : α → σ → Prop) (E : σ → Prop) : EStateM.Result ε σ α → Prop
  | .ok a s => Q a s
  | .error _ s => E s

structure Sat (P : σ → Prop) (m : EStateM ε σ α) (Q : α → σ → Prop) (E : σ → Prop) : Prop where
  run : ∀ s, P s → Ends Q E (m s)

theorem Sat.ok {m : EStateM ε σ α} (h : Sat P m Q E) {s s' : σ} {a : α} (hs : P s)
    (hm : m s = .ok a s') : Q a s' := by
  have hrun := h.run s hs
  rw [hm] at hrun
  exact hrun

theorem Sat.weaken {m : EStateM ε σ α} (h : Sat P m Q E) (hP : ∀ s, P' s → P s)
    (hQ : ∀ a s, Q a s → Q' a s) (hE : ∀ s, E s → E' s) : Sat P' m Q' E' := by
  constructor
  intro s hs
  have hrun := h.run s (hP s hs)
  cases hm : m s with
  | ok a s' =>
    rw [hm] at hrun
    exact hQ a s' hrun
  | error e s' =>
    rw [hm] at hrun
    exact hE s' hrun

theorem Sat.post {m : EStateM ε σ α} (h : Sat P m Q E) (hQ : ∀ a s, Q a s → Q' a s) : Sat P m Q' E :=
  h.weaken (fun _ hs => hs) hQ (fun _ hs => hs)

theorem Sat.pre {m : EStateM ε σ α} (h : Sat P m Q E) (hP : ∀ s, P' s → P s) : Sat P' m Q E :=
  h.weaken hP (fun _ _ hs => hs) (fun _ hs => hs)

/-- A fact that does not depend on the state is used to prove the triple. -/
theorem Sat.assume {m : EStateM ε σ α} {c : Prop} (hc : ∀ s, P s → c) (h : c → Sat P m Q E) :
    Sat P m Q E :=
  ⟨fun s hs => (h (hc s hs)).run s hs⟩

theorem Sat.exists {ι : Type} {P : ι → σ → Prop} {m : EStateM ε σ α} (h : ∀ i, Sat (P i) m Q E) :
    Sat (fun s => ∃ i, P i s) m Q E := by
  constructor
  rintro s ⟨i, hi⟩
  exact (h i).run s hi

theorem Sat.and {c : Prop} {m : EStateM ε σ α} (h : c → Sat P m Q E) :
    Sat (fun s => c ∧ P s) m Q E := by
  constructor
  rintro s ⟨hc, hs⟩
  exact (h hc).run s hs

theorem Sat.pure {a : α} (h : ∀ s, P s → Q a s) : Sat P (Pure.pure a : EStateM ε σ α) Q E := ⟨h⟩

theorem Sat.bind {m : EStateM ε σ β} {f : β → EStateM ε σ α} (hm : Sat P m R E)
    (hf : ∀ b, Sat (R b) (f b) Q E) : Sat P (m >>= f) Q E := by
  constructor
  intro s hs
  show Ends Q E (EStateM.bind m f s)
  unfold EStateM.bind
  have hrun := hm.run s hs
  cases hr : m s with
  | ok b s' =>
    rw [hr] at hrun
    exact (hf b).run s' hrun
  | error e s' =>
    rw [hr] at hrun
    exact hrun

/-- A first part that returns is followed by the second. -/
theorem run_bind {m : EStateM ε σ β} {f : β → EStateM ε σ α} {s t : σ} {b : β}
    (h : m s = .ok b t) : (m >>= f) s = f b t := by
  show EStateM.bind m f s = _
  unfold EStateM.bind
  rw [h]

/-- A first part that stops ends the whole. -/
theorem run_bind_error {m : EStateM ε σ β} {f : β → EStateM ε σ α} {s t : σ} {e : ε}
    (h : m s = .error e t) : (m >>= f) s = .error e t := by
  show EStateM.bind m f s = _
  unfold EStateM.bind
  rw [h]

/-- First parts that do the same in one state are followed by the same. -/
theorem run_congr {m m' : EStateM ε σ β} (f : β → EStateM ε σ α) {s : σ} (h : m s = m' s) : (m >>= f) s = (m' >>= f) s := by
  show EStateM.bind m f s = EStateM.bind m' f s
  unfold EStateM.bind
  rw [h]

theorem run_get {f : σ → EStateM ε σ α} {s : σ} : (MonadState.get >>= f) s = f s s := rfl

theorem Sat.get {f : σ → EStateM ε σ α} (hf : ∀ s, P s → Sat P (f s) Q E) :
    Sat P (MonadState.get >>= f) Q E :=
  ⟨fun s hs => (hf s hs).run s hs⟩

theorem Sat.modify {f : σ → σ} {Q : Unit → σ → Prop} (h : ∀ s, P s → Q () (f s)) :
    Sat P (modify f : EStateM ε σ Unit) Q E := ⟨h⟩

theorem Sat.ite {c : Prop} [Decidable c] {m m' : EStateM ε σ α} (h : c → Sat P m Q E)
    (h' : ¬ c → Sat P m' Q E) : Sat P (if c then m else m') Q E := by
  split
  · exact h ‹_›
  · exact h' ‹_›

end AdelaideOS.Lib.Triple
