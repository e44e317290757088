import AdelaideOS.Kernel.Records
import AdelaideOS.Kernel.Sessions

/-!
# The ring of `mptest.c`

`test_ring` starts the processes of a ring, tells each the number of its neighbour, and sends a token around.  The
assertions of `ring` say that the number of the neighbour comes first and that everything after it is the token.

* **`Phase.step`** — where the token is, and what is in the mailboxes, after each step;
* **`ring_ends`** — every interleaving has the same number of steps, and ends when the main process has the token;
* **`ring_of_session`** — over the kernel no assertion fails, and there is never a second token.
-/

namespace AdelaideOS.Mptest

open AdelaideOS.Kernel AdelaideOS.Lib.Actors AdelaideOS.Lib.Bytes AdelaideOS.Lib.Triple AdelaideOS.Process

abbrev TAG_NEIGHBOUR : ℕ := 6

abbrev TAG_TOKEN : ℕ := 7

abbrev RING_SIZE : ℕ := 4

abbrev RING_MAX_PASSES : ℕ := 100

/-- `*(int*)msg.data`. -/
def intOf (data : List UInt8) : ℤ := toInt (wordOf (data.take 4))

/-- A message of `sizeof(int)` bytes. -/
def intMessage (p tag : ℕ) (i : ℤ) : Message := ⟨p, tag, 4, wordBytes (ofInt i)⟩

/-- Where the processes of the test are in their programs. -/
inductive RingState where
  /-- `ring`, before the number of the neighbour has come. -/
  | begin (index : ℕ)
  | waiting (index : ℕ) (next : ℤ)
  | passing (index : ℕ) (next token : ℤ)
  /-- `test_ring`, about to tell process `i` its neighbour, or to send the token. -/
  | telling (i : ℕ)
  | expecting
  | finished (token : ℤ)
  | failed
  | other
  deriving DecidableEq

/-- The size of the ring, the number of passes, and the processes. -/
structure RingTest where
  size : ℕ
  passes : ℕ
  main : ℕ
  pids : ℕ → ℕ

/-- `ring` and `test_ring`. -/
def ring (T : RingTest) (p : ℕ) : RingState → Act ℕ Message RingState
  | .begin i => .receive fun msg =>
      if msg.tag = TAG_NEIGHBOUR ∧ msg.size = 4 then .waiting i (intOf msg.data) else .failed
  | .waiting i next => .receive fun msg =>
      if msg.tag = TAG_TOKEN ∧ msg.size = 4 then .passing i next (intOf msg.data + 1) else .failed
  | .passing i next token =>
      .send (if token < T.passes then next.toNat else T.main) (intMessage p TAG_TOKEN token) (.waiting i next)
  | .telling i =>
      if i < T.size then .send (T.pids i) (intMessage p TAG_NEIGHBOUR (T.pids ((i + 1) % T.size))) (.telling (i + 1))
      else .send (T.pids 0) (intMessage p TAG_TOKEN 0) .expecting
  | .expecting => .receive fun msg =>
      if msg.tag = TAG_TOKEN ∧ msg.size = 4 then .finished (intOf msg.data) else .failed
  | .finished _ => .stop
  | .failed => .stop
  | .other => .stop

/-- The ring has a process, the token makes a pass, and the numbers of the processes are different `int`s. -/
structure RingTest.Sound (T : RingTest) : Prop where
  size : 0 < T.size
  passes : 0 < T.passes
  small : T.passes < 2147483648
  injective : ∀ i < T.size, ∀ j < T.size, T.pids i = T.pids j → i = j
  apart : ∀ i < T.size, T.pids i ≠ T.main
  pid : ∀ i < T.size, T.pids i < 2147483648
  main : T.main < 2147483648

/-- The processes of the test. -/
def RingTest.Part (T : RingTest) (p : ℕ) : Prop := p = T.main ∨ ∃ i < T.size, p = T.pids i

/-- Where they begin. -/
def RingTest.start (T : RingTest) (p : ℕ) : RingState :=
  if p = T.main then .telling 0
  else match (List.range T.size).find? fun i => T.pids i == p with
    | some i => .begin i
    | none => .other

variable {T : RingTest} {N N' : Net ℕ Message RingState} {i j p v : ℕ} {msg : Message} {rest extra : List Message}

theorem start_main : T.start T.main = .telling 0 := if_pos rfl

theorem RingTest.Sound.start_pids (h : T.Sound) (hi : i < T.size) : T.start (T.pids i) = .begin i := by
  have hfind : (List.range T.size).find? (fun j => T.pids j == T.pids i) = some i := by
    rw [List.find?_range_eq_some]
    refine ⟨by simp, List.mem_range.mpr hi, fun j hj => ?_⟩
    simp only [Bool.not_eq_true', beq_eq_false_iff_ne]
    intro heq
    have hji := h.injective j (by omega) i hi heq
    omega
  unfold RingTest.start
  rw [if_neg (h.apart i hi), hfind]

theorem start_other (hp : ¬ T.Part p) : T.start p = .other := by
  unfold RingTest.start
  rw [if_neg fun hm => hp (Or.inl hm)]
  cases hfind : (List.range T.size).find? fun i => T.pids i == p with
  | none => rfl
  | some i =>
    have hi := List.mem_of_find?_eq_some hfind
    have hpid := List.find?_some hfind
    rw [List.mem_range] at hi
    simp only [beq_iff_eq] at hpid
    exact absurd (Or.inr ⟨i, hi, hpid.symm⟩) hp

/-! ### Where the token is -/

/-- What process `i` is told. -/
def nextOf (T : RingTest) (i : ℕ) : ℤ := T.pids ((i + 1) % T.size)

def neighbour (T : RingTest) (i : ℕ) : Message := intMessage T.main TAG_NEIGHBOUR (nextOf T i)

/-- A process of the ring has not been told its neighbour; or it waits, and apart from the number of its neighbour
its mailbox holds `extra`; or it has received the token `v`. -/
inductive Spot where
  | untold
  | ready (extra : List Message)
  | holding (v : ℕ)

def Spot.Holds (T : RingTest) (N : Net ℕ Message RingState) (k : ℕ) : Spot → Prop
  | untold => N.state (T.pids k) = .begin k ∧ N.box (T.pids k) = []
  | ready extra => N.state (T.pids k) = .begin k ∧ N.box (T.pids k) = neighbour T k :: extra ∨
      N.state (T.pids k) = .waiting k (nextOf T k) ∧ N.box (T.pids k) = extra
  | holding v => N.state (T.pids k) = .passing k (nextOf T k) (v + 1) ∧ N.box (T.pids k) = []

/-- `token i v s`: the token `v`, sent by `s`, is in the mailbox of process `i`. -/
inductive Phase where
  | telling (j : ℕ)
  | token (i v s : ℕ)
  | holding (i v : ℕ)
  | returned (s : ℕ)
  | finished

def Phase.spot : Phase → ℕ → Spot
  | telling j, k => if k < j then .ready [] else .untold
  | token i v s, k => .ready (if k = i then [intMessage s TAG_TOKEN v] else [])
  | holding i v, k => if k = i then .holding v else .ready []
  | returned _, _ => .ready []
  | finished, _ => .ready []

/-- The state and the mailbox of the main process. -/
def Phase.main (T : RingTest) : Phase → RingState × List Message
  | telling j => (.telling j, [])
  | token _ _ _ => (.expecting, [])
  | holding _ _ => (.expecting, [])
  | returned s => (.expecting, [intMessage s TAG_TOKEN T.passes])
  | finished => (.finished T.passes, [])

/-- The value of the token tells where it is. -/
def Phase.Sane (T : RingTest) : Phase → Prop
  | telling j => j ≤ T.size
  | token i v _ => v % T.size = i ∧ v < T.passes
  | holding i v => v % T.size = i ∧ v < T.passes
  | returned _ => True
  | finished => True

/-- How many sends and receipts are to come, those of the neighbours' numbers left aside. -/
def Phase.left (T : RingTest) : Phase → ℕ
  | telling j => T.size - j + 2 * T.passes + 2
  | token _ v _ => 2 * (T.passes - v) + 1
  | holding _ v => 2 * (T.passes - v)
  | returned _ => 1
  | finished => 0

structure Standing (T : RingTest) (N : Net ℕ Message RingState) (ph : Phase) : Prop where
  sane : ph.Sane T
  state : N.state T.main = (ph.main T).1
  box : N.box T.main = (ph.main T).2
  spots : ∀ k < T.size, (ph.spot k).Holds T N k
  others : ∀ p, ¬ T.Part p → N.state p = .other

/-- How many processes have not read the number of their neighbour. -/
def begun (T : RingTest) (N : Net ℕ Message RingState) : ℕ :=
  ((Finset.range T.size).filter fun k => N.state (T.pids k) = .begin k).card

theorem standing_init (hT : T.Sound) : Standing T (Net.init T.start) (.telling 0) := by
  refine ⟨Nat.zero_le _, start_main, rfl, fun k hk => ?_, fun p hp => start_other hp⟩
  exact ⟨hT.start_pids hk, rfl⟩

theorem begun_init (hT : T.Sound) : begun T (Net.init T.start) = T.size := by
  unfold begun
  rw [Finset.filter_true_of_mem, Finset.card_range]
  intro k hk
  exact hT.start_pids (Finset.mem_range.mp hk)

theorem Spot.Holds.congr {s : Spot} {k : ℕ} (h : s.Holds T N k) (hstate : N'.state (T.pids k) = N.state (T.pids k))
    (hbox : N'.box (T.pids k) = N.box (T.pids k)) : s.Holds T N' k := by
  cases s <;> simp only [Spot.Holds, hstate, hbox] at h ⊢ <;> exact h

/-- Nobody else's state is that of a beginning process. -/
theorem begun_congr (h : ∀ k < T.size, (N'.state (T.pids k) = .begin k ↔ N.state (T.pids k) = .begin k)) :
    begun T N' = begun T N := by
  unfold begun
  congr 1
  apply Finset.filter_congr
  intro k hk
  exact h k (Finset.mem_range.mp hk)

theorem begun_succ {k : ℕ} (hk : k < T.size) (hN : N.state (T.pids k) = .begin k)
    (hN' : N'.state (T.pids k) ≠ .begin k)
    (h : ∀ i < T.size, i ≠ k → N'.state (T.pids i) = N.state (T.pids i)) : begun T N' + 1 = begun T N := by
  have hmem : k ∈ (Finset.range T.size).filter fun k => N.state (T.pids k) = .begin k :=
    Finset.mem_filter.mpr ⟨Finset.mem_range.mpr hk, hN⟩
  unfold begun
  rw [← Finset.card_erase_add_one hmem]
  congr 2
  ext i
  simp only [Finset.mem_filter, Finset.mem_range, Finset.mem_erase]
  constructor
  · rintro ⟨hi, hs⟩
    have hik : i ≠ k := by
      rintro rfl
      exact hN' hs
    exact ⟨hik, hi, by rw [← h i hi hik]; exact hs⟩
  · rintro ⟨hik, hi, hs⟩
    exact ⟨hi, by rw [h i hi hik]; exact hs⟩

/-! ### Messages -/

theorem intOf_natCast {v : ℕ} (hv : v < 2147483648) : intOf (wordBytes (ofInt v)) = v := by
  have hword : ofInt v = v := by
    unfold ofInt
    omega
  have htake : (wordBytes v).take 4 = wordBytes v := List.take_of_length_le (Nat.le_refl _)
  rw [intOf, hword, htake, wordOf_wordBytes, Nat.mod_eq_of_lt (by unfold wordSize; omega), toInt, if_pos hv]

theorem RingTest.Sound.intOf_next (h : T.Sound) (i : ℕ) : intOf (wordBytes (ofInt (nextOf T i))) = nextOf T i :=
  intOf_natCast (h.pid _ (Nat.mod_lt _ h.size))

/-! ### Steps -/

section Steps

variable {k : ℕ} {ph : Phase}

/-- A process of the ring that has been told its neighbour reads the number. -/
theorem Standing.begin (hT : T.Sound) (h : Standing T N ph) (hk : k < T.size) (hspot : ph.spot k = .ready extra)
    (hstate : N.state (T.pids k) = .begin k) :
    Standing T (N.collect (T.pids k) (.waiting k (nextOf T k)) extra) ph ∧
      begun T (N.collect (T.pids k) (.waiting k (nextOf T k)) extra) + 1 = begun T N := by
  have hmain : T.main ≠ T.pids k := Ne.symm (hT.apart k hk)
  have hne : ∀ i < T.size, i ≠ k → T.pids i ≠ T.pids k := fun i hi hik heq => hik (hT.injective i hi k hk heq)
  refine ⟨⟨h.sane, ?_, ?_, fun i hi => ?_, fun p hp => ?_⟩, begun_succ hk hstate ?_ fun i hi hik => ?_⟩
  · rw [Net.state_collect_of_ne _ _ _ hmain]
    exact h.state
  · rw [Net.box_collect_of_ne _ _ _ hmain]
    exact h.box
  · by_cases hik : i = k
    · rw [hik, hspot]
      exact Or.inr ⟨Net.state_collect_self .., Net.box_collect_self ..⟩
    · exact (h.spots i hi).congr (Net.state_collect_of_ne _ _ _ (hne i hi hik))
        (Net.box_collect_of_ne _ _ _ (hne i hi hik))
  · rw [Net.state_collect_of_ne]
    · exact h.others p hp
    · rintro rfl
      exact hp (Or.inr ⟨k, hk, rfl⟩)
  · rw [Net.state_collect_self]
    intro h'
    cases h'
  · rw [Net.state_collect_of_ne _ _ _ (hne i hi hik)]

/-- Moves of the main process leave the ring's processes where they are. -/
theorem begun_main (hT : T.Sound) {s : RingState} (hstate : N'.state = Function.update N.state T.main s) :
    begun T N' = begun T N := by
  apply begun_congr
  intro k hk
  rw [hstate, Function.update_of_ne (hT.apart k hk)]

/-- The main process tells process `j` its neighbour. -/
theorem Standing.tell (hT : T.Sound) (h : Standing T N (.telling j)) (hj : j < T.size) :
    Standing T (N.post T.main (T.pids j) (neighbour T j) (.telling (j + 1))) (.telling (j + 1)) := by
  refine ⟨hj, Net.state_post_self .., ?_, fun k hk => ?_, fun p hp => ?_⟩
  · rw [Net.box_post_of_ne _ _ _ (Ne.symm (hT.apart j hj))]
    exact h.box
  · have hspot := h.spots k hk
    have hstate : (N.post T.main (T.pids j) (neighbour T j) (.telling (j + 1))).state (T.pids k) =
        N.state (T.pids k) := Net.state_post_of_ne N _ _ (hT.apart k hk)
    by_cases hkj : k = j
    · subst hkj
      simp only [Phase.spot, Nat.lt_irrefl, if_false] at hspot
      simp only [Phase.spot, Nat.lt_succ_self, if_true]
      refine Or.inl ⟨hstate.trans hspot.1, ?_⟩
      rw [Net.box_post_self, hspot.2, List.nil_append]
    · have hlt : k < j + 1 ↔ k < j := by omega
      have hne : T.pids k ≠ T.pids j := fun heq => hkj (hT.injective k hk j hj heq)
      simp only [Phase.spot, hlt]
      exact hspot.congr hstate (Net.box_post_of_ne _ _ _ hne)
  · rw [Net.state_post_of_ne _ _ _ fun hm => hp (Or.inl hm)]
    exact h.others p hp

/-- The main process sends the token to the first process. -/
theorem Standing.launch (hT : T.Sound) (h : Standing T N (.telling T.size)) :
    Standing T (N.post T.main (T.pids 0) (intMessage T.main TAG_TOKEN 0) .expecting) (.token 0 0 T.main) := by
  refine ⟨⟨Nat.zero_mod _, hT.passes⟩, Net.state_post_self .., ?_, fun k hk => ?_, fun p hp => ?_⟩
  · rw [Net.box_post_of_ne _ _ _ (Ne.symm (hT.apart 0 hT.size))]
    exact h.box
  · have hspot := h.spots k hk
    simp only [Phase.spot, hk, if_true] at hspot
    have hstate : (N.post T.main (T.pids 0) (intMessage T.main TAG_TOKEN 0) .expecting).state (T.pids k) =
        N.state (T.pids k) := Net.state_post_of_ne N _ _ (hT.apart k hk)
    by_cases hk0 : k = 0
    · subst hk0
      simp only [Phase.spot, if_true]
      rcases hspot with ⟨hs, hb⟩ | ⟨hs, hb⟩
      · refine Or.inl ⟨hstate.trans hs, ?_⟩
        rw [Net.box_post_self, hb]
        rfl
      · refine Or.inr ⟨hstate.trans hs, ?_⟩
        rw [Net.box_post_self, hb]
        rfl
    · have hne : T.pids k ≠ T.pids 0 := fun heq => hk0 (hT.injective k hk 0 hT.size heq)
      simp only [Phase.spot, if_neg hk0]
      exact Spot.Holds.congr (s := .ready []) hspot hstate (Net.box_post_of_ne _ _ _ hne)
  · rw [Net.state_post_of_ne _ _ _ fun hm => hp (Or.inl hm)]
    exact h.others p hp

/-- A process of the ring takes the token. -/
theorem Standing.hold (hT : T.Sound) {s : ℕ} (h : Standing T N (.token i v s))
    (hstate : N.state (T.pids i) = .waiting i (nextOf T i)) :
    Standing T (N.collect (T.pids i) (.passing i (nextOf T i) (v + 1)) []) (.holding i v) := by
  have hi : i < T.size := by
    rw [← h.sane.1]
    exact Nat.mod_lt _ hT.size
  have hmain : T.main ≠ T.pids i := Ne.symm (hT.apart i hi)
  refine ⟨h.sane, ?_, ?_, fun k hk => ?_, fun p hp => ?_⟩
  · rw [Net.state_collect_of_ne _ _ _ hmain]
    exact h.state
  · rw [Net.box_collect_of_ne _ _ _ hmain]
    exact h.box
  · by_cases hki : k = i
    · subst hki
      simp only [Phase.spot, if_true]
      exact ⟨Net.state_collect_self .., Net.box_collect_self ..⟩
    · have hspot := h.spots k hk
      have hne : T.pids k ≠ T.pids i := fun heq => hki (hT.injective k hk i hi heq)
      simp only [Phase.spot, if_neg hki] at hspot ⊢
      exact Spot.Holds.congr (s := .ready []) hspot (Net.state_collect_of_ne _ _ _ hne) (Net.box_collect_of_ne _ _ _ hne)
  · rw [Net.state_collect_of_ne]
    · exact h.others p hp
    · rintro rfl
      exact hp (Or.inr ⟨i, hi, rfl⟩)

/-- A process of the ring passes the token to its neighbour. -/
theorem Standing.pass (hT : T.Sound) (h : Standing T N (.holding i v)) (hv : v + 1 < T.passes) :
    Standing T (N.post (T.pids i) (T.pids ((i + 1) % T.size)) (intMessage (T.pids i) TAG_TOKEN (v + 1 : ℕ))
      (.waiting i (nextOf T i))) (.token ((i + 1) % T.size) (v + 1) (T.pids i)) := by
  have hi : i < T.size := by
    rw [← h.sane.1]
    exact Nat.mod_lt _ hT.size
  have hnext : (i + 1) % T.size < T.size := Nat.mod_lt _ hT.size
  have hmain : T.main ≠ T.pids i := Ne.symm (hT.apart i hi)
  refine ⟨⟨?_, hv⟩, ?_, ?_, fun k hk => ?_, fun p hp => ?_⟩
  · rw [← h.sane.1, Nat.mod_add_mod]
  · rw [Net.state_post_of_ne _ _ _ hmain]
    exact h.state
  · rw [Net.box_post_of_ne _ _ _ (Ne.symm (hT.apart _ hnext))]
    exact h.box
  · -- first the holder waits, then the message arrives
    have hwait : (Spot.ready []).Holds T ⟨Function.update N.state (T.pids i) (.waiting i (nextOf T i)), N.box⟩ k := by
      have hspot := h.spots k hk
      by_cases hki : k = i
      · subst hki
        simp only [Phase.spot, if_true] at hspot
        exact Or.inr ⟨Function.update_self .., hspot.2⟩
      · have hne : T.pids k ≠ T.pids i := fun heq => hki (hT.injective k hk i hi heq)
        simp only [Phase.spot, if_neg hki] at hspot
        exact Spot.Holds.congr (s := .ready []) hspot (Function.update_of_ne hne _ _) rfl
    by_cases hkn : k = (i + 1) % T.size
    · simp only [Phase.spot, if_pos hkn]
      rcases hwait with ⟨hs, hb⟩ | ⟨hs, hb⟩
      · refine Or.inl ⟨hs, ?_⟩
        rw [hkn, Net.box_post_self, ← hkn]
        exact congrArg (· ++ _) hb
      · refine Or.inr ⟨hs, ?_⟩
        rw [hkn, Net.box_post_self, ← hkn]
        exact congrArg (· ++ _) hb
    · have hne : T.pids k ≠ T.pids ((i + 1) % T.size) := fun heq => hkn (hT.injective k hk _ hnext heq)
      simp only [Phase.spot, if_neg hkn]
      exact hwait.congr rfl (Net.box_post_of_ne _ _ _ hne)
  · rw [Net.state_post_of_ne]
    · exact h.others p hp
    · rintro rfl
      exact hp (Or.inr ⟨i, hi, rfl⟩)

/-- The last process of the ring sends the token back. -/
theorem Standing.giveBack (hT : T.Sound) (h : Standing T N (.holding i v)) (hv : ¬ v + 1 < T.passes) :
    Standing T (N.post (T.pids i) T.main (intMessage (T.pids i) TAG_TOKEN (v + 1 : ℕ)) (.waiting i (nextOf T i)))
      (.returned (T.pids i)) := by
  have hlast : v + 1 = T.passes := by
    have hlt := h.sane.2
    omega
  have hi : i < T.size := by
    rw [← h.sane.1]
    exact Nat.mod_lt _ hT.size
  have hmain : T.main ≠ T.pids i := Ne.symm (hT.apart i hi)
  refine ⟨trivial, ?_, ?_, fun k hk => ?_, fun p hp => ?_⟩
  · rw [Net.state_post_of_ne _ _ _ hmain]
    exact h.state
  · rw [Net.box_post_self, h.box, hlast]
    rfl
  · have hspot := h.spots k hk
    have hbox := Net.box_post_of_ne N (p := T.pids i) (intMessage (T.pids i) TAG_TOKEN (v + 1 : ℕ))
      (.waiting i (nextOf T i)) (hT.apart k hk)
    by_cases hki : k = i
    · subst hki
      simp only [Phase.spot, if_true] at hspot
      exact Or.inr ⟨Net.state_post_self .., hbox.trans hspot.2⟩
    · have hne : T.pids k ≠ T.pids i := fun heq => hki (hT.injective k hk i hi heq)
      simp only [Phase.spot, if_neg hki] at hspot
      exact Spot.Holds.congr (s := .ready []) hspot (Net.state_post_of_ne _ _ _ hne) hbox
  · rw [Net.state_post_of_ne]
    · exact h.others p hp
    · rintro rfl
      exact hp (Or.inr ⟨i, hi, rfl⟩)

/-- The main process takes the token. -/
theorem Standing.finish (hT : T.Sound) {s : ℕ} (h : Standing T N (.returned s)) :
    Standing T (N.collect T.main (.finished T.passes) []) .finished := by
  refine ⟨trivial, Net.state_collect_self .., Net.box_collect_self .., fun k hk => ?_, fun p hp => ?_⟩
  · exact (h.spots k hk).congr (Net.state_collect_of_ne _ _ _ (hT.apart k hk)) (Net.box_collect_of_ne _ _ _ (hT.apart k hk))
  · rw [Net.state_collect_of_ne _ _ _ fun hm => hp (Or.inl hm)]
    exact h.others p hp

/-- The holder of the token was not at its beginning, and is not afterwards. -/
theorem begun_holder (hT : T.Sound) {s : RingState} (hi : i < T.size) (hold : N.state (T.pids i) ≠ .begin i)
    (hnew : s ≠ .begin i) (hstate : N'.state = Function.update N.state (T.pids i) s) : begun T N' = begun T N := by
  apply begun_congr
  intro k hk
  rw [hstate]
  by_cases hki : k = i
  · subst hki
    rw [Function.update_self]
    exact iff_of_false hnew hold
  · rw [Function.update_of_ne fun heq => hki (hT.injective k hk i hi heq)]

/-- What a process of the ring does that has nothing but the number of its neighbour to read. -/
theorem Standing.ready_step (hT : T.Sound) (h : Standing T N ph) (hk : k < T.size) (hspot : ph.spot k = .ready extra) :
    (∀ dest msg next, ring T (T.pids k) (N.state (T.pids k)) ≠ .send dest msg next) ∧
      ∀ next msg rest, ring T (T.pids k) (N.state (T.pids k)) = .receive next → N.box (T.pids k) = msg :: rest →
        (Standing T (N.collect (T.pids k) (next msg) rest) ph ∧
          begun T (N.collect (T.pids k) (next msg) rest) + 1 = begun T N) ∨
        (N.state (T.pids k) = .waiting k (nextOf T k) ∧ extra = msg :: rest) := by
  have hholds := h.spots k hk
  rw [hspot] at hholds
  rcases hholds with ⟨hs, hb⟩ | ⟨hs, hb⟩
  · refine ⟨fun dest msg next hact => ?_, fun next msg rest hact hbox => Or.inl ?_⟩
    · rw [hs] at hact
      cases hact
    · rw [hs] at hact
      cases hact
      rw [hb] at hbox
      obtain ⟨rfl, rfl⟩ := List.cons.inj hbox
      have hread : intOf (neighbour T k).data = nextOf T k := hT.intOf_next k
      have htag : (neighbour T k).tag = TAG_NEIGHBOUR ∧ (neighbour T k).size = 4 := ⟨rfl, rfl⟩
      simp only [htag, and_self, if_true, hread]
      exact h.begin hT hk hspot hs
  · refine ⟨fun dest msg next hact => ?_, fun next msg rest hact hbox => Or.inr ⟨hs, hb.symm.trans hbox⟩⟩
    rw [hs] at hact
    cases hact

/-- The phase after a step, and how much is left. -/
def Moved (T : RingTest) (N : Net ℕ Message RingState) (ph : Phase) (N' : Net ℕ Message RingState) : Prop :=
  ∃ ph', Standing T N' ph' ∧ ph'.left T + begun T N' + 1 = ph.left T + begun T N

/-- The same for the steps of process `p`. -/
structure MovesOn (T : RingTest) (N : Net ℕ Message RingState) (ph : Phase) (p : ℕ) : Prop where
  send : ∀ dest msg next, ring T p (N.state p) = .send dest msg next → Moved T N ph (N.post p dest msg next)
  receive : ∀ next msg rest, ring T p (N.state p) = .receive next → N.box p = msg :: rest →
    Moved T N ph (N.collect p (next msg) rest)

theorem Standing.main_step (hT : T.Sound) (h : Standing T N ph) : MovesOn T N ph T.main := by
  have hstate := h.state
  have hbox := h.box
  cases ph with
  | telling j =>
    refine ⟨fun dest msg next hact => ?_, fun next msg rest _ hb => ?_⟩
    · rw [hstate] at hact
      simp only [Phase.main, ring] at hact
      split at hact
      · rename_i hj
        cases hact
        refine ⟨_, h.tell hT hj, ?_⟩
        rw [begun_main hT rfl, Phase.left, Phase.left]
        omega
      · rename_i hj
        have hsize : j = T.size := by
          have hle : j ≤ T.size := h.sane
          omega
        subst hsize
        cases hact
        refine ⟨_, h.launch hT, ?_⟩
        rw [begun_main hT rfl, Phase.left, Phase.left]
        omega
    · rw [hbox] at hb
      cases hb
  | token i v s =>
    refine ⟨fun dest msg next hact => ?_, fun next msg rest _ hb => ?_⟩
    · rw [hstate] at hact
      cases hact
    · rw [hbox] at hb
      cases hb
  | holding i v =>
    refine ⟨fun dest msg next hact => ?_, fun next msg rest _ hb => ?_⟩
    · rw [hstate] at hact
      cases hact
    · rw [hbox] at hb
      cases hb
  | returned s =>
    refine ⟨fun dest msg next hact => ?_, fun next msg rest hact hb => ?_⟩
    · rw [hstate] at hact
      cases hact
    · rw [hstate] at hact
      cases hact
      rw [hbox] at hb
      obtain ⟨rfl, rfl⟩ := List.cons.inj hb
      have hread : intOf (intMessage s TAG_TOKEN T.passes).data = T.passes := intOf_natCast hT.small
      have htag : (intMessage s TAG_TOKEN T.passes).tag = TAG_TOKEN ∧ (intMessage s TAG_TOKEN T.passes).size = 4 :=
        ⟨rfl, rfl⟩
      simp only [htag, and_self, if_true, hread]
      refine ⟨_, h.finish hT, ?_⟩
      rw [begun_main hT rfl, Phase.left, Phase.left]
      omega
  | finished =>
    refine ⟨fun dest msg next hact => ?_, fun next msg rest hact _ => ?_⟩
    · rw [hstate] at hact
      cases hact
    · rw [hstate] at hact
      cases hact

/-- A process that has nothing but its neighbour's number to read. -/
theorem Standing.quiet_step (hT : T.Sound) (h : Standing T N ph) (hk : k < T.size) (hspot : ph.spot k = .ready []) :
    MovesOn T N ph (T.pids k) := by
  obtain ⟨hsend, hreceive⟩ := h.ready_step hT hk hspot
  refine ⟨fun dest msg next hact => (hsend _ _ _ hact).elim, fun next msg rest hact hb => ?_⟩
  rcases hreceive next msg rest hact hb with ⟨hstand, hbegun⟩ | ⟨-, hnil⟩
  · exact ⟨ph, hstand, by omega⟩
  · cases hnil

theorem Standing.ring_step (hT : T.Sound) (h : Standing T N ph) (hk : k < T.size) : MovesOn T N ph (T.pids k) := by
  cases ph with
  | telling j =>
    by_cases hkj : k < j
    · exact h.quiet_step hT hk (if_pos hkj)
    · have hspot := h.spots k hk
      simp only [Phase.spot, if_neg hkj] at hspot
      refine ⟨fun dest msg next hact => ?_, fun next msg rest _ hb => ?_⟩
      · rw [hspot.1] at hact
        cases hact
      · rw [hspot.2] at hb
        cases hb
  | token i v s =>
    by_cases hki : k = i
    · subst hki
      have hspot : (Phase.token k v s).spot k = .ready [intMessage s TAG_TOKEN v] := by
        simp only [Phase.spot, if_true]
      obtain ⟨hsend, hreceive⟩ := h.ready_step hT hk hspot
      refine ⟨fun dest msg next hact => (hsend _ _ _ hact).elim, fun next msg rest hact hb => ?_⟩
      rcases hreceive next msg rest hact hb with ⟨hstand, hbegun⟩ | ⟨hs, hcons⟩
      · exact ⟨_, hstand, by omega⟩
      · obtain ⟨rfl, rfl⟩ := List.cons.inj hcons
        rw [hs] at hact
        cases hact
        have hlt : v < T.passes := h.sane.2
        have hread : intOf (intMessage s TAG_TOKEN v).data = v := intOf_natCast (hlt.trans hT.small)
        have htag : (intMessage s TAG_TOKEN v).tag = TAG_TOKEN ∧ (intMessage s TAG_TOKEN v).size = 4 := ⟨rfl, rfl⟩
        simp only [htag, and_self, if_true, hread]
        refine ⟨_, h.hold hT hs, ?_⟩
        rw [begun_holder hT hk (by rw [hs]; intro h'; cases h') (by intro h'; cases h') rfl, Phase.left, Phase.left]
        omega
    · exact h.quiet_step hT hk (by simp only [Phase.spot, if_neg hki])
  | holding i v =>
    by_cases hki : k = i
    · subst hki
      have hspot := h.spots k hk
      simp only [Phase.spot, if_true] at hspot
      obtain ⟨hs, hb⟩ := hspot
      refine ⟨fun dest msg next hact => ?_, fun next msg rest _ hb' => ?_⟩
      · rw [hs] at hact
        simp only [ring] at hact
        cases hact
        have hlt := h.sane.2
        have hbegun : ∀ N' : Net ℕ Message RingState,
            N'.state = Function.update N.state (T.pids k) (.waiting k (nextOf T k)) → begun T N' = begun T N :=
          fun N' => begun_holder hT hk (by rw [hs]; intro h'; cases h') (by intro h'; cases h')
        by_cases hv : v + 1 < T.passes
        · have hv' : (v : ℤ) + 1 < T.passes := by exact_mod_cast hv
          refine ⟨_, by rw [if_pos hv']; exact h.pass hT hv, ?_⟩
          rw [hbegun _ rfl, Phase.left, Phase.left]
          omega
        · have hv' : ¬ (v : ℤ) + 1 < T.passes := by exact_mod_cast hv
          refine ⟨_, by rw [if_neg hv']; exact h.giveBack hT hv, ?_⟩
          rw [hbegun _ rfl, Phase.left, Phase.left]
          omega
      · rw [hb] at hb'
        cases hb'
    · exact h.quiet_step hT hk (by simp only [Phase.spot, if_neg hki])
  | returned s => exact h.quiet_step hT hk rfl
  | finished => exact h.quiet_step hT hk rfl

/-- **One step** of any process. -/
theorem Phase.step (hT : T.Sound) (h : Standing T N ph) (hstep : Step (ring T) N N') : Moved T N ph N' := by
  cases hstep with
  | @send p dest msg next hact =>
    by_cases hp : T.Part p
    · rcases hp with rfl | ⟨k, hk, rfl⟩
      · exact (h.main_step hT).send dest msg next hact
      · exact (h.ring_step hT hk).send dest msg next hact
    · rw [h.others p hp] at hact
      cases hact
  | @receive p next msg rest hact hbox =>
    by_cases hp : T.Part p
    · rcases hp with rfl | ⟨k, hk, rfl⟩
      · exact (h.main_step hT).receive next msg rest hact hbox
      · exact (h.ring_step hT hk).receive next msg rest hact hbox
    · rw [h.others p hp] at hact
      cases hact

end Steps

/-- **Every interleaving.** -/
theorem standing_of_reaches (hT : T.Sound) (h : Reaches (ring T) (Net.init T.start) N) : ∃ ph, Standing T N ph := by
  refine h.invariant (I := fun N => ∃ ph, Standing T N ph) ⟨_, standing_init hT⟩ ?_
  rintro N₁ N₂ ⟨ph, hph⟩ hstep
  obtain ⟨ph', hph', -⟩ := Phase.step hT hph hstep
  exact ⟨ph', hph'⟩

/-! ### What follows -/

def isToken (msg : Message) : Bool := msg.tag == TAG_TOKEN

/-- Tokens with a process, and in its mailbox. -/
def tokens (s : RingState) (box : List Message) : ℕ :=
  box.countP isToken +
    match s with
    | .passing _ _ _ => 1
    | .finished _ => 1
    | _ => 0

/-- All tokens of the test. -/
def RingTest.tokens (T : RingTest) (σ : ℕ → RingState) (mail : ℕ → List Message) : ℕ :=
  Mptest.tokens (σ T.main) (mail T.main) + ∑ k ∈ Finset.range T.size, Mptest.tokens (σ (T.pids k)) (mail (T.pids k))

/-- Before the main process sends the token there is none. -/
def RingState.launched : RingState → ℕ
  | .telling _ => 0
  | _ => 1

def Spot.tokens : Spot → ℕ
  | untold => 0
  | ready extra => extra.countP isToken
  | holding _ => 1

theorem Spot.Holds.tokens {s : Spot} {k : ℕ} (h : s.Holds T N k) :
    Mptest.tokens (N.state (T.pids k)) (N.box (T.pids k)) = s.tokens := by
  cases s with
  | untold =>
    rw [h.1, h.2]
    rfl
  | ready extra =>
    rcases h with ⟨hs, hb⟩ | ⟨hs, hb⟩
    · have htag : isToken (neighbour T k) = false := rfl
      rw [hs, hb]
      show List.countP isToken (neighbour T k :: extra) + 0 = extra.countP isToken
      rw [Nat.add_zero, List.countP_cons_of_neg (by rw [htag]; exact Bool.false_ne_true)]
    · rw [hs, hb]
      rfl
  | holding v =>
    rw [h.1, h.2]
    rfl

/-- Only the place where the token is counts. -/
theorem sum_spots {ph : Phase} (h : Standing T N ph) :
    ∑ k ∈ Finset.range T.size, Mptest.tokens (N.state (T.pids k)) (N.box (T.pids k)) =
      ∑ k ∈ Finset.range T.size, (ph.spot k).tokens :=
  Finset.sum_congr rfl fun k hk => (h.spots k (Finset.mem_range.mp hk)).tokens

/-- **The token is neither lost nor doubled.** -/
theorem Standing.tokens (hT : T.Sound) {ph : Phase} (h : Standing T N ph) :
    T.tokens N.state N.box = (N.state T.main).launched := by
  rw [RingTest.tokens, sum_spots h, h.state, h.box]
  cases ph with
  | telling j =>
    have hzero : ∀ k ∈ Finset.range T.size, ((Phase.telling j).spot k).tokens = 0 := by
      intro k _
      simp only [Phase.spot]
      split <;> rfl
    rw [Finset.sum_eq_zero hzero]
    rfl
  | token i v s =>
    have hi : i ∈ Finset.range T.size := by
      rw [Finset.mem_range, ← h.sane.1]
      exact Nat.mod_lt _ hT.size
    rw [Finset.sum_eq_single_of_mem i hi]
    · simp only [Phase.spot, if_true]
      rfl
    · intro k _ hki
      simp only [Phase.spot, if_neg hki]
      rfl
  | holding i v =>
    have hi : i ∈ Finset.range T.size := by
      rw [Finset.mem_range, ← h.sane.1]
      exact Nat.mod_lt _ hT.size
    rw [Finset.sum_eq_single_of_mem i hi]
    · simp only [Phase.spot, if_true]
      rfl
    · intro k _ hki
      simp only [Phase.spot, if_neg hki]
      rfl
  | returned s =>
    rw [Finset.sum_eq_zero fun k _ => (rfl : ((Phase.returned s).spot k).tokens = 0)]
    rfl
  | finished =>
    rw [Finset.sum_eq_zero fun k _ => (rfl : (Phase.finished.spot k).tokens = 0)]
    rfl

theorem Standing.state_pids {ph : Phase} (h : Standing T N ph) {k : ℕ} (hk : k < T.size) :
    N.state (T.pids k) ≠ .failed := by
  have hspot := h.spots k hk
  intro hfail
  cases hs : ph.spot k with
  | untold =>
    rw [hs, Spot.Holds, hfail] at hspot
    cases hspot.1
  | ready extra =>
    rw [hs, Spot.Holds, hfail] at hspot
    rcases hspot with ⟨hspot, -⟩ | ⟨hspot, -⟩ <;> cases hspot
  | holding v =>
    rw [hs, Spot.Holds, hfail] at hspot
    cases hspot.1

/-- No assertion fails. -/
theorem Standing.asserted {ph : Phase} (h : Standing T N ph) (p : ℕ) : N.state p ≠ .failed := by
  by_cases hp : T.Part p
  · rcases hp with rfl | ⟨k, hk, rfl⟩
    · rw [h.state]
      cases ph <;> intro hfail <;> cases hfail
    · exact h.state_pids hk
  · rw [h.others p hp]
    intro hfail
    cases hfail

/-- The number of the neighbour and the token at most. -/
theorem Standing.box_length {ph : Phase} (h : Standing T N ph) (hp : T.Part p) : (N.box p).length ≤ 2 := by
  rcases hp with rfl | ⟨k, hk, rfl⟩
  · rw [h.box]
    cases ph <;> simp [Phase.main]
  · have hspot := h.spots k hk
    have hextra : ∀ extra, ph.spot k = .ready extra → extra.length ≤ 1 := by
      intro extra hs
      cases ph with
      | telling j =>
        simp only [Phase.spot] at hs
        split at hs <;> cases hs
        exact Nat.zero_le _
      | token i v s =>
        simp only [Phase.spot] at hs
        cases hs
        split <;> simp
      | holding i v =>
        simp only [Phase.spot] at hs
        split at hs <;> cases hs
        exact Nat.zero_le _
      | returned s =>
        cases hs
        exact Nat.zero_le _
      | finished =>
        cases hs
        exact Nat.zero_le _
    cases hs : ph.spot k with
    | untold =>
      rw [hs] at hspot
      rw [hspot.2]
      exact Nat.zero_le _
    | ready extra =>
      have hle := hextra extra hs
      rw [hs] at hspot
      rcases hspot with ⟨-, hb⟩ | ⟨-, hb⟩
      · rw [hb, List.length_cons]
        omega
      · rw [hb]
        omega
    | holding v =>
      rw [hs] at hspot
      rw [hspot.2]
      exact Nat.zero_le _

/-- **No deadlock.**  If nobody can move, the main process has the token and every number has been read. -/
theorem Standing.stuck (hT : T.Sound) {ph : Phase} (h : Standing T N ph) (hstuck : Stuck (ring T) N) :
    ph = .finished ∧ begun T N = 0 := by
  -- a process that has been told its neighbour has read the number, and has nothing else to read
  have hready : ∀ k < T.size, ∀ extra, ph.spot k = .ready extra → N.state (T.pids k) ≠ .begin k ∧ extra = [] := by
    intro k hk extra hs
    have hspot := h.spots k hk
    rw [hs] at hspot
    rcases hspot with ⟨hstate, hb⟩ | ⟨hstate, hb⟩
    · have hact : ∃ next, ring T (T.pids k) (N.state (T.pids k)) = .receive next := by
        rw [hstate]
        exact ⟨_, rfl⟩
      obtain ⟨next, hact⟩ := hact
      have hnil := hstuck.box_nil hact
      rw [hb] at hnil
      cases hnil
    · have hact : ∃ next, ring T (T.pids k) (N.state (T.pids k)) = .receive next := by
        rw [hstate]
        exact ⟨_, rfl⟩
      obtain ⟨next, hact⟩ := hact
      have hnil := hstuck.box_nil hact
      rw [hb] at hnil
      refine ⟨?_, hnil⟩
      rw [hstate]
      intro h'
      cases h'
  cases ph with
  | telling j =>
    have hsend : ∃ dest msg next, ring T T.main (N.state T.main) = .send dest msg next := by
      rw [h.state]
      simp only [Phase.main, ring]
      split
      · exact ⟨_, _, _, rfl⟩
      · exact ⟨_, _, _, rfl⟩
    obtain ⟨dest, msg, next, hact⟩ := hsend
    exact absurd hact hstuck.not_send
  | token i v s =>
    have hi : i < T.size := by
      rw [← h.sane.1]
      exact Nat.mod_lt _ hT.size
    obtain ⟨-, hnil⟩ := hready i hi [intMessage s TAG_TOKEN v] (by simp only [Phase.spot, if_true])
    cases hnil
  | holding i v =>
    have hi : i < T.size := by
      rw [← h.sane.1]
      exact Nat.mod_lt _ hT.size
    have hspot := h.spots i hi
    simp only [Phase.spot, if_true] at hspot
    have hsend : ∃ dest msg next, ring T (T.pids i) (N.state (T.pids i)) = .send dest msg next := by
      rw [hspot.1]
      exact ⟨_, _, _, rfl⟩
    obtain ⟨dest, msg, next, hact⟩ := hsend
    exact absurd hact hstuck.not_send
  | returned s =>
    have hact : ∃ next, ring T T.main (N.state T.main) = .receive next := by
      rw [h.state]
      exact ⟨_, rfl⟩
    obtain ⟨next, hact⟩ := hact
    have hnil := hstuck.box_nil hact
    rw [h.box] at hnil
    cases hnil
  | finished =>
    refine ⟨rfl, ?_⟩
    unfold begun
    rw [Finset.card_eq_zero, Finset.filter_eq_empty_iff]
    intro k hk
    exact (hready k (Finset.mem_range.mp hk) [] rfl).1

/-- After any number of steps. -/
theorem standing_of_path (hT : T.Sound) {n : ℕ} (h : Path (ring T) n N N') {ph : Phase} (hN : Standing T N ph) :
    ∃ ph', Standing T N' ph' ∧ n + (ph'.left T + begun T N') = ph.left T + begun T N := by
  induction h with
  | nil => exact ⟨ph, hN, by omega⟩
  | snoc _ hlast ih =>
    obtain ⟨ph₁, h₁, hsum⟩ := ih hN
    obtain ⟨ph₂, h₂, hleft⟩ := Phase.step hT h₁ hlast
    exact ⟨ph₂, h₂, by omega⟩

/-- **Every interleaving ends** after the same number of sends and receipts, when the main process has received the
token and it has been passed on as often as it should. -/
theorem ring_ends (hT : T.Sound) {n : ℕ} (h : Path (ring T) n (Net.init T.start) N) :
    n ≤ 2 * T.size + 2 * T.passes + 2 ∧
      (Stuck (ring T) N ↔ n = 2 * T.size + 2 * T.passes + 2) ∧
      (Stuck (ring T) N → N.state T.main = .finished T.passes) := by
  obtain ⟨ph, hph, hsum⟩ := standing_of_path hT h (standing_init hT)
  rw [begun_init hT, Phase.left, Nat.sub_zero] at hsum
  refine ⟨by omega, ⟨fun hstuck => ?_, fun hn N' hstep => ?_⟩, fun hstuck => ?_⟩
  · obtain ⟨rfl, hbegun⟩ := hph.stuck hT hstuck
    rw [hbegun, Phase.left] at hsum
    omega
  · obtain ⟨ph', -, hleft⟩ := Phase.step hT hph hstep
    omega
  · obtain ⟨rfl, -⟩ := hph.stuck hT hstuck
    exact hph.state

/-- The test as it is run. -/
def fourRing : RingTest := ⟨RING_SIZE, RING_MAX_PASSES, 1, fun i => i + 2⟩

theorem fourRing_sound : fourRing.Sound := by
  refine ⟨by decide, by decide, by decide, fun i _ j _ heq => ?_, fun i _ => ?_, fun i hi => ?_, by decide⟩
  · exact Nat.add_right_cancel heq
  · show i + 2 ≠ 1
    omega
  · replace hi : i < 4 := hi
    show i + 2 < 2147483648
    omega

/-- **The test can be run to its end.** -/
theorem complete_path (hT : T.Sound) :
    ∃ N, Path (ring T) (2 * T.size + 2 * T.passes + 2) (Net.init T.start) N := by
  have hpath : ∀ n ≤ 2 * T.size + 2 * T.passes + 2, ∃ N, Path (ring T) n (Net.init T.start) N := by
    intro n
    induction n with
    | zero => exact fun _ => ⟨_, .nil _⟩
    | succ n ih =>
      intro hle
      obtain ⟨N, hN⟩ := ih (by omega)
      obtain ⟨ph, hph, hsum⟩ := standing_of_path hT hN (standing_init hT)
      rw [begun_init hT, Phase.left, Nat.sub_zero] at hsum
      by_cases hstuck : Stuck (ring T) N
      · -- nobody is stuck before the last step
        obtain ⟨rfl, hbegun⟩ := hph.stuck hT hstuck
        rw [hbegun, Phase.left] at hsum
        omega
      · unfold Stuck at hstuck
        push Not at hstuck
        obtain ⟨N', hstep⟩ := hstuck
        exact ⟨N', hN.snoc hstep⟩
  exact hpath _ (Nat.le_refl _)

/-- The test as it is run makes 210 sends and receipts. -/
theorem ring_ends_complete : ∃ N, Path (ring fourRing) 210 (Net.init fourRing.start) N ∧ Stuck (ring fourRing) N ∧
    N.state 1 = .finished 100 := by
  obtain ⟨N, hpath⟩ := complete_path fourRing_sound
  obtain ⟨-, hstuck, hend⟩ := ring_ends fourRing_sound hpath
  exact ⟨N, hpath, hstuck.mpr rfl, hend (hstuck.mpr rfl)⟩

/-! ### Over the kernel -/

theorem sendsPlain_ring (hT : T.Sound) : SendsPlain (ring T) T.Part := by
  intro p hp s d msg next hact
  have hpid : p < 2147483648 := by
    rcases hp with rfl | ⟨i, hi, rfl⟩
    · exact hT.main
    · exact hT.pid i hi
  have hmsg : ∃ tag i, tag < 8 ∧ msg = intMessage p tag i := by
    cases s with
    | passing i next token =>
      cases hact
      exact ⟨_, _, by decide, rfl⟩
    | telling i =>
      simp only [ring] at hact
      split at hact
      · cases hact
        exact ⟨_, _, by decide, rfl⟩
      · cases hact
        exact ⟨_, _, by decide, rfl⟩
    | _ => cases hact
  obtain ⟨tag, i, htag, rfl⟩ := hmsg
  refine ⟨?_, ?_, ?_, rfl⟩
  · show p < 4294967296
    omega
  · show tag < 4294967296
    omega
  · show 4 < 4294967296
    omega

/-- **The ring test over the kernel.**  Whatever else happens while its processes live, no assertion of the test
fails, the token is neither lost nor doubled, no mailbox is full, the main process gets the token back after the
right number of passes, and until then some process of the test has something to send or a message to read. -/
theorem ring_of_session {m : Machine} {n : Notes} {B : Books} {k : State} {σ : ℕ → RingState} (hT : T.Sound)
    (h : Session m (ring T) T.Part T.start n B k σ) :
    (∀ p, σ p ≠ .failed) ∧ (∀ t, σ T.main = .finished t → t = T.passes) ∧
      (∀ p, T.Part p → (k.sched.procs p).mailboxSize ≤ 2) ∧
      (σ T.main = .finished T.passes ∨ ∃ p, T.Part p ∧ Ripe (ring T) σ k p) ∧
      ∃ C, Whole n C k.objects ∧ T.tokens σ C.mail = (σ T.main).launched := by
  obtain ⟨-, -, -, hlive, C, N, hwhole, hreach, rfl, hbox, -⟩ := h.reaches (sendsPlain_ring hT)
  obtain ⟨ph, hph⟩ := standing_of_reaches hT hreach
  have hsize : ∀ p, T.Part p → (k.sched.procs p).mailboxSize = (N.box p).length := by
    intro p hp
    rw [hbox p hp]
    exact hwhole.entries.size p (hlive p hp).1 (hwhole.fresh p (hlive p hp))
  refine ⟨hph.asserted, fun t ht => ?_, fun p hp => ?_, ?_, C, hwhole, ?_⟩
  · rw [hph.state] at ht
    cases ph <;> cases ht
    rfl
  · rw [hsize p hp]
    exact hph.box_length hp
  · by_cases hstuck : Stuck (ring T) N
    · obtain ⟨rfl, -⟩ := hph.stuck hT hstuck
      exact Or.inl hph.state
    · obtain ⟨p, hripe⟩ := not_stuck hstuck
      have hp : T.Part p := by
        by_contra hp
        rw [hph.others p hp] at hripe
        rcases hripe with ⟨dest, msg, next, hact⟩ | ⟨next, msg, rest, hact, -⟩ <;> cases hact
      refine Or.inr ⟨p, hp, ?_⟩
      rcases hripe with hsend | ⟨next, msg, rest, hact, hb⟩
      · exact Or.inl hsend
      · refine Or.inr ⟨⟨next, hact⟩, ?_⟩
        rw [hsize p hp, hb]
        exact Nat.succ_pos _
  · rw [← hph.tokens hT]
    unfold RingTest.tokens
    rw [hbox T.main (Or.inl rfl)]
    congr 1
    exact Finset.sum_congr rfl fun i hi => by rw [hbox _ (Or.inr ⟨i, Finset.mem_range.mp hi, rfl⟩)]

/-- A ring of one process. -/
def oneRing : RingTest := ⟨1, RING_MAX_PASSES, 1, fun _ => 2⟩

theorem oneRing_sound : oneRing.Sound := by
  refine ⟨by decide, by decide, by decide, fun i hi j hj _ => ?_, fun i _ => (by decide : (2 : ℕ) ≠ 1),
    fun i _ => (by decide : 2 < 2147483648), by decide⟩
  replace hi : i < 1 := hi
  replace hj : j < 1 := hj
  omega

/-- **The ring of one process**: it has been forked, and the number of its neighbour is on the stack of the main
process. -/
theorem opening_one : ∃ n B k, Opening Machine.bare oneRing.Part n B k ∧ Mapped Machine.bare k ∧ k.sched = twoProcesses ∧
    Serves bootHeap k.heap ∧ userBytes k 1 STACK_LOW 4 = wordBytes 2 := by
  obtain ⟨n, B, k, hrun, hmap, hs, hserves⟩ := run_fork (P := fun n k i => i.Fair n k ∧ i.Modest) roomy_boot
    (fun _ _ => ⟨trivial, trivial⟩) (fun _ _ => ⟨trivial, trivial⟩) fair_fork
  have hcur : k.sched.current = some 1 := by
    rw [hs]
    rfl
  have hlive : k.sched.Live 1 := by
    rw [hs]
    exact ⟨rfl, rfl⟩
  obtain ⟨hregion, -⟩ := hmap.lowStack hlive (show 4 ≤ MESSAGE_SIZE by decide)
  have haddr : ∀ i < 4, offset STACK_LOW i = STACK_LOW + i := by decide
  obtain ⟨n', B', k', hrun', hmap', hs', -, -, hheap, hbytes⟩ := hrun.stores (a := STACK_LOW) (wordBytes 2) hmap hcur
    (by decide) (fun i hi => by rw [← haddr i hi]; exact hregion i hi) fun _ _ _ _ => ⟨trivial, trivial⟩
  refine ⟨n', B', k', ⟨hrun', fun p hp => ?_, fun p hp => ?_⟩, hmap', hs'.trans hs, by rw [hheap]; exact hserves, ?_⟩
  · rw [hs', hs]
    rcases hp with rfl | ⟨i, -, rfl⟩ <;> exact ⟨rfl, rfl⟩
  · rw [hs', hs]
    rcases hp with rfl | ⟨i, -, rfl⟩ <;> rfl
  · have hbyte : ∀ i < 4, userByte k' 1 (offset STACK_LOW i) = (wordBytes 2).getD i 0 := fun i hi => by
      rw [haddr i hi, hbytes _ (by rw [← haddr i hi]; exact offset_lt _ _), if_pos ⟨Nat.le_add_right _ _, by
        rw [wordBytes_length]; omega⟩, Nat.add_sub_cancel_left]
    show [userByte k' 1 (offset STACK_LOW 0), userByte k' 1 (offset STACK_LOW 1), userByte k' 1 (offset STACK_LOW 2),
      userByte k' 1 (offset STACK_LOW 3)] = _
    rw [hbyte 0 (by decide), hbyte 1 (by decide), hbyte 2 (by decide), hbyte 3 (by decide)]
    rfl

theorem oneRing_part {p : ℕ} (hp : oneRing.Part p) : p = 1 ∨ p = 2 := by
  rcases hp with rfl | ⟨i, -, rfl⟩
  · exact Or.inl rfl
  · exact Or.inr rfl

/-- **The main process sends the number**, and the timer gives the processor to the process of the ring. -/
theorem session_told : ∃ n B k box, Session Machine.bare (ring oneRing) oneRing.Part oneRing.start n B k
    (Function.update oneRing.start 1 (.telling 1)) ∧ k.sched = contextSwitch (posted box) Regs.zero := by
  obtain ⟨n, B, k, hopen, hmap, hs, hserves, hnumber⟩ := opening_one
  obtain ⟨-, -, C, hwhole, -⟩ := hopen.run.standing fun _ _ _ hP => hP.1
  have hcur : k.sched.current = some 1 := by
    rw [hs]
    rfl
  have hlive₁ : k.sched.Live 1 := hopen.live 1 (Or.inl rfl)
  have hlive₂ : k.sched.Live 2 := hopen.live 2 (Or.inr ⟨0, by decide, rfl⟩)
  obtain ⟨box, heap, halloc⟩ := alloc_of_serves allocs_mailbox hserves
  obtain ⟨hregion, hvalid⟩ := hmap.lowStack hlive₁ (show 4 ≤ MESSAGE_SIZE by decide)
  obtain ⟨log, bytes, hsend, -⟩ := syscallSend_first 2 TAG_NEIGHBOUR STACK_LOW 4 hmap hlive₁ hlive₂ (by decide)
    (by rw [hs]; rfl) (by rw [hs]; rfl) halloc hregion hvalid (by decide)
  have hposted : leave ((enter k.sched 1 SYSCALL_SEND).set 2 (accept ((enter k.sched 1 SYSCALL_SEND).procs 2) box)) 1
      SYSCALL_SEND sendRegs 0 = posted box := by
    rw [hs]
    rfl
  have hlive : ∀ S : Sched, S = posted box → ∀ p, oneRing.Part p → S.Live p := by
    rintro S rfl p hp
    rcases oneRing_part hp with rfl | rfl
    · exact ⟨rfl, rfl⟩
    · exact ⟨rfl, rfl⟩
  have hobeys : ∀ k', Obeys (ring oneRing) oneRing.Part oneRing.start
      (transferOf 1 sendRegs.eax [2, TAG_NEIGHBOUR, STACK_LOW, 4] k 0 k') (Function.update oneRing.start 1 (.telling 1)) := by
    intro k'
    show Obeys _ _ _ (.post 2 ⟨1, TAG_NEIGHBOUR, 4, userBytes k 1 STACK_LOW 4⟩) _
    rw [hnumber]
    exact .post 2 (intMessage 1 TAG_NEIGHBOUR 2) (RingState.telling 1) (Or.inl rfl) rfl
  have hstart : Session Machine.bare (ring oneRing) oneRing.Part oneRing.start n B k oneRing.start := .start hopen
  have hdis : dispatch Machine.bare 1 sendRegs sendRegs.eax [2, TAG_NEIGHBOUR, STACK_LOW, 4]
      { k with sched := enter k.sched 1 SYSCALL_SEND } = .ok (0, sendRegs) _ := run_bind hsend
  have htold := hstart.call hcur (hwhole.fair_send hlive₂ rfl) hdis (hlive _ hposted) (hobeys _)
  have hsched : ∀ S : Sched, S = posted box → contextSwitch S Regs.zero = contextSwitch (posted box) Regs.zero := by
    rintro S rfl
    rfl
  refine ⟨_, _, _, box, htold.step (.event (.switch Regs.zero)) trivial trivial rfl (fun p hp => ?_) .nothing,
    hsched _ hposted⟩
  exact (live_contextSwitch _ _ _).mpr (hlive _ hposted p hp)

/-- **It reads the number.** -/
theorem session_read : ∃ n B k record, Session Machine.bare (ring oneRing) oneRing.Part oneRing.start n B k
    (Function.update (Function.update oneRing.start 1 (RingState.telling 1)) 2
      (if (readMessage record).tag = TAG_NEIGHBOUR ∧ (readMessage record).size = 4
        then .waiting 0 (intOf (readMessage record).data) else .failed)) := by
  obtain ⟨n, B, k, box, hsession, hs⟩ := session_told
  obtain ⟨-, -, hmap, hlive, -⟩ := hsession.reaches (sendsPlain_ring oneRing_sound)
  have hcur : k.sched.current = some 2 := by
    rw [hs]
    rfl
  have hlive₂ : k.sched.Live 2 := hlive 2 (Or.inr ⟨0, by decide, rfl⟩)
  obtain ⟨hregion, hvalid⟩ := hmap.lowStack hlive₂ (Nat.le_refl MESSAGE_SIZE)
  obtain ⟨Q, log, bytes, hreceive, -⟩ := syscallReceive_first box hmap hlive₂ (by rw [hs]; rfl) (by rw [hs]; rfl)
    hregion hvalid
  let σ : ℕ → RingState := Function.update oneRing.start 1 (.telling 1)
  have hreads : ring oneRing 2 (σ 2) = .receive fun msg =>
      if msg.tag = TAG_NEIGHBOUR ∧ msg.size = 4 then .waiting 0 (intOf msg.data) else .failed := rfl
  have hleft : ∀ p, oneRing.Part p → (leave ((enter k.sched 2 SYSCALL_RECEIVE).set 2
      { (enter k.sched 2 SYSCALL_RECEIVE).procs 2 with mailboxSize := 1 - 1 }) 2 SYSCALL_RECEIVE receiveRegs 0).Live p := by
    intro p hp
    rw [hs]
    rcases oneRing_part hp with rfl | rfl
    · exact ⟨rfl, rfl⟩
    · exact ⟨rfl, rfl⟩
  have hdis : dispatch Machine.bare 2 receiveRegs receiveRegs.eax [STACK_LOW, 0]
      { k with sched := enter k.sched 2 SYSCALL_RECEIVE } = .ok (0, receiveRegs) _ := run_bind hreceive
  exact ⟨_, _, _, _, hsession.call hcur (fair_receive n k _) hdis hleft
    (.collect 2 _ _ (Or.inr ⟨0, by decide, rfl⟩) hreads)⟩

/-- The assertion about it holds, and the main process is about to send the token. -/
theorem ring_of_session_told : ∃ n B k σ v, Session Machine.bare (ring oneRing) oneRing.Part oneRing.start n B k σ ∧
    σ 1 = .telling 1 ∧ σ 2 = .waiting 0 v ∧ (∀ p, oneRing.Part p → (k.sched.procs p).mailboxSize ≤ 2) ∧
      (∃ p, oneRing.Part p ∧ Ripe (ring oneRing) σ k p) ∧ ∃ C, Whole n C k.objects ∧ oneRing.tokens σ C.mail = 0 := by
  obtain ⟨n, B, k, record, hsession⟩ := session_read
  obtain ⟨hasserted, -, hsize, hripe, C, hwhole, htokens⟩ := ring_of_session oneRing_sound hsession
  refine ⟨n, B, k, _, intOf (readMessage record).data, hsession, rfl, ?_, hsize, hripe.resolve_left nofun, C, hwhole, htokens⟩
  have hne := hasserted 2
  rw [Function.update_self] at hne ⊢
  by_cases hmsg : (readMessage record).tag = TAG_NEIGHBOUR ∧ (readMessage record).size = 4
  · rw [if_pos hmsg]
  · rw [if_neg hmsg] at hne
    exact absurd rfl hne

end AdelaideOS.Mptest
