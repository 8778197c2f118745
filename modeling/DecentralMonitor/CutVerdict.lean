/-
# When the solver's verdict is linearisability

The verdict of `solveSMT` is meant to say whether the `N` events of the segment can be
put into a total order that respects the recorded pairs (`Linearisable`).  The cuts of
such an order grow from nothing to the set of all events, which as a number is
`2 ^ N - 1`; the source asks for `N ^ 2 - 1` instead.

* For `N = 2` and `N = 4` the two numbers agree, and the verdict is right unless an event
  is recorded as before itself and nothing else prevents an order.
* For `N = 1` and `N = 3` the constant cannot be reached at all.
* For `N ≥ 5` it can be reached by sequences of cuts that are not insertions of events.
  `Reached` and `OutOfReach` are conditions on its digits under which it is and is not; they
  leave a gap, but not where every pair is recorded in both directions.

`solveSMT_exact_iff` puts this together, with the other restriction that the mask of an
event only exists for ids up to 31.
-/
import DecentralMonitor.ClosedWalk
import DecentralMonitor.CutEncoding

open Constraint CarryWalk EventOrder Finset

namespace TraceMonitor

variable {N : ℕ} {hb : List (ℕ × ℕ)}

/-! ## Linearisability -/

/-- The recorded pairs as a relation. -/
def HappenedBefore (hb : List (ℕ × ℕ)) (a b : ℕ) : Prop := (a, b) ∈ hb

instance (hb : List (ℕ × ℕ)) (a b : ℕ) : Decidable (HappenedBefore hb a b) :=
  inferInstanceAs (Decidable (_ ∈ hb))

/-- There is a total order of the events `1, …, N` in which `a` comes before `b` for every
recorded pair. -/
def Linearisable (N : ℕ) (hb : List (ℕ × ℕ)) : Prop :=
  ∃ l : List ℕ, l.Perm (List.range' 1 N) ∧ ∀ p ∈ hb, l.idxOf p.1 < l.idxOf p.2

/-- The ids of the recorded pairs are those of the events. -/
def IdsInRange (N : ℕ) (hb : List (ℕ × ℕ)) : Prop :=
  ∀ p ∈ hb, (1 ≤ p.1 ∧ p.1 ≤ N) ∧ 1 ≤ p.2 ∧ p.2 ≤ N

theorem IdsInRange.idsFit (h : IdsInRange N hb) (hmasks : ∀ p ∈ hb, p.1 ≤ 31 ∧ p.2 ≤ 31) :
    IdsFit N hb where
  first := fun p hp => ⟨(h p hp).1.1, (h p hp).1.2, (hmasks p hp).1⟩
  second := fun p hp => ⟨(h p hp).2.1, (h p hp).2.2, (hmasks p hp).2⟩

theorem linearisable_iff (h : IdsInRange N hb) :
    Linearisable N hb ↔ Acyclic (HappenedBefore hb) := by
  have hevents : ∀ a b, HappenedBefore hb a b → a ∈ List.range' 1 N := by
    intro a b hab
    have hp := h (a, b) hab
    rw [List.mem_range'_1]
    omega
  rw [← exists_respects_iff hevents]
  constructor
  · rintro ⟨l, hl, hord⟩
    exact ⟨l, hl, fun a b hab => hord (a, b) hab⟩
  · rintro ⟨l, hl, hord⟩
    exact ⟨l, hl, fun p hp => hord p.1 p.2 hp⟩

/-! ## Walks to the full set -/

/-- The recorded pairs as a relation between digits. -/
def digitRel (hb : List (ℕ × ℕ)) (i j : ℕ) : Prop := HappenedBefore hb (i + 1) (j + 1)

instance (hb : List (ℕ × ℕ)) (i j : ℕ) : Decidable (digitRel hb i j) :=
  inferInstanceAs (Decidable (HappenedBefore ..))

theorem closedCut_iff (h : IdsInRange N hb) {c : ℕ} :
    ClosedCut hb c ↔ ∀ i j, digitRel hb i j → j ∈ bits c → i ∈ bits c := by
  constructor
  · intro hc i j hij
    exact hc (i + 1, j + 1) hij
  · rintro hc ⟨a, b⟩ hp
    have hids := h (a, b) hp
    refine hc (a - 1) (b - 1) ?_
    unfold digitRel HappenedBefore
    rw [Nat.sub_add_cancel hids.1.1, Nat.sub_add_cancel hids.2.1]
    exact hp

theorem digitRel_lt (h : IdsInRange N hb) {i j : ℕ} (hij : digitRel hb i j) : i < N ∧ j < N := by
  have hids := h (i + 1, j + 1) hij
  omega

/-- Pairs of different events, each recorded in both directions. -/
structure BothDirections (N : ℕ) (hb : List (ℕ × ℕ)) : Prop where
  ids : IdsInRange N hb
  symm : ∀ i j, digitRel hb i j → digitRel hb j i
  irrefl : ∀ i, ¬ digitRel hb i i

/-- No event of such a pair is ever in a cut. -/
theorem BothDirections.walk_untied (h : BothDirections N hb) {a n b : ℕ}
    (ha : Supported (fun i => ∀ j, ¬ digitRel hb i j) a) (hwalk : Walk (ClosedCut hb) a n b) :
    Walk (Supported fun i => ∀ j, ¬ digitRel hb i j) a n b := by
  have huntied : (fun i => ∀ j, ¬ digitRel hb i j) = fun i => ¬ Blocked (digitRel hb) i := by
    funext i
    rw [blocked_iff_of_symm h.symm, not_exists]
  rw [huntied] at ha ⊢
  exact (hwalk.mono fun c hc => (closedCut_iff h.ids).mp hc).supported_of_blocked h.irrefl ha

theorem acyclic_digitRel (h : IdsInRange N hb) :
    Acyclic (OffDiagonal (digitRel hb)) ↔ Acyclic (OffDiagonal (HappenedBefore hb)) := by
  have hsucc : OffDiagonal (digitRel hb) =
      fun i j => OffDiagonal (HappenedBefore hb) (i + 1) (j + 1) := by
    funext i j
    unfold OffDiagonal digitRel
    rw [ne_eq, ne_eq, Nat.succ_inj]
  rw [hsucc]
  refine acyclic_rename_iff (f := fun i => i + 1) Nat.succ_injective ?_
  rintro a b ⟨hab, -⟩
  have hids := h (a, b) hab
  exact ⟨⟨a - 1, Nat.sub_add_cancel hids.1.1⟩, ⟨b - 1, Nat.sub_add_cancel hids.2.1⟩⟩

/-- **The full set is reached** exactly when the pairs of different events have no
cycle. -/
theorem walk_full_iff (h : IdsInRange N hb) :
    Walk (ClosedCut hb) 0 N (2 ^ N - 1) ↔ Acyclic (OffDiagonal (HappenedBefore hb)) := by
  rw [← acyclic_digitRel h]
  have hclosed : ∀ l : List ℕ, (∀ l', l' <+: l → ClosedCut hb (∑ i ∈ l'.toFinset, 2 ^ i)) ↔
      BeginningsClosed (digitRel hb) l := by
    intro l
    refine forall_congr' fun l' => forall_congr' fun _ => ?_
    rw [closedCut_iff h, bits_sum_two_pow]
    simp only [List.mem_toFinset]
  constructor
  · intro hwalk
    -- `N` steps to `N` digits: the walk does not carry
    obtain ⟨l, -, hset, hok⟩ := exists_order_of_walk hwalk
      (by rw [bits_two_pow_sub_one, card_range])
    have hmem : ∀ i j, digitRel hb i j → j ∈ l := by
      intro i j hij
      rw [← List.mem_toFinset, hset, bits_two_pow_sub_one, mem_range]
      exact (digitRel_lt h hij).2
    exact ((beginningsClosed_iff hmem).mp ((hclosed l).mp hok)).acyclic
  · intro hacyc
    -- the events in the order of a linear extension are the walk
    obtain ⟨l, hperm, hresp⟩ := exists_respects hacyc (List.range N) (by
      rintro i j ⟨hij, -⟩
      exact List.mem_range.mpr (digitRel_lt h hij).1)
    have hmem : ∀ i j, digitRel hb i j → j ∈ l := by
      intro i j hij
      rw [hperm.mem_iff, List.mem_range]
      exact (digitRel_lt h hij).2
    have hok := (hclosed l).mpr ((beginningsClosed_iff hmem).mpr hresp)
    have hwalk := walk_of_order (hperm.nodup_iff.mpr List.nodup_range) hok
    have hset : l.toFinset = range N := by
      rw [List.toFinset_eq_of_perm _ _ hperm, List.toFinset_range]
    have hsum : ∑ i ∈ l.toFinset, 2 ^ i = 2 ^ N - 1 := by
      rw [hset, ← bits_two_pow_sub_one, sum_two_pow_bits]
    rw [hsum, hperm.length_eq, List.length_range] at hwalk
    exact hwalk

/-! ## The constant of the source -/

/-- A number smaller than the number of steps cannot be reached. -/
theorem not_walk_of_lt {ok : ℕ → Prop} {n b : ℕ} (h : b < n) : ¬ Walk ok 0 n b := by
  intro hwalk
  have hle := hwalk.add_le
  omega

/-- With one or three events the constant is zero modulo `2 ^ N`. -/
theorem not_walk_of_one_three (hN : N = 1 ∨ N = 3) {ok : ℕ → Prop} :
    ¬ Walk ok 0 N ((N ^ 2 - 1) % 2 ^ N) := by
  apply not_walk_of_lt
  rcases hN with rfl | rfl <;> decide

/-- With two or four events it is the full set. -/
theorem sq_sub_one_mod_of_two_four (hN : N = 2 ∨ N = 4) : (N ^ 2 - 1) % 2 ^ N = 2 ^ N - 1 := by
  rcases hN with rfl | rfl <;> decide

theorem sq_lt_two_pow (hN : 5 ≤ N) : N ^ 2 < 2 ^ N := by
  induction N, hN using Nat.le_induction with
  | base => decide
  | succ n hn ih =>
    have hmul : 5 * n ≤ n * n := Nat.mul_le_mul_right n hn
    have hsq : (n + 1) ^ 2 = n * n + 2 * n + 1 := by
      rw [Nat.pow_two, Nat.succ_mul, Nat.mul_succ]
      omega
    rw [Nat.pow_two] at ih
    rw [hsq, Nat.pow_succ 2 n]
    omega

theorem sq_sub_one_mod (hN : 5 ≤ N) : (N ^ 2 - 1) % 2 ^ N = N ^ 2 - 1 := by
  have hlt := sq_lt_two_pow hN
  exact Nat.mod_eq_of_lt (by omega)

/-- From five events on the constant misses an event, and it contains one. -/
theorem exists_digits (hN : 5 ≤ N) :
    (∃ i < N, i ∉ bits (N ^ 2 - 1)) ∧ ∃ j < N, j ∈ bits (N ^ 2 - 1) := by
  have hlt := sq_lt_two_pow hN
  have hpos : 5 ^ 2 ≤ N ^ 2 := Nat.pow_le_pow_left hN 2
  have hrange : ∀ j ∈ bits (N ^ 2 - 1), j < N := fun j hj => lt_of_mem_bits (by omega) hj
  constructor
  · by_contra hall
    have hfull : bits (N ^ 2 - 1) = range N := by
      ext i
      rw [mem_range]
      refine ⟨hrange i, fun hi => ?_⟩
      by_contra hmem
      exact hall ⟨i, hi, hmem⟩
    rw [← bits_two_pow_sub_one, bits_eq_iff, sum_two_pow_bits] at hfull
    omega
  · obtain ⟨j, hj⟩ : (bits (N ^ 2 - 1)).Nonempty := by
      rw [nonempty_iff_ne_empty]
      intro hempty
      rw [bits_eq_iff, sum_empty] at hempty
      omega
    exact ⟨j, hrange j hj, hj⟩

/-! ## From five events on -/

/-- Only pairs of different events matter. -/
theorem closedCut_iff_offDiagonal (h : IdsInRange N hb) {c : ℕ} :
    ClosedCut hb c ↔ ClosedUnder (OffDiagonal (digitRel hb)) c := by
  rw [closedCut_iff h]
  constructor
  · intro hc i j hij
    exact hc i j hij.1
  · intro hc i j hij hj
    by_cases hne : i = j
    · rwa [hne]
    · exact hc i j ⟨hij, hne⟩ hj

/-- The event of digit `d` is in no pair with another event. -/
def Unpaired (hb : List (ℕ × ℕ)) (d : ℕ) : Prop :=
  ∀ p ∈ hb, p.1 ≠ p.2 → p.1 ≠ d + 1 ∧ p.2 ≠ d + 1

instance (hb : List (ℕ × ℕ)) : DecidablePred (Unpaired hb) := fun _ =>
  inferInstanceAs (Decidable (∀ p ∈ hb, _))

/-- The event of digit `d` is on a cycle of different events, or after one. -/
def OnCycle (hb : List (ℕ × ℕ)) (d : ℕ) : Prop := Blocked (OffDiagonal (digitRel hb)) d

/-- `N ^ 2 - 1` can be reached: with an event it contains those before it, none of its events is on
a cycle or after one, and it can be built in `N` steps with the help of events that are in no
pair. -/
structure Reached (N : ℕ) (hb : List (ℕ × ℕ)) : Prop where
  closed : ClosedCut hb (N ^ 2 - 1)
  free : ∀ d ∈ bits (N ^ 2 - 1), ¬ OnCycle hb d
  weight : N ≤ weight (Unpaired hb) (N ^ 2 - 1)

open Classical in
/-- `N ^ 2 - 1` cannot be reached: it contains an event without one that comes before it, it
contains an event that is on a cycle or after one, or it cannot be built in `N` steps even with the
help of all events that are not. -/
def OutOfReach (N : ℕ) (hb : List (ℕ × ℕ)) : Prop :=
  ¬ ClosedCut hb (N ^ 2 - 1) ∨ (∃ d ∈ bits (N ^ 2 - 1), OnCycle hb d) ∨
    weight (fun d => ¬ OnCycle hb d) (N ^ 2 - 1) < N

theorem Unpaired.untied {d : ℕ} (h : Unpaired hb d) : Untied (OffDiagonal (digitRel hb)) d := by
  intro e
  constructor
  · rintro ⟨hde, hne⟩
    exact (h (d + 1, e + 1) hde (by simpa using hne)).1 rfl
  · rintro ⟨hed, hne⟩
    exact (h (e + 1, d + 1) hed (by simpa using hne)).2 rfl

/-- If all pairs are recorded in both directions, the events that are in no pair are those that are
not on a cycle. -/
theorem unpaired_iff (hids : IdsInRange N hb) (hsymm : ∀ p ∈ hb, (p.2, p.1) ∈ hb) {d : ℕ} :
    Unpaired hb d ↔ ¬ OnCycle hb d := by
  have hsymm' : ∀ i j, OffDiagonal (digitRel hb) i j → OffDiagonal (digitRel hb) j i :=
    fun i j hij => ⟨hsymm (i + 1, j + 1) hij.1, hij.2.symm⟩
  unfold OnCycle
  rw [blocked_iff_of_symm hsymm', not_exists]
  constructor
  · exact fun h e => (h.untied e).1
  · intro h
    have hfirst : ∀ p ∈ hb, p.1 ≠ p.2 → p.1 ≠ d + 1 := by
      intro p hp hne hd
      have hids' := hids p hp
      refine h (p.2 - 1) ⟨?_, by omega⟩
      unfold digitRel HappenedBefore
      rw [← hd, Nat.sub_add_cancel hids'.2.1]
      exact hp
    exact fun p hp hne => ⟨hfirst p hp hne, hfirst (p.2, p.1) (hsymm p hp) hne.symm⟩

/-- Then one of the two conditions holds. -/
theorem reached_or_outOfReach (hids : IdsInRange N hb) (hsymm : ∀ p ∈ hb, (p.2, p.1) ∈ hb) :
    Reached N hb ∨ OutOfReach N hb := by
  classical
  by_cases hclosed : ClosedCut hb (N ^ 2 - 1)
  · by_cases hfree : ∀ d ∈ bits (N ^ 2 - 1), ¬ OnCycle hb d
    · have hweight := weight_congr (fun d => unpaired_iff hids hsymm (d := d)) (N ^ 2 - 1)
      rcases Nat.lt_or_ge (weight (Unpaired hb) (N ^ 2 - 1)) N with hlt | hge
      · rw [hweight] at hlt
        exact Or.inr (Or.inr (Or.inr hlt))
      · exact Or.inl ⟨hclosed, hfree, hge⟩
    · push Not at hfree
      exact Or.inr (Or.inr (Or.inl hfree))
  · exact Or.inr (Or.inl hclosed)

theorem Reached.walk (h : Reached N hb) (hN : 5 ≤ N) (hids : IdsInRange N hb) :
    Walk (ClosedCut hb) 0 N (N ^ 2 - 1) := by
  have hlt := sq_lt_two_pow hN
  have hcard : #(bits (N ^ 2 - 1)) ≤ N := card_bits_le_of_lt_two_pow (by omega)
  have hwalk := walk_closed_of_le (fun _ hd => Unpaired.untied hd)
    ((closedCut_iff_offDiagonal hids).mp h.closed) h.free hcard h.weight
  exact hwalk.mono fun c hc => (closedCut_iff_offDiagonal hids).mpr hc

theorem OutOfReach.not_walk (h : OutOfReach N hb) (hids : IdsInRange N hb) :
    ¬ Walk (ClosedCut hb) 0 N (N ^ 2 - 1) := by
  classical
  intro hwalk
  have hclosed := hwalk.mono fun c hc => (closedCut_iff_offDiagonal hids).mp hc
  obtain ⟨hfree, hweight⟩ := hclosed.closed_bounds fun i hi => hi.2 rfl
  rcases h with hopen | ⟨d, hd, hcycle⟩ | hshort
  · exact hopen hwalk.ok_right
  · exact hfree d hd hcycle
  · unfold OnCycle at hshort
    omega

/-! ## The verdict -/

/-- `solveSMT` returns a verdict, and it is linearisability. -/
def VerdictExact (z : Solver) (m : TraceMonitor) : Prop :=
  ∃ b, solveSMT z m = some b ∧ (b = true ↔ Linearisable m.totNumEvents m.hbSet)

/-- A condition on the number of events and the recorded pairs under which the verdict is
linearisability. -/
structure VerdictCondition (N : ℕ) (hb : List (ℕ × ℕ)) : Prop where
  /-- Every recorded id has a mask. -/
  masks : ∀ p ∈ hb, p.1 ≤ 31 ∧ p.2 ≤ 31
  /-- With one or three events the solver never finds an order: there must be none. -/
  one_three : N = 1 ∨ N = 3 → ¬ Acyclic (HappenedBefore hb)
  /-- With two or four events only a pair of an event with itself is overlooked. -/
  two_four : N = 2 ∨ N = 4 →
    (∀ p ∈ hb, p.1 ≠ p.2) ∨ ¬ Acyclic (OffDiagonal (HappenedBefore hb))
  /-- With more events and no cycle, the solver must get to its constant. -/
  large_acyclic : 5 ≤ N → Acyclic (HappenedBefore hb) → Reached N hb
  /-- With a cycle it must not. -/
  large_cyclic : 5 ≤ N → ¬ Acyclic (HappenedBefore hb) → OutOfReach N hb

/-- The verdict is exact when the walk the solver looks for exists exactly if the pairs
have no cycle. -/
theorem verdictExact_iff_walk (z : Solver) {m : TraceMonitor} (hproc : m.numProcess ≤ maxProcess)
    (hN : 1 ≤ m.totNumEvents) (hids : IdsInRange m.totNumEvents m.hbSet)
    (hmasks : ∀ p ∈ m.hbSet, p.1 ≤ 31 ∧ p.2 ≤ 31) :
    VerdictExact z m ↔ (Walk (ClosedCut m.hbSet) 0 m.totNumEvents
      ((m.totNumEvents ^ 2 - 1) % 2 ^ m.totNumEvents) ↔ Acyclic (HappenedBefore m.hbSet)) := by
  obtain ⟨b, hb, hwalk⟩ := solveSMT_spec z hproc hN (hids.idsFit hmasks).masked
  rw [← hwalk, ← linearisable_iff hids]
  constructor
  · rintro ⟨b', hb', h⟩
    obtain rfl : b' = b := Option.some.inj (hb'.symm.trans hb)
    exact h
  · intro h
    exact ⟨b, hb, h⟩

theorem forall_ne_iff : (∀ p ∈ hb, p.1 ≠ p.2) ↔ ∀ a, ¬ HappenedBefore hb a a := by
  constructor
  · intro h a ha
    exact h (a, a) ha rfl
  · rintro h ⟨a, b⟩ hp (hab : a = b)
    subst hab
    exact h a hp

/-- With at most four events the condition is exact. -/
theorem verdictCondition_iff_of_le (hN : 1 ≤ N) (hfour : N ≤ 4) (hids : IdsInRange N hb)
    (hmasks : ∀ p ∈ hb, p.1 ≤ 31 ∧ p.2 ≤ 31) : VerdictCondition N hb ↔
      (Walk (ClosedCut hb) 0 N ((N ^ 2 - 1) % 2 ^ N) ↔ Acyclic (HappenedBefore hb)) := by
  obtain hodd | heven : (N = 1 ∨ N = 3) ∨ (N = 2 ∨ N = 4) := by omega
  · have hno : ¬ Walk (ClosedCut hb) 0 N ((N ^ 2 - 1) % 2 ^ N) := not_walk_of_one_three hodd
    constructor
    · intro h
      exact ⟨fun hwalk => absurd hwalk hno, fun hacyc => absurd hacyc (h.one_three hodd)⟩
    · intro h
      exact ⟨hmasks, fun _ hacyc => hno (h.mpr hacyc), by omega, by omega, by omega⟩
  · rw [sq_sub_one_mod_of_two_four heven, walk_full_iff hids,
      acyclic_iff_offDiagonal (r := HappenedBefore hb), ← forall_ne_iff]
    constructor
    · intro h
      rcases h.two_four heven with hne | hno
      · exact ⟨fun hacyc => ⟨hacyc, hne⟩, fun hacyc => hacyc.1⟩
      · exact ⟨fun hacyc => absurd hacyc hno, fun hacyc => absurd hacyc.1 hno⟩
    · intro h
      refine ⟨hmasks, by omega, fun _ => ?_, by omega, by omega⟩
      by_cases hacyc : Acyclic (OffDiagonal (HappenedBefore hb))
      · exact Or.inl (h.mp hacyc).2
      · exact Or.inr hacyc

/-- With more events it is enough. -/
theorem VerdictCondition.walk_iff (h : VerdictCondition N hb) (hN : 5 ≤ N)
    (hids : IdsInRange N hb) :
    Walk (ClosedCut hb) 0 N ((N ^ 2 - 1) % 2 ^ N) ↔ Acyclic (HappenedBefore hb) := by
  rw [sq_sub_one_mod hN]
  constructor
  · intro hwalk
    by_contra hcycle
    exact (h.large_cyclic hN hcycle).not_walk hids hwalk
  · intro hacyc
    exact (h.large_acyclic hN hacyc).walk hN hids

/-- And it is exact where the constant is known to be reached or not. -/
theorem verdictCondition_of_walk_iff (hN : 5 ≤ N) (hids : IdsInRange N hb)
    (hmasks : ∀ p ∈ hb, p.1 ≤ 31 ∧ p.2 ≤ 31) (hknown : Reached N hb ∨ OutOfReach N hb)
    (h : Walk (ClosedCut hb) 0 N ((N ^ 2 - 1) % 2 ^ N) ↔ Acyclic (HappenedBefore hb)) :
    VerdictCondition N hb := by
  rw [sq_sub_one_mod hN] at h
  refine ⟨hmasks, by omega, by omega, fun _ hacyc => ?_, fun _ hcycle => ?_⟩
  · exact hknown.resolve_right fun hout => hout.not_walk hids (h.mpr hacyc)
  · exact hknown.resolve_left fun hreached => hcycle (h.mp (hreached.walk hN hids))

/-- Without masks there is no verdict. -/
theorem VerdictExact.masks {z : Solver} {m : TraceMonitor} (h : VerdictExact z m) :
    ∀ p ∈ m.hbSet, p.1 ≤ 31 ∧ p.2 ≤ 31 := by
  obtain ⟨b, hb, -⟩ := h
  intro p hp
  by_contra hid
  rw [solveSMT_eq_none z hp (by omega)] at hb
  exact absurd hb (by simp)

/-- The condition is enough, for one monitor. -/
theorem VerdictCondition.verdictExact (z : Solver) {m : TraceMonitor}
    (hproc : m.numProcess ≤ maxProcess) (hN : 1 ≤ m.totNumEvents)
    (hids : IdsInRange m.totNumEvents m.hbSet) (h : VerdictCondition m.totNumEvents m.hbSet) :
    VerdictExact z m := by
  rw [verdictExact_iff_walk z hproc hN hids h.masks]
  rcases Nat.lt_or_ge m.totNumEvents 5 with hsmall | hlarge
  · exact (verdictCondition_iff_of_le hN (Nat.le_of_lt_succ hsmall) hids h.masks).mp h
  · exact h.walk_iff hlarge hids

/-- And exact where the constant is known to be reached or not. -/
theorem verdictExact_iff (z : Solver) {m : TraceMonitor} (hproc : m.numProcess ≤ maxProcess)
    (hN : 1 ≤ m.totNumEvents) (hids : IdsInRange m.totNumEvents m.hbSet)
    (hknown : 5 ≤ m.totNumEvents →
      Reached m.totNumEvents m.hbSet ∨ OutOfReach m.totNumEvents m.hbSet) :
    VerdictExact z m ↔ VerdictCondition m.totNumEvents m.hbSet := by
  constructor
  · intro h
    have hwalk := (verdictExact_iff_walk z hproc hN hids h.masks).mp h
    rcases Nat.lt_or_ge m.totNumEvents 5 with hsmall | hlarge
    · exact (verdictCondition_iff_of_le hN (Nat.le_of_lt_succ hsmall) hids h.masks).mpr hwalk
    · exact verdictCondition_of_walk_iff hlarge hids h.masks (hknown hlarge) hwalk
  · exact fun h => h.verdictExact z hproc hN hids

/-! ## Which numbers of events -/

/-- A monitor with `N` events in its segment and these recorded pairs. -/
def eventsMonitor (N : ℕ) (hb : List (ℕ × ℕ)) : TraceMonitor :=
  { blank with numProcess := 1, numEvent := fun _ => N, hbSet := hb }

theorem totNumEvents_eventsMonitor (N : ℕ) (hb : List (ℕ × ℕ)) :
    (eventsMonitor N hb).totNumEvents = N := by
  show (N + 0 : ℕ) = N
  rfl

/-- Outside two and four events some segment without a pair of an event with itself gets a
wrong verdict. -/
theorem exists_not_verdictCondition (hN : 1 ≤ N) (h2 : N ≠ 2) (h4 : N ≠ 4) :
    ∃ hb, IdsInRange N hb ∧ (∀ p ∈ hb, p.1 ≠ p.2) ∧
      (5 ≤ N → Reached N hb ∨ OutOfReach N hb) ∧ ¬ VerdictCondition N hb := by
  obtain hodd | hlarge : (N = 1 ∨ N = 3) ∨ 5 ≤ N := by omega
  · refine ⟨[], by simp [IdsInRange], by simp, by omega, fun h => h.one_three hodd ?_⟩
    exact (linearisable_iff (N := N) (by simp [IdsInRange])).mp
      ⟨List.range' 1 N, List.Perm.refl _, by simp⟩
  · -- an event of the constant after an event that is missing from it
    obtain ⟨⟨i, hi, hmissing⟩, j, hj, hmem⟩ := exists_digits hlarge
    have hij : i + 1 ≠ j + 1 := by
      intro heq
      rw [Nat.succ_inj] at heq
      exact hmissing (heq ▸ hmem)
    have hopen : ¬ ClosedCut [(i + 1, j + 1)] (N ^ 2 - 1) := fun hclosed =>
      hmissing (hclosed (i + 1, j + 1) (List.mem_singleton_self _) hmem)
    refine ⟨[(i + 1, j + 1)], ?_, ?_, fun _ => Or.inr (Or.inl hopen), fun h => ?_⟩
    · intro p hp
      rw [List.mem_singleton] at hp
      subst hp
      exact ⟨⟨by omega, by omega⟩, by omega, by omega⟩
    · intro p hp
      rw [List.mem_singleton] at hp
      subst hp
      exact hij
    · have hacyc : Acyclic (HappenedBefore [(i + 1, j + 1)]) := by
        refine acyclic_of_pair (a := i + 1) (b := j + 1) (fun x y hxy => ?_) hij
        have hpair : (x, y) = (i + 1, j + 1) := List.mem_singleton.mp hxy
        exact Prod.ext_iff.mp hpair
      exact hopen (h.large_acyclic hlarge hacyc).closed

/-- Three events of one process, nothing recorded: the solver finds no order. -/
theorem linearisable_rejected : ∃ m : TraceMonitor, m.totNumEvents = 3 ∧ m.hbSet = [] ∧
    Linearisable 3 [] ∧ ∀ z, solveSMT z m = some false := by
  refine ⟨eventsMonitor 3 [], totNumEvents_eventsMonitor 3 [], rfl,
    ⟨List.range' 1 3, List.Perm.refl _, by simp⟩, fun z => ?_⟩
  -- the last cut is `8` modulo `2 ^ 3`
  have hno : ¬ Walk (ClosedCut []) 0 3 ((3 ^ 2 - 1) % 2 ^ 3) := not_walk_of_one_three (Or.inr rfl)
  apply solveSMT_eq_some z (by decide) (by decide)
    ⟨by simp [eventsMonitor], by simp [eventsMonitor]⟩
  constructor
  · intro h
    exact absurd h (by decide)
  · intro hwalk
    exact absurd hwalk hno

/-- **When the verdict is linearisability.**  For every number `N ≥ 1` of events and all recorded
pairs of ids `1, …, N`:

* the verdict is linearisability if `VerdictCondition` holds;
* it is only then, if there are at most four events, if the constant is known to be reached or not,
  or if all pairs are recorded in both directions;
* it is linearisability for all recorded pairs of different events exactly when `N` is two or
  four. -/
theorem solveSMT_exact_iff (z : Solver) (N : ℕ) (hN : 1 ≤ N) :
    (∀ m : TraceMonitor, m.numProcess ≤ maxProcess → m.totNumEvents = N →
      IdsInRange N m.hbSet → VerdictCondition N m.hbSet → VerdictExact z m) ∧
    (∀ m : TraceMonitor, m.numProcess ≤ maxProcess → m.totNumEvents = N →
      IdsInRange N m.hbSet →
      (N ≤ 4 ∨ Reached N m.hbSet ∨ OutOfReach N m.hbSet ∨ ∀ p ∈ m.hbSet, (p.2, p.1) ∈ m.hbSet) →
        (VerdictExact z m ↔ VerdictCondition N m.hbSet)) ∧
    ((∀ m : TraceMonitor, m.numProcess ≤ maxProcess → m.totNumEvents = N →
      IdsInRange N m.hbSet → (∀ p ∈ m.hbSet, p.1 ≠ p.2) → VerdictExact z m) ↔
        N = 2 ∨ N = 4) := by
  refine ⟨?_, ?_, fun hall => ?_, fun heven m hproc hm hids hne => ?_⟩
  · rintro m hproc rfl hids h
    exact h.verdictExact z hproc hN hids
  · rintro m hproc rfl hids hknown
    refine verdictExact_iff z hproc hN hids fun hlarge => ?_
    rcases hknown with hsmall | hreached | hout | hsymm
    · omega
    · exact Or.inl hreached
    · exact Or.inr hout
    · exact reached_or_outOfReach hids hsymm
  · by_contra hno
    obtain ⟨hb, hids, hne, hknown, hcond⟩ :=
      exists_not_verdictCondition hN (fun h => hno (Or.inl h)) (fun h => hno (Or.inr h))
    have htot := totNumEvents_eventsMonitor N hb
    have hproc : (eventsMonitor N hb).numProcess ≤ maxProcess := by
      show (1 : ℤ) ≤ maxProcess
      decide
    have hexact := hall (eventsMonitor N hb) hproc htot hids hne
    rw [verdictExact_iff z hproc (htot ▸ hN) (htot ▸ hids) (htot ▸ hknown), htot] at hexact
    exact hcond hexact
  · subst hm
    refine VerdictCondition.verdictExact z hproc hN hids
      ⟨fun p hp => ?_, by omega, fun _ => Or.inl hne, by omega, by omega⟩
    have hp' := hids p hp
    omega

/-- Five events, of which the fourth comes before the fifth: `24` is these two, and it can be built
in five steps with the help of the others.  If the fifth comes before the fourth as well, neither
is ever in a cut. -/
theorem solveSMT_exact_five : VerdictExact default (eventsMonitor 5 [(4, 5)]) ∧
    VerdictExact default (eventsMonitor 5 [(4, 5), (5, 4)]) := by
  obtain ⟨henough, hiff, -⟩ := solveSMT_exact_iff default 5 (by decide)
  constructor
  · have hacyc : Acyclic (HappenedBefore [(4, 5)]) :=
      acyclic_of_pair (a := 4) (b := 5) (by simp [HappenedBefore]) (by decide)
    have hdigits : Acyclic (OffDiagonal (digitRel [(4, 5)])) :=
      acyclic_of_pair (a := 3) (b := 4) (by simp [OffDiagonal, digitRel, HappenedBefore])
        (by decide)
    have hreached : Reached 5 [(4, 5)] := by
      refine ⟨by decide +kernel, fun d _ hcycle => ?_, by decide +kernel⟩
      obtain ⟨e, he, -⟩ := hcycle
      exact hdigits e he
    exact henough (eventsMonitor 5 [(4, 5)]) (by decide) (totNumEvents_eventsMonitor 5 _)
      (by simp [IdsInRange, eventsMonitor]) ⟨by simp [eventsMonitor], by omega, by omega,
        fun _ _ => hreached, fun _ hcycle => absurd hacyc hcycle⟩
  · have hdigits : OnCycle [(4, 5), (5, 4)] 3 :=
      ⟨3, .tail (.single (show OffDiagonal _ 3 4 from ⟨by decide, by decide⟩))
        ⟨by decide, by decide⟩, .refl⟩
    have hcycle : ¬ Acyclic (HappenedBefore [(4, 5), (5, 4)]) := fun hacyc =>
      hacyc 4 (.tail (.single (show HappenedBefore _ 4 5 by decide)) (by decide))
    have hout : OutOfReach 5 [(4, 5), (5, 4)] := Or.inr (Or.inl ⟨3, by decide +kernel, hdigits⟩)
    refine (hiff (eventsMonitor 5 [(4, 5), (5, 4)]) (by decide) (totNumEvents_eventsMonitor 5 _)
      (by simp [IdsInRange, eventsMonitor]) (Or.inr (Or.inr (Or.inr ?_)))).mpr
      ⟨by simp [eventsMonitor], by omega, by omega, fun _ hacyc => absurd hacyc hcycle,
        fun _ _ => hout⟩
    simp [eventsMonitor]

end TraceMonitor
