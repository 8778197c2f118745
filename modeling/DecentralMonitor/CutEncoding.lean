/-
# What the solver is asked

`solveSMT` asks for a function `f` from integers to bit-vectors, with
`f(0), …, f(N)` a sequence of cuts.  Read as numbers the cuts grow by a power of two in
every step, start at zero, end at the constant the source computes, and respect the
recorded pairs.  `satisfiable_iff_walk` says that the constraints have a model exactly
when there is such a walk (`CarryWalk.Walk`), and `solveSMT_spec` what `solveSMT`
returns.
-/
import Mathlib.Data.Nat.Bitwise
import DecentralMonitor.CarryWalk
import DecentralMonitor.SegmentTrace

open Constraint CarryWalk

namespace TraceMonitor

variable {N : ℕ} {hb : List (ℕ × ℕ)} {I : Interp}

/-! ## The formulas -/

theorem holds_eventValue {i : ℕ} : (eventValue N i).Holds I ↔
    I.const (.bv N) ("eventList" ++ toString i) = BitVec.ofInt N i := Iff.rfl

theorem holds_cutIs {i j : ℕ} : (cutIs N i j).Holds I ↔
    I.func N "f" i = I.const (.bv N) ("eventList" ++ toString j) := Iff.rfl

theorem holds_stepIs {i j : ℕ} : (stepIs N i j).Holds I ↔
    ((I.func N "f" (i + 1)).toNat : ℤ) - (I.func N "f" i).toNat = j := Iff.rfl

theorem holds_xInRange : (xInRange N).Holds I ↔
    (0 : ℤ) ≤ I.const .int "x" ∧ I.const .int "x" ≤ (N : ℤ) := Iff.rfl

/-- The values of `j` in the loop over the powers of two. -/
theorem mem_doublings (bound fuel e₀ j : ℕ) :
    j ∈ doublings bound fuel (2 ^ e₀) ↔
      ∃ e, e₀ ≤ e ∧ e < e₀ + fuel ∧ j = 2 ^ e ∧ 2 ^ e < bound := by
  induction fuel generalizing e₀ with
  | zero =>
    constructor
    · intro h
      simp [doublings] at h
    · rintro ⟨e, h₁, h₂, -⟩
      omega
  | succ fuel ih =>
    unfold doublings
    by_cases hlt : 2 ^ e₀ < bound
    · rw [if_pos hlt, List.mem_cons, ← Nat.pow_succ, ih]
      constructor
      · rintro (rfl | ⟨e, h₁, h₂, h₃, h₄⟩)
        · exact ⟨e₀, le_rfl, by omega, rfl, hlt⟩
        · exact ⟨e, by omega, by omega, h₃, h₄⟩
      · rintro ⟨e, h₁, h₂, h₃, h₄⟩
        rcases Nat.eq_or_lt_of_le h₁ with rfl | h₁
        · exact Or.inl h₃
        · exact Or.inr ⟨e, h₁, by omega, h₃, h₄⟩
    · rw [if_neg hlt]
      constructor
      · intro h
        simp at h
      · rintro ⟨e, h₁, -, -, h₄⟩
        have hpow : 2 ^ e₀ ≤ 2 ^ e := Nat.pow_le_pow_right (by decide) h₁
        omega

/-- The loop runs through all powers of two below its bound. -/
theorem mem_doublings_one {bound j : ℕ} :
    j ∈ doublings bound bound 1 ↔ ∃ e, j = 2 ^ e ∧ 2 ^ e < bound := by
  have h := mem_doublings bound bound 0 j
  rw [Nat.pow_zero] at h
  rw [h]
  constructor
  · rintro ⟨e, -, -, h₃, h₄⟩
    exact ⟨e, h₃, h₄⟩
  · rintro ⟨e, h₃, h₄⟩
    have he : e < 2 ^ e := Nat.lt_two_pow_self
    exact ⟨e, Nat.zero_le _, by omega, h₃, h₄⟩

/-- A model of the constraints on the sequence of cuts. -/
structure CutModel (N : ℕ) (I : Interp) : Prop where
  eventList : ∀ i < N ^ 2, I.const (.bv N) ("eventList" ++ toString i) = BitVec.ofInt N i
  first : I.func N "f" 0 = I.const (.bv N) ("eventList" ++ toString 0)
  range : ∀ i ≤ N, ∃ j < N ^ 2, I.func N "f" i = I.const (.bv N) ("eventList" ++ toString j)
  order : ∀ i < N, ∃ e, 2 ^ e < N ^ 2 ∧
    ((I.func N "f" (i + 1)).toNat : ℤ) - (I.func N "f" i).toNat = (2 ^ e : ℕ)
  last : I.func N "f" N = I.const (.bv N) ("eventList" ++ toString (N ^ 2 - 1))
  x : (0 : ℤ) ≤ I.const .int "x" ∧ I.const .int "x" ≤ (N : ℤ)

theorem holds_eventRange {i : ℕ} : (eventRange N i).Holds I ↔
    ∃ j < N ^ 2, I.func N "f" i = I.const (.bv N) ("eventList" ++ toString j) := by
  unfold eventRange
  rw [holds_mkOr]
  constructor
  · rintro ⟨φ, hφ, h⟩
    obtain ⟨j, hj, rfl⟩ := List.mem_map.mp hφ
    exact ⟨j, List.mem_range.mp hj, holds_cutIs.mp h⟩
  · rintro ⟨j, hj, h⟩
    exact ⟨_, List.mem_map_of_mem (List.mem_range.mpr hj), holds_cutIs.mpr h⟩

theorem holds_eventOrder {i : ℕ} : (eventOrder N i).Holds I ↔ ∃ e, 2 ^ e < N ^ 2 ∧
    ((I.func N "f" (i + 1)).toNat : ℤ) - (I.func N "f" i).toNat = (2 ^ e : ℕ) := by
  unfold eventOrder
  rw [holds_mkOr]
  constructor
  · rintro ⟨φ, hφ, h⟩
    obtain ⟨j, hj, rfl⟩ := List.mem_map.mp hφ
    obtain ⟨e, rfl, he⟩ := mem_doublings_one.mp hj
    exact ⟨e, he, holds_stepIs.mp h⟩
  · rintro ⟨e, he, h⟩
    exact ⟨_, List.mem_map_of_mem (mem_doublings_one.mpr ⟨e, rfl, he⟩), holds_stepIs.mpr h⟩

theorem holds_cutConstraints : (∀ φ ∈ cutConstraints N, φ.Holds I) ↔ CutModel N I := by
  unfold cutConstraints
  simp only [List.forall_mem_append, List.forall_mem_map, List.mem_range, List.mem_singleton,
    forall_eq, holds_eventValue, holds_cutIs, holds_eventRange, holds_eventOrder, holds_xInRange,
    Nat.lt_succ_iff]
  constructor
  · rintro ⟨⟨⟨⟨⟨h₁, h₂⟩, h₃⟩, h₄⟩, h₅⟩, h₆⟩
    exact ⟨h₁, h₂, h₃, h₄, h₅, h₆⟩
  · rintro ⟨h₁, h₂, h₃, h₄, h₅, h₆⟩
    exact ⟨⟨⟨⟨⟨h₁, h₂⟩, h₃⟩, h₄⟩, h₅⟩, h₆⟩

/-! ## The recorded pairs -/

/-- The recorded ids are those of `N` events, and their masks fit an `int`. -/
structure IdsFit (N : ℕ) (hb : List (ℕ × ℕ)) : Prop where
  first : ∀ p ∈ hb, 1 ≤ p.1 ∧ p.1 ≤ N ∧ p.1 ≤ 31
  second : ∀ p ∈ hb, 1 ≤ p.2 ∧ p.2 ≤ N ∧ p.2 ≤ 31

/-- The recorded ids are positive and their masks fit an `int`.  They may be ids of earlier
segments with more events. -/
structure Masked (hb : List (ℕ × ℕ)) : Prop where
  first : ∀ p ∈ hb, 1 ≤ p.1 ∧ p.1 ≤ 31
  second : ∀ p ∈ hb, 1 ≤ p.2 ∧ p.2 ≤ 31

theorem IdsFit.masked (h : IdsFit N hb) : Masked hb where
  first := fun p hp => ⟨(h.first p hp).1, (h.first p hp).2.2⟩
  second := fun p hp => ⟨(h.second p hp).1, (h.second p hp).2.2⟩

/-- A cut, read as a number, contains with the later event of a pair the earlier one. -/
def ClosedCut (hb : List (ℕ × ℕ)) (c : ℕ) : Prop :=
  ∀ p ∈ hb, p.2 - 1 ∈ bits c → p.1 - 1 ∈ bits c

instance (hb : List (ℕ × ℕ)) (c : ℕ) : Decidable (ClosedCut hb c) :=
  inferInstanceAs (Decidable (∀ p ∈ hb, _ → _))

theorem eventMask_eq {id : ℕ} (h₁ : 1 ≤ id) (h₂ : id ≤ 31) :
    eventMask id = some (2 ^ (id - 1)) := by
  unfold eventMask
  rw [if_neg (by omega), if_pos h₂]

/-- The mask of an event selects its digit.  The mask of an id above `N` is zero, and no cut
has such a digit. -/
theorem toNat_and_mask (k : ℕ) (v : BitVec N) :
    ((v &&& BitVec.ofInt N (2 ^ k)).toNat : ℤ) ≠ 0 ↔ k ∈ bits v.toNat := by
  have hcast : ((2 : ℤ) ^ k) = ((2 ^ k : ℕ) : ℤ) := by push_cast; rfl
  rcases Nat.lt_or_ge k N with hk | hk
  · have hmask : (BitVec.ofInt N (2 ^ k)).toNat = 2 ^ k := by
      rw [hcast, BitVec.ofInt_natCast, BitVec.toNat_ofNat,
        Nat.mod_eq_of_lt (Nat.pow_lt_pow_right (by decide) hk)]
    rw [BitVec.toNat_and, hmask, Nat.and_two_pow, mem_bits]
    cases v.toNat.testBit k <;> simp
  · have hmask : (BitVec.ofInt N (2 ^ k)).toNat = 0 := by
      rw [hcast, BitVec.ofInt_natCast, BitVec.toNat_ofNat]
      exact Nat.mod_eq_zero_of_dvd (Nat.pow_dvd_pow 2 hk)
    have hbit : v.toNat.testBit k = false :=
      Nat.testBit_lt_two_pow (v.isLt.trans_le (Nat.pow_le_pow_right (by decide) hk))
    rw [BitVec.toNat_and, hmask, Nat.and_zero, mem_bits, hbit]
    simp

/-- A model of the assertions on pair number `i`. -/
structure PairModel (N : ℕ) (I : Interp) (i : ℕ) (p : ℕ × ℕ) : Prop where
  b1 : I.const (.bv N) ("b1" ++ toString i) = BitVec.ofInt N (2 ^ (p.2 - 1))
  b2 : I.const (.bv N) ("b2" ++ toString i) = BitVec.ofInt N (2 ^ (p.1 - 1))
  closed : ∀ z : ℤ, p.2 - 1 ∈ bits (I.func N "f" z).toNat → p.1 - 1 ∈ bits (I.func N "f" z).toNat

/-- The assertions on one pair. -/
theorem pairConstraints_spec {i : ℕ} {p : ℕ × ℕ} (h₁ : 1 ≤ p.1 ∧ p.1 ≤ 31)
    (h₂ : 1 ≤ p.2 ∧ p.2 ≤ 31) :
    ∃ φs, pairConstraints N i p = some φs ∧
      ∀ I : Interp, (∀ φ ∈ φs, φ.Holds I) ↔ PairModel N I i p := by
  refine ⟨_, by rw [pairConstraints, eventMask_eq h₁.1 h₁.2, eventMask_eq h₂.1 h₂.2]; rfl,
    fun I => ?_⟩
  have hb1 : (Formula.eq (b1 N i) (.bvVal N (2 ^ (p.2 - 1)))).Holds I ↔
      I.const (.bv N) ("b1" ++ toString i) = BitVec.ofInt N (2 ^ (p.2 - 1)) := Iff.rfl
  have hb2 : (Formula.eq (b2 N i) (.bvVal N (2 ^ (p.1 - 1)))).Holds I ↔
      I.const (.bv N) ("b2" ++ toString i) = BitVec.ofInt N (2 ^ (p.1 - 1)) := Iff.rfl
  have hall : (Formula.forallInt "x" (.implies (meets N (b1 N i)) (meets N (b2 N i)))).Holds I ↔
      ∀ z : ℤ, ((I.func N "f" z &&& I.const (.bv N) ("b1" ++ toString i)).toNat : ℤ) ≠ 0 →
        ((I.func N "f" z &&& I.const (.bv N) ("b2" ++ toString i)).toNat : ℤ) ≠ 0 := by
    refine forall_congr' fun z => ?_
    show (((I.func N "f" ((I.setInt "x" z).const .int "x") &&&
        I.const (.bv N) ("b1" ++ toString i)).toNat : ℤ) ≠ 0 →
      ((I.func N "f" ((I.setInt "x" z).const .int "x") &&&
        I.const (.bv N) ("b2" ++ toString i)).toNat : ℤ) ≠ 0) ↔ _
    rw [Interp.setInt_const_self]
  simp only [List.forall_mem_cons, List.not_mem_nil, false_implies, implies_true, and_true, hb1,
    hb2, hall]
  constructor
  · rintro ⟨h₃, h₄, h₅⟩
    refine ⟨h₃, h₄, fun z hz => ?_⟩
    rw [h₃, h₄] at h₅
    exact (toNat_and_mask _ _).mp (h₅ z ((toNat_and_mask _ _).mpr hz))
  · rintro ⟨h₃, h₄, h₅⟩
    refine ⟨h₃, h₄, fun z hz => ?_⟩
    rw [h₃] at hz
    rw [h₄]
    exact (toNat_and_mask _ _).mpr (h₅ z ((toNat_and_mask _ _).mp hz))

/-- The assertions on all pairs. -/
theorem hbConstraints_spec (h : Masked hb) (i : ℕ) :
    ∃ φs, hbConstraints N i hb = some φs ∧ ∀ I : Interp, (∀ φ ∈ φs, φ.Holds I) ↔
      ∀ k (hk : k < hb.length), PairModel N I (i + k) hb[k] := by
  induction hb generalizing i with
  | nil => exact ⟨[], rfl, by simp⟩
  | cons p hb ih =>
    obtain ⟨φs, hφs, hholds⟩ := ih ⟨fun q hq => h.first q (List.mem_cons_of_mem p hq),
      fun q hq => h.second q (List.mem_cons_of_mem p hq)⟩ (i + 1)
    obtain ⟨ψs, hψs, hpair⟩ := pairConstraints_spec (i := i) (h.first p List.mem_cons_self)
      (h.second p List.mem_cons_self)
    refine ⟨ψs ++ φs, by rw [hbConstraints, hψs, hφs]; rfl, fun I => ?_⟩
    rw [List.forall_mem_append, hpair I, hholds I]
    constructor
    · rintro ⟨h₁, h₂⟩ k hk
      cases k with
      | zero => exact h₁
      | succ k =>
        have hk' := h₂ k (by simpa using hk)
        rw [Nat.add_right_comm] at hk'
        exact hk'
    · intro hk
      refine ⟨hk 0 (by simp), fun k hk' => ?_⟩
      have := hk (k + 1) (by simpa using hk')
      rw [Nat.add_right_comm]
      exact this

/-- An id above 31 has no mask. -/
theorem hbConstraints_eq_none {p : ℕ × ℕ} (hp : p ∈ hb) (hid : 31 < p.1 ∨ 31 < p.2) (i : ℕ) :
    hbConstraints N i hb = none := by
  induction hb generalizing i with
  | nil => simp at hp
  | cons q hb ih =>
    rw [hbConstraints]
    rcases List.mem_cons.mp hp with rfl | hp
    · have hnone : pairConstraints N i p = none := by
        unfold pairConstraints eventMask
        rcases hid with hid | hid
        · rw [if_neg (by omega), if_neg (by omega)]
          rfl
        · rw [if_neg (show ¬ p.2 = 0 by omega), if_neg (show ¬ p.2 ≤ 31 by omega)]
          cases (if p.1 = 0 then some (0 : ℤ) else if p.1 ≤ 31 then some (2 ^ (p.1 - 1)) else none)
            <;> rfl
      rw [hnone]
      rfl
    · rw [ih hp (i + 1)]
      cases pairConstraints N i q <;> rfl

/-! ## From a model to a walk -/

section Model

variable (hN : 1 ≤ N) (h : CutModel N I)

include hN h

/-- The first cut of a model is empty. -/
theorem CutModel.toNat_first : (I.func N "f" 0).toNat = 0 := by
  have hsq : 1 ≤ N ^ 2 := Nat.one_le_pow _ _ hN
  rw [h.first, h.eventList 0 (by omega)]
  simp

/-- The last cut is the constant of the source, in `N` digits. -/
theorem CutModel.toNat_last : (I.func N "f" N).toNat = (N ^ 2 - 1) % 2 ^ N := by
  have hsq : 1 ≤ N ^ 2 := Nat.one_le_pow _ _ hN
  rw [h.last, h.eventList _ (by omega), BitVec.ofInt_natCast, BitVec.toNat_ofNat]

omit hN in
/-- `bv2int` of a difference of cuts is a difference of integers, so no step wraps
around. -/
theorem CutModel.toNat_step {i : ℕ} (hi : i < N) :
    ∃ e, (I.func N "f" ((i : ℤ) + 1)).toNat = (I.func N "f" i).toNat + 2 ^ e := by
  obtain ⟨e, -, he⟩ := h.order i hi
  exact ⟨e, by omega⟩

/-- The cuts of a model up to one of them, and from there on, as walks. -/
theorem CutModel.walks (hclosed : ∀ z : ℤ, ClosedCut hb (I.func N "f" z).toNat) {x : ℕ}
    (hx : x ≤ N) : Walk (ClosedCut hb) 0 x (I.func N "f" x).toNat ∧
      Walk (ClosedCut hb) (I.func N "f" x).toNat (N - x) ((N ^ 2 - 1) % 2 ^ N) := by
  have hfirst := h.toNat_first hN
  have hlast := h.toNat_last hN
  have hwalks := walk_of_seq (s := fun i => (I.func N "f" i).toNat) hx
    (fun i hi => h.toNat_step hi) (fun i _ => hclosed i)
  simp only [Nat.cast_zero, hfirst, hlast] at hwalks
  exact hwalks

/-- The cuts of a model, as numbers, are a walk. -/
theorem CutModel.walk (hclosed : ∀ z : ℤ, ClosedCut hb (I.func N "f" z).toNat) :
    Walk (ClosedCut hb) 0 N ((N ^ 2 - 1) % 2 ^ N) := by
  have hwalk := (h.walks hN hclosed le_rfl).1
  rwa [h.toNat_last hN] at hwalk

end Model

/-- The cuts of a model respect the recorded pairs, also outside `0, …, N`. -/
theorem closedCut_of_holds (hfit : Masked hb) {pairs : List Formula}
    (hpairs : hbConstraints N 0 hb = some pairs) (hI : ∀ φ ∈ pairs, φ.Holds I) (z : ℤ) :
    ClosedCut hb (I.func N "f" z).toNat := by
  obtain ⟨φs, hφs, hholds⟩ := hbConstraints_spec hfit 0
  obtain rfl : pairs = φs := Option.some.inj (hpairs.symm.trans hφs)
  intro p hp
  obtain ⟨k, hk, rfl⟩ := List.getElem_of_mem hp
  exact ((hholds I).mp hI k hk).closed z

/-! ## From a walk to a model -/

/-- The constants of the encoding. -/
inductive ConstName
  | eventList (i : ℕ)
  | b1 (i : ℕ)
  | b2 (i : ℕ)

/-- Their names. -/
def ConstName.text : ConstName → String
  | .eventList i => "eventList" ++ toString i
  | .b1 i => "b1" ++ toString i
  | .b2 i => "b2" ++ toString i

/-- Different constants have different names. -/
theorem text_injective : Function.Injective ConstName.text := by
  -- names of different kinds differ in their first two letters, others in their numbers
  have happend : ∀ (s : String) {i j : ℕ}, s ++ toString i = s ++ toString j → i = j :=
    fun s _ _ h => toString_injective ((String.append_right_inj s).mp h)
  intro a b h
  cases a with
  | eventList i =>
    cases b with
    | eventList j => rw [happend _ h]
    | b1 j => exact absurd (congrArg String.toList h) (by simp [ConstName.text])
    | b2 j => exact absurd (congrArg String.toList h) (by simp [ConstName.text])
  | b1 i =>
    cases b with
    | eventList j => exact absurd (congrArg String.toList h) (by simp [ConstName.text])
    | b1 j => rw [happend _ h]
    | b2 j => exact absurd (congrArg String.toList h) (by simp [ConstName.text])
  | b2 i =>
    cases b with
    | eventList j => exact absurd (congrArg String.toList h) (by simp [ConstName.text])
    | b1 j => exact absurd (congrArg String.toList h) (by simp [ConstName.text])
    | b2 j => rw [happend _ h]

/-- The values of the constants. -/
def ConstName.value (N : ℕ) (hb : List (ℕ × ℕ)) : ConstName → BitVec N
  | .eventList i => BitVec.ofInt N i
  | .b1 i => BitVec.ofInt N (2 ^ ((hb.getD i (0, 0)).2 - 1))
  | .b2 i => BitVec.ofInt N (2 ^ ((hb.getD i (0, 0)).1 - 1))

/-- The value of `f` at an integer: the cut at that place, and zero outside `0, …, N`. -/
def cutAt (N : ℕ) (c : ℕ → ℕ) (z : ℤ) : ℕ := if 0 ≤ z ∧ z ≤ N then c z.toNat else 0

theorem cutAt_natCast {c : ℕ → ℕ} {i : ℕ} (hi : i ≤ N) : cutAt N c i = c i := by
  unfold cutAt
  rw [if_pos ⟨by omega, by omega⟩, Int.toNat_natCast]

/-- The interpretation given by a sequence of cuts. -/
noncomputable def cutInterp (N : ℕ) (hb : List (ℕ × ℕ)) (c : ℕ → ℕ) : Interp :=
  Interp.ofNames ConstName.text (ConstName.value N hb) (fun w _ z => BitVec.ofNat w (cutAt N c z))

theorem cutInterp_const (c : ℕ → ℕ) (k : ConstName) :
    (cutInterp N hb c).const (.bv N) k.text = k.value N hb :=
  Interp.ofNames_const text_injective _ _ k

/-- A sequence of cuts, as numbers.  Every cut is at most the last one. -/
structure CutSeq (N : ℕ) (hb : List (ℕ × ℕ)) (c : ℕ → ℕ) : Prop where
  first : c 0 = 0
  last : c N = (N ^ 2 - 1) % 2 ^ N
  step : ∀ i < N, ∃ e, c (i + 1) = c i + 2 ^ e
  closed : ∀ i ≤ N, ClosedCut hb (c i)
  le : ∀ i ≤ N, c i ≤ (N ^ 2 - 1) % 2 ^ N

theorem exists_cutSeq (h : Walk (ClosedCut hb) 0 N ((N ^ 2 - 1) % 2 ^ N)) :
    ∃ c, CutSeq N hb c := by
  have hbounded : Walk (fun b => ClosedCut hb b ∧ b ≤ (N ^ 2 - 1) % 2 ^ N) 0 N
      ((N ^ 2 - 1) % 2 ^ N) := h.mono_le fun b hle hc => ⟨hc, hle⟩
  obtain ⟨c, hfirst, hlast, hstep, hok⟩ := walk_iff_exists_seq.mp hbounded
  exact ⟨c, hfirst, hlast, hstep, fun i hi => (hok i hi).1, fun i hi => (hok i hi).2⟩

/-- A cut fits into `N` digits and is the value of one of the constants. -/
theorem CutSeq.lt {c : ℕ → ℕ} (h : CutSeq N hb c) (hN : 1 ≤ N) {i : ℕ} (hi : i ≤ N) :
    c i < 2 ^ N ∧ c i < N ^ 2 := by
  have hle := h.le i hi
  have hpow : (N ^ 2 - 1) % 2 ^ N < 2 ^ N := Nat.mod_lt _ (Nat.two_pow_pos N)
  have hmod : (N ^ 2 - 1) % 2 ^ N ≤ N ^ 2 - 1 := Nat.mod_le _ _
  have hsq : 1 ≤ N ^ 2 := Nat.one_le_pow _ _ hN
  omega

theorem cutInterp_eventList (c : ℕ → ℕ) (i : ℕ) :
    (cutInterp N hb c).const (.bv N) ("eventList" ++ toString i) = BitVec.ofNat N i := by
  rw [← BitVec.ofInt_natCast]
  exact cutInterp_const c (.eventList i)

theorem cutInterp_f (hb : List (ℕ × ℕ)) (c : ℕ → ℕ) {i : ℕ} (hi : i ≤ N) :
    (cutInterp N hb c).func N "f" i = BitVec.ofNat N (c i) := by
  show BitVec.ofNat N (cutAt N c i) = _
  rw [cutAt_natCast hi]

/-- The assertions on the sequence hold in the interpretation given by it. -/
theorem CutSeq.cutModel {c : ℕ → ℕ} (h : CutSeq N hb c) (hN : 1 ≤ N) :
    CutModel N (cutInterp N hb c) where
  eventList := by
    intro i _
    rw [cutInterp_eventList, BitVec.ofInt_natCast]
  first := by
    have hf := cutInterp_f hb c (Nat.zero_le N)
    rw [h.first] at hf
    exact hf.trans (cutInterp_eventList c 0).symm
  range := by
    intro i hi
    exact ⟨c i, (h.lt hN hi).2, (cutInterp_f hb c hi).trans (cutInterp_eventList c (c i)).symm⟩
  order := by
    intro i hi
    obtain ⟨e, he⟩ := h.step i hi
    have hnext := h.lt hN (show i + 1 ≤ N from hi)
    have hthis := h.lt hN hi.le
    refine ⟨e, by omega, ?_⟩
    have hfnext := cutInterp_f hb c (show i + 1 ≤ N from hi)
    rw [Nat.cast_add, Nat.cast_one] at hfnext
    rw [hfnext, cutInterp_f hb c hi.le, BitVec.toNat_ofNat, BitVec.toNat_ofNat,
      Nat.mod_eq_of_lt hnext.1, Nat.mod_eq_of_lt hthis.1, he]
    push_cast
    omega
  last := by
    rw [cutInterp_f hb c le_rfl, cutInterp_eventList, h.last]
    apply BitVec.eq_of_toNat_eq
    rw [BitVec.toNat_ofNat, BitVec.toNat_ofNat, Nat.mod_mod]
  x := by
    refine ⟨le_refl (0 : ℤ), ?_⟩
    show (0 : ℤ) ≤ N
    omega

/-- So do the assertions on the pairs; outside `0, …, N` the cut is empty. -/
theorem CutSeq.pairModel {c : ℕ → ℕ} (h : CutSeq N hb c) (hN : 1 ≤ N) {k : ℕ}
    (hk : k < hb.length) : PairModel N (cutInterp N hb c) k hb[k] := by
  have hget : hb.getD k (0, 0) = hb[k] := by
    rw [List.getD_eq_getElem?_getD, List.getElem?_eq_getElem hk, Option.getD_some]
  refine ⟨?_, ?_, fun z => ?_⟩
  · rw [← hget]
    exact cutInterp_const c (.b1 k)
  · rw [← hget]
    exact cutInterp_const c (.b2 k)
  · show hb[k].2 - 1 ∈ bits (BitVec.ofNat N (cutAt N c z)).toNat →
      hb[k].1 - 1 ∈ bits (BitVec.ofNat N (cutAt N c z)).toNat
    unfold cutAt
    split
    · next hz =>
      have hcut : z.toNat ≤ N := by omega
      rw [BitVec.toNat_ofNat, Nat.mod_eq_of_lt (h.lt hN hcut).1]
      exact h.closed z.toNat hcut hb[k] (List.getElem_mem hk)
    · simp

/-- So the interpretation is a model of all assertions. -/
theorem CutSeq.holds {c : ℕ → ℕ} (h : CutSeq N hb c) (hN : 1 ≤ N) (hfit : Masked hb) :
    ∃ pairs, hbConstraints N 0 hb = some pairs ∧
      ∀ φ ∈ cutConstraints N ++ pairs, φ.Holds (cutInterp N hb c) := by
  obtain ⟨pairs, hpairs, hholds⟩ := hbConstraints_spec hfit 0
  refine ⟨pairs, hpairs, ?_⟩
  rw [List.forall_mem_append, holds_cutConstraints, hholds]
  refine ⟨h.cutModel hN, fun k hk => ?_⟩
  rw [Nat.zero_add]
  exact h.pairModel hN hk

/-! ## Models and walks -/

/-- The constraints have a model exactly when there is a walk. -/
theorem satisfiable_iff_walk (hN : 1 ≤ N) (h : Masked hb) :
    ∃ pairs, hbConstraints N 0 hb = some pairs ∧
      (Satisfiable (cutConstraints N ++ pairs) ↔
        Walk (ClosedCut hb) 0 N ((N ^ 2 - 1) % 2 ^ N)) := by
  obtain ⟨pairs, hpairs, -⟩ := hbConstraints_spec h 0
  refine ⟨pairs, hpairs, ?_⟩
  constructor
  · rintro ⟨I, hI⟩
    rw [List.forall_mem_append, holds_cutConstraints] at hI
    obtain ⟨hcut, hpair⟩ := hI
    exact hcut.walk hN (closedCut_of_holds h hpairs hpair)
  · intro hwalk
    obtain ⟨c, hc⟩ := exists_cutSeq hwalk
    obtain ⟨φs, hφs, hholds⟩ := hc.holds hN h
    obtain rfl : pairs = φs := Option.some.inj (hpairs.symm.trans hφs)
    exact ⟨cutInterp N hb c, hholds⟩

/-! ## What `solveSMT` returns -/

/-- **`solveSMT`.**  With ids that have a mask it answers whether there is a walk of cuts. -/
theorem solveSMT_spec (z : Solver) {m : TraceMonitor} (hproc : m.numProcess ≤ maxProcess)
    (hN : 1 ≤ m.totNumEvents) (h : Masked m.hbSet) :
    ∃ b, solveSMT z m = some b ∧ (b = true ↔ Walk (ClosedCut m.hbSet) 0 m.totNumEvents
      ((m.totNumEvents ^ 2 - 1) % 2 ^ m.totNumEvents)) := by
  obtain ⟨pairs, hpairs, hwalk⟩ := satisfiable_iff_walk hN h
  refine ⟨z.check (cutConstraints m.totNumEvents ++ pairs), ?_, ?_⟩
  · unfold solveSMT
    rw [if_neg (by omega), hpairs]
    rfl
  · rw [z.check_eq_true_iff, hwalk]

/-- The answer, once it is known whether there is a walk. -/
theorem solveSMT_eq_some (z : Solver) {m : TraceMonitor} (hproc : m.numProcess ≤ maxProcess)
    (hN : 1 ≤ m.totNumEvents) (h : Masked m.hbSet) {v : Bool}
    (hv : v = true ↔ Walk (ClosedCut m.hbSet) 0 m.totNumEvents
      ((m.totNumEvents ^ 2 - 1) % 2 ^ m.totNumEvents)) : solveSMT z m = some v := by
  obtain ⟨b, hb, hwalk⟩ := solveSMT_spec z hproc hN h
  rw [hb, Option.some.injEq, Bool.eq_iff_iff, hwalk, hv]

/-- With an id that has no mask its behaviour is undefined. -/
theorem solveSMT_eq_none (z : Solver) {m : TraceMonitor} {p : ℕ × ℕ} (hp : p ∈ m.hbSet)
    (hid : 31 < p.1 ∨ 31 < p.2) : solveSMT z m = none := by
  unfold solveSMT
  rw [hbConstraints_eq_none hp hid]
  split <;> rfl

end TraceMonitor
