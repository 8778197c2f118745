/-
# Whether the cuts of a model grow event by event

A model of the assertions of `solveSMT` is meant to be a chain of cuts from the empty
one to the set of all events, one event more in every step.  The assertions say that in
numbers: every step adds a power of two, and the last cut is `N ^ 2 - 1`.

A step that adds a power of two may carry.  It cannot when the last cut has as many
events as there are steps (`CarryWalk.insert_of_card_bits`); so the chain follows from
the last cut being full, which `N ^ 2 - 1` is for two and four events only.  With five
events or more no model is such a chain (`model_growingCuts_iff`).
-/
import DecentralMonitor.AlignedSegment

open Constraint CarryWalk Finset

namespace TraceMonitor

variable {N : ℕ} {I : Interp} {hb : List (ℕ × ℕ)}

/-- The cut `f(i)` of an interpretation as a set of events, event `b` being `b - 1`. -/
def cutSet (N : ℕ) (I : Interp) (i : ℕ) : Finset ℕ := bits (I.func N "f" i).toNat

/-- The cuts grow from the empty set to the set of all events by one event in every
step. -/
structure GrowingCuts (N : ℕ) (I : Interp) : Prop where
  first : cutSet N I 0 = ∅
  last : cutSet N I N = range N
  subset : ∀ i < N, cutSet N I i ⊆ cutSet N I (i + 1)
  card : ∀ i < N, #(cutSet N I (i + 1)) = #(cutSet N I i) + 1

/-- With the full set as its last cut, a model is a chain of growing cuts. -/
theorem CutModel.growingCuts (hN : 1 ≤ N) (h : CutModel N I)
    (hfull : (N ^ 2 - 1) % 2 ^ N = 2 ^ N - 1) : GrowingCuts N I := by
  have hlast : cutSet N I N = Finset.range N := by
    unfold cutSet
    rw [h.toNat_last hN, hfull, bits_two_pow_sub_one]
  have hinsert : ∀ i < N, ∃ e ∉ cutSet N I i, cutSet N I (i + 1) = insert e (cutSet N I i) := by
    apply insert_of_card_bits (c := fun i => (I.func N "f" i).toNat)
    · exact h.toNat_first hN
    · intro i hi
      exact h.toNat_step hi
    · show #(cutSet N I N) = N
      rw [hlast, card_range]
  refine ⟨?_, hlast, ?_, ?_⟩
  · have hfirst := h.toNat_first hN
    unfold cutSet
    rw [Nat.cast_zero, hfirst, bits_zero]
  · intro i hi
    obtain ⟨e, -, hadd⟩ := hinsert i hi
    rw [hadd]
    exact subset_insert e _
  · intro i hi
    obtain ⟨e, he, hadd⟩ := hinsert i hi
    rw [hadd, card_insert_of_notMem he]

/-- With five events or more the last cut of a model is not full. -/
theorem CutModel.not_growingCuts (hN : 5 ≤ N) (h : CutModel N I) : ¬ GrowingCuts N I := by
  intro hgrow
  have hlast := hgrow.last
  unfold cutSet at hlast
  rw [h.toNat_last (by omega), sq_sub_one_mod hN, ← bits_two_pow_sub_one, bits_eq_iff,
    sum_two_pow_bits] at hlast
  have hlt := sq_lt_two_pow hN
  have hsq : 1 ≤ N ^ 2 := Nat.one_le_pow _ _ (by omega)
  omega

/-- Nothing recorded: the assertions on the cuts have a model. -/
theorem exists_model_nil (hN : 1 ≤ N) (h1 : N ≠ 1) (h3 : N ≠ 3) :
    ∃ I, ∀ φ ∈ cutConstraints N ++ [], φ.Holds I := by
  have hfit : Masked [] := ⟨by simp, by simp⟩
  obtain ⟨pairs, hpairs, hsat⟩ := satisfiable_iff_walk hN hfit
  obtain rfl : [] = pairs := Option.some.inj hpairs
  exact hsat.mpr ((walk_nil_iff hN).mpr ⟨h1, h3⟩)

/-- Five events, nothing recorded: the last cut of a model is `24`, two events of five. -/
theorem cuts_carry : hbConstraints 5 0 [] = some [] ∧
    ∃ I, (∀ φ ∈ cutConstraints 5 ++ [], φ.Holds I) ∧
      cutSet 5 I 5 = {3, 4} ∧ ¬ GrowingCuts 5 I := by
  obtain ⟨I, hI⟩ := exists_model_nil (N := 5) (by decide) (by decide) (by decide)
  have hmodel : CutModel 5 I := holds_cutConstraints.mp fun φ hφ => hI φ (by simpa using hφ)
  have hlast : cutSet 5 I 5 = {3, 4} := by
    unfold cutSet
    rw [Nat.cast_ofNat]
    have hval := hmodel.toNat_last (by decide)
    rw [Nat.cast_ofNat] at hval
    rw [hval]
    decide
  exact ⟨rfl, I, hI, hlast, hmodel.not_growingCuts (by decide)⟩

/-- **When the cuts of a model grow event by event.**  For every number `N ≥ 1` of events,
all recorded pairs that have masks, and every model of the assertions of `solveSMT`: the
cuts of the model grow event by event up to the set of all events exactly when `N` is at
most four. -/
theorem model_growingCuts_iff (hN : 1 ≤ N) {pairs : List Formula}
    (_hpairs : hbConstraints N 0 hb = some pairs)
    (hI : ∀ φ ∈ cutConstraints N ++ pairs, φ.Holds I) : GrowingCuts N I ↔ N ≤ 4 := by
  have hmodel : CutModel N I :=
    holds_cutConstraints.mp fun φ hφ => hI φ (List.mem_append_left pairs hφ)
  constructor
  · intro hgrow
    by_contra hlarge
    exact hmodel.not_growingCuts (by omega) hgrow
  · intro hsmall
    obtain hodd | heven : (N = 1 ∨ N = 3) ∨ N = 2 ∨ N = 4 := by omega
    · -- one and three events have no model
      have hwalk : Walk (ClosedCut []) 0 N ((N ^ 2 - 1) % 2 ^ N) := by
        apply hmodel.walk hN
        simp [ClosedCut]
      exact absurd hwalk (not_walk_of_one_three hodd)
    · exact hmodel.growingCuts hN (sq_sub_one_mod_of_two_four heven)

/-- Two events, nothing recorded. -/
theorem model_growingCuts_two :
    ∃ I, (∀ φ ∈ cutConstraints 2 ++ [], φ.Holds I) ∧ GrowingCuts 2 I := by
  obtain ⟨I, hI⟩ := exists_model_nil (N := 2) (by decide) (by decide) (by decide)
  have hpairs : hbConstraints 2 0 [] = some [] := rfl
  exact ⟨I, hI, (model_growingCuts_iff (by decide) hpairs hI).mpr (by decide)⟩

end TraceMonitor
