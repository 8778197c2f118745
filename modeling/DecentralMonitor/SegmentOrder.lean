/-
# What order a segment records

The pairs of `hbSet` are meant as a happened-before relation: an event of the past to
the left, a later one to the right.  `readSegTrace` records a pair for every two events
of different processes that are far enough apart, whichever of the two is the later
one.  So every pair is recorded in both directions (`segPairs_swap`), and the recorded
relation is an order only when nothing is recorded at all, which
`segPairs_eq_nil_iff` reads off the lengths of the windows.
-/
import DecentralMonitor.EventOrder
import DecentralMonitor.SegmentTrace
import DecentralMonitor.TraceLoading

open EventOrder

namespace TraceMonitor

variable {m : TraceMonitor} {start fin eps : ℤ}

/-! ## The recorded pairs -/

/-- Every pair is recorded in both directions. -/
theorem segPairs_swap {a b : ℕ} (h : (a, b) ∈ segPairs m start fin eps) :
    (b, a) ∈ segPairs m start fin eps := by
  rw [mem_segPairs] at h ⊢
  obtain ⟨i, hi, j, hj, k, hk, l, hl, ⟨hdist, hik⟩, hp⟩ := h
  rw [abs_sub_comm] at hdist
  refine ⟨k, hk, l, hl, i, hi, j, hj, ⟨hdist, hik.symm⟩, ?_⟩
  rw [Prod.mk.injEq] at hp ⊢
  exact ⟨hp.2, hp.1⟩

/-- A window is quiet when two of its processes that both have events have at most `eps`
events each. -/
def Quiet (m : TraceMonitor) (start fin eps : ℤ) : Prop :=
  ∀ i < m.numProcess.toNat, ∀ k < m.numProcess.toNat, i ≠ k →
    0 < segLen m start fin eps i → 0 < segLen m start fin eps k →
      (segLen m start fin eps i : ℤ) ≤ eps

instance (m : TraceMonitor) (start fin eps : ℤ) : Decidable (Quiet m start fin eps) :=
  inferInstanceAs (Decidable (∀ _ < _, ∀ _ < _, _ → _ → _ → _))

/-- **When nothing is recorded.** -/
theorem segPairs_eq_nil_iff : segPairs m start fin eps = [] ↔ Quiet m start fin eps := by
  rw [List.eq_nil_iff_forall_not_mem]
  constructor
  · intro h i hi k hk hik hposi hposk
    by_contra hlong
    -- the last event of process `i` and the first one of process `k`
    apply h (segName m start fin eps i (segLen m start fin eps i - 1),
      segName m start fin eps k 0)
    rw [mem_segPairs]
    refine ⟨i, hi, _, by omega, k, hk, 0, hposk, ⟨?_, hik⟩, rfl⟩
    rw [abs_of_nonneg (by omega)]
    omega
  · rintro hquiet p hp
    obtain ⟨i, hi, j, hj, k, hk, l, hl, ⟨hdist, hik⟩, -⟩ := (mem_segPairs ..).mp hp
    have hi' := hquiet i hi k hk hik (by omega) (by omega)
    have hk' := hquiet k hk i hi hik.symm (by omega) (by omega)
    have hnear : |(j : ℤ) - l| < eps := by
      rw [abs_lt]
      omega
    omega

/-! ## The order -/

/-- The recorded pairs are a strict order of events that agrees with the trace: no chain
leads from an event back to itself, and no event is recorded before one with a smaller
trace index. -/
structure RecordsOrder (m' : TraceMonitor) (start eps : ℤ) : Prop where
  acyclic : Acyclic (fun a b => (a, b) ∈ m'.hbSet)
  index_le : ∀ i < m'.numProcess.toNat, ∀ j < m'.numEvent i, ∀ k < m'.numProcess.toNat,
    ∀ l < m'.numEvent k, ∀ a b, stoi (m'.eName i j) = some a → stoi (m'.eName k l) = some b →
      (a, b) ∈ m'.hbSet → segStart start eps + j ≤ segStart start eps + l

/-- A pair recorded in both directions is a cycle. -/
theorem not_acyclic_of_swap {hb : List (ℕ × ℕ)} {a b : ℕ} (hab : (a, b) ∈ hb)
    (hba : (b, a) ∈ hb) : ¬ Acyclic (fun x y => (x, y) ∈ hb) := by
  intro h
  apply h a
  exact .tail (.single hab) hba

/-- Nothing recorded is an order. -/
theorem recordsOrder_of_nil {m' : TraceMonitor} (h : m'.hbSet = []) (start eps : ℤ) :
    RecordsOrder m' start eps where
  acyclic := by
    intro a ha
    obtain ⟨b, hab, -⟩ := Relation.TransGen.head'_iff.mp ha
    rw [h] at hab
    exact List.not_mem_nil hab
  index_le := by
    intro i _ j _ k _ l _ a b _ _ hab
    rw [h] at hab
    exact absurd hab List.not_mem_nil

theorem loaded_kitchenTrace : Loaded kitchenTrace := ⟨by decide, by decide⟩

/-- In the first segment of this trace, with `eps = 0`, the first events of the two
switches are recorded each before the other. -/
theorem records_both_orders : ∃ m' : TraceMonitor, Loaded kitchenTrace ∧ kitchenTrace.hbSet = [] ∧
    readSegTrace 0 4 0 kitchenTrace = some m' ∧ m'.HbFits ∧
      (1, 3) ∈ m'.hbSet ∧ (3, 1) ∈ m'.hbSet ∧ ¬ RecordsOrder m' 0 0 := by
  obtain ⟨m', hm', hseg⟩ := readSegTrace_spec loaded_kitchenTrace 0 4 0
  have hhb := hseg.hbSet
  have h13 : (1, 3) ∈ m'.hbSet := by
    rw [hhb]
    decide +kernel
  have h31 : (3, 1) ∈ m'.hbSet := by
    rw [hhb]
    decide +kernel
  refine ⟨m', loaded_kitchenTrace, rfl, hm', ?_, h13, h31, fun h => ?_⟩
  · unfold HbFits
    rw [hhb]
    decide +kernel
  · exact not_acyclic_of_swap h13 h31 h.acyclic

/-- **When a segment records an order.**  From an empty `hbSet`, `readSegTrace` returns, and
what it records is an order that agrees with the trace exactly when the window is quiet. -/
theorem readSegTrace_recordsOrder_iff (h : Loaded m) (hhb : m.hbSet = []) (start fin eps : ℤ) :
    ∃ m', readSegTrace start fin eps m = some m' ∧
      (RecordsOrder m' start eps ↔ Quiet m start fin eps) := by
  obtain ⟨m', hm', hseg⟩ := readSegTrace_spec h start fin eps
  have hpairs : m'.hbSet = segPairs m start fin eps := by
    rw [hseg.hbSet, hhb, List.nil_append]
  refine ⟨m', hm', ?_⟩
  rw [← segPairs_eq_nil_iff, ← hpairs]
  constructor
  · intro horder
    rw [List.eq_nil_iff_forall_not_mem]
    rintro ⟨a, b⟩ hab
    apply not_acyclic_of_swap hab _ horder.acyclic
    rw [hpairs] at hab ⊢
    exact segPairs_swap hab
  · intro hnil
    exact recordsOrder_of_nil hnil start eps

/-- With `eps = 2` the same segment records nothing. -/
theorem recordsOrder_kitchen :
    ∃ m', readSegTrace 0 4 2 kitchenTrace = some m' ∧ RecordsOrder m' 0 2 := by
  obtain ⟨m', hm', hiff⟩ := readSegTrace_recordsOrder_iff loaded_kitchenTrace rfl 0 4 2
  exact ⟨m', hm', hiff.mpr (by decide)⟩

end TraceMonitor
