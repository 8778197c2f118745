/-
# Segments of aligned traces

A monitor whose `P` processes all have `T` events takes a segment of the same width
from each of them, and what it records depends on the number of processes, that width
and `eps` only: every two events of different processes at a distance of at least `eps`,
in both orders.  So an event that is recorded at all is tied to another one, and none of
them can ever be in a cut (`BothDirections.walk_untied`).

`solveSMT_aligned` gives the verdict as a function of these three numbers
(`alignedVerdict`), and `AlignedTrace.length_segPairs` the number of pairs that are recorded.
-/
import DecentralMonitor.CutVerdict
import DecentralMonitor.SegmentTrace

open Constraint CarryWalk Finset

namespace TraceMonitor

/-! ## The pairs of an aligned segment -/

/-- The pairs recorded for `P` processes with `w` events each. -/
def GridPairs (P w : ℕ) (eps : ℤ) (hb : List (ℕ × ℕ)) : Prop :=
  ∀ p, p ∈ hb ↔ ∃ i < P, ∃ j < w, ∃ k < P, ∃ l < w, (eps ≤ |(j : ℤ) - l| ∧ i ≠ k) ∧
    p = (1 + i * w + j, 1 + k * w + l)

section Grid

variable {P w : ℕ} {eps : ℤ} {hb : List (ℕ × ℕ)}

/-- The number of an event is below the number of events. -/
theorem mul_add_lt {i j : ℕ} (hi : i < P) (hj : j < w) : i * w + j < P * w := by
  have hmul : (i + 1) * w ≤ P * w := Nat.mul_le_mul_right w hi
  rw [Nat.succ_mul] at hmul
  omega

/-- The number of an event tells the process. -/
theorem mul_add_inj {i j k l : ℕ} (hj : j < w) (hl : l < w) (h : i * w + j = k * w + l) :
    i = k := by
  have hdiv : ∀ {a b : ℕ}, b < w → (a * w + b) / w = a := by
    intro a b hb
    rw [Nat.add_comm, Nat.add_mul_div_right _ _ (by omega), Nat.div_eq_of_lt hb, Nat.zero_add]
  rw [← hdiv hj (a := i), h, hdiv hl]

theorem GridPairs.idsInRange (h : GridPairs P w eps hb) : IdsInRange (P * w) hb := by
  intro p hp
  obtain ⟨i, hi, j, hj, k, hk, l, hl, -, rfl⟩ := (h p).mp hp
  have hij := mul_add_lt hi hj
  have hkl := mul_add_lt hk hl
  dsimp only
  omega

theorem GridPairs.digitRel_iff (h : GridPairs P w eps hb) {d e : ℕ} : digitRel hb d e ↔
    ∃ i < P, ∃ j < w, ∃ k < P, ∃ l < w, (eps ≤ |(j : ℤ) - l| ∧ i ≠ k) ∧
      d = i * w + j ∧ e = k * w + l := by
  unfold digitRel HappenedBefore
  rw [h]
  simp only [Prod.mk.injEq]
  constructor
  · rintro ⟨i, hi, j, hj, k, hk, l, hl, hik, hd, he⟩
    exact ⟨i, hi, j, hj, k, hk, l, hl, hik, by omega, by omega⟩
  · rintro ⟨i, hi, j, hj, k, hk, l, hl, hik, rfl, rfl⟩
    exact ⟨i, hi, j, hj, k, hk, l, hl, hik, by omega, by omega⟩

/-- The pairs are recorded in both orders. -/
theorem GridPairs.bothDirections (h : GridPairs P w eps hb) : BothDirections (P * w) hb where
  ids := h.idsInRange
  symm := by
    intro d e hde
    obtain ⟨i, hi, j, hj, k, hk, l, hl, ⟨hdist, hik⟩, hd, he⟩ := h.digitRel_iff.mp hde
    rw [abs_sub_comm] at hdist
    exact h.digitRel_iff.mpr ⟨k, hk, l, hl, i, hi, j, hj, ⟨hdist, hik.symm⟩, he, hd⟩
  irrefl := by
    intro d hdd
    obtain ⟨i, -, j, hj, k, -, l, hl, ⟨-, hik⟩, rfl, he⟩ := h.digitRel_iff.mp hdd
    exact hik (mul_add_inj hj hl he)

/-- With one process, or with a window no wider than `eps`, nothing is recorded. -/
theorem GridPairs.eq_nil (h : GridPairs P w eps hb) (hsmall : P ≤ 1 ∨ (w : ℤ) ≤ eps) :
    hb = [] := by
  rw [List.eq_nil_iff_forall_not_mem]
  intro p hp
  obtain ⟨i, hi, j, hj, k, hk, l, hl, ⟨hdist, hik⟩, -⟩ := (h p).mp hp
  rcases hsmall with hP | hw
  · omega
  · have hlt : |(j : ℤ) - l| < w := by
      rw [abs_lt]
      omega
    omega

/-- The first and the last event of a process are tied to events of another process. -/
theorem GridPairs.exists_tied (h : GridPairs P w eps hb) (hP : 2 ≤ P) (heps : eps < w) {d : ℕ}
    (hd : d < P * w) (hedge : d % w = 0 ∨ d % w + 1 = w) : ∃ e, digitRel hb d e := by
  have hw : 0 < w := by
    rcases Nat.eq_zero_or_pos w with rfl | hw
    · rw [Nat.mul_zero] at hd
      omega
    · exact hw
  have hi : d / w < P := by
    rw [Nat.div_lt_iff_lt_mul hw]
    exact hd
  obtain ⟨k, hk, hik⟩ : ∃ k < P, d / w ≠ k := by
    rcases Nat.eq_zero_or_pos (d / w) with h0 | hpos
    · exact ⟨1, by omega, by omega⟩
    · exact ⟨0, by omega, by omega⟩
  have hdiv : d = d / w * w + d % w := by
    rw [Nat.mul_comm, Nat.div_add_mod]
  -- the partner is at the other end of the window
  obtain ⟨l, hl, hdist⟩ : ∃ l < w, eps ≤ |((d % w : ℕ) : ℤ) - l| := by
    rcases hedge with h0 | hlast
    · refine ⟨w - 1, by omega, ?_⟩
      rw [h0, abs_sub_comm]
      exact le_trans (by omega) (le_abs_self _)
    · refine ⟨0, hw, ?_⟩
      exact le_trans (by omega) (le_abs_self _)
  exact ⟨k * w + l, h.digitRel_iff.mpr
    ⟨d / w, hi, d % w, Nat.mod_lt d hw, k, hk, l, hl, ⟨hdist, hik⟩, hdiv, rfl⟩⟩

/-- For every grid of at most 31 events the constant of the source has a digit that is the
first or the last event of a process. -/
theorem exists_edge_digit : ∀ P ∈ range 32, ∀ w ∈ range 32, 2 ≤ P → 1 ≤ w → P * w ≤ 31 →
    P * w ≠ 3 → ∃ d ∈ range 10, (((P * w) ^ 2 - 1) % 2 ^ (P * w)).testBit d = true ∧
      (d % w = 0 ∨ d % w + 1 = w) := by
  decide +kernel

/-- With recorded pairs no sequence of cuts reaches the constant. -/
theorem GridPairs.not_walk (h : GridPairs P w eps hb) (hP : 2 ≤ P) (hw : 1 ≤ w) (heps : eps < w)
    (hN : P * w ≤ 31) :
    ¬ Walk (ClosedCut hb) 0 (P * w) (((P * w) ^ 2 - 1) % 2 ^ (P * w)) := by
  by_cases h3 : P * w = 3
  · exact not_walk_of_one_three (Or.inr h3)
  · intro hwalk
    have hP31 : P < 32 := by
      have hle : P * 1 ≤ P * w := Nat.mul_le_mul_left P hw
      omega
    have hw31 : w < 32 := by
      have hle : 1 * w ≤ P * w := Nat.mul_le_mul_right w (by omega)
      omega
    -- a digit of the constant that is tied would have to be set
    obtain ⟨d, -, hbit, hedge⟩ :=
      exists_edge_digit P (mem_range.mpr hP31) w (mem_range.mpr hw31) hP hw hN h3
    have huntied := h.bothDirections.walk_untied (by simp [Supported]) hwalk
    have hmem := mem_bits.mpr hbit
    have hd : d < P * w := lt_of_mem_bits (Nat.mod_lt _ (Nat.two_pow_pos _)) hmem
    obtain ⟨e, he⟩ := h.exists_tied hP heps hd hedge
    exact huntied.ok_right d hmem e he

/-- From 32 events on an event without a mask is recorded. -/
theorem GridPairs.exists_no_mask (h : GridPairs P w eps hb) (hP : 2 ≤ P) (hw : 1 ≤ w)
    (heps : eps < w) (hN : 31 < P * w) : ∃ p ∈ hb, 31 < p.1 := by
  obtain ⟨P, rfl⟩ : ∃ Q, P = Q + 2 := ⟨P - 2, by omega⟩
  have hmul : (P + 2) * w = (P + 1) * w + w := Nat.succ_mul (P + 1) w
  -- the last event of the last process and the first of the first
  refine ⟨(1 + (P + 1) * w + (w - 1), 1 + 0 * w + 0), (h _).mpr ?_, by dsimp only; omega⟩
  refine ⟨P + 1, by omega, w - 1, by omega, 0, by omega, 0, by omega, ⟨?_, by omega⟩, rfl⟩
  exact le_trans (by omega) (le_abs_self _)

end Grid

/-- Without recorded pairs there is a sequence of cuts except for one or three events. -/
theorem walk_nil_iff {N : ℕ} (hN : 1 ≤ N) :
    Walk (ClosedCut []) 0 N ((N ^ 2 - 1) % 2 ^ N) ↔ N ≠ 1 ∧ N ≠ 3 := by
  by_cases hodd : N = 1 ∨ N = 3
  · have hno : ¬ Walk (ClosedCut []) 0 N ((N ^ 2 - 1) % 2 ^ N) := not_walk_of_one_three hodd
    constructor
    · intro hwalk
      exact absurd hwalk hno
    · omega
  have hall : Walk (ClosedCut []) 0 N ((N ^ 2 - 1) % 2 ^ N) ↔
      Walk (Supported fun _ => True) 0 N ((N ^ 2 - 1) % 2 ^ N) := by
    constructor <;> intro h <;> refine h.mono fun c _ => ?_
    · exact fun _ _ => trivial
    · simp [ClosedCut]
  rw [hall, walk_supported_iff, weight_of_forall (fun _ => trivial)]
  have hpow : (N ^ 2 - 1) % 2 ^ N < 2 ^ N := Nat.mod_lt _ (Nat.two_pow_pos N)
  have hcard := card_bits_le_of_lt_two_pow hpow
  have hweight : N ≤ (N ^ 2 - 1) % 2 ^ N := by
    obtain heven | hlarge : (N = 2 ∨ N = 4) ∨ 5 ≤ N := by omega
    · rcases heven with rfl | rfl <;> decide
    · rw [sq_sub_one_mod hlarge]
      have hsq : 5 * N ≤ N ^ 2 := by
        rw [Nat.pow_two]
        exact Nat.mul_le_mul_right N hlarge
      omega
  constructor
  · intro _
    omega
  · intro _
    exact ⟨fun _ _ => trivial, hcard, hweight⟩

/-! ## The verdict of an aligned segment -/

/-- The verdict on a segment of `P` aligned processes with `w` events each. -/
def alignedVerdict (P w eps : ℕ) : Option Bool :=
  if P ≤ 1 ∨ w ≤ eps then some (decide (P * w ≠ 1 ∧ P * w ≠ 3))
  else if P * w ≤ 31 then some false
  else none

/-- A monitor whose trace has `P` processes with `T` events each, and nothing recorded. -/
structure AlignedTrace (P T : ℕ) (m : TraceMonitor) : Prop where
  loaded : m.Loaded
  numProcess : m.numProcess = P
  numEventAll : ∀ i < P, m.numEventAll i = T
  hbSet : m.hbSet = []

/-- The width of the segment of a trace with `T` events. -/
def segWidth (T : ℕ) (start fin eps : ℤ) : ℕ := (min (T : ℤ) fin).toNat - segStart start eps

/-- The number of pairs of positions in a window at a distance of at least `eps`. -/
def apart (w : ℕ) (eps : ℤ) : ℕ :=
  ∑ j ∈ range w, ∑ l ∈ range w, if eps ≤ |(j : ℤ) - l| then 1 else 0

section AlignedTrace

variable {P T : ℕ} {m m' : TraceMonitor} {start fin eps : ℤ}

theorem AlignedTrace.toNat_numProcess (h : AlignedTrace P T m) : m.numProcess.toNat = P := by
  rw [h.numProcess, Int.toNat_natCast]

theorem AlignedTrace.segLen_eq (h : AlignedTrace P T m) {i : ℕ} (hi : i < P) :
    segLen m start fin eps i = segWidth T start fin eps := by
  unfold segLen segWidth
  rw [h.numEventAll i hi]

theorem AlignedTrace.segOffset_eq (h : AlignedTrace P T m) {i : ℕ} (hi : i ≤ P) :
    segOffset m start fin eps i = i * segWidth T start fin eps := by
  induction i with
  | zero => simp [segOffset]
  | succ i ih =>
    rw [segOffset_succ, ih (by omega), h.segLen_eq hi, Nat.succ_mul]

/-- The pairs an aligned segment records. -/
theorem AlignedTrace.gridPairs (h : AlignedTrace P T m) :
    GridPairs P (segWidth T start fin eps) eps (segPairs m start fin eps) := by
  intro p
  rw [mem_segPairs, h.toNat_numProcess]
  constructor
  · rintro ⟨i, hi, j, hj, k, hk, l, hl, hik, rfl⟩
    rw [h.segLen_eq hi] at hj
    rw [h.segLen_eq hk] at hl
    refine ⟨i, hi, j, hj, k, hk, l, hl, hik, ?_⟩
    unfold segName
    rw [h.segOffset_eq hi.le, h.segOffset_eq hk.le]
  · rintro ⟨i, hi, j, hj, k, hk, l, hl, hik, rfl⟩
    refine ⟨i, hi, j, ?_, k, hk, l, ?_, hik, ?_⟩
    · rwa [h.segLen_eq hi]
    · rwa [h.segLen_eq hk]
    · unfold segName
      rw [h.segOffset_eq hi.le, h.segOffset_eq hk.le]

/-- How many pairs an aligned segment records. -/
theorem AlignedTrace.length_segPairs (h : AlignedTrace P T m) :
    (segPairs m start fin eps).length = P * (P - 1) * apart (segWidth T start fin eps) eps := by
  rw [TraceMonitor.length_segPairs, pairCount, h.toNat_numProcess]
  generalize hw : segWidth T start fin eps = w
  have hloops : (∑ i ∈ range P, ∑ j ∈ range (segLen m start fin eps i),
      ∑ k ∈ range P, ∑ l ∈ range (segLen m start fin eps k),
        if eps ≤ |(j : ℤ) - l| ∧ i ≠ k then 1 else 0) = ∑ i ∈ range P, ∑ j ∈ range w,
      ∑ k ∈ range P, ∑ l ∈ range w, if eps ≤ |(j : ℤ) - l| ∧ i ≠ k then 1 else 0 := by
    refine sum_congr rfl fun i hi => ?_
    rw [h.segLen_eq (mem_range.mp hi), hw]
    refine sum_congr rfl fun j _ => sum_congr rfl fun k hk => ?_
    rw [h.segLen_eq (mem_range.mp hk), hw]
  -- the condition on the positions and the one on the processes are independent
  have hprocess : ∀ i ∈ range P, ∑ j ∈ range w, ∑ k ∈ range P, ∑ l ∈ range w,
      (if eps ≤ |(j : ℤ) - l| ∧ i ≠ k then 1 else 0) = (P - 1) * apart w eps := by
    intro i hi
    calc ∑ j ∈ range w, ∑ k ∈ range P, ∑ l ∈ range w,
          (if eps ≤ |(j : ℤ) - l| ∧ i ≠ k then 1 else 0)
        = ∑ k ∈ range P, ∑ j ∈ range w, ∑ l ∈ range w,
          (if eps ≤ |(j : ℤ) - l| ∧ i ≠ k then 1 else 0) := sum_comm
      _ = ∑ k ∈ range P, if k = i then 0 else apart w eps := by
          refine sum_congr rfl fun k _ => ?_
          by_cases hik : k = i
          · simp [hik]
          · simp [hik, Ne.symm hik, apart]
      _ = ∑ k ∈ (range P).erase i, apart w eps := by
          rw [← add_sum_erase _ _ hi, if_pos rfl, Nat.zero_add]
          exact sum_congr rfl fun k hk => if_neg (ne_of_mem_erase hk)
      _ = (P - 1) * apart w eps := by
          rw [sum_const_nat fun _ _ => rfl, card_erase_of_mem hi, card_range]
  rw [hloops, sum_const_nat hprocess, card_range, Nat.mul_assoc]

/-! ## A segment taken from an aligned trace -/

/-- What an aligned segment asks the solver about. -/
theorem AlignedTrace.segment (h : AlignedTrace P T m) (hm' : IsSegment m start fin eps m') :
    m'.numProcess = P ∧ m'.totNumEvents = P * segWidth T start fin eps ∧
      m'.hbSet = segPairs m start fin eps := by
  refine ⟨?_, ?_, ?_⟩
  · rw [hm'.frame]
    exact h.numProcess
  · rw [hm'.totNumEvents, h.toNat_numProcess, h.segOffset_eq le_rfl]
  · rw [hm'.hbSet, h.hbSet, List.nil_append]

/-- Whether the pairs of an aligned segment fit their array. -/
theorem AlignedTrace.hbFits_iff (h : AlignedTrace P T m) (hm' : IsSegment m start fin eps m') :
    m'.HbFits ↔ P * (P - 1) * apart (segWidth T start fin eps) eps ≤ 50 := by
  unfold HbFits
  rw [(h.segment hm').2.2, h.length_segPairs]

end AlignedTrace

/-- **The verdict of an aligned segment** depends on the number of processes, the width of
the window and `eps` only. -/
theorem solveSMT_aligned (z : Solver) {P T eps : ℕ} {m m' : TraceMonitor} {start fin : ℤ}
    (h : AlignedTrace P T m) (hP : 1 ≤ P) (hm' : IsSegment m start fin eps m')
    (hw : 1 ≤ segWidth T start fin eps) :
    solveSMT z m' = alignedVerdict P (segWidth T start fin eps) eps := by
  obtain ⟨hnum, htot, hpairs⟩ := h.segment hm'
  have hgrid : GridPairs P (segWidth T start fin eps) eps m'.hbSet := hpairs ▸ h.gridPairs
  have hproc : m'.numProcess ≤ maxProcess := by
    have hfit := h.loaded.numProcess
    rw [h.toNat_numProcess] at hfit
    omega
  generalize segWidth T start fin eps = w at htot hgrid hw ⊢
  have hN : 1 ≤ m'.totNumEvents := by
    rw [htot]
    exact Nat.mul_pos hP hw
  have hids : IdsInRange m'.totNumEvents m'.hbSet := htot ▸ hgrid.idsInRange
  unfold alignedVerdict
  split
  · next hsmall =>
    have hnil : m'.hbSet = [] := hgrid.eq_nil (by omega)
    apply solveSMT_eq_some z hproc hN (hids.idsFit (by simp [hnil])).masked
    rw [hnil, htot, walk_nil_iff (htot ▸ hN), decide_eq_true_iff]
  · next hlarge =>
    have hP2 : 2 ≤ P := by omega
    have heps : (eps : ℤ) < w := by omega
    split
    · next hN31 =>
      have hmasks : ∀ p ∈ m'.hbSet, p.1 ≤ 31 ∧ p.2 ≤ 31 := by
        intro p hp
        have hp' := hids p hp
        omega
      have hno := hgrid.not_walk hP2 hw heps hN31
      apply solveSMT_eq_some z hproc hN (hids.idsFit hmasks).masked
      simp [htot, hno]
    · next hN32 =>
      obtain ⟨p, hp, hid⟩ := hgrid.exists_no_mask hP2 hw heps (by omega)
      exact solveSMT_eq_none z hp (Or.inl hid)

end TraceMonitor
