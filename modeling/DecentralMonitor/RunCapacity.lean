/-
# What a run asks of one monitor

In a run of `main` every monitor takes the windows of all segments in every round of `eps`, and
its `hbSet` keeps the pairs of all of them.  Three things can go wrong on the way: the trace has
more processes than the arrays of a segment, a window has no event, the recorded pairs do not fit.
`FitsRun` says that they do not.

There is a fourth one, ids without a mask, but fifty pairs are too few for it
(`haveMasks_pairsBefore`): a window with an id above 31 has 32 events in at most three segments,
and in the first round the segment with the most of them alone records more than fifty pairs.
-/
import DecentralMonitor.EpsLoop
import DecentralMonitor.EventNumbering
import DecentralMonitor.SegmentVerdict

open Finset Numbering TraceMonitor

namespace Room

variable {m : TraceMonitor} {T eps s : ℕ}

/-! ## The events of a window -/

/-- The number of events of a process in segment `s` with this `eps`. -/
def windowLen (m : TraceMonitor) (eps s i : ℕ) : ℕ :=
  segLen m (s * mainSegLength : ℕ) ((s + 1) * mainSegLength : ℕ) eps i

/-- The number of events of all processes in segment `s` with this `eps`. -/
def windowEvents (m : TraceMonitor) (eps s : ℕ) : ℕ :=
  callEvents m ⟨(s * mainSegLength : ℕ), ((s + 1) * mainSegLength : ℕ), eps⟩

theorem segOffset_eq_sum (m : TraceMonitor) (start fin eps : ℤ) (i : ℕ) :
    segOffset m start fin eps i = ∑ k ∈ range i, segLen m start fin eps k := by
  induction i with
  | zero => rfl
  | succ i ih => rw [segOffset_succ, sum_range_succ, ih]

theorem windowEvents_eq_sum (m : TraceMonitor) (eps s : ℕ) :
    windowEvents m eps s = ∑ i ∈ range m.numProcess.toNat, windowLen m eps s i :=
  segOffset_eq_sum ..

/-- The window goes back `eps` events before its segment. -/
theorem windowLen_eq (m : TraceMonitor) (eps s i : ℕ) :
    windowLen m eps s i =
      min (m.numEventAll i) ((s + 1) * mainSegLength) - (s * mainSegLength - eps) := by
  unfold windowLen segLen segStart
  omega

/-- Some process has events up to the last segment. -/
def ReachesEnd (m : TraceMonitor) (T : ℕ) : Prop :=
  ∃ i < m.numProcess.toNat,
    numSegments mainSegLength T ≤ numSegments mainSegLength (m.numEventAll i)

instance (m : TraceMonitor) (T : ℕ) : Decidable (ReachesEnd m T) :=
  inferInstanceAs (Decidable (∃ i < _, _))

/-- Then no window is empty. -/
theorem ReachesEnd.one_le_windowEvents (h : ReachesEnd m T) (hs : s < numSegments mainSegLength T) :
    1 ≤ windowEvents m eps s := by
  obtain ⟨i, hi, hle⟩ := h
  have hlt := (lt_numSegments_iff (by decide)).mp (hs.trans_le hle)
  have hlen : 1 ≤ windowLen m eps s i := by
    rw [windowLen_eq, Nat.succ_mul]
    unfold mainSegLength at hlt ⊢
    omega
  rw [windowEvents_eq_sum]
  exact hlen.trans (single_le_sum (f := windowLen m eps s) (fun _ _ => Nat.zero_le _)
    (mem_range.mpr hi))

/-- And if none is empty in the first round, the last one is not. -/
theorem reachesEnd_of_windowEvents (hT : T ≠ 0)
    (h : ∀ s < numSegments mainSegLength T, 1 ≤ windowEvents m 0 s) : ReachesEnd m T := by
  have hpos : 0 < numSegments mainSegLength T := by
    rw [lt_numSegments_iff (by decide)]
    omega
  have hlast := h (numSegments mainSegLength T - 1) (by omega)
  rw [windowEvents_eq_sum] at hlast
  obtain ⟨i, hi, hlen⟩ := exists_ne_zero_of_sum_ne_zero (Nat.one_le_iff_ne_zero.mp hlast)
  refine ⟨i, mem_range.mp hi, ?_⟩
  have hlt : numSegments mainSegLength T - 1 < numSegments mainSegLength (m.numEventAll i) := by
    rw [lt_numSegments_iff (by decide)]
    rw [windowLen_eq] at hlen
    omega
  omega

/-! ## The pairs of a window -/

/-- The ids of a window number its events. -/
theorem id_mem_of_mem_windowPairs {p : ℕ × ℕ} (hp : p ∈ windowPairs m eps s) :
    p.1 ∈ Set.Icc 1 (windowEvents m eps s) ∧ p.2 ∈ Set.Icc 1 (windowEvents m eps s) := by
  obtain ⟨i, hi, j, hj, k, hk, l, hl, -, rfl⟩ := (mem_segPairs ..).mp hp
  exact ⟨number_mem hi hj, number_mem hk hl⟩

/-- A window is covered by three segments. -/
theorem windowEvents_le (heps : eps ≤ mainMaxEps) : windowEvents m eps s ≤
    windowEvents m 0 (s - 2) + windowEvents m 0 (s - 1) + windowEvents m 0 s := by
  simp only [windowEvents_eq_sum, ← sum_add_distrib]
  refine sum_le_sum fun i _ => ?_
  simp only [windowLen_eq]
  unfold mainSegLength
  unfold mainMaxEps at heps
  omega

/-- In the first round every event is in a pair with each event of the other processes, and a
process has at most four events. -/
theorem le_pairCount : windowEvents m 0 s * (windowEvents m 0 s - 4) ≤
    pairCount m (s * mainSegLength : ℕ) ((s + 1) * mainSegLength : ℕ) (0 : ℕ) := by
  have hfour : ∀ i, windowLen m 0 s i ≤ 4 := by
    intro i
    rw [windowLen_eq]
    unfold mainSegLength
    omega
  have hothers : ∀ i ∈ range m.numProcess.toNat, ∀ j : ℕ, windowEvents m 0 s - 4 ≤
      ∑ k ∈ range m.numProcess.toNat, ∑ l ∈ range (windowLen m 0 s k),
        if ((0 : ℕ) : ℤ) ≤ |(j : ℤ) - l| ∧ i ≠ k then 1 else 0 := by
    intro i hi j
    have hrow : ∀ k ∈ (range m.numProcess.toNat).erase i, (∑ l ∈ range (windowLen m 0 s k),
        if ((0 : ℕ) : ℤ) ≤ |(j : ℤ) - l| ∧ i ≠ k then 1 else 0) = windowLen m 0 s k := by
      intro k hk
      have hik : i ≠ k := (ne_of_mem_erase hk).symm
      simp [hik]
    have hsplit := add_sum_erase _ (windowLen m 0 s) hi
    have hi4 := hfour i
    calc windowEvents m 0 s - 4
        ≤ ∑ k ∈ (range m.numProcess.toNat).erase i, windowLen m 0 s k := by
          rw [windowEvents_eq_sum]
          omega
      _ = ∑ k ∈ (range m.numProcess.toNat).erase i, ∑ l ∈ range (windowLen m 0 s k),
            (if ((0 : ℕ) : ℤ) ≤ |(j : ℤ) - l| ∧ i ≠ k then 1 else 0) :=
          (sum_congr rfl hrow).symm
      _ ≤ _ := sum_le_sum_of_subset (erase_subset _ _)
  calc windowEvents m 0 s * (windowEvents m 0 s - 4)
      = ∑ i ∈ range m.numProcess.toNat, ∑ _j ∈ range (windowLen m 0 s i),
          (windowEvents m 0 s - 4) := by
        have hconst : ∀ i, ∑ _j ∈ range (windowLen m 0 s i), (windowEvents m 0 s - 4) =
            windowLen m 0 s i * (windowEvents m 0 s - 4) := by
          intro i
          rw [sum_const_nat fun _ _ => rfl, card_range]
        simp only [hconst]
        rw [← sum_mul, ← windowEvents_eq_sum]
    _ ≤ _ := sum_le_sum fun i hi => sum_le_sum fun j _ => hothers i hi j

/-- The pairs recorded up to a segment are of its round or of an earlier one. -/
theorem exists_of_mem_pairsBefore {p : ℕ × ℕ} (hp : p ∈ pairsBefore m T eps s) : ∃ e s',
    ((e < eps ∧ s' < numSegments mainSegLength T) ∨ (e = eps ∧ s' < s)) ∧
      p ∈ windowPairs m e s' := by
  rcases List.mem_append.mp hp with hp | hp
  · obtain ⟨e, he, hp⟩ := List.mem_flatMap.mp hp
    obtain ⟨s', hs', hp⟩ := List.mem_flatMap.mp hp
    exact ⟨e, s', Or.inl ⟨List.mem_range.mp he, List.mem_range.mp hs'⟩, hp⟩
  · obtain ⟨s', hs', hp⟩ := List.mem_flatMap.mp hp
    exact ⟨eps, s', Or.inr ⟨rfl, List.mem_range.mp hs'⟩, hp⟩

/-- Among them are those of the segments of the first round before it. -/
theorem pairCount_le_length {s' : ℕ}
    (h : (0 < eps ∧ s' + 1 ≤ numSegments mainSegLength T) ∨ (0 = eps ∧ s' + 1 ≤ s)) :
    pairCount m (s' * mainSegLength : ℕ) ((s' + 1) * mainSegLength : ℕ) (0 : ℕ) ≤
      (pairsBefore m T eps s).length := by
  have hle := (pairsBefore_prefix_later m h).length_le
  have hlast : (windowPairs m 0 s').length =
      pairCount m (s' * mainSegLength : ℕ) ((s' + 1) * mainSegLength : ℕ) (0 : ℕ) :=
    length_segPairs ..
  rw [pairsBefore_succ, List.length_append, hlast] at hle
  omega

/-- **Ids without a mask need more than fifty pairs.** -/
theorem haveMasks_pairsBefore (hpairs : (pairsBefore m T eps s).length ≤ 50)
    (heps : eps ≤ mainMaxEps) (hs : s ≤ numSegments mainSegLength T) :
    HaveMasks (pairsBefore m T eps s) := by
  intro p hp
  obtain ⟨e, s', hwindow, hp⟩ := exists_of_mem_pairsBefore hp
  -- a segment of the first round with more than ten events has too many pairs
  have hfew : ∀ s₀ ≤ s', windowEvents m 0 s₀ ≤ 10 := by
    intro s₀ hs₀
    by_contra hmany
    have hcount : pairCount m (s₀ * mainSegLength : ℕ) ((s₀ + 1) * mainSegLength : ℕ) (0 : ℕ) ≤
        (pairsBefore m T eps s).length := pairCount_le_length (by omega)
    have hpair := (le_pairCount (m := m) (s := s₀)).trans hcount
    have hmul : 11 * 7 ≤ windowEvents m 0 s₀ * (windowEvents m 0 s₀ - 4) :=
      Nat.mul_le_mul (by omega) (by omega)
    omega
  have hle : windowEvents m e s' ≤ 30 := by
    have hcover := windowEvents_le (m := m) (s := s') (show e ≤ mainMaxEps by omega)
    have h0 := hfew s' le_rfl
    have h1 := hfew (s' - 1) (by omega)
    have h2 := hfew (s' - 2) (by omega)
    omega
  obtain ⟨hfirst, hsecond⟩ := id_mem_of_mem_windowPairs hp
  exact ⟨hfirst.2.trans (by omega), hsecond.2.trans (by omega)⟩

/-! ## The whole run -/

/-- The monitor gets through a run whose last segment is that of a trace with `T` events. -/
structure FitsRun (m : TraceMonitor) (T : ℕ) : Prop where
  processes : m.numProcess.toNat ≤ maxProcess
  reachesEnd : ReachesEnd m T
  pairs : runPairCount m T ≤ 50

instance (m : TraceMonitor) (T : ℕ) : Decidable (FitsRun m T) :=
  decidable_of_iff
    (m.numProcess.toNat ≤ maxProcess ∧ ReachesEnd m T ∧ runPairCount m T ≤ 50)
    ⟨fun h => ⟨h.1, h.2.1, h.2.2⟩, fun h => ⟨h.processes, h.reachesEnd, h.pairs⟩⟩

/-- The pairs recorded up to a segment fit if those of the run do. -/
theorem length_pairsBefore_le (m : TraceMonitor) (heps : eps ≤ mainMaxEps)
    (hs : s ≤ numSegments mainSegLength T) :
    (pairsBefore m T eps s).length ≤ runPairCount m T := by
  rw [← length_pairsBefore_last]
  refine (pairsBefore_prefix_later m ?_).length_le
  rcases Nat.lt_or_eq_of_le heps with hlt | heq
  · exact Or.inl ⟨hlt, hs⟩
  · exact Or.inr ⟨heq, hs⟩

end Room
