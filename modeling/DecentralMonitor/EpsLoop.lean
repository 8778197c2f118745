/-
# The loop over `eps`, and how many pairs it stores

`main` runs the segment loop for `eps = 0, …, 5` on the same monitors.  `EpsStep` is one
step of it, a segment or the next `eps`, with any solver, and `Reachable` the states it
can be in.

`hbSet` has room for 50 pairs and nothing is ever taken out of it, so it collects the pairs
of all segments (`pairsBefore`); `runPairCount` is their number at the end of a run.  For
aligned traces it is a product (`runPairCount_aligned`), and at most 50 for very short ones
only (`runPairCount_aligned_le_iff`).
-/
import Mathlib.Tactic.IntervalCases
import DecentralMonitor.RoomVerdict
import DecentralMonitor.SegmentLoop

open Constraint TraceMonitor

namespace Room

variable {n : ℕ}

/-! ## Steps of the loop -/

/-- `segLength` of `main`. -/
def mainSegLength : ℕ := 4

/-- The last value of `eps` in `main`. -/
def mainMaxEps : ℕ := 5

/-- The variables of the loop over `eps`. -/
structure EpsState (n : ℕ) where
  eps : ℕ
  loop : LoopState n

/-- The state before the first segment. -/
def epsInit (room : Room n) : EpsState n := ⟨0, loopInit mainSegLength room⟩

/-- One step: an iteration of the segment loop, or the next value of `eps` when that loop has
ended. -/
inductive EpsStep : EpsState n → EpsState n → Prop
  | segment {st : EpsState n} {loop : LoopState n} (solve : Solve n) (hguard : LoopGuard st.loop)
      (hbody : loopBody mainSegLength st.eps solve st.loop = some loop) :
      EpsStep st ⟨st.eps, loop⟩
  | nextEps {st : EpsState n} (hend : ¬ LoopGuard st.loop) (heps : st.eps < mainMaxEps) :
      EpsStep st ⟨st.eps + 1, loopInit mainSegLength st.loop.room⟩

/-- The states of the runs on a room. -/
def Reachable (room : Room n) (st : EpsState n) : Prop :=
  Relation.ReflTransGen EpsStep (epsInit room) st

/-- No monitor has written past the end of its `hbSet`. -/
def HbSafe (room : Room n) : Prop :=
  (∀ k, (room.monitorList k).HbFits) ∧ room.centMon.HbFits

/-! ## The pairs of a run -/

/-- The pairs of segment `s` with this `eps`. -/
def windowPairs (m : TraceMonitor) (eps s : ℕ) : List (ℕ × ℕ) :=
  segPairs m (s * mainSegLength : ℕ) ((s + 1) * mainSegLength : ℕ) eps

/-- The pairs recorded before segment `s` of round `eps` in a trace with `T` events. -/
def pairsBefore (m : TraceMonitor) (T eps s : ℕ) : List (ℕ × ℕ) :=
  (List.range eps).flatMap (fun e =>
    (List.range (numSegments mainSegLength T)).flatMap (windowPairs m e)) ++
  (List.range s).flatMap (windowPairs m eps)

theorem pairsBefore_succ (m : TraceMonitor) (T eps s : ℕ) :
    pairsBefore m T eps (s + 1) = pairsBefore m T eps s ++ windowPairs m eps s := by
  unfold pairsBefore
  rw [List.range_succ, List.flatMap_append, List.flatMap_singleton, List.append_assoc]

theorem pairsBefore_round (m : TraceMonitor) (T eps : ℕ) :
    pairsBefore m T (eps + 1) 0 = pairsBefore m T eps (numSegments mainSegLength T) := by
  unfold pairsBefore
  rw [List.range_succ, List.flatMap_append, List.flatMap_singleton, List.range_zero,
    List.flatMap_nil, List.append_nil]

variable {T eps s : ℕ}

/-- The pairs stay when the round goes on. -/
theorem pairsBefore_prefix_segment (m : TraceMonitor) (T eps : ℕ) {s' : ℕ} (hs : s ≤ s') :
    pairsBefore m T eps s <+: pairsBefore m T eps s' := by
  induction s', hs using Nat.le_induction with
  | base => exact List.prefix_rfl
  | succ k _ ih =>
    rw [pairsBefore_succ]
    exact ih.trans (List.prefix_append _ _)

/-- And when the next round begins. -/
theorem pairsBefore_prefix_round (m : TraceMonitor) (T : ℕ) {eps' : ℕ} (heps : eps ≤ eps') :
    pairsBefore m T eps (numSegments mainSegLength T) <+:
      pairsBefore m T eps' (numSegments mainSegLength T) := by
  induction eps', heps using Nat.le_induction with
  | base => exact List.prefix_rfl
  | succ k _ ih =>
    apply ih.trans
    rw [← pairsBefore_round m T k]
    exact pairsBefore_prefix_segment m T (k + 1) (Nat.zero_le _)

/-- **Pairs are never taken out.** -/
theorem pairsBefore_prefix_later (m : TraceMonitor) {eps' s' : ℕ}
    (h : (eps < eps' ∧ s ≤ numSegments mainSegLength T) ∨ (eps = eps' ∧ s ≤ s')) :
    pairsBefore m T eps s <+: pairsBefore m T eps' s' := by
  rcases h with ⟨heps, hs⟩ | ⟨rfl, hs⟩
  · -- to the end of the round, to that of the round before `eps'`, and on
    obtain ⟨e, rfl⟩ := Nat.exists_eq_succ_of_ne_zero (Nat.ne_zero_of_lt heps)
    have hround := pairsBefore_prefix_round m T (Nat.le_of_lt_succ heps)
    rw [← pairsBefore_round m T e] at hround
    exact (pairsBefore_prefix_segment m T eps hs).trans
      (hround.trans (pairsBefore_prefix_segment m T (e + 1) (Nat.zero_le s')))
  · exact pairsBefore_prefix_segment m T eps hs

/-! ## How many pairs -/

/-- The number of pairs recorded before segment `s` of round `eps` in a trace with `T` events. -/
def countBefore (m : TraceMonitor) (T eps s : ℕ) : ℕ :=
  ∑ e ∈ Finset.range eps, ∑ s' ∈ Finset.range (numSegments mainSegLength T),
    pairCount m (s' * mainSegLength : ℕ) ((s' + 1) * mainSegLength : ℕ) e +
  ∑ s' ∈ Finset.range s,
    pairCount m (s' * mainSegLength : ℕ) ((s' + 1) * mainSegLength : ℕ) eps

theorem length_pairsBefore (m : TraceMonitor) (T eps s : ℕ) :
    (pairsBefore m T eps s).length = countBefore m T eps s := by
  have hwindows : ∀ e n : ℕ, ((List.range n).flatMap (windowPairs m e)).length =
      ∑ s' ∈ Finset.range n,
        pairCount m (s' * mainSegLength : ℕ) ((s' + 1) * mainSegLength : ℕ) e := by
    intro e n
    rw [length_flatMap_range]
    exact Finset.sum_congr rfl fun s' _ => length_segPairs ..
  unfold pairsBefore countBefore
  rw [List.length_append, length_flatMap_range, hwindows]
  simp only [hwindows]

/-- The pairs that a run of `main` records for a trace with `T` events. -/
def runPairCount (m : TraceMonitor) (T : ℕ) : ℕ :=
  ∑ e ∈ Finset.range (mainMaxEps + 1), ∑ s ∈ Finset.range (numSegments mainSegLength T),
    pairCount m (s * mainSegLength : ℕ) ((s + 1) * mainSegLength : ℕ) e

theorem length_pairsBefore_last (m : TraceMonitor) (T : ℕ) :
    (pairsBefore m T mainMaxEps (numSegments mainSegLength T)).length = runPairCount m T := by
  rw [← pairsBefore_round, length_pairsBefore]
  unfold countBefore runPairCount
  rw [Finset.range_zero, Finset.sum_empty, Nat.add_zero]

/-! ## Aligned rooms -/

/-- The pairs of positions at a distance of at least `eps`, over a run for a trace with `T`
events. -/
def runApart (T : ℕ) : ℕ :=
  ∑ e ∈ Finset.range (mainMaxEps + 1), ∑ s ∈ Finset.range (numSegments mainSegLength T),
    apart (segWidth T (s * mainSegLength : ℕ) ((s + 1) * mainSegLength : ℕ) e) e

theorem runPairCount_aligned {m : TraceMonitor} {P : ℕ} (h : AlignedTrace P T m) :
    runPairCount m T = P * (P - 1) * runApart T := by
  unfold runPairCount runApart
  rw [Finset.mul_sum]
  refine Finset.sum_congr rfl fun e _ => ?_
  rw [Finset.mul_sum]
  refine Finset.sum_congr rfl fun s _ => ?_
  rw [← length_segPairs, h.length_segPairs]

/-- From four events on the first segment alone has 16 pairs for `eps = 0` and 12 for
`eps = 1`. -/
theorem le_runApart (hT : 4 ≤ T) : 28 ≤ runApart T := by
  have hsegs : 0 ∈ Finset.range (numSegments mainSegLength T) := by
    rw [Finset.mem_range, lt_numSegments_iff (by decide)]
    omega
  have hwidth : ∀ e : ℕ,
      segWidth T (0 * mainSegLength : ℕ) ((0 + 1) * mainSegLength : ℕ) e = 4 := by
    intro e
    unfold segWidth segStart mainSegLength
    omega
  have hround : ∀ e : ℕ, apart 4 e ≤ ∑ s ∈ Finset.range (numSegments mainSegLength T),
      apart (segWidth T (s * mainSegLength : ℕ) ((s + 1) * mainSegLength : ℕ) e) e := by
    intro e
    have hsingle := Finset.single_le_sum (f := fun s : ℕ =>
      apart (segWidth T (s * mainSegLength : ℕ) ((s + 1) * mainSegLength : ℕ) e) e)
      (fun _ _ => Nat.zero_le _) hsegs
    rwa [hwidth e] at hsingle
  have hzero : apart 4 (0 : ℕ) = 16 := by decide
  have hone : apart 4 (1 : ℕ) = 12 := by decide
  calc 28 = ∑ e ∈ Finset.range 2, apart 4 e := by
        rw [Finset.sum_range_succ, Finset.sum_range_one, hzero, hone]
    _ ≤ ∑ e ∈ Finset.range 2, ∑ s ∈ Finset.range (numSegments mainSegLength T),
          apart (segWidth T (s * mainSegLength : ℕ) ((s + 1) * mainSegLength : ℕ) e) e :=
        Finset.sum_le_sum fun e _ => hround e
    _ ≤ runApart T :=
        Finset.sum_le_sum_of_subset (Finset.range_subset_range.mpr (by decide))

/-- The condition for devices with `T` values each, of which the centralised monitor counts
`P`. -/
theorem runPairCount_aligned_le_iff {m : TraceMonitor} {P : ℕ} (h : AlignedTrace P T m)
    (hP : P ≤ maxProcess) : runPairCount m T ≤ 50 ↔
      P ≤ 1 ∨ T = 0 ∨ (T = 1 ∧ P ≤ 7) ∨ (T = 2 ∧ P ≤ 3) ∨ (T = 3 ∧ P ≤ 2) := by
  rw [runPairCount_aligned h]
  unfold maxProcess at hP
  have h0 : runApart 0 = 0 := by decide
  have h1 : runApart 1 = 1 := by decide
  have h2 : runApart 2 = 6 := by decide
  have h3 : runApart 3 = 17 := by decide
  obtain rfl | rfl | rfl | rfl | hT : T = 0 ∨ T = 1 ∨ T = 2 ∨ T = 3 ∨ 4 ≤ T := by omega
  · simp [h0]
  · rw [h1]
    interval_cases P <;> simp
  · rw [h2]
    interval_cases P <;> simp
  · rw [h3]
    interval_cases P <;> simp
  · have hle := le_runApart hT
    have hiff : P * (P - 1) * runApart T ≤ 50 ↔ P ≤ 1 := by
      interval_cases P <;> simp <;> omega
    rw [hiff]
    omega

end Room
