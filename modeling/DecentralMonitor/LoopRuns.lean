/-
# The segment loop with the solver

One round of `main`: the segment loop with some `segLength` and `eps`, in which every monitor asks
`solveSMT` in every segment.  The loop is meant to end after `⌈T / segLength⌉` iterations, to lose
no event of the traces and to split no possibly concurrent pair (`LosesNoEvent`).

The windows are right (`SegmentLoop`).  But the loop has to get through them: `solveSMT` throws
where a window has no event, the pairs of all windows go to one `hbSet` of 50 rows, and their ids
need masks.  `LoopFits` says that a monitor meets these three conditions, and
`segmentLoop_windows_iff` that the loop does what it is meant to do exactly when all monitors do.
-/
import DecentralMonitor.AlignedRun
import DecentralMonitor.MissingDevices

open Constraint FallibleLoop TraceMonitor

namespace Room

variable {n : ℕ} {z : Solver}

/-! ## What the loop asks of a monitor -/

section Monitor

variable (segLength eps : ℕ)

/-- The call of `readSegTrace` in iteration `s`. -/
def segmentCall (s : ℕ) : SegCall := ⟨(s * segLength : ℕ), ((s + 1) * segLength : ℕ), eps⟩

/-- The calls of the iterations before `s`. -/
def segmentCalls (s : ℕ) : List SegCall := (List.range s).map (segmentCall segLength eps)

/-- The pairs that a monitor has before iteration `s`. -/
def loopPairs (m : TraceMonitor) (s : ℕ) : List (ℕ × ℕ) :=
  m.hbSet ++ recorded m (segmentCalls segLength eps s)

theorem loopPairs_succ (m : TraceMonitor) (s : ℕ) : loopPairs segLength eps m (s + 1) =
    loopPairs segLength eps m s ++ callPairs m (segmentCall segLength eps s) := by
  unfold loopPairs segmentCalls
  rw [List.range_succ, List.map_append, List.map_singleton, recorded_append_singleton,
    List.append_assoc]

theorem length_loopPairs (m : TraceMonitor) (s : ℕ) : (loopPairs segLength eps m s).length =
    m.hbSet.length + recordedCount m (segmentCalls segLength eps s) := by
  unfold loopPairs
  rw [List.length_append, length_recorded]

/-- The monitor gets through the loop: every window has an event, the pairs that it had before the
loop and those of all windows fit `hbSet`, and their ids have masks. -/
structure LoopFits (T : ℕ) (m : TraceMonitor) : Prop where
  events : ∀ s < numSegments segLength T, 1 ≤ callEvents m (segmentCall segLength eps s)
  pairs : m.hbSet.length +
    recordedCount m (segmentCalls segLength eps (numSegments segLength T)) ≤ 50
  masks : ∀ s < numSegments segLength T, HaveMasks (loopPairs segLength eps m (s + 1))

instance (T : ℕ) (m : TraceMonitor) : Decidable (LoopFits segLength eps T m) :=
  decidable_of_iff
    ((∀ s < numSegments segLength T, 1 ≤ callEvents m (segmentCall segLength eps s)) ∧
    m.hbSet.length +
      recordedCount m (segmentCalls segLength eps (numSegments segLength T)) ≤ 50 ∧
    ∀ s < numSegments segLength T, HaveMasks (loopPairs segLength eps m (s + 1)))
    ⟨fun h => ⟨h.1, h.2.1, h.2.2⟩, fun h => ⟨h.events, h.pairs, h.masks⟩⟩

end Monitor

variable {segLength eps T s : ℕ} {room₀ : Room n} {st st' : LoopState n}

/-! ## One iteration -/

/-- The state of the loop before iteration `s`: the room holds the traces of `room₀`, and the pairs
of the windows up to there. -/
structure LoopRun (segLength eps T : ℕ) (room₀ : Room n) (s : ℕ) (st : LoopState n) : Prop extends
    LoopInvariant segLength eps T room₀ s st where
  pairHb : ∀ k, (st.room.monitorList k).hbSet = loopPairs segLength eps (room₀.monitorList k) s
  centHb : st.room.centMon.hbSet = loopPairs segLength eps room₀.centMon s

theorem loopRun_loopInit (h : RoomReady room₀) :
    LoopRun segLength eps T room₀ 0 (loopInit segLength room₀) where
  fin := by simp [loopInit]
  ready := h
  pair := fun _ => ⟨rfl, rfl, rfl⟩
  cent := ⟨rfl, rfl, rfl⟩
  pairHb := fun k => (List.append_nil (room₀.monitorList k).hbSet).symm
  centHb := (List.append_nil room₀.centMon.hbSet).symm

/-- One iteration takes the next window. -/
theorem LoopRun.of_loopBody (h : LoopRun segLength eps T room₀ s st) {solve : Solve n}
    (hbody : loopBody segLength eps solve st = some st') :
    LoopRun segLength eps T room₀ (s + 1) st' ∧ CopiesWindow segLength eps T room₀ s st' := by
  obtain ⟨hloop, results, hdone⟩ := h.toLoopInvariant.of_loopBody hbody
  refine ⟨⟨hloop, fun k => ?_, ?_⟩, h.copiesWindow hdone⟩
  · rw [(hdone.pair k).hbSet, h.pairHb k, (h.pair k).segPairs_eq, loopPairs_succ]
    rfl
  · rw [hdone.cent.hbSet, h.centHb, h.cent.segPairs_eq, loopPairs_succ]
    rfl

/-- A monitor that has come so far is answered exactly when its window has an event and the ids
have masks. -/
theorem answered_loop_iff {m₀ m : TraceMonitor} (hsame : SameTrace m₀ m) (hl : m.Loaded)
    (hhb : m.hbSet = loopPairs segLength eps m₀ s) :
    Answered z (s * segLength : ℕ) ((s + 1) * segLength : ℕ) eps m ↔
      1 ≤ callEvents m₀ (segmentCall segLength eps s) ∧
        HaveMasks (loopPairs segLength eps m₀ (s + 1)) := by
  rw [loopPairs_succ, ← hhb]
  exact answered_iff z hsame hl (segmentCall segLength eps s)

/-- **When an iteration gets through.** -/
theorem LoopRun.exists_loopBody_iff (h : LoopRun segLength eps T room₀ s st) :
    (∃ st', loopBody segLength eps (.ofSolver z) st = some st') ↔
      (∀ k, 1 ≤ callEvents (room₀.monitorList k) (segmentCall segLength eps s) ∧
        HaveMasks (loopPairs segLength eps (room₀.monitorList k) (s + 1))) ∧
      1 ≤ callEvents room₀.centMon (segmentCall segLength eps s) ∧
        HaveMasks (loopPairs segLength eps room₀.centMon (s + 1)) := by
  rw [exists_loopBody_ofSolver_iff h.ready, h.fin_add, h.fin,
    answered_loop_iff h.cent h.ready.centLoaded h.centHb]
  simp only [answered_loop_iff (h.pair _) (h.ready.loaded _) (h.pairHb _)]

/-! ## The loop -/

/-- The segment loop with the solver loses no event and splits no possibly concurrent pair: it ends
after `⌈T / segLength⌉` iterations, no write passes the end of an `hbSet`, iteration `s` copies
`window s` in every monitor whose processes all have `T` events, the windows cover the trace, they
are disjoint when `eps = 0`, and any two positions at most `eps` apart are in a window together. -/
structure LosesNoEvent (z : Solver) (segLength eps T : ℕ) (room : Room n) : Prop where
  ends : ∃ st, EndsAfter LoopGuard (fun _ => loopBody segLength eps (.ofSolver z))
    (loopInit segLength room) (numSegments segLength T) st
  safe : ∀ s ≤ numSegments segLength T, ∀ st, iterations
    (fun _ => loopBody segLength eps (.ofSolver z)) (loopInit segLength room) s = some st →
      HbSafe st.room
  copies : ∀ s < numSegments segLength T, ∃ st, iterations
    (fun _ => loopBody segLength eps (.ofSolver z)) (loopInit segLength room) (s + 1) = some st ∧
      CopiesWindow segLength eps T room s st
  cover : ∀ t < T, ∃ s < numSegments segLength T, t ∈ window segLength eps T s
  once : eps = 0 → ∀ t < T, ∃! s, s < numSegments segLength T ∧ t ∈ window segLength eps T s
  together : ∀ t < T, ∀ u < T, |(t : ℤ) - u| ≤ eps → ∃ s < numSegments segLength T,
    t ∈ window segLength eps T s ∧ u ∈ window segLength eps T s

/-- Every iteration that is reached is that of a run. -/
theorem loopRun_of_iterations (h : RoomReady room₀) {solve : Solve n}
    (hst : iterations (fun _ => loopBody segLength eps solve) (loopInit segLength room₀) s =
      some st) : LoopRun segLength eps T room₀ s st := by
  induction s generalizing st with
  | zero =>
    obtain rfl := Option.some.inj hst
    exact loopRun_loopInit h
  | succ s ih =>
    obtain ⟨prev, hprev, hbody⟩ := Option.bind_eq_some_iff.mp hst
    exact ((ih hprev).of_loopBody hbody).1

/-- If all monitors fit, every iteration is followed by the next. -/
theorem LoopRun.exists_next (h : LoopRun segLength eps T room₀ s st)
    (hpair : ∀ k, LoopFits segLength eps T (room₀.monitorList k))
    (hcent : LoopFits segLength eps T room₀.centMon) (hs : s < numSegments segLength T) :
    ∃ st', loopBody segLength eps (.ofSolver z) st = some st' ∧
      LoopRun segLength eps T room₀ (s + 1) st' := by
  obtain ⟨st', hst'⟩ := h.exists_loopBody_iff.mpr
    ⟨fun k => ⟨(hpair k).events s hs, (hpair k).masks s hs⟩, hcent.events s hs, hcent.masks s hs⟩
  exact ⟨st', hst', (h.of_loopBody hst').1⟩

/-- Fewer segments have fewer pairs. -/
theorem LoopFits.length_loopPairs_le {m : TraceMonitor} (h : LoopFits segLength eps T m)
    (hs : s ≤ numSegments segLength T) : (loopPairs segLength eps m s).length ≤ 50 := by
  have hmono : ∀ k, s ≤ k → (loopPairs segLength eps m s).length ≤
      (loopPairs segLength eps m k).length := by
    intro k hk
    induction k, hk using Nat.le_induction with
    | base => exact le_rfl
    | succ k _ ih =>
      apply ih.trans
      rw [loopPairs_succ, List.length_append]
      exact Nat.le_add_right _ _
  have hlast := hmono _ hs
  rw [length_loopPairs _ _ m (numSegments segLength T)] at hlast
  exact hlast.trans h.pairs

theorem losesNoEvent_of_loopFits (h : RoomReady room₀) (hseg : 1 ≤ segLength)
    (hT : room₀.centMon.numEventAll 0 = T)
    (hpair : ∀ k, LoopFits segLength eps T (room₀.monitorList k))
    (hcent : LoopFits segLength eps T room₀.centMon) : LosesNoEvent z segLength eps T room₀ := by
  have hinit : LoopRun segLength eps T room₀ 0 (loopInit segLength room₀) := loopRun_loopInit h
  have hbody : ∀ s < numSegments segLength T, ∀ st, LoopRun segLength eps T room₀ s st →
      ∃ st', loopBody segLength eps (.ofSolver z) st = some st' ∧
        LoopRun segLength eps T room₀ (s + 1) st' :=
    fun s hs st hst => hst.exists_next hpair hcent hs
  have hcover : ∀ t < T, ∃ s < numSegments segLength T, t ∈ window segLength eps T s := by
    intro t ht
    obtain ⟨s, hs, hmem, -⟩ := exists_mem_window eps hseg ht ht (by simp)
    exact ⟨s, hs, hmem⟩
  refine ⟨?_, fun s hs st hst => ?_, fun s hs => ?_, hcover, ?_,
    fun t ht u hu htu => exists_mem_window eps hseg ht hu htu⟩
  · obtain ⟨st, hst, -⟩ := exists_endsAfter hinit hbody
      (fun s hs st hst => (hst.guard_iff hseg hT).mpr hs)
      (fun st hst hlt => absurd ((hst.guard_iff hseg hT).mp hlt) (Nat.lt_irrefl _))
    exact ⟨st, hst⟩
  · have hrun : LoopRun segLength eps T room₀ s st := loopRun_of_iterations h hst
    refine ⟨fun k => ?_, ?_⟩
    · unfold HbFits
      rw [hrun.pairHb k]
      exact (hpair k).length_loopPairs_le hs
    · unfold HbFits
      rw [hrun.centHb]
      exact hcent.length_loopPairs_le hs
  · obtain ⟨st, hst, hrun⟩ := exists_iterations hinit hbody s hs.le
    obtain ⟨st', hst', -⟩ := hbody s hs st hrun
    refine ⟨st', ?_, (hrun.of_loopBody hst').2⟩
    rw [iterations, hst]
    exact hst'
  · rintro rfl t ht
    obtain ⟨s, hs, hmem⟩ := hcover t ht
    exact ⟨s, ⟨hs, hmem⟩, fun s' hs' => window_unique hs'.2 hmem⟩

theorem LosesNoEvent.loopFits (hdone : LosesNoEvent z segLength eps T room₀)
    (h : RoomReady room₀) : (∀ k, LoopFits segLength eps T (room₀.monitorList k)) ∧
      LoopFits segLength eps T room₀.centMon := by
  obtain ⟨last, hends⟩ := hdone.ends
  -- each iteration has got through
  have hiter : ∀ s < numSegments segLength T,
      (∀ k, 1 ≤ callEvents (room₀.monitorList k) (segmentCall segLength eps s) ∧
        HaveMasks (loopPairs segLength eps (room₀.monitorList k) (s + 1))) ∧
      1 ≤ callEvents room₀.centMon (segmentCall segLength eps s) ∧
        HaveMasks (loopPairs segLength eps room₀.centMon (s + 1)) := by
    intro s hs
    obtain ⟨st', hst'⟩ := exists_iterations_of_le (Nat.succ_le_of_lt hs) hends.last
    obtain ⟨st, hst, hbody⟩ := Option.bind_eq_some_iff.mp hst'
    have hrun : LoopRun segLength eps T room₀ s st := loopRun_of_iterations h hst
    exact hrun.exists_loopBody_iff.mp ⟨st', hbody⟩
  -- and the last state holds all pairs
  have hrun : LoopRun segLength eps T room₀ (numSegments segLength T) last :=
    loopRun_of_iterations h hends.last
  obtain ⟨hpairs, hcents⟩ := hdone.safe _ le_rfl last hends.last
  refine ⟨fun k => ⟨fun s hs => ((hiter s hs).1 k).1, ?_, fun s hs => ((hiter s hs).1 k).2⟩,
    fun s hs => (hiter s hs).2.1, ?_, fun s hs => (hiter s hs).2.2⟩
  · rw [← length_loopPairs, ← hrun.pairHb k]
    exact hpairs k
  · rw [← length_loopPairs, ← hrun.centHb]
    exact hcents

/-- The switch of the repository's entrance is in a file with another name than the one that is
opened.  The pairwise monitor counts no process, and the first iteration does not get through. -/
theorem loop_entrance : ∃ room : Room (1 * 1), scan "entrance" dataDirectory = (1, 1) ∧
    loadRoom "entrance" 1 1 entranceFiles = some room ∧ RoomReady room ∧
    room.centMon.numEventAll 0 = 2 ∧ ∀ z, ¬ LosesNoEvent z mainSegLength 0 2 room := by
  have hloaded : (loadRoom "entrance" 1 1 entranceFiles).any (fun room => decide
      (room.centMon.numEventAll 0 = 2 ∧ room.centMon.numProcess.toNat ≤ maxProcess ∧
        ∀ k, (room.monitorList k).numProcess.toNat ≤ maxProcess ∧
          callEvents (room.monitorList k) (segmentCall mainSegLength 0 0) = 0)) = true := by
    decide +kernel
  obtain ⟨room, hroom, hfacts⟩ := (Option.any_eq_true ..).mp hloaded
  obtain ⟨hT, hcent, hpair⟩ := of_decide_eq_true hfacts
  have hready : RoomReady room :=
    ((justLoaded_of_loadRoom hroom).runStart (fun k => (hpair k).1) hcent).toRoomReady
  refine ⟨room, by decide +kernel, hroom, hready, hT, fun z hdone => ?_⟩
  have hevents := ((hdone.loopFits hready).1 0).events 0 (by decide)
  rw [(hpair 0).2] at hevents
  exact absurd hevents (by decide)

/-- **When the segment loop loses no event and splits no possibly concurrent pair.**  For every
solver, every room within the array bounds, every segment length and every `eps`: exactly when all
monitors get through the loop. -/
theorem segmentLoop_windows_iff (z : Solver) {room : Room n} (h : RoomReady room)
    {segLength : ℕ} (eps : ℕ) {T : ℕ} (hseg : 1 ≤ segLength)
    (hT : room.centMon.numEventAll 0 = T) : LosesNoEvent z segLength eps T room ↔
      (∀ k, LoopFits segLength eps T (room.monitorList k)) ∧
        LoopFits segLength eps T room.centMon :=
  ⟨fun hdone => hdone.loopFits h,
    fun ⟨hpair, hcent⟩ => losesNoEvent_of_loopFits h hseg hT hpair hcent⟩

/-- The kitchen, two switches and a light with two values each, gets through the first round of
`main`. -/
theorem segmentLoop_windows_kitchen : ∃ room : Room (2 * 1),
    loadRoom "kitchen" 2 1 kitchenFiles = some room ∧
      LosesNoEvent default mainSegLength 0 2 room := by
  have hloaded : (loadRoom "kitchen" 2 1 kitchenFiles).any (fun room => decide
      (room.centMon.numEventAll 0 = 2 ∧
        (∀ k, LoopFits mainSegLength 0 2 (room.monitorList k)) ∧
        LoopFits mainSegLength 0 2 room.centMon)) = true := by
    decide +kernel
  obtain ⟨room, hroom, hfacts⟩ := (Option.any_eq_true ..).mp hloaded
  obtain ⟨hT, hpair, hcent⟩ := of_decide_eq_true hfacts
  obtain ⟨room', hroom', hstart⟩ := alignedRoom_kitchen.alignedStart
  obtain rfl : room' = room := Option.some.inj (hroom'.symm.trans hroom)
  exact ⟨room', hroom, (segmentLoop_windows_iff default hstart.runStart.toRoomReady 0 (by decide)
    hT).mpr ⟨hpair, hcent⟩⟩

end Room
