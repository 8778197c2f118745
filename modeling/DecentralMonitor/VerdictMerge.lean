/-
# What the exchange of verdicts computes

`verdictsDelivered_iff` says that the sharing phase of `main` does not deliver the verdicts.
This module says what it does instead.  The answer of the solver is a flag in slot 0, and a
sharing phase makes of these flags their disjunction: after every segment of every run all
pairwise monitors hold one and the same table, `mergedTable`, that says whether the solver has
answered `true` to some monitor in this segment, and nothing else.

The order of the calls does not matter.  Any sequence of calls in which everybody's table
reaches everybody, possibly over others, leaves the same monitors (`share_any_order`).
-/
import DecentralMonitor.VerdictDelivery

open FallibleLoop Flooding TableExchange TraceMonitor

namespace Room

variable {n : ℕ}

/-! ## Sharing in another order -/

/-- **The order of the calls.**  When no two monitors hold different verdicts in a slot that both
have flagged, every sequence of calls that spreads all tables ends like the sharing phase. -/
theorem share_any_order {list : Fin n → TraceMonitor} (h : Ready list)
    (hcons : Consistent (family list)) {es : List (Fin n × Fin n)} (hes : Spreads es) :
    es.foldlM send list = sharePhase list := by
  obtain ⟨u, hu, honly, -, hex⟩ := foldlM_send_spec h es
  obtain ⟨v, hv, honly', -, hex'⟩ := sharePhase_spec h
  have hmerged : Merged (family list) (family u) := exchange_spreads hex h.sized hcons hes
  have hmerged' : Merged (family list) (family v) :=
    exchange_spreads hex' h.sized hcons spreads_allToAll
  have heq : family u = family v := hmerged.unique h.sized hmerged'
  rw [hu, hv, Option.some.injEq]
  funext i
  have hi : (u i).toVerdictTable = (v i).toVerdictTable := congrFun heq i
  rw [honly i, honly' i, hi]

/-! ## The table after a segment -/

/-- The table of every pairwise monitor after a segment: `b` is whether the solver has answered
`true` to some monitor. -/
def mergedTable (n : ℕ) (b : Bool) : VerdictTable where
  verdicts := List.replicate n false
  verdictsMod := (List.replicate n false).set 0 b

theorem mergedTable_false (n : ℕ) : mergedTable n false = VerdictTable.fresh n := by
  unfold mergedTable VerdictTable.fresh
  cases n <;> rfl

theorem flagged_mergedTable {b : Bool} {c : ℕ} :
    (mergedTable n b).Flagged c ↔ b = true ∧ c = 0 ∧ 0 < n := by
  unfold VerdictTable.Flagged mergedTable
  rw [List.getElem?_set]
  by_cases hc : 0 = c
  · subst hc
    rw [if_pos rfl, List.length_replicate]
    split
    · next hn => simp [hn]
    · next hn => simp [hn]
  · rw [if_neg hc, List.getElem?_replicate]
    have hne : ¬ c = 0 := fun h => hc h.symm
    split <;> simp [hne]

/-- A flagged slot of a merged table holds `false`. -/
theorem slot_mergedTable {b : Bool} {c : ℕ} {v : Bool}
    (h : (mergedTable n b).slot c = (some v, some true)) : v = false := by
  have hv : (List.replicate n false)[c]? = some v := congrArg Prod.fst h
  rw [List.getElem?_replicate] at hv
  split at hv
  · exact (Option.some.inj hv).symm
  · simp at hv

/-- Slots other than slot 0 do not depend on the answers. -/
theorem slot_mergedTable_congr (b b' : Bool) {c : ℕ} (hc : c ≠ 0) :
    (mergedTable n b).slot c = (mergedTable n b').slot c := by
  unfold VerdictTable.slot mergedTable
  rw [List.getElem?_set_ne hc.symm, List.getElem?_set_ne hc.symm]

/-- Merged tables never contradict each other. -/
theorem consistent_mergedTable (results : Fin n → Bool) :
    Consistent fun i => mergedTable n (results i) := by
  intro c k l v w hv hw
  rw [slot_mergedTable hv, slot_mergedTable hw]

theorem merged_mergedTable (results : Fin n → Bool) :
    Merged (fun i => mergedTable n (results i))
      fun _ => mergedTable n (decide (∃ i, results i = true)) where
  flagged := by
    rintro c v ⟨l, hl⟩ k
    have hflag : (mergedTable n (results l)).Flagged c := congrArg Prod.snd hl
    obtain ⟨htrue, -, -⟩ := flagged_mergedTable.mp hflag
    have hsome : decide (∃ i, results i = true) = results l := by
      rw [htrue]
      exact decide_eq_true ⟨l, htrue⟩
    rw [hsome]
    exact hl
  not_flagged := by
    intro c hc k
    by_cases h0 : c = 0
    · -- nobody has got the answer `true`
      have hnone : ∀ i, results i = false := by
        intro i
        by_contra htrue
        rw [Bool.not_eq_false] at htrue
        exact hc i (flagged_mergedTable.mpr ⟨htrue, h0, Nat.zero_lt_of_lt i.isLt⟩)
      have hsome : decide (∃ i, results i = true) = results k := by
        rw [hnone k]
        exact decide_eq_false fun ⟨i, hi⟩ => by simp [hnone i] at hi
      rw [hsome]
    · exact slot_mergedTable_congr _ _ h0

/-- Storing an answer overwrites what the last segment has left in slot 0. -/
theorem stored_eq_mergedTable {m : TraceMonitor} {b : Bool}
    (h : m.toVerdictTable = mergedTable n b) (verdict : Bool) :
    stored m verdict = mergedTable n verdict := by
  have hverdicts : m.verdicts = List.replicate n false := congrArg VerdictTable.verdicts h
  have hmods : m.verdictsMod = (List.replicate n false).set 0 b :=
    congrArg VerdictTable.verdictsMod h
  unfold stored mergedTable
  rw [hverdicts, hmods, List.set_set]

/-- All pairwise monitors hold the same merged table. -/
def AllMerged (room : Room n) (b : Bool) : Prop :=
  ∀ i, (room.monitorList i).toVerdictTable = mergedTable n b

theorem RoomFresh.allMerged {room : Room n} (h : RoomFresh room) : AllMerged room false := by
  intro i
  rw [h.table i, mergedTable_false]

/-- **What a segment leaves.** -/
theorem SegmentDone.allMerged {start fin eps : ℤ} {results : Fin n → Bool} {room room' : Room n}
    (h : SegmentDone start fin eps results room room') (hroom : RoomReady room) {b : Bool}
    (hb : AllMerged room b) : AllMerged room' (decide (∃ i, results i = true)) := by
  have hex := h.exchange
  have hstored : (fun i => stored (room.monitorList i) (results i)) =
      fun i => mergedTable n (results i) := by
    funext i
    exact stored_eq_mergedTable (hb i) (results i)
  have hsized : AllSized fun i => mergedTable n (results i) := by
    rw [← hstored]
    exact fun i => stored_sized (hroom.ready.sized i) (results i)
  rw [hstored] at hex
  have hmerged := exchange_spreads hex hsized (consistent_mergedTable results) spreads_allToAll
  exact fun i => congrFun (hmerged.unique hsized (merged_mergedTable results)) i

/-! ## Runs -/

/-- A segment in which the calls of `ShareVerdict` are made in the order `es`. -/
def segmentIn (es : List (Fin n × Fin n)) (s : SegmentInput n) (room : Room n) :
    Option (Room n) := do
  let list ← monitorAll s.start s.fin s.eps (.answers s.results s.centResult) room.monitorList
  let cent ← monitorSegment s.start s.fin s.eps (fun _ => some s.centResult) room.centMon
  let list ← es.foldlM send list
  some ⟨list, cent⟩

/-- A run of segments, each with its own order of calls. -/
def runSegmentsIn (room : Room n) (segs : List (SegmentInput n × List (Fin n × Fin n))) :
    Option (Room n) :=
  segs.foldlM (fun room e => segmentIn e.2 e.1 room) room

/-- From merged tables such a segment is one of `main`. -/
theorem segmentIn_eq {es : List (Fin n × Fin n)} (hes : Spreads es) {room : Room n}
    (h : RoomReady room) {b : Bool} (hb : AllMerged room b) (s : SegmentInput n) :
    segmentIn es s room = segment s.start s.fin s.eps (.answers s.results s.centResult) room := by
  obtain ⟨list, hall, htakes, hfamily⟩ :=
    monitorAll_spec h s.start s.fin s.eps s.results s.centResult
  have hshare : es.foldlM send list = sharePhase list := by
    refine share_any_order (ready_of_stored h htakes hfamily) ?_ hes
    have hmerged : family list = fun i => mergedTable n (s.results i) := by
      rw [hfamily]
      funext i
      exact stored_eq_mergedTable (hb i) (s.results i)
    rw [hmerged]
    exact consistent_mergedTable s.results
  unfold segmentIn segment
  rw [hall]
  show (do
    let cent ← monitorSegment s.start s.fin s.eps (fun _ => some s.centResult) room.centMon
    let list ← es.foldlM send list
    some (Room.mk list cent)) = _
  rw [hshare]
  rfl

/-- The state after a run of segments. -/
structure RunMerged (segs : List (SegmentInput n)) (room : Room n) : Prop extends
    RoomReady room where
  merged : AllMerged room
    (segs.getLast?.elim false fun s => decide (∃ i, s.results i = true))

/-- One segment more, in any order of calls. -/
theorem RunMerged.segmentIn {segs : List (SegmentInput n)} {room : Room n}
    (h : RunMerged segs room) {es : List (Fin n × Fin n)} (hes : Spreads es)
    (s : SegmentInput n) : ∃ room', Room.segmentIn es s room = some room' ∧
      segment s.start s.fin s.eps (.answers s.results s.centResult) room = some room' ∧
        RunMerged (segs ++ [s]) room' := by
  obtain ⟨room', hroom', hready, hdone⟩ :=
    segment_spec h.toRoomReady s.start s.fin s.eps s.results s.centResult
  refine ⟨room', (segmentIn_eq hes h.toRoomReady h.merged s).trans hroom', hroom', hready, ?_⟩
  rw [List.getLast?_append]
  exact hdone.allMerged h.toRoomReady h.merged

/-- **What the exchange computes.**  Run any number of segments on loaded monitors, with any
windows and any answers of the solver, and in each segment share in any order in which all
tables reach everybody.  Given these answers, and as long as the recorded pairs fit `hbSet`
(`HbFits`, which the tables do not depend on), the run succeeds and its end is that of `main`'s
order of calls: every pairwise monitor holds the same table, with `false` for every verdict and,
as its only flag, whether the solver has answered `true` to some monitor in the last segment. -/
theorem exchange_disjunction {room : Room n} (h : RoomFresh room)
    {segs : List (SegmentInput n × List (Fin n × Fin n))} (hsegs : ∀ e ∈ segs, Spreads e.2) :
    ∃ room', runSegmentsIn room segs = some room' ∧
      runSegments room (segs.map Prod.fst) = some room' ∧
      ∀ e, segs.getLast? = some e → ∀ i, (room'.monitorList i).toVerdictTable =
        ⟨List.replicate n false,
          (List.replicate n false).set 0 (decide (∃ k, e.1.results k = true))⟩ := by
  obtain ⟨room', hrun, hrun', hmerged⟩ := exists_foldlM_read
    (f := fun room e => segmentIn e.2 e.1 room) (l := segs) (s := room)
    (P := fun pre u => runSegments room (pre.map Prod.fst) = some u ∧
      RunMerged (pre.map Prod.fst) u)
    ⟨rfl, h.toRoomReady, h.allMerged⟩ (by
      rintro pre e hpre u ⟨hu, hmerged⟩
      have hes : Spreads e.2 :=
        hsegs e (hpre.subset (List.mem_append_right pre (List.mem_singleton_self e)))
      obtain ⟨u', hin, hseg, hmerged'⟩ := hmerged.segmentIn hes e.1
      rw [List.map_append, List.map_singleton]
      refine ⟨u', hin, ?_, hmerged'⟩
      unfold runSegments
      rw [foldlM_append_eq_some_iff]
      exact ⟨u, hu, (foldlM_singleton ..).trans hseg⟩)
  refine ⟨room', hrun, hrun', fun e he i => ?_⟩
  have hlast := hmerged.merged i
  rw [List.getLast?_map, he] at hlast
  exact hlast

/-- The kitchen's segment, with the calls in the opposite order. -/
theorem exchange_disjunction_kitchen :
    ∃ room', runSegmentsIn kitchenRoom [(kitchenSegment, [(1, 0), (0, 1)])] = some room' ∧
      runSegments kitchenRoom [kitchenSegment] = some room' ∧
      ∀ i, (room'.monitorList i).toVerdictTable = ⟨[false, false], [true, false]⟩ := by
  have hspreads : Spreads [((1 : Fin 2), (0 : Fin 2)), (0, 1)] := by
    intro v w
    by_cases h : v = w
    · rw [h]
      exact carries_refl _ w
    · refine carries_of_mem (e := (v, w)) ?_
      revert v w
      decide
  have hsegs : ∀ e ∈ [(kitchenSegment, [((1 : Fin 2), (0 : Fin 2)), (0, 1)])], Spreads e.2 := by
    simpa using hspreads
  obtain ⟨room', hrun, hrun', htables⟩ := exchange_disjunction roomFresh_kitchenRoom hsegs
  exact ⟨room', hrun, hrun', htables _ rfl⟩

end Room
