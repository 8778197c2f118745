/-
# What one segment does to a room

`segment_spec` is the one specification of `segment` that later results use, whatever
the solver answers: every monitor takes its segment from its own trace
(`TakesSegment`), and the verdict tables of the pairwise monitors are exchanged after
the answers have been stored (`stored`).

`exists_answers` says that a run with a solver is a run with some given answers.
-/
import DecentralMonitor.VerdictExchange

open FallibleLoop TableExchange TraceMonitor

namespace Room

variable {n : ℕ} {start fin eps : ℤ}

/-! ## One monitor -/

/-- `m'` is `m` after `readSegTrace(start, end, eps)`, up to the verdict table. -/
def TakesSegment (start fin eps : ℤ) (m m' : TraceMonitor) : Prop :=
  ∃ u, IsSegment m start fin eps u ∧ m' = { u with toVerdictTable := m'.toVerdictTable }

/-- The table of `m` once the solver's verdict has been stored. -/
def stored (m : TraceMonitor) (verdict : Bool) : VerdictTable :=
  ⟨m.verdicts, m.verdictsMod.set 0 verdict⟩

theorem stored_sized {m : TraceMonitor} (h : m.Sized n) (verdict : Bool) :
    (stored m verdict).Sized n :=
  ⟨h.verdicts, by rw [stored, List.length_set, h.verdictsMod]⟩

/-- A monitor takes its segment and stores what the solver answers. -/
theorem monitorSegment_spec {m : TraceMonitor} (h : Loaded m) (hmod : 0 < m.verdictsMod.length)
    (start fin eps : ℤ) (verdict : Bool) :
    ∃ m', monitorSegment start fin eps (fun _ => some verdict) m = some m' ∧
      TakesSegment start fin eps m m' ∧ m'.toVerdictTable = stored m verdict := by
  obtain ⟨u, hu, hseg⟩ := readSegTrace_spec h start fin eps
  have htable : u.toVerdictTable = m.toVerdictTable := by rw [hseg.frame]
  have hverdicts : u.verdicts = m.verdicts := congrArg VerdictTable.verdicts htable
  have hmods : u.verdictsMod = m.verdictsMod := congrArg VerdictTable.verdictsMod htable
  refine ⟨{ u with verdictsMod := u.verdictsMod.set 0 verdict }, ?_, ⟨u, hseg, rfl⟩, ?_⟩
  · unfold monitorSegment
    rw [hu]
    show storeVerdict u verdict = _
    unfold storeVerdict
    rw [if_pos (by rw [hmods]; exact hmod)]
  · show VerdictTable.mk u.verdicts (u.verdictsMod.set 0 verdict) = _
    rw [stored, hverdicts, hmods]

theorem TakesSegment.numMonitors {m m' : TraceMonitor} (h : TakesSegment start fin eps m m') :
    m'.numMonitors = m.numMonitors := by
  obtain ⟨u, hu, hm'⟩ := h
  rw [hm', hu.frame]

theorem TakesSegment.numProcess {m m' : TraceMonitor} (h : TakesSegment start fin eps m m') :
    m'.numProcess = m.numProcess := by
  obtain ⟨u, hu, hm'⟩ := h
  rw [hm', hu.frame]

theorem TakesSegment.numEventAll {m m' : TraceMonitor} (h : TakesSegment start fin eps m m') :
    m'.numEventAll = m.numEventAll := by
  obtain ⟨u, hu, hm'⟩ := h
  rw [hm', hu.frame]

theorem TakesSegment.eValueAll {m m' : TraceMonitor} (h : TakesSegment start fin eps m m') :
    m'.eValueAll = m.eValueAll := by
  obtain ⟨u, hu, hm'⟩ := h
  rw [hm', hu.frame]

/-- Taking a segment keeps the trace. -/
theorem TakesSegment.loaded {m m' : TraceMonitor} (h : TakesSegment start fin eps m m')
    (hm : Loaded m) : Loaded m' where
  numProcess := by
    rw [h.numProcess]
    exact hm.numProcess
  numEventAll := by
    rw [h.numProcess, h.numEventAll]
    exact hm.numEventAll

/-- The verdict table may change afterwards. -/
theorem TakesSegment.table {m m' m'' : TraceMonitor} (h : TakesSegment start fin eps m m')
    (hm'' : m'' = { m' with toVerdictTable := m''.toVerdictTable }) :
    TakesSegment start fin eps m m'' := by
  obtain ⟨u, hu, hm'⟩ := h
  refine ⟨u, hu, ?_⟩
  rw [hm'', hm']

/-! ## All monitors -/

/-- The monitors of a room are ready to take segments. -/
structure RoomReady (room : Room n) : Prop where
  ready : Ready room.monitorList
  loaded : ∀ i, (room.monitorList i).Loaded
  centLoaded : room.centMon.Loaded
  centTable : 0 < room.centMon.verdictsMod.length

/-- What a segment with these answers does to the room. -/
structure SegmentDone (start fin eps : ℤ) (results : Fin n → Bool) (room room' : Room n) :
    Prop where
  pair : ∀ i, TakesSegment start fin eps (room.monitorList i) (room'.monitorList i)
  cent : TakesSegment start fin eps room.centMon room'.centMon
  exchange : Exchange (fun i => stored (room.monitorList i) (results i)) (allToAll n)
    (family room'.monitorList)

/-- The loop over the pairwise monitors: each takes its segment and stores its answer. -/
theorem monitorAll_spec {room : Room n} (h : RoomReady room) (start fin eps : ℤ)
    (results : Fin n → Bool) (centResult : Bool) :
    ∃ list, monitorAll start fin eps (.answers results centResult) room.monitorList =
        some list ∧
      (∀ i, TakesSegment start fin eps (room.monitorList i) (list i)) ∧
      family list = fun i => stored (room.monitorList i) (results i) := by
  have hpair : ∀ i, ∃ m', monitorSegment start fin eps (fun _ => some (results i))
      (room.monitorList i) = some m' ∧ TakesSegment start fin eps (room.monitorList i) m' ∧
      m'.toVerdictTable = stored (room.monitorList i) (results i) := by
    intro i
    refine monitorSegment_spec (h.loaded i) ?_ start fin eps (results i)
    rw [(h.ready.sized i).verdictsMod]
    exact Nat.zero_lt_of_lt i.isLt
  choose list hlist htakes htable using hpair
  refine ⟨list, ?_, htakes, funext htable⟩
  -- no monitor reads what another one has written
  unfold monitorAll
  rw [foldlM_update_eq_some (f := fun i => monitorSegment start fin eps
    ((Solve.answers results centResult).pair i)) (List.nodup_finRange n) fun i _ => hlist i]
  simp

/-- The room is ready for the exchange once the answers have been stored. -/
theorem ready_of_stored {room : Room n} (h : RoomReady room) {list : Fin n → TraceMonitor}
    {results : Fin n → Bool}
    (htakes : ∀ i, TakesSegment start fin eps (room.monitorList i) (list i))
    (hfamily : family list = fun i => stored (room.monitorList i) (results i)) : Ready list := by
  refine ⟨fun i => ?_, fun i => ?_⟩
  · rw [(htakes i).numMonitors]
    exact h.ready.numMonitors i
  · show (family list i).Sized n
    rw [hfamily]
    exact stored_sized (h.ready.sized i) (results i)

/-- **What one segment does.** -/
theorem segment_spec {room : Room n} (h : RoomReady room) (start fin eps : ℤ)
    (results : Fin n → Bool) (centResult : Bool) :
    ∃ room', segment start fin eps (.answers results centResult) room = some room' ∧
      RoomReady room' ∧ SegmentDone start fin eps results room room' := by
  obtain ⟨list, hall, htakes, hfamily⟩ := monitorAll_spec h start fin eps results centResult
  obtain ⟨cent, hcent, hcentTakes, hcentTable⟩ :=
    monitorSegment_spec h.centLoaded h.centTable start fin eps centResult
  obtain ⟨list', hshare, honly, hready', hex⟩ :=
    sharePhase_spec (ready_of_stored h htakes hfamily)
  have hpair : ∀ i, TakesSegment start fin eps (room.monitorList i) (list' i) :=
    fun i => (htakes i).table (honly i)
  refine ⟨⟨list', cent⟩, ?_, ⟨hready', fun i => (hpair i).loaded (h.loaded i),
    hcentTakes.loaded h.centLoaded, ?_⟩, ⟨hpair, hcentTakes, ?_⟩⟩
  · unfold segment
    rw [hall]
    show (do
      let cent ← monitorSegment start fin eps (fun _ => some centResult) room.centMon
      let list ← sharePhase list
      some (Room.mk list cent)) = _
    rw [hcent]
    show (do
      let list ← sharePhase list
      some (Room.mk list cent)) = _
    rw [hshare]
    rfl
  · show 0 < cent.toVerdictTable.verdictsMod.length
    rw [hcentTable, stored, List.length_set]
    exact h.centTable
  · rw [← hfamily]
    exact hex

/-! ## Runs with a solver -/

/-- A monitor that gets an answer from the solver stores that answer. -/
theorem monitorSegment_answer {solve : TraceMonitor → Option Bool} {m m' : TraceMonitor}
    (h : monitorSegment start fin eps solve m = some m') :
    ∃ b, monitorSegment start fin eps (fun _ => some b) m = some m' := by
  unfold monitorSegment at h
  obtain ⟨u, hu, h⟩ := Option.bind_eq_some_iff.mp h
  obtain ⟨b, -, h⟩ := Option.bind_eq_some_iff.mp h
  refine ⟨b, ?_⟩
  unfold monitorSegment
  rw [hu]
  exact h

/-- The answers that the pairwise monitors get. -/
theorem monitorAll_answers {solve : Fin n → TraceMonitor → Option Bool} {l : List (Fin n)}
    (hl : l.Nodup) {list list' : Fin n → TraceMonitor}
    (h : l.foldlM (fun list i => do
      let m ← monitorSegment start fin eps (solve i) (list i)
      some (Function.update list i m)) list = some list') :
    ∃ results : Fin n → Bool, l.foldlM (fun list i => do
      let m ← monitorSegment start fin eps (fun _ => some (results i)) (list i)
      some (Function.update list i m)) list = some list' := by
  induction l generalizing list with
  | nil => exact ⟨fun _ => false, h⟩
  | cons i l ih =>
    rw [List.foldlM_cons] at h
    obtain ⟨u, hu, h⟩ := Option.bind_eq_some_iff.mp h
    obtain ⟨m, hm, hu⟩ := Option.bind_eq_some_iff.mp hu
    obtain rfl := Option.some.inj hu
    obtain ⟨b, hb⟩ := monitorSegment_answer hm
    obtain ⟨results, hresults⟩ := ih hl.of_cons h
    -- add the answer that monitor `i` got
    refine ⟨Function.update results i b, ?_⟩
    rw [List.foldlM_cons, Function.update_self, hb, ← hresults]
    -- the answers for the other monitors are those of the induction hypothesis
    refine foldlM_congr fun k hk list => ?_
    have hne : k ≠ i := fun hki => (List.nodup_cons.mp hl).1 (hki ▸ hk)
    rw [Function.update_of_ne hne]

/-- A segment handled with any solver is one handled with given answers. -/
theorem exists_answers {solve : Solve n} {room room' : Room n}
    (h : segment start fin eps solve room = some room') :
    ∃ results centResult,
      segment start fin eps (.answers results centResult) room = some room' := by
  unfold segment at h
  obtain ⟨list, hlist, h⟩ := Option.bind_eq_some_iff.mp h
  obtain ⟨cent, hcent, h⟩ := Option.bind_eq_some_iff.mp h
  obtain ⟨results, hresults⟩ := monitorAll_answers (List.nodup_finRange n) hlist
  obtain ⟨centResult, hcentResult⟩ := monitorSegment_answer hcent
  refine ⟨results, centResult, ?_⟩
  have hall : monitorAll start fin eps (.answers results centResult) room.monitorList =
    some list := hresults
  have hcent' : monitorSegment start fin eps (Solve.answers results centResult).cent room.centMon =
    some cent := hcentResult
  unfold segment
  rw [hall]
  show (do
    let cent ← monitorSegment start fin eps (Solve.answers results centResult).cent room.centMon
    let list ← sharePhase list
    some (Room.mk list cent)) = _
  rw [hcent']
  exact h

end Room
