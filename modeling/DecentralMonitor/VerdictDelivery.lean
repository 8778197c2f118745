/-
# Which verdicts the sharing phase delivers

Over a run of segments the sharing phase is to give every monitor the verdict of every
other monitor for the current segment (`VerdictsDelivered`).  It does so exactly when
all verdicts of the run are false (`verdictsDelivered_iff`): `main` stores the answer
of the solver in `verdicts_mod[0]` and nothing in `verdicts`, so the entries of
`verdicts` that the monitors hand on stay what `setValues` made them
(`runSegments_allFalse`).
-/
import DecentralMonitor.RoomSegment
import DecentralMonitor.TraceLoading

open FallibleLoop TableExchange TraceMonitor

namespace Room

variable {n : ℕ}

/-! ## Runs of segments -/

/-- A segment and what the solver answers in it. -/
structure SegmentInput (n : ℕ) where
  start : ℤ
  fin : ℤ
  eps : ℤ
  /-- The results `monitorList[i].solveSMT(0)`. -/
  results : Fin n → Bool
  centResult : Bool

/-- Handle one segment after another. -/
def runSegments (room : Room n) (segs : List (SegmentInput n)) : Option (Room n) :=
  segs.foldlM (fun room s => segment s.start s.fin s.eps (.answers s.results s.centResult) room)
    room

/-- The room as loading leaves it. -/
structure RoomFresh (room : Room n) : Prop extends RoomReady room where
  table : ∀ i, (room.monitorList i).toVerdictTable = VerdictTable.fresh n

/-- After every segment of the run every monitor has, for every monitor, its result of
that segment. -/
def VerdictsDelivered (room : Room n) (segs : List (SegmentInput n)) : Prop :=
  ∀ pre s post, segs = pre ++ s :: post →
    ∃ room', runSegments room (pre ++ [s]) = some room' ∧
      ∀ i j : Fin n, (room'.monitorList j).verdicts[(i : ℕ)]? = some (s.results i)

/-! ## The verdicts are never written -/

/-- The invariant of a run: every entry of every `verdicts` is false. -/
structure AllFalse (room : Room n) : Prop extends RoomReady room where
  verdicts : ∀ (j : Fin n) (c : ℕ), (room.monitorList j).verdicts[c]? = (List.replicate n false)[c]?

theorem RoomFresh.allFalse {room : Room n} (h : RoomFresh room) : AllFalse room where
  toRoomReady := h.toRoomReady
  verdicts := by
    intro j c
    show (room.monitorList j).toVerdictTable.verdicts[c]? = _
    rw [h.table j]
    rfl

/-- One segment keeps the invariant: storing an answer does not touch `verdicts`, and
sharing only copies entries. -/
theorem segment_allFalse {room : Room n} (h : AllFalse room) (s : SegmentInput n) :
    ∃ room', segment s.start s.fin s.eps (.answers s.results s.centResult) room = some room' ∧
      AllFalse room' := by
  obtain ⟨room', hroom', hready, hdone⟩ :=
    segment_spec h.toRoomReady s.start s.fin s.eps s.results s.centResult
  refine ⟨room', hroom', hready, ?_⟩
  exact hdone.exchange.forall_slot (P := fun c x => x.1 = (List.replicate n false)[c]?)
    fun k c => h.verdicts k c

/-- **Run lemma.** -/
theorem runSegments_allFalse {room : Room n} (h : AllFalse room) (segs : List (SegmentInput n)) :
    ∃ room', runSegments room segs = some room' ∧ AllFalse room' :=
  exists_foldlM (fun s _ _ hroom => segment_allFalse hroom s) h

theorem AllFalse.verdict {room : Room n} (h : AllFalse room) (i j : Fin n) :
    (room.monitorList j).verdicts[(i : ℕ)]? = some false := by
  rw [h.verdicts j i, List.getElem?_replicate, if_pos i.isLt]

/-! ## The kitchen -/

/-- A pairwise monitor of the kitchen, loaded from the file of `kitchenSwitch` and
`kitchenLight` as one of two monitors. -/
def kitchenMonitor : TraceMonitor :=
  withTrace (blank.setValues 0 ["data/kitchenswitch_1", "data/kitchenlight_1"] 2 "detailsDist.txt")
    ([kitchenSwitch, kitchenLight].map Device.values)

/-- A room of two such monitors. -/
def kitchenRoom : Room 2 where
  monitorList := fun _ => kitchenMonitor
  centMon := kitchenMonitor

theorem loaded_kitchenMonitor : kitchenMonitor.Loaded where
  numProcess := by decide
  numEventAll := by decide

theorem roomFresh_kitchenRoom : RoomFresh kitchenRoom where
  ready := ⟨fun _ => rfl, fun _ => VerdictTable.sized_fresh 2⟩
  loaded := fun _ => loaded_kitchenMonitor
  centLoaded := loaded_kitchenMonitor
  centTable := by decide
  table := fun _ => rfl

/-- One segment in which the solver answers `true` to both monitors. -/
def kitchenSegment : SegmentInput 2 := ⟨0, 4, 0, fun _ => true, true⟩

/-- The verdicts of that segment are not delivered. -/
theorem verdict_lost :
    RoomFresh kitchenRoom ∧ ¬ VerdictsDelivered kitchenRoom [kitchenSegment] := by
  refine ⟨roomFresh_kitchenRoom, fun h => ?_⟩
  obtain ⟨room', hroom', hdelivered⟩ := h [] kitchenSegment [] rfl
  obtain ⟨room'', hroom'', hfalse⟩ :=
    runSegments_allFalse roomFresh_kitchenRoom.allFalse [kitchenSegment]
  obtain rfl : room'' = room' := Option.some.inj (hroom''.symm.trans hroom')
  have htrue := hdelivered 0 0
  rw [hfalse.verdict 0 0] at htrue
  exact absurd htrue (by decide)

/-! ## Which runs deliver their verdicts -/

/-- **Which verdicts the exchange delivers.**  For every number of monitors, every run of
segments and all answers of the solver: the verdicts are delivered exactly when all of
them are false. -/
theorem verdictsDelivered_iff {room : Room n} (h : RoomFresh room)
    (segs : List (SegmentInput n)) :
    VerdictsDelivered room segs ↔ ∀ s ∈ segs, ∀ i, s.results i = false := by
  constructor
  · intro hdelivered s hs i
    obtain ⟨pre, post, hsegs⟩ := List.append_of_mem hs
    obtain ⟨room', hroom', hverdict⟩ := hdelivered pre s post hsegs
    -- what is delivered is false, so the result must be
    obtain ⟨room'', hroom'', hfalse⟩ := runSegments_allFalse h.allFalse (pre ++ [s])
    obtain rfl : room'' = room' := Option.some.inj (hroom''.symm.trans hroom')
    have hres := hverdict i i
    rw [hfalse.verdict i i] at hres
    exact (Option.some.inj hres).symm
  · intro hresults pre s post hsegs
    obtain ⟨room', hroom', hfalse⟩ := runSegments_allFalse h.allFalse (pre ++ [s])
    refine ⟨room', hroom', fun i j => ?_⟩
    have hs : s ∈ segs := by
      rw [hsegs]
      exact List.mem_append_right pre List.mem_cons_self
    rw [hfalse.verdict i j, hresults s hs i]

/-- The kitchen's segment again. -/
theorem verdictsDelivered_kitchen :
    ¬ VerdictsDelivered kitchenRoom [kitchenSegment] := by
  rw [verdictsDelivered_iff roomFresh_kitchenRoom]
  intro h
  exact absurd (h kitchenSegment List.mem_cons_self 0) (by decide)

end Room
