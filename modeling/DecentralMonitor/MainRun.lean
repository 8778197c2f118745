/-
# The runs of `main` with the solver

A run of the loops over `eps` and over the segments in which the verdicts are those of `solveSMT`
(`Runs`) can go wrong in two ways: a write passes the end of an `hbSet`, or the next iteration has
undefined behaviour or throws on the way to a verdict (`Stuck`).  `WellDefined` says that it never
does.

A segment with the solver is one with the answers that the solver gives to the monitors
(`segment_of_answers`, `exists_answers_of_segment`), so that what is known about segments with given
answers can be used for it.  No run is infinite, whatever the answers (`wellFounded_epsStep`), and
one that never gets stuck comes to its end (`exists_runs_atEnd`).
-/
import Mathlib.Data.Prod.Lex
import DecentralMonitor.EpsLoop
import DecentralMonitor.VerdictMerge

open CarryWalk Constraint FallibleLoop TraceMonitor

namespace TraceMonitor

/-- Whatever a monitor holds, taking a segment leaves the lengths of the traces. -/
theorem readSegTrace_numEventAll {start fin eps : ℤ} {m m' : TraceMonitor}
    (h : readSegTrace start fin eps m = some m') : m'.numEventAll = m.numEventAll := by
  obtain ⟨u, hu, hrest⟩ := Option.bind_eq_some_iff.mp h
  obtain ⟨hb, -, hm'⟩ := Option.bind_eq_some_iff.mp hrest
  obtain rfl := Option.some.inj hm'
  obtain ⟨⟨w, num⟩, hw, hwu⟩ := Option.bind_eq_some_iff.mp hu
  obtain rfl : w = u := Option.some.inj hwu
  refine of_foldlM_eq_some (P := fun st => st.1.numEventAll = m.numEventAll) ?_ rfl hw
  intro i _ st st' hst hprocess
  unfold copyProcess at hprocess
  split at hprocess
  case isTrue hi =>
    refine of_foldlM_eq_some (P := fun st => st.1.numEventAll = m.numEventAll) ?_ hst hprocess
    rintro j _ ⟨w, num⟩ st' hst hevent
    unfold copyEvent at hevent
    dsimp only at hevent
    split at hevent
    case isTrue hj =>
      obtain rfl := Option.some.inj hevent
      exact hst
    case isFalse hj => exact absurd hevent (by simp)
  case isFalse hi => exact absurd hprocess (by simp)

/-- A segment is taken only if its processes fit the arrays. -/
theorem numProcess_le_of_readSegTrace {start fin eps : ℤ} {m m' : TraceMonitor}
    (h : readSegTrace start fin eps m = some m') : m.numProcess.toNat ≤ maxProcess := by
  obtain ⟨u, hu, -⟩ := Option.bind_eq_some_iff.mp h
  obtain ⟨st, hst, -⟩ := Option.bind_eq_some_iff.mp hu
  by_contra hmany
  obtain ⟨st, st', hprocess⟩ :=
    exists_step_of_mem hst (List.mem_range.mpr (Nat.lt_of_not_le hmany))
  unfold copyProcess at hprocess
  rw [if_neg (Nat.lt_irrefl maxProcess)] at hprocess
  simp at hprocess

end TraceMonitor

namespace Room

variable {n : ℕ} {z : Solver}

/-! ## Runs with the solver -/

/-- One step of the loop over `eps` in which the verdicts are those of `solveSMT`. -/
inductive SolverStep (z : Solver) : EpsState n → EpsState n → Prop
  | segment {st : EpsState n} {loop : LoopState n} (hguard : LoopGuard st.loop)
      (hbody : loopBody mainSegLength st.eps (.ofSolver z) st.loop = some loop) :
      SolverStep z st ⟨st.eps, loop⟩
  | nextEps {st : EpsState n} (hend : ¬ LoopGuard st.loop) (heps : st.eps < mainMaxEps) :
      SolverStep z st ⟨st.eps + 1, loopInit mainSegLength st.loop.room⟩

theorem SolverStep.epsStep {st st' : EpsState n} (h : SolverStep z st st') : EpsStep st st' := by
  cases h with
  | segment hguard hbody => exact .segment _ hguard hbody
  | nextEps hend heps => exact .nextEps hend heps

/-- The states of the run on a room. -/
def Runs (z : Solver) (room : Room n) (st : EpsState n) : Prop :=
  Relation.ReflTransGen (SolverStep z) (epsInit room) st

theorem Runs.reachable {room : Room n} {st : EpsState n} (h : Runs z room st) :
    Reachable room st :=
  Relation.ReflTransGen.mono (fun _ _ => SolverStep.epsStep) _ _ h

/-- There is another segment, and its iteration has undefined behaviour or throws. -/
def Stuck (z : Solver) (st : EpsState n) : Prop :=
  LoopGuard st.loop ∧ loopBody mainSegLength st.eps (.ofSolver z) st.loop = none

/-- No state of the run has undefined behaviour behind it or ahead. -/
structure WellDefined (z : Solver) (room : Room n) : Prop where
  fits : ∀ st, Runs z room st → HbSafe st.loop.room
  goesOn : ∀ st, Runs z room st → ¬ Stuck z st

/-- All segments of all rounds are done. -/
def AtEnd (st : EpsState n) : Prop := st.eps = mainMaxEps ∧ ¬ LoopGuard st.loop

/-! ## A segment with the solver -/

section Segment

variable {start fin eps : ℤ} {solve : Solve n}

/-- What the solver answers to the monitors of the room in this segment. -/
structure Answers (solve : Solve n) (start fin eps : ℤ) (room : Room n) (results : Fin n → Bool)
    (centResult : Bool) : Prop where
  pair : ∀ k, ∃ u, readSegTrace start fin eps (room.monitorList k) = some u ∧
    solve.pair k u = some (results k)
  cent : ∃ u, readSegTrace start fin eps room.centMon = some u ∧ solve.cent u = some centResult

/-- A monitor reads its segment, asks, and stores the answer. -/
theorem monitorSegment_inv {solve : TraceMonitor → Option Bool} {m m' : TraceMonitor}
    (h : monitorSegment start fin eps solve m = some m') :
    ∃ u v, readSegTrace start fin eps m = some u ∧ solve u = some v ∧
      storeVerdict u v = some m' := by
  obtain ⟨u, hu, h⟩ := Option.bind_eq_some_iff.mp h
  obtain ⟨v, hv, h⟩ := Option.bind_eq_some_iff.mp h
  exact ⟨u, v, hu, hv, h⟩

/-- A monitor that is given its answer does what it does with the solver. -/
theorem monitorSegment_of_answer {ask : TraceMonitor → Option Bool} {m u : TraceMonitor} {v : Bool}
    (hu : readSegTrace start fin eps m = some u) (hv : ask u = some v) :
    monitorSegment start fin eps ask m = monitorSegment start fin eps (fun _ => some v) m := by
  unfold monitorSegment
  rw [hu]
  show (do storeVerdict u (← ask u)) = storeVerdict u v
  rw [hv]
  rfl

/-- A segment with the solver is one with its answers. -/
theorem segment_of_answers {room : Room n} (h : RoomReady room) {results : Fin n → Bool}
    {centResult : Bool} (ha : Answers solve start fin eps room results centResult) :
    segment start fin eps solve room =
      segment start fin eps (.answers results centResult) room := by
  have hpair : ∀ k, monitorSegment start fin eps (solve.pair k) (room.monitorList k) =
      monitorSegment start fin eps (fun _ => some (results k)) (room.monitorList k) := by
    intro k
    obtain ⟨u, hu, hv⟩ := ha.pair k
    exact monitorSegment_of_answer hu hv
  have hspec : ∀ k, ∃ m', monitorSegment start fin eps (fun _ => some (results k))
      (room.monitorList k) = some m' := by
    intro k
    have hmod : 0 < (room.monitorList k).verdictsMod.length := by
      rw [(h.ready.sized k).verdictsMod]
      exact Nat.zero_lt_of_lt k.isLt
    obtain ⟨m', hm', -⟩ := monitorSegment_spec (h.loaded k) hmod start fin eps (results k)
    exact ⟨m', hm'⟩
  choose list hlist using hspec
  have hall : monitorAll start fin eps solve room.monitorList =
      monitorAll start fin eps (.answers results centResult) room.monitorList := by
    unfold monitorAll
    rw [foldlM_update_eq_some (f := fun k => monitorSegment start fin eps (solve.pair k))
        (List.nodup_finRange n) fun k _ => (hpair k).trans (hlist k),
      foldlM_update_eq_some (f := fun k => monitorSegment start fin eps
        ((Solve.answers results centResult).pair k)) (List.nodup_finRange n) fun k _ => hlist k]
  obtain ⟨u, hu, hv⟩ := ha.cent
  have hcent : monitorSegment start fin eps solve.cent room.centMon =
      monitorSegment start fin eps (Solve.answers results centResult).cent room.centMon :=
    monitorSegment_of_answer hu hv
  unfold segment
  rw [hall, hcent]

/-- A segment with the solver that does not fail has got all its answers. -/
theorem exists_answers_of_segment {room room' : Room n}
    (h : segment start fin eps solve room = some room') :
    ∃ results centResult, Answers solve start fin eps room results centResult := by
  obtain ⟨list, hlist, h⟩ := Option.bind_eq_some_iff.mp h
  obtain ⟨cent, hcent, -⟩ := Option.bind_eq_some_iff.mp h
  have hpair : ∀ k, ∃ v u, readSegTrace start fin eps (room.monitorList k) = some u ∧
      solve.pair k u = some v := by
    intro k
    have hk := of_foldlM_update_eq_some (List.nodup_finRange n) hlist k (List.mem_finRange k)
    obtain ⟨u, v, hu, hv, -⟩ := monitorSegment_inv hk
    exact ⟨v, u, hu, hv⟩
  choose results hresults using hpair
  obtain ⟨u, v, hu, hv, -⟩ := monitorSegment_inv hcent
  exact ⟨results, v, hresults, u, hu, hv⟩

/-- **When there is a next iteration.** -/
theorem exists_loopBody_iff {segLength eps : ℤ} {loop : LoopState n} (h : RoomReady loop.room) :
    (∃ loop', loopBody segLength eps solve loop = some loop') ↔ ∃ results centResult,
      Answers solve loop.fin (loop.fin + segLength) eps loop.room results centResult := by
  constructor
  · rintro ⟨loop', hbody⟩
    obtain ⟨room, hroom, -⟩ := Option.bind_eq_some_iff.mp hbody
    exact exists_answers_of_segment hroom
  · rintro ⟨results, centResult, ha⟩
    obtain ⟨room, hroom, -, -⟩ :=
      segment_spec h loop.fin (loop.fin + segLength) eps results centResult
    refine ⟨⟨room, loop.fin, loop.fin + segLength⟩, ?_⟩
    unfold loopBody
    dsimp only
    rw [segment_of_answers h ha, hroom]
    rfl

/-- The centralised monitor has stored its own answer. -/
theorem centTable_of_segment {room room' : Room n} (h : RoomReady room) {results : Fin n → Bool}
    {centResult : Bool}
    (hroom' : segment start fin eps (.answers results centResult) room = some room') :
    room'.centMon.toVerdictTable = stored room.centMon centResult := by
  obtain ⟨list, -, hrest⟩ := Option.bind_eq_some_iff.mp hroom'
  obtain ⟨cent, hcent, hrest⟩ := Option.bind_eq_some_iff.mp hrest
  obtain ⟨list', -, hrest⟩ := Option.bind_eq_some_iff.mp hrest
  obtain rfl := Option.some.inj hrest
  obtain ⟨m', hm', -, htable⟩ :=
    monitorSegment_spec h.centLoaded h.centTable start fin eps centResult
  obtain rfl : m' = cent := Option.some.inj (hm'.symm.trans hcent)
  exact htable

end Segment

/-! ## The tables during a run -/

/-- The table of the centralised monitor, which is alone in its system. -/
def centTable (v : Bool) : VerdictTable := ⟨[false], [v]⟩

/-- All pairwise monitors hold the same merged table, and the centralised one its last
answer. -/
structure TablesMerged (room : Room n) (b v : Bool) : Prop where
  pair : AllMerged room b
  cent : room.centMon.toVerdictTable = centTable v

theorem TablesMerged.of_segment {start fin eps : ℤ} {room room' : Room n} (h : RoomReady room)
    {b v : Bool} (ht : TablesMerged room b v) {results : Fin n → Bool} {centResult : Bool}
    (hroom' : segment start fin eps (.answers results centResult) room = some room') :
    TablesMerged room' (decide (∃ k, results k = true)) centResult := by
  obtain ⟨room'', hroom'', -, hdone⟩ := segment_spec h start fin eps results centResult
  obtain rfl : room'' = room' := Option.some.inj (hroom''.symm.trans hroom')
  refine ⟨hdone.allMerged h ht.pair, ?_⟩
  have hverdicts : room.centMon.verdicts = [false] := congrArg VerdictTable.verdicts ht.cent
  have hmods : room.centMon.verdictsMod = [v] := congrArg VerdictTable.verdictsMod ht.cent
  rw [centTable_of_segment h hroom', stored, hverdicts, hmods]
  rfl

/-! ## Runs come to their end -/

variable {room₀ : Room n} {st : EpsState n}

/-- An iteration takes `end` one segment on, and the length that it is compared with stays. -/
theorem loopBody_advances {segLength eps : ℤ} {solve : Solve n} {loop loop' : LoopState n}
    (hbody : loopBody segLength eps solve loop = some loop') :
    loop'.fin = loop.fin + segLength ∧
      loop'.room.centMon.numEventAll = loop.room.centMon.numEventAll := by
  obtain ⟨room, hroom, hloop⟩ := Option.bind_eq_some_iff.mp hbody
  obtain rfl := Option.some.inj hloop
  obtain ⟨list, -, hrest⟩ := Option.bind_eq_some_iff.mp hroom
  obtain ⟨cent, hcent, hrest⟩ := Option.bind_eq_some_iff.mp hrest
  obtain ⟨list', -, hrest⟩ := Option.bind_eq_some_iff.mp hrest
  obtain rfl := Option.some.inj hrest
  obtain ⟨u, v, hu, -, hstore⟩ := monitorSegment_inv hcent
  unfold storeVerdict at hstore
  split at hstore
  case isTrue hmod =>
    obtain rfl := Option.some.inj hstore
    exact ⟨rfl, (readSegTrace_numEventAll hu :)⟩
  case isFalse hmod => exact absurd hstore (by simp)

/-- What is left to do: the rounds, and the events of this round. -/
def stepsLeft (st : EpsState n) : ℕ ×ₗ ℕ :=
  toLex (mainMaxEps - st.eps, ((st.loop.room.centMon.numEventAll 0 : ℤ) - st.loop.fin).toNat)

theorem EpsStep.stepsLeft_lt {st' : EpsState n} (h : EpsStep st st') :
    stepsLeft st' < stepsLeft st := by
  unfold stepsLeft
  rw [Prod.Lex.toLex_lt_toLex]
  cases h with
  | segment solve hguard hbody =>
    obtain ⟨hfin, hlength⟩ := loopBody_advances hbody
    have hpos : (mainSegLength : ℤ) = 4 := rfl
    unfold LoopGuard at hguard
    refine Or.inr ⟨rfl, ?_⟩
    dsimp only
    rw [hlength, hfin]
    omega
  | nextEps hend heps =>
    refine Or.inl ?_
    dsimp only
    omega

/-- **No run is infinite**, whatever the monitors are answered. -/
theorem wellFounded_epsStep : WellFounded fun st' st : EpsState n => EpsStep st st' :=
  Subrelation.wf EpsStep.stepsLeft_lt (InvImage.wf stepsLeft wellFounded_lt)

theorem Reachable.eps_le (hr : Reachable room₀ st) : st.eps ≤ mainMaxEps := by
  unfold Reachable at hr
  induction hr with
  | refl => exact Nat.zero_le _
  | tail _ hstep ih =>
    cases hstep with
    | segment _ _ _ => exact ih
    | nextEps _ heps => exact heps

/-- A round that has ended is the last one, or there is a next value of `eps`. -/
theorem atEnd_or_lt (heps : st.eps ≤ mainMaxEps) (hend : ¬ LoopGuard st.loop) :
    AtEnd st ∨ st.eps < mainMaxEps := by
  rcases Nat.lt_or_eq_of_le heps with hlt | heq
  · exact Or.inr hlt
  · exact Or.inl ⟨heq, hend⟩

/-- A run that goes on up to its end comes to it. -/
theorem exists_atEnd {R : EpsState n → EpsState n → Prop}
    (hR : ∀ {st st'}, R st st' → EpsStep st st')
    (hgo : ∀ st', Relation.ReflTransGen R st st' → AtEnd st' ∨ ∃ u, R st' u) :
    ∃ st', Relation.ReflTransGen R st st' ∧ AtEnd st' := by
  induction st using wellFounded_epsStep.induction with
  | _ st ih =>
    rcases hgo st .refl with hend | ⟨u, hstep⟩
    · exact ⟨st, .refl, hend⟩
    · obtain ⟨st', hr, hend⟩ := ih u (hR hstep) fun w hw => hgo w (.head hstep hw)
      exact ⟨st', .head hstep hr, hend⟩

/-- Where a run does not get stuck there is a next iteration. -/
theorem exists_loopBody (hgo : ∀ st, Runs z room₀ st → ¬ Stuck z st)
    (hr : Runs z room₀ st) (hguard : LoopGuard st.loop) :
    ∃ loop, loopBody mainSegLength st.eps (.ofSolver z) st.loop = some loop := by
  rw [← Option.ne_none_iff_exists']
  exact fun hnone => hgo st hr ⟨hguard, hnone⟩

/-- A run that never gets stuck comes to its end. -/
theorem exists_runs_atEnd (hgo : ∀ st, Runs z room₀ st → ¬ Stuck z st) :
    ∃ st, Runs z room₀ st ∧ AtEnd st := by
  refine exists_atEnd SolverStep.epsStep fun st hr => ?_
  by_cases hguard : LoopGuard st.loop
  · obtain ⟨loop, hbody⟩ := exists_loopBody hgo hr hguard
    exact Or.inr ⟨_, .segment hguard hbody⟩
  · have heps : st.eps ≤ mainMaxEps := (Runs.reachable hr).eps_le
    exact (atEnd_or_lt heps hguard).imp_right fun hlt => ⟨_, .nextEps hguard hlt⟩

end Room
