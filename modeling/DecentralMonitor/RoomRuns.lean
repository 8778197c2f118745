/-
# The runs of `main` on any room

The monitors of a loaded room are fresh, whatever its files hold, and that is enough to follow the
run: before segment `s` of round `eps` every monitor holds its trace and the pairs of all windows
before (`RunInvariant`), and the answer it gets is about the events of the current window and all
pairs up to it (`Answer`).

`main_any_room` says when such a run is well defined, that it then comes to its end, and what every
verdict means.
-/
import DecentralMonitor.LoadedMonitors
import DecentralMonitor.MainRun
import DecentralMonitor.RunCapacity

open Constraint TraceMonitor

namespace Room

variable {n : ℕ} {z : Solver}

/-! ## The start of a run -/

/-- A loaded room whose monitors can take segments. -/
structure RunStart (room : Room n) (T : ℕ) : Prop extends RoomReady room where
  pairHb : ∀ k, (room.monitorList k).hbSet = []
  centHb : room.centMon.hbSet = []
  length : room.centMon.numEventAll 0 = T
  tables : TablesMerged room false false

theorem JustLoaded.runStart {room : Room n} (h : JustLoaded room)
    (hpair : ∀ k, (room.monitorList k).numProcess.toNat ≤ maxProcess)
    (hcent : room.centMon.numProcess.toNat ≤ maxProcess) :
    RunStart room (room.centMon.numEventAll 0) where
  ready := by
    refine ⟨fun k => (h.pair k).numMonitors, fun k => ?_⟩
    show (room.monitorList k).toVerdictTable.Sized n
    rw [(h.pair k).table]
    exact VerdictTable.sized_fresh n
  loaded := fun k => ⟨hpair k, fun i _ => (h.pair k).numEventAll i⟩
  centLoaded := ⟨hcent, fun i _ => h.cent.numEventAll i⟩
  centTable := by
    have hmods : room.centMon.verdictsMod = [false] :=
      congrArg VerdictTable.verdictsMod h.cent.table
    rw [hmods]
    exact Nat.one_pos
  pairHb := fun k => (h.pair k).hbSet
  centHb := h.cent.hbSet
  length := rfl
  tables := by
    refine ⟨fun k => ?_, h.cent.table⟩
    rw [(h.pair k).table, mergedTable_false]

/-! ## The invariant -/

/-- The state before segment `s` of round `e`. -/
structure RunInvariant (room₀ : Room n) (T e s : ℕ) (st : EpsState n) : Prop where
  eps : st.eps = e
  eps_le : e ≤ mainMaxEps
  loop : LoopInvariant mainSegLength e T room₀ s st.loop
  le : s ≤ numSegments mainSegLength T
  pairHb : ∀ k, (st.loop.room.monitorList k).hbSet = pairsBefore (room₀.monitorList k) T e s
  centHb : st.loop.room.centMon.hbSet = pairsBefore room₀.centMon T e s
  tables : ∃ b v, TablesMerged st.loop.room b v

variable {room₀ : Room n} {T eps s : ℕ} {st : EpsState n} {loop : LoopState n} {solve : Solve n}

theorem RunStart.runInvariant (h : RunStart room₀ T) :
    RunInvariant room₀ T 0 0 (epsInit room₀) where
  eps := rfl
  eps_le := Nat.zero_le _
  loop := ⟨by simp [epsInit, loopInit], h.toRoomReady, fun _ => ⟨rfl, rfl, rfl⟩, ⟨rfl, rfl, rfl⟩⟩
  le := Nat.zero_le _
  pairHb := h.pairHb
  centHb := h.centHb
  tables := ⟨false, false, h.tables⟩

theorem RunInvariant.guard_iff (h : RunStart room₀ T) (hst : RunInvariant room₀ T eps s st) :
    LoopGuard st.loop ↔ s < numSegments mainSegLength T :=
  hst.loop.guard_iff (by decide) h.length

/-- One segment more, with any answers. -/
theorem RunInvariant.segment (hst : RunInvariant room₀ T eps s st)
    (hs : s < numSegments mainSegLength T)
    (hbody : loopBody mainSegLength st.eps solve st.loop = some loop) :
    RunInvariant room₀ T eps (s + 1) ⟨st.eps, loop⟩ := by
  have hbody' : loopBody mainSegLength eps solve st.loop = some loop := by
    rw [← hst.eps]
    exact hbody
  obtain ⟨hloop, results, hdone⟩ := hst.loop.of_loopBody hbody'
  refine ⟨hst.eps, hst.eps_le, hloop, hs, fun k => ?_, ?_, ?_⟩
  · rw [(hdone.pair k).hbSet, hst.pairHb k, (hst.loop.pair k).segPairs_eq, pairsBefore_succ]
    rfl
  · rw [hdone.cent.hbSet, hst.centHb, hst.loop.cent.segPairs_eq, pairsBefore_succ]
    rfl
  · obtain ⟨b, v, htables⟩ := hst.tables
    obtain ⟨room, hroom, hloop⟩ := Option.bind_eq_some_iff.mp hbody
    obtain rfl := Option.some.inj hloop
    obtain ⟨results, centResult, hanswers⟩ := exists_answers hroom
    exact ⟨_, _, htables.of_segment hst.loop.ready hanswers⟩

/-- The next value of `eps`. -/
theorem RunInvariant.nextEps (hst : RunInvariant room₀ T eps (numSegments mainSegLength T) st)
    (heps : eps < mainMaxEps) :
    RunInvariant room₀ T (eps + 1) 0 ⟨st.eps + 1, loopInit mainSegLength st.loop.room⟩ where
  eps := by rw [hst.eps]
  eps_le := heps
  loop := ⟨by simp [loopInit], hst.loop.ready, hst.loop.pair, hst.loop.cent⟩
  le := Nat.zero_le _
  pairHb := by
    intro k
    rw [pairsBefore_round]
    exact hst.pairHb k
  centHb := by
    rw [pairsBefore_round]
    exact hst.centHb
  tables := hst.tables

/-- A round that has ended has had all its segments. -/
theorem RunInvariant.eq_of_not_guard (h : RunStart room₀ T) (hst : RunInvariant room₀ T eps s st)
    (hend : ¬ LoopGuard st.loop) : s = numSegments mainSegLength T := by
  have hle := hst.le
  have hge := mt (hst.guard_iff h).mpr hend
  omega

/-- **Every state of a run** is the state before some segment of some round, whatever the monitors
have been answered. -/
theorem exists_runInvariant (h : RunStart room₀ T) (hr : Reachable room₀ st) :
    ∃ eps s, RunInvariant room₀ T eps s st := by
  unfold Reachable at hr
  induction hr with
  | refl => exact ⟨0, 0, h.runInvariant⟩
  | tail _ hstep ih =>
    obtain ⟨eps, s, hst⟩ := ih
    cases hstep with
    | segment _ hguard hbody =>
      exact ⟨eps, s + 1, hst.segment ((hst.guard_iff h).mp hguard) hbody⟩
    | nextEps hend heps =>
      obtain rfl := hst.eq_of_not_guard h hend
      rw [hst.eps] at heps
      exact ⟨eps + 1, 0, hst.nextEps heps⟩

/-- **Every segment is reached** by a run that does not get stuck. -/
theorem exists_runs_before (h : RunStart room₀ T) (hgo : ∀ st, Runs z room₀ st → ¬ Stuck z st)
    (heps : eps ≤ mainMaxEps) : ∀ s ≤ numSegments mainSegLength T,
      ∃ st, Runs z room₀ st ∧ RunInvariant room₀ T eps s st := by
  have hround : ∀ eps, (∃ st, Runs z room₀ st ∧ RunInvariant room₀ T eps 0 st) →
      ∀ s ≤ numSegments mainSegLength T,
        ∃ st, Runs z room₀ st ∧ RunInvariant room₀ T eps s st := by
    intro eps h0 s
    induction s with
    | zero => exact fun _ => h0
    | succ s ih =>
      intro hs
      obtain ⟨st, hr, hst⟩ := ih (by omega)
      have hguard : LoopGuard st.loop := (hst.guard_iff h).mpr hs
      obtain ⟨loop, hbody⟩ := exists_loopBody hgo hr hguard
      exact ⟨⟨st.eps, loop⟩, hr.tail (.segment hguard hbody), hst.segment hs hbody⟩
  induction eps with
  | zero => exact hround 0 ⟨_, .refl, h.runInvariant⟩
  | succ eps ih =>
    apply hround
    obtain ⟨st, hr, hst⟩ := ih (by omega) (numSegments mainSegLength T) le_rfl
    refine ⟨_, hr.tail (.nextEps ?_ ?_), hst.nextEps heps⟩
    · rw [hst.guard_iff h]
      omega
    · rw [hst.eps]
      exact heps

/-! ## The answers -/

/-- There is a sequence of cuts for the events of the window and all pairs up to it. -/
def Cuts (m : TraceMonitor) (T eps s : ℕ) : Prop :=
  HasCuts (windowEvents m eps s) (pairsBefore m T eps (s + 1))

/-- What the monitor is answered in segment `s` of round `eps`. -/
structure Answer (m : TraceMonitor) (T eps s : ℕ) (v : Bool) : Prop where
  events : 1 ≤ windowEvents m eps s
  masks : HaveMasks (pairsBefore m T eps (s + 1))
  verdict : v = true ↔ Cuts m T eps s

/-- What a monitor is asked about after a call of `readSegTrace`: the events of the window, and the
pairs it had together with those of the window. -/
theorem readCall_asked {m₀ m : TraceMonitor} (hsame : SameTrace m₀ m) (hl : m.Loaded)
    (c : SegCall) : ∃ u, readCall m c = some u ∧ u.numProcess ≤ maxProcess ∧
      u.totNumEvents = callEvents m₀ c ∧ u.hbSet = m.hbSet ++ callPairs m₀ c := by
  obtain ⟨u, hu, hseg⟩ := readSegTrace_spec hl c.start c.fin c.eps
  refine ⟨u, hu, ?_, ?_, ?_⟩
  · have hfit := hl.numProcess
    rw [hseg.frame]
    show m.numProcess ≤ maxProcess
    omega
  · rw [hseg.totNumEvents]
    unfold callEvents segOffset segLen
    rw [hsame.numProcess, hsame.numEventAll]
  · rw [hseg.hbSet, hsame.segPairs_eq]
    rfl

/-- The monitor reads this window, and the solver has an answer. -/
def Answered (z : Solver) (start fin eps : ℤ) (m : TraceMonitor) : Prop :=
  ∃ v u, readSegTrace start fin eps m = some u ∧ solveSMT z u = some v

/-- **When a monitor is answered.** -/
theorem answered_iff (z : Solver) {m₀ m : TraceMonitor} (hsame : SameTrace m₀ m) (hl : m.Loaded)
    (c : SegCall) : Answered z c.start c.fin c.eps m ↔
      1 ≤ callEvents m₀ c ∧ HaveMasks (m.hbSet ++ callPairs m₀ c) := by
  obtain ⟨u, hu, hproc, htot, hpairs⟩ := readCall_asked hsame hl c
  rw [← hpairs, ← htot, ← exists_solveSMT_iff z hproc]
  constructor
  · rintro ⟨v, u', hu', hv⟩
    obtain rfl : u' = u := Option.some.inj (hu'.symm.trans hu)
    exact ⟨v, hv⟩
  · rintro ⟨v, hv⟩
    exact ⟨v, u, hu, hv⟩

/-- **When an iteration gets through.** -/
theorem exists_loopBody_ofSolver_iff {segLength eps : ℤ} (h : RoomReady loop.room) :
    (∃ loop', loopBody segLength eps (.ofSolver z) loop = some loop') ↔
      (∀ k, Answered z loop.fin (loop.fin + segLength) eps (loop.room.monitorList k)) ∧
        Answered z loop.fin (loop.fin + segLength) eps loop.room.centMon := by
  rw [exists_loopBody_iff h]
  constructor
  · rintro ⟨results, centResult, hpair, hcent⟩
    exact ⟨fun k => ⟨results k, hpair k⟩, centResult, hcent⟩
  · rintro ⟨hpair, centResult, hcent⟩
    choose results hresults using hpair
    exact ⟨results, centResult, hresults, hcent⟩

/-- A monitor that has come so far is given this answer. -/
theorem solveSMT_iff_answer (z : Solver) {m₀ m : TraceMonitor} (hsame : SameTrace m₀ m)
    (hl : m.Loaded) (hhb : m.hbSet = pairsBefore m₀ T eps s) :
    ∃ u, readSegTrace (s * mainSegLength : ℕ) ((s + 1) * mainSegLength : ℕ) eps m = some u ∧
      ∀ v, solveSMT z u = some v ↔ Answer m₀ T eps s v := by
  obtain ⟨u, hu, hproc, htot, hpairs⟩ := readCall_asked hsame hl
    ⟨(s * mainSegLength : ℕ), ((s + 1) * mainSegLength : ℕ), eps⟩
  have hpairs' : u.hbSet = pairsBefore m₀ T eps (s + 1) := by
    rw [hpairs, hhb, pairsBefore_succ]
    rfl
  have htot' : u.totNumEvents = windowEvents m₀ eps s := htot
  refine ⟨u, hu, fun v => ?_⟩
  rw [solveSMT_eq_some_iff z hproc, htot', hpairs']
  · exact ⟨fun ⟨hevents, hmasks, hv⟩ => ⟨hevents, hmasks, hv⟩,
      fun h => ⟨h.events, h.masks, h.verdict⟩⟩
  · intro p hp
    rw [hpairs'] at hp
    obtain ⟨e, s', -, hp⟩ := exists_of_mem_pairsBefore hp
    obtain ⟨hfirst, hsecond⟩ := id_mem_of_mem_windowPairs hp
    exact ⟨hfirst.1, hsecond.1⟩

/-- The answers of the solver in a run. -/
theorem RunInvariant.answers_iff (hst : RunInvariant room₀ T eps s st) {results : Fin n → Bool}
    {centResult : Bool} :
    Answers (.ofSolver z) st.loop.fin (st.loop.fin + mainSegLength) st.eps st.loop.room results
        centResult ↔
      (∀ k, Answer (room₀.monitorList k) T eps s (results k)) ∧
        Answer room₀.centMon T eps s centResult := by
  have hpair := fun k => solveSMT_iff_answer z (hst.loop.pair k) (hst.loop.ready.loaded k)
    (hst.pairHb k)
  obtain ⟨c, hc, hcent⟩ :=
    solveSMT_iff_answer z hst.loop.cent hst.loop.ready.centLoaded hst.centHb
  rw [hst.loop.fin_add, hst.loop.fin, hst.eps]
  constructor
  · intro h
    refine ⟨fun k => ?_, ?_⟩
    · obtain ⟨u, hu, hanswer⟩ := hpair k
      obtain ⟨u', hu', hv⟩ := h.pair k
      obtain rfl : u' = u := Option.some.inj (hu'.symm.trans hu)
      exact (hanswer _).mp hv
    · obtain ⟨c', hc', hv⟩ := h.cent
      obtain rfl : c' = c := Option.some.inj (hc'.symm.trans hc)
      exact (hcent _).mp hv
  · rintro ⟨hpairs, hcents⟩
    refine ⟨fun k => ?_, c, hc, (hcent _).mpr hcents⟩
    obtain ⟨u, hu, hanswer⟩ := hpair k
    exact ⟨u, hu, (hanswer _).mpr (hpairs k)⟩

/-- An iteration has got its answers, and merged them. -/
theorem RunInvariant.answers_of_loopBody (hst : RunInvariant room₀ T eps s st)
    (hbody : loopBody mainSegLength st.eps solve st.loop = some loop) :
    ∃ (results : Fin n → Bool) (centResult : Bool),
      Answers solve st.loop.fin (st.loop.fin + mainSegLength) st.eps st.loop.room results
        centResult ∧
      TablesMerged loop.room (decide (∃ k, results k = true)) centResult := by
  obtain ⟨room, hroom, hloop⟩ := Option.bind_eq_some_iff.mp hbody
  obtain rfl := Option.some.inj hloop
  obtain ⟨results, centResult, ha⟩ := exists_answers_of_segment hroom
  obtain ⟨b, v, htables⟩ := hst.tables
  rw [segment_of_answers hst.loop.ready ha] at hroom
  exact ⟨results, centResult, ha, htables.of_segment hst.loop.ready hroom⟩

/-- **What an iteration computes.** -/
theorem RunInvariant.of_loopBody (hst : RunInvariant room₀ T eps s st)
    (hbody : loopBody mainSegLength st.eps (.ofSolver z) st.loop = some loop) :
    ∃ (results : Fin n → Bool) (centResult : Bool),
      (∀ k, Answer (room₀.monitorList k) T eps s (results k)) ∧
      Answer room₀.centMon T eps s centResult ∧
      TablesMerged loop.room (decide (∃ k, results k = true)) centResult := by
  obtain ⟨results, centResult, ha, htables⟩ := hst.answers_of_loopBody hbody
  obtain ⟨hpair, hcent⟩ := hst.answers_iff.mp ha
  exact ⟨results, centResult, hpair, hcent, htables⟩

/-- A monitor that fits the run is always answered. -/
theorem FitsRun.exists_answer {m : TraceMonitor} (h : FitsRun m T) (heps : eps ≤ mainMaxEps)
    (hs : s < numSegments mainSegLength T) : ∃ v, Answer m T eps s v := by
  classical
  exact ⟨decide (Cuts m T eps s), h.reachesEnd.one_le_windowEvents hs,
    haveMasks_pairsBefore ((length_pairsBefore_le m heps hs).trans h.pairs) heps hs,
    decide_eq_true_iff⟩

/-! ## Which runs are well defined -/

/-- All monitors get through the run. -/
def AllFitRun (room : Room n) (T : ℕ) : Prop :=
  (∀ k, FitsRun (room.monitorList k) T) ∧ FitsRun room.centMon T

instance (room : Room n) (T : ℕ) : Decidable (AllFitRun room T) :=
  inferInstanceAs (Decidable (_ ∧ _))

/-- Then no write passes the end of an `hbSet`, whatever the monitors are answered. -/
theorem RunStart.hbSafe (h : RunStart room₀ T) (hfit : AllFitRun room₀ T)
    (hr : Reachable room₀ st) : HbSafe st.loop.room := by
  obtain ⟨eps, s, hst⟩ := exists_runInvariant h hr
  refine ⟨fun k => ?_, ?_⟩
  · unfold HbFits
    rw [hst.pairHb k]
    exact (length_pairsBefore_le _ hst.eps_le hst.le).trans (hfit.1 k).pairs
  · unfold HbFits
    rw [hst.centHb]
    exact (length_pairsBefore_le _ hst.eps_le hst.le).trans hfit.2.pairs

/-- And the solver has an answer for every monitor. -/
theorem RunInvariant.exists_answers (hst : RunInvariant room₀ T eps s st)
    (hfit : AllFitRun room₀ T) (hs : s < numSegments mainSegLength T) :
    ∃ results centResult, Answers (.ofSolver z) st.loop.fin (st.loop.fin + mainSegLength) st.eps
      st.loop.room results centResult := by
  have hpair := fun k => (hfit.1 k).exists_answer hst.eps_le hs
  choose results hresults using hpair
  obtain ⟨centResult, hcent⟩ := hfit.2.exists_answer hst.eps_le hs
  exact ⟨results, centResult, hst.answers_iff.mpr ⟨hresults, hcent⟩⟩

theorem RunStart.wellDefined (h : RunStart room₀ T) (hfit : AllFitRun room₀ T) :
    WellDefined z room₀ where
  fits := fun _ hr => h.hbSafe hfit hr.reachable
  goesOn := by
    rintro st hr ⟨hguard, hnone⟩
    obtain ⟨eps, s, hst⟩ := exists_runInvariant h hr.reachable
    have hs := (hst.guard_iff h).mp hguard
    obtain ⟨results, centResult, ha⟩ := hst.exists_answers (z := z) hfit hs
    obtain ⟨loop, hbody⟩ := (exists_loopBody_iff hst.loop.ready).mpr ⟨results, centResult, ha⟩
    rw [hbody] at hnone
    simp at hnone

theorem RunStart.allFitRun (h : RunStart room₀ T) (hT : T ≠ 0) (hw : WellDefined z room₀) :
    AllFitRun room₀ T := by
  -- no window of the first round is empty
  have hevents : ∀ s < numSegments mainSegLength T,
      (∀ k, 1 ≤ windowEvents (room₀.monitorList k) 0 s) ∧ 1 ≤ windowEvents room₀.centMon 0 s := by
    intro s hs
    obtain ⟨st, hr, hst⟩ := exists_runs_before h hw.goesOn (Nat.zero_le _) s hs.le
    obtain ⟨loop, hbody⟩ := exists_loopBody hw.goesOn hr ((hst.guard_iff h).mpr hs)
    obtain ⟨results, centResult, hpair, hcent, -⟩ := hst.of_loopBody hbody
    exact ⟨fun k => (hpair k).events, hcent.events⟩
  -- the pairs of the whole run are there at its end
  obtain ⟨st, hr, hst⟩ :=
    exists_runs_before h hw.goesOn (le_refl mainMaxEps) (numSegments mainSegLength T) le_rfl
  obtain ⟨hpairs, hcents⟩ := hw.fits st hr
  refine ⟨fun k => ⟨(h.loaded k).numProcess,
    reachesEnd_of_windowEvents hT fun s hs => (hevents s hs).1 k, ?_⟩,
    ⟨h.centLoaded.numProcess, reachesEnd_of_windowEvents hT fun s hs => (hevents s hs).2, ?_⟩⟩
  · rw [← length_pairsBefore_last, ← hst.pairHb k]
    exact hpairs k
  · rw [← length_pairsBefore_last, ← hst.centHb]
    exact hcents

/-- Without an event in the first process of the centralised monitor there is no segment. -/
theorem not_loopGuard_of_zero (hT : room₀.centMon.numEventAll 0 = 0) (hr : Reachable room₀ st) :
    st.loop.room = room₀ ∧ ¬ LoopGuard st.loop := by
  have hend : ¬ LoopGuard (loopInit mainSegLength room₀) := by
    show ¬ (0 : ℤ) < room₀.centMon.numEventAll 0
    omega
  unfold Reachable at hr
  induction hr with
  | refl => exact ⟨rfl, hend⟩
  | tail _ hstep ih =>
    cases hstep with
    | segment _ hguard _ => exact absurd hguard ih.2
    | nextEps _ _ =>
      rw [ih.1]
      exact ⟨rfl, hend⟩

/-- A room that has just been loaded has recorded nothing. -/
theorem JustLoaded.hbSafe (h : JustLoaded room₀) : HbSafe room₀ := by
  refine ⟨fun k => ?_, ?_⟩
  · unfold HbFits
    rw [(h.pair k).hbSet]
    exact Nat.zero_le _
  · unfold HbFits
    rw [h.cent.hbSet]
    exact Nat.zero_le _

theorem JustLoaded.wellDefined_of_zero (h : JustLoaded room₀)
    (hT : room₀.centMon.numEventAll 0 = 0) : WellDefined z room₀ where
  fits := by
    intro st hr
    rw [(not_loopGuard_of_zero hT hr.reachable).1]
    exact h.hbSafe
  goesOn := fun _ hr hstuck => (not_loopGuard_of_zero hT hr.reachable).2 hstuck.1

/-- The first segment already needs all processes to fit. -/
theorem numProcess_le_of_wellDefined (hw : WellDefined z room₀)
    (hT : room₀.centMon.numEventAll 0 ≠ 0) :
    (∀ k, (room₀.monitorList k).numProcess.toNat ≤ maxProcess) ∧
      room₀.centMon.numProcess.toNat ≤ maxProcess := by
  have hguard : LoopGuard (loopInit mainSegLength room₀) := by
    show (0 : ℤ) < room₀.centMon.numEventAll 0
    omega
  obtain ⟨loop, hbody⟩ := exists_loopBody hw.goesOn .refl hguard
  obtain ⟨room, hroom, -⟩ := Option.bind_eq_some_iff.mp hbody
  obtain ⟨results, centResult, ha⟩ := exists_answers_of_segment hroom
  refine ⟨fun k => ?_, ?_⟩
  · obtain ⟨u, hu, -⟩ := ha.pair k
    exact numProcess_le_of_readSegTrace hu
  · obtain ⟨u, hu, -⟩ := ha.cent
    exact numProcess_le_of_readSegTrace hu

/-- So the monitors can take segments. -/
theorem JustLoaded.runStart_of_wellDefined (h : JustLoaded room₀) (hw : WellDefined z room₀)
    (hT : room₀.centMon.numEventAll 0 ≠ 0) : RunStart room₀ (room₀.centMon.numEventAll 0) := by
  obtain ⟨hpair, hcent⟩ := numProcess_le_of_wellDefined hw hT
  exact h.runStart hpair hcent

/-- The run of `main` on a loaded room, with `T` the number of events of the first process of the
centralised monitor.  It is well defined exactly when `T` is zero or all monitors fit it.  Then it
comes to its end, and in every segment the verdict of a monitor says whether there is a sequence of
cuts for the events of its window and all the pairs that it has recorded up to there: the
centralised monitor stores its own, and the pairwise monitors all hold one table, whose only flag
says whether some pairwise monitor has got the answer `true`. -/
structure RunsOn (z : Solver) (room : Room n) (T : ℕ) : Prop where
  wellDefined_iff : WellDefined z room ↔ T = 0 ∨ AllFitRun room T
  atEnd : WellDefined z room → ∃ st, Runs z room st ∧ AtEnd st
  verdicts : WellDefined z room → ∀ st loop, Runs z room st → LoopGuard st.loop →
    loopBody mainSegLength st.eps (.ofSolver z) st.loop = some loop →
    ∃ s < numSegments mainSegLength T, st.loop.fin = (s * mainSegLength : ℕ) ∧
    ∃ b v, (∀ k, (loop.room.monitorList k).toVerdictTable = mergedTable n b) ∧
      loop.room.centMon.toVerdictTable = ⟨[false], [v]⟩ ∧
      (b = true ↔ ∃ k, Cuts (room.monitorList k) T st.eps s) ∧
      (v = true ↔ Cuts room.centMon T st.eps s)

theorem JustLoaded.runsOn (h : JustLoaded room₀) :
    RunsOn z room₀ (room₀.centMon.numEventAll 0) where
  wellDefined_iff := by
    by_cases hT : room₀.centMon.numEventAll 0 = 0
    · simp only [hT, true_or, iff_true]
      exact h.wellDefined_of_zero hT
    · rw [or_iff_right hT]
      constructor
      · exact fun hw => (h.runStart_of_wellDefined hw hT).allFitRun hT hw
      · intro hfit
        exact (h.runStart (fun k => (hfit.1 k).processes) hfit.2.processes).wellDefined hfit
  atEnd := fun hw => exists_runs_atEnd hw.goesOn
  verdicts := by
    intro hw st loop hr hguard hbody
    have hT : room₀.centMon.numEventAll 0 ≠ 0 :=
      fun hzero => (not_loopGuard_of_zero hzero hr.reachable).2 hguard
    have hstart := h.runStart_of_wellDefined hw hT
    obtain ⟨eps, s, hst⟩ := exists_runInvariant hstart hr.reachable
    have hs := (hst.guard_iff hstart).mp hguard
    obtain rfl := hst.eps
    obtain ⟨results, centResult, hpairs, hcents, htables⟩ := hst.of_loopBody hbody
    refine ⟨s, hs, hst.loop.fin, _, _, htables.pair, htables.cent, ?_, hcents.verdict⟩
    rw [decide_eq_true_iff]
    exact exists_congr fun k => (hpairs k).verdict

/-- **The runs of `main` on any room.**  For every solver, all counts of switches and lights, and
all files, if the room is loaded. -/
theorem main_any_room (z : Solver) {path : String} {numSwitch numLight : ℕ}
    {files : String → List String} {room : Room (numSwitch * numLight)}
    (h : loadRoom path numSwitch numLight files = some room) :
    RunsOn z room (room.centMon.numEventAll 0) :=
  (justLoaded_of_loadRoom h).runsOn

/-- The files of a lounge with a switch and a light, of which only the switch has logged
something. -/
def loungeFiles (name : String) : List String :=
  if name = "data/loungeswitch_1.txt" then ["loungeswitch_1", "0", "1"] else ["loungelight_1"]

/-- The lounge is loaded, and its monitors get through the run. -/
theorem allFitRun_lounge : ∃ room : Room (1 * 1), loadRoom "lounge" 1 1 loungeFiles = some room ∧
    AllFitRun room (room.centMon.numEventAll 0) := by
  have hfits : (loadRoom "lounge" 1 1 loungeFiles).any
      (fun room => decide (AllFitRun room (room.centMon.numEventAll 0))) = true := by
    decide +kernel
  obtain ⟨room, hroom, hfit⟩ := (Option.any_eq_true ..).mp hfits
  exact ⟨room, hroom, of_decide_eq_true hfit⟩

/-- The run on the lounge is well defined. -/
theorem main_any_room_lounge : ∃ room : Room (1 * 1),
    loadRoom "lounge" 1 1 loungeFiles = some room ∧ WellDefined default room := by
  obtain ⟨room, hroom, hfit⟩ := allFitRun_lounge
  exact ⟨room, hroom, (main_any_room default hroom).wellDefined_iff.mpr (Or.inr hfit)⟩

end Room
