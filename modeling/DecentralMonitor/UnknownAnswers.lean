/-
# A solver that may not know

`solveSMT` compares the answer of the solver with `sat`.  The solver of the other modules decides
every set of assertions; Z3 may also answer `unknown`, to the same assertions at one call and not
at the next, and then the verdict is `false`.

A `Check` is one call of such a solver: `sat` and `unsat` are right, and `unknown` is always
possible.  `main_unknown` follows the runs of `main` in which every call of every monitor is another
check (`CheckStep`).  Whether `main` has undefined behaviour does not depend on what the checks
know, and verdicts can get lost, but none is `true` without a sequence of cuts.
-/
import DecentralMonitor.RoomRuns

open TraceMonitor

/-! ## Checks -/

namespace Constraint

/-- `check_result` of Z3. -/
inductive CheckResult
  | unsat
  | sat
  | unknown
  deriving DecidableEq

/-- One call of a solver that may not know. -/
structure Check where
  answer : List Formula → CheckResult
  sat : ∀ {Γ}, answer Γ = .sat → Satisfiable Γ
  unsat : ∀ {Γ}, answer Γ = .unsat → ¬ Satisfiable Γ

namespace Check

/-- The check knows all answers. -/
def Decides (c : Check) : Prop := ∀ Γ, c.answer Γ ≠ .unknown

/-- The check of a solver that decides. -/
def ofSolver (z : Solver) : Check where
  answer := fun Γ => if z.check Γ = true then .sat else .unsat
  sat := by
    intro Γ h
    split at h
    case isTrue hsat => exact (z.check_eq_true_iff Γ).mp hsat
    case isFalse => exact absurd h (by decide)
  unsat := by
    intro Γ h
    split at h
    case isTrue => exact absurd h (by decide)
    case isFalse hunsat => exact fun hsat => hunsat ((z.check_eq_true_iff Γ).mpr hsat)

theorem decides_ofSolver (z : Solver) : (ofSolver z).Decides := by
  intro Γ h
  unfold ofSolver at h
  dsimp only at h
  split at h
  case isTrue => exact absurd h (by decide)
  case isFalse => exact absurd h (by decide)

/-- The check that never knows. -/
instance : Inhabited Check := ⟨⟨fun _ => .unknown, by simp, by simp⟩⟩

/-- The check gives the verdict `v` where `w` is right. -/
structure Gives (c : Check) (v w : Bool) : Prop where
  sound : v = true → w = true
  complete : c.Decides → w = true → v = true

theorem Gives.eq {c : Check} {v w : Bool} (h : c.Gives v w) (hc : c.Decides) : v = w :=
  Bool.eq_iff_iff.mpr ⟨h.sound, h.complete hc⟩

theorem gives_decide (c : Check) (z : Solver) (Γ : List Formula) :
    c.Gives (decide (c.answer Γ = .sat)) (z.check Γ) where
  sound := by
    intro h
    exact (z.check_eq_true_iff Γ).mpr (c.sat (of_decide_eq_true h))
  complete := by
    intro hc h
    have hsat : Satisfiable Γ := (z.check_eq_true_iff Γ).mp h
    rw [decide_eq_true_iff]
    cases hanswer : c.answer Γ with
    | unsat => exact absurd hsat (c.unsat hanswer)
    | sat => rfl
    | unknown => exact absurd hanswer (hc Γ)

end Check

end Constraint

open Constraint

namespace TraceMonitor

/-- `solveSMT(numFormula)`, where the solver may not know: `s.check() == sat`. -/
def checkSMT (c : Check) (m : TraceMonitor) : Option Bool := do
  if m.totNumEvents = 0 ∨ (maxProcess : ℤ) < m.numProcess then none
  else
    let pairs ← hbConstraints m.totNumEvents 0 m.hbSet
    some (decide (c.answer (cutConstraints m.totNumEvents ++ pairs) = .sat))

/-- The same monitors are answered, and what they are answered is right as far as the check
knows. -/
theorem checkSMT_rel (c : Check) (z : Solver) (m : TraceMonitor) :
    Option.Rel c.Gives (checkSMT c m) (solveSMT z m) := by
  unfold checkSMT solveSMT
  split
  · exact .none
  · cases hbConstraints m.totNumEvents 0 m.hbSet with
    | none => exact .none
    | some pairs => exact .some (c.gives_decide z _)

/-- Where the check answers, a solver that decides does. -/
theorem exists_solveSMT {c : Check} (z : Solver) {m : TraceMonitor} {v : Bool}
    (h : checkSMT c m = some v) : ∃ w, solveSMT z m = some w ∧ c.Gives v w := by
  have hrel := checkSMT_rel c z m
  rw [h] at hrel
  generalize solveSMT z m = y at hrel ⊢
  cases hrel with
  | some hgives => exact ⟨_, rfl, hgives⟩

/-- Where a solver that decides answers, the check does. -/
theorem exists_checkSMT (c : Check) {z : Solver} {m : TraceMonitor} {w : Bool}
    (h : solveSMT z m = some w) : ∃ v, checkSMT c m = some v := by
  have hrel := checkSMT_rel c z m
  rw [h] at hrel
  generalize checkSMT c m = x at hrel ⊢
  cases hrel with
  | some _ => exact ⟨_, rfl⟩

/-- With a solver that decides it is `solveSMT`. -/
theorem checkSMT_ofSolver (z : Solver) : checkSMT (.ofSolver z) = solveSMT z := by
  funext m
  have h := checkSMT_rel (.ofSolver z) z m
  generalize checkSMT (.ofSolver z) m = x at h ⊢
  generalize solveSMT z m = y at h ⊢
  cases h with
  | none => rfl
  | some h => rw [h.eq (Check.decides_ofSolver z)]

end TraceMonitor

namespace Room

variable {n : ℕ} {z : Solver}

/-! ## Runs with checks -/

/-- One call for each monitor. -/
structure Checks (n : ℕ) where
  pair : Fin n → Check
  cent : Check
  deriving Inhabited

/-- The solver of `checkSMT`. -/
def Solve.ofChecks (checks : Checks n) : Solve n where
  pair := fun k => checkSMT (checks.pair k)
  cent := checkSMT checks.cent

theorem Solve.ofChecks_ofSolver (z : Solver) :
    (Solve.ofChecks ⟨fun _ => .ofSolver z, .ofSolver z⟩ : Solve n) = .ofSolver z := by
  unfold Solve.ofChecks Solve.ofSolver
  simp only [checkSMT_ofSolver]

/-- One step of the loop over `eps`, with new checks in every segment. -/
inductive CheckStep : EpsState n → EpsState n → Prop
  | segment {st : EpsState n} {loop : LoopState n} (checks : Checks n) (hguard : LoopGuard st.loop)
      (hbody : loopBody mainSegLength st.eps (.ofChecks checks) st.loop = some loop) :
      CheckStep st ⟨st.eps, loop⟩
  | nextEps {st : EpsState n} (hend : ¬ LoopGuard st.loop) (heps : st.eps < mainMaxEps) :
      CheckStep st ⟨st.eps + 1, loopInit mainSegLength st.loop.room⟩

/-- The states of the runs on a room. -/
def RunsChecked (room : Room n) (st : EpsState n) : Prop :=
  Relation.ReflTransGen CheckStep (epsInit room) st

/-- No state of a run has undefined behaviour behind it or ahead, whatever the checks know. -/
structure WellDefinedChecked (room : Room n) : Prop where
  fits : ∀ st, RunsChecked room st → HbSafe st.loop.room
  goesOn : ∀ st, RunsChecked room st → LoopGuard st.loop → ∀ checks,
    ∃ loop, loopBody mainSegLength st.eps (.ofChecks checks) st.loop = some loop

section Steps

variable {room : Room n} {st st' : EpsState n}

theorem CheckStep.epsStep (h : CheckStep st st') : EpsStep st st' := by
  cases h with
  | segment checks hguard hbody => exact .segment _ hguard hbody
  | nextEps hend heps => exact .nextEps hend heps

theorem RunsChecked.reachable (h : RunsChecked room st) : Reachable room st :=
  Relation.ReflTransGen.mono (fun _ _ => CheckStep.epsStep) _ _ h

/-- A solver that decides is one of the solvers. -/
theorem SolverStep.checkStep (h : SolverStep z st st') : CheckStep st st' := by
  cases h with
  | segment hguard hbody =>
    rw [← Solve.ofChecks_ofSolver] at hbody
    exact .segment _ hguard hbody
  | nextEps hend heps => exact .nextEps hend heps

theorem Runs.runsChecked (h : Runs z room st) : RunsChecked room st :=
  Relation.ReflTransGen.mono (fun _ _ => SolverStep.checkStep) _ _ h

theorem WellDefinedChecked.wellDefined (h : WellDefinedChecked room) : WellDefined z room where
  fits := fun st hr => h.fits st hr.runsChecked
  goesOn := by
    rintro st hr ⟨hguard, hnone⟩
    obtain ⟨loop, hbody⟩ := h.goesOn st hr.runsChecked hguard ⟨fun _ => .ofSolver z, .ofSolver z⟩
    rw [Solve.ofChecks_ofSolver, hnone] at hbody
    simp at hbody

/-- Runs with checks come to their end. -/
theorem WellDefinedChecked.exists_atEnd (h : WellDefinedChecked room) (hr : RunsChecked room st) :
    ∃ st', Relation.ReflTransGen CheckStep st st' ∧ AtEnd st' := by
  refine Room.exists_atEnd CheckStep.epsStep fun st' hr' => ?_
  have hrun : RunsChecked room st' := hr.trans hr'
  by_cases hguard : LoopGuard st'.loop
  · obtain ⟨loop, hbody⟩ := h.goesOn st' hrun hguard default
    exact Or.inr ⟨_, .segment _ hguard hbody⟩
  · exact (atEnd_or_lt hrun.reachable.eps_le hguard).imp_right fun hlt => ⟨_, .nextEps hguard hlt⟩

end Steps

/-! ## What the checks answer -/

section Answers

variable {start fin eps : ℤ} {room : Room n} {checks : Checks n} {results : Fin n → Bool}
  {centResult : Bool}

/-- Where the checks answer, a solver that decides would have answered, too. -/
theorem Answers.of_checks (z : Solver)
    (ha : Answers (.ofChecks checks) start fin eps room results centResult) :
    ∃ right centRight, Answers (.ofSolver z) start fin eps room right centRight ∧
      (∀ k, (checks.pair k).Gives (results k) (right k)) ∧
        checks.cent.Gives centResult centRight := by
  have hpair : ∀ k, ∃ w, (∃ u, readSegTrace start fin eps (room.monitorList k) = some u ∧
      solveSMT z u = some w) ∧ (checks.pair k).Gives (results k) w := by
    intro k
    obtain ⟨u, hu, hv⟩ := ha.pair k
    obtain ⟨w, hw, h⟩ := exists_solveSMT z hv
    exact ⟨w, ⟨u, hu, hw⟩, h⟩
  choose right hright using hpair
  obtain ⟨u, hu, hv⟩ := ha.cent
  obtain ⟨w, hw, h⟩ := exists_solveSMT z hv
  exact ⟨right, w, ⟨fun k => (hright k).1, u, hu, hw⟩, fun k => (hright k).2, h⟩

/-- Where a solver that decides answers, checks do. -/
theorem Answers.exists_checks (ha : Answers (.ofSolver z) start fin eps room results centResult)
    (checks : Checks n) :
    ∃ given centGiven, Answers (.ofChecks checks) start fin eps room given centGiven := by
  have hpair : ∀ k, ∃ v u, readSegTrace start fin eps (room.monitorList k) = some u ∧
      checkSMT (checks.pair k) u = some v := by
    intro k
    obtain ⟨u, hu, hw⟩ := ha.pair k
    obtain ⟨v, hv⟩ := exists_checkSMT (checks.pair k) hw
    exact ⟨v, u, hu, hv⟩
  choose given hgiven using hpair
  obtain ⟨u, hu, hw⟩ := ha.cent
  obtain ⟨v, hv⟩ := exists_checkSMT checks.cent hw
  exact ⟨given, v, hgiven, u, hu, hv⟩

end Answers

/-! ## Runs of a loaded room -/

variable {room₀ : Room n} {T : ℕ}

/-- Monitors that get through the run with a solver that decides get through it with checks. -/
theorem RunStart.wellDefinedChecked (h : RunStart room₀ T) (hfit : AllFitRun room₀ T) :
    WellDefinedChecked room₀ where
  fits := fun _ hr => h.hbSafe hfit hr.reachable
  goesOn := by
    intro st hr hguard checks
    obtain ⟨eps, s, hst⟩ := exists_runInvariant h hr.reachable
    have hs := (hst.guard_iff h).mp hguard
    obtain ⟨right, centRight, hright⟩ := hst.exists_answers (z := default) hfit hs
    obtain ⟨given, centGiven, hgiven⟩ := hright.exists_checks checks
    exact (exists_loopBody_iff hst.loop.ready).mpr ⟨given, centGiven, hgiven⟩

theorem JustLoaded.wellDefinedChecked_iff (h : JustLoaded room₀) :
    WellDefinedChecked room₀ ↔
      room₀.centMon.numEventAll 0 = 0 ∨ AllFitRun room₀ (room₀.centMon.numEventAll 0) := by
  constructor
  · intro hw
    exact (h.runsOn (z := default)).wellDefined_iff.mp hw.wellDefined
  · rintro (hT | hfit)
    · refine ⟨fun st hr => ?_, fun st hr hguard => ?_⟩
      · rw [(not_loopGuard_of_zero hT hr.reachable).1]
        exact h.hbSafe
      · exact absurd hguard (not_loopGuard_of_zero hT hr.reachable).2
    · have hpair := fun k => (hfit.1 k).processes
      exact (h.runStart hpair hfit.2.processes).wellDefinedChecked hfit

/-- The runs of `main` on a loaded room with a solver that may not know, with `T` the number of
events of the first process of the centralised monitor.  They are well defined exactly when those
with a solver that decides are.  None is infinite, and each can be continued to its end.  In every
segment, the flag in the common table of the pairwise monitors and the verdict of the centralised
monitor are set only if there is a sequence of cuts, for one of the pairwise monitors or for the
centralised one; and a check that knows all answers does not miss it. -/
structure RunsUnknown (room : Room n) (T : ℕ) : Prop where
  wellDefined_iff : WellDefinedChecked room ↔ T = 0 ∨ AllFitRun room T
  finite : ∀ run : ℕ → EpsState n, ¬ ∀ i, CheckStep (run i) (run (i + 1))
  atEnd : WellDefinedChecked room → ∀ st, RunsChecked room st →
    ∃ st', Relation.ReflTransGen CheckStep st st' ∧ AtEnd st'
  verdicts : WellDefinedChecked room → ∀ st loop checks, RunsChecked room st →
    LoopGuard st.loop → loopBody mainSegLength st.eps (.ofChecks checks) st.loop = some loop →
    ∃ s < numSegments mainSegLength T, st.loop.fin = (s * mainSegLength : ℕ) ∧
    ∃ b v, (∀ k, (loop.room.monitorList k).toVerdictTable = mergedTable n b) ∧
      loop.room.centMon.toVerdictTable = ⟨[false], [v]⟩ ∧
      (b = true → ∃ k, Cuts (room.monitorList k) T st.eps s) ∧
      (∀ k, (checks.pair k).Decides → Cuts (room.monitorList k) T st.eps s → b = true) ∧
      (v = true → Cuts room.centMon T st.eps s) ∧
      (checks.cent.Decides → Cuts room.centMon T st.eps s → v = true)

theorem JustLoaded.runsUnknown (h : JustLoaded room₀) :
    RunsUnknown room₀ (room₀.centMon.numEventAll 0) where
  wellDefined_iff := h.wellDefinedChecked_iff
  finite := by
    intro run hrun
    have hchain := wellFounded_iff_isEmpty_descending_chain.mp (wellFounded_epsStep (n := n))
    exact hchain.false ⟨run, fun i => (hrun i).epsStep⟩
  atEnd := fun hw _ hr => hw.exists_atEnd hr
  verdicts := by
    intro hw st loop checks hr hguard hbody
    have hT : room₀.centMon.numEventAll 0 ≠ 0 :=
      fun hzero => (not_loopGuard_of_zero hzero hr.reachable).2 hguard
    have hstart := h.runStart_of_wellDefined (z := default) hw.wellDefined hT
    obtain ⟨eps, s, hst⟩ := exists_runInvariant hstart hr.reachable
    have hs := (hst.guard_iff hstart).mp hguard
    obtain rfl := hst.eps
    obtain ⟨results, centResult, hgiven, htables⟩ := hst.answers_of_loopBody hbody
    -- compare with what a solver that decides would have answered
    obtain ⟨right, centRight, hright, hpair, hcent⟩ := hgiven.of_checks default
    obtain ⟨hpairs, hcents⟩ := hst.answers_iff.mp hright
    refine ⟨s, hs, hst.loop.fin, _, _, htables.pair, htables.cent, ?_, ?_, ?_, ?_⟩
    · rw [decide_eq_true_iff]
      rintro ⟨k, hk⟩
      exact ⟨k, (hpairs k).verdict.mp ((hpair k).sound hk)⟩
    · intro k hc hcuts
      rw [decide_eq_true_iff]
      exact ⟨k, (hpair k).complete hc ((hpairs k).verdict.mpr hcuts)⟩
    · exact fun hv => hcents.verdict.mp (hcent.sound hv)
    · exact fun hc hcuts => hcent.complete hc (hcents.verdict.mpr hcuts)

/-- **A solver that may not know.**  For all counts of switches and lights, and all files, if the
room is loaded. -/
theorem main_unknown {path : String} {numSwitch numLight : ℕ} {files : String → List String}
    {room : Room (numSwitch * numLight)}
    (h : loadRoom path numSwitch numLight files = some room) :
    RunsUnknown room (room.centMon.numEventAll 0) :=
  (justLoaded_of_loadRoom h).runsUnknown

/-- The lounge gets through its run. -/
theorem main_unknown_lounge : ∃ room : Room (1 * 1),
    loadRoom "lounge" 1 1 loungeFiles = some room ∧ WellDefinedChecked room := by
  obtain ⟨room, hroom, hfit⟩ := allFitRun_lounge
  exact ⟨room, hroom, (main_unknown hroom).wellDefined_iff.mpr (Or.inr hfit)⟩

end Room
