/-
# Whether a write passes the end of `hbSet`

Every call of `readSegTrace` appends the pairs of its window to the `hbSet` of the monitor, which
has 50 rows and is never emptied.  Whether some write of a run of `main` passes the end depends on
how far the run comes: the monitors take turns, and a call is only made when all calls before it
have been followed by an answer of the solver.  As long as the pairs fit, their ids have masks
(`haveMasks_pairsBefore`), so an answer can only be missing where a window has no event.

`RunStart.writesInBounds_iff` is the condition that this comes to: every call before which no window is empty
has at most fifty pairs up to its own.  In aligned rooms no window is empty, and the condition is
that the room has `FewEvents`.
-/
import DecentralMonitor.AlignedRun

open Constraint TraceMonitor

namespace Room

variable {n : ℕ} {z : Solver} {room : Room n} {st : EpsState n} {T eps s : ℕ}

/-! ## The calls of a run -/

/-- No call of `readSegTrace` in this segment writes past the end of an `hbSet`.  A pairwise monitor
is called once those before it have been answered, the centralised one after all of them. -/
structure CallsInBounds (z : Solver) (start fin eps : ℤ) (room : Room n) : Prop where
  pair : ∀ k u, (∀ j < k, Answered z start fin eps (room.monitorList j)) →
    readSegTrace start fin eps (room.monitorList k) = some u → u.HbFits
  cent : ∀ u, (∀ j, Answered z start fin eps (room.monitorList j)) →
    readSegTrace start fin eps room.centMon = some u → u.HbFits

/-- No call in any segment of the run does. -/
def WritesInBounds (z : Solver) (room : Room n) : Prop :=
  ∀ st, Runs z room st → LoopGuard st.loop →
    CallsInBounds z st.loop.fin (st.loop.fin + mainSegLength) st.eps st.loop.room

/-! ## The condition -/

/-- All monitors have an event in segment `s` of round `eps`. -/
def AllSee (room : Room n) (eps s : ℕ) : Prop :=
  (∀ k, 1 ≤ windowEvents (room.monitorList k) eps s) ∧ 1 ≤ windowEvents room.centMon eps s

/-- And in all segments before it. -/
structure SeeUpTo (room : Room n) (T eps s : ℕ) : Prop where
  rounds : ∀ e < eps, ∀ s' < numSegments mainSegLength T, AllSee room e s'
  segments : ∀ s' < s, AllSee room eps s'

/-- Every call before which no window is empty has at most fifty pairs up to its own. -/
structure CallsFit (room : Room n) (T : ℕ) : Prop where
  pair : ∀ eps ≤ mainMaxEps, ∀ s < numSegments mainSegLength T, SeeUpTo room T eps s →
    ∀ k, (∀ j < k, 1 ≤ windowEvents (room.monitorList j) eps s) →
      countBefore (room.monitorList k) T eps (s + 1) ≤ 50
  cent : ∀ eps ≤ mainMaxEps, ∀ s < numSegments mainSegLength T, SeeUpTo room T eps s →
    (∀ j, 1 ≤ windowEvents (room.monitorList j) eps s) →
      countBefore room.centMon T eps (s + 1) ≤ 50

theorem SeeUpTo.succ (h : SeeUpTo room T eps s) (hs : AllSee room eps s) :
    SeeUpTo room T eps (s + 1) where
  rounds := h.rounds
  segments := by
    intro s' hs'
    rcases Nat.lt_succ_iff_lt_or_eq.mp hs' with hlt | rfl
    · exact h.segments s' hlt
    · exact hs

theorem SeeUpTo.nextRound (h : SeeUpTo room T eps (numSegments mainSegLength T)) :
    SeeUpTo room T (eps + 1) 0 where
  rounds := by
    intro e he
    rcases Nat.lt_succ_iff_lt_or_eq.mp he with hlt | rfl
    · exact h.rounds e hlt
    · exact h.segments
  segments := fun _ hs' => absurd hs' (Nat.not_lt_zero _)

/-! ## One call -/

/-- A monitor that has come so far: how many pairs it has after this call, and whether it is
answered. -/
theorem call_spec (z : Solver) {m₀ m : TraceMonitor} (hsame : SameTrace m₀ m) (hl : m.Loaded)
    (hhb : m.hbSet = pairsBefore m₀ T eps s) :
    (∃ u, readSegTrace (s * mainSegLength : ℕ) ((s + 1) * mainSegLength : ℕ) eps m = some u ∧
      (u.HbFits ↔ countBefore m₀ T eps (s + 1) ≤ 50)) ∧
    (Answered z (s * mainSegLength : ℕ) ((s + 1) * mainSegLength : ℕ) eps m ↔
      1 ≤ windowEvents m₀ eps s ∧ HaveMasks (pairsBefore m₀ T eps (s + 1))) := by
  have hpairs : m.hbSet ++ windowPairs m₀ eps s = pairsBefore m₀ T eps (s + 1) := by
    rw [hhb, pairsBefore_succ]
  constructor
  · obtain ⟨u, hu, -, -, hub⟩ := readCall_asked hsame hl
      ⟨(s * mainSegLength : ℕ), ((s + 1) * mainSegLength : ℕ), eps⟩
    refine ⟨u, hu, ?_⟩
    unfold HbFits
    rw [← length_pairsBefore, ← hpairs, hub]
    rfl
  · rw [← hpairs]
    exact answered_iff z hsame hl ⟨(s * mainSegLength : ℕ), ((s + 1) * mainSegLength : ℕ), eps⟩

/-- A call that is in bounds is followed by an answer if its window has an event. -/
theorem haveMasks_of_count {m : TraceMonitor} (hcount : countBefore m T eps (s + 1) ≤ 50)
    (heps : eps ≤ mainMaxEps) (hs : s < numSegments mainSegLength T) :
    HaveMasks (pairsBefore m T eps (s + 1)) := by
  rw [← length_pairsBefore] at hcount
  exact haveMasks_pairsBefore hcount heps hs

section Segment

variable {room₀ : Room n}

/-- Which monitors are answered in this segment. -/
theorem RunInvariant.answered_pair_iff (z : Solver) (hst : RunInvariant room₀ T eps s st)
    (k : Fin n) : Answered z st.loop.fin (st.loop.fin + mainSegLength) st.eps
      (st.loop.room.monitorList k) ↔ 1 ≤ windowEvents (room₀.monitorList k) eps s ∧
        HaveMasks (pairsBefore (room₀.monitorList k) T eps (s + 1)) := by
  rw [hst.loop.fin_add, hst.loop.fin, hst.eps]
  exact (call_spec z (hst.loop.pair k) (hst.loop.ready.loaded k) (hst.pairHb k)).2

theorem RunInvariant.answered_cent_iff (z : Solver) (hst : RunInvariant room₀ T eps s st) :
    Answered z st.loop.fin (st.loop.fin + mainSegLength) st.eps st.loop.room.centMon ↔
      1 ≤ windowEvents room₀.centMon eps s ∧
        HaveMasks (pairsBefore room₀.centMon T eps (s + 1)) := by
  rw [hst.loop.fin_add, hst.loop.fin, hst.eps]
  exact (call_spec z hst.loop.cent hst.loop.ready.centLoaded hst.centHb).2

/-- The calls of this segment, as a condition on the windows: if all pairs fit, they are in
bounds. -/
theorem RunInvariant.callsInBounds (hst : RunInvariant room₀ T eps s st)
    (hpair : ∀ k, (∀ j < k, 1 ≤ windowEvents (room₀.monitorList j) eps s) →
      countBefore (room₀.monitorList k) T eps (s + 1) ≤ 50)
    (hcent : (∀ j, 1 ≤ windowEvents (room₀.monitorList j) eps s) →
      countBefore room₀.centMon T eps (s + 1) ≤ 50) :
    CallsInBounds z st.loop.fin (st.loop.fin + mainSegLength) st.eps st.loop.room where
  pair := by
    intro k u hbefore hu
    obtain ⟨u', hu', hfits⟩ :=
      (call_spec z (hst.loop.pair k) (hst.loop.ready.loaded k) (hst.pairHb k)).1
    rw [← hst.loop.fin_add, ← hst.loop.fin, ← hst.eps] at hu'
    obtain rfl : u' = u := Option.some.inj (hu'.symm.trans hu)
    exact hfits.mpr (hpair k fun j hj => ((hst.answered_pair_iff z j).mp (hbefore j hj)).1)
  cent := by
    intro u hbefore hu
    obtain ⟨u', hu', hfits⟩ := (call_spec z hst.loop.cent hst.loop.ready.centLoaded hst.centHb).1
    rw [← hst.loop.fin_add, ← hst.loop.fin, ← hst.eps] at hu'
    obtain rfl : u' = u := Option.some.inj (hu'.symm.trans hu)
    exact hfits.mpr (hcent fun j => ((hst.answered_pair_iff z j).mp (hbefore j)).1)

/-- And conversely: monitor after monitor, a call in bounds has few enough pairs to be followed by
an answer. -/
theorem RunInvariant.count_le_pair (hst : RunInvariant room₀ T eps s st)
    (hs : s < numSegments mainSegLength T)
    (hcalls : CallsInBounds z st.loop.fin (st.loop.fin + mainSegLength) st.eps st.loop.room)
    (k : Fin n) (hsee : ∀ j < k, 1 ≤ windowEvents (room₀.monitorList j) eps s) :
    countBefore (room₀.monitorList k) T eps (s + 1) ≤ 50 := by
  induction k using WellFoundedLT.induction with
  | ind k ih =>
    have hbefore : ∀ j < k, Answered z st.loop.fin (st.loop.fin + mainSegLength) st.eps
        (st.loop.room.monitorList j) := by
      intro j hj
      have hcount := ih j hj fun i hi => hsee i (hi.trans hj)
      exact (hst.answered_pair_iff z j).mpr ⟨hsee j hj, haveMasks_of_count hcount hst.eps_le hs⟩
    obtain ⟨u, hu, hfits⟩ :=
      (call_spec z (hst.loop.pair k) (hst.loop.ready.loaded k) (hst.pairHb k)).1
    rw [← hst.loop.fin_add, ← hst.loop.fin, ← hst.eps] at hu
    exact hfits.mp (hcalls.pair k u hbefore hu)

theorem RunInvariant.count_le_cent (hst : RunInvariant room₀ T eps s st)
    (hs : s < numSegments mainSegLength T)
    (hcalls : CallsInBounds z st.loop.fin (st.loop.fin + mainSegLength) st.eps st.loop.room)
    (hsee : ∀ j, 1 ≤ windowEvents (room₀.monitorList j) eps s) :
    countBefore room₀.centMon T eps (s + 1) ≤ 50 := by
  have hbefore : ∀ j, Answered z st.loop.fin (st.loop.fin + mainSegLength) st.eps
      (st.loop.room.monitorList j) := by
    intro j
    have hcount := hst.count_le_pair hs hcalls j fun i _ => hsee i
    exact (hst.answered_pair_iff z j).mpr ⟨hsee j, haveMasks_of_count hcount hst.eps_le hs⟩
  obtain ⟨u, hu, hfits⟩ := (call_spec z hst.loop.cent hst.loop.ready.centLoaded hst.centHb).1
  rw [← hst.loop.fin_add, ← hst.loop.fin, ← hst.eps] at hu
  exact hfits.mp (hcalls.cent u hbefore hu)

/-- Where all calls of a segment are in bounds and no window is empty, the run goes on. -/
theorem RunInvariant.exists_next (hst : RunInvariant room₀ T eps s st)
    (hs : s < numSegments mainSegLength T)
    (hcalls : CallsInBounds z st.loop.fin (st.loop.fin + mainSegLength) st.eps st.loop.room)
    (hsee : AllSee room₀ eps s) :
    ∃ loop, loopBody mainSegLength st.eps (.ofSolver z) st.loop = some loop := by
  refine (exists_loopBody_ofSolver_iff hst.loop.ready).mpr ⟨fun k => ?_, ?_⟩
  · have hcount := hst.count_le_pair hs hcalls k fun j _ => hsee.1 j
    exact (hst.answered_pair_iff z k).mpr ⟨hsee.1 k, haveMasks_of_count hcount hst.eps_le hs⟩
  · have hcount := hst.count_le_cent hs hcalls hsee.1
    exact (hst.answered_cent_iff z).mpr ⟨hsee.2, haveMasks_of_count hcount hst.eps_le hs⟩

end Segment

/-! ## The whole run -/

/-- **How far a run comes.**  Every state of it is the state before a segment up to which no window
is empty. -/
theorem exists_seeUpTo (h : RunStart room T) (hr : Runs z room st) :
    ∃ eps s, RunInvariant room T eps s st ∧ SeeUpTo room T eps s := by
  unfold Runs at hr
  induction hr with
  | refl =>
    exact ⟨0, 0, h.runInvariant, fun _ he => absurd he (Nat.not_lt_zero _),
      fun _ hs => absurd hs (Nat.not_lt_zero _)⟩
  | tail _ hstep ih =>
    obtain ⟨eps, s, hst, hsee⟩ := ih
    cases hstep with
    | segment hguard hbody =>
      obtain ⟨hpair, hcent⟩ := (exists_loopBody_ofSolver_iff hst.loop.ready).mp ⟨_, hbody⟩
      exact ⟨eps, s + 1, hst.segment ((hst.guard_iff h).mp hguard) hbody, hsee.succ
        ⟨fun k => ((hst.answered_pair_iff z k).mp (hpair k)).1,
          ((hst.answered_cent_iff z).mp hcent).1⟩⟩
    | nextEps hend heps =>
      obtain rfl := hst.eq_of_not_guard h hend
      rw [hst.eps] at heps
      exact ⟨eps + 1, 0, hst.nextEps heps, hsee.nextRound⟩

/-- Conversely, a run whose calls are in bounds comes to every such segment. -/
theorem exists_runs_of_seeUpTo (h : RunStart room T) (hw : WritesInBounds z room)
    (heps : eps ≤ mainMaxEps) : ∀ s ≤ numSegments mainSegLength T, SeeUpTo room T eps s →
      ∃ st, Runs z room st ∧ RunInvariant room T eps s st := by
  have hround : ∀ eps,
      (SeeUpTo room T eps 0 → ∃ st, Runs z room st ∧ RunInvariant room T eps 0 st) →
      ∀ s ≤ numSegments mainSegLength T, SeeUpTo room T eps s →
        ∃ st, Runs z room st ∧ RunInvariant room T eps s st := by
    intro eps h0 s
    induction s with
    | zero => exact fun _ => h0
    | succ s ih =>
      intro hs hsee
      obtain ⟨st, hr, hst⟩ :=
        ih (by omega) ⟨hsee.rounds, fun s' hs' => hsee.segments s' (by omega)⟩
      have hguard : LoopGuard st.loop := (hst.guard_iff h).mpr hs
      obtain ⟨loop, hbody⟩ := hst.exists_next hs (hw st hr hguard) (hsee.segments s (by omega))
      exact ⟨⟨st.eps, loop⟩, hr.tail (.segment hguard hbody), hst.segment hs hbody⟩
  induction eps with
  | zero => exact hround 0 fun _ => ⟨_, .refl, h.runInvariant⟩
  | succ eps ih =>
    refine hround (eps + 1) fun hsee => ?_
    obtain ⟨st, hr, hst⟩ := ih (by omega) (numSegments mainSegLength T) le_rfl
      ⟨fun e he => hsee.rounds e (by omega), hsee.rounds eps (by omega)⟩
    refine ⟨_, hr.tail (.nextEps ?_ ?_), hst.nextEps heps⟩
    · rw [hst.guard_iff h]
      omega
    · rw [hst.eps]
      exact heps

/-- **When all writes are in bounds.** -/
theorem RunStart.writesInBounds_iff (h : RunStart room T) :
    WritesInBounds z room ↔ CallsFit room T := by
  constructor
  · intro hw
    have hcalls : ∀ eps ≤ mainMaxEps, ∀ s < numSegments mainSegLength T, SeeUpTo room T eps s →
        ∃ st, RunInvariant room T eps s st ∧
          CallsInBounds z st.loop.fin (st.loop.fin + mainSegLength) st.eps st.loop.room := by
      intro eps heps s hs hsee
      obtain ⟨st, hr, hst⟩ := exists_runs_of_seeUpTo h hw heps s hs.le hsee
      exact ⟨st, hst, hw st hr ((hst.guard_iff h).mpr hs)⟩
    refine ⟨fun eps heps s hs hsee => ?_, fun eps heps s hs hsee => ?_⟩
    · obtain ⟨st, hst, hbounds⟩ := hcalls eps heps s hs hsee
      exact hst.count_le_pair hs hbounds
    · obtain ⟨st, hst, hbounds⟩ := hcalls eps heps s hs hsee
      exact hst.count_le_cent hs hbounds
  · intro hfit st hr hguard
    obtain ⟨eps, s, hst, hsee⟩ := exists_seeUpTo h hr
    have hs := (hst.guard_iff h).mp hguard
    exact hst.callsInBounds (hfit.pair eps hst.eps_le s hs hsee)
      (hfit.cent eps hst.eps_le s hs hsee)

/-! ## Aligned rooms -/

/-- No window of an aligned trace is empty. -/
theorem one_le_windowEvents_aligned {P : ℕ} {m : TraceMonitor} (h : AlignedTrace P T m)
    (hP : 1 ≤ P) (hs : s < numSegments mainSegLength T) : 1 ≤ windowEvents m eps s := by
  rw [windowEvents_aligned h]
  exact Nat.mul_pos hP (one_le_windowWidth hs)

/-- So the condition is about the whole run. -/
theorem AlignedStart.callsFit_iff {P : ℕ} {room : Room n} (h : AlignedStart P T room) :
    CallsFit room T ↔ runPairCount room.centMon T ≤ 50 := by
  have hsee : ∀ e, ∀ s' < numSegments mainSegLength T, AllSee room e s' := fun e s' hs' =>
    ⟨fun k => one_le_windowEvents_aligned (h.pair k) le_rfl hs',
      one_le_windowEvents_aligned h.cent h.one_le hs'⟩
  constructor
  · intro hfit
    rw [← length_pairsBefore_last, length_pairsBefore]
    rcases Nat.eq_zero_or_pos (numSegments mainSegLength T) with hzero | hpos
    · -- no segment, no pairs
      unfold countBefore
      rw [hzero]
      simp
    · have hlast := hfit.cent mainMaxEps le_rfl (numSegments mainSegLength T - 1) (by omega)
        ⟨fun e _ => hsee e, fun s' hs' => hsee _ s' (by omega)⟩
        fun j => (hsee _ _ (by omega)).1 j
      rwa [Nat.sub_add_cancel hpos] at hlast
  · intro hrun
    refine ⟨fun eps _ s _ _ k _ => ?_, fun eps heps s hs _ _ => ?_⟩
    · rw [← length_pairsBefore, pairsBefore_aligned_eq_nil (h.pair k)]
      exact Nat.zero_le _
    · rw [← length_pairsBefore]
      exact (length_pairsBefore_le room.centMon heps hs).trans hrun

/-- Of the aligned rooms only those with few events have all their writes in bounds. -/
theorem AlignedStart.writesInBounds_iff {S L : ℕ} {room : Room (S * L)}
    (h : AlignedStart (S + L - 1) T room) (hS : 1 ≤ S) (hL : 1 ≤ L) :
    WritesInBounds z room ↔ FewEvents S L T := by
  have hprocesses : S + L - 1 ≤ maxProcess := by
    rw [← h.cent.toNat_numProcess]
    exact h.cent.loaded.numProcess
  rw [h.runStart.writesInBounds_iff, h.callsFit_iff, runPairCount_aligned_le_iff h.cent hprocesses]
  unfold FewEvents
  omega

/-- A kitchen with two switches and a light of four values each: 72 pairs in all. -/
theorem hbSet_overflows : ∃ (files : String → List String) (d : Device) (room : Room (2 * 1)),
    AlignedRoom "kitchen" 2 1 4 files (fun _ => d) (fun _ => d) ∧
      loadRoom "kitchen" 2 1 files = some room ∧ ∀ z, ¬ WritesInBounds z room := by
  have haligned : AlignedRoom "kitchen" 2 1 4 (fun _ => "kitchenswitch" :: ["0", "1", "0", "1"])
      (fun _ => ⟨"kitchenswitch", ["0", "1", "0", "1"], by decide, by decide, by decide⟩)
      (fun _ => ⟨"kitchenswitch", ["0", "1", "0", "1"], by decide, by decide, by decide⟩) :=
    ⟨by decide, by decide, by decide, by decide, ⟨fun _ _ => rfl, fun _ _ => rfl⟩,
      fun _ _ => rfl, fun _ _ => rfl⟩
  obtain ⟨room, hroom, hstart⟩ := haligned.alignedStart
  refine ⟨_, _, room, haligned, hroom, fun z hw => ?_⟩
  exact absurd ((hstart.writesInBounds_iff (by decide) (by decide)).mp hw) (by decide)

/-- **When the pairs fit `hbSet` in every run of `main`.**  For every solver and every loaded room
whose processes fit the arrays: no write of any call of `readSegTrace` that the run comes to passes
the end of an `hbSet` exactly when every call before which no window is empty has at most fifty
pairs up to its own.  For a room whose devices have `T` values each this says that it has few
events. -/
theorem writesInBounds_loadRoom_iff (z : Solver) {path : String} {numSwitch numLight : ℕ}
    {files : String → List String} {room : Room (numSwitch * numLight)}
    (h : loadRoom path numSwitch numLight files = some room)
    (hpair : ∀ k, (room.monitorList k).numProcess.toNat ≤ maxProcess)
    (hcent : room.centMon.numProcess.toNat ≤ maxProcess) :
    (WritesInBounds z room ↔ CallsFit room (room.centMon.numEventAll 0)) ∧
    ∀ T switch light, AlignedRoom path numSwitch numLight T files switch light →
      (WritesInBounds z room ↔ FewEvents numSwitch numLight T) := by
  constructor
  · exact ((justLoaded_of_loadRoom h).runStart hpair hcent).writesInBounds_iff
  · intro T switch light haligned
    obtain ⟨room', hroom', hstart⟩ := haligned.alignedStart
    obtain rfl : room' = room := Option.some.inj (hroom'.symm.trans h)
    exact hstart.writesInBounds_iff haligned.switches haligned.lights

/-- In the kitchen, whose devices have two values, all writes are in bounds. -/
theorem writesInBounds_kitchen : ∃ room : Room (2 * 1),
    loadRoom "kitchen" 2 1 kitchenFiles = some room ∧ WritesInBounds default room := by
  obtain ⟨room, hroom, hstart⟩ := alignedRoom_kitchen.alignedStart
  refine ⟨room, hroom, ?_⟩
  exact ((writesInBounds_loadRoom_iff default hroom (fun k => (hstart.pair k).loaded.numProcess)
    hstart.cent.loaded.numProcess).2 2 _ _ alignedRoom_kitchen).mpr (by decide)

end Room
