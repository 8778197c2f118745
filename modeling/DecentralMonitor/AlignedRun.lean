/-
# The runs of `main` on aligned rooms

The rooms whose devices have equally many values, as the scripts make them.  Few of them have a
well-defined run (`PairsFit`), and `main_runs` lists every verdict that `main` computes in these.
A pairwise monitor rejects the windows of one and of three events, and nothing else; the
centralised monitor agrees when there are two devices, and answers `false` throughout when there
are more.
-/
import DecentralMonitor.RoomRuns

open CarryWalk Constraint TraceMonitor

namespace Room

variable {n : ℕ} {z : Solver} {T eps s : ℕ}

/-! ## The windows of an aligned trace -/

/-- The number of events of each process in segment `s`. -/
def windowWidth (T eps s : ℕ) : ℕ :=
  segWidth T (s * mainSegLength : ℕ) ((s + 1) * mainSegLength : ℕ) eps

theorem windowWidth_le (T eps s : ℕ) : windowWidth T eps s ≤ T := by
  unfold windowWidth segWidth
  omega

theorem one_le_windowWidth (hs : s < numSegments mainSegLength T) : 1 ≤ windowWidth T eps s := by
  rw [lt_numSegments_iff (by decide)] at hs
  refine one_le_segWidth eps hs ?_
  unfold mainSegLength
  omega

/-- With at most four events there is one segment, and it has all of them. -/
theorem windowWidth_of_short (hT : T ≤ mainSegLength) (hs : s < numSegments mainSegLength T) :
    s = 0 ∧ windowWidth T eps s = T := by
  rw [lt_numSegments_iff (by decide)] at hs
  unfold mainSegLength at hT hs
  obtain rfl : s = 0 := by omega
  refine ⟨rfl, ?_⟩
  unfold windowWidth segWidth segStart mainSegLength
  omega

/-- The pairs of the first segment of all stay. -/
theorem windowPairs_subset_pairsBefore (m : TraceMonitor)
    (hT : 0 < numSegments mainSegLength T) :
    windowPairs m 0 0 ⊆ pairsBefore m T eps (s + 1) := by
  intro p hp
  rcases Nat.eq_zero_or_pos eps with rfl | heps
  · exact List.mem_append_right _ (List.mem_flatMap.mpr ⟨0, by simp, hp⟩)
  · exact List.mem_append_left _ (List.mem_flatMap.mpr
      ⟨0, List.mem_range.mpr heps, List.mem_flatMap.mpr ⟨0, List.mem_range.mpr hT, hp⟩⟩)

/-- The pairs of the whole run fit their array, by `runPairCount_aligned_le_iff`. -/
def PairsFit (P T : ℕ) : Prop :=
  P ≤ 1 ∨ T = 0 ∨ (T = 1 ∧ P ≤ 7) ∨ (T = 2 ∧ P ≤ 3) ∨ (T = 3 ∧ P ≤ 2)

section Trace

variable {P : ℕ} {m : TraceMonitor}

theorem windowEvents_aligned (h : AlignedTrace P T m) (eps s : ℕ) :
    windowEvents m eps s = P * windowWidth T eps s := by
  unfold windowEvents callEvents
  rw [h.toNat_numProcess, h.segOffset_eq le_rfl]
  rfl

/-- An aligned trace has events up to the end. -/
theorem fitsRun_aligned_iff (h : AlignedTrace P T m) (hP : 1 ≤ P) :
    FitsRun m T ↔ PairsFit P T := by
  have hprocesses : P ≤ maxProcess := by
    rw [← h.toNat_numProcess]
    exact h.loaded.numProcess
  have hcount : runPairCount m T ≤ 50 ↔ PairsFit P T := runPairCount_aligned_le_iff h hprocesses
  have hreaches : ReachesEnd m T := by
    refine ⟨0, ?_, ?_⟩
    · rw [h.toNat_numProcess]
      exact hP
    · rw [h.numEventAll 0 hP]
  exact ⟨fun hfits => hcount.mp hfits.pairs,
    fun hfit => ⟨h.loaded.numProcess, hreaches, hcount.mpr hfit⟩⟩

/-- One process: nothing is ever recorded. -/
theorem pairsBefore_aligned_eq_nil (h : AlignedTrace 1 T m) : pairsBefore m T eps s = [] := by
  rw [List.eq_nil_iff_forall_not_mem]
  intro p hp
  obtain ⟨e, s', -, hp⟩ := exists_of_mem_pairsBefore hp
  have hempty : windowPairs m e s' = [] := h.gridPairs.eq_nil (Or.inl le_rfl)
  rw [hempty] at hp
  exact List.not_mem_nil hp

/-- More processes: the pairs of the first segment of all stay, and leave no cuts. -/
theorem not_cuts_aligned (h : AlignedTrace P T m) (hP : 2 ≤ P) (hfit : PairsFit P T)
    (hs : s < numSegments mainSegLength T) : ¬ Cuts m T eps s := by
  intro hcuts
  have hw : 1 ≤ windowWidth T eps s := one_le_windowWidth hs
  have hpos : 1 ≤ T := hw.trans (windowWidth_le T eps s)
  have hshort : T ≤ mainSegLength ∧ P * T ≤ 7 := by
    obtain ⟨rfl, h'⟩ | ⟨rfl, h'⟩ | ⟨rfl, h'⟩ :
        (T = 1 ∧ P ≤ 7) ∨ (T = 2 ∧ P ≤ 3) ∨ (T = 3 ∧ P ≤ 2) := by
      unfold PairsFit at hfit
      omega
    all_goals
      unfold mainSegLength
      omega
  -- one segment a round, with all events
  obtain ⟨rfl, hwidth⟩ : s = 0 ∧ windowWidth T eps s = T := windowWidth_of_short hshort.1 hs
  have hgrid : GridPairs P (windowWidth T 0 0) ((0 : ℕ) : ℤ) (windowPairs m 0 0) := h.gridPairs
  rw [(windowWidth_of_short hshort.1 hs).2] at hgrid
  unfold Cuts at hcuts
  rw [windowEvents_aligned h, hwidth] at hcuts
  exact hgrid.not_walk hP hpos (by omega) (by omega)
    (hcuts.mono (windowPairs_subset_pairsBefore m hs))

/-- **When an aligned trace has cuts.** -/
theorem cuts_aligned_iff (h : AlignedTrace P T m) (hP : 1 ≤ P) (hfit : PairsFit P T)
    (hs : s < numSegments mainSegLength T) :
    Cuts m T eps s ↔ P = 1 ∧ windowWidth T eps s ≠ 1 ∧ windowWidth T eps s ≠ 3 := by
  rcases Nat.eq_or_lt_of_le hP with rfl | hP
  · have hN : 1 ≤ windowWidth T eps s := one_le_windowWidth hs
    unfold Cuts HasCuts
    rw [pairsBefore_aligned_eq_nil h, windowEvents_aligned h, Nat.one_mul, walk_nil_iff hN]
    exact (and_iff_right rfl).symm
  · have hno : ¬ Cuts m T eps s := not_cuts_aligned h hP hfit hs
    constructor
    · intro hcuts
      exact absurd hcuts hno
    · omega

end Trace

/-! ## The runs -/

/-- A loaded room whose devices have `T` values each: the pairwise monitors count one process
and the centralised one counts `P`. -/
structure AlignedStart (P T : ℕ) (room : Room n) : Prop where
  loaded : JustLoaded room
  pair : ∀ k, AlignedTrace 1 T (room.monitorList k)
  cent : AlignedTrace P T room.centMon
  one_le : 1 ≤ P

variable {path : String} {numSwitch numLight : ℕ} {files : String → List String}
  {switch light : ℕ → Device}

/-- Loading an aligned room. -/
theorem AlignedRoom.alignedStart
    (h : AlignedRoom path numSwitch numLight T files switch light) :
    ∃ room, loadRoom path numSwitch numLight files = some room ∧
      AlignedStart (numSwitch + numLight - 1) T room := by
  have hS := h.switches
  have hL := h.lights
  have hroom := loadRoom_spec h.switches h.lights h.processes h.monitors h.files
  exact ⟨_, hroom, justLoaded_of_loadRoom hroom,
    fun k => h.aligned_loadedPair (List.get_mem ..), h.aligned_loadedCent, by omega⟩

theorem AlignedStart.length {P : ℕ} {room : Room n} (h : AlignedStart P T room) :
    room.centMon.numEventAll 0 = T :=
  h.cent.numEventAll 0 h.one_le

theorem AlignedStart.runStart {P : ℕ} {room : Room n} (h : AlignedStart P T room) :
    RunStart room T := by
  rw [← h.length]
  exact h.loaded.runStart (fun k => (h.pair k).loaded.numProcess) h.cent.loaded.numProcess

theorem AlignedStart.allFitRun_iff {P : ℕ} {room : Room n} (h : AlignedStart P T room) :
    AllFitRun room T ↔ PairsFit P T := by
  have hpair : ∀ k, FitsRun (room.monitorList k) T :=
    fun k => (fitsRun_aligned_iff (h.pair k) le_rfl).mpr (Or.inl le_rfl)
  unfold AllFitRun
  rw [fitsRun_aligned_iff h.cent h.one_le]
  exact and_iff_right hpair

/-- The room has two devices, or its `S` switches and `L` lights have so few values, `T` each, that
the pairs of the whole run fit `hbSet`. -/
def FewEvents (S L T : ℕ) : Prop :=
  S + L = 2 ∨ T = 0 ∨ (T = 1 ∧ S + L ≤ 8) ∨ (T = 2 ∧ S + L ≤ 4) ∨ (T = 3 ∧ S + L ≤ 3)

instance (S L T : ℕ) : Decidable (FewEvents S L T) := inferInstanceAs (Decidable (_ ∨ _))

theorem AlignedStart.fits_iff {S L : ℕ} {room : Room (S * L)}
    (h : AlignedStart (S + L - 1) T room) (hS : 1 ≤ S) (hL : 1 ≤ L) :
    T = 0 ∨ AllFitRun room T ↔ FewEvents S L T := by
  rw [h.allFitRun_iff]
  unfold PairsFit FewEvents
  omega

/-- The run of `main` on a loaded room with `S` switches and `L` lights, whose devices have `T`
values each.  It is well defined exactly when there are two devices or few events.  Then it comes
to its end, and each of its verdicts follows from the number `w` of events that a process has in
the window of the segment: all pairwise monitors hold the same table, whose only flag is set unless
`w` is one or three, and the centralised monitor agrees when there are two devices and answers
`false` when there are more. -/
structure RunsAligned (z : Solver) (S L T : ℕ) (room : Room (S * L)) : Prop where
  wellDefined_iff : WellDefined z room ↔ FewEvents S L T
  atEnd : WellDefined z room → ∃ st, Runs z room st ∧ AtEnd st
  verdicts : WellDefined z room → ∀ st loop w, Runs z room st → LoopGuard st.loop →
    loopBody mainSegLength st.eps (.ofSolver z) st.loop = some loop →
    w = segWidth T st.loop.fin (st.loop.fin + mainSegLength) st.eps →
    (∀ k, (loop.room.monitorList k).toVerdictTable =
      mergedTable (S * L) (decide (w ≠ 1 ∧ w ≠ 3))) ∧
    loop.room.centMon.toVerdictTable = ⟨[false], [decide (S + L = 2 ∧ w ≠ 1 ∧ w ≠ 3)]⟩

theorem AlignedStart.runsAligned {S L : ℕ} {room : Room (S * L)}
    (h : AlignedStart (S + L - 1) T room) (hS : 1 ≤ S) (hL : 1 ≤ L) :
    RunsAligned z S L T room := by
  have hruns : RunsOn z room T := by
    rw [← h.length]
    exact h.loaded.runsOn
  have hiff : WellDefined z room ↔ FewEvents S L T := hruns.wellDefined_iff.trans (h.fits_iff hS hL)
  refine ⟨hiff, hruns.atEnd, ?_⟩
  intro hw st loop w hr hguard hbody hwidth
  obtain ⟨s, hs, hfin, b, v, hpair, hcent, hb, hv⟩ := hruns.verdicts hw st loop hr hguard hbody
  have hfit : PairsFit (S + L - 1) T := by
    have hfew := hiff.mp hw
    unfold FewEvents at hfew
    unfold PairsFit
    omega
  have hw' : w = windowWidth T st.eps s := by
    rw [hwidth, hfin, windowWidth, Nat.succ_mul]
    rfl
  have hbool : b = decide (w ≠ 1 ∧ w ≠ 3) := by
    rw [Bool.eq_iff_iff, decide_eq_true_iff, hb, hw']
    simp only [cuts_aligned_iff (h.pair _) le_rfl (Or.inl le_rfl) hs, true_and]
    exact ⟨fun ⟨_, hk⟩ => hk, fun hk => ⟨⟨0, Nat.mul_pos hS hL⟩, hk⟩⟩
  have hcentBool : v = decide (S + L = 2 ∧ w ≠ 1 ∧ w ≠ 3) := by
    have htwo : S + L - 1 = 1 ↔ S + L = 2 := by omega
    rw [Bool.eq_iff_iff, decide_eq_true_iff, hv, cuts_aligned_iff h.cent h.one_le hfit hs, htwo,
      hw']
  rw [← hbool, ← hcentBool]
  exact ⟨hpair, hcent⟩

/-- **The runs of `main`.**  For every aligned room that fits the arrays for traces, and every
solver. -/
theorem main_runs (z : Solver) (h : AlignedRoom path numSwitch numLight T files switch light) :
    ∃ room, loadRoom path numSwitch numLight files = some room ∧
      RunsAligned z numSwitch numLight T room := by
  obtain ⟨room, hroom, hstart⟩ := h.alignedStart
  exact ⟨room, hroom, hstart.runsAligned h.switches h.lights⟩

/-- In the kitchen, two switches and a light with two values each, the run is well defined.  In its
first segment the pairwise monitors answer `true` and the centralised one `false`. -/
theorem main_runs_kitchen :
    ∃ room, loadRoom "kitchen" 2 1 kitchenFiles = some room ∧ WellDefined default room ∧
      (∃ st, Runs default room st ∧ AtEnd st) ∧
      ∀ loop, loopBody mainSegLength 0 (.ofSolver default) (loopInit mainSegLength room) =
          some loop →
        (∀ k, (loop.room.monitorList k).toVerdictTable = ⟨[false, false], [true, false]⟩) ∧
          loop.room.centMon.toVerdictTable = ⟨[false], [false]⟩ := by
  obtain ⟨room, hroom, hruns⟩ := main_runs default alignedRoom_kitchen
  have hw : WellDefined default room := hruns.wellDefined_iff.mpr (by decide)
  refine ⟨room, hroom, hw, hruns.atEnd hw, fun loop hbody => ?_⟩
  have hguard : LoopGuard (loopInit mainSegLength room) := by
    obtain ⟨room', hroom', hstart⟩ := alignedRoom_kitchen.alignedStart
    obtain rfl : room' = room := Option.some.inj (hroom'.symm.trans hroom)
    show (0 : ℤ) < room'.centMon.numEventAll 0
    rw [hstart.length]
    decide
  exact hruns.verdicts hw (epsInit room) loop 2 .refl hguard hbody rfl

end Room
