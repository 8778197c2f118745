/-
# The rooms of `main`, one after the other

`main` handles its rooms in a loop.  The monitors are new in every iteration, but the files are
not: each room writes its traces to `detailsDist.txt` and `detailsCen.txt`, over those of the
room before it.  The files of the data directory are only read.

So a room is handled as if it were the only one (`main_rooms_isolated`), and the whole program
has no undefined behaviour exactly when each of its rooms fits (`RoomFits`, a condition that can be
evaluated on the directory and the files); then it gets through all of them
(`main_rooms_wellDefined_iff`).
-/
import DecentralMonitor.DeviceScan
import DecentralMonitor.JobSequence
import DecentralMonitor.RoomRuns

open Constraint JobSequence

namespace Room

/-! ## The files that loading leaves -/

/-- The loading phase of the room `path`, and the files after it. -/
def loadRoomFiles (path : String) (numSwitch numLight : ℕ) (files : String → List String) :
    Option ((String → List String) × Room (numSwitch * numLight)) := do
  let st ← loadPairs path numSwitch numLight
    ⟨Function.update files "detailsCen.txt" [], [], fun _ => TraceMonitor.blank, 0⟩
  let cent ← TraceMonitor.readFile st.files
    (TraceMonitor.blank.setValues 0 st.formC 1 "detailsCen.txt")
  some (st.files, ⟨fun i => st.monitorList i, cent⟩)

/-- A file that `main` writes. -/
def IsTraceFile (name : String) : Prop := name = "detailsDist.txt" ∨ name = "detailsCen.txt"

/-- The files that `main` does not write. -/
def dataFiles (files : String → List String) (name : {name : String // ¬ IsTraceFile name}) :
    List String := files name

theorem dataFiles_eq_iff {files files' : String → List String} :
    dataFiles files' = dataFiles files ↔ ∀ name, ¬ IsTraceFile name → files' name = files name := by
  constructor
  · intro h name hname
    exact congrFun h ⟨name, hname⟩
  · intro h
    funext name
    exact h name name.2

section Loading

variable {path : String} {numSwitch numLight : ℕ} {files files' : String → List String}

theorem loadRoomFiles_snd (path : String) (numSwitch numLight : ℕ)
    (files : String → List String) : (loadRoomFiles path numSwitch numLight files).map Prod.snd =
      loadRoom path numSwitch numLight files := by
  unfold loadRoomFiles loadRoom
  simp only [Option.bind_eq_bind, Option.map_bind]
  congr 1
  funext st
  rw [Function.comp_apply, Option.map_bind]
  rfl

/-- Loading writes the two trace files only. -/
theorem dataFiles_of_loadRoomFiles {room : Room (numSwitch * numLight)}
    (h : loadRoomFiles path numSwitch numLight files = some (files', room)) :
    dataFiles files' = dataFiles files := by
  obtain ⟨st, hst, hrest⟩ := Option.bind_eq_some_iff.mp h
  obtain ⟨cent, -, hrest⟩ := Option.bind_eq_some_iff.mp hrest
  obtain ⟨rfl, -⟩ := Prod.mk.inj (Option.some.inj hrest)
  have hloops : Option.Rel (SameLoading files files)
      (loadPairs path numSwitch numLight
        ⟨Function.update files "detailsCen.txt" [], [], fun _ => TraceMonitor.blank, 0⟩)
      (loadPairs path numSwitch numLight
        ⟨Function.update files "detailsCen.txt" [], [], fun _ => TraceMonitor.blank, 0⟩) :=
    loadPairs_rel (fun _ _ => rfl)
      ⟨⟨_, _, _, written_openCen files, written_openCen files⟩, rfl, rfl, rfl⟩
  rw [hst] at hloops
  cases hloops with
  | some hsame =>
    obtain ⟨dist, dist', cent, hwritten, -⟩ := hsame.files
    rw [dataFiles_eq_iff]
    intro name hname
    exact hwritten.other name (fun h => hname (Or.inl h)) fun h => hname (Or.inr h)

/-- The files that loading opens are not among these. -/
theorem not_isTraceFile_of_mem_openedFiles {file : String}
    (h : file ∈ openedFiles path numSwitch numLight) : ¬ IsTraceFile file := by
  obtain ⟨p, -, h⟩ := List.mem_flatMap.mp h
  obtain ⟨l, -, h⟩ := List.mem_flatMap.mp h
  rcases List.mem_cons.mp h with rfl | h
  · exact fun hname => switchName_ne path p hname rfl
  · obtain rfl := List.mem_singleton.mp h
    exact fun hname => lightName_ne path l hname rfl

/-- What is loaded does not depend on what the trace files held. -/
theorem loadRoom_of_dataFiles_eq (h : dataFiles files' = dataFiles files) :
    loadRoom path numSwitch numLight files' = loadRoom path numSwitch numLight files :=
  loadRoom_congr fun file hfile =>
    dataFiles_eq_iff.mp h file (not_isTraceFile_of_mem_openedFiles hfile)

end Loading

/-! ## The loop over the rooms -/

/-- A step of the loops over `eps` and the segments, in a room with any number of pairs. -/
inductive RoomStep (z : Solver) : (Σ n, EpsState n) → (Σ n, EpsState n) → Prop
  | mk {n : ℕ} {st st' : EpsState n} (h : SolverStep z st st') : RoomStep z ⟨n, st⟩ ⟨n, st'⟩

/-- The loop over the rooms, each found by the scan of the directory and loaded from its
files. -/
def roomJobs (z : Solver) (dir : Directory) :
    Jobs (String → List String) String (Σ n, EpsState n) where
  load := fun path files =>
    (loadRoomFiles path (scan path dir).1 (scan path dir).2 files).map
      fun loaded => (loaded.1, ⟨_, epsInit loaded.2⟩)
  step := RoomStep z
  finished := fun s => AtEnd s.2

/-- No write has passed the end of an `hbSet`, and the next iteration is defined. -/
def RoomGood (z : Solver) (s : Σ n, EpsState n) : Prop := HbSafe s.2.loop.room ∧ ¬ Stuck z s.2

/-- No state of the program has undefined behaviour behind it or ahead. -/
def MainWellDefined (z : Solver) (dir : Directory) (rooms : List String)
    (files : String → List String) : Prop :=
  ∀ w, Reaches (roomJobs z dir) files rooms w → w.Good (roomJobs z dir) (RoomGood z)

variable {z : Solver} {dir : Directory} {path : String} {files files' : String → List String}

/-- The room found by the scan. -/
theorem start_eq (z : Solver) (dir : Directory) (path : String) (files : String → List String) :
    (roomJobs z dir).start path files =
      (loadRoom path (scan path dir).1 (scan path dir).2 files).map fun room =>
        ⟨_, epsInit room⟩ := by
  rw [← loadRoomFiles_snd, Option.map_map, Jobs.start]
  show Option.map Prod.snd (Option.map _ _) = _
  rw [Option.map_map]
  rfl

/-- Rooms do not meet in the files. -/
theorem isolated_roomJobs (z : Solver) (dir : Directory) :
    Isolated (roomJobs z dir) dataFiles where
  frame := by
    intro path files files' s h
    obtain ⟨loaded, hloaded, heq⟩ := Option.map_eq_some_iff.mp h
    obtain ⟨rfl, -⟩ := Prod.mk.inj heq
    exact dataFiles_of_loadRoomFiles hloaded
  blind := by
    intro path files files' h
    rw [start_eq, start_eq, loadRoom_of_dataFiles_eq h]

/-- The run of a room. -/
theorem runs_roomJobs_iff {n : ℕ} {room : Room n} {s : Σ n, EpsState n} :
    (roomJobs z dir).Runs ⟨n, epsInit room⟩ s ↔ ∃ st, s = ⟨n, st⟩ ∧ Runs z room st := by
  constructor
  · intro h
    unfold Jobs.Runs at h
    induction h with
    | refl => exact ⟨epsInit room, rfl, .refl⟩
    | tail _ hstep ih =>
      obtain ⟨st, rfl, hruns⟩ := ih
      cases hstep with
      | mk hstep => exact ⟨_, rfl, hruns.tail hstep⟩
  · rintro ⟨st, rfl, hruns⟩
    exact Relation.ReflTransGen.lift (fun st => (⟨n, st⟩ : Σ n, EpsState n))
      (fun _ _ => RoomStep.mk) _ _ hruns

/-- The room is loaded and all of its monitors get through the run, if it has one. -/
def RoomFits (dir : Directory) (files : String → List String) (path : String) : Prop :=
  ∃ room, loadRoom path (scan path dir).1 (scan path dir).2 files = some room ∧
    (room.centMon.numEventAll 0 = 0 ∨ AllFitRun room (room.centMon.numEventAll 0))

instance (dir : Directory) (files : String → List String) (path : String) :
    Decidable (RoomFits dir files path) :=
  decidable_of_iff ((loadRoom path (scan path dir).1 (scan path dir).2 files).any (fun room =>
      decide (room.centMon.numEventAll 0 = 0 ∨ AllFitRun room (room.centMon.numEventAll 0))) = true)
    (by simp only [Option.any_eq_true, decide_eq_true_iff]; rfl)

/-- A room goes right exactly when it fits. -/
theorem goesRight_roomJobs_iff :
    (roomJobs z dir).GoesRight (RoomGood z) files path ↔ RoomFits dir files path := by
  constructor
  · rintro ⟨s₀, hstart, hgood⟩
    rw [start_eq] at hstart
    obtain ⟨room, hroom, rfl⟩ := Option.map_eq_some_iff.mp hstart
    have hall : ∀ st, Runs z room st → RoomGood z ⟨_, st⟩ :=
      fun st hruns => hgood _ (runs_roomJobs_iff.mpr ⟨st, rfl, hruns⟩)
    have hw : WellDefined z room :=
      ⟨fun st hruns => (hall st hruns).1, fun st hruns => (hall st hruns).2⟩
    exact ⟨room, hroom, (justLoaded_of_loadRoom hroom).runsOn.wellDefined_iff.mp hw⟩
  · rintro ⟨room, hroom, hfits⟩
    have hw : WellDefined z room :=
      (justLoaded_of_loadRoom hroom).runsOn.wellDefined_iff.mpr hfits
    refine ⟨⟨_, epsInit room⟩, ?_, fun s halone => ?_⟩
    · rw [start_eq, hroom]
      rfl
    · obtain ⟨st, rfl, hruns⟩ := runs_roomJobs_iff.mp halone
      exact ⟨hw.fits st hruns, hw.goesOn st hruns⟩

/-- Such a room comes to its end. -/
theorem terminates_roomJobs (z : Solver) (dir : Directory) :
    (roomJobs z dir).Terminates (RoomGood z) := by
  intro path files s₀ hstart hgood
  rw [start_eq] at hstart
  obtain ⟨room, -, rfl⟩ := Option.map_eq_some_iff.mp hstart
  have hgo : ∀ st, Runs z room st → ¬ Stuck z st := fun st hruns =>
    (hgood _ (runs_roomJobs_iff.mpr ⟨st, rfl, hruns⟩)).2
  obtain ⟨st, hruns, hend⟩ := exists_runs_atEnd hgo
  exact ⟨⟨_, st⟩, runs_roomJobs_iff.mpr ⟨st, rfl, hruns⟩, hend⟩

/-- **Rooms are handled as if they were alone.**  Whatever rooms `main` has handled before and
whatever trace files they have left, every state in which it is at work on the room `path` is a
state of the run on the room that is loaded from the files as they were at the beginning; and of
these files only the two trace files have changed. -/
theorem main_rooms_isolated {rooms rest : List String} {s : Σ n, EpsState n}
    (hr : Reaches (roomJobs z dir) files rooms (.working files' rest path s)) :
    path :: rest <:+ rooms ∧ (∀ name, ¬ IsTraceFile name → files' name = files name) ∧
      ∃ room st, loadRoom path (scan path dir).1 (scan path dir).2 files = some room ∧
        s = ⟨_, st⟩ ∧ Runs z room st := by
  obtain ⟨hview, hrest, s₀, hstart, halone⟩ := asAlone_of_reaches (isolated_roomJobs z dir) hr
  rw [start_eq] at hstart
  obtain ⟨room, hroom, rfl⟩ := Option.map_eq_some_iff.mp hstart
  obtain ⟨st, hs, hruns⟩ := runs_roomJobs_iff.mp halone
  exact ⟨hrest, dataFiles_eq_iff.mp hview, room, st, hroom, hs, hruns⟩

/-- A directory with two switches and a light of the kitchen. -/
def kitchenDirectory : Directory where
  names := ["kitchenlight_1.txt", "kitchenswitch_1.txt", "kitchenswitch_2.txt"]
  nodup := by decide

/-- The kitchen goes right. -/
theorem goesRight_kitchen :
    (roomJobs default kitchenDirectory).GoesRight (RoomGood default) kitchenFiles "kitchen" := by
  rw [goesRight_roomJobs_iff]
  decide +kernel

/-- When the kitchen is handled a second time, its files are what they were. -/
theorem main_rooms_isolated_kitchen : ∃ files' s,
    Reaches (roomJobs default kitchenDirectory) kitchenFiles ["kitchen", "kitchen"]
      (.working files' [] "kitchen" s) ∧
    files' "data/kitchenlight_1.txt" = kitchenFiles "data/kitchenlight_1.txt" := by
  have hisolated := isolated_roomJobs default kitchenDirectory
  obtain ⟨s₀, hstart, hgood⟩ := goesRight_kitchen
  obtain ⟨s, hruns, hend⟩ := terminates_roomJobs default kitchenDirectory _ _ s₀ hstart hgood
  have hall : ∀ path ∈ ["kitchen"], ∃ s₀ s,
      (roomJobs default kitchenDirectory).start path kitchenFiles = some s₀ ∧
        (roomJobs default kitchenDirectory).Runs s₀ s ∧
        (roomJobs default kitchenDirectory).finished s := by
    intro path hpath
    obtain rfl := List.mem_singleton.mp hpath
    exact ⟨s₀, s, hstart, hruns, hend⟩
  obtain ⟨files₁, hfirst⟩ : ∃ files₁, Reaches (roomJobs default kitchenDirectory) kitchenFiles
      (["kitchen"] ++ ["kitchen"]) (.waiting files₁ ["kitchen"]) :=
    exists_reaches_waiting hisolated rfl hall
  obtain ⟨hview, -⟩ := asAlone_of_reaches hisolated hfirst
  obtain ⟨files₂, hload⟩ := start_eq_some_iff.mp ((hisolated.blind hview).trans hstart)
  have hsecond := hfirst.tail (.load hload)
  obtain ⟨-, hfiles, -⟩ := main_rooms_isolated hsecond
  exact ⟨files₂, s₀, hsecond, hfiles _ (by unfold IsTraceFile; decide)⟩

/-- All rooms have to fit. -/
theorem mainWellDefined_iff {rooms : List String} :
    MainWellDefined z dir rooms files ↔ ∀ path ∈ rooms, RoomFits dir files path := by
  have hiff : MainWellDefined z dir rooms files ↔
      ∀ path ∈ rooms, (roomJobs z dir).GoesRight (RoomGood z) files path :=
    goesRight_iff (isolated_roomJobs z dir) (terminates_roomJobs z dir)
  rw [hiff]
  exact forall₂_congr fun _ _ => goesRight_roomJobs_iff

/-- If they do, all of them are handled. -/
theorem exists_reaches_waiting_nil {rooms : List String} (h : MainWellDefined z dir rooms files) :
    ∃ files', Reaches (roomJobs z dir) files rooms (.waiting files' []) := by
  refine exists_reaches_end (isolated_roomJobs z dir) (terminates_roomJobs z dir) ?_
  exact fun path hpath => goesRight_roomJobs_iff.mpr (mainWellDefined_iff.mp h path hpath)

/-- **When the whole program is well defined.**  For every list of rooms, every directory and all
files: no state of the program has undefined behaviour exactly when each of its rooms fits, loaded
from the files as they are at the beginning.  This does not depend on the solver, and the program
then comes to its end. -/
theorem main_rooms_wellDefined_iff (z : Solver) (dir : Directory) (rooms : List String)
    (files : String → List String) :
    (MainWellDefined z dir rooms files ↔ ∀ path ∈ rooms, RoomFits dir files path) ∧
    (MainWellDefined z dir rooms files →
      ∃ files', Reaches (roomJobs z dir) files rooms (.waiting files' [])) :=
  ⟨mainWellDefined_iff, fun hw => exists_reaches_waiting_nil hw⟩

end Room
