/-
# Rooms with a misnamed device file

`main` counts the entries of the data directory and opens files by number (`DeviceScan`).  Where
the two do not agree a file is opened that is not there; reading it gives no lines and no error,
and the trace file of a pair then has the header of one device only.  As the first header of a
trace is not counted (`ReadFrom.numProcess`), the monitor of this pair has no process and its
windows have no events.  There are no bit-vectors of width zero to ask the solver about, so the run
ends with an exception in its very first segment, whatever the solver (`main_misnamed`).
-/
import DecentralMonitor.DeviceScan
import DecentralMonitor.RoomRuns

open Constraint Numbering TraceMonitor

namespace Room

/-! ## A monitor without a process -/

/-- A monitor without a process is not answered. -/
theorem solveSMT_of_no_process (z : Solver) {start fin eps : ℤ} {m u : TraceMonitor}
    (hm : m.numProcess ≤ 0) (hu : readSegTrace start fin eps m = some u) :
    solveSMT z u = none := by
  have hnone : m.numProcess.toNat = 0 := Int.toNat_of_nonpos hm
  have hloaded : Loaded m := by
    refine ⟨?_, fun i hi => ?_⟩
    · rw [hnone]
      exact Nat.zero_le _
    · rw [hnone] at hi
      exact absurd hi (Nat.not_lt_zero i)
  obtain ⟨u', hu', hseg⟩ := readSegTrace_spec hloaded start fin eps
  obtain rfl : u' = u := Option.some.inj (hu'.symm.trans hu)
  have hevents : u'.totNumEvents = 0 := by
    rw [hseg.totNumEvents, hnone]
    rfl
  unfold solveSMT
  rw [if_pos (Or.inl hevents)]

variable {z : Solver} {path : String}

section Loaded

variable {numSwitch numLight : ℕ} {files : String → List String}
  {room : Room (numSwitch * numLight)}

/-- A pair with fewer than two headers stops the run at once. -/
theorem stuck_of_few_headers (h : loadRoom path numSwitch numLight files = some room)
    {pair : ℕ × ℕ} (hpair : pair ∈ pairList numSwitch numLight)
    (hheaders : numHeaders (pairLines path files pair) ≤ 1)
    (hT : room.centMon.numEventAll 0 ≠ 0) : Stuck z (epsInit room) := by
  obtain ⟨k, hk, hget⟩ := List.getElem_of_mem hpair
  have hk' : k < numSwitch * numLight := by
    rw [← length_pairList]
    exact hk
  have hprocess : (room.monitorList ⟨k, hk'⟩).numProcess ≤ 0 := by
    have hread := (readFrom_of_loadRoom h).1 ⟨k, hk'⟩
    have hnum := hread.numProcess
    have hlines : (pairList numSwitch numLight).get
        (Fin.cast (length_pairList numSwitch numLight).symm ⟨k, hk'⟩) = pair := hget
    rw [hlines] at hnum
    omega
  refine ⟨?_, ?_⟩
  · show (0 : ℤ) < room.centMon.numEventAll 0
    omega
  · rw [Option.eq_none_iff_forall_not_mem]
    intro loop hbody
    obtain ⟨room', hroom', -⟩ := Option.bind_eq_some_iff.mp hbody
    obtain ⟨results, centResult, ha⟩ := exists_answers_of_segment hroom'
    obtain ⟨u, hu, hv⟩ := ha.pair ⟨k, hk'⟩
    have hnone : solveSMT z u = none := solveSMT_of_no_process z hprocess hu
    exact absurd (hnone.symm.trans hv) (by simp)

end Loaded

/-! ## The files that are opened -/

theorem finds_lightFile (path : String) (l : ℕ) : Finds (lightFile path l) (path ++ "light") := by
  refine ⟨"data/".toList, "_".toList ++ (toString l).toList ++ ".txt".toList, ?_⟩
  simp [lightFile, lightName]

variable {dir : Directory}

/-- Where all files that are opened are there, they are the entries that have been counted. -/
theorem allDevicesRead_of_present (hS : 1 ≤ (scan path dir).1) (hL : 1 ≤ (scan path dir).2)
    (h : ∀ file ∈ openedFiles path (scan path dir).1 (scan path dir).2, file ∈ dir.entries) :
    AllDevicesRead path dir := by
  have hswitch : ∀ p ∈ List.range' 1 (scan path dir).1,
      switchFile path p ∈ countedSwitches path dir := by
    intro p hp
    refine List.mem_filter.mpr ⟨h _ ?_, decide_eq_true (finds_switchFile path p)⟩
    exact (mem_openedFiles hS hL).mpr (Or.inl (List.mem_map_of_mem hp))
  have hlight : ∀ l ∈ List.range' 1 (scan path dir).2,
      lightFile path l ∈ countedLights path dir := by
    intro l hl
    refine List.mem_filter.mpr ⟨h _ ?_,
      decide_eq_true ⟨not_finds_lightFile path l, finds_lightFile path l⟩⟩
    exact (mem_openedFiles hS hL).mpr (Or.inr (List.mem_map_of_mem hl))
  -- as many files are opened as have been counted, so nothing else has been counted
  rw [scan_eq] at hswitch hlight
  have hswitches := perm_of_names_subset (switchFile_injective path) fun file hfile => by
    obtain ⟨p, hp, rfl⟩ := List.mem_map.mp hfile
    exact hswitch p hp
  have hlights := perm_of_names_subset (lightFile_injective path) fun file hfile => by
    obtain ⟨l, hl, rfl⟩ := List.mem_map.mp hfile
    exact hlight l hl
  intro file
  rw [mem_openedFiles hS hL, scan_eq, ← hswitches.mem_iff, ← hlights.mem_iff]

/-- What reading the device files gives: a file that is not in the directory has no lines, and
none has more than one header. -/
structure DirectoryFiles (dir : Directory) (opened : List String)
    (files : String → List String) : Prop where
  absent : ∀ file ∈ opened, file ∉ dir.entries → files file = []
  header : ∀ file ∈ opened, numHeaders (files file) ≤ 1

/-- A file that is opened but is not there belongs to a pair. -/
theorem exists_pair_few_headers {opened : List String} {files : String → List String}
    {numSwitch numLight : ℕ} (hopened : opened = openedFiles path numSwitch numLight)
    (hfiles : DirectoryFiles dir opened files) {file : String} (hfile : file ∈ opened)
    (habsent : file ∉ dir.entries) :
    ∃ pair ∈ pairList numSwitch numLight, numHeaders (pairLines path files pair) ≤ 1 := by
  subst hopened
  have hempty := hfiles.absent file hfile habsent
  obtain ⟨p, hp, hrest⟩ := List.mem_flatMap.mp hfile
  obtain ⟨l, hl, hmem⟩ := List.mem_flatMap.mp hrest
  have hpair : (p, l) ∈ pairList numSwitch numLight := mem_pairList.mpr ⟨hp, hl⟩
  obtain ⟨hswitch, hlight⟩ := mem_openedFiles_of_pair path hpair
  refine ⟨(p, l), hpair, ?_⟩
  have hs := hfiles.header _ hswitch
  have hl := hfiles.header _ hlight
  unfold numHeaders pairLines at *
  rw [List.countP_append]
  rw [List.mem_cons, List.mem_singleton] at hmem
  rcases hmem with rfl | rfl
  · rw [show files (switchName path p ++ ".txt") = [] from hempty, List.countP_nil, Nat.zero_add]
    exact hl
  · rw [show files (lightName path l ++ ".txt") = [] from hempty, List.countP_nil, Nat.add_zero]
    exact hs

/-- **A room with a misnamed device file is stuck.**  For every room, directory and solver: if the
room is loaded, its centralised monitor has an event to begin with, and the devices counted are
not the devices read, then the first iteration of the segment loop does not get its verdicts. -/
theorem main_misnamed (z : Solver) {files : String → List String}
    {room : Room ((scan path dir).1 * (scan path dir).2)} (hS : 1 ≤ (scan path dir).1)
    (hL : 1 ≤ (scan path dir).2)
    (hfiles : DirectoryFiles dir (openedFiles path (scan path dir).1 (scan path dir).2) files)
    (hroom : loadRoom path (scan path dir).1 (scan path dir).2 files = some room)
    (hT : room.centMon.numEventAll 0 ≠ 0) (hmisnamed : ¬ AllDevicesRead path dir) :
    Stuck z (epsInit room) := by
  have habsent := mt (allDevicesRead_of_present hS hL) hmisnamed
  simp only [not_forall] at habsent
  obtain ⟨file, hfile, habsent⟩ := habsent
  obtain ⟨pair, hpair, hheaders⟩ := exists_pair_few_headers rfl hfiles hfile habsent
  exact stuck_of_few_headers hroom hpair hheaders hT

/-- The files that `main` reads for the entrance: the light's, and none for the switch. -/
def entranceFiles (name : String) : List String :=
  if name = "data/entrancelight_1.txt" then ["entrancelight_1", "1", "0"] else []

/-- The entrance of the repository's directory, whose switch is in `entranceswitch.txt`. -/
theorem main_misnamed_entrance :
    ∃ room, loadRoom "entrance" (scan "entrance" dataDirectory).1
        (scan "entrance" dataDirectory).2 entranceFiles = some room ∧
      Stuck default (epsInit room) := by
  have hscan : scan "entrance" dataDirectory = (1, 1) := by decide +kernel
  have hevents : (loadRoom "entrance" (scan "entrance" dataDirectory).1
      (scan "entrance" dataDirectory).2 entranceFiles).any
      (fun room => decide (room.centMon.numEventAll 0 ≠ 0)) = true := by
    decide +kernel
  obtain ⟨room, hroom, hT⟩ := (Option.any_eq_true ..).mp hevents
  refine ⟨room, hroom, main_misnamed default (by rw [hscan]) (by rw [hscan]) ?_ hroom
    (of_decide_eq_true hT) fun hall => ?_⟩
  · rw [hscan]
    exact ⟨by decide +kernel, by decide +kernel⟩
  · -- a file is opened for the switch that is not in the directory
    have hopened : "data/entranceswitch_1.txt" ∈ openedFiles "entrance"
        (scan "entrance" dataDirectory).1 (scan "entrance" dataDirectory).2 := by decide +kernel
    have hcounted := (hall _).mp hopened
    revert hcounted
    decide +kernel

end Room
