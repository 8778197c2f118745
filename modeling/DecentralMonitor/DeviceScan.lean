/-
# The devices counted and the devices read

`main` finds the devices of a room in two ways.  It counts the entries of the data
directory whose path contains `<room>switch` or `<room>light` (`scan`), and then opens
the files `data/<room>switch_1.txt`, `data/<room>switch_2.txt`, … up to these counts
(`openedFiles`; `loadRoom_congr` says that the loading phase reads nothing else).  The scan
does not look at the number in a name, and does not ask for one.

`allDevicesRead_iff` says when the two agree: the entries counted as switches have the
names that are opened, with numbers from 1 without a gap, and so have the lights
(`WellNamed`).  The repository's own directory is not of this kind for four of the six
rooms of `main`.
-/
import DecentralMonitor.Numbering
import DecentralMonitor.RoomAssembly

open FallibleLoop Numbering TraceMonitor

namespace Room

/-! ## The scan -/

/-- A directory: the names of its entries, in the order in which they are visited. -/
structure Directory where
  names : List String
  nodup : names.Nodup

/-- The paths `entry.path()` of the entries of `data`. -/
def Directory.entries (dir : Directory) : List String := dir.names.map ("data/" ++ ·)

/-- One entry of the directory; the counters are `numSwitch` and `numLight`. -/
def countEntry (path : String) (count : ℕ × ℕ) (fileName : String) : ℕ × ℕ :=
  if Finds fileName (path ++ "switch") then (count.1 + 1, count.2)
  else if Finds fileName (path ++ "light") then (count.1, count.2 + 1)
  else count

/-- The loop over the directory. -/
def scan (path : String) (dir : Directory) : ℕ × ℕ := dir.entries.foldl (countEntry path) (0, 0)

/-- The entries counted as switches. -/
def countedSwitches (path : String) (dir : Directory) : List String :=
  dir.entries.filter fun fileName => Finds fileName (path ++ "switch")

/-- The entries counted as lights. -/
def countedLights (path : String) (dir : Directory) : List String :=
  dir.entries.filter fun fileName =>
    ¬ Finds fileName (path ++ "switch") ∧ Finds fileName (path ++ "light")

/-- The file that is opened for switch `plug`. -/
def switchFile (path : String) (plug : ℕ) : String := switchName path plug ++ ".txt"

/-- The file that is opened for light `light`. -/
def lightFile (path : String) (light : ℕ) : String := lightName path light ++ ".txt"

/-- The files that the loading loops open, one after the other. -/
def openedFiles (path : String) (numSwitch numLight : ℕ) : List String :=
  (List.range' 1 numSwitch).flatMap fun plug =>
    (List.range' 1 numLight).flatMap fun light => [switchFile path plug, lightFile path light]

/-- The files opened are the entries counted. -/
def AllDevicesRead (path : String) (dir : Directory) : Prop :=
  ∀ file, file ∈ openedFiles path (scan path dir).1 (scan path dir).2 ↔
    file ∈ countedSwitches path dir ∨ file ∈ countedLights path dir

/-- The entries found for the room have the names that are opened, and their numbers have
no gap. -/
structure WellNamed (path : String) (dir : Directory) : Prop where
  switches : Numbered (switchFile path) (countedSwitches path dir)
  lights : Numbered (lightFile path) (countedLights path dir)

variable {path : String} {dir : Directory}

/-- The counters count. -/
theorem foldl_countEntry (path : String) (l : List String) (count : ℕ × ℕ) :
    l.foldl (countEntry path) count =
      (count.1 + (l.filter fun fileName => Finds fileName (path ++ "switch")).length,
        count.2 + (l.filter fun fileName =>
          ¬ Finds fileName (path ++ "switch") ∧ Finds fileName (path ++ "light")).length) := by
  induction l generalizing count with
  | nil => rfl
  | cons fileName l ih =>
    rw [List.foldl_cons, ih]
    unfold countEntry
    by_cases hswitch : Finds fileName (path ++ "switch")
    · simp [hswitch]
      omega
    · by_cases hlight : Finds fileName (path ++ "light")
      · simp [hswitch, hlight]
        omega
      · simp [hswitch, hlight]

theorem scan_eq (path : String) (dir : Directory) :
    scan path dir = ((countedSwitches path dir).length, (countedLights path dir).length) := by
  unfold scan
  rw [foldl_countEntry, Nat.zero_add, Nat.zero_add]
  rfl

theorem nodup_entries (dir : Directory) : dir.entries.Nodup :=
  dir.nodup.map fun _ _ h => (String.append_right_inj _).mp h

/-! ## What the scan finds in the opened names -/

theorem finds_switchFile (path : String) (p : ℕ) :
    Finds (switchFile path p) (path ++ "switch") := by
  refine ⟨"data/".toList, "_".toList ++ (toString p).toList ++ ".txt".toList, ?_⟩
  simp [switchFile, switchName]

/-- Where a word ends behind `w` in a text, its letters are those behind `w` there. -/
theorem getElem?_of_occurs {α : Type} {pre w word post d t : List α}
    (h : pre ++ (w ++ word) ++ post = d ++ w ++ t) {i : ℕ} (hi : i < word.length)
    (hd : d.length ≤ pre.length + i) : t[pre.length + i - d.length]? = word[i]? := by
  have hindex : (pre ++ (w ++ word) ++ post)[pre.length + w.length + i]? =
      (d ++ w ++ t)[pre.length + w.length + i]? := by rw [h]
  rw [List.append_assoc, List.append_assoc, List.getElem?_append_right (by omega),
    List.getElem?_append_right (by omega), List.getElem?_append_left (by omega),
    List.getElem?_append_right (by simp; omega)] at hindex
  rw [List.length_append, show pre.length + w.length + i - pre.length - w.length = i by omega,
    show pre.length + w.length + i - (d.length + w.length) = pre.length + i - d.length by omega]
    at hindex
  exact hindex.symm

/-- No letter `c` stands behind the name of the room in a light's file. -/
theorem c_notMem_lightSuffix (l : ℕ) :
    'c' ∉ "light_".toList ++ (toString l).toList ++ ".txt".toList := by
  have hdigits : 'c' ∉ (toString l).toList := by
    intro hmem
    have hdigit : 'c'.isDigit = true := by
      refine Nat.isDigit_of_mem_toDigits (b := 10) (n := l) (by decide) (by decide) ?_
      rwa [← Nat.toList_repr]
    exact absurd hdigit (by decide)
  rw [List.mem_append, List.mem_append, not_or, not_or]
  exact ⟨⟨by decide, hdigits⟩, by decide⟩

/-- A light's file is not counted as a switch, whatever the name of the room. -/
theorem not_finds_lightFile (path : String) (l : ℕ) :
    ¬ Finds (lightFile path l) (path ++ "switch") := by
  rintro ⟨pre, post, h⟩
  have htext : (lightFile path l).toList = "data/".toList ++ path.toList ++
      ("light_".toList ++ (toString l).toList ++ ".txt".toList) := by
    simp [lightFile, lightName]
  rw [htext, String.toList_append] at h
  -- the end of `switch` would have to lie behind the name of the room
  rcases pre with - | ⟨a, pre⟩
  · have hend := getElem?_of_occurs (i := 5) h (by decide) (by decide)
    simp at hend
  · have hend := getElem?_of_occurs (i := 4) h (by decide) (by simp)
    have hletter : "switch".toList[4]? = some 'c' := by decide
    rw [hletter] at hend
    exact c_notMem_lightSuffix l (List.mem_of_getElem? hend)

/-! ## Loading reads the opened files -/

section Loading

variable {numSwitch numLight : ℕ} {files files' : String → List String}

/-- States of the loading loops that were started on different files: the loops have
written the same, and have loaded the same. -/
structure SameLoading (files files' : String → List String) (st st' : LoadState) : Prop where
  files : ∃ dist dist' cent, Written files dist cent st.files ∧ Written files' dist' cent st'.files
  formC : st'.formC = st.formC
  monitorList : st'.monitorList = st.monitorList
  mon : st'.mon = st.mon

theorem mem_openedFiles_of_pair (path : String) {p l : ℕ}
    (hpair : (p, l) ∈ pairList numSwitch numLight) :
    switchFile path p ∈ openedFiles path numSwitch numLight ∧
      lightFile path l ∈ openedFiles path numSwitch numLight := by
  obtain ⟨hp, hl⟩ := mem_pairList.mp hpair
  constructor <;> exact List.mem_flatMap.mpr ⟨p, hp, List.mem_flatMap.mpr ⟨l, hl, by simp⟩⟩

/-- An iteration reads the files of its two devices. -/
theorem loadPair_rel (h : ∀ file ∈ openedFiles path numSwitch numLight, files' file = files file)
    {p l : ℕ} (hpair : (p, l) ∈ pairList numSwitch numLight) {st st' : LoadState}
    (hst : SameLoading files files' st st') :
    Option.Rel (SameLoading files files') (loadPair path numSwitch numLight p st l)
      (loadPair path numSwitch numLight p st' l) := by
  obtain ⟨hswitch, hlight⟩ := mem_openedFiles_of_pair path hpair
  obtain ⟨dist, dist', cent, hwritten, hwritten'⟩ := hst.files
  have hnext := hwritten.pair path p l rfl rfl
  have hnext' := hwritten'.pair path p l (h _ hswitch) (h _ hlight)
  have hname : ((st.monitorList st.mon).setValues 0 [switchName path p, lightName path l]
      (numSwitch * numLight) "detailsDist.txt").traceFileName = "detailsDist.txt" := rfl
  unfold loadPair
  simp only [hst.formC, hst.monitorList, hst.mon]
  by_cases hroom : st.mon < maxMonitor
  · -- the pair's monitor reads its trace file, which is written anew
    rw [if_pos hroom, if_pos hroom]
    unfold readFile
    rw [hname, hnext.dist, hnext'.dist]
    cases List.foldlM (m := Option) readLine _ _ with
    | none => exact .none
    | some m => exact .some ⟨⟨_, _, _, hnext, hnext'⟩, rfl, rfl, rfl⟩
  · rw [if_neg hroom, if_neg hroom]
    exact .none

/-- So do the loops. -/
theorem loadPairs_rel (h : ∀ file ∈ openedFiles path numSwitch numLight, files' file = files file)
    {st st' : LoadState} (hst : SameLoading files files' st st') :
    Option.Rel (SameLoading files files') (loadPairs path numSwitch numLight st)
      (loadPairs path numSwitch numLight st') := by
  rw [loadPairs_eq, loadPairs_eq]
  exact foldlM_rel (fun pair hpair _ _ hst => loadPair_rel h hpair hst) hst

/-- **The opened files are all that loading reads.** -/
theorem loadRoom_congr
    (h : ∀ file ∈ openedFiles path numSwitch numLight, files' file = files file) :
    loadRoom path numSwitch numLight files' = loadRoom path numSwitch numLight files := by
  have hinit : SameLoading files files'
      ⟨Function.update files "detailsCen.txt" [], [], fun _ => TraceMonitor.blank, 0⟩
      ⟨Function.update files' "detailsCen.txt" [], [], fun _ => TraceMonitor.blank, 0⟩ :=
    ⟨⟨_, _, _, written_openCen files, written_openCen files'⟩, rfl, rfl, rfl⟩
  have hloops := loadPairs_rel h hinit
  unfold loadRoom
  generalize loadPairs path numSwitch numLight ⟨Function.update files _ _, _, _, _⟩ = st
    at hloops ⊢
  generalize loadPairs path numSwitch numLight ⟨Function.update files' _ _, _, _, _⟩ = st'
    at hloops ⊢
  cases hloops with
  | none => rfl
  | @some st st' hst =>
    obtain ⟨dist, dist', cent, hwritten, hwritten'⟩ := hst.files
    have hname : (TraceMonitor.blank.setValues 0 st.formC 1 "detailsCen.txt").traceFileName =
      "detailsCen.txt" := rfl
    show (readFile st'.files (TraceMonitor.blank.setValues 0 st'.formC 1 "detailsCen.txt")).bind
        (fun cent => some (Room.mk (fun i => st'.monitorList i) cent)) =
      (readFile st.files (TraceMonitor.blank.setValues 0 st.formC 1 "detailsCen.txt")).bind
        (fun cent => some (Room.mk (fun i => st.monitorList i) cent))
    rw [hst.formC, hst.monitorList]
    unfold readFile
    rw [hname, hwritten.cent, hwritten'.cent]

end Loading

/-! ## Counting and opening -/

theorem switchFile_injective (path : String) : Function.Injective (switchFile path) :=
  fun _ _ h => switchName_inj ((String.append_left_inj _).mp h)

theorem lightFile_injective (path : String) : Function.Injective (lightFile path) :=
  fun _ _ h => lightName_inj ((String.append_left_inj _).mp h)

theorem nodup_countedSwitches (path : String) (dir : Directory) :
    (countedSwitches path dir).Nodup :=
  (nodup_entries dir).filter _

theorem nodup_countedLights (path : String) (dir : Directory) :
    (countedLights path dir).Nodup :=
  (nodup_entries dir).filter _

theorem finds_of_mem_countedSwitches {file : String} (h : file ∈ countedSwitches path dir) :
    Finds file (path ++ "switch") :=
  of_decide_eq_true (List.mem_filter.mp h).2

theorem not_finds_of_mem_countedLights {file : String} (h : file ∈ countedLights path dir) :
    ¬ Finds file (path ++ "switch") :=
  (of_decide_eq_true (List.mem_filter.mp h).2).1

/-- With a switch and a light, the loops open the files of all numbers up to the counts. -/
theorem mem_openedFiles {numSwitch numLight : ℕ} (hS : 1 ≤ numSwitch) (hL : 1 ≤ numLight)
    {file : String} : file ∈ openedFiles path numSwitch numLight ↔
      file ∈ (List.range' 1 numSwitch).map (switchFile path) ∨
        file ∈ (List.range' 1 numLight).map (lightFile path) := by
  simp only [openedFiles, List.mem_flatMap, List.mem_cons, List.not_mem_nil, or_false,
    List.mem_map]
  constructor
  · rintro ⟨p, hp, l, hl, rfl | rfl⟩
    · exact Or.inl ⟨p, hp, rfl⟩
    · exact Or.inr ⟨l, hl, rfl⟩
  · rintro (⟨p, hp, rfl⟩ | ⟨l, hl, rfl⟩)
    · exact ⟨p, hp, 1, List.mem_range'_1.mpr (by omega), Or.inl rfl⟩
    · exact ⟨1, List.mem_range'_1.mpr (by omega), l, hl, Or.inr rfl⟩

/-- If all files opened are counted, the counts leave no room for other names. -/
theorem AllDevicesRead.wellNamed (h : AllDevicesRead path dir) (hS : 1 ≤ (scan path dir).1)
    (hL : 1 ≤ (scan path dir).2) : WellNamed path dir := by
  have hopened : ∀ file, file ∈ (List.range' 1 (scan path dir).1).map (switchFile path) ∨
      file ∈ (List.range' 1 (scan path dir).2).map (lightFile path) →
      file ∈ countedSwitches path dir ∨ file ∈ countedLights path dir :=
    fun file hfile => (h file).mp ((mem_openedFiles hS hL).mpr hfile)
  rw [scan_eq] at hopened
  constructor
  · rw [numbered_iff_perm (switchFile_injective path) (nodup_countedSwitches path dir)]
    refine perm_of_names_subset (switchFile_injective path) fun file hfile => ?_
    rcases hopened file (Or.inl hfile) with hswitch | hlight
    · exact hswitch
    · obtain ⟨p, -, rfl⟩ := List.mem_map.mp hfile
      exact absurd (finds_switchFile path p) (not_finds_of_mem_countedLights hlight)
  · rw [numbered_iff_perm (lightFile_injective path) (nodup_countedLights path dir)]
    refine perm_of_names_subset (lightFile_injective path) fun file hfile => ?_
    rcases hopened file (Or.inr hfile) with hswitch | hlight
    · obtain ⟨l, -, rfl⟩ := List.mem_map.mp hfile
      exact absurd (finds_of_mem_countedSwitches hswitch) (not_finds_lightFile path l)
    · exact hlight

/-- What the `data` directory of the repository has for the entrance and the kitchen. -/
def dataDirectory : Directory where
  names := ["entrancelight_1.txt", "entranceswitch.txt", "kitchenlight_1.txt",
    "kitchenlight_2.txt", "kitchenswitch_1.txt", "kitchenswitch_2.txt",
    "kitchenswitch_3.txt", "kitchenswitch_4.txt"]
  nodup := by decide +kernel

/-- The switch of the entrance is counted, but a file of another name is opened. -/
theorem entrance_switch_missing : scan "entrance" dataDirectory = (1, 1) ∧
    "data/entranceswitch.txt" ∈ countedSwitches "entrance" dataDirectory ∧
    "data/entranceswitch_1.txt" ∈ openedFiles "entrance" 1 1 ∧
    "data/entranceswitch_1.txt" ∉ dataDirectory.entries ∧
    ¬ AllDevicesRead "entrance" dataDirectory := by
  have hswitches : countedSwitches "entrance" dataDirectory =
      ["data/entranceswitch.txt"] := by decide +kernel
  have hlights : countedLights "entrance" dataDirectory =
      ["data/entrancelight_1.txt"] := by decide +kernel
  have hscan : scan "entrance" dataDirectory = (1, 1) := by
    rw [scan_eq, hswitches, hlights]
    rfl
  have hopened : "data/entranceswitch_1.txt" ∈ openedFiles "entrance" 1 1 := by decide +kernel
  refine ⟨hscan, by rw [hswitches]; exact List.mem_singleton_self _, hopened,
    by decide +kernel, fun h => ?_⟩
  have hcounted := (h "data/entranceswitch_1.txt").mp (by rw [hscan]; exact hopened)
  rw [hswitches, hlights] at hcounted
  revert hcounted
  decide

/-- **Every device counted is the device read** exactly when the entries counted have the
names that are opened, numbered from 1 without a gap. -/
theorem allDevicesRead_iff (hS : 1 ≤ (scan path dir).1) (hL : 1 ≤ (scan path dir).2) :
    AllDevicesRead path dir ↔ WellNamed path dir := by
  constructor
  · intro h
    exact h.wellNamed hS hL
  · intro h file
    have hswitches := (numbered_iff_perm (switchFile_injective path)
      (nodup_countedSwitches path dir)).mp h.switches
    have hlights := (numbered_iff_perm (lightFile_injective path)
      (nodup_countedLights path dir)).mp h.lights
    rw [mem_openedFiles hS hL, hswitches.mem_iff, hlights.mem_iff, scan_eq]

/-- In the kitchen all devices are read. -/
theorem allDevicesRead_kitchen : AllDevicesRead "kitchen" dataDirectory := by
  have hswitches : countedSwitches "kitchen" dataDirectory =
      (List.range' 1 4).map (switchFile "kitchen") := by decide +kernel
  have hlights : countedLights "kitchen" dataDirectory =
      (List.range' 1 2).map (lightFile "kitchen") := by decide +kernel
  have hscan : scan "kitchen" dataDirectory = (4, 2) := by
    rw [scan_eq, hswitches, hlights]
    rfl
  refine (allDevicesRead_iff (by rw [hscan]; decide) (by rw [hscan]; decide)).mpr ⟨?_, ?_⟩
  · rw [numbered_iff_perm (switchFile_injective _) (nodup_countedSwitches _ _), hswitches,
      List.length_map, List.length_range']
  · rw [numbered_iff_perm (lightFile_injective _) (nodup_countedLights _ _), hlights,
      List.length_map, List.length_range']

end Room
