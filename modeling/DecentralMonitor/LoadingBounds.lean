/-
# When the loading phase stays inside its arrays

Nothing in the source tests a capacity: `monitorList[mon++]` runs through all pairs of a
switch and a light, and `readFile` stores every value in the next place of the row of the
last header.  An access outside an array is `none` in the model, so the question is
when loading returns.

For device files of any length and a room of any size, `loadRoom_succeeds_iff` gives
the exact condition: at most twenty pairs, at most a hundred values for each device, and no
value for a device whose row in the centralised monitor is beyond the tenth.
-/
import DecentralMonitor.RoomLoading

open FallibleLoop TraceMonitor

/-! ## Device files of any length -/

/-- The file of a device: a header, then any number of values. -/
structure DeviceFile where
  header : String
  values : List String
  isHeader : TraceMonitor.IsHeader header
  not_isHeader : ∀ v ∈ values, ¬ TraceMonitor.IsHeader v

/-- The lines of the file. -/
def DeviceFile.lines (d : DeviceFile) : List String := d.header :: d.values

/-- The values of the device fit row `i` of the arrays. -/
def DeviceFile.FitsRow (d : DeviceFile) (i : ℕ) : Prop :=
  d.values.length ≤ maxEvent ∧ (maxProcess ≤ i → d.values = [])

namespace TraceMonitor

/-! ## Reading a file of any length -/

/-- A value is stored if the row of the last header and the next place in it exist. -/
theorem readLine_value_eq (m : TraceMonitor) (traces : List (List String)) (values : List String)
    {line : String} (hline : ¬ IsHeader line) :
    readLine (withTrace m (traces ++ [values])) line =
      if traces.length < maxProcess ∧ values.length < maxEvent then
        some (withTrace m (traces ++ [values ++ [line]]))
      else none := by
  split
  · next hfits => exact readLine_value m hline hfits.1 hfits.2
  · next hfull =>
    have hproc : (((traces ++ [values]).length : ℤ) - 1) = (traces.length : ℤ) := by
      rw [List.length_append, List.length_singleton]
      omega
    have hnum : ((traces ++ [values]).getD traces.length []).length = values.length := by
      rw [getD_append_singleton, if_pos rfl]
    unfold readLine
    rw [if_neg hline]
    simp only [withTrace, hproc, Int.toNat_natCast, hnum]
    rw [if_neg fun h => hfull h.2]

/-- Reading values until one does not fit. -/
theorem readValues_eq (m : TraceMonitor) (traces : List (List String)) {vs : List String}
    (hvs : ∀ v ∈ vs, ¬ IsHeader v) (values : List String) :
    vs.foldlM readLine (withTrace m (traces ++ [values])) =
      if vs = [] ∨ traces.length < maxProcess ∧ values.length + vs.length ≤ maxEvent then
        some (withTrace m (traces ++ [values ++ vs]))
      else none := by
  induction vs generalizing values with
  | nil =>
    rw [if_pos (Or.inl rfl), List.append_nil]
    rfl
  | cons v vs ih =>
    rw [List.foldlM_cons, readLine_value_eq m traces values (hvs v List.mem_cons_self)]
    have ih' := ih (fun w hw => hvs w (List.mem_cons_of_mem v hw)) (values ++ [v])
    rw [List.append_assoc, List.singleton_append, List.length_append, List.length_singleton] at ih'
    by_cases hfits : traces.length < maxProcess ∧ values.length < maxEvent
    · rw [if_pos hfits, Option.bind_eq_bind, Option.bind_some, ih']
      cases vs with
      | nil =>
        have hlast : traces.length < maxProcess ∧ values.length + [v].length ≤ maxEvent := hfits
        rw [if_pos (Or.inl rfl), if_pos (Or.inr hlast)]
      | cons w vs =>
        have hcond : (w :: vs = [] ∨ traces.length < maxProcess ∧
            values.length + 1 + (w :: vs).length ≤ maxEvent) ↔ (v :: w :: vs = [] ∨
              traces.length < maxProcess ∧ values.length + (v :: w :: vs).length ≤ maxEvent) := by
          simp only [List.length_cons, reduceCtorEq, false_or]
          omega
        exact if_congr hcond rfl rfl
    · rw [if_neg hfits, if_neg]
      · rfl
      · simp only [List.length_cons, reduceCtorEq, false_or]
        omega

/-- The lines of a device are read exactly when its values fit the next row. -/
theorem readLines_eq (m : TraceMonitor) (traces : List (List String)) (d : DeviceFile)
    [Decidable (d.FitsRow traces.length)] :
    d.lines.foldlM readLine (withTrace m traces) =
      if d.FitsRow traces.length then some (withTrace m (traces ++ [d.values])) else none := by
  rw [DeviceFile.lines, List.foldlM_cons, readLine_header m traces d.isHeader, Option.bind_eq_bind,
    Option.bind_some, readValues_eq m traces d.not_isHeader []]
  refine if_congr ?_ rfl rfl
  unfold DeviceFile.FitsRow
  rw [List.length_nil, Nat.zero_add]
  constructor
  · rintro (hnil | ⟨hrow, hlen⟩)
    · exact ⟨by simp [hnil], fun _ => hnil⟩
    · exact ⟨hlen, fun hge => by omega⟩
  · rintro ⟨hlen, hrow⟩
    by_cases hge : maxProcess ≤ traces.length
    · exact Or.inl (hrow hge)
    · exact Or.inr ⟨by omega, hlen⟩

/-- **When `readFile` stays inside the arrays**: every device of the file fits its row. -/
theorem readFile_succeeds_iff {files : String → List String} (m : TraceMonitor)
    {ds : List DeviceFile} (mId : ℕ) (mSubformula : List String) (mNumMonitors : ℕ)
    {traceFile : String} (hfile : files traceFile = ds.flatMap DeviceFile.lines) :
    (∃ m', readFile files (m.setValues mId mSubformula mNumMonitors traceFile) = some m') ↔
      ∀ pre d, pre ++ [d] <+: ds → d.FitsRow pre.length := by
  classical
  have hname : (m.setValues mId mSubformula mNumMonitors traceFile).traceFileName = traceFile := rfl
  unfold readFile
  rw [hname, hfile, foldlM_flatMap]
  refine (exists_foldlM_read_iff (P := fun pre u => u =
    withTrace (m.setValues mId mSubformula mNumMonitors traceFile) (pre.map DeviceFile.values))
    rfl ?_).1
  rintro pre d - u rfl
  have hread := readLines_eq (m.setValues mId mSubformula mNumMonitors traceFile)
    (pre.map DeviceFile.values) d
  rw [List.length_map] at hread
  rw [hread, List.map_append, List.map_singleton]
  by_cases hfits : d.FitsRow pre.length
  · simp [hfits]
  · simp [hfits]

end TraceMonitor

namespace Room

/-! ## The loading loops -/

/-- The files of the room `path` are those of these switches and lights. -/
structure RoomFiles (path : String) (numSwitch numLight : ℕ) (files : String → List String)
    (switch light : ℕ → DeviceFile) : Prop where
  switch : ∀ p ∈ List.range' 1 numSwitch, files (switchName path p ++ ".txt") = (switch p).lines
  light : ∀ l ∈ List.range' 1 numLight, files (lightName path l ++ ".txt") = (light l).lines

/-- The lines of the devices that the iterations for the pairs `pre` add to the centralised
monitor's file. -/
def centLines (switch light : ℕ → DeviceFile) (pre : List (ℕ × ℕ)) : List String :=
  (pre.flatMap (centPart switch light)).flatMap DeviceFile.lines

/-- The state of the loading loops after the pairs `pre`, as far as the accesses depend on
it. -/
structure WrittenUpTo (files : String → List String) (switch light : ℕ → DeviceFile)
    (pre : List (ℕ × ℕ)) (st : LoadState) : Prop where
  files : ∃ dist, Written files dist (centLines switch light pre) st.files
  mon : st.mon = pre.length

variable {path : String} {numSwitch numLight : ℕ} {switch light : ℕ → DeviceFile}
  {files : String → List String}

/-- Before the loops the centralised monitor's file is emptied. -/
theorem writtenUpTo_init (files : String → List String) : WrittenUpTo files switch light []
    ⟨Function.update files "detailsCen.txt" [], [], fun _ => TraceMonitor.blank, 0⟩ :=
  ⟨⟨_, written_openCen files⟩, rfl⟩

theorem centLines_append_singleton (pre : List (ℕ × ℕ)) (p l : ℕ) :
    centLines switch light (pre ++ [(p, l)]) = (centLines switch light pre ++
      if l = 1 then (switch p).lines else []) ++ if p = 1 then (light l).lines else [] := by
  unfold centLines
  rw [List.flatMap_append, List.flatMap_append, List.flatMap_singleton, List.append_assoc]
  congr 1
  unfold centPart
  by_cases hl : l = 1 <;> by_cases hp : p = 1 <;> simp [hl, hp]

/-- The elements of a list at their places. -/
theorem forall_prefix_iff {α : Type} {l : List α} {C : ℕ → α → Prop} :
    (∀ pre a, pre ++ [a] <+: l → C pre.length a) ↔ ∀ k a, l[k]? = some a → C k a := by
  constructor
  · intro h k a hk
    obtain ⟨hlt, rfl⟩ := List.getElem?_eq_some_iff.mp hk
    have hpre := h (l.take k) l[k] (by
      rw [List.take_append_getElem hlt]
      exact List.take_prefix (k + 1) l)
    rwa [List.length_take_of_le hlt.le] at hpre
  · rintro h pre a ⟨post, rfl⟩
    apply h
    simp

/-- In the trace file of a pair the switch has row 0 and the light row 1. -/
theorem forall_fitsRow_pair (d e : DeviceFile) :
    (∀ pre d', pre ++ [d'] <+: [d, e] → d'.FitsRow pre.length) ↔ d.FitsRow 0 ∧ e.FitsRow 1 := by
  rw [forall_prefix_iff (C := fun k (d' : DeviceFile) => d'.FitsRow k)]
  constructor
  · intro h
    exact ⟨h 0 d rfl, h 1 e rfl⟩
  · rintro ⟨hd, he⟩ k d' hk
    rcases k with - | - | k
    · obtain rfl : d = d' := by simpa using hk
      exact hd
    · obtain rfl : e = d' := by simpa using hk
      exact he
    · simp at hk

/-- An iteration returns exactly when there is a monitor left and both devices fit. -/
theorem loadPair_succeeds_iff (hfiles : RoomFiles path numSwitch numLight files switch light)
    {pre : List (ℕ × ℕ)} {p l : ℕ} (hpair : (p, l) ∈ pairList numSwitch numLight)
    {st : LoadState} (h : WrittenUpTo files switch light pre st) :
    ((∃ st', loadPair path numSwitch numLight p st l = some st') ↔
      pre.length < maxMonitor ∧ (switch p).FitsRow 0 ∧ (light l).FitsRow 1) ∧
    ∀ st', loadPair path numSwitch numLight p st l = some st' →
      WrittenUpTo files switch light (pre ++ [(p, l)]) st' := by
  obtain ⟨hp, hl⟩ := mem_pairList.mp hpair
  obtain ⟨dist, hwritten⟩ := h.files
  have hwritten' := hwritten.pair path p l (hfiles.switch p hp) (hfiles.light l hl)
  rw [← centLines_append_singleton] at hwritten'
  have hdist := hwritten'.dist.trans (show [] ++ (switch p).lines ++ (light l).lines =
    [switch p, light l].flatMap DeviceFile.lines by simp [List.flatMap_cons])
  -- the trace file of the pair holds its two devices
  have hread := readFile_succeeds_iff (st.monitorList st.mon) 0
    [switchName path p, lightName path l] (numSwitch * numLight) hdist
  rw [forall_fitsRow_pair] at hread
  unfold loadPair
  simp only
  rw [h.mon]
  by_cases hroom : pre.length < maxMonitor
  · rw [if_pos hroom, ← h.mon]
    constructor
    · rw [← hread]
      constructor
      · rintro ⟨st', hst'⟩
        obtain ⟨m, hm, -⟩ := Option.bind_eq_some_iff.mp hst'
        exact ⟨h.mon ▸ hroom, m, hm⟩
      · rintro ⟨-, m, hm⟩
        exact ⟨_, by rw [hm]; rfl⟩
    · intro st' hst'
      obtain ⟨m, -, hm⟩ := Option.bind_eq_some_iff.mp hst'
      obtain rfl := Option.some.inj hm
      refine ⟨⟨_, hwritten'⟩, ?_⟩
      show st.mon + 1 = _
      rw [h.mon, List.length_append, List.length_singleton]
  · rw [if_neg hroom]
    simp [hroom]

/-- The condition under which every access of the loading phase is inside its array. -/
structure LoadingFits (numSwitch numLight : ℕ) (switch light : ℕ → DeviceFile) : Prop where
  /-- There are enough monitors for the pairs. -/
  monitors : numSwitch * numLight ≤ maxMonitor
  /-- The values of every device fit a row. -/
  switches : ∀ p ∈ List.range' 1 numSwitch, (switch p).values.length ≤ maxEvent
  lights : ∀ l ∈ List.range' 1 numLight, (light l).values.length ≤ maxEvent
  /-- A device without a row in the centralised monitor has no values. -/
  rows : ∀ (k : ℕ) (d : DeviceFile), (centOrder numSwitch numLight switch light)[k]? = some d →
    maxProcess ≤ k → d.values = []

theorem fitsRow_of_lt {d : DeviceFile} {i : ℕ} (hi : i < maxProcess) :
    d.FitsRow i ↔ d.values.length ≤ maxEvent := by
  unfold DeviceFile.FitsRow
  constructor
  · exact And.left
  · intro hlen
    exact ⟨hlen, fun hge => by omega⟩

/-- The loops return exactly when there is a monitor for every pair and every device fits a
row. -/
theorem loadPairs_succeeds_iff (hS : 1 ≤ numSwitch) (hL : 1 ≤ numLight)
    (hfiles : RoomFiles path numSwitch numLight files switch light) {st : LoadState}
    (h : WrittenUpTo files switch light [] st) :
    ((∃ st', loadPairs path numSwitch numLight st = some st') ↔
      numSwitch * numLight ≤ maxMonitor ∧
      (∀ p ∈ List.range' 1 numSwitch, (switch p).values.length ≤ maxEvent) ∧
      ∀ l ∈ List.range' 1 numLight, (light l).values.length ≤ maxEvent) ∧
    ∀ st', loadPairs path numSwitch numLight st = some st' →
      WrittenUpTo files switch light (pairList numSwitch numLight) st' := by
  rw [loadPairs_eq]
  obtain ⟨hiff, hwritten⟩ := exists_foldlM_read_iff
    (f := fun st (pair : ℕ × ℕ) => loadPair path numSwitch numLight pair.1 st pair.2)
    (C := fun pre pair => pre.length < maxMonitor ∧ (switch pair.1).FitsRow 0 ∧
      (light pair.2).FitsRow 1)
    (P := WrittenUpTo files switch light) (l := pairList numSwitch numLight) h
    (by
      rintro pre ⟨p, l⟩ hpre u hu
      exact loadPair_succeeds_iff hfiles (hpre.subset (by simp)) hu)
  refine ⟨hiff.trans ?_, hwritten⟩
  simp only [fitsRow_of_lt (show 0 < maxProcess by decide),
    fitsRow_of_lt (show 1 < maxProcess by decide)]
  have hlen := length_pairList numSwitch numLight
  constructor
  · intro hall
    -- every pair is the last one of some beginning of the list
    have hmem : ∀ pair ∈ pairList numSwitch numLight,
        (switch pair.1).values.length ≤ maxEvent ∧ (light pair.2).values.length ≤ maxEvent := by
      intro pair hpair
      obtain ⟨pre, post, hsplit⟩ := List.mem_iff_append.mp hpair
      refine (hall pre pair ⟨post, ?_⟩).2
      rw [hsplit, List.append_assoc, List.singleton_append]
    refine ⟨?_, fun p hp => ?_, fun l hl => ?_⟩
    · rcases (pairList numSwitch numLight).eq_nil_or_concat' with hnil | ⟨pre, pair, hlast⟩
      · rw [← hlen, hnil]
        exact Nat.zero_le _
      · have hroom := (hall pre pair (by rw [hlast])).1
        rw [← hlen, hlast, List.length_append, List.length_singleton]
        exact hroom
    · exact (hmem (p, 1) (mem_pairList.mpr ⟨hp, by rw [List.mem_range'_1]; omega⟩)).1
    · exact (hmem (1, l) (mem_pairList.mpr ⟨by rw [List.mem_range'_1]; omega, hl⟩)).2
  · rintro ⟨hroom, hswitch, hlight⟩ pre ⟨p, l⟩ hpre
    have hle := hpre.length_le
    rw [hlen, List.length_append, List.length_singleton] at hle
    have hpair : (p, l) ∈ pairList numSwitch numLight := hpre.subset (by simp)
    obtain ⟨hp, hl⟩ := mem_pairList.mp hpair
    exact ⟨by omega, hswitch p hp, hlight l hl⟩

/-- Every device fits its row of the centralised monitor. -/
theorem forall_fitsRow_iff (hS : 1 ≤ numSwitch) :
    (∀ pre d, pre ++ [d] <+: centOrder numSwitch numLight switch light →
      d.FitsRow pre.length) ↔
    ((∀ p ∈ List.range' 1 numSwitch, (switch p).values.length ≤ maxEvent) ∧
      ∀ l ∈ List.range' 1 numLight, (light l).values.length ≤ maxEvent) ∧
    ∀ (k : ℕ) (d : DeviceFile), (centOrder numSwitch numLight switch light)[k]? = some d →
      maxProcess ≤ k → d.values = [] := by
  have hmem : (∀ d ∈ centOrder numSwitch numLight switch light, d.values.length ≤ maxEvent) ↔
      (∀ p ∈ List.range' 1 numSwitch, (switch p).values.length ≤ maxEvent) ∧
        ∀ l ∈ List.range' 1 numLight, (light l).values.length ≤ maxEvent := by
    simp only [mem_centOrder hS, or_imp, forall_and, forall_exists_index, and_imp,
      forall_apply_eq_imp_iff₂]
  rw [forall_prefix_iff (C := fun k (d : DeviceFile) => d.FitsRow k), ← hmem]
  unfold DeviceFile.FitsRow
  constructor
  · intro h
    constructor
    · intro d hd
      obtain ⟨k, hk⟩ := List.mem_iff_getElem?.mp hd
      exact (h k d hk).1
    · intro k d hk
      exact (h k d hk).2
  · rintro ⟨hlen, hrows⟩ k d hk
    exact ⟨hlen d (List.mem_of_getElem? hk), hrows k d hk⟩

/-- A device with as many values as the traces of the bathroom have. -/
def longDevice : DeviceFile where
  header := "bathroomswitch"
  values := List.replicate 262 "0"
  isHeader := by decide
  not_isHeader := by
    intro v hv
    obtain rfl := List.eq_of_mem_replicate hv
    decide

/-- The bathroom, with four switches and two lights of 262 values each, does not fit. -/
theorem loadRoom_overflows : ∃ files, RoomFiles "bathroom" 4 2 files
    (fun _ => longDevice) (fun _ => longDevice) ∧ loadRoom "bathroom" 4 2 files = none := by
  have hfiles : RoomFiles "bathroom" 4 2 (fun _ => longDevice.lines)
      (fun _ => longDevice) (fun _ => longDevice) := ⟨fun _ _ => rfl, fun _ _ => rfl⟩
  refine ⟨_, hfiles, ?_⟩
  obtain ⟨hiff, -⟩ := loadPairs_succeeds_iff (by decide) (by decide) hfiles (writtenUpTo_init _)
  rw [Option.eq_none_iff_forall_ne_some]
  intro room hroom
  unfold loadRoom at hroom
  simp only [Option.bind_eq_bind, Option.bind_eq_some_iff] at hroom
  obtain ⟨st, hst, -⟩ := hroom
  have hlong : longDevice.values.length ≤ maxEvent := (hiff.mp ⟨st, hst⟩).2.1 1 (by decide)
  unfold longDevice at hlong
  rw [List.length_replicate] at hlong
  exact absurd hlong (by decide)

/-- **When loading stays inside the arrays.**  For a room of any size with device files of
any length, the loading phase makes no access outside `monitorList`, `EValueAll` and
`numEventAll` exactly when the room fits. -/
theorem loadRoom_succeeds_iff (hS : 1 ≤ numSwitch) (hL : 1 ≤ numLight)
    (hfiles : RoomFiles path numSwitch numLight files switch light) :
    (∃ room, loadRoom path numSwitch numLight files = some room) ↔
      LoadingFits numSwitch numLight switch light := by
  obtain ⟨hiff, hwritten⟩ := loadPairs_succeeds_iff hS hL hfiles (writtenUpTo_init files)
  -- the centralised monitor reads every device once
  have hcent : ∀ st, loadPairs path numSwitch numLight
      ⟨Function.update files "detailsCen.txt" [], [], fun _ => TraceMonitor.blank, 0⟩ = some st →
      ((∃ cent, readFile st.files (TraceMonitor.blank.setValues 0 st.formC 1 "detailsCen.txt") =
        some cent) ↔ ∀ pre d, pre ++ [d] <+: centOrder numSwitch numLight switch light →
          d.FitsRow pre.length) := by
    intro st hst
    obtain ⟨dist, hfinal⟩ := (hwritten st hst).files
    have hlines := hfinal.cent
    unfold centLines at hlines
    rw [flatMap_centPart hS hL] at hlines
    exact readFile_succeeds_iff TraceMonitor.blank 0 st.formC 1 hlines
  simp only [forall_fitsRow_iff hS] at hcent
  unfold loadRoom
  simp only [Option.bind_eq_bind, Option.bind_eq_some_iff]
  constructor
  · rintro ⟨room, st, hst, cent, hread, -⟩
    obtain ⟨hmon, hswitch, hlight⟩ := hiff.mp ⟨st, hst⟩
    exact ⟨hmon, hswitch, hlight, ((hcent st hst).mp ⟨cent, hread⟩).2⟩
  · rintro ⟨hmon, hswitch, hlight, hrows⟩
    obtain ⟨st, hst⟩ := hiff.mpr ⟨hmon, hswitch, hlight⟩
    obtain ⟨cent, hread⟩ := (hcent st hst).mpr ⟨⟨hswitch, hlight⟩, hrows⟩
    exact ⟨_, st, hst, cent, hread, rfl⟩

/-- A kitchen with two switches and a light fits. -/
theorem loadRoom_succeeds_kitchen :
    ∃ room, loadRoom "kitchen" 2 1 (fun _ => "kitchenswitch" :: ["0", "1"]) = some room := by
  have hfiles : RoomFiles "kitchen" 2 1 (fun _ => "kitchenswitch" :: ["0", "1"])
      (fun _ => ⟨"kitchenswitch", ["0", "1"], by decide, by decide⟩)
      (fun _ => ⟨"kitchenswitch", ["0", "1"], by decide, by decide⟩) :=
    ⟨fun _ _ => rfl, fun _ _ => rfl⟩
  apply (loadRoom_succeeds_iff (by decide) (by decide) hfiles).mpr
  refine ⟨by decide, by decide, by decide, fun k d hk hge => ?_⟩
  have hlt := (List.getElem?_eq_some_iff.mp hk).1
  rw [length_centOrder (by decide)] at hlt
  unfold maxProcess at hge
  omega

end Room
