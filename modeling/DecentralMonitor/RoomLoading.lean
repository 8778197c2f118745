/-
# What the loading phase leaves in a room

For a room whose switches and lights have well-formed device files, `loadRoom_spec`
says what the loops of `main` load: monitor number `k` gets the two devices of the
`k`-th pair, and the centralised monitor gets every device once, in the order
`centOrder`.  As `readFile` does not count the last device, a pairwise monitor ends with
one process and the centralised one with one less than there are devices.
-/
import DecentralMonitor.Room
import DecentralMonitor.TraceLoading

open FallibleLoop TraceMonitor

namespace Room

/-! ## The devices of a room -/

/-- The files of the room `path` hold the traces of these switches and lights. -/
structure DeviceFiles (path : String) (numSwitch numLight : ℕ) (files : String → List String)
    (switch light : ℕ → Device) : Prop where
  switch : ∀ p ∈ List.range' 1 numSwitch, files (switchName path p ++ ".txt") = (switch p).lines
  light : ∀ l ∈ List.range' 1 numLight, files (lightName path l ++ ".txt") = (light l).lines

/-- The pairs of a switch and a light in the order of the loops. -/
def pairList (numSwitch numLight : ℕ) : List (ℕ × ℕ) :=
  (List.range' 1 numSwitch).flatMap fun p => (List.range' 1 numLight).map fun l => (p, l)

/-- What the iteration for one pair adds to the centralised monitor. -/
def centPart {α : Type} (switch light : ℕ → α) (pair : ℕ × ℕ) : List α :=
  (if pair.2 = 1 then [switch pair.1] else []) ++ (if pair.1 = 1 then [light pair.2] else [])

/-- The order of the devices in the centralised monitor: the first switch, all lights, the
other switches. -/
def centOrder {α : Type} (numSwitch numLight : ℕ) (switch light : ℕ → α) : List α :=
  switch 1 :: (List.range' 1 numLight).map light ++ (List.range' 2 (numSwitch - 1)).map switch

theorem length_pairList (numSwitch numLight : ℕ) :
    (pairList numSwitch numLight).length = numSwitch * numLight := by
  unfold pairList
  rw [List.length_flatMap]
  simp

theorem mem_pairList {numSwitch numLight p l : ℕ} :
    (p, l) ∈ pairList numSwitch numLight ↔
      p ∈ List.range' 1 numSwitch ∧ l ∈ List.range' 1 numLight := by
  simp [pairList]

theorem length_centOrder {α : Type} {numSwitch numLight : ℕ} (hS : 1 ≤ numSwitch)
    (switch light : ℕ → α) :
    (centOrder numSwitch numLight switch light).length = numSwitch + numLight := by
  unfold centOrder
  simp
  omega

theorem map_centOrder {α β : Type} (f : α → β) (numSwitch numLight : ℕ) (switch light : ℕ → α) :
    (centOrder numSwitch numLight switch light).map f =
      centOrder numSwitch numLight (fun p => f (switch p)) (fun l => f (light l)) := by
  simp [centOrder, Function.comp_def]

/-- It has every switch and every light. -/
theorem mem_centOrder {α : Type} {numSwitch numLight : ℕ} (hS : 1 ≤ numSwitch)
    {switch light : ℕ → α} {a : α} :
    a ∈ centOrder numSwitch numLight switch light ↔
      (∃ p ∈ List.range' 1 numSwitch, switch p = a) ∨
        ∃ l ∈ List.range' 1 numLight, light l = a := by
  have hfirst : List.range' 1 numSwitch = 1 :: List.range' 2 (numSwitch - 1) := by
    obtain ⟨s, rfl⟩ : ∃ s, numSwitch = s + 1 := ⟨numSwitch - 1, by omega⟩
    rw [List.range'_succ, Nat.add_sub_cancel]
  rw [hfirst]
  simp only [centOrder, List.cons_append, List.mem_cons, List.mem_append, List.mem_map]
  constructor
  · rintro (rfl | ⟨l, hl, rfl⟩ | ⟨p, hp, rfl⟩)
    · exact Or.inl ⟨1, Or.inl rfl, rfl⟩
    · exact Or.inr ⟨l, hl, rfl⟩
    · exact Or.inl ⟨p, Or.inr hp, rfl⟩
  · rintro (⟨p, rfl | hp, rfl⟩ | ⟨l, hl, rfl⟩)
    · exact Or.inl rfl
    · exact Or.inr (Or.inr ⟨p, hp, rfl⟩)
    · exact Or.inr (Or.inl ⟨l, hl, rfl⟩)

/-- The lights after the first one add only themselves, and only for the first switch. -/
theorem centPart_of_ne_one {α : Type} (switch light : ℕ → α) (p : ℕ) {l : ℕ} (hl : l ≠ 1) :
    centPart switch light (p, l) = if p = 1 then [light l] else [] := by
  unfold centPart
  rw [if_neg hl]
  rfl

/-- The iterations of one switch add it, and the first switch adds all lights. -/
theorem flatMap_centPart_switch {α : Type} {numLight : ℕ} (hL : 1 ≤ numLight)
    (switch light : ℕ → α) (p : ℕ) :
    ((List.range' 1 numLight).map fun l => (p, l)).flatMap (centPart switch light) =
      switch p :: if p = 1 then (List.range' 1 numLight).map light else [] := by
  obtain ⟨t, rfl⟩ : ∃ t, numLight = t + 1 := ⟨numLight - 1, by omega⟩
  have hrest : (List.range' 2 t).flatMap (fun l => centPart switch light (p, l)) =
      (List.range' 2 t).flatMap fun l => if p = 1 then [light l] else [] := by
    refine List.flatMap_congr fun l hl => ?_
    rw [List.mem_range'_1] at hl
    exact centPart_of_ne_one switch light p (by omega)
  rw [List.range'_succ, List.map_cons, List.flatMap_cons, List.flatMap_map, hrest]
  unfold centPart
  by_cases hp : p = 1
  · simp only [hp, if_true, List.map_cons, List.cons_append, List.nil_append]
    congr 2
    exact List.flatMap_pure_eq_map _ _
  · simp [hp]

/-- The iterations add the devices in that order. -/
theorem flatMap_centPart {α : Type} {numSwitch numLight : ℕ} (hS : 1 ≤ numSwitch)
    (hL : 1 ≤ numLight) (switch light : ℕ → α) :
    (pairList numSwitch numLight).flatMap (centPart switch light) =
      centOrder numSwitch numLight switch light := by
  obtain ⟨s, rfl⟩ : ∃ s, numSwitch = s + 1 := ⟨numSwitch - 1, by omega⟩
  have hother : ∀ p ∈ List.range' 2 s, (switch p :: if p = 1 then
      (List.range' 1 numLight).map light else []) = [switch p] := by
    intro p hp
    rw [List.mem_range'_1] at hp
    rw [if_neg (by omega)]
  unfold pairList centOrder
  rw [List.flatMap_assoc]
  simp only [flatMap_centPart_switch hL]
  rw [List.range'_succ, List.flatMap_cons, if_pos rfl, List.flatMap_congr hother]
  congr 1
  exact List.flatMap_pure_eq_map _ _

/-! ## Files -/

theorem fileLines_append (ds ds' : List Device) :
    fileLines (ds ++ ds') = fileLines ds ++ fileLines ds' :=
  List.flatMap_append

theorem fileLines_singleton (d : Device) : fileLines [d] = d.lines :=
  List.flatMap_singleton ..

theorem fileLines_pair (d d' : Device) : fileLines [d, d'] = [] ++ d.lines ++ d'.lines := by
  rw [← List.singleton_append, fileLines_append, fileLines_singleton, fileLines_singleton]
  rfl

/-- The device files lie in the directory `data`, so no trace file is one of them. -/
theorem data_ne {rest name : String} (hname : name = "detailsDist.txt" ∨ name = "detailsCen.txt") :
    "data/" ++ rest ≠ name := by
  intro h
  have htoList := congrArg String.toList h
  rcases hname with rfl | rfl <;> simp at htoList

theorem switchName_ne (path : String) (p : ℕ) {name : String}
    (hname : name = "detailsDist.txt" ∨ name = "detailsCen.txt") :
    switchName path p ++ ".txt" ≠ name := by
  unfold switchName
  rw [String.append_assoc, String.append_assoc, String.append_assoc]
  exact data_ne hname

theorem lightName_ne (path : String) (l : ℕ) {name : String}
    (hname : name = "detailsDist.txt" ∨ name = "detailsCen.txt") :
    lightName path l ++ ".txt" ≠ name := by
  unfold lightName
  rw [String.append_assoc, String.append_assoc, String.append_assoc]
  exact data_ne hname

/-- What copying the file of a device writes. -/
theorem copyLines_apply (device : String) (central : Prop) [Decidable central]
    (files : String → List String) (name : String) :
    copyLines device central files name =
      if name = "detailsDist.txt" then files "detailsDist.txt" ++ files (device ++ ".txt")
      else if name = "detailsCen.txt" ∧ central then
        files "detailsCen.txt" ++ files (device ++ ".txt")
      else files name := by
  have happend : ∀ (fs : String → List String) file lines,
      appendLines fs file lines name = if name = file then fs file ++ lines else fs name :=
    fun fs file lines => Function.update_apply ..
  unfold copyLines
  by_cases hc : central
  · rw [if_pos hc, happend, happend]
    by_cases hdist : name = "detailsDist.txt"
    · rw [if_neg (by rw [hdist]; decide), if_pos hdist, if_pos hdist]
    · simp only [hdist, hc, and_true, if_false]
      rw [appendLines, Function.update_of_ne (by decide)]
  · rw [if_neg hc, happend]
    simp only [hc, and_false, if_false]

/-- The lines of the trace files and what is left of the other files, after some writing. -/
structure Written (files : String → List String) (dist cent : List String)
    (files' : String → List String) : Prop where
  dist : files' "detailsDist.txt" = dist
  cent : files' "detailsCen.txt" = cent
  other : ∀ name, name ≠ "detailsDist.txt" → name ≠ "detailsCen.txt" → files' name = files name

/-- Opening `detailsDist.txt` empties it. -/
theorem Written.openDist {files files' : String → List String} {dist cent : List String}
    (h : Written files dist cent files') :
    Written files [] cent (Function.update files' "detailsDist.txt" []) where
  dist := Function.update_self ..
  cent := by
    rw [Function.update_of_ne (by decide)]
    exact h.cent
  other := by
    intro name h₁ h₂
    rw [Function.update_of_ne h₁]
    exact h.other name h₁ h₂

/-- Copying the file of a device adds its lines. -/
theorem Written.copyLines {files files' : String → List String} {dist cent lines : List String}
    (h : Written files dist cent files') {device : String}
    (hfile : files (device ++ ".txt") = lines)
    (hname : ∀ name, name = "detailsDist.txt" ∨ name = "detailsCen.txt" →
      device ++ ".txt" ≠ name) (central : Prop) [Decidable central] :
    Written files (dist ++ lines) (cent ++ if central then lines else [])
      (copyLines device central files') := by
  have hlines : files' (device ++ ".txt") = lines := by
    rw [h.other _ (hname _ (Or.inl rfl)) (hname _ (Or.inr rfl)), hfile]
  refine ⟨?_, ?_, fun name h₁ h₂ => ?_⟩
  · rw [copyLines_apply, if_pos rfl, h.dist, hlines]
  · rw [copyLines_apply, if_neg (by decide), h.cent, hlines]
    by_cases hc : central
    · rw [if_pos ⟨rfl, hc⟩, if_pos hc]
    · rw [if_neg (fun h => hc h.2), if_neg hc, List.append_nil]
  · rw [copyLines_apply, if_neg h₁, if_neg (fun h => h₂ h.1)]
    exact h.other name h₁ h₂

/-- What an iteration of the loading loops writes: the file of the pair anew, and the parts of
the centralised monitor's file. -/
theorem Written.pair {files files' : String → List String} {dist cent : List String}
    (h : Written files dist cent files') (path : String) (p l : ℕ) {switch light : List String}
    (hswitch : files (switchName path p ++ ".txt") = switch)
    (hlight : files (lightName path l ++ ".txt") = light) :
    Written files ([] ++ switch ++ light)
      ((cent ++ if l = 1 then switch else []) ++ if p = 1 then light else [])
      (Room.copyLines (lightName path l) (p = 1) (Room.copyLines (switchName path p) (l = 1)
        (Function.update files' "detailsDist.txt" []))) :=
  (h.openDist.copyLines hswitch (fun _ => switchName_ne path p) (l = 1)).copyLines hlight
    (fun _ => lightName_ne path l) (p = 1)

/-- Before the loops the centralised monitor's file is emptied. -/
theorem written_openCen (files : String → List String) :
    Written files (files "detailsDist.txt") [] (Function.update files "detailsCen.txt" []) where
  dist := Function.update_of_ne (by decide) ..
  cent := Function.update_self ..
  other := fun _ _ hcent => Function.update_of_ne hcent ..

/-- What the trace files hold and what is left of the other files, after some writing. -/
structure FilesAre (files : String → List String) (dist : List String) (cent : List Device)
    (files' : String → List String) : Prop where
  dist : files' "detailsDist.txt" = dist
  cent : files' "detailsCen.txt" = fileLines cent
  other : ∀ name, name ≠ "detailsDist.txt" → name ≠ "detailsCen.txt" → files' name = files name

theorem filesAre_iff {files files' : String → List String} {dist : List String}
    {cent : List Device} :
    FilesAre files dist cent files' ↔ Written files dist (fileLines cent) files' :=
  ⟨fun h => ⟨h.dist, h.cent, h.other⟩, fun h => ⟨h.dist, h.cent, h.other⟩⟩

/-- Opening `detailsDist.txt` empties it. -/
theorem FilesAre.openDist {files files' : String → List String} {dist : List String}
    {cent : List Device} (h : FilesAre files dist cent files') :
    FilesAre files [] cent (Function.update files' "detailsDist.txt" []) :=
  filesAre_iff.mpr (filesAre_iff.mp h).openDist

/-- Copying the file of a device adds the device. -/
theorem FilesAre.copyLines {files files' : String → List String} {dist : List String}
    {cent : List Device} (h : FilesAre files dist cent files') {device : String} {d : Device}
    (hfile : files (device ++ ".txt") = d.lines)
    (hname : ∀ name, name = "detailsDist.txt" ∨ name = "detailsCen.txt" →
      device ++ ".txt" ≠ name) (central : Prop) [Decidable central] :
    FilesAre files (dist ++ d.lines) (cent ++ if central then [d] else [])
      (copyLines device central files') := by
  have hwritten := (filesAre_iff.mp h).copyLines hfile hname central
  have hcent : fileLines (cent ++ if central then [d] else []) =
      fileLines cent ++ if central then d.lines else [] := by
    rw [fileLines_append]
    split
    · rw [fileLines_singleton]
    · rfl
  rw [filesAre_iff, hcent]
  exact hwritten

/-! ## The loading loops -/

section Loading

variable (path : String) (numSwitch numLight : ℕ) (switch light : ℕ → Device)

/-- The monitor of a pair after loading. -/
def loadedPair (pair : ℕ × ℕ) : TraceMonitor :=
  withTrace (blank.setValues 0 [switchName path pair.1, lightName path pair.2]
    (numSwitch * numLight) "detailsDist.txt") [(switch pair.1).values, (light pair.2).values]

/-- The centralised monitor after loading. -/
def loadedCent : TraceMonitor :=
  withTrace (blank.setValues 0
    (centOrder numSwitch numLight (switchName path) (lightName path)) 1 "detailsCen.txt")
    ((centOrder numSwitch numLight switch light).map Device.values)

/-- The state of the loading loops after the pairs `pre`. -/
structure LoadedUpTo (files : String → List String) (pre : List (ℕ × ℕ)) (st : LoadState) :
    Prop where
  files : ∃ dist, FilesAre files dist (pre.flatMap (centPart switch light)) st.files
  formC : st.formC = pre.flatMap (centPart (switchName path) (lightName path))
  mon : st.mon = pre.length
  loaded : ∀ k (hk : k < pre.length),
    st.monitorList k = loadedPair path numSwitch numLight switch light pre[k]
  blank : ∀ k, pre.length ≤ k → st.monitorList k = blank

end Loading

variable {path : String} {numSwitch numLight : ℕ} {switch light : ℕ → Device}
  {files : String → List String}

/-- One pair more. -/
theorem loadPair_spec (hfiles : DeviceFiles path numSwitch numLight files switch light)
    {pre : List (ℕ × ℕ)} {p l : ℕ} (hpair : (p, l) ∈ pairList numSwitch numLight)
    (hroom : pre.length < maxMonitor) {st : LoadState}
    (h : LoadedUpTo path numSwitch numLight switch light files pre st) :
    ∃ st', loadPair path numSwitch numLight p st l = some st' ∧
      LoadedUpTo path numSwitch numLight switch light files (pre ++ [(p, l)]) st' := by
  obtain ⟨hp, hl⟩ := mem_pairList.mp hpair
  obtain ⟨dist, hare⟩ := h.files
  have hare' := (hare.openDist.copyLines (hfiles.switch p hp)
    (fun _ => switchName_ne path p) (l = 1)).copyLines (hfiles.light l hl)
    (fun _ => lightName_ne path l) (p = 1)
  have hlen : [switch p, light l].length ≤ maxProcess := by
    rw [List.length_cons, List.length_singleton]
    decide
  have hdist := hare'.dist.trans (fileLines_pair (switch p) (light l)).symm
  -- the trace file holds the two devices, whatever it held before
  have hread := readFile_lines (st.monitorList st.mon) hlen 0
    [switchName path p, lightName path l] (numSwitch * numLight) hdist
  have hblank : st.monitorList st.mon = TraceMonitor.blank := by
    rw [h.mon]
    exact h.blank _ le_rfl
  unfold loadPair
  simp only
  rw [if_pos (by rw [h.mon]; exact hroom), hread]
  refine ⟨_, rfl, ⟨?_, ?_, ?_, ?_, ?_⟩⟩
  · rw [List.flatMap_append, List.flatMap_singleton]
    refine ⟨[] ++ (switch p).lines ++ (light l).lines, ?_⟩
    unfold centPart at hare' ⊢
    rw [← List.append_assoc]
    exact hare'
  · show st.formC ++ _ ++ _ = _
    rw [List.flatMap_append, List.flatMap_singleton, h.formC, List.append_assoc]
    rfl
  · show st.mon + 1 = _
    rw [h.mon, List.length_append, List.length_singleton]
  · intro k hk
    rw [List.length_append, List.length_singleton] at hk
    show Function.update st.monitorList st.mon _ k = _
    rcases Nat.lt_succ_iff_lt_or_eq.mp hk with hlt | rfl
    · rw [Function.update_of_ne (by rw [h.mon]; exact hlt.ne), h.loaded k hlt,
        List.getElem_append_left hlt]
    · rw [h.mon, Function.update_self, List.getElem_concat_length rfl, ← h.mon, hblank]
      rfl
  · intro k hk
    rw [List.length_append, List.length_singleton] at hk
    show Function.update st.monitorList st.mon _ k = _
    rw [Function.update_of_ne (by rw [h.mon]; omega)]
    exact h.blank k (by omega)

/-- The two loops as one. -/
theorem loadPairs_eq (st : LoadState) : loadPairs path numSwitch numLight st =
    (pairList numSwitch numLight).foldlM
      (fun st pair => loadPair path numSwitch numLight pair.1 st pair.2) st := by
  unfold loadPairs pairList
  rw [foldlM_flatMap]
  congr 1
  funext st p
  rw [List.foldlM_map]

/-- **What the loading phase loads.** -/
theorem loadRoom_spec (hS : 1 ≤ numSwitch) (hL : 1 ≤ numLight)
    (hprocess : numSwitch + numLight ≤ maxProcess) (hmonitor : numSwitch * numLight ≤ maxMonitor)
    (hfiles : DeviceFiles path numSwitch numLight files switch light) :
    loadRoom path numSwitch numLight files = some
      { monitorList := fun k => loadedPair path numSwitch numLight switch light
          ((pairList numSwitch numLight).get (k.cast (length_pairList numSwitch numLight).symm))
        centMon := loadedCent path numSwitch numLight switch light } := by
  obtain ⟨st, hst, hloaded⟩ := exists_foldlM_read
    (f := fun st (pair : ℕ × ℕ) => loadPair path numSwitch numLight pair.1 st pair.2)
    (P := LoadedUpTo path numSwitch numLight switch light files)
    (l := pairList numSwitch numLight)
    (s := ⟨Function.update files "detailsCen.txt" [], [], fun _ => TraceMonitor.blank, 0⟩)
    ⟨⟨_, filesAre_iff.mpr (written_openCen files)⟩, rfl, rfl, by simp, fun _ _ => rfl⟩
    (by
      rintro pre ⟨p, l⟩ hpre u hu
      have hlen := hpre.length_le
      rw [length_pairList, List.length_append, List.length_singleton] at hlen
      exact loadPair_spec hfiles (hpre.subset (by simp)) (by omega) hu)
  -- after the loops the trace file of the centralised monitor is complete
  obtain ⟨dist, hare⟩ := hloaded.files
  have hcent := hare.cent
  rw [flatMap_centPart hS hL] at hcent
  have hformC := hloaded.formC
  rw [flatMap_centPart hS hL] at hformC
  have hread := readFile_lines blank (by rw [length_centOrder hS]; exact hprocess) 0 st.formC 1
    hcent
  unfold loadRoom
  rw [loadPairs_eq, hst]
  show (do
    let cent ← readFile st.files (blank.setValues 0 st.formC 1 "detailsCen.txt")
    some (Room.mk (fun i : Fin (numSwitch * numLight) => st.monitorList i) cent)) = _
  rw [hread, hformC]
  refine congrArg some ?_
  congr 1
  funext k
  have hk : (k : ℕ) < (pairList numSwitch numLight).length := by
    rw [length_pairList]
    exact k.isLt
  exact hloaded.loaded k hk

end Room
