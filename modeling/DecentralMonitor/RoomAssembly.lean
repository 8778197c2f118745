/-
# Which device is where after loading

The loading loops of `main` keep four things in step: the number of the pairwise
monitor, the file it is loaded from, the file of the centralised monitor, and the list
`formC` of device names.  This module reads `loadRoom_spec` in these terms.

* The pair of switch `p` and light `l` has number `(p - 1) * numLight + (l - 1)`
  (`getElem?_pairList`).
* Names and traces of the centralised monitor come from one list of named devices
  (`namedDevices`), so they are in the same order.
* The names are distinct (`nodup_deviceNames`).

Together they give `device_assembly`.
-/
import DecentralMonitor.RoomLoading
import DecentralMonitor.SegmentTrace

open TraceMonitor

namespace Room

variable {path : String} {numSwitch numLight : ℕ} {switch light : ℕ → Device}
  {files : String → List String}

/-! ## The number of a pair -/

theorem pairList_succ (numSwitch numLight : ℕ) : pairList (numSwitch + 1) numLight =
    pairList numSwitch numLight ++
      (List.range' 1 numLight).map (fun l => (numSwitch + 1, l)) := by
  unfold pairList
  rw [List.range'_concat, List.flatMap_append, List.flatMap_singleton]
  rw [show 1 + 1 * numSwitch = numSwitch + 1 by omega]

/-- The loops reach the pair of switch `p` and light `l` in iteration
`(p - 1) * numLight + (l - 1)`. -/
theorem getElem?_pairList {p l : ℕ} (hp : p ∈ List.range' 1 numSwitch)
    (hl : l ∈ List.range' 1 numLight) :
    (pairList numSwitch numLight)[(p - 1) * numLight + (l - 1)]? = some (p, l) := by
  rw [List.mem_range'_1] at hp hl
  induction numSwitch with
  | zero => omega
  | succ s ih =>
    rw [pairList_succ]
    rcases Nat.lt_or_ge p (s + 1) with hlt | hge
    · have hpair := ih ⟨hp.1, by omega⟩
      rw [List.getElem?_append_left (List.getElem?_eq_some_iff.mp hpair).1]
      exact hpair
    · -- the last switch: its lights are the last `numLight` pairs
      obtain rfl : p = s + 1 := by omega
      rw [List.getElem?_append_right (by rw [length_pairList]; simp), length_pairList,
        Nat.add_sub_cancel, Nat.add_sub_cancel_left, List.getElem?_map,
        List.getElem?_range' (by omega)]
      simp only [Option.map_some]
      rw [show 1 + 1 * (l - 1) = l by omega]

/-- So it is a monitor of the room. -/
theorem pairIndex_lt {p l : ℕ} (hp : p ∈ List.range' 1 numSwitch)
    (hl : l ∈ List.range' 1 numLight) :
    (p - 1) * numLight + (l - 1) < numSwitch * numLight := by
  have hlt := (List.getElem?_eq_some_iff.mp (getElem?_pairList hp hl)).1
  rwa [length_pairList] at hlt

/-! ## The named devices -/

/-- The devices in the order of the centralised monitor, each with its name. -/
def namedDevices (path : String) (numSwitch numLight : ℕ) (switch light : ℕ → Device) :
    List (String × Device) :=
  centOrder numSwitch numLight (fun p => (switchName path p, switch p))
    (fun l => (lightName path l, light l))

/-- The file of a named device holds its trace. -/
theorem DeviceFiles.file_eq (h : DeviceFiles path numSwitch numLight files switch light)
    (hS : 1 ≤ numSwitch) {e : String × Device}
    (he : e ∈ namedDevices path numSwitch numLight switch light) :
    files (e.1 ++ ".txt") = e.2.lines := by
  rcases (mem_centOrder hS).mp he with ⟨p, hp, rfl⟩ | ⟨l, hl, rfl⟩
  · exact h.switch p hp
  · exact h.light l hl

/-! ## Names -/

theorem switchName_inj {p q : ℕ} (h : switchName path p = switchName path q) : p = q := by
  have hdigits : toString p = toString q := (String.append_right_inj _).mp h
  exact toString_injective hdigits

theorem lightName_inj {k l : ℕ} (h : lightName path k = lightName path l) : k = l := by
  have hdigits : toString k = toString l := (String.append_right_inj _).mp h
  exact toString_injective hdigits

/-- No switch has the name of a light. -/
theorem switchName_ne_lightName (p l : ℕ) : switchName path p ≠ lightName path l := by
  intro h
  have hkind : "switch_" ++ toString p = "light_" ++ toString l := by
    apply (String.append_right_inj ("data/" ++ path)).mp
    rw [← String.append_assoc, ← String.append_assoc]
    exact h
  have htoList := congrArg String.toList hkind
  simp at htoList

/-- The names that `formC` collects are distinct. -/
theorem nodup_deviceNames :
    (centOrder numSwitch numLight (switchName path) (lightName path)).Nodup := by
  unfold centOrder
  rw [List.cons_append, List.nodup_cons]
  constructor
  · rw [List.mem_append, not_or]
    constructor
    · intro hmem
      obtain ⟨l, -, hl⟩ := List.mem_map.mp hmem
      exact switchName_ne_lightName 1 l hl.symm
    · intro hmem
      obtain ⟨p, hp, hname⟩ := List.mem_map.mp hmem
      rw [List.mem_range'_1, switchName_inj hname] at hp
      omega
  · apply List.Nodup.append
    · apply List.Nodup.map_on (fun k _ l _ h => lightName_inj h)
      exact List.nodup_range'
    · apply List.Nodup.map_on (fun p _ q _ h => switchName_inj h)
      exact List.nodup_range'
    · intro name hlight hswitch
      obtain ⟨l, -, rfl⟩ := List.mem_map.mp hlight
      obtain ⟨p, -, hname⟩ := List.mem_map.mp hswitch
      exact switchName_ne_lightName p l hname

/-! ## Assembly -/

/-- Process `i` of the loaded trace has exactly these values. -/
def HoldsTrace (m : TraceMonitor) (i : ℕ) (values : List String) : Prop :=
  m.numEventAll i = values.length ∧ (List.range (m.numEventAll i)).map (m.eValueAll i) = values

/-- The name and the trace in each place of the centralised monitor belong together. -/
theorem loadedCent_holds (hS : 1 ≤ numSwitch) {k : ℕ} (hk : k < numSwitch + numLight) :
    ∃ e ∈ namedDevices path numSwitch numLight switch light,
      (loadedCent path numSwitch numLight switch light).subformula[k]? = some e.1 ∧
        HoldsTrace (loadedCent path numSwitch numLight switch light) k e.2.values := by
  have hlen : k < (namedDevices path numSwitch numLight switch light).length := by
    rw [namedDevices, length_centOrder hS]
    exact hk
  have hnames : (loadedCent path numSwitch numLight switch light).subformula =
      (namedDevices path numSwitch numLight switch light).map Prod.fst := by
    rw [namedDevices, map_centOrder]
    rfl
  have hdevices : centOrder numSwitch numLight switch light =
      (namedDevices path numSwitch numLight switch light).map Prod.snd := by
    rw [namedDevices, map_centOrder]
  refine ⟨_, List.getElem_mem hlen, ?_, ?_⟩
  · rw [hnames, List.getElem?_map, List.getElem?_eq_getElem hlen]
    rfl
  · have hlen' : k < (centOrder numSwitch numLight switch light).length := by
      rw [length_centOrder hS]
      exact hk
    have hvalues := withTrace_values (blank.setValues 0
      (centOrder numSwitch numLight (switchName path) (lightName path)) 1 "detailsCen.txt")
      (centOrder numSwitch numLight switch light) hlen'
    have hget : (centOrder numSwitch numLight switch light)[k] =
        (namedDevices path numSwitch numLight switch light)[k].2 := by
      simp only [hdevices, List.getElem_map]
    rw [hget] at hvalues
    exact hvalues

/-- **Device assembly.**  In a room whose monitors and devices fit into the arrays,
with well-formed device files, loading returns, and

* the monitor of switch `p` and light `l` holds the trace of the switch as process 0 and
  the trace of the light as process 1;
* `formC` lists every device exactly once;
* the centralised monitor holds in each place the trace of the device that `formC` names
  there, as that device's file has it. -/
theorem device_assembly (hS : 1 ≤ numSwitch) (hL : 1 ≤ numLight)
    (hprocess : numSwitch + numLight ≤ maxProcess) (hmonitor : numSwitch * numLight ≤ maxMonitor)
    (hfiles : DeviceFiles path numSwitch numLight files switch light) :
    ∃ room, loadRoom path numSwitch numLight files = some room ∧
      (∀ p ∈ List.range' 1 numSwitch, ∀ l ∈ List.range' 1 numLight,
        ∃ i : Fin (numSwitch * numLight), (i : ℕ) = (p - 1) * numLight + (l - 1) ∧
          HoldsTrace (room.monitorList i) 0 (switch p).values ∧
          HoldsTrace (room.monitorList i) 1 (light l).values) ∧
      room.centMon.subformula.Nodup ∧
      room.centMon.subformula.length = numSwitch + numLight ∧
      (∀ name, name ∈ room.centMon.subformula ↔
        (∃ p ∈ List.range' 1 numSwitch, switchName path p = name) ∨
          ∃ l ∈ List.range' 1 numLight, lightName path l = name) ∧
      ∀ k < numSwitch + numLight, ∃ (name : String) (d : Device),
        room.centMon.subformula[k]? = some name ∧ files (name ++ ".txt") = d.lines ∧
          HoldsTrace room.centMon k d.values := by
  refine ⟨_, loadRoom_spec hS hL hprocess hmonitor hfiles, ?_, nodup_deviceNames,
    length_centOrder hS _ _, fun name => mem_centOrder hS, ?_⟩
  · intro p hp l hl
    refine ⟨⟨(p - 1) * numLight + (l - 1), pairIndex_lt hp hl⟩, rfl, ?_⟩
    have hpair := (List.getElem?_eq_some_iff.mp (getElem?_pairList hp hl)).2
    have hmon : loadedPair path numSwitch numLight switch light
        ((pairList numSwitch numLight).get ((⟨(p - 1) * numLight + (l - 1), pairIndex_lt hp hl⟩ :
          Fin (numSwitch * numLight)).cast (length_pairList numSwitch numLight).symm)) =
        loadedPair path numSwitch numLight switch light (p, l) :=
      congrArg _ hpair
    have hvalues : ∀ i (hi : i < [switch p, light l].length),
        HoldsTrace (loadedPair path numSwitch numLight switch light (p, l)) i
          [switch p, light l][i].values :=
      fun i hi => withTrace_values _ [switch p, light l] hi
    simp only [hmon]
    exact ⟨hvalues 0 (by simp), hvalues 1 (by simp)⟩
  · intro k hk
    obtain ⟨e, he, hname, hholds⟩ : ∃ e ∈ namedDevices path numSwitch numLight switch light,
        (loadedCent path numSwitch numLight switch light).subformula[k]? = some e.1 ∧
          HoldsTrace (loadedCent path numSwitch numLight switch light) k e.2.values :=
      loadedCent_holds hS hk
    exact ⟨e.1, e.2, hname, hfiles.file_eq hS he, hholds⟩

/-- A kitchen with two switches and a light: the light is process 1 of the second pairwise
monitor, and the centralised monitor has it in place 1 too. -/
theorem device_assembly_kitchen :
    ∃ room, loadRoom "kitchen" 2 1 (fun name =>
        if name = "data/kitchenlight_1.txt" then kitchenLight.lines else kitchenSwitch.lines) =
          some room ∧
      (∃ i : Fin (2 * 1), (i : ℕ) = 1 ∧ HoldsTrace (room.monitorList i) 1 ["0", "0"]) ∧
      room.centMon.subformula.Nodup := by
  have hfiles : DeviceFiles "kitchen" 2 1 (fun name =>
      if name = "data/kitchenlight_1.txt" then kitchenLight.lines else kitchenSwitch.lines)
      (fun _ => kitchenSwitch) (fun _ => kitchenLight) :=
    ⟨by decide +kernel, by decide +kernel⟩
  obtain ⟨room, hroom, hpairs, hnodup, -⟩ :=
    device_assembly (by decide) (by decide) (by decide) (by decide) hfiles
  obtain ⟨i, hi, -, hlight⟩ := hpairs 2 (by decide) 1 (by decide)
  exact ⟨room, hroom, ⟨i, hi, hlight⟩, hnodup⟩

end Room
