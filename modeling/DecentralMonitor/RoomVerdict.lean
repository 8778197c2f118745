/-
# The centralised and the pairwise verdicts

A room can be monitored by one monitor for each pair of a switch and a light, or by
the centralised monitor alone, and the conjunction of the pairwise verdicts is meant to
be the centralised verdict.  For aligned traces both sides are known: as the last device
is not counted, a pairwise monitor sees one process and the centralised one a process
less than there are devices, so the verdicts are `alignedVerdict 1 w eps` and
`alignedVerdict (numSwitch + numLight - 1) w eps` where `w` is the width of the segment.

`verdictsAgree_iff` says when they agree.  They hardly ever do: a recorded pair alone
makes the centralised verdict false.
-/
import Mathlib.Data.Nat.Prime.Basic
import DecentralMonitor.AlignedSegment
import DecentralMonitor.RoomLoading

open Constraint TraceMonitor

namespace Room

/-! ## AlignedTrace rooms -/

/-- A room whose devices have traces of `T` values each, and whose traces and monitors
fit the arrays. -/
structure AlignedRoom (path : String) (numSwitch numLight T : ℕ) (files : String → List String)
    (switch light : ℕ → Device) : Prop where
  switches : 1 ≤ numSwitch
  lights : 1 ≤ numLight
  processes : numSwitch + numLight ≤ maxProcess
  monitors : numSwitch * numLight ≤ maxMonitor
  files : DeviceFiles path numSwitch numLight files switch light
  switch_length : ∀ p ∈ List.range' 1 numSwitch, (switch p).values.length = T
  light_length : ∀ l ∈ List.range' 1 numLight, (light l).values.length = T

/-- The monitors of the room after they have read a segment. -/
structure SegmentTaken {n : ℕ} (start fin eps : ℤ) (room : Room n) (pair : Fin n → TraceMonitor)
    (cent : TraceMonitor) : Prop where
  pair : ∀ k, readSegTrace start fin eps (room.monitorList k) = some (pair k)
  cent : readSegTrace start fin eps room.centMon = some cent

/-- All verdicts are defined, and the conjunction of the pairwise ones is the centralised
one. -/
structure VerdictsAgree {n : ℕ} (z : Solver) (pair : Fin n → TraceMonitor)
    (cent : TraceMonitor) : Prop where
  fits : (∀ k, (pair k).HbFits) ∧ cent.HbFits
  agree : ∃ (vs : Fin n → Bool) (v : Bool), (∀ k, solveSMT z (pair k) = some (vs k)) ∧
    solveSMT z cent = some v ∧ (v = true ↔ ∀ k, vs k = true)

/-- A monitor that has just read at most ten devices fits its arrays. -/
theorem loaded_withTrace (m : TraceMonitor) {ds : List Device} (hfit : ds.length ≤ maxProcess) :
    Loaded (withTrace m (ds.map Device.values)) := by
  have hnum : (withTrace m (ds.map Device.values)).numProcess = (ds.length : ℤ) - 1 := by
    show ((ds.map Device.values).length : ℤ) - 1 = _
    rw [List.length_map]
  refine ⟨by omega, fun i hi => ?_⟩
  rw [(withTrace_values m ds (show i < ds.length by omega)).1]
  exact Device.length_le _

/-- A monitor that has just read devices with `T` values each counts all but the last. -/
theorem aligned_withTrace {m : TraceMonitor} (hhb : m.hbSet = []) (ds : List Device) {P T : ℕ}
    (hlen : ds.length = P + 1) (hfit : ds.length ≤ maxProcess)
    (hT : ∀ d ∈ ds, d.values.length = T) :
    AlignedTrace P T (withTrace m (ds.map Device.values)) := by
  have hnum : (withTrace m (ds.map Device.values)).numProcess = P := by
    show ((ds.map Device.values).length : ℤ) - 1 = P
    rw [List.length_map, hlen]
    omega
  refine ⟨loaded_withTrace m hfit, hnum, fun i hi => ?_, hhb⟩
  rw [(withTrace_values m ds (show i < ds.length by omega)).1]
  exact hT _ (List.getElem_mem _)

section

variable {path : String} {numSwitch numLight T : ℕ} {files : String → List String}
  {switch light : ℕ → Device}

/-- The pairwise monitors of an aligned room count one process. -/
theorem AlignedRoom.aligned_loadedPair
    (h : AlignedRoom path numSwitch numLight T files switch light) {pair : ℕ × ℕ}
    (hpair : pair ∈ pairList numSwitch numLight) :
    AlignedTrace 1 T (loadedPair path numSwitch numLight switch light pair) := by
  obtain ⟨p, l⟩ := pair
  obtain ⟨hp, hl⟩ := mem_pairList.mp hpair
  refine aligned_withTrace rfl [switch p, light l] rfl (by
    rw [List.length_cons, List.length_singleton]
    decide) fun d hd => ?_
  rcases List.mem_pair.mp hd with rfl | rfl
  · exact h.switch_length p hp
  · exact h.light_length l hl

/-- The centralised monitor of an aligned room counts one process less than there are
devices. -/
theorem AlignedRoom.aligned_loadedCent
    (h : AlignedRoom path numSwitch numLight T files switch light) :
    AlignedTrace (numSwitch + numLight - 1) T
      (loadedCent path numSwitch numLight switch light) := by
  have hlen : (centOrder numSwitch numLight switch light).length = numSwitch + numLight :=
    length_centOrder h.switches switch light
  have hS := h.switches
  have hfit := h.processes
  refine aligned_withTrace rfl _ (by omega) (by omega) fun d hd => ?_
  unfold centOrder at hd
  rw [List.cons_append, List.mem_cons, List.mem_append, List.mem_map, List.mem_map] at hd
  rcases hd with rfl | ⟨l, hl, rfl⟩ | ⟨p, hp, rfl⟩
  · exact h.switch_length 1 (List.mem_range'_1.mpr (by omega))
  · exact h.light_length l hl
  · rw [List.mem_range'_1] at hp
    exact h.switch_length p (List.mem_range'_1.mpr (by omega))

/-- A segment that starts inside the trace has an event. -/
theorem one_le_segWidth {start fin : ℕ} (eps : ℕ) (hT : start < T) (hfin : start < fin) :
    1 ≤ segWidth T start fin eps := by
  unfold segWidth segStart
  omega

/-- **The verdicts of a room.**  An aligned room is loaded, its monitors read the segment,
and these are the pairs they record and the verdicts of the solver. -/
theorem AlignedRoom.verdicts (h : AlignedRoom path numSwitch numLight T files switch light)
    (start fin eps : ℕ) (hT : start < T) (hfin : start < fin) :
    ∃ room pair cent, loadRoom path numSwitch numLight files = some room ∧
      SegmentTaken start fin eps room pair cent ∧
      (∀ k, (pair k).HbFits) ∧
      (cent.HbFits ↔ (numSwitch + numLight - 1) * (numSwitch + numLight - 1 - 1) *
        apart (segWidth T start fin eps) eps ≤ 50) ∧
      ∀ z, (∀ k, solveSMT z (pair k) = alignedVerdict 1 (segWidth T start fin eps) eps) ∧
        solveSMT z cent =
          alignedVerdict (numSwitch + numLight - 1) (segWidth T start fin eps) eps := by
  have hw := one_le_segWidth eps hT hfin
  have hpairs : ∀ k : Fin (numSwitch * numLight), AlignedTrace 1 T
      (loadedPair path numSwitch numLight switch light ((pairList numSwitch numLight).get
        (k.cast (length_pairList numSwitch numLight).symm))) :=
    fun k => h.aligned_loadedPair (List.get_mem ..)
  have hcent := h.aligned_loadedCent
  choose pair hpair hpairSegment using fun k =>
    readSegTrace_spec (hpairs k).loaded start fin eps
  obtain ⟨cent, hread, hcentSegment⟩ := readSegTrace_spec hcent.loaded start fin eps
  have hS := h.switches
  have hL := h.lights
  refine ⟨_, pair, cent, loadRoom_spec h.switches h.lights h.processes h.monitors h.files,
    ⟨hpair, hread⟩, fun k => ?_, hcent.hbFits_iff hcentSegment, fun z => ⟨fun k => ?_, ?_⟩⟩
  · rw [(hpairs k).hbFits_iff (hpairSegment k)]
    simp
  · exact solveSMT_aligned z (hpairs k) le_rfl (hpairSegment k) hw
  · exact solveSMT_aligned z hcent (by omega) hcentSegment hw

end

/-! ## The kitchen -/

/-- The files of a kitchen with the same trace for every switch and every light. -/
def kitchenFiles (name : String) : List String :=
  if name = "data/kitchenlight_1.txt" then kitchenLight.lines else kitchenSwitch.lines

/-- Two switches and a light. -/
theorem alignedRoom_kitchen : AlignedRoom "kitchen" 2 1 2 kitchenFiles
    (fun _ => kitchenSwitch) (fun _ => kitchenLight) where
  switches := by decide
  lights := by decide
  processes := by decide
  monitors := by decide
  files := ⟨by decide +kernel, by decide +kernel⟩
  switch_length := by decide
  light_length := by decide

/-- In the first segment of the kitchen with `eps = 0` both pairwise verdicts are true and
the centralised one is false. -/
theorem verdicts_disagree : ∃ (room : Room (2 * 1)) (pair : Fin (2 * 1) → TraceMonitor)
    (cent : TraceMonitor), loadRoom "kitchen" 2 1 kitchenFiles = some room ∧
      SegmentTaken 0 4 0 room pair cent ∧ (∀ k, (pair k).HbFits) ∧ cent.HbFits ∧
      ∀ z, (∀ k, solveSMT z (pair k) = some true) ∧ solveSMT z cent = some false := by
  obtain ⟨room, pair, cent, hroom, htaken, hfits, hcent, hverdicts⟩ :=
    alignedRoom_kitchen.verdicts 0 4 0 (by decide) (by decide)
  exact ⟨room, pair, cent, hroom, htaken, hfits, hcent.mpr (by decide), hverdicts⟩

/-! ## When they agree -/

/-- The condition on the number `P` of processes that the centralised monitor counts, the
width of the segment and `eps` under which the verdicts agree. -/
structure AgreeCondition (P w eps : ℕ) : Prop where
  /-- The pairs fit their array. -/
  fits : P * (P - 1) * apart w eps ≤ 50
  /-- The centralised monitor does not see more than a pairwise one, or nothing is
  recorded and the verdicts do not depend on the number of processes, or something is
  recorded and every verdict is false. -/
  verdicts : P = 1 ∨ (w ≤ eps ∧ (w = 1 ∨ w = 3 → w = 1 ∧ P = 3)) ∨ (eps < w ∧ (w = 1 ∨ w = 3))

/-- When all pairwise verdicts are the same, agreement is equality with that verdict. -/
theorem agree_iff_eq {n : ℕ} (hn : 0 < n) {os : Fin n → Option Bool} {o : Option Bool} {b : Bool}
    (hos : ∀ k, os k = some b) :
    (∃ (vs : Fin n → Bool) (v : Bool), (∀ k, os k = some (vs k)) ∧ o = some v ∧
      (v = true ↔ ∀ k, vs k = true)) ↔ o = some b := by
  constructor
  · rintro ⟨vs, v, hvs, rfl, h⟩
    have hsame : ∀ k, vs k = b := fun k => Option.some.inj ((hvs k).symm.trans (hos k))
    rw [Option.some.injEq, Bool.eq_iff_iff, h]
    constructor
    · intro hall
      rw [← hsame ⟨0, hn⟩]
      exact hall ⟨0, hn⟩
    · intro hb k
      rw [hsame k, hb]
  · rintro rfl
    exact ⟨fun _ => b, b, hos, rfl, fun hb _ => hb, fun hall => hall ⟨0, hn⟩⟩

theorem alignedVerdict_one (w eps : ℕ) :
    alignedVerdict 1 w eps = some (decide (w ≠ 1 ∧ w ≠ 3)) := by
  unfold alignedVerdict
  rw [if_pos (Or.inl le_rfl), Nat.one_mul]

/-- When more processes do not change the verdict. -/
theorem alignedVerdict_eq_one_iff {P w : ℕ} (eps : ℕ) (hP : 1 ≤ P) (hP' : P < maxProcess)
    (hw : 1 ≤ w) : alignedVerdict P w eps = some (decide (w ≠ 1 ∧ w ≠ 3)) ↔
      P = 1 ∨ (w ≤ eps ∧ (w = 1 ∨ w = 3 → w = 1 ∧ P = 3)) ∨ (eps < w ∧ (w = 1 ∨ w = 3)) := by
  rcases Nat.eq_or_lt_of_le hP with rfl | hP2
  · simp [alignedVerdict_one]
  unfold alignedVerdict
  rcases Nat.lt_or_ge eps w with heps | hle
  · rw [if_neg (by omega)]
    by_cases hmask : P * w ≤ 31
    · -- something is recorded: the verdict is false
      rw [if_pos hmask, Option.some.injEq, Eq.comm, decide_eq_false_iff_not]
      omega
    · -- so many events that the window is wider than three
      have hwide : 3 < w := by
        by_contra hle
        have hmul : P * w ≤ 9 * 3 := Nat.mul_le_mul (by unfold maxProcess at hP'; omega) (by omega)
        omega
      rw [if_neg hmask]
      simp only [reduceCtorEq, false_iff]
      omega
  · -- nothing is recorded: the number of events decides
    have hone : P * w = 1 ↔ P = 1 ∧ w = 1 := mul_eq_one
    have hthree : P * w = 3 ↔ (P = 1 ∧ w = 3) ∨ (P = 3 ∧ w = 1) := by
      constructor
      · intro h
        rcases (Nat.dvd_prime Nat.prime_three).mp (Dvd.intro w h) with rfl | rfl <;> omega
      · rintro (⟨rfl, rfl⟩ | ⟨rfl, rfl⟩) <;> rfl
    rw [if_pos (Or.inr hle), Option.some.injEq, decide_eq_decide, ne_eq, ne_eq, hone, hthree]
    obtain rfl | rfl | ⟨h1, h3⟩ : w = 1 ∨ w = 3 ∨ (w ≠ 1 ∧ w ≠ 3) := by omega
    · simp [hP2.ne', hle, hle.not_gt]
    · simp [hP2.ne', hle, hle.not_gt]
    · simp [hP2.ne', hle, hle.not_gt, h1, h3]

/-- **When the verdicts agree.**  For every aligned room and every segment that starts
inside the trace, the room is loaded, its monitors read the segment, and the conjunction
of the pairwise verdicts is the centralised verdict exactly under `AgreeCondition`. -/
theorem verdictsAgree_iff (z : Solver) {path : String} {numSwitch numLight T : ℕ}
    {files : String → List String} {switch light : ℕ → Device}
    (h : AlignedRoom path numSwitch numLight T files switch light) (start fin eps : ℕ)
    (hT : start < T) (hfin : start < fin) :
    ∃ room pair cent, loadRoom path numSwitch numLight files = some room ∧
      SegmentTaken start fin eps room pair cent ∧
      (VerdictsAgree z pair cent ↔
        AgreeCondition (numSwitch + numLight - 1) (min T fin - (start - eps)) eps) := by
  obtain ⟨room, pair, cent, hroom, htaken, hfits, hcent, hverdicts⟩ :=
    h.verdicts start fin eps hT hfin
  have hS := h.switches
  have hL := h.lights
  have hfit := h.processes
  have hwidth : segWidth T start fin eps = min T fin - (start - eps) := by
    unfold segWidth segStart
    omega
  have hw := one_le_segWidth eps hT hfin
  rw [hwidth] at hcent hverdicts hw
  have hP : 1 ≤ numSwitch + numLight - 1 := by omega
  have hP' : numSwitch + numLight - 1 < maxProcess := by omega
  obtain ⟨hpairVerdict, hcentVerdict⟩ := hverdicts z
  refine ⟨room, pair, cent, hroom, htaken, ?_⟩
  have hsame := alignedVerdict_eq_one_iff eps hP hP' hw
  rw [← hcentVerdict] at hsame
  have hagree := (agree_iff_eq (Nat.mul_pos hS hL) fun k =>
    (hpairVerdict k).trans (alignedVerdict_one _ eps)).trans hsame
  constructor
  · rintro ⟨⟨-, hfits'⟩, hva⟩
    exact ⟨hcent.mp hfits', hagree.mp hva⟩
  · rintro ⟨hfits', hcond⟩
    exact ⟨⟨hfits, hcent.mpr hfits'⟩, hagree.mpr hcond⟩

/-- The same segment of the kitchen with `eps = 2`: nothing is recorded, and the verdicts
agree. -/
theorem verdictsAgree_kitchen : ∃ (room : Room (2 * 1)) (pair : Fin (2 * 1) → TraceMonitor)
    (cent : TraceMonitor), loadRoom "kitchen" 2 1 kitchenFiles = some room ∧
      SegmentTaken 0 4 2 room pair cent ∧ VerdictsAgree default pair cent := by
  obtain ⟨room, pair, cent, hroom, htaken, hagree⟩ :=
    verdictsAgree_iff default alignedRoom_kitchen 0 4 2 (by decide) (by decide)
  exact ⟨room, pair, cent, hroom, htaken,
    hagree.mpr ⟨by decide, Or.inr (Or.inl ⟨by decide, by decide⟩)⟩⟩

end Room
