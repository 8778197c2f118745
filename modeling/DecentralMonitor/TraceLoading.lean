/-
# Loading the trace of a list of devices

A trace file is written device after device: a header line that contains `light` or
`switch`, then one line for each value.  `readFile` is to undo this.

`readFile_lines` says what it does: the values arrive complete and in order, process
by process, but the counter `numProcess` starts at `-1` and is incremented at each
header, so it ends as the index of the last device and not as the number of
devices (`readFile_numProcess`).  Every loop `for i < numProcess` that uses the
trace leaves the last device out.
-/
import Mathlib.Data.List.GetD
import Mathlib.Data.List.Induction
import DecentralMonitor.TraceMonitor

open FallibleLoop

/-! ## Devices -/

/-- The trace of a device. -/
structure Device where
  header : String
  values : List String
  isHeader : TraceMonitor.IsHeader header
  not_isHeader : ∀ v ∈ values, ¬ TraceMonitor.IsHeader v
  length_le : values.length ≤ maxEvent

/-- The lines of the device's file. -/
def Device.lines (d : Device) : List String := d.header :: d.values

namespace TraceMonitor

/-- The monitor `m` after the values `traces` have been read, one list for each header
seen. -/
def withTrace (m : TraceMonitor) (traces : List (List String)) : TraceMonitor :=
  { m with
    numProcess := traces.length - 1
    eValueAll := fun i k => (traces.getD i []).getD k ""
    numEventAll := fun i => (traces.getD i []).length }

/-! ## Reading one device -/

theorem getD_append_singleton {α : Type} (l : List α) (a d : α) (i : ℕ) :
    (l ++ [a]).getD i d = if i = l.length then a else l.getD i d := by
  rcases Nat.lt_trichotomy i l.length with hi | rfl | hi
  · rw [List.getD_append _ _ _ _ hi, if_neg hi.ne]
  · rw [List.getD_append_right _ _ _ _ le_rfl, Nat.sub_self, if_pos rfl]
    rfl
  · rw [List.getD_eq_default _ _ (by rw [List.length_append, List.length_singleton]; omega),
      if_neg hi.ne', List.getD_eq_default _ _ hi.le]

/-- The value of a new process without values. -/
theorem getD_append_nil (traces : List (List String)) (i : ℕ) :
    (traces ++ [[]]).getD i [] = traces.getD i [] := by
  rw [getD_append_singleton]
  split
  · rw [List.getD_eq_default _ _ (by omega)]
  · rfl

/-- A header opens a new process without values. -/
theorem readLine_header (m : TraceMonitor) (traces : List (List String)) {line : String}
    (hline : IsHeader line) :
    readLine (withTrace m traces) line = some (withTrace m (traces ++ [[]])) := by
  have hcount : (traces.length : ℤ) - 1 + 1 = ((traces ++ [[]]).length : ℤ) - 1 := by
    rw [List.length_append, List.length_singleton]
    omega
  unfold readLine
  rw [if_pos hline]
  simp only [withTrace, hcount, getD_append_nil]

/-- A value goes to the end of the last process. -/
theorem readLine_value (m : TraceMonitor) {traces : List (List String)} {values : List String}
    {line : String} (hline : ¬ IsHeader line) (htraces : traces.length < maxProcess)
    (hvalues : values.length < maxEvent) :
    readLine (withTrace m (traces ++ [values])) line =
      some (withTrace m (traces ++ [values ++ [line]])) := by
  have hproc : (((traces ++ [values]).length : ℤ) - 1) = (traces.length : ℤ) := by
    rw [List.length_append, List.length_singleton]
    omega
  have hproc' : (((traces ++ [values ++ [line]]).length : ℤ) - 1) = (traces.length : ℤ) := by
    rw [List.length_append, List.length_singleton]
    omega
  have hnum : ((traces ++ [values]).getD traces.length []).length = values.length := by
    rw [getD_append_singleton, if_pos rfl]
  unfold readLine
  rw [if_neg hline]
  simp only [withTrace, hproc, hproc', Int.toNat_natCast, hnum]
  rw [if_pos ⟨by omega, htraces, hvalues⟩]
  refine congrArg some ?_
  congr 1
  · -- the array of values
    funext i k
    by_cases hi : i = traces.length
    · subst hi
      rw [assign, Function.update_self, getD_append_singleton traces values, if_pos rfl,
        getD_append_singleton traces (values ++ [line]), if_pos rfl, getD_append_singleton values]
      by_cases hk : k = values.length
      · rw [hk, Function.update_self, if_pos rfl]
      · rw [Function.update_of_ne hk, if_neg hk]
    · rw [assign, Function.update_of_ne hi, getD_append_singleton, getD_append_singleton,
        if_neg hi, if_neg hi]
  · -- the array of lengths
    funext i
    by_cases hi : i = traces.length
    · subst hi
      rw [Function.update_self, getD_append_singleton, if_pos rfl, List.length_append,
        List.length_singleton]
    · rw [Function.update_of_ne hi, getD_append_singleton, getD_append_singleton, if_neg hi,
        if_neg hi]

/-- Reading the lines of a device adds its values as one more process. -/
theorem readLine_lines (m : TraceMonitor) {traces : List (List String)} (d : Device)
    (htraces : traces.length < maxProcess) :
    d.lines.foldlM readLine (withTrace m traces) = some (withTrace m (traces ++ [d.values])) := by
  rw [Device.lines, List.foldlM_cons, readLine_header m traces d.isHeader, Option.bind_eq_bind,
    Option.bind_some]
  -- the values read so far are the last process
  refine foldlM_eq_some_of_read (fun values => withTrace m (traces ++ [values])) ?_
  intro pre line hpre
  have hmem : line ∈ d.values := hpre.subset (by simp)
  have hlen : (pre ++ [line]).length ≤ d.values.length := hpre.length_le
  rw [List.length_append, List.length_singleton] at hlen
  exact readLine_value m (d.not_isHeader line hmem) htraces (by
    have := d.length_le
    omega)

/-! ## Reading a file -/

/-- The lines of a file made of these devices one after another. -/
def fileLines (ds : List Device) : List String := ds.flatMap Device.lines

/-- **What `readFile` does** on a file made of at most ten devices. -/
theorem readFile_lines {files : String → List String} (m : TraceMonitor) {ds : List Device}
    (hlen : ds.length ≤ maxProcess) (mId : ℕ) (mSubformula : List String) (mNumMonitors : ℕ)
    {traceFile : String} (hfile : files traceFile = fileLines ds) :
    readFile files (m.setValues mId mSubformula mNumMonitors traceFile) =
      some (withTrace (m.setValues mId mSubformula mNumMonitors traceFile)
        (ds.map Device.values)) := by
  have hname : (m.setValues mId mSubformula mNumMonitors traceFile).traceFileName = traceFile := rfl
  unfold readFile
  rw [hname, hfile]
  show (fileLines ds).foldlM readLine
    (withTrace (m.setValues mId mSubformula mNumMonitors traceFile) []) = _
  generalize m.setValues mId mSubformula mNumMonitors traceFile = m₀
  clear hname hfile
  unfold fileLines
  induction ds using List.reverseRecOn with
  | nil => rfl
  | append_singleton ds d ih =>
    rw [List.length_append, List.length_singleton] at hlen
    rw [List.flatMap_append, foldlM_append_eq_some_iff, List.map_append]
    refine ⟨withTrace m₀ (ds.map Device.values), ih (by omega), ?_⟩
    rw [List.flatMap_singleton]
    exact readLine_lines m₀ d (by rw [List.length_map]; omega)

/-- A switch of the kitchen. -/
def kitchenSwitch : Device where
  header := "kitchenswitch_1"
  values := ["0", "1"]
  isHeader := by decide
  not_isHeader := by decide
  length_le := by decide

/-- A light of the kitchen. -/
def kitchenLight : Device where
  header := "kitchenlight_1"
  values := ["0", "0"]
  isHeader := by decide
  not_isHeader := by decide
  length_le := by decide

/-- A monitor loaded from the file of two switches and a light. -/
def kitchenTrace : TraceMonitor :=
  withTrace (blank.setValues 0 [] 1 "detailsCen.txt") [["0", "1"], ["0", "1"], ["0", "0"]]

example : readFile (fun _ => fileLines [kitchenSwitch, kitchenSwitch, kitchenLight])
    (blank.setValues 0 [] 1 "detailsCen.txt") = some kitchenTrace := by
  have hlen : [kitchenSwitch, kitchenSwitch, kitchenLight].length ≤ maxProcess := by decide
  exact readFile_lines blank hlen 0 [] 1 rfl

/-- What loading is meant to achieve: `numProcess` counts the devices, and the values of
each are there, complete and in order. -/
structure TraceLoaded (m : TraceMonitor) (ds : List Device) : Prop where
  numProcess : m.numProcess = ds.length
  numEventAll : ∀ i (hi : i < ds.length), m.numEventAll i = ds[i].values.length
  eValueAll : ∀ i (hi : i < ds.length),
    (List.range (m.numEventAll i)).map (m.eValueAll i) = ds[i].values

/-- The values are all there. -/
theorem withTrace_values (m : TraceMonitor) (ds : List Device) {i : ℕ} (hi : i < ds.length) :
    (withTrace m (ds.map Device.values)).numEventAll i = ds[i].values.length ∧
      (List.range ((withTrace m (ds.map Device.values)).numEventAll i)).map
        ((withTrace m (ds.map Device.values)).eValueAll i) = ds[i].values := by
  have hget : (ds.map Device.values).getD i [] = ds[i].values := by
    rw [List.getD_eq_getElem?_getD, List.getElem?_map, List.getElem?_eq_getElem hi]
    rfl
  simp only [withTrace, hget]
  refine ⟨trivial, List.ext_getElem (by simp) fun k h₁ h₂ => ?_⟩
  rw [List.getElem_map, List.getElem_range, List.getD_eq_getElem _ _ h₂]

/-! ## The last device is not counted -/

/-- The file of a switch and a light, as `main` writes it for a pairwise monitor, is
loaded with one process. -/
theorem readFile_drops_light :
    ∃ m', readFile (fun _ => fileLines [kitchenSwitch, kitchenLight])
        (blank.setValues 0 [] 1 "detailsDist.txt") = some m' ∧
      m'.numProcess = 1 ∧ ¬ TraceLoaded m' [kitchenSwitch, kitchenLight] := by
  refine ⟨_, readFile_lines blank (by decide) 0 [] 1 rfl, rfl, fun h => ?_⟩
  have hnum := h.numProcess
  exact absurd hnum (by decide)

/-- **`readFile` does not count the last device.**  On every file made of at most ten
devices it stores all values where they belong, leaves `numProcess` one below the
number of devices, and so never achieves `TraceLoaded`; the loops over `numProcess`
do not reach the last device. -/
theorem readFile_numProcess (files : String → List String) (m : TraceMonitor) (ds : List Device)
    (hlen : ds.length ≤ maxProcess) (mId : ℕ) (mSubformula : List String) (mNumMonitors : ℕ)
    (traceFile : String) (hfile : files traceFile = fileLines ds) :
    ∃ m', readFile files (m.setValues mId mSubformula mNumMonitors traceFile) = some m' ∧
      m'.numProcess = ds.length - 1 ∧
      (∀ i (hi : i < ds.length), m'.numEventAll i = ds[i].values.length ∧
        (List.range (m'.numEventAll i)).map (m'.eValueAll i) = ds[i].values) ∧
      ¬ TraceLoaded m' ds ∧
      ∀ i, i + 1 = ds.length → i ∉ List.range m'.numProcess.toNat := by
  have hnum : ∀ m₀ : TraceMonitor,
      (withTrace m₀ (ds.map Device.values)).numProcess = (ds.length : ℤ) - 1 := by
    intro m₀
    show ((ds.map Device.values).length : ℤ) - 1 = _
    rw [List.length_map]
  refine ⟨_, readFile_lines m hlen mId mSubformula mNumMonitors hfile, hnum _,
    fun i hi => withTrace_values _ ds hi, fun h => ?_, fun i hi hmem => ?_⟩
  · have hcount := h.numProcess
    rw [hnum] at hcount
    omega
  · rw [List.mem_range, hnum] at hmem
    omega

/-- The kitchen's file again. -/
theorem readFile_numProcess_kitchen :
    ∃ m', readFile (fun _ => fileLines [kitchenSwitch, kitchenLight])
        (blank.setValues 0 [] 1 "detailsDist.txt") = some m' ∧
      m'.numProcess = 1 ∧ ¬ TraceLoaded m' [kitchenSwitch, kitchenLight] := by
  obtain ⟨m', hm', hnum, -, hno, -⟩ :=
    readFile_numProcess (fun _ => fileLines [kitchenSwitch, kitchenLight]) blank
      [kitchenSwitch, kitchenLight] (by decide) 0 [] 1 "detailsDist.txt" rfl
  exact ⟨m', hm', hnum, hno⟩

end TraceMonitor
