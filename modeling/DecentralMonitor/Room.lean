/-
# A room: the `main` of `main.cpp`

`main` handles one room after another.  For a room with some switches and lights it

* writes, for each pair of a switch and a light, a trace file of these two devices
  and loads a pairwise monitor from it, and writes one trace file of all devices for
  the centralised monitor (`loadRoom`);
* takes the trace segment by segment: every monitor reads its segment and asks the
  solver, then the pairwise monitors share their verdicts all to all (`segment`).

The data read are a function from file names to lines.  What the solver answers is a
parameter of a segment, so that both a real solver and a given sequence of answers
can be put there.
-/
import Mathlib.Data.List.FinRange
import DecentralMonitor.TraceMonitor

/-- The monitors of a room with `n` pairs of devices. -/
structure Room (n : ℕ) where
  monitorList : Fin n → TraceMonitor
  centMon : TraceMonitor

namespace Room

open TraceMonitor

/-! ## Loading -/

/-- The number of entries of `monitorList`. -/
def maxMonitor : ℕ := 20

/-- The variables of the loading loops. -/
structure LoadState where
  files : String → List String
  formC : List String
  monitorList : ℕ → TraceMonitor
  mon : ℕ

/-- Append lines to a file. -/
def appendLines (files : String → List String) (name : String) (lines : List String) :
    String → List String :=
  Function.update files name (files name ++ lines)

/-- Copy the lines of a device's file to `detailsDist.txt` and, if `central`, to
`detailsCen.txt`. -/
def copyLines (device : String) (central : Prop) [Decidable central]
    (files : String → List String) : String → List String :=
  let lines := files (device ++ ".txt")
  let files := appendLines files "detailsDist.txt" lines
  if central then appendLines files "detailsCen.txt" lines else files

/-- The name of switch `plug` of the room `path`. -/
def switchName (path : String) (plug : ℕ) : String :=
  "data/" ++ path ++ "switch_" ++ toString plug

/-- The name of light `light` of the room `path`. -/
def lightName (path : String) (light : ℕ) : String :=
  "data/" ++ path ++ "light_" ++ toString light

/-- One iteration of the loading loops: the pair of a switch and a light. -/
def loadPair (path : String) (numSwitch numLight plug : ℕ) (st : LoadState) (light : ℕ) :
    Option LoadState := do
  -- `outFile.open("detailsDist.txt")` empties the file of the pair before
  let files := Function.update st.files "detailsDist.txt" []
  let files := copyLines (switchName path plug) (light = 1) files
  let files := copyLines (lightName path light) (plug = 1) files
  let form1 := [switchName path plug, lightName path light]
  let formC := st.formC ++ (if light = 1 then [switchName path plug] else []) ++
    (if plug = 1 then [lightName path light] else [])
  if st.mon < maxMonitor then
    let m ← readFile files ((st.monitorList st.mon).setValues 0 form1 (numSwitch * numLight)
      "detailsDist.txt")
    some ⟨files, formC, Function.update st.monitorList st.mon m, st.mon + 1⟩
  else none

/-- The loops over `plug` and `light`. -/
def loadPairs (path : String) (numSwitch numLight : ℕ) (st : LoadState) : Option LoadState :=
  (List.range' 1 numSwitch).foldlM (fun st plug =>
    (List.range' 1 numLight).foldlM (loadPair path numSwitch numLight plug) st) st

/-- The loading phase of the room `path`. -/
def loadRoom (path : String) (numSwitch numLight : ℕ) (files : String → List String) :
    Option (Room (numSwitch * numLight)) := do
  let st ← loadPairs path numSwitch numLight
    ⟨Function.update files "detailsCen.txt" [], [], fun _ => blank, 0⟩
  let cent ← readFile st.files (blank.setValues 0 st.formC 1 "detailsCen.txt")
  some ⟨fun i => st.monitorList i, cent⟩

/-! ## One segment -/

variable {n : ℕ}

/-- `verdicts_mod[0] = verdict`, which `main` does with the verdict of the solver. -/
def storeVerdict (m : TraceMonitor) (verdict : Bool) : Option TraceMonitor :=
  -- `verdicts_mod`, not `verdicts`, and index 0 for every monitor
  if 0 < m.verdictsMod.length then
    some { m with verdictsMod := m.verdictsMod.set 0 verdict }
  else none

/-- A monitor reads its segment and asks the solver. -/
def monitorSegment (start fin eps : ℤ) (solve : TraceMonitor → Option Bool) (m : TraceMonitor) :
    Option TraceMonitor := do
  let m ← m.readSegTrace start fin eps
  storeVerdict m (← solve m)

/-- `monitorList[i].ShareVerdict(&monitorList[j])`. -/
def send (list : Fin n → TraceMonitor) (e : Fin n × Fin n) : Option (Fin n → TraceMonitor) := do
  let m ← (list e.1).shareVerdict (list e.2)
  some (Function.update list e.2 m)

/-- The sharing phase: `for i, for j, if(i != j)` monitor `i` shares with monitor `j`. -/
def sharePhase (list : Fin n → TraceMonitor) : Option (Fin n → TraceMonitor) :=
  (List.finRange n).foldlM (fun list i =>
    (List.finRange n).foldlM (fun list j =>
      if i ≠ j then send list (i, j) else some list) list) list

/-- What the solver answers to each monitor. -/
structure Solve (n : ℕ) where
  pair : Fin n → TraceMonitor → Option Bool
  cent : TraceMonitor → Option Bool

/-- The solver of `solveSMT`. -/
def Solve.ofSolver (z : Constraint.Solver) : Solve n where
  pair := fun _ => solveSMT z
  cent := solveSMT z

/-- Given answers. -/
def Solve.answers (results : Fin n → Bool) (centResult : Bool) : Solve n where
  pair := fun i _ => some (results i)
  cent := fun _ => some centResult

/-- The loop over the pairwise monitors. -/
def monitorAll (start fin eps : ℤ) (solve : Solve n) (list : Fin n → TraceMonitor) :
    Option (Fin n → TraceMonitor) :=
  (List.finRange n).foldlM (fun list i => do
    let m ← monitorSegment start fin eps (solve.pair i) (list i)
    some (Function.update list i m)) list

/-- One segment of the trace. -/
def segment (start fin eps : ℤ) (solve : Solve n) (room : Room n) : Option (Room n) := do
  let list ← monitorAll start fin eps solve room.monitorList
  let cent ← monitorSegment start fin eps solve.cent room.centMon
  let list ← sharePhase list
  some ⟨list, cent⟩

/-! ## The segment loop -/

/-- The variables of the segment loop. -/
structure LoopState (n : ℕ) where
  room : Room n
  start : ℤ
  fin : ℤ

/-- The variables before the loop. -/
def loopInit (segLength : ℤ) (room : Room n) : LoopState n := ⟨room, -segLength, 0⟩

/-- The condition of the loop, `end < centMon.numEventAll[0]`. -/
def LoopGuard (st : LoopState n) : Prop := st.fin < st.room.centMon.numEventAll 0

/-- The body of the loop. -/
def loopBody (segLength eps : ℤ) (solve : Solve n) (st : LoopState n) :
    Option (LoopState n) := do
  let start := st.fin
  let fin := st.fin + segLength
  let room ← segment start fin eps solve st.room
  some ⟨room, start, fin⟩

end Room
