/-
# The trace monitor of `main.cpp`

The `class Monitor` of `main.cpp`: it loads the trace of some devices (`readFile`),
copies a window of it and records which events of the window are ordered
(`readSegTrace`), asks a solver for a sequence of cuts (`solveSMT`) and exchanges
verdicts with the other monitors (`getVerdict`, `shareVerdict`).

* The arrays are functions of their indices with the bounds of the source checked at
  every access.  An access outside them, like every other undefined behaviour or
  exception, is `none`.
* `hbSet` is a list and `numHbSet` its length; `HbFits` says that no write has passed
  the end of the array of the source.
* A file is the list of the lines that `getline` reads from it.
-/
import DecentralMonitor.Constraint
import DecentralMonitor.FallibleLoop
import DecentralMonitor.VerdictTable

open Constraint

/-! ## The class -/

/-- The first dimension of the arrays: the number of processes that fit. -/
def maxProcess : ℕ := 10

/-- The second dimension of the arrays: the number of events of a process that fit. -/
def maxEvent : ℕ := 100

/-- The assignment `a[i][j] = v`. -/
def assign {α : Type} (a : ℕ → ℕ → α) (i j : ℕ) (v : α) : ℕ → ℕ → α :=
  Function.update a i (Function.update (a i) j v)

theorem assign_apply {α : Type} (a : ℕ → ℕ → α) (i j : ℕ) (v : α) (i' j' : ℕ) :
    assign a i j v i' j' = if i' = i ∧ j' = j then v else a i' j' := by
  unfold assign
  by_cases hi : i' = i
  · subst hi
    rw [Function.update_self]
    by_cases hj : j' = j
    · rw [hj, Function.update_self, if_pos ⟨rfl, rfl⟩]
    · rw [Function.update_of_ne hj, if_neg fun h => hj h.2]
  · rw [Function.update_of_ne hi, if_neg fun h => hi h.1]

/-- The class `Monitor` of `main.cpp`. -/
structure TraceMonitor extends VerdictTable where
  /-- Monitor id used for monitor-monitor communication. -/
  id : ℕ
  /-- The names of the devices this monitor reads. -/
  subformula : List String
  /-- Number of monitors in the system. -/
  numMonitors : ℕ
  traceFileName : String
  /-- Value of event `j` of process `i` of the segment. -/
  eValue : ℕ → ℕ → String
  /-- Name of event `j` of process `i` of the segment. -/
  eName : ℕ → ℕ → String
  numProcess : ℤ
  /-- Number of events of process `i` of the segment. -/
  numEvent : ℕ → ℕ
  /-- Value of event `j` of process `i` of the entire trace file. -/
  eValueAll : ℕ → ℕ → String
  /-- Number of events of process `i` of the entire trace file. -/
  numEventAll : ℕ → ℕ
  /-- The happened-before pairs. -/
  hbSet : List (ℕ × ℕ)

namespace TraceMonitor

/-- The object that `Monitor()` builds: empty vectors and strings, ten monitors.  The
other fields are uninitialised in the source; `setValues` sets each of them before
it is read. -/
def blank : TraceMonitor where
  verdicts := []
  verdictsMod := []
  id := 0
  subformula := []
  numMonitors := 10
  traceFileName := ""
  eValue := fun _ _ => ""
  eName := fun _ _ => ""
  numProcess := 0
  numEvent := fun _ => 0
  eValueAll := fun _ _ => ""
  numEventAll := fun _ => 0
  hbSet := []

/-- `setValues(m_id, m_subformula, m_num_monitors, traceFile)`.  The vectors are
extended, everything else is reset. -/
def setValues (m : TraceMonitor) (mId : ℕ) (mSubformula : List String) (mNumMonitors : ℕ)
    (traceFile : String) : TraceMonitor where
  verdicts := m.verdicts ++ List.replicate mNumMonitors false
  verdictsMod := m.verdictsMod ++ List.replicate mNumMonitors false
  id := mId
  subformula := mSubformula
  numMonitors := mNumMonitors
  traceFileName := traceFile
  eValue := fun _ _ => ""
  eName := fun _ _ => ""
  numProcess := 0
  numEvent := fun _ => 0
  eValueAll := fun _ _ => ""
  numEventAll := fun _ => 0
  hbSet := []

/-- The pairs recorded so far fit into `hbSet[50][2]`. -/
def HbFits (m : TraceMonitor) : Prop := m.hbSet.length ≤ 50

/-- `ShareVerdict(m)`: share own verdicts with `m`.  The result is `m` afterwards. -/
def shareVerdict (self m : TraceMonitor) : Option TraceMonitor := do
  let table ← (List.range self.numMonitors).foldlM
    (VerdictTable.shareSlot self.toVerdictTable) m.toVerdictTable
  some { m with toVerdictTable := table }

/-! ## Loading a trace -/

/-- `line.find(word) != -1`. -/
def Finds (line word : String) : Prop := word.toList <:+: line.toList

instance (line word : String) : Decidable (Finds line word) :=
  inferInstanceAs (Decidable (_ <:+: _))

/-- The line starts the trace of a device. -/
def IsHeader (line : String) : Prop := Finds line "light" ∨ Finds line "switch"

instance (line : String) : Decidable (IsHeader line) :=
  inferInstanceAs (Decidable (_ ∨ _))

/-- One iteration of the loop of `readFile`. -/
def readLine (m : TraceMonitor) (line : String) : Option TraceMonitor :=
  if IsHeader line then
    some { m with numProcess := m.numProcess + 1 }
  else
    -- a value before the first header would go to row `-1`
    let i := m.numProcess.toNat
    if 0 ≤ m.numProcess ∧ i < maxProcess ∧ m.numEventAll i < maxEvent then
      some { m with
        eValueAll := assign m.eValueAll i (m.numEventAll i) line
        numEventAll := Function.update m.numEventAll i (m.numEventAll i + 1) }
    else none

/-- `readFile()`, where `files` gives the lines of each file. -/
def readFile (files : String → List String) (m : TraceMonitor) : Option TraceMonitor :=
  (files m.traceFileName).foldlM readLine { m with numProcess := -1 }

/-! ## Taking a segment -/

/-- `max(start - eps, 0)`. -/
def segStart (start eps : ℤ) : ℕ := (start - eps).toNat

/-- The values of `j` in the loop `for(j = start; j < min(numEventAll[i], end); j++)`. -/
def segRange (start fin eps : ℤ) (numEventAll : ℕ) : List ℕ :=
  List.range' (segStart start eps) ((min (numEventAll : ℤ) fin).toNat - segStart start eps)

/-- One iteration of the loop over `j`, with the counter `num`. -/
def copyEvent (i : ℕ) (st : TraceMonitor × ℕ) (j : ℕ) : Option (TraceMonitor × ℕ) :=
  let (m, num) := st
  if m.numEvent i < maxEvent ∧ j < maxEvent then
    some ({ m with
      eName := assign m.eName i (m.numEvent i) (toString num)
      eValue := assign m.eValue i (m.numEvent i) (m.eValueAll i j)
      numEvent := Function.update m.numEvent i (m.numEvent i + 1) }, num + 1)
  else none

/-- One iteration of the loop over `i`. -/
def copyProcess (start fin eps : ℤ) (st : TraceMonitor × ℕ) (i : ℕ) :
    Option (TraceMonitor × ℕ) :=
  if i < maxProcess then
    -- `numEvent[i] = 0`; the rows of the last segment are overwritten
    (segRange start fin eps (st.1.numEventAll i)).foldlM (copyEvent i)
      ({ st.1 with numEvent := Function.update st.1.numEvent i 0 }, st.2)
  else none

/-- The first half of `readSegTrace`: copy the window of every process and name its
events `1, 2, …`. -/
def copySegment (start fin eps : ℤ) (m : TraceMonitor) : Option TraceMonitor := do
  let (m, _) ← (List.range m.numProcess.toNat).foldlM (copyProcess start fin eps) (m, 1)
  some m

/-- `stoi(s)` for a text that does not begin with a blank or a sign: the number its
leading digits write, an exception if there are none. -/
def stoi (s : String) : Option ℕ :=
  let digits := s.toList.takeWhile Char.isDigit
  if digits = [] then none else some (Nat.ofDigitChars 10 digits 0)

/-- The innermost loop body of the second half of `readSegTrace`. -/
def recordPair (m : TraceMonitor) (eps : ℤ) (i j k : ℕ) (hb : List (ℕ × ℕ)) (l : ℕ) :
    Option (List (ℕ × ℕ)) := do
  -- the source does not ask which of the two events is the earlier one
  if eps ≤ |(j : ℤ) - l| ∧ i ≠ k then
    some (hb ++ [(← stoi (m.eName i j), ← stoi (m.eName k l))])
  else some hb

/-- The four loops of the second half of `readSegTrace`, over `i`, `j`, `k` and `l`. -/
def recordPairs (m : TraceMonitor) (eps : ℤ) : Option (List (ℕ × ℕ)) :=
  (List.range m.numProcess.toNat).foldlM (fun hb i =>
    (List.range (m.numEvent i)).foldlM (fun hb j =>
      (List.range m.numProcess.toNat).foldlM (fun hb k =>
        (List.range (m.numEvent k)).foldlM (recordPair m eps i j k) hb) hb) hb) m.hbSet

/-- `readSegTrace(start, end, eps)`. -/
def readSegTrace (start fin eps : ℤ) (m : TraceMonitor) : Option TraceMonitor := do
  let m ← m.copySegment start fin eps
  some { m with hbSet := ← m.recordPairs eps }

/-! ## Asking the solver -/

/-- `totNumEvents`: the events of all processes. -/
def totNumEvents (m : TraceMonitor) : ℕ :=
  ((List.range m.numProcess.toNat).map m.numEvent).sum

/-- `(int)pow(2, id - 1)`.  The conversion of a value outside the range of `int` is
undefined. -/
def eventMask (id : ℕ) : Option ℤ :=
  if id = 0 then some 0 else if id ≤ 31 then some (2 ^ (id - 1)) else none

section Assertions

variable (totNumEvents : ℕ)

/-- The constant `eventList[i]`. -/
def eventList (i : ℕ) : Term (.bv totNumEvents) :=
  .const (.bv totNumEvents) ("eventList" ++ toString i)

/-- The term `f(x)`. -/
def cut (x : Term .int) : Term (.bv totNumEvents) := .app totNumEvents "f" x

/-- `eventList[i] == i`. -/
def eventValue (i : ℕ) : Formula := .eq (eventList totNumEvents i) (.bvVal totNumEvents i)

/-- `f(i) == eventList[j]`. -/
def cutIs (i j : ℕ) : Formula := .eq (cut totNumEvents (.intVal i)) (eventList totNumEvents j)

/-- The formula `mk_or(event_range)` for `f(i)`. -/
def eventRange (i : ℕ) : Formula :=
  mkOr ((List.range (totNumEvents ^ 2)).map (cutIs totNumEvents i))

/-- The values of `j` in the loop `for(j = 1; j < bound; j = j * 2)`, started at `j`. -/
def doublings (bound : ℕ) : ℕ → ℕ → List ℕ
  | 0, _ => []
  | fuel + 1, j => if j < bound then j :: doublings bound fuel (j * 2) else []

/-- `bv2int(f(i + 1), false) - bv2int(f(i), false) == j`. -/
def stepIs (i j : ℕ) : Formula :=
  .eq (.sub (.bv2int (cut totNumEvents (.intVal (i + 1)))) (.bv2int (cut totNumEvents (.intVal i))))
    (.intVal j)

/-- The formula `mk_or(event_order)` for the step from `f(i)` to `f(i + 1)`. -/
def eventOrder (i : ℕ) : Formula :=
  mkOr ((doublings (totNumEvents ^ 2) (totNumEvents ^ 2) 1).map (stepIs totNumEvents i))

/-- `0 <= x && x <= totNumEvents`. -/
def xInRange : Formula :=
  .and (.le (.intVal 0) (.const .int "x")) (.le (.const .int "x") (.intVal totNumEvents))

/-- The constant `b1[i]`, the mask of the later event of pair `i`. -/
def b1 (i : ℕ) : Term (.bv totNumEvents) := .const (.bv totNumEvents) ("b1" ++ toString i)

/-- The constant `b2[i]`, the mask of the earlier event of pair `i`. -/
def b2 (i : ℕ) : Term (.bv totNumEvents) := .const (.bv totNumEvents) ("b2" ++ toString i)

/-- `bv2int(f(x) & b, false) != 0`. -/
def meets (b : Term (.bv totNumEvents)) : Formula :=
  .ne (.bv2int (.bvAnd (cut totNumEvents (.const .int "x")) b)) (.intVal 0)

/-- The assertions made for pair `i` of `hbSet`. -/
def pairConstraints (i : ℕ) (pair : ℕ × ℕ) : Option (List Formula) := do
  let p0 ← eventMask pair.1
  let p1 ← eventMask pair.2
  -- `f` is asked about every integer, not only about the numbers of the cuts
  some [.eq (b1 totNumEvents i) (.bvVal totNumEvents p1),
    .eq (b2 totNumEvents i) (.bvVal totNumEvents p0),
    .forallInt "x" (.implies (meets totNumEvents (b1 totNumEvents i))
      (meets totNumEvents (b2 totNumEvents i)))]

/-- The loop over `hbSet`, from pair number `i` on. -/
def hbConstraints : ℕ → List (ℕ × ℕ) → Option (List Formula)
  | _, [] => some []
  | i, pair :: pairs => do
    some ((← pairConstraints totNumEvents i pair) ++ (← hbConstraints (i + 1) pairs))

/-- The assertions on the sequence of cuts: the values of `eventList`, the first cut, the
range of every cut, the steps, the last cut, and the range of `x`. -/
def cutConstraints : List Formula :=
  (List.range (totNumEvents ^ 2)).map (eventValue totNumEvents) ++
  [cutIs totNumEvents 0 0] ++
  (List.range (totNumEvents + 1)).map (eventRange totNumEvents) ++
  (List.range totNumEvents).map (eventOrder totNumEvents) ++
  [cutIs totNumEvents totNumEvents (totNumEvents ^ 2 - 1)] ++
  [xInRange totNumEvents]

end Assertions

/-- `solveSMT(numFormula)`; the argument is not used by the source.  Without events the
solver's bit-vector sort does not exist. -/
def solveSMT (z : Solver) (m : TraceMonitor) : Option Bool := do
  -- `numEvent` is read for every process
  if m.totNumEvents = 0 ∨ (maxProcess : ℤ) < m.numProcess then none
  else
    let pairs ← hbConstraints m.totNumEvents 0 m.hbSet
    some (z.check (cutConstraints m.totNumEvents ++ pairs))

end TraceMonitor
