/-
# What `readSegTrace` leaves in a monitor

`copySegment_spec` says that the first half of `readSegTrace` copies, for every
process, the events from `max(start - eps, 0)` up to the end of the segment or of
the trace, and names them `1, 2, …` process by process.  `readSegTrace_spec` adds the
second half: it appends one pair for every two events of different processes
whose positions in the segment differ by at least `eps`.

`Loaded` is what loading guarantees: the trace fits the arrays.
-/
import Mathlib.Algebra.BigOperators.Group.Finset.Basic
import Mathlib.Algebra.BigOperators.Group.List.Basic
import Mathlib.Data.List.TakeWhile
import DecentralMonitor.TraceMonitor

open FallibleLoop

namespace TraceMonitor

/-- The trace of the monitor fits the arrays of the class. -/
structure Loaded (m : TraceMonitor) : Prop where
  numProcess : m.numProcess.toNat ≤ maxProcess
  numEventAll : ∀ i < m.numProcess.toNat, m.numEventAll i ≤ maxEvent

section Segment

variable (m : TraceMonitor) (start fin eps : ℤ)

/-- The number of events of process `i` in the segment. -/
def segLen (i : ℕ) : ℕ := (min (m.numEventAll i : ℤ) fin).toNat - segStart start eps

/-- The number of events of the processes before process `i`. -/
def segOffset (i : ℕ) : ℕ := ((List.range i).map (segLen m start fin eps)).sum

/-- The name of event `k` of process `i`, as a number. -/
def segName (i k : ℕ) : ℕ := 1 + segOffset m start fin eps i + k

theorem segOffset_succ (i : ℕ) :
    segOffset m start fin eps (i + 1) = segOffset m start fin eps i + segLen m start fin eps i := by
  unfold segOffset
  rw [List.sum_range_succ]

/-- The pairs the second half of `readSegTrace` records. -/
def segPairs : List (ℕ × ℕ) :=
  (List.range m.numProcess.toNat).flatMap fun (i : ℕ) =>
    (List.range (segLen m start fin eps i)).flatMap fun (j : ℕ) =>
      (List.range m.numProcess.toNat).flatMap fun (k : ℕ) =>
        (List.range (segLen m start fin eps k)).flatMap fun (l : ℕ) =>
          if eps ≤ |(j : ℤ) - l| ∧ i ≠ k then
            [(segName m start fin eps i j, segName m start fin eps k l)]
          else []

theorem mem_segPairs {p : ℕ × ℕ} :
    p ∈ segPairs m start fin eps ↔ ∃ i < m.numProcess.toNat, ∃ j < segLen m start fin eps i,
      ∃ k < m.numProcess.toNat, ∃ l < segLen m start fin eps k, (eps ≤ |(j : ℤ) - l| ∧ i ≠ k) ∧
        p = (segName m start fin eps i j, segName m start fin eps k l) := by
  simp only [segPairs, List.mem_flatMap, List.mem_range, List.mem_ite_nil_right,
    List.mem_singleton]

/-- The length of a nested loop. -/
theorem length_flatMap_range {α : Type} (n : ℕ) (f : ℕ → List α) :
    ((List.range n).flatMap f).length = ∑ i ∈ Finset.range n, (f i).length :=
  List.length_flatMap

/-- The number of pairs of events of different processes whose positions in the window are
at least `eps` apart. -/
def pairCount : ℕ :=
  ∑ i ∈ Finset.range m.numProcess.toNat, ∑ j ∈ Finset.range (segLen m start fin eps i),
    ∑ k ∈ Finset.range m.numProcess.toNat, ∑ l ∈ Finset.range (segLen m start fin eps k),
      if eps ≤ |(j : ℤ) - l| ∧ i ≠ k then 1 else 0

/-- How many pairs a segment records. -/
theorem length_segPairs :
    (segPairs m start fin eps).length = pairCount m start fin eps := by
  unfold segPairs pairCount
  rw [length_flatMap_range]
  refine Finset.sum_congr rfl fun i _ => ?_
  rw [length_flatMap_range]
  refine Finset.sum_congr rfl fun j _ => ?_
  rw [length_flatMap_range]
  refine Finset.sum_congr rfl fun k _ => ?_
  rw [length_flatMap_range]
  refine Finset.sum_congr rfl fun l _ => ?_
  split <;> rfl

/-- The first `c` processes of the segment have been copied from the trace of `m`; nothing
but the segment has changed. -/
structure Copied (c : ℕ) (m' : TraceMonitor) : Prop where
  frame : m' = { m with eValue := m'.eValue, eName := m'.eName, numEvent := m'.numEvent }
  numEvent : ∀ i < c, m'.numEvent i = segLen m start fin eps i
  eName : ∀ i < c, ∀ k < segLen m start fin eps i,
    m'.eName i k = toString (segName m start fin eps i k)
  eValue : ∀ i < c, ∀ k < segLen m start fin eps i,
    m'.eValue i k = m.eValueAll i (segStart start eps + k)

end Segment

variable {m : TraceMonitor} {start fin eps : ℤ}

theorem segRange_eq_map (i : ℕ) :
    segRange start fin eps (m.numEventAll i) =
      (List.range (segLen m start fin eps i)).map (segStart start eps + ·) :=
  List.range'_eq_map_range ..

/-- The segment of a process lies inside its trace. -/
theorem segStart_add_lt {i k : ℕ} (hk : k < segLen m start fin eps i) :
    segStart start eps + k < m.numEventAll i := by
  unfold segLen at hk
  omega

/-- The name of an event reads back as its number. -/
theorem stoi_toString (n : ℕ) : stoi (toString n) = some n := by
  have htoList : (toString n).toList = Nat.toDigits 10 n := Nat.toList_repr
  have htake : (Nat.toDigits 10 n).takeWhile Char.isDigit = Nat.toDigits 10 n := by
    rw [List.takeWhile_eq_self_iff]
    exact fun c hc => Nat.isDigit_of_mem_toDigits (by decide) (by decide) hc
  have hne : Nat.toDigits 10 n ≠ [] := Nat.toDigits_ne_nil
  unfold stoi
  rw [htoList, htake, if_neg hne]
  simp

/-- Different numbers have different names. -/
theorem toString_injective : Function.Injective (toString : ℕ → String) := by
  intro i j h
  have hread := congrArg stoi h
  rw [stoi_toString, stoi_toString] at hread
  exact Option.some.inj hread

/-! ## Copying the window -/

/-- One event more of process `c`. -/
theorem copyEvent_spec {c k : ℕ} {st : TraceMonitor × ℕ} (hlen : m.numEventAll c ≤ maxEvent)
    (hk : k < segLen m start fin eps c) (hcopied : Copied m start fin eps c st.1)
    (hnum : st.2 = segName m start fin eps c k) (hcount : st.1.numEvent c = k)
    (hrow : ∀ j < k, st.1.eName c j = toString (segName m start fin eps c j) ∧
      st.1.eValue c j = m.eValueAll c (segStart start eps + j)) :
    ∃ st', copyEvent c st (segStart start eps + k) = some st' ∧
      Copied m start fin eps c st'.1 ∧ st'.2 = segName m start fin eps c (k + 1) ∧
      st'.1.numEvent c = k + 1 ∧
      ∀ j < k + 1, st'.1.eName c j = toString (segName m start fin eps c j) ∧
        st'.1.eValue c j = m.eValueAll c (segStart start eps + j) := by
  obtain ⟨m', num⟩ := st
  simp only at hcopied hnum hcount hrow
  have hj := segStart_add_lt hk
  have hbound : m'.numEvent c < maxEvent ∧ segStart start eps + k < maxEvent := by omega
  have hall : m'.eValueAll = m.eValueAll := by rw [hcopied.frame]
  refine ⟨_, if_pos hbound, ⟨?_, ?_, ?_, ?_⟩, ?_, ?_, ?_⟩
  -- the rows of the processes before `c` stay
  · rw [hcopied.frame]
  · intro i hi
    show Function.update m'.numEvent c (m'.numEvent c + 1) i = _
    rw [Function.update_of_ne hi.ne, hcopied.numEvent i hi]
  · intro i hi j hij
    show assign m'.eName c (m'.numEvent c) (toString num) i j = _
    rw [assign_apply, if_neg (fun h => hi.ne h.1), hcopied.eName i hi j hij]
  · intro i hi j hij
    show assign m'.eValue c (m'.numEvent c) _ i j = _
    rw [assign_apply, if_neg (fun h => hi.ne h.1), hcopied.eValue i hi j hij]
  -- row `c` gets one entry more
  · show num + 1 = _
    rw [hnum]
    rfl
  · show Function.update m'.numEvent c (m'.numEvent c + 1) c = _
    rw [Function.update_self, hcount]
  · intro j hj'
    show assign m'.eName c (m'.numEvent c) (toString num) c j = _ ∧
      assign m'.eValue c (m'.numEvent c) (m'.eValueAll c (segStart start eps + k)) c j = _
    rw [assign_apply, assign_apply, hcount]
    by_cases hjk : j = k
    · rw [if_pos ⟨rfl, hjk⟩, if_pos ⟨rfl, hjk⟩, hnum, hall, hjk]
      exact ⟨rfl, rfl⟩
    · rw [if_neg fun h => hjk h.2, if_neg fun h => hjk h.2]
      exact hrow j (by omega)

/-- One process more. -/
theorem copyProcess_spec {c : ℕ} {st : TraceMonitor × ℕ} (hc : c < maxProcess)
    (hlen : m.numEventAll c ≤ maxEvent) (hcopied : Copied m start fin eps c st.1)
    (hnum : st.2 = 1 + segOffset m start fin eps c) :
    ∃ st', copyProcess start fin eps st c = some st' ∧ Copied m start fin eps (c + 1) st'.1 ∧
      st'.2 = 1 + segOffset m start fin eps (c + 1) := by
  have hall : st.1.numEventAll = m.numEventAll := by rw [hcopied.frame]
  unfold copyProcess
  rw [if_pos hc, hall, segRange_eq_map, List.foldlM_map]
  -- the invariant of the inner loop: the first `k` entries of row `c` are written
  obtain ⟨st', hst', hcopied', hnum', hcount', hrow'⟩ := exists_foldlM_range
    (f := fun st k => copyEvent c st (segStart start eps + k))
    (n := segLen m start fin eps c)
    (s := ({ st.1 with numEvent := Function.update st.1.numEvent c 0 }, st.2))
    (P := fun k st => Copied m start fin eps c st.1 ∧ st.2 = segName m start fin eps c k ∧
      st.1.numEvent c = k ∧
      ∀ j < k, st.1.eName c j = toString (segName m start fin eps c j) ∧
        st.1.eValue c j = m.eValueAll c (segStart start eps + j))
    (by
      refine ⟨⟨?_, ?_, hcopied.eName, hcopied.eValue⟩, hnum, Function.update_self .., by simp⟩
      · rw [hcopied.frame]
      · intro i hi
        show Function.update st.1.numEvent c 0 i = _
        rw [Function.update_of_ne hi.ne, hcopied.numEvent i hi])
    (fun k hk st ⟨h₁, h₂, h₃, h₄⟩ => copyEvent_spec hlen hk h₁ h₂ h₃ h₄)
  refine ⟨st', hst', ⟨hcopied'.frame, ?_, ?_, ?_⟩, ?_⟩
  · intro i hi
    rcases Nat.lt_succ_iff_lt_or_eq.mp hi with hi | rfl
    · exact hcopied'.numEvent i hi
    · exact hcount'
  · intro i hi k hk
    rcases Nat.lt_succ_iff_lt_or_eq.mp hi with hi | rfl
    · exact hcopied'.eName i hi k hk
    · exact (hrow' k hk).1
  · intro i hi k hk
    rcases Nat.lt_succ_iff_lt_or_eq.mp hi with hi | rfl
    · exact hcopied'.eValue i hi k hk
    · exact (hrow' k hk).2
  · rw [hnum', segOffset_succ, segName]
    omega

/-- **The first half of `readSegTrace`** copies the window of every process. -/
theorem copySegment_spec (h : Loaded m) (start fin eps : ℤ) :
    ∃ m', copySegment start fin eps m = some m' ∧
      Copied m start fin eps m.numProcess.toNat m' := by
  obtain ⟨st, hst, hcopied, -⟩ := exists_foldlM_range (f := copyProcess start fin eps)
    (n := m.numProcess.toNat) (s := (m, 1))
    (P := fun c st => Copied m start fin eps c st.1 ∧ st.2 = 1 + segOffset m start fin eps c)
    ⟨⟨rfl, by simp, by simp, by simp⟩, rfl⟩
    (fun c hc st ⟨h₁, h₂⟩ => copyProcess_spec (hc.trans_le h.numProcess) (h.numEventAll c hc) h₁ h₂)
  refine ⟨st.1, ?_, hcopied⟩
  unfold copySegment
  rw [hst]
  rfl

/-! ## Recording the pairs -/

/-- The second half of `readSegTrace`, after the first. -/
theorem recordPairs_spec {m' : TraceMonitor}
    (h : Copied m start fin eps m.numProcess.toNat m') :
    m'.recordPairs eps = some (m.hbSet ++ segPairs m start fin eps) := by
  have hproc : m'.numProcess = m.numProcess := by rw [h.frame]
  have hhb : m'.hbSet = m.hbSet := by rw [h.frame]
  unfold recordPairs segPairs
  rw [hproc, hhb]
  refine foldlM_eq_some_append_flatMap (fun i hi acc => ?_) _
  rw [List.mem_range] at hi
  rw [h.numEvent i hi]
  refine foldlM_eq_some_append_flatMap (fun j hj acc => ?_) _
  rw [List.mem_range] at hj
  refine foldlM_eq_some_append_flatMap (fun k hk acc => ?_) _
  rw [List.mem_range] at hk
  rw [h.numEvent k hk]
  refine foldlM_eq_some_append_flatMap (fun l hl acc => ?_) _
  rw [List.mem_range] at hl
  unfold recordPair
  rw [h.eName i hi j hj, h.eName k hk l hl, stoi_toString, stoi_toString]
  split
  · rfl
  · rw [List.append_nil]

/-- What `readSegTrace` leaves in the monitor `m`. -/
structure IsSegment (m : TraceMonitor) (start fin eps : ℤ) (m' : TraceMonitor) : Prop where
  frame : m' = { m with
    eValue := m'.eValue, eName := m'.eName, numEvent := m'.numEvent, hbSet := m'.hbSet }
  numEvent : ∀ i < m.numProcess.toNat, m'.numEvent i = segLen m start fin eps i
  eName : ∀ i < m.numProcess.toNat, ∀ k < segLen m start fin eps i,
    m'.eName i k = toString (segName m start fin eps i k)
  eValue : ∀ i < m.numProcess.toNat, ∀ k < segLen m start fin eps i,
    m'.eValue i k = m.eValueAll i (segStart start eps + k)
  hbSet : m'.hbSet = m.hbSet ++ segPairs m start fin eps

/-- **What `readSegTrace` does.** -/
theorem readSegTrace_spec (h : Loaded m) (start fin eps : ℤ) :
    ∃ m', readSegTrace start fin eps m = some m' ∧ IsSegment m start fin eps m' := by
  obtain ⟨m', hm', hcopied⟩ := copySegment_spec h start fin eps
  have hpairs := recordPairs_spec hcopied
  refine ⟨{ m' with hbSet := m.hbSet ++ segPairs m start fin eps }, ?_,
    ⟨?_, hcopied.numEvent, hcopied.eName, hcopied.eValue, rfl⟩⟩
  · unfold readSegTrace
    rw [hm']
    show (do some { m' with hbSet := ← m'.recordPairs eps }) = _
    rw [hpairs]
    rfl
  · rw [hcopied.frame]

/-- The solver is asked about all events of the segment. -/
theorem IsSegment.totNumEvents {m' : TraceMonitor} (h : IsSegment m start fin eps m') :
    m'.totNumEvents = segOffset m start fin eps m.numProcess.toNat := by
  have hproc : m'.numProcess = m.numProcess := by rw [h.frame]
  unfold TraceMonitor.totNumEvents segOffset
  rw [hproc]
  refine congrArg List.sum (List.map_congr_left fun i hi => ?_)
  exact h.numEvent i (List.mem_range.mp hi)

end TraceMonitor
