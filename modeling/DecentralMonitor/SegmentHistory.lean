/-
# Many calls of `readSegTrace` on one monitor

`main` calls `readSegTrace` on the same monitors for every segment and every `eps`.
Each call starts from `numEvent[i] = 0` and names the events from 1 again, but nothing
sets `numHbSet` back, so the pairs of all earlier calls stay in `hbSet`
(`readCalls_spec`): the segment itself does not depend on the history, the recorded
pairs do (`sameSegment_iff`).

Hence a trace whose segments do not depend on the history is one in which no call can
record anything (`history_independent_iff`).  A state counts only if its pairs fit the array
`hbSet[50][2]`: the 51st write goes past it, and what is there afterwards is undefined.
-/
import DecentralMonitor.SegmentOrder

open FallibleLoop

namespace TraceMonitor

/-! ## Sequences of calls -/

/-- The arguments of a call `readSegTrace(start, end, eps)`. -/
structure SegCall where
  start : ℤ
  fin : ℤ
  eps : ℤ
  deriving DecidableEq, Repr

/-- Execute a call. -/
def readCall (m : TraceMonitor) (c : SegCall) : Option TraceMonitor :=
  readSegTrace c.start c.fin c.eps m

/-- Execute calls one after another. -/
def readCalls (m : TraceMonitor) (calls : List SegCall) : Option TraceMonitor :=
  calls.foldlM readCall m

/-- The pairs a call records. -/
def callPairs (m : TraceMonitor) (c : SegCall) : List (ℕ × ℕ) := segPairs m c.start c.fin c.eps

/-- The pairs a sequence of calls records. -/
def recorded (m : TraceMonitor) (calls : List SegCall) : List (ℕ × ℕ) :=
  calls.flatMap (callPairs m)

/-- The number of pairs a call records. -/
def callPairCount (m : TraceMonitor) (c : SegCall) : ℕ := pairCount m c.start c.fin c.eps

/-- The number of pairs a sequence of calls records. -/
def recordedCount (m : TraceMonitor) (calls : List SegCall) : ℕ :=
  (calls.map (callPairCount m)).sum

/-- The call records nothing. -/
def QuietCall (m : TraceMonitor) (c : SegCall) : Prop := Quiet m c.start c.fin c.eps

instance (m : TraceMonitor) (c : SegCall) : Decidable (QuietCall m c) :=
  inferInstanceAs (Decidable (Quiet _ _ _ _))

variable {m : TraceMonitor} {calls calls' : List SegCall} {c : SegCall}

theorem recorded_append_singleton (m : TraceMonitor) (calls : List SegCall) (c : SegCall) :
    recorded m (calls ++ [c]) = recorded m calls ++ callPairs m c := by
  unfold recorded
  rw [List.flatMap_append, List.flatMap_singleton]

theorem recorded_eq_nil_iff : recorded m calls = [] ↔ ∀ c ∈ calls, QuietCall m c := by
  unfold recorded
  rw [List.flatMap_eq_nil_iff]
  exact forall₂_congr fun _ _ => segPairs_eq_nil_iff

theorem length_callPairs (m : TraceMonitor) (c : SegCall) :
    (callPairs m c).length = callPairCount m c :=
  length_segPairs ..

theorem length_recorded (m : TraceMonitor) (calls : List SegCall) :
    (recorded m calls).length = recordedCount m calls := by
  unfold recorded recordedCount
  rw [List.length_flatMap]
  congr 1
  exact List.map_congr_left fun c _ => length_callPairs m c

/-- What a sequence of calls leaves: the trace itself is not touched, and the pairs of all
calls have been added. -/
structure After (m : TraceMonitor) (calls : List SegCall) (m' : TraceMonitor) : Prop where
  frame : m' = { m with
    eValue := m'.eValue, eName := m'.eName, numEvent := m'.numEvent, hbSet := m'.hbSet }
  hbSet : m'.hbSet = m.hbSet ++ recorded m calls

/-- **When no write passes the end of `hbSet`.** -/
theorem After.hbFits_iff {m' : TraceMonitor} (h : After m calls m') (hhb : m.hbSet = []) :
    m'.HbFits ↔ recordedCount m calls ≤ 50 := by
  unfold HbFits
  rw [h.hbSet, hhb, List.nil_append, length_recorded]

theorem After.hbFits_of_quiet {m' : TraceMonitor} (h : After m calls m') (hhb : m.hbSet = [])
    (hquiet : ∀ c ∈ calls, QuietCall m c) : m'.HbFits := by
  unfold HbFits
  rw [h.hbSet, hhb, List.nil_append, recorded_eq_nil_iff.mpr hquiet]
  exact Nat.zero_le _

/-- What the call `c` leaves after the calls `calls`: the segment of `c`, and before its
pairs those of the earlier calls. -/
def LastSegment (m : TraceMonitor) (calls : List SegCall) (c : SegCall) (m' : TraceMonitor) :
    Prop :=
  IsSegment { m with hbSet := m.hbSet ++ recorded m calls } c.start c.fin c.eps m'

theorem After.loaded {m' : TraceMonitor} (h : After m calls m') (hm : Loaded m) : Loaded m' := by
  rw [h.frame]
  exact ⟨hm.numProcess, hm.numEventAll⟩

/-- One call more. -/
theorem After.readCall {m₁ : TraceMonitor} (h : After m calls m₁) (hm : Loaded m)
    (c : SegCall) : ∃ m', readCall m₁ c = some m' ∧ LastSegment m calls c m' := by
  obtain ⟨m', hm', hseg⟩ := readSegTrace_spec (h.loaded hm) c.start c.fin c.eps
  refine ⟨m', hm', ?_⟩
  -- the window and its pairs are read off the trace, which `m` and `m₁` share
  have hsame : m₁ = { m with
      eValue := m₁.eValue, eName := m₁.eName, numEvent := m₁.numEvent
      hbSet := m.hbSet ++ recorded m calls } := by
    rw [← h.hbSet]
    exact h.frame
  rw [hsame] at hseg
  exact ⟨hseg.frame, hseg.numEvent, hseg.eName, hseg.eValue, hseg.hbSet⟩

theorem LastSegment.after {m' : TraceMonitor} (h : LastSegment m calls c m') :
    After m (calls ++ [c]) m' where
  frame := h.frame
  hbSet := by
    rw [recorded_append_singleton, ← List.append_assoc]
    exact h.hbSet

/-- **What a sequence of calls does.** -/
theorem readCalls_spec (h : Loaded m) (calls : List SegCall) :
    ∃ m', readCalls m calls = some m' ∧ After m calls m' := by
  induction calls using List.reverseRecOn with
  | nil => exact ⟨m, rfl, rfl, (List.append_nil _).symm⟩
  | append_singleton calls c ih =>
    obtain ⟨m₁, hm₁, hafter⟩ := ih
    obtain ⟨m', hm', hseg⟩ := hafter.readCall h c
    refine ⟨m', ?_, hseg.after⟩
    unfold readCalls
    rw [foldlM_append_eq_some_iff]
    exact ⟨m₁, hm₁, (foldlM_singleton readCall m₁ c).trans hm'⟩

/-- The last call of a sequence. -/
theorem readCalls_append_spec (h : Loaded m) (calls : List SegCall) (c : SegCall) :
    ∃ m', readCalls m (calls ++ [c]) = some m' ∧ LastSegment m calls c m' := by
  obtain ⟨m₁, hm₁, hafter⟩ := readCalls_spec h calls
  obtain ⟨m', hm', hseg⟩ := hafter.readCall h c
  refine ⟨m', ?_, hseg⟩
  unfold readCalls
  rw [foldlM_append_eq_some_iff]
  exact ⟨m₁, hm₁, (foldlM_singleton readCall m₁ c).trans hm'⟩

/-! ## Comparing histories -/

/-- The same segment state: the numbers of events, the names and values of these events,
and the recorded pairs. -/
structure SameSegment (m₁ m₂ : TraceMonitor) : Prop where
  numProcess : m₁.numProcess = m₂.numProcess
  numEvent : ∀ i < m₁.numProcess.toNat, m₁.numEvent i = m₂.numEvent i
  eName : ∀ i < m₁.numProcess.toNat, ∀ j < m₁.numEvent i, m₁.eName i j = m₂.eName i j
  eValue : ∀ i < m₁.numProcess.toNat, ∀ j < m₁.numEvent i, m₁.eValue i j = m₂.eValue i j
  hbSet : m₁.hbSet = m₂.hbSet

/-- **What depends on the history.**  After different histories the same call leaves the
same segment state exactly when the histories have recorded the same pairs. -/
theorem sameSegment_iff {m₁ m₂ : TraceMonitor} (h₁ : LastSegment m calls c m₁)
    (h₂ : LastSegment m calls' c m₂) :
    SameSegment m₁ m₂ ↔ recorded m calls = recorded m calls' := by
  have hproc₁ : m₁.numProcess = m.numProcess := by rw [h₁.frame]
  have hproc₂ : m₂.numProcess = m.numProcess := by rw [h₂.frame]
  have hpairs : m₁.hbSet = m₂.hbSet ↔ recorded m calls = recorded m calls' := by
    have hb₁ : m₁.hbSet = m.hbSet ++ recorded m calls ++ callPairs m c := h₁.hbSet
    have hb₂ : m₂.hbSet = m.hbSet ++ recorded m calls' ++ callPairs m c := h₂.hbSet
    rw [hb₁, hb₂, List.append_left_inj, List.append_right_inj]
  rw [← hpairs]
  constructor
  · exact SameSegment.hbSet
  · intro hhb
    refine ⟨hproc₁.trans hproc₂.symm, ?_, ?_, ?_, hhb⟩
    · intro i hi
      rw [hproc₁] at hi
      exact (h₁.numEvent i hi).trans (h₂.numEvent i hi).symm
    · intro i hi j hj
      rw [hproc₁] at hi
      rw [h₁.numEvent i hi] at hj
      exact (h₁.eName i hi j hj).trans (h₂.eName i hi j hj).symm
    · intro i hi j hj
      rw [hproc₁] at hi
      rw [h₁.numEvent i hi] at hj
      exact (h₁.eValue i hi j hj).trans (h₂.eValue i hi j hj).symm

/-- At most one of the processes has events. -/
def OneProcess (m : TraceMonitor) : Prop :=
  ∀ i < m.numProcess.toNat, ∀ k < m.numProcess.toNat, i ≠ k →
    m.numEventAll i = 0 ∨ m.numEventAll k = 0

/-- Two processes with events record a pair in the call that reads the first event of
each. -/
theorem oneProcess_iff : OneProcess m ↔ ∀ c, QuietCall m c := by
  constructor
  · intro h c i hi k hk hik hposi hposk
    unfold segLen at hposi hposk
    rcases h i hi k hk hik with hnone | hnone <;> omega
  · intro h i hi k hk hik
    by_contra hboth
    have hlen : ∀ i, 0 < m.numEventAll i → segLen m 0 1 0 i = 1 := by
      intro i hpos
      unfold segLen segStart
      omega
    have hi1 := hlen i (by omega)
    have hk1 := hlen k (by omega)
    have hquiet := h ⟨0, 1, 0⟩ i hi k hk hik
    unfold QuietCall at *
    dsimp only at hquiet
    rw [hi1, hk1] at hquiet
    have := hquiet (by decide) (by decide)
    omega

/-- The same call twice: the pairs of the first segment are there twice. -/
theorem history_dependent : ∃ m₁ m₂ : TraceMonitor,
    Loaded kitchenTrace ∧ kitchenTrace.hbSet = [] ∧
      readCalls kitchenTrace ([] ++ [⟨0, 4, 0⟩]) = some m₁ ∧
      readCalls kitchenTrace ([⟨0, 4, 0⟩] ++ [⟨0, 4, 0⟩]) = some m₂ ∧ m₂.HbFits ∧
      m₁.hbSet.length = 8 ∧ m₂.hbSet.length = 16 ∧ ¬ SameSegment m₁ m₂ := by
  obtain ⟨m₁, hm₁, hseg₁⟩ := readCalls_append_spec loaded_kitchenTrace [] ⟨0, 4, 0⟩
  obtain ⟨m₂, hm₂, hseg₂⟩ := readCalls_append_spec loaded_kitchenTrace [⟨0, 4, 0⟩] ⟨0, 4, 0⟩
  have hlen₁ : m₁.hbSet.length = 8 := by
    rw [hseg₁.hbSet]
    decide +kernel
  have hlen₂ : m₂.hbSet.length = 16 := by
    rw [hseg₂.hbSet]
    decide +kernel
  refine ⟨m₁, m₂, loaded_kitchenTrace, rfl, hm₁, hm₂, ?_, hlen₁, hlen₂, fun h => ?_⟩
  · unfold HbFits
    rw [hlen₂]
    decide
  · have hlen := congrArg List.length h.hbSet
    rw [hlen₁, hlen₂] at hlen
    omega

/-- The two states are defined, i.e. no write has passed the end of `hbSet`, and hold the same
segment. -/
structure Agree (m₁ m₂ : TraceMonitor) : Prop where
  fits₁ : m₁.HbFits
  fits₂ : m₂.HbFits
  same : SameSegment m₁ m₂

/-- Calls before the last one leave no trace in the segment exactly when all of them have
been quiet and the pairs of the last one fit. -/
theorem readCalls_quiet_iff (h : Loaded m) (hhb : m.hbSet = []) (calls : List SegCall)
    (c : SegCall) :
    ∃ m₁ m₂, readCalls m (calls ++ [c]) = some m₁ ∧ readCalls m [c] = some m₂ ∧
      (Agree m₁ m₂ ↔ (∀ d ∈ calls, QuietCall m d) ∧ callPairCount m c ≤ 50) ∧
      (m₁.HbFits ∧ m₁.hbSet = callPairs m c ↔
        (∀ d ∈ calls, QuietCall m d) ∧ callPairCount m c ≤ 50) := by
  obtain ⟨m₁, hm₁, hseg₁⟩ := readCalls_append_spec h calls c
  obtain ⟨m₂, hm₂, hseg₂⟩ := readCalls_append_spec h [] c
  have hpairs₁ : m₁.hbSet = recorded m calls ++ callPairs m c := by
    rw [hseg₁.after.hbSet, hhb, List.nil_append, recorded_append_singleton]
  have hpairs₂ : m₂.hbSet = callPairs m c := by
    rw [hseg₂.after.hbSet, hhb, List.nil_append, recorded_append_singleton]
    rfl
  have hfits : m₂.HbFits ↔ callPairCount m c ≤ 50 := by
    unfold HbFits
    rw [hpairs₂, length_callPairs]
  have hsame : SameSegment m₁ m₂ ↔ ∀ d ∈ calls, QuietCall m d := by
    rw [sameSegment_iff hseg₁ hseg₂, ← recorded_eq_nil_iff]
    rfl
  have hown : m₁.hbSet = callPairs m c ↔ ∀ d ∈ calls, QuietCall m d := by
    rw [hpairs₁, List.append_left_eq_self, recorded_eq_nil_iff]
  -- with a quiet history both states hold the pairs of the last call
  have hfits₁ : (∀ d ∈ calls, QuietCall m d) → (m₁.HbFits ↔ m₂.HbFits) := by
    intro hquiet
    unfold HbFits
    rw [hown.mpr hquiet, hpairs₂]
  refine ⟨m₁, m₂, hm₁, hm₂, ?_, ?_⟩
  · constructor
    · intro hagree
      exact ⟨hsame.mp hagree.same, hfits.mp hagree.fits₂⟩
    · rintro ⟨hquiet, hcount⟩
      have hm₂fits := hfits.mpr hcount
      exact ⟨(hfits₁ hquiet).mpr hm₂fits, hm₂fits, hsame.mpr hquiet⟩
  · rw [hown, and_comm, ← hfits]
    exact and_congr_right hfits₁

/-- **When a segment does not depend on the history.**  For a loaded trace with nothing
recorded yet:

* no history matters to any call exactly when at most one process has events;
* after given calls, the next call leaves the segment state it leaves without them, and
  its own pairs only, exactly when all these calls have been quiet and its pairs fit `hbSet`;
* a call made twice changes nothing exactly when it is quiet. -/
theorem history_independent_iff (h : Loaded m) (hhb : m.hbSet = []) :
    ((∀ calls calls' c, ∃ m₁ m₂, readCalls m (calls ++ [c]) = some m₁ ∧
        readCalls m (calls' ++ [c]) = some m₂ ∧ Agree m₁ m₂) ↔ OneProcess m) ∧
    (∀ calls c, ∃ m₁ m₂, readCalls m (calls ++ [c]) = some m₁ ∧ readCalls m [c] = some m₂ ∧
      (Agree m₁ m₂ ↔ (∀ d ∈ calls, QuietCall m d) ∧ callPairCount m c ≤ 50) ∧
      (m₁.HbFits ∧ m₁.hbSet = callPairs m c ↔
        (∀ d ∈ calls, QuietCall m d) ∧ callPairCount m c ≤ 50)) ∧
    ∀ c, ∃ m₁ m₂, readCalls m [c] = some m₁ ∧ readCall m₁ c = some m₂ ∧
      (Agree m₂ m₁ ↔ QuietCall m c) := by
  refine ⟨?_, readCalls_quiet_iff h hhb, ?_⟩
  · rw [oneProcess_iff]
    constructor
    · intro hall c
      obtain ⟨m₁, m₂, hm₁, hm₂, hagree⟩ := hall [c] [] c
      obtain ⟨m₁', m₂', hm₁', hm₂', hiff, -⟩ := readCalls_quiet_iff h hhb [c] c
      obtain rfl : m₁' = m₁ := Option.some.inj (hm₁'.symm.trans hm₁)
      obtain rfl : m₂' = m₂ := Option.some.inj (hm₂'.symm.trans hm₂)
      exact (hiff.mp hagree).1 c List.mem_cons_self
    · intro hquiet calls calls' c
      have hnone : ∀ calls, recorded m calls = [] := fun calls =>
        recorded_eq_nil_iff.mpr fun d _ => hquiet d
      have hfits : ∀ calls m', After m calls m' → m'.HbFits := fun _ _ hafter =>
        hafter.hbFits_of_quiet hhb fun d _ => hquiet d
      obtain ⟨m₁, hm₁, hseg₁⟩ := readCalls_append_spec h calls c
      obtain ⟨m₂, hm₂, hseg₂⟩ := readCalls_append_spec h calls' c
      refine ⟨m₁, m₂, hm₁, hm₂, hfits _ _ hseg₁.after, hfits _ _ hseg₂.after, ?_⟩
      rw [sameSegment_iff hseg₁ hseg₂, hnone, hnone]
  · intro c
    obtain ⟨m₁, hm₁, hseg₁⟩ := readCalls_append_spec h [] c
    obtain ⟨m₂, hm₂, hseg₂⟩ := hseg₁.after.readCall h c
    have hsame : SameSegment m₂ m₁ ↔ QuietCall m c := by
      have hquiet : recorded m ([] ++ [c]) = recorded m [] ↔ ∀ d ∈ [c], QuietCall m d :=
        recorded_eq_nil_iff
      rw [sameSegment_iff hseg₂ hseg₁, hquiet, List.forall_mem_singleton]
    refine ⟨m₁, m₂, hm₁, hm₂, fun hagree => hsame.mp hagree.same, fun hq => ?_⟩
    refine ⟨hseg₂.after.hbFits_of_quiet hhb ?_, hseg₁.after.hbFits_of_quiet hhb ?_, hsame.mpr hq⟩
    · simpa using hq
    · simpa using hq

/-- A call with `eps = 2` records nothing here, so the next one is as without it. -/
theorem history_independent_kitchen : ∃ m₁ m₂ : TraceMonitor,
    readCalls kitchenTrace ([⟨0, 4, 2⟩] ++ [⟨0, 4, 0⟩]) = some m₁ ∧
      readCalls kitchenTrace [⟨0, 4, 0⟩] = some m₂ ∧ Agree m₁ m₂ := by
  obtain ⟨m₁, m₂, hm₁, hm₂, hiff, -⟩ :=
    (history_independent_iff loaded_kitchenTrace rfl).2.1 [⟨0, 4, 2⟩] ⟨0, 4, 0⟩
  have hcount : callPairCount kitchenTrace ⟨0, 4, 0⟩ ≤ 50 := by decide +kernel
  exact ⟨m₁, m₂, hm₁, hm₂, hiff.mpr ⟨by decide, hcount⟩⟩

end TraceMonitor
