/-
# The windows of the segment loop

`main` cuts the trace into segments of `segLength` events and lets every monitor look
`eps` events back from the start of each segment.  `window s` is the list of positions
that iteration `s` is to see: the windows cover the trace, they are disjoint when
`eps = 0`, and any two positions at most `eps` apart are in a window together.

`readSegTrace_window` says that one call of `readSegTrace` copies exactly its window,
and `LoopInvariant.of_loopBody` is one iteration of the loop, whatever the monitors are
answered.
-/
import Mathlib.Algebra.Order.Group.Abs
import Mathlib.Algebra.Order.Group.Int
import Mathlib.Data.List.Sort
import DecentralMonitor.VerdictDelivery

open FallibleLoop TraceMonitor

namespace Room

variable {n : ℕ}

/-! ## Windows -/

section Window

variable (segLength eps T : ℕ)

/-- The positions of a trace of length `T` that belong to iteration `s`. -/
def window (s : ℕ) : List ℕ :=
  (List.range T).filter fun t => s * segLength ≤ t + eps ∧ t < (s + 1) * segLength

/-- The number of iterations: `T / segLength` rounded up. -/
def numSegments : ℕ := (T + segLength - 1) / segLength

theorem mem_window {s t : ℕ} :
    t ∈ window segLength eps T s ↔
      t < T ∧ s * segLength ≤ t + eps ∧ t < (s + 1) * segLength := by
  simp [window]

variable {segLength eps T}

theorem lt_numSegments_iff (hseg : 1 ≤ segLength) {s : ℕ} :
    s < numSegments segLength T ↔ s * segLength < T := by
  unfold numSegments
  rw [← Nat.succ_le_iff, Nat.le_div_iff_mul_le hseg, Nat.succ_mul]
  omega

/-- Two positions at most `eps` apart are seen together in the segment of the later
one. -/
theorem exists_mem_window (eps : ℕ) (hseg : 1 ≤ segLength) {t u : ℕ} (ht : t < T) (hu : u < T)
    (htu : |(t : ℤ) - u| ≤ eps) :
    ∃ s < numSegments segLength T, t ∈ window segLength eps T s ∧ u ∈ window segLength eps T s := by
  have hle : max t u / segLength * segLength ≤ max t u := Nat.div_mul_le_self _ _
  have hlt : max t u < (max t u / segLength + 1) * segLength := by
    have := Nat.lt_div_mul_add (a := max t u) (b := segLength) hseg
    rw [Nat.succ_mul]
    exact this
  rw [abs_le] at htu
  -- the later one is in the segment itself, the earlier one at most `eps` before it
  refine ⟨max t u / segLength, (lt_numSegments_iff hseg).mpr (by omega), ?_, ?_⟩
  · exact (mem_window ..).mpr ⟨ht, by omega, by omega⟩
  · exact (mem_window ..).mpr ⟨hu, by omega, by omega⟩

/-- Without looking back the windows are disjoint. -/
theorem window_unique {s s' t : ℕ} (hs : t ∈ window segLength 0 T s)
    (hs' : t ∈ window segLength 0 T s') : s = s' := by
  rw [mem_window] at hs hs'
  by_contra hne
  rcases Nat.lt_or_gt_of_ne hne with hlt | hlt
  · have hmul : (s + 1) * segLength ≤ s' * segLength := Nat.mul_le_mul_right _ hlt
    omega
  · have hmul : (s' + 1) * segLength ≤ s * segLength := Nat.mul_le_mul_right _ hlt
    omega

/-- The positions the source runs through are those of the window, in order. -/
theorem segRange_eq_window (s : ℕ) :
    segRange (s * segLength : ℕ) ((s + 1) * segLength : ℕ) eps T = window segLength eps T s := by
  refine List.Pairwise.eq_of_mem_iff (r := (· < ·)) List.pairwise_lt_range'
    (List.pairwise_lt_range.filter _) fun t => ?_
  rw [mem_window, segRange, List.mem_range'_1, segStart]
  omega

end Window

/-! ## One segment of one monitor -/

/-- The two monitors hold the same trace. -/
structure SameTrace (m m' : TraceMonitor) : Prop where
  numProcess : m'.numProcess = m.numProcess
  numEventAll : m'.numEventAll = m.numEventAll
  eValueAll : m'.eValueAll = m.eValueAll

theorem SameTrace.trans {m m' m'' : TraceMonitor} (h : SameTrace m m') (h' : SameTrace m' m'') :
    SameTrace m m'' :=
  ⟨h'.numProcess.trans h.numProcess, h'.numEventAll.trans h.numEventAll,
    h'.eValueAll.trans h.eValueAll⟩

theorem TakesSegment.sameTrace {start fin eps : ℤ} {m m' : TraceMonitor}
    (h : TakesSegment start fin eps m m') : SameTrace m m' :=
  ⟨h.numProcess, h.numEventAll, h.eValueAll⟩

/-- The pairs depend on the trace only. -/
theorem SameTrace.segPairs_eq {m m' : TraceMonitor} (h : SameTrace m m') (start fin eps : ℤ) :
    segPairs m' start fin eps = segPairs m start fin eps := by
  unfold segPairs segName segOffset segLen
  rw [h.numProcess, h.numEventAll]

theorem TakesSegment.hbSet {start fin eps : ℤ} {m m' : TraceMonitor}
    (h : TakesSegment start fin eps m m') : m'.hbSet = m.hbSet ++ segPairs m start fin eps := by
  obtain ⟨u, hu, hm'⟩ := h
  rw [hm', ← hu.hbSet]

/-- `m'` holds, for every process, exactly the events of the trace of `m` at these
positions. -/
def CopiesEvents (m m' : TraceMonitor) (positions : List ℕ) : Prop :=
  ∀ p < m.numProcess.toNat,
    (List.range (m'.numEvent p)).map (m'.eValue p) = positions.map (m.eValueAll p)

/-- All processes of the monitor have `T` events. -/
def Aligned (T : ℕ) (m : TraceMonitor) : Prop := ∀ p < m.numProcess.toNat, m.numEventAll p = T

/-- **`readSegTrace` copies its window.** -/
theorem readSegTrace_window {segLength eps T s : ℕ} {m₀ m m' : TraceMonitor}
    (hsame : SameTrace m₀ m) (haligned : Aligned T m₀)
    (h : TakesSegment (s * segLength : ℕ) ((s + 1) * segLength : ℕ) eps m m') :
    CopiesEvents m₀ m' (window segLength eps T s) := by
  intro p hp
  obtain ⟨u, hu, hm'⟩ := h
  have hpm : p < m.numProcess.toNat := by rw [hsame.numProcess]; exact hp
  have hcount : m'.numEvent p = segLen m (s * segLength : ℕ) ((s + 1) * segLength : ℕ) eps p := by
    rw [hm']
    exact hu.numEvent p hpm
  have hvalue : m'.eValue = u.eValue := by rw [hm']
  have hT : m.numEventAll p = T := by
    rw [hsame.numEventAll]
    exact haligned p hp
  rw [hcount, hvalue, ← segRange_eq_window, ← hT, segRange_eq_map, List.map_map]
  refine List.map_congr_left fun k hk => ?_
  rw [hu.eValue p hpm k (List.mem_range.mp hk), hsame.eValueAll]
  rfl

/-! ## The loop -/

/-- The state of the loop before iteration `s`: the room holds the traces of `room₀`. -/
structure LoopInvariant (segLength eps T : ℕ) (room₀ : Room n) (s : ℕ) (st : LoopState n) :
    Prop where
  fin : st.fin = (s * segLength : ℕ)
  ready : RoomReady st.room
  pair : ∀ i, SameTrace (room₀.monitorList i) (st.room.monitorList i)
  cent : SameTrace room₀.centMon st.room.centMon

/-- The loop goes on as long as there is another segment. -/
theorem LoopInvariant.guard_iff {segLength eps T s : ℕ} (hseg : 1 ≤ segLength) {room₀ : Room n}
    (hT : room₀.centMon.numEventAll 0 = T) {st : LoopState n}
    (h : LoopInvariant segLength eps T room₀ s st) :
    LoopGuard st ↔ s < numSegments segLength T := by
  unfold LoopGuard
  rw [h.fin, h.cent.numEventAll, hT, lt_numSegments_iff hseg]
  exact Int.ofNat_lt

/-- The window of iteration `s` is in every monitor whose processes all have `T` events. -/
def CopiesWindow (segLength eps T : ℕ) (room₀ : Room n) (s : ℕ) (st : LoopState n) : Prop :=
  (∀ i, Aligned T (room₀.monitorList i) → CopiesEvents (room₀.monitorList i)
    (st.room.monitorList i) (window segLength eps T s)) ∧
  (Aligned T room₀.centMon → CopiesEvents room₀.centMon st.room.centMon
    (window segLength eps T s))

/-- What an iteration does to the room, whatever the monitors are answered. -/
theorem loopBody_done {segLength eps : ℤ} {solve : Solve n} {loop loop' : LoopState n}
    (h : RoomReady loop.room) (hbody : loopBody segLength eps solve loop = some loop') :
    loop'.fin = loop.fin + segLength ∧ RoomReady loop'.room ∧
      ∃ results, SegmentDone loop.fin (loop.fin + segLength) eps results loop.room loop'.room := by
  unfold loopBody at hbody
  obtain ⟨room, hroom, hbody⟩ := Option.bind_eq_some_iff.mp hbody
  obtain rfl := Option.some.inj hbody
  obtain ⟨results, centResult, hanswers⟩ := exists_answers hroom
  obtain ⟨room', hroom', hready, hdone⟩ :=
    segment_spec h loop.fin (loop.fin + segLength) eps results centResult
  obtain rfl : room' = room := Option.some.inj (hroom'.symm.trans hanswers)
  exact ⟨rfl, hready, results, hdone⟩

section Iteration

variable {segLength eps T s : ℕ} {room₀ : Room n} {st st' : LoopState n} {solve : Solve n}

/-- The window of an iteration ends where its segment does. -/
theorem LoopInvariant.fin_add (h : LoopInvariant segLength eps T room₀ s st) :
    st.fin + (segLength : ℤ) = ((s + 1) * segLength : ℕ) := by
  rw [h.fin, Nat.succ_mul]
  omega

/-- **One iteration.** -/
theorem LoopInvariant.of_loopBody (h : LoopInvariant segLength eps T room₀ s st)
    (hbody : loopBody segLength eps solve st = some st') :
    LoopInvariant segLength eps T room₀ (s + 1) st' ∧ ∃ results, SegmentDone
      (s * segLength : ℕ) ((s + 1) * segLength : ℕ) eps results st.room st'.room := by
  obtain ⟨hfin, hready, results, hdone⟩ := loopBody_done h.ready hbody
  rw [h.fin_add, h.fin] at hdone
  refine ⟨⟨hfin.trans h.fin_add, hready, fun k => ?_, ?_⟩, results, hdone⟩
  · exact (h.pair k).trans (hdone.pair k).sameTrace
  · exact h.cent.trans hdone.cent.sameTrace

/-- It copies its windows. -/
theorem LoopInvariant.copiesWindow (h : LoopInvariant segLength eps T room₀ s st)
    {results : Fin n → Bool} (hdone : SegmentDone (s * segLength : ℕ) ((s + 1) * segLength : ℕ)
      eps results st.room st'.room) : CopiesWindow segLength eps T room₀ s st' :=
  ⟨fun k hk => readSegTrace_window (h.pair k) hk (hdone.pair k),
    fun hc => readSegTrace_window h.cent hc hdone.cent⟩

end Iteration

end Room
