/-
# The masks of the recorded events

For every recorded pair `solveSMT` builds the mask of each of its two events: the power
`pow(2, id - 1)` is converted to `int`, and that to a bit-vector with one bit for each
event of the current segment.  The mask is the one meant when the id is one of the
segment's and the power fits an `int`.

The recorded ids come from all calls made so far (`SegmentHistory`), the number of
events from the last one.  `masks_exact_iff` gives the condition on the windows of the
calls under which every mask is exact.
-/
import DecentralMonitor.CutEncoding
import DecentralMonitor.SegmentHistory

namespace TraceMonitor

/-! ## One mask -/

/-- The largest value of an `int`. -/
def intMax : ℤ := 2 ^ 31 - 1

/-- The mask of the event `id` in a segment of `N` events, as the bit-vector that the solver
is given, is `v`. -/
def HasMask (N id : ℕ) (v : BitVec N) : Prop :=
  ∃ p : ℤ, eventMask id = some p ∧ 0 ≤ p ∧ p ≤ intMax ∧ v = BitVec.ofInt N p

/-- The masks that exist are those of the first 31 ids. -/
theorem HasMask.le {N id : ℕ} {v : BitVec N} (h : HasMask N id v) : id ≤ 31 := by
  obtain ⟨p, hp, -⟩ := h
  by_contra hlarge
  unfold eventMask at hp
  rw [if_neg (by omega), if_neg hlarge] at hp
  simp at hp

/-- The mask of an event of the segment has the event's bit, and no other. -/
theorem exists_hasMask {N id : ℕ} (hpos : 1 ≤ id) (hN : id ≤ N) (hfit : id ≤ 31) :
    ∃ v, HasMask N id v ∧ v.toNat = 2 ^ (id - 1) := by
  have hcast : ((2 : ℤ) ^ (id - 1)) = ((2 ^ (id - 1) : ℕ) : ℤ) := by
    push_cast
    rfl
  have hle : 2 ^ (id - 1) ≤ 2 ^ 30 := Nat.pow_le_pow_right (by decide) (by omega)
  have hlt : 2 ^ (id - 1) < 2 ^ N := Nat.pow_lt_pow_right (by decide) (by omega)
  refine ⟨_, ⟨_, eventMask_eq hpos hfit, ?_, ?_, rfl⟩, ?_⟩
  · rw [hcast]
    exact Int.natCast_nonneg _
  · rw [hcast]
    unfold intMax
    omega
  · rw [hcast, BitVec.ofInt_natCast, BitVec.toNat_ofNat, Nat.mod_eq_of_lt hlt]

theorem HasMask.unique {N id : ℕ} {v w : BitVec N} (hv : HasMask N id v)
    (hw : HasMask N id w) : v = w := by
  obtain ⟨p, hp, -, -, rfl⟩ := hv
  obtain ⟨q, hq, -, -, rfl⟩ := hw
  obtain rfl : p = q := Option.some.inj (hp.symm.trans hq)
  rfl

/-! ## The masks of a state -/

/-- The event `id` is part of a recorded pair. -/
def RecordedId (m : TraceMonitor) (id : ℕ) : Prop := ∃ p ∈ m.hbSet, id = p.1 ∨ id = p.2

/-- Every recorded id is one of the segment's events and its mask is the single bit of this
event; so no mask is zero and different events have different masks. -/
structure MasksExact (m : TraceMonitor) : Prop where
  id : ∀ id, RecordedId m id → 1 ≤ id ∧ id ≤ m.totNumEvents
  mask : ∀ id, RecordedId m id → ∃ v, HasMask m.totNumEvents id v ∧ v.toNat = 2 ^ (id - 1)
  ne_zero : ∀ id v, RecordedId m id → HasMask m.totNumEvents id v → v ≠ 0
  inj : ∀ id id' v v', RecordedId m id → RecordedId m id' → HasMask m.totNumEvents id v →
    HasMask m.totNumEvents id' v' → id ≠ id' → v ≠ v'

/-- **When the masks of a state are exact.** -/
theorem masksExact_iff {m : TraceMonitor} :
    MasksExact m ↔ ∀ id, RecordedId m id → 1 ≤ id ∧ id ≤ m.totNumEvents ∧ id ≤ 31 := by
  constructor
  · intro h id hid
    obtain ⟨v, hv, -⟩ := h.mask id hid
    exact ⟨(h.id id hid).1, (h.id id hid).2, hv.le⟩
  · intro h
    have hexact : ∀ id, RecordedId m id →
        ∃ v, HasMask m.totNumEvents id v ∧ v.toNat = 2 ^ (id - 1) := by
      intro id hid
      obtain ⟨hpos, hN, hfit⟩ := h id hid
      exact exists_hasMask hpos hN hfit
    refine ⟨fun id hid => ⟨(h id hid).1, (h id hid).2.1⟩, hexact, ?_, ?_⟩
    · rintro id v hid hv rfl
      obtain ⟨w, hw, hbit⟩ := hexact id hid
      rw [hw.unique hv] at hbit
      have hpos : 0 < 2 ^ (id - 1) := Nat.two_pow_pos _
      have hzero : (0 : BitVec m.totNumEvents).toNat = 0 := BitVec.toNat_zero
      omega
    · rintro id id' v v' hid hid' hv hv' hne rfl
      obtain ⟨w, hw, hbit⟩ := hexact id hid
      obtain ⟨w', hw', hbit'⟩ := hexact id' hid'
      rw [hw.unique hv] at hbit
      rw [hw'.unique hv'] at hbit'
      have hexp : id - 1 = id' - 1 := Nat.pow_right_injective le_rfl (hbit.symm.trans hbit')
      have hpos := (h id hid).1
      have hpos' := (h id' hid').1
      omega

/-! ## The masks after a sequence of calls -/

/-- Event `j` of process `i` of the call's window is recorded: another process has an event
at a distance of at least `eps`. -/
def RecordedEvent (m : TraceMonitor) (c : SegCall) (i j : ℕ) : Prop :=
  i < m.numProcess.toNat ∧ j < segLen m c.start c.fin c.eps i ∧
    ∃ k < m.numProcess.toNat, i ≠ k ∧ ∃ l < segLen m c.start c.fin c.eps k,
      c.eps ≤ |(j : ℤ) - l|

/-- The number of events in the call's window. -/
def callEvents (m : TraceMonitor) (c : SegCall) : ℕ :=
  segOffset m c.start c.fin c.eps m.numProcess.toNat

/-- The name of event `j` of process `i` of the call's window. -/
def callName (m : TraceMonitor) (c : SegCall) (i j : ℕ) : ℕ := segName m c.start c.fin c.eps i j

variable {m : TraceMonitor} {calls : List SegCall} {c : SegCall}

/-- The ids a call records are the names of its recorded events. -/
theorem exists_mem_callPairs_iff {id : ℕ} : (∃ p ∈ callPairs m c, id = p.1 ∨ id = p.2) ↔
    ∃ i j, RecordedEvent m c i j ∧ id = callName m c i j := by
  constructor
  · rintro ⟨p, hp, hid⟩
    obtain ⟨i, hi, j, hj, k, hk, l, hl, ⟨hdist, hik⟩, rfl⟩ := (mem_segPairs ..).mp hp
    rcases hid with rfl | rfl
    · exact ⟨i, j, ⟨hi, hj, k, hk, hik, l, hl, hdist⟩, rfl⟩
    · rw [abs_sub_comm] at hdist
      exact ⟨k, l, ⟨hk, hl, i, hi, hik.symm, j, hj, hdist⟩, rfl⟩
  · rintro ⟨i, j, ⟨hi, hj, k, hk, hik, l, hl, hdist⟩, rfl⟩
    refine ⟨_, (mem_segPairs ..).mpr ⟨i, hi, j, hj, k, hk, l, hl, ⟨hdist, hik⟩, rfl⟩, ?_⟩
    exact Or.inl rfl

/-- The recorded ids of a state are the names of the recorded events of all calls. -/
theorem After.recordedId_iff {m' : TraceMonitor} (h : After m calls m') (hhb : m.hbSet = [])
    {id : ℕ} : RecordedId m' id ↔
      ∃ c ∈ calls, ∃ i j, RecordedEvent m c i j ∧ id = callName m c i j := by
  unfold RecordedId
  rw [h.hbSet, hhb, List.nil_append]
  unfold recorded
  simp only [List.mem_flatMap, ← exists_mem_callPairs_iff]
  constructor
  · rintro ⟨p, ⟨c, hc, hp⟩, hid⟩
    exact ⟨c, hc, p, hp, hid⟩
  · rintro ⟨c, hc, p, hp, hid⟩
    exact ⟨p, ⟨c, hc, hp⟩, hid⟩

/-- The events of a state are those of the last call. -/
theorem totNumEvents_readCalls (h : Loaded m) {m' : TraceMonitor}
    (hm' : readCalls m calls = some m') {d : SegCall} (hd : calls.getLast? = some d) :
    m'.totNumEvents = callEvents m d := by
  obtain ⟨pre, rfl⟩ := List.getLast?_eq_some_iff.mp hd
  obtain ⟨m₁, hm₁, hseg⟩ := readCalls_append_spec h pre d
  obtain rfl : m₁ = m' := Option.some.inj (hm₁.symm.trans hm')
  exact hseg.totNumEvents

/-- Every recorded event of every call has a name up to 31 that the last call has used
too. -/
def MasksFit (m : TraceMonitor) (calls : List SegCall) : Prop :=
  ∀ c ∈ calls, ∀ i j, RecordedEvent m c i j →
    callName m c i j ≤ 31 ∧ ∀ d, calls.getLast? = some d → callName m c i j ≤ callEvents m d

/-- Two switches and a light with five values each, as `main` takes them: the second
segment has two events, but the ids of the eight events of the first are still
recorded. -/
theorem masks_stale : ∃ m m' : TraceMonitor, Loaded m ∧ m.hbSet = [] ∧
    readCalls m [⟨0, 4, 0⟩, ⟨4, 8, 0⟩] = some m' ∧ m'.HbFits ∧ m'.totNumEvents = 2 ∧
      RecordedId m' 8 ∧ ¬ MasksExact m' := by
  have hloaded : Loaded (withTrace blank [["0", "1", "0", "1", "0"], ["0", "1", "0", "1", "0"],
      ["0", "1", "0", "1", "0"]]) := ⟨by decide, by decide⟩
  obtain ⟨m', hm', hseg⟩ := readCalls_append_spec hloaded [⟨0, 4, 0⟩] ⟨4, 8, 0⟩
  have htot : m'.totNumEvents = 2 := by
    rw [hseg.totNumEvents]
    decide
  have hid : RecordedId m' 8 := by
    unfold RecordedId
    rw [hseg.hbSet]
    decide +kernel
  refine ⟨_, m', hloaded, rfl, hm', ?_, htot, hid, fun h => ?_⟩
  · unfold HbFits
    rw [hseg.hbSet]
    decide +kernel
  · have hrange := (h.id 8 hid).2
    rw [htot] at hrange
    omega

/-- **When the masks are exact.**  For a loaded trace with nothing recorded yet and any
sequence of calls: the pairs of the state it leaves fit `hbSet` and all its masks are exact
exactly when the recorded events of all its calls have names up to 31 among those of the last
segment, and the calls record no more than 50 pairs. -/
theorem masks_exact_iff (h : Loaded m) (hhb : m.hbSet = []) (calls : List SegCall) :
    ∃ m', readCalls m calls = some m' ∧
      (m'.HbFits ∧ MasksExact m' ↔ recordedCount m calls ≤ 50 ∧ MasksFit m calls) := by
  obtain ⟨m', hm', hafter⟩ := readCalls_spec h calls
  have hrecorded : ∀ id, RecordedId m' id ↔
      ∃ c ∈ calls, ∃ i j, RecordedEvent m c i j ∧ id = callName m c i j :=
    fun id => hafter.recordedId_iff hhb
  have htot : ∀ d, calls.getLast? = some d → m'.totNumEvents = callEvents m d :=
    fun d hd => totNumEvents_readCalls h hm' hd
  refine ⟨m', hm', ?_⟩
  rw [hafter.hbFits_iff hhb, masksExact_iff]
  refine and_congr_right fun _ => ?_
  constructor
  · intro hexact c hc i j hij
    obtain ⟨-, hN, hfit⟩ := hexact _ ((hrecorded _).mpr ⟨c, hc, i, j, hij, rfl⟩)
    refine ⟨hfit, fun d hd => ?_⟩
    rw [← htot d hd]
    exact hN
  · intro hfits id hid
    obtain ⟨c, hc, i, j, hij, rfl⟩ := (hrecorded id).mp hid
    obtain ⟨hfit, hlast⟩ := hfits c hc i j hij
    obtain ⟨d, hd⟩ : ∃ d, calls.getLast? = some d := by
      rw [← Option.isSome_iff_exists, List.getLast?_isSome]
      rintro rfl
      exact List.not_mem_nil hc
    refine ⟨?_, ?_, hfit⟩
    · unfold callName segName
      omega
    · rw [htot d hd]
      exact hlast d hd

/-- One segment of the kitchen, whose events have names up to 4. -/
theorem masks_exact_kitchen :
    ∃ m', readCalls kitchenTrace [⟨0, 4, 0⟩] = some m' ∧ m'.HbFits ∧ MasksExact m' := by
  obtain ⟨m', hm', hiff⟩ := masks_exact_iff loaded_kitchenTrace rfl [⟨0, 4, 0⟩]
  refine ⟨m', hm', hiff.mpr ⟨by decide +kernel, ?_⟩⟩
  have hwindow : ∀ i < 2, ∀ j < 2, callName kitchenTrace ⟨0, 4, 0⟩ i j ≤ 4 := by decide
  have hlen : ∀ i < 2, segLen kitchenTrace 0 4 0 i = 2 := by decide
  intro c hc i j hij
  obtain rfl : c = ⟨0, 4, 0⟩ := List.mem_singleton.mp hc
  have hi : i < 2 := hij.1
  have hj : j < 2 := hlen i hi ▸ hij.2.1
  have hname := hwindow i hi j hj
  refine ⟨by omega, fun d hd => ?_⟩
  obtain rfl : (⟨0, 4, 0⟩ : SegCall) = d := Option.some.inj hd
  exact hname

end TraceMonitor
