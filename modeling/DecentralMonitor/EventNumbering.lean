/-
# The numbers of the events of a segment

`readSegTrace` names the events of a segment with one counter that runs through the
processes, each clipped to its own trace.  The names are written as text and read back
when the pairs are recorded.

In the terms of the numbering library, event `k` of process `i` has the number
`number (segLen …) i k` (`segName_eq_number`).  So the names are `1, …, totNumEvents`,
each given once, and no pair of a call is recorded twice (`nodup_segPairs`).
`event_numbering` puts this together for the state after a call.
-/
import DecentralMonitor.Numbering
import DecentralMonitor.SegmentOrder

open Numbering

namespace TraceMonitor

section Names

variable {m : TraceMonitor} {start fin eps : ℤ} {i j k l : ℕ}

/-! ## Names as numbers -/

theorem segName_eq_number (m : TraceMonitor) (start fin eps : ℤ) (i k : ℕ) :
    segName m start fin eps i k = number (segLen m start fin eps) i k := rfl

theorem segName_mem (hi : i < m.numProcess.toNat) (hj : j < segLen m start fin eps i) :
    segName m start fin eps i j ∈ Set.Icc 1 (segOffset m start fin eps m.numProcess.toNat) :=
  number_mem hi hj

/-- The name of an event tells its process. -/
theorem segName_inj (hj : j < segLen m start fin eps i) (hl : l < segLen m start fin eps k)
    (h : segName m start fin eps i j = segName m start fin eps k l) : i = k :=
  (number_inj hj hl h).1

/-! ## The pairs of one call -/

/-- No pair is recorded twice: its two numbers tell the two events. -/
theorem nodup_segPairs (m : TraceMonitor) (start fin eps : ℤ) :
    (segPairs m start fin eps).Nodup := by
  unfold segPairs
  refine nodup_flatMap_entries Prod.fst (fun i _ j _ => ?_) fun i _ j _ p hp => ?_
  · -- the pairs whose first event is fixed
    refine nodup_flatMap_entries Prod.snd (fun k _ l _ => ?_) fun k _ l _ p hp => ?_
    · split
      · exact List.nodup_singleton _
      · exact List.nodup_nil
    · rw [List.mem_ite_nil_right, List.mem_singleton] at hp
      rw [hp.2]
      rfl
  · obtain ⟨k, -, hp⟩ := List.mem_flatMap.mp hp
    obtain ⟨l, -, hp⟩ := List.mem_flatMap.mp hp
    rw [List.mem_ite_nil_right, List.mem_singleton] at hp
    rw [hp.2]
    rfl

end Names

/-! ## The state after a call -/

/-- The events of the segment that the monitor holds. -/
def segEvents (m : TraceMonitor) : Set (ℕ × ℕ) := entries m.numEvent m.numProcess.toNat

/-- The pair is one of two events of different processes of the segment, under their
names. -/
def BetweenProcesses (m : TraceMonitor) (p : ℕ × ℕ) : Prop :=
  ∃ i j k l, (i, j) ∈ segEvents m ∧ (k, l) ∈ segEvents m ∧ i ≠ k ∧
    m.eName i j = toString p.1 ∧ m.eName k l = toString p.2

variable {m : TraceMonitor} {start fin eps : ℤ}

theorem IsSegment.numProcess {m' : TraceMonitor} (h : IsSegment m start fin eps m') :
    m'.numProcess = m.numProcess := by
  rw [h.frame]

/-- The processes before `i` have as many events as the window has for them. -/
theorem IsSegment.offset_eq {m' : TraceMonitor} (h : IsSegment m start fin eps m') {i : ℕ}
    (hi : i ≤ m.numProcess.toNat) :
    offset m'.numEvent i = offset (segLen m start fin eps) i := by
  unfold offset
  refine congrArg List.sum (List.map_congr_left fun t ht => ?_)
  exact h.numEvent t ((List.mem_range.mp ht).trans_le hi)

theorem IsSegment.mem_segEvents {m' : TraceMonitor} (h : IsSegment m start fin eps m')
    {i k : ℕ} : (i, k) ∈ segEvents m' ↔
      i < m.numProcess.toNat ∧ k < segLen m start fin eps i := by
  show i < m'.numProcess.toNat ∧ k < m'.numEvent i ↔ _
  rw [h.numProcess]
  refine and_congr_right fun hi => ?_
  rw [h.numEvent i hi]

/-- The name of an event is its number in the segment. -/
theorem IsSegment.eName_eq {m' : TraceMonitor} (h : IsSegment m start fin eps m') {i k : ℕ}
    (hik : (i, k) ∈ segEvents m') : m'.eName i k = toString (number m'.numEvent i k) := by
  obtain ⟨hi, hk⟩ := h.mem_segEvents.mp hik
  rw [h.eName i hi k hk, segName_eq_number]
  unfold number
  rw [h.offset_eq hi.le]

/-- The names of the events are the texts of `1, …, totNumEvents`, each given once. -/
theorem IsSegment.bijOn_eName {m' : TraceMonitor} (h : IsSegment m start fin eps m') :
    Set.BijOn (fun p : ℕ × ℕ => m'.eName p.1 p.2) (segEvents m')
      (toString '' Set.Icc 1 m'.totNumEvents) := by
  have htext : Set.BijOn (toString : ℕ → String) (Set.Icc 1 m'.totNumEvents)
      (toString '' Set.Icc 1 m'.totNumEvents) :=
    toString_injective.injOn.bijOn_image
  refine (htext.comp (bijOn_number m'.numEvent m'.numProcess.toNat)).congr ?_
  rintro ⟨i, k⟩ hik
  exact (h.eName_eq hik).symm

/-- The pairs of the call, in terms of the state after it. -/
theorem IsSegment.of_mem_segPairs {m' : TraceMonitor} (h : IsSegment m start fin eps m')
    {p : ℕ × ℕ} (hp : p ∈ segPairs m start fin eps) :
    BetweenProcesses m' p ∧ p.1 ∈ Set.Icc 1 m'.totNumEvents ∧
      p.2 ∈ Set.Icc 1 m'.totNumEvents := by
  obtain ⟨i, hi, j, hj, k, hk, l, hl, ⟨-, hik⟩, rfl⟩ := (mem_segPairs ..).mp hp
  rw [h.totNumEvents]
  exact ⟨⟨i, j, k, l, h.mem_segEvents.mpr ⟨hi, hj⟩, h.mem_segEvents.mpr ⟨hk, hl⟩, hik,
    h.eName i hi j hj, h.eName k hk l hl⟩, number_mem hi hj, number_mem hk hl⟩

/-- **Event numbering of a segment.**  After `readSegTrace` process `i` has the events of its
trace inside the window, event `k` of process `i` has the value at `max(start - eps, 0) + k` of
the trace and a name that counts the events of the processes before; the names are
`1, …, totNumEvents`, each once; and the pairs added to `hbSet`, one for every two events of
different processes at a distance of at least `eps`, are distinct, between different processes
and made of such names. -/
theorem event_numbering (h : Loaded m) (start fin eps : ℤ) :
    ∃ m', readSegTrace start fin eps m = some m' ∧
      m'.numProcess = m.numProcess ∧ m'.eValueAll = m.eValueAll ∧
      (∀ i < m'.numProcess.toNat, m'.numEvent i = segLen m start fin eps i) ∧
      (∀ i < m'.numProcess.toNat, ∀ k < m'.numEvent i,
        m'.eValue i k = m'.eValueAll i ((max (start - eps) 0).toNat + k) ∧
        m'.eName i k = toString (1 + ((List.range i).map m'.numEvent).sum + k)) ∧
      Set.BijOn (fun p : ℕ × ℕ => m'.eName p.1 p.2)
        {p | p.1 < m'.numProcess.toNat ∧ p.2 < m'.numEvent p.1}
        (toString '' Set.Icc 1 m'.totNumEvents) ∧
      m'.hbSet = m.hbSet ++ segPairs m start fin eps ∧ (segPairs m start fin eps).Nodup ∧
      ∀ p ∈ segPairs m start fin eps, BetweenProcesses m' p ∧ p.1 ∈ Set.Icc 1 m'.totNumEvents ∧
        p.2 ∈ Set.Icc 1 m'.totNumEvents := by
  obtain ⟨m', hm', hseg⟩ := readSegTrace_spec h start fin eps
  have hall : m'.eValueAll = m.eValueAll := by rw [hseg.frame]
  have hnumEvent : ∀ i < m'.numProcess.toNat, m'.numEvent i = segLen m start fin eps i := by
    intro i hi
    rw [hseg.numProcess] at hi
    exact hseg.numEvent i hi
  refine ⟨m', hm', hseg.numProcess, hall, hnumEvent, ?_, hseg.bijOn_eName, hseg.hbSet,
    nodup_segPairs m start fin eps, fun p hp => hseg.of_mem_segPairs hp⟩
  intro i hi k hk
  constructor
  · obtain ⟨hi', hk'⟩ := hseg.mem_segEvents.mp ⟨hi, hk⟩
    have hstart : (max (start - eps) 0).toNat = segStart start eps := by
      unfold segStart
      omega
    rw [hall, hstart]
    exact hseg.eValue i hi' k hk'
  · exact hseg.eName_eq ⟨hi, hk⟩

/-- In the first segment of the trace of two switches and a light. -/
theorem event_numbering_kitchen :
    ∃ m', readSegTrace 0 4 0 kitchenTrace = some m' ∧ m'.numEvent 0 = 2 ∧ m'.numEvent 1 = 2 ∧
      Set.BijOn (fun p : ℕ × ℕ => m'.eName p.1 p.2)
        {p | p.1 < m'.numProcess.toNat ∧ p.2 < m'.numEvent p.1}
        (toString '' Set.Icc 1 m'.totNumEvents) ∧
      m'.hbSet = [(1, 3), (1, 4), (2, 3), (2, 4), (3, 1), (3, 2), (4, 1), (4, 2)] := by
  obtain ⟨m', hm', hproc, -, hlen, -, hbij, hhb, -⟩ :=
    event_numbering loaded_kitchenTrace 0 4 0
  have hwindow : ∀ i < 2, m'.numEvent i = 2 := by
    intro i hi
    rw [hlen i (by rw [hproc]; exact hi)]
    exact (by decide : ∀ i < 2, segLen kitchenTrace 0 4 0 i = 2) i hi
  refine ⟨m', hm', hwindow 0 (by decide), hwindow 1 (by decide), hbij, ?_⟩
  rw [hhb]
  decide +kernel

end TraceMonitor
