/-
# The verdict after a sequence of segments

`hbSet` keeps the pairs of all segments, so after the first one the solver is asked about the
events of the current segment and the pairs of every segment so far.  An id of an earlier,
larger segment has no digit in the cuts of the current one: as the later event of a pair it
asks for nothing, as the earlier event it keeps the other one out of every cut.

`verdict_after_iff` is the answer in every state that `readSegTrace` can leave, and
`history_only_rejects` compares it with the answer of a monitor that has not seen the earlier
segments: what they have left can turn the verdict to `false` or make it undefined, and never
to `true`.
-/
import DecentralMonitor.EventMasks

open Constraint CarryWalk

namespace TraceMonitor

/-! ## What the solver is asked for -/

/-- There is a sequence of cuts for `N` events and these pairs, as the assertions want it. -/
def HasCuts (N : ℕ) (hb : List (ℕ × ℕ)) : Prop :=
  Walk (ClosedCut hb) 0 N ((N ^ 2 - 1) % 2 ^ N)

/-- Fewer pairs leave more cuts. -/
theorem HasCuts.mono {N : ℕ} {hb hb' : List (ℕ × ℕ)} (h : HasCuts N hb) (hsub : hb' ⊆ hb) :
    HasCuts N hb' :=
  Walk.mono (fun _ hc p hp => hc p (hsub hp)) h

/-- The ids of these pairs have masks. -/
def HaveMasks (hb : List (ℕ × ℕ)) : Prop := ∀ p ∈ hb, p.1 ≤ 31 ∧ p.2 ≤ 31

instance (hb : List (ℕ × ℕ)) : Decidable (HaveMasks hb) :=
  inferInstanceAs (Decidable (∀ p ∈ hb, _))

theorem HaveMasks.mono {hb hb' : List (ℕ × ℕ)} (h : HaveMasks hb) (hsub : hb' ⊆ hb) :
    HaveMasks hb' :=
  fun p hp => h p (hsub hp)

/-- Then the assertions on the pairs are defined. -/
theorem HaveMasks.exists_hbConstraints {N : ℕ} {hb : List (ℕ × ℕ)} (h : HaveMasks hb) (i : ℕ) :
    ∃ pairs, hbConstraints N i hb = some pairs := by
  have hmask : ∀ id ≤ 31, ∃ v, eventMask id = some v := by
    intro id hid
    rcases Nat.eq_zero_or_pos id with rfl | hpos
    · exact ⟨0, rfl⟩
    · exact ⟨_, eventMask_eq hpos hid⟩
  induction hb generalizing i with
  | nil => exact ⟨[], rfl⟩
  | cons p hb ih =>
    obtain ⟨hfirst, hsecond⟩ := h p List.mem_cons_self
    obtain ⟨v, hv⟩ := hmask p.1 hfirst
    obtain ⟨w, hw⟩ := hmask p.2 hsecond
    obtain ⟨pairs, hpairs⟩ := ih (h.mono (List.subset_cons_self p hb)) (i + 1)
    obtain ⟨φs, hφs⟩ : ∃ φs, pairConstraints N i p = some φs := by
      unfold pairConstraints
      rw [hv, hw]
      exact ⟨_, rfl⟩
    refine ⟨φs ++ pairs, ?_⟩
    rw [hbConstraints, hφs, hpairs]
    rfl

/-- **When `solveSMT` returns.** -/
theorem exists_solveSMT_iff (z : Solver) {m : TraceMonitor} (hproc : m.numProcess ≤ maxProcess) :
    (∃ v, solveSMT z m = some v) ↔ 1 ≤ m.totNumEvents ∧ HaveMasks m.hbSet := by
  constructor
  · rintro ⟨v, hv⟩
    constructor
    · by_contra hzero
      unfold solveSMT at hv
      rw [if_pos (Or.inl (by omega))] at hv
      simp at hv
    · intro p hp
      by_contra hlarge
      have hnone : solveSMT z m = none := by
        apply solveSMT_eq_none z hp
        omega
      rw [hnone] at hv
      simp at hv
  · rintro ⟨hN, hmasks⟩
    obtain ⟨pairs, hpairs⟩ := hmasks.exists_hbConstraints (N := m.totNumEvents) 0
    refine ⟨z.check (cutConstraints m.totNumEvents ++ pairs), ?_⟩
    unfold solveSMT
    rw [if_neg (by omega), hpairs]
    rfl

/-- **The answer of `solveSMT`** for positive ids, of the current segment or not. -/
theorem solveSMT_eq_some_iff (z : Solver) {m : TraceMonitor} (hproc : m.numProcess ≤ maxProcess)
    (hids : ∀ p ∈ m.hbSet, 1 ≤ p.1 ∧ 1 ≤ p.2) {v : Bool} : solveSMT z m = some v ↔
      1 ≤ m.totNumEvents ∧ HaveMasks m.hbSet ∧ (v = true ↔ HasCuts m.totNumEvents m.hbSet) := by
  have hmasked : HaveMasks m.hbSet → Masked m.hbSet := fun hmasks =>
    ⟨fun p hp => ⟨(hids p hp).1, (hmasks p hp).1⟩, fun p hp => ⟨(hids p hp).2, (hmasks p hp).2⟩⟩
  constructor
  · intro h
    obtain ⟨hN, hmasks⟩ := (exists_solveSMT_iff z hproc).mp ⟨v, h⟩
    obtain ⟨b, hb, hwalk⟩ := solveSMT_spec z hproc hN (hmasked hmasks)
    obtain rfl : b = v := Option.some.inj (hb.symm.trans h)
    exact ⟨hN, hmasks, hwalk⟩
  · rintro ⟨hN, hmasks, hv⟩
    exact solveSMT_eq_some z hproc hN (hmasked hmasks) hv

/-! ## After a sequence of calls -/

section History

variable {m : TraceMonitor} {calls : List SegCall} {c : SegCall}

/-- Recorded ids are positive. -/
theorem pos_of_mem_recorded {p : ℕ × ℕ} (hp : p ∈ recorded m calls) : 1 ≤ p.1 ∧ 1 ≤ p.2 := by
  obtain ⟨c, -, hp⟩ := List.mem_flatMap.mp hp
  obtain ⟨i, -, j, -, k, -, l, -, -, rfl⟩ := (mem_segPairs ..).mp hp
  unfold segName
  dsimp only
  omega

/-- The answer after the last of these calls. -/
theorem solveSMT_of_lastSegment (z : Solver) {m' : TraceMonitor} (h : Loaded m)
    (hhb : m.hbSet = []) (hm' : readCalls m (calls ++ [c]) = some m')
    (hseg : LastSegment m calls c m') (v : Bool) : solveSMT z m' = some v ↔
      1 ≤ callEvents m c ∧ HaveMasks (recorded m (calls ++ [c])) ∧
        (v = true ↔ HasCuts (callEvents m c) (recorded m (calls ++ [c]))) := by
  have hpairs : m'.hbSet = recorded m (calls ++ [c]) := by
    rw [hseg.after.hbSet, hhb, List.nil_append]
  have htot : m'.totNumEvents = callEvents m c :=
    totNumEvents_readCalls h hm' List.getLast?_concat
  have hproc : m'.numProcess ≤ maxProcess := by
    have hfit := (hseg.after.loaded h).numProcess
    omega
  rw [solveSMT_eq_some_iff z hproc (by rw [hpairs]; exact fun p => pos_of_mem_recorded), htot,
    hpairs]

/-- **The verdict in every state.**  For a loaded trace with nothing recorded yet and any
sequence of calls: the verdict after the last one is defined exactly when its window has an
event and all ids recorded by all calls have masks, and then it says whether there is a sequence
of cuts for the events of the last call and the pairs of all calls. -/
theorem verdict_after_iff (z : Solver) (h : Loaded m) (hhb : m.hbSet = []) (calls : List SegCall)
    (c : SegCall) : ∃ m', readCalls m (calls ++ [c]) = some m' ∧ ∀ v, solveSMT z m' = some v ↔
      1 ≤ callEvents m c ∧ HaveMasks (recorded m (calls ++ [c])) ∧
        (v = true ↔ HasCuts (callEvents m c) (recorded m (calls ++ [c]))) := by
  obtain ⟨m', hm', hseg⟩ := readCalls_append_spec h calls c
  exact ⟨m', hm', solveSMT_of_lastSegment z h hhb hm' hseg⟩

/-- **Earlier segments only reject.**  Whatever calls have been made before, as long as all
recorded pairs fit `hbSet`: where the verdict on a segment is defined, it is defined for a
monitor without a history, and where it is `true`, it is `true` there.  If the earlier calls have
recorded no pair that the segment does not record itself, the two verdicts are the same. -/
theorem history_only_rejects (z : Solver) (h : Loaded m) (hhb : m.hbSet = [])
    (calls : List SegCall) (c : SegCall) (hcount : recordedCount m (calls ++ [c]) ≤ 50) :
    ∃ fresh m', readCalls m [c] = some fresh ∧ readCalls m (calls ++ [c]) = some m' ∧
      fresh.HbFits ∧ m'.HbFits ∧
      (∀ v', solveSMT z m' = some v' → ∃ v, solveSMT z fresh = some v ∧ (v' = true → v = true)) ∧
      (recorded m calls ⊆ callPairs m c → solveSMT z m' = solveSMT z fresh) := by
  obtain ⟨fresh, hfresh, hfreshSeg⟩ := readCalls_append_spec h [] c
  obtain ⟨m', hm', hseg⟩ := readCalls_append_spec h calls c
  have hfreshVerdict := solveSMT_of_lastSegment z h hhb hfresh hfreshSeg
  have hverdict := solveSMT_of_lastSegment z h hhb hm' hseg
  rw [List.nil_append] at hfresh hfreshVerdict
  have hone : recorded m [c] = callPairs m c := List.flatMap_singleton ..
  have hsub : recorded m [c] ⊆ recorded m (calls ++ [c]) := by
    rw [recorded_append_singleton, hone]
    exact List.subset_append_right _ _
  have hfits : m'.HbFits := (hseg.after.hbFits_iff hhb).mpr hcount
  have hfreshFits : fresh.HbFits := by
    rw [hfreshSeg.after.hbFits_iff hhb, ← length_recorded]
    rw [← length_recorded, recorded_append_singleton, List.length_append] at hcount
    rw [List.nil_append, hone]
    omega
  refine ⟨fresh, m', hfresh, hm', hfreshFits, hfits, fun v' hv' => ?_, fun hstale => ?_⟩
  · obtain ⟨hN, hmasks, hcuts⟩ := (hverdict v').mp hv'
    by_cases hfreshCuts : HasCuts (callEvents m c) (recorded m [c])
    · exact ⟨true, (hfreshVerdict true).mpr ⟨hN, hmasks.mono hsub, by simpa using hfreshCuts⟩,
        fun _ => rfl⟩
    · refine ⟨false, (hfreshVerdict false).mpr ⟨hN, hmasks.mono hsub, by simpa using hfreshCuts⟩,
        fun htrue => absurd ((hcuts.mp htrue).mono hsub) hfreshCuts⟩
  · -- the same pairs, so the same conditions
    have hsub' : recorded m (calls ++ [c]) ⊆ recorded m [c] := by
      rw [recorded_append_singleton, hone]
      exact List.append_subset.mpr ⟨hstale, List.Subset.refl _⟩
    refine Option.ext fun v => ?_
    rw [hverdict, hfreshVerdict]
    refine and_congr_right fun _ => and_congr ⟨fun hm => hm.mono hsub, fun hm => hm.mono hsub'⟩ ?_
    exact iff_congr Iff.rfl ⟨fun hc => hc.mono hsub, fun hc => hc.mono hsub'⟩

end History

/-- Two processes with two events each.  With `eps = 2` nothing is recorded and the verdict is
`true`, but not after a segment with `eps = 0`. -/
theorem history_only_rejects_kitchen : ∃ fresh m' : TraceMonitor,
    readCalls kitchenTrace [⟨0, 4, 2⟩] = some fresh ∧
      readCalls kitchenTrace ([⟨0, 4, 0⟩] ++ [⟨0, 4, 2⟩]) = some m' ∧
        ∀ v', solveSMT default m' = some v' →
          ∃ v, solveSMT default fresh = some v ∧ (v' = true → v = true) := by
  obtain ⟨fresh, m', hfresh, hm', -, -, hverdict, -⟩ :=
    history_only_rejects default loaded_kitchenTrace rfl [⟨0, 4, 0⟩] ⟨0, 4, 2⟩ (by decide +kernel)
  exact ⟨fresh, m', hfresh, hm', hverdict⟩

/-- With `eps = 2` the four events of this segment are in no pair. -/
theorem verdict_after_kitchen : ∃ m' : TraceMonitor,
    readCalls kitchenTrace ([] ++ [⟨0, 4, 2⟩]) = some m' ∧
      ∀ v, solveSMT default m' = some v ↔ (v = true ↔ HasCuts 4 []) := by
  obtain ⟨m', hm', hverdict⟩ :=
    verdict_after_iff default loaded_kitchenTrace rfl [] ⟨0, 4, 2⟩
  have hpairs : recorded kitchenTrace ([] ++ [⟨0, 4, 2⟩]) = [] := by decide
  have hevents : callEvents kitchenTrace ⟨0, 4, 2⟩ = 4 := by decide
  refine ⟨m', hm', fun v => ?_⟩
  rw [hverdict, hpairs, hevents]
  simp [HaveMasks]

end TraceMonitor
