/-
# Whether the cuts respect the order of a process

The events of one process happen one after the other, so a cut that contains an event
should contain the earlier events of the same process.  `readSegTrace` records no pairs
within a process (`i != k` in its last loop), and a pair of different processes is
recorded in both directions, which keeps its two events out of all cuts.  The events
left are those without a pair (`Free`), and nothing orders them: the cuts of a model are
a walk inside the free events, and `CarryWalk.walk_through_iff` says which events such a
walk can take first.

`respectsProcessOrder_iff` puts this together: where the recorded pairs fit `hbSet` and have
masks, the cuts respect the order of the processes exactly when no event but the first of its
process can be taken first (`JumpsAhead`).
-/
import DecentralMonitor.CutChain
import DecentralMonitor.EventNumbering
import DecentralMonitor.WalkThrough

open Constraint CarryWalk Finset

namespace TraceMonitor

section Segment

variable (m : TraceMonitor) (start fin eps : ℤ)

/-- The number of events of the segment. -/
def segTotal : ℕ := segOffset m start fin eps m.numProcess.toNat

/-- Event `j` of process `i` has no event of another process at a distance of at least
`eps`. -/
def Alone (i j : ℕ) : Prop :=
  ∀ k < m.numProcess.toNat, i ≠ k → ∀ l < segLen m start fin eps k, |(j : ℤ) - l| < eps

instance (i j : ℕ) : Decidable (Alone m start fin eps i j) :=
  inferInstanceAs (Decidable (∀ _ < _, _ → ∀ _ < _, _))

/-- No pair is recorded for the event of digit `d`. -/
def Free (d : ℕ) : Prop :=
  ∀ i < m.numProcess.toNat, ∀ j < segLen m start fin eps i, segName m start fin eps i j = d + 1 →
    Alone m start fin eps i j

instance : DecidablePred (Free m start fin eps) := fun _ =>
  inferInstanceAs (Decidable (∀ _ < _, ∀ _ < _, _ → _))

/-- A segment records every pair in both directions. -/
theorem bothDirections_segPairs :
    BothDirections (segTotal m start fin eps) (segPairs m start fin eps) where
  ids := by
    intro p hp
    obtain ⟨i, hi, j, hj, k, hk, l, hl, -, rfl⟩ := (mem_segPairs ..).mp hp
    exact ⟨segName_mem hi hj, segName_mem hk hl⟩
  symm := fun _ _ h => segPairs_swap h
  irrefl := by
    intro d h
    obtain ⟨i, -, j, hj, k, -, l, hl, ⟨-, hik⟩, hp⟩ := (mem_segPairs ..).mp h
    rw [Prod.mk.injEq] at hp
    exact hik (segName_inj hj hl (hp.1.symm.trans hp.2))

/-- The free events are those that are tied to no other event. -/
theorem free_iff {d : ℕ} :
    Free m start fin eps d ↔ ∀ d', ¬ digitRel (segPairs m start fin eps) d d' := by
  constructor
  · intro hfree d' hd'
    obtain ⟨i, hi, j, hj, k, hk, l, hl, ⟨hdist, hik⟩, hp⟩ := (mem_segPairs ..).mp hd'
    rw [Prod.mk.injEq] at hp
    have hnear := hfree i hi j hj hp.1.symm k hk hik l hl
    omega
  · intro hties i hi j hj hname k hk hik l hl
    by_contra hfar
    apply hties (segOffset m start fin eps k + l)
    refine (mem_segPairs ..).mpr ⟨i, hi, j, hj, k, hk, l, hl, ⟨by omega, hik⟩, ?_⟩
    rw [hname, Prod.mk.injEq]
    refine ⟨rfl, ?_⟩
    unfold segName
    omega

/-- A cut of free events respects the recorded pairs. -/
theorem closedCut_of_free {c : ℕ} (h : Supported (Free m start fin eps) c) :
    ClosedCut (segPairs m start fin eps) c := by
  have hboth := bothDirections_segPairs m start fin eps
  rw [closedCut_iff hboth.ids]
  intro i j hij hj
  exact absurd (hboth.symm i j hij) ((free_iff m start fin eps).mp (h j hj) i)

variable {m start fin eps}

/-- Cuts that grow along the recorded pairs stay inside the free events. -/
theorem walk_free {a n b : ℕ} (ha : Supported (Free m start fin eps) a)
    (h : Walk (ClosedCut (segPairs m start fin eps)) a n b) :
    Walk (Supported (Free m start fin eps)) a n b := by
  have hfree : Free m start fin eps =
      fun d => ∀ d', ¬ digitRel (segPairs m start fin eps) d d' := by
    funext d
    exact propext (free_iff m start fin eps)
  rw [hfree] at ha ⊢
  exact (bothDirections_segPairs m start fin eps).walk_untied ha h

/-- All recorded events have masks. -/
theorem idsFit_of_free (h : ∀ d, ¬ Free m start fin eps d → d < 31) :
    IdsFit (segTotal m start fin eps) (segPairs m start fin eps) := by
  have hrange := (bothDirections_segPairs m start fin eps).ids
  apply hrange.idsFit
  have hfirst : ∀ p ∈ segPairs m start fin eps, p.1 ≤ 31 := by
    intro p hp
    have hids := hrange p hp
    have hlt : p.1 - 1 < 31 := by
      apply h
      rw [free_iff]
      intro hties
      apply hties (p.2 - 1)
      unfold digitRel HappenedBefore
      rw [Nat.sub_add_cancel hids.1.1, Nat.sub_add_cancel hids.2.1]
      exact hp
    omega
  intro p hp
  exact ⟨hfirst p hp, hfirst (p.2, p.1) (segPairs_swap hp)⟩

/-- A recorded event without a mask. -/
theorem exists_no_mask {d : ℕ} (hd : ¬ Free m start fin eps d) (hlarge : 31 ≤ d) :
    ∃ p ∈ segPairs m start fin eps, 31 < p.1 := by
  rw [free_iff] at hd
  push Not at hd
  obtain ⟨d', hd'⟩ := hd
  exact ⟨_, hd', by omega⟩

end Segment

/-! ## The order of a process -/

/-- The assertions of `solveSMT` are defined, and in every model of them a cut that contains an
event of a process contains the events of this process before it. -/
def RespectsProcessOrder (m' : TraceMonitor) : Prop :=
  ∃ pairs, hbConstraints m'.totNumEvents 0 m'.hbSet = some pairs ∧
    ∀ I : Interp, (∀ φ ∈ cutConstraints m'.totNumEvents ++ pairs, φ.Holds I) →
      ∀ x ≤ m'.totNumEvents, ∀ i < m'.numProcess.toNat, ∀ j l, j < l → l < m'.numEvent i →
        ∀ a b, stoi (m'.eName i j) = some a → stoi (m'.eName i l) = some b →
          b - 1 ∈ cutSet m'.totNumEvents I x → a - 1 ∈ cutSet m'.totNumEvents I x

/-- The last cut that `solveSMT` asks for, as a number. -/
def lastCut (N : ℕ) : ℕ := (N ^ 2 - 1) % 2 ^ N

/-- Every recorded event has a mask. -/
def RecordedMasks (m : TraceMonitor) (start fin eps : ℤ) : Prop :=
  ∀ d, ¬ Free m start fin eps d → d < 31

/-- Event `l` of process `i`, not the first of its process, can be the first event of a
model's cuts: the last cut is inside the free events, the event can carry over to an event of
the last cut, and the last cut is heavy enough for `N` steps. -/
structure JumpsAhead (m : TraceMonitor) (start fin eps : ℤ) (i l : ℕ) : Prop where
  process : i < m.numProcess.toNat
  later : 1 ≤ l ∧ l < segLen m start fin eps i
  last : Supported (Free m start fin eps) (lastCut (segTotal m start fin eps))
  event : Laddered (Free m start fin eps) (lastCut (segTotal m start fin eps))
    (segTotal m start fin eps) (segName m start fin eps i l - 1)
  weight : segTotal m start fin eps ≤
    weight (Free m start fin eps) (lastCut (segTotal m start fin eps))

variable {m : TraceMonitor} {start fin eps : ℤ}

/-- A walk through a cut is part of a model. -/
theorem exists_model_through {N n₁ n₂ c : ℕ} {hb : List (ℕ × ℕ)} (hN : 1 ≤ N)
    (hfit : Masked hb) (hsum : n₁ + n₂ = N) (h : Walk (ClosedCut hb) 0 n₁ c)
    (h' : Walk (ClosedCut hb) c n₂ (lastCut N)) :
    ∃ pairs, hbConstraints N 0 hb = some pairs ∧
      ∃ I : Interp, (∀ φ ∈ cutConstraints N ++ pairs, φ.Holds I) ∧ cutSet N I n₁ = bits c := by
  have hcle : c ≤ lastCut N := by
    have hle := h'.add_le
    omega
  have hbelow : Walk (fun b => ClosedCut hb b ∧ b ≤ lastCut N) 0 n₁ c :=
    h.mono_le fun b hb hc => ⟨hc, hb.trans hcle⟩
  have habove : Walk (fun b => ClosedCut hb b ∧ b ≤ lastCut N) c n₂ (lastCut N) :=
    h'.mono_le fun b hb hc => ⟨hc, hb⟩
  obtain ⟨s, hs0, hsn, hslast, hstep, hok⟩ := exists_seq_of_walks hbelow habove
  rw [hsum] at hslast hstep hok
  have hseq : CutSeq N hb s :=
    ⟨hs0, hslast, hstep, fun i hi => (hok i hi).1, fun i hi => (hok i hi).2⟩
  obtain ⟨pairs, hpairs, hholds⟩ := hseq.holds hN hfit
  have hx : n₁ ≤ N := by omega
  refine ⟨pairs, hpairs, cutInterp N hb s, hholds, ?_⟩
  unfold cutSet
  rw [cutInterp_f hb s hx, BitVec.toNat_ofNat, Nat.mod_eq_of_lt (hseq.lt hN hx).1, hsn]

/-- Such an event is alone in a cut of some model. -/
theorem JumpsAhead.exists_model {i l : ℕ} (h : JumpsAhead m start fin eps i l)
    (hN : 1 ≤ segTotal m start fin eps) (hmasks : RecordedMasks m start fin eps) : ∃ pairs,
      hbConstraints (segTotal m start fin eps) 0 (segPairs m start fin eps) = some pairs ∧
        ∃ I : Interp, (∀ φ ∈ cutConstraints (segTotal m start fin eps) ++ pairs, φ.Holds I) ∧
          ∃ x ≤ segTotal m start fin eps,
            cutSet (segTotal m start fin eps) I x = {segName m start fin eps i l - 1} := by
  obtain ⟨n₁, n₂, hsum, hfirst, hrest⟩ := exists_walk_first h.last h.event h.weight
  have hclosed : ∀ c, Supported (Free m start fin eps) c →
      ClosedCut (segPairs m start fin eps) c := fun c hc => closedCut_of_free m start fin eps hc
  have hfit := (idsFit_of_free hmasks).masked
  obtain ⟨pairs, hpairs, I, hI, hcut⟩ :=
    exists_model_through hN hfit hsum (hfirst.mono hclosed) (hrest.mono hclosed)
  rw [bits_two_pow] at hcut
  exact ⟨pairs, hpairs, I, hI, n₁, by omega, hcut⟩

/-- **When the assertions are defined.** -/
theorem exists_hbConstraints_iff :
    (∃ pairs, hbConstraints (segTotal m start fin eps) 0 (segPairs m start fin eps) = some pairs) ↔
      RecordedMasks m start fin eps := by
  constructor
  · rintro ⟨pairs, hpairs⟩ d hd
    by_contra hlarge
    obtain ⟨p, hp, hid⟩ := exists_no_mask hd (by omega)
    rw [hbConstraints_eq_none hp (Or.inl hid)] at hpairs
    simp at hpairs
  · intro hmasks
    obtain ⟨pairs, hpairs, -⟩ := hbConstraints_spec (idsFit_of_free hmasks).masked 0
    exact ⟨pairs, hpairs⟩

/-- An event of a cut of a model, not the first of its process, can be the first event of the
cuts. -/
theorem jumpsAhead_of_mem {pairs : List Formula} {I : Interp} {x i l : ℕ}
    (hN : 1 ≤ segTotal m start fin eps)
    (hpairs : hbConstraints (segTotal m start fin eps) 0 (segPairs m start fin eps) = some pairs)
    (hI : ∀ φ ∈ cutConstraints (segTotal m start fin eps) ++ pairs, φ.Holds I)
    (hx : x ≤ segTotal m start fin eps) (hi : i < m.numProcess.toNat)
    (hl : 1 ≤ l ∧ l < segLen m start fin eps i)
    (hmem : segName m start fin eps i l - 1 ∈ cutSet (segTotal m start fin eps) I x) :
    JumpsAhead m start fin eps i l := by
  have hmodel : CutModel (segTotal m start fin eps) I :=
    holds_cutConstraints.mp fun φ hφ => hI φ (List.mem_append_left pairs hφ)
  have hmasks : RecordedMasks m start fin eps := exists_hbConstraints_iff.mp ⟨pairs, hpairs⟩
  have hclosed := closedCut_of_holds (idsFit_of_free hmasks).masked hpairs
    fun φ hφ => hI φ (List.mem_append_right _ hφ)
  -- the cuts of the model, as walks inside the free events
  obtain ⟨hbelow, habove⟩ := hmodel.walks hN hclosed hx
  have hbelow' := walk_free (by simp [Supported]) hbelow
  have habove' := walk_free hbelow'.ok_right habove
  obtain ⟨hlast, hevent, hweight⟩ :=
    walk_through_iff.mp ⟨_, x, _, Nat.add_sub_cancel' hx, hmem, hbelow', habove'⟩
  exact ⟨hi, hl, hlast, hevent, hweight⟩

/-- The first segment of a switch and a light with two values each: one process, two events,
nothing recorded.  The cuts of a model may take the second event first. -/
theorem later_event_first : ∃ m m' : TraceMonitor, Loaded m ∧ m.hbSet = [] ∧
    readSegTrace 0 4 0 m = some m' ∧ m'.totNumEvents = 2 ∧ m'.hbSet = [] ∧
      (∃ I : Interp, (∀ φ ∈ cutConstraints 2 ++ [], φ.Holds I) ∧ cutSet 2 I 1 = {1}) ∧
        ¬ RespectsProcessOrder m' := by
  have hloaded : Loaded (withTrace blank [["0", "1"], ["0", "0"]]) := ⟨by decide, by decide⟩
  obtain ⟨m', hm', hseg⟩ := readSegTrace_spec hloaded 0 4 0
  have htot : m'.totNumEvents = 2 := by
    rw [hseg.totNumEvents]
    decide
  have hhb : m'.hbSet = [] := by
    rw [hseg.hbSet]
    decide
  have hproc : m'.numProcess = 1 := by
    rw [hseg.frame]
    rfl
  have hlen : m'.numEvent 0 = 2 := by
    rw [hseg.numEvent 0 (by decide)]
    decide
  have hname : ∀ j < 2, stoi (m'.eName 0 j) = some (1 + j) := by
    intro j hj
    rw [hseg.eName 0 (by decide) j hj, stoi_toString]
    rfl
  have hclosed : ∀ c, ClosedCut [] c := fun c p hp => absurd hp List.not_mem_nil
  -- the cuts `0`, `2`, `3`
  have hfirst : Walk (ClosedCut []) 0 1 2 := .step 1 (.refl (hclosed 0)) (hclosed 2)
  have hrest : Walk (ClosedCut []) 2 1 (lastCut 2) := .step 0 (.refl (hclosed 2)) (hclosed 3)
  obtain ⟨φs, hφs, I, hI, hcut⟩ :=
    exists_model_through (N := 2) (by decide) ⟨by simp, by simp⟩ rfl hfirst hrest
  obtain rfl : [] = φs := Option.some.inj hφs
  refine ⟨_, m', hloaded, rfl, hm', htot, hhb, ⟨I, hI, hcut⟩, fun hrespects => ?_⟩
  unfold RespectsProcessOrder at hrespects
  rw [hhb, htot, hproc] at hrespects
  obtain ⟨φs, hφs, horder⟩ := hrespects
  obtain rfl : [] = φs := Option.some.inj hφs
  have hearlier := horder I hI 1 (by decide) 0 (by decide) 0 1 (by decide) (by omega) 1 2
    (hname 0 (by decide)) (hname 1 (by decide))
  rw [hcut] at hearlier
  exact absurd (hearlier (by decide)) (by decide)

/-- **When the cuts respect the order of the processes.**  For a loaded trace, an empty
`hbSet` and a segment with events: the pairs that `readSegTrace` records fit `hbSet`, the
assertions on them are defined, and the cuts of all their models respect the order, exactly
when there are no more than 50 pairs, every recorded event has a mask, and no later event of a
process can be the first event of the cuts. -/
theorem respectsProcessOrder_iff (h : Loaded m) (hhb : m.hbSet = []) (start fin eps : ℤ)
    (hN : 1 ≤ segTotal m start fin eps) :
    ∃ m', readSegTrace start fin eps m = some m' ∧
      (m'.HbFits ∧ RespectsProcessOrder m' ↔ pairCount m start fin eps ≤ 50 ∧
        RecordedMasks m start fin eps ∧ ∀ i l, ¬ JumpsAhead m start fin eps i l) := by
  obtain ⟨m', hm', hseg⟩ := readSegTrace_spec h start fin eps
  have hpairs : m'.hbSet = segPairs m start fin eps := by
    rw [hseg.hbSet, hhb, List.nil_append]
  have htot : m'.totNumEvents = segTotal m start fin eps := hseg.totNumEvents
  have hproc : m'.numProcess = m.numProcess := by rw [hseg.frame]
  have hname : ∀ i < m.numProcess.toNat, ∀ j < segLen m start fin eps i,
      stoi (m'.eName i j) = some (segName m start fin eps i j) := by
    intro i hi j hj
    rw [hseg.eName i hi j hj, stoi_toString]
  refine ⟨m', hm', ?_⟩
  unfold HbFits RespectsProcessOrder
  rw [hpairs, htot, hproc, length_segPairs]
  refine and_congr_right fun _ => ?_
  constructor
  · rintro ⟨pairs, hφs, horder⟩
    have hmasks : RecordedMasks m start fin eps := exists_hbConstraints_iff.mp ⟨pairs, hφs⟩
    refine ⟨hmasks, fun i l hjump => ?_⟩
    obtain ⟨φs, hφs', I, hI, x, hx, hcut⟩ := hjump.exists_model hN hmasks
    obtain rfl : φs = pairs := Option.some.inj (hφs'.symm.trans hφs)
    obtain ⟨hpos, hl⟩ := hjump.later
    have hlen : l < m'.numEvent i := by
      rw [hseg.numEvent i hjump.process]
      exact hl
    -- the event before it in its process is not in the cut
    have hearlier := horder I hI x hx i hjump.process (l - 1) l (by omega) hlen _ _
      (hname i hjump.process (l - 1) (by omega)) (hname i hjump.process l hl)
    rw [hcut, mem_singleton, mem_singleton] at hearlier
    have heq := hearlier rfl
    unfold segName at heq
    omega
  · rintro ⟨hmasks, hnever⟩
    obtain ⟨pairs, hφs⟩ := exists_hbConstraints_iff.mpr hmasks
    refine ⟨pairs, hφs, fun I hI x hx i hi j l hjl hl a b ha hb hmem => ?_⟩
    rw [hseg.numEvent i hi] at hl
    rw [hname i hi l hl, Option.some.injEq] at hb
    subst hb
    exact absurd (jumpsAhead_of_mem hN hφs hI hx hi ⟨by omega, hl⟩ hmem) (hnever i l)

/-- Six processes, the last of them with two events. -/
def sixProcesses : TraceMonitor :=
  withTrace blank [["0"], ["0"], ["0"], ["0"], ["0"], ["0", "1"], []]

/-- With `eps = 2` nothing is recorded here.  The cuts go up to `48`, and the second event of
the last process, with the digit 6, is in none of them. -/
theorem respectsProcessOrder_six : ∃ m' : TraceMonitor,
    readSegTrace 0 2 2 sixProcesses = some m' ∧ m'.numEvent 5 = 2 ∧
      (∃ I : Interp, ∀ φ ∈ cutConstraints 7 ++ [], φ.Holds I) ∧
      m'.HbFits ∧ RespectsProcessOrder m' := by
  have hloaded : Loaded sixProcesses := ⟨by decide, by decide⟩
  have hlen : ∀ i < 6, ∀ l < segLen sixProcesses 0 2 2 i, 1 ≤ l → i = 5 ∧ l = 1 := by decide
  have hnone : segPairs sixProcesses 0 2 2 = [] := by decide
  obtain ⟨m', hm', hiff⟩ := respectsProcessOrder_iff hloaded rfl 0 2 2 (by decide)
  have hnumEvent : m'.numEvent 5 = 2 := by
    obtain ⟨m'', hm'', hseg⟩ := readSegTrace_spec hloaded 0 2 2
    obtain rfl : m'' = m' := Option.some.inj (hm''.symm.trans hm')
    rw [hseg.numEvent 5 (by decide)]
    decide
  refine ⟨m', hm', hnumEvent, exists_model_nil (by decide) (by decide) (by decide),
    hiff.mpr ⟨by decide, fun d hd => ?_, fun i l hjump => ?_⟩⟩
  · refine absurd ?_ hd
    rw [free_iff, hnone]
    exact fun d' hd' => List.not_mem_nil hd'
  · obtain ⟨rfl, rfl⟩ := hlen i hjump.process l hjump.later.2 hjump.later.1
    obtain ⟨p, hp, hle, -⟩ := hjump.event
    have hlast : lastCut (segTotal sixProcesses 0 2 2) < 2 ^ 6 := by decide
    have hp6 := lt_of_mem_bits hlast hp
    have hname : segName sixProcesses 0 2 2 5 1 = 7 := by decide
    omega

end TraceMonitor
