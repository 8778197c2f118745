/-
# The verdict table of a monitor

Both `monitor.cpp` and `main.cpp` declare a `class Monitor` whose verdict part is
the same: the vector `verdicts` (one entry for each monitor of the system), the
vector `verdicts_mod` that tells which entries have been modified, and the method
`GetVerdict` that adopts a verdict sent by another monitor.  This module models
that common part; `RingMonitor` and `TraceMonitor` extend it.

An access outside a vector is undefined behaviour in the source; here it is
`none`.

The abstract view of a table is the partial table `VerdictTable.known`: a slot is
known when its flag is set, and then it carries the verdict.
-/
import Mathlib.Data.List.Basic
import Mathlib.Data.Option.Basic

/-- The verdict part of `class Monitor`. -/
structure VerdictTable where
  /-- All the verdicts from every monitor, indexed by monitor id. -/
  verdicts : List Bool
  /-- Which verdicts have been modified. -/
  verdictsMod : List Bool
  deriving DecidableEq, Repr

namespace VerdictTable

/-! ## The methods of the source -/

/-- The table the constructor builds: `numMonitors` times `push_back(false)` on
both vectors. -/
def fresh (numMonitors : ℕ) : VerdictTable where
  verdicts := List.replicate numMonitors false
  verdictsMod := List.replicate numMonitors false

/-- `GetVerdict(m, position, verdict)`: adopt `verdict` at index `position`.  The
sender `m` is not used by the source. -/
def getVerdict (t : VerdictTable) (position : ℕ) (verdict : Bool) : Option VerdictTable :=
  if position < t.verdicts.length ∧ position < t.verdictsMod.length then
    some ⟨t.verdicts.set position verdict, t.verdictsMod.set position true⟩
  else none

/-- One iteration of the loop of `ShareVerdict`: if slot `c` of the sender is
flagged, the receiver adopts it. -/
def shareSlot (sender receiver : VerdictTable) (c : ℕ) : Option VerdictTable := do
  if ← sender.verdictsMod[c]? then
    receiver.getVerdict c (← sender.verdicts[c]?)
  else
    some receiver

/-! ## Slots -/

/-- What a table stores for slot `c`: the verdict and its flag. -/
def slot (t : VerdictTable) (c : ℕ) : Option Bool × Option Bool :=
  (t.verdicts[c]?, t.verdictsMod[c]?)

/-- Slot `c` has been modified. -/
def Flagged (t : VerdictTable) (c : ℕ) : Prop := t.verdictsMod[c]? = some true

instance (t : VerdictTable) (c : ℕ) : Decidable (t.Flagged c) :=
  inferInstanceAs (Decidable (_ = _))

/-- Both vectors have one entry for each of the `n` monitors. -/
structure Sized (t : VerdictTable) (n : ℕ) : Prop where
  verdicts : t.verdicts.length = n
  verdictsMod : t.verdictsMod.length = n

theorem sized_fresh (n : ℕ) : (fresh n).Sized n := by
  constructor <;> simp [fresh]

/-- Tables are determined by their slots. -/
theorem ext_slot {t t' : VerdictTable} (h : ∀ c, t.slot c = t'.slot c) : t = t' := by
  have hv : t.verdicts = t'.verdicts := List.ext_getElem? fun c => congrArg Prod.fst (h c)
  have hm : t.verdictsMod = t'.verdictsMod := List.ext_getElem? fun c => congrArg Prod.snd (h c)
  cases t
  cases t'
  simp only at hv hm
  rw [hv, hm]

theorem flagged_congr {t t' : VerdictTable} {c : ℕ} (h : t.slot c = t'.slot c) :
    t.Flagged c ↔ t'.Flagged c := by
  have hm : t.verdictsMod[c]? = t'.verdictsMod[c]? := congrArg Prod.snd h
  rw [Flagged, Flagged, hm]

/-- A slot that stores the flag `false` is not flagged. -/
theorem not_flagged_of_slot {t : VerdictTable} {c : ℕ} {v : Option Bool}
    (h : t.slot c = (v, some false)) : ¬ t.Flagged c := by
  have hm : t.verdictsMod[c]? = some false := congrArg Prod.snd h
  rw [Flagged, hm]
  simp

/-- An in-range `GetVerdict` succeeds; it writes one slot and keeps the others. -/
theorem getVerdict_spec {t : VerdictTable} {n : ℕ} (ht : t.Sized n) {position : ℕ}
    (hp : position < n) (verdict : Bool) :
    ∃ t', t.getVerdict position verdict = some t' ∧ t'.Sized n ∧
      ∀ c, t'.slot c = if c = position then (some verdict, some true) else t.slot c := by
  have hbound : position < t.verdicts.length ∧ position < t.verdictsMod.length :=
    ⟨ht.verdicts ▸ hp, ht.verdictsMod ▸ hp⟩
  refine ⟨_, if_pos hbound, ⟨?_, ?_⟩, ?_⟩
  · rw [List.length_set, ht.verdicts]
  · rw [List.length_set, ht.verdictsMod]
  · intro c
    simp only [slot, List.getElem?_set]
    by_cases hc : position = c
    · subst hc
      simp [hbound]
    · rw [if_neg hc, if_neg hc, if_neg (fun h => hc h.symm)]

/-- An in-range iteration of `ShareVerdict` succeeds; it copies the slot if the
sender has it flagged. -/
theorem shareSlot_spec {s r : VerdictTable} {n : ℕ} (hs : s.Sized n) (hr : r.Sized n) {c : ℕ}
    (hc : c < n) :
    ∃ r', shareSlot s r c = some r' ∧ r'.Sized n ∧
      ∀ d, r'.slot d = if d = c ∧ s.Flagged c then s.slot c else r.slot d := by
  obtain ⟨f, hf⟩ : ∃ f, s.verdictsMod[c]? = some f :=
    ⟨_, List.getElem?_eq_getElem (hs.verdictsMod ▸ hc)⟩
  obtain ⟨v, hv⟩ : ∃ v, s.verdicts[c]? = some v :=
    ⟨_, List.getElem?_eq_getElem (hs.verdicts ▸ hc)⟩
  cases f with
  | false =>
    refine ⟨r, by simp [shareSlot, hf], hr, fun d => ?_⟩
    rw [if_neg (by simp [Flagged, hf])]
  | true =>
    obtain ⟨r', hr', hsized, hslot⟩ := getVerdict_spec hr hc v
    refine ⟨r', by simp [shareSlot, hf, hv, hr'], hsized, fun d => ?_⟩
    rw [hslot d]
    simp [Flagged, slot, hf, hv]

/-! ## The partial table -/

/-- The abstract view: the verdict of slot `c` if it is flagged, nothing
otherwise. -/
def known (t : VerdictTable) (c : ℕ) : Option Bool :=
  if t.Flagged c then t.verdicts[c]? else none

theorem known_eq_some_iff {t : VerdictTable} {c : ℕ} {v : Bool} :
    t.known c = some v ↔ t.slot c = (some v, some true) := by
  simp only [known, Flagged, slot, Prod.mk.injEq]
  by_cases h : t.verdictsMod[c]? = some true
  · simp [h]
  · simp [h]

theorem known_congr {t t' : VerdictTable} {c : ℕ} (h : t.slot c = t'.slot c) :
    t.known c = t'.known c := by
  apply Option.ext
  intro v
  exact known_eq_some_iff.trans (h ▸ known_eq_some_iff.symm)

theorem isSome_known_iff {t : VerdictTable} {n : ℕ} (ht : t.Sized n) {c : ℕ} :
    (t.known c).isSome ↔ t.Flagged c := by
  rw [known]
  by_cases h : t.Flagged c
  · have hc : c < t.verdictsMod.length := (List.getElem?_eq_some_iff.mp h).1
    have hv : c < t.verdicts.length := by rw [ht.verdicts, ← ht.verdictsMod]; exact hc
    simp [h, hv]
  · simp [h]

/-- A flagged slot lies inside the table. -/
theorem Flagged.lt {t : VerdictTable} {n c : ℕ} (h : t.Flagged c) (ht : t.Sized n) : c < n := by
  rw [← ht.verdictsMod]
  exact (List.getElem?_eq_some_iff.mp h).1

end VerdictTable
