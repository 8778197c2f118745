/-
# Exchanging verdict tables

Both programs share verdicts the same way: one monitor hands its flagged slots to
another, which overwrites its own.  `Delivered T T' e` is this effect on a family of
tables, for the sender `e.1` and the receiver `e.2`, and `Exchange T es T'` a
sequence of such deliveries.

`Delivered.tables` connects it to the flooding library, where a table is the partial
function of its known verdicts; `exchange_spreads` says what a sequence of deliveries
that spreads every table leaves in each slot, flagged or not, and
`Merged.unique` that two such sequences end in the same tables.
-/
import DecentralMonitor.Flooding
import DecentralMonitor.VerdictTable

open Flooding

namespace TableExchange

variable {n : ℕ}

/-- The tables of `n` monitors. -/
abbrev Family (n : ℕ) := Fin n → VerdictTable

/-- All tables of the family have one slot for each monitor. -/
def AllSized (T : Family n) : Prop := ∀ k, (T k).Sized n

/-- The partial tables of known verdicts. -/
def knownTables (T : Family n) : Tables (Fin n) ℕ Bool := fun k => (T k).known

/-- The flagged slots of `e.1` have been copied to `e.2`, nothing else has changed. -/
def Delivered (T T' : Family n) (e : Fin n × Fin n) : Prop :=
  ∀ k c, (T' k).slot c =
    if k = e.2 ∧ (T e.1).Flagged c then (T e.1).slot c else (T k).slot c

/-- A delivery of slots is a delivery of known verdicts. -/
theorem Delivered.tables {T T' : Family n} {e : Fin n × Fin n} (h : Delivered T T' e)
    (hT : AllSized T) : knownTables T' = deliver (knownTables T) e := by
  funext k c
  have hs := h k c
  by_cases hk : k = e.2
  · subst hk
    rw [deliver_receiver]
    by_cases hf : (T e.1).Flagged c
    · rw [if_pos ⟨rfl, hf⟩] at hs
      obtain ⟨v, hv⟩ := Option.isSome_iff_exists.mp
        ((VerdictTable.isSome_known_iff (hT e.1)).mpr hf)
      have hknown : knownTables T e.1 c = some v := hv
      rw [hknown, Option.some_or, ← hv]
      exact VerdictTable.known_congr hs
    · rw [if_neg fun hc => hf hc.2] at hs
      have hnone : knownTables T e.1 c = none := by
        unfold knownTables
        rw [VerdictTable.known, if_neg hf]
      rw [hnone, Option.none_or]
      exact VerdictTable.known_congr hs
  · rw [if_neg fun hc => hk hc.1] at hs
    rw [deliver_of_ne _ _ hk]
    exact VerdictTable.known_congr hs

/-- A sequence of deliveries. -/
inductive Exchange : Family n → List (Fin n × Fin n) → Family n → Prop
  | nil {T : Family n} : Exchange T [] T
  | cons {T U T' : Family n} {e : Fin n × Fin n} {es : List (Fin n × Fin n)}
      (head : Delivered T U e) (sized : AllSized U) (tail : Exchange U es T') :
      Exchange T (e :: es) T'

/-- The known verdicts flood along the sequence. -/
theorem Exchange.tables {T T' : Family n} {es : List (Fin n × Fin n)} (h : Exchange T es T')
    (hT : AllSized T) : knownTables T' = deliverAll (knownTables T) es := by
  induction h with
  | nil => rfl
  | cons head sized tail ih =>
    rw [ih sized, head.tables hT]
    rfl

/-- A slot that nobody has flagged is not touched. -/
theorem Exchange.slot_of_not_flagged {T T' : Family n} {es : List (Fin n × Fin n)}
    (h : Exchange T es T') {c : ℕ} (hc : ∀ k, ¬ (T k).Flagged c) (k : Fin n) :
    (T' k).slot c = (T k).slot c := by
  induction h with
  | nil => rfl
  | @cons T U T' e es head sized tail ih =>
    have hslot : ∀ k, (U k).slot c = (T k).slot c := by
      intro k
      rw [head k c, if_neg fun h => hc e.1 h.2]
    rw [ih fun k hk => hc k ((VerdictTable.flagged_congr (hslot k)).mp hk), hslot k]

/-- Deliveries only copy slots: what all slots satisfy they still satisfy. -/
theorem Exchange.forall_slot {P : ℕ → Option Bool × Option Bool → Prop} {T T' : Family n}
    {es : List (Fin n × Fin n)} (h : Exchange T es T') (hT : ∀ k c, P c ((T k).slot c)) :
    ∀ k c, P c ((T' k).slot c) := by
  induction h with
  | nil => exact hT
  | @cons T U T' e es head sized tail ih =>
    refine ih fun k c => ?_
    rw [head k c]
    split
    · exact hT e.1 c
    · exact hT k c

/-- No two tables hold different verdicts in a slot that both have flagged. -/
def Consistent (T : Family n) : Prop :=
  ∀ c k l v w, (T k).slot c = (some v, some true) → (T l).slot c = (some w, some true) → v = w

theorem Consistent.knownTables {T : Family n} (h : Consistent T) :
    Flooding.Consistent (knownTables T) := by
  intro c k l v hv w hw
  exact h c k l v w (VerdictTable.known_eq_some_iff.mp hv) (VerdictTable.known_eq_some_iff.mp hw)

/-- The common outcome of the sharing: a slot that was flagged anywhere is flagged
everywhere with its verdict, and a slot that was flagged nowhere is what it was. -/
structure Merged (T T' : Family n) : Prop where
  flagged : ∀ c v, (∃ l, (T l).slot c = (some v, some true)) →
    ∀ k, (T' k).slot c = (some v, some true)
  not_flagged : ∀ c, (∀ l, ¬ (T l).Flagged c) → ∀ k, (T' k).slot c = (T k).slot c

/-- **What a spreading sequence of deliveries leaves.** -/
theorem exchange_spreads {T T' : Family n} {es : List (Fin n × Fin n)} (h : Exchange T es T')
    (hT : AllSized T) (hcons : Consistent T) (hes : Spreads es) : Merged T T' where
  flagged := by
    rintro c v ⟨l, hl⟩ k
    have hmem : v ∈ knownTables T' k c := by
      rw [h.tables hT, mem_deliverAll_of_spreads hcons.knownTables hes]
      exact ⟨l, VerdictTable.known_eq_some_iff.mpr hl⟩
    exact VerdictTable.known_eq_some_iff.mp hmem
  not_flagged := fun _ hc k => h.slot_of_not_flagged hc k

/-- The outcome is determined by the initial tables. -/
theorem Merged.unique {T T' T'' : Family n} (hT : AllSized T) (h' : Merged T T')
    (h'' : Merged T T'') : T' = T'' := by
  funext k
  refine VerdictTable.ext_slot fun c => ?_
  by_cases hc : ∃ l, (T l).Flagged c
  · obtain ⟨l, hl⟩ := hc
    obtain ⟨v, hv⟩ := Option.isSome_iff_exists.mp
      ((VerdictTable.isSome_known_iff (hT l)).mpr hl)
    have hslot := VerdictTable.known_eq_some_iff.mp hv
    rw [h'.flagged c v ⟨l, hslot⟩ k, h''.flagged c v ⟨l, hslot⟩ k]
  · have hno : ∀ l, ¬ (T l).Flagged c := fun l hl => hc ⟨l, hl⟩
    rw [h'.not_flagged c hno k, h''.not_flagged c hno k]

end TableExchange
