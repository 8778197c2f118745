/-
# Total orders of events that respect a relation

A general library.  Some events are to be put into a sequence so that `a` comes before
`b` whenever `r a b`.

* Such a sequence exists exactly when no chain of `r` leads from an event back to itself
  (`exists_respects_iff`).
* The beginnings of such a sequence are the sets of events that are closed under going
  back along `r`; conversely, a sequence all of whose beginnings are closed respects `r`
  between different events (`beginningsClosed_iff`).
-/
import Mathlib.Data.List.Infix
import Mathlib.Data.List.Sort
import Mathlib.Logic.Relation
import Mathlib.Order.Extension.Linear

namespace EventOrder

variable {α : Type*}

/-- No chain of `r` leads from an event back to itself. -/
def Acyclic (r : α → α → Prop) : Prop := ∀ a, ¬ Relation.TransGen r a a

theorem Acyclic.mono {r s : α → α → Prop} (hs : Acyclic s) (h : ∀ a b, r a b → s a b) :
    Acyclic r :=
  fun a ha => hs a (Relation.TransGen.mono h a a ha)

/-- The pairs of `r` that relate different events. -/
def OffDiagonal (r : α → α → Prop) (a b : α) : Prop := r a b ∧ a ≠ b

/-- A chain that leads from an event to itself relates different events, or repeats one. -/
theorem acyclic_iff_offDiagonal {r : α → α → Prop} :
    Acyclic r ↔ Acyclic (OffDiagonal r) ∧ ∀ a, ¬ r a a := by
  constructor
  · intro h
    exact ⟨h.mono fun a b hab => hab.1, fun a ha => h a (.single ha)⟩
  · rintro ⟨hoff, hdiag⟩
    refine hoff.mono fun a b hab => ⟨hab, ?_⟩
    rintro rfl
    exact hdiag a hab

/-- One pair of different events has no cycle. -/
theorem acyclic_of_pair {r : α → α → Prop} {a b : α} (hr : ∀ x y, r x y → x = a ∧ y = b)
    (hne : a ≠ b) : Acyclic r := by
  have hends : ∀ x y, Relation.TransGen r x y → x = a ∧ y = b := by
    intro x y hxy
    induction hxy with
    | single h => exact hr _ _ h
    | tail _ h ih => exact ⟨ih.1, (hr _ _ h).2⟩
  intro x hx
  obtain ⟨hxa, hxb⟩ := hends x x hx
  exact hne (hxa.symm.trans hxb)

/-- Renaming the events does not make a relation cyclic or acyclic. -/
theorem acyclic_rename_iff {β : Type*} {f : α → β} (hf : Function.Injective f)
    {r : β → β → Prop} (hr : ∀ a b, r a b → (∃ x, f x = a) ∧ ∃ y, f y = b) :
    Acyclic (fun x y => r (f x) (f y)) ↔ Acyclic r := by
  constructor
  · intro h a ha
    -- a chain of `r` that starts at a renamed event runs through renamed events
    have hlift : ∀ b, Relation.TransGen r a b → ∀ x, f x = a →
        ∃ y, f y = b ∧ Relation.TransGen (fun x y => r (f x) (f y)) x y := by
      intro b hab x hx
      induction hab with
      | single hab =>
        obtain ⟨-, y, hy⟩ := hr _ _ hab
        refine ⟨y, hy, .single ?_⟩
        rw [hx, hy]
        exact hab
      | tail _ hbc ih =>
        obtain ⟨y, hy, hxy⟩ := ih
        obtain ⟨-, z, hz⟩ := hr _ _ hbc
        refine ⟨z, hz, hxy.tail ?_⟩
        rw [hy, hz]
        exact hbc
    obtain ⟨x, hx⟩ : ∃ x, f x = a := by
      cases ha with
      | single hab => exact (hr _ _ hab).2
      | tail _ hba => exact (hr _ _ hba).2
    obtain ⟨y, hy, hxy⟩ := hlift a ha x hx
    rw [hf (hy.trans hx.symm)] at hxy
    exact h x hxy
  · intro h x hx
    exact h (f x) (Relation.TransGen.lift f (fun _ _ hab => hab) x x hx)

variable [DecidableEq α]

/-- The sequence `l` puts `a` before `b` whenever `r a b`. -/
def Respects (r : α → α → Prop) (l : List α) : Prop := ∀ a b, r a b → l.idxOf a < l.idxOf b

/-- Positions increase along a chain. -/
theorem Respects.acyclic {r : α → α → Prop} {l : List α} (h : Respects r l) : Acyclic r := by
  have hlt : ∀ a b, Relation.TransGen r a b → l.idxOf a < l.idxOf b := by
    intro a b hab
    induction hab with
    | single hab => exact h a _ hab
    | tail _ hbc ih => exact ih.trans (h _ _ hbc)
  exact fun a ha => Nat.lt_irrefl _ (hlt a a ha)

/-- An acyclic relation can be respected: extend its reflexive and transitive closure to
a linear order and sort by it. -/
theorem exists_respects {r : α → α → Prop} (hacyc : Acyclic r) (events : List α)
    (hevents : ∀ a b, r a b → a ∈ events) : ∃ l : List α, l.Perm events ∧ Respects r l := by
  have hpartial : IsPartialOrder α (Relation.ReflTransGen r) :=
    { refl := fun _ => .refl
      trans := fun _ _ _ => .trans
      antisymm := by
        intro a b hab hba
        rcases Relation.reflTransGen_iff_eq_or_transGen.mp hab with rfl | hab
        · rfl
        · exact absurd (hab.trans_left hba) (hacyc a) }
  obtain ⟨s, hs, hle⟩ := extend_partialOrder (Relation.ReflTransGen r)
  classical
  have hsorted := List.pairwise_insertionSort s events
  refine ⟨events.insertionSort s, List.perm_insertionSort s events, fun a b hab => ?_⟩
  set l := events.insertionSort s
  have hne : a ≠ b := by
    rintro rfl
    exact hacyc a (.single hab)
  have ha : a ∈ l := (List.mem_insertionSort s).mpr (hevents a b hab)
  have hia : l.idxOf a < l.length := List.idxOf_lt_length_of_mem ha
  by_contra hlt
  have hib : l.idxOf b < l.length := by omega
  rcases Nat.lt_or_eq_of_le (Nat.le_of_not_lt hlt) with hlt | heq
  · have hsba := List.pairwise_iff_getElem.mp hsorted (l.idxOf b) (l.idxOf a) hib hia hlt
    rw [List.getElem_idxOf, List.getElem_idxOf] at hsba
    exact hne (antisymm (hle a b (.single hab)) hsba)
  · have hget : l[l.idxOf b] = l[l.idxOf a] := by simp only [heq]
    rw [List.getElem_idxOf, List.getElem_idxOf] at hget
    exact hne hget.symm

/-- **Linearisation.** -/
theorem exists_respects_iff {r : α → α → Prop} {events : List α}
    (hevents : ∀ a b, r a b → a ∈ events) :
    (∃ l : List α, l.Perm events ∧ Respects r l) ↔ Acyclic r := by
  constructor
  · rintro ⟨l, -, hl⟩
    exact hl.acyclic
  · intro hacyc
    exact exists_respects hacyc events hevents

/-! ## Closed beginnings -/

/-- Every beginning of `l` that contains an event contains the events before it. -/
def BeginningsClosed (r : α → α → Prop) (l : List α) : Prop :=
  ∀ l', l' <+: l → ∀ a b, r a b → b ∈ l' → a ∈ l'

theorem beginningsClosed_iff {r : α → α → Prop} {l : List α} (hmem : ∀ a b, r a b → b ∈ l) :
    BeginningsClosed r l ↔ Respects (OffDiagonal r) l := by
  constructor
  · rintro h a b ⟨hab, hne⟩
    -- the beginning that ends with `b`
    have hib : l.idxOf b < l.length := List.idxOf_lt_length_of_mem (hmem a b hab)
    have hbmem : b ∈ l.take (l.idxOf b + 1) := by
      rw [List.mem_take_iff_idxOf_lt (hmem a b hab)]
      omega
    have hamem := h _ (List.take_prefix _ l) a b hab hbmem
    have haidx := (List.mem_take_iff_idxOf_lt (List.mem_of_mem_take hamem)).mp hamem
    rcases Nat.lt_or_eq_of_le (Nat.lt_succ_iff.mp haidx) with hlt | heq
    · exact hlt
    · exact absurd ((List.idxOf_inj (List.mem_of_mem_take hamem)).mp heq) hne
  · intro h l' hl' a b hab hb
    by_cases hne : a = b
    · rw [hne]
      exact hb
    · have hlt := h a b ⟨hab, hne⟩
      have htake := List.prefix_iff_eq_take.mp hl'
      rw [htake] at hb ⊢
      have hbl := hmem a b hab
      have hbidx := (List.mem_take_iff_idxOf_lt hbl).mp hb
      have hal : a ∈ l := by
        rw [← List.idxOf_lt_length_iff]
        exact hlt.trans (List.idxOf_lt_length_of_mem hbl)
      exact (List.mem_take_iff_idxOf_lt hal).mpr (hlt.trans hbidx)

end EventOrder
