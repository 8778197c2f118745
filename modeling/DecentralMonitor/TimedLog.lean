/-
# Logs over a common time line

A general library.  A *log* is a list of rows, each a time and a value, with no time twice
(`Unique`).  Several logs are brought to one time line by giving each of them a row with a
default value for every time it lacks (`fill`).  `sortRows_eq_fill` is the rule for programs
that do this with lists: whoever collects the rows of a log and one default row for each
missing time, in any order, and sorts them by time, has filled the log.
-/
import Mathlib.Data.Finset.Sort

namespace TimedLog

variable {ι α β : Type}

/-- No time occurs twice. -/
def Unique (rows : List (ι × α)) : Prop := (rows.map Prod.fst).Nodup

/-- The same log with other values. -/
def mapRows (f : α → β) (rows : List (ι × α)) : List (ι × β) := rows.map (Prod.map id f)

section Definitions

variable [LinearOrder ι]

/-- The log at the given times, with the value `d` where it has no row. -/
def fill (d : α) (rows : List (ι × α)) (times : List ι) : List (ι × α) :=
  times.map fun t => (t, (rows.lookup t).getD d)

/-- One row is not after another. -/
def NotAfter (r r' : ι × α) : Prop := r.1 ≤ r'.1

instance : DecidableRel (NotAfter : ι × α → ι × α → Prop) :=
  fun r r' => inferInstanceAs (Decidable (r.1 ≤ r'.1))

instance : Std.Total (NotAfter : ι × α → ι × α → Prop) := ⟨fun r r' => le_total r.1 r'.1⟩

instance : IsTrans (ι × α) NotAfter := ⟨fun _ _ _ h h' => le_trans h h'⟩

/-- The rows by ascending time. -/
def sortRows (rows : List (ι × α)) : List (ι × α) := rows.insertionSort NotAfter

end Definitions

/-! ## Looking up a time -/

@[simp] theorem map_fst_mapRows (f : α → β) (rows : List (ι × α)) :
    (mapRows f rows).map Prod.fst = rows.map Prod.fst := by
  unfold mapRows
  rw [List.map_map]
  rfl

theorem mapRows_mapRows {γ : Type} (f : α → β) (g : β → γ) (rows : List (ι × α)) :
    mapRows g (mapRows f rows) = mapRows (g ∘ f) rows := by
  unfold mapRows
  rw [List.map_map]
  rfl

variable [LinearOrder ι]

/-- In a log a row is found under its time. -/
theorem lookup_eq_some_iff {rows : List (ι × α)} (h : Unique rows) {t : ι} {v : α} :
    rows.lookup t = some v ↔ (t, v) ∈ rows := by
  induction rows with
  | nil => simp
  | cons r rows ih =>
    obtain ⟨s, w⟩ := r
    unfold Unique at h
    rw [List.map_cons, List.nodup_cons] at h
    rw [List.lookup_cons, List.mem_cons, Prod.mk.injEq]
    by_cases hts : t = s
    · subst hts
      have hnot : (t, v) ∉ rows := fun hmem => h.1 (List.mem_map.mpr ⟨(t, v), hmem, rfl⟩)
      simp [hnot, eq_comm]
    · rw [beq_eq_false_iff_ne.mpr hts]
      simp [hts, ih h.2]

theorem lookup_eq_none {rows : List (ι × α)} {t : ι} (h : t ∉ rows.map Prod.fst) :
    rows.lookup t = none := by
  rw [List.lookup_eq_none_iff]
  intro r hr
  rw [bne_iff_ne]
  rintro rfl
  exact h (List.mem_map_of_mem hr)

/-! ## Filled logs -/

@[simp] theorem map_fst_fill (d : α) (rows : List (ι × α)) (times : List ι) :
    (fill d rows times).map Prod.fst = times := by
  unfold fill
  rw [List.map_map]
  exact List.map_id times

/-- The times that a log lacks. -/
structure Missing (rows : List (ι × α)) (times missing : List ι) : Prop where
  nodup : missing.Nodup
  mem : ∀ t, t ∈ missing ↔ t ∈ times ∧ t ∉ rows.map Prod.fst

/-- The rows of a log and a default row for each missing time are the rows of the filled
log. -/
theorem perm_fill {rows : List (ι × α)} {times missing : List ι} (h : Unique rows)
    (hmissing : Missing rows times missing) (htimes : times.Nodup)
    (hsub : ∀ t ∈ rows.map Prod.fst, t ∈ times) (d : α) :
    (rows ++ missing.map fun t => (t, d)).Perm (fill d rows times) := by
  have hleft : (rows ++ missing.map fun t => (t, d)).Nodup := by
    apply List.Nodup.of_map Prod.fst
    rw [List.map_append, List.map_map, show Prod.fst ∘ (fun t => (t, d)) = id from rfl,
      List.map_id]
    refine List.Nodup.append h hmissing.nodup fun t ht ht' => ?_
    exact ((hmissing.mem t).mp ht').2 ht
  have hright : (fill d rows times).Nodup := by
    apply List.Nodup.of_map Prod.fst
    rw [map_fst_fill]
    exact htimes
  rw [List.perm_ext_iff_of_nodup hleft hright]
  rintro ⟨t, v⟩
  unfold fill
  rw [List.mem_append, List.mem_map, List.mem_map, ← lookup_eq_some_iff h]
  constructor
  · rintro (hv | ⟨s, hmem, hs⟩)
    · -- a row of the log
      have hrow := (lookup_eq_some_iff h).mp hv
      refine ⟨t, hsub t (List.mem_map.mpr ⟨(t, v), hrow, rfl⟩), ?_⟩
      rw [hv, Option.getD_some]
    · -- a row for a missing time
      obtain ⟨ht, hnot⟩ := (hmissing.mem s).mp hmem
      refine ⟨s, ht, ?_⟩
      rw [lookup_eq_none hnot, Option.getD_none]
      exact hs
  · rintro ⟨s, hs, heq⟩
    rw [Prod.mk.injEq] at heq
    obtain ⟨rfl, rfl⟩ := heq
    cases hv : rows.lookup s with
    | some w => exact Or.inl rfl
    | none =>
      refine Or.inr ⟨s, (hmissing.mem s).mpr ⟨hs, fun hmem => ?_⟩, rfl⟩
      obtain ⟨⟨s', w⟩, hrow, rfl⟩ := List.mem_map.mp hmem
      rw [(lookup_eq_some_iff h).mpr hrow] at hv
      exact absurd hv (by simp)

/-- Rows with ascending times are what their rearrangements are sorted to. -/
theorem sortRows_eq_of_perm {rows l : List (ι × α)} (h : rows.Perm l)
    (hl : (l.map Prod.fst).Pairwise (· < ·)) : sortRows rows = l := by
  have hsorted : (sortRows rows).Pairwise NotAfter := List.pairwise_insertionSort NotAfter rows
  have hnodup : (l.map Prod.fst).Nodup := hl.imp fun hab => hab.ne
  rw [List.pairwise_map] at hl
  have hperm : (sortRows rows).Perm l := (List.perm_insertionSort NotAfter rows).trans h
  refine hperm.eq_of_pairwise ?_ hsorted (hl.imp fun hab => le_of_lt hab)
  -- two rows with the same time are the same row
  intro r r' hr hr' hle hle'
  exact List.inj_on_of_nodup_map hnodup (hperm.mem_iff.mp hr) hr' (le_antisymm hle hle')

/-- **Filling a log.**  The rows of a log and a default row for each missing time, sorted by
time, are the filled log. -/
theorem sortRows_eq_fill {rows l : List (ι × α)} {times missing : List ι} (h : Unique rows)
    (hmissing : Missing rows times missing) (htimes : times.SortedLT)
    (hsub : ∀ t ∈ rows.map Prod.fst, t ∈ times) {d : α}
    (hl : l.Perm (rows ++ missing.map fun t => (t, d))) : sortRows l = fill d rows times := by
  apply sortRows_eq_of_perm
  · exact hl.trans (perm_fill h hmissing htimes.nodup hsub d)
  · rw [map_fst_fill]
    exact htimes.pairwise

end TimedLog
