/-
# Loops whose body may fail

A general library.  A loop that carries a state of type `σ` over the elements of
a list, with a body that may fail (`none`), is `List.foldlM` in `Option`.  This
module has the rules used to reason about such loops:

* total correctness: if the body succeeds from every state satisfying the
  invariant and re-establishes it, the loop succeeds and the invariant holds at
  its end (`exists_foldlM`, and `exists_foldlM_range` for counted loops, whose
  invariant may mention the counter);
* exact results: the same when the state is a known function of what has been read
  (`foldlM_eq_some_of_read`);
* success: if the body succeeds exactly under a condition, so does the loop
  (`exists_foldlM_read_iff`);
* partial correctness: an invariant the body preserves whenever it succeeds holds
  at the end of every loop that succeeds (`of_foldlM_eq_some`, `of_foldlM_read_eq_some`);
* sequencing: a loop over an append is a loop followed by a loop
  (`foldlM_append_eq_some_iff`), a loop over a `flatMap` a loop of loops;
* two runs: bodies that keep their states related give related ends (`foldlM_rel` over one
  list, `foldlM_rel₂` over related ones);
* loops with a condition: `EndsAfter` says in how many iterations such a loop ends,
  `exists_endsAfter` is its rule, and such a loop ends once only (`EndsAfter.unique`).
-/
import Mathlib.Data.List.Forall2
import Mathlib.Data.List.Induction
import Mathlib.Data.Option.Basic

namespace FallibleLoop

variable {σ α : Type*}

/-- Sequencing of loops. -/
theorem foldlM_append_eq_some_iff {f : σ → α → Option σ} {l l' : List α} {s t : σ} :
    (l ++ l').foldlM f s = some t ↔
      ∃ u, l.foldlM f s = some u ∧ l'.foldlM f u = some t := by
  rw [List.foldlM_append]
  exact Option.bind_eq_some_iff

/-- A loop over one element is its body. -/
theorem foldlM_singleton (f : σ → α → Option σ) (s : σ) (a : α) :
    [a].foldlM f s = f s a := by
  rw [List.foldlM_cons]
  cases f s a <;> rfl

/-- Loops with the same body on the elements of the list. -/
theorem foldlM_congr {f g : σ → α → Option σ} {l : List α} {s : σ}
    (h : ∀ a ∈ l, ∀ s, f s a = g s a) : l.foldlM f s = l.foldlM g s := by
  induction l generalizing s with
  | nil => rfl
  | cons a l ih =>
    rw [List.foldlM_cons, List.foldlM_cons, h a List.mem_cons_self s]
    congr 1
    funext t
    exact ih fun b hb => h b (List.mem_cons_of_mem a hb)

/-- **Total correctness** of a loop over a list. -/
theorem exists_foldlM {f : σ → α → Option σ} {P : σ → Prop} {l : List α}
    (hstep : ∀ a ∈ l, ∀ s, P s → ∃ t, f s a = some t ∧ P t) {s : σ} (hs : P s) :
    ∃ t, l.foldlM f s = some t ∧ P t := by
  induction l generalizing s with
  | nil => exact ⟨s, rfl, hs⟩
  | cons a l ih =>
    obtain ⟨u, hu, hPu⟩ := hstep a List.mem_cons_self s hs
    obtain ⟨t, ht, hPt⟩ := ih (fun b hb => hstep b (List.mem_cons_of_mem a hb)) hPu
    refine ⟨t, ?_, hPt⟩
    rw [List.foldlM_cons, hu]
    exact ht

/-- **Total correctness** of a counted loop `for c = 0, …, n - 1`. -/
theorem exists_foldlM_range {f : σ → ℕ → Option σ} {P : ℕ → σ → Prop} {n : ℕ} {s : σ}
    (h0 : P 0 s) (hstep : ∀ c < n, ∀ u, P c u → ∃ t, f u c = some t ∧ P (c + 1) t) :
    ∃ t, (List.range n).foldlM f s = some t ∧ P n t := by
  induction n with
  | zero => exact ⟨s, rfl, h0⟩
  | succ n ih =>
    obtain ⟨u, hu, hPu⟩ := ih (fun c hc => hstep c (by omega))
    obtain ⟨t, ht, hPt⟩ := hstep n (by omega) u hPu
    refine ⟨t, ?_, hPt⟩
    rw [List.range_succ, foldlM_append_eq_some_iff]
    exact ⟨u, hu, (foldlM_singleton f u n).trans ht⟩

/-- **Total correctness** of a loop over a list, for an invariant that may mention the part
of the list that has been read. -/
theorem exists_foldlM_read {f : σ → α → Option σ} {P : List α → σ → Prop} {l : List α} {s : σ}
    (h0 : P [] s) (hstep : ∀ pre a, pre ++ [a] <+: l → ∀ u, P pre u →
      ∃ t, f u a = some t ∧ P (pre ++ [a]) t) :
    ∃ t, l.foldlM f s = some t ∧ P l t := by
  induction l using List.reverseRecOn with
  | nil => exact ⟨s, rfl, h0⟩
  | append_singleton l a ih =>
    obtain ⟨u, hu, hPu⟩ :=
      ih fun pre b hpre => hstep pre b (hpre.trans (List.prefix_append l [a]))
    obtain ⟨t, ht, hPt⟩ := hstep l a List.prefix_rfl u hPu
    refine ⟨t, ?_, hPt⟩
    rw [foldlM_append_eq_some_iff]
    exact ⟨u, hu, (foldlM_singleton f u a).trans ht⟩

/-- **When a loop succeeds.**  If from every state satisfying the invariant the body
succeeds exactly under a condition, and keeps the invariant when it does, then the loop
succeeds exactly when the condition holds of every element at its place. -/
theorem exists_foldlM_read_iff {f : σ → α → Option σ} {P : List α → σ → Prop}
    {C : List α → α → Prop} {l : List α} {s : σ} (h0 : P [] s)
    (hstep : ∀ pre a, pre ++ [a] <+: l → ∀ u, P pre u → ((∃ t, f u a = some t) ↔ C pre a) ∧
      ∀ t, f u a = some t → P (pre ++ [a]) t) :
    ((∃ t, l.foldlM f s = some t) ↔ ∀ pre a, pre ++ [a] <+: l → C pre a) ∧
      ∀ t, l.foldlM f s = some t → P l t := by
  induction l using List.reverseRecOn with
  | nil =>
    refine ⟨⟨fun _ pre a hpre => ?_, fun _ => ⟨s, rfl⟩⟩, fun t ht => ?_⟩
    · simp at hpre
    · obtain rfl : s = t := by simpa using ht
      exact h0
  | append_singleton l a ih =>
    obtain ⟨hiff, hinv⟩ :=
      ih fun pre b hpre => hstep pre b (hpre.trans (List.prefix_append l [a]))
    have hlast := hstep l a List.prefix_rfl
    simp only [foldlM_append_eq_some_iff, foldlM_singleton]
    constructor
    · constructor
      · rintro ⟨t, u, hu, hut⟩ pre b hpre
        rcases List.prefix_concat_iff.mp hpre with heq | hpre
        · obtain ⟨rfl, hab⟩ := List.append_inj' heq rfl
          obtain rfl : b = a := List.singleton_inj.mp hab
          exact (hlast u (hinv u hu)).1.mp ⟨t, hut⟩
        · exact hiff.mp ⟨u, hu⟩ pre b hpre
      · intro hC
        obtain ⟨u, hu⟩ := hiff.mpr fun pre b hpre =>
          hC pre b (hpre.trans (List.prefix_append l [a]))
        obtain ⟨t, ht⟩ := (hlast u (hinv u hu)).1.mpr (hC l a List.prefix_rfl)
        exact ⟨t, u, hu, ht⟩
    · rintro t ⟨u, hu, hut⟩
      exact (hlast u (hinv u hu)).2 t hut

/-- The exact result of a loop whose state is a function of the part of the list that
has been read. -/
theorem foldlM_eq_some_of_read {f : σ → α → Option σ} {l : List α} (st : List α → σ)
    (hstep : ∀ pre a, pre ++ [a] <+: l → f (st pre) a = some (st (pre ++ [a]))) :
    l.foldlM f (st []) = some (st l) := by
  obtain ⟨t, ht, rfl⟩ := exists_foldlM_read (f := f) (P := fun pre s => s = st pre) rfl
    fun pre a hpre u hu => ⟨st (pre ++ [a]), hu ▸ hstep pre a hpre, rfl⟩
  exact ht

/-- A loop that appends to a list, whatever the list already holds. -/
theorem foldlM_eq_some_append_flatMap {β : Type*} {f : List β → α → Option (List β)}
    {g : α → List β} {l : List α} (h : ∀ a ∈ l, ∀ acc, f acc a = some (acc ++ g a))
    (acc : List β) : l.foldlM f acc = some (acc ++ l.flatMap g) := by
  induction l generalizing acc with
  | nil => simp
  | cons a l ih =>
    rw [List.foldlM_cons, h a List.mem_cons_self acc]
    show l.foldlM f (acc ++ g a) = _
    rw [ih (fun b hb => h b (List.mem_cons_of_mem a hb)), List.flatMap_cons, List.append_assoc]

/-- **Partial correctness** of a loop over a list. -/
theorem of_foldlM_eq_some {f : σ → α → Option σ} {P : σ → Prop} {l : List α}
    (hstep : ∀ a ∈ l, ∀ s t, P s → f s a = some t → P t) {s t : σ} (hs : P s)
    (ht : l.foldlM f s = some t) : P t := by
  induction l generalizing s with
  | nil =>
    obtain rfl : s = t := by simpa using ht
    exact hs
  | cons a l ih =>
    rw [List.foldlM_cons] at ht
    obtain ⟨u, hu, hut⟩ := Option.bind_eq_some_iff.mp ht
    exact ih (fun b hb => hstep b (List.mem_cons_of_mem a hb))
      (hstep a List.mem_cons_self s u hs hu) hut

/-- **Partial correctness**, for an invariant that may mention the part of the list that has
been read. -/
theorem of_foldlM_read_eq_some {f : σ → α → Option σ} {P : List α → σ → Prop} {l : List α} {s t : σ}
    (h0 : P [] s) (hstep : ∀ pre a, pre ++ [a] <+: l → ∀ u w, P pre u → f u a = some w →
      P (pre ++ [a]) w) (ht : l.foldlM f s = some t) : P l t := by
  induction l using List.reverseRecOn generalizing t with
  | nil =>
    obtain rfl : s = t := by simpa using ht
    exact h0
  | append_singleton l a ih =>
    obtain ⟨u, hu, hut⟩ := foldlM_append_eq_some_iff.mp ht
    rw [foldlM_singleton] at hut
    have hPu : P l u :=
      ih (fun pre b hpre => hstep pre b (hpre.trans (List.prefix_append l [a]))) hu
    exact hstep l a List.prefix_rfl u t hPu hut

/-- A loop that succeeds has executed its body on every element. -/
theorem exists_step_of_mem {f : σ → α → Option σ} {l : List α} {s t : σ}
    (h : l.foldlM f s = some t) {a : α} (ha : a ∈ l) : ∃ u w, f u a = some w := by
  obtain ⟨pre, post, rfl⟩ := List.append_of_mem ha
  obtain ⟨u, -, hrest⟩ := foldlM_append_eq_some_iff.mp h
  rw [List.foldlM_cons] at hrest
  obtain ⟨w, hw, -⟩ := Option.bind_eq_some_iff.mp hrest
  exact ⟨u, w, hw⟩

/-- Two computations in sequence, from related ones to related ones. -/
theorem rel_bind {τ σ' τ' : Type*} {R : σ → τ → Prop} {R' : σ' → τ' → Prop} {x : Option σ}
    {y : Option τ} {f : σ → Option σ'} {g : τ → Option τ'} (h : Option.Rel R x y)
    (hfg : ∀ s t, R s t → Option.Rel R' (f s) (g t)) :
    Option.Rel R' (x.bind f) (y.bind g) := by
  cases h with
  | some hst => exact hfg _ _ hst
  | none => exact .none

/-- **Two loops** over related lists whose bodies keep their states related: both fail, or both
end in related states. -/
theorem foldlM_rel₂ {β τ : Type*} {f : σ → α → Option σ} {g : τ → β → Option τ}
    {R : σ → τ → Prop} {S : α → β → Prop}
    (hstep : ∀ a b, S a b → ∀ s t, R s t → Option.Rel R (f s a) (g t b)) {l : List α}
    {l' : List β} (hl : List.Forall₂ S l l') {s : σ} {t : τ} (h : R s t) :
    Option.Rel R (l.foldlM f s) (l'.foldlM g t) := by
  induction hl generalizing s t with
  | nil => exact .some h
  | cons hab _ ih =>
    rw [List.foldlM_cons, List.foldlM_cons]
    exact rel_bind (hstep _ _ hab s t h) fun _ _ => ih

/-- **Two loops over one list.** -/
theorem foldlM_rel {τ : Type*} {f : σ → α → Option σ} {g : τ → α → Option τ} {R : σ → τ → Prop}
    {l : List α} (hstep : ∀ a ∈ l, ∀ s t, R s t → Option.Rel R (f s a) (g t a)) {s : σ} {t : τ}
    (h : R s t) : Option.Rel R (l.foldlM f s) (l.foldlM g t) := by
  have hl : List.Forall₂ (fun a b => a = b ∧ a ∈ l) l l :=
    List.forall₂_same.mpr fun a ha => ⟨rfl, ha⟩
  refine foldlM_rel₂ ?_ hl h
  rintro a _ ⟨rfl, ha⟩
  exact hstep a ha

/-- A loop that replaces each entry of a family by what the body makes of it. -/
theorem foldlM_update_eq_some {ι β : Type} [DecidableEq ι] {f : ι → β → Option β} {l : List ι}
    (hnodup : l.Nodup) {s g : ι → β} (h : ∀ i ∈ l, f i (s i) = some (g i)) :
    l.foldlM (fun s i => do
      let a ← f i (s i)
      some (Function.update s i a)) s = some (fun i => if i ∈ l then g i else s i) := by
  refine foldlM_eq_some_of_read (fun pre i => if i ∈ pre then g i else s i) ?_
  intro pre i hpre
  have hnot : i ∉ pre := by
    have hnd := hpre.sublist.nodup hnodup
    rw [List.nodup_append] at hnd
    exact fun hi => hnd.2.2 i hi i (List.mem_singleton_self i) rfl
  have hi : i ∈ l := hpre.subset (List.mem_append_right pre (List.mem_singleton_self i))
  simp only [if_neg hnot, h i hi]
  refine congrArg some (funext fun k => ?_)
  by_cases hk : k = i
  · subst hk
    simp
  · rw [Function.update_of_ne hk]
    simp [hk]

/-- If such a loop succeeds, the body has succeeded on each entry that it went over. -/
theorem of_foldlM_update_eq_some {ι β : Type} [DecidableEq ι] {f : ι → β → Option β} {l : List ι}
    (hnodup : l.Nodup) {s t : ι → β} (h : l.foldlM (fun s i => do
      let a ← f i (s i)
      some (Function.update s i a)) s = some t) : ∀ i ∈ l, f i (s i) = some (t i) := by
  -- the entries that have not been read yet are the first ones
  suffices hall : (∀ i ∈ l, f i (s i) = some (t i)) ∧ ∀ i ∉ l, t i = s i from hall.1
  refine of_foldlM_read_eq_some (P := fun pre u => (∀ i ∈ pre, f i (s i) = some (u i)) ∧
    ∀ i ∉ pre, u i = s i) ⟨fun i hi => absurd hi List.not_mem_nil, fun i _ => rfl⟩ ?_ h
  rintro pre i hpre u w ⟨hread, hrest⟩ hw
  have hi : i ∉ pre := by
    have hnd := hpre.sublist.nodup hnodup
    rw [List.nodup_append] at hnd
    exact fun hi => hnd.2.2 i hi i (List.mem_singleton_self i) rfl
  obtain ⟨a, ha, hw⟩ := Option.bind_eq_some_iff.mp hw
  obtain rfl := Option.some.inj hw
  rw [hrest i hi] at ha
  refine ⟨fun k hk => ?_, fun k hk => ?_⟩
  · by_cases hki : k = i
    · subst hki
      rw [ha, Function.update_self]
    · rw [Function.update_of_ne hki]
      refine hread k ?_
      simpa [hki] using hk
  · rw [List.mem_append, List.mem_singleton, not_or] at hk
    rw [Function.update_of_ne hk.2]
    exact hrest k hk.1

/-! ## Loops of loops -/

/-- A loop over a `flatMap` is a loop of loops. -/
theorem foldlM_flatMap {β : Type*} {f : σ → β → Option σ} {g : α → List β} (l : List α) (s : σ) :
    (l.flatMap g).foldlM f s = l.foldlM (fun s a => (g a).foldlM f s) s := by
  induction l generalizing s with
  | nil => rfl
  | cons a l ih =>
    rw [List.flatMap_cons, List.foldlM_append, List.foldlM_cons]
    congr 1
    funext t
    exact ih t

/-! ## Loops with a condition -/

/-- The state after `k` iterations of a body that may depend on the number of the
iteration. -/
def iterations (body : ℕ → σ → Option σ) (s : σ) : ℕ → Option σ
  | 0 => some s
  | k + 1 => (iterations body s k).bind (body k)

/-- The loop `while(guard)` with this body, started in `s`, ends in `t` after exactly
`k` iterations. -/
structure EndsAfter (guard : σ → Prop) (body : ℕ → σ → Option σ) (s : σ) (k : ℕ) (t : σ) :
    Prop where
  continues : ∀ j < k, ∃ u, iterations body s j = some u ∧ guard u
  last : iterations body s k = some t
  exit : ¬ guard t

/-- **Total correctness** of the first `k` iterations. -/
theorem exists_iterations {body : ℕ → σ → Option σ} {P : ℕ → σ → Prop} {s : σ} {k : ℕ}
    (h0 : P 0 s) (hstep : ∀ j < k, ∀ u, P j u → ∃ t, body j u = some t ∧ P (j + 1) t) :
    ∀ j ≤ k, ∃ t, iterations body s j = some t ∧ P j t := by
  intro j hj
  induction j with
  | zero => exact ⟨s, rfl, h0⟩
  | succ j ih =>
    obtain ⟨u, hu, hPu⟩ := ih (by omega)
    obtain ⟨t, ht, hPt⟩ := hstep j (by omega) u hPu
    refine ⟨t, ?_, hPt⟩
    rw [iterations, hu]
    exact ht

/-- **Total correctness** of a loop with a condition: the invariant implies the
condition before the last iteration and refutes it after. -/
theorem exists_endsAfter {guard : σ → Prop} {body : ℕ → σ → Option σ} {P : ℕ → σ → Prop} {s : σ}
    {k : ℕ} (h0 : P 0 s)
    (hstep : ∀ j < k, ∀ u, P j u → ∃ t, body j u = some t ∧ P (j + 1) t)
    (hguard : ∀ j < k, ∀ u, P j u → guard u) (hexit : ∀ u, P k u → ¬ guard u) :
    ∃ t, EndsAfter guard body s k t ∧ P k t := by
  have hiter := exists_iterations h0 hstep
  obtain ⟨t, ht, hPt⟩ := hiter k (Nat.le_refl k)
  refine ⟨t, ⟨fun j hj => ?_, ht, hexit t hPt⟩, hPt⟩
  obtain ⟨u, hu, hPu⟩ := hiter j (Nat.le_of_lt hj)
  exact ⟨u, hu, hguard j hj u hPu⟩

/-- The iterations before one that succeeds have succeeded. -/
theorem exists_iterations_of_le {body : ℕ → σ → Option σ} {s t : σ} {j k : ℕ} (hj : j ≤ k)
    (h : iterations body s k = some t) : ∃ u, iterations body s j = some u := by
  induction hj generalizing t with
  | refl => exact ⟨t, h⟩
  | step _ ih =>
    obtain ⟨u, hu, -⟩ := Option.bind_eq_some_iff.mp h
    exact ih hu

/-- A loop ends once only, and in one state. -/
theorem EndsAfter.unique {guard : σ → Prop} {body : ℕ → σ → Option σ} {s t t' : σ} {k k' : ℕ}
    (h : EndsAfter guard body s k t) (h' : EndsAfter guard body s k' t') : k = k' ∧ t = t' := by
  -- the loop that goes on longer would pass its condition where the other one ends
  have hle : ∀ {k k' t t'}, EndsAfter guard body s k t → EndsAfter guard body s k' t' →
      ¬ k < k' := by
    intro k k' t t' h h' hlt
    obtain ⟨u, hu, hguard⟩ := h'.continues k hlt
    obtain rfl : t = u := Option.some.inj (h.last.symm.trans hu)
    exact h.exit hguard
  obtain rfl : k = k' := Nat.le_antisymm (Nat.not_lt.mp (hle h' h)) (Nat.not_lt.mp (hle h h'))
  exact ⟨rfl, Option.some.inj (h.last.symm.trans h'.last)⟩

end FallibleLoop
