/-
# Which schedules spread every table, and how short they are

A general library on top of `Flooding`.

* Along a successor function: a schedule of parties, each of which delivers to its successor,
  carries the table of `v` to `w` exactly when the parties on the way from `v` to `w` are a
  subsequence of it (`carries_map_iff`).
* Whoever delivers to whom: a run that spreads every table of `n` parties has at least
  `2 * (n - 1)` deliveries (`two_mul_card_sub_one_le_length`).  Until the first party has all
  tables, every other one must have sent; and from then on every other one must receive.
-/
import Mathlib.Data.Fintype.EquivFin
import DecentralMonitor.Flooding

namespace Flooding

variable {V : Type*}

/-! ## Along a successor function -/

/-- The parties that hand a table on along `d` hops. -/
def hops (next : V → V) (v : V) (d : ℕ) : List V := (List.range d).map fun t => next^[t] v

theorem hops_succ (next : V → V) (v : V) (d : ℕ) :
    hops next v (d + 1) = v :: hops next (next v) d := by
  unfold hops
  rw [List.range_succ_eq_map, List.map_cons, List.map_map]
  rfl

theorem hops_concat (next : V → V) (v : V) (d : ℕ) :
    hops next v (d + 1) = hops next v d ++ [next^[d] v] := by
  unfold hops
  rw [List.range_succ, List.map_append, List.map_singleton]

theorem hops_sublist (next : V → V) (v : V) {d d' : ℕ} (h : d ≤ d') :
    (hops next v d).Sublist (hops next v d') := by
  unfold hops
  exact (List.range_sublist.mpr h).map _

/-- **Which tables a schedule carries.** -/
theorem carries_map_iff (next : V → V) {sched : List V} {v w : V} :
    Carries (sched.map fun u => (u, next u)) v w ↔
      ∃ d, next^[d] v = w ∧ (hops next v d).Sublist sched := by
  induction sched generalizing v with
  | nil =>
    constructor
    · rintro rfl
      exact ⟨0, rfl, List.Sublist.refl _⟩
    · rintro ⟨d, rfl, hsub⟩
      have hd : d = 0 := by simpa [hops] using hsub
      subst hd
      rfl
  | cons u sched ih =>
    show Carries (sched.map _) v w ∨ (u = v ∧ Carries (sched.map _) (next u) w) ↔ _
    rw [ih, ih]
    constructor
    · rintro (⟨d, hd, hsub⟩ | ⟨rfl, d, hd, hsub⟩)
      · exact ⟨d, hd, hsub.cons u⟩
      · refine ⟨d + 1, hd, ?_⟩
        rw [hops_succ]
        exact hsub.cons_cons u
    · rintro ⟨d, hd, hsub⟩
      cases d with
      | zero => exact Or.inl ⟨0, hd, List.nil_sublist _⟩
      | succ d =>
        rw [hops_succ] at hsub
        rcases List.sublist_cons_iff.mp hsub with hlater | ⟨r, hr, hrest⟩
        · refine Or.inl ⟨d + 1, hd, ?_⟩
          rw [hops_succ]
          exact hlater
        · -- the schedule begins with the first hop
          obtain ⟨rfl, rfl⟩ := List.cons_eq_cons.mp hr
          exact Or.inr ⟨rfl, d, hd, hrest⟩

/-! ## How many deliveries it takes -/

variable {es es' : List (V × V)} {v w : V}

/-- A table that gets away has been sent. -/
theorem Carries.exists_sender (h : Carries es v w) (hne : v ≠ w) : ∃ e ∈ es, e.1 = v := by
  have hrel : v = w ∨ ∃ e ∈ es, e.1 = v := by
    refine h.rel (R := fun v w => v = w ∨ ∃ e ∈ es, e.1 = v) (fun _ => Or.inl rfl) ?_
      fun e he => Or.inr ⟨e, he, rfl⟩
    rintro u v w (rfl | hu) hvw
    · exact hvw
    · exact Or.inr hu
  exact hrel.resolve_left hne

/-- A table that comes from elsewhere has been received. -/
theorem Carries.exists_receiver (h : Carries es v w) (hne : v ≠ w) : ∃ e ∈ es, e.2 = w := by
  have hrel : v = w ∨ ∃ e ∈ es, e.2 = w := by
    refine h.rel (R := fun v w => v = w ∨ ∃ e ∈ es, e.2 = w) (fun _ => Or.inl rfl) ?_
      fun e he => Or.inr ⟨e, he, rfl⟩
    rintro u v w huv (rfl | hw)
    · exact huv
    · exact Or.inr hw
  exact hrel.resolve_left hne

/-- The run carries every table to `w`. -/
def Complete (es : List (V × V)) (w : V) : Prop := ∀ v, Carries es v w

/-- A delivery completes its receiver only. -/
theorem Complete.eq_receiver {e : V × V} (h : Complete (es ++ [e]) w)
    (hnot : ∀ u, ¬ Complete es u) : w = e.2 := by
  by_contra hne
  refine hnot w fun v => ?_
  obtain ⟨u, hvu, hstay | ⟨-, hgo⟩⟩ := carries_append.mp (h v)
  · obtain rfl : u = w := hstay
    exact hvu
  · exact absurd hgo.symm hne

/-- A party that is completed later receives later. -/
theorem exists_receiver_of_complete_append (h : Complete (es ++ es') w)
    (hnot : ¬ Complete es w) : ∃ e ∈ es', e.2 = w := by
  unfold Complete at hnot
  push Not at hnot
  obtain ⟨v, hv⟩ := hnot
  obtain ⟨u, hvu, huw⟩ := carries_append.mp (h v)
  refine huw.exists_receiver ?_
  rintro rfl
  exact hv hvu

/-- The parties other than `w` are at most as many as a list that names them all. -/
theorem card_sub_one_le_length [Fintype V] {l : List V} (h : ∀ v, v ≠ w → v ∈ l) :
    Fintype.card V - 1 ≤ l.length := by
  classical
  have hsub : (Finset.univ.erase w : Finset V) ⊆ l.toFinset := by
    intro v hv
    exact List.mem_toFinset.mpr (h v (Finset.ne_of_mem_erase hv))
  calc Fintype.card V - 1 = (Finset.univ.erase w : Finset V).card := by
        rw [Finset.card_erase_of_mem (Finset.mem_univ w), Finset.card_univ]
    _ ≤ l.toFinset.card := Finset.card_le_card hsub
    _ ≤ l.length := l.toFinset_card_le

/-- Somebody is completed first, by some delivery of the run. -/
theorem exists_first_complete (hnil : ∀ u : V, ¬ Complete [] u) (hw : Complete es w) :
    ∃ pre e post, es = pre ++ [e] ++ post ∧ Complete (pre ++ [e]) e.2 ∧
      ∀ u, u ≠ e.2 → ¬ Complete (pre ++ [e]) u := by
  induction es using List.reverseRecOn generalizing w with
  | nil => exact absurd hw (hnil w)
  | append_singleton es e ih =>
    by_cases hearlier : ∃ u, Complete es u
    · obtain ⟨u, hu⟩ := hearlier
      obtain ⟨pre, e', post, rfl, hfirst, hothers⟩ := ih hu
      exact ⟨pre, e', post ++ [e], by simp, hfirst, hothers⟩
    · have hnot : ∀ u, ¬ Complete es u := fun u hu => hearlier ⟨u, hu⟩
      refine ⟨es, e, [], by simp, ?_, fun u hne hu => hne (hu.eq_receiver hnot)⟩
      rw [← hw.eq_receiver hnot]
      exact hw

/-- **How many deliveries it takes.** -/
theorem two_mul_card_sub_one_le_length [Fintype V] (h : Spreads es) :
    2 * (Fintype.card V - 1) ≤ es.length := by
  rcases Nat.lt_or_ge (Fintype.card V) 2 with hsmall | hcard
  · omega
  · have hnil : ∀ u : V, ¬ Complete [] u := by
      intro u hu
      have hone : Fintype.card V ≤ 1 := by
        apply Fintype.card_le_one_iff_subsingleton.mpr
        exact ⟨fun a b => (hu a).trans (hu b).symm⟩
      omega
    obtain ⟨w⟩ : Nonempty V := Fintype.card_pos_iff.mp (by omega)
    obtain ⟨pre, e, post, rfl, hfirst, hothers⟩ :=
      exists_first_complete hnil (w := w) (fun v => h v w)
    -- all others have sent by now, and will receive
    have hsent : Fintype.card V - 1 ≤ ((pre ++ [e]).map Prod.fst).length := by
      refine card_sub_one_le_length (w := e.2) fun v hne => ?_
      obtain ⟨e', he', rfl⟩ := (hfirst v).exists_sender hne
      exact List.mem_map_of_mem he'
    have hreceived : Fintype.card V - 1 ≤ (post.map Prod.snd).length := by
      refine card_sub_one_le_length (w := e.2) fun v hne => ?_
      obtain ⟨e', he', rfl⟩ :=
        exists_receiver_of_complete_append (fun u => h u v) (hothers v hne)
      exact List.mem_map_of_mem he'
    rw [List.length_map] at hsent hreceived
    rw [List.length_append]
    omega

end Flooding
