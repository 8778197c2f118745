/-
# Flooding partial tables along deliveries

A general library.  A family of parties each holds a partial table: a slot is
either empty or carries a value.  A *delivery* `(v, w)` copies every filled slot
of `v` into the table of `w`, overwriting what `w` held there.  A run is a list
of deliveries executed from left to right.

Two questions are answered for an arbitrary run:

* *where* information travels: `Carries es v w` says that whatever `v` holds
  before the run is (by way of other parties) handed on to `w` during it;
* *what* arrives: when the parties never disagree about a slot
  (`Consistent`), a slot is filled with `x` at `w` after the run exactly when
  some `v` with `Carries es v w` held `x` in it before (`mem_deliverAll_iff`).

Hence what a run that spreads every table to every party leaves does not depend on
its order of deliveries (`mem_deliverAll_of_spreads`), and along a successor function
every block of deliveries that serves all parties moves every table at least one hop
further (`carries_iterate_of_blocks`).
-/
import Mathlib.Logic.Function.Iterate
import Mathlib.Data.List.Basic
import Mathlib.Data.Option.Basic

namespace Flooding

variable {V C β : Type*}

/-! ## Where a run carries information -/

/-- `Carries es v w`: during the run `es` the table `v` holds at its start is
handed on, through any number of deliveries, to `w` (or stays, when `v = w`). -/
def Carries : List (V × V) → V → V → Prop
  | [], v, w => v = w
  | e :: es, v, w => Carries es v w ∨ (e.1 = v ∧ Carries es e.2 w)

/-- Every party keeps what it holds. -/
theorem carries_refl (es : List (V × V)) (v : V) : Carries es v v := by
  induction es with
  | nil => rfl
  | cons e es ih => exact Or.inl ih

/-- A delivery of the run carries its sender's table to its receiver. -/
theorem carries_of_mem {es : List (V × V)} {e : V × V} (he : e ∈ es) :
    Carries es e.1 e.2 := by
  induction es with
  | nil => simp at he
  | cons e' es ih =>
    rcases List.mem_cons.mp he with rfl | he
    · exact Or.inr ⟨rfl, carries_refl es e.2⟩
    · exact Or.inl (ih he)

/-- Runs executed one after the other carry along a meeting point. -/
theorem carries_append {es es' : List (V × V)} {v w : V} :
    Carries (es ++ es') v w ↔ ∃ u, Carries es v u ∧ Carries es' u w := by
  induction es generalizing v with
  | nil => simp [Carries]
  | cons e es ih =>
    simp only [List.cons_append, Carries, ih]
    constructor
    · rintro (⟨u, hvu, huw⟩ | ⟨he, u, hvu, huw⟩)
      · exact ⟨u, Or.inl hvu, huw⟩
      · exact ⟨u, Or.inr ⟨he, hvu⟩, huw⟩
    · rintro ⟨u, hvu | ⟨he, hvu⟩, huw⟩
      · exact Or.inl ⟨u, hvu, huw⟩
      · exact Or.inr ⟨he, u, hvu, huw⟩

/-- A table only travels along a preorder that all deliveries of the run respect. -/
theorem Carries.rel {R : V → V → Prop} (hrefl : ∀ v, R v v)
    (htrans : ∀ u v w, R u v → R v w → R u w) {es : List (V × V)} (hes : ∀ e ∈ es, R e.1 e.2)
    {v w : V} (h : Carries es v w) : R v w := by
  induction es generalizing v with
  | nil =>
    obtain rfl : v = w := h
    exact hrefl v
  | cons e es ih =>
    have htail : ∀ {u}, Carries es u w → R u w :=
      ih (fun e' he' => hes e' (List.mem_cons_of_mem e he'))
    rcases h with hstay | ⟨rfl, hgo⟩
    · exact htail hstay
    · apply htrans e.1 e.2 w
      · exact hes e List.mem_cons_self
      · exact htail hgo

/-- Along a successor function: a run cut into blocks, each serving every party,
moves every table up to one hop for each block. -/
theorem carries_iterate_of_blocks (next : V → V) {blocks : List (List (V × V))}
    (hb : ∀ b ∈ blocks, ∀ v, (v, next v) ∈ b) (v : V) :
    ∀ d ≤ blocks.length, Carries blocks.flatten v (next^[d] v) := by
  induction blocks generalizing v with
  | nil =>
    intro d hd
    obtain rfl : d = 0 := by simpa using hd
    rfl
  | cons b blocks ih =>
    have ih' := ih (fun b' hb' => hb b' (List.mem_cons_of_mem b hb'))
    intro d hd
    rw [List.flatten_cons, carries_append]
    cases d with
    | zero => exact ⟨v, carries_refl b v, ih' v 0 (Nat.zero_le _)⟩
    | succ d =>
      have hstep : Carries b v (next v) := carries_of_mem (hb b List.mem_cons_self v)
      exact ⟨next v, hstep, ih' (next v) d (by simpa using hd)⟩

/-! ## Tables and deliveries -/

variable [DecidableEq V]

/-- A family of partial tables, one for each party `v : V` with slots `c : C`. -/
abbrev Tables (V C β : Type*) := V → C → Option β

/-- Execute one delivery: the receiver overwrites every slot the sender has filled. -/
def deliver (S : Tables V C β) (e : V × V) : Tables V C β :=
  Function.update S e.2 (fun c => (S e.1 c).or (S e.2 c))

/-- Execute a run of deliveries from left to right. -/
def deliverAll (S : Tables V C β) (es : List (V × V)) : Tables V C β :=
  es.foldl deliver S

@[simp] theorem deliverAll_nil (S : Tables V C β) : deliverAll S [] = S := rfl

@[simp] theorem deliverAll_cons (S : Tables V C β) (e : V × V) (es : List (V × V)) :
    deliverAll S (e :: es) = deliverAll (deliver S e) es := rfl

theorem deliverAll_append (S : Tables V C β) (es es' : List (V × V)) :
    deliverAll S (es ++ es') = deliverAll (deliverAll S es) es' := by
  simp [deliverAll]

/-- The receiver's table after a delivery. -/
theorem deliver_receiver (S : Tables V C β) (e : V × V) (c : C) :
    deliver S e e.2 c = (S e.1 c).or (S e.2 c) := by
  simp [deliver]

/-- A delivery changes the receiver only. -/
theorem deliver_of_ne (S : Tables V C β) (e : V × V) {v : V} (hv : v ≠ e.2) :
    deliver S e v = S v := by
  simp [deliver, hv]

/-- A value present after a delivery was present before it, at the same party or
at the sender. -/
theorem mem_of_mem_deliver {S : Tables V C β} {e : V × V} {v : V} {c : C} {x : β}
    (hx : x ∈ deliver S e v c) : x ∈ S v c ∨ (v = e.2 ∧ x ∈ S e.1 c) := by
  by_cases hv : v = e.2
  · subst hv
    rw [deliver_receiver] at hx
    cases hs : S e.1 c with
    | none =>
      rw [hs, Option.none_or] at hx
      exact Or.inl hx
    | some y =>
      rw [hs, Option.some_or] at hx
      exact Or.inr ⟨rfl, hx⟩
  · rw [deliver_of_ne S e hv] at hx
    exact Or.inl hx

/-- A slot is filled after a delivery when it was filled before it, at the same
party or at the sender. -/
theorem isSome_deliver_iff {S : Tables V C β} {e : V × V} {v : V} {c : C} :
    (deliver S e v c).isSome ↔ (S v c).isSome ∨ (v = e.2 ∧ (S e.1 c).isSome) := by
  by_cases hv : v = e.2
  · subst hv
    rw [deliver_receiver, Option.isSome_or]
    cases (S e.1 c).isSome <;> simp
  · rw [deliver_of_ne S e hv]
    simp [hv]

/-! ## What a run delivers -/

/-- A value present after a run was present before it at a party whose table the
run carries here. -/
theorem exists_mem_of_mem_deliverAll {S : Tables V C β} {es : List (V × V)} {w : V} {c : C}
    {x : β} (hx : x ∈ deliverAll S es w c) : ∃ v, Carries es v w ∧ x ∈ S v c := by
  induction es generalizing S with
  | nil => exact ⟨w, rfl, hx⟩
  | cons e es ih =>
    obtain ⟨v, hvw, hv⟩ := ih hx
    rcases mem_of_mem_deliver hv with h | ⟨rfl, h⟩
    · exact ⟨v, Or.inl hvw, h⟩
    · exact ⟨e.1, Or.inr ⟨rfl, hvw⟩, h⟩

/-- A slot is filled after a run exactly when the run carries here the table of a
party that had filled it. -/
theorem isSome_deliverAll_iff {S : Tables V C β} {es : List (V × V)} {w : V} {c : C} :
    (deliverAll S es w c).isSome ↔ ∃ v, Carries es v w ∧ (S v c).isSome := by
  induction es generalizing S with
  | nil => simp [Carries]
  | cons e es ih =>
    rw [deliverAll_cons, ih]
    constructor
    · rintro ⟨v, hvw, hv⟩
      rcases isSome_deliver_iff.mp hv with h | ⟨rfl, h⟩
      · exact ⟨v, Or.inl hvw, h⟩
      · exact ⟨e.1, Or.inr ⟨rfl, hvw⟩, h⟩
    · rintro ⟨v, hvw | ⟨rfl, hvw⟩, hv⟩
      · exact ⟨v, hvw, isSome_deliver_iff.mpr (Or.inl hv)⟩
      · exact ⟨e.2, hvw, isSome_deliver_iff.mpr (Or.inr ⟨rfl, hv⟩)⟩

/-- No two parties hold different values in one slot. -/
def Consistent (S : Tables V C β) : Prop :=
  ∀ c v w, ∀ x ∈ S v c, ∀ y ∈ S w c, x = y

/-- **What a run delivers.**  From consistent tables, `w` holds `x` in a slot
after the run exactly when some party whose table is carried to `w` held it. -/
theorem mem_deliverAll_iff {S : Tables V C β} (hS : Consistent S) {es : List (V × V)}
    {w : V} {c : C} {x : β} :
    x ∈ deliverAll S es w c ↔ ∃ v, Carries es v w ∧ x ∈ S v c := by
  refine ⟨exists_mem_of_mem_deliverAll, ?_⟩
  rintro ⟨v, hvw, hx⟩
  have hsome : (deliverAll S es w c).isSome :=
    isSome_deliverAll_iff.mpr ⟨v, hvw, Option.isSome_of_mem hx⟩
  obtain ⟨y, hy⟩ := Option.isSome_iff_exists.mp hsome
  obtain ⟨u, -, hu⟩ := exists_mem_of_mem_deliverAll (x := y) hy
  have hxy : x = y := hS c v u x hx y hu
  rw [hxy]
  exact hy

/-- A run spreads when it carries every table to every party. -/
def Spreads (es : List (V × V)) : Prop :=
  ∀ v w, Carries es v w

/-- After a spreading run from consistent tables every party holds all that any
party held. -/
theorem mem_deliverAll_of_spreads {S : Tables V C β} (hS : Consistent S)
    {es : List (V × V)} (hes : Spreads es) {w : V} {c : C} {x : β} :
    x ∈ deliverAll S es w c ↔ ∃ v, x ∈ S v c := by
  rw [mem_deliverAll_iff hS]
  constructor
  · rintro ⟨v, -, hv⟩
    exact ⟨v, hv⟩
  · rintro ⟨v, hv⟩
    exact ⟨v, hes v w, hv⟩

/-! ## A value handed on along a path -/

/-- The deliveries that hand a table on along `d` hops of a successor function. -/
def path (next : V → V) (v : V) (d : ℕ) : List (V × V) :=
  (List.range d).map (fun t => (next^[t] v, next^[t + 1] v))

/-- What `v` holds in a slot arrives at the end of a path, even if the parties on
the way held something else there. -/
theorem mem_deliverAll_path (next : V → V) {S : Tables V C β} {v : V} {c : C} {x : β}
    (hx : x ∈ S v c) (d : ℕ) :
    x ∈ deliverAll S (path next v d) (next^[d] v) c := by
  induction d with
  | zero => exact hx
  | succ d ih =>
    have hpath : path next v (d + 1) = path next v d ++ [(next^[d] v, next^[d + 1] v)] := by
      simp [path, List.range_succ]
    rw [hpath, deliverAll_append, deliverAll_cons, deliverAll_nil, deliver_receiver]
    rw [Option.mem_def] at ih
    rw [ih, Option.some_or]
    rfl

end Flooding
