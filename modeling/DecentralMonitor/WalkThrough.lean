/-
# Walks that pass through a digit

A general library, on top of `CarryWalk`.  Which walks from `0` to `b` inside a set `F`
of digits pass through a number that has digit `e`?

A digit that is set does not stay set: a carry clears it, and moves on to a higher
digit.  But it only moves through digits of `F`, so the end `b` has a digit `p ≥ e` that
is joined to `e` inside `F`, and the way from `e` up to `p` takes `p - e` steps of its own
(`Walk.exists_ladder`).  Conversely such a digit lets a walk begin with `2 ^ e` alone
(`walk_of_ladder`), and it can be made as long as the weight of `b` allows.
`walk_through_iff` puts the two together.
-/
import DecentralMonitor.CarryWalk

open Finset

namespace CarryWalk

variable {ok : ℕ → Prop} {F : ℕ → Prop} {a b c e n n₁ n₂ p : ℕ}

/-! ## Where a digit goes -/

theorem bits_two_pow (e : ℕ) : bits (2 ^ e) = {e} := by
  rw [bits_eq_iff, sum_singleton]

/-- **The ladder.**  From a number with digit `e`, a walk inside `F` ends with a digit
`p ≥ e` that is joined to `e` inside `F`; it has one step for each digit it adds, and
`p - e` more. -/
theorem Walk.exists_ladder (h : Walk (Supported F) c n b) (he : e ∈ bits c) :
    ∃ p ∈ bits b, e ≤ p ∧ (∀ d, e ≤ d → d ≤ p → F d) ∧ #(bits b) + (p - e) ≤ #(bits c) + n := by
  induction h with
  | refl hc =>
    refine ⟨e, he, le_rfl, fun d hd hd' => ?_, by omega⟩
    obtain rfl : d = e := by omega
    exact hc d he
  | @step n b k h hb ih =>
    obtain ⟨p, hp, hep, hrun, hcount⟩ := ih
    obtain ⟨q, hkq, hq, hones, hadd⟩ := exists_bits_add_two_pow b k
    have hcard : #(bits (b + 2 ^ k)) + (q - k) = #(bits b) + 1 := by
      rw [hadd, card_insert_of_notMem fun hmem => hq (mem_sdiff.mp hmem).1,
        card_sdiff_of_subset hones, Nat.card_Ico]
      have hle := card_le_card hones
      rw [Nat.card_Ico] at hle
      omega
    have hqmem : q ∈ bits (b + 2 ^ k) := by
      rw [hadd]
      exact mem_insert_self q _
    by_cases hclear : p ∈ Ico k q
    · -- the digit is cleared, and the carry goes on to `q`
      rw [mem_Ico] at hclear
      refine ⟨q, hqmem, by omega, fun d hd hdq => ?_, by omega⟩
      rcases Nat.lt_or_ge d p with hdp | hpd
      · exact hrun d hd hdp.le
      rcases Nat.eq_or_lt_of_le hdq with rfl | hlt
      · exact hb d hqmem
      · exact h.ok_right d (hones (mem_Ico.mpr ⟨by omega, hlt⟩))
    · -- the digit stays
      refine ⟨p, ?_, hep, hrun, by omega⟩
      rw [hadd]
      exact mem_insert_of_mem (mem_sdiff.mpr ⟨hp, hclear⟩)

/-! ## Walks that begin with one digit -/

/-- Setting new digits one by one. -/
theorem walk_insert {S : Finset ℕ} (ha : Supported F a) (hS : ∀ i ∈ S, F i)
    (hdisj : Disjoint (bits a) S) : Walk (Supported F) a #S (a + ∑ i ∈ S, 2 ^ i) := by
  induction S using Finset.induction_on with
  | empty =>
    rw [card_empty, sum_empty]
    exact .refl ha
  | @insert x S hx ih =>
    rw [disjoint_insert_right] at hdisj
    have hwalk := ih (fun i hi => hS i (mem_insert_of_mem hi)) hdisj.2
    have hbits : bits (a + ∑ i ∈ S, 2 ^ i) = bits a ∪ S := by
      rw [bits_eq_iff, sum_union hdisj.2, sum_two_pow_bits]
    have hnew : x ∉ bits (a + ∑ i ∈ S, 2 ^ i) := by
      rw [hbits, mem_union, not_or]
      exact ⟨hdisj.1, hx⟩
    rw [card_insert_of_notMem hx, sum_insert hx, Nat.add_comm (2 ^ x), ← Nat.add_assoc]
    refine .step x hwalk ?_
    rw [Supported, bits_add_two_pow_of_notMem hnew]
    intro i hi
    rcases mem_insert.mp hi with rfl | hi
    · exact hS i (mem_insert_self i S)
    · exact hwalk.ok_right i hi

/-- Climbing from a digit to a higher one. -/
theorem walk_ladder (hep : e ≤ p) (hF : ∀ d, e ≤ d → d ≤ p → F d) :
    Walk (Supported F) (2 ^ e) (p - e) (2 ^ p) := by
  induction p, hep using Nat.le_induction with
  | base =>
    rw [Nat.sub_self]
    refine .refl fun i hi => ?_
    rw [bits_two_pow, mem_singleton] at hi
    exact hF i (by omega) (by omega)
  | succ p hep ih =>
    have hwalk := ih fun d hd hdp => hF d hd (by omega)
    have hdouble : 2 ^ p + 2 ^ p = 2 ^ (p + 1) := by
      rw [Nat.pow_succ]
      omega
    rw [show p + 1 - e = p - e + 1 by omega, ← hdouble]
    refine .step p hwalk ?_
    rw [Supported, hdouble, bits_two_pow]
    intro i hi
    obtain rfl := mem_singleton.mp hi
    exact hF _ (by omega) le_rfl

/-- The way up from `e` to a digit of `b`, then the other digits of `b`. -/
theorem walk_of_ladder (hb : Supported F b) (hp : p ∈ bits b) (hep : e ≤ p)
    (hF : ∀ d, e ≤ d → d ≤ p → F d) :
    Walk (Supported F) (2 ^ e) (p - e + (#(bits b) - 1)) b := by
  have hsplit : 2 ^ p + ∑ i ∈ (bits b).erase p, 2 ^ i = b := by
    rw [add_sum_erase (bits b) (fun i => 2 ^ i) hp, sum_two_pow_bits]
  have hdisj : Disjoint (bits (2 ^ p)) ((bits b).erase p) := by
    rw [bits_two_pow, disjoint_singleton_left]
    exact notMem_erase p _
  have hrest := walk_insert (walk_ladder hep hF).ok_right
    (fun i hi => hb i (mem_of_mem_erase hi)) hdisj
  rw [hsplit, card_erase_of_mem hp] at hrest
  exact (walk_ladder hep hF).trans hrest

/-! ## All lengths -/

/-- Digit `e` can be on the way to `b` within `n` steps: it is joined inside `F` to a digit
of `b`, and there are enough steps. -/
def Laddered (F : ℕ → Prop) (b n e : ℕ) : Prop :=
  ∃ p ∈ bits b, e ≤ p ∧ (∀ d, e ≤ d → d ≤ p → F d) ∧ #(bits b) + (p - e) ≤ n

variable [DecidablePred F]

/-- Two walks in sequence can be made longer until they weigh as much as their end. -/
theorem exists_lengthen (h : Walk (Supported F) 0 n₁ c) (h' : Walk (Supported F) c n₂ b)
    (hle : n₁ + n₂ ≤ n) (hn : n ≤ weight F b) :
    ∃ k₁ k₂, k₁ + k₂ = n ∧ Walk (Supported F) 0 k₁ c ∧ Walk (Supported F) c k₂ b := by
  induction n, hle using Nat.le_induction with
  | base => exact ⟨n₁, n₂, rfl, h, h'⟩
  | succ n hle ih =>
    obtain ⟨k₁, k₂, hsum, hk₁, hk₂⟩ := ih (by omega)
    by_cases hfirst : k₁ < weight F c
    · refine ⟨k₁ + 1, k₂, by omega, hk₁.lengthen ?_, hk₂⟩
      rw [weight_zero]
      omega
    · refine ⟨k₁, k₂ + 1, by omega, hk₁, hk₂.lengthen ?_⟩
      have hmax := hk₁.weight_add_le
      rw [weight_zero] at hmax
      omega

/-- A walk that begins with digit `e` alone. -/
theorem exists_walk_first (hb : Supported F b) (he : Laddered F b n e) (hn : n ≤ weight F b) :
    ∃ n₁ n₂, n₁ + n₂ = n ∧ Walk (Supported F) 0 n₁ (2 ^ e) ∧
      Walk (Supported F) (2 ^ e) n₂ b := by
  obtain ⟨p, hp, hep, hF, hcount⟩ := he
  have hrest := walk_of_ladder hb hp hep hF
  have hfirst : Walk (Supported F) 0 1 (2 ^ e) := by
    have hstep : Walk (Supported F) 0 (0 + 1) (0 + 2 ^ e) := by
      refine .step e (.refl (by simp [Supported])) ?_
      rw [Nat.zero_add]
      exact hrest.ok_left
    rwa [Nat.zero_add, Nat.zero_add] at hstep
  have hpos : 0 < #(bits b) := card_pos.mpr ⟨p, hp⟩
  exact exists_lengthen hfirst hrest (by omega) hn

/-- **Walks through a digit.**  A walk of `n` steps from `0` to `b` inside `F` can pass
through a number with digit `e` exactly when `b` lies in `F`, the digit is joined to one
of `b`, and `n` is between the two bounds. -/
theorem walk_through_iff : (∃ c n₁ n₂, n₁ + n₂ = n ∧ e ∈ bits c ∧ Walk (Supported F) 0 n₁ c ∧
      Walk (Supported F) c n₂ b) ↔ Supported F b ∧ Laddered F b n e ∧ n ≤ weight F b := by
  constructor
  · rintro ⟨c, n₁, n₂, rfl, he, h, h'⟩
    obtain ⟨p, hp, hep, hF, hcount⟩ := h'.exists_ladder he
    have hcard := h.card_bits_le
    rw [bits_zero, card_empty] at hcard
    have hweight := (h.trans h').weight_add_le
    rw [weight_zero] at hweight
    exact ⟨h'.ok_right, ⟨p, hp, hep, hF, by omega⟩, by omega⟩
  · rintro ⟨hb, he, hn⟩
    obtain ⟨n₁, n₂, hsum, h, h'⟩ := exists_walk_first hb he hn
    refine ⟨2 ^ e, n₁, n₂, hsum, ?_, h, h'⟩
    rw [bits_two_pow]
    exact mem_singleton_self e

end CarryWalk
