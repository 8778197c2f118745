/-
# Walks through closed sets

A general library, on top of `CarryWalk` and `EventOrder`.  A relation `r` says which digits come
before which, and the numbers on a walk have to be closed: with a digit they contain all digits
before it.  How long can a walk from `0` to `b` be?

* A digit on a cycle of `r`, or after one, is never set (`Walk.supported_of_blocked`): a step sets
  one new digit, and the cycle needs two.  So no walk is longer than the weight of `b` in the other
  digits (`Walk.closed_bounds`).
* A step may be split into smaller ones that only touch digits which `r` does not relate to any
  other (`walk_split`).  So if no digit of `b` is blocked, there are walks of every length up to the
  weight of `b` in the unrelated digits (`walk_closed_of_le`).

Between the two weights it depends on the order in which the related digits can be set and cleared
again, and nothing is said here.
-/
import DecentralMonitor.CarryWalk
import DecentralMonitor.EventOrder

open EventOrder Finset Relation

namespace CarryWalk

variable {ok : ℕ → Prop} {r : ℕ → ℕ → Prop} {F : ℕ → Prop} {a b c e k n : ℕ}

/-! ## Closed numbers -/

/-- With a digit the number contains the digits before it. -/
def ClosedUnder (r : ℕ → ℕ → Prop) (c : ℕ) : Prop := ∀ i j, r i j → j ∈ bits c → i ∈ bits c

/-- The digit is on a cycle of `r`, or after one. -/
def Blocked (r : ℕ → ℕ → Prop) (d : ℕ) : Prop := ∃ e, TransGen r e e ∧ ReflTransGen r e d

/-- The digit is not related to any other. -/
def Untied (r : ℕ → ℕ → Prop) (d : ℕ) : Prop := ∀ e, ¬ r d e ∧ ¬ r e d

theorem ClosedUnder.mem_of_reflTransGen (hc : ClosedUnder r c) {i j : ℕ}
    (hij : ReflTransGen r i j) (hj : j ∈ bits c) : i ∈ bits c := by
  induction hij with
  | refl => exact hj
  | tail _ hstep ih => exact ih (hc _ _ hstep hj)

/-! ## Digits that are never set -/

/-- **Blocked digits are never set.** -/
theorem Walk.supported_of_blocked (hirrefl : ∀ i, ¬ r i i)
    (ha : Supported (fun d => ¬ Blocked r d) a) (h : Walk (ClosedUnder r) a n b) :
    Walk (Supported fun d => ¬ Blocked r d) a n b := by
  induction h with
  | refl _ => exact .refl ha
  | @step n b k h hb hprev =>
    refine .step k hprev fun d hd hblocked => ?_
    -- two neighbours on the cycle are both in the new number
    obtain ⟨e, hcycle, hed⟩ := hblocked
    obtain ⟨e', hee', hstep⟩ := TransGen.tail'_iff.mp hcycle
    have hne : e' ≠ e := by
      rintro rfl
      exact hirrefl _ hstep
    have he : e ∈ bits (b + 2 ^ k) := hb.mem_of_reflTransGen hed hd
    have he' : e' ∈ bits (b + 2 ^ k) := hb e' e hstep he
    -- and one of them was there before
    obtain ⟨p, -, -, -, hadd⟩ := exists_bits_add_two_pow b k
    rw [hadd, mem_insert, mem_sdiff] at he he'
    rcases he with rfl | he
    · rcases he' with rfl | he'
      · exact hne rfl
      · exact hprev.ok_right e' he'.1 ⟨e, hcycle, hee'⟩
    · exact hprev.ok_right e he.1 ⟨e, hcycle, .refl⟩

/-- If `r` relates digits in both directions, the digits that it relates to others are blocked. -/
theorem blocked_iff_of_symm (hsymm : ∀ i j, r i j → r j i) {i : ℕ} : Blocked r i ↔ ∃ j, r i j := by
  constructor
  · rintro ⟨e, hcycle, hei⟩
    rcases ReflTransGen.cases_tail hei with rfl | ⟨x, -, hxi⟩
    · obtain ⟨x, -, hxi⟩ := TransGen.tail'_iff.mp hcycle
      exact ⟨x, hsymm _ _ hxi⟩
    · exact ⟨x, hsymm _ _ hxi⟩
  · rintro ⟨j, hij⟩
    exact ⟨i, .tail (.single hij) (hsymm _ _ hij), .refl⟩

/-- **The longest walks.** -/
theorem Walk.closed_bounds [DecidablePred fun d => ¬ Blocked r d] (hirrefl : ∀ i, ¬ r i i)
    (h : Walk (ClosedUnder r) 0 n b) :
    (∀ d ∈ bits b, ¬ Blocked r d) ∧ n ≤ weight (fun d => ¬ Blocked r d) b := by
  have hwalk := h.supported_of_blocked hirrefl (by simp [Supported])
  have hweight := hwalk.weight_add_le
  rw [weight_zero] at hweight
  exact ⟨hwalk.ok_right, by omega⟩

/-! ## Steps that can be split -/

/-- Closed numbers stay closed when unrelated digits are set or cleared. -/
theorem ignores_closedUnder (hF : ∀ d, F d → Untied r d) : Ignores F (ClosedUnder r) := by
  intro c c' hsame hc i j hij hj
  have hi : ¬ F i := fun hi => (hF i hi j).1 hij
  have hj' : ¬ F j := fun hj' => (hF j hj' i).2 hij
  exact (hsame i hi).mp (hc i j hij ((hsame j hj').mpr hj))

variable [DecidablePred F]

/-- **A step can be split** into as many as it weighs in ignored digits. -/
theorem walk_split (hok : Ignores F ok) (hc : ok c) (hnext : ok (c + 2 ^ e)) (hk : 1 ≤ k)
    (hk' : k ≤ 2 ^ runDepth F e) : Walk ok c k (c + 2 ^ e) := by
  induction e generalizing c k with
  | zero =>
    rw [runDepth, Nat.pow_zero] at hk'
    obtain rfl : k = 1 := by omega
    exact .step 0 (.refl hc) hnext
  | succ e ih =>
    rcases Nat.eq_or_lt_of_le hk with rfl | hlt
    · exact .step (e + 1) (.refl hc) hnext
    · have he : F e := by
        by_contra hno
        rw [runDepth, if_neg hno, Nat.pow_zero] at hk'
        omega
      rw [two_pow_runDepth_succ he] at hk'
      -- the two halves, each split in its turn
      have hhalf : c + 2 ^ e + 2 ^ e = c + 2 ^ (e + 1) := by
        rw [Nat.pow_succ]
        omega
      have hmid := hok.half_step he hc hnext
      rw [← hhalf] at hnext ⊢
      have hfirst := ih hc hmid (k := min (k - 1) (2 ^ runDepth F e)) (by omega) (by omega)
      have hsecond := ih hmid hnext (k := k - min (k - 1) (2 ^ runDepth F e)) (by omega) (by omega)
      have hwalk := hfirst.trans hsecond
      rwa [Nat.add_sub_cancel' (by omega)] at hwalk

/-- An order of digits all of whose beginnings are fine gives walks of all lengths up to its
weight. -/
theorem walk_of_order_le (hok : Ignores F ok) {l : List ℕ} (hnodup : l.Nodup)
    (hpre : ∀ l', l' <+: l → ok (∑ i ∈ l'.toFinset, 2 ^ i)) (hn : l.length ≤ n)
    (hn' : n ≤ ∑ i ∈ l.toFinset, 2 ^ runDepth F i) : Walk ok 0 n (∑ i ∈ l.toFinset, 2 ^ i) := by
  induction l using List.reverseRecOn generalizing n with
  | nil =>
    obtain rfl : n = 0 := by simpa using hn'
    exact .refl (hpre [] List.nil_prefix)
  | append_singleton l d ih =>
    have hd : d ∉ l.toFinset := by
      rw [List.mem_toFinset]
      intro hd
      exact (List.nodup_append.mp hnodup).2.2 d hd d (by simp) rfl
    have hset : (l ++ [d]).toFinset = insert d l.toFinset := by
      rw [List.toFinset_append, show [d].toFinset = {d} from rfl, union_comm, ← insert_eq]
    have hprefix : l <+: l ++ [d] := List.prefix_append l [d]
    have hlast := hpre (l ++ [d]) List.prefix_rfl
    rw [hset, sum_insert hd, Nat.add_comm] at hlast hn' ⊢
    rw [List.length_append, List.length_singleton] at hn
    -- as many steps as possible for the last digit, the others before
    have hpos : 0 < 2 ^ runDepth F d := Nat.two_pow_pos _
    have hnodup' : l.Nodup := (List.nodup_append.mp hnodup).1
    have hcard : l.length ≤ ∑ i ∈ l.toFinset, 2 ^ runDepth F i := by
      rw [← List.toFinset_card_of_nodup hnodup', card_eq_sum_ones]
      exact sum_le_sum fun i _ => Nat.one_le_two_pow
    have hfirst := ih (n := max l.length (n - 2 ^ runDepth F d)) hnodup'
      (fun l' hl' => hpre l' (hl'.trans hprefix)) (by omega) (by omega)
    have hsecond := walk_split (k := n - max l.length (n - 2 ^ runDepth F d)) hok hfirst.ok_right
      hlast (by omega) (by omega)
    have hwalk := hfirst.trans hsecond
    rwa [Nat.add_sub_cancel' (by omega)] at hwalk

/-- **Walks through closed numbers.**  If the end is closed and none of its digits is blocked, there
is a walk of every length from its number of digits up to its weight in unrelated digits. -/
theorem walk_closed_of_le (hF : ∀ d, F d → Untied r d) (hb : ClosedUnder r b)
    (hfree : ∀ d ∈ bits b, ¬ Blocked r d) (hn : #(bits b) ≤ n) (hn' : n ≤ weight F b) :
    Walk (ClosedUnder r) 0 n b := by
  -- the relation among the digits of `b`
  have hacyc : Acyclic fun i j => r i j ∧ j ∈ bits b := by
    intro d hd
    obtain ⟨_, -, -, hmem⟩ := TransGen.tail'_iff.mp hd
    exact hfree d hmem ⟨d, TransGen.mono (fun _ _ hij => hij.1) _ _ hd, .refl⟩
  obtain ⟨l, hperm, hresp⟩ := exists_respects hacyc b.bitIndices fun i j ⟨hij, hj⟩ =>
    List.mem_toFinset.mp (hb i j hij hj)
  have hnodup : l.Nodup := hperm.nodup_iff.mpr Nat.bitIndices_nodup
  have hset : l.toFinset = bits b := List.toFinset_eq_of_perm _ _ hperm
  have hmem : ∀ i j, r i j ∧ j ∈ bits b → j ∈ l := by
    rintro i j ⟨-, hj⟩
    rwa [← hset, List.mem_toFinset] at hj
  have hclosed := (beginningsClosed_iff hmem).mpr fun i j hij => hresp i j hij.1
  have hwalk := walk_of_order_le (n := n) (ignores_closedUnder hF) hnodup ?_ ?_ ?_
  · rwa [hset, sum_two_pow_bits] at hwalk
  · intro l' hl' i j hij hj
    rw [bits_sum_two_pow, List.mem_toFinset] at hj ⊢
    refine hclosed l' hl' i j ⟨hij, ?_⟩ hj
    rw [← hset, List.mem_toFinset]
    exact hl'.subset hj
  · rwa [← List.toFinset_card_of_nodup hnodup, hset]
  · rw [hset]
    exact hn'

end CarryWalk
