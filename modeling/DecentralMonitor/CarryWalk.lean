/-
# Walks that add powers of two

A general library.  A natural number is read as the set of its binary digits
(`bits`).  A *walk* goes from one number to another by adding a power of two in
every step, through numbers that all satisfy a predicate `ok`.

A step need not add one element to the set: adding `2 ^ e` where digit `e` is
already set carries.  `exists_bits_add_two_pow` says exactly what a step does to the
set: one new digit appears and the run of ones below it disappears.  From it:

* a walk that adds as many digits as it has steps never carries, and then it is a
  sequence of insertions (`exists_order_of_walk`);
* if the predicate only restricts which digits may be set, to those of a set `F`,
  the lengths of the walks from `0` to `m` are exactly the numbers between the
  number of digits of `m` and its weight (`walk_supported_iff`), where a digit
  weighs as many unit steps as it takes to build it inside `F`.
-/
import Mathlib.Algebra.BigOperators.Intervals
import Mathlib.Combinatorics.Colex
import Mathlib.Data.List.Infix

open Finset

namespace CarryWalk

/-! ## The digits of a number -/

/-- The set of binary digits of `c`. -/
def bits (c : ℕ) : Finset ℕ := c.bitIndices.toFinset

@[simp] theorem mem_bits {i c : ℕ} : i ∈ bits c ↔ c.testBit i = true := by
  simp [bits]

@[simp] theorem sum_two_pow_bits (c : ℕ) : ∑ i ∈ bits c, 2 ^ i = c :=
  sum_toFinset_bitIndices_two_pow c

@[simp] theorem bits_sum_two_pow (s : Finset ℕ) : bits (∑ i ∈ s, 2 ^ i) = s :=
  toFinset_bitIndices_sum_two_pow s

@[simp] theorem bits_zero : bits 0 = ∅ := rfl

/-- A number with the digits `s` is the sum of their powers. -/
theorem bits_eq_iff {c : ℕ} {s : Finset ℕ} : bits c = s ↔ c = ∑ i ∈ s, 2 ^ i := by
  constructor
  · rintro rfl
    rw [sum_two_pow_bits]
  · rintro rfl
    rw [bits_sum_two_pow]

/-- The digits of `2 ^ n - 1` are all the digits below `n`. -/
theorem bits_two_pow_sub_one (n : ℕ) : bits (2 ^ n - 1) = range n := by
  ext i
  simp

/-- The digits of a number below `2 ^ n` are below `n`. -/
theorem lt_of_mem_bits {c n i : ℕ} (h : c < 2 ^ n) (hi : i ∈ bits c) : i < n := by
  rcases Nat.lt_or_ge i n with hlt | hge
  · exact hlt
  · have hpow : c < 2 ^ i := lt_of_lt_of_le h (Nat.pow_le_pow_right (by decide) hge)
    rw [mem_bits, Nat.testBit_lt_two_pow hpow] at hi
    exact absurd hi (by decide)

theorem card_bits_le_of_lt_two_pow {c n : ℕ} (h : c < 2 ^ n) : #(bits c) ≤ n := by
  have hsub : bits c ⊆ range n := fun i hi => mem_range.mpr (lt_of_mem_bits h hi)
  simpa using card_le_card hsub

/-! ## What adding a power of two does -/

/-- Without a carry the new digit is inserted. -/
theorem bits_add_two_pow_of_notMem {c e : ℕ} (he : e ∉ bits c) :
    bits (c + 2 ^ e) = insert e (bits c) := by
  rw [bits_eq_iff, sum_insert he, sum_two_pow_bits, Nat.add_comm]

/-- **The carry.**  Adding `2 ^ e` sets one new digit `p ≥ e` and clears the run of
ones from `e` up to `p`. -/
theorem exists_bits_add_two_pow (c e : ℕ) :
    ∃ p, e ≤ p ∧ p ∉ bits c ∧ Ico e p ⊆ bits c ∧
      bits (c + 2 ^ e) = insert p (bits c \ Ico e p) := by
  induction c using Nat.strong_induction_on generalizing e with
  | _ c ih =>
    by_cases he : e ∈ bits c
    · -- the digit is set: take it out and add the next power instead
      have hle : 2 ^ e ≤ c := Nat.ge_two_pow_of_testBit (mem_bits.mp he)
      have hpos : 0 < 2 ^ e := Nat.two_pow_pos e
      have hbits : bits (c - 2 ^ e) = (bits c).erase e := by
        rw [bits_eq_iff]
        have hsum := sum_erase_add (bits c) (fun i => 2 ^ i) he
        rw [sum_two_pow_bits] at hsum
        omega
      obtain ⟨p, hep, hp, hrun, hadd⟩ := ih (c - 2 ^ e) (by omega) (e + 1)
      rw [hbits] at hp hrun hadd
      have hpow : c - 2 ^ e + 2 ^ (e + 1) = c + 2 ^ e := by
        rw [Nat.pow_succ]
        omega
      rw [hpow] at hadd
      have hIco : Ico e p = insert e (Ico (e + 1) p) := by
        ext i
        simp only [mem_insert, mem_Ico]
        omega
      refine ⟨p, by omega, ?_, ?_, ?_⟩
      · intro hpc
        exact hp (mem_erase.mpr ⟨by omega, hpc⟩)
      · rw [hIco]
        exact insert_subset he (hrun.trans (erase_subset e _))
      · rw [hadd, hIco]
        congr 1
        ext i
        simp only [mem_sdiff, mem_erase, mem_insert]
        tauto
    · -- the digit is free: the run of ones is empty
      exact ⟨e, le_rfl, he, by simp, by rw [bits_add_two_pow_of_notMem he]; simp⟩

/-- A step adds at most one digit. -/
theorem card_bits_add_two_pow_le (c e : ℕ) : #(bits (c + 2 ^ e)) ≤ #(bits c) + 1 := by
  obtain ⟨p, -, -, -, hadd⟩ := exists_bits_add_two_pow c e
  rw [hadd]
  exact (card_insert_le _ _).trans (Nat.add_le_add_right (card_le_card sdiff_subset) 1)

/-- A step that adds a digit does not carry. -/
theorem notMem_bits_of_card_succ {c e : ℕ} (h : #(bits (c + 2 ^ e)) = #(bits c) + 1) :
    e ∉ bits c := by
  obtain ⟨p, hep, hp, -, hadd⟩ := exists_bits_add_two_pow c e
  intro he
  rcases Nat.eq_or_lt_of_le hep with rfl | hlt
  · exact hp he
  -- the run is not empty, so at least as many digits are cleared as are set
  · have hcard : #(bits c \ Ico e p) < #(bits c) := by
      apply card_lt_card
      refine ⟨sdiff_subset, fun hsub => ?_⟩
      have hmem := hsub he
      simp [hlt] at hmem
    have hle := card_insert_le p (bits c \ Ico e p)
    rw [← hadd] at hle
    omega

/-! ## Walks -/

/-- `Walk ok a n b`: from `a` in `n` steps, each adding a power of two, to `b`,
through numbers that satisfy `ok`. -/
inductive Walk (ok : ℕ → Prop) (a : ℕ) : ℕ → ℕ → Prop
  | refl (ha : ok a) : Walk ok a 0 a
  | step {n b : ℕ} (e : ℕ) (h : Walk ok a n b) (hb : ok (b + 2 ^ e)) :
      Walk ok a (n + 1) (b + 2 ^ e)

variable {ok ok' : ℕ → Prop} {n a b : ℕ}

theorem Walk.ok_left (h : Walk ok a n b) : ok a := by
  induction h with
  | refl ha => exact ha
  | step e h hb ih => exact ih

theorem Walk.ok_right (h : Walk ok a n b) : ok b := by
  cases h with
  | refl ha => exact ha
  | step e h hb => exact hb

theorem Walk.mono (hmono : ∀ c, ok c → ok' c) (h : Walk ok a n b) : Walk ok' a n b := by
  induction h with
  | refl ha => exact .refl (hmono _ ha)
  | step e h hb ih => exact .step e ih (hmono _ hb)

/-- Weakening that is only needed below the end of the walk. -/
theorem Walk.mono_le (h : Walk ok a n b) (hmono : ∀ c ≤ b, ok c → ok' c) : Walk ok' a n b := by
  induction h with
  | refl ha => exact .refl (hmono _ le_rfl ha)
  | step e h hb ih =>
    exact .step e (ih fun c hc => hmono c (hc.trans (Nat.le_add_right _ _))) (hmono _ le_rfl hb)

/-- A walk that goes on. -/
theorem Walk.trans {k c : ℕ} (h : Walk ok a n c) (h' : Walk ok c k b) : Walk ok a (n + k) b := by
  induction h' with
  | refl hc => exact h
  | step e _ hb ih => exact .step e ih hb

/-- Every step adds at least one. -/
theorem Walk.add_le (h : Walk ok a n b) : a + n ≤ b := by
  induction h with
  | refl ha => exact le_rfl
  | step e h hb ih =>
    have hpos : 0 < 2 ^ e := Nat.two_pow_pos e
    omega

/-- A walk adds at most one digit a step. -/
theorem Walk.card_bits_le (h : Walk ok a n b) : #(bits b) ≤ #(bits a) + n := by
  induction h with
  | refl ha => exact le_rfl
  | @step n b e h hb ih =>
    have hstep := card_bits_add_two_pow_le b e
    omega

/-- The cuts of a walk as a sequence: walks are sequences of numbers that differ by
powers of two. -/
theorem walk_iff_exists_seq :
    Walk ok a n b ↔ ∃ c : ℕ → ℕ, c 0 = a ∧ c n = b ∧ (∀ i < n, ∃ e, c (i + 1) = c i + 2 ^ e) ∧
      ∀ i ≤ n, ok (c i) := by
  constructor
  · intro h
    induction h with
    | refl ha => exact ⟨fun _ => a, rfl, rfl, by simp, fun _ _ => ha⟩
    | @step n b e h hb ih =>
      obtain ⟨c, h0, hn, hstep, hok⟩ := ih
      refine ⟨fun i => if i ≤ n then c i else b + 2 ^ e, by simp [h0], by simp, ?_, ?_⟩
      · intro i hi
        by_cases hin : i < n
        · obtain ⟨e', he'⟩ := hstep i hin
          exact ⟨e', by simp [show i + 1 ≤ n by omega, hin.le, he']⟩
        · obtain rfl : i = n := by omega
          exact ⟨e, by simp [hn]⟩
      · intro i hi
        by_cases hin : i ≤ n
        · simp [hin, hok i hin]
        · simp [hin, hb]
  · rintro ⟨c, rfl, rfl, hstep, hok⟩
    induction n with
    | zero => exact .refl (hok 0 le_rfl)
    | succ n ih =>
      obtain ⟨e, he⟩ := hstep n (by omega)
      have hprev := ih (fun i hi => hstep i (by omega)) (fun i hi => hok i (by omega))
      have hlast := hok (n + 1) le_rfl
      rw [he] at hlast ⊢
      exact .step e hprev hlast

/-- A part of a sequence of steps is a walk. -/
theorem walk_of_seq {s : ℕ → ℕ} {x : ℕ} (hx : x ≤ n)
    (hstep : ∀ i < n, ∃ e, s (i + 1) = s i + 2 ^ e) (hok : ∀ i ≤ n, ok (s i)) :
    Walk ok (s 0) x (s x) ∧ Walk ok (s x) (n - x) (s n) := by
  constructor
  · rw [walk_iff_exists_seq]
    exact ⟨s, rfl, rfl, fun i hi => hstep i (by omega), fun i hi => hok i (by omega)⟩
  · rw [walk_iff_exists_seq]
    refine ⟨fun i => s (x + i), rfl, ?_, fun i hi => hstep (x + i) (by omega),
      fun i hi => hok (x + i) (by omega)⟩
    show s (x + (n - x)) = s n
    rw [show x + (n - x) = n by omega]

/-- A walk that goes on, as one sequence. -/
theorem exists_seq_of_walks {c n₁ n₂ : ℕ} (h : Walk ok a n₁ c) (h' : Walk ok c n₂ b) :
    ∃ s : ℕ → ℕ, s 0 = a ∧ s n₁ = c ∧ s (n₁ + n₂) = b ∧
      (∀ i < n₁ + n₂, ∃ e, s (i + 1) = s i + 2 ^ e) ∧ ∀ i ≤ n₁ + n₂, ok (s i) := by
  obtain ⟨u, hu0, hun, hustep, huok⟩ := walk_iff_exists_seq.mp h
  obtain ⟨v, hv0, hvn, hvstep, hvok⟩ := walk_iff_exists_seq.mp h'
  have hleft : ∀ i ≤ n₁, (if i ≤ n₁ then u i else v (i - n₁)) = u i := fun i hi => if_pos hi
  have hright : ∀ i, (if n₁ + i ≤ n₁ then u (n₁ + i) else v (n₁ + i - n₁)) = v i := by
    intro i
    cases i with
    | zero => rw [Nat.add_zero, if_pos le_rfl, hun, hv0]
    | succ i => rw [if_neg (by omega), Nat.add_sub_cancel_left]
  refine ⟨fun i => if i ≤ n₁ then u i else v (i - n₁), ?_, ?_, ?_, ?_, ?_⟩
  · exact (hleft 0 (Nat.zero_le _)).trans hu0
  · exact (hleft n₁ le_rfl).trans hun
  · exact (hright n₂).trans hvn
  · intro i hi
    simp only
    rcases Nat.lt_or_ge i n₁ with hlt | hge
    · rw [hleft i hlt.le, hleft (i + 1) hlt]
      exact hustep i hlt
    · obtain ⟨j, rfl⟩ := Nat.exists_eq_add_of_le hge
      rw [Nat.add_assoc, hright j, hright (j + 1)]
      exact hvstep j (by omega)
  · intro i hi
    simp only
    rcases Nat.lt_or_ge i n₁ with hlt | hge
    · rw [hleft i hlt.le]
      exact huok i hlt.le
    · obtain ⟨j, rfl⟩ := Nat.exists_eq_add_of_le hge
      rw [hright j]
      exact hvok j (by omega)

/-! ## Walks without carries -/

/-- A sequence of steps from `0` that ends with as many digits as it has steps inserts one
new digit in every step. -/
theorem insert_of_card_bits {c : ℕ → ℕ} (h0 : c 0 = 0)
    (hstep : ∀ i < n, ∃ e, c (i + 1) = c i + 2 ^ e) (hcard : #(bits (c n)) = n) :
    ∀ i < n, ∃ e ∉ bits (c i), bits (c (i + 1)) = insert e (bits (c i)) := by
  have hgrow : ∀ i < n, #(bits (c (i + 1))) ≤ #(bits (c i)) + 1 := by
    intro i hi
    obtain ⟨e, he⟩ := hstep i hi
    rw [he]
    exact card_bits_add_two_pow_le (c i) e
  -- at most `i` digits after `i` steps, and not fewer, or the end would have too few
  have hle : ∀ i ≤ n, #(bits (c i)) ≤ i := by
    intro i
    induction i with
    | zero => simp [h0]
    | succ i ih =>
      intro hi
      have hprev := ih (by omega)
      have hone := hgrow i (by omega)
      omega
  have hge : ∀ d ≤ n, n ≤ #(bits (c (n - d))) + d := by
    intro d
    induction d with
    | zero =>
      intro _
      rw [Nat.sub_zero, hcard, Nat.add_zero]
    | succ d ih =>
      intro hd
      have hnext := ih (by omega)
      have hone := hgrow (n - (d + 1)) (by omega)
      rw [show n - (d + 1) + 1 = n - d by omega] at hone
      omega
  have heq : ∀ i ≤ n, #(bits (c i)) = i := by
    intro i hi
    have hupper := hle i hi
    have hlower := hge (n - i) (by omega)
    rw [show n - (n - i) = i by omega] at hlower
    omega
  intro i hi
  obtain ⟨e, he⟩ := hstep i hi
  have hnew : e ∉ bits (c i) := by
    apply notMem_bits_of_card_succ
    rw [← he, heq i hi.le, heq (i + 1) hi]
  refine ⟨e, hnew, ?_⟩
  rw [he, bits_add_two_pow_of_notMem hnew]

/-- A walk from `0` that adds as many digits as it has steps inserts the digits of
its end one by one. -/
theorem exists_order_of_walk (h : Walk ok 0 n b) (hcard : #(bits b) = n) :
    ∃ l : List ℕ, l.Nodup ∧ l.toFinset = bits b ∧
      ∀ l', l' <+: l → ok (∑ i ∈ l'.toFinset, 2 ^ i) := by
  induction h with
  | refl ha =>
    exact ⟨[], List.nodup_nil, rfl, fun l' hl' => by simpa [List.prefix_nil.mp hl'] using ha⟩
  | @step n b e h hb ih =>
    have hle := h.card_bits_le
    have hstep := card_bits_add_two_pow_le b e
    rw [bits_zero, card_empty] at hle
    -- no step before the last one can have carried either
    obtain ⟨l, hnodup, hl, hpre⟩ := ih (by omega)
    have he : e ∉ bits b := notMem_bits_of_card_succ (by omega)
    have hel : e ∉ l := by
      rw [← List.mem_toFinset, hl]
      exact he
    have hset : (l ++ [e]).toFinset = bits (b + 2 ^ e) := by
      rw [bits_add_two_pow_of_notMem he, List.toFinset_append, hl]
      ext i
      simp
    refine ⟨l ++ [e], ?_, hset, ?_⟩
    · exact hnodup.append (List.nodup_singleton e) (by simpa using hel)
    · intro l' hl'
      rcases List.prefix_concat_iff.mp hl' with rfl | hl'
      · rw [hset, sum_two_pow_bits]
        exact hb
      · exact hpre l' hl'

/-- Conversely, inserting digits one by one is a walk. -/
theorem walk_of_order {l : List ℕ} (hnodup : l.Nodup)
    (hok : ∀ l', l' <+: l → ok (∑ i ∈ l'.toFinset, 2 ^ i)) :
    Walk ok 0 l.length (∑ i ∈ l.toFinset, 2 ^ i) := by
  induction l using List.reverseRecOn with
  | nil => exact .refl (hok [] List.nil_prefix)
  | append_singleton l e ih =>
    have hel : e ∉ l.toFinset := by
      rw [List.mem_toFinset]
      intro he
      exact (List.nodup_append.mp hnodup).2.2 e he e (by simp) rfl
    have hsum : ∑ i ∈ (l ++ [e]).toFinset, 2 ^ i = ∑ i ∈ l.toFinset, 2 ^ i + 2 ^ e := by
      rw [List.toFinset_append, show [e].toFinset = {e} from rfl, union_comm,
        ← insert_eq, sum_insert hel, Nat.add_comm]
    have hlast := hok (l ++ [e]) List.prefix_rfl
    rw [hsum] at hlast ⊢
    rw [List.length_append, List.length_singleton]
    exact .step e (ih (List.nodup_append.mp hnodup).1
      fun l' hl' => hok l' (hl'.trans (List.prefix_append l [e]))) hlast

/-! ## Digits that do not matter -/

/-- The predicate does not depend on the digits in `F`. -/
def Ignores (F ok : ℕ → Prop) : Prop :=
  ∀ c c', (∀ i, ¬ F i → (i ∈ bits c ↔ i ∈ bits c')) → ok c → ok c'

/-- The numbers all of whose digits lie in `F`. -/
def Supported (F : ℕ → Prop) (c : ℕ) : Prop := ∀ i ∈ bits c, F i

theorem ignores_supported (F : ℕ → Prop) : Ignores F (Supported F) := by
  intro c c' hsame hc i hi
  by_contra hno
  exact hno (hc i ((hsame i hno).mpr hi))

/-- Half way to the next power only an ignored digit has changed, seen from one end or from the
other. -/
theorem Ignores.half_step {F : ℕ → Prop} {c e : ℕ} (hok : Ignores F ok) (he : F e) (hc : ok c)
    (hnext : ok (c + 2 ^ (e + 1))) : ok (c + 2 ^ e) := by
  by_cases hmem : e ∈ bits c
  · -- the digit is set: the half step clears it, and the other half sets it again
    have hhalf : c + 2 ^ e + 2 ^ e = c + 2 ^ (e + 1) := by
      rw [Nat.pow_succ]
      omega
    have hnot : e ∉ bits (c + 2 ^ e) := by
      rw [mem_bits, Nat.add_comm, Nat.testBit_two_pow_add_eq]
      rw [mem_bits] at hmem
      simp [hmem]
    have hins := bits_add_two_pow_of_notMem hnot
    rw [hhalf] at hins
    refine hok _ _ (fun i hi => ?_) hnext
    have hne : i ≠ e := fun hie => hi (hie ▸ he)
    rw [hins, mem_insert, or_iff_right hne]
  · refine hok _ _ (fun i hi => ?_) hc
    have hne : i ≠ e := fun hie => hi (hie ▸ he)
    rw [bits_add_two_pow_of_notMem hmem, mem_insert, or_iff_right hne]

/-! ## Walks inside a set of digits -/

/-- The shortest walk sets the digits one by one. -/
theorem walk_card_bits {F : ℕ → Prop} (hb : Supported F b) : Walk (Supported F) 0 #(bits b) b := by
  have hok : ∀ l', l' <+: b.bitIndices → Supported F (∑ i ∈ l'.toFinset, 2 ^ i) := by
    intro l' hl' i hi
    rw [bits_sum_two_pow, List.mem_toFinset] at hi
    exact hb i (List.mem_toFinset.mpr (hl'.subset hi))
  have hwalk := walk_of_order (Nat.bitIndices_nodup (n := b)) hok
  have hcard : #(bits b) = b.bitIndices.length :=
    List.toFinset_card_of_nodup Nat.bitIndices_nodup
  rw [hcard]
  have hsum : ∑ i ∈ b.bitIndices.toFinset, 2 ^ i = b := sum_two_pow_bits b
  rw [hsum] at hwalk
  exact hwalk

section Supported

variable (F : ℕ → Prop) [DecidablePred F]

/-- The number of consecutive elements of `F` just below `i`. -/
def runDepth : ℕ → ℕ
  | 0 => 0
  | i + 1 => if F i then runDepth i + 1 else 0

/-- The largest number of steps in which `c` can be built inside `F`. -/
def weight (c : ℕ) : ℕ := ∑ i ∈ bits c, 2 ^ runDepth F i

variable {F}

theorem weight_congr {F' : ℕ → Prop} [DecidablePred F'] (h : ∀ i, F i ↔ F' i) (c : ℕ) :
    weight F c = weight F' c := by
  have hdepth : ∀ i, runDepth F i = runDepth F' i := by
    intro i
    induction i with
    | zero => rfl
    | succ i ih => simp only [runDepth, h i, ih]
  unfold weight
  simp only [hdepth]

theorem two_pow_runDepth_succ {i : ℕ} (hi : F i) :
    2 ^ runDepth F (i + 1) = 2 ^ runDepth F i + 2 ^ runDepth F i := by
  rw [runDepth, if_pos hi, Nat.pow_succ]
  omega

/-- The powers along a run of `F` telescope. -/
theorem sum_runDepth_Ico {e p : ℕ} (hep : e ≤ p) (hrun : ∀ i ∈ Ico e p, F i) :
    ∑ i ∈ Ico e p, 2 ^ runDepth F i + 2 ^ runDepth F e = 2 ^ runDepth F p := by
  induction p, hep using Nat.le_induction with
  | base => simp
  | succ p hep ih =>
    have hp : F p := hrun p (mem_Ico.mpr ⟨hep, by omega⟩)
    have ih' := ih fun i hi => hrun i (mem_Ico.mpr ⟨(mem_Ico.mp hi).1, by
      have := (mem_Ico.mp hi).2
      omega⟩)
    rw [sum_Ico_succ_top hep, two_pow_runDepth_succ hp]
    omega

/-- A step inside `F` adds the weight of the power it adds. -/
theorem weight_add_two_pow {c e : ℕ} (hc : Supported F c) :
    weight F (c + 2 ^ e) = weight F c + 2 ^ runDepth F e := by
  obtain ⟨p, hep, hp, hrun, hadd⟩ := exists_bits_add_two_pow c e
  have htele := sum_runDepth_Ico (F := F) hep fun i hi => hc i (hrun hi)
  have hsplit := sum_sdiff (f := fun i => 2 ^ runDepth F i) hrun
  have hnot : p ∉ bits c \ Ico e p := fun h => hp (mem_sdiff.mp h).1
  rw [weight, hadd, sum_insert hnot, weight]
  omega

@[simp] theorem weight_zero : weight F 0 = 0 := rfl

/-- No walk inside `F` is longer than the weight it gains. -/
theorem Walk.weight_add_le (h : Walk (Supported F) a n b) : weight F a + n ≤ weight F b := by
  induction h with
  | refl ha => exact le_rfl
  | @step n b e h hb ih =>
    have hpos : 0 < 2 ^ runDepth F e := Nat.two_pow_pos _
    rw [weight_add_two_pow h.ok_right]
    omega

/-- A walk shorter than the weight it gains can be made one step longer: some step adds a
power that has its half inside `F`. -/
theorem Walk.lengthen (h : Walk (Supported F) a n b) (hlt : weight F a + n < weight F b) :
    Walk (Supported F) a (n + 1) b := by
  induction h with
  | refl ha => exact absurd hlt (Nat.lt_irrefl _)
  | @step n b e h hb ih =>
    by_cases hprev : weight F a + n < weight F b
    · exact .step e (ih hprev) hb
    · -- the last step weighs at least two, so it can be split into two halves
      rw [weight_add_two_pow h.ok_right] at hlt
      cases e with
      | zero =>
        simp only [runDepth, Nat.pow_zero] at hlt
        omega
      | succ e =>
        have he : F e := by
          by_contra hno
          rw [runDepth, if_neg hno] at hlt
          omega
        have hhalf : b + 2 ^ e + 2 ^ e = b + 2 ^ (e + 1) := by
          rw [Nat.pow_succ]
          omega
        have hmid := (ignores_supported F).half_step he h.ok_right hb
        rw [← hhalf] at hb ⊢
        exact .step e (.step e h hmid) hb

/-- **Lengths of walks inside a set of digits.** -/
theorem walk_supported_iff :
    Walk (Supported F) 0 n b ↔ Supported F b ∧ #(bits b) ≤ n ∧ n ≤ weight F b := by
  constructor
  · intro h
    have hcard := h.card_bits_le
    rw [bits_zero, card_empty] at hcard
    have hweight := h.weight_add_le
    rw [weight_zero] at hweight
    exact ⟨h.ok_right, by omega, by omega⟩
  · rintro ⟨hb, hcard, hweight⟩
    induction n, hcard using Nat.le_induction with
    | base => exact walk_card_bits hb
    | succ k hk ih =>
      apply (ih (by omega)).lengthen
      rw [weight_zero]
      omega

end Supported

/-- Without a restriction a digit weighs its power. -/
theorem weight_of_forall {F : ℕ → Prop} [DecidablePred F] (hF : ∀ i, F i) (c : ℕ) :
    weight F c = c := by
  have hdepth : ∀ i, runDepth F i = i := by
    intro i
    induction i with
    | zero => rfl
    | succ i ih => rw [runDepth, if_pos (hF i), ih]
  simp [weight, hdepth]

end CarryWalk
