/-
# Numbering from 1 without gaps

A general library for two ways in which a program numbers things.

* The entries of rows of different lengths are numbered row after row with one running
  counter: `number len i k` is the number of entry `k` of row `i`.  The entries of the
  first `c` rows get the numbers `1, …, offset len c`, each once (`bijOn_number`).
* A collection is counted, and then read under the names `name 1, name 2, …`: these are
  the names of the collection exactly when it is `Numbered` (`numbered_iff_perm`).
-/
import Mathlib.Algebra.BigOperators.Group.List.Basic
import Mathlib.Algebra.GroupWithZero.Nat
import Mathlib.Data.List.Nodup
import Mathlib.Data.Set.Function
import Mathlib.Order.Interval.Set.Defs

namespace Numbering

/-! ## Rows with one running counter -/

section Rows

variable (len : ℕ → ℕ)

/-- The number of entries of the rows before row `i`. -/
def offset (i : ℕ) : ℕ := ((List.range i).map len).sum

/-- The number of entry `k` of row `i`. -/
def number (i k : ℕ) : ℕ := 1 + offset len i + k

/-- The entries of the first `c` rows. -/
def entries (c : ℕ) : Set (ℕ × ℕ) := {p | p.1 < c ∧ p.2 < len p.1}

variable {len} {c i j k l : ℕ}

theorem offset_succ : offset len (i + 1) = offset len i + len i := by
  unfold offset
  rw [List.sum_range_succ]

/-- The rows take consecutive blocks of numbers. -/
theorem offset_add_le (h : i < k) : offset len i + len i ≤ offset len k := by
  induction k, h using Nat.le_induction with
  | base => rw [offset_succ]
  | succ k _ ih =>
    rw [offset_succ]
    omega

theorem number_mem (hi : i < c) (hj : j < len i) :
    number len i j ∈ Set.Icc 1 (offset len c) := by
  have hblock : offset len i + len i ≤ offset len c := offset_add_le hi
  unfold number
  constructor <;> omega

/-- The number of an entry tells its row and its place there. -/
theorem number_inj (hj : j < len i) (hl : l < len k) (h : number len i j = number len k l) :
    i = k ∧ j = l := by
  unfold number at h
  rcases Nat.lt_trichotomy i k with hik | rfl | hki
  · have hblock : offset len i + len i ≤ offset len k := offset_add_le hik
    omega
  · omega
  · have hblock : offset len k + len k ≤ offset len i := offset_add_le hki
    omega

/-- Every number up to the number of entries is given to one. -/
theorem exists_number {a : ℕ} (ha : a ∈ Set.Icc 1 (offset len c)) :
    ∃ i < c, ∃ k < len i, number len i k = a := by
  obtain ⟨hpos, hle⟩ := ha
  induction c with
  | zero =>
    rw [show offset len 0 = 0 from rfl] at hle
    omega
  | succ c ih =>
    rcases Nat.lt_or_ge (offset len c) a with hlast | hbefore
    · -- the number belongs to the last row
      rw [offset_succ] at hle
      refine ⟨c, Nat.lt_succ_self c, a - 1 - offset len c, by omega, ?_⟩
      unfold number
      omega
    · obtain ⟨i, hi, k, hk, hnum⟩ := ih hbefore
      exact ⟨i, hi.trans (Nat.lt_succ_self c), k, hk, hnum⟩

/-- **The numbers of the entries** are `1, …, offset len c`, each given once. -/
theorem bijOn_number (len : ℕ → ℕ) (c : ℕ) :
    Set.BijOn (fun p : ℕ × ℕ => number len p.1 p.2) (entries len c)
      (Set.Icc 1 (offset len c)) := by
  refine ⟨?_, ?_, ?_⟩
  · rintro ⟨i, k⟩ ⟨hi, hk⟩
    exact number_mem hi hk
  · rintro ⟨i, k⟩ ⟨-, hk⟩ ⟨j, l⟩ ⟨-, hl⟩ h
    obtain ⟨rfl, rfl⟩ := number_inj hk hl h
    rfl
  · intro a ha
    obtain ⟨i, hi, k, hk, hnum⟩ := exists_number ha
    exact ⟨(i, k), ⟨hi, hk⟩, hnum⟩

/-- A list built entry by entry has no repetition when the part of an entry has none and
its members tell the number of their entry. -/
theorem nodup_flatMap_entries {β : Type*} (key : β → ℕ) {f : ℕ → ℕ → List β}
    (hf : ∀ i < c, ∀ j < len i, (f i j).Nodup)
    (hkey : ∀ i < c, ∀ j < len i, ∀ x ∈ f i j, key x = number len i j) :
    ((List.range c).flatMap fun i => (List.range (len i)).flatMap fun j => f i j).Nodup := by
  have hrow : ∀ i < c, ((List.range (len i)).flatMap fun j => f i j).Nodup := by
    intro i hi
    rw [List.nodup_flatMap]
    refine ⟨fun j hj => hf i hi j (List.mem_range.mp hj), ?_⟩
    refine List.nodup_range.imp_of_mem fun {j l} hj hl hne x hxj hxl => hne ?_
    rw [List.mem_range] at hj hl
    have hnum := (hkey i hi j hj x hxj).symm.trans (hkey i hi l hl x hxl)
    exact (number_inj hj hl hnum).2
  rw [List.nodup_flatMap]
  refine ⟨fun i hi => hrow i (List.mem_range.mp hi), ?_⟩
  refine List.nodup_range.imp_of_mem fun {i k} hi hk hne x hxi hxk => hne ?_
  rw [List.mem_range] at hi hk
  obtain ⟨j, hj, hxj⟩ := List.mem_flatMap.mp hxi
  obtain ⟨l, hl, hxl⟩ := List.mem_flatMap.mp hxk
  rw [List.mem_range] at hj hl
  have hnum := (hkey i hi j hj x hxj).symm.trans (hkey k hk l hl x hxl)
  exact (number_inj hj hl hnum).1

end Rows

/-! ## Names with a number -/

section Names

variable {α : Type*} {name : ℕ → α} {l : List α}

/-- Everything in the list has a name with a number, and no number is left out below
another one. -/
structure Numbered (name : ℕ → α) (l : List α) : Prop where
  named : ∀ a ∈ l, ∃ p, 1 ≤ p ∧ a = name p
  noGap : ∀ p, 1 ≤ p → name (p + 1) ∈ l → name p ∈ l

theorem Numbered.mem_of_le (h : Numbered name l) {p q : ℕ} (hq : 1 ≤ q) (hqp : q ≤ p)
    (hp : name p ∈ l) : name q ∈ l := by
  induction p, hqp using Nat.le_induction with
  | base => exact hp
  | succ p hqp ih => exact ih (h.noGap p (hq.trans hqp) hp)

theorem nodup_names (hname : Function.Injective name) (k : ℕ) :
    ((List.range' 1 k).map name).Nodup :=
  List.Nodup.map hname List.nodup_range'

/-- A number in the list is at most the length of the list, which has all numbers
below. -/
theorem Numbered.le_length (h : Numbered name l) (hname : Function.Injective name) {p : ℕ}
    (hp : name p ∈ l) : p ≤ l.length := by
  have hsub : (List.range' 1 p).map name ⊆ l := by
    intro a ha
    obtain ⟨q, hq, rfl⟩ := List.mem_map.mp ha
    rw [List.mem_range'_1] at hq
    exact h.mem_of_le hq.1 (by omega) hp
  have hlen := (List.subperm_of_subset (nodup_names hname p) hsub).length_le
  rwa [List.length_map, List.length_range'] at hlen

/-- **A list is `Numbered`** exactly when its members are the names with the numbers from
1 to its length. -/
theorem numbered_iff_perm (hname : Function.Injective name) (hl : l.Nodup) :
    Numbered name l ↔ l.Perm ((List.range' 1 l.length).map name) := by
  constructor
  · intro h
    have hsub : l ⊆ (List.range' 1 l.length).map name := by
      intro a ha
      obtain ⟨p, hp, rfl⟩ := h.named a ha
      have hle := h.le_length hname ha
      exact List.mem_map_of_mem (List.mem_range'_1.mpr ⟨hp, by omega⟩)
    refine (List.subperm_of_subset hl hsub).perm_of_length_le ?_
    rw [List.length_map, List.length_range']
  · intro h
    constructor
    · intro a ha
      obtain ⟨p, hp, rfl⟩ := List.mem_map.mp (h.mem_iff.mp ha)
      exact ⟨p, (List.mem_range'_1.mp hp).1, rfl⟩
    · intro p hp hmem
      obtain ⟨q, hq, heq⟩ := List.mem_map.mp (h.mem_iff.mp hmem)
      obtain rfl := hname heq
      rw [List.mem_range'_1] at hq
      exact h.mem_iff.mpr (List.mem_map_of_mem (List.mem_range'_1.mpr ⟨hp, by omega⟩))

/-- Names without repetition that all occur in a list of their number are its members. -/
theorem perm_of_names_subset (hname : Function.Injective name)
    (hsub : (List.range' 1 l.length).map name ⊆ l) :
    l.Perm ((List.range' 1 l.length).map name) := by
  refine ((List.subperm_of_subset (nodup_names hname _) hsub).perm_of_length_le ?_).symm
  rw [List.length_map, List.length_range']

end Names

end Numbering
