/-
# What any interleaving of calls leaves

The methods of the ring's monitors may be called in any order and number.  What the tables hold
after a run depends on the order of the calls alone: `ring_interleaving` says that the verdict
of `k` is at monitor `i` exactly when among the calls of the run, in this order, are an `Evaluate`
of `k` and a `ShareVerdict` of each monitor on the way from `k` to `i`.

So the sharing cannot be done with fewer than `2 * (n - 1)` calls, whatever their order, and the
first `2 * (n - 1)` of the `n * n` calls of `main` do it (`ring_shortest`).
-/
import DecentralMonitor.FloodingSchedule
import DecentralMonitor.RingAgreement
import DecentralMonitor.RingPasses

open Flooding TableExchange

namespace RingMonitor

variable {n : ℕ}

/-! ## The way from one monitor to another -/

/-- The number of hops from monitor `k` to monitor `i`. -/
def distance (k i : Fin n) : ℕ := (n - k + i) % n

/-- The monitors that hand the table of `k` on until `i` has it. -/
def wayTo (k i : Fin n) : List (Fin n) := hops succ k (distance k i)

theorem succ_iterate_distance (k i : Fin n) : succ^[distance k i] k = i := by
  have hk := k.isLt
  apply Fin.ext
  rw [succ_iterate_val, distance, Nat.add_mod_mod, show (k : ℕ) + (n - k + i) = i + n by omega,
    Nat.add_mod_right, Nat.mod_eq_of_lt i.isLt]

/-- No number of hops below the distance arrives. -/
theorem distance_le {k i : Fin n} {d : ℕ} (h : succ^[d] k = i) : distance k i ≤ d := by
  have hk := k.isLt
  rw [distance, ← h, succ_iterate_val, Nat.add_mod_mod,
    show n - (k : ℕ) + (k + d) = d + n by omega, Nat.add_mod_right]
  exact Nat.mod_le d n

/-- A schedule carries the table of `k` to `i` exactly when it serves the monitors on the
way, in their order. -/
theorem carries_ring_iff {sched : List (Fin n)} {k i : Fin n} :
    Carries (sched.map fun i => (i, succ i)) k i ↔ (wayTo k i).Sublist sched := by
  rw [carries_map_iff succ]
  constructor
  · rintro ⟨d, hd, hsub⟩
    exact (hops_sublist succ k (distance_le hd)).trans hsub
  · intro hsub
    exact ⟨distance k i, succ_iterate_distance k i, hsub⟩

/-! ## What any interleaving leaves -/

/-- The calls that take the verdict of `k` over `d` hops: `k` evaluates, and then one monitor after
the other shares. -/
def callsOver (k : Fin n) (d : ℕ) : List (Action n) :=
  .evaluate k :: (hops succ k d).map .shareVerdict

/-- The calls that take the verdict of `k` to `i`. -/
def callsTo (k i : Fin n) : List (Action n) := callsOver k (distance k i)

theorem callsTo_sublist_iff {acts : List (Action n)} {k i : Fin n} :
    (callsTo k i).Sublist acts ↔ ∃ d, succ^[d] k = i ∧ (callsOver k d).Sublist acts := by
  constructor
  · intro hsub
    exact ⟨distance k i, succ_iterate_distance k i, hsub⟩
  · rintro ⟨d, hd, hsub⟩
    refine List.Sublist.trans ?_ hsub
    exact ((hops_sublist succ k (distance_le hd)).map _).cons_cons _

/-- A list with a last element in a list with a last element. -/
theorem concat_sublist_concat_iff {α : Type*} {l r : List α} {x y : α} :
    (l ++ [x]).Sublist (r ++ [y]) ↔ (l ++ [x]).Sublist r ∨ (y = x ∧ l.Sublist r) := by
  constructor
  · intro h
    obtain ⟨l₁, l₂, hl, hr, hlast⟩ := List.sublist_append_iff.mp h
    rcases List.sublist_singleton.mp hlast with rfl | rfl
    · rw [hl, List.append_nil]
      exact Or.inl hr
    · obtain ⟨rfl, hxy⟩ := List.append_inj' hl rfl
      exact Or.inr ⟨(List.singleton_inj.mp hxy).symm, hr⟩
  · rintro (h | ⟨rfl, h⟩)
    · exact h.trans (List.sublist_append_left r [y])
    · exact h.append (List.Sublist.refl _)

/-- Which of these calls a further call completes. -/
theorem callsOver_sublist_concat_iff {acts : List (Action n)} {a : Action n} {k i : Fin n} :
    (∃ d, succ^[d] k = i ∧ (callsOver k d).Sublist (acts ++ [a])) ↔
      (∃ d, succ^[d] k = i ∧ (callsOver k d).Sublist acts) ∨ (a = .evaluate i ∧ k = i) ∨
        ∃ j, a = .shareVerdict j ∧ i = succ j ∧
          ∃ d, succ^[d] k = j ∧ (callsOver k d).Sublist acts := by
  have hzero : callsOver k 0 = [] ++ [.evaluate k] := rfl
  have hsucc : ∀ d, callsOver k (d + 1) = callsOver k d ++ [.shareVerdict (succ^[d] k)] := by
    intro d
    unfold callsOver
    rw [hops_concat, List.map_append, List.map_singleton, List.cons_append]
  constructor
  · rintro ⟨d, hd, hsub⟩
    cases d with
    | zero =>
      rw [hzero, concat_sublist_concat_iff] at hsub
      obtain rfl : k = i := hd
      rcases hsub with hsub | ⟨rfl, -⟩
      · exact Or.inl ⟨0, rfl, hsub⟩
      · exact Or.inr (Or.inl ⟨rfl, rfl⟩)
    | succ d =>
      rw [hsucc, concat_sublist_concat_iff, ← hsucc] at hsub
      rcases hsub with hsub | ⟨rfl, hsub⟩
      · exact Or.inl ⟨d + 1, hd, hsub⟩
      · rw [Function.iterate_succ_apply'] at hd
        exact Or.inr (Or.inr ⟨_, rfl, hd.symm, d, rfl, hsub⟩)
  · rintro (⟨d, hd, hsub⟩ | ⟨rfl, rfl⟩ | ⟨j, rfl, rfl, d, rfl, hsub⟩)
    · exact ⟨d, hd, hsub.trans (List.sublist_append_left acts [a])⟩
    · refine ⟨0, rfl, ?_⟩
      rw [hzero, concat_sublist_concat_iff]
      exact Or.inr ⟨rfl, List.nil_sublist acts⟩
    · refine ⟨d + 1, Function.iterate_succ_apply' .., ?_⟩
      rw [hsucc, concat_sublist_concat_iff]
      exact Or.inr ⟨rfl, hsub⟩

/-- **Step lemma.**  Which flags a call sets. -/
theorem Effect.flagged_iff {mem mem' : Memory n} {a : Action n} (he : Effect mem mem' a)
    (i k : Fin n) : (mem' i).Flagged k ↔ (mem i).Flagged k ∨ (a = .evaluate i ∧ k = i) ∨
      ∃ j, a = .shareVerdict j ∧ i = succ j ∧ (mem j).Flagged k := by
  constructor
  · intro hf
    cases he with
    | evaluate j v hv keeps slot =>
      have hs := slot i k
      split at hs
      case isTrue hown =>
        obtain ⟨rfl, hk⟩ := hown
        exact Or.inr (Or.inl ⟨rfl, Fin.ext hk⟩)
      case isFalse hown => exact Or.inl ((VerdictTable.flagged_congr hs).mp hf)
    | shareVerdict j keeps slot =>
      have hs := slot i k
      split at hs
      case isTrue hsent => exact Or.inr (Or.inr ⟨j, rfl, hsent.1, hsent.2⟩)
      case isFalse hsent => exact Or.inl ((VerdictTable.flagged_congr hs).mp hf)
    | evaluateAll j same => exact Or.inl (same ▸ hf)
    | observe j obs wired slot =>
      exact Or.inl ((VerdictTable.flagged_congr (slot i k)).mp hf)
  · rintro (hf | ⟨rfl, rfl⟩ | ⟨j, rfl, rfl, hf⟩)
    · exact he.flagged hf
    · cases he with
      | evaluate j v hv keeps slot =>
        have hs := slot k k
        rw [if_pos ⟨rfl, rfl⟩] at hs
        exact congrArg Prod.snd hs
    · cases he with
      | shareVerdict j keeps slot =>
        have hs := slot (succ j) k
        rw [if_pos ⟨rfl, hf⟩] at hs
        exact (VerdictTable.flagged_congr hs).mpr hf

/-- **Run lemma.**  Monitor `i` has the slot of `k` flagged exactly when the calls that take the
verdict of `k` to `i` are among the calls of the run, in this order. -/
theorem flagged_run_iff {sub : Fin n → List String} {obs : Fin n → List Bool}
    {acts : List (Action n)} {mem : Memory n} (hr : run (setup sub obs) acts = some mem)
    (i k : Fin n) : (mem i).Flagged k ↔ (callsTo k i).Sublist acts := by
  rw [callsTo_sublist_iff]
  induction acts using List.reverseRecOn generalizing mem i with
  | nil =>
    obtain rfl : setup sub obs = mem := Option.some.inj hr
    constructor
    · intro hf
      exact absurd hf (VerdictTable.not_flagged_of_slot (slot_setup sub obs i k))
    · rintro ⟨d, -, hsub⟩
      exact absurd (List.eq_nil_of_sublist_nil hsub) (List.cons_ne_nil _ _)
  | append_singleton acts a ih =>
    obtain ⟨u, hu, hlast⟩ := run_append_eq_some_iff.mp hr
    rw [run_singleton] at hlast
    have he := effect_of_step (wired_run (wired_setup sub obs) hu) hlast
    rw [he.flagged_iff, callsOver_sublist_concat_iff, ih hu]
    refine or_congr_right (or_congr_right (exists_congr fun j => ?_))
    rw [ih hu]

/-- The owner of a verdict that came to `i` has evaluated. -/
theorem evaluate_mem_of_callsTo_sublist {acts : List (Action n)} {k i : Fin n}
    (h : (callsTo k i).Sublist acts) : Action.evaluate k ∈ acts :=
  h.subset List.mem_cons_self

/-- **What any interleaving leaves.**  Let the methods of the monitors be called in any order and
any number of times, with fixed observations.  The run returns exactly when `unsigned` counts the
observations of every monitor that evaluates, and then

* the slot of `k` at monitor `i` holds the verdict of `k` if `k` has evaluated and afterwards the
  monitors on the way from `k` to `i` have shared one after the other, and is as it was at the
  beginning if not;
* `Evaluate_All` at monitor `i` returns true exactly when all verdicts have come to `i` in this
  way and all are true. -/
theorem ring_interleaving {sub : Fin n → List String} {obs : Fin n → List Bool}
    (hvalid : ValidSubformulas sub obs) (acts : List (Action n))
    (hfixed : FixedObservations acts) :
    ((∃ mem, run (setup sub obs) acts = some mem) ↔
      ∀ k, Action.evaluate k ∈ acts → (obs k).length < UInt32.size) ∧
    ∀ mem, run (setup sub obs) acts = some mem →
      (∀ i k : Fin n, (mem i).slot k = if (callsTo k i).Sublist acts
        then ((setup sub obs k).evaluateResult, some true) else (some false, some false)) ∧
      ∀ i, ∃ b, (mem i).evaluateAll = some b ∧
        (b = true ↔ ∀ k : Fin n, (callsTo k i).Sublist acts ∧
          (setup sub obs k).evaluateResult = some true) := by
  refine ⟨exists_run_iff hvalid hfixed, fun mem hr => ?_⟩
  obtain ⟨hkeep, hcount, hu⟩ := run_uncorrupted hvalid hfixed hr
  have hresult : ∀ i k, (callsTo k i).Sublist acts →
      (setup sub obs k).evaluateResult = some (verdictOf sub obs k) := fun i k hsub =>
    evaluateResult_setup hvalid (hcount k (evaluate_mem_of_callsTo_sublist hsub))
  refine ⟨fun i k => ?_, fun i => ?_⟩
  · split
    case isTrue hsub =>
      have hf : (mem i).Flagged k := (flagged_run_iff hr i k).mpr hsub
      rw [hresult i k hsub]
      exact Prod.ext (hu.of_flagged hf).2 hf
    case isFalse hsub => exact hu.of_not_flagged (mt (flagged_run_iff hr i k).mp hsub)
  · obtain ⟨b, hb, hiff⟩ := hu.evaluateAll_iff hkeep.wired i
    refine ⟨b, hb, hiff.trans ?_⟩
    unfold Complete
    rw [← forall_and]
    refine forall_congr' fun k => ?_
    rw [flagged_run_iff hr]
    refine and_congr_right fun hsub => ?_
    rw [hresult i k hsub, Option.some_inj]

/-- Monitor 0 hears of monitor 1 when monitor 2 shares after monitor 1, and not before. -/
theorem ring_interleaving_main :
    ∃ mem, run (setup mainSub mainObs)
        [.evaluate 1, .shareVerdict 2, .shareVerdict 1, .evaluate 0] = some mem ∧
      (mem 2).slot 1 = (some true, some true) ∧ (mem 0).slot 1 = (some false, some false) := by
  obtain ⟨hreturns, hleaves⟩ := ring_interleaving validSubformulas_main
    [.evaluate 1, .shareVerdict 2, .shareVerdict 1, .evaluate 0]
    (fun i o h => by simp at h)
  obtain ⟨mem, hr⟩ := hreturns.mpr (fun k _ => (by decide : ∀ k, (mainObs k).length < _) k)
  obtain ⟨hslot, -⟩ := hleaves mem hr
  refine ⟨mem, hr, ?_, ?_⟩
  · have hway : (callsTo (1 : Fin 3) 2).Sublist
        [.evaluate 1, .shareVerdict 2, .shareVerdict 1, .evaluate 0] := by decide
    exact (hslot 2 1).trans (if_pos hway)
  · have hway : ¬ (callsTo (1 : Fin 3) 0).Sublist
        [.evaluate 1, .shareVerdict 2, .shareVerdict 1, .evaluate 0] := by decide
    exact (hslot 0 1).trans (if_neg hway)

/-! ## The shortest schedules -/

/-- A longer schedule carries all that its beginning does. -/
theorem spreads_take_mono {es : List (Fin n × Fin n)} {m m' : ℕ} (hle : m ≤ m')
    (h : Spreads (es.take m)) : Spreads (es.take m') := by
  intro k i
  rw [← List.take_append_drop m (es.take m'), carries_append, List.take_take, min_eq_left hle]
  exact ⟨i, h k i, carries_refl _ i⟩

/-- One pass, and a second one without its last two calls. -/
theorem spreads_short_passes (n : ℕ) :
    Spreads ((inOrderPass n ++ (inOrderPass n).take (n - 2)).map fun i => (i, succ i)) := by
  intro k i
  have hk := k.isLt
  rw [List.map_append, carries_append]
  by_cases hle : k ≤ i
  · exact ⟨i, carries_pass_iff.mpr (Or.inl hle), carries_refl _ i⟩
  · -- the first pass takes the table to monitor 0, which hands it on up to `i`
    have hi : (i : ℕ) < k := Nat.lt_of_not_le hle
    obtain ⟨zero, hzero⟩ : ∃ zero : Fin n, (zero : ℕ) = 0 := ⟨⟨0, by omega⟩, rfl⟩
    have hend : succ^[(i : ℕ)] zero = i := by
      apply Fin.ext
      rw [succ_iterate_val, hzero, Nat.zero_add, Nat.mod_eq_of_lt i.isLt]
    refine ⟨zero, carries_pass_iff.mpr (Or.inr hzero), ?_⟩
    have htake : ((inOrderPass n).take (n - 2)).take i = (inOrderPass n).take (zero + i) := by
      rw [List.take_take, min_eq_left (by omega), hzero, Nat.zero_add]
    rw [← List.take_append_drop i ((inOrderPass n).take (n - 2)), htake, List.map_append,
      carries_append]
    have hgo := carries_take_pass zero i (by omega)
    rw [hend] at hgo
    exact ⟨i, hgo, carries_refl _ i⟩

/-- They are the first calls of `main`. -/
theorem take_mainSchedule (n : ℕ) (hn : 2 ≤ n) :
    (mainSchedule n).take (2 * (n - 1)) = inOrderPass n ++ (inOrderPass n).take (n - 2) := by
  obtain ⟨m, rfl⟩ : ∃ m, n = m + 2 := ⟨n - 2, by omega⟩
  have hlen : (inOrderPass (m + 2)).length = m + 2 := List.length_finRange
  rw [mainSchedule_eq_flatten, ← inOrderPass, List.replicate_succ, List.replicate_succ,
    List.flatten_cons, List.flatten_cons, List.take_append, List.take_append, hlen,
    List.take_of_length_le (by omega), show 2 * (m + 2 - 1) - (m + 2) = m by omega,
    show m - (m + 2) = 0 by omega, List.take_zero, List.append_nil, Nat.add_sub_cancel]

/-- The first `2 * (n - 1)` calls of `main` carry every table to every monitor. -/
theorem spreads_take_mainSchedule (n : ℕ) :
    Spreads (((mainSchedule n).take (2 * (n - 1))).map fun i => (i, succ i)) := by
  rcases Nat.lt_or_ge n 2 with hsmall | hn
  · intro k i
    obtain rfl : k = i := by
      apply Fin.ext
      omega
    exact carries_refl _ k
  · rw [take_mainSchedule n hn]
    exact spreads_short_passes n

/-- The monitors that share during a run, one for each call. -/
def sharers (acts : List (Action n)) : List (Fin n) :=
  acts.filterMap fun
    | .shareVerdict i => some i
    | _ => none

theorem sharers_append (acts acts' : List (Action n)) :
    sharers (acts ++ acts') = sharers acts ++ sharers acts' :=
  List.filterMap_append

theorem sharers_map_evaluate (order : List (Fin n)) : sharers (order.map .evaluate) = [] := by
  unfold sharers
  rw [List.filterMap_map]
  exact List.filterMap_eq_nil_iff.mpr fun _ _ => rfl

theorem sharers_map_shareVerdict (sched : List (Fin n)) :
    sharers (sched.map .shareVerdict) = sched := by
  unfold sharers
  rw [List.filterMap_map]
  exact List.filterMap_some

/-- The calls that take a verdict to `i` carry the table there. -/
theorem carries_of_callsTo_sublist {acts : List (Action n)} {k i : Fin n}
    (h : (callsTo k i).Sublist acts) :
    Carries ((sharers acts).map fun i => (i, succ i)) k i := by
  have hway : (sharers (callsTo k i)).Sublist (sharers acts) := h.filterMap _
  have hcalls : callsTo k i = [k].map .evaluate ++ (wayTo k i).map .shareVerdict := rfl
  rw [hcalls, sharers_append, sharers_map_evaluate, sharers_map_shareVerdict,
    List.nil_append] at hway
  exact carries_ring_iff.mpr hway

/-- **The shortest runs.**

* Whatever methods are called in whatever order: a run after which all flags of all monitors are
  set has at least `2 * (n - 1)` calls of `ShareVerdict`.
* Once every monitor has evaluated, on lists that `unsigned` can count, the first `m` of the
  `n * n` calls of `main` set all flags exactly when `2 * (n - 1) ≤ m`, and the calls after these
  change nothing. -/
theorem ring_shortest {sub : Fin n → List String} {obs : Fin n → List Bool}
    (hvalid : ValidSubformulas sub obs) :
    (∀ acts mem, run (setup sub obs) acts = some mem → (∀ i, (mem i).Complete) →
      2 * (n - 1) ≤ (sharers acts).length) ∧
    ((∀ k, (obs k).length < UInt32.size) →
      ∀ order : List (Fin n), (∀ k, k ∈ order) → ∀ m : ℕ, ∃ mem,
        run (setup sub obs)
          (order.map .evaluate ++ ((mainSchedule n).take m).map .shareVerdict) = some mem ∧
        ((∀ i, (mem i).Complete) ↔ 2 * (n - 1) ≤ m) ∧
        (2 * (n - 1) ≤ m → run (setup sub obs)
          (order.map .evaluate ++ (mainSchedule n).map .shareVerdict) = some mem)) := by
  have hlower : ∀ acts mem, run (setup sub obs) acts = some mem → (∀ i, (mem i).Complete) →
      2 * (n - 1) ≤ (sharers acts).length := by
    intro acts mem hr hall
    have hspread : Spreads ((sharers acts).map fun i => (i, succ i)) := fun k i =>
      carries_of_callsTo_sublist ((flagged_run_iff hr i k).mp (hall i k))
    have hcount := two_mul_card_sub_one_le_length hspread
    rwa [Fintype.card_fin, List.length_map] at hcount
  refine ⟨hlower, fun hcount order horder m => ?_⟩
  have hfixed := fixedObservations_rounds order ((mainSchedule n).take m)
  obtain ⟨mem, hr⟩ := (exists_run_iff hvalid hfixed).mpr ((countable_rounds_iff horder).mpr hcount)
  obtain ⟨hkeep, -, hu⟩ := run_uncorrupted hvalid hfixed hr
  have hcomplete : 2 * (n - 1) ≤ m → ∀ i, (mem i).Complete := by
    intro hm i k
    have hspread : Spreads (((mainSchedule n).take m).map fun i => (i, succ i)) := by
      rw [List.map_take]
      apply spreads_take_mono hm
      rw [← List.map_take]
      exact spreads_take_mainSchedule n
    have hway : (wayTo k i).Sublist ((mainSchedule n).take m) :=
      carries_ring_iff.mp (hspread k i)
    have hevaluate : [Action.evaluate k].Sublist (order.map .evaluate) :=
      List.singleton_sublist.mpr (List.mem_map_of_mem (horder k))
    exact (flagged_run_iff hr i k).mpr (hevaluate.append (hway.map Action.shareVerdict))
  refine ⟨mem, hr, ⟨fun hall => ?_, hcomplete⟩, fun hm => ?_⟩
  · have hshares := hlower _ mem hr hall
    rw [sharers_append, sharers_map_evaluate, sharers_map_shareVerdict, List.nil_append] at hshares
    exact hshares.trans (List.length_take_le m _)
  · -- all tables are complete, and there is nothing left to copy
    have hall : AllKnow mem mem := fun i k => Prod.ext
      ((hu.of_flagged (hcomplete hm i k)).2.trans (hu.of_flagged (hcomplete hm k k)).2.symm)
      (hcomplete hm i k)
    rw [← List.take_append_drop m (mainSchedule n), List.map_append, ← List.append_assoc,
      run_append_eq_some_iff]
    exact ⟨mem, hr, hall.run_share_eq hkeep.wired _⟩

/-- In the ring of `main` four of the nine calls are enough, and three are not. -/
theorem ring_shortest_main :
    (∃ mem, run (setup mainSub mainObs)
        ([0, 1, 2].map .evaluate ++ ((mainSchedule 3).take 4).map .shareVerdict) = some mem ∧
      ∀ i, (mem i).Complete) ∧
    ∃ mem, run (setup mainSub mainObs)
        ([0, 1, 2].map .evaluate ++ ((mainSchedule 3).take 3).map .shareVerdict) = some mem ∧
      ¬ ∀ i, (mem i).Complete := by
  obtain ⟨-, hfirst⟩ := ring_shortest validSubformulas_main
  obtain ⟨four, hfour, hcomplete, -⟩ := hfirst (by decide) [0, 1, 2] (by decide) 4
  obtain ⟨three, hthree, hnot, -⟩ := hfirst (by decide) [0, 1, 2] (by decide) 3
  refine ⟨⟨four, hfour, hcomplete.mpr (by decide)⟩, three, hthree, fun hall => ?_⟩
  exact absurd (hnot.mp hall) (by decide)

end RingMonitor
