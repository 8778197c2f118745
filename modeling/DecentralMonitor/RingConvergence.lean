/-
# Convergence of the ring for any schedule

The abstract view of a ring state is the family of partial tables
`tables mem`: which verdicts each monitor knows.  A `ShareVerdict` by monitor `i`
is a delivery from `i` to `succ i` (`exchange_run_share`), and so a schedule of
`ShareVerdict` calls is a run of the flooding library (`tables_run_share`).

Every block that contains all monitors moves each slot at least one hop further
around the ring (`Flooding.carries_iterate_of_blocks`); `n - 1` hops reach every
monitor (`exists_iterate_succ`).  With the no-corruption invariant of `RingRun`
this gives `ring_convergence`: the ring converges exactly when every `Evaluate` returns.
-/
import DecentralMonitor.RingRun
import DecentralMonitor.TableExchange

open Flooding TableExchange

namespace RingMonitor

variable {n : ℕ}

/-! ## Ring states as tables of known verdicts -/

/-- What each monitor knows. -/
def tables (mem : Memory n) : Tables (Fin n) ℕ Bool := fun i => (mem i).known

/-- The tables of the monitors. -/
def family (mem : Memory n) : Family n := fun i => (mem i).toVerdictTable

/-- A schedule of `ShareVerdict` calls is a sequence of deliveries to the successors. -/
theorem exchange_run_share {mem mem' : Memory n} (h : Wired mem) {sched : List (Fin n)}
    (hr : run mem (sched.map .shareVerdict) = some mem') :
    Exchange (family mem) (sched.map (fun i => (i, succ i))) (family mem') := by
  induction sched generalizing mem with
  | nil =>
    obtain rfl : mem = mem' := by simpa [run] using hr
    exact .nil
  | cons i sched ih =>
    rw [List.map_cons, ← List.singleton_append, run_append_eq_some_iff] at hr
    obtain ⟨u, hu, hru⟩ := hr
    rw [run_singleton] at hu
    have he := effect_of_step h hu
    have hwired := he.wired h
    cases he with
    | shareVerdict i keeps slot => exact .cons slot hwired.sized (ih hwired hru)

/-- A schedule of `ShareVerdict` calls floods the known verdicts. -/
theorem tables_run_share {mem mem' : Memory n} (h : Wired mem) {sched : List (Fin n)}
    (hr : run mem (sched.map .shareVerdict) = some mem') :
    tables mem' = deliverAll (tables mem) (sched.map (fun i => (i, succ i))) :=
  (exchange_run_share h hr).tables h.sized

/-! ## Hops around the ring -/

theorem succ_iterate_val (k : Fin n) (d : ℕ) : ((succ^[d] k : Fin n) : ℕ) = (k + d) % n := by
  induction d with
  | zero => exact (Nat.mod_eq_of_lt k.isLt).symm
  | succ d ih =>
    rw [Function.iterate_succ_apply']
    show ((succ^[d] k : Fin n) + 1) % n = (k + (d + 1)) % n
    rw [ih, Nat.mod_add_mod, Nat.add_assoc]

/-- Every monitor is at most `n - 1` hops away. -/
theorem exists_iterate_succ (k i : Fin n) : ∃ d ≤ n - 1, succ^[d] k = i := by
  have hk := k.isLt
  have hi := i.isLt
  by_cases hle : (k : ℕ) ≤ i
  · refine ⟨i - k, by omega, Fin.ext ?_⟩
    rw [succ_iterate_val, show (k : ℕ) + (i - k) = i by omega, Nat.mod_eq_of_lt hi]
  · refine ⟨i + n - k, by omega, Fin.ext ?_⟩
    rw [succ_iterate_val, show (k : ℕ) + (i + n - k) = i + n by omega, Nat.add_mod_right,
      Nat.mod_eq_of_lt hi]

/-- A schedule cut into at least `n - 1` blocks that each contain every monitor
carries every table to every monitor. -/
theorem spreads_of_blocks {blocks : List (List (Fin n))} (hlen : n - 1 ≤ blocks.length)
    (hb : ∀ b ∈ blocks, ∀ i, i ∈ b) :
    Spreads (blocks.flatten.map (fun i => (i, succ i))) := by
  intro k i
  obtain ⟨d, hd, rfl⟩ := exists_iterate_succ k i
  rw [List.map_flatten]
  apply carries_iterate_of_blocks succ
  · intro b hbm v
    obtain ⟨b', hb', rfl⟩ := List.mem_map.mp hbm
    exact List.mem_map.mpr ⟨v, hb b' hb' v, rfl⟩
  · rw [List.length_map]
    omega

/-! ## Convergence -/

/-- Rounds of evaluating and sharing do not change the observations. -/
theorem fixedObservations_rounds (order sched : List (Fin n)) :
    FixedObservations (order.map Action.evaluate ++ sched.map Action.shareVerdict) := by
  intro i o hmem
  simp at hmem

theorem countable_rounds_iff {obs : Fin n → List Bool} {order sched : List (Fin n)}
    (horder : ∀ k, k ∈ order) :
    Countable obs (order.map .evaluate ++ sched.map .shareVerdict) ↔
      ∀ k, (obs k).length < UInt32.size := by
  constructor
  · intro hcount k
    exact hcount k (List.mem_append_left _ (List.mem_map_of_mem (horder k)))
  · intro hall k _
    exact hall k

/-- A monitor that has evaluated has its own slot flagged. -/
theorem own_flagged {mem mem' : Memory n} (h : Wired mem) {acts : List (Action n)}
    (hr : run mem acts = some mem') {k : Fin n} (hk : Action.evaluate k ∈ acts) :
    (mem' k).Flagged k := by
  obtain ⟨pre, post, rfl⟩ := List.mem_iff_append.mp hk
  obtain ⟨u, hu, hru⟩ := run_append_eq_some_iff.mp hr
  rw [← List.singleton_append, run_append_eq_some_iff] at hru
  obtain ⟨w, hw, hrw⟩ := hru
  rw [run_singleton] at hw
  have hwired := wired_run h hu
  have he := effect_of_step hwired hw
  have hflag : (w k).Flagged k := by
    cases he with
    | evaluate k v hv keeps slot =>
      have hs := slot k k
      rw [if_pos ⟨rfl, rfl⟩] at hs
      exact congrArg Prod.snd hs
  exact flagged_run (he.wired hwired) hrw hflag

/-- The final state the sharing is for: every monitor has every flag set and every
verdict, and reports their conjunction. -/
def Converged (sub : Fin n → List String) (obs : Fin n → List Bool) (mem : Memory n) : Prop :=
  (∀ i k : Fin n, (mem i).verdictsMod[(k : ℕ)]? = some true ∧
    (mem i).verdicts[(k : ℕ)]? = some (verdictOf sub obs k)) ∧
  ∀ i, (mem i).evaluateAll = some ((List.finRange n).all (verdictOf sub obs))

/-- A run after which every flag of every monitor is set has converged. -/
theorem converged_of_flagged {sub : Fin n → List String} {obs : Fin n → List Bool}
    {evaluated : Fin n → Prop} {mem : Memory n} (h : Wired mem)
    (hu : Uncorrupted (verdictOf sub obs) evaluated mem)
    (hflag : ∀ i k : Fin n, (mem i).Flagged k) : Converged sub obs mem := by
  have hverdict : ∀ i k : Fin n, (mem i).verdicts[(k : ℕ)]? = some (verdictOf sub obs k) :=
    fun i k => (hu.of_flagged (hflag i k)).2
  refine ⟨fun i k => ⟨hflag i k, hverdict i k⟩, fun i => ?_⟩
  obtain ⟨b, hb, hiff⟩ := evaluateAll_spec h i
  rw [hb]
  congr 1
  rw [Bool.eq_iff_iff, hiff, List.all_eq_true]
  constructor
  · intro hall k _
    exact Option.some.inj ((hverdict i k).symm.trans (hall k))
  · intro hall k
    rw [hverdict i k, hall k (List.mem_finRange k)]

/-- The schedule of `main`: `for c < n, for d < n, monitors[d]->ShareVerdict()`. -/
def mainSchedule (n : ℕ) : List (Fin n) := (List.range n).flatMap (fun _ => List.finRange n)

/-- The schedule of `main` is cut into `n` blocks. -/
theorem mainSchedule_eq_flatten (n : ℕ) :
    mainSchedule n = (List.replicate n (List.finRange n)).flatten := by
  rw [mainSchedule, List.flatMap_def, List.map_const', List.length_range]

/-- The rounds of `main` carry every table to every monitor. -/
theorem spreads_mainSchedule (n : ℕ) :
    Spreads ((mainSchedule n).map (fun i => (i, succ i))) := by
  rw [mainSchedule_eq_flatten]
  apply spreads_of_blocks
  · rw [List.length_replicate]
    omega
  · intro b hb i
    rw [List.eq_of_mem_replicate hb]
    exact List.mem_finRange i

/-- From a run in which every monitor has evaluated, a schedule that spreads every
table converges. -/
theorem converged_of_spreads {sub : Fin n → List String} {obs : Fin n → List Bool}
    (hvalid : ValidSubformulas sub obs) {order sched : List (Fin n)}
    (horder : ∀ k, k ∈ order) (hspread : Spreads (sched.map (fun i => (i, succ i))))
    {mem : Memory n}
    (hr : run (setup sub obs) (order.map .evaluate ++ sched.map .shareVerdict) = some mem) :
    Converged sub obs mem := by
  obtain ⟨hkeep, -, hu⟩ := run_uncorrupted hvalid (fixedObservations_rounds order sched) hr
  refine converged_of_flagged hkeep.wired hu fun i k => ?_
  -- monitor `k` flags its own slot, and the sharing carries it to monitor `i`
  obtain ⟨u, hevals, hshares⟩ := run_append_eq_some_iff.mp hr
  have hwired : Wired u := wired_run (wired_setup sub obs) hevals
  have hown : (u k).Flagged k :=
    own_flagged (wired_setup sub obs) hevals (List.mem_map_of_mem (horder k))
  have hsome : (tables mem i k).isSome := by
    rw [tables_run_share hwired hshares, isSome_deliverAll_iff]
    exact ⟨k, hspread k i, (VerdictTable.isSome_known_iff (hwired.sized k)).mpr hown⟩
  exact (VerdictTable.isSome_known_iff (hkeep.wired.sized i)).mp hsome

/-- Such a run returns, and so converges, where `unsigned` counts the observations of every
monitor. -/
theorem exists_converged_iff {sub : Fin n → List String} {obs : Fin n → List Bool}
    (hvalid : ValidSubformulas sub obs) {order sched : List (Fin n)}
    (horder : ∀ k, k ∈ order) (hspread : Spreads (sched.map (fun i => (i, succ i)))) :
    (∃ mem, run (setup sub obs) (order.map .evaluate ++ sched.map .shareVerdict) = some mem ∧
      Converged sub obs mem) ↔ ∀ k, (obs k).length < UInt32.size := by
  have hreturns := exists_run_iff hvalid (fixedObservations_rounds order sched)
  rw [countable_rounds_iff horder] at hreturns
  rw [← hreturns]
  refine exists_congr fun mem => and_iff_left_of_imp fun hr => ?_
  exact converged_of_spreads hvalid horder hspread hr

/-- The operators of the monitors of `main`, the first of which is to evaluate `2 ^ 32`
observations. -/
def longSub : Fin 3 → List String :=
  Function.update mainSub 0 (List.replicate (UInt32.size - 1) "and")

/-- Its observations. -/
def longObs : Fin 3 → List Bool :=
  Function.update mainObs 0 (List.replicate UInt32.size true)

theorem validSubformulas_long : ValidSubformulas longSub longObs := by
  intro k
  unfold longSub longObs
  by_cases hk : k = 0
  · subst hk
    rw [Function.update_self, Function.update_self, List.length_replicate,
      List.length_replicate]
    exact ⟨rfl, by decide⟩
  · rw [Function.update_of_ne hk, Function.update_of_ne hk]
    exact validSubformulas_main k

/-- The ring of `main` with a list that `unsigned` cannot count does not converge: the
`Evaluate` of its first monitor does not return. -/
theorem long_not_converged : ValidSubformulas longSub longObs ∧
    [0, 1, 2].Perm (List.finRange 3) ∧
    3 - 1 ≤ [[0, 1, 2], [0, 1, 2]].length ∧
    (∀ b ∈ [[0, 1, 2], [0, 1, 2]], ∀ i : Fin 3, i ∈ b) ∧
    ¬ ∃ mem, run (setup longSub longObs) ([0, 1, 2].map .evaluate ++
      [[0, 1, 2], [0, 1, 2]].flatten.map .shareVerdict) = some mem ∧
        Converged longSub longObs mem := by
  refine ⟨validSubformulas_long, by decide, by decide, by decide, ?_⟩
  rintro ⟨mem, hr, -⟩
  have hcount := (exists_run_iff validSubformulas_long
    (fixedObservations_rounds [0, 1, 2] _)).mp ⟨mem, hr⟩
  have hzero : (longObs 0).length < UInt32.size :=
    (countable_rounds_iff (by decide)).mp hcount 0
  rw [longObs, Function.update_self, List.length_replicate] at hzero
  exact lt_irrefl _ hzero

/-- **Ring convergence for any schedule.**  Let every monitor evaluate once, in any
order, and then let any sequence of `ShareVerdict` calls be executed that is cut
into at least `n - 1` consecutive blocks each containing every monitor.  Then every
monitor has every verdict, with its flag, and reports the conjunction of all of
them, exactly when `unsigned` counts the observations of every monitor.  The rounds of
`main` are one instance. -/
theorem ring_convergence {sub : Fin n → List String} {obs : Fin n → List Bool}
    (hvalid : ValidSubformulas sub obs) (order : List (Fin n))
    (horder : order.Perm (List.finRange n)) :
    (∀ blocks : List (List (Fin n)), n - 1 ≤ blocks.length → (∀ b ∈ blocks, ∀ i, i ∈ b) →
      ((∃ mem, run (setup sub obs) (order.map .evaluate ++ blocks.flatten.map .shareVerdict) =
        some mem ∧ Converged sub obs mem) ↔ ∀ k, (obs k).length < UInt32.size)) ∧
    ((∃ mem, run (setup sub obs) (order.map .evaluate ++ (mainSchedule n).map .shareVerdict) =
      some mem ∧ Converged sub obs mem) ↔ ∀ k, (obs k).length < UInt32.size) := by
  have hmem : ∀ k, k ∈ order := fun k => horder.mem_iff.mpr (List.mem_finRange k)
  constructor
  · intro blocks hlen hb
    exact exists_converged_iff hvalid hmem (spreads_of_blocks hlen hb)
  · exact exists_converged_iff hvalid hmem (spreads_mainSchedule n)

/-- The ring of `main`, its monitors evaluating in another order. -/
theorem ring_convergence_main :
    ∃ mem, run (setup mainSub mainObs)
      ([2, 0, 1].map .evaluate ++ [0, 1, 0, 2, 2, 1, 0].map .shareVerdict) = some mem ∧
      Converged mainSub mainObs mem :=
  ((ring_convergence validSubformulas_main [2, 0, 1] (by decide)).1
    [[0, 1, 0, 2], [2, 1, 0]] (by decide) (by decide)).mpr (by decide)

end RingMonitor
