/-
# Evaluating again: which verdict the owner keeps

A monitor may evaluate again after its observations changed.  Verdicts are passed on
hop by hop, flags are never cleared and `GetVerdict` adopts whatever arrives, also
at the receiver's own index: a copy of an earlier result that is still travelling
may come back to its owner (`own_verdict_overwritten`).

`NoStaleCopy mem k v` says that no other monitor holds a flagged copy of slot `k`
with a verdict other than `v`.  It is the exact condition, at the moment of an
`Evaluate` by `k` with result `v`, under which no later run can lose that result
(`own_verdict`).  It holds trivially when `k` has not evaluated before, which is how
`main` of `monitor.cpp` uses the ring.
-/
import DecentralMonitor.RingConvergence

open Flooding

namespace RingMonitor

variable {n : ℕ}

/-! ## Where a verdict comes from -/

/-- The verdict that monitor `j` holds for monitor `k` is the result of a call of
`Evaluate` by `k` in the run `acts`. -/
def Provenance (init : Memory n) (acts : List (Action n)) (mem : Memory n) (j k : Fin n) : Prop :=
  ∃ pre post mem', acts = pre ++ .evaluate k :: post ∧ run init pre = some mem' ∧
    (mem j).verdicts[(k : ℕ)]? = (mem' k).evaluateResult

theorem Provenance.snoc {init : Memory n} {acts : List (Action n)} {mem mem' : Memory n}
    {j j' k : Fin n} (a : Action n) (h : Provenance init acts mem j k)
    (hs : (mem' j').slot k = (mem j).slot k) : Provenance init (acts ++ [a]) mem' j' k := by
  obtain ⟨pre, post, u, hacts, hpre, hv⟩ := h
  refine ⟨pre, post ++ [a], u, ?_, hpre, (congrArg Prod.fst hs).trans hv⟩
  rw [hacts, List.append_assoc, List.cons_append]

/-- Every flagged slot holds a result its owner computed in the run. -/
theorem provenance_run {sub : Fin n → List String} {obs : Fin n → List Bool}
    {acts : List (Action n)} {mem : Memory n} (hr : run (setup sub obs) acts = some mem) :
    ∀ j k : Fin n, (mem j).Flagged k → Provenance (setup sub obs) acts mem j k := by
  induction acts using List.reverseRecOn generalizing mem with
  | nil =>
    intro j k hf
    obtain rfl : setup sub obs = mem := by simpa [run] using hr
    exact absurd hf (VerdictTable.not_flagged_of_slot (slot_setup sub obs j k))
  | append_singleton acts a ih =>
    intro j k hf
    obtain ⟨u, hu, hua⟩ := run_append_eq_some_iff.mp hr
    rw [run_singleton] at hua
    have hkeep : ∀ j' : Fin n, (mem j).slot k = (u j').slot k →
        Provenance (setup sub obs) (acts ++ [a]) mem j k := fun j' hs =>
      (ih hu j' k ((VerdictTable.flagged_congr hs).mp hf)).snoc a hs
    cases effect_of_step (wired_run (wired_setup sub obs) hu) hua with
    | evaluate i v hv keeps slot =>
      have hs := slot j k
      split at hs
      next hjk =>
        obtain rfl : k = i := Fin.ext hjk.2
        exact ⟨acts, [], u, rfl, hu, (congrArg Prod.fst hs).trans hv.symm⟩
      next => exact hkeep j hs
    | shareVerdict i keeps slot =>
      have hs := slot j k
      split at hs
      next => exact hkeep i hs
      next => exact hkeep j hs
    | evaluateAll i same => exact hkeep j (by rw [same])
    | observe i obs' wired slot => exact hkeep j (slot j k)

/-! ## The condition and its invariant -/

/-- No monitor other than `k` holds a flagged copy of slot `k` with a verdict other
than `v`. -/
def NoStaleCopy (mem : Memory n) (k : Fin n) (v : Bool) : Prop :=
  ∀ j, j ≠ k → (mem j).Flagged k → (mem j).verdicts[(k : ℕ)]? = some v

/-- Every flagged copy of slot `k`, the owner's included, carries `v`. -/
def AllCopies (mem : Memory n) (k : Fin n) (v : Bool) : Prop :=
  ∀ j, (mem j).Flagged k → (mem j).slot k = (some v, some true)

/-- An `Evaluate` with result `v` and no stale copy makes all copies carry `v`. -/
theorem Effect.allCopies_of_evaluate {mem mem' : Memory n} {k : Fin n} {v : Bool}
    (he : Effect mem mem' (.evaluate k)) (hv : (mem k).evaluateResult = some v)
    (hsafe : NoStaleCopy mem k v) : AllCopies mem' k v := by
  cases he with
  | evaluate k w hw keeps slot =>
    obtain rfl : w = v := Option.some.inj (hw.symm.trans hv)
    intro j hf
    have hs := slot j k
    by_cases hj : j = k
    · rw [if_pos ⟨hj, rfl⟩] at hs
      exact hs
    · rw [if_neg (fun hc => hj hc.1)] at hs
      have hf' : (mem j).Flagged k := (VerdictTable.flagged_congr hs).mp hf
      rw [hs]
      exact Prod.ext (hsafe j hj hf') hf'

/-- Calls other than an `Evaluate` by `k` keep all copies as they are. -/
theorem Effect.allCopies {mem mem' : Memory n} {a : Action n} {k : Fin n} {v : Bool}
    (he : Effect mem mem' a) (ha : a ≠ .evaluate k) (h : AllCopies mem k v) :
    AllCopies mem' k v := by
  intro j hf
  have hkeep : ∀ j' : Fin n, (mem' j).slot k = (mem j').slot k →
      (mem' j).slot k = (some v, some true) := fun j' hs =>
    hs.trans (h j' ((VerdictTable.flagged_congr hs).mp hf))
  cases he with
  | evaluate i w hw keeps slot =>
    have hne : ¬ (j = i ∧ (k : ℕ) = i) := fun hc => ha (by rw [Fin.ext hc.2])
    have hs := slot j k
    rw [if_neg hne] at hs
    exact hkeep j hs
  | shareVerdict i keeps slot =>
    have hs := slot j k
    split at hs
    next => exact hkeep i hs
    next => exact hkeep j hs
  | evaluateAll i same => exact hkeep j (by rw [same])
  | observe i obs wired slot => exact hkeep j (slot j k)

/-- A run without another `Evaluate` by `k` keeps all copies as they are. -/
theorem allCopies_run {mem mem' : Memory n} (h : Wired mem) {acts : List (Action n)} {k : Fin n}
    (hk : Action.evaluate k ∉ acts) {v : Bool} (hc : AllCopies mem k v)
    (hr : run mem acts = some mem') : AllCopies mem' k v := by
  have hinv : Wired mem' ∧ AllCopies mem' k v :=
    FallibleLoop.of_foldlM_eq_some (P := fun u => Wired u ∧ AllCopies u k v)
      (fun a ha u w hu hs =>
        have he := effect_of_step hu.1 hs
        ⟨he.wired hu.1, he.allCopies (fun hak => hk (hak ▸ ha)) hu.2⟩) ⟨h, hc⟩ hr
  exact hinv.2

/-! ## A stale copy can always come back -/

/-- Any schedule of `ShareVerdict` calls can be executed. -/
theorem exists_run_share {mem : Memory n} (h : Wired mem) (sched : List (Fin n)) :
    ∃ mem', run mem (sched.map .shareVerdict) = some mem' := by
  obtain ⟨mem', hr, -⟩ : ∃ mem', run mem (sched.map .shareVerdict) = some mem' ∧ Wired mem' := by
    apply FallibleLoop.exists_foldlM (P := Wired) _ h
    intro a ha u hu
    obtain ⟨i, -, rfl⟩ := List.mem_map.mp ha
    obtain ⟨u', hu', hkeep, -⟩ := shareVerdict_spec hu i
    exact ⟨u', hu', hkeep.wired⟩
  exact ⟨mem', hr⟩

/-- What `j` knows about slot `k` can be passed on, hop by hop, to any monitor. -/
theorem exists_share_known {mem : Memory n} (h : Wired mem) {j k : Fin n} {c : ℕ} {v : Bool}
    (hv : (mem j).known c = some v) :
    ∃ (sched : List (Fin n)) (mem' : Memory n),
      run mem (sched.map .shareVerdict) = some mem' ∧ (mem' k).known c = some v := by
  obtain ⟨d, -, rfl⟩ := exists_iterate_succ j k
  obtain ⟨mem', hr⟩ := exists_run_share h ((List.range d).map (fun t => succ^[t] j))
  refine ⟨_, mem', hr, ?_⟩
  have htables := tables_run_share h hr
  have hpath : ((List.range d).map (fun t => succ^[t] j)).map (fun i => (i, succ i)) =
      path succ j d := by
    rw [path, List.map_map]
    refine List.map_congr_left fun t _ => ?_
    rw [Function.comp_apply, Function.iterate_succ_apply']
  rw [hpath] at htables
  have hmem : v ∈ deliverAll (tables mem) (path succ j d) (succ^[d] j) c :=
    mem_deliverAll_path succ (S := tables mem) hv d
  rw [← htables] at hmem
  exact hmem

/-- A stale copy survives the `Evaluate` of its owner and can come back to it. -/
theorem Effect.exists_share_stale {mem mem' : Memory n} (h : Wired mem) {k : Fin n} {v : Bool}
    (he : Effect mem mem' (.evaluate k)) (hstale : ¬ NoStaleCopy mem k v) :
    ∃ (sched : List (Fin n)) (mem'' : Memory n),
      run mem' (sched.map .shareVerdict) = some mem'' ∧
        (mem'' k).verdicts[(k : ℕ)]? = some (!v) := by
  obtain ⟨j, hj, hf, hne⟩ : ∃ j, j ≠ k ∧ (mem j).Flagged k ∧
      (mem j).verdicts[(k : ℕ)]? ≠ some v := by
    by_contra hno
    exact hstale fun j hj hf => by_contra fun hne => hno ⟨j, hj, hf, hne⟩
  obtain ⟨x, hx⟩ := Option.isSome_iff_exists.mp
    ((VerdictTable.isSome_known_iff (h.sized j)).mpr hf)
  have hxv : x = !v := by
    have hverdict : (mem j).verdicts[(k : ℕ)]? = some x :=
      congrArg Prod.fst (VerdictTable.known_eq_some_iff.mp hx)
    rw [hverdict] at hne
    cases x <;> cases v <;> simp_all
  -- the `Evaluate` writes the slot of `k` at `k` only
  have hstill : (mem' j).known k = some (!v) := by
    cases he with
    | evaluate k w hw keeps slot =>
      have hs := slot j k
      rw [if_neg (fun hc => hj hc.1)] at hs
      rw [VerdictTable.known_congr hs, hx, hxv]
  obtain ⟨sched, mem'', hr, hknown⟩ := exists_share_known (k := k) (he.wired h) hstill
  exact ⟨sched, mem'', hr, congrArg Prod.fst (VerdictTable.known_eq_some_iff.mp hknown)⟩

/-! ## The own verdict -/

/-- A run that goes on after a call goes on from the state the call leaves. -/
theorem run_append_cons_iff {mem mem₁ mem₂ mem' : Memory n} {pre post : List (Action n)}
    {a : Action n} (hpre : run mem pre = some mem₁) (hstep : step mem₁ a = some mem₂) :
    run mem (pre ++ a :: post) = some mem' ↔ run mem₂ post = some mem' := by
  rw [← List.singleton_append, run_append_eq_some_iff]
  constructor
  · rintro ⟨u, hu, hr⟩
    obtain rfl : u = mem₁ := Option.some.inj (hu.symm.trans hpre)
    obtain ⟨w, hw, hrw⟩ := run_append_eq_some_iff.mp hr
    rw [run_singleton] at hw
    obtain rfl : w = mem₂ := Option.some.inj (hw.symm.trans hstep)
    exact hrw
  · intro hr
    exact ⟨mem₁, hpre, run_append_eq_some_iff.mpr
      ⟨mem₂, (run_singleton mem₁ _).trans hstep, hr⟩⟩

/-- A stale copy comes back: monitor 0 of a ring of two evaluates to false and
shares; its observations change, it evaluates to true; monitor 1 shares, and
monitor 0 is back at false. -/
theorem own_verdict_overwritten :
    ∃ mem₁ mem,
      run (setup (n := 2) (fun _ => ["and"]) (fun _ => [false, true]))
        [.evaluate 0, .shareVerdict 0, .observe 0 [true, true]] = some mem₁ ∧
      run mem₁ [.evaluate 0, .shareVerdict 1] = some mem ∧
      (mem₁ 0).evaluateResult = some true ∧ (mem 0).verdicts[0]? = some false :=
  ⟨_, _, rfl, rfl, rfl, rfl⟩

/-- **The own verdict.**  Let monitor `k` evaluate with result `v` after the run
`pre`, and let `post` be any later run.

* The verdict `k` holds at its own index is always the result of one of its own
  calls of `Evaluate`.
* If no other monitor held a stale copy at that call, it is `v` as long as `k` does
  not evaluate again.
* If one did, some sequence of `ShareVerdict` calls replaces `v` by the stale
  verdict.
* A monitor that evaluates for the first time meets no stale copy. -/
theorem own_verdict (sub : Fin n → List String) (obs : Fin n → List Bool)
    (pre : List (Action n)) {mem₁ : Memory n} (hpre : run (setup sub obs) pre = some mem₁)
    {k : Fin n} {v : Bool} (hv : (mem₁ k).evaluateResult = some v) :
    (∀ post mem, run (setup sub obs) (pre ++ .evaluate k :: post) = some mem →
      Provenance (setup sub obs) (pre ++ .evaluate k :: post) mem k k) ∧
    (NoStaleCopy mem₁ k v → ∀ post mem, Action.evaluate k ∉ post →
      run (setup sub obs) (pre ++ .evaluate k :: post) = some mem →
      (mem k).verdicts[(k : ℕ)]? = some v) ∧
    (¬ NoStaleCopy mem₁ k v → ∃ (sched : List (Fin n)) (mem : Memory n),
      run (setup sub obs) (pre ++ .evaluate k :: sched.map .shareVerdict) = some mem ∧
      (mem k).verdicts[(k : ℕ)]? = some (!v)) ∧
    (Action.evaluate k ∉ pre → NoStaleCopy mem₁ k v) := by
  have hwired₁ : Wired mem₁ := wired_run (wired_setup sub obs) hpre
  obtain ⟨mem₂, hstep⟩ : ∃ mem₂, step mem₁ (.evaluate k) = some mem₂ := by
    obtain ⟨m', hm', -, -⟩ := evaluate_spec hwired₁ k hv
    exact ⟨_, by rw [step, hm']; rfl⟩
  have he : Effect mem₁ mem₂ (.evaluate k) := effect_of_step hwired₁ hstep
  refine ⟨?_, ?_, ?_, ?_⟩
  · intro post mem hr
    apply provenance_run hr
    exact own_flagged (wired_setup sub obs) hr (by simp)
  · intro hsafe post mem hk hr
    rw [run_append_cons_iff hpre hstep] at hr
    have hall := allCopies_run (he.wired hwired₁) hk (he.allCopies_of_evaluate hv hsafe) hr
    have hown : (mem₂ k).Flagged k := own_flagged hwired₁
      ((run_singleton mem₁ _).trans hstep) List.mem_cons_self
    exact congrArg Prod.fst (hall k (flagged_run (he.wired hwired₁) hr hown))
  · intro hstale
    obtain ⟨sched, mem, hr, hverdict⟩ := he.exists_share_stale hwired₁ hstale
    exact ⟨sched, mem, (run_append_cons_iff hpre hstep).mpr hr, hverdict⟩
  · -- a flagged copy would come from an earlier `Evaluate`
    intro hk j hj hf
    obtain ⟨pre', post', -, hpre', -, -⟩ := provenance_run hpre j k hf
    exact absurd (hpre' ▸ List.mem_append_right pre' List.mem_cons_self) hk

/-- In the ring of `main`, which evaluates once, monitor 0 meets no stale copy. -/
theorem own_verdict_main :
    ∃ mem₁, run (setup mainSub mainObs) [.shareVerdict 2, .evaluate 1] = some mem₁ ∧
      NoStaleCopy mem₁ 0 true :=
  ⟨_, rfl, (own_verdict mainSub mainObs [.shareVerdict 2, .evaluate 1]
    (k := 0) (v := true) rfl rfl).2.2.2 (by decide)⟩

end RingMonitor
