/-
# Runs of the ring: no verdict is corrupted

The system `main` of `monitor.cpp` sets up: `n` ring monitors that share one
network vector listing them by id.  Their methods may be called in any order; a
run is the list of calls (`Action`), and `run` executes it.

* `effect_of_step` is the single inversion lemma: everything a call can do to the
  state, for each kind of call.  Every invariant below is derived from it.
* `Uncorrupted` is the invariant of runs with fixed observations: each slot of each
  monitor is either untouched (verdict and flag false) or carries the flag and the
  value the slot's owner computes, and then the owner has evaluated.
* `run_uncorrupted` is the run lemma, and `no_corruption` what an observer of any
  reachable state may conclude from it.
* `exists_run_iff` says which runs return: those in which `Evaluate` is called only by
  monitors whose observations an `unsigned` can count.
-/
import Mathlib.Data.Fin.VecNotation
import Mathlib.Data.List.Induction
import DecentralMonitor.RingMonitor

open FallibleLoop

namespace RingMonitor

variable {n : ℕ}

/-! ## Calls and runs -/

/-- A call of a method on monitor `i`, or a change of its observations. -/
inductive Action (n : ℕ) where
  | evaluate (i : Fin n)
  | shareVerdict (i : Fin n)
  | evaluateAll (i : Fin n)
  | observe (i : Fin n) (observations : List Bool)
  deriving DecidableEq, Repr

/-- Execute one call; `none` when it runs into undefined behaviour. -/
def step (mem : Memory n) : Action n → Option (Memory n)
  | .evaluate i => (mem i).evaluate.map (Function.update mem i)
  | .shareVerdict i => shareVerdict i mem
  | .evaluateAll i => (mem i).evaluateAll.map (fun _ => mem)
  | .observe i obs => some (Function.update mem i { mem i with observations := obs })

/-- Execute a run. -/
def run (mem : Memory n) (acts : List (Action n)) : Option (Memory n) :=
  acts.foldlM step mem

/-- The monitors as `main` sets them up: monitor `i` has id `i`, the operators
`sub i` and the observations `obs i`, and all monitors get the same network. -/
def setup (sub : Fin n → List String) (obs : Fin n → List Bool) : Memory n := fun i =>
  ({ new i (sub i) n with observations := obs i } : RingMonitor n).addNetwork (List.finRange n)

theorem wired_setup (sub : Fin n → List String) (obs : Fin n → List Bool) :
    Wired (setup sub obs) where
  id := fun _ => rfl
  numMonitors := fun _ => rfl
  network := fun _ => rfl
  sized := fun _ => VerdictTable.sized_fresh n

theorem slot_setup (sub : Fin n → List String) (obs : Fin n → List Bool) (i k : Fin n) :
    (setup sub obs i).slot k = (some false, some false) := by
  simp [setup, addNetwork, new, VerdictTable.slot, VerdictTable.fresh]

theorem run_append_eq_some_iff {mem mem' : Memory n} {acts acts' : List (Action n)} :
    run mem (acts ++ acts') = some mem' ↔
      ∃ u, run mem acts = some u ∧ run u acts' = some mem' :=
  foldlM_append_eq_some_iff

theorem run_singleton (mem : Memory n) (a : Action n) : run mem [a] = step mem a :=
  foldlM_singleton step mem a

/-! ## What a call can do -/

/-- Everything a call can do to a ring, by kind of call. -/
inductive Effect (mem mem' : Memory n) : Action n → Prop
  | evaluate (i : Fin n) (v : Bool) (hv : (mem i).evaluateResult = some v)
      (keeps : Keeps mem mem')
      (slot : ∀ j c, (mem' j).slot c =
        if j = i ∧ c = i then (some v, some true) else (mem j).slot c) :
      Effect mem mem' (.evaluate i)
  | shareVerdict (i : Fin n) (keeps : Keeps mem mem')
      (slot : ∀ j c, (mem' j).slot c =
        if j = succ i ∧ (mem i).Flagged c then (mem i).slot c else (mem j).slot c) :
      Effect mem mem' (.shareVerdict i)
  | evaluateAll (i : Fin n) (same : mem' = mem) : Effect mem mem' (.evaluateAll i)
  | observe (i : Fin n) (obs : List Bool) (wired : Wired mem')
      (slot : ∀ j c, (mem' j).slot c = (mem j).slot c) : Effect mem mem' (.observe i obs)

/-- **Inversion.**  A call that returns has one of these effects. -/
theorem effect_of_step {mem mem' : Memory n} (h : Wired mem) {a : Action n}
    (hs : step mem a = some mem') : Effect mem mem' a := by
  cases a with
  | evaluate i =>
    obtain ⟨m', hm', rfl⟩ := Option.map_eq_some_iff.mp hs
    obtain ⟨v, hv⟩ : ∃ v, (mem i).evaluateResult = some v := by
      cases hres : (mem i).evaluateResult with
      | none => simp [evaluate, hres] at hm'
      | some v => exact ⟨v, rfl⟩
    obtain ⟨m'', hm'', hkeep, hslot⟩ := evaluate_spec h i hv
    obtain rfl : m'' = m' := Option.some.inj (hm''.symm.trans hm')
    exact .evaluate i v hv hkeep hslot
  | shareVerdict i =>
    obtain ⟨u, hu, hkeep, hslot⟩ := shareVerdict_spec h i
    obtain rfl : u = mem' := Option.some.inj (hu.symm.trans hs)
    exact .shareVerdict i hkeep hslot
  | evaluateAll i =>
    obtain ⟨b, -, rfl⟩ := Option.map_eq_some_iff.mp hs
    exact .evaluateAll i rfl
  | observe i obs =>
    obtain rfl := Option.some.inj hs
    have hcase : ∀ j, (Function.update mem i { mem i with observations := obs } j)
        = if j = i then { mem j with observations := obs } else mem j := by
      intro j
      by_cases hj : j = i
      · subst hj
        simp
      · simp [hj]
    refine .observe i obs ⟨?_, ?_, ?_, ?_⟩ fun j c => ?_
    · intro j; rw [hcase]; split <;> exact h.id j
    · intro j; rw [hcase]; split <;> exact h.numMonitors j
    · intro j; rw [hcase]; split <;> exact h.network j
    · intro j; rw [hcase]; split <;> exact h.sized j
    · rw [hcase]; split <;> rfl

theorem Effect.wired {mem mem' : Memory n} {a : Action n} (he : Effect mem mem' a)
    (h : Wired mem) : Wired mem' := by
  cases he with
  | evaluate i v hv keeps slot => exact keeps.wired
  | shareVerdict i keeps slot => exact keeps.wired
  | evaluateAll i same => exact same ▸ h
  | observe i obs wired slot => exact wired

/-- Every state of a run from a ring is a ring. -/
theorem wired_run {mem mem' : Memory n} (h : Wired mem) {acts : List (Action n)}
    (hr : run mem acts = some mem') : Wired mem' :=
  of_foldlM_eq_some (P := Wired) (fun _ _ _ _ hw hs => (effect_of_step hw hs).wired hw) h hr

/-- A call never clears a flag. -/
theorem Effect.flagged {mem mem' : Memory n} {a : Action n} (he : Effect mem mem' a)
    {i : Fin n} {c : ℕ} (hf : (mem i).Flagged c) : (mem' i).Flagged c := by
  cases he with
  | evaluate j v hv keeps slot =>
    have hs := slot i c
    split at hs
    · exact congrArg Prod.snd hs
    · exact (VerdictTable.flagged_congr hs).mpr hf
  | shareVerdict j keeps slot =>
    have hs := slot i c
    split at hs
    next hj => exact (VerdictTable.flagged_congr hs).mpr hj.2
    next => exact (VerdictTable.flagged_congr hs).mpr hf
  | evaluateAll j same => exact same ▸ hf
  | observe j obs wired slot => exact (VerdictTable.flagged_congr (slot i c)).mpr hf

/-- A run never clears a flag. -/
theorem flagged_run {mem mem' : Memory n} (h : Wired mem) {acts : List (Action n)}
    (hr : run mem acts = some mem') {i : Fin n} {c : ℕ} (hf : (mem i).Flagged c) :
    (mem' i).Flagged c := by
  have hinv : Wired mem' ∧ (mem' i).Flagged c :=
    of_foldlM_eq_some (P := fun u => Wired u ∧ (u i).Flagged c)
      (fun _ _ u v hu hs =>
        have he := effect_of_step hu.1 hs
        ⟨he.wired hu.1, he.flagged hu.2⟩) ⟨h, hf⟩ hr
  exact hinv.2

/-! ## The invariant of runs with fixed observations -/

/-- Each monitor has one operator fewer than observations, and at least one. -/
def ValidSubformulas (sub : Fin n → List String) (obs : Fin n → List Bool) : Prop :=
  ∀ k, (sub k).length = (obs k).length - 1 ∧ 1 ≤ (sub k).length

/-- The observations are fixed during the run. -/
def FixedObservations (acts : List (Action n)) : Prop :=
  ∀ i obs, Action.observe i obs ∉ acts

/-- The verdict of monitor `k`: the left-to-right fold of its observations with its
operators. -/
def verdictOf (sub : Fin n → List String) (obs : Fin n → List Bool) (k : Fin n) : Bool :=
  foldVerdict (obs k) (sub k)

theorem evaluateResult_setup {sub : Fin n → List String} {obs : Fin n → List Bool}
    (hvalid : ValidSubformulas sub obs) {k : Fin n} (hcount : (obs k).length < UInt32.size) :
    (setup sub obs k).evaluateResult = some (verdictOf sub obs k) :=
  evaluateResult_eq (hvalid k).1 (hvalid k).2 hcount

/-- Every slot is untouched, or carries the verdict of its owner, which has
evaluated. -/
def Uncorrupted (val : Fin n → Bool) (evaluated : Fin n → Prop) (mem : Memory n) : Prop :=
  ∀ i k : Fin n, (mem i).slot k = (some false, some false) ∨
    (evaluated k ∧ (mem i).slot k = (some (val k), some true))

/-- A call preserves the invariant; an `Evaluate` adds its caller to those that have
evaluated. -/
theorem Effect.uncorrupted {val : Fin n → Bool} {evaluated evaluated' : Fin n → Prop}
    {mem mem' : Memory n} {a : Action n} (he : Effect mem mem' a)
    (hmono : ∀ k, evaluated k → evaluated' k)
    (hnew : ∀ i, a = .evaluate i → evaluated' i ∧ (mem i).evaluateResult = some (val i))
    (hu : Uncorrupted val evaluated mem) : Uncorrupted val evaluated' mem' := by
  have hkeep : ∀ i k : Fin n, (mem' i).slot k = (mem i).slot k →
      (mem' i).slot k = (some false, some false) ∨
        (evaluated' k ∧ (mem' i).slot k = (some (val k), some true)) := by
    intro i k hs
    rw [hs]
    exact (hu i k).imp (fun h => h) (fun h => ⟨hmono k h.1, h.2⟩)
  intro i k
  cases he with
  | evaluate j v hv keeps slot =>
    have hs := slot i k
    split at hs
    next hik =>
      obtain rfl : k = j := Fin.ext hik.2
      obtain ⟨hk, hval⟩ := hnew k rfl
      obtain rfl : v = val k := Option.some.inj (hv.symm.trans hval)
      exact Or.inr ⟨hk, hs⟩
    next => exact hkeep i k hs
  | shareVerdict j keeps slot =>
    have hs := slot i k
    split at hs
    next hik =>
      -- a flagged slot of the sender carries the owner's verdict
      rcases hu j k with hzero | ⟨hk, hval⟩
      · exact absurd hik.2 (VerdictTable.not_flagged_of_slot hzero)
      · exact Or.inr ⟨hmono k hk, hs.trans hval⟩
    next => exact hkeep i k hs
  | evaluateAll j same => exact hkeep i k (by rw [same])
  | observe j obs wired slot => exact hkeep i k (slot i k)

/-- In a ring every call returns, an `Evaluate` where its result is defined. -/
theorem exists_step {mem : Memory n} (h : Wired mem) {a : Action n}
    (hres : ∀ i, a = .evaluate i → ∃ v, (mem i).evaluateResult = some v) :
    ∃ mem', step mem a = some mem' := by
  cases a with
  | evaluate i =>
    obtain ⟨v, hv⟩ := hres i rfl
    obtain ⟨m', hm', -, -⟩ := evaluate_spec h i hv
    exact ⟨Function.update mem i m', by rw [step, hm']; rfl⟩
  | shareVerdict i =>
    obtain ⟨mem', hmem', -, -⟩ := shareVerdict_spec h i
    exact ⟨mem', hmem'⟩
  | evaluateAll i =>
    obtain ⟨b, hb, -⟩ := evaluateAll_spec h i
    exact ⟨mem, by rw [step, hb]; rfl⟩
  | observe i obs => exact ⟨_, rfl⟩

/-- With fixed observations a call leaves the setups unchanged. -/
theorem Effect.keeps {mem mem' : Memory n} {a : Action n} (he : Effect mem mem' a)
    (h : Wired mem) (ha : ∀ i obs, a ≠ .observe i obs) : Keeps mem mem' := by
  cases he with
  | evaluate i v hv keeps slot => exact keeps
  | shareVerdict i keeps slot => exact keeps
  | evaluateAll i same =>
    rw [same]
    exact Keeps.refl h
  | observe i obs wired slot => exact absurd rfl (ha i obs)

theorem FixedObservations.of_append {acts acts' : List (Action n)}
    (h : FixedObservations (acts ++ acts')) : FixedObservations acts :=
  fun i obs hmem => h i obs (List.mem_append_left acts' hmem)

/-- In a run `unsigned` counts the observations of every monitor that evaluates. -/
def Countable (obs : Fin n → List Bool) (acts : List (Action n)) : Prop :=
  ∀ k, Action.evaluate k ∈ acts → (obs k).length < UInt32.size

theorem countable_concat_iff {obs : Fin n → List Bool} {acts : List (Action n)}
    {a : Action n} : Countable obs (acts ++ [a]) ↔
      Countable obs acts ∧ ∀ k, a = .evaluate k → (obs k).length < UInt32.size := by
  unfold Countable
  simp only [List.mem_append, List.mem_singleton]
  constructor
  · intro h
    exact ⟨fun k hk => h k (Or.inl hk), fun k hk => h k (Or.inr hk.symm)⟩
  · rintro ⟨hacts, ha⟩ k (hk | hk)
    · exact hacts k hk
    · exact ha k hk.symm

/-- **The run lemma.**  A run with fixed observations that returns keeps the setups, leaves
no slot corrupted, and called `Evaluate` on lists that `unsigned` can count. -/
theorem run_uncorrupted {sub : Fin n → List String} {obs : Fin n → List Bool}
    (hvalid : ValidSubformulas sub obs) {acts : List (Action n)}
    (hfixed : FixedObservations acts) {mem : Memory n}
    (hr : run (setup sub obs) acts = some mem) :
    Keeps (setup sub obs) mem ∧ Countable obs acts ∧
      Uncorrupted (verdictOf sub obs) (fun k => Action.evaluate k ∈ acts) mem := by
  induction acts using List.reverseRecOn generalizing mem with
  | nil =>
    obtain rfl : setup sub obs = mem := Option.some.inj hr
    exact ⟨Keeps.refl (wired_setup sub obs), fun k hk => absurd hk List.not_mem_nil,
      fun i k => Or.inl (slot_setup sub obs i k)⟩
  | append_singleton acts a ih =>
    obtain ⟨u, hu, hstep⟩ := run_append_eq_some_iff.mp hr
    rw [run_singleton] at hstep
    obtain ⟨hkeep, hcount, huncorr⟩ := ih hfixed.of_append hu
    have he : Effect u mem a := effect_of_step hkeep.wired hstep
    have ha : ∀ i o, a ≠ .observe i o := by
      rintro i o rfl
      exact hfixed i o (List.mem_append_right acts List.mem_cons_self)
    -- an `Evaluate` that returned has counted its observations
    have hnew : ∀ k, a = .evaluate k → (obs k).length < UInt32.size := by
      rintro k rfl
      cases he with
      | evaluate k v hv keeps slot =>
        rw [(hkeep.setup k).evaluateResult_eq] at hv
        exact length_lt_of_evaluateResult hv
    refine ⟨hkeep.trans (he.keeps hkeep.wired ha), countable_concat_iff.mpr ⟨hcount, hnew⟩,
      he.uncorrupted (fun k hk => List.mem_append_left [a] hk) ?_ huncorr⟩
    intro i hi
    refine ⟨List.mem_append_right acts (List.mem_singleton.mpr hi.symm), ?_⟩
    exact (hkeep.setup i).evaluateResult_eq.trans (evaluateResult_setup hvalid (hnew i hi))

/-- **Which runs return**: with fixed observations, those in which `unsigned` counts the
observations of every monitor that evaluates. -/
theorem exists_run_iff {sub : Fin n → List String} {obs : Fin n → List Bool}
    (hvalid : ValidSubformulas sub obs) {acts : List (Action n)}
    (hfixed : FixedObservations acts) :
    (∃ mem, run (setup sub obs) acts = some mem) ↔ Countable obs acts := by
  constructor
  · rintro ⟨mem, hr⟩
    exact (run_uncorrupted hvalid hfixed hr).2.1
  · intro hcount
    induction acts using List.reverseRecOn with
    | nil => exact ⟨setup sub obs, rfl⟩
    | append_singleton acts a ih =>
      obtain ⟨hacts, ha⟩ := countable_concat_iff.mp hcount
      obtain ⟨u, hu⟩ := ih hfixed.of_append hacts
      obtain ⟨hkeep, -, -⟩ := run_uncorrupted hvalid hfixed.of_append hu
      have hres : ∀ i, a = .evaluate i → ∃ v, (u i).evaluateResult = some v := fun i hi =>
        ⟨_, (hkeep.setup i).evaluateResult_eq.trans (evaluateResult_setup hvalid (ha i hi))⟩
      obtain ⟨mem, hstep⟩ := exists_step hkeep.wired hres
      exact ⟨mem, run_append_eq_some_iff.mpr ⟨u, hu, (run_singleton u a).trans hstep⟩⟩

/-! ## Reading the invariant -/

theorem Uncorrupted.of_flagged {val : Fin n → Bool} {evaluated : Fin n → Prop} {mem : Memory n}
    (hu : Uncorrupted val evaluated mem) {i k : Fin n} (hf : (mem i).Flagged k) :
    evaluated k ∧ (mem i).verdicts[(k : ℕ)]? = some (val k) := by
  rcases hu i k with hzero | ⟨hk, hval⟩
  · exact absurd hf (VerdictTable.not_flagged_of_slot hzero)
  · exact ⟨hk, congrArg Prod.fst hval⟩

theorem Uncorrupted.of_not_flagged {val : Fin n → Bool} {evaluated : Fin n → Prop}
    {mem : Memory n} (hu : Uncorrupted val evaluated mem) {i k : Fin n}
    (hf : ¬ (mem i).Flagged k) : (mem i).slot k = (some false, some false) := by
  rcases hu i k with hzero | ⟨-, hval⟩
  · exact hzero
  · exact absurd (congrArg Prod.snd hval) hf

/-- An entry is true only if its owner has evaluated, to true. -/
theorem Uncorrupted.of_verdict_true {val : Fin n → Bool} {evaluated : Fin n → Prop}
    {mem : Memory n} (hu : Uncorrupted val evaluated mem) {i k : Fin n}
    (hv : (mem i).verdicts[(k : ℕ)]? = some true) :
    (mem i).Flagged k ∧ evaluated k ∧ val k = true := by
  rcases hu i k with hzero | ⟨hk, hval⟩
  · have hfalse : (mem i).verdicts[(k : ℕ)]? = some false := congrArg Prod.fst hzero
    rw [hv] at hfalse
    simp at hfalse
  · have hsame : (mem i).verdicts[(k : ℕ)]? = some (val k) := congrArg Prod.fst hval
    exact ⟨congrArg Prod.snd hval, hk, (Option.some.inj (hv.symm.trans hsame)).symm⟩

/-- **No corruption under any interleaving.**  In every state that a run of calls with
fixed observations reaches: a flagged slot carries the value its owner's `Evaluate`
computes, and the owner has evaluated; an unflagged slot is false; no later run clears a
flag; and `Evaluate_All` returns true only if all monitors have evaluated, every one to
true. -/
theorem no_corruption {sub : Fin n → List String} {obs : Fin n → List Bool}
    (hvalid : ValidSubformulas sub obs) (acts : List (Action n))
    (hfixed : FixedObservations acts) (mem : Memory n)
    (hr : run (setup sub obs) acts = some mem) :
    (∀ i k : Fin n, (mem i).verdictsMod[(k : ℕ)]? = some true →
      Action.evaluate k ∈ acts ∧
        ∃ v, (setup sub obs k).evaluateResult = some v ∧
          (mem i).verdicts[(k : ℕ)]? = some v) ∧
    (∀ i k : Fin n, (mem i).verdictsMod[(k : ℕ)]? = some false →
      (mem i).verdicts[(k : ℕ)]? = some false) ∧
    (∀ acts' mem', run mem acts' = some mem' → ∀ i k : Fin n,
      (mem i).verdictsMod[(k : ℕ)]? = some true →
        (mem' i).verdictsMod[(k : ℕ)]? = some true) ∧
    ∀ i, (mem i).evaluateAll = some true →
      ∀ k, Action.evaluate k ∈ acts ∧ (setup sub obs k).evaluateResult = some true := by
  obtain ⟨hkeep, hcount, hu⟩ := run_uncorrupted hvalid hfixed hr
  refine ⟨?_, ?_, ?_, ?_⟩
  · intro i k hf
    obtain ⟨hk, hv⟩ := hu.of_flagged hf
    exact ⟨hk, verdictOf sub obs k, evaluateResult_setup hvalid (hcount k hk), hv⟩
  · intro i k hf
    have hunflagged : ¬ (mem i).Flagged k := by
      rw [VerdictTable.Flagged, hf]
      simp
    exact congrArg Prod.fst (hu.of_not_flagged hunflagged)
  · intro acts' mem' hrun' i k hf
    exact flagged_run hkeep.wired hrun' hf
  · intro i hall k
    obtain ⟨b, hb, hiff⟩ := evaluateAll_spec hkeep.wired i
    obtain rfl : b = true := Option.some.inj (hb.symm.trans hall)
    obtain ⟨-, hk, hval⟩ := hu.of_verdict_true (hiff.mp rfl k)
    exact ⟨hk, hval ▸ evaluateResult_setup hvalid (hcount k hk)⟩

/-! ## The ring of `main` -/

/-- The subformulas `main` gives its three monitors. -/
def mainSub : Fin 3 → List String := ![["and"], ["or"], ["or"]]

/-- The observations `main` gives its three monitors. -/
def mainObs : Fin 3 → List Bool := ![[true, true], [true, true], [false, true]]

theorem validSubformulas_main : ValidSubformulas mainSub mainObs := by
  unfold ValidSubformulas
  decide

/-- A run of the ring of `main` that shares before evaluating. -/
theorem no_corruption_main :
    ∃ mem, run (setup mainSub mainObs) [.shareVerdict 1, .evaluate 0, .shareVerdict 0] = some mem ∧
      ∀ i k : Fin 3, (mem i).verdictsMod[(k : ℕ)]? = some true →
        Action.evaluate k ∈ [Action.shareVerdict 1, .evaluate 0, .shareVerdict 0] :=
  ⟨_, rfl, fun i k h => ((no_corruption validSubformulas_main
    [.shareVerdict 1, .evaluate 0, .shareVerdict 0] (fun i o h => by simp at h) _ rfl).1 i k h).1⟩

end RingMonitor
