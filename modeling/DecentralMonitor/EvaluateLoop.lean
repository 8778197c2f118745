/-
# How the loop of `Evaluate` ends

`Evaluate` runs `for(unsigned c=1;c<observations.size(); c++)` and then reads
`sub_verdict.back()`.  Here its counter is the `unsigned` of the source:
`EvaluateReturns` says that the loop ends and which object the call leaves.  This is
`RingMonitor.evaluate` (`evaluateReturns_iff`): on a list that `unsigned` can count the
counter makes no difference, and on a longer one it starts again from 0 and the loop never
ends.

`evaluate_leftFold_iff` says on which lists `Evaluate` sets the left-to-right fold.  A
single observation is not among them: the loop is left before the first `push_back`, and
`sub_verdict` has no last element.
-/
import DecentralMonitor.RingMonitor

open FallibleLoop

namespace RingMonitor

variable {n : ℕ}

/-! ## The loop -/

/-- The variables of the loop. -/
structure EvaluateState where
  c : UInt32
  subVerdict : List Bool

/-- The variables before the loop. -/
def evaluateInit : EvaluateState := ⟨1, []⟩

/-- `c < observations.size()`. -/
def EvaluateGuard (m : RingMonitor n) (st : EvaluateState) : Prop :=
  st.c.toNat < m.observations.length

/-- One iteration of the loop, with `c++`. -/
def evaluateBody (m : RingMonitor n) (st : EvaluateState) : Option EvaluateState := do
  let subVerdict ← m.subVerdictStep st.subVerdict st.c.toNat
  some ⟨st.c + 1, subVerdict⟩

/-- The two assignments after the loop. -/
def evaluateEnd (m : RingMonitor n) (subVerdict : List Bool) : Option (RingMonitor n) := do
  let table ← m.getVerdict m.id (← subVerdict.getLast?)
  some { m with toVerdictTable := table }

/-- The loop of `Evaluate` ends in `st` after `k` iterations. -/
def EvaluateEnds (m : RingMonitor n) (k : ℕ) (st : EvaluateState) : Prop :=
  EndsAfter m.EvaluateGuard (fun _ => m.evaluateBody) evaluateInit k st

/-- `Evaluate()` returns and leaves `m'`. -/
def EvaluateReturns (m m' : RingMonitor n) : Prop :=
  ∃ k st, m.EvaluateEnds k st ∧ m.evaluateEnd st.subVerdict = some m'

/-- `Evaluate` leaves one object only. -/
theorem EvaluateReturns.unique {m m' m'' : RingMonitor n} (h : m.EvaluateReturns m')
    (h' : m.EvaluateReturns m'') : m' = m'' := by
  obtain ⟨k, st, hends, hret⟩ := h
  obtain ⟨k', st', hends', hret'⟩ := h'
  obtain ⟨-, rfl⟩ := hends.unique hends'
  exact Option.some.inj (hret.symm.trans hret')

/-! ## Counting with `unsigned` -/

/-- No counter reaches the end of a longer list. -/
theorem not_evaluateEnds {m : RingMonitor n} (h : UInt32.size ≤ m.observations.length) {k : ℕ}
    {st : EvaluateState} : ¬ m.EvaluateEnds k st :=
  fun hends => hends.exit (st.c.toNat_lt_size.trans_le h)

/-- As long as the counter does not start again, `k` iterations are those for
`c = 1, …, k`. -/
theorem iterations_evaluateBody (m : RingMonitor n) {k : ℕ} (hk : k < UInt32.size) :
    iterations (fun _ => m.evaluateBody) evaluateInit k =
      ((List.range' 1 k).foldlM m.subVerdictStep []).map
        fun subVerdict => ⟨UInt32.ofNat (k + 1), subVerdict⟩ := by
  induction k with
  | zero => rfl
  | succ k ih =>
    have hc : (UInt32.ofNat (k + 1)).toNat = k + 1 :=
      UInt32.toNat_ofNat_of_lt' hk
    rw [iterations, ih (Nat.lt_of_succ_lt hk), List.range'_concat, List.foldlM_append]
    cases (List.range' 1 k).foldlM m.subVerdictStep [] with
    | none => rfl
    | some subVerdict =>
      show m.evaluateBody ⟨UInt32.ofNat (k + 1), subVerdict⟩ =
        ([1 + 1 * k].foldlM m.subVerdictStep subVerdict).map _
      unfold evaluateBody
      rw [foldlM_singleton, hc, show 1 + 1 * k = k + 1 by omega]
      have hnext : UInt32.ofNat (k + 1) + 1 = UInt32.ofNat (k + 1 + 1) :=
        (UInt32.ofNat_add (k + 1) 1).symm
      rw [hnext]
      cases m.subVerdictStep subVerdict (k + 1) <;> rfl

/-- The state after `k` iterations. -/
theorem iterations_eq_some {m : RingMonitor n} {k : ℕ} (hk : k + 1 < UInt32.size)
    {st : EvaluateState} (h : iterations (fun _ => m.evaluateBody) evaluateInit k = some st) :
    st.c.toNat = k + 1 ∧
      (List.range' 1 k).foldlM m.subVerdictStep [] = some st.subVerdict := by
  rw [iterations_evaluateBody m (Nat.lt_of_succ_lt hk), Option.map_eq_some_iff] at h
  obtain ⟨subVerdict, hsub, rfl⟩ := h
  exact ⟨UInt32.toNat_ofNat_of_lt' hk, hsub⟩

/-- It goes on as the loop with an unbounded counter does. -/
theorem evaluateGuard_iff {m : RingMonitor n} {k : ℕ} (hk : k + 1 < UInt32.size)
    {st : EvaluateState} (h : iterations (fun _ => m.evaluateBody) evaluateInit k = some st) :
    m.EvaluateGuard st ↔ k + 1 < m.observations.length := by
  unfold EvaluateGuard
  rw [(iterations_eq_some hk h).1]

/-- The loop ends with the vector that `subVerdicts` computes. -/
theorem evaluateEnds_iff {m : RingMonitor n} {subVerdict : List Bool} :
    (∃ k st, m.EvaluateEnds k st ∧ st.subVerdict = subVerdict) ↔
      m.subVerdicts = some subVerdict := by
  rcases Nat.lt_or_ge m.observations.length UInt32.size with hcount | hlong
  case inr =>
    constructor
    · rintro ⟨k, st, hends, -⟩
      exact absurd hends (not_evaluateEnds hlong)
    · intro hsub
      rw [subVerdicts, if_neg (Nat.not_lt.mpr hlong)] at hsub
      exact absurd hsub.symm (Option.some_ne_none subVerdict)
  rw [subVerdicts, if_pos hcount]
  have hlast : m.observations.length - 1 + 1 < UInt32.size := by
    have hone : 1 < UInt32.size := by decide
    omega
  constructor
  · rintro ⟨k, st, hends, rfl⟩
    have hle : k ≤ m.observations.length - 1 := by
      by_contra hlt
      obtain ⟨u, hu, hguard⟩ := hends.continues _ (Nat.not_le.mp hlt)
      rw [evaluateGuard_iff hlast hu] at hguard
      omega
    have hk : k + 1 < UInt32.size := by omega
    have hexit := hends.exit
    rw [evaluateGuard_iff hk hends.last] at hexit
    obtain rfl : k = m.observations.length - 1 := by omega
    exact (iterations_eq_some hk hends.last).2
  · intro hsub
    have hiter := iterations_evaluateBody m (Nat.lt_of_succ_lt hlast)
    rw [hsub, Option.map_some] at hiter
    refine ⟨_, _, ⟨fun j hj => ?_, hiter, ?_⟩, rfl⟩
    · obtain ⟨u, hu⟩ := exists_iterations_of_le hj.le hiter
      refine ⟨u, hu, ?_⟩
      rw [evaluateGuard_iff (by omega) hu]
      omega
    · rw [evaluateGuard_iff hlast hiter]
      omega

theorem evaluate_eq_bind (m : RingMonitor n) : m.evaluate = m.subVerdicts.bind m.evaluateEnd := by
  unfold evaluate evaluateResult evaluateEnd
  cases m.subVerdicts <;> rfl

/-- **The loop and `evaluate`.**  The call returns exactly when `evaluate` does, and leaves
the same object. -/
theorem evaluateReturns_iff {m m' : RingMonitor n} :
    m.EvaluateReturns m' ↔ m.evaluate = some m' := by
  rw [evaluate_eq_bind, Option.bind_eq_some_iff]
  constructor
  · rintro ⟨k, st, hends, hret⟩
    exact ⟨st.subVerdict, evaluateEnds_iff.mp ⟨k, st, hends, rfl⟩, hret⟩
  · rintro ⟨subVerdict, hsub, hret⟩
    obtain ⟨k, st, hends, rfl⟩ := evaluateEnds_iff.mpr hsub
    exact ⟨k, st, hends, hret⟩

/-! ## When the left fold is set -/

/-- `Evaluate` returns and sets the monitor's own slot, and only that, to the
left-to-right fold. -/
def SetsLeftFold (m : RingMonitor n) : Prop :=
  ∃ m', m.EvaluateReturns m' ∧ SameSetup m m' ∧
    ∀ c, m'.slot c =
      if c = m.id then (some (foldVerdict m.observations m.subformula), some true)
      else m.slot c

/-- Without a second observation `sub_verdict` stays empty. -/
theorem evaluateResult_eq_none {m : RingMonitor n} (h : m.observations.length < 2) :
    m.evaluateResult = none := by
  have hcount : m.observations.length < UInt32.size := h.trans (by decide)
  have hsub : m.subVerdicts = some [] := by
    unfold subVerdicts
    rw [if_pos hcount, show m.observations.length - 1 = 0 by omega]
    rfl
  unfold evaluateResult
  rw [hsub]
  rfl

/-- A monitor with one observation. -/
def singleObservation : RingMonitor 3 :=
  { (new 0 [] 3 : RingMonitor 3) with observations := [true] }

/-- `Evaluate` does not return on it. -/
theorem single_observation : singleObservation.id < singleObservation.numMonitors ∧
    singleObservation.Sized singleObservation.numMonitors ∧
    1 ≤ singleObservation.observations.length ∧
    singleObservation.subformula.length = singleObservation.observations.length - 1 ∧
    ¬ SetsLeftFold singleObservation := by
  refine ⟨by decide, VerdictTable.sized_fresh 3, by decide, rfl, ?_⟩
  rintro ⟨m', hret, -⟩
  rw [evaluateReturns_iff] at hret
  unfold evaluate at hret
  rw [evaluateResult_eq_none (by decide)] at hret
  exact absurd hret (by simp)

/-- **`Evaluate` and the left fold.**  With one operator fewer than there are
observations, `Evaluate` returns and sets the left-to-right fold exactly when there are
at least two observations and not more than `unsigned` can count. -/
theorem evaluate_leftFold_iff {m : RingMonitor n} (hid : m.id < m.numMonitors)
    (hsized : m.Sized m.numMonitors)
    (hsub : m.subformula.length = m.observations.length - 1) :
    SetsLeftFold m ↔ 2 ≤ m.observations.length ∧ m.observations.length < UInt32.size := by
  constructor
  · rintro ⟨m', hret, -⟩
    have hcount : m.observations.length < UInt32.size := by
      by_contra hlong
      obtain ⟨k, st, hends, -⟩ := hret
      exact not_evaluateEnds (Nat.not_lt.mp hlong) hends
    refine ⟨?_, hcount⟩
    by_contra hshort
    rw [evaluateReturns_iff] at hret
    unfold evaluate at hret
    rw [evaluateResult_eq_none (Nat.not_le.mp hshort)] at hret
    exact absurd hret (by simp)
  · rintro ⟨htwo, hcount⟩
    have hresult := evaluateResult_eq hsub (by omega) hcount
    obtain ⟨t, ht, -, hslot⟩ :=
      VerdictTable.getVerdict_spec hsized hid (foldVerdict m.observations m.subformula)
    refine ⟨{ m with toVerdictTable := t }, ?_, sameSetup_table m t, hslot⟩
    rw [evaluateReturns_iff]
    unfold evaluate
    rw [hresult]
    show (do
      let table ← m.getVerdict m.id (foldVerdict m.observations m.subformula)
      some { m with toVerdictTable := table }) = _
    rw [ht]
    rfl

/-- The first monitor of `main`. -/
theorem evaluate_leftFold_main : SetsLeftFold
    ({ (new 0 ["and"] 3 : RingMonitor 3) with observations := [true, true] }) :=
  (evaluate_leftFold_iff (by decide) (VerdictTable.sized_fresh 3) rfl).mpr
    ⟨by decide, by decide⟩

end RingMonitor
