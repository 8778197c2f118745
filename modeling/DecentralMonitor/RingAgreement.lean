/-
# Agreement of reported global verdicts

`Evaluate_All` reads the table of the monitor it is called on and does not look at
the flags, so a call made before the verdicts have gone round the ring answers
`false` for want of information.  `evaluateAll_contradicted` is such a call, taken
back by a later call at the same monitor.

What the reports do guarantee is `evaluateAll_agreement`: once every monitor has
evaluated, a report is true exactly when the reporting monitor has all flags set
and all verdicts are true.  So the reports of complete tables agree, and a reported
`true` is never taken back.
-/
import DecentralMonitor.RingConvergence

namespace RingMonitor

variable {n : ℕ}

/-- All flags of the monitor are set: its table is complete. -/
def Complete (m : RingMonitor n) : Prop := ∀ k : Fin n, m.Flagged k

instance (m : RingMonitor n) : Decidable m.Complete :=
  inferInstanceAs (Decidable (∀ k : Fin n, m.Flagged k))

/-- A complete table stays complete. -/
theorem complete_run {mem mem' : Memory n} (h : Wired mem) {acts : List (Action n)}
    (hr : run mem acts = some mem') {i : Fin n} (hc : (mem i).Complete) : (mem' i).Complete :=
  fun k => flagged_run h hr (hc k)

/-- What a report says: the table is complete and every verdict is true. -/
theorem Uncorrupted.evaluateAll_iff {val : Fin n → Bool} {evaluated : Fin n → Prop}
    {mem : Memory n} (hu : Uncorrupted val evaluated mem) (h : Wired mem) (i : Fin n) :
    ∃ b, (mem i).evaluateAll = some b ∧ (b = true ↔ (mem i).Complete ∧ ∀ k, val k = true) := by
  obtain ⟨b, hb, hiff⟩ := evaluateAll_spec h i
  refine ⟨b, hb, hiff.trans ?_⟩
  constructor
  · intro hall
    exact ⟨fun k => (hu.of_verdict_true (hall k)).1, fun k => (hu.of_verdict_true (hall k)).2.2⟩
  · rintro ⟨hcomplete, hval⟩ k
    rw [(hu.of_flagged (hcomplete k)).2, hval k]

/-- A report contradicted later: every monitor of the ring of `main` has evaluated
(to true), monitor 0 reports `false`, two monitors share, monitor 0 reports
`true`. -/
theorem evaluateAll_contradicted :
    ∃ mem₁ mem₂,
      run (setup mainSub mainObs) [.evaluate 0, .evaluate 1, .evaluate 2] = some mem₁ ∧
      run mem₁ [.evaluateAll 0, .shareVerdict 1, .shareVerdict 2] = some mem₂ ∧
      (mem₁ 0).evaluateAll = some false ∧ (mem₂ 0).evaluateAll = some true :=
  ⟨_, _, rfl, rfl, rfl, rfl⟩

/-- **Agreement of reported global verdicts, as far as it goes.**  Let every monitor
have evaluated during `acts`, and consider two calls of `Evaluate_All` in a later
run: at monitor `i` after `pre₁` and at monitor `j` after `pre₂`.  Each of them
returns true exactly when its monitor has all flags set and all verdicts are true.
Hence two calls at monitors with complete tables agree, two calls agree when some
verdict is false, and a monitor that has reported true never reports false
later. -/
theorem evaluateAll_agreement {sub : Fin n → List String} {obs : Fin n → List Bool}
    (hvalid : ValidSubformulas sub obs) (acts pre₁ pre₂ : List (Action n))
    (hfixed₁ : FixedObservations (acts ++ pre₁)) (hfixed₂ : FixedObservations (acts ++ pre₂))
    (hall : ∀ k, Action.evaluate k ∈ acts) {mem₁ mem₂ : Memory n}
    (hrun₁ : run (setup sub obs) (acts ++ pre₁) = some mem₁)
    (hrun₂ : run (setup sub obs) (acts ++ pre₂) = some mem₂) (i j : Fin n) :
    ∃ b₁ b₂, (mem₁ i).evaluateAll = some b₁ ∧ (mem₂ j).evaluateAll = some b₂ ∧
      (b₁ = true ↔ (mem₁ i).Complete ∧
        ∀ k, Action.evaluate k ∈ acts ∧ (setup sub obs k).evaluateResult = some true) ∧
      ((mem₁ i).Complete → (mem₂ j).Complete → b₁ = b₂) ∧
      ((∃ k, (setup sub obs k).evaluateResult = some false) → b₁ = b₂) ∧
      (i = j → pre₁ <+: pre₂ → b₁ = true → b₂ = true) := by
  obtain ⟨hkeep₁, hcount, hu₁⟩ := run_uncorrupted hvalid hfixed₁ hrun₁
  obtain ⟨hkeep₂, -, hu₂⟩ := run_uncorrupted hvalid hfixed₂ hrun₂
  have hresult : ∀ k, (setup sub obs k).evaluateResult = some (verdictOf sub obs k) := fun k =>
    evaluateResult_setup hvalid (hcount k (List.mem_append_left pre₁ (hall k)))
  obtain ⟨b₁, hb₁, hiff₁⟩ := hu₁.evaluateAll_iff hkeep₁.wired i
  obtain ⟨b₂, hb₂, hiff₂⟩ := hu₂.evaluateAll_iff hkeep₂.wired j
  refine ⟨b₁, b₂, hb₁, hb₂, ?_, ?_, ?_, ?_⟩
  · rw [hiff₁]
    refine and_congr_right fun _ => forall_congr' fun k => ?_
    rw [hresult k, Option.some_inj]
    exact ⟨fun h => ⟨hall k, h⟩, fun h => h.2⟩
  · intro hc₁ hc₂
    rw [Bool.eq_iff_iff, hiff₁, hiff₂]
    exact ⟨fun h => ⟨hc₂, h.2⟩, fun h => ⟨hc₁, h.2⟩⟩
  · rintro ⟨k, hk⟩
    have hfalse : verdictOf sub obs k = false := Option.some.inj ((hresult k).symm.trans hk)
    have hno : ¬ ∀ k, verdictOf sub obs k = true := by
      intro h
      rw [h k] at hfalse
      exact absurd hfalse (by decide)
    rw [Bool.eq_iff_iff, hiff₁, hiff₂]
    exact ⟨fun h => absurd h.2 hno, fun h => absurd h.2 hno⟩
  · -- a complete table stays complete, so the later report is true as well
    rintro rfl ⟨rest, rfl⟩ hb
    obtain ⟨hcomplete, hval⟩ := hiff₁.mp hb
    rw [← List.append_assoc, run_append_eq_some_iff] at hrun₂
    obtain ⟨u, hu, hrest⟩ := hrun₂
    obtain rfl : u = mem₁ := Option.some.inj (hu.symm.trans hrun₁)
    exact hiff₂.mpr ⟨complete_run hkeep₁.wired hrest hcomplete, hval⟩

/-- Two reports of monitor 0 in the ring of `main`, before and after the verdicts of
the others have arrived. -/
theorem evaluateAll_agreement_main :
    ∃ mem₁ mem₂ b₁ b₂,
      run (setup mainSub mainObs) ([.evaluate 0, .evaluate 1, .evaluate 2] ++ []) = some mem₁ ∧
      (mem₁ 0).evaluateAll = some b₁ ∧
      run (setup mainSub mainObs) ([.evaluate 0, .evaluate 1, .evaluate 2] ++
        [.evaluateAll 0, .shareVerdict 1, .shareVerdict 2]) = some mem₂ ∧
      (mem₂ 0).evaluateAll = some b₂ ∧ (b₁ = true → b₂ = true) := by
  obtain ⟨b₁, b₂, hb₁, hb₂, -, -, -, hlater⟩ :=
    evaluateAll_agreement validSubformulas_main [.evaluate 0, .evaluate 1, .evaluate 2] []
      [.evaluateAll 0, .shareVerdict 1, .shareVerdict 2]
      (fun i o h => by simp at h) (fun i o h => by simp at h) (by decide) rfl rfl 0 0
  exact ⟨_, _, b₁, b₂, rfl, hb₁, rfl, hb₂, hlater rfl (List.nil_prefix)⟩

end RingMonitor
