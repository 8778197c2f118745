/-
# Jobs that are run one after the other

A general library.  A worker has a list of jobs.  Loading a job reads an environment that all
jobs share, and may change it; from then on the job takes steps of its own, and when it has
finished the worker loads the next one (`Step`).

Loading is *isolated* when it depends on a part of the environment that no loading changes
(`Isolated`).  Then a job does in the sequence what it does alone, whatever the jobs before it
have left behind (`asAlone_of_reaches`), and the sequence goes right exactly when every job does
(`goesRight_iff`).

An environment can be seen at two levels.  When loading commutes with the `view` of the finer one
(`Views`), the worker reaches in the coarser one the views of what it reaches in the finer one,
and nothing else (`Views.reaches_iff`).
-/
import Mathlib.Data.List.Infix
import Mathlib.Data.Option.Basic
import Mathlib.Logic.Relation

open Relation

namespace JobSequence

/-- Jobs that are loaded from an environment and then take steps. -/
structure Jobs (E J S : Type*) where
  load : J → E → Option (E × S)
  step : S → S → Prop
  finished : S → Prop

/-- A worker between two jobs, or at one, with the jobs that are still to come. -/
inductive Worker (E J S : Type*)
  | waiting (env : E) (rest : List J)
  | working (env : E) (rest : List J) (job : J) (s : S)

variable {E J S V : Type*}

/-- What the worker does. -/
inductive Step (sys : Jobs E J S) : Worker E J S → Worker E J S → Prop
  | load {env env' : E} {rest : List J} {job : J} {s : S}
      (hload : sys.load job env = some (env', s)) :
      Step sys (.waiting env (job :: rest)) (.working env' rest job s)
  | work {env : E} {rest : List J} {job : J} {s s' : S} (hstep : sys.step s s') :
      Step sys (.working env rest job s) (.working env rest job s')
  | finish {env : E} {rest : List J} {job : J} {s : S} (hend : sys.finished s) :
      Step sys (.working env rest job s) (.waiting env rest)

/-- The states of a worker who is given the jobs `todo`. -/
def Reaches (sys : Jobs E J S) (env : E) (todo : List J) (w : Worker E J S) : Prop :=
  ReflTransGen (Step sys) (.waiting env todo) w

/-- The first state of a job. -/
def Jobs.start (sys : Jobs E J S) (job : J) (env : E) : Option S :=
  (sys.load job env).map Prod.snd

/-- The states of a job that is run alone. -/
def Jobs.Runs (sys : Jobs E J S) (s₀ s : S) : Prop := ReflTransGen sys.step s₀ s

/-- Loading depends on a part of the environment that no loading changes. -/
structure Isolated (sys : Jobs E J S) (view : E → V) : Prop where
  frame : ∀ {job env env' s}, sys.load job env = some (env', s) → view env' = view env
  blind : ∀ {job env env'}, view env' = view env → sys.start job env' = sys.start job env

variable {sys : Jobs E J S} {view : E → V} {env env₁ : E} {todo rest : List J} {job : J}
  {s s₀ : S}

theorem start_eq_some_iff :
    sys.start job env = some s ↔ ∃ env', sys.load job env = some (env', s) := by
  simp [Jobs.start]

/-! ## Every job on its own -/

/-- The worker's state says nothing about the jobs before. -/
def AsAlone (sys : Jobs E J S) (view : E → V) (env : E) (todo : List J) : Worker E J S → Prop
  | .waiting env' rest => view env' = view env ∧ rest <:+ todo
  | .working env' rest job s => view env' = view env ∧ job :: rest <:+ todo ∧
      ∃ s₀, sys.start job env = some s₀ ∧ sys.Runs s₀ s

theorem AsAlone.step (h : Isolated sys view) {w w' : Worker E J S}
    (hw : AsAlone sys view env todo w) (hstep : Step sys w w') :
    AsAlone sys view env todo w' := by
  cases hstep with
  | load hload =>
    obtain ⟨hview, hrest⟩ := hw
    refine ⟨(h.frame hload).trans hview, hrest, _, ?_, .refl⟩
    rw [← h.blind hview]
    exact start_eq_some_iff.mpr ⟨_, hload⟩
  | work hstep =>
    obtain ⟨hview, hrest, s₀, hstart, hruns⟩ := hw
    exact ⟨hview, hrest, s₀, hstart, hruns.tail hstep⟩
  | finish hend =>
    obtain ⟨hview, hrest, -⟩ := hw
    exact ⟨hview, (List.suffix_cons _ _).trans hrest⟩

/-- **A job does in the sequence what it does alone.** -/
theorem asAlone_of_reaches (h : Isolated sys view) {w : Worker E J S}
    (hr : Reaches sys env todo w) : AsAlone sys view env todo w := by
  unfold Reaches at hr
  induction hr with
  | refl => exact ⟨rfl, List.suffix_rfl⟩
  | tail _ hstep ih => exact ih.step h hstep

/-! ## From the jobs to the sequence -/

/-- The worker can follow a job. -/
theorem reflTransGen_working (hruns : sys.Runs s₀ s) :
    ReflTransGen (Step sys) (.working env rest job s₀) (.working env rest job s) := by
  unfold Jobs.Runs at hruns
  induction hruns with
  | refl => exact .refl
  | tail _ hstep ih => exact ih.tail (.work hstep)

/-- The jobs before the others, one after the other. -/
theorem exists_reaches_waiting (h : Isolated sys view) (hview : view env₁ = view env)
    (hall : ∀ job ∈ todo, ∃ s₀ s, sys.start job env = some s₀ ∧ sys.Runs s₀ s ∧
      sys.finished s) : ∃ env₂, Reaches sys env₁ (todo ++ rest) (.waiting env₂ rest) := by
  induction todo generalizing env₁ with
  | nil => exact ⟨env₁, .refl⟩
  | cons job todo ih =>
    obtain ⟨s₀, s, hstart, hruns, hend⟩ := hall job List.mem_cons_self
    rw [← h.blind hview, start_eq_some_iff] at hstart
    obtain ⟨env', hload⟩ := hstart
    obtain ⟨env₂, hlater⟩ := ih ((h.frame hload).trans hview)
      fun job' hjob' => hall job' (List.mem_cons_of_mem job hjob')
    refine ⟨env₂, .head (.load hload) ?_⟩
    exact (reflTransGen_working hruns).trans (.head (.finish hend) hlater)

/-! ## When the sequence goes right -/

/-- Nothing is wrong with this state: the next job can be loaded, or the job at work is in a
good state. -/
def Worker.Good (sys : Jobs E J S) (good : S → Prop) : Worker E J S → Prop
  | .waiting env (job :: _) => ∃ s, sys.start job env = some s
  | .waiting _ [] => True
  | .working _ _ _ s => good s

/-- Nothing ever goes wrong with a job that is run alone. -/
def Jobs.GoesRight (sys : Jobs E J S) (good : S → Prop) (env : E) (job : J) : Prop :=
  ∃ s₀, sys.start job env = some s₀ ∧ ∀ s, sys.Runs s₀ s → good s

/-- A job that goes right comes to its end. -/
def Jobs.Terminates (sys : Jobs E J S) (good : S → Prop) : Prop :=
  ∀ job env s₀, sys.start job env = some s₀ → (∀ s, sys.Runs s₀ s → good s) →
    ∃ s, sys.Runs s₀ s ∧ sys.finished s

theorem goesRight_of_sequence {good : S → Prop} (h : Isolated sys view)
    (hend : sys.Terminates good) (hview : view env₁ = view env)
    (hgood : ∀ w, Reaches sys env₁ todo w → w.Good sys good) :
    ∀ job ∈ todo, sys.GoesRight good env job := by
  induction todo generalizing env₁ with
  | nil => exact fun job hjob => absurd hjob List.not_mem_nil
  | cons job todo ih =>
    obtain ⟨s₀, hstart⟩ := hgood (.waiting env₁ (job :: todo)) .refl
    obtain ⟨env', hload⟩ := start_eq_some_iff.mp hstart
    have hwork : ∀ s, sys.Runs s₀ s → Reaches sys env₁ (job :: todo) (.working env' todo job s) :=
      fun s hruns => .head (.load hload) (reflTransGen_working hruns)
    have hjob : ∀ s, sys.Runs s₀ s → good s := fun s hruns => hgood _ (hwork s hruns)
    obtain ⟨s, hruns, hfinished⟩ := hend job env₁ s₀ hstart hjob
    have hnext : Reaches sys env₁ (job :: todo) (.waiting env' todo) :=
      (hwork s hruns).tail (.finish hfinished)
    intro job' hjob'
    rcases List.mem_cons.mp hjob' with rfl | hlater
    · exact ⟨s₀, (h.blind hview).symm.trans hstart, hjob⟩
    · exact ih ((h.frame hload).trans hview) (fun w hw => hgood w (hnext.trans hw)) job' hlater

/-- **The sequence goes right exactly when every job does.** -/
theorem goesRight_iff {good : S → Prop} (h : Isolated sys view) (hend : sys.Terminates good) :
    (∀ w, Reaches sys env todo w → w.Good sys good) ↔
      ∀ job ∈ todo, sys.GoesRight good env job := by
  refine ⟨goesRight_of_sequence h hend rfl, fun hall w hr => ?_⟩
  have halone := asAlone_of_reaches h hr
  cases w with
  | waiting env' rest =>
    cases rest with
    | nil => trivial
    | cons job rest =>
      obtain ⟨hview, hrest⟩ := halone
      obtain ⟨s₀, hstart, -⟩ := hall job (hrest.subset List.mem_cons_self)
      exact ⟨s₀, (h.blind hview).trans hstart⟩
  | working env' rest job s =>
    obtain ⟨-, hrest, s₀, hstart, hruns⟩ := halone
    obtain ⟨s₁, hstart₁, hgood⟩ := hall job (hrest.subset List.mem_cons_self)
    obtain rfl : s₀ = s₁ := Option.some.inj (hstart.symm.trans hstart₁)
    exact hgood s hruns

/-- Then the worker gets through all of them. -/
theorem exists_reaches_end {good : S → Prop} (h : Isolated sys view)
    (hend : sys.Terminates good) (hall : ∀ job ∈ todo, sys.GoesRight good env job) :
    ∃ env', Reaches sys env todo (.waiting env' []) := by
  rw [← List.append_nil todo]
  refine exists_reaches_waiting h rfl fun job hjob => ?_
  obtain ⟨s₀, hstart, hgood⟩ := hall job hjob
  obtain ⟨s, hruns, hfinished⟩ := hend job env s₀ hstart hgood
  exact ⟨s₀, s, hstart, hruns, hfinished⟩

/-! ## The same jobs in a coarser environment -/

/-- `sys'` loads from `view env` what `sys` loads from `env`, and what it leaves is the view of
what `sys` leaves.  Loaded jobs are the same. -/
structure Views (sys : Jobs E J S) (sys' : Jobs V J S) (view : E → V) : Prop where
  load : ∀ job env, sys'.load job (view env) = (sys.load job env).map (Prod.map view id)
  step : ∀ s s', sys'.step s s' ↔ sys.step s s'
  finished : ∀ s, sys'.finished s ↔ sys.finished s

/-- The worker in the coarser environment. -/
def Worker.map (view : E → V) : Worker E J S → Worker V J S
  | .waiting env rest => .waiting (view env) rest
  | .working env rest job s => .working (view env) rest job s

section View

variable {sys' : Jobs V J S} {w w₁ : Worker E J S}

theorem Views.start (h : Views sys sys' view) (job : J) (env : E) :
    sys'.start job (view env) = sys.start job env := by
  unfold Jobs.start
  rw [h.load, Option.map_map]
  rfl

/-- A step is a step in the view. -/
theorem Views.step_map (h : Views sys sys' view) (hstep : Step sys w w₁) :
    Step sys' (w.map view) (w₁.map view) := by
  cases hstep with
  | load hload =>
    refine .load ?_
    rw [h.load, hload]
    rfl
  | work hstep => exact .work ((h.step _ _).mpr hstep)
  | finish hend => exact .finish ((h.finished _).mpr hend)

/-- A step in the view is the view of a step. -/
theorem Views.exists_step (h : Views sys sys' view) {w' : Worker V J S}
    (hstep : Step sys' (w.map view) w') : ∃ w₁, Step sys w w₁ ∧ w₁.map view = w' := by
  cases w with
  | waiting env rest =>
    cases hstep with
    | load hload =>
      rw [h.load, Option.map_eq_some_iff] at hload
      obtain ⟨⟨env₁, s₁⟩, hfine, heq⟩ := hload
      obtain ⟨rfl, rfl⟩ := Prod.mk.inj heq
      exact ⟨_, .load hfine, rfl⟩
  | working env rest job s =>
    cases hstep with
    | work hstep => exact ⟨_, .work ((h.step _ _).mp hstep), rfl⟩
    | finish hend => exact ⟨_, .finish ((h.finished _).mp hend), rfl⟩

/-- **What is reached in the view** is the view of what is reached. -/
theorem Views.reaches_iff (h : Views sys sys' view) {w' : Worker V J S} :
    Reaches sys' (view env) todo w' ↔ ∃ w, Reaches sys env todo w ∧ w.map view = w' := by
  constructor
  · intro hr
    unfold Reaches at hr
    induction hr with
    | refl => exact ⟨.waiting env todo, .refl, rfl⟩
    | tail _ hstep ih =>
      obtain ⟨w, hw, rfl⟩ := ih
      obtain ⟨w₁, hstep₁, hview⟩ := h.exists_step hstep
      exact ⟨w₁, hw.tail hstep₁, hview⟩
  · rintro ⟨w, hr, rfl⟩
    exact ReflTransGen.lift (Worker.map view) (fun _ _ => h.step_map) _ _ hr

/-- Where the worker waits in the view, it waits. -/
theorem Views.exists_reaches_waiting (h : Views sys sys' view) {v : V}
    (hr : Reaches sys' (view env) todo (.waiting v rest)) :
    ∃ env', view env' = v ∧ Reaches sys env todo (.waiting env' rest) := by
  obtain ⟨w, hw, hview⟩ := h.reaches_iff.mp hr
  cases w with
  | waiting env' rest' =>
    obtain ⟨hv, rfl⟩ := Worker.waiting.inj hview
    exact ⟨env', hv, hw⟩
  | working => nomatch hview

theorem Views.good_map_iff (h : Views sys sys' view) {good : S → Prop} :
    (w.map view).Good sys' good ↔ w.Good sys good := by
  cases w with
  | waiting env rest =>
    cases rest with
    | nil => exact Iff.rfl
    | cons job rest =>
      show (∃ s, sys'.start job (view env) = some s) ↔ ∃ s, sys.start job env = some s
      rw [h.start]
  | working env rest job s => exact Iff.rfl

/-- The view goes right exactly when the jobs do. -/
theorem Views.good_iff (h : Views sys sys' view) {good : S → Prop} :
    (∀ w', Reaches sys' (view env) todo w' → w'.Good sys' good) ↔
      ∀ w, Reaches sys env todo w → w.Good sys good := by
  constructor
  · intro hall w hr
    exact h.good_map_iff.mp (hall _ (h.reaches_iff.mpr ⟨w, hr, rfl⟩))
  · intro hall w' hr
    obtain ⟨w, hw, rfl⟩ := h.reaches_iff.mp hr
    exact h.good_map_iff.mpr (hall w hw)

end View

end JobSequence
