/-
# The verdicts do not see the values

The monitors are there to check the values that the devices of a room have logged.  No verdict
depends on them: `readSegTrace` copies the values of its window into `EValue`, and nothing reads
them there.  What a run does depends on how many values each device has logged, and on nothing
else about them.

`values_ignored` says so of whole runs.  Two sets of files with their headers in the same lines
are loaded into rooms that differ in the values only, and every state of the run on one of them is
a state of the run on the other up to the values: with the same verdicts and flags, the same
recorded pairs, and the same undefined behaviour.
-/
import DecentralMonitor.MainRun

open Constraint FallibleLoop TraceMonitor

/-! ## One monitor -/

namespace TraceMonitor

/-- The monitors differ in the values of their devices only. -/
def SameButValues (m m' : TraceMonitor) : Prop :=
  ∃ v w, m' = { m with eValue := v, eValueAll := w }

theorem SameButValues.symm {m m' : TraceMonitor} (h : SameButValues m m') :
    SameButValues m' m := by
  obtain ⟨v, w, rfl⟩ := h
  exact ⟨m.eValue, m.eValueAll, rfl⟩

variable {m m' : TraceMonitor} {start fin eps : ℤ}

/-- A value more, in a row that has the same number of values. -/
theorem readLine_blind (h : SameButValues m m') {line line' : String}
    (hline : IsHeader line ↔ IsHeader line') :
    Option.Rel SameButValues (readLine m line) (readLine m' line') := by
  obtain ⟨v, w, rfl⟩ := h
  unfold readLine
  by_cases hheader : IsHeader line
  · rw [if_pos hheader, if_pos (hline.mp hheader)]
    exact .some ⟨v, w, rfl⟩
  · rw [if_neg hheader, if_neg (mt hline.mpr hheader)]
    by_cases hfits : 0 ≤ m.numProcess ∧ m.numProcess.toNat < maxProcess ∧
        m.numEventAll m.numProcess.toNat < maxEvent
    · dsimp only
      rw [if_pos hfits, if_pos hfits]
      exact .some ⟨v, _, rfl⟩
    · dsimp only
      rw [if_neg hfits, if_neg hfits]
      exact .none

/-- The headers of the two files are in the same lines. -/
def SameHeaders (lines lines' : List String) : Prop :=
  List.Forall₂ (fun line line' => IsHeader line ↔ IsHeader line') lines lines'

theorem readFile_blind {files files' : String → List String}
    (hfiles : ∀ name, SameHeaders (files name) (files' name)) (h : SameButValues m m') :
    Option.Rel SameButValues (readFile files m) (readFile files' m') := by
  obtain ⟨v, w, rfl⟩ := h
  exact foldlM_rel₂ (S := fun line line' => IsHeader line ↔ IsHeader line')
    (fun _ _ hline _ _ h => readLine_blind h hline) (hfiles m.traceFileName) ⟨v, w, rfl⟩

/-- The copies have come equally far. -/
def SameCopy (st st' : TraceMonitor × ℕ) : Prop :=
  ∃ v w, st' = ({ st.1 with eValue := v, eValueAll := w }, st.2)

/-- A value copied, or another one in its place. -/
theorem copyEvent_blind (i : ℕ) {st st' : TraceMonitor × ℕ} (h : SameCopy st st') (j : ℕ) :
    Option.Rel SameCopy (copyEvent i st j) (copyEvent i st' j) := by
  obtain ⟨v, w, rfl⟩ := h
  obtain ⟨m, num⟩ := st
  unfold copyEvent
  dsimp only
  by_cases hfits : m.numEvent i < maxEvent ∧ j < maxEvent
  · rw [if_pos hfits, if_pos hfits]
    exact .some ⟨_, w, rfl⟩
  · rw [if_neg hfits, if_neg hfits]
    exact .none

theorem copyProcess_blind {st st' : TraceMonitor × ℕ} (h : SameCopy st st') (i : ℕ) :
    Option.Rel SameCopy (copyProcess start fin eps st i) (copyProcess start fin eps st' i) := by
  obtain ⟨v, w, rfl⟩ := h
  unfold copyProcess
  by_cases hfits : i < maxProcess
  · rw [if_pos hfits, if_pos hfits]
    exact foldlM_rel (fun j _ _ _ h => copyEvent_blind i h j) ⟨v, w, rfl⟩
  · rw [if_neg hfits, if_neg hfits]
    exact .none

theorem copySegment_blind (h : SameButValues m m') :
    Option.Rel SameButValues (copySegment start fin eps m) (copySegment start fin eps m') := by
  obtain ⟨v, w, rfl⟩ := h
  refine rel_bind (foldlM_rel (fun i _ _ _ h => copyProcess_blind h i) ⟨v, w, rfl⟩) ?_
  rintro st _ ⟨v, w, rfl⟩
  exact .some ⟨v, w, rfl⟩

/-- **One segment.**  The pairs come from the names of the events, not from their values. -/
theorem readSegTrace_blind (h : SameButValues m m') :
    Option.Rel SameButValues (readSegTrace start fin eps m) (readSegTrace start fin eps m') := by
  refine rel_bind (copySegment_blind h) ?_
  rintro u _ ⟨v, w, rfl⟩
  have hpairs : recordPairs { u with eValue := v, eValueAll := w } eps = recordPairs u eps := rfl
  rw [hpairs]
  cases recordPairs u eps with
  | none => exact .none
  | some hb => exact .some ⟨v, w, rfl⟩

/-- The solver is not told the values. -/
theorem solveSMT_blind (z : Solver) (h : SameButValues m m') : solveSMT z m' = solveSMT z m := by
  obtain ⟨v, w, rfl⟩ := h
  rfl

theorem SameButValues.table (h : SameButValues m m') : m'.toVerdictTable = m.toVerdictTable := by
  obtain ⟨v, w, rfl⟩ := h
  rfl

theorem shareVerdict_blind {r r' : TraceMonitor} (h : SameButValues m m')
    (hr : SameButValues r r') :
    Option.Rel SameButValues (m.shareVerdict r) (m'.shareVerdict r') := by
  obtain ⟨v, w, rfl⟩ := h
  obtain ⟨v', w', rfl⟩ := hr
  unfold shareVerdict
  dsimp only
  generalize List.foldlM (m := Option) _ _ _ = x
  cases x with
  | none => exact .none
  | some table => exact .some ⟨v', w', rfl⟩

end TraceMonitor

namespace Room

variable {n : ℕ} {z : Solver}

/-! ## Loading -/

/-- The loading loops have done the same but for the values. -/
structure SameLoaded (st st' : LoadState) : Prop where
  files : ∀ name, SameHeaders (st.files name) (st'.files name)
  formC : st'.formC = st.formC
  monitorList : ∀ k, SameButValues (st.monitorList k) (st'.monitorList k)
  mon : st'.mon = st.mon

section Loading

variable {files files' : String → List String}

theorem sameHeaders_update (h : ∀ name, SameHeaders (files name) (files' name)) (file : String)
    {lines lines' : List String} (hlines : SameHeaders lines lines') (name : String) :
    SameHeaders (Function.update files file lines name)
      (Function.update files' file lines' name) := by
  rw [Function.update_apply, Function.update_apply]
  split
  · exact hlines
  · exact h name

theorem sameHeaders_copyLines (h : ∀ name, SameHeaders (files name) (files' name))
    (device : String) (central : Prop) [Decidable central] (name : String) :
    SameHeaders (copyLines device central files name) (copyLines device central files' name) := by
  have happend : ∀ {files files' : String → List String},
      (∀ name, SameHeaders (files name) (files' name)) → ∀ (file : String)
        {lines lines' : List String}, SameHeaders lines lines' → ∀ name,
          SameHeaders (appendLines files file lines name) (appendLines files' file lines' name) :=
    fun h file _ _ hlines name =>
      sameHeaders_update h file (List.rel_append (h file) hlines) name
  unfold copyLines
  split
  · exact happend (happend h _ (h _)) _ (h _) name
  · exact happend h _ (h _) name

theorem loadPair_blind (path : String) (numSwitch numLight plug : ℕ) {st st' : LoadState}
    (h : SameLoaded st st') (light : ℕ) :
    Option.Rel SameLoaded (loadPair path numSwitch numLight plug st light)
      (loadPair path numSwitch numLight plug st' light) := by
  have hfiles : ∀ name, SameHeaders _ _ :=
    sameHeaders_copyLines (sameHeaders_copyLines
      (sameHeaders_update h.files "detailsDist.txt" .nil) (switchName path plug) (light = 1))
      (lightName path light) (plug = 1)
  unfold loadPair
  simp only [h.formC, h.mon]
  by_cases hroom : st.mon < maxMonitor
  · rw [if_pos hroom, if_pos hroom]
    have hset : SameButValues
        ((st.monitorList st.mon).setValues 0 [switchName path plug, lightName path light]
          (numSwitch * numLight) "detailsDist.txt")
        ((st'.monitorList st.mon).setValues 0 [switchName path plug, lightName path light]
          (numSwitch * numLight) "detailsDist.txt") := by
      obtain ⟨v, w, hm⟩ := h.monitorList st.mon
      rw [hm]
      exact ⟨_, _, rfl⟩
    refine rel_bind (readFile_blind hfiles hset) fun m m' hm =>
      .some ⟨hfiles, rfl, fun k => ?_, rfl⟩
    dsimp only
    rw [Function.update_apply, Function.update_apply]
    split
    · exact hm
    · exact h.monitorList k
  · rw [if_neg hroom, if_neg hroom]
    exact .none

/-- The rooms differ in the values only. -/
structure SameRoom (room room' : Room n) : Prop where
  pair : ∀ k, SameButValues (room.monitorList k) (room'.monitorList k)
  cent : SameButValues room.centMon room'.centMon

/-- **Loading.** -/
theorem loadRoom_blind (path : String) (numSwitch numLight : ℕ)
    (h : ∀ name, SameHeaders (files name) (files' name)) :
    Option.Rel SameRoom (loadRoom path numSwitch numLight files)
      (loadRoom path numSwitch numLight files') := by
  have hinit : SameLoaded ⟨Function.update files "detailsCen.txt" [], [], fun _ => blank, 0⟩
      ⟨Function.update files' "detailsCen.txt" [], [], fun _ => blank, 0⟩ :=
    ⟨sameHeaders_update h "detailsCen.txt" .nil, rfl, fun _ => ⟨_, _, rfl⟩, rfl⟩
  have hloops : Option.Rel SameLoaded _ _ :=
    foldlM_rel (l := List.range' 1 numSwitch) (fun plug _ _ _ hst =>
      foldlM_rel (l := List.range' 1 numLight)
        (fun light _ _ _ hst => loadPair_blind path numSwitch numLight plug hst light) hst) hinit
  refine rel_bind hloops fun st st' hst => ?_
  rw [hst.formC]
  exact rel_bind (readFile_blind hst.files ⟨_, _, rfl⟩) fun cent cent' hcent =>
    .some ⟨fun i => hst.monitorList i, hcent⟩

end Loading

/-! ## Segments -/

section Segment

variable {start fin eps : ℤ}

theorem SameRoom.symm {room room' : Room n} (h : SameRoom room room') : SameRoom room' room :=
  ⟨fun k => (h.pair k).symm, h.cent.symm⟩

theorem monitorSegment_blind {m m' : TraceMonitor} (h : SameButValues m m') :
    Option.Rel SameButValues (monitorSegment start fin eps (solveSMT z) m)
      (monitorSegment start fin eps (solveSMT z) m') := by
  refine rel_bind (readSegTrace_blind h) fun u u' hu => ?_
  rw [solveSMT_blind z hu]
  obtain ⟨v, w, rfl⟩ := hu
  cases solveSMT z u with
  | none => exact .none
  | some verdict =>
    show Option.Rel SameButValues (storeVerdict u verdict) (storeVerdict _ verdict)
    unfold storeVerdict
    by_cases hmod : 0 < u.verdictsMod.length
    · rw [if_pos hmod, if_pos hmod]
      exact .some ⟨v, w, rfl⟩
    · rw [if_neg hmod, if_neg hmod]
      exact .none

/-- The lists of monitors differ in the values only. -/
def SameList (list list' : Fin n → TraceMonitor) : Prop := ∀ k, SameButValues (list k) (list' k)

theorem SameList.update {list list' : Fin n → TraceMonitor} (h : SameList list list') (i : Fin n)
    {m m' : TraceMonitor} (hm : SameButValues m m') :
    SameList (Function.update list i m) (Function.update list' i m') := by
  intro k
  rw [Function.update_apply, Function.update_apply]
  split
  · exact hm
  · exact h k

theorem sharePhase_blind {list list' : Fin n → TraceMonitor} (h : SameList list list') :
    Option.Rel SameList (sharePhase list) (sharePhase list') := by
  rw [sharePhase_eq, sharePhase_eq]
  refine foldlM_rel (fun e _ list list' hlist => ?_) h
  exact rel_bind (shareVerdict_blind (hlist e.1) (hlist e.2)) fun m m' hm =>
    .some (hlist.update e.2 hm)

theorem segment_blind {room room' : Room n} (h : SameRoom room room') :
    Option.Rel SameRoom (segment start fin eps (.ofSolver z) room)
      (segment start fin eps (.ofSolver z) room') := by
  have hall : Option.Rel SameList
      (monitorAll start fin eps (.ofSolver z) room.monitorList)
      (monitorAll start fin eps (.ofSolver z) room'.monitorList) := by
    refine foldlM_rel (fun i _ list list' hlist => ?_) h.pair
    exact rel_bind (monitorSegment_blind (hlist i)) fun m m' hm => .some (hlist.update i hm)
  refine rel_bind hall fun list list' hlist => ?_
  refine rel_bind (monitorSegment_blind h.cent) fun cent cent' hcent => ?_
  exact rel_bind (sharePhase_blind hlist) fun list list' hlist => .some ⟨hlist, hcent⟩

end Segment

/-! ## Runs -/

/-- The states of two runs, the same but for the values. -/
structure SameState (st st' : EpsState n) : Prop where
  eps : st'.eps = st.eps
  start : st'.loop.start = st.loop.start
  fin : st'.loop.fin = st.loop.fin
  room : SameRoom st.loop.room st'.loop.room

theorem SameState.symm {st st' : EpsState n} (h : SameState st st') : SameState st' st :=
  ⟨h.eps.symm, h.start.symm, h.fin.symm, h.room.symm⟩

/-- Both loops go on, or both end. -/
theorem SameState.guard_iff {st st' : EpsState n} (h : SameState st st') :
    LoopGuard st'.loop ↔ LoopGuard st.loop := by
  obtain ⟨v, w, hcent⟩ := h.room.cent
  unfold LoopGuard
  rw [h.fin, hcent]

theorem SameState.loopBody {st st' : EpsState n} (h : SameState st st') :
    Option.Rel (fun loop loop' => SameState ⟨st.eps, loop⟩ ⟨st'.eps, loop'⟩)
      (Room.loopBody mainSegLength st.eps (.ofSolver z) st.loop)
      (Room.loopBody mainSegLength st'.eps (.ofSolver z) st'.loop) := by
  unfold Room.loopBody
  dsimp only
  rw [h.eps, h.fin]
  exact rel_bind (segment_blind h.room) fun room room' hroom => .some ⟨rfl, rfl, rfl, hroom⟩

theorem SameState.stuck_iff {st st' : EpsState n} (h : SameState st st') :
    Stuck z st' ↔ Stuck z st := by
  unfold Stuck
  rw [h.guard_iff]
  refine and_congr_right fun _ => ?_
  have hrel := h.loopBody (z := z)
  generalize Room.loopBody mainSegLength st.eps (.ofSolver z) st.loop = x at hrel ⊢
  generalize Room.loopBody mainSegLength st'.eps (.ofSolver z) st'.loop = y at hrel ⊢
  cases hrel with
  | some => simp
  | none => rfl

theorem SameState.hbSafe_iff {st st' : EpsState n} (h : SameState st st') :
    HbSafe st'.loop.room ↔ HbSafe st.loop.room := by
  have hfits : ∀ {m m' : TraceMonitor}, SameButValues m m' → (m'.HbFits ↔ m.HbFits) := by
    rintro m _ ⟨v, w, rfl⟩
    rfl
  unfold HbSafe
  rw [hfits h.room.cent]
  exact and_congr_left fun _ => forall_congr' fun k => hfits (h.room.pair k)

/-- **Step lemma.** -/
theorem SameState.step {st st' u : EpsState n} (h : SameState st st') (hstep : SolverStep z st u) :
    ∃ u', SolverStep z st' u' ∧ SameState u u' := by
  cases hstep with
  | @segment loop hguard hbody =>
    have hrel := h.loopBody (z := z)
    rw [hbody] at hrel
    generalize hbody' : Room.loopBody mainSegLength st'.eps (.ofSolver z) st'.loop = x at hrel
    cases hrel with
    | some hloop => exact ⟨_, .segment (h.guard_iff.mpr hguard) hbody', hloop⟩
  | nextEps hend heps =>
    refine ⟨_, .nextEps (mt h.guard_iff.mp hend) (by rw [h.eps]; exact heps), ?_⟩
    exact ⟨by rw [h.eps], rfl, rfl, h.room⟩

/-- **Run lemma.** -/
theorem SameRoom.runs {room room' : Room n} (h : SameRoom room room') {st : EpsState n}
    (hr : Runs z room st) : ∃ st', Runs z room' st' ∧ SameState st st' := by
  unfold Runs at hr
  induction hr with
  | refl => exact ⟨_, .refl, rfl, rfl, rfl, h⟩
  | tail _ hstep ih =>
    obtain ⟨st', hr', hsame⟩ := ih
    obtain ⟨u', hstep', hsame'⟩ := hsame.step hstep
    exact ⟨u', hr'.tail hstep', hsame'⟩

theorem SameRoom.wellDefined {room room' : Room n} (h : SameRoom room room')
    (hw : WellDefined z room) : WellDefined z room' where
  fits := by
    intro st' hr'
    obtain ⟨st, hr, hsame⟩ := h.symm.runs hr'
    exact hsame.symm.hbSafe_iff.mpr (hw.fits st hr)
  goesOn := by
    intro st' hr'
    obtain ⟨st, hr, hsame⟩ := h.symm.runs hr'
    exact fun hstuck => hw.goesOn st hr (hsame.stuck_iff.mpr hstuck)

/-- **No verdict depends on a value.**  Take any files and change the values in them, in any way
that makes no header of a value and no value of a header.  The room can be loaded from both or
from neither.  When it is loaded, the run on one is well defined exactly when the run on the other
is, and every state of the one is a state of the other but for the values: all verdict tables, all
numbers of events and all recorded pairs are the same. -/
theorem values_ignored (z : Solver) (path : String) (numSwitch numLight : ℕ)
    {files files' : String → List String}
    (h : ∀ name, SameHeaders (files name) (files' name)) :
    (loadRoom path numSwitch numLight files = none ∧
      loadRoom path numSwitch numLight files' = none) ∨
    ∃ room room', loadRoom path numSwitch numLight files = some room ∧
      loadRoom path numSwitch numLight files' = some room' ∧
      (WellDefined z room ↔ WellDefined z room') ∧
      ∀ st, Runs z room st → ∃ st', Runs z room' st' ∧ SameState st st' := by
  have hload := loadRoom_blind path numSwitch numLight h
  generalize hroom : loadRoom path numSwitch numLight files = x at hload
  generalize hroom' : loadRoom path numSwitch numLight files' = y at hload
  cases hload with
  | none => exact Or.inl ⟨rfl, rfl⟩
  | @some room room' hsame =>
    exact Or.inr ⟨room, room', rfl, rfl, ⟨hsame.wellDefined, hsame.symm.wellDefined⟩,
      fun st hr => hsame.runs hr⟩

/-- The file without its values. -/
def eraseValue (line : String) : String := if IsHeader line then line else ""

theorem sameHeaders_eraseValue (lines : List String) :
    SameHeaders lines (lines.map eraseValue) := by
  unfold SameHeaders
  rw [List.forall₂_map_right_iff, List.forall₂_same]
  intro line _
  unfold eraseValue
  split
  · exact Iff.rfl
  · next hvalue => exact iff_of_false hvalue (by decide)

/-- The kitchen gets the same verdicts when its devices have logged nothing but empty lines. -/
theorem values_ignored_kitchen :
    (loadRoom "kitchen" 2 1 kitchenFiles = none ∧
      loadRoom "kitchen" 2 1 (fun name => (kitchenFiles name).map eraseValue) = none) ∨
    ∃ room room', loadRoom "kitchen" 2 1 kitchenFiles = some room ∧
      loadRoom "kitchen" 2 1 (fun name => (kitchenFiles name).map eraseValue) = some room' ∧
      (WellDefined default room ↔ WellDefined default room') ∧
      ∀ st, Runs default room st → ∃ st', Runs default room' st' ∧ SameState st st' :=
  values_ignored default "kitchen" 2 1 fun name => sameHeaders_eraseValue (kitchenFiles name)

end Room
