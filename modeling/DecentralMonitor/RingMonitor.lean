/-
# The ring monitor of `monitor.cpp`

The `class Monitor` of `monitor.cpp`: `n` monitors that each evaluate a
subformula over their own observations and pass the verdicts they know on to the
next monitor of the ring.

* `RingMonitor n` has the fields of the class; a `Monitor*` is the index of the
  object it points to among the `n` monitors, and `Memory n` is the collection of
  these objects.
* `evaluate`, `evaluateAll` and `shareVerdict` follow the loops of the source.  An
  access outside a vector is undefined behaviour there and `none` here.

The second half gives each method one specification: `evaluateResult_eq` (the loop
of `Evaluate` is the left-to-right fold), `evaluate_spec`, `evaluateAll_spec` and
`shareVerdict_spec` (the loop of `ShareVerdict` copies exactly the flagged slots to
the successor in the ring).
-/
import Mathlib.Data.Fin.Basic
import Mathlib.Data.List.FinRange
import Mathlib.Data.Fintype.Basic
import DecentralMonitor.FallibleLoop
import DecentralMonitor.VerdictTable

open FallibleLoop

/-! ## The class -/

/-- The class `Monitor` of `monitor.cpp`. -/
structure RingMonitor (n : ℕ) extends VerdictTable where
  /-- Monitor id used for monitor-monitor communication. -/
  id : ℕ
  /-- Piece of the formula to evaluate: just the operators. -/
  subformula : List String
  /-- The boolean values the subformula is evaluated on. -/
  observations : List Bool
  /-- Number of monitors in the system. -/
  numMonitors : ℕ
  /-- All other monitors. -/
  network : List (Fin n)
  deriving DecidableEq, Repr

/-- The monitor objects of a system. -/
abbrev Memory (n : ℕ) := Fin n → RingMonitor n

namespace RingMonitor

variable {n : ℕ}

/-- The constructor `Monitor(m_id, m_subformula, m_num_monitors)`. -/
def new (mId : ℕ) (mSubformula : List String) (mNumMonitors : ℕ) : RingMonitor n where
  toVerdictTable := VerdictTable.fresh mNumMonitors
  id := mId
  subformula := mSubformula
  observations := []
  numMonitors := mNumMonitors
  network := []

/-- `AddNetwork(m_network)`. -/
def addNetwork (m : RingMonitor n) (mNetwork : List (Fin n)) : RingMonitor n :=
  { m with network := mNetwork }

/-- The operator `op` applied to two values: conjunction for `"and"`, disjunction
otherwise. -/
def combine (op : String) (a b : Bool) : Bool :=
  if op = "and" then a && b else a || b

/-- One iteration of the loop of `Evaluate`, which extends the vector
`sub_verdict`. -/
def subVerdictStep (m : RingMonitor n) (subVerdict : List Bool) (c : ℕ) : Option (List Bool) := do
  if c = 1 then
    let op ← m.subformula[c - 1]?
    some (subVerdict ++ [combine op (← m.observations[c]?) (← m.observations[c - 1]?)])
  else if 1 < c then
    -- `sub_verdict[c - 2]` is the value pushed by the iteration before
    let op ← m.subformula[c - 1]?
    some (subVerdict ++ [combine op (← m.observations[c]?) (← subVerdict[c - 2]?)])
  else
    some subVerdict

/-- The vector `sub_verdict` at the end of the loop
`for(unsigned c = 1; c < observations.size(); c++)`.  On a list that an `unsigned` cannot
count the counter starts again from 0 and the loop has no end (`evaluateEnds_iff` compares
with the loop itself). -/
def subVerdicts (m : RingMonitor n) : Option (List Bool) :=
  if m.observations.length < UInt32.size then
    (List.range' 1 (m.observations.length - 1)).foldlM (subVerdictStep m) []
  else
    none

/-- The value `sub_verdict.back()` that `Evaluate` stores. -/
def evaluateResult (m : RingMonitor n) : Option Bool := do
  (← m.subVerdicts).getLast?

/-- `Evaluate()`.  Its last two assignments are those of `GetVerdict` at the
monitor's own index. -/
def evaluate (m : RingMonitor n) : Option (RingMonitor n) := do
  let table ← m.getVerdict m.id (← m.evaluateResult)
  some { m with toVerdictTable := table }

/-- The loop of `Evaluate_All` over the remaining indices. -/
def evaluateAllLoop (m : RingMonitor n) : List ℕ → Option Bool
  | [] => some true
  | c :: cs => do
    if (← m.verdicts[c]?) = false then some false else evaluateAllLoop m cs

/-- `Evaluate_All()`. -/
def evaluateAll (m : RingMonitor n) : Option Bool :=
  m.evaluateAllLoop (List.range m.numMonitors)

/-- One iteration of the loop of `ShareVerdict` by monitor `i`. -/
def shareVerdictStep (i : Fin n) (mem : Memory n) (c : ℕ) : Option (Memory n) := do
  let self := mem i
  if ← self.verdictsMod[c]? then
    -- with one monitor the receiver is the sender itself
    let receiver ← self.network[(self.id + 1) % self.numMonitors]?
    let table ← (mem receiver).getVerdict c (← self.verdicts[c]?)
    some (Function.update mem receiver { mem receiver with toVerdictTable := table })
  else
    some mem

/-- `ShareVerdict()` called on monitor `i`. -/
def shareVerdict (i : Fin n) (mem : Memory n) : Option (Memory n) :=
  (List.range (mem i).numMonitors).foldlM (shareVerdictStep i) mem

/-! ## `Evaluate` is a left fold -/

/-- The fold `((o op₀ o₀) op₁ o₁) …` of the observations `os` with the operators
`ops`, from the accumulated value `o`. -/
def leftFold (o : Bool) (os : List Bool) (ops : List String) : Bool :=
  (os.zip ops).foldl (fun acc p => combine p.2 acc p.1) o

/-- The left-to-right fold of a monitor's observations with its operators (`false`
when there is no observation). -/
def foldVerdict : List Bool → List String → Bool
  | [], _ => false
  | o :: os, ops => leftFold o os ops

theorem combine_comm (op : String) (a b : Bool) : combine op a b = combine op b a := by
  unfold combine
  split
  · exact Bool.and_comm a b
  · exact Bool.or_comm a b

/-- The fold of one more observation. -/
theorem leftFold_take_succ {o : Bool} {os : List Bool} {ops : List String} {k : ℕ} {x : Bool}
    {op : String} (hx : os[k]? = some x) (hop : ops[k]? = some op) :
    leftFold o (os.take (k + 1)) (ops.take (k + 1)) =
      combine op x (leftFold o (os.take k) (ops.take k)) := by
  have hlen : (os.take k).length = (ops.take k).length := by
    have h1 := (List.getElem?_eq_some_iff.mp hx).1
    have h2 := (List.getElem?_eq_some_iff.mp hop).1
    rw [List.length_take, List.length_take]
    omega
  unfold leftFold
  rw [List.take_add_one, List.take_add_one, hx, hop, Option.toList_some, Option.toList_some,
    List.zip_append hlen, List.foldl_append]
  exact combine_comm op _ x

/-- The loop invariant of `Evaluate`: after the iterations `c = 1, …, k` the vector
`sub_verdict` holds the folds of the first `2, …, k + 1` observations. -/
theorem subVerdicts_loop {m : RingMonitor n} {o : Bool} {os : List Bool}
    (hobs : m.observations = o :: os) (hsub : m.subformula.length = os.length) :
    ∀ k ≤ os.length, (List.range' 1 k).foldlM (subVerdictStep m) [] =
      some ((List.range k).map
        (fun t => leftFold o (os.take (t + 1)) (m.subformula.take (t + 1)))) := by
  intro k hk
  induction k with
  | zero => rfl
  | succ k ih =>
    obtain ⟨x, hx⟩ : ∃ x, os[k]? = some x := ⟨_, List.getElem?_eq_getElem (by omega)⟩
    obtain ⟨op, hop⟩ : ∃ op, m.subformula[k]? = some op :=
      ⟨_, List.getElem?_eq_getElem (by omega)⟩
    rw [List.range'_concat, foldlM_append_eq_some_iff]
    refine ⟨_, ih (by omega), ?_⟩
    rw [foldlM_singleton, List.range_succ, List.map_append, List.map_singleton,
      leftFold_take_succ hx hop]
    have hobsk : m.observations[1 + 1 * k]? = some x := by
      rw [hobs, show 1 + 1 * k = k + 1 by omega, List.getElem?_cons_succ, hx]
    have hopk : m.subformula[1 + 1 * k - 1]? = some op := by
      rw [show 1 + 1 * k - 1 = k by omega, hop]
    cases k with
    | zero => simp_all [subVerdictStep, leftFold]
    | succ j =>
      have hlast : ((List.range (j + 1)).map (fun t => leftFold o (os.take (t + 1))
          (m.subformula.take (t + 1))))[1 + 1 * (j + 1) - 2]? =
          some (leftFold o (os.take (j + 1)) (m.subformula.take (j + 1))) := by
        rw [show 1 + 1 * (j + 1) - 2 = j by omega]
        simp
      unfold subVerdictStep
      rw [if_neg (by omega), if_pos (by omega), hopk, hobsk, hlast]
      rfl

/-- **`Evaluate` computes the left fold.**  With one operator fewer than there are
observations, at least one operator, and not more observations than `unsigned` can count,
the value `Evaluate` stores is the left-to-right fold. -/
theorem evaluateResult_eq {m : RingMonitor n}
    (hlen : m.subformula.length = m.observations.length - 1) (hpos : 1 ≤ m.subformula.length)
    (hcount : m.observations.length < UInt32.size) :
    m.evaluateResult = some (foldVerdict m.observations m.subformula) := by
  cases hobs : m.observations with
  | nil =>
    have hzero : m.subformula.length = 0 := by
      rw [hlen, hobs]
      rfl
    omega
  | cons o os =>
    have hsub : m.subformula.length = os.length := by
      rw [hlen, hobs]
      rfl
    obtain ⟨k, hk⟩ : ∃ k, os.length = k + 1 := ⟨os.length - 1, by omega⟩
    have hloop := subVerdicts_loop hobs hsub os.length le_rfl
    have hsubs : m.subVerdicts = some ((List.range os.length).map
        (fun t => leftFold o (os.take (t + 1)) (m.subformula.take (t + 1)))) := by
      rw [subVerdicts, if_pos hcount, hobs]
      exact hloop
    rw [evaluateResult, hsubs, hk]
    simp only [Option.bind_eq_bind, Option.bind_some, List.range_succ, List.map_append,
      List.map_singleton, List.getLast?_concat, foldVerdict]
    rw [← hk, List.take_length, ← hsub, List.take_length]

/-- A call of `Evaluate` that stores a value ends its loop. -/
theorem length_lt_of_evaluateResult {m : RingMonitor n} {v : Bool}
    (h : m.evaluateResult = some v) : m.observations.length < UInt32.size := by
  by_contra hlong
  rw [evaluateResult, subVerdicts, if_neg hlong] at h
  exact Option.some_ne_none v h.symm

/-! ## What the methods leave alone -/

/-- Two monitor objects that differ at most in the contents of their verdict
vectors. -/
structure SameSetup (m m' : RingMonitor n) : Prop where
  id : m'.id = m.id
  subformula : m'.subformula = m.subformula
  observations : m'.observations = m.observations
  numMonitors : m'.numMonitors = m.numMonitors
  network : m'.network = m.network

theorem SameSetup.refl (m : RingMonitor n) : SameSetup m m := ⟨rfl, rfl, rfl, rfl, rfl⟩

theorem SameSetup.trans {m m' m'' : RingMonitor n} (h : SameSetup m m') (h' : SameSetup m' m'') :
    SameSetup m m'' :=
  ⟨h'.id.trans h.id, h'.subformula.trans h.subformula, h'.observations.trans h.observations,
    h'.numMonitors.trans h.numMonitors, h'.network.trans h.network⟩

theorem sameSetup_table (m : RingMonitor n) (t : VerdictTable) :
    SameSetup m { m with toVerdictTable := t } := ⟨rfl, rfl, rfl, rfl, rfl⟩

/-- What `Evaluate` computes depends on the setup only. -/
theorem SameSetup.evaluateResult_eq {m m' : RingMonitor n} (h : SameSetup m m') :
    m'.evaluateResult = m.evaluateResult := by
  have hstep : subVerdictStep m' = subVerdictStep m := by
    funext subVerdict c
    unfold subVerdictStep
    rw [h.subformula, h.observations]
  unfold evaluateResult subVerdicts
  rw [hstep, h.observations]

/-! ## Rings -/

/-- The ring set up as in `main`: ids are the positions in the shared network, all
`n` monitors are counted, and the vectors have one entry for each. -/
structure Wired (mem : Memory n) : Prop where
  id : ∀ i, (mem i).id = i
  numMonitors : ∀ i, (mem i).numMonitors = n
  network : ∀ i, (mem i).network = List.finRange n
  sized : ∀ i, (mem i).Sized n

/-- The next monitor in the ring, `network[(id + 1) % num_monitors]`. -/
def succ (i : Fin n) : Fin n := ⟨(i + 1) % n, Nat.mod_lt _ (Nat.zero_lt_of_lt i.isLt)⟩

/-- Wiring survives any change of the table contents. -/
theorem Wired.of_sameSetup {mem mem' : Memory n} (h : Wired mem)
    (hs : ∀ i, SameSetup (mem i) (mem' i)) (hsized : ∀ i, (mem' i).Sized n) : Wired mem' where
  id := fun i => by rw [(hs i).id, h.id i]
  numMonitors := fun i => by rw [(hs i).numMonitors, h.numMonitors i]
  network := fun i => by rw [(hs i).network, h.network i]
  sized := hsized

theorem Wired.getElem_network {mem : Memory n} (h : Wired mem) (i : Fin n) :
    (mem i).network[((mem i).id + 1) % (mem i).numMonitors]? = some (succ i) := by
  have hn : 0 < n := Nat.zero_lt_of_lt i.isLt
  have hlt : (i + 1) % n < n := Nat.mod_lt _ hn
  rw [h.network, h.id, h.numMonitors, List.getElem?_eq_getElem (by simpa using hlt)]
  simp [succ]

/-- The state a call of a method leaves: wired as before, the setups unchanged. -/
structure Keeps (mem mem' : Memory n) : Prop where
  wired : Wired mem'
  setup : ∀ i, SameSetup (mem i) (mem' i)

theorem Keeps.refl {mem : Memory n} (h : Wired mem) : Keeps mem mem :=
  ⟨h, fun i => SameSetup.refl (mem i)⟩

theorem Keeps.trans {mem mem' mem'' : Memory n} (h : Keeps mem mem') (h' : Keeps mem' mem'') :
    Keeps mem mem'' :=
  ⟨h'.wired, fun i => (h.setup i).trans (h'.setup i)⟩

/-- Writing a table of the right size into one monitor keeps the ring. -/
theorem keeps_update {mem : Memory n} (h : Wired mem) (r : Fin n) {t : VerdictTable}
    (ht : t.Sized n) :
    Keeps mem (Function.update mem r { mem r with toVerdictTable := t }) := by
  have hs : ∀ i, SameSetup (mem i)
      (Function.update mem r { mem r with toVerdictTable := t } i) := by
    intro i
    by_cases hi : i = r
    · subst hi
      rw [Function.update_self]
      exact sameSetup_table (mem i) t
    · rw [Function.update_of_ne hi]
      exact SameSetup.refl (mem i)
  refine ⟨h.of_sameSetup hs fun i => ?_, hs⟩
  by_cases hi : i = r
  · subst hi
    rw [Function.update_self]
    exact ht
  · rw [Function.update_of_ne hi]
    exact h.sized i

/-! ## Specifications of the methods on a ring -/

/-- In a ring an iteration of `ShareVerdict` copies the slot to the successor if it
is flagged. -/
theorem shareVerdictStep_eq {mem : Memory n} (h : Wired mem) (i : Fin n) {c : ℕ} (hc : c < n) :
    shareVerdictStep i mem c =
      ((mem i).toVerdictTable.shareSlot (mem (succ i)).toVerdictTable c).map
        (fun t => Function.update mem (succ i) { mem (succ i) with toVerdictTable := t }) := by
  obtain ⟨f, hf⟩ : ∃ f, (mem i).verdictsMod[c]? = some f :=
    ⟨_, List.getElem?_eq_getElem (by rw [(h.sized i).verdictsMod]; exact hc)⟩
  cases f with
  | false => simp [shareVerdictStep, VerdictTable.shareSlot, hf]
  | true =>
    simp only [shareVerdictStep, VerdictTable.shareSlot, hf, h.getElem_network i,
      Option.bind_eq_bind, Option.bind_some, if_true]
    cases (mem i).verdicts[c]? with
    | none => rfl
    | some v =>
      simp only [Option.bind_some]
      cases (mem (succ i)).getVerdict c v <;> rfl

/-- **Specification of `ShareVerdict`.**  The call succeeds, keeps the ring, and
copies exactly the flagged slots of monitor `i` to its successor. -/
theorem shareVerdict_spec {mem : Memory n} (h : Wired mem) (i : Fin n) :
    ∃ mem', shareVerdict i mem = some mem' ∧ Keeps mem mem' ∧
      ∀ j c, (mem' j).slot c =
        if j = succ i ∧ (mem i).Flagged c then (mem i).slot c else (mem j).slot c := by
  -- the invariant of the loop: the slots below the counter have been copied
  have hloop : ∃ mem', (List.range n).foldlM (shareVerdictStep i) mem = some mem' ∧
      Keeps mem mem' ∧ ∀ j c, (mem' j).slot c =
        if j = succ i ∧ c < n ∧ (mem i).Flagged c then (mem i).slot c else (mem j).slot c := by
    apply exists_foldlM_range (P := fun k mem' => Keeps mem mem' ∧ ∀ j c, (mem' j).slot c =
        if j = succ i ∧ c < k ∧ (mem i).Flagged c then (mem i).slot c else (mem j).slot c)
    · exact ⟨Keeps.refl h, fun j c => by simp⟩
    · intro k hk u hu
      obtain ⟨hkeep, hslot⟩ := hu
      have hself : (u i).slot k = (mem i).slot k := by
        rw [hslot i k, if_neg (by omega)]
      have hflag : (u i).Flagged k ↔ (mem i).Flagged k := VerdictTable.flagged_congr hself
      obtain ⟨t, ht, htsized, htslot⟩ :=
        VerdictTable.shareSlot_spec (hkeep.wired.sized i) (hkeep.wired.sized (succ i)) hk
      refine ⟨_, ?_, hkeep.trans (keeps_update hkeep.wired (succ i) htsized), fun j c => ?_⟩
      · rw [shareVerdictStep_eq hkeep.wired i hk, ht]
        rfl
      · by_cases hj : j = succ i
        · subst hj
          rw [Function.update_self, htslot c, hself, hslot (succ i) c]
          simp only [hflag]
          by_cases hck : c = k
          · subst hck
            by_cases hfl : (mem i).Flagged c <;> simp [hfl]
          · have hlt : c < k + 1 ↔ c < k := by omega
            simp [hck, hlt]
        · rw [Function.update_of_ne hj, hslot j c, if_neg (by tauto), if_neg (by tauto)]
  obtain ⟨mem', hrun, hkeep, hslot⟩ := hloop
  refine ⟨mem', ?_, hkeep, fun j c => ?_⟩
  · rw [shareVerdict, h.numMonitors i]
    exact hrun
  · rw [hslot j c]
    by_cases hfl : (mem i).Flagged c
    · have hc : c < n := hfl.lt (h.sized i)
      simp [hfl, hc]
    · simp [hfl]

/-- **Specification of `Evaluate`.**  When the fold is defined the call succeeds,
keeps the ring, and writes the monitor's own slot only. -/
theorem evaluate_spec {mem : Memory n} (h : Wired mem) (i : Fin n) {v : Bool}
    (hv : (mem i).evaluateResult = some v) :
    ∃ m', (mem i).evaluate = some m' ∧ Keeps mem (Function.update mem i m') ∧
      ∀ j c, (Function.update mem i m' j).slot c =
        if j = i ∧ c = i then (some v, some true) else (mem j).slot c := by
  have hi : (mem i).id < n := by
    rw [h.id i]
    exact i.isLt
  obtain ⟨t, ht, htsized, htslot⟩ := VerdictTable.getVerdict_spec (h.sized i) hi v
  refine ⟨{ mem i with toVerdictTable := t }, ?_, keeps_update h i htsized, fun j c => ?_⟩
  · simp [evaluate, hv, ht]
  · by_cases hj : j = i
    · subst hj
      rw [Function.update_self, htslot c, h.id j]
      simp
    · rw [Function.update_of_ne hj, if_neg (by tauto)]

/-- The loop of `Evaluate_All` succeeds on indices inside the vector, with `true`
exactly when all entries are true. -/
theorem evaluateAllLoop_spec {m : RingMonitor n} {cs : List ℕ}
    (hcs : ∀ c ∈ cs, c < m.verdicts.length) :
    ∃ b, m.evaluateAllLoop cs = some b ∧ (b = true ↔ ∀ c ∈ cs, m.verdicts[c]? = some true) := by
  induction cs with
  | nil => exact ⟨true, rfl, by simp⟩
  | cons c cs ih =>
    obtain ⟨b, hb, hiff⟩ := ih (fun d hd => hcs d (List.mem_cons_of_mem c hd))
    obtain ⟨v, hv⟩ : ∃ v, m.verdicts[c]? = some v :=
      ⟨_, List.getElem?_eq_getElem (hcs c List.mem_cons_self)⟩
    cases v with
    | false => exact ⟨false, by simp [evaluateAllLoop, hv], by simp [hv]⟩
    | true => exact ⟨b, by simp [evaluateAllLoop, hv, hb], by simp [hv, hiff]⟩

/-- **Specification of `Evaluate_All`.**  It succeeds, with `true` exactly when
every entry of the monitor's `verdicts` is true. -/
theorem evaluateAll_spec {mem : Memory n} (h : Wired mem) (i : Fin n) :
    ∃ b, (mem i).evaluateAll = some b ∧
      (b = true ↔ ∀ k : Fin n, (mem i).verdicts[(k : ℕ)]? = some true) := by
  obtain ⟨b, hb, hiff⟩ := evaluateAllLoop_spec (m := mem i)
    (fun c hc => by rw [(h.sized i).verdicts]; exact List.mem_range.mp hc)
  refine ⟨b, ?_, hiff.trans ?_⟩
  · rw [evaluateAll, h.numMonitors i]
    exact hb
  · constructor
    · intro hall k
      exact hall k (List.mem_range.mpr k.isLt)
    · intro hall c hc
      exact hall ⟨c, List.mem_range.mp hc⟩

end RingMonitor
