/-
# The sharing phase of `main.cpp`

The pairwise monitors share their verdicts all to all.  `sharePhase_spec` says that
the sharing phase is a sequence of deliveries of verdict tables, one for each pair of
different monitors, and changes nothing but the tables.

`ring_refines_allToAll` compares it with `monitor.cpp`: one sharing phase and the
rounds of the ring end in the same tables, from any consistent tables.
-/
import Mathlib.Tactic.FinCases
import DecentralMonitor.RingConvergence
import DecentralMonitor.Room
import DecentralMonitor.SegmentTrace

open FallibleLoop Flooding TableExchange

namespace Room

variable {n : ℕ}

/-! ## One call of `ShareVerdict` -/

/-- The call succeeds and copies the flagged slots. -/
theorem shareVerdict_spec {self m : TraceMonitor} (hnum : self.numMonitors = n)
    (hself : self.Sized n) (hm : m.Sized n) :
    ∃ t : VerdictTable, self.shareVerdict m = some { m with toVerdictTable := t } ∧ t.Sized n ∧
      ∀ c, t.slot c = if self.Flagged c then self.slot c else m.slot c := by
  obtain ⟨t, ht, hsized, hslot⟩ := exists_foldlM_range
    (f := VerdictTable.shareSlot self.toVerdictTable) (n := n) (s := m.toVerdictTable)
    (P := fun k t => t.Sized n ∧
      ∀ c, t.slot c = if c < k ∧ self.Flagged c then self.slot c else m.slot c)
    ⟨hm, fun c => by simp⟩ (by
      rintro k hk t ⟨hsized, hslot⟩
      obtain ⟨t', ht', hsized', hslot'⟩ := VerdictTable.shareSlot_spec hself hsized hk
      refine ⟨t', ht', hsized', fun c => ?_⟩
      rw [hslot' c, hslot c]
      by_cases hck : c = k
      · subst hck
        by_cases hf : self.Flagged c <;> simp [hf]
      · have hlt : c < k + 1 ↔ c < k := by omega
        simp [hck, hlt])
  refine ⟨t, ?_, hsized, fun c => ?_⟩
  · unfold TraceMonitor.shareVerdict
    rw [hnum, ht]
    rfl
  · rw [hslot c]
    by_cases hf : self.Flagged c
    · have hc : c < n := hf.lt hself
      simp [hf, hc]
    · simp [hf]

/-! ## The sharing phase -/

/-- The pairwise monitors count `n` monitors and have a slot for each. -/
structure Ready (list : Fin n → TraceMonitor) : Prop where
  numMonitors : ∀ i, (list i).numMonitors = n
  sized : ∀ i, (list i).Sized n

/-- Nothing but the verdict tables has changed. -/
def OnlyTables (list list' : Fin n → TraceMonitor) : Prop :=
  ∀ i, list' i = { list i with toVerdictTable := (list' i).toVerdictTable }

theorem OnlyTables.trans {list list' list'' : Fin n → TraceMonitor} (h : OnlyTables list list')
    (h' : OnlyTables list' list'') : OnlyTables list list'' := by
  intro i
  rw [h' i, h i]

/-- The tables of the monitors. -/
def family (list : Fin n → TraceMonitor) : Family n := fun i => (list i).toVerdictTable

/-- A call of `ShareVerdict` is a delivery. -/
theorem send_spec {list : Fin n → TraceMonitor} (h : Ready list) (e : Fin n × Fin n) :
    ∃ list', send list e = some list' ∧ OnlyTables list list' ∧ Ready list' ∧
      Delivered (family list) (family list') e := by
  obtain ⟨i, j⟩ := e
  obtain ⟨t, ht, hsized, hslot⟩ := shareVerdict_spec (h.numMonitors i) (h.sized i) (h.sized j)
  have hcase : ∀ k, Function.update list j { list j with toVerdictTable := t } k =
      if k = j then { list j with toVerdictTable := t } else list k :=
    fun k => Function.update_apply ..
  refine ⟨Function.update list j { list j with toVerdictTable := t }, ?_, ?_, ⟨?_, ?_⟩, ?_⟩
  · unfold send
    rw [ht]
    rfl
  · intro k
    rw [hcase]
    split
    · next hk => rw [hk]
    · rfl
  · intro k
    rw [hcase]
    split
    · exact h.numMonitors j
    · exact h.numMonitors k
  · intro k
    rw [hcase]
    split
    · exact hsized
    · exact h.sized k
  · intro k c
    show (Function.update list j { list j with toVerdictTable := t } k).slot c =
      if k = j ∧ (list i).Flagged c then (list i).slot c else (list k).slot c
    rw [hcase]
    by_cases hk : k = j
    · rw [if_pos hk, hk]
      simpa using hslot c
    · rw [if_neg hk, if_neg fun hc => hk hc.1]

/-- The calls of the sharing phase in their order. -/
def allToAll (n : ℕ) : List (Fin n × Fin n) :=
  (List.finRange n).flatMap fun i => (List.finRange n).flatMap fun j =>
    if i ≠ j then [(i, j)] else []

theorem mem_allToAll {i j : Fin n} (h : i ≠ j) : (i, j) ∈ allToAll n := by
  unfold allToAll
  refine List.mem_flatMap.mpr ⟨i, List.mem_finRange i, List.mem_flatMap.mpr
    ⟨j, List.mem_finRange j, ?_⟩⟩
  rw [if_pos h]
  exact List.mem_singleton_self _

/-- The two loops of the sharing phase as one. -/
theorem sharePhase_eq (list : Fin n → TraceMonitor) :
    sharePhase list = (allToAll n).foldlM send list := by
  unfold sharePhase allToAll
  rw [foldlM_flatMap]
  congr 1
  funext list i
  rw [foldlM_flatMap]
  congr 1
  funext list j
  split
  · rw [foldlM_singleton]
  · rfl

/-- Calls of `ShareVerdict`, one after the other, are a sequence of deliveries. -/
theorem foldlM_send_spec {list : Fin n → TraceMonitor} (h : Ready list)
    (es : List (Fin n × Fin n)) :
    ∃ list', es.foldlM send list = some list' ∧ OnlyTables list list' ∧ Ready list' ∧
      Exchange (family list) es (family list') := by
  induction es generalizing list with
  | nil => exact ⟨list, rfl, fun _ => rfl, h, .nil⟩
  | cons e es ih =>
    obtain ⟨u, hu, honly, hready, hdel⟩ := send_spec h e
    obtain ⟨list', hlist', honly', hready', hex⟩ := ih hready
    refine ⟨list', ?_, honly.trans honly', hready', .cons hdel hready.sized hex⟩
    rw [List.foldlM_cons, hu]
    exact hlist'

/-- **The sharing phase** is a sequence of deliveries. -/
theorem sharePhase_spec {list : Fin n → TraceMonitor} (h : Ready list) :
    ∃ list', sharePhase list = some list' ∧ OnlyTables list list' ∧ Ready list' ∧
      Exchange (family list) (allToAll n) (family list') := by
  rw [sharePhase_eq]
  exact foldlM_send_spec h (allToAll n)

/-- Everybody sends to everybody. -/
theorem spreads_allToAll : Spreads (allToAll n) := by
  intro i j
  by_cases h : i = j
  · rw [h]
    exact carries_refl _ j
  · exact carries_of_mem (mem_allToAll h)

/-! ## Ring sharing and all-to-all sharing -/

/-- The rounds of a ring of `n` monitors succeed and are a sequence of deliveries. -/
theorem exists_run_mainSchedule {mem : Memory n} (h : RingMonitor.Wired mem) :
    ∃ mem', RingMonitor.run mem ((RingMonitor.mainSchedule n).map .shareVerdict) = some mem' ∧
      Exchange (RingMonitor.family mem)
        ((RingMonitor.mainSchedule n).map fun i => (i, RingMonitor.succ i))
        (RingMonitor.family mem') := by
  obtain ⟨mem', hrun, -⟩ := exists_foldlM (f := RingMonitor.step) (P := RingMonitor.Wired)
    (l := (RingMonitor.mainSchedule n).map .shareVerdict) (by
      intro a ha mem hmem
      obtain ⟨i, -, rfl⟩ := List.mem_map.mp ha
      obtain ⟨mem', hstep, hkeep, -⟩ := RingMonitor.shareVerdict_spec hmem i
      exact ⟨mem', hstep, hkeep.wired⟩) h
  exact ⟨mem', hrun, RingMonitor.exchange_run_share h hrun⟩

/-- The rounds of the ring carry every table to every monitor. -/
theorem spreads_mainSchedule :
    Spreads ((RingMonitor.mainSchedule n).map fun i => (i, RingMonitor.succ i)) := by
  rw [RingMonitor.mainSchedule_eq_flatten]
  apply RingMonitor.spreads_of_blocks
  · rw [List.length_replicate]
    omega
  · intro b hb i
    rw [List.eq_of_mem_replicate hb]
    exact List.mem_finRange i

/-- **Ring sharing refines all-to-all sharing.**  Let a list of trace monitors and a
ring hold the same tables, in which no two monitors have different verdicts flagged in
one slot.  One sharing phase of the former and the `n` in-order rounds of the latter
end in the same tables: what was flagged anywhere is flagged everywhere with its
verdict, what was flagged nowhere is untouched. -/
theorem ring_refines_allToAll (list : Fin n → TraceMonitor) (mem : Memory n)
    (hlist : Ready list) (hmem : RingMonitor.Wired mem)
    (hsame : ∀ i, (list i).toVerdictTable = (mem i).toVerdictTable)
    (hcons : ∀ c i j v w, (list i).slot c = (some v, some true) →
      (list j).slot c = (some w, some true) → v = w) :
    ∃ list' mem', sharePhase list = some list' ∧
      RingMonitor.run mem ((RingMonitor.mainSchedule n).map .shareVerdict) = some mem' ∧
      (∀ i, (list' i).verdicts = (mem' i).verdicts ∧
        (list' i).verdictsMod = (mem' i).verdictsMod) ∧
      (∀ c v, (∃ j, (list j).slot c = (some v, some true)) →
        ∀ i, (list' i).slot c = (some v, some true)) ∧
      ∀ c, (∀ j, ¬ (list j).Flagged c) → ∀ i, (list' i).slot c = (list i).slot c := by
  have hfamily : RingMonitor.family mem = family list := funext fun i => (hsame i).symm
  obtain ⟨list', hshare, -, hready, hex⟩ := sharePhase_spec hlist
  obtain ⟨mem', hrun, hex'⟩ := exists_run_mainSchedule hmem
  rw [hfamily] at hex'
  -- both exchanges spread every table, and the outcome of that is unique
  have hmerged : Merged (family list) (family list') :=
    exchange_spreads hex hlist.sized hcons spreads_allToAll
  have hmerged' : Merged (family list) (RingMonitor.family mem') :=
    exchange_spreads hex' hlist.sized hcons spreads_mainSchedule
  have heq : family list' = RingMonitor.family mem' := hmerged.unique hlist.sized hmerged'
  refine ⟨list', mem', hshare, hrun, fun i => ?_, hmerged.flagged, hmerged.not_flagged⟩
  have hi : (list' i).toVerdictTable = (mem' i).toVerdictTable := congrFun heq i
  rw [hi]
  exact ⟨rfl, rfl⟩

/-- Two monitors, each with its own slot flagged, shared both ways. -/
theorem ring_refines_allToAll_two :
    ∃ list list' mem', family (n := 2) list =
        ![⟨[true, false], [true, false]⟩, ⟨[false, false], [false, true]⟩] ∧
      sharePhase list = some list' ∧
      RingMonitor.run (n := 2) (fun i => { RingMonitor.setup (fun _ => []) (fun _ => []) i with
        toVerdictTable := (list i).toVerdictTable })
        ((RingMonitor.mainSchedule 2).map .shareVerdict) = some mem' ∧
      ∀ i, (list' i).verdicts = (mem' i).verdicts := by
  let T : Family 2 := ![⟨[true, false], [true, false]⟩, ⟨[false, false], [false, true]⟩]
  have hsized : ∀ i, (T i).Sized 2 := by
    intro i
    fin_cases i <;> exact ⟨rfl, rfl⟩
  have hcons : Consistent T := by
    intro c i j v w hv hw
    match c with
    | 0 | 1 => fin_cases i <;> fin_cases j <;> simp_all [T, VerdictTable.slot]
    | c + 2 => fin_cases i <;> simp [T, VerdictTable.slot] at hv
  obtain ⟨list', mem', hshare, hrun, hsame, -⟩ := ring_refines_allToAll (n := 2)
    (fun i => { TraceMonitor.blank with toVerdictTable := T i, numMonitors := 2 })
    (fun i => { RingMonitor.setup (fun _ => []) (fun _ => []) i with toVerdictTable := T i })
    ⟨fun _ => rfl, hsized⟩ ⟨fun _ => rfl, fun _ => rfl, fun _ => rfl, hsized⟩ (fun _ => rfl) hcons
  exact ⟨_, list', mem', rfl, hshare, hrun, fun i => (hsame i).1⟩

end Room
