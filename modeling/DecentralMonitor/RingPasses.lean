/-
# In-order passes around the ring

`main` of `monitor.cpp` lets the monitors share in the order of their ids, again and
again.  Within one such pass each monitor forwards what it has just received, so a
table travels from its monitor to all later ones and from the last one to monitor 0
(`carries_pass_iff`); a second pass takes it to the monitors it has not reached.

The state after the second pass (`AllKnow`) is a fixed point of every
`ShareVerdict` (`AllKnow.run_share_eq`), and so the later rounds of `main` do nothing.
-/
import Mathlib.Data.Fin.SuccPred
import DecentralMonitor.RingEpoch

open Flooding TableExchange

namespace RingMonitor

variable {n : ℕ}

/-! ## Where a pass carries a table -/

/-- One in-order pass: monitor 0 shares, then 1, …, then `n - 1`. -/
def inOrderPass (n : ℕ) : List (Fin n) := List.finRange n

/-- The deliveries of an in-order pass. -/
def passDeliveries (n : ℕ) : List (Fin n × Fin n) := (inOrderPass n).map (fun i => (i, succ i))

/-- The monitors below `v + d` hand the table of `v` on over `d` hops, each
forwarding what it has just received. -/
theorem carries_take_pass (v : Fin n) (d : ℕ) (hd : (v : ℕ) + d ≤ n) :
    Carries (((inOrderPass n).take (v + d)).map (fun i => (i, succ i))) v (succ^[d] v) := by
  induction d with
  | zero => exact carries_refl _ v
  | succ d ih =>
    have hlt : (v : ℕ) + d < (inOrderPass n).length := by
      rw [inOrderPass, List.length_finRange]
      omega
    have hlast : (inOrderPass n)[(v : ℕ) + d] = succ^[d] v := by
      apply Fin.ext
      rw [succ_iterate_val, Nat.mod_eq_of_lt (by omega)]
      simp [inOrderPass]
    rw [← Nat.add_assoc, ← List.take_append_getElem hlt, hlast, List.map_append, carries_append]
    refine ⟨succ^[d] v, ih (by omega), ?_⟩
    rw [Function.iterate_succ_apply']
    exact Or.inr ⟨rfl, rfl⟩

/-- What the first monitors of a pass have handed on stays there. -/
theorem carries_pass_iterate (v : Fin n) (d : ℕ) (hd : (v : ℕ) + d ≤ n) :
    Carries (passDeliveries n) v (succ^[d] v) := by
  rw [passDeliveries, ← List.take_append_drop ((v : ℕ) + d) (inOrderPass n), List.map_append,
    carries_append]
  exact ⟨succ^[d] v, carries_take_pass v d hd, carries_refl _ _⟩

/-- The deliveries of a pass: up the ids, then from the last monitor to the first. -/
theorem passDeliveries_succ (n : ℕ) :
    passDeliveries (n + 1) =
      (List.finRange n).map (fun i => (i.castSucc, i.succ)) ++ [(Fin.last n, 0)] := by
  rw [passDeliveries, inOrderPass, List.finRange_succ_last, List.map_append, List.map_map,
    List.map_singleton]
  congr 1
  · apply List.map_congr_left
    intro i _
    have hsucc : succ i.castSucc = i.succ := by
      apply Fin.ext
      simp [succ]
    rw [Function.comp_apply, hsucc]
  · have hwrap : succ (Fin.last n) = 0 := by
      apply Fin.ext
      simp [succ]
    rw [hwrap]

/-- **One pass.**  The table of `k` reaches exactly the monitors from `k` on, and
monitor 0. -/
theorem carries_pass_iff {k i : Fin n} :
    Carries (passDeliveries n) k i ↔ k ≤ i ∨ (i : ℕ) = 0 := by
  have hk := k.isLt
  have hi := i.isLt
  constructor
  · intro h
    obtain ⟨m, rfl⟩ : ∃ m, n = m + 1 := ⟨n - 1, by omega⟩
    rw [passDeliveries_succ, carries_append] at h
    obtain ⟨u, hku, hui⟩ := h
    have hle : k ≤ u := by
      apply hku.rel le_refl (fun _ _ _ => le_trans)
      intro e he
      obtain ⟨j, -, rfl⟩ := List.mem_map.mp he
      exact j.castSucc_lt_succ.le
    rcases hui with hstay | ⟨-, hzero⟩
    · obtain rfl : u = i := hstay
      exact Or.inl hle
    · obtain rfl : 0 = i := hzero
      exact Or.inr rfl
  · rintro (hle | hzero)
    · have hval : (k : ℕ) ≤ i := hle
      have hend : succ^[(i : ℕ) - k] k = i := by
        apply Fin.ext
        rw [succ_iterate_val, show (k : ℕ) + (i - k) = i by omega, Nat.mod_eq_of_lt hi]
      rw [← hend]
      exact carries_pass_iterate k _ (by omega)
    · have hend : succ^[n - (k : ℕ)] k = i := by
        apply Fin.ext
        rw [succ_iterate_val, show (k : ℕ) + (n - k) = n by omega, Nat.mod_self, hzero]
      rw [← hend]
      exact carries_pass_iterate k _ (by omega)

/-- Two passes carry every table to every monitor. -/
theorem spreads_two_passes (n : ℕ) :
    Spreads ((inOrderPass n ++ inOrderPass n).map (fun i => (i, succ i))) := by
  intro k i
  rw [List.map_append, carries_append]
  have hn : 0 < n := Nat.zero_lt_of_lt k.isLt
  refine ⟨⟨0, hn⟩, ?_, ?_⟩
  · apply carries_pass_iff.mpr
    exact Or.inr rfl
  · apply carries_pass_iff.mpr
    exact Or.inl (Nat.zero_le i)

/-! ## Schedules of `ShareVerdict` calls -/

/-- A schedule of `ShareVerdict` calls keeps the ring. -/
theorem keeps_run_share {mem mem' : Memory n} (h : Wired mem) {sched : List (Fin n)}
    (hr : run mem (sched.map .shareVerdict) = some mem') : Keeps mem mem' := by
  apply FallibleLoop.of_foldlM_eq_some (P := Keeps mem) _ (Keeps.refl h) hr
  intro a ha u w hu hs
  obtain ⟨i, -, rfl⟩ := List.mem_map.mp ha
  apply hu.trans
  apply (effect_of_step hu.wired hs).keeps hu.wired
  simp

/-- Monitor objects with the same setup and the same slots are the same. -/
theorem memory_ext {mem mem' : Memory n} (hs : ∀ i, SameSetup (mem i) (mem' i))
    (hslot : ∀ i c, (mem' i).slot c = (mem i).slot c) : mem' = mem := by
  funext i
  have htable : (mem' i).toVerdictTable = (mem i).toVerdictTable :=
    VerdictTable.ext_slot (hslot i)
  have hi := hs i
  cases hm : mem i
  cases hm' : mem' i
  rw [hm, hm'] at hi htable
  obtain ⟨hid, hsub, hobs, hnum, hnet⟩ := hi
  simp only at hid hsub hobs hnum hnet htable
  rw [hid, hsub, hobs, hnum, hnet, htable]

/-- Each monitor has its own slot flagged, and no other. -/
def OwnFlagged (mem : Memory n) : Prop := ∀ i k : Fin n, (mem i).Flagged k ↔ k = i

/-- Every monitor has every slot flagged, with the verdict its owner had in `mem`. -/
def AllKnow (mem mem' : Memory n) : Prop :=
  ∀ i k : Fin n, (mem' i).slot k = ((mem k).verdicts[(k : ℕ)]?, some true)

theorem OwnFlagged.slot_self {mem : Memory n} (h : Wired mem) (hown : OwnFlagged mem)
    (k : Fin n) : ∃ v, (mem k).slot k = (some v, some true) := by
  have hlt : (k : ℕ) < (mem k).verdicts.length := by
    rw [(h.sized k).verdicts]
    exact k.isLt
  refine ⟨(mem k).verdicts[(k : ℕ)], Prod.ext ?_ ?_⟩
  · exact List.getElem?_eq_getElem hlt
  · exact (hown k k).mpr rfl

/-- With only the own slots flagged no two monitors can disagree. -/
theorem OwnFlagged.consistent {mem : Memory n} (h : Wired mem) (hown : OwnFlagged mem) :
    TableExchange.Consistent (family mem) := by
  intro c k l v w hv hw
  have hfk : (mem k).Flagged c := congrArg Prod.snd hv
  have hfl : (mem l).Flagged c := congrArg Prod.snd hw
  obtain ⟨c, rfl⟩ : ∃ j : Fin n, c = j := ⟨⟨c, hfk.lt (h.sized k)⟩, rfl⟩
  obtain rfl : c = k := (hown k c).mp hfk
  obtain rfl : c = l := (hown l c).mp hfl
  exact Option.some.inj ((congrArg Prod.fst hv).symm.trans (congrArg Prod.fst hw))

/-- A schedule that spreads every table leaves the merged tables. -/
theorem merged_of_spreads {mem mem' : Memory n} (h : Wired mem) (hown : OwnFlagged mem)
    {sched : List (Fin n)} (hspread : Spreads (sched.map (fun i => (i, succ i))))
    (hr : run mem (sched.map .shareVerdict) = some mem') : Merged (family mem) (family mem') :=
  exchange_spreads (exchange_run_share h hr) h.sized (hown.consistent h) hspread

theorem allKnow_of_merged {mem mem' : Memory n} (h : Wired mem) (hown : OwnFlagged mem)
    (hmerged : Merged (family mem) (family mem')) : AllKnow mem mem' := by
  intro i k
  obtain ⟨v, hv⟩ := hown.slot_self h k
  rw [show (mem k).verdicts[(k : ℕ)]? = some v from congrArg Prod.fst hv]
  exact hmerged.flagged k v ⟨k, hv⟩ i

/-! ## The fixed point -/

/-- When everybody knows everything all monitors hold the same table. -/
theorem AllKnow.table_eq {mem mem' : Memory n} (hall : AllKnow mem mem') (h' : Wired mem')
    (i j : Fin n) : (mem' i).toVerdictTable = (mem' j).toVerdictTable := by
  apply VerdictTable.ext_slot
  intro c
  by_cases hc : c < n
  · exact (hall i ⟨c, hc⟩).trans (hall j ⟨c, hc⟩).symm
  · have hnone : ∀ k, (mem' k).slot c = (none, none) := by
      intro k
      rw [VerdictTable.slot, List.getElem?_eq_none (by rw [(h'.sized k).verdicts]; omega),
        List.getElem?_eq_none (by rw [(h'.sized k).verdictsMod]; omega)]
    rw [hnone i, hnone j]

/-- Then a `ShareVerdict` changes nothing at all. -/
theorem AllKnow.shareVerdict_eq {mem mem' : Memory n} (hall : AllKnow mem mem')
    (h' : Wired mem') (i : Fin n) : shareVerdict i mem' = some mem' := by
  obtain ⟨mem'', hrun, hkeep, hslot⟩ := shareVerdict_spec h' i
  have hsame : mem'' = mem' := by
    apply memory_ext hkeep.setup
    intro j c
    rw [hslot j c, hall.table_eq h' i j, ite_self]
  rw [hrun, hsame]

/-- Nor does any further schedule of `ShareVerdict` calls. -/
theorem AllKnow.run_share_eq {mem mem' : Memory n} (hall : AllKnow mem mem') (h' : Wired mem')
    (sched : List (Fin n)) : run mem' (sched.map .shareVerdict) = some mem' := by
  induction sched with
  | nil => rfl
  | cons i sched ih =>
    rw [List.map_cons, ← List.singleton_append, run_append_eq_some_iff]
    refine ⟨mem', ?_, ih⟩
    rw [run_singleton]
    exact hall.shareVerdict_eq h' i

/-- After one pass monitor `i` has slot `k` flagged exactly if `k ≤ i` or `i` is
monitor 0. -/
theorem flagged_pass_iff {mem mem' : Memory n} (h : Wired mem) (hown : OwnFlagged mem)
    (hr : run mem ((inOrderPass n).map .shareVerdict) = some mem') (i k : Fin n) :
    (mem' i).Flagged k ↔ k ≤ i ∨ (i : ℕ) = 0 := by
  have hsome : (tables mem' i k).isSome ↔ (mem' i).Flagged k :=
    VerdictTable.isSome_known_iff ((keeps_run_share h hr).wired.sized i)
  rw [← hsome, tables_run_share h hr, isSome_deliverAll_iff, ← carries_pass_iff]
  constructor
  · rintro ⟨v, hcarry, hknown⟩
    have hflag : (mem v).Flagged k := (VerdictTable.isSome_known_iff (h.sized v)).mp hknown
    obtain rfl : k = v := (hown v k).mp hflag
    exact hcarry
  · intro hcarry
    refine ⟨k, hcarry, ?_⟩
    apply (VerdictTable.isSome_known_iff (h.sized k)).mpr
    exact (hown k k).mpr rfl

/-- **Two in-order passes suffice.**  From a ring in which each monitor has exactly
its own slot flagged:

* two in-order passes return, and leave every monitor the same full table, all flags
  set and each slot with its owner's verdict;
* no further `ShareVerdict`, nor any further sequence of them, changes the state of
  any monitor, so the `n` rounds of `main` end in the same state;
* in a ring of three or more monitors one pass is not enough. -/
theorem two_passes {mem : Memory n} (h : Wired mem) (hown : OwnFlagged mem) :
    (∃ mem', run mem ((inOrderPass n ++ inOrderPass n).map .shareVerdict) = some mem' ∧
      (∀ i k : Fin n, (mem' i).verdictsMod[(k : ℕ)]? = some true ∧
        (mem' i).verdicts[(k : ℕ)]? = (mem k).verdicts[(k : ℕ)]?) ∧
      (∀ i j, (mem' i).toVerdictTable = (mem' j).toVerdictTable) ∧
      (∀ i, shareVerdict i mem' = some mem') ∧
      (∀ sched : List (Fin n), run mem' (sched.map .shareVerdict) = some mem') ∧
      run mem ((mainSchedule n).map .shareVerdict) = some mem') ∧
    (3 ≤ n → ∃ mem₁, run mem ((inOrderPass n).map .shareVerdict) = some mem₁ ∧
      ∃ i k : Fin n, (mem₁ i).verdictsMod[(k : ℕ)]? ≠ some true) := by
  constructor
  · obtain ⟨mem', hr⟩ := exists_run_share h (inOrderPass n ++ inOrderPass n)
    obtain ⟨mem'', hr''⟩ := exists_run_share h (mainSchedule n)
    have hmerged := merged_of_spreads h hown (spreads_two_passes n) hr
    have hmerged'' := merged_of_spreads h hown (spreads_mainSchedule n) hr''
    have hkeep := keeps_run_share h hr
    have hall := allKnow_of_merged h hown hmerged
    refine ⟨mem', hr, ?_, hall.table_eq hkeep.wired, hall.shareVerdict_eq hkeep.wired,
      hall.run_share_eq hkeep.wired, ?_⟩
    · intro i k
      exact ⟨congrArg Prod.snd (hall i k), congrArg Prod.fst (hall i k)⟩
    · -- both runs end in the merged tables, and neither touches the setups
      have htables : family mem'' = family mem' :=
        Merged.unique h.sized hmerged'' hmerged
      have hsame : mem'' = mem' := by
        apply memory_ext
        · intro i
          have hsetup := (keeps_run_share h hr'').setup i
          have hsetup' := hkeep.setup i
          exact ⟨hsetup.id.trans hsetup'.id.symm,
            hsetup.subformula.trans hsetup'.subformula.symm,
            hsetup.observations.trans hsetup'.observations.symm,
            hsetup.numMonitors.trans hsetup'.numMonitors.symm,
            hsetup.network.trans hsetup'.network.symm⟩
        · intro i c
          exact congrArg (fun T : Family n => (T i).slot c) htables
      rw [hr'', hsame]
  · -- monitor 1 receives from monitor 0 only, which shares first
    intro hn
    obtain ⟨mem₁, hr⟩ := exists_run_share h (inOrderPass n)
    refine ⟨mem₁, hr, ⟨1, by omega⟩, ⟨2, by omega⟩, ?_⟩
    intro hflag
    have hreach := (flagged_pass_iff h hown hr ⟨1, by omega⟩ ⟨2, by omega⟩).mp hflag
    simp at hreach

/-- The ring of `main` after the three calls of `Evaluate`. -/
theorem two_passes_main :
    ∃ mem, run (setup mainSub mainObs) [.evaluate 0, .evaluate 1, .evaluate 2] = some mem ∧
      (∃ mem', run mem ((mainSchedule 3).map .shareVerdict) = some mem' ∧
        ∀ i, shareVerdict i mem' = some mem') ∧
      ∃ mem₁, run mem ((inOrderPass 3).map .shareVerdict) = some mem₁ ∧
        ∃ i k : Fin 3, (mem₁ i).verdictsMod[(k : ℕ)]? ≠ some true := by
  obtain ⟨mem, hr⟩ : ∃ mem,
      run (setup mainSub mainObs) [.evaluate 0, .evaluate 1, .evaluate 2] = some mem := ⟨_, rfl⟩
  have hown : OwnFlagged mem := by
    obtain rfl := Option.some.inj hr
    unfold OwnFlagged
    decide
  obtain ⟨⟨mem', -, -, -, hfix, -, hmain⟩, hone⟩ :=
    two_passes (wired_run (wired_setup mainSub mainObs) hr) hown
  exact ⟨mem, hr, ⟨mem', hmain, hfix⟩, hone le_rfl⟩

end RingMonitor
