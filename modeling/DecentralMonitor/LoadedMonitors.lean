/-
# What the monitors of a loaded room have read

Nothing is assumed here about the files of a room: a device file may be missing, empty, or not
begin with a header.  If the room is loaded at all, each pairwise monitor has read the lines of its
two devices (`readFrom_of_loadRoom`), and all monitors are `Fresh`: they hold a trace whose rows
fit, and nothing else yet.
-/
import DecentralMonitor.RoomLoading

open FallibleLoop TraceMonitor

namespace TraceMonitor

/-! ## Fresh monitors -/

/-- A monitor that has read its trace and done nothing else. -/
structure Fresh (n : ℕ) (m : TraceMonitor) : Prop where
  table : m.toVerdictTable = VerdictTable.fresh n
  numMonitors : m.numMonitors = n
  hbSet : m.hbSet = []
  numEventAll : ∀ i, m.numEventAll i ≤ maxEvent

/-- What reading a line does: a header opens a process, a value goes to the end of a row that has
room for it. -/
theorem readLine_inv {m m' : TraceMonitor} {line : String} (h : readLine m line = some m') :
    (IsHeader line ∧ m' = { m with numProcess := m.numProcess + 1 }) ∨
    (¬ IsHeader line ∧ m.numEventAll m.numProcess.toNat < maxEvent ∧ m' = { m with
      eValueAll := assign m.eValueAll m.numProcess.toNat (m.numEventAll m.numProcess.toNat) line
      numEventAll := Function.update m.numEventAll m.numProcess.toNat
        (m.numEventAll m.numProcess.toNat + 1) }) := by
  unfold readLine at h
  dsimp only at h
  split at h
  case isTrue hheader => exact Or.inl ⟨hheader, (Option.some.inj h).symm⟩
  case isFalse hheader =>
    split at h
    case isTrue hfits => exact Or.inr ⟨hheader, hfits.2.2, (Option.some.inj h).symm⟩
    case isFalse hfits => exact absurd h (by simp)

/-- Reading a line keeps a monitor fresh. -/
theorem Fresh.of_readLine {n : ℕ} {m m' : TraceMonitor} {line : String} (h : Fresh n m)
    (hm' : readLine m line = some m') : Fresh n m' := by
  rcases readLine_inv hm' with ⟨-, rfl⟩ | ⟨-, hfits, rfl⟩
  · exact ⟨h.table, h.numMonitors, h.hbSet, h.numEventAll⟩
  · refine ⟨h.table, h.numMonitors, h.hbSet, fun i => ?_⟩
    show Function.update m.numEventAll m.numProcess.toNat _ i ≤ maxEvent
    by_cases hi : i = m.numProcess.toNat
    · rw [hi, Function.update_self]
      exact hfits
    · rw [Function.update_of_ne hi]
      exact h.numEventAll i

/-- The monitor has read these lines, after `setValues` with `n` monitors. -/
def ReadFrom (n : ℕ) (lines : List String) (m : TraceMonitor) : Prop :=
  ∃ mId mSubformula traceFile,
    lines.foldlM readLine { blank.setValues mId mSubformula n traceFile with numProcess := -1 } =
      some m

theorem ReadFrom.fresh {n : ℕ} {lines : List String} {m : TraceMonitor} (h : ReadFrom n lines m) :
    Fresh n m := by
  obtain ⟨mId, mSubformula, traceFile, hm⟩ := h
  refine of_foldlM_eq_some (P := Fresh n) ?_ ?_ hm
  · intro line _ m m' hm hm'
    exact hm.of_readLine hm'
  · exact ⟨rfl, rfl, rfl, fun _ => Nat.zero_le _⟩

/-- The number of header lines. -/
def numHeaders (lines : List String) : ℕ := lines.countP fun line => IsHeader line

/-- The first header is not counted. -/
theorem ReadFrom.numProcess {n : ℕ} {lines : List String} {m : TraceMonitor}
    (h : ReadFrom n lines m) : m.numProcess = (numHeaders lines : ℤ) - 1 := by
  obtain ⟨mId, mSubformula, traceFile, hm⟩ := h
  refine of_foldlM_read_eq_some
    (P := fun pre (m : TraceMonitor) => m.numProcess = (numHeaders pre : ℤ) - 1) ?_ ?_ hm
  · rfl
  · intro pre line _ m m' hm hm'
    unfold numHeaders at hm ⊢
    rw [List.countP_append, List.countP_singleton]
    rcases readLine_inv hm' with ⟨hheader, rfl⟩ | ⟨hheader, -, rfl⟩
    · simp only [hm, hheader, decide_true, if_true]
      omega
    · simp [hm, hheader]

end TraceMonitor

namespace Room

/-! ## Loaded rooms -/

/-- A room as the loading phase leaves it, whatever the files hold. -/
structure JustLoaded {n : ℕ} (room : Room n) : Prop where
  pair : ∀ k, Fresh n (room.monitorList k)
  cent : Fresh 1 room.centMon

section Loading

variable {path : String} {numSwitch numLight n : ℕ} {files : String → List String}

/-- The lines of the trace file of a pair. -/
def pairLines (path : String) (files : String → List String) (pair : ℕ × ℕ) : List String :=
  files (switchName path pair.1 ++ ".txt") ++ files (lightName path pair.2 ++ ".txt")

/-- The state of the loading loops after the pairs `pre`. -/
structure ReadUpTo (path : String) (files : String → List String) (n : ℕ) (pre : List (ℕ × ℕ))
    (st : LoadState) : Prop where
  written : ∃ dist cent, Written files dist cent st.files
  mon : st.mon = pre.length
  read : ∀ k (hk : k < pre.length), ReadFrom n (pairLines path files pre[k]) (st.monitorList k)
  blank : ∀ k, pre.length ≤ k → st.monitorList k = TraceMonitor.blank

/-- One pair more. -/
theorem ReadUpTo.of_loadPair {pre : List (ℕ × ℕ)} {p l : ℕ} {st st' : LoadState}
    (h : ReadUpTo path files (numSwitch * numLight) pre st)
    (hst' : loadPair path numSwitch numLight p st l = some st') :
    ReadUpTo path files (numSwitch * numLight) (pre ++ [(p, l)]) st' := by
  obtain ⟨dist, cent, hwritten⟩ := h.written
  have hwritten' := hwritten.pair path p l rfl rfl
  unfold loadPair at hst'
  dsimp only at hst'
  split at hst'
  case isFalse hfull => exact absurd hst' (by simp)
  case isTrue hroom =>
    obtain ⟨m, hm, hst'⟩ := Option.bind_eq_some_iff.mp hst'
    obtain rfl := Option.some.inj hst'
    rw [h.blank st.mon h.mon.ge] at hm
    have hread : ReadFrom (numSwitch * numLight) (pairLines path files (p, l)) m := by
      have hname : (TraceMonitor.blank.setValues 0 [switchName path p, lightName path l]
          (numSwitch * numLight) "detailsDist.txt").traceFileName = "detailsDist.txt" := rfl
      unfold readFile at hm
      rw [hname, hwritten'.dist] at hm
      exact ⟨0, [switchName path p, lightName path l], "detailsDist.txt", hm⟩
    have hlength : (pre ++ [(p, l)]).length = pre.length + 1 := by simp
    refine ⟨⟨_, _, hwritten'⟩, ?_, fun k hk => ?_, fun k hk => ?_⟩
    · rw [hlength, ← h.mon]
    · rw [hlength] at hk
      show ReadFrom _ _ (Function.update st.monitorList st.mon m k)
      rcases Nat.lt_succ_iff_lt_or_eq.mp hk with hlt | rfl
      · rw [Function.update_of_ne (by rw [h.mon]; exact hlt.ne), List.getElem_append_left hlt]
        exact h.read k hlt
      · rw [h.mon, Function.update_self, List.getElem_concat_length rfl]
        exact hread
    · rw [hlength] at hk
      show Function.update st.monitorList st.mon m k = _
      rw [Function.update_of_ne (by rw [h.mon]; omega)]
      exact h.blank k (by omega)

/-- **What a loaded room has read**, whatever the files hold. -/
theorem readFrom_of_loadRoom {room : Room (numSwitch * numLight)}
    (h : loadRoom path numSwitch numLight files = some room) :
    (∀ k, ReadFrom (numSwitch * numLight) (pairLines path files
      ((pairList numSwitch numLight).get (k.cast (length_pairList numSwitch numLight).symm)))
      (room.monitorList k)) ∧ ∃ lines, ReadFrom 1 lines room.centMon := by
  obtain ⟨st, hst, h⟩ := Option.bind_eq_some_iff.mp h
  obtain ⟨cent, hcent, h⟩ := Option.bind_eq_some_iff.mp h
  obtain rfl := Option.some.inj h
  rw [loadPairs_eq] at hst
  have hread :
      ReadUpTo path files (numSwitch * numLight) (pairList numSwitch numLight) st := by
    refine of_foldlM_read_eq_some (P := ReadUpTo path files (numSwitch * numLight)) ?_ ?_ hst
    · exact ⟨⟨_, _, written_openCen files⟩, rfl, by simp, fun _ _ => rfl⟩
    · rintro pre ⟨p, l⟩ - u w hu hw
      exact hu.of_loadPair hw
  refine ⟨fun k => hread.read k ?_, _, 0, st.formC, "detailsCen.txt", hcent⟩
  rw [length_pairList]
  exact k.isLt

theorem justLoaded_of_loadRoom {room : Room (numSwitch * numLight)}
    (h : loadRoom path numSwitch numLight files = some room) : JustLoaded room := by
  obtain ⟨hpair, lines, hcent⟩ := readFrom_of_loadRoom h
  exact ⟨fun k => (hpair k).fresh, hcent.fresh⟩

end Loading

end Room
