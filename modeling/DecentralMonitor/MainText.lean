/-
# `main` on the characters of its files

`roomJobs` handles the rooms with files that are lists of lines.  The program opens, prints and
reads characters, and the trace files that one room has left on the disk are there, character by
character, when the next one is loaded.

`textJobs` is the loop over the rooms on characters.  Loading a room there and then looking at the
lines of all files is loading it on the lines (`loadRoomTextFiles_view`), and everything else that
`main` does happens in memory, so the states of the program on characters are those of the program
on lines (`main_on_characters`), and it has no undefined behaviour under the same condition.
-/
import DecentralMonitor.RoomSequence
import DecentralMonitor.RoomText

open Constraint JobSequence

namespace Room

/-! ## The files that loading leaves -/

/-- The loading phase of the room `path` on characters, and the files after it. -/
def loadRoomTextFiles (path : String) (numSwitch numLight : ℕ) (texts : String → List Char) :
    Option ((String → List Char) × Room (numSwitch * numLight)) := do
  let st ← loadPairsText path numSwitch numLight
    ⟨Function.update texts "detailsCen.txt" [], [], fun _ => TraceMonitor.blank, 0⟩
  let cent ← readText st.texts (TraceMonitor.blank.setValues 0 st.formC 1 "detailsCen.txt")
  some (st.texts, ⟨fun i => st.monitorList i, cent⟩)

/-- **One loading phase.**  The lines of the files that it leaves are those that the loading phase
on lines leaves, and the monitors are the same. -/
theorem loadRoomTextFiles_view (path : String) (numSwitch numLight : ℕ)
    (texts : String → List Char) :
    loadRoomFiles path numSwitch numLight (textFiles texts) =
      (loadRoomTextFiles path numSwitch numLight texts).map (Prod.map textFiles id) := by
  have hloops := loadPairsText_rel path numSwitch numLight (sameView_open texts)
  unfold loadRoomTextFiles loadRoomFiles
  generalize loadPairsText path numSwitch numLight _ = x at hloops ⊢
  generalize loadPairs path numSwitch numLight _ = y at hloops ⊢
  cases hloops with
  | none => rfl
  | @some st st' h =>
    simp only [Option.bind_eq_bind, Option.bind_some, readText_eq, h.files, h.formC,
      h.monitorList]
    cases TraceMonitor.readFile (textFiles st.texts) _ with
    | none => rfl
    | some cent => rfl

/-! ## The loop over the rooms -/

/-- The loop over the rooms, each found by the scan of the directory and loaded from the
characters of its files. -/
def textJobs (z : Solver) (dir : Directory) :
    Jobs (String → List Char) String (Σ n, EpsState n) where
  load := fun path texts =>
    (loadRoomTextFiles path (scan path dir).1 (scan path dir).2 texts).map
      fun loaded => (loaded.1, ⟨_, epsInit loaded.2⟩)
  step := RoomStep z
  finished := fun s => AtEnd s.2

/-- The loop on lines is a view of it. -/
theorem views_textJobs (z : Solver) (dir : Directory) :
    Views (textJobs z dir) (roomJobs z dir) textFiles where
  load := by
    intro path texts
    show Option.map _ (loadRoomFiles path _ _ (textFiles texts)) =
      Option.map _ (Option.map _ (loadRoomTextFiles path _ _ texts))
    rw [loadRoomTextFiles_view, Option.map_map, Option.map_map]
    rfl
  step := fun _ _ => Iff.rfl
  finished := fun _ => Iff.rfl

/-- No state of the program on characters has undefined behaviour behind it or ahead. -/
def TextWellDefined (z : Solver) (dir : Directory) (rooms : List String)
    (texts : String → List Char) : Prop :=
  ∀ w, Reaches (textJobs z dir) texts rooms w → w.Good (textJobs z dir) (RoomGood z)

section Views

variable {z : Solver} {dir : Directory} {rooms : List String} {texts : String → List Char}

/-- This depends on the lines of the files. -/
theorem textWellDefined_iff :
    TextWellDefined z dir rooms texts ↔ MainWellDefined z dir rooms (textFiles texts) :=
  (views_textJobs z dir).good_iff.symm

/-- The program on characters gets through its rooms, too. -/
theorem exists_reaches_waiting_nil_text (h : TextWellDefined z dir rooms texts) :
    ∃ texts', Reaches (textJobs z dir) texts rooms (.waiting texts' []) := by
  obtain ⟨files', hend⟩ := exists_reaches_waiting_nil (textWellDefined_iff.mp h)
  obtain ⟨texts', -, hr⟩ := (views_textJobs z dir).exists_reaches_waiting hend
  exact ⟨texts', hr⟩

end Views

/-- **The program on characters is the program on lines.**  For every solver, every directory,
every list of rooms and whatever the files hold: in a state that the program on characters can
reach, the lines of the files, the rooms to come and the state of the room at work are those of a
state that the program on lines can reach, and each of these is met in this way.  So the program
on characters, too, has no undefined behaviour exactly when each of its rooms fits. -/
theorem main_on_characters (z : Solver) (dir : Directory) (rooms : List String)
    (texts : String → List Char) :
    (∀ w', Reaches (roomJobs z dir) (textFiles texts) rooms w' ↔
      ∃ w, Reaches (textJobs z dir) texts rooms w ∧ w.map textFiles = w') ∧
    (TextWellDefined z dir rooms texts ↔ ∀ path ∈ rooms, RoomFits dir (textFiles texts) path) :=
  ⟨fun _ => (views_textJobs z dir).reaches_iff, textWellDefined_iff.trans mainWellDefined_iff⟩

end Room
