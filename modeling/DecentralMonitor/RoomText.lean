/-
# Loading a room, character by character

`loadRoom` takes a file to be the list of its lines.  The `main` of `main.cpp` reads
characters: `getline` cuts the lines out of the files of the devices, `<< line << endl` puts
them into the trace files, and `readFile` cuts them out again.

`loadRoomText` is the loading phase on the characters, and `loadRoomText_eq` says that for all
contents of the files it does what `loadRoom` does on their lines.  The invariant is that the
trace files stay closed: every line that is written gets an end, whether or not the line that
was read had one, so the last value of a device and the header of the next are not joined.
-/
import DecentralMonitor.Room
import DecentralMonitor.TextLines

open FallibleLoop TextLines TraceMonitor

namespace Room

/-! ## The loading phase on characters -/

/-- `file << line << endl` for the file `name`. -/
def printLine (texts : String → List Char) (name : String) (line : List Char) :
    String → List Char :=
  Function.update texts name (putLine (texts name) line)

/-- The body of the loops that copy the file of a device. -/
def copyLine (central : Prop) [Decidable central] (texts : String → List Char)
    (line : List Char) : Option (String → List Char) :=
  let texts := printLine texts "detailsDist.txt" line
  some (if central then printLine texts "detailsCen.txt" line else texts)

/-- Copy the file of a device to `detailsDist.txt` and, if `central`, to `detailsCen.txt`. -/
def copyText (device : String) (central : Prop) [Decidable central]
    (texts : String → List Char) : Option (String → List Char) :=
  whileGetline (copyLine central) (texts (device ++ ".txt")) texts

/-- `readFile()`, where `texts` gives the characters of each file. -/
def readText (texts : String → List Char) (m : TraceMonitor) : Option TraceMonitor :=
  whileGetline (fun m line => readLine m (String.ofList line)) (texts m.traceFileName)
    { m with numProcess := -1 }

/-- The variables of the loading loops. -/
structure TextState where
  texts : String → List Char
  formC : List String
  monitorList : ℕ → TraceMonitor
  mon : ℕ

/-- One iteration of the loading loops: the pair of a switch and a light. -/
def loadPairText (path : String) (numSwitch numLight plug : ℕ) (st : TextState) (light : ℕ) :
    Option TextState := do
  let texts := Function.update st.texts "detailsDist.txt" []
  let texts ← copyText (switchName path plug) (light = 1) texts
  let texts ← copyText (lightName path light) (plug = 1) texts
  let form1 := [switchName path plug, lightName path light]
  let formC := st.formC ++ (if light = 1 then [switchName path plug] else []) ++
    (if plug = 1 then [lightName path light] else [])
  if st.mon < maxMonitor then
    let m ← readText texts ((st.monitorList st.mon).setValues 0 form1 (numSwitch * numLight)
      "detailsDist.txt")
    some ⟨texts, formC, Function.update st.monitorList st.mon m, st.mon + 1⟩
  else none

/-- The loops over `plug` and `light`. -/
def loadPairsText (path : String) (numSwitch numLight : ℕ) (st : TextState) : Option TextState :=
  (List.range' 1 numSwitch).foldlM (fun st plug =>
    (List.range' 1 numLight).foldlM (loadPairText path numSwitch numLight plug) st) st

/-- The loading phase of the room `path`. -/
def loadRoomText (path : String) (numSwitch numLight : ℕ) (texts : String → List Char) :
    Option (Room (numSwitch * numLight)) := do
  let st ← loadPairsText path numSwitch numLight
    ⟨Function.update texts "detailsCen.txt" [], [], fun _ => blank, 0⟩
  let cent ← readText st.texts (blank.setValues 0 st.formC 1 "detailsCen.txt")
  some ⟨fun i => st.monitorList i, cent⟩

/-! ## The lines of the files -/

/-- The lines of each file. -/
def textFiles (texts : String → List Char) (name : String) : List String :=
  (lines (texts name)).map String.ofList

theorem textFiles_update_nil (texts : String → List Char) (name : String) :
    textFiles (Function.update texts name []) = Function.update (textFiles texts) name [] := by
  funext name'
  unfold textFiles
  by_cases h : name' = name
  · subst h
    rw [Function.update_self, Function.update_self]
    rfl
  · rw [Function.update_of_ne h, Function.update_of_ne h]

/-- A line printed to a closed file is a line more in this file. -/
theorem textFiles_printLine {texts : String → List Char} {name : String} {line : List Char}
    (h : Closed (texts name)) (hline : '\n' ∉ line) :
    textFiles (printLine texts name line) =
      appendLines (textFiles texts) name [String.ofList line] := by
  funext name'
  unfold textFiles printLine appendLines
  by_cases hname : name' = name
  · subst hname
    rw [Function.update_self, Function.update_self, lines_putLine h hline, List.map_append,
      List.map_singleton]
  · rw [Function.update_of_ne hname, Function.update_of_ne hname]

theorem closed_printLine {texts : String → List Char} {name name' : String} (line : List Char)
    (h : Closed (texts name')) : Closed (printLine texts name line name') := by
  unfold printLine
  rw [Function.update_apply]
  split
  · exact closed_putLine _ _
  · exact h

/-- The trace files are closed. -/
structure TracesClosed (texts : String → List Char) : Prop where
  dist : Closed (texts "detailsDist.txt")
  cent : Closed (texts "detailsCen.txt")

/-- Reading the characters of a file is reading its lines. -/
theorem readText_eq (texts : String → List Char) (m : TraceMonitor) :
    readText texts m = readFile (textFiles texts) m := by
  unfold readText readFile textFiles
  rw [whileGetline_eq, List.foldlM_map]

/-! ## Copying a file -/

section Copying

variable (central : Prop) [Decidable central]

/-- The files of the line view after the lines `ls` have been copied. -/
def copied (files : String → List String) (ls : List String) : String → List String :=
  let files := appendLines files "detailsDist.txt" ls
  if central then appendLines files "detailsCen.txt" ls else files

theorem copied_apply (files : String → List String) (ls : List String) (name : String) :
    copied central files ls name =
      files name ++ if name = "detailsDist.txt" ∨ (name = "detailsCen.txt" ∧ central) then ls
        else [] := by
  have happend : ∀ (fs : String → List String) file,
      appendLines fs file ls name = fs name ++ if name = file then ls else [] := by
    intro fs file
    unfold appendLines
    rw [Function.update_apply]
    split
    · next h => rw [h]
    · rw [List.append_nil]
  unfold copied
  by_cases hc : central
  · rw [if_pos hc, happend, happend]
    by_cases hdist : name = "detailsDist.txt"
    · subst hdist
      simp
    · simp [hdist, hc]
  · rw [if_neg hc, happend]
    simp [hc]

/-- Copying goes on where it has stopped. -/
theorem copied_copied (files : String → List String) (ls ls' : List String) :
    copied central (copied central files ls) ls' = copied central files (ls ++ ls') := by
  funext name
  rw [copied_apply, copied_apply, copied_apply, List.append_assoc]
  congr 1
  split <;> rfl

/-- One line. -/
theorem copyLine_spec {texts : String → List Char} (h : TracesClosed texts) {line : List Char}
    (hline : '\n' ∉ line) :
    ∃ texts', copyLine central texts line = some texts' ∧ TracesClosed texts' ∧
      textFiles texts' = copied central (textFiles texts) [String.ofList line] := by
  have hdist := textFiles_printLine h.dist hline
  have hcent : Closed (printLine texts "detailsDist.txt" line "detailsCen.txt") :=
    closed_printLine line h.cent
  refine ⟨_, rfl, ?_, ?_⟩
  · split
    · exact ⟨closed_printLine line (closed_printLine line h.dist), closed_printLine line hcent⟩
    · exact ⟨closed_printLine line h.dist, hcent⟩
  · unfold copied
    split
    · rw [textFiles_printLine hcent hline, hdist]
    · rw [hdist]

/-- **Copying a file** appends its lines. -/
theorem copyText_spec {texts : String → List Char} (h : TracesClosed texts) (device : String) :
    ∃ texts', copyText device central texts = some texts' ∧ TracesClosed texts' ∧
      textFiles texts' = copyLines device central (textFiles texts) := by
  have hinit : textFiles texts = copied central (textFiles texts) [] := by
    funext name
    rw [copied_apply]
    simp
  have hstep : ∀ pre line, pre ++ [line] <+: lines (texts (device ++ ".txt")) → ∀ texts₁,
      (TracesClosed texts₁ ∧
        textFiles texts₁ = copied central (textFiles texts) (pre.map String.ofList)) →
      ∃ texts₂, copyLine central texts₁ line = some texts₂ ∧ TracesClosed texts₂ ∧
        textFiles texts₂ =
          copied central (textFiles texts) ((pre ++ [line]).map String.ofList) := by
    rintro pre line hpre texts₁ ⟨hclosed, hfiles⟩
    have hmem : line ∈ lines (texts (device ++ ".txt")) := hpre.subset (by simp)
    obtain ⟨texts₂, hline, hclosed₂, hfiles₂⟩ :=
      copyLine_spec central hclosed (newline_notMem_of_mem_lines hmem)
    refine ⟨texts₂, hline, hclosed₂, ?_⟩
    rw [hfiles₂, hfiles, copied_copied, List.map_append, List.map_singleton]
  obtain ⟨texts', hloop, hclosed, hfiles⟩ := exists_foldlM_read ⟨h, hinit⟩ hstep
  refine ⟨texts', ?_, hclosed, hfiles⟩
  unfold copyText
  rw [whileGetline_eq]
  exact hloop

end Copying

/-! ## The two levels -/

/-- A state of the loops on characters and one of the loops on lines. -/
structure SameView (st : TextState) (st' : LoadState) : Prop where
  files : st'.files = textFiles st.texts
  cent : Closed (st.texts "detailsCen.txt")
  formC : st'.formC = st.formC
  monitorList : st'.monitorList = st.monitorList
  mon : st'.mon = st.mon

variable {path : String} {numSwitch numLight : ℕ}

/-- **Step lemma.**  An iteration on characters and one on lines both fail, or end in the
same state. -/
theorem loadPairText_rel (p l : ℕ) {st : TextState} {st' : LoadState} (h : SameView st st') :
    Option.Rel SameView (loadPairText path numSwitch numLight p st l)
      (loadPair path numSwitch numLight p st' l) := by
  have hopen : TracesClosed (Function.update st.texts "detailsDist.txt" []) := by
    constructor
    · rw [Function.update_self]
      exact closed_nil
    · rw [Function.update_of_ne (by decide)]
      exact h.cent
  obtain ⟨texts₁, hcopy₁, hclosed₁, hfiles₁⟩ :=
    copyText_spec (l = 1) hopen (switchName path p)
  obtain ⟨texts₂, hcopy₂, hclosed₂, hfiles₂⟩ :=
    copyText_spec (p = 1) hclosed₁ (lightName path l)
  rw [hfiles₁, textFiles_update_nil, ← h.files] at hfiles₂
  unfold loadPairText loadPair
  simp only [hcopy₁, hcopy₂, Option.bind_eq_bind, Option.bind_some, h.formC, h.monitorList, h.mon]
  by_cases hroom : st.mon < maxMonitor
  · rw [if_pos hroom, if_pos hroom, readText_eq, hfiles₂]
    cases readFile _ _ with
    | none => exact .none
    | some m => exact .some ⟨hfiles₂.symm, hclosed₂.cent, rfl, rfl, rfl⟩
  · rw [if_neg hroom, if_neg hroom]
    exact .none

/-- **Run lemma.** -/
theorem loadPairsText_rel (path : String) (numSwitch numLight : ℕ) {st : TextState}
    {st' : LoadState} (h : SameView st st') :
    Option.Rel SameView (loadPairsText path numSwitch numLight st)
      (loadPairs path numSwitch numLight st') := by
  apply foldlM_rel _ h
  intro p _ st st' h
  exact foldlM_rel (fun l _ _ _ h => loadPairText_rel p l h) h

/-- The loops begin with the same files, once `detailsCen.txt` has been opened. -/
theorem sameView_open (texts : String → List Char) :
    SameView ⟨Function.update texts "detailsCen.txt" [], [], fun _ => blank, 0⟩
      ⟨Function.update (textFiles texts) "detailsCen.txt" [], [], fun _ => blank, 0⟩ := by
  refine ⟨(textFiles_update_nil texts _).symm, ?_, rfl, rfl, rfl⟩
  show Closed (Function.update texts "detailsCen.txt" [] "detailsCen.txt")
  rw [Function.update_self]
  exact closed_nil

/-- **Loading on characters is loading on lines**, whatever the files hold: with or without
an end of the last line, with empty lines, or empty. -/
theorem loadRoomText_eq (path : String) (numSwitch numLight : ℕ) (texts : String → List Char) :
    loadRoomText path numSwitch numLight texts =
      loadRoom path numSwitch numLight (textFiles texts) := by
  have hloops := loadPairsText_rel path numSwitch numLight (sameView_open texts)
  unfold loadRoomText loadRoom
  generalize loadPairsText path numSwitch numLight _ = x at hloops ⊢
  generalize loadPairs path numSwitch numLight _ = y at hloops ⊢
  cases hloops with
  | none => rfl
  | @some st st' h =>
    simp only [Option.bind_eq_bind, Option.bind_some, readText_eq, h.files, h.formC,
      h.monitorList]

end Room
