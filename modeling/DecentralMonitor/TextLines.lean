/-
# Text files and their lines

A general library.  A text is its list of characters.  Programs read a text line by line,
`while(getline(file, line))`, and write it line by line, `file << line << endl`.

* `whileGetline_eq`: the reading loop is a loop over the list `lines text`.
* `lines_putLine`: writing a line adds it at the end, provided that the text so far is
  `Closed`, that is, its last line has an end.  A text without one swallows the next line.
* `lines_unlines`: lines that are written one after the other are read back.
-/
import Mathlib.Data.List.Basic

namespace TextLines

/-! ## Reading -/

/-- What `getline` takes from a text, and what it leaves: the characters up to the next
newline, which it drops.  It fails at the end of the text. -/
def getline : List Char → Option (List Char × List Char)
  | [] => none
  | c :: cs => some ((c :: cs).takeWhile (· ≠ '\n'), ((c :: cs).dropWhile (· ≠ '\n')).tail)

theorem length_getline_lt {text line rest : List Char} (h : getline text = some (line, rest)) :
    rest.length < text.length := by
  cases text with
  | nil => simp [getline] at h
  | cons c cs =>
    obtain ⟨-, rfl⟩ := Prod.mk.inj (Option.some.inj h)
    have hle := (List.dropWhile_suffix (l := c :: cs) (· ≠ '\n')).length_le
    rw [List.length_cons] at hle
    rw [List.length_tail, List.length_cons]
    omega

/-- `while(getline(file, line)) body`, with a body that may fail. -/
def whileGetline {σ : Type} (body : σ → List Char → Option σ) (text : List Char) (s : σ) :
    Option σ :=
  match _h : getline text with
  | none => some s
  | some (line, rest) => do
    let s ← body s line
    whileGetline body rest s
  termination_by text.length
  decreasing_by exact length_getline_lt _h

/-- The lines of a text. -/
def lines : List Char → List (List Char)
  | [] => []
  | c :: cs =>
    if c = '\n' then [] :: lines cs else (c :: (lines cs).headD []) :: (lines cs).tail

@[simp] theorem lines_nil : lines [] = [] := rfl

@[simp] theorem lines_newline (cs : List Char) : lines ('\n' :: cs) = [] :: lines cs := rfl

theorem lines_cons {c : Char} (hc : c ≠ '\n') (cs : List Char) :
    lines (c :: cs) = (c :: (lines cs).headD []) :: (lines cs).tail := by
  rw [lines, if_neg hc]

/-- The first of the lines is the one that `getline` takes. -/
theorem lines_eq_getline (text : List Char) :
    lines text = match getline text with
      | none => []
      | some (line, rest) => line :: lines rest := by
  induction text with
  | nil => rfl
  | cons c cs ih =>
    by_cases hc : c = '\n'
    · subst hc
      simp [getline]
    · rw [lines_cons hc, ih]
      cases cs with
      | nil => simp [getline, hc]
      | cons d ds => simp [getline, hc]

/-- **The reading loop** goes through the lines of the text. -/
theorem whileGetline_eq {σ : Type} (body : σ → List Char → Option σ) (text : List Char) (s : σ) :
    whileGetline body text s = (lines text).foldlM body s := by
  induction text, s using whileGetline.induct with
  | case1 text s h =>
    rw [whileGetline, lines_eq_getline, h]
    rfl
  | case2 text s line rest h ih =>
    rw [whileGetline, lines_eq_getline, h]
    simp only [List.foldlM_cons]
    congr 1
    funext t
    exact ih t

/-- No line has a newline in it. -/
theorem newline_notMem_of_mem_lines {text line : List Char} (h : line ∈ lines text) :
    '\n' ∉ line := by
  induction text generalizing line with
  | nil => simp at h
  | cons c cs ih =>
    by_cases hc : c = '\n'
    · subst hc
      rcases List.mem_cons.mp h with rfl | h
      · simp
      · exact ih h
    · rw [lines_cons hc] at h
      rcases List.mem_cons.mp h with rfl | h
      · have hhead : '\n' ∉ (lines cs).headD [] := by
          cases hl : lines cs with
          | nil => simp
          | cons l ls =>
            apply ih
            rw [hl]
            exact List.mem_cons_self
        rw [List.mem_cons, not_or]
        exact ⟨Ne.symm hc, hhead⟩
      · exact ih (List.mem_of_mem_tail h)

/-! ## Writing -/

/-- The last line of the text has an end. -/
def Closed (text : List Char) : Prop := ∀ c ∈ text.getLast?, c = '\n'

/-- The text after `file << line << endl`. -/
def putLine (text line : List Char) : List Char := text ++ line ++ ['\n']

/-- The text that these lines make, each with its end. -/
def unlines (ls : List (List Char)) : List Char := ls.flatMap fun l => l ++ ['\n']

theorem closed_nil : Closed [] := by
  intro c hc
  simp at hc

/-- A written line has an end. -/
theorem closed_putLine (text line : List Char) : Closed (putLine text line) := by
  intro c hc
  rw [putLine, List.getLast?_concat] at hc
  exact (Option.some.inj hc).symm

theorem Closed.of_cons {c : Char} {cs : List Char} (h : Closed (c :: cs)) : Closed cs := by
  cases cs with
  | nil => exact closed_nil
  | cons d ds =>
    intro e he
    apply h e
    rw [List.getLast?_cons_cons]
    exact he

/-- What is written after a closed text starts a new line. -/
theorem lines_append {text : List Char} (h : Closed text) (text' : List Char) :
    lines (text ++ text') = lines text ++ lines text' := by
  induction text with
  | nil => rfl
  | cons c cs ih =>
    have hcs := ih h.of_cons
    rw [List.cons_append]
    by_cases hc : c = '\n'
    · subst hc
      rw [lines_newline, lines_newline, hcs, List.cons_append]
    · rw [lines_cons hc, lines_cons hc, hcs]
      cases cs with
      | nil =>
        -- the text would end in `c`
        exact absurd (h c rfl) hc
      | cons d ds =>
        have hne : ∃ l ls, lines (d :: ds) = l :: ls := by
          rw [lines]
          split
          · exact ⟨_, _, rfl⟩
          · exact ⟨_, _, rfl⟩
        obtain ⟨l, ls, hl⟩ := hne
        rw [hl]
        rfl

/-- A line alone. -/
theorem lines_line {line : List Char} (h : '\n' ∉ line) : lines (line ++ ['\n']) = [line] := by
  induction line with
  | nil => rfl
  | cons c cs ih =>
    rw [List.mem_cons, not_or] at h
    rw [List.cons_append, lines_cons (Ne.symm h.1), ih h.2]
    rfl

/-- **Writing a line** to a closed text adds this line. -/
theorem lines_putLine {text line : List Char} (h : Closed text) (hline : '\n' ∉ line) :
    lines (putLine text line) = lines text ++ [line] := by
  rw [putLine, List.append_assoc, lines_append h, lines_line hline]

/-! ## Writing and reading back -/

theorem unlines_cons (l : List Char) (ls : List (List Char)) :
    unlines (l :: ls) = (l ++ ['\n']) ++ unlines ls := rfl

theorem unlines_concat (ls : List (List Char)) (l : List Char) :
    unlines (ls ++ [l]) = putLine (unlines ls) l := by
  unfold unlines putLine
  rw [List.flatMap_append, List.flatMap_singleton, List.append_assoc]

/-- **Lines that are written are read back**, if none of them has a newline in it. -/
theorem lines_unlines {ls : List (List Char)} (h : ∀ l ∈ ls, '\n' ∉ l) :
    lines (unlines ls) = ls := by
  induction ls with
  | nil => rfl
  | cons l ls ih =>
    have hclosed : Closed (l ++ ['\n']) := closed_putLine [] l
    rw [unlines_cons, lines_append hclosed, lines_line (h l List.mem_cons_self),
      ih fun l' hl' => h l' (List.mem_cons_of_mem l hl')]
    rfl

end TextLines
