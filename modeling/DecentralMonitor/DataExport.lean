/-
# Exporting the tables: `get_data.cpp`

After the alignment scripts have run, `get_data.cpp` writes every table of the database to a
text file of its own: first the name of the table, then the second column of its rows, one
value a line.  The name is what `readFile` later takes for the header of a device.

`exportTables_spec` says what is written and `lines_tableText` that it can be read back;
`export_roundTrip` puts them together.  A row whose second column is null or missing makes the
program read through a null pointer.
-/
import DecentralMonitor.FallibleLoop
import DecentralMonitor.SqlTable
import DecentralMonitor.TextLines

open FallibleLoop Sql TextLines

namespace DataExport

variable {ι : Type} (sv : Server)

/-! ## The program -/

/-- `row[1]` of each row of a table: null, or none if the table has one column only. -/
def fields : Table ι → List (Option String)
  | .times rows => rows.map fun _ => none
  | .ints rows => rows.map fun r => r.2.map toString
  | .texts rows => rows.map Prod.snd

/-- The rows of `SELECT * FROM table`: without `ORDER BY` in an order that the server
chooses. -/
def selectAll : Table ι → Table ι
  | .times rows => .times (sv.scan rows)
  | .ints rows => .ints (sv.scan rows)
  | .texts rows => .texts (sv.scan rows)

/-- `input.push_back(string(row[1]))`.  The string of a null pointer is undefined.  A value has
no NUL character, at which its string would end. -/
def pushField (input : List String) (field : Option String) : Option (List String) := do
  some (input ++ [← field])

/-- The entries that are collected for a table: its name, then its values. -/
def tableDetails (db : Database ι) (table : String) : Option (List String) :=
  match db table with
  | some t => (fields (selectAll sv t)).foldlM pushField [table]
  -- the query fails, and `details[i]` stays empty
  | none => some []

/-- The loop over the tables, which extends `table_names` and `details`. -/
def collectTable (db : Database ι) (details : List (String × List String)) (table : String) :
    Option (List (String × List String)) := do
  some (details ++ [(table, ← tableDetails sv db table)])

/-- The characters that are written for the entries of a table. -/
def tableText (entries : List String) : List Char :=
  entries.foldl (fun text entry => text ++ entry.toList ++ ['\n']) []

/-- Write the file of a table. -/
def writeTable (texts : String → List Char) (d : String × List String) : String → List Char :=
  Function.update texts (d.1 ++ ".txt") (tableText d.2)

/-- `main`, where `tables` is the answer to `show tables`. -/
def exportTables (db : Database ι) (tables : List String) (texts : String → List Char) :
    Option (String → List Char) := do
  let details ← tables.foldlM (collectTable sv db) []
  some (details.foldl writeTable texts)

/-! ## What is written for a table -/

theorem tableText_eq (entries : List String) :
    tableText entries = unlines (entries.map String.toList) := by
  unfold tableText
  induction entries using List.reverseRecOn with
  | nil => rfl
  | append_singleton entries entry ih =>
    rw [List.foldl_concat, ih, List.map_append, List.map_singleton, unlines_concat]
    rfl

/-- The text of an entry is on one line. -/
def OneLine (s : String) : Prop := '\n' ∉ s.toList

instance (s : String) : Decidable (OneLine s) := inferInstanceAs (Decidable (¬ _))

/-- **Round trip.**  Entries on one line each are read back. -/
theorem lines_tableText {entries : List String} (h : ∀ e ∈ entries, OneLine e) :
    (lines (tableText entries)).map String.ofList = entries := by
  rw [tableText_eq, lines_unlines]
  · rw [List.map_map]
    have hid : String.ofList ∘ String.toList = id := by
      funext s
      exact String.ofList_toList
    rw [hid, List.map_id]
  · intro l hl
    obtain ⟨e, he, rfl⟩ := List.mem_map.mp hl
    exact h e he

/-- The server's order does not change what a table's rows are. -/
theorem perm_fields_selectAll (t : Table ι) : (fields (selectAll sv t)).Perm (fields t) := by
  cases t with
  | times rows => exact (sv.scan_perm rows).map _
  | ints rows => exact (sv.scan_perm rows).map _
  | texts rows => exact (sv.scan_perm rows).map _

theorem perm_time_selectAll (t : Table ι) : (selectAll sv t).time.Perm t.time := by
  cases t with
  | times rows => exact sv.scan_perm rows
  | ints rows => exact (sv.scan_perm rows).map _
  | texts rows => exact (sv.scan_perm rows).map _

variable {sv}

/-- Values are collected one after the other. -/
theorem foldlM_pushField {fs : List (Option String)} (h : ∀ f ∈ fs, f.isSome)
    (input : List String) :
    fs.foldlM pushField input = some (input ++ fs.map fun f => f.getD "") := by
  have hstep : ∀ f ∈ fs, ∀ acc, pushField acc f = some (acc ++ [f.getD ""]) := by
    intro f hf acc
    obtain ⟨v, rfl⟩ := Option.isSome_iff_exists.mp (h f hf)
    rfl
  rw [foldlM_eq_some_append_flatMap hstep]
  congr 2
  exact List.flatMap_pure_eq_map _ _

/-- A null value is not collected. -/
theorem isSome_of_foldlM_pushField {fs : List (Option String)} {input l : List String}
    (h : fs.foldlM pushField input = some l) : ∀ f ∈ fs, f.isSome := by
  intro f hf
  obtain ⟨u, w, hw⟩ := exists_step_of_mem h hf
  cases f with
  | none => simp [pushField] at hw
  | some v => rfl

/-- Every row of the table has a value in its second column. -/
def NoNull (t : Table ι) : Prop := ∀ f ∈ fields t, f.isSome

/-- The values of a table, in the order of its rows. -/
def values (t : Table ι) : List String := (fields t).map fun f => f.getD ""

theorem noNull_selectAll {t : Table ι} : NoNull (selectAll sv t) ↔ NoNull t := by
  unfold NoNull
  simp only [(perm_fields_selectAll sv t).mem_iff]

/-! ## What is written for the database -/

variable {db : Database ι}

/-- The entries of a table. -/
def entries (sv : Server) (db : Database ι) (table : String) : List String :=
  match db table with
  | some t => table :: values (selectAll sv t)
  | none => []

theorem tableDetails_eq {table : String} (h : ∀ t, db table = some t → NoNull t) :
    tableDetails sv db table = some (entries sv db table) := by
  unfold tableDetails entries
  cases ht : db table with
  | none => rfl
  | some t => exact foldlM_pushField (noNull_selectAll.mpr (h t ht)) [table]

theorem noNull_of_tableDetails {table : String} {l : List String}
    (h : tableDetails sv db table = some l) (t : Table ι) (ht : db table = some t) :
    NoNull t := by
  unfold tableDetails at h
  rw [ht] at h
  exact noNull_selectAll.mp (isSome_of_foldlM_pushField h)

/-- What the program has collected after the tables. -/
theorem collectTables_eq {tables : List String}
    (h : ∀ x ∈ tables, ∀ t, db x = some t → NoNull t) :
    tables.foldlM (collectTable sv db) [] =
      some (tables.map fun x => (x, entries sv db x)) := by
  refine foldlM_eq_some_of_read
    (fun pre : List String => pre.map fun x => (x, entries sv db x)) ?_
  intro pre x hpre
  have hx : x ∈ tables := hpre.subset (by simp)
  unfold collectTable
  rw [tableDetails_eq (h x hx), List.map_append, List.map_singleton]
  rfl

theorem noNull_of_collectTables {tables : List String} {details : List (String × List String)}
    (h : tables.foldlM (collectTable sv db) [] = some details) :
    ∀ x ∈ tables, ∀ t, db x = some t → NoNull t := by
  intro x hx
  obtain ⟨u, w, hw⟩ := exists_step_of_mem h hx
  obtain ⟨l, hl, -⟩ := Option.bind_eq_some_iff.mp hw
  exact noNull_of_tableDetails hl

section Writing

variable {g : String → List String} {texts : String → List Char}

/-- Each table's file is written. -/
theorem foldl_writeTable_of_mem {l : List String} {x : String} (hx : x ∈ l) :
    ((l.map fun x => (x, g x)).foldl writeTable texts) (x ++ ".txt") = tableText (g x) := by
  induction l using List.reverseRecOn with
  | nil => simp at hx
  | append_singleton l y ih =>
    rw [List.map_append, List.map_singleton, List.foldl_concat, writeTable]
    by_cases hxy : x = y
    · subst hxy
      rw [Function.update_self]
    · rw [Function.update_of_ne fun h => hxy ((String.append_left_inj _).mp h)]
      apply ih
      rcases List.mem_append.mp hx with hx | hx
      · exact hx
      · exact absurd (List.mem_singleton.mp hx) hxy

/-- No other file is. -/
theorem foldl_writeTable_of_ne {l : List String} {name : String}
    (h : ∀ x ∈ l, name ≠ x ++ ".txt") :
    ((l.map fun x => (x, g x)).foldl writeTable texts) name = texts name := by
  induction l using List.reverseRecOn with
  | nil => rfl
  | append_singleton l y ih =>
    rw [List.map_append, List.map_singleton, List.foldl_concat, writeTable,
      Function.update_of_ne (h y (by simp))]
    exact ih fun x hx => h x (List.mem_append_left _ hx)

end Writing

/-- **What the export writes**, if no value is null. -/
theorem exportTables_spec {tables : List String}
    (h : ∀ x ∈ tables, ∀ t, db x = some t → NoNull t) (texts : String → List Char) :
    ∃ texts', exportTables sv db tables texts = some texts' ∧
      (∀ x ∈ tables, texts' (x ++ ".txt") = tableText (entries sv db x)) ∧
      ∀ name, (∀ x ∈ tables, name ≠ x ++ ".txt") → texts' name = texts name := by
  refine ⟨_, ?_, fun x hx => foldl_writeTable_of_mem hx, fun name => foldl_writeTable_of_ne⟩
  unfold exportTables
  rw [collectTables_eq h]
  rfl

/-- **The export and its round trip.**  For every server and every database, where `db x` is
what the query `SELECT * FROM x` finds (`none` if it fails, as it does for a name that must be
quoted): the program returns exactly when all tables that are found have a value in every row.
Then the file of each of these tables, read line by line, gives its name and its values in some
order, provided that each of them is on one line and has no NUL character (see `pushField`); and
no other file is touched. -/
theorem export_roundTrip (sv : Server) (db : Database ι) (tables : List String)
    (texts : String → List Char) :
    ((∃ texts', exportTables sv db tables texts = some texts') ↔
      ∀ x ∈ tables, ∀ t, db x = some t → NoNull t) ∧
    ∀ texts', exportTables sv db tables texts = some texts' →
      (∀ x ∈ tables, ∀ t, db x = some t → OneLine x → (∀ v ∈ values t, OneLine v) →
        ∃ vs, vs.Perm (values t) ∧
          (lines (texts' (x ++ ".txt"))).map String.ofList = x :: vs) ∧
      ∀ name, (∀ x ∈ tables, name ≠ x ++ ".txt") → texts' name = texts name := by
  have hvalued : ∀ texts', exportTables sv db tables texts = some texts' →
      ∀ x ∈ tables, ∀ t, db x = some t → NoNull t := by
    intro texts' h
    obtain ⟨details, hdetails, -⟩ := Option.bind_eq_some_iff.mp h
    exact noNull_of_collectTables hdetails
  refine ⟨⟨fun ⟨texts', h⟩ => hvalued texts' h, fun h => ?_⟩, fun texts' h => ?_⟩
  · obtain ⟨texts', hexport, -⟩ := exportTables_spec h texts
    exact ⟨texts', hexport⟩
  · obtain ⟨texts'', hexport, hfile, hother⟩ := exportTables_spec (hvalued texts' h) texts
    obtain rfl : texts'' = texts' := Option.some.inj (hexport.symm.trans h)
    refine ⟨fun x hx t ht hname hvalues => ?_, hother⟩
    have hperm : (values (selectAll sv t)).Perm (values t) := (perm_fields_selectAll sv t).map _
    refine ⟨values (selectAll sv t), hperm, ?_⟩
    have hentries : entries sv db x = x :: values (selectAll sv t) := by
      unfold entries
      rw [ht]
    rw [hfile x hx, hentries, lines_tableText]
    intro e he
    rcases List.mem_cons.mp he with rfl | he
    · exact hname
    · exact hvalues e (hperm.mem_iff.mp he)

end DataExport
