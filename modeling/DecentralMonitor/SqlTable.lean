/-
# Tables and statements of the database

A general library: the few statements of SQL that align logs, with their meaning on a
database of tables.  A table has a column `TIME` that is never null, and possibly a column
`Value` of integers or of texts, which may be null.  A statement fails (`none`) when a table
it reads does not exist, a table it creates exists already, or the columns do not fit.

What the statements leave to the server is a parameter (`Server`): how it compares texts,
which number it reads from a text, and in which order a query without `ORDER BY` returns its
rows.
-/
import Mathlib.Data.List.Dedup
import Mathlib.Data.Rat.Defs
import DecentralMonitor.TimedLog

open TimedLog

namespace Sql

/-- What depends on the server.  Two texts are equal for it when their weights in the
collation are. -/
structure Server where
  weight : String → String
  number : String → ℚ
  scan {α : Type} : List α → List α
  scan_perm {α : Type} (rows : List α) : (scan rows).Perm rows

/-- The literals of a condition: a quoted text or an integer. -/
inductive Literal
  | text (s : String)
  | int (n : ℤ)

/-- `s = l` for a text `s`; a text is compared with a number as a number. -/
def Server.eqText (sv : Server) (s : String) : Literal → Bool
  | .text s' => sv.weight s == sv.weight s'
  | .int n => sv.number s == n

/-- `n = l` for an integer `n`. -/
def Server.eqInt (sv : Server) (n : ℤ) : Literal → Bool
  | .text s => (n : ℚ) == sv.number s
  | .int n' => n == n'

/-! ## Tables -/

/-- A table with the column `TIME` alone, or with a column `Value` after it. -/
inductive Table (ι : Type)
  | times (rows : List ι)
  | ints (rows : List (ι × Option ℤ))
  | texts (rows : List (ι × Option String))
  deriving DecidableEq

namespace Table

variable {ι : Type} (sv : Server)

/-- The column `TIME`. -/
def time : Table ι → List ι
  | .times rows => rows
  | .ints rows => rows.map Prod.fst
  | .texts rows => rows.map Prod.fst

/-- `SET Value = value where Value = old`.  A text column stores the number as a text, and
a null is not equal to anything. -/
def set (value : ℤ) (old : Literal) : Table ι → Option (Table ι)
  | .times _ => none
  | .ints rows => some (.ints (mapRows
      (Option.map fun n => if sv.eqInt n old then value else n) rows))
  | .texts rows => some (.texts (mapRows
      (Option.map fun s => if sv.eqText s old then toString value else s) rows))

/-- `ADD Value int DEFAULT value`. -/
def addValue (value : ℤ) : Table ι → Option (Table ι)
  | .times rows => some (.ints (rows.map fun t => (t, some value)))
  | _ => none

/-- The values of an integer column as texts. -/
def asTexts (rows : List (ι × Option ℤ)) : List (ι × Option String) :=
  mapRows (Option.map toString) rows

/-- `SELECT * FROM … UNION ALL SELECT * FROM …`: texts and integers together are texts. -/
def unionAll : Table ι → Table ι → Option (Table ι)
  | .times rows, .times rows' => some (.times (rows ++ rows'))
  | .ints rows, .ints rows' => some (.ints (rows ++ rows'))
  | .ints rows, .texts rows' => some (.texts (asTexts rows ++ rows'))
  | .texts rows, .ints rows' => some (.texts (rows ++ asTexts rows'))
  | .texts rows, .texts rows' => some (.texts (rows ++ rows'))
  | _, _ => none

/-- `ORDER BY TIME ASC`. -/
def orderByTime [LinearOrder ι] : Table ι → Table ι
  | .times rows => .times ((sv.scan rows).insertionSort (· ≤ ·))
  | .ints rows => .ints (sortRows (sv.scan rows))
  | .texts rows => .texts (sortRows (sv.scan rows))

end Table

/-! ## Queries and statements -/

/-- The tables of a database under their names. -/
abbrev Database (ι : Type) := String → Option (Table ι)

/-- The queries for times: `select a.TIME from a where a.TIME NOT IN(select b.TIME from b)`,
and their unions. -/
inductive Query
  | timeNotIn (a b : String)
  | union (q q' : Query)

/-- The tables of the parts of a union. -/
def Query.parts : Query → List (String × String)
  | .timeNotIn a b => [(a, b)]
  | .union q q' => q.parts ++ q'.parts

inductive Statement
  /-- `UPDATE table SET Value = value where Value = old` -/
  | update (table : String) (value : ℤ) (old : Literal)
  /-- `create table table …` -/
  | createSelect (table : String) (q : Query)
  /-- `ALTER TABLE table ADD Value int DEFAULT value` -/
  | addValue (table : String) (value : ℤ)
  /-- `CREATE TABLE table SELECT * FROM first UNION ALL SELECT * FROM second ORDER BY TIME
  ASC` -/
  | createUnionAll (table first second : String)

/-- A new table. -/
def create {ι : Type} (db : Database ι) (table : String) (t : Table ι) : Option (Database ι) :=
  match db table with
  | some _ => none
  | none => some (Function.update db table (some t))

section Meaning

variable {ι : Type} [LinearOrder ι] (sv : Server)

/-- The result of a query.  `union` drops repeated rows. -/
def Query.eval (db : Database ι) : Query → Option (List ι)
  | .timeNotIn a b => do
    let ta ← db a
    let tb ← db b
    some (sv.scan (ta.time.filter fun t => t ∉ tb.time))
  | .union q q' => do
    some (sv.scan ((← q.eval db) ++ (← q'.eval db)).dedup)

/-- What a statement makes of the database. -/
def Statement.exec (db : Database ι) : Statement → Option (Database ι)
  | .update table value old => do
    let t ← (← db table).set sv value old
    some (Function.update db table (some t))
  | .createSelect table q => do
    create db table (.times (← q.eval sv db))
  | .addValue table value => do
    let t ← (← db table).addValue value
    some (Function.update db table (some t))
  | .createUnionAll table first second => do
    let t ← (← db first).unionAll (← db second)
    create db table (t.orderByTime sv)

/-- A script: one statement after the other, up to the first that fails. -/
def run (script : List Statement) (db : Database ι) : Option (Database ι) :=
  script.foldlM (Statement.exec sv) db

end Meaning

/-! ## What they do -/

variable {ι : Type} (sv : Server) {db : Database ι}

theorem create_eq_some {table : String} (h : db table = none) (t : Table ι) :
    create db table t = some (Function.update db table (some t)) := by
  unfold create
  rw [h]

variable [LinearOrder ι]

theorem exec_update {table : String} {value : ℤ} {old : Literal} {t t' : Table ι}
    (ht : db table = some t) (hset : t.set sv value old = some t') :
    Statement.exec sv db (.update table value old) =
      some (Function.update db table (some t')) := by
  simp [Statement.exec, ht, hset]

theorem exec_createSelect {table : String} {q : Query} {ts : List ι}
    (hq : q.eval sv db = some ts) (hnew : db table = none) :
    Statement.exec sv db (.createSelect table q) =
      some (Function.update db table (some (.times ts))) := by
  simp [Statement.exec, hq, create_eq_some hnew]

theorem exec_addValue {table : String} {value : ℤ} {t t' : Table ι} (ht : db table = some t)
    (hadd : t.addValue value = some t') : Statement.exec sv db (.addValue table value) =
      some (Function.update db table (some t')) := by
  simp [Statement.exec, ht, hadd]

theorem exec_createUnionAll {table first second : String} {t t' u : Table ι}
    (ht : db first = some t) (ht' : db second = some t') (hu : t.unionAll t' = some u)
    (hnew : db table = none) : Statement.exec sv db (.createUnionAll table first second) =
      some (Function.update db table (some (u.orderByTime sv))) := by
  simp [Statement.exec, ht, ht', hu, create_eq_some hnew]

variable {sv}

theorem run_nil : run sv [] db = some db := rfl

/-- A script goes on from what its first statement leaves. -/
theorem run_cons {st : Statement} {script : List Statement} {db' : Database ι}
    (h : Statement.exec sv db st = some db') : run sv (st :: script) db = run sv script db' := by
  unfold run
  rw [List.foldlM_cons, h]
  rfl

/-- The times of a query: those that some part selects, and none twice if the tables have
none twice. -/
theorem Query.eval_spec (sv : Server) (q : Query)
    (h : ∀ p ∈ q.parts, ∃ ta tb, db p.1 = some ta ∧ db p.2 = some tb ∧ ta.time.Nodup) :
    ∃ ts, q.eval sv db = some ts ∧ ts.Nodup ∧ ∀ t, t ∈ ts ↔ ∃ p ∈ q.parts, ∃ ta tb,
      db p.1 = some ta ∧ db p.2 = some tb ∧ t ∈ ta.time ∧ t ∉ tb.time := by
  induction q with
  | timeNotIn a b =>
    obtain ⟨ta, tb, ha, hb, hnodup⟩ := h (a, b) (List.mem_singleton_self _)
    refine ⟨sv.scan (ta.time.filter fun t => t ∉ tb.time), ?_, ?_, fun t => ?_⟩
    · unfold Query.eval
      rw [ha, hb]
      rfl
    · exact (sv.scan_perm _).nodup_iff.mpr (hnodup.filter _)
    · rw [(sv.scan_perm _).mem_iff, List.mem_filter, decide_eq_true_eq]
      constructor
      · intro ht
        exact ⟨(a, b), List.mem_singleton_self _, ta, tb, ha, hb, ht⟩
      · rintro ⟨p, hp, ta', tb', ha', hb', ht⟩
        obtain rfl := List.mem_singleton.mp hp
        obtain rfl : ta = ta' := Option.some.inj (ha.symm.trans ha')
        obtain rfl : tb = tb' := Option.some.inj (hb.symm.trans hb')
        exact ht
  | union q q' ih ih' =>
    obtain ⟨ts, hts, -, hmem⟩ := ih fun p hp => h p (List.mem_append_left _ hp)
    obtain ⟨ts', hts', -, hmem'⟩ := ih' fun p hp => h p (List.mem_append_right _ hp)
    refine ⟨sv.scan (ts ++ ts').dedup, ?_, ?_, fun t => ?_⟩
    · unfold Query.eval
      rw [hts, hts']
      rfl
    · exact (sv.scan_perm _).nodup_iff.mpr (List.nodup_dedup _)
    · rw [(sv.scan_perm _).mem_iff, List.mem_dedup, List.mem_append, hmem, hmem']
      simp only [Query.parts, List.mem_append, or_and_right, exists_or]

end Sql
