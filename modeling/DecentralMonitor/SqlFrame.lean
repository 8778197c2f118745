/-
# What a script touches

A general library, on the statements of `SqlTable`.  `Executed` says in one place what a
statement that succeeds has done; the rules for scripts follow from it:

* a script changes only the tables it writes (`run_frame`), and drops none (`run_persists`);
* it succeeds only if the tables it creates were not there (`run_creates`), so a table that
  one script has written stops every later script that creates it (`run_conflict`);
* its outcome on the tables it names depends on these tables only (`run_rel`).
-/
import DecentralMonitor.FallibleLoop
import DecentralMonitor.SqlTable

open FallibleLoop

namespace Sql

/-! ## The names in a script -/

/-- The table that a statement writes. -/
def Statement.target : Statement → String
  | .update table _ _ => table
  | .createSelect table _ => table
  | .addValue table _ => table
  | .createUnionAll table _ _ => table

/-- The statement creates its table. -/
def Statement.Creates : Statement → Prop
  | .createSelect _ _ => True
  | .createUnionAll _ _ _ => True
  | _ => False

/-- The tables that a query reads. -/
def Query.tables (q : Query) : List String := q.parts.flatMap fun p => [p.1, p.2]

/-- The tables that a statement names. -/
def Statement.names : Statement → List String
  | .update table _ _ => [table]
  | .createSelect table q => table :: q.tables
  | .addValue table _ => [table]
  | .createUnionAll table first second => [table, first, second]

theorem Statement.target_mem_names (st : Statement) : st.target ∈ st.names := by
  cases st <;> exact List.mem_cons_self

variable {ι : Type} {sv : Server} {db db' : Database ι}

/-! ## What a statement has done -/

/-- A table is created only if it does not exist. -/
theorem create_inv {table : String} {t : Table ι} (h : create db table t = some db') :
    db table = none ∧ db' = Function.update db table (some t) := by
  unfold create at h
  split at h
  · simp at h
  · next hnew => exact ⟨hnew, (Option.some.inj h).symm⟩

/-- The databases have these tables in common. -/
def AgreeOn (names : List String) (db db' : Database ι) : Prop := ∀ x ∈ names, db x = db' x

theorem AgreeOn.update {names : List String} (h : AgreeOn names db db') (table : String)
    (t : Table ι) :
    AgreeOn names (Function.update db table (some t)) (Function.update db' table (some t)) := by
  intro x hx
  rw [Function.update_apply, Function.update_apply, h x hx]

variable [LinearOrder ι]

/-- What a statement that succeeds has done. -/
inductive Executed (sv : Server) (db : Database ι) : Statement → Database ι → Prop
  | update {table : String} {value : ℤ} {old : Literal} {t t' : Table ι}
      (ht : db table = some t) (hset : t.set sv value old = some t') :
      Executed sv db (.update table value old) (Function.update db table (some t'))
  | createSelect {table : String} {q : Query} {ts : List ι} (hq : q.eval sv db = some ts)
      (hnew : db table = none) :
      Executed sv db (.createSelect table q) (Function.update db table (some (.times ts)))
  | addValue {table : String} {value : ℤ} {t t' : Table ι} (ht : db table = some t)
      (hadd : t.addValue value = some t') :
      Executed sv db (.addValue table value) (Function.update db table (some t'))
  | createUnionAll {table first second : String} {t t' u : Table ι} (ht : db first = some t)
      (ht' : db second = some t') (hu : t.unionAll t' = some u) (hnew : db table = none) :
      Executed sv db (.createUnionAll table first second)
        (Function.update db table (some (u.orderByTime sv)))

theorem executed_of_exec {st : Statement} (h : Statement.exec sv db st = some db') :
    Executed sv db st db' := by
  cases st with
  | update table value old =>
    obtain ⟨t, ht, h⟩ := Option.bind_eq_some_iff.mp h
    obtain ⟨t', hset, h⟩ := Option.bind_eq_some_iff.mp h
    obtain rfl := Option.some.inj h
    exact .update ht hset
  | createSelect table q =>
    obtain ⟨ts, hq, h⟩ := Option.bind_eq_some_iff.mp h
    obtain ⟨hnew, rfl⟩ := create_inv h
    exact .createSelect hq hnew
  | addValue table value =>
    obtain ⟨t, ht, h⟩ := Option.bind_eq_some_iff.mp h
    obtain ⟨t', hadd, h⟩ := Option.bind_eq_some_iff.mp h
    obtain rfl := Option.some.inj h
    exact .addValue ht hadd
  | createUnionAll table first second =>
    obtain ⟨t, ht, h⟩ := Option.bind_eq_some_iff.mp h
    obtain ⟨t', ht', h⟩ := Option.bind_eq_some_iff.mp h
    obtain ⟨u, hu, h⟩ := Option.bind_eq_some_iff.mp h
    obtain ⟨hnew, rfl⟩ := create_inv h
    exact .createUnionAll ht ht' hu hnew

/-- A statement gives its table a new content and does nothing else. -/
theorem Executed.eq_update {st : Statement} (h : Executed sv db st db') :
    ∃ t, db' = Function.update db st.target (some t) := by
  cases h with
  | update ht hset => exact ⟨_, rfl⟩
  | createSelect hq hnew => exact ⟨_, rfl⟩
  | addValue ht hadd => exact ⟨_, rfl⟩
  | createUnionAll ht ht' hu hnew => exact ⟨_, rfl⟩

theorem Executed.frame {st : Statement} (h : Executed sv db st db') {x : String}
    (hx : x ≠ st.target) : db' x = db x := by
  obtain ⟨t, rfl⟩ := h.eq_update
  exact Function.update_of_ne hx ..

theorem Executed.isSome_target {st : Statement} (h : Executed sv db st db') :
    (db' st.target).isSome := by
  obtain ⟨t, rfl⟩ := h.eq_update
  rw [Function.update_self]
  rfl

/-- No statement drops a table. -/
theorem Executed.persists {st : Statement} (h : Executed sv db st db') {x : String}
    (hx : (db x).isSome) : (db' x).isSome := by
  by_cases hxt : x = st.target
  · rw [hxt]
    exact h.isSome_target
  · rw [h.frame hxt]
    exact hx

theorem Executed.new {st : Statement} (h : Executed sv db st db') (hc : st.Creates) :
    db st.target = none := by
  cases h with
  | update ht hset => exact absurd hc id
  | createSelect hq hnew => exact hnew
  | addValue ht hadd => exact absurd hc id
  | createUnionAll ht ht' hu hnew => exact hnew

/-! ## Scripts -/

section Scripts

variable {script script' : List Statement}

/-- A script stopped after a statement and one started there. -/
theorem run_append_eq_some_iff : run sv (script ++ script') db = some db' ↔
    ∃ u, run sv script db = some u ∧ run sv script' u = some db' :=
  foldlM_append_eq_some_iff

/-- **Frame.**  A script changes only the tables it writes. -/
theorem run_frame (h : run sv script db = some db') {x : String}
    (hx : ∀ st ∈ script, x ≠ st.target) : db' x = db x := by
  refine of_foldlM_eq_some (P := fun u => u x = db x) ?_ rfl h
  intro st hst u u' hu hexec
  rw [(executed_of_exec hexec).frame (hx st hst), hu]

/-- A script drops no table. -/
theorem run_persists (h : run sv script db = some db') {x : String} (hx : (db x).isSome) :
    (db' x).isSome := by
  refine of_foldlM_eq_some (P := fun u => (u x).isSome) ?_ hx h
  intro st _ u u' hu hexec
  exact (executed_of_exec hexec).persists hu

/-- The part of a script up to a statement has run, and then the statement. -/
theorem exists_executed (h : run sv script db = some db') {st : Statement} (hst : st ∈ script) :
    ∃ pre post u u', script = pre ++ st :: post ∧ run sv pre db = some u ∧
      Executed sv u st u' ∧ run sv post u' = some db' := by
  obtain ⟨pre, post, rfl⟩ := List.append_of_mem hst
  obtain ⟨u, hpre, hrest⟩ := run_append_eq_some_iff.mp h
  unfold run at hrest
  rw [List.foldlM_cons] at hrest
  obtain ⟨u', hexec, hpost⟩ := Option.bind_eq_some_iff.mp hrest
  exact ⟨pre, post, u, u', rfl, hpre, executed_of_exec hexec, hpost⟩

/-- What a script has written is there afterwards. -/
theorem run_writes (h : run sv script db = some db') {st : Statement} (hst : st ∈ script) :
    (db' st.target).isSome := by
  obtain ⟨pre, post, u, u', -, -, hexec, hpost⟩ := exists_executed h hst
  exact run_persists hpost hexec.isSome_target

/-- What a script creates was not there. -/
theorem run_creates (h : run sv script db = some db') {st : Statement} (hst : st ∈ script)
    (hc : st.Creates) : db st.target = none := by
  obtain ⟨pre, post, u, u', -, hpre, hexec, -⟩ := exists_executed h hst
  cases ht : db st.target with
  | none => rfl
  | some t =>
    have hu : (u st.target).isSome := by
      apply run_persists hpre
      rw [ht]
      rfl
    rw [hexec.new hc] at hu
    simp at hu

/-- **Conflict.**  A script that creates what an earlier one has written fails. -/
theorem run_conflict (h : run sv script db = some db') {st st' : Statement} (hst : st ∈ script)
    (hst' : st' ∈ script') (hc : st'.Creates) (htarget : st'.target = st.target) :
    run sv script' db' = none := by
  cases hrun : run sv script' db' with
  | none => rfl
  | some db'' =>
    have hnew := run_creates hrun hst' hc
    have hold := run_writes h hst
    rw [← htarget, hnew] at hold
    simp at hold

end Scripts

/-! ## What a script depends on -/

/-- A query depends on the tables it reads. -/
theorem Query.eval_congr {q : Query} (h : AgreeOn q.tables db db') :
    q.eval sv db = q.eval sv db' := by
  induction q with
  | timeNotIn a b =>
    have ha : db a = db' a := h a (by simp [Query.tables, Query.parts])
    have hb : db b = db' b := h b (by simp [Query.tables, Query.parts])
    simp only [Query.eval, ha, hb]
  | union q q' ih ih' =>
    have htables : (Query.union q q').tables = q.tables ++ q'.tables := List.flatMap_append
    rw [htables] at h
    simp only [Query.eval, ih fun x hx => h x (List.mem_append_left _ hx),
      ih' fun x hx => h x (List.mem_append_right _ hx)]

/-- Statements on databases that agree on what is named. -/
theorem exec_rel {names : List String} (h : AgreeOn names db db') {st : Statement}
    (hst : st.names ⊆ names) :
    Option.Rel (AgreeOn names) (Statement.exec sv db st) (Statement.exec sv db' st) := by
  have hcreate : ∀ table ∈ names, ∀ t,
      Option.Rel (AgreeOn names) (create db table t) (create db' table t) := by
    intro table hmem t
    unfold create
    rw [h table hmem]
    cases db' table with
    | none => exact .some (h.update table t)
    | some t' => exact .none
  have hwrite : ∀ table (o : Option (Table ι)), Option.Rel (AgreeOn names)
      (o.bind fun t => some (Function.update db table (some t)))
      (o.bind fun t => some (Function.update db' table (some t))) := by
    intro table o
    cases o with
    | none => exact .none
    | some t => exact .some (h.update table t)
  have htable : st.target ∈ names := hst st.target_mem_names
  unfold Statement.exec
  cases st with
  | update table value old =>
    simp only [h table htable]
    cases db' table with
    | none => exact .none
    | some t => exact hwrite table (t.set sv value old)
  | createSelect table q =>
    have hq : AgreeOn q.tables db db' := fun x hx => h x (hst (List.mem_cons_of_mem _ hx))
    simp only [Query.eval_congr hq]
    cases q.eval sv db' with
    | none => exact .none
    | some ts => exact hcreate table htable _
  | addValue table value =>
    simp only [h table htable]
    cases db' table with
    | none => exact .none
    | some t => exact hwrite table (t.addValue value)
  | createUnionAll table first second =>
    have hfirst : db first = db' first := h first (hst (by simp [Statement.names]))
    have hsecond : db second = db' second := h second (hst (by simp [Statement.names]))
    simp only [hfirst, hsecond]
    cases db' first with
    | none => exact .none
    | some t =>
      cases db' second with
      | none => exact .none
      | some t' =>
        simp only [Option.bind_eq_bind, Option.bind_some]
        cases t.unionAll t' with
        | none => exact .none
        | some u => exact hcreate table htable _

/-- **Locality.**  On databases that agree on the tables a script names, it fails on both, or
leaves them in agreement on these tables. -/
theorem run_rel (sv : Server) {names : List String} (h : AgreeOn names db db')
    {script : List Statement} (hscript : ∀ st ∈ script, st.names ⊆ names) :
    Option.Rel (AgreeOn names) (run sv script db) (run sv script db') :=
  foldlM_rel (fun st hst _ _ hagree => exec_rel hagree (hscript st hst)) h

end Sql
