/-
# Several scripts on one database

The scripts of different rooms are about different devices and generate different traces,
and each depends on its own tables only (`script_local`).  But all of them collect the missing
times in tables named `t1`, `t2`, … and none of them drops these tables.  So after one script
has run, every script, the same or another, stops at its first `create table`: it has then
replaced the values of its devices and has made none of its traces
(`one_script_per_database`).
-/
import DecentralMonitor.RoomScripts
import DecentralMonitor.SqlFrame

open FallibleLoop TimedLog Sql

namespace RoomScript

/-! ## The names in a room's script -/

/-- The tables that the script of a room names. -/
def names (s : RoomScript) : List String := s.tables ++ created s.alignments

theorem mem_statements {s : RoomScript} {st : Statement} : st ∈ s.statements ↔
    (∃ d ∈ s.items, st ∈ d.updates) ∨ ∃ a ∈ s.alignments, st ∈ a.statements := by
  unfold statements
  rw [List.mem_append, List.mem_flatMap, List.mem_flatMap]

/-- The updates of a table name this table only. -/
theorem names_of_mem_updates {d : ItemTable} {st : Statement} (h : st ∈ d.updates) :
    st.names = [d.table] := by
  obtain ⟨kind, table⟩ := d
  cases kind with
  | switch =>
    rcases List.mem_pair.mp h with rfl | rfl
    · rfl
    · rfl
  | light =>
    obtain rfl := List.mem_singleton.mp h
    rfl

theorem mem_names_of_mem_tables {s : RoomScript} {x : String} (h : x ∈ s.tables) :
    x ∈ s.names :=
  List.mem_append_left _ h

theorem mem_names_of_mem_alignments {s : RoomScript} {a : TraceAlignment}
    (h : a ∈ s.alignments) : a.temp ∈ s.names ∧ a.trace ∈ s.names := by
  constructor <;> exact List.mem_append_right _ (List.mem_flatMap.mpr ⟨a, h, by simp⟩)

/-- A complete script names its own tables only. -/
theorem Complete.names_subset {s : RoomScript} (hs : s.Complete) {st : Statement}
    (hst : st ∈ s.statements) : st.names ⊆ s.names := by
  rcases mem_statements.mp hst with ⟨d, hd, hst⟩ | ⟨a, ha, hst⟩
  · rw [names_of_mem_updates hst]
    intro x hx
    obtain rfl := List.mem_singleton.mp hx
    exact mem_names_of_mem_tables (List.mem_map_of_mem hd)
  · obtain ⟨htemp, htrace⟩ := mem_names_of_mem_alignments ha
    have hitem : a.item ∈ s.names := mem_names_of_mem_tables (hs.item a ha)
    have hquery : ∀ x ∈ a.query.tables, x ∈ s.names := by
      intro x hx
      obtain ⟨p, hp, hx⟩ := List.mem_flatMap.mp hx
      rw [a.parts_query] at hp
      obtain ⟨y, hy, rfl⟩ := List.mem_map.mp hp
      rcases List.mem_pair.mp hx with rfl | rfl
      · exact mem_names_of_mem_tables (hs.others a ha x hy)
      · exact hitem
    simp only [TraceAlignment.statements, List.mem_cons, List.not_mem_nil, or_false] at hst
    rcases hst with rfl | rfl | rfl
    · intro x hx
      rcases List.mem_cons.mp hx with rfl | hx
      · exact htemp
      · exact hquery x hx
    · intro x hx
      obtain rfl := List.mem_singleton.mp hx
      exact htemp
    · intro x hx
      simp only [Statement.names, List.mem_cons, List.not_mem_nil, or_false] at hx
      rcases hx with rfl | rfl | rfl
      · exact htrace
      · exact hitem
      · exact htemp

section Runs

variable {ι : Type} [LinearOrder ι] {sv : Server} {db db' : Database ι} {s : RoomScript}

/-- A complete script changes its own tables only. -/
theorem Complete.frame (hs : s.Complete) (h : run sv s.statements db = some db') {x : String}
    (hx : x ∉ s.names) : db' x = db x := by
  apply run_frame h
  rintro st hst rfl
  exact hx (hs.names_subset hst st.target_mem_names)

/-- **Locality of a script.**  On two databases that agree on the tables of a room, its script
fails on both, or it succeeds on both, leaves them in agreement on these tables, and touches
no other table of either. -/
theorem script_local (sv : Server) (hs : s.Complete) {db₁ db₂ : Database ι}
    (h : AgreeOn s.names db₁ db₂) :
    (run sv s.statements db₁ = none ∧ run sv s.statements db₂ = none) ∨
      ∃ db₁' db₂', run sv s.statements db₁ = some db₁' ∧ run sv s.statements db₂ = some db₂' ∧
        AgreeOn s.names db₁' db₂' ∧ ∀ x ∉ s.names, db₁' x = db₁ x ∧ db₂' x = db₂ x := by
  have hrel := run_rel sv h (fun st hst => hs.names_subset hst)
  cases h₁ : run sv s.statements db₁ with
  | none =>
    rw [h₁] at hrel
    cases h₂ : run sv s.statements db₂ with
    | none => exact Or.inl ⟨rfl, rfl⟩
    | some db₂' =>
      rw [h₂] at hrel
      cases hrel
  | some db₁' =>
    rw [h₁] at hrel
    cases h₂ : run sv s.statements db₂ with
    | none =>
      rw [h₂] at hrel
      cases hrel
    | some db₂' =>
      rw [h₂] at hrel
      cases hrel with
      | some hagree =>
        exact Or.inr ⟨db₁', db₂', rfl, rfl, hagree,
          fun x hx => ⟨hs.frame h₁ hx, hs.frame h₂ hx⟩⟩

end Runs

/-- The logs of the entrance, and those of the toilet next to them. -/
def twoRoomLogs : Database ℕ := fun x =>
  if x = "item347" then some (.texts [(2, some "ON")])
  else if x = "item348" then some (.texts [])
  else if x = "item215" then some (.ints [(2, some 100), (3, some 0)])
  else entranceLogs x

/-- The script of the entrance does not see the logs of the toilet. -/
theorem script_local_entrance :
    (run plainServer entrance.statements entranceLogs = none ∧
        run plainServer entrance.statements twoRoomLogs = none) ∨
      ∃ db₁' db₂', run plainServer entrance.statements entranceLogs = some db₁' ∧
        run plainServer entrance.statements twoRoomLogs = some db₂' ∧
        AgreeOn entrance.names db₁' db₂' ∧
        ∀ x ∉ entrance.names, db₁' x = entranceLogs x ∧ db₂' x = twoRoomLogs x := by
  refine script_local plainServer (complete_roomScripts _ (by simp [roomScripts])) ?_
  intro x hx
  simp only [names, tables, created, entrance, List.map_cons, List.map_nil, List.flatMap_cons,
    List.flatMap_nil, List.cons_append, List.nil_append, List.mem_cons, List.not_mem_nil,
    or_false] at hx
  rcases hx with rfl | rfl | rfl | rfl | rfl | rfl <;> rfl

/-! ## The nine scripts together -/

/-- No device belongs to two rooms. -/
theorem nodup_devices : (roomScripts.flatMap tables).Nodup := by
  decide +kernel

/-- No trace is made by two scripts. -/
theorem nodup_traces :
    (roomScripts.flatMap fun s => s.alignments.map TraceAlignment.trace).Nodup := by
  decide +kernel

/-- The names of tables tell what they are for: the tables of devices begin with `item`, and the
tables of missing times have the shortest names. -/
theorem names_apart : ∀ s ∈ roomScripts,
    (∀ x ∈ s.tables, x.toList.take 4 = "item".toList) ∧
      ∀ a ∈ s.alignments, a.temp.toList.length ≤ 3 ∧ 3 < a.trace.toList.length ∧
        a.trace.toList.take 4 ≠ "item".toList := by
  decide +kernel

/-- Every script begins to make its traces with the table `t1`. -/
theorem first_temp : ∀ s ∈ roomScripts, ∃ a ∈ s.alignments.head?, a.temp = "t1" := by
  decide +kernel

/-- The statement that creates the first temporary table. -/
theorem mem_statements_of_head {s : RoomScript} {a : TraceAlignment}
    (ha : a ∈ s.alignments.head?) : .createSelect a.temp a.query ∈ s.statements :=
  mem_statements.mpr (Or.inr ⟨a, List.mem_of_mem_head? ha, List.mem_cons_self⟩)

/-- The created names are those of temporary tables and of traces. -/
theorem mem_created {l : List TraceAlignment} {x : String} :
    x ∈ created l ↔ ∃ a ∈ l, x = a.temp ∨ x = a.trace := by
  simp [created]

theorem ne_item_of_length {x : String} (hx : x.toList.length ≤ 3) :
    x.toList.take 4 ≠ "item".toList := by
  intro h
  have hlen := congrArg List.length h
  have hfour : "item".toList.length = 4 := by decide
  rw [List.length_take, hfour] at hlen
  omega

/-- The lists of two elements have nothing in common. -/
theorem disjoint_of_nodup_flatMap {α β : Type} {l : List α} {f : α → List β}
    (h : (l.flatMap f).Nodup) {a b : α} (ha : a ∈ l) (hb : b ∈ l) (hne : a ≠ b) :
    List.Disjoint (f a) (f b) := by
  have hsymm : Std.Symm (Function.onFun List.Disjoint f) := ⟨fun _ _ h => h.symm⟩
  exact (List.nodup_flatMap.mp h).2.forall ha hb hne

section Rooms

variable {s s' : RoomScript} (hs : s ∈ roomScripts) (hs' : s' ∈ roomScripts) (hne : s ≠ s')
include hs hs' hne

/-- A script does not name the device of another room. -/
theorem table_notMem_names {x : String} (hx : x ∈ s'.tables) : x ∉ s.names := by
  unfold names
  rw [List.mem_append, not_or]
  constructor
  · exact fun h => disjoint_of_nodup_flatMap nodup_devices hs hs' hne h hx
  · intro h
    obtain ⟨a, ha, hxa⟩ := mem_created.mp h
    obtain ⟨htemp, -, htrace⟩ := (names_apart s hs).2 a ha
    have hitem := (names_apart s' hs').1 x hx
    rcases hxa with rfl | rfl
    · exact ne_item_of_length htemp hitem
    · exact htrace hitem

/-- Nor the trace of another room. -/
theorem trace_notMem_names {a : TraceAlignment} (ha : a ∈ s'.alignments) : a.trace ∉ s.names := by
  obtain ⟨-, hlong, hitem⟩ := (names_apart s' hs').2 a ha
  unfold names
  rw [List.mem_append, not_or]
  constructor
  · intro h
    exact hitem ((names_apart s hs).1 _ h)
  · intro h
    obtain ⟨b, hb, hab⟩ := mem_created.mp h
    rcases hab with hab | hab
    · have hshort := ((names_apart s hs).2 b hb).1
      rw [← hab] at hshort
      omega
    · have htrace : b.trace ∈ s.alignments.map TraceAlignment.trace := List.mem_map_of_mem hb
      rw [← hab] at htrace
      exact disjoint_of_nodup_flatMap nodup_traces hs hs' hne htrace (List.mem_map_of_mem ha)

end Rooms

section OneDatabase

variable {ι : Type} [LinearOrder ι] {sv : Server}

/-- What the script of a room leaves behind when it fails: the values of the devices have been
replaced, and the first `create table` has failed before any trace was made. -/
structure StoppedAtCreate (sv : Server) (s : RoomScript) (db db' u : Database ι) : Prop where
  updates : run sv (s.items.flatMap ItemTable.updates) db' = some u
  create : ∀ a ∈ s.alignments.head?, Statement.exec sv u (.createSelect a.temp a.query) = none
  cleaned : ∀ d ∈ s.items, ∀ t, db d.table = some t → u d.table = some (clean sv d.kind t)
  trace : ∀ a ∈ s.alignments, u a.trace = none

/-- The script of another room fails in this way. -/
theorem exists_stoppedAtCreate (h0 : sv.weight "0" ≠ sv.weight "ON")
    (hoff : sv.weight "OFF" ≠ sv.weight "ON") {s s' : RoomScript} (hs : s ∈ roomScripts)
    (hs' : s' ∈ roomScripts) (hne : s ≠ s') {db db' : Database ι} (h' : s'.Imported db)
    (hrun : run sv s.statements db = some db') : ∃ u, StoppedAtCreate sv s' db db' u := by
  have hcomplete := complete_roomScripts s hs
  have hcomplete' := complete_roomScripts s' hs'
  have hframe : ∀ x ∈ s'.tables, db' x = db x := fun x hx =>
    hcomplete.frame hrun (table_notMem_names hs hs' hne hx)
  obtain ⟨u, hupdates, hclean, hkeep⟩ := run_clean h0 hoff hcomplete'.nodup fun d hd => by
    obtain ⟨t, ht, hlogs, -⟩ := h'.item d hd
    exact ⟨t, (hframe d.table (List.mem_map_of_mem hd)).trans ht, hlogs⟩
  refine ⟨u, hupdates, ?_, ?_, ?_⟩
  · intro a ha
    obtain ⟨b, hb, htemp⟩ := first_temp s hs
    obtain ⟨b', hb', htemp'⟩ := first_temp s' hs'
    obtain rfl : b' = a := Option.some.inj (hb'.symm.trans ha)
    -- `t1` is still there
    have hold : (db' b.temp).isSome :=
      run_writes hrun (mem_statements_of_head hb)
    have hthere : (u b'.temp).isSome := by
      rw [htemp', ← htemp]
      exact run_persists hupdates hold
    cases hexec : Statement.exec sv u (.createSelect b'.temp b'.query) with
    | none => rfl
    | some w =>
      have hnew : u b'.temp = none := (executed_of_exec hexec).new trivial
      rw [hnew] at hthere
      simp at hthere
  · intro d hd t ht
    exact hclean d hd t ((hframe d.table (List.mem_map_of_mem hd)).trans ht)
  · intro a ha
    have hnew : a.trace ∈ created s'.alignments := List.mem_flatMap.mpr ⟨a, ha, by simp⟩
    rw [hkeep _ (hcomplete'.new _ hnew),
      hcomplete.frame hrun (trace_notMem_names hs hs' hne ha), h'.new _ hnew]

/-- **One script for each database.**  Each of the nine scripts succeeds on every imported
database.  After it none of the nine succeeds, neither the same nor another one; the script of
another room whose devices have been imported stops at its first `create table`, with the
values of its devices replaced and none of its traces made. -/
theorem one_script_per_database (h0 : sv.weight "0" ≠ sv.weight "ON")
    (hoff : sv.weight "OFF" ≠ sv.weight "ON") {s : RoomScript} (hs : s ∈ roomScripts)
    {db : Database ι} (h : s.Imported db) :
    ∃ db', run sv s.statements db = some db' ∧ ∀ s' ∈ roomScripts,
      run sv s'.statements db' = none ∧
        (s' ≠ s → s'.Imported db → ∃ u, StoppedAtCreate sv s' db db' u) := by
  obtain ⟨db', -, hrun, -⟩ := run_complete h0 hoff (complete_roomScripts s hs) h
  refine ⟨db', hrun, fun s' hs' => ⟨?_, fun hne h' =>
    exists_stoppedAtCreate h0 hoff hs hs' hne.symm h' hrun⟩⟩
  obtain ⟨a, ha, htemp⟩ := first_temp s hs
  obtain ⟨a', ha', htemp'⟩ := first_temp s' hs'
  exact run_conflict hrun (mem_statements_of_head ha) (mem_statements_of_head ha') trivial
    (htemp'.trans htemp.symm)

end OneDatabase

theorem imported_entrance : entrance.Imported twoRoomLogs := by
  constructor
  · intro d hd
    simp only [entrance, List.mem_cons, List.not_mem_nil, or_false] at hd
    rcases hd with rfl | rfl
    · exact ⟨_, rfl, trivial, by decide⟩
    · exact ⟨_, rfl, trivial, by decide⟩
  · intro x hx
    simp only [created, entrance, List.flatMap_cons, List.flatMap_nil, List.mem_append,
      List.mem_cons, List.not_mem_nil, or_false] at hx
    rcases hx with (rfl | rfl) | rfl | rfl <;> rfl

theorem imported_toilet : toilet.Imported twoRoomLogs := by
  constructor
  · intro d hd
    simp only [toilet, List.mem_cons, List.not_mem_nil, or_false] at hd
    rcases hd with rfl | rfl | rfl
    · exact ⟨_, rfl, trivial, by decide⟩
    · exact ⟨_, rfl, trivial, by decide⟩
    · exact ⟨_, rfl, trivial, by decide⟩
  · intro x hx
    simp only [created, toilet, List.flatMap_cons, List.flatMap_nil, List.mem_append,
      List.mem_cons, List.not_mem_nil, or_false] at hx
    rcases hx with (rfl | rfl) | (rfl | rfl) | rfl | rfl <;> rfl

/-- After the script of the entrance the one of the toilet fails. -/
theorem one_script_per_database_entrance :
    ∃ db', run plainServer entrance.statements twoRoomLogs = some db' ∧
      run plainServer entrance.statements db' = none ∧
      run plainServer toilet.statements db' = none ∧
      ∃ u, StoppedAtCreate plainServer toilet twoRoomLogs db' u := by
  have hentrance : entrance ∈ roomScripts := by simp [roomScripts]
  have hweights : plainServer.weight "0" ≠ plainServer.weight "ON" ∧
      plainServer.weight "OFF" ≠ plainServer.weight "ON" := by decide
  obtain ⟨db', hrun, hrest⟩ :=
    one_script_per_database hweights.1 hweights.2 hentrance imported_entrance
  obtain ⟨hagain, -⟩ := hrest entrance (by simp [roomScripts])
  obtain ⟨htoilet, hstop⟩ := hrest toilet (by simp [roomScripts])
  refine ⟨db', hrun, hagain, htoilet, hstop ?_ imported_toilet⟩
  intro h
  have hitems := congrArg (fun s : RoomScript => s.items.length) h
  simp [toilet, entrance] at hitems

end RoomScript
