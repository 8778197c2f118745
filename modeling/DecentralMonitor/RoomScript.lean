/-
# The alignment script of a room

Every room has a script that brings the logs of its devices to one time line.  It first
replaces the values that the devices log by numbers, and then makes for every device a
table with its own rows and a row with value 0 for each time at which only other devices
of the room have logged something.

A script is data (`RoomScript`): the tables of the devices, and for each generated table
the device it is about and the other devices whose times are added, as the statements list
them.  Whether the other devices are all there is decidable (`Complete`), and
`run_complete` says what a complete script does to every database.
-/
import DecentralMonitor.FallibleLoop
import DecentralMonitor.SqlTable

open FallibleLoop TimedLog Sql

/-! ## Scripts -/

/-- The devices of a room are switches and lights. -/
inductive DeviceKind
  | switch
  | light

/-- The table of a device. -/
structure ItemTable where
  kind : DeviceKind
  table : String

/-- The updates of a table: `ON` and `OFF` of a switch become numbers, and 100, a light that
is fully on, becomes 1. -/
def ItemTable.updates : ItemTable → List Statement
  | ⟨.switch, table⟩ => [.update table 0 (.text "OFF"), .update table 1 (.text "ON")]
  | ⟨.light, table⟩ => [.update table 1 (.int 100)]

/-- How the script makes the table `trace` of a device from the device's table `item`; the
times of the others are collected in the table `temp`. -/
structure TraceAlignment where
  temp : String
  trace : String
  item : String
  first : String
  rest : List String

namespace TraceAlignment

variable (a : TraceAlignment)

/-- The tables of the other devices. -/
def others : List String := a.first :: a.rest

/-- The times of the other devices at which this device has logged nothing. -/
def query : Query :=
  a.rest.foldl (fun q x => .union q (.timeNotIn x a.item)) (.timeNotIn a.first a.item)

def statements : List Statement :=
  [.createSelect a.temp a.query, .addValue a.temp 0, .createUnionAll a.trace a.item a.temp]

theorem parts_query : a.query.parts = a.others.map fun x => (x, a.item) := by
  have hfold : ∀ (l : List String) (q : Query),
      (l.foldl (fun q x => Query.union q (.timeNotIn x a.item)) q).parts =
        q.parts ++ l.map fun x => (x, a.item) := by
    intro l
    induction l with
    | nil =>
      intro q
      rw [List.foldl_nil, List.map_nil, List.append_nil]
    | cons x l ih =>
      intro q
      rw [List.foldl_cons, ih, List.map_cons]
      show (q.parts ++ [(x, a.item)]) ++ _ = _
      rw [List.append_assoc, List.singleton_append]
  exact hfold a.rest _

end TraceAlignment

/-- The script of a room. -/
structure RoomScript where
  items : List ItemTable
  alignments : List TraceAlignment

namespace RoomScript

variable (s : RoomScript)

def statements : List Statement :=
  s.items.flatMap ItemTable.updates ++ s.alignments.flatMap TraceAlignment.statements

/-- The tables of the room's devices. -/
def tables : List String := s.items.map ItemTable.table

/-- The tables that an alignment creates. -/
def created (l : List TraceAlignment) : List String := l.flatMap fun a => [a.temp, a.trace]

/-- In a complete script every generated table is made from one of the room's tables and
the times of all others, and no name is used twice. -/
structure Complete : Prop where
  nodup : s.tables.Nodup
  item : ∀ a ∈ s.alignments, a.item ∈ s.tables
  others : ∀ a ∈ s.alignments, ∀ x ∈ a.others, x ∈ s.tables
  all : ∀ a ∈ s.alignments, ∀ x ∈ s.tables, x ≠ a.item → x ∈ a.others
  created : (created s.alignments).Nodup
  new : ∀ x ∈ RoomScript.created s.alignments, x ∉ s.tables

theorem complete_iff : s.Complete ↔ s.tables.Nodup ∧ (∀ a ∈ s.alignments, a.item ∈ s.tables) ∧
    (∀ a ∈ s.alignments, ∀ x ∈ a.others, x ∈ s.tables) ∧
      (∀ a ∈ s.alignments, ∀ x ∈ s.tables, x ≠ a.item → x ∈ a.others) ∧
        (RoomScript.created s.alignments).Nodup ∧
          ∀ x ∈ RoomScript.created s.alignments, x ∉ s.tables :=
  ⟨fun ⟨h₁, h₂, h₃, h₄, h₅, h₆⟩ => ⟨h₁, h₂, h₃, h₄, h₅, h₆⟩,
    fun ⟨h₁, h₂, h₃, h₄, h₅, h₆⟩ => ⟨h₁, h₂, h₃, h₄, h₅, h₆⟩⟩

instance : Decidable s.Complete := decidable_of_iff' _ s.complete_iff

/-! ## What a script is for -/

variable {ι : Type} (sv : Server)

/-- The value of a switch as a number. -/
def cleanSwitch (v : String) : String :=
  if sv.weight v = sv.weight "ON" then "1"
  else if sv.weight v = sv.weight "OFF" then "0" else v

/-- The value of a light, 100 being 1. -/
def cleanLight (v : ℤ) : ℤ := if v = 100 then 1 else v

/-- The same for lights whose values are logged as texts. -/
def cleanLightText (v : String) : String := if sv.number v = 100 then "1" else v

/-- The table of a device with cleaned values. -/
def clean : DeviceKind → Table ι → Table ι
  | .switch, .texts rows => .texts (mapRows (Option.map (cleanSwitch sv)) rows)
  | .light, .ints rows => .ints (mapRows (Option.map cleanLight) rows)
  | .light, .texts rows => .texts (mapRows (Option.map (cleanLightText sv)) rows)
  | _, t => t

/-- The values of a switch are logged as texts, those of a light as texts or integers. -/
def Logs : DeviceKind → Table ι → Prop
  | .switch, .texts _ => True
  | .light, .ints _ => True
  | .light, .texts _ => True
  | _, _ => False

/-- A table on a time line: its own value where it has one, and 0 elsewhere. -/
def align [LinearOrder ι] (times : List ι) : Table ι → Table ι
  | .times _ => .times times
  | .ints rows => .ints (fill (some 0) rows times)
  | .texts rows => .texts (fill (some "0") rows times)

/-- The database before the script: the tables of the devices, each without a repeated time,
and none of the tables to be created. -/
structure Imported (db : Database ι) : Prop where
  item : ∀ d ∈ s.items, ∃ t, db d.table = some t ∧ Logs d.kind t ∧ t.time.Nodup
  new : ∀ x ∈ created s.alignments, db x = none

/-- The time line of a room: every time at which one of its devices has logged something,
once and ascending. -/
structure TimeLine [LinearOrder ι] (db : Database ι) (times : List ι) : Prop where
  ascending : times.SortedLT
  mem : ∀ t, t ∈ times ↔ ∃ x ∈ s.tables, ∃ own, db x = some own ∧ t ∈ own.time

/-- The generated table holds the cleaned values of its device on the time line. -/
def HoldsTrace [LinearOrder ι] (db db' : Database ι) (times : List ι) (a : TraceAlignment) : Prop :=
  ∃ d ∈ s.items, d.table = a.item ∧ ∃ own, db d.table = some own ∧
    db' a.trace = some (align times (clean sv d.kind own))

/-! ## The updates -/

section Updates

variable {sv}

theorem time_clean (sv : Server) (k : DeviceKind) (t : Table ι) : (clean sv k t).time = t.time := by
  cases k <;> cases t <;> first
    | rfl
    | exact map_fst_mapRows _ _

theorem logs_clean {k : DeviceKind} {t : Table ι} (h : Logs k t) : Logs k (clean sv k t) := by
  cases k <;> cases t <;> exact h

/-- The two updates of a switch, the second seeing the values of the first. -/
theorem set_switch (h0 : sv.weight "0" ≠ sv.weight "ON")
    (hoff : sv.weight "OFF" ≠ sv.weight "ON") (rows : List (ι × Option String)) :
    ∃ t, (Table.texts rows).set sv 0 (.text "OFF") = some t ∧
      t.set sv 1 (.text "ON") = some (clean sv .switch (.texts rows)) := by
  refine ⟨_, rfl, ?_⟩
  unfold clean
  rw [Table.set, mapRows_mapRows, Option.map_comp_map]
  congr 4
  funext v
  have hzero : toString (0 : ℤ) = "0" := rfl
  have hone : toString (1 : ℤ) = "1" := rfl
  simp only [Function.comp, Server.eqText, beq_iff_eq, cleanSwitch, hzero, hone]
  by_cases hv : sv.weight v = sv.weight "OFF"
  · -- the value is 0 after the first update, which the second leaves alone
    rw [if_pos hv, if_neg h0, hv, if_neg hoff]
  · rw [if_neg hv]

theorem set_light {t : Table ι} (h : Logs .light t) :
    t.set sv 1 (.int 100) = some (clean sv .light t) := by
  cases t with
  | times rows => exact absurd h id
  | ints rows =>
    unfold clean
    rw [Table.set]
    congr 4
    funext v
    simp only [Server.eqInt, beq_iff_eq, cleanLight]
  | texts rows =>
    unfold clean
    rw [Table.set]
    congr 4
    funext v
    simp only [Server.eqText, beq_iff_eq, cleanLightText]
    rfl

/-- A generated table has the time line as its column of times. -/
theorem HoldsTrace.time [LinearOrder ι] {s : RoomScript} {db db' : Database ι} {times : List ι}
    {a : TraceAlignment} (h : s.HoldsTrace sv db db' times a) :
    ∃ t, db' a.trace = some t ∧ t.time = times := by
  obtain ⟨d, -, -, own, -, htrace⟩ := h
  refine ⟨_, htrace, ?_⟩
  cases clean sv d.kind own <;> first
    | rfl
    | exact map_fst_fill _ _ times

/-- What the updates of a device do to its table. -/
theorem run_updates [LinearOrder ι] (h0 : sv.weight "0" ≠ sv.weight "ON")
    (hoff : sv.weight "OFF" ≠ sv.weight "ON") {d : ItemTable} {db : Database ι} {t : Table ι}
    (ht : db d.table = some t) (hlogs : Logs d.kind t) :
    run sv d.updates db = some (Function.update db d.table (some (clean sv d.kind t))) := by
  obtain ⟨kind, table⟩ := d
  cases kind with
  | light => exact (run_cons (exec_update sv ht (set_light hlogs))).trans run_nil
  | switch =>
    cases t with
    | times rows => exact absurd hlogs id
    | ints rows => exact absurd hlogs id
    | texts rows =>
      obtain ⟨t, hfirst, hsecond⟩ := set_switch h0 hoff rows
      have hlast := exec_update sv (Function.update_self table _ db) hsecond
      rw [Function.update_idem] at hlast
      exact (run_cons (exec_update sv ht hfirst)).trans ((run_cons hlast).trans run_nil)

/-- The first part of the script: the tables of the devices are cleaned and nothing else
changes. -/
theorem run_clean [LinearOrder ι] (h0 : sv.weight "0" ≠ sv.weight "ON")
    (hoff : sv.weight "OFF" ≠ sv.weight "ON") {s : RoomScript} (hnodup : s.tables.Nodup)
    {db : Database ι} (h : ∀ d ∈ s.items, ∃ t, db d.table = some t ∧ Logs d.kind t) :
    ∃ db', run sv (s.items.flatMap ItemTable.updates) db = some db' ∧
      (∀ d ∈ s.items, ∀ t, db d.table = some t → db' d.table = some (clean sv d.kind t)) ∧
        ∀ x ∉ s.tables, db' x = db x := by
  unfold run
  rw [foldlM_flatMap]
  refine exists_foldlM_read (P := fun (pre : List ItemTable) (db' : Database ι) =>
    (∀ d ∈ pre, ∀ t, db d.table = some t → db' d.table = some (clean sv d.kind t)) ∧
      ∀ x ∉ pre.map ItemTable.table, db' x = db x) ⟨by simp, by simp⟩ ?_
  rintro pre d hpre db' ⟨hcleaned, hframe⟩
  have hfresh : d.table ∉ pre.map ItemTable.table := by
    have hnd := (hpre.map ItemTable.table).sublist.nodup hnodup
    rw [List.map_append, List.nodup_append] at hnd
    exact fun hd => hnd.2.2 _ hd _ (List.mem_singleton_self _) rfl
  obtain ⟨t, ht, hlogs⟩ := h d (hpre.subset (List.mem_append_right pre (List.mem_singleton_self d)))
  have hthis : db' d.table = some t := (hframe _ hfresh).trans ht
  refine ⟨_, run_updates h0 hoff hthis hlogs, ?_, ?_⟩
  · intro e he u hu
    rcases List.mem_append.mp he with he | he
    · rw [Function.update_of_ne]
      · exact hcleaned e he u hu
      · exact fun heq => hfresh (heq ▸ List.mem_map_of_mem he)
    · obtain rfl := List.mem_singleton.mp he
      obtain rfl : t = u := Option.some.inj (ht.symm.trans hu)
      rw [Function.update_self]
  · intro x hx
    rw [List.map_append, List.mem_append, not_or] at hx
    rw [Function.update_of_ne]
    · exact hframe x hx.1
    · exact fun heq => hx.2 (heq ▸ List.mem_singleton_self _)

end Updates

/-! ## The generated tables -/

section Alignments

variable {sv} [LinearOrder ι]

/-- The rows of a device and a 0 for each missing time, by ascending time, are the device's
table on the time line. -/
theorem orderByTime_unionAll (sv : Server) {k : DeviceKind} {own : Table ι} (hlogs : Logs k own)
    (hnodup : own.time.Nodup) {times missing : List ι} (htimes : times.SortedLT)
    (hmissing : missing.Nodup) (hmem : ∀ t, t ∈ missing ↔ t ∈ times ∧ t ∉ own.time)
    (hsub : ∀ t ∈ own.time, t ∈ times) :
    ∃ u, own.unionAll (.ints (missing.map fun t => (t, some 0))) = some u ∧
      u.orderByTime sv = align times own := by
  cases own with
  | times rows =>
    cases k <;> exact absurd hlogs id
  | ints rows =>
    refine ⟨_, rfl, ?_⟩
    show Table.ints (sortRows (sv.scan _)) = Table.ints (fill (some 0) rows times)
    rw [sortRows_eq_fill hnodup ⟨hmissing, hmem⟩ htimes hsub (sv.scan_perm _)]
  | texts rows =>
    have hzero : Table.asTexts (missing.map fun t => (t, some (0 : ℤ))) =
        missing.map fun t => (t, some "0") := by
      unfold Table.asTexts mapRows
      rw [List.map_map]
      rfl
    refine ⟨_, rfl, ?_⟩
    show Table.texts (sortRows (sv.scan (rows ++ Table.asTexts _))) =
      Table.texts (fill (some "0") rows times)
    rw [hzero, sortRows_eq_fill hnodup ⟨hmissing, hmem⟩ htimes hsub (sv.scan_perm _)]

/-- The query for one generated table: the times that its device lacks. -/
theorem eval_missing (sv : Server) {a : TraceAlignment} {db : Database ι} {own : Table ι}
    (hown : db a.item = some own)
    (hothers : ∀ x ∈ a.others, ∃ t, db x = some t ∧ t.time.Nodup) {times : List ι}
    (hmem : ∀ t, t ∈ times ↔
      t ∈ own.time ∨ ∃ x ∈ a.others, ∃ other, db x = some other ∧ t ∈ other.time) :
    ∃ missing, a.query.eval sv db = some missing ∧ missing.Nodup ∧
      ∀ t, t ∈ missing ↔ t ∈ times ∧ t ∉ own.time := by
  have hparts : ∀ p ∈ a.query.parts, ∃ ta tb, db p.1 = some ta ∧ db p.2 = some tb ∧
      ta.time.Nodup := by
    intro p hp
    rw [a.parts_query] at hp
    obtain ⟨x, hx, rfl⟩ := List.mem_map.mp hp
    obtain ⟨t, ht, htnodup⟩ := hothers x hx
    exact ⟨t, own, ht, hown, htnodup⟩
  obtain ⟨missing, hquery, hmissing, hmem'⟩ := a.query.eval_spec sv hparts
  refine ⟨missing, hquery, hmissing, fun t => ?_⟩
  rw [hmem', hmem, a.parts_query]
  constructor
  · rintro ⟨p, hp, other, tb, hother, htb, ht, hnot⟩
    obtain ⟨x, hx, rfl⟩ := List.mem_map.mp hp
    obtain rfl : own = tb := Option.some.inj (hown.symm.trans htb)
    exact ⟨Or.inr ⟨x, hx, other, hother, ht⟩, hnot⟩
  · rintro ⟨ht | ⟨x, hx, other, hother, ht⟩, hnot⟩
    · exact absurd ht hnot
    · exact ⟨(x, a.item), List.mem_map_of_mem hx, other, own, hother, hown, ht, hnot⟩

/-- The statements for one generated table. -/
theorem run_alignment {a : TraceAlignment} {db : Database ι} {k : DeviceKind} {own : Table ι}
    (hown : db a.item = some own) (hlogs : Logs k own) (hnodup : own.time.Nodup)
    (hothers : ∀ x ∈ a.others, ∃ t, db x = some t ∧ t.time.Nodup) {times : List ι}
    (htimes : times.SortedLT) (hmem : ∀ t, t ∈ times ↔
      t ∈ own.time ∨ ∃ x ∈ a.others, ∃ other, db x = some other ∧ t ∈ other.time)
    (htemp : db a.temp = none) (htrace : db a.trace = none) (hne : a.trace ≠ a.temp) :
    ∃ db', run sv a.statements db = some db' ∧ db' a.trace = some (align times own) ∧
      ∀ x, x ≠ a.temp → x ≠ a.trace → db' x = db x := by
  obtain ⟨missing, hquery, hmissing, hlack⟩ := eval_missing sv hown hothers hmem
  obtain ⟨u, hu, horder⟩ := orderByTime_unionAll sv hlogs hnodup htimes hmissing hlack
    fun t ht => (hmem t).mpr (Or.inl ht)
  have hitem : a.item ≠ a.temp := by
    intro heq
    rw [heq, htemp] at hown
    exact absurd hown (by simp)
  -- the three statements one after the other
  have hselect := exec_createSelect sv hquery htemp
  have hadd := exec_addValue sv (Function.update_self a.temp _ db)
    (show (Table.times missing).addValue 0 = some _ from rfl)
  rw [Function.update_idem] at hadd
  have hunion := exec_createUnionAll sv ((Function.update_of_ne hitem _ db).trans hown)
    (Function.update_self a.temp _ db) hu ((Function.update_of_ne hne _ db).trans htrace)
  refine ⟨_, (run_cons hselect).trans ((run_cons hadd).trans ((run_cons hunion).trans run_nil)),
    ?_, fun x htemp htrace => ?_⟩
  · rw [Function.update_self, horder]
  · rw [Function.update_of_ne htrace, Function.update_of_ne htemp]

end Alignments

/-! ## The whole script -/

variable {sv} [LinearOrder ι] {s : RoomScript} {db : Database ι}

theorem exists_timeLine (s : RoomScript) (db : Database ι) : ∃ times, s.TimeLine db times := by
  refine ⟨(s.tables.flatMap fun x => (db x).elim [] Table.time).toFinset.sort, ?_, fun t => ?_⟩
  · exact Finset.sortedLT_sort _
  · rw [Finset.mem_sort, List.mem_toFinset, List.mem_flatMap]
    refine exists_congr fun x => and_congr_right fun _ => ?_
    cases db x with
    | none => simp
    | some own => simp

/-- The tables of the room are those of `db` with cleaned values. -/
def Cleaned (s : RoomScript) (sv : Server) (db db' : Database ι) : Prop :=
  ∀ x ∈ s.tables, ∃ d ∈ s.items, d.table = x ∧ ∃ own, db x = some own ∧ Logs d.kind own ∧
    own.time.Nodup ∧ db' x = some (clean sv d.kind own)

/-- The time line, as the times of one device and those of the others. -/
theorem Cleaned.mem_timeLine (hs : s.Complete) {db' : Database ι} (h : s.Cleaned sv db db')
    {times : List ι} (htimes : s.TimeLine db times) {a : TraceAlignment} (ha : a ∈ s.alignments)
    {own : Table ι} (hown : db a.item = some own) (t : ι) : t ∈ times ↔
      t ∈ own.time ∨ ∃ x ∈ a.others, ∃ other, db' x = some other ∧ t ∈ other.time := by
  rw [htimes.mem]
  constructor
  · rintro ⟨x, hx, other, hother, ht⟩
    by_cases hxa : x = a.item
    · subst hxa
      obtain rfl : own = other := Option.some.inj (hown.symm.trans hother)
      exact Or.inl ht
    · obtain ⟨e, -, -, other', hother', -, -, hclean⟩ := h x hx
      obtain rfl : other = other' := Option.some.inj (hother.symm.trans hother')
      refine Or.inr ⟨x, hs.all a ha x hx hxa, _, hclean, ?_⟩
      rw [time_clean]
      exact ht
  · rintro (ht | ⟨x, hx, other, hother, ht⟩)
    · exact ⟨a.item, hs.item a ha, own, hown, ht⟩
    · have hxs := hs.others a ha x hx
      obtain ⟨e, -, -, other', hother', -, -, hclean⟩ := h x hxs
      obtain rfl : other = clean sv e.kind other' := Option.some.inj (hother.symm.trans hclean)
      rw [time_clean] at ht
      exact ⟨x, hxs, other', hother', ht⟩

theorem created_append_singleton (pre : List TraceAlignment) (a : TraceAlignment) :
    created (pre ++ [a]) = created pre ++ [a.temp, a.trace] := by
  unfold created
  rw [List.flatMap_append, List.flatMap_singleton]

/-- The two names of an alignment are not those of an earlier one. -/
theorem Complete.new_names (hs : s.Complete) {pre : List TraceAlignment} {a : TraceAlignment}
    (hpre : pre ++ [a] <+: s.alignments) : a.trace ≠ a.temp ∧
      ∀ x ∈ [a.temp, a.trace],
        x ∈ RoomScript.created s.alignments ∧ x ∉ RoomScript.created pre := by
  have ha : a ∈ s.alignments :=
    hpre.subset (List.mem_append_right pre (List.mem_singleton_self a))
  have hnames : (RoomScript.created (pre ++ [a])).Nodup := (hpre.flatMap _).sublist.nodup hs.created
  rw [created_append_singleton, List.nodup_append] at hnames
  obtain ⟨-, hpair, hdisj⟩ := hnames
  constructor
  · rw [List.nodup_cons, List.mem_singleton] at hpair
    exact fun heq => hpair.1 heq.symm
  · intro x hx
    exact ⟨List.mem_flatMap.mpr ⟨a, ha, hx⟩, fun hold => hdisj x hold x hx rfl⟩

/-- The generated tables of the alignments `pre` are made, the other names are still free. -/
structure AlignedUpTo (s : RoomScript) (sv : Server) (db : Database ι) (times : List ι)
    (pre : List TraceAlignment) (db' : Database ι) : Prop where
  cleaned : s.Cleaned sv db db'
  new : ∀ x ∈ created s.alignments, x ∉ created pre → db' x = none
  trace : ∀ a ∈ pre, s.HoldsTrace sv db db' times a

/-- One generated table more. -/
theorem AlignedUpTo.step (hs : s.Complete) {times : List ι} (htimes : s.TimeLine db times)
    {pre : List TraceAlignment} {a : TraceAlignment} (hpre : pre ++ [a] <+: s.alignments)
    {db' : Database ι} (h : s.AlignedUpTo sv db times pre db') :
    ∃ db'', run sv a.statements db' = some db'' ∧ s.AlignedUpTo sv db times (pre ++ [a]) db'' := by
  have ha : a ∈ s.alignments :=
    hpre.subset (List.mem_append_right pre (List.mem_singleton_self a))
  obtain ⟨hne, hmem⟩ := hs.new_names hpre
  obtain ⟨htempmem, htempnot⟩ := hmem a.temp (by simp)
  obtain ⟨htracemem, htracenot⟩ := hmem a.trace (by simp)
  obtain ⟨d, hd, hditem, own, hown, hlogs, hnodup, hclean⟩ := h.cleaned a.item (hs.item a ha)
  have hothers : ∀ x ∈ a.others, ∃ t, db' x = some t ∧ t.time.Nodup := by
    intro x hx
    obtain ⟨e, -, -, other, -, -, hother, hcleanx⟩ := h.cleaned x (hs.others a ha x hx)
    refine ⟨_, hcleanx, ?_⟩
    rw [time_clean]
    exact hother
  have hline := h.cleaned.mem_timeLine hs htimes ha hown
  rw [← time_clean sv d.kind own] at hnodup hline
  obtain ⟨db'', hrun, hthis, hrest⟩ := run_alignment hclean (logs_clean hlogs) hnodup hothers
    htimes.ascending hline (h.new _ htempmem htempnot) (h.new _ htracemem htracenot) hne
  refine ⟨db'', hrun, ?_, ?_, ?_⟩
  · intro x hx
    rw [hrest x]
    · exact h.cleaned x hx
    · exact fun heq => hs.new _ htempmem (heq ▸ hx)
    · exact fun heq => hs.new _ htracemem (heq ▸ hx)
  · intro x hx hnot
    rw [created_append_singleton] at hnot
    simp only [List.mem_append, List.mem_cons, List.not_mem_nil, or_false, not_or] at hnot
    rw [hrest x hnot.2.1 hnot.2.2]
    exact h.new x hx hnot.1
  · intro b hb
    rcases List.mem_append.mp hb with hb | hb
    · obtain ⟨e, he, hitem, other, hother, htrace⟩ := h.trace b hb
      have hold : b.trace ∈ created pre := List.mem_flatMap.mpr ⟨b, hb, by simp⟩
      refine ⟨e, he, hitem, other, hother, (hrest _ ?_ ?_).trans htrace⟩
      · exact fun heq => htempnot (heq ▸ hold)
      · exact fun heq => htracenot (heq ▸ hold)
    · obtain rfl := List.mem_singleton.mp hb
      exact ⟨d, hd, hditem, own, hditem ▸ hown, hthis⟩

/-- The second part of the script. -/
theorem run_alignments (hs : s.Complete) {db₁ : Database ι} (h : s.Cleaned sv db db₁)
    (hnew : ∀ x ∈ created s.alignments, db₁ x = none) {times : List ι}
    (htimes : s.TimeLine db times) :
    ∃ db', run sv (s.alignments.flatMap TraceAlignment.statements) db₁ = some db' ∧
      s.AlignedUpTo sv db times s.alignments db' := by
  unfold run
  rw [foldlM_flatMap]
  refine exists_foldlM_read (P := s.AlignedUpTo sv db times) ?_ ?_
  · exact ⟨h, fun x hx _ => hnew x hx, by simp⟩
  · intro pre a hpre db' hup
    exact hup.step hs htimes hpre

/-- **What a complete script does.**  On every imported database it succeeds and leaves every
generated table with the cleaned values of its device on the time line of the room. -/
theorem run_complete (h0 : sv.weight "0" ≠ sv.weight "ON")
    (hoff : sv.weight "OFF" ≠ sv.weight "ON") (hs : s.Complete) (h : s.Imported db) :
    ∃ db' times, run sv s.statements db = some db' ∧ s.TimeLine db times ∧
      ∀ a ∈ s.alignments, s.HoldsTrace sv db db' times a := by
  obtain ⟨db₁, hrun₁, hclean, hframe⟩ := run_clean h0 hoff hs.nodup fun d hd => by
    obtain ⟨t, ht, hlogs, -⟩ := h.item d hd
    exact ⟨t, ht, hlogs⟩
  have hcleaned : s.Cleaned sv db db₁ := by
    intro x hx
    obtain ⟨d, hd, rfl⟩ := List.mem_map.mp hx
    obtain ⟨own, hown, hlogs, hnodup⟩ := h.item d hd
    exact ⟨d, hd, rfl, own, hown, hlogs, hnodup, hclean d hd own hown⟩
  have hnew : ∀ x ∈ created s.alignments, db₁ x = none :=
    fun x hx => (hframe x (hs.new x hx)).trans (h.new x hx)
  obtain ⟨times, htimes⟩ := exists_timeLine s db
  obtain ⟨db', hrun, haligned⟩ := run_alignments hs hcleaned hnew htimes
  refine ⟨db', times, ?_, htimes, haligned.trace⟩
  unfold run statements
  rw [foldlM_append_eq_some_iff]
  exact ⟨db₁, hrun₁, hrun⟩

end RoomScript
