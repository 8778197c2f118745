/-
# From the logs to the monitors

The data take three steps to the monitors.  The script of the room brings the logs of its
devices to one time line, `get_data.cpp` writes the tables to text files, and the `main` of
`main.cpp` loads the files of the room, which have been put into the directory `data`.

`pipeline` composes the three: on the way no value is lost, invented or moved to another time
or device.  The monitors hold, for each device, its cleaned value at each time of the time
line, in the order in which the server returns the rows to the export (`exportTimes`).  Event
number `t` is at the same time for all of them if the server returns the rows of a table as they
are stored, which `ORDER BY` in the script does not promise to the queries of the export.
-/
import DecentralMonitor.DataExport
import DecentralMonitor.RoomAssembly
import DecentralMonitor.RoomText
import DecentralMonitor.RoomVerdict
import DecentralMonitor.ScriptSequence

open DataExport FallibleLoop TextLines TimedLog Sql TraceMonitor

namespace RoomScript

variable {ι : Type} {sv : Server}

/-! ## The scripts leave no value out -/

/-- Every row of every table has a value. -/
def NoNulls (db : Database ι) : Prop := ∀ x t, db x = some t → NoNull t

theorem NoNulls.update {db : Database ι} (h : NoNulls db) (table : String) {t : Table ι}
    (ht : NoNull t) : NoNulls (Function.update db table (some t)) := by
  intro x u hu
  rw [Function.update_apply] at hu
  split at hu
  · obtain rfl := Option.some.inj hu
    exact ht
  · exact h x u hu

/-- Rows keep their values when these are replaced. -/
theorem noNull_mapRows {α : Type} {f : α → α} {rows : List (ι × Option α)}
    (h : ∀ r ∈ rows, r.2.isSome) : ∀ r ∈ mapRows (Option.map f) rows, r.2.isSome := by
  intro r hr
  obtain ⟨r', hr', rfl⟩ := List.mem_map.mp hr
  show (r'.2.map f).isSome
  rw [Option.isSome_map]
  exact h r' hr'

theorem noNull_ints {rows : List (ι × Option ℤ)} :
    NoNull (.ints rows) ↔ ∀ r ∈ rows, r.2.isSome := by
  unfold NoNull fields
  rw [List.forall_mem_map]
  simp only [Option.isSome_map]

theorem noNull_texts {rows : List (ι × Option String)} :
    NoNull (.texts rows) ↔ ∀ r ∈ rows, r.2.isSome :=
  List.forall_mem_map

theorem noNull_set {t t' : Table ι} {value : ℤ} {old : Literal} (h : NoNull t)
    (hset : t.set sv value old = some t') : NoNull t' := by
  cases t with
  | times rows => simp [Table.set] at hset
  | ints rows =>
    obtain rfl := Option.some.inj hset
    exact noNull_ints.mpr (noNull_mapRows (noNull_ints.mp h))
  | texts rows =>
    obtain rfl := Option.some.inj hset
    exact noNull_texts.mpr (noNull_mapRows (noNull_texts.mp h))

theorem noNull_unionAll {t t' u : Table ι} (h : NoNull t) (h' : NoNull t')
    (hu : t.unionAll t' = some u) : NoNull u := by
  have hfields : fields u = fields t ++ fields t' := by
    cases t <;> cases t' <;> simp only [Table.unionAll, reduceCtorEq, Option.some.injEq] at hu <;>
      obtain rfl := hu <;> simp [fields, Table.asTexts, mapRows, Function.comp_def]
  intro f hf
  rw [hfields] at hf
  rcases List.mem_append.mp hf with hf | hf
  · exact h f hf
  · exact h' f hf

variable [LinearOrder ι]

theorem noNull_orderByTime {t : Table ι} (h : NoNull t) : NoNull (t.orderByTime sv) := by
  have hperm : (fields (t.orderByTime sv)).Perm (fields t) := by
    cases t with
    | times rows =>
      exact ((List.perm_insertionSort _ _).trans (sv.scan_perm rows)).map _
    | ints rows =>
      exact ((List.perm_insertionSort _ _).trans (sv.scan_perm rows)).map _
    | texts rows =>
      exact ((List.perm_insertionSort _ _).trans (sv.scan_perm rows)).map _
  intro f hf
  exact h f (hperm.mem_iff.mp hf)

/-- The updates of a device. -/
theorem noNulls_update {db db' : Database ι} {d : ItemTable} {st : Statement}
    (hst : st ∈ d.updates) (h : NoNulls db) (hexec : Statement.exec sv db st = some db') :
    NoNulls db' := by
  cases executed_of_exec hexec with
  | update ht hset => exact h.update _ (noNull_set (h _ _ ht) hset)
  | createSelect hq hnew =>
    obtain ⟨kind, table⟩ := d
    cases kind <;> simp [ItemTable.updates] at hst
  | addValue ht hadd =>
    obtain ⟨kind, table⟩ := d
    cases kind <;> simp [ItemTable.updates] at hst
  | createUnionAll ht ht' hu hnew =>
    obtain ⟨kind, table⟩ := d
    cases kind <;> simp [ItemTable.updates] at hst

/-- The statements for one trace.  Between the first and the second of them the table of the
missing times has no values. -/
theorem noNulls_alignment {db db' : Database ι} {a : TraceAlignment} (h : NoNulls db)
    (hrun : run sv a.statements db = some db') : NoNulls db' := by
  unfold run TraceAlignment.statements at hrun
  simp only [List.foldlM_cons, List.foldlM_nil, Option.bind_eq_bind] at hrun
  obtain ⟨db₁, h₁, hrun⟩ := Option.bind_eq_some_iff.mp hrun
  obtain ⟨db₂, h₂, hrun⟩ := Option.bind_eq_some_iff.mp hrun
  obtain ⟨db₃, h₃, hrun⟩ := Option.bind_eq_some_iff.mp hrun
  obtain rfl : db₃ = db' := Option.some.inj hrun
  cases executed_of_exec h₁ with
  | @createSelect _ _ missing hq hnew =>
    cases executed_of_exec h₂ with
    | addValue ht hadd =>
      rw [Function.update_self] at ht
      obtain rfl := Option.some.inj ht
      obtain rfl := Option.some.inj hadd
      rw [Function.update_idem] at h₃
      have hzeros : NoNulls (Function.update db a.temp
          (some (.ints (missing.map fun t => (t, some 0))))) := by
        apply h.update
        rw [noNull_ints]
        intro r hr
        obtain ⟨t, -, rfl⟩ := List.mem_map.mp hr
        rfl
      cases executed_of_exec h₃ with
      | createUnionAll ht ht' hu hnew =>
        exact hzeros.update _ (noNull_orderByTime
          (noNull_unionAll (hzeros _ _ ht) (hzeros _ _ ht') hu))

/-- **A script leaves no value out.** -/
theorem run_noNulls {s : RoomScript} {db db' : Database ι} (h : NoNulls db)
    (hrun : run sv s.statements db = some db') : NoNulls db' := by
  obtain ⟨u, hupdates, haligns⟩ := run_append_eq_some_iff.mp hrun
  have hu : NoNulls u := by
    refine of_foldlM_eq_some (P := NoNulls) ?_ h hupdates
    intro st hst v w hv hexec
    obtain ⟨d, -, hst⟩ := List.mem_flatMap.mp hst
    exact noNulls_update hst hv hexec
  unfold run at haligns
  rw [foldlM_flatMap] at haligns
  exact of_foldlM_eq_some (fun a _ _ _ hv hw => noNulls_alignment hv hw) hu haligns

/-! ## The values of a trace -/

/-- The text of a log at a time: that of its value, or 0 if it has no row. -/
def cellOf {α : Type} (f : α → String) (rows : List (ι × Option α)) (t : ι) : String :=
  match rows.lookup t with
  | some v => (v.map f).getD ""
  | none => "0"

/-- The text of a device's value at a time: its cleaned value if it has logged one, 0
otherwise. -/
def cellText (sv : Server) : DeviceKind → Table ι → ι → String
  | .switch, .texts rows => cellOf (cleanSwitch sv) rows
  | .light, .ints rows => cellOf (fun n => toString (cleanLight n)) rows
  | .light, .texts rows => cellOf (cleanLightText sv) rows
  | _, _ => fun _ => "0"

theorem lookup_mapRows {α β : Type} (f : α → β) (rows : List (ι × α)) (t : ι) :
    (mapRows f rows).lookup t = (rows.lookup t).map f := by
  induction rows with
  | nil => rfl
  | cons r rows ih =>
    obtain ⟨t', v⟩ := r
    show ((t', f v) :: mapRows f rows).lookup t = _
    rw [List.lookup_cons, List.lookup_cons]
    split
    · rfl
    · exact ih

/-- The values of rows of a filled log. -/
theorem map_rows_fill {α β : Type} (g : α → β) (f : β → String) {rows : List (ι × Option α)}
    {times : List ι} {d : Option β} (hd : (d.map f).getD "" = "0") {l : List (ι × Option β)}
    (hl : l ⊆ fill d (mapRows (Option.map g) rows) times) :
    l.map (fun r => (r.2.map f).getD "") =
      (l.map Prod.fst).map (cellOf (fun v => f (g v)) rows) := by
  rw [List.map_map]
  refine List.map_congr_left fun r hr => ?_
  obtain ⟨t, -, rfl⟩ := List.mem_map.mp (hl hr)
  unfold cellOf
  rw [Function.comp_apply, lookup_mapRows]
  cases rows.lookup t with
  | none => exact hd
  | some v => cases v <;> rfl

/-- The values of an exported trace, at the times of the rows that the server returns. -/
theorem values_selectAll_align {k : DeviceKind} {own : Table ι} (h : Logs k own)
    (times : List ι) : values (selectAll sv (align times (clean sv k own))) =
      (selectAll sv (align times (clean sv k own))).time.map (cellText sv k own) := by
  have htexts : ∀ rows : List (ι × Option String), values (.texts rows) =
      rows.map fun r => (r.2.map fun v => v).getD "" := by
    intro rows
    unfold values fields
    rw [List.map_map]
    refine List.map_congr_left fun r _ => ?_
    rw [Option.map_id_fun']
    rfl
  have hscan : ∀ {α : Type} (rows : List α), sv.scan rows ⊆ rows := fun rows =>
    (sv.scan_perm rows).subset
  cases k with
  | switch =>
    cases own with
    | times rows => exact absurd h id
    | ints rows => exact absurd h id
    | texts rows =>
      exact (htexts _).trans (map_rows_fill (cleanSwitch sv) (fun v => v) rfl (hscan _))
  | light =>
    cases own with
    | times rows => exact absurd h id
    | ints rows =>
      have hints : ∀ rows : List (ι × Option ℤ), values (.ints rows) =
          rows.map fun r => (r.2.map toString).getD "" := fun rows => List.map_map
      exact (hints _).trans (map_rows_fill cleanLight toString rfl (hscan _))
    | texts rows =>
      exact (htexts _).trans (map_rows_fill (cleanLightText sv) (fun v => v) rfl (hscan _))

/-- A text that `readFile` takes for one value: it is on one line and has none of the words
that mark a header. -/
def PlainValue (v : String) : Prop := OneLine v ∧ ¬ IsHeader v

theorem plainValue_digit : PlainValue "0" ∧ PlainValue "1" := by
  unfold PlainValue
  decide

theorem mem_of_lookup {κ α : Type} [BEq κ] [LawfulBEq κ] {rows : List (κ × α)} {t : κ} {v : α}
    (h : rows.lookup t = some v) : (t, v) ∈ rows := by
  obtain ⟨l₁, l₂, rfl, -⟩ := List.lookup_eq_some_iff.mp h
  exact List.mem_append_right l₁ List.mem_cons_self

/-- The text of a log at a time is 0 or comes from a row. -/
theorem cellOf_cases {α : Type} (f : α → String) {rows : List (ι × Option α)}
    (h : ∀ r ∈ rows, r.2.isSome) (t : ι) :
    cellOf f rows t = "0" ∨ ∃ v, (t, some v) ∈ rows ∧ cellOf f rows t = f v := by
  unfold cellOf
  cases hlookup : rows.lookup t with
  | none => exact Or.inl rfl
  | some v =>
    have hmem := mem_of_lookup hlookup
    obtain ⟨w, rfl⟩ := Option.isSome_iff_exists.mp (h _ hmem)
    exact Or.inr ⟨w, hmem, rfl⟩

/-- The text at a time is 0 or 1 or has been logged. -/
theorem cellText_cases {k : DeviceKind} {own : Table ι} (h : NoNull own) (t : ι) :
    cellText sv k own t = "0" ∨ cellText sv k own t = "1" ∨ cellText sv k own t ∈ values own := by
  have htexts : ∀ (f : String → String) (rows : List (ι × Option String)),
      (∀ v, f v = "0" ∨ f v = "1" ∨ f v = v) → NoNull (.texts rows) →
      cellOf f rows t = "0" ∨ cellOf f rows t = "1" ∨ cellOf f rows t ∈ values (.texts rows) := by
    intro f rows hf hrows
    rcases cellOf_cases f (noNull_texts.mp hrows) t with hc | ⟨v, hv, hc⟩
    · exact Or.inl hc
    · rw [hc]
      rcases hf v with hw | hw | hw
      · exact Or.inl hw
      · exact Or.inr (Or.inl hw)
      · rw [hw]
        exact Or.inr (Or.inr (List.mem_map.mpr ⟨some v, List.mem_map_of_mem hv, rfl⟩))
  cases k with
  | switch =>
    cases own with
    | times rows => exact Or.inl rfl
    | ints rows => exact Or.inl rfl
    | texts rows =>
      refine htexts (cleanSwitch sv) rows (fun v => ?_) h
      unfold cleanSwitch
      split
      · exact Or.inr (Or.inl rfl)
      · split
        · exact Or.inl rfl
        · exact Or.inr (Or.inr rfl)
  | light =>
    cases own with
    | times rows => exact Or.inl rfl
    | ints rows =>
      rcases cellOf_cases (fun n => toString (cleanLight n)) (noNull_ints.mp h) t with
        hc | ⟨n, hn, hc⟩
      · exact Or.inl hc
      · show cellOf _ rows t = _ ∨ cellOf _ rows t = _ ∨ cellOf _ rows t ∈ _
        rw [hc]
        unfold cleanLight
        split
        · exact Or.inr (Or.inl rfl)
        · exact Or.inr (Or.inr (List.mem_map.mpr
            ⟨some (toString n), List.mem_map.mpr ⟨(t, some n), hn, rfl⟩, rfl⟩))
    | texts rows =>
      refine htexts (cleanLightText sv) rows (fun v => ?_) h
      unfold cleanLightText
      split
      · exact Or.inr (Or.inl rfl)
      · exact Or.inr (Or.inr rfl)

theorem plainValue_cellText {k : DeviceKind} {own : Table ι} (h : NoNull own)
    (hplain : ∀ v ∈ values own, PlainValue v) (t : ι) : PlainValue (cellText sv k own t) := by
  have hcases : cellText sv k own t = "0" ∨ cellText sv k own t = "1" ∨
      cellText sv k own t ∈ values own := cellText_cases h t
  rcases hcases with hc | hc | hc
  · rw [hc]
    exact plainValue_digit.1
  · rw [hc]
    exact plainValue_digit.2
  · exact hplain _ hc

/-! ## From the database to the monitors -/

/-- The logs before the first step: the tables of the room are as its script expects them, no
value is missing anywhere, the room's values are plain, and its time line fits the arrays of
the monitors. -/
structure LogsReady (s : RoomScript) (db : Database ι) : Prop where
  imported : s.Imported db
  noNulls : NoNulls db
  plain : ∀ d ∈ s.items, ∀ own, db d.table = some own → ∀ v ∈ values own, PlainValue v
  short : ∀ times, s.TimeLine db times → times.length ≤ maxEvent

/-- The script makes the traces of these switches and lights under the names by which `main`
looks for them. -/
structure MakesTraces (s : RoomScript) (path : String) (numSwitch numLight : ℕ) : Prop where
  switch : ∀ p ∈ List.range' 1 numSwitch, ∃ a ∈ s.alignments,
    a.trace = path ++ "switch_" ++ toString p
  light : ∀ l ∈ List.range' 1 numLight, ∃ a ∈ s.alignments,
    a.trace = path ++ "light_" ++ toString l

/-- `tables` is the answer to `show tables`. -/
def ShowTables (db : Database ι) (tables : List String) : Prop :=
  ∀ x, x ∈ tables ↔ (db x).isSome

/-- The exported traces of the room have been put into the directory `data`. -/
def Placed (s : RoomScript) (exported texts : String → List Char) : Prop :=
  ∀ a ∈ s.alignments, texts ("data/" ++ a.trace ++ ".txt") = exported (a.trace ++ ".txt")

/-- What the pipeline starts from: a server that knows the states of a switch apart, a complete
script that makes the traces of the room, under the names that `main` opens, from logs that are
ready, and a room that fits the arrays. -/
structure PipelineInput (sv : Server) (s : RoomScript) (db : Database ι) (path : String)
    (numSwitch numLight : ℕ) : Prop where
  zero : sv.weight "0" ≠ sv.weight "ON"
  off : sv.weight "OFF" ≠ sv.weight "ON"
  complete : s.Complete
  ready : LogsReady s db
  oneLine : OneLine path
  names : MakesTraces s path numSwitch numLight
  switches : 1 ≤ numSwitch
  lights : 1 ≤ numLight
  processes : numSwitch + numLight ≤ maxProcess
  monitors : numSwitch * numLight ≤ Room.maxMonitor

/-- The times of the rows that the server returns to the query of the export for a table, in
their order. -/
def exportTimes (sv : Server) (db : Database ι) (table : String) : List ι :=
  match db table with
  | some t => (selectAll sv t).time
  | none => []

/-- The server returns the rows of a table in the order in which they are stored. -/
def ReturnsStored (sv : Server) : Prop := ∀ (α : Type) (l : List α), sv.scan l = l

/-- A trace is exported with the times of the time line. -/
theorem exportTimes_perm {s : RoomScript} {db db' : Database ι} {times : List ι}
    {a : TraceAlignment} (h : s.HoldsTrace sv db db' times a) :
    (exportTimes sv db' a.trace).Perm times := by
  obtain ⟨t, ht, rfl⟩ := h.time
  unfold exportTimes
  rw [ht]
  exact perm_time_selectAll sv t

theorem exportTimes_eq {s : RoomScript} {db db' : Database ι} {times : List ι}
    {a : TraceAlignment} (h : s.HoldsTrace sv db db' times a) (hsv : ReturnsStored sv) :
    exportTimes sv db' a.trace = times := by
  obtain ⟨t, ht, rfl⟩ := h.time
  unfold exportTimes
  rw [ht]
  have hstored : ∀ {α : Type} (l : List α), sv.scan l = l := fun l => hsv _ l
  cases t <;> simp only [selectAll, Table.time, hstored]

/-- These are the values at the times of the device that the trace with this name is about. -/
def TraceOf (sv : Server) (s : RoomScript) (db : Database ι) (times : List ι) (trace : String)
    (vs : List String) : Prop :=
  ∃ a ∈ s.alignments, a.trace = trace ∧ ∃ d ∈ s.items, d.table = a.item ∧
    ∃ own, db d.table = some own ∧ vs = times.map (cellText sv d.kind own)

/-- The device that is read from the file of an exported trace. -/
theorem exists_device {s : RoomScript} {db db' : Database ι} (h : LogsReady s db)
    {times : List ι} (htimes : s.TimeLine db times) {a : TraceAlignment} (ha : a ∈ s.alignments)
    (htrace : s.HoldsTrace sv db db' times a)
    (hheader : IsHeader a.trace) (hline : OneLine a.trace)
    {exported texts : String → List Char}
    (hexport : exported (a.trace ++ ".txt") = tableText (entries sv db' a.trace))
    (hplaced : texts ("data/" ++ a.trace ++ ".txt") = exported (a.trace ++ ".txt")) :
    ∃ device : Device, Room.textFiles texts ("data/" ++ a.trace ++ ".txt") = device.lines ∧
      device.values.length = times.length ∧
      TraceOf sv s db (exportTimes sv db' a.trace) a.trace device.values := by
  have hperm := exportTimes_perm htrace
  obtain ⟨d, hd, hitem, own, hown, haligned⟩ := htrace
  obtain ⟨own', hown', hlogs, -⟩ := h.imported.item d hd
  obtain rfl : own = own' := Option.some.inj (hown.symm.trans hown')
  generalize horder : exportTimes sv db' a.trace = order at hperm
  have hplain : ∀ v ∈ order.map (cellText sv d.kind own), PlainValue v := by
    intro v hv
    obtain ⟨t, -, rfl⟩ := List.mem_map.mp hv
    exact plainValue_cellText (h.noNulls _ _ hown) (h.plain d hd own hown) t
  have hentries : entries sv db' a.trace = a.trace :: order.map (cellText sv d.kind own) := by
    rw [← horder]
    unfold entries exportTimes
    rw [haligned]
    exact congrArg (a.trace :: ·) (values_selectAll_align hlogs times)
  have hlength : (order.map (cellText sv d.kind own)).length = times.length := by
    rw [List.length_map, hperm.length_eq]
  refine ⟨⟨a.trace, order.map (cellText sv d.kind own), hheader,
    fun v hv => (hplain v hv).2, hlength.trans_le (h.short times htimes)⟩, ?_, hlength, a, ha, rfl,
    d, hd, hitem, own, hown, rfl⟩
  unfold Room.textFiles
  rw [hplaced, hexport, hentries, lines_tableText]
  · rfl
  · intro e he
    rcases List.mem_cons.mp he with rfl | he
    · exact hline
    · exact (hplain e he).1

/-- The names of the traces are headers on one line. -/
theorem header_name {path word : String} (hpath : OneLine path)
    (hword : word = "switch" ∨ word = "light") (k : ℕ) :
    IsHeader (path ++ (word ++ "_") ++ toString k) ∧
      OneLine (path ++ (word ++ "_") ++ toString k) := by
  have hdigits : '\n' ∉ (toString k).toList := by
    intro hmem
    have hdigit : '\n'.isDigit = true := by
      refine Nat.isDigit_of_mem_toDigits (b := 10) (n := k) (by decide) (by decide) ?_
      rwa [← Nat.toList_repr]
    exact absurd hdigit (by decide)
  have hfinds : Finds (path ++ (word ++ "_") ++ toString k) word := by
    refine ⟨path.toList, "_".toList ++ (toString k).toList, ?_⟩
    simp
  have hline : ∀ w : String, w = "switch" ∨ w = "light" → '\n' ∉ (w ++ "_").toList := by
    rintro w (rfl | rfl) <;> decide
  constructor
  · rcases hword with rfl | rfl
    · exact Or.inr hfinds
    · exact Or.inl hfinds
  · unfold OneLine
    rw [String.toList_append, String.toList_append, List.mem_append, List.mem_append, not_or,
      not_or]
    exact ⟨⟨hpath, hline word hword⟩, hdigits⟩

/-- The files of the room's devices, once the exported files are in their place, when the trace
`x` has been exported in the order `order x`. -/
structure TracesPlaced (sv : Server) (s : RoomScript) (db : Database ι) (T : ℕ)
    (order : String → List ι) (path : String) (numSwitch numLight : ℕ)
    (texts : String → List Char) (switch light : ℕ → Device) : Prop where
  room : Room.AlignedRoom path numSwitch numLight T (Room.textFiles texts) switch light
  switch : ∀ p ∈ List.range' 1 numSwitch,
    TraceOf sv s db (order (path ++ "switch_" ++ toString p)) (path ++ "switch_" ++ toString p)
      (switch p).values
  light : ∀ l ∈ List.range' 1 numLight,
    TraceOf sv s db (order (path ++ "light_" ++ toString l)) (path ++ "light_" ++ toString l)
      (light l).values

section Pipeline

variable {s : RoomScript} {db db' : Database ι} {times : List ι} {order : String → List ι}
  {path : String} {numSwitch numLight : ℕ}

/-- **The files.**  Each exported trace is the file of a device with one value for each time. -/
theorem exists_tracesPlaced (h : PipelineInput sv s db path numSwitch numLight)
    (htimes : s.TimeLine db times) (htraces : ∀ a ∈ s.alignments, s.HoldsTrace sv db db' times a)
    {tables : List String} (htables : ShowTables db' tables)
    {exported texts : String → List Char}
    (hfile : ∀ x ∈ tables, exported (x ++ ".txt") = tableText (entries sv db' x))
    (hplaced : Placed s exported texts) :
    ∃ switch light, TracesPlaced sv s db times.length (exportTimes sv db') path numSwitch numLight
      texts switch light := by
  -- the file of one trace
  have hdevice : ∀ word : String, word = "switch" ∨ word = "light" → ∀ k : ℕ,
      (∃ a ∈ s.alignments, a.trace = path ++ (word ++ "_") ++ toString k) →
      ∃ device : Device, Room.textFiles texts
          ("data/" ++ (path ++ (word ++ "_") ++ toString k) ++ ".txt") = device.lines ∧
        device.values.length = times.length ∧
        TraceOf sv s db (exportTimes sv db' (path ++ (word ++ "_") ++ toString k))
          (path ++ (word ++ "_") ++ toString k) device.values := by
    rintro word hword k ⟨a, ha, hname⟩
    obtain ⟨hheader, hline⟩ := header_name h.oneLine hword k
    rw [← hname] at hheader hline ⊢
    have hmem : a.trace ∈ tables := by
      rw [htables]
      obtain ⟨t, ht, -⟩ := (htraces a ha).time
      rw [ht]
      rfl
    exact exists_device h.ready htimes ha (htraces a ha) hheader hline (hfile _ hmem)
      (hplaced a ha)
  have hnonempty : Nonempty Device := ⟨kitchenSwitch⟩
  choose! switch hswitch using fun p (hp : p ∈ List.range' 1 numSwitch) =>
    hdevice "switch" (Or.inl rfl) p (h.names.switch p hp)
  choose! light hlight using fun l (hl : l ∈ List.range' 1 numLight) =>
    hdevice "light" (Or.inr rfl) l (h.names.light l hl)
  refine ⟨switch, light, ⟨h.switches, h.lights, h.processes, h.monitors,
      ⟨fun p hp => ?_, fun l hl => ?_⟩, fun p hp => (hswitch p hp).2.1,
      fun l hl => (hlight l hl).2.1⟩,
    fun p hp => (hswitch p hp).2.2, fun l hl => (hlight l hl).2.2⟩
  · rw [← (hswitch p hp).1]
    congr 1
  · rw [← (hlight l hl).1]
    congr 1

/-- What the loaded monitors hold of the traces: monitor `(p - 1) * numLight + (l - 1)` those of
switch `p` and light `l`, and the centralised monitor, in each place, the trace that it names
there.  The values of the trace `x` are those at the times `order x`. -/
structure MonitorsHold (sv : Server) (s : RoomScript) (db : Database ι)
    (order : String → List ι) (path : String) (numSwitch numLight : ℕ)
    (room : Room (numSwitch * numLight)) : Prop where
  pair : ∀ p ∈ List.range' 1 numSwitch, ∀ l ∈ List.range' 1 numLight,
    ∃ (i : Fin (numSwitch * numLight)) (vs ws : List String),
      (i : ℕ) = (p - 1) * numLight + (l - 1) ∧
      TraceOf sv s db (order (path ++ "switch_" ++ toString p))
        (path ++ "switch_" ++ toString p) vs ∧
      TraceOf sv s db (order (path ++ "light_" ++ toString l))
        (path ++ "light_" ++ toString l) ws ∧
      Room.HoldsTrace (room.monitorList i) 0 vs ∧ Room.HoldsTrace (room.monitorList i) 1 ws
  cent : ∀ k < numSwitch + numLight, ∃ (trace : String) (vs : List String),
    room.centMon.subformula[k]? = some ("data/" ++ trace) ∧
      TraceOf sv s db (order trace) trace vs ∧ Room.HoldsTrace room.centMon k vs

/-- **The monitors.**  Loading these files leaves every trace where it belongs. -/
theorem TracesPlaced.monitorsHold {texts : String → List Char} {switch light : ℕ → Device}
    {T : ℕ} (h : TracesPlaced sv s db T order path numSwitch numLight texts switch light) :
    ∃ room, Room.loadRoomText path numSwitch numLight texts = some room ∧
      MonitorsHold sv s db order path numSwitch numLight room := by
  obtain ⟨hS, hL, hprocess, hmonitor, hfiles, -, -⟩ := h.room
  rw [Room.loadRoomText_eq]
  refine ⟨_, Room.loadRoom_spec hS hL hprocess hmonitor hfiles, fun p hp l hl => ?_,
    fun k hk => ?_⟩
  · have hpair := (List.getElem?_eq_some_iff.mp (Room.getElem?_pairList hp hl)).2
    have hvalues : ∀ i (hi : i < [switch p, light l].length),
        Room.HoldsTrace (Room.loadedPair path numSwitch numLight switch light (p, l)) i
          [switch p, light l][i].values :=
      fun i hi => withTrace_values _ [switch p, light l] hi
    refine ⟨⟨(p - 1) * numLight + (l - 1), Room.pairIndex_lt hp hl⟩, _, _, rfl, h.switch p hp,
      h.light l hl, ?_, ?_⟩
    · rw [← hpair] at hvalues
      exact hvalues 0 (by simp)
    · rw [← hpair] at hvalues
      exact hvalues 1 (by simp)
  · obtain ⟨e, he, hname, hholds⟩ :
        ∃ e ∈ Room.namedDevices path numSwitch numLight switch light,
          (Room.loadedCent path numSwitch numLight switch light).subformula[k]? = some e.1 ∧
            Room.HoldsTrace (Room.loadedCent path numSwitch numLight switch light) k e.2.values :=
      Room.loadedCent_holds hS hk
    rcases (Room.mem_centOrder hS).mp he with ⟨p, hp, rfl⟩ | ⟨l, hl, rfl⟩
    · refine ⟨_, _, ?_, h.switch p hp, hholds⟩
      rw [hname]
      simp only [Room.switchName, String.append_assoc]
    · refine ⟨_, _, ?_, h.light l hl, hholds⟩
      rw [hname]
      simp only [Room.lightName, String.append_assoc]

/-- The stages succeed one after the other, and leave the files of the room. -/
theorem PipelineInput.tracesPlaced (h : PipelineInput sv s db path numSwitch numLight) :
    ∃ db' times, run sv s.statements db = some db' ∧ s.TimeLine db times ∧
      (∀ a ∈ s.alignments, s.HoldsTrace sv db db' times a) ∧
      ∀ tables dir, ShowTables db' tables →
        ∃ exported, exportTables sv db' tables dir = some exported ∧
          ∀ texts, Placed s exported texts → ∃ switch light, TracesPlaced sv s db times.length
            (exportTimes sv db') path numSwitch numLight texts switch light := by
  obtain ⟨db', times, hrun, htimes, htraces⟩ :=
    run_complete h.zero h.off h.complete h.ready.imported
  refine ⟨db', times, hrun, htimes, htraces, fun tables dir htables => ?_⟩
  have hnoNulls : NoNulls db' := run_noNulls h.ready.noNulls hrun
  have hspec : ∃ exported, exportTables sv db' tables dir = some exported ∧
      (∀ x ∈ tables, exported (x ++ ".txt") = tableText (entries sv db' x)) ∧
      ∀ name, (∀ x ∈ tables, name ≠ x ++ ".txt") → exported name = dir name :=
    exportTables_spec (fun x _ t ht => hnoNulls x t ht) dir
  obtain ⟨exported, hexport, hfile, -⟩ := hspec
  exact ⟨exported, hexport,
    fun texts hplaced => exists_tracesPlaced h htimes htraces htables hfile hplaced⟩

/-- **The pipeline.**  The script succeeds; whatever the answer to `show tables`, the export
returns; and with the exported traces in the directory `data` the room is loaded.  Its monitors
hold for each device one value for each time at which some device of the room has logged
something: the cleaned value if the device has logged one at this time, and 0 otherwise.  The
values of a device are in the order in which the server has returned the rows of its trace, which
is that of the time line, for all devices, if the server returns rows as they are stored. -/
theorem pipeline (h : PipelineInput sv s db path numSwitch numLight) :
    ∃ db' times, run sv s.statements db = some db' ∧ s.TimeLine db times ∧
      (∀ a ∈ s.alignments, (exportTimes sv db' a.trace).Perm times ∧
        (ReturnsStored sv → exportTimes sv db' a.trace = times)) ∧
      ∀ tables dir, ShowTables db' tables →
        ∃ exported, exportTables sv db' tables dir = some exported ∧
          ∀ texts, Placed s exported texts →
            ∃ room, Room.loadRoomText path numSwitch numLight texts = some room ∧
              MonitorsHold sv s db (exportTimes sv db') path numSwitch numLight room := by
  obtain ⟨db', times, hrun, htimes, htraces, hstages⟩ := h.tracesPlaced
  refine ⟨db', times, hrun, htimes,
    fun a ha => ⟨exportTimes_perm (htraces a ha), exportTimes_eq (htraces a ha)⟩,
    fun tables dir htables => ?_⟩
  obtain ⟨exported, hexport, hfiles⟩ := hstages tables dir htables
  refine ⟨exported, hexport, fun texts htexts => ?_⟩
  obtain ⟨switch, light, hplaced⟩ := hfiles texts htexts
  exact hplaced.monitorsHold

end Pipeline

/-! ## A kitchen -/

/-- The logs of a kitchen's devices. -/
def kitchenTables : List (String × Table ℕ) :=
  [("item302", .texts [(4, some "OFF"), (1, some "ON")]), ("item304", .texts []),
    ("item345", .texts [(2, some "ON")]), ("item346", .texts []),
    ("item223", .ints [(2, some 100), (3, some 0)]), ("item230", .ints [(5, some 55)])]

def kitchenLogs : Database ℕ := fun x => kitchenTables.lookup x

theorem logsReady_kitchen : LogsReady kitchen kitchenLogs := by
  have hnoNulls : ∀ e ∈ kitchenTables, NoNull e.2 := by
    unfold NoNull
    decide
  have hplain : ∀ e ∈ kitchenTables, ∀ v ∈ values e.2, PlainValue v := by
    unfold PlainValue
    decide +kernel
  constructor
  · constructor
    · intro d hd
      simp only [kitchen, List.mem_cons, List.not_mem_nil, or_false] at hd
      rcases hd with rfl | rfl | rfl | rfl | rfl | rfl <;> exact ⟨_, rfl, trivial, by decide⟩
    · exact by decide
  · intro x t h
    exact hnoNulls _ (mem_of_lookup h)
  · intro d _ own h
    exact hplain _ (mem_of_lookup h)
  · intro times htimes
    have hsub : times ⊆ kitchenTables.flatMap fun e => e.2.time := by
      intro t ht
      obtain ⟨x, -, own, hown, ht⟩ := (htimes.mem t).mp ht
      exact List.mem_flatMap.mpr ⟨_, mem_of_lookup hown, ht⟩
    have hnodup : times.Nodup := htimes.ascending.nodup
    exact (hnodup.subperm hsub).length_le.trans (by decide)

theorem makesTraces_kitchen : MakesTraces kitchen "kitchen" 4 2 := by
  constructor <;> decide +kernel

/-- The rooms that `main` goes through, with their scripts. -/
def mainScripts : List (String × RoomScript) :=
  [("entrance", entrance), ("kitchen", kitchen), ("office", office), ("toilet", toilet),
    ("staircase", staircase), ("bathroom", bathroom)]

/-- Two of them have scripts that make traces under the names by which `main` looks for them. -/
theorem makesTraces_main : ∀ e ∈ mainScripts,
    (∃ numSwitch numLight, 1 ≤ numSwitch ∧ 1 ≤ numLight ∧
      MakesTraces e.2 e.1 numSwitch numLight) ↔ e.1 = "kitchen" ∨ e.1 = "bathroom" := by
  intro e he
  -- the first switch and the first light tell the rooms apart
  have hfirst : ((∃ a ∈ e.2.alignments, a.trace = e.1 ++ "switch_" ++ toString 1) ∧
      ∃ a ∈ e.2.alignments, a.trace = e.1 ++ "light_" ++ toString 1) ↔
        e.1 = "kitchen" ∨ e.1 = "bathroom" := by
    revert e
    decide +kernel
  rw [← hfirst]
  constructor
  · rintro ⟨numSwitch, numLight, hS, hL, hmakes⟩
    exact ⟨hmakes.switch 1 (by rw [List.mem_range'_1]; omega),
      hmakes.light 1 (by rw [List.mem_range'_1]; omega)⟩
  · rintro ⟨hswitch, hlight⟩
    refine ⟨1, 1, le_rfl, le_rfl, fun p hp => ?_, fun l hl => ?_⟩
    · obtain rfl : p = 1 := List.mem_singleton.mp hp
      exact hswitch
    · obtain rfl : l = 1 := List.mem_singleton.mp hl
      exact hlight

theorem pipelineInput_kitchen : PipelineInput plainServer kitchen kitchenLogs "kitchen" 4 2 where
  zero := by decide
  off := by decide
  complete := complete_roomScripts kitchen (by simp [roomScripts])
  ready := logsReady_kitchen
  oneLine := by decide
  names := makesTraces_kitchen
  switches := by decide
  lights := by decide
  processes := by decide
  monitors := by decide

/-- The four switches and two lights of a kitchen: the times are those of six logs, of which
two are empty. -/
theorem pipeline_kitchen :
    ∃ db' times, run plainServer kitchen.statements kitchenLogs = some db' ∧
      kitchen.TimeLine kitchenLogs times ∧
      (∀ a ∈ kitchen.alignments, exportTimes plainServer db' a.trace = times) ∧
      ∀ tables dir, ShowTables db' tables →
        ∃ exported, exportTables plainServer db' tables dir = some exported ∧
          ∀ texts, Placed kitchen exported texts →
            ∃ room, Room.loadRoomText "kitchen" 4 2 texts = some room ∧
              MonitorsHold plainServer kitchen kitchenLogs (exportTimes plainServer db')
                "kitchen" 4 2 room := by
  obtain ⟨db', times, hrun, htimes, horder, hstages⟩ := pipeline pipelineInput_kitchen
  exact ⟨db', times, hrun, htimes, fun a ha => (horder a ha).2 fun _ _ => rfl, hstages⟩

end RoomScript
