/-
# The scripts of the nine rooms

The alignment scripts of `SQL_statements`, statement by statement: for each device the
updates of its table, then for each generated table the device it is made from and the
tables whose times are added, in the order in which the unions list them.

All of them are complete (`complete_roomScripts`), so each brings the logs of its room to
one time line (`trace_alignment`).
-/
import DecentralMonitor.RoomScript

open TimedLog Sql

namespace RoomScript

/-! ## The scripts -/

/-- `bathroom.sql` -/
def bathroom : RoomScript where
  items := [⟨.switch, "item330"⟩, ⟨.switch, "item331"⟩, ⟨.switch, "item332"⟩,
    ⟨.switch, "item333"⟩, ⟨.light, "item209"⟩, ⟨.light, "item226"⟩]
  alignments := [
    ⟨"t1", "bathroomlight_1", "item209", "item330", ["item331", "item332", "item333", "item226"]⟩,
    ⟨"t2", "bathroomswitch_1", "item330", "item209", ["item331", "item332", "item333", "item226"]⟩,
    ⟨"t3", "bathroomswitch_2", "item331", "item209", ["item330", "item332", "item333", "item226"]⟩,
    ⟨"t4", "bathroomswitch_3", "item332", "item209", ["item330", "item331", "item333", "item226"]⟩,
    ⟨"t5", "bathroomswitch_4", "item333", "item209", ["item330", "item331", "item332", "item226"]⟩,
    ⟨"t6", "bathroomlight_2", "item226", "item209", ["item330", "item331", "item332", "item333"]⟩]

/-- `bedroom.sql` -/
def bedroom : RoomScript where
  items := [⟨.switch, "item335"⟩, ⟨.switch, "item336"⟩, ⟨.switch, "item337"⟩,
    ⟨.switch, "item338"⟩, ⟨.switch, "item360"⟩, ⟨.switch, "item356"⟩, ⟨.light, "item207"⟩,
    ⟨.light, "item208"⟩, ⟨.light, "item214"⟩, ⟨.light, "item220"⟩]
  alignments := [
    ⟨"t1", "bedroomswitch_6", "item360", "item335", ["item336", "item337", "item338", "item214",
      "item356", "item207", "item208", "item220"]⟩,
    ⟨"t2", "bedroomswitch_1", "item335", "item360", ["item336", "item337", "item338", "item214",
      "item356", "item207", "item208", "item220"]⟩,
    ⟨"t3", "bedroomswitch_2", "item336", "item360", ["item335", "item337", "item338", "item214",
      "item356", "item207", "item208", "item220"]⟩,
    ⟨"t4", "bedroomswitch_3", "item337", "item360", ["item335", "item336", "item338", "item214",
      "item356", "item207", "item208", "item220"]⟩,
    ⟨"t5", "bedroomswitch_4", "item338", "item360", ["item335", "item336", "item337", "item214",
      "item356", "item207", "item208", "item220"]⟩,
    ⟨"t6", "bedroomlight_3", "item214", "item360", ["item335", "item336", "item337", "item338",
      "item356", "item207", "item208", "item220"]⟩,
    ⟨"t7", "bedroomswitch_5", "item356", "item360", ["item335", "item336", "item337", "item338",
      "item214", "item207", "item208", "item220"]⟩,
    ⟨"t8", "bedroomlight_2", "item208", "item360", ["item335", "item336", "item337", "item338",
      "item214", "item207", "item356", "item220"]⟩,
    ⟨"t9", "bedroomlight_1", "item207", "item360", ["item335", "item336", "item337", "item338",
      "item214", "item356", "item208", "item220"]⟩,
    ⟨"t10", "bedroomlight_4", "item220", "item335", ["item336", "item337", "item338", "item356",
      "item360", "item207", "item208", "item214"]⟩]

/-- `entrance.sql` -/
def entrance : RoomScript where
  items := [⟨.switch, "item306"⟩, ⟨.light, "item210"⟩]
  alignments := [
    ⟨"t1", "entrancelight_1", "item210", "item306", []⟩,
    ⟨"t2", "entranceswitch", "item306", "item210", []⟩]

/-- `kitchen.sql` -/
def kitchen : RoomScript where
  items := [⟨.switch, "item302"⟩, ⟨.switch, "item304"⟩, ⟨.switch, "item345"⟩,
    ⟨.switch, "item346"⟩, ⟨.light, "item223"⟩, ⟨.light, "item230"⟩]
  alignments := [
    ⟨"t1", "kitchenlight_1", "item223", "item302", ["item304", "item345", "item346", "item230"]⟩,
    ⟨"t2", "kitchenswitch_1", "item302", "item223", ["item304", "item345", "item346", "item230"]⟩,
    ⟨"t3", "kitchenswitch_2", "item304", "item223", ["item302", "item345", "item346", "item230"]⟩,
    ⟨"t4", "kitchenswitch_3", "item345", "item223", ["item302", "item304", "item346", "item230"]⟩,
    ⟨"t5", "kitchenswitch_4", "item346", "item223", ["item302", "item304", "item345", "item230"]⟩,
    ⟨"t6", "kitchenlight_2", "item230", "item223", ["item302", "item304", "item345", "item346"]⟩]

/-- `livingroom.sql` -/
def livingroom : RoomScript where
  items := [⟨.switch, "item291"⟩, ⟨.switch, "item297"⟩, ⟨.switch, "item298"⟩,
    ⟨.switch, "item351"⟩, ⟨.light, "item212"⟩, ⟨.switch, "item353"⟩, ⟨.light, "item218"⟩]
  alignments := [
    ⟨"t1", "livinglight_1", "item212", "item291", ["item297", "item298", "item351", "item218",
      "item353"]⟩,
    ⟨"t2", "livingswitch_1", "item291", "item212", ["item297", "item298", "item351", "item218",
      "item353"]⟩,
    ⟨"t3", "livingswitch_2", "item297", "item212", ["item291", "item298", "item351", "item218",
      "item353"]⟩,
    ⟨"t4", "livingswitch_3", "item298", "item212", ["item291", "item297", "item351", "item218",
      "item353"]⟩,
    ⟨"t5", "livingswitch_4", "item351", "item212", ["item291", "item297", "item298", "item218",
      "item353"]⟩,
    ⟨"t6", "livinglight_2", "item218", "item212", ["item291", "item297", "item298", "item351",
      "item353"]⟩,
    ⟨"t7", "livingswitch_5", "item353", "item212", ["item291", "item297", "item298", "item351",
      "item218"]⟩]

/-- `office.sql` -/
def office : RoomScript where
  items := [⟨.switch, "item341"⟩, ⟨.switch, "item342"⟩, ⟨.switch, "item354"⟩, ⟨.light, "item222"⟩]
  alignments := [
    ⟨"t1", "officelight", "item222", "item341", ["item342", "item354"]⟩,
    ⟨"t2", "officeswitch_1", "item341", "item222", ["item342", "item354"]⟩,
    ⟨"t3", "officeswitch_2", "item342", "item222", ["item341", "item354"]⟩,
    ⟨"t4", "officeswitch_3", "item354", "item222", ["item341", "item342"]⟩]

/-- `staircase_sql.sql` -/
def staircase : RoomScript where
  items := [⟨.switch, "item318"⟩, ⟨.switch, "item344"⟩, ⟨.light, "item213"⟩]
  alignments := [
    ⟨"t1", "staircaselight", "item213", "item318", ["item344"]⟩,
    ⟨"t2", "staircaseswitch_1", "item318", "item213", ["item344"]⟩,
    ⟨"t3", "staircaseswitch_2", "item344", "item213", ["item318"]⟩]

/-- `toilet_sql.sql` -/
def toilet : RoomScript where
  items := [⟨.switch, "item347"⟩, ⟨.switch, "item348"⟩, ⟨.light, "item215"⟩]
  alignments := [
    ⟨"t1", "toiletlight", "item215", "item347", ["item348"]⟩,
    ⟨"t2", "toiletswitch_1", "item347", "item215", ["item348"]⟩,
    ⟨"t3", "toiletswitch_2", "item348", "item215", ["item347"]⟩]

/-- `walkway.sql` -/
def walkway : RoomScript where
  items := [⟨.switch, "item307"⟩, ⟨.switch, "item319"⟩, ⟨.switch, "item320"⟩,
    ⟨.switch, "item322"⟩, ⟨.switch, "item324"⟩, ⟨.switch, "item323"⟩, ⟨.switch, "item328"⟩,
    ⟨.switch, "item329"⟩, ⟨.light, "item221"⟩]
  alignments := [
    ⟨"t1", "walkwayswitch_1", "item324", "item307", ["item319", "item320", "item322", "item221",
      "item323", "item328", "item329"]⟩,
    ⟨"t2", "walkwayswitch_2", "item307", "item324", ["item319", "item320", "item322", "item221",
      "item323", "item328", "item329"]⟩,
    ⟨"t3", "walkwayswitch_3", "item319", "item324", ["item307", "item320", "item322", "item221",
      "item323", "item328", "item329"]⟩,
    ⟨"t4", "walkwayswitch_4", "item320", "item324", ["item307", "item319", "item322", "item221",
      "item323", "item328", "item329"]⟩,
    ⟨"t5", "walkwayswitch_5", "item322", "item324", ["item307", "item319", "item320", "item221",
      "item323", "item328", "item329"]⟩,
    ⟨"t6", "walkwaylight", "item221", "item324", ["item307", "item319", "item320", "item322",
      "item323", "item328", "item329"]⟩,
    ⟨"t7", "walkwayswitch_6", "item323", "item324", ["item307", "item319", "item320", "item322",
      "item221", "item328", "item329"]⟩,
    ⟨"t8", "walkwayswitch_7", "item329", "item324", ["item307", "item319", "item320", "item322",
      "item221", "item328", "item323"]⟩,
    ⟨"t9", "walkwayswitch_8", "item328", "item324", ["item307", "item319", "item320", "item322",
      "item221", "item323", "item329"]⟩]

def roomScripts : List RoomScript :=
  [bathroom, bedroom, entrance, kitchen, livingroom, office, staircase, toilet, walkway]

/-- No script forgets a device or names one twice. -/
theorem complete_roomScripts : ∀ s ∈ roomScripts, s.Complete := by
  decide +kernel

/-! ## What they do -/

/-- **Trace alignment.**  Each of the nine scripts succeeds on every imported database and
leaves all generated tables of the room with one column of times: those at which some device
of the room has logged something, each once and ascending.  At each of them a table has the
cleaned value of its device if that has logged one, and 0 otherwise. -/
theorem trace_alignment {ι : Type} [LinearOrder ι] {sv : Server}
    (h0 : sv.weight "0" ≠ sv.weight "ON") (hoff : sv.weight "OFF" ≠ sv.weight "ON")
    {s : RoomScript} (hs : s ∈ roomScripts) {db : Database ι} (h : s.Imported db) :
    ∃ db' times, run sv s.statements db = some db' ∧ s.TimeLine db times ∧
      ∀ a ∈ s.alignments, (∃ t, db' a.trace = some t ∧ t.time = times) ∧
        s.HoldsTrace sv db db' times a := by
  obtain ⟨db', times, hrun, htimes, htraces⟩ :=
    run_complete h0 hoff (complete_roomScripts s hs) h
  exact ⟨db', times, hrun, htimes, fun a ha => ⟨(htraces a ha).time, htraces a ha⟩⟩

/-- A server that compares texts letter by letter and returns rows in the order of the
tables. -/
def plainServer : Server where
  weight := id
  number := fun s => s.toInt?.getD 0
  scan := id
  scan_perm := fun rows => .refl rows

/-- A switch that was turned on and off again, and a light that was on in between. -/
def entranceLogs : Database ℕ := fun x =>
  if x = "item306" then some (.texts [(1, some "ON"), (4, some "OFF")])
  else if x = "item210" then some (.ints [(2, some 100), (4, some 30)])
  else none

theorem trace_alignment_entrance :
    ∃ db' times, run plainServer entrance.statements entranceLogs = some db' ∧
      entrance.TimeLine entranceLogs times ∧
      ∀ a ∈ entrance.alignments, (∃ t, db' a.trace = some t ∧ t.time = times) ∧
        entrance.HoldsTrace plainServer entranceLogs db' times a := by
  have himported : entrance.Imported entranceLogs := by
    constructor
    · intro d hd
      simp only [entrance, List.mem_cons, List.not_mem_nil, or_false] at hd
      rcases hd with rfl | rfl
      · exact ⟨_, rfl, trivial, by decide⟩
      · exact ⟨_, rfl, trivial, by decide⟩
    · intro x hx
      simp only [created, entrance, List.flatMap_cons, List.flatMap_nil, List.mem_append,
        List.mem_cons, List.not_mem_nil, or_false] at hx
      rcases hx with (rfl | rfl) | rfl | rfl <;> rfl
  exact trace_alignment (by decide) (by decide) (by simp [roomScripts]) himported

/-- The two tables of the entrance after the script. -/
example : (run plainServer entrance.statements entranceLogs).map
    (fun db => (db "entranceswitch", db "entrancelight_1")) =
      some (some (.texts [(1, some "1"), (2, some "0"), (4, some "0")]),
        some (.ints [(1, some 0), (2, some 1), (4, some 30)])) := by
  decide +kernel

end RoomScript
