/-
# From the logs of a room to its verdicts

The whole way: the script of a room cleans the logs and makes the traces, the export writes them
to files, character by character, and `main` loads the files and goes through its loops.

What the devices have logged is lost on this way.  `logs_to_verdicts` says that whether the run of
`main` is well defined, and every verdict it computes if it is, follows from two numbers: how many
devices the room has, and at how many times one of them has logged something.  `house_to_verdicts`
says from which logs the program gets through a list of rooms.
-/
import DecentralMonitor.AlignedRun
import DecentralMonitor.DataPipeline
import DecentralMonitor.MainText

open Constraint DataExport JobSequence Room Sql

namespace RoomScript

variable {ι : Type} [LinearOrder ι] {sv : Server} {s : RoomScript} {db : Database ι}
  {path : String} {numSwitch numLight : ℕ}

/-- **From the logs to the verdicts.**  Take any room and any logs that are ready.  All stages
before `main` succeed and the room is loaded.  With `T` the number of different times in the logs
of the room's devices, the run of `main` is well defined exactly when the room has two devices or
`T` is small; it then comes to its end, and each of its verdicts is a function of `T`, of the
segment and of `eps`, whatever the devices have logged. -/
theorem logs_to_verdicts (z : Solver) (h : PipelineInput sv s db path numSwitch numLight) :
    ∃ db' times, run sv s.statements db = some db' ∧ s.TimeLine db times ∧
      ∀ tables dir, ShowTables db' tables →
        ∃ exported, exportTables sv db' tables dir = some exported ∧
          ∀ texts, Placed s exported texts →
            ∃ room, loadRoomText path numSwitch numLight texts = some room ∧
              RunsAligned z numSwitch numLight times.length room := by
  obtain ⟨db', times, hrun, htimes, -, hstages⟩ := h.tracesPlaced
  refine ⟨db', times, hrun, htimes, fun tables dir htables => ?_⟩
  obtain ⟨exported, hexport, hfiles⟩ := hstages tables dir htables
  refine ⟨exported, hexport, fun texts htexts => ?_⟩
  obtain ⟨switch, light, hplaced⟩ := hfiles texts htexts
  obtain ⟨room, hroom, hstart⟩ := hplaced.room.alignedStart
  refine ⟨room, ?_, hstart.runsAligned h.switches h.lights⟩
  rw [loadRoomText_eq]
  exact hroom

/-- The kitchen's devices have logged at five times. -/
theorem le_length_kitchen {times : List ℕ} (h : kitchen.TimeLine kitchenLogs times) :
    4 ≤ times.length := by
  have hlogged : [1, 2, 3, 4] ⊆ times := by
    have hmem : ∀ t ∈ [1, 2, 3, 4], ∃ x ∈ kitchen.tables, ∃ own,
        kitchenLogs x = some own ∧ t ∈ own.time := by
      intro t ht
      simp only [List.mem_cons, List.not_mem_nil, or_false] at ht
      rcases ht with rfl | rfl | rfl | rfl
      · exact ⟨"item302", by decide, _, rfl, by decide⟩
      · exact ⟨"item345", by decide, _, rfl, by decide⟩
      · exact ⟨"item223", by decide, _, rfl, by decide⟩
      · exact ⟨"item302", by decide, _, rfl, by decide⟩
    exact fun t ht => (h.mem t).mpr (hmem t ht)
  have hnodup : [1, 2, 3, 4].Nodup := by decide
  exact (hnodup.subperm hlogged).length_le

/-- Already so few are too many. -/
theorem logs_to_verdicts_kitchen :
    ∃ db', run plainServer kitchen.statements kitchenLogs = some db' ∧
      ∀ tables dir, ShowTables db' tables →
        ∃ exported, exportTables plainServer db' tables dir = some exported ∧
          ∀ texts, Placed kitchen exported texts →
            ∃ room, loadRoomText "kitchen" 4 2 texts = some room ∧ ¬ WellDefined default room := by
  obtain ⟨db', times, hrun, htimes, hstages⟩ := logs_to_verdicts default pipelineInput_kitchen
  have hlen := le_length_kitchen htimes
  refine ⟨db', hrun, fun tables dir htables => ?_⟩
  obtain ⟨exported, hexport, hfiles⟩ := hstages tables dir htables
  refine ⟨exported, hexport, fun texts htexts => ?_⟩
  obtain ⟨room, hroom, haligned⟩ := hfiles texts htexts
  refine ⟨room, hroom, fun hw => ?_⟩
  have hfew := haligned.wellDefined_iff.mp hw
  unfold FewEvents at hfew
  omega

/-! ## The whole house -/

/-- The traces of a room have come from its logs into the directory `data`: its script has run, the
tables have been exported, and the files of the traces are in their place. -/
def Delivered (sv : Server) (s : RoomScript) (db : Database ι) (texts : String → List Char) :
    Prop :=
  ∃ db' tables dir exported, run sv s.statements db = some db' ∧ ShowTables db' tables ∧
    exportTables sv db' tables dir = some exported ∧ Placed s exported texts

/-- A room that is delivered is aligned. -/
theorem exists_alignedStart (h : PipelineInput sv s db path numSwitch numLight) :
    ∃ times, s.TimeLine db times ∧ ∀ texts, Delivered sv s db texts →
      ∃ room, loadRoom path numSwitch numLight (textFiles texts) = some room ∧
        AlignedStart (numSwitch + numLight - 1) times.length room := by
  obtain ⟨db', times, hrun, htimes, -, hstages⟩ := h.tracesPlaced
  refine ⟨times, htimes, ?_⟩
  rintro texts ⟨db'', tables, dir, exported, hrun', htables, hexport, hplaced⟩
  obtain rfl : db'' = db' := Option.some.inj (hrun'.symm.trans hrun)
  obtain ⟨exported', hexport', hfiles⟩ := hstages tables dir htables
  obtain rfl : exported' = exported := Option.some.inj (hexport'.symm.trans hexport)
  obtain ⟨switch, light, hroom⟩ := hfiles texts hplaced
  exact hroom.room.alignedStart

/-- **The whole house.**  Take rooms with logs that are ready, each with its own database and a
script for the devices that the scan counts.  Once the traces of all of them are in one
directory, `main` is well defined on these rooms exactly when each of them has two devices or few
different times in its logs.  It then gets through all of them. -/
theorem house_to_verdicts (z : Solver) {dir : Directory} {rooms : List String}
    {script : String → RoomScript} {logs : String → Database ι}
    (h : ∀ path ∈ rooms,
      PipelineInput sv (script path) (logs path) path (scan path dir).1 (scan path dir).2) :
    ∃ times : String → List ι,
      (∀ path ∈ rooms, (script path).TimeLine (logs path) (times path)) ∧
      ∀ texts, (∀ path ∈ rooms, Delivered sv (script path) (logs path) texts) →
        (TextWellDefined z dir rooms texts ↔ ∀ path ∈ rooms,
          FewEvents (scan path dir).1 (scan path dir).2 (times path).length) ∧
        (TextWellDefined z dir rooms texts →
          ∃ texts', Reaches (textJobs z dir) texts rooms (.waiting texts' [])) := by
  choose! times htimes hrooms using fun path (hpath : path ∈ rooms) =>
    exists_alignedStart (h path hpath)
  refine ⟨times, htimes, fun texts htexts => ⟨?_, exists_reaches_waiting_nil_text⟩⟩
  rw [textWellDefined_iff, mainWellDefined_iff]
  refine forall₂_congr fun path hpath => ?_
  obtain ⟨room, hroom, hstart⟩ := hrooms path hpath texts (htexts path hpath)
  have hfits := hstart.fits_iff (h path hpath).switches (h path hpath).lights
  constructor
  · rintro ⟨room', hroom', hfit⟩
    obtain rfl : room' = room := Option.some.inj (hroom'.symm.trans hroom)
    rw [hstart.length] at hfit
    exact hfits.mp hfit
  · intro hfew
    refine ⟨room, hroom, ?_⟩
    rw [hstart.length]
    exact hfits.mpr hfew

/-- The tables of the kitchen's database once its script has run. -/
theorem exists_showTables_kitchen {db' : Database ℕ}
    (hrun : run plainServer kitchen.statements kitchenLogs = some db') :
    ∃ tables, ShowTables db' tables := by
  have hcomplete : kitchen.Complete := pipelineInput_kitchen.complete
  refine ⟨(kitchen.names ++ kitchenTables.map Prod.fst).filter fun x => (db' x).isSome,
    fun x => ?_⟩
  rw [List.mem_filter]
  refine ⟨fun hx => hx.2, fun hx => ⟨?_, hx⟩⟩
  by_cases hname : x ∈ kitchen.names
  · exact List.mem_append_left _ hname
  · -- the table was there before
    rw [hcomplete.frame hrun hname] at hx
    obtain ⟨t, ht⟩ := Option.isSome_iff_exists.mp hx
    exact List.mem_append_right _ (List.mem_map.mpr ⟨_, mem_of_lookup ht, rfl⟩)

/-- A house with a kitchen, whose traces have been delivered. -/
theorem house_to_verdicts_kitchen : ∃ texts, Delivered plainServer kitchen kitchenLogs texts ∧
    ¬ TextWellDefined default dataDirectory ["kitchen"] texts := by
  have hscan : scan "kitchen" dataDirectory = (4, 2) := by decide +kernel
  have hinput : ∀ path ∈ ["kitchen"], PipelineInput plainServer kitchen kitchenLogs path
      (scan path dataDirectory).1 (scan path dataDirectory).2 := by
    intro path hpath
    obtain rfl := List.mem_singleton.mp hpath
    rw [hscan]
    exact pipelineInput_kitchen
  obtain ⟨times, htimes, hhouse⟩ := house_to_verdicts default hinput
  -- export the tables and put the files into their place
  obtain ⟨db', logTimes, hrun, -, -, hstages⟩ := pipelineInput_kitchen.tracesPlaced
  obtain ⟨tables, htables⟩ := exists_showTables_kitchen hrun
  obtain ⟨exported, hexport, -⟩ := hstages tables (fun _ => []) htables
  have hdelivered : Delivered plainServer kitchen kitchenLogs
      fun name => exported (String.ofList (name.toList.drop 5)) := by
    refine ⟨db', tables, _, exported, hrun, htables, hexport, fun a _ => ?_⟩
    simp
  refine ⟨_, hdelivered, fun hw => ?_⟩
  have hall : ∀ path ∈ ["kitchen"], Delivered plainServer kitchen kitchenLogs
      fun name => exported (String.ofList (name.toList.drop 5)) := fun _ _ => hdelivered
  have hfew := (hhouse _ hall).1.mp hw "kitchen" (List.mem_singleton_self _)
  have hlen := le_length_kitchen (htimes "kitchen" (List.mem_singleton_self _))
  rw [hscan] at hfew
  unfold FewEvents at hfew
  omega

end RoomScript
