import DecentralMonitor.Flooding
import DecentralMonitor.FloodingSchedule
import DecentralMonitor.FallibleLoop
import DecentralMonitor.JobSequence
import DecentralMonitor.Numbering
import DecentralMonitor.CarryWalk
import DecentralMonitor.WalkThrough
import DecentralMonitor.ClosedWalk
import DecentralMonitor.Constraint
import DecentralMonitor.TimedLog
import DecentralMonitor.TextLines
import DecentralMonitor.SqlTable
import DecentralMonitor.SqlFrame
import DecentralMonitor.RoomScript
import DecentralMonitor.RoomScripts
import DecentralMonitor.ScriptSequence
import DecentralMonitor.VerdictTable
import DecentralMonitor.TableExchange
import DecentralMonitor.RingMonitor
import DecentralMonitor.EvaluateLoop
import DecentralMonitor.RingRun
import DecentralMonitor.RingConvergence
import DecentralMonitor.RingPasses
import DecentralMonitor.RingSchedule
import DecentralMonitor.RingAgreement
import DecentralMonitor.RingEpoch
import DecentralMonitor.TraceMonitor
import DecentralMonitor.TraceLoading
import DecentralMonitor.SegmentTrace
import DecentralMonitor.Room
import DecentralMonitor.RoomText
import DecentralMonitor.VerdictExchange
import DecentralMonitor.RoomSegment
import DecentralMonitor.VerdictDelivery
import DecentralMonitor.VerdictMerge
import DecentralMonitor.SegmentLoop
import DecentralMonitor.EventOrder
import DecentralMonitor.SegmentOrder
import DecentralMonitor.EventNumbering
import DecentralMonitor.SegmentHistory
import DecentralMonitor.CutEncoding
import DecentralMonitor.EventMasks
import DecentralMonitor.SegmentVerdict
import DecentralMonitor.CutVerdict
import DecentralMonitor.AlignedSegment
import DecentralMonitor.CutChain
import DecentralMonitor.CutProcessOrder
import DecentralMonitor.RoomLoading
import DecentralMonitor.LoadedMonitors
import DecentralMonitor.RoomAssembly
import DecentralMonitor.DeviceScan
import DecentralMonitor.LoadingBounds
import DecentralMonitor.RoomVerdict
import DecentralMonitor.DataExport
import DecentralMonitor.DataPipeline
import DecentralMonitor.EpsLoop
import DecentralMonitor.RunCapacity
import DecentralMonitor.MainRun
import DecentralMonitor.RoomRuns
import DecentralMonitor.UnknownAnswers
import DecentralMonitor.MissingDevices
import DecentralMonitor.AlignedRun
import DecentralMonitor.RunWrites
import DecentralMonitor.LoopRuns
import DecentralMonitor.RoomSequence
import DecentralMonitor.MainText
import DecentralMonitor.LogVerdicts
import DecentralMonitor.ValueBlind
