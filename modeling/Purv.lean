import Purv.Lib.Bits
import Purv.State
import Purv.Engine
import Purv.Window
import Purv.Isa
import Purv.IsaRefine
import Purv.Rvc
import Purv.Lib.Steps
import Purv.Lib.Folds
import Purv.Purvs
import Purv.Step
import Purv.Batch
import Purv.PurvsDecode
import Purv.PurvsRefine
import Purv.PurvsTrap
import Purv.Transcode
import Purv.Purva
import Purv.TranscodeDecode
import Purv.PurvaOps
import Purv.PurvaFuse
import Purv.TranscodeLayout
import Purv.PurvaTargets
import Purv.Decoders
import Purv.PurvaFrame
import Purv.PurvaRun
import Purv.PurvaGraft
import Purv.PurvaSlices
import Purv.PurvaMap
import Purv.PurvaWorld
import Purv.PurvaInit
import Purv.PurvaBudget
import Purv.PurvaBounds
import Purv.PurvaFootprint
import Purv.PurvaFuel
import Purv.PurvaUnits
import Purv.PurvaEnd
import Purv.SqliteHost
import Purv.ZeroRegister
import Purv.PurvaAuipc
import Purv.Tctool
import Purv.TctoolData
import Purv.TctoolMerge
import Purv.TctoolFixups
import Purv.TranscodeReads
import Purv.TctoolAuipcs
import Purv.TctoolAddresses
import Purv.GuestBytes
import Purv.PurvaWrite
import Purv.MemopScans
import Purv.MemopMoves
import Purv.PurvsBounds
import Purv.PurvsResume
import Purv.PurvsReturns
import Purv.Accepts
import Purv.Lib.FreeList
import Purv.PurvaHeap
import Purv.PurvaMalloc
import Purv.PurvaRealloc
import Purv.PurvaSizes
import Purv.PurvaHistory
import Purv.Builtins
import Purv.GdbFrames
import Purv.Lib.RingStack
import Purv.GdbStub
import Purv.GdbBreakpoints
import Purv.GdbContinue
import Purv.SqliteWrite
import Purv.Numbers
import Purv.Lib.ShellSort
import Purv.Qsort
import Purv.GdbPackets
import Purv.Lib.Checks
import Purv.PurvhostElf
import Purv.Lib.Overlay
import Purv.Lib.Tiles
import Purv.UserStack
import Purv.PurvsRecords
import Purv.Lib.Guarded
import Purv.PurvaReach
import Purv.PurvaArena
import Purv.PurvaBlocks
import Purv.PurvaTidy
import Purv.PurvaInside
import Purv.PurvaSources
import Purv.PurvaSimulation
import Purv.Purg
import Purv.PurgRefine
import Purv.PurgRun
import Purv.PurgReserved
import Purv.GdbServe
import Purv.GdbReplies
import Purv.Strings
import Purv.GdbLine
import Purv.GdbSession
import Purv.MainRun
import Purv.MainSignature
