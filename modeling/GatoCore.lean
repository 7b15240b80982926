import GatoCore.Native.IR
import GatoCore.Native.Lower
import GatoCore.Native.LowerFacts
import GatoCore.Native.Eval
import GatoCore.Native.InferFacts
import GatoCore.Native.SimulateExpr
import GatoCore.Native.SimulateStmt
import GatoCore.Native.LowerCorrect
import GatoCore.Native.AllocCorrect
import GatoCore.Native.Stack
import GatoCore.Native.ParserTotal
import GatoCore.Native.Identifiers
import GatoCore.Native.Literals
import GatoCore.Native.Quoting
import GatoCore.Native.RoundTrip
import GatoCore.Native.TextBuffers
import GatoCore.Native.TextViews
import GatoCore.Stdlib.WorkspaceFacts
import GatoCore.Engine.Include
import GatoCore.Engine.TypeNames
import GatoCore.Engine.VideoFrame
import GatoCore.Stdlib.Sandbox
import GatoCore.Native.DataSection
import GatoCore.Native.FreshNames
import GatoCore.Native.TypeSound
import GatoCore.Native.Scopes
import GatoCore.Native.Assigned
import GatoCore.NullClaw.CronFile
import GatoCore.NullClaw.Confinement
import GatoCore.Gatod.NodeIds
import GatoCore.Gatod.Assets
import GatoCore.Gatod.TimelineKeys
import GatoCore.Gatod.ScriptComment
import GatoCore.Stdlib.FileFrame
import GatoCore.Stdlib.QuarantineKeeps
import GatoCore.Stdlib.Canonical
import GatoCore.Stdlib.CircularQueue
import GatoCore.Stdlib.SlotPool
import GatoCore.Stdlib.Fifo
import GatoCore.Stdlib.Registry
import GatoCore.Stdlib.Service
import GatoCore.Stdlib.ScanDatabase
import GatoCore.Stdlib.ScanExact
import GatoCore.Stdlib.Shell
import GatoCore.Doom.WadFacts
import GatoCore.Doom.Winnable
import GatoCore.Stdlib.Arena
import GatoCore.Stdlib.PacketFields
import GatoCore.Stdlib.Flows
import GatoCore.Stdlib.Tensor
import GatoCore.Stdlib.TextScores
import GatoCore.Engine.StuckKeys
import GatoCore.NullClaw.Memory
import GatoCore.Native.ShortCircuit
import GatoCore.Native.ReadingOrder
import GatoCore.Native.Rendering
import GatoCore.Native.EndToEnd
