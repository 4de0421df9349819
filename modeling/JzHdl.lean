import JzHdl.Sim.EngineRun
import JzHdl.Sim.DesignRun
import JzHdl.Sim.ClockEvent
import JzHdl.Ir.ConcatAssign
import JzHdl.Ir.SelectStmt
import JzHdl.Sim.DivSafety
import JzHdl.Sim.Widening
import JzHdl.Path.Containment
import JzHdl.Lib.Components
import JzHdl.Backend.EmitExpr
import JzHdl.Sim.RunSplit
import JzHdl.Backend.BlockGuard
import JzHdl.Sim.ResetTest
import JzHdl.Sem.ConstDefs
import JzHdl.Parser.Lvalue
import JzHdl.Backend.SelectCase
import JzHdl.Backend.Process
import JzHdl.Backend.AsyncBlock
import JzHdl.Sim.FstTrace
import JzHdl.Sem.ExclusivePaths
import JzHdl.Sem.UndefinedPaths
import JzHdl.Sim.Waveform
import JzHdl.Cdc.Pulse
import JzHdl.Cdc.Handshake
import JzHdl.Cdc.Fifo
import JzHdl.Cdc.Library
import JzHdl.Cdc.LibraryRuns
import JzHdl.Cdc.ReqAckRuns
import JzHdl.Cdc.FifoRuns
import JzHdl.Cdc.WordValues
import JzHdl.Cdc.Synchroniser
import JzHdl.Cdc.SyncRuns
import JzHdl.Cdc.SyncDepth
import JzHdl.Ir.MemBind
import JzHdl.Ir.MemLowering
import JzHdl.Ir.MemWrites
import JzHdl.Sem.ExprType
import JzHdl.Ir.BuildExpr
import JzHdl.Sim.EvalWidth
import JzHdl.Ir.ExprWidths
import JzHdl.Sem.CombPaths
import JzHdl.Ir.MifFile
import JzHdl.Parser.LexGaps
import JzHdl.Backend.EmitWidths
import JzHdl.Backend.Wiring
import JzHdl.Sim.Arithmetic
import JzHdl.Sim.ConcatSlice
import JzHdl.Sim.FieldWrite
import JzHdl.Sim.Unknowns
import JzHdl.Sim.PrintedValue
import JzHdl.Sim.Representation
import JzHdl.Ir.LiteralWidth
import JzHdl.Ir.LiteralValue
import JzHdl.Path.Normalize
import JzHdl.Parser.RepeatExpansion
import JzHdl.Ir.BuiltSized
import JzHdl.Sim.Encoders
import JzHdl.Ir.ResetCover
import JzHdl.Lsp.JsonObject
import JzHdl.Backend.InoutAssigns
import JzHdl.Cdc.FifoEnable
import JzHdl.Backend.BlockRead
import JzHdl.Sem.NetUsers
import JzHdl.Sem.ObservedSound
import JzHdl.Sem.WidthValues
import JzHdl.Sem.CombSearch
import JzHdl.Ir.BusWrite
import JzHdl.Ir.TristateZ
import JzHdl.Backend.ConstText
import JzHdl.Cdc.DesignLowering
import JzHdl.Parser.StringScan
import JzHdl.Parser.CountedBalance
import JzHdl.Ir.MifWrites
import JzHdl.Ir.MifSection
import JzHdl.Ir.TristateOe
import JzHdl.Ir.PortGroups
import JzHdl.Ir.PassthroughLoops
import JzHdl.Sem.TemplateGrowth
import JzHdl.Lsp.MessageStream
