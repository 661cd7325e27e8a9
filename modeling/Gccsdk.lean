import Gccsdk.Asasm.ITBlocks
import Gccsdk.UnixLib.ExecRoundTrip
import Gccsdk.UnixLib.LockHolders
import Gccsdk.UnixLib.LockProgress
import Gccsdk.UnixLib.LifeCycle
import Gccsdk.UnixLib.SemSystem
import Gccsdk.UnixLib.MmapTable
import Gccsdk.UnixLib.StdioRoundTrip
import Gccsdk.UnixLib.BrkRuns
import Gccsdk.Elf2Aif.Segments
import Gccsdk.Elf2Aif.Replace
import Gccsdk.GdbServer.Breakpoints
import Gccsdk.GdbServer.RegisterTransfer
import Gccsdk.GdbServer.Contexts
import Gccsdk.GdbServer.StepFlow
import Gccsdk.Decaof.RoundTrip
import Gccsdk.Decaof.AreaDump
import Gccsdk.Mkresfs.DumpData
import Gccsdk.SOManager.ElfFile
import Gccsdk.SOManager.EnvArray
import Gccsdk.SOManager.RuntimeArray
import Gccsdk.SOManager.Expiry
import Gccsdk.Decaof.Tables
import Gccsdk.Asasm.Fix
import Gccsdk.UnixLib.ThreadKeys
import Gccsdk.UnixLib.SelectTime
import Gccsdk.UnixLib.StdioBuffer
import Gccsdk.UnixLib.Scheduler
import Gccsdk.UnixLib.Environ
import Gccsdk.UnixLib.Unixify
import Gccsdk.UnixLib.RiscosifyBounds
import Gccsdk.Asasm.Reloc
import Gccsdk.Asasm.CodeEval
import Gccsdk.Asasm.SplitImm
import Gccsdk.Asasm.FloatToHalf
import Gccsdk.Asasm.ArgSubEnds
import Gccsdk.Asasm.SymbolOrder
import Gccsdk.Asasm.BitField
import Gccsdk.Asasm.DefineQuad
import Gccsdk.Asasm.Align
import Gccsdk.Asasm.DebugLine
import Gccsdk.Asasm.Macros
import Gccsdk.Asasm.OperatorLex
import Gccsdk.Asasm.FileNameExpand
import Gccsdk.Asasm.FileNameUnix
import Gccsdk.Asasm.FileStack
import Gccsdk.Asasm.AreaAttributes
import Gccsdk.Asasm.MappingSymbols
