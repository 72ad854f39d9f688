import CheatEngineLinux.Analysis.CppStruct
import CheatEngineLinux.Analysis.DissectModule
import CheatEngineLinux.Analysis.Il2CppSafe
import CheatEngineLinux.Analysis.PeReaderSafe
import CheatEngineLinux.Analysis.UniqueSignature
import CheatEngineLinux.Arch.AssembledBranches
import CheatEngineLinux.Arch.CpuFlags
import CheatEngineLinux.Core.AddressGroups
import CheatEngineLinux.Core.AnonymousLabels
import CheatEngineLinux.Core.CascadeFlags
import CheatEngineLinux.Core.DataDirectives
import CheatEngineLinux.Core.GuestView
import CheatEngineLinux.Core.HookSafety
import CheatEngineLinux.Core.McpServer
import CheatEngineLinux.Core.ScriptTables
import CheatEngineLinux.Core.TrainerFreeze
import CheatEngineLinux.Core.TrainerTexts
import CheatEngineLinux.Core.TryExcept
import CheatEngineLinux.Core.UndoAttempts
import CheatEngineLinux.Debug.BreakpointRuns
import CheatEngineLinux.Debug.GdbRegisters
import CheatEngineLinux.Debug.MaskRuns
import CheatEngineLinux.Debug.PerfRing
import CheatEngineLinux.Platform.CeserverServer
import CheatEngineLinux.Platform.CodeWrite
import CheatEngineLinux.Platform.ProcessWatcher
import CheatEngineLinux.Platform.ReadMany
import CheatEngineLinux.Platform.ResidentBlocks
import CheatEngineLinux.Platform.TargetDebugWrites
import CheatEngineLinux.Scanner.NextScanAll
import CheatEngineLinux.Scanner.PruneResult
import CheatEngineLinux.Scanner.SnapshotRestore
