import Reargo.ArcPages
import Reargo.ShortCircuitMerge
import Reargo.NoReturnSound
import Reargo.NoReturnCache
import Reargo.ReferenceManager
import Reargo.OverlappedRun
import Reargo.PackedRoundTrip
import Reargo.DiscoveryFlow
import Reargo.CacheRuns
import Reargo.CallSiteRounds
import Reargo.WalkEquality
import Reargo.ViewRuns
import Reargo.ForestFrontiers
import Reargo.PostDominance
import Reargo.InstructionFlow
import Reargo.EffectRounds
import Reargo.Breakpoints
import Reargo.ClassFileSafety
import Reargo.BytecodeAssembly
import Reargo.MethodResolution
import Reargo.GdbSessions
import Reargo.LinearSweep
import Reargo.BodyWalk
import Reargo.DispatchFilter
import Reargo.ConditionFolding
import Reargo.MemoryReaders
import Reargo.SemanticDiff
import Reargo.MagicDivision
import Reargo.YaraRoundTrip
import Reargo.YaraMatching
import Reargo.FlagFolding
import Reargo.TaintFlow
import Reargo.CallSnapshots
import Reargo.CallWalks
import Reargo.StackFrames
import Reargo.PackedBodies
import Reargo.JarArchives
import Reargo.GdbClient
import Reargo.CallSiteSearch
import Reargo.BulkAnnotations
import Reargo.RewriteRules
import Reargo.MipsDataFlow
import Reargo.AbstractSlots
import Reargo.SymbolTables
import Reargo.TlshDigests
import Reargo.Snapshots
import Reargo.Descriptors
