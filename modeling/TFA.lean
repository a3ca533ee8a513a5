import TFA.Lib.Worklist
import TFA.Lib.Links
import TFA.Lib.Walk
import TFA.Lib.Loop
import TFA.Lib.Actions
import TFA.Lib.Chain
import TFA.TBAA.Contexts
import TFA.TBAA.StructPath
import TFA.Alias.Graph
import TFA.Alias.Termination
import TFA.Alias.Flow
import TFA.Alias.EdgeMaps
import TFA.Alias.TwoRuns
import TFA.Alias.Pruning
import TFA.Alias.Schedules
import TFA.Alias.HandleFunc
import TFA.CallGraph.Duplicates
import TFA.CallGraph.Keyed
import TFA.CallGraph.Recorder
import TFA.CallGraph.CallKeys
import TFA.CallGraph.NameEntries
import TFA.CoAnalysis.Unescape
import TFA.Alias.Detached
import TFA.CoAnalysis.IndirectStores
import TFA.CallGraph.VirtualCalls
import TFA.CallGraph.Offsets
import TFA.TypeBuilder.MatchTypes
import TFA.TypeBuilder.DebugTypes
import TFA.CallGraph.FuncSets
import TFA.Utils.DBTools
import TFA.Alias.Reasons
import TFA.Alias.Constants
import TFA.CHABuilder.PureVirtual
import TFA.TypeBuilder.StructNames
import TFA.Alias.Finite
import TFA.Alias.Surroundings
import TFA.Alias.Pool
import TFA.Alias.Complete
import TFA.Alias.Visited
import TFA.Alias.RunTime
import TFA.CoAnalysis.Rounds
import TFA.CoAnalysis.Targets
import TFA.CallGraph.QueryOrder
import TFA.CallGraph.StoredTargets
import TFA.CoAnalysis.MainTargets
import TFA.CoAnalysis.Pruned
import TFA.Lib.Tuples
import TFA.Utils.ReadBack
import TFA.Lib.Sweeps
import TFA.TypeBuilder.InStep
import TFA.TypeBuilder.Alignment
import TFA.TypeBuilder.NamePass
