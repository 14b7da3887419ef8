import CZet.Token
import CZet.Lib.OpRun
import CZet.Lib.RingBuffer
import CZet.Lib.Threads
import CZet.Lib.StreamCodec
import CZet.Reflect.Object
import CZet.Reflect.Metadata
import CZet.Stdlib.SaveMemory
import CZet.Reflect.Typedefs
import CZet.Reflect.Layout
import CZet.Parser.Lookahead
import CZet.Parser.Delivery
import CZet.Macro.Definition
import CZet.Macro.Matcher
import CZet.Lib.LongestFirst
import CZet.Macro.SplitLanguage
import CZet.Macro.AcceptedMatch
import CZet.Macro.PatternTree
import CZet.Macro.CaptureLists
import CZet.Macro.Captures
import CZet.Macro.Sentences
import CZet.Macro.Passes
import CZet.Macro.Expansion
import CZet.Macro.FlatAgreement
import CZet.Macro.Invocation
import CZet.Macro.Conservation
import CZet.Lib.Cascade
import CZet.Macro.ExpansionDepth
import CZet.Lib.Interaction
import CZet.Generic.Replay
import CZet.Lib.Delimited
import CZet.Lib.KeyedMemo
import CZet.Generic.TypeArgs
import CZet.Generic.InstanceDecl
import CZet.Generic.TypeInstance
import CZet.Generic.Pending
import CZet.Generic.Names
import CZet.Generic.Prototype
import CZet.Lib.Control
import CZet.Defer.Lowering
import CZet.Defer.Reference
import CZet.Defer.Flush
import CZet.Constexpr.Language
import CZet.Constexpr.Folder
import CZet.Constexpr.Soundness
import CZet.Lib.Settling
import CZet.Constexpr.Termination
import CZet.Constexpr.Completeness
import CZet.Operator.Rewrite
import CZet.Lib.LinearProbing
import CZet.Stdlib.HashMap
import CZet.Lib.FrameCopy
import CZet.Stdlib.DoubleBuffer
import CZet.Stdlib.TripleBuffer
import CZet.Stdlib.ThreadPool
import CZet.Stdlib.PoolWakeups
import CZet.Stdlib.PoolQueue
import CZet.Operator.Evaluation
import CZet.Lib.FileReads
import CZet.Driver.Trailer
import CZet.Operator.Assignment
import CZet.Operator.Registry
import CZet.Reflect.Truncation
import CZet.Constexpr.Constancy
import CZet.Defer.StatementExpr
import CZet.Driver.CacheRuns
import CZet.Generic.TypeSubst
import CZet.Stdlib.Arena
import CZet.Macro.Hygiene
import CZet.Macro.Declarators
import CZet.Macro.Contract
import CZet.Macro.Provenance
import CZet.Macro.GroupCounts
import CZet.Macro.Composition
import CZet.Macro.AngleArguments
import CZet.Macro.TokenClasses
import CZet.Macro.LiteralArms
import CZet.Macro.GroupSyntax
import CZet.Macro.ListElements
import CZet.Macro.Variadic
import CZet.Stdlib.StringBuilder
import CZet.Stdlib.HashMapGrowth
import CZet.Driver.Arguments
import CZet.Stdlib.ByteOrder
import CZet.Stdlib.Coroutines
import CZet.Lib.PathNames
import CZet.Driver.Tar
import CZet.Driver.TarPaths
import CZet.Driver.Ustar
import CZet.Driver.TarExtraction
import CZet.Macro.Registry
import CZet.Stdlib.Sessions
import CZet.Driver.Startup
import CZet.Stdlib.PoolProgress
import CZet.Lib.Cycles
import CZet.Generic.TypeRefs
import CZet.Generic.TypeEffects
import CZet.Generic.TypeCycles
import CZet.Lib.AddressTrace
import CZet.Stdlib.LoadedObjects
import CZet.Generic.SelfReference
