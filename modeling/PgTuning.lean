import PgTuning.Advisor.Safety
import PgTuning.Backend.Storage
import PgTuning.Backend.Constraints
import PgTuning.Storage.FsmAddress
import PgTuning.Storage.SinvalRuns
import PgTuning.Nodes.BitmapRuns
import PgTuning.Storage.PageFree
import PgTuning.Access.NbtreeDescent
import PgTuning.Access.XidWraparound
import PgTuning.Commands.SequenceCrash
import PgTuning.Access.HashRuns
import PgTuning.Storage.LockSafety
import PgTuning.Executor.MergeJoinRun
import PgTuning.Executor.RecursiveUnion
import PgTuning.Executor.SetOp
import PgTuning.Backend.IndexSize
import PgTuning.Advisor.SetAlgebra
import PgTuning.Advisor.Feedback
import PgTuning.Advisor.PairWeights
import PgTuning.Advisor.AnalyzeFailure
import PgTuning.Advisor.FirstDeploy
import PgTuning.Advisor.Enumeration
import PgTuning.Backend.FkeyMatch
import PgTuning.Utils.LikeEscape
import PgTuning.Utils.IsoWeek
import PgTuning.Utils.Timestamp
import PgTuning.Access.HintBits
import PgTuning.Access.SnapshotStability
import PgTuning.Access.TupleHistory
import PgTuning.Backend.Analyze
import PgTuning.Backend.CopyObject
import PgTuning.Backend.Planning
import PgTuning.Backend.ReindexMarks
import PgTuning.Backend.ResultIndices
