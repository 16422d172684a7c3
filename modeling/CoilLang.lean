import CoilLang.Common.ArrayVec
import CoilLang.Common.FrameBound
import CoilLang.Common.IntArith
import CoilLang.Common.IntExact
import CoilLang.Common.LineTableTotal
import CoilLang.Common.NativeLockRoundTrip
import CoilLang.Common.Opcode
import CoilLang.Common.Package
import CoilLang.Common.SnapshotRoundTrip
import CoilLang.Common.StructLayout
import CoilLang.Common.Verify
import CoilLang.Common.VerifySpec
import CoilLang.Compiler.ConstFold
import CoilLang.Compiler.ProofFile
import CoilLang.Hir.Expr
import CoilLang.Hir.Frame
import CoilLang.Hir.MatchTree
import CoilLang.Hir.Relation
import CoilLang.Hir.Run
import CoilLang.Hir.Unroll
import CoilLang.Hir.UnrollBody
import CoilLang.Hir.UnrollSound
import CoilLang.Il.Link
import CoilLang.Il.LinkInvariant
import CoilLang.Il.LinkMaps
import CoilLang.Il.LinkPick
import CoilLang.Il.LinkSound
import CoilLang.Il.LinkSpec
import CoilLang.Il.Op
import CoilLang.Lib.Dominance
import CoilLang.Lib.Fuel
import CoilLang.Lib.Idom
import CoilLang.Lib.IdomRounds
import CoilLang.Lib.Loop
import CoilLang.Lib.ParallelMove
import CoilLang.Lib.RecordLayout
import CoilLang.Lib.Simulation
import CoilLang.Lib.TextLines
import CoilLang.Lib.TreeSpan
import CoilLang.Lib.UnionFind
import CoilLang.Lib.WalkGain
import CoilLang.Machine.Arith
import CoilLang.Machine.Control
import CoilLang.Machine.ControlSafe
import CoilLang.Machine.KeyIndex
import CoilLang.Machine.KeyIndexInvariant
import CoilLang.Machine.KeyIndexProbe
import CoilLang.Machine.Slab
import CoilLang.Machine.SlabChunks
import CoilLang.Machine.SlabInvariant
import CoilLang.Machine.SlabRelease
import CoilLang.Machine.SlabSafe
import CoilLang.Machine.Snapshot
import CoilLang.Machine.SnapshotCapture
import CoilLang.Machine.SnapshotIso
import CoilLang.Machine.SnapshotRestore
import CoilLang.Machine.StrBuf
import CoilLang.Machine.StrBufInvariant
import CoilLang.Machine.StrBufRefines
import CoilLang.Machine.Task
import CoilLang.Machine.TaskCancel
import CoilLang.Machine.TaskFinish
import CoilLang.Machine.TaskInvariant
import CoilLang.Machine.TaskWaits
import CoilLang.Machine.ThreadKeys
import CoilLang.Machine.ValueEq
import CoilLang.Machine.ValueEqSound
import CoilLang.Machine.ValueEqTrees
import CoilLang.Machine.ValueEqWalk
import CoilLang.Machine.VmCancel
import CoilLang.Machine.VmInvariant
import CoilLang.Machine.VmTask
import CoilLang.Machine.VmWaits
import CoilLang.Machine.Wakeup
import CoilLang.Machine.WakeupSafe
import CoilLang.Mir.Combine
import CoilLang.Mir.CombineSound
import CoilLang.Mir.CombineTypes
import CoilLang.Mir.CombineVerify
import CoilLang.Mir.Dce
import CoilLang.Mir.Destprop
import CoilLang.Mir.DestpropSound
import CoilLang.Mir.Dominators
import CoilLang.Mir.EmitCommon
import CoilLang.Mir.Func
import CoilLang.Mir.Inst
import CoilLang.Mir.Instcombine
import CoilLang.Mir.LaneExpr
import CoilLang.Mir.Prune
import CoilLang.Mir.Relayout
import CoilLang.Mir.Run
import CoilLang.Mir.Sink
import CoilLang.Mir.Ssa
import CoilLang.Mir.Tidy
import CoilLang.Mir.TidyLoop
import CoilLang.Mir.TidySound
import CoilLang.Mir.Verify
import CoilLang.Mir.VerifyDominance
import CoilLang.Typechecking.Coverage
import CoilLang.Typechecking.CoverageExact
import CoilLang.Typechecking.Exhaustiveness
import CoilLang.Typechecking.SimpleTy
import CoilLang.Typechecking.Subst
import CoilLang.Typechecking.SubstData
import CoilLang.Typechecking.SubstOverlay
import CoilLang.Typechecking.SubstShared
import CoilLang.Typechecking.Ty
import CoilLang.Typechecking.Unify
import CoilLang.Typechecking.UnifyAcyclic
import CoilLang.Typechecking.UnifyForall
import CoilLang.Typechecking.UnifySound
import CoilLang.Common.FrameBoundSound
import CoilLang.Lib.Liveness
import CoilLang.Mir.Interference
import CoilLang.Mir.InterferenceSound
import CoilLang.Lib.Reciprocal
import CoilLang.Lib.Spaced
import CoilLang.Machine.SlabLookup
import CoilLang.Machine.SlabLookupExact
import CoilLang.Mir.Rewire
import CoilLang.Mir.Visits
import CoilLang.Mir.BoolThread
import CoilLang.Mir.BoolThreadSound
import CoilLang.Mir.TidyVerify
import CoilLang.Mir.BoolThreadCorrect
import CoilLang.Mir.Sccp
import CoilLang.Mir.SccpSolve
import CoilLang.Mir.SccpFold
import CoilLang.Mir.SccpSound
import CoilLang.Mir.SccpCorrect
import CoilLang.Lib.Tricolour
import CoilLang.Machine.SlabWalk
import CoilLang.Machine.Gc
import CoilLang.Machine.GcMark
import CoilLang.Machine.GcSweep
import CoilLang.Machine.GcIdeal
import CoilLang.Machine.GcInterns
import CoilLang.Machine.GcObject
import CoilLang.Machine.GcEmbeds
import CoilLang.Machine.GcCycle
import CoilLang.Machine.GcRepresents
import CoilLang.Machine.GcProgram
import CoilLang.Machine.GcRefines
import CoilLang.Machine.GcExact
import CoilLang.Machine.GcFinalizers
import CoilLang.Machine.Table
import CoilLang.Machine.TableHolds
import CoilLang.Machine.TableRefines
