import TritonCpu.MembarCalls
import TritonCpu.PtrModulo
import TritonCpu.PtrGather
import TritonCpu.PtrScalar
import TritonCpu.MaskParse
import TritonCpu.AxisConst
import TritonCpu.GatherLoad
import TritonCpu.StackedLoad
import TritonCpu.SideBySideLoad
import TritonCpu.MaskedTile
import TritonCpu.OriginMemory
import TritonCpu.IndexReduction
import TritonCpu.FlashTileCache
import TritonCpu.ASTSource
import TritonCpu.KernelFastPathSound
import TritonCpu.TPtrToLLVM
import TritonCpu.AtomicLowering
import TritonCpu.ConvertLayout
import TritonCpu.FullTilePass
import TritonCpu.BoundaryCheck
import TritonCpu.AxisJoin
import TritonCpu.AutotunerKey
import TritonCpu.AutotunerBench
import TritonCpu.Mangle
import TritonCpu.ModuleAxisInfo
import TritonCpu.Combine
import TritonCpu.RewriteTensorPointerSound
import TritonCpu.PtrLoopRun
import TritonCpu.NumConsecutive
import TritonCpu.LayoutTrivial
import TritonCpu.InvertAndComposeSelf
import TritonCpu.UnstructuredBlockPtrs
import TritonCpu.WrapAround1D
import TritonCpu.AllocationTermination
import TritonCpu.MembarTermination
import TritonCpu.GridIndex
import TritonCpu.ReshapeDecomposition
import TritonCpu.SignatureBind
import TritonCpu.ArgMinMax
import TritonCpu.TopologicalSort
import TritonCpu.FlashSoftmax
import TritonCpu.SwizzledLayout
import TritonCpu.HoistStaticAllocs
import TritonCpu.PolyMaterialize
import TritonCpu.NestedSlices
import TritonCpu.TensorFlip
import TritonCpu.Swizzle2d
import TritonCpu.TensorSort
import TritonCpu.LaunchArguments
import TritonCpu.ScanLowering
import TritonCpu.DivRemFold
import TritonCpu.CollapseBroadCast
import TritonCpu.CollapseTranspose
import TritonCpu.OuterReductionRuns
import TritonCpu.ProtonRuns
import TritonCpu.ArmPLDot
import TritonCpu.SelectIfDefined
