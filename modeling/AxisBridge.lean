import AxisBridge.Build.Defects
import AxisBridge.Build.Link
import AxisBridge.Emit.LastUse
import AxisBridge.Runtime.AckRegistry
import AxisBridge.Runtime.AdaptiveCell
import AxisBridge.Runtime.AxbiAgree
import AxisBridge.Runtime.BlockFlush
import AxisBridge.Runtime.BlockRecover
import AxisBridge.Runtime.Channels
import AxisBridge.Runtime.Chunk
import AxisBridge.Runtime.Contradicts
import AxisBridge.Runtime.FBankPut
import AxisBridge.Runtime.FieldIndex
import AxisBridge.Runtime.GcIdx
import AxisBridge.Runtime.LocalMapThreads
import AxisBridge.Runtime.LogBuf
import AxisBridge.Runtime.MmapCrash
import AxisBridge.Runtime.NoEffect
import AxisBridge.Runtime.HotblkPool
import AxisBridge.Runtime.InsertTable
import AxisBridge.Runtime.RawRecover
import AxisBridge.Runtime.RecLogAck
import AxisBridge.Runtime.ReplayFaithful
import AxisBridge.Runtime.SlabContents
import AxisBridge.Runtime.SlabCrash
import AxisBridge.Runtime.TagInterner
import AxisBridge.Runtime.UnifiedProgress
import AxisBridge.Emit.DisplayName
import AxisBridge.Emit.DispatchToml
import AxisBridge.Emit.RegistryAgree
import AxisBridge.Emit.PayloadCodecs
import AxisBridge.Runtime.IrEval
import AxisBridge.Runtime.AppendDurable
import AxisBridge.Runtime.Net
import AxisBridge.Runtime.Registry
import AxisBridge.Runtime.ShardInterner
import AxisBridge.Runtime.SlabMeter
import AxisBridge.Runtime.GpuRefines
import AxisBridge.Runtime.GpuDiscovered
import AxisBridge.Runtime.ShortWrite
import AxisBridge.Runtime.BindCapture
import AxisBridge.Runtime.IndexSeg
import AxisBridge.Runtime.Address
import AxisBridge.Runtime.Prog
import AxisBridge.Runtime.Oneshot
import AxisBridge.Runtime.Pty
import AxisBridge.Runtime.WriteDurable
import AxisBridge.Runtime.Capture
import AxisBridge.Runtime.SimRatio
import AxisBridge.Runtime.BundleFaithful
import AxisBridge.Runtime.RangeStep
import AxisBridge.Runtime.Variadic
import AxisBridge.Runtime.CursorSort
import AxisBridge.Runtime.Tasks
import AxisBridge.Runtime.CellWord
import AxisBridge.Runtime.SharedEq
import AxisBridge.Runtime.FBankPack
import AxisBridge.Runtime.GfxStream
import AxisBridge.Runtime.SpscQueue
import AxisBridge.Runtime.Qhm
