import ErasureCodec.Codec.Builders
import ErasureCodec.Codec.Bulk
import ErasureCodec.Codec.CacheAccounting
import ErasureCodec.Codec.Construct
import ErasureCodec.Codec.DecodeIdx
import ErasureCodec.Codec.DecodeMatrix
import ErasureCodec.Codec.Encode
import ErasureCodec.Codec.Execute
import ErasureCodec.Codec.Format
import ErasureCodec.Codec.InversionCache
import ErasureCodec.Codec.Jerasure
import ErasureCodec.Codec.Parallel
import ErasureCodec.Codec.ParallelPolicy
import ErasureCodec.Codec.Reconstruct
import ErasureCodec.Codec.RecoveryPlan
import ErasureCodec.Codec.Restore
import ErasureCodec.Codec.RoundTrip
import ErasureCodec.Codec.RowKernels
import ErasureCodec.Codec.Scheduling
import ErasureCodec.Codec.Selection
import ErasureCodec.Codec.ShardByShard
import ErasureCodec.Codec.Shards
import ErasureCodec.Codec.SplitJoin
import ErasureCodec.Codec.StreamBlocks
import ErasureCodec.Codec.StreamIo
import ErasureCodec.Codec.StreamPlan
import ErasureCodec.Codec.StreamReconstruct
import ErasureCodec.Codec.TowerCodec
import ErasureCodec.Codec.Update
import ErasureCodec.Codec.Workspace
import ErasureCodec.Field.Basic
import ErasureCodec.Field.Galois16
import ErasureCodec.Field.Galois8
import ErasureCodec.Field.Gfni
import ErasureCodec.Field.TowerSlices
import ErasureCodec.Framework.ChargedLru
import ErasureCodec.Framework.LruMap
import ErasureCodec.Framework.Outcome
import ErasureCodec.Framework.Registers
import ErasureCodec.Framework.TryForEach
import ErasureCodec.Framework.TwoEntryCache
import ErasureCodec.Leopard.Butterfly
import ErasureCodec.Leopard.Decode
import ErasureCodec.Leopard.DecodeCall
import ErasureCodec.Leopard.DecodeGf8
import ErasureCodec.Leopard.Encode
import ErasureCodec.Leopard.EncodeCall
import ErasureCodec.Leopard.Fused
import ErasureCodec.Leopard.Fwht
import ErasureCodec.Leopard.FwhtSimd
import ErasureCodec.Leopard.Layout
import ErasureCodec.Leopard.Locator
import ErasureCodec.Leopard.Luts
import ErasureCodec.Leopard.Plan
import ErasureCodec.Leopard.PlanCache
import ErasureCodec.Leopard.Recovery
import ErasureCodec.Leopard.Reference
import ErasureCodec.Leopard.Tables
import ErasureCodec.Leopard.Transform
import ErasureCodec.Math.AdditiveFft
import ErasureCodec.Math.Ascending
import ErasureCodec.Math.Blocks
import ErasureCodec.Math.Bytes
import ErasureCodec.Math.Lfsr
import ErasureCodec.Math.LinearCode
import ErasureCodec.Math.Loop
import ErasureCodec.Math.Rounding
import ErasureCodec.Math.Slices
import ErasureCodec.Math.Tiling
import ErasureCodec.Math.Walsh
import ErasureCodec.Math.XorLinear
import ErasureCodec.Matrix.Basic
import ErasureCodec.Matrix.Elimination
import ErasureCodec.Matrix.GaussJordan
import ErasureCodec.Framework.PairBytes
import ErasureCodec.Framework.WordBuffers
import ErasureCodec.Math.BitTranspose
import ErasureCodec.Leopard.NibbleTables
import ErasureCodec.Leopard.GfniMatrices
import ErasureCodec.Leopard.MulSimd
import ErasureCodec.Leopard.LayoutSimd
import ErasureCodec.Leopard.DecodeGf16
import ErasureCodec.Codec.LeopardStaging
import ErasureCodec.Codec.LeopardReconstruct
import ErasureCodec.Codec.LeopardCodec
import ErasureCodec.Leopard.CodeWord
import ErasureCodec.Codec.LeopardSystem
import ErasureCodec.Codec.LeopardRuns
import ErasureCodec.Codec.Verify
import ErasureCodec.Leopard.Admission
import ErasureCodec.Codec.StreamPasses
import ErasureCodec.Codec.StreamEncode
import ErasureCodec.Codec.StreamVerify
import ErasureCodec.Codec.StreamRecover
import ErasureCodec.Leopard.KernelRoundTrip
