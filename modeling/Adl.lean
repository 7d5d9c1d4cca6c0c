import Adl.Math.Mask
import Adl.Math.Words
import Adl.Math.Text
import Adl.Math.Bytes
import Adl.Math.Bookings
import Adl.Math.Aligned
import Adl.Math.KeyedList
import Adl.Math.Machine
import Adl.Math.Radix
import Adl.Math.Lists
import Adl.Math.Lanes
import Adl.Math.Limbs
import Adl.Decode.Table
import Adl.Decode.Build
import Adl.Decode.Groups
import Adl.Decode.Outcomes
import Adl.Decode.Insert
import Adl.Decode.Walk
import Adl.Decode.Routed
import Adl.Decode.Finalize
import Adl.Decode.Shape
import Adl.Decode.Construct
import Adl.Decode.Specific
import Adl.Fields.Interval
import Adl.Helpers.WordArrays
import Adl.Helpers.IntbvBase
import Adl.Helpers.IntbvFields
import Adl.Helpers.Intbv
import Adl.Helpers.Modular
import Adl.Helpers.Padding
import Adl.Memory.Sparse
import Adl.Memory.SparseFlat
import Adl.Memory.Dmi
import Adl.Memory.DmiSafe
import Adl.Memory.DmiInvalid
import Adl.Memory.NodeGet
import Adl.Memory.ByteOrder
import Adl.Memory.AlignedAccess
import Adl.Memory.Log
import Adl.Memory.Locks
import Adl.Iss.CacheParms
import Adl.Iss.PacketPool
import Adl.Iss.Restore
import Adl.Iss.TimeTags
import Adl.Iss.ResCounter
import Adl.Iss.CacheSets
import Adl.Iss.GenCache
import Adl.Iss.Hierarchy
import Adl.Blocks.Hash
import Adl.Blocks.Pages
import Adl.Blocks.Extents
import Adl.Blocks.EaHash
import Adl.Blocks.Invalidate
import Adl.Blocks.PageIndex
import Adl.Uadl.Request
import Adl.Uadl.Memory
import Adl.Uadl.Queues
import Adl.Uadl.Client
import Adl.Uadl.Separate
import Adl.Uadl.Conserve
import Adl.Uadl.Buffers
import Adl.Uadl.Cache
import Adl.Uadl.Cycle
import Adl.Uadl.EvictQueue
import Adl.Uadl.WriteBack
import Adl.Uadl.StoreLimit
import Adl.Uadl.ActionCount
import Adl.Uadl.Eviction
import Adl.Uadl.HandOver
import Adl.Uadl.ForwardingPath
import Adl.Uadl.MemoryLock
import Adl.Uadl.RegAlloc
import Adl.Uadl.PipelineStage
import Adl.Uadl.BranchPredictor
import Adl.Uadl.LookupLock
import Adl.Uadl.CancelFrame
import Adl.Uadl.FetchSpace
import Adl.Uadl.Redirect
import Adl.Uadl.FetchStream
import Adl.Gdb.Packets
import Adl.Gdb.Console
import Adl.Gdb.VCont
import Adl.Gdb.Connection
import Adl.Loader.IntelHex
import Adl.Loader.Segments
import Adl.Trace.FastDat
import Adl.Dat.TokenOrder
import Adl.Trace.History
import Adl.Memory.LogIteration
import Adl.Trace.CardEquality
import Adl.Trace.FieldOrder
import Adl.Trace.MergedLog
import Adl.Queue.Commit
import Adl.Helpers.QuotientBounds
import Adl.Helpers.DivideByZero
import Adl.Helpers.SignedShift
import Adl.Helpers.Rotations
import Adl.Helpers.SignedMultiply
import Adl.Helpers.MixedWidths
import Adl.Helpers.BitTwiddles
