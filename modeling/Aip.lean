import Aip.Lib.Indices
import Aip.Lib.Runs
import Aip.Lib.Ticket
import Aip.Lib.Idr
import Aip.Lib.Slots
import Aip.Lib.Region
import Aip.Lib.GenPool
import Aip.Lib.Splice
import Aip.Lib.Segment
import Aip.Lib.Tiling
import Aip.Lib.Matching
import Aip.Lib.Blocks
import Aip.Lib.Dlist
import Aip.Lib.Paint
import Aip.Lib.Merge
import Aip.Lib.Raster
import Aip.Lib.Groups
import Aip.Lib.Words
import Aip.Lib.Loop
import Aip.Lib.Chain
import Aip.Lib.Checksum
import Aip.Lib.Pieces
import Aip.Lib.Cutting
import Aip.Driver.Channel
import Aip.Driver.ChannelLaws
import Aip.Driver.Job
import Aip.Driver.Clients
import Aip.Driver.ClientsLaws
import Aip.Driver.SeqnoReports
import Aip.Driver.QueueOrder
import Aip.Driver.WaitSound
import Aip.Driver.Sessions
import Aip.Driver.SessionHead
import Aip.Driver.SessionOwner
import Aip.Driver.Interrupt
import Aip.Driver.Bo
import Aip.Driver.Lifetime
import Aip.Driver.Nna
import Aip.Driver.NnaLock
import Aip.Driver.NnaFailures
import Aip.Driver.OramPool
import Aip.Driver.Device
import Aip.Driver.DeviceLaws
import Aip.Driver.LastClose
import Aip.Pool.Pool
import Aip.Pool.Layout
import Aip.Pool.PoolSafe
import Aip.Pool.SoleOwner
import Aip.Pool.Restored
import Aip.Memory.BufList
import Aip.Memory.BufListCalls
import Aip.Memory.Oram
import Aip.Memory.OramLaws
import Aip.Memory.OramAccounting
import Aip.Memory.OramTiling
import Aip.Memory.Heap
import Aip.Memory.HeapLaws
import Aip.Memory.HeapTiling
import Aip.Memory.HeapDealloc
import Aip.Memory.HeapArithmetic
import Aip.Memory.Ddr
import Aip.Memory.HeapT40
import Aip.Memory.LocalMemMgr
import Aip.Memory.LocalChain
import Aip.Memory.LocalCalls
import Aip.Memory.LocalTiling
import Aip.Memory.LocalRealloc
import Aip.Memory.LocalArithmetic
import Aip.Memory.LocalResize
import Aip.Nndma.Start
import Aip.Nndma.Analysis
import Aip.Nndma.Ring
import Aip.Nndma.Desram
import Aip.Nndma.Loading
import Aip.Lib.Gather
import Aip.Nndma.DmaFunc
import Aip.Nndma.DmaFuncLaws
import Aip.Nndma.FlushedBlocks
import Aip.Nndma.FlushedPlanes
import Aip.Nndma.FlushedInput
import Aip.Nndma.FlushedOutput
import Aip.Nndma.Encoders
import Aip.Nndma.Chains
import Aip.Nndma.Channels
import Aip.Nndma.Transfers
import Aip.Nndma.OutputMoves
import Aip.Nndma.InputMoves
import Aip.Bscaler.Common
import Aip.Bscaler.Columns
import Aip.Bscaler.Walk
import Aip.Bscaler.Affine
import Aip.Bscaler.AffineOrder
import Aip.Bscaler.Perspective
import Aip.Bscaler.PerspectiveOrder
import Aip.Bscaler.Split
import Aip.Bscaler.Grid
import Aip.Bscaler.SplitLaws
import Aip.Bscaler.SplitRgb
import Aip.Bscaler.Nv12
import Aip.Bscaler.Nv12Laws
import Aip.Bscaler.SplitNv12
import Aip.Bscaler.PerspectiveSplit
import Aip.Bscaler.Blend
import Aip.Bscaler.SplitPerspective
import Aip.Bscaler.Resize
import Aip.Bscaler.ResizeExact
import Aip.Bscaler.ResizeTaps
import Aip.Bscaler.ResizeRuns
import Aip.Bscaler.Predicts
import Aip.Bscaler.Planes
import Aip.Bscaler.Frmc
import Aip.Bscaler.FrmcChain
import Aip.Bscaler.PerspectiveRows
import Aip.Bscaler.Projection
import Aip.Bscaler.Inverse
import Aip.Bscaler.Im2col
import Aip.Bscaler.Im2colAgree
import Aip.Bscaler.Isum
import Aip.Bscaler.Interpolation
import Aip.Bscaler.GainFields
import Aip.Bscaler.DstTiling
import Aip.Hal.Chainbuf
import Aip.Hal.ChainFits
import Aip.Hal.Library
import Aip.Hal.LibraryLaws
import Aip.Hal.Counting
import Aip.Hal.Balanced
import Aip.Api.Buffers
import Aip.Api.LargeEnough
import Aip.Api.LockCalls
import Aip.Api.DestroyTwice
import Aip.Api.BoFree
import Aip.Api.CtxInit
import Aip.Api.AllOrNothing
import Aip.Api.Images
import Aip.Api.ImageBalance
import Aip.Api.Coefficients
import Aip.Api.Scaling
import Aip.Api.Ingenic
import Aip.Api.Batch
import Aip.Api.Reuse
import Aip.Api.ResizeNodes
import Aip.Driver.Submit
import Aip.Driver.NodeWrites
import Aip.Driver.AieMmap
import Aip.Driver.AieMmapLaws
import Aip.Driver.Ledger
import Aip.Driver.Service
import Aip.Driver.Wakeups
import Aip.Lib.Holes
import Aip.Memory.OramRoom
import Aip.Memory.HeapRoom
import Aip.Bscaler.ChainStuff
import Aip.Lib.Transfer
import Aip.Bscaler.Convert
import Aip.Bscaler.ConvertLaws
import Aip.Bscaler.ConvertBands
import Aip.Nndma.Engine
import Aip.Driver.ChainMemory
import Aip.Hal.Programming
import Aip.Hal.BatchJobs
