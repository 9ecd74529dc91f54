import Orbistoun.Lib.Machine
import Orbistoun.Kernel.Equeue.Basic
import Orbistoun.Kernel.Equeue.Invariant
import Orbistoun.Lib.Fifo
import Orbistoun.Kernel.Equeue.Scan
import Orbistoun.Kernel.Equeue.Delivery
import Orbistoun.Kernel.Equeue.Progress
import Orbistoun.Kernel.Direct.Basic
import Orbistoun.Kernel.Direct.Invariant
import Orbistoun.Kernel.Direct.Walk
import Orbistoun.Lib.IntervalMap
import Orbistoun.Mem.Mappings.Basic
import Orbistoun.Mem.Mappings.Runs
import Orbistoun.Kernel.Sync.Cond
import Orbistoun.Mem.Mappings.Registry
import Orbistoun.Kernel.Sync.AddressWait
import Orbistoun.Lib.Stepper
import Orbistoun.Translate.Blocks.Basic
import Orbistoun.Translate.Blocks.Split
import Orbistoun.Translate.Blocks.Run
import Orbistoun.Gpu.Resident.Basic
import Orbistoun.Gpu.Resident.System
import Orbistoun.Gpu.Resident.Coherence
import Orbistoun.Mem.Watch.Basic
import Orbistoun.Mem.Watch.Harvest
import Orbistoun.Mem.Watch.Record
import Orbistoun.Mem.Watch.Invariant
import Orbistoun.Mem.Watch.Guards
import Orbistoun.Mem.Watch.Asks
import Orbistoun.Mem.Watch.Run
import Orbistoun.Lib.Nearest
import Orbistoun.Mem.Space
import Orbistoun.Lib.MapTotal
import Orbistoun.Libc.Mspace
import Orbistoun.Fs.Contained
import Orbistoun.Gpu.Cp.Packet
import Orbistoun.Lib.Dialogue
import Orbistoun.Gpu.Cp.Basic
import Orbistoun.Gpu.Cp.Segments
import Orbistoun.Gpu.Cp.Spans
import Orbistoun.Gpu.Cp.Covered
import Orbistoun.Gpu.Cp.Counts
import Orbistoun.Gpu.Cp.Resume
import Orbistoun.Lib.Writes
import Orbistoun.Loader.Container
import Orbistoun.Loader.Rewrite
import Orbistoun.Loader.Image
import Orbistoun.Loader.Placement
import Orbistoun.Kernel.Pool
import Orbistoun.Kernel.Pool.Runs
import Orbistoun.Gpu.Registers
import Orbistoun.Gpu.GlobalPages
import Orbistoun.Gpu.Cp.Expand
import Orbistoun.GpuVulkan.Imports
import Orbistoun.GpuVulkan.Tiled
import Orbistoun.Kernel.Sync.Locks
import Orbistoun.Kernel.Sync.Rwlock
import Orbistoun.Kernel.Sync.Barrier
import Orbistoun.Kernel.Sync.EventFlag
import Orbistoun.Gpu.Resident.Accounting
import Orbistoun.Mem.Watch.Threads.Basic
import Orbistoun.Mem.Watch.Threads.Step
import Orbistoun.Mem.Watch.Threads.Run
import Orbistoun.Gpu.Cp.Build
import Orbistoun.Gpu.Cp.WalksBack
import Orbistoun.Lib.Spirv
import Orbistoun.Translate.LaneMask
import Orbistoun.Lib.Overflow
import Orbistoun.Shader.Encoding
import Orbistoun.Lib.Laid
import Orbistoun.Shader.Decode
import Orbistoun.Shader.Tiles
import Orbistoun.Lib.RunMap
import Orbistoun.Mem.Lazy.Protections
import Orbistoun.Lib.SpanSet
import Orbistoun.Mem.Lazy.Basic
import Orbistoun.Mem.Lazy.Commit
import Orbistoun.Mem.Lazy.Run
import Orbistoun.Mem.Space.FirstFree
import Orbistoun.Mem.Space.Read
import Orbistoun.Translate.DispatchLoop
import Orbistoun.Lib.Sweep
import Orbistoun.Translate.LaneRuns
import Orbistoun.Lib.Dominance
import Orbistoun.Lib.DominatorTree
import Orbistoun.Lib.Walk
import Orbistoun.Translate.Structured.Flow
import Orbistoun.Translate.Structured.Dominators
import Orbistoun.Lib.PostDominance
import Orbistoun.Translate.Structured.PostDominators
import Orbistoun.Translate.Structured.Plan
import Orbistoun.Lib.Constructs
import Orbistoun.Translate.Structured.Emit
import Orbistoun.Translate.Structured.Sound
import Orbistoun.Translate.Structured.Wrapper
import Orbistoun.Mem.Watch.Chunks
import Orbistoun.Mem.Watch.Ranges
import Orbistoun.Kernel.Direct.FirstFit
import Orbistoun.Kernel.Equeue.Coalesce
import Orbistoun.Fs.Spelling
import Orbistoun.Loader.Dynamic
import Orbistoun.Loader.Relocate
import Orbistoun.Translate.QuickLanes
import Orbistoun.Gpu.Tiling.Equations
import Orbistoun.Gpu.Tiling.Offsets
import Orbistoun.Gpu.Tiling.Agreement
import Orbistoun.Gpu.Tiling.Surface
import Orbistoun.Gpu.Tiling.Table
import Orbistoun.Gpu.Tiling.TableAgrees
import Orbistoun.Gpu.Tiling.Bytes
import Orbistoun.Gpu.Tiling.OneOffset
import Orbistoun.Gpu.Tiling.RoundTrip
import Orbistoun.Gpu.Tiling.Machine
import Orbistoun.Lib.Codes
import Orbistoun.Loader.Plan
import Orbistoun.Lib.Trap
import Orbistoun.Lib.Usize
import Orbistoun.Loader.Checked
import Orbistoun.Loader.GnuHash
import Orbistoun.Loader.Symbols
import Orbistoun.Lib.Numerals
import Orbistoun.Libc.CString
import Orbistoun.Libc.Strtol
import Orbistoun.Libc.Scan
import Orbistoun.Libc.ScanNumber
import Orbistoun.Lib.Terminated
import Orbistoun.Libc.AnnexK
import Orbistoun.Libc.ScanLoop
import Orbistoun.Fs.Dirent
import Orbistoun.Gpu.Ampr
import Orbistoun.Gpu.RegisterSweep
import Orbistoun.Gpu.DrawCalls
import Orbistoun.Gpu.Streamout
import Orbistoun.Lib.Probing
import Orbistoun.Translate.Selected
import Orbistoun.Gpu.Cp.IndirectDraws
import Orbistoun.Gpu.Tessellation.Edge
import Orbistoun.Gpu.Tessellation.Factor
import Orbistoun.Gpu.Tessellation.Patch
import Orbistoun.Gpu.Bc.Blocks
import Orbistoun.Gpu.Bc.Bc7
import Orbistoun.Gpu.Bc.Bc6h
import Orbistoun.Lib.Cells
import Orbistoun.Translate.DeviceAddress.Basic
import Orbistoun.Translate.DeviceAddress.Held
import Orbistoun.Translate.DeviceAddress.Placed
import Orbistoun.Video.Flips
import Orbistoun.Translate.DeviceAddress.Built
import Orbistoun.Translate.DeviceAddress.Marks
import Orbistoun.Translate.DeviceAddress.Answers
import Orbistoun.Lib.Gregorian
import Orbistoun.Lib.Signed
import Orbistoun.Libc.Clock.Civil
import Orbistoun.Libc.Clock.Calendar
import Orbistoun.Translate.Structured.Placed
import Orbistoun.Translate.Structured.Settles
