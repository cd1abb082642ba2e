import X64k.Core.LTS
import X64k.Core.Objects
import X64k.Core.Packing
import X64k.Core.Program
import X64k.L1Heap.Exact
import X64k.L1Heap.Tiling
import X64k.L1Heap.Scoped
import X64k.L1Heap.Aligned
import X64k.L1Heap.Carve
import X64k.L1Heap.Fit
import X64k.L1Heap.Choice
import X64k.L1Heap.Frame
import X64k.L1Heap.Service
import X64k.L1Heap.Code
import X64k.L1Heap.Footprint
import X64k.L2Paging.WellFormed
import X64k.L2Paging.OnePage
import X64k.L2Paging.Bounds
import X64k.L2Paging.Writable
import X64k.L2Paging.Footprint
import X64k.L2Paging.Pool
import X64k.L3Handover.ReadBack
import X64k.L3Handover.Image
import X64k.L3Handover.LoadAddr
import X64k.L3Handover.Window
import X64k.L3Handover.PaeRuns
import X64k.L3Handover.Bare
import X64k.L3Handover.Stack
import X64k.L3Handover.PageRuns
import X64k.L3Handover.Checksum
import X64k.L4Mm.Exclusive
import X64k.L4Mm.Lowest
import X64k.L4Mm.Shortage
import X64k.L4Mm.Alloc
import X64k.L4Mm.Block
import X64k.L4Mm.Live
import X64k.L4Mm.Undo
import X64k.L4Mm.Permission
import X64k.L4Mm.Canonical
import X64k.L4Mm.Space
import X64k.L4Mm.Supply
import X64k.L5Debug.Overread
import X64k.L5Debug.Padding
import X64k.L5Debug.Denote
import X64k.L5Debug.Str
import X64k.L6Kernel.Memory
