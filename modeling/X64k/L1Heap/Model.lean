import X64k.Core.Mem
import X64k.Core.Res

/-!
# The kernel heap (`src/kernel/mem/heap.hpp`, `heap.cpp`)

A heap is a range of memory tiled by blocks. Each block starts with a 32-byte
`HeapHeader` (`flags`, `length`, `prev`, `next`) followed by `length` payload
bytes; the headers form a doubly linked list from `m_base` on. `alloc` walks
the `next` links for the first block that fits and splits it; `free` clears
the block's `HF_ALLOC`, walks the `prev` links back over free blocks and then
absorbs every free block that follows.

The functions below are the source's, on a byte memory and with 64-bit
wrapping arithmetic. A loop takes a bound on its iterations and answers
`Fault.loop` when it runs out of it.
-/
namespace X64k.L1.Heap

open X64k.Core

/-- mirrors src/kernel/mem/heap.hpp:11-14 -/
def HF_ALLOC : Word := 1

/-- mirrors src/kernel/mem/heap.hpp:17 -/
def headerMagic : Word := 0x1A110C00

/-- `sizeof(HeapHeader)` -/
def headerSize : Word := 32

/-! ## Header fields

mirrors src/kernel/mem/heap.hpp:22-31 -/

def flags (m : Mem) (hdr : Word) : Word := m.load64 hdr
def length (m : Mem) (hdr : Word) : Word := m.load64 (hdr + 8)
def prev (m : Mem) (hdr : Word) : Word := m.load64 (hdr + 16)
def next (m : Mem) (hdr : Word) : Word := m.load64 (hdr + 24)

def setFlags (m : Mem) (hdr v : Word) : Mem := m.store64 hdr v
def setLength (m : Mem) (hdr v : Word) : Mem := m.store64 (hdr + 8) v
def setPrev (m : Mem) (hdr v : Word) : Mem := m.store64 (hdr + 16) v
def setNext (m : Mem) (hdr v : Word) : Mem := m.store64 (hdr + 24) v

/-- The test `(hdr->flags & headerMagic) == headerMagic`. -/
abbrev hasMagic (m : Mem) (hdr : Word) : Prop := flags m hdr &&& headerMagic = headerMagic

/-- The test `hdr->flags & HF_ALLOC`. -/
abbrev isAlloc (m : Mem) (hdr : Word) : Prop := flags m hdr &&& HF_ALLOC ≠ 0

/-! ## The heap object -/

/-- mirrors src/kernel/mem/heap.hpp:106-108 -/
structure Heap where
  m_base : Word
  m_size : Word
  deriving DecidableEq, Repr

/-- mirrors src/kernel/mem/heap.cpp:17-18 -/
def Heap.empty : Heap := ⟨0, 0⟩

/-- mirrors src/kernel/mem/heap.cpp:57-59 -/
def Heap.rootHeader (h : Heap) : Word := h.m_base

/-- "Place initial header": mirrors src/kernel/mem/heap.cpp:49-54 -/
def placeInitialHeader (m : Mem) (hdr size : Word) : Mem :=
  let m := setFlags m hdr headerMagic
  let m := setLength m hdr (size - headerSize)
  let m := setPrev m hdr 0
  setNext m hdr 0

/-- The check of the old heap in `reset` (and in the destructor): no block
may be allocated. mirrors src/kernel/mem/heap.cpp:36-43 -/
def checkNoLiving (m : Mem) : Nat → Word → Res Unit
  | 0, _ => .error .loop
  | fuel + 1, hdr =>
    if hdr = 0 then .ok ()
    else if ¬ hasMagic m hdr then .error (.panic "Heap is broken")
    else if isAlloc m hdr then .error (.panic "Tried to destroy heap with living objects")
    else checkNoLiving m fuel (next m hdr)

/-- mirrors src/kernel/mem/heap.cpp:34-55 -/
def Heap.reset (fuel : Nat) (h : Heap) (m : Mem) (base size : Word) : Res (Heap × Mem) := do
  if h.m_size ≠ 0 then
    checkNoLiving m fuel h.rootHeader
  let h' : Heap := ⟨base, size⟩
  .ok (h', placeInitialHeader m h'.rootHeader size)

/-! ## Allocation -/

/-- "Split into two parts": `hdr` keeps `size` bytes, a new free header takes
the rest. mirrors src/kernel/mem/heap.cpp:76-85 -/
def split (m : Mem) (hdr size : Word) : Mem :=
  let newHeader := hdr + headerSize + size
  let m := setFlags m hdr (flags m hdr ||| HF_ALLOC)
  let m := setPrev m newHeader hdr
  let m := setNext m newHeader (next m hdr)
  let m := setFlags m newHeader headerMagic
  let m := setLength m newHeader (length m hdr - size - headerSize)
  let m := setNext m hdr newHeader
  setLength m hdr size

/-- The loop of `alloc` from `hdr` on. mirrors src/kernel/mem/heap.cpp:64-94 -/
def allocFrom (m : Mem) (size : Word) : Nat → Word → Res (Option Word × Mem)
  | 0, _ => .error .loop
  | fuel + 1, hdr =>
    if hdr = 0 then .ok (none, m)
    else if ¬ hasMagic m hdr then .error (.panic "Heap is broken")
    else if isAlloc m hdr then allocFrom m size fuel (next m hdr)
    else if length m hdr > size + headerSize then
      .ok (some (hdr + headerSize), split m hdr size)
    else if length m hdr = size then
      .ok (some (hdr + headerSize), setFlags m hdr (flags m hdr ||| HF_ALLOC))
    else allocFrom m size fuel (next m hdr)

/-- mirrors src/kernel/mem/heap.cpp:61-97 -/
def Heap.alloc (fuel : Nat) (h : Heap) (m : Mem) (size : Word) : Res (Option Word × Mem) :=
  allocFrom m size fuel h.rootHeader

/-! ## Aligned allocation -/

/-- mirrors src/kernel/algo/algorithm.hpp:11 -/
def alignUp (x a : Word) : Word := (x + (a - 1)) &&& -a

/-- "Cut end, return middle": `hdr` keeps the padding, a new header takes
`size` bytes at `nextAligned`, another one the rest.
mirrors src/kernel/mem/heap.cpp:157-173 -/
def cutMiddle (m : Mem) (hdr nextAligned size padSize actualSize : Word) : Mem :=
  let last := nextAligned + size
  let mid := nextAligned - headerSize
  let m := setNext m last (next m hdr)
  let m := setNext m mid last
  let m := setNext m hdr mid
  let m := setLength m last (actualSize - size - headerSize)
  let m := setLength m mid size
  let m := setLength m hdr (padSize - headerSize)
  let m := setFlags m last headerMagic
  let m := setFlags m mid (headerMagic ||| HF_ALLOC)
  let m := setPrev m mid hdr
  setPrev m last mid

/-- "Cut nothing more, return end": `hdr` keeps the padding, a new header takes
what is behind it. mirrors src/kernel/mem/heap.cpp:174-187 -/
def cutHead (m : Mem) (hdr nextAligned size padSize : Word) : Mem :=
  let last := nextAligned - headerSize
  let m := setPrev m last hdr
  let m := setNext m last (next m hdr)
  let m := setNext m hdr last
  let m := setLength m last size
  let m := setLength m hdr (padSize - headerSize)
  setFlags m last (headerMagic ||| HF_ALLOC)

/-- The inner loop of `allocAligned` for the free block at `hdr`, from
`nextAligned` on; `none` is the `break`. "Cut end, return beginning" writes
what `split` writes. mirrors src/kernel/mem/heap.cpp:114-190 -/
def place (m : Mem) (hdr size align : Word) : Nat → Word → Res (Option (Word × Mem))
  | 0, _ => .error .loop
  | fuel + 1, nextAligned =>
    let addr := hdr + headerSize
    let padSize := nextAligned - addr
    let actualSize := length m hdr - padSize
    if actualSize.slt 0 then .ok none
    else if addr = nextAligned then
      if actualSize = size then .ok (some (addr, setFlags m hdr (flags m hdr ||| HF_ALLOC)))
      else .ok (some (addr, split m hdr size))
    else if padSize < headerSize then
      if nextAligned + align - addr ≥ length m hdr then .ok none
      else place m hdr size align fuel (nextAligned + align)
    else if actualSize > size + headerSize then
      .ok (some (nextAligned, cutMiddle m hdr nextAligned size padSize actualSize))
    else if actualSize = size then
      .ok (some (nextAligned, cutHead m hdr nextAligned size padSize))
    else place m hdr size align fuel nextAligned

/-- The loop over the blocks, from `hdr` on; `bound` is for the inner one.
mirrors src/kernel/mem/heap.cpp:103-193 -/
def allocAlignedFrom (m : Mem) (size align : Word) (bound : Nat) :
    Nat → Word → Res (Option Word × Mem)
  | 0, _ => .error .loop
  | fuel + 1, hdr =>
    if hdr = 0 then .ok (none, m)
    else if ¬ hasMagic m hdr then .error (.panic "Heap is broken")
    else if isAlloc m hdr then allocAlignedFrom m size align bound fuel (next m hdr)
    else do
      match ← place m hdr size align bound (alignUp (hdr + headerSize) align) with
      | some (p, m) => .ok (some p, m)
      | none => allocAlignedFrom m size align bound fuel (next m hdr)

/-- mirrors src/kernel/mem/heap.cpp:99-194 -/
def Heap.allocAligned (fuel : Nat) (h : Heap) (m : Mem) (size align : Word) :
    Res (Option Word × Mem) :=
  allocAlignedFrom m size align fuel fuel h.rootHeader

/-! ## Freeing -/

/-- "while (hdr->prev)": back over free blocks.
mirrors src/kernel/mem/heap.cpp:209-218 -/
def freeBack (m : Mem) : Nat → Word → Res Word
  | 0, _ => .error .loop
  | fuel + 1, hdr =>
    if prev m hdr = 0 then .ok hdr
    else do
      assert (hasMagic m (prev m hdr)) "(prev->flags & headerMagic) == headerMagic"
      if isAlloc m (prev m hdr) then .ok hdr else freeBack m fuel (prev m hdr)

/-- One absorption: the free block `next` becomes part of `hdr`.
mirrors src/kernel/mem/heap.cpp:228-233 -/
def absorb (m : Mem) (hdr nxt : Word) : Mem :=
  let m := setLength m hdr (length m hdr + (headerSize + length m nxt))
  let m := setNext m hdr (next m nxt)
  let m := if next m hdr ≠ 0 then setPrev m (next m hdr) hdr else m
  m.fill nxt headerSize.toNat 0

/-- "while (hdr->next)": absorb the free blocks that follow.
mirrors src/kernel/mem/heap.cpp:220-234 -/
def freeForward : Nat → Mem → Word → Res Mem
  | 0, _, _ => .error .loop
  | fuel + 1, m, hdr =>
    if next m hdr = 0 then .ok m
    else do
      assert (hasMagic m (next m hdr)) "(next->flags & headerMagic) == headerMagic"
      if isAlloc m (next m hdr) then .ok m
      else freeForward fuel (absorb m hdr (next m hdr)) hdr

/-- mirrors src/kernel/mem/heap.cpp:196-235 -/
def free (fuel : Nat) (m : Mem) (p : Word) : Res Mem := do
  let hdr := p - headerSize
  assert (hasMagic m hdr) "(hdr->flags & heap::headerMagic) == heap::headerMagic"
  if ¬ isAlloc m hdr then
    .error (.panic "Heap object double-free detected: tried to free non-allocated pointer")
  else do
    let m := setFlags m hdr (flags m hdr &&& ~~~HF_ALLOC)
    let hdr ← freeBack m fuel hdr
    freeForward fuel m hdr

/-- mirrors src/kernel/mem/heap.cpp:237-246 -/
def freeChecked (fuel : Nat) (m : Mem) (p sz : Word) : Res Mem := do
  let hdr := p - headerSize
  assert (hasMagic m hdr) "(hdr->flags & heap::headerMagic) == heap::headerMagic"
  assert (sz = length m hdr) "sz == hdr->length"
  free fuel m p

end X64k.L1.Heap
