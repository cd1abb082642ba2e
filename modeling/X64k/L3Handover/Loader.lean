import X64k.Core.Mem
import X64k.Core.Res

/-!
# The loader's paging structures (`src/loader/mem/pm.hpp`, `pm.cpp`, `pm64.cpp`)

The loader runs in 32-bit mode and builds the 64-bit tables that the kernel
starts on. Pages come from a fixed region; a bitmap of 32-bit words,
`m_dataTracker`, says which are taken. There are no reference counts and no
check that a page is unmapped: `map` overwrites.

Pointers are 32 bits wide and are extended with zeros to address the memory.
`tr` is the address of `m_dataTracker`, which the linker chooses.
-/
namespace X64k.L3.Loader

open X64k.Core

abbrev Ptr := BitVec 32

/-- The memory address of a pointer. -/
abbrev Ptr.addr (p : Ptr) : Word := p.setWidth 64

/-! ## The page allocator -/

/-- `paging_region`. mirrors src/loader/mem/pm.hpp:15 -/
def regionStart : Ptr := 0x100000
def regionEnd : Ptr := 0x200000

/-- `const_range::contains`, the end included. mirrors src/loader/sys/std.hpp:29-31 -/
abbrev inRegion (a : Ptr) : Prop := regionStart ≤ a ∧ a ≤ regionEnd

/-- `(addr - paging_region.start) >> 17` -/
def trackerIndex (a : Ptr) : Ptr := (a - regionStart) >>> 17

/-- `1 << (((addr - paging_region.start) >> 12) & 0x1F)` -/
def trackerBit (a : Ptr) : BitVec 32 := (1 : BitVec 32) <<< (((a - regionStart) >>> 12) &&& 0x1F).toNat

/-- `m_dataTracker[idx]` -/
def dataTracker (tr : Ptr) (m : Mem) (idx : Ptr) : BitVec 32 := m.load32 (tr + idx * 4).addr

def setDataTracker (tr : Ptr) (m : Mem) (idx : Ptr) (v : BitVec 32) : Mem :=
  m.store32 (tr + idx * 4).addr v

/-- mirrors src/loader/mem/pm.cpp:13-25 -/
def isFree (tr : Ptr) (m : Mem) (a : Ptr) : Res Bool := do
  assert (inRegion a) "paging_region.contains(addr)"
  assert (a &&& 0xFFF = 0) "!(addr & 0xFFF)"
  .ok (decide (dataTracker tr m (trackerIndex a) &&& trackerBit a = 0))

/-- mirrors src/loader/mem/pm.cpp:42-47 -/
def setAlloc (tr : Ptr) (m : Mem) (a : Ptr) : Mem :=
  setDataTracker tr m (trackerIndex a) (dataTracker tr m (trackerIndex a) ||| trackerBit a)

/-- More iterations than there are pages. -/
def scanBound : Nat := 2 ^ 20 + 1

/-- The loop of `alloc` from `a` on. mirrors src/loader/mem/pm.cpp:30-37 -/
def allocFrom (tr : Ptr) (m : Mem) : Nat → Ptr → Res (Ptr × Mem)
  | 0, _ => .error .loop
  | fuel + 1, a =>
    if a < regionEnd then do
      if ← isFree tr m a then
        .ok (a, (setAlloc tr m a).fill a.addr 0x1000 0)
      else allocFrom tr m fuel (a + 0x1000)
    else .ok (0xFFFFFFFF, m)

/-- mirrors src/loader/mem/pm.cpp:27-40 -/
def alloc (tr : Ptr) (m : Mem) : Res (Ptr × Mem) := allocFrom tr m scanBound regionStart

/-! ## Tables -/

/-- Entry `i` of the table at `t`. -/
def entryAt (m : Mem) (t i : Ptr) : Word := m.load64 (t + i * 8).addr

def setEntryAt (m : Mem) (t i : Ptr) (v : Word) : Mem := m.store64 (t + i * 8).addr v

/-- `static_cast<uint32_t>(entry & 0xFFFFF000)` -/
def tableOf (e : Word) : Ptr := (e &&& 0xFFFFF000).setWidth 32

def pml4Index (vaddr : Word) : Ptr := (vaddr >>> 39).setWidth 32
def pdpIndex (vaddr : Word) : Ptr := ((vaddr >>> 30) &&& 0x1FF).setWidth 32
def pdIndex (vaddr : Word) : Ptr := ((vaddr >>> 21) &&& 0x1FF).setWidth 32

namespace Pml4

/-- The constructor. mirrors src/loader/mem/pm64.cpp:5-8 -/
def init (m : Mem) (self : Ptr) : Mem := m.fill self.addr 0x1000 0

/-- "Adding PD". mirrors src/loader/mem/pm64.cpp:40-47 -/
def mapNewPd (tr : Ptr) (m : Mem) (pdp pdpi pdi : Ptr) (paddr : Word) (flags : BitVec 32) :
    Res Mem := do
  let (pdaddr, m) ← alloc tr m
  assert (pdaddr ≠ 0xFFFFFFFF) "pdaddr != 0xFFFFFFFF"
  let m := setEntryAt m pdaddr pdi (paddr ||| (flags ||| 0x81).setWidth 64)
  .ok (setEntryAt m pdp pdpi ((pdaddr ||| 1).setWidth 64))

/-- "Adding PDP", "Adding PD". mirrors src/loader/mem/pm64.cpp:50-66 -/
def mapNewPdp (tr : Ptr) (m : Mem) (self pml4i pdpi pdi : Ptr) (paddr : Word)
    (flags : BitVec 32) : Res Mem := do
  let (pdp, m) ← alloc tr m
  assert (pdp ≠ 0xFFFFFFFF) "pdp_addr != 0xFFFFFFFF"
  let (pd, m) ← alloc tr m
  assert (pd ≠ 0xFFFFFFFF) "pdaddr != 0xFFFFFFFF"
  let m := m.fill pdp.addr 0x1000 0
  let m := m.fill pd.addr 0x1000 0
  let m := setEntryAt m pd pdi (paddr ||| flags.setWidth 64 ||| 0x81)
  let m := setEntryAt m pdp pdpi ((pd ||| 1).setWidth 64)
  .ok (setEntryAt m self pml4i ((pdp ||| 1).setWidth 64))

/-- mirrors src/loader/mem/pm64.cpp:14-69 -/
def map (tr : Ptr) (m : Mem) (self : Ptr) (vaddr paddr : Word) (flags : BitVec 32) : Res Mem :=
  let pml4i := pml4Index vaddr
  let pdpi := pdpIndex vaddr
  let pdi := pdIndex vaddr
  if entryAt m self pml4i &&& 1 ≠ 0 then
    let pdp := tableOf (entryAt m self pml4i)
    if (entryAt m pdp pdpi).setWidth 32 &&& (1 : BitVec 32) ≠ 0 then
      .ok (setEntryAt m (tableOf (entryAt m pdp pdpi)) pdi
        (paddr ||| (flags ||| 0x81).setWidth 64))
    else mapNewPd tr m pdp pdpi pdi paddr flags
  else mapNewPdp tr m self pml4i pdpi pdi paddr flags

end Pml4

end X64k.L3.Loader
