import X64k.Core.Mem
import X64k.Core.Res

/-!
# The kernel's paging structures (`src/kernel/mem/pm.hpp`, `pm.cpp`)

Tables are pages of a range of memory. `alloc` hands out the first page whose
bit in a 64-bit tracking bitmap is clear, zeroed; `free` clears the bit; a
16-bit counter per page counts references. `Pml4::map`, `get` and `unmap` walk
three levels of 512 entries each (PML4, PDPT, page directory of 2 MiB pages).

`Statics` are the file's static variables, which only `retainLoaderPaging`
sets; tables, bitmap and counters live in the byte memory. The scan of `alloc`
is bounded by the number of pages in the address space. Debug output is left
out.
-/
namespace X64k.L2.Paging

open X64k.Core

/-! ## Statics -/

/-- mirrors src/kernel/mem/pm.cpp:12-18 -/
structure Statics where
  /-- `m_pagingStructureRange.start` -/
  start : Word
  /-- `m_pagingStructureRange.end` -/
  stop : Word
  /-- `m_pagingTrackingStructure` -/
  tracking : Word
  /-- `m_pagingRefcountStructure` -/
  refcount : Word
  /-- `m_pagingRefcountSize` -/
  refcountSize : Word
  /-- `m_kernel` -/
  kernel : Word
  /-- `m_current` -/
  current : Word
  deriving DecidableEq, Repr

/-- `range::contains`, the end included. mirrors src/kernel/algo/range.hpp:53-55 -/
abbrev Statics.contains (s : Statics) (v : Word) : Prop := s.start ≤ v ∧ v ≤ s.stop

/-! ## Flags

mirrors src/kernel/mem/pm.hpp:15-22 -/

def F_PRESENT : Word := (1 : Word) <<< 0
def F_RW : Word := (1 : Word) <<< 1
def F_PS : Word := (1 : Word) <<< 7

/-! ## Tracking bitmap and counters -/

/-- mirrors src/kernel/mem/pm.cpp:8 -/
def PM_TRACKING_INDEX (addr : Word) : Word := addr >>> 18

/-- mirrors src/kernel/mem/pm.cpp:9 -/
def PM_TRACKING_BIT (addr : Word) : Word := (1 : Word) <<< ((addr >>> 12) &&& 0x3F).toNat

/-- mirrors src/kernel/mem/pm.cpp:10 -/
def PM_REFCOUNT_INDEX (addr : Word) : Word := addr >>> 12

/-- `m_pagingTrackingStructure[idx]` -/
def trackingWord (s : Statics) (m : Mem) (idx : Word) : Word := m.load64 (s.tracking + idx * 8)

def setTrackingWord (s : Statics) (m : Mem) (idx v : Word) : Mem := m.store64 (s.tracking + idx * 8) v

/-- `m_pagingRefcountStructure[idx]` -/
def refcountOf (s : Statics) (m : Mem) (idx : Word) : BitVec 16 := m.load16 (s.refcount + idx * 2)

def setRefcount (s : Statics) (m : Mem) (idx : Word) (v : BitVec 16) : Mem :=
  m.store16 (s.refcount + idx * 2) v

/-- mirrors src/kernel/mem/pm.cpp:191-199 -/
def setAlloc (s : Statics) (m : Mem) (addr : Word) : Res Mem := do
  assert (s.contains addr) "m_pagingStructureRange.contains(addr)"
  assert (addr &&& 0xFFF = 0) "!(addr & 0xFFF)"
  let idx := PM_TRACKING_INDEX (addr - s.start)
  let bit := PM_TRACKING_BIT (addr - s.start)
  .ok (setTrackingWord s m idx (trackingWord s m idx ||| bit))

/-- More iterations than there are pages. -/
def scanBound : Nat := 2 ^ 52 + 1

/-- The loop of `alloc` from `addr` on. mirrors src/kernel/mem/pm.cpp:204-214 -/
def allocFrom (s : Statics) (m : Mem) : Nat → Word → Res (Option Word × Mem)
  | 0, _ => .error .loop
  | fuel + 1, addr =>
    if addr < s.stop then
      let idx := PM_TRACKING_INDEX (addr - s.start)
      let bit := PM_TRACKING_BIT (addr - s.start)
      if trackingWord s m idx &&& bit = 0 then
        let m := setTrackingWord s m idx (trackingWord s m idx ||| bit)
        .ok (some addr, m.fill addr 0x1000 0)
      else allocFrom s m fuel (addr + 0x1000)
    else .ok (none, m)

/-- mirrors src/kernel/mem/pm.cpp:201-217 -/
def alloc (s : Statics) (m : Mem) : Res (Option Word × Mem) := allocFrom s m scanBound s.start

/-- mirrors src/kernel/mem/pm.cpp:219-229 -/
def free (s : Statics) (m : Mem) (addr : Word) : Res Mem := do
  let idx := PM_TRACKING_INDEX (addr - s.start)
  let bit := PM_TRACKING_BIT (addr - s.start)
  assert (trackingWord s m idx &&& bit ≠ 0) "m_pagingTrackingStructure[idx] & bit"
  .ok (setTrackingWord s m idx (trackingWord s m idx &&& ~~~bit))

/-- mirrors src/kernel/mem/pm.cpp:239-248 -/
def incRefs (s : Statics) (m : Mem) (addr : Word) : Res Mem := do
  assert (s.contains addr) "m_pagingStructureRange.contains(addr)"
  assert (addr &&& 0xFFF = 0) "!(addr & 0xFFF)"
  let idx := PM_REFCOUNT_INDEX (addr - s.start)
  .ok (setRefcount s m idx (refcountOf s m idx + 1))

/-- mirrors src/kernel/mem/pm.cpp:250-263 -/
def decRefs (s : Statics) (m : Mem) (addr : Word) : Res (BitVec 16 × Mem) := do
  assert (s.contains addr) "m_pagingStructureRange.contains(addr)"
  assert (addr &&& 0xFFF = 0) "!(addr & 0xFFF)"
  let idx := PM_REFCOUNT_INDEX (addr - s.start)
  if refcountOf s m idx ≠ 0 then
    .ok (refcountOf s m idx - 1, setRefcount s m idx (refcountOf s m idx - 1))
  else .ok (0, m)

/-- `option::orPanic`. mirrors src/kernel/algo/option.hpp:38-43 -/
def orPanic {α : Type} (o : Option α) (msg : String) : Res α :=
  match o with
  | some a => .ok a
  | none => .error (.panic msg)

/-! ## Table entries -/

/-- Entry `i` of the table at `t`. -/
def entryAt (m : Mem) (t i : Word) : Word := m.load64 (t + i * 8)

def setEntryAt (m : Mem) (t i v : Word) : Mem := m.store64 (t + i * 8) v

/-- The test `entry & F_PRESENT`. -/
abbrev isPresent (e : Word) : Prop := e &&& F_PRESENT ≠ 0

/-- The table an entry names: `entry & ~0xFFF`. -/
def tableOf (e : Word) : Word := e &&& ~~~(0xFFF : Word)

def pml4Index (vaddr : Word) : Word := vaddr >>> 39
def pdptIndex (vaddr : Word) : Word := (vaddr >>> 30) &&& 0x1FF
def pdIndex (vaddr : Word) : Word := (vaddr >>> 21) &&& 0x1FF

namespace Pml4

/-- The constructor. mirrors src/kernel/mem/pm.cpp:20-22 -/
def init (m : Mem) (self : Word) : Mem := m.fill self 0x1000 0

/-- The page directory exists. mirrors src/kernel/mem/pm.cpp:39-44 -/
def mapInPd (s : Statics) (m : Mem) (pd pdi leaf : Word) : Res Mem :=
  if isPresent (entryAt m pd pdi) then .error (.panic "Entry is already present\n")
  else incRefs s (setEntryAt m pd pdi leaf) pd

/-- "Allocate new PD". mirrors src/kernel/mem/pm.cpp:46-54 -/
def mapNewPd (s : Statics) (m : Mem) (pdpt pdpti pdi leaf : Word) : Res Mem := do
  let (o, m) ← alloc s m
  let pdaddr ← orPanic o "Failed to allocate PD"
  let m := setEntryAt m pdaddr pdi leaf
  let m := setEntryAt m pdpt pdpti (pdaddr ||| F_PRESENT ||| F_RW)
  let m ← incRefs s m pdaddr
  incRefs s m pdpt

/-- "Allocate PDPT and PD". mirrors src/kernel/mem/pm.cpp:57-70 -/
def mapNewPdpt (s : Statics) (m : Mem) (self pml4i pdpti pdi leaf : Word) : Res Mem := do
  let (o, m) ← alloc s m
  let pdptaddr ← orPanic o "Failed to allocate PDPT"
  let (o, m) ← alloc s m
  let pdaddr ← orPanic o "Failed to allocate PD"
  let m := setEntryAt m pdaddr pdi leaf
  let m := setEntryAt m pdptaddr pdpti (pdaddr ||| F_PRESENT ||| F_RW)
  let m := setEntryAt m self pml4i (pdptaddr ||| F_PRESENT ||| F_RW)
  let m ← incRefs s m pdaddr
  incRefs s m pdptaddr

/-- mirrors src/kernel/mem/pm.cpp:24-72 -/
def map (s : Statics) (m : Mem) (self vaddr paddr flags : Word) : Res Mem := do
  assert (vaddr &&& 0x1FFFFF = 0) "!(vaddr & 0x1FFFFF)"
  assert (paddr &&& 0x1FFFFF = 0) "!(paddr & 0x1FFFFF)"
  let pml4i := pml4Index vaddr
  let pdpti := pdptIndex vaddr
  let pdi := pdIndex vaddr
  let leaf := paddr ||| flags ||| F_PRESENT ||| F_PS
  if isPresent (entryAt m self pml4i) then
    let pdpt := tableOf (entryAt m self pml4i)
    if isPresent (entryAt m pdpt pdpti) then
      mapInPd s m (tableOf (entryAt m pdpt pdpti)) pdi leaf
    else mapNewPd s m pdpt pdpti pdi leaf
  else mapNewPdpt s m self pml4i pdpti pdi leaf

/-- mirrors src/kernel/mem/pm.cpp:74-98 -/
def get (m : Mem) (self vaddrFull : Word) : Option Word :=
  let vaddr := vaddrFull &&& ~~~(0x1FFFFF : Word)
  let low := vaddrFull &&& 0x1FFFFF
  if isPresent (entryAt m self (pml4Index vaddr)) then
    let pdpt := tableOf (entryAt m self (pml4Index vaddr))
    if isPresent (entryAt m pdpt (pdptIndex vaddr)) then
      let pd := tableOf (entryAt m pdpt (pdptIndex vaddr))
      if isPresent (entryAt m pd (pdIndex vaddr)) then
        some ((entryAt m pd (pdIndex vaddr) &&& ~~~(0x1FFFFF : Word)) ||| low)
      else none
    else none
  else none

/-- One reference of the page directory is dropped, and with the last one the
directory and its reference to the PDPT. mirrors src/kernel/mem/pm.cpp:119-131 -/
def dropPd (s : Statics) (m : Mem) (pdpt pd : Word) : Res Mem := do
  let (n, m) ← decRefs s m pd
  if n = 0 then do
    let m ← free s m pd
    let (n, m) ← decRefs s m pdpt
    if n = 0 then free s m pdpt else .ok m
  else .ok m

/-- `true` is the source's `result(0)`, `false` its `result(1)`.
mirrors src/kernel/mem/pm.cpp:100-138 -/
def unmap (s : Statics) (m : Mem) (self vaddr : Word) : Res (Bool × Mem) := do
  assert (vaddr &&& 0x1FFFFF = 0) "!(vaddr & 0x1FFFFF)"
  if isPresent (entryAt m self (pml4Index vaddr)) then
    let pdpt := tableOf (entryAt m self (pml4Index vaddr))
    if isPresent (entryAt m pdpt (pdptIndex vaddr)) then
      let pd := tableOf (entryAt m pdpt (pdptIndex vaddr))
      if isPresent (entryAt m pd (pdIndex vaddr)) then do
        let m ← dropPd s m pdpt pd
        .ok (true, m)
      else .ok (false, m)
    else .ok (false, m)
  else .ok (false, m)

end Pml4

end X64k.L2.Paging
