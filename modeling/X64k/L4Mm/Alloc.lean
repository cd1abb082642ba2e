import X64k.L2Paging.Model
import X64k.L4Mm.Phys

/-!
# Blocks of memory (`src/kernel/mem/mm.cpp:26-153`)

`mm::alloc` finds the first run of unmapped 2 MiB pages in the upper part of the
lower half, takes physical pages and maps them; `mm::free` unmaps the pages of
a block and leaves the physical pages alone.

The state is the byte memory with the paging structures, and the bitmap of the
physical pages, which the kernel keeps in its own data section. The loops over
`range::iter` are bounded by the number of 2 MiB pages in the address space.
-/
namespace X64k.L4.Mm

open X64k.Core X64k.L2.Paging

structure Machine where
  mem : Mem
  phys : Tracker

/-! ## Virtual ranges -/

/-- `m_virtualAllocRange`. mirrors src/kernel/mem/mm.cpp:26 -/
def rangeStart : Word := 0x80000000
def rangeEnd : Word := 0xFFFF00000000

/-- `range_iterator::operator++`. mirrors src/kernel/algo/range.hpp:12-17 -/
def rangeNext (value stop step : Word) : Word :=
  if value + step > stop then stop else value + step

/-- More iterations than there are 2 MiB pages. -/
def rangeBound : Nat := 2 ^ 43 + 1

/-- The loop of `findVirtualRange` over one candidate, from `addr` on: some
page is mapped. mirrors src/kernel/mem/mm.cpp:36-41 -/
def anyMapped (m : Mem) (p stop : Word) : Nat → Word → Res Bool
  | 0, _ => .error .loop
  | fuel + 1, addr =>
    if addr ≠ stop then
      if (Pml4.get m p addr).isSome then .ok true
      else anyMapped m p stop fuel (rangeNext addr stop 0x200000)
    else .ok false

/-- The loop over the candidates, from `rs` on. mirrors src/kernel/mem/mm.cpp:31-48 -/
def findFrom (m : Mem) (p pageCount : Word) : Nat → Word → Res (Option Word)
  | 0, _ => .error .loop
  | fuel + 1, rs =>
    if rs ≠ rangeEnd then do
      if ← anyMapped m p (rs + pageCount * 0x200000) rangeBound rs then
        findFrom m p pageCount fuel (rangeNext rs rangeEnd 0x200000)
      else .ok (some rs)
    else .ok none

/-- The flags are not read. mirrors src/kernel/mem/mm.cpp:29-49 -/
def findVirtualRange (m : Mem) (p pageCount : Word) : Res (Option Word) :=
  findFrom m p pageCount rangeBound rangeStart

/-! ## Blocks -/

/-- Page `i` of the block at `start`. -/
def blockPage (start : Word) (i : Nat) : Word := start + adr i * 0x200000

/-- The loop that binds the pages, from page `i` on. mirrors src/kernel/mem/mm.cpp:131-136 -/
def bindFrom (s : Statics) (p vstart flags : Word) : Nat → List Word → Mem → Res Mem
  | _, [], m => .ok m
  | i, paddr :: physPages, m => do
    let m ← Pml4.map s m p (blockPage vstart i) paddr flags
    bindFrom s p vstart flags (i + 1) physPages m

/-- mirrors src/kernel/mem/mm.cpp:97-139 -/
def alloc (s : Statics) (st : Machine) (p pageCount : Word) (flags : BitVec 32) :
    Res (Option Word × Machine) :=
  if pageCount = 0 then .ok (none, st)
  else do
    assert (pageCount ≤ 32) "pageCount <= 32"
    match ← findVirtualRange st.mem p pageCount with
    | none => .ok (none, st)
    | some vstart => do
      let (pr, phys) ← allocPhysicalPages st.phys pageCount
      match pr with
      | none => .ok (none, { st with phys := phys })
      | some physPages => do
        let m ← bindFrom s p vstart (flags.setWidth 64) 0 physPages st.mem
        .ok (some vstart, ⟨m, phys⟩)

/-- The loop of `free` over `n` pages, from page `i` on. mirrors src/kernel/mem/mm.cpp:144-152 -/
def freeFrom (s : Statics) (p start : Word) : Nat → Nat → Mem → Res Mem
  | 0, _, m => .ok m
  | n + 1, i, m =>
    if (Pml4.get m p (blockPage start i)).isSome then do
      let (_, m) ← Pml4.unmap s m p (blockPage start i)
      freeFrom s p start n (i + 1) m
    else .error (.panic "Possible double-free detected: tried to free non-allocated page\n")

/-- mirrors src/kernel/mem/mm.cpp:141-153 -/
def free (s : Statics) (st : Machine) (p start count : Word) : Res Machine := do
  let m ← freeFrom s p start count.toNat 0 st.mem
  .ok { st with mem := m }

end X64k.L4.Mm
