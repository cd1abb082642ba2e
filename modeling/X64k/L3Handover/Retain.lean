import X64k.L2Paging.Model

/-!
# The handover of paging structures (`src/kernel/mem/pm.cpp:265-343`)

`retainLoaderPaging` widens the loader's region up to the kernel, puts a
64-bit bitmap and the reference counters behind it, carries the loader's 32-bit
bitmap over and counts the entries of every page it marks. Last it clears the
memory between the highest page it kept and the end of the new range.

The loop over the old bitmap is bounded by the number of pages a 32-bit offset
can name. The last `memset` is described by its arguments (`cleanup`), so that
what it clears can be spoken of.
-/
namespace X64k.L3.Retain

open X64k.Core X64k.L2.Paging

/-- mirrors src/kernel/mem/pm.cpp:7 -/
def KERNEL_LOCATION : Word := 0x400000

/-- The fields of `LoaderData` read here. mirrors src/loader/loader.hpp:6-13 -/
structure LoaderData where
  loaderPagingBase : BitVec 32
  loaderPagingSize : BitVec 32
  loaderPagingTracking : BitVec 32
  deriving DecidableEq, Repr

/-! ## Steps 1 and 2: where things go -/

/-- Bytes of the old bitmap. mirrors src/kernel/mem/pm.cpp:280 -/
def trackingOld (start stop : Word) : Word := ((stop - start) >>> 18) * 8

/-- Bytes the bitmap grows by. mirrors src/kernel/mem/pm.cpp:278-279 -/
def trackingDelta (stop : Word) : Word := ((KERNEL_LOCATION - stop) >>> 18) * 8

/-- The statics after step 2; the range still ends where the loader's did.
mirrors src/kernel/mem/pm.cpp:266-298 -/
def relocated (ld : LoaderData) : Statics :=
  let start := ld.loaderPagingBase.setWidth 64
  let stop := (ld.loaderPagingBase + ld.loaderPagingSize).setWidth 64
  let trackingAddr :=
    (KERNEL_LOCATION - trackingDelta stop - trackingOld start stop) &&& ~~~(0xFFF : Word)
  { start := start
    stop := stop
    tracking := trackingAddr
    refcount := trackingAddr + trackingDelta stop + trackingOld start stop
    refcountSize := ((KERNEL_LOCATION - start) / 0x1000) * 2
    kernel := 0
    current := 0 }

/-- The `memset`s of bitmap and counters. mirrors src/kernel/mem/pm.cpp:299-300 -/
def clearTracking (s : Statics) (m : Mem) : Mem :=
  let m := m.fill s.tracking (trackingOld s.start s.stop + trackingDelta s.stop).toNat 0
  m.fill s.refcount s.refcountSize.toNat 0

/-! ## Step 3: the old bitmap -/

/-- `oldTracking32[idx] & bit` -/
abbrev marked (ld : LoaderData) (m : Mem) (oldAddr : BitVec 32) : Prop :=
  m.load32 (ld.loaderPagingTracking.setWidth 64 + (oldAddr >>> 17).setWidth 64 * 4) &&&
    (1 : BitVec 32) <<< ((oldAddr >>> 12) &&& 0x1F).toNat ≠ 0

/-- One entry of a retained page. mirrors src/kernel/mem/pm.cpp:321-324 -/
def countEntry (s : Statics) (addr : Word) (m : Mem) (i : Fin 512) : Res Mem :=
  if entryAt m addr (adr i) &&& 1 ≠ 0 then incRefs s m addr else .ok m

/-- A marked page; the result is the new `maxStruct` and the memory.
mirrors src/kernel/mem/pm.cpp:312-325 -/
def retainPage (s : Statics) (maxStruct : Word) (m : Mem) (addr : Word) : Res (Word × Mem) := do
  let m ← setAlloc s m addr
  let maxStruct := if addr > maxStruct then addr else maxStruct
  let m ← (List.finRange 512).foldlM (countEntry s addr) m
  .ok (maxStruct, m)

/-- More iterations than there are 32-bit page offsets. -/
def retainBound : Nat := 2 ^ 20 + 1

/-- The loop from `oldAddr` on. mirrors src/kernel/mem/pm.cpp:306-327 -/
def retainFrom (ld : LoaderData) (s : Statics) : Nat → BitVec 32 → Word → Mem → Res (Word × Mem)
  | 0, _, _, _ => .error .loop
  | fuel + 1, oldAddr, maxStruct, m =>
    if oldAddr.setWidth 64 < (trackingOld s.start s.stop / 4) <<< 17 then
      if marked ld m oldAddr then do
        let (maxStruct, m) ← retainPage s maxStruct m (oldAddr.setWidth 64 + s.start)
        retainFrom ld s fuel (oldAddr + 0x1000) maxStruct m
      else retainFrom ld s fuel (oldAddr + 0x1000) maxStruct m
    else .ok (maxStruct, m)

/-- Steps 1 to 3: `maxStruct` and the memory before the cleanup. -/
def retainTables (ld : LoaderData) (m : Mem) : Res (Word × Mem) :=
  let s := relocated ld
  retainFrom ld s retainBound 0 0 (clearTracking s m)

/-! ## Steps 4 to 6 -/

/-- The statics after step 5. mirrors src/kernel/mem/pm.cpp:330-335 -/
def expanded (ld : LoaderData) : Statics :=
  let s := relocated ld
  { s with stop := s.tracking &&& ~~~(0xFFF : Word), kernel := s.start, current := s.start }

/-- The destination and the length of a `memset` with zeros. -/
structure Clear where
  dst : Word
  len : Word
  deriving DecidableEq, Repr

/-- The `memset` writes the byte at `x`. -/
abbrev Clear.writes (c : Clear) (x : Word) : Prop := Within c.dst c.len.toNat x

def Clear.run (c : Clear) (m : Mem) : Mem := m.fill c.dst c.len.toNat 0

/-- Step 6. mirrors src/kernel/mem/pm.cpp:338-342 -/
def cleanup (s : Statics) (maxStruct : Word) : Option Clear :=
  if maxStruct ≠ s.tracking then some ⟨maxStruct + 0x1000, s.stop - (maxStruct + 0x1000)⟩ else none

/-- mirrors src/kernel/mem/pm.cpp:265-343 -/
def retainLoaderPaging (ld : LoaderData) (m : Mem) : Res (Statics × Mem) := do
  let (maxStruct, m) ← retainTables ld m
  match cleanup (expanded ld) maxStruct with
  | some c => .ok (expanded ld, c.run m)
  | none => .ok (expanded ld, m)

end X64k.L3.Retain
