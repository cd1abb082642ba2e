import X64k.L3Handover.Pae

/-!
# Loading the kernel (`src/loader/loader.cpp`, `src/loader/sys/elf64.cpp`)

An ELF64 file is described twice: by the numbers at its offsets, as the format
has them (`num`, `phdr`), and by what the loader reads through its page tables
from the module in memory (`member`, `Elf64.programHeader`).

* `loadBytes_num`, `member_num`: the reads find the numbers of the file.
* `Loaded`: what holds after some program headers, with `Loaded.step` and
  `Loaded.run`.
* `calculateLoadAddr_spec`: the load address is a 2 MiB frame above 4 MiB.
-/
namespace X64k.L3.Loader

open X64k.Core
open X64k.L2.Paging (Apart)

/-! ## The format -/

/-- The little-endian number in `w` bytes at `off`. -/
def num (f : Nat → Byte) (off : Nat) : Nat → Nat
  | 0 => 0
  | w + 1 => (f off).toNat + 256 * num f (off + 1) w

/-- The fields of `Elf64_Phdr` that the loader reads.
mirrors src/loader/sys/elf.h:253-262 -/
structure Phdr where
  type : Nat
  offset : Nat
  vaddr : Nat
  paddr : Nat
  filesz : Nat
  memsz : Nat
  deriving DecidableEq, Repr

/-- `e_entry`, `e_phoff` and `e_phnum`. mirrors src/loader/sys/elf.h:219-234 -/
def entryOf (f : Nat → Byte) : Nat := num f 24 8
def phoff (f : Nat → Byte) : Nat := num f 32 8
def phnum (f : Nat → Byte) : Nat := num f 56 2

def phdrAt (f : Nat → Byte) (p : Nat) : Phdr where
  type := num f p 4
  offset := num f (p + 8) 8
  vaddr := num f (p + 16) 8
  paddr := num f (p + 24) 8
  filesz := num f (p + 32) 8
  memsz := num f (p + 40) 8

def phdr (f : Nat → Byte) (i : Nat) : Phdr := phdrAt f (phoff f + 56 * i)

/-- `PT_LOAD` -/
abbrev Phdr.isLoad (s : Phdr) : Prop := s.type = 1

/-- Where the loader puts a segment: it has 32-bit addresses. -/
def Phdr.place (s : Phdr) : Nat := s.paddr % 2 ^ 32

/-- The headers and the segments lie in the file, and no two segments share
memory. -/
structure WellFormed (f : Nat → Byte) (size : Nat) : Prop where
  ehdr : 64 ≤ size
  phdrs : phoff f + 56 * phnum f ≤ size
  data : ∀ i < phnum f, (phdr f i).isLoad → (phdr f i).offset + (phdr f i).filesz ≤ size
  sizes : ∀ i < phnum f, (phdr f i).isLoad → (phdr f i).filesz ≤ (phdr f i).memsz
  disjoint : ∀ i < phnum f, ∀ j < phnum f, (phdr f i).isLoad → (phdr f j).isLoad → i ≠ j →
    Apart (phdr f i).place (phdr f i).memsz (phdr f j).place (phdr f j).memsz

/-! ## Reading the file -/

/-- The loader's own tables. mirrors src/loader/loader.cpp:124 -/
def pdp : Ptr := 0x100000

/-- The member of `w` bytes at offset `off` of a structure. -/
def member (m : Mem) (p : Ptr) (off w : Nat) : Res Nat := loadBytes m pdp w (p + BitVec.ofNat 32 off)

namespace Elf64

/-- `!strncmp(ELFMAG, …)`; `ELFMAG` has no zero byte.
mirrors src/loader/algo/string.cpp:3-14 -/
def startsWith (m : Mem) : List Byte → Ptr → Res Bool
  | [], _ => .ok true
  | a :: as, p => do
    let b ← loadByte m pdp p
    if a ≠ b then .ok false else startsWith m as (p + 1)

/-- mirrors src/loader/sys/elf64.cpp:4-6 -/
def isValid (m : Mem) (elf : Ptr) : Res Bool := startsWith m [0x7F, 0x45, 0x4C, 0x46] elf

/-- mirrors src/loader/sys/elf64.cpp:8-10 -/
def target (m : Mem) (elf : Ptr) : Res Nat := member m elf 4 1

/-- mirrors src/loader/sys/elf64.cpp:24-26 -/
def programCount (m : Mem) (elf : Ptr) : Res Nat := member m elf 56 2

/-- mirrors src/loader/sys/elf64.cpp:28-30 -/
def entry (m : Mem) (elf : Ptr) : Res Word := do
  let e ← member m elf 24 8
  .ok (BitVec.ofNat 64 e)

/-- mirrors src/loader/sys/elf.hpp:31-33 -/
def programHeaders (m : Mem) (elf : Ptr) : Res Ptr := do
  let off ← member m elf 32 8
  .ok (elf + BitVec.ofNat 32 off)

/-- mirrors src/loader/sys/elf.hpp:23-25 -/
def programHeader (m : Mem) (elf : Ptr) (idx : Nat) : Res Ptr := do
  let p ← programHeaders m elf
  .ok (p + BitVec.ofNat 32 (56 * idx))

end Elf64

/-! ## Loading -/

/-- One `PT_LOAD` header. mirrors src/loader/loader.cpp:40-73 -/
def loadSegment (tr : Ptr) (loadAddr modStart : Ptr) (m : Mem) (programHeader : Ptr) : Res Mem := do
  let paddr64 ← member m programHeader 24 8
  let _vaddr64 ← member m programHeader 16 8
  let paddr32 : Ptr := BitVec.ofNat 32 paddr64
  let size64 ← member m programHeader 32 8
  let size32 : BitVec 32 := BitVec.ofNat 32 size64
  let off64 ← member m programHeader 8 8
  let off32 : BitVec 32 := BitVec.ofNat 32 off64
  let memsz64 ← member m programHeader 40 8
  let memsz32 : BitVec 32 := BitVec.ofNat 32 memsz64
  assert (memsz32 ≤ 0x200000) "memsz32 <= 0x200000"
  let paddrPage := paddr32 &&& -0x200000
  if loadAddr ≤ paddrPage then do
    let m ← Pdpt.map tr m pdp 0x400000 (paddrPage.setWidth 64) 0x80
    apply pdp
    let m ← memcpy pdp size32.toNat m (paddr32 - paddrPage + 0x400000) (modStart + off32)
    let m := Pdpt.unmap m pdp 0x400000
    apply pdp
    .ok m
  else .error (.panic "Physical address is too low\n")

/-- The loop over the program headers from `i` on.
mirrors src/loader/loader.cpp:36-75 -/
def loadSegments (tr : Ptr) (loadAddr modStart : Ptr) : Nat → Nat → Mem → Res Mem
  | 0, _, m => .ok m
  | n + 1, i, m => do
    let programHeader ← Elf64.programHeader m modStart i
    let type ← member m programHeader 0 4
    if type = 1 then do
      let m ← loadSegment tr loadAddr modStart m programHeader
      loadSegments tr loadAddr modStart n (i + 1) m
    else loadSegments tr loadAddr modStart n (i + 1) m

/-- mirrors src/loader/loader.cpp:77-83 -/
def buildPml4 (tr : Ptr) (m : Mem) (entry64 : Word) (loadAddr : Ptr) : Res Mem := do
  let m := Pml4.init m 0x100000
  let m ← Pml4.map tr m 0x100000 0 0 0x80
  let m ← Pml4.map tr m 0x100000 0x200000 0x200000 0x80
  let m ← Pml4.map tr m 0x100000 entry64 (loadAddr.setWidth 64) 0x80
  apply 0x100000
  .ok m

/-- The sum of the `n` bytes from `p` on. -/
def byteSum (m : Mem) (p : Ptr) : Nat → BitVec 32
  | 0 => 0
  | n + 1 => byteSum m p n + (m (p + BitVec.ofNat 32 n).addr).setWidth 32

/-- `loader_data`, packed, at `data`. mirrors src/loader/loader.cpp:87-98,
loader.hpp:6-13 -/
def writeLoaderData (tr mbInfo data : Ptr) (m : Mem) : Mem :=
  let m := m.store32 data.addr 0x310AD007
  let m := m.store32 (data + 4).addr regionStart
  let m := m.store32 (data + 8).addr (regionEnd - regionStart)
  let m := m.store32 (data + 12).addr tr
  let m := m.store32 (data + 16).addr mbInfo
  let m := m.storeN (data + 20).addr 1 0
  let sum := byteSum m data 21 &&& 0xFF
  m.storeN (data + 20).addr 1 ((-sum).setWidth 8 : Byte).toNat

/-- `load_elf`, with the memory at `long_enter` and its argument. `mod_size` is
not used there. mirrors src/loader/loader.cpp:22-101 -/
def loadElf (tr mbInfo data : Ptr) (m : Mem) (loadAddr modStart : Ptr) : Res (Word × Mem) := do
  let valid ← Elf64.isValid m modStart
  assert (valid = true) "elf->isValid()"
  let target ← Elf64.target m modStart
  assert (target = 2) "elf->target() == ELFCLASS64"
  let ns ← Elf64.programCount m modStart
  let _phdrs ← Elf64.programHeaders m modStart
  let entry64 ← Elf64.entry m modStart
  let m ← loadSegments tr loadAddr modStart ns 0 m
  let m ← buildPml4 tr m entry64 loadAddr
  .ok (entry64, writeLoaderData tr mbInfo data m)

/-- mirrors src/loader/sys/std.hpp:10-12 -/
def alignUp (v bound : Ptr) : Ptr := (v + (bound - 1)) &&& -bound

/-- The loop over the module list from entry `i` on.
mirrors src/loader/loader.cpp:103-119 -/
def calculateLoadAddr (m : Mem) (mods : Ptr) : Nat → Nat → Ptr → Res Ptr
  | 0, _, addr => .ok addr
  | n + 1, i, addr => do
    let modEnd ← member m (mods + BitVec.ofNat 32 (16 * i)) 4 4
    let modEnd : Ptr := BitVec.ofNat 32 modEnd
    calculateLoadAddr m mods n (i + 1) (if addr < modEnd then alignUp modEnd 0x200000 else addr)

/-! ## The reads find the file -/

/-- Where the module is: in the first 4 MiB, and away from what the loader
writes there. -/
structure Module (tr modStart : Ptr) (size : Nat) : Prop where
  low : modStart.toNat + size ≤ 0x400000
  region : Apart modStart.toNat size 0x100000 0x100000
  tracker : Apart modStart.toNat size tr.toNat 32

/-- The memory holds the file. -/
def Holds (m : Mem) (modStart : Ptr) (f : Nat → Byte) (size : Nat) : Prop :=
  ∀ k < size, m (adr (modStart.toNat + k)) = f k

section Reads
variable {tr modStart p : Ptr} {size q base : Nat} {f : Nat → Byte} {w : Option Word} {m : Mem}

theorem loadBytes_num (hP : Paged q w m) (hM : Module tr modStart size)
    (hF : Holds m modStart f size) : ∀ (n off : Nat) (va : Ptr),
    va.toNat = modStart.toNat + off → off + n ≤ size → loadBytes m pdp n va = .ok (num f off n)
  | 0, _, _, _, _ => rfl
  | n + 1, off, va, hva, hn => by
    have h1 := hM.low
    have h2 : (va + 1).toNat = modStart.toNat + (off + 1) := by
      rw [show va + 1 = va + BitVec.ofNat 32 1 from rfl, ptr_add_toNat (by omega), hva, Nat.add_assoc]
    unfold loadBytes
    rw [show pdp = page 0 from rfl, hP.loadByte_eq (by omega), Res.ok_bind, hva,
      hF off (by omega)]
    rw [show page 0 = pdp from rfl, loadBytes_num hP hM hF n (off + 1) _ h2 (by omega)]
    rfl

/-- A member of a structure at offset `base` of the file. -/
theorem member_num (hP : Paged q w m) (hM : Module tr modStart size)
    (hF : Holds m modStart f size) (hp : p.toNat = modStart.toNat + base) {off n : Nat}
    (hn : base + off + n ≤ size) : member m p off n = .ok (num f (base + off) n) := by
  have h1 := hM.low
  refine loadBytes_num hP hM hF n (base + off) _ ?_ hn
  rw [ptr_add_toNat (by omega), hp, Nat.add_assoc]

theorem programHeader_eq (hP : Paged q w m) (hM : Module tr modStart size)
    (hF : Holds m modStart f size) (hW : WellFormed f size) {i : Nat} (hi : i < phnum f) :
    ∃ p, Elf64.programHeader m modStart i = .ok p ∧
      p.toNat = modStart.toNat + (phoff f + 56 * i) := by
  have h1 := hM.low
  have h2 := hW.phdrs
  have h3 := hW.ehdr
  have hmul : 56 * i + 56 ≤ 56 * phnum f := by omega
  have hoff : member m modStart 32 8 = .ok (phoff f) := by
    have : member m modStart 32 8 = .ok (num f (0 + 32) 8) :=
      member_num hP hM hF rfl (by omega)
    rwa [Nat.zero_add] at this
  have hadd : (modStart + BitVec.ofNat 32 (phoff f)).toNat = modStart.toNat + phoff f :=
    ptr_add_toNat (by omega)
  unfold Elf64.programHeader Elf64.programHeaders
  rw [hoff]
  refine ⟨_, rfl, ?_⟩
  rw [ptr_add_toNat (by omega), hadd, Nat.add_assoc]

end Reads

/-! ## One segment -/

theorem OffRegion.byte {m m' : Mem} (h : OffRegion m m') {y : Nat} (hy : y < 2 ^ 64)
    (hd : y < 0x100000 ∨ 0x200000 ≤ y) : m' (adr y) = m (adr y) :=
  h y (y + 1) (by omega) (by omega) y (Nat.le_refl _) (Nat.lt_succ_self _)

/-- The frame of the window and the place in it. -/
theorem window_place (paddr : Nat) :
    ((BitVec.ofNat 32 paddr &&& -0x200000 : Ptr).toNat = paddr % 2 ^ 32 / 2 ^ 21 * 2 ^ 21) ∧
    ((BitVec.ofNat 32 paddr - (BitVec.ofNat 32 paddr &&& -0x200000) + 0x400000 : Ptr).toNat =
      paddr % 2 ^ 32 % 2 ^ 21 + 0x400000) := by
  have h1 : (BitVec.ofNat 32 paddr &&& -0x200000 : Ptr).toNat =
      paddr % 2 ^ 32 / 2 ^ 21 * 2 ^ 21 := by
    have := Bits.toNat_clearLow (BitVec.ofNat 32 paddr) (show 21 ≤ 32 by decide)
    rw [← Bits.neg_two_pow 32 21, BitVec.toNat_ofNat] at this
    exact this
  have h2 : (0x400000 : Ptr).toNat = 0x400000 := rfl
  refine ⟨h1, ?_⟩
  rw [BitVec.toNat_add, BitVec.toNat_sub, h1, BitVec.toNat_ofNat, h2]
  omega

section Segment
variable {tr modStart loadAddr p : Ptr} {size q i : Nat} {f : Nat → Byte} {m m' : Mem}

/-- A segment goes to its place; outside, only the tables change. -/
theorem loadSegment_copied (hP : Paged q none m) (hM : Module tr modStart size)
    (hF : Holds m modStart f size) (hW : WellFormed f size) (hla : 0x400000 ≤ loadAddr.toNat)
    (hi : i < phnum f) (hl : (phdr f i).isLoad)
    (hp : p.toNat = modStart.toNat + (phoff f + 56 * i))
    (he : loadSegment tr loadAddr modStart m p = .ok m') :
    Paged q none m' ∧ 0x400000 ≤ (phdr f i).place ∧
    (∀ k < (phdr f i).filesz, m' (adr ((phdr f i).place + k)) = f ((phdr f i).offset + k)) ∧
    ∀ y < 2 ^ 64, y < 0x100000 ∨ 0x200000 ≤ y →
      y < (phdr f i).place ∨ (phdr f i).place + (phdr f i).filesz ≤ y →
      m' (adr y) = m (adr y) := by
  have h1 := hM.low
  have h2 := hW.phdrs
  have h3 := hW.data i hi hl
  have hread : ∀ {off n : Nat}, off + n ≤ 56 →
      member m p off n = .ok (num f (phoff f + 56 * i + off) n) := fun hn =>
    member_num hP hM hF hp (by omega)
  have e1 : num f (phoff f + 56 * i + 24) 8 = (phdr f i).paddr := rfl
  have e2 : num f (phoff f + 56 * i + 32) 8 = (phdr f i).filesz := rfl
  have e3 : num f (phoff f + 56 * i + 8) 8 = (phdr f i).offset := rfl
  unfold loadSegment at he
  -- `p_paddr`, `p_vaddr`, `p_filesz`, `p_offset`, `p_memsz`
  rw [hread (by decide), Res.ok_bind, hread (by decide), Res.ok_bind] at he
  dsimp only at he
  rw [hread (by decide), Res.ok_bind, hread (by decide), Res.ok_bind, hread (by decide),
    Res.ok_bind, e1, e2, e3] at he
  obtain ⟨_, -, he⟩ := Res.bind_eq_ok.mp he
  generalize phdr f i = s at *
  split at he
  · rename_i hpage
    obtain ⟨hpg, hdst⟩ := window_place s.paddr
    generalize (BitVec.ofNat 32 s.paddr &&& -0x200000 : Ptr) = page' at *
    generalize (BitVec.ofNat 32 s.paddr - page' + 0x400000 : Ptr) = dst at *
    have hlt := page'.isLt
    have hPn : (page'.setWidth 64 : Word).toNat = page'.toNat := addr_toNat page'
    have hle : loadAddr.toNat ≤ page'.toNat := BitVec.le_def.mp hpage
    have hplace : page'.toNat + (dst.toNat - 0x400000) = s.place := by
      unfold Phdr.place
      omega
    have hal : page'.setWidth 64 &&& (0x1FFFFF : Word) = 0 := by
      refine L2.Paging.aligned_iff.mpr ?_
      rw [hPn, hpg]
      exact Nat.mul_mod_left ..
    obtain ⟨m₁, hmap, hP₁, ho₁⟩ := hP.map_window tr hal
    rw [show pdp = page 0 from rfl, hmap, Res.ok_bind, apply,
      Res.assert_of (inRegion_page (by decide)), Res.ok_bind] at he
    obtain ⟨m₂, hcpy, he⟩ := Res.bind_eq_ok.mp he
    have hsz : (BitVec.ofNat 32 s.filesz).toNat = s.filesz := by
      rw [BitVec.toNat_ofNat, Nat.mod_eq_of_lt (by omega)]
    have hsrc : (modStart + BitVec.ofNat 32 s.offset).toNat = modStart.toNat + s.offset :=
      ptr_add_toNat (by omega)
    rw [hsz] at hcpy
    obtain ⟨-, hP₂, hc⟩ := Paged.memcpy_copied (by omega) (by omega) s.filesz hP₁ hcpy
      (by omega) (by omega)
    obtain ⟨hP₃, ho₃⟩ := hP₂.unmap_window
    obtain rfl := Except.ok.inj he
    rw [hPn, hplace, hsrc] at hc
    have hlow : 0x400000 ≤ s.place := by omega
    have hplt : s.place < 2 ^ 32 := Nat.mod_lt _ (by decide)
    refine ⟨hP₃, hlow, fun k hk => ?_, fun y hy hd hout => ?_⟩
    · have hmod : modStart.toNat + s.offset + k < 0x100000 ∨
          0x200000 ≤ modStart.toNat + s.offset + k := by
        have := hM.region
        omega
      rw [ho₃.byte (by omega) (.inr (by omega)), hc.bytes k hk, ho₁.byte (by omega) hmod,
        Nat.add_assoc, hF _ (by omega)]
    · rw [ho₃.byte hy hd, hc.rest y hy hout, ho₁.byte hy hd]
  · cases he

end Segment

/-! ## All segments -/

/-- After the first `i` program headers; `m₀` is the memory before. -/
structure Loaded (f : Nat → Byte) (q : Nat) (m₀ m : Mem) (i : Nat) : Prop where
  paged : Paged q none m
  low : Mem.EqOn m₀ m 0 0x100000 ∧ Mem.EqOn m₀ m 0x200000 0x400000
  high : ∀ j < i, (phdr f j).isLoad → 0x400000 ≤ (phdr f j).place
  copied : ∀ j < i, (phdr f j).isLoad → ∀ k < (phdr f j).filesz,
    m (adr ((phdr f j).place + k)) = f ((phdr f j).offset + k)
  rest : ∀ y, 0x400000 ≤ y → y < 2 ^ 64 → (∀ j < i, (phdr f j).isLoad →
    y < (phdr f j).place ∨ (phdr f j).place + (phdr f j).filesz ≤ y) → m (adr y) = m₀ (adr y)

section Loop
variable {tr modStart loadAddr : Ptr} {size q : Nat} {f : Nat → Byte} {m₀ m m' : Mem}

theorem Holds.keep (hF : Holds m₀ modStart f size) (hM : Module tr modStart size)
    (h : Mem.EqOn m₀ m 0 0x100000 ∧ Mem.EqOn m₀ m 0x200000 0x400000) :
    Holds m modStart f size := by
  have h1 := hM.low
  have h2 := hM.region
  intro k hk
  rw [← hF k hk]
  rcases Nat.lt_or_ge (modStart.toNat + k) 0x100000 with hlt | hge
  · exact h.1 _ (Nat.zero_le _) hlt
  · exact h.2 _ (by omega) (by omega)

theorem Loaded.refl (hP : Paged q none m) : Loaded f q m m 0 :=
  ⟨hP, ⟨.refl m _ _, .refl m _ _⟩, nofun, nofun, fun _ _ _ _ => rfl⟩

/-- A header of another type changes nothing. -/
theorem Loaded.skip {i : Nat} (h : Loaded f q m₀ m i) (hl : ¬ (phdr f i).isLoad) :
    Loaded f q m₀ m (i + 1) := by
  have hlt : ∀ j < i + 1, (phdr f j).isLoad → j < i := fun j hj hjl =>
    Nat.lt_of_le_of_ne (Nat.le_of_lt_succ hj) fun he => hl (he ▸ hjl)
  refine ⟨h.paged, h.low, fun j hj hjl => h.high j (hlt j hj hjl) hjl,
    fun j hj hjl => h.copied j (hlt j hj hjl) hjl, fun y hy hy' hout => h.rest y hy hy' ?_⟩
  exact fun j hj => hout j (Nat.lt_succ_of_lt hj)

theorem Loaded.step (hM : Module tr modStart size) (hF : Holds m₀ modStart f size)
    (hW : WellFormed f size) (hla : 0x400000 ≤ loadAddr.toNat) {i : Nat} (hi : i < phnum f)
    (hl : (phdr f i).isLoad) {p : Ptr} (hp : p.toNat = modStart.toNat + (phoff f + 56 * i))
    (h : Loaded f q m₀ m i) (he : loadSegment tr loadAddr modStart m p = .ok m') :
    Loaded f q m₀ m' (i + 1) := by
  have h1 := hM.low
  obtain ⟨hP', hhigh, hcopied, hrest⟩ :=
    loadSegment_copied h.paged hM (hF.keep hM h.low) hW hla hi hl hp he
  have hlow : ∀ lo hi, hi ≤ 0x100000 ∨ 0x200000 ≤ lo → hi ≤ 0x400000 → Mem.EqOn m m' lo hi :=
    fun lo hi h2 h3 y h4 h5 => hrest y (by omega) (by omega) (.inl (by omega))
  refine ⟨hP', ⟨h.low.1.trans (hlow _ _ (by decide) (by decide)),
    h.low.2.trans (hlow _ _ (by decide) (by decide))⟩, fun j hj hjl => ?_, fun j hj hjl k hk => ?_,
    fun y hy hy' hout => ?_⟩
  · rcases Nat.lt_succ_iff_lt_or_eq.mp hj with hj | rfl
    · exact h.high j hj hjl
    · exact hhigh
  · rcases Nat.lt_succ_iff_lt_or_eq.mp hj with hj | rfl
    · -- an earlier segment: the two do not share memory
      have h2 := h.high j hj hjl
      have h3 := hW.disjoint i hi j (by omega) hl hjl (by omega)
      have h4 := hW.sizes i hi hl
      have h5 := hW.sizes j (by omega) hjl
      have h6 : (phdr f j).place < 2 ^ 32 := Nat.mod_lt _ (by decide)
      have h7 := hW.data j (by omega) hjl
      rw [hrest _ (by omega) (by omega) (by omega)]
      exact h.copied j hj hjl k hk
    · exact hcopied k hk
  · rw [hrest y hy' (by omega) (hout i (Nat.lt_succ_self i) hl)]
    exact h.rest y hy hy' fun j hj => hout j (Nat.lt_succ_of_lt hj)

theorem Loaded.run (hM : Module tr modStart size) (hF : Holds m₀ modStart f size)
    (hW : WellFormed f size) (hla : 0x400000 ≤ loadAddr.toNat) {n i : Nat} (hn : i + n = phnum f)
    (h : Loaded f q m₀ m i) (he : loadSegments tr loadAddr modStart n i m = .ok m') :
    Loaded f q m₀ m' (phnum f) := by
  induction n generalizing i m with
  | zero =>
    cases he
    exact hn ▸ h
  | succ n ih =>
    have hF' := hF.keep hM h.low
    have hlt : i < phnum f := by omega
    have h1 := hW.phdrs
    unfold loadSegments at he
    obtain ⟨p, hp, hpn⟩ := programHeader_eq h.paged hM hF' hW hlt
    have htype : member m p 0 4 = .ok (num f (phoff f + 56 * i + 0) 4) :=
      member_num h.paged hM hF' hpn (by omega)
    have e0 : num f (phoff f + 56 * i) 4 = (phdr f i).type := rfl
    rw [hp, Res.ok_bind, htype, Res.ok_bind, Nat.add_zero, e0] at he
    split at he
    · rename_i hl
      obtain ⟨m₁, hseg, he⟩ := Res.bind_eq_ok.mp he
      exact ih (by omega) (h.step hM hF hW hla hlt hl hpn hseg) he
    · rename_i hl
      exact ih (by omega) (h.skip hl) he

end Loop

/-! ## The load address -/

theorem alignUp_toNat {v : Ptr} (h : v.toNat ≤ 0xFFE00000) :
    (alignUp v 0x200000).toNat = (v.toNat + 0x1FFFFF) / 2 ^ 21 * 2 ^ 21 := by
  have h1 := Bits.toNat_clearLow (v + BitVec.ofNat 32 0x1FFFFF) (show 21 ≤ 32 by decide)
  rw [← Bits.neg_two_pow 32 21, ptr_add_toNat (by omega)] at h1
  exact h1

/-- From 0x400000 on the result is a frame above 4 MiB and behind all modules,
if these end where there is room for it. -/
theorem calculateLoadAddr_spec {m : Mem} {mods : Ptr} {n i : Nat} {addr la : Ptr}
    (hends : ∀ j, i ≤ j → j < i + n → ∀ v, member m (mods + BitVec.ofNat 32 (16 * j)) 4 4 = .ok v →
      v ≤ 0xFFE00000)
    (haddr : 0x400000 ≤ addr.toNat ∧ addr.toNat % 2 ^ 21 = 0)
    (he : calculateLoadAddr m mods n i addr = .ok la) :
    0x400000 ≤ la.toNat ∧ la.toNat % 2 ^ 21 = 0 ∧ addr.toNat ≤ la.toNat ∧
      ∀ j, i ≤ j → j < i + n → ∀ v, member m (mods + BitVec.ofNat 32 (16 * j)) 4 4 = .ok v →
        v ≤ la.toNat := by
  induction n generalizing i addr with
  | zero =>
    cases he
    exact ⟨haddr.1, haddr.2, Nat.le_refl _, fun j h1 h2 => by omega⟩
  | succ n ih =>
    unfold calculateLoadAddr at he
    obtain ⟨v, hv, he⟩ := Res.bind_eq_ok.mp he
    dsimp only at he
    have hle := hends i (Nat.le_refl _) (by omega) v hv
    have hn : (BitVec.ofNat 32 v).toNat = v := by
      rw [BitVec.toNat_ofNat, Nat.mod_eq_of_lt (by omega)]
    have hup := alignUp_toNat (v := BitVec.ofNat 32 v) (by omega)
    rw [hn] at hup
    generalize ha : (if addr < BitVec.ofNat 32 v then alignUp (BitVec.ofNat 32 v) 0x200000
      else addr) = next at he
    have hnext : 0x400000 ≤ next.toNat ∧ next.toNat % 2 ^ 21 = 0 ∧ addr.toNat ≤ next.toNat ∧
        v ≤ next.toNat := by
      obtain ⟨h1, h2⟩ := haddr
      subst ha
      split
      · rename_i hlt
        have := BitVec.lt_def.mp hlt
        omega
      · rename_i hge
        have := BitVec.le_def.mp (BitVec.not_lt.mp hge)
        omega
    obtain ⟨h1, h2, h3, h4⟩ := hnext
    obtain ⟨g1, g2, g3, g4⟩ := ih (fun j hj hj' => hends j (by omega) (by omega)) ⟨h1, h2⟩ he
    refine ⟨g1, g2, Nat.le_trans h3 g3, fun j hj hj' v' hv' => ?_⟩
    rcases Nat.eq_or_lt_of_le hj with rfl | hj
    · rw [hv] at hv'
      cases hv'
      exact Nat.le_trans h4 g3
    · exact g4 j hj (by omega) v' hv'

end X64k.L3.Loader
