import X64k.L3Handover.Elf

/-!
# The window a segment is copied through (`src/loader/loader.cpp:36-75`)

One 2 MiB page is mapped at 0x400000 for a segment. What is checked is that
`p_memsz` is no larger than the page, and that the frame is not too low. The
copy starts at the segment's offset in the page and runs for `p_filesz` bytes.

* `loadSegment_copies`: the copy that `load_elf` makes of a header that passes
  its checks.
* `window_iff`: it stays in the page exactly when offset and file size do.
* `crossing_faults`: a segment of 32 bytes over a 2 MiB boundary.
-/
namespace X64k.L3.Loader

open X64k.Core

/-! ## What is copied where -/

/-- The program header at `p` has the fields of `s`. -/
structure HeaderAt (m : Mem) (p : Ptr) (s : Phdr) : Prop where
  type : member m p 0 4 = .ok s.type
  offset : member m p 8 8 = .ok s.offset
  vaddr : member m p 16 8 = .ok s.vaddr
  paddr : member m p 24 8 = .ok s.paddr
  filesz : member m p 32 8 = .ok s.filesz
  memsz : member m p 40 8 = .ok s.memsz

/-- `paddrPage`. mirrors src/loader/loader.cpp:61 -/
def Phdr.page (s : Phdr) : Ptr := BitVec.ofNat 32 s.paddr &&& -0x200000

/-- The size assertion and the check against the load address.
mirrors src/loader/loader.cpp:57, 64 -/
structure Phdr.Passes (s : Phdr) (loadAddr : Ptr) : Prop where
  size : BitVec.ofNat 32 s.memsz ≤ (0x200000 : BitVec 32)
  high : loadAddr ≤ s.page

/-- The arguments of `memcpy`. mirrors src/loader/loader.cpp:71 -/
def Phdr.dst (s : Phdr) : Ptr := BitVec.ofNat 32 s.paddr - s.page + 0x400000
def Phdr.src (s : Phdr) (modStart : Ptr) : Ptr := modStart + BitVec.ofNat 32 s.offset
def Phdr.count (s : Phdr) : Nat := (BitVec.ofNat 32 s.filesz).toNat

/-- The copy of byte `k`. mirrors src/loader/algo/memory.cpp:14 -/
def copyByte (cr3 dst src : Ptr) (m : Mem) (k : Nat) : Res Mem := do
  let b ← loadByte m cr3 (src + BitVec.ofNat 32 k)
  storeByte m cr3 (dst + BitVec.ofNat 32 k) b

/-- Every byte that the copy of the segment writes lies in the window. -/
def Phdr.Inside (s : Phdr) : Prop := ∀ k < s.count,
  0x400000 ≤ (s.dst + BitVec.ofNat 32 k).toNat ∧ (s.dst + BitVec.ofNat 32 k).toNat < 0x600000

section
variable {tr loadAddr modStart p : Ptr} {m : Mem} {s : Phdr}

/-- `memcpy` loads the byte `k` from `src + k` and stores it at `dst + k`. -/
theorem memcpy_stores (cr3 dst src : Ptr) : ∀ (n j : Nat) (m : Mem),
    memcpy cr3 n m (dst + BitVec.ofNat 32 j) (src + BitVec.ofNat 32 j) =
      (List.range' j n).foldlM (copyByte cr3 dst src) m
  | 0, _, _ => rfl
  | n + 1, j, m => by
    have hnext : ∀ a : Ptr, a + BitVec.ofNat 32 j + 1 = a + BitVec.ofNat 32 (j + 1) := fun a => by
      rw [BitVec.add_assoc, BitVec.ofNat_add]
      rfl
    rw [List.range'_succ, List.foldlM_cons, memcpy, hnext, hnext]
    unfold copyByte
    rw [bind_assoc]
    refine congrArg _ (funext fun b => congrArg _ (funext fun m₁ => ?_))
    exact memcpy_stores cr3 dst src n (j + 1) m₁

/-- The copy that `load_elf` makes of a segment that passes its checks. -/
theorem loadSegment_copies (h : HeaderAt m p s) (hs : s.Passes loadAddr) :
    loadSegment tr loadAddr modStart m p = (do
      let m ← Pdpt.map tr m pdp 0x400000 (s.page.setWidth 64) 0x80
      apply pdp
      let m ← (List.range' 0 s.count).foldlM (copyByte pdp s.dst (s.src modStart)) m
      let m := Pdpt.unmap m pdp 0x400000
      apply pdp
      .ok m) := by
  have hcopy : ∀ m₁ : Mem, memcpy pdp s.count m₁ s.dst (s.src modStart) =
      (List.range' 0 s.count).foldlM (copyByte pdp s.dst (s.src modStart)) m₁ := by
    intro m₁
    have := memcpy_stores pdp s.dst (s.src modStart) s.count 0 m₁
    rwa [BitVec.add_zero, BitVec.add_zero] at this
  unfold loadSegment
  rw [h.paddr, Res.ok_bind, h.vaddr, Res.ok_bind]
  dsimp only
  rw [h.filesz, Res.ok_bind, h.offset, Res.ok_bind, h.memsz, Res.ok_bind,
    Res.assert_of hs.size, Res.ok_bind]
  refine (if_pos hs.high).trans ?_
  refine congrArg _ (funext fun m₁ => congrArg _ (funext fun _ => ?_))
  exact congrArg (· >>= _) (hcopy m₁)

theorem inside_iff (s : Phdr) : s.Inside ↔ s.paddr % 2 ^ 21 + s.filesz % 2 ^ 32 ≤ 2 ^ 21 := by
  have hdst : s.dst.toNat = s.paddr % 2 ^ 32 % 2 ^ 21 + 0x400000 := (window_place s.paddr).2
  have hcount : s.count = s.filesz % 2 ^ 32 := BitVec.toNat_ofNat ..
  have hoff : s.paddr % 2 ^ 32 % 2 ^ 21 = s.paddr % 2 ^ 21 := by omega
  unfold Phdr.Inside
  rw [hcount]
  constructor
  · intro h
    by_contra hgt
    -- the first byte behind the page
    have h1 := (h (2 ^ 21 - s.paddr % 2 ^ 21) (by omega)).2
    rw [ptr_add_toNat (by omega)] at h1
    omega
  · intro h k hk
    rw [ptr_add_toNat (by omega)]
    omega

end

/-- **The window.** Let a program header pass the checks of `load_elf`. Every
byte that is written for it lies in the window exactly when its offset in the
page and its file size, both as 32-bit numbers, add up to no more than a page. -/
theorem window_iff {tr loadAddr modStart p : Ptr} {m : Mem} {s : Phdr} (h : HeaderAt m p s)
    (hs : s.Passes loadAddr) :
    (loadSegment tr loadAddr modStart m p = do
      let m ← Pdpt.map tr m pdp 0x400000 (s.page.setWidth 64) 0x80
      apply pdp
      let m ← (List.range' 0 s.count).foldlM (copyByte pdp s.dst (s.src modStart)) m
      let m := Pdpt.unmap m pdp 0x400000
      apply pdp
      .ok m) ∧
    (s.Inside ↔ s.paddr % 2 ^ 21 + s.filesz % 2 ^ 32 ≤ 2 ^ 21) :=
  ⟨loadSegment_copies h hs, inside_iff s⟩

/-! ## A segment over a boundary -/

/-- The loader's tables, and a program header at 0x300040. -/
def demoSegment (paddr size : Word) : Mem :=
  ([(0x100000, 0x101001), (0x101000, 0x81), (0x101008, 0x200081), (0x300040, 1), (0x300048, 0xB0),
    (0x300050, paddr), (0x300058, paddr), (0x300060, size), (0x300068, size)] :
    List (Word × Word)).foldl (fun m w => m.store64 w.1 w.2) ⟨fun _ => 0⟩

def demoPhdr (paddr size : Nat) : Phdr := ⟨1, 0xB0, paddr, paddr, size, size⟩

theorem demo_within : HeaderAt (demoSegment 0x400010 0x20) 0x300040 (demoPhdr 0x400010 0x20) :=
  ⟨by decide +kernel, by decide +kernel, by decide +kernel, by decide +kernel, by decide +kernel,
    by decide +kernel⟩

theorem demo_crossing : HeaderAt (demoSegment 0x5FFFF0 0x20) 0x300040 (demoPhdr 0x5FFFF0 0x20) :=
  ⟨by decide +kernel, by decide +kernel, by decide +kernel, by decide +kernel, by decide +kernel,
    by decide +kernel⟩

theorem window_within : (demoPhdr 0x400010 0x20).Inside :=
  (@window_iff 0x3F0000 0x400000 0x300000 _ _ _ demo_within ⟨by decide, by decide⟩).2.mpr (by decide)

/-- **A segment over a 2 MiB boundary** passes the checks, and is copied past
the end of the window. -/
theorem crossing : ¬ ∀ (m : Mem) (loadAddr p : Ptr) (s : Phdr), HeaderAt m p s → s.isLoad →
    s.Passes loadAddr → s.Inside := by
  intro hall
  have h := hall _ 0x400000 _ _ demo_crossing rfl ⟨by decide, by decide⟩
  rw [inside_iff] at h
  exact absurd h (by decide)

/-- Nothing is mapped there: the copy ends in a page fault. -/
theorem crossing_faults : (loadSegment 0x3F0000 0x400000 0x300000 (demoSegment 0x5FFFF0 0x20)
    0x300040).map (fun _ => ()) = .error pageFault := by
  decide +kernel

end X64k.L3.Loader
