import X64k.L3Handover.Elf
import X64k.L3Handover.ReadBack

/-!
# The image of the kernel

`load_elf` copies a segment by its physical address and maps one page by its
virtual address, so the two meet for a segment (or the part of it) that lies on
the page of the entry point at the load address. It reads `p_memsz` only to
check it: the bytes behind the file's part of a segment are not cleared.

* `buildPml4_built`: the final tables, as a run of `map`.
* `image`: what is mapped, and what every byte above 4 MiB is.
-/
namespace X64k.L3.Loader

open X64k.Core X64k.Core.Radix
open X64k.L2.Paging (entry nx Tabs Apart)

/-! ## The final tables -/

section Tables
variable {tr : Ptr} {m m' : Mem} {V : Tabs}

theorem Shows.transport (hL : Layout tr) (h : Shows tr m V) (hag : Mem.EqOn m m' 0x100000 0x200000)
    (ht : Mem.EqOn m m' tr.toNat (tr.toNat + 32)) : Shows tr m' V := by
  have h1 := hL.bound
  refine ⟨h.E.frame ?_, fun k hk => ?_⟩
  · rintro t ⟨k, hk, rfl⟩
    have := page_addr_toNat hk
    exact hag.mono (by omega) (by omega)
  · rw [← h.trk k hk]
    unfold tracked
    rw [ht.load32 (by omega) (by omega)]

theorem Built.transport (hL : Layout tr) {x : Nat} {calls : List Call} (h : Built tr x ⟨m, calls⟩ V)
    (hag : Mem.EqOn m m' 0x100000 0x200000) (ht : Mem.EqOn m m' tr.toNat (tr.toNat + 32)) :
    Built tr x ⟨m', calls⟩ V :=
  ⟨h.shows_.transport hL hag ht, h.owned, h.root, h.calls, h.reads⟩

/-- The calls of `buildPml4`, the last one first. -/
def finalCalls (entry64 : Word) (loadAddr : Ptr) : List Call :=
  [⟨entry64, loadAddr.setWidth 64, 0x80⟩, ⟨0x200000, 0x200000, 0x80⟩, ⟨0, 0, 0x80⟩]

theorem buildPml4_built (hL : Layout tr) (ht : tracked tr m 0 = true) {entry64 : Word}
    {loadAddr : Ptr} (he : entry64.toNat < 2 ^ 48) (hal : loadAddr.toNat % 2 ^ 21 = 0)
    (h : buildPml4 tr m entry64 loadAddr = .ok m') :
    (∃ V, Built tr 0 ⟨m', finalCalls entry64 loadAddr⟩ V) ∧ Keeps tr m m' := by
  have hroot : (0x100000 : Ptr) = page 0 := by decide
  have hframe : loadAddr.setWidth 64 &&& (0x1FFFFF : Word) = 0 :=
    L2.Paging.aligned_iff.mpr ((congrArg (· % 2 ^ 21) (addr_toNat loadAddr)).trans hal)
  unfold buildPml4 at h
  rw [hroot] at h
  dsimp only at h
  have hk₀ := keeps_clearPage tr m (n := 0) (by decide)
  obtain ⟨V₀, hB₀⟩ := built_init hL (x := 0) (by decide) ht
  obtain ⟨m₁, h₁, h⟩ := Res.bind_eq_ok.mp h
  obtain ⟨m₂, h₂, h⟩ := Res.bind_eq_ok.mp h
  obtain ⟨m₃, h₃, h⟩ := Res.bind_eq_ok.mp h
  rw [apply, Res.assert_of (inRegion_page (by decide)), Res.ok_bind] at h
  obtain rfl := Except.ok.inj h
  rcases hB₀.step hL (by decide) (c := ⟨0, 0, 0x80⟩) ⟨by decide, by decide, by decide⟩ with
    ⟨msg, hf, -⟩ | ⟨_, V₁, ho, hB₁, hk₁⟩
  · rw [hf] at h₁; cases h₁
  obtain rfl := Except.ok.inj (ho.symm.trans h₁)
  rcases hB₁.step hL (by decide) (c := ⟨0x200000, 0x200000, 0x80⟩)
    ⟨by decide, by decide, by decide⟩ with ⟨msg, hf, -⟩ | ⟨_, V₂, ho, hB₂, hk₂⟩
  · rw [hf] at h₂; cases h₂
  obtain rfl := Except.ok.inj (ho.symm.trans h₂)
  rcases hB₂.step hL (by decide) (c := ⟨entry64, loadAddr.setWidth 64, 0x80⟩)
    ⟨he, hframe, (by decide : (0x80 : BitVec 32).toNat < 2 ^ 12)⟩ with
    ⟨msg, hf, -⟩ | ⟨_, V₃, ho, hB₃, hk₃⟩
  · rw [hf] at h₃; cases h₃
  obtain rfl := Except.ok.inj (ho.symm.trans h₃)
  exact ⟨⟨V₃, hB₃⟩, hk₀.trans (hk₁.trans (hk₂.trans hk₃))⟩

/-- What the final tables map: the entry's page, and the first 4 MiB. -/
theorem Built.get_final {entry64 : Word} {loadAddr : Ptr}
    (hB : Built tr 0 ⟨m, finalCalls entry64 loadAddr⟩ V) {va : Nat} (hva : va < 2 ^ 48) :
    L2.Paging.Pml4.get m 0x100000 (adr va) =
      if va / 2 ^ 21 = entry64.toNat / 2 ^ 21 then some (adr (loadAddr.toNat + va % 2 ^ 21))
      else if va < 0x400000 then some (adr va) else none := by
  have hn : (adr va).toNat = va := adr_toNat (by omega)
  have hpage : ∀ v : Word, v >>> 21 = adr va >>> 21 ↔ v.toNat / 2 ^ 21 = va / 2 ^ 21 := by
    intro v
    rw [L2.Paging.shift_eq_iff, hn]
  have hoff : adr va &&& 0x1FFFFF = adr (va % 2 ^ 21) := by
    have h1 : (0x1FFFFF : Word).toNat = 2 ^ 21 - 1 := rfl
    apply BitVec.eq_of_toNat_eq
    rw [Bits.toNat_and_low h1, hn, adr_toNat (by omega)]
  have h2 : (0x200000 : Word).toNat = 0x200000 := rfl
  have h3 : (0 : Word).toNat = 0 := rfl
  have hroot : (0x100000 : Word) = (page 0).addr := by decide
  rw [hroot, hB.get (by decide) (by rw [hn]; exact hva), hoff, lastOn, finalCalls]
  simp only [List.find?_cons, List.find?_nil, hpage, h2, h3]
  by_cases he : entry64.toNat / 2 ^ 21 = va / 2 ^ 21
  · rw [decide_eq_true he, if_pos he.symm]
    refine congrArg some ?_
    show loadAddr.addr + adr (va % 2 ^ 21) = _
    rw [← adr_of_toNat loadAddr.addr, addr_toNat, adr_add]
  · rw [decide_eq_false he, if_neg (Ne.symm he)]
    by_cases h1 : 0x200000 / 2 ^ 21 = va / 2 ^ 21
    · rw [decide_eq_true h1, if_pos (by omega)]
      refine congrArg some ?_
      show adr 0x200000 + adr (va % 2 ^ 21) = _
      rw [adr_add]
      exact congrArg adr (by omega)
    · rw [decide_eq_false h1]
      by_cases h0 : 0 / 2 ^ 21 = va / 2 ^ 21
      · rw [decide_eq_true h0, if_pos (by omega)]
        refine congrArg some ?_
        show adr 0 + adr (va % 2 ^ 21) = _
        rw [adr_add]
        exact congrArg adr (by omega)
      · rw [decide_eq_false h0, if_neg (by omega)]
        rfl

end Tables

/-! ## The record for the kernel -/

/-- Where the linker has put `m_dataTracker` and `loader_data`. -/
structure Globals (tr data : Ptr) : Prop where
  layout : Layout tr
  tracker : tr.toNat + 32 ≤ 0x400000
  record : data.toNat + 21 ≤ 0x400000
  region : Apart data.toNat 21 0x100000 0x100000
  apart : Apart data.toNat 21 tr.toNat 32

theorem writeLoaderData_eqOn {data : Ptr} (hd : data.toNat + 21 ≤ 0x400000) (tr mbInfo : Ptr)
    (m : Mem) {lo hi : Nat} (h : hi ≤ data.toNat ∨ data.toNat + 21 ≤ lo) (hhi : hi ≤ 2 ^ 64) :
    Mem.EqOn m (writeLoaderData tr mbInfo data m) lo hi := by
  have haddr : ∀ k, k < 21 → (data + BitVec.ofNat 32 k).addr = adr (data.toNat + k) := by
    intro k hk
    rw [← adr_of_toNat (data + BitVec.ofNat 32 k).addr, addr_toNat, ptr_add_toNat (by omega)]
  have h0 : data.addr = adr (data.toNat + 0) := by
    rw [Nat.add_zero, ← addr_toNat data, adr_of_toNat]
  have h4 : (data + 4).addr = _ := haddr 4 (by decide)
  have h8 : (data + 8).addr = _ := haddr 8 (by decide)
  have h12 : (data + 12).addr = _ := haddr 12 (by decide)
  have h16 : (data + 16).addr = _ := haddr 16 (by decide)
  have h20 : (data + 20).addr = _ := haddr 20 (by decide)
  have h32 : ∀ (m : Mem) (k : Nat) (v : BitVec 32), k + 4 ≤ 21 →
      Mem.EqOn m (m.store32 (adr (data.toNat + k)) v) lo hi :=
    fun m k v hk => Mem.EqOn.store32 m v (by omega) (by omega) hhi
  have h1 : ∀ (m : Mem) (v : Nat), Mem.EqOn m (m.storeN (adr (data.toNat + 20)) 1 v) lo hi :=
    fun m v => Mem.EqOn.storeN m 1 v (by omega) (by omega) (by omega) hhi
  unfold writeLoaderData
  rw [h0, h4, h8, h12, h16, h20]
  dsimp only
  refine (h32 m 0 _ (by decide)).trans ((h32 _ 4 _ (by decide)).trans ((h32 _ 8 _ (by decide)).trans
    ((h32 _ 12 _ (by decide)).trans ((h32 _ 16 _ (by decide)).trans ((h1 _ _).trans (h1 _ _))))))

/-! ## Main result -/

/-- What `load_elf` has read when it starts copying. -/
theorem loadElf_parts {tr mbInfo data modStart loadAddr : Ptr} {size q : Nat} {f : Nat → Byte}
    {m m' : Mem} {entry64 : Word} (hP : Paged q none m) (hM : Module tr modStart size)
    (hF : Holds m modStart f size) (hW : WellFormed f size)
    (he : loadElf tr mbInfo data m loadAddr modStart = .ok (entry64, m')) :
    entry64 = adr (entryOf f) ∧ ∃ m₁ m₂,
      loadSegments tr loadAddr modStart (phnum f) 0 m = .ok m₁ ∧
      buildPml4 tr m₁ (adr (entryOf f)) loadAddr = .ok m₂ ∧
      m' = writeLoaderData tr mbInfo data m₂ := by
  have h1 := hW.ehdr
  have hread : ∀ {off n : Nat}, off + n ≤ 64 → member m modStart off n = .ok (num f off n) := by
    intro off n hn
    have : member m modStart off n = .ok (num f (0 + off) n) := member_num hP hM hF rfl (by omega)
    rwa [Nat.zero_add] at this
  have hns : member m modStart 56 2 = .ok (phnum f) := hread (by decide)
  have hent : member m modStart 24 8 = .ok (entryOf f) := hread (by decide)
  unfold loadElf at he
  obtain ⟨_, -, he⟩ := Res.bind_eq_ok.mp he
  obtain ⟨_, -, he⟩ := Res.bind_eq_ok.mp he
  obtain ⟨_, -, he⟩ := Res.bind_eq_ok.mp he
  obtain ⟨_, -, he⟩ := Res.bind_eq_ok.mp he
  rw [Elf64.programCount, hns, Res.ok_bind] at he
  obtain ⟨_, -, he⟩ := Res.bind_eq_ok.mp he
  rw [Elf64.entry, hent, Res.ok_bind, Res.ok_bind] at he
  obtain ⟨m₁, h₁, he⟩ := Res.bind_eq_ok.mp he
  obtain ⟨m₂, h₂, he⟩ := Res.bind_eq_ok.mp he
  obtain ⟨rfl, rfl⟩ := Prod.mk.inj (Except.ok.inj he)
  exact ⟨rfl, m₁, m₂, h₁, h₂, rfl⟩

/-- **The image in memory.** For every memory, module and load address with
which `load_elf` reaches `long_enter`: the final tables map the entry's page to
the load address and the first 4 MiB to themselves, and nothing else; the
file's part of every `PT_LOAD` segment is at its physical address, and every
other byte above 4 MiB is as it was. So a byte of a segment that lies on the
entry's page, at the load address, is mapped to its physical address, where the
file's byte is or, behind the file's part, what the memory held before. -/
theorem image {tr mbInfo data modStart loadAddr : Ptr} {size : Nat} {f : Nat → Byte}
    {m₀ m₁ m' : Mem} {entry64 : Word} (hG : Globals tr data) (hM : Module tr modStart size)
    (hF : Holds m₀ modStart f size) (hW : WellFormed f size) (hla : 0x400000 ≤ loadAddr.toNat)
    (hal : loadAddr.toNat % 2 ^ 21 = 0) (hentry : entryOf f < 2 ^ 48)
    (hs : startPaging tr m₀ = .ok m₁)
    (he : loadElf tr mbInfo data m₁ loadAddr modStart = .ok (entry64, m')) :
    entry64 = adr (entryOf f) ∧
    (∀ va < 2 ^ 48, L2.Paging.Pml4.get m' 0x100000 (adr va) =
      if va / 2 ^ 21 = entryOf f / 2 ^ 21 then some (adr (loadAddr.toNat + va % 2 ^ 21))
      else if va < 0x400000 then some (adr va) else none) ∧
    (∀ i < phnum f, (phdr f i).isLoad → ∀ k < (phdr f i).filesz,
      m' (adr ((phdr f i).place + k)) = f ((phdr f i).offset + k)) ∧
    (∀ y, 0x400000 ≤ y → y < 2 ^ 64 → (∀ i < phnum f, (phdr f i).isLoad →
      y < (phdr f i).place ∨ (phdr f i).place + (phdr f i).filesz ≤ y) →
      m' (adr y) = m₀ (adr y)) ∧
    ∀ i < phnum f, (phdr f i).isLoad → ∀ k < (phdr f i).memsz,
      ((phdr f i).vaddr + k) / 2 ^ 21 = entryOf f / 2 ^ 21 →
      (phdr f i).paddr + k = loadAddr.toNat + ((phdr f i).vaddr + k) % 2 ^ 21 →
      L2.Paging.Pml4.get m' 0x100000 (adr ((phdr f i).vaddr + k)) =
        some (adr ((phdr f i).paddr + k)) ∧
      m' (adr ((phdr f i).paddr + k)) =
        if k < (phdr f i).filesz then f ((phdr f i).offset + k)
        else m₀ (adr ((phdr f i).paddr + k)) := by
  have hL := hG.layout
  have g1 := hG.tracker
  have g2 := hG.record
  have g3 := hM.low
  obtain ⟨q, hP, ht, hk₀⟩ := startPaging_paged hL hs
  have hF₁ : Holds m₁ modStart f size := by
    intro k hk
    have h1 := hM.region
    have h2 := hM.tracker
    rw [← hF k hk]
    exact hk₀ _ (modStart.toNat + k + 1) (by omega) (by omega) (by omega) _ (Nat.le_refl _)
      (Nat.lt_succ_self _)
  obtain ⟨rfl, m₂, m₃, h₂, h₃, rfl⟩ := loadElf_parts hP hM hF₁ hW he
  have hLd := Loaded.run hM hF₁ hW hla (Nat.zero_add _) (.refl hP) h₂
  have ht₂ : tracked tr m₂ 0 = true := by
    have h1 := hL.apart
    rw [← ht]
    unfold tracked
    rcases h1 with h1 | h1
    · rw [hLd.low.1.load32 (Nat.zero_le _) (by omega)]
    · rw [hLd.low.2.load32 (by omega) (by omega)]
  obtain ⟨⟨V, hB⟩, hk₃⟩ := buildPml4_built hL ht₂ (by rw [adr_toNat (by omega)]; exact hentry) hal h₃
  have hw : ∀ lo hi, hi ≤ data.toNat ∨ data.toNat + 21 ≤ lo → hi ≤ 2 ^ 64 →
      Mem.EqOn m₃ (writeLoaderData tr mbInfo data m₃) lo hi :=
    fun _ _ => writeLoaderData_eqOn g2 tr mbInfo m₃
  have hB' := hB.transport hL (hw _ _ (by have := hG.region; omega) (by decide))
    (hw _ _ (by have := hG.apart; omega) (by omega))
  -- above 4 MiB the memory is as after the segments
  have hhigh : ∀ y, 0x400000 ≤ y → y < 2 ^ 64 →
      writeLoaderData tr mbInfo data m₃ (adr y) = m₂ (adr y) := by
    intro y h1 h2
    rw [hw y (y + 1) (by omega) (by omega) y (Nat.le_refl _) (by omega)]
    exact hk₃ y (y + 1) (by omega) (by omega) (by omega) y (Nat.le_refl _) (by omega)
  have hget : ∀ va < 2 ^ 48, L2.Paging.Pml4.get (writeLoaderData tr mbInfo data m₃) 0x100000
      (adr va) = if va / 2 ^ 21 = entryOf f / 2 ^ 21 then some (adr (loadAddr.toNat + va % 2 ^ 21))
        else if va < 0x400000 then some (adr va) else none := by
    intro va hva
    rw [hB'.get_final hva, adr_toNat (by omega)]
  have hplace : ∀ i, (phdr f i).place < 2 ^ 32 := fun i => Nat.mod_lt _ (by decide)
  have hcopied : ∀ i < phnum f, (phdr f i).isLoad → ∀ k < (phdr f i).filesz,
      writeLoaderData tr mbInfo data m₃ (adr ((phdr f i).place + k)) = f ((phdr f i).offset + k) := by
    intro i hi hl k hk
    have h1 := hLd.high i hi hl
    have h2 := hW.data i hi hl
    have h3 := hplace i
    rw [hhigh _ (by omega) (by omega)]
    exact hLd.copied i hi hl k hk
  have hrest : ∀ y, 0x400000 ≤ y → y < 2 ^ 64 → (∀ i < phnum f, (phdr f i).isLoad →
      y < (phdr f i).place ∨ (phdr f i).place + (phdr f i).filesz ≤ y) →
      writeLoaderData tr mbInfo data m₃ (adr y) = m₀ (adr y) := by
    intro y h1 h2 h3
    rw [hhigh y h1 h2, hLd.rest y h1 h2 h3]
    exact hk₀ y (y + 1) (by omega) (by omega) (by omega) y (Nat.le_refl _) (by omega)
  refine ⟨rfl, hget, hcopied, hrest, fun i hi hl k hk hv hp => ⟨?_, ?_⟩⟩
  · rw [hget _ (by omega), if_pos hv, hp]
  · have h1 := loadAddr.isLt
    have h2 : (phdr f i).place = (phdr f i).paddr := Nat.mod_eq_of_lt (by omega)
    split
    · rename_i hlt
      rw [← h2]
      exact hcopied i hi hl k hlt
    · rename_i hge
      refine hrest _ (by omega) (by omega) fun j hj hjl => ?_
      by_cases hij : i = j
      · subst hij
        omega
      · have h3 := hW.disjoint i hi j hj hl hjl hij
        have h4 := hW.sizes j hj hjl
        omega

/-! ## A run -/

/-- A module with two `PT_LOAD` segments at 0x300000: one of two bytes, of which
the file has one, on the entry's page, and one of a byte on another page. The
memory is not zero behind the first byte at 0x400000. -/
def demoImage : Mem :=
  [(0x300000, 0x00000002464C457F), (0x300018, 0x400000), (0x300020, 0x40), (0x300038, 2),
    (0x300040, 1), (0x300048, 0xB0), (0x300050, 0x400000), (0x300058, 0x400000), (0x300060, 1),
    (0x300068, 2), (0x300078, 1), (0x300080, 0xB0), (0x300088, 0x800000), (0x300090, 0x600000),
    (0x300098, 1), (0x3000A0, 1), (0x3000B0, 0x90), (0x400001, 0xFF)].foldl
    (fun m w => m.store64 w.1 w.2) ⟨fun _ => 0⟩

def demoFile (k : Nat) : Byte := demoImage (adr (0x300000 + k))

theorem demo_headers : phnum demoFile = 2 ∧ phoff demoFile = 0x40 ∧ entryOf demoFile = 0x400000 ∧
    phdr demoFile 0 = ⟨1, 0xB0, 0x400000, 0x400000, 1, 2⟩ ∧
    phdr demoFile 1 = ⟨1, 0xB0, 0x800000, 0x600000, 1, 1⟩ := by decide +kernel

theorem demo_wellFormed : WellFormed demoFile 0xC0 := by
  obtain ⟨hn, ho, -, h0, h1⟩ := demo_headers
  have hcases : ∀ i < phnum demoFile, i = 0 ∨ i = 1 := by
    rw [hn]
    intro i hi
    omega
  refine ⟨by decide, by rw [hn, ho]; decide, fun i hi _ => ?_, fun i hi _ => ?_,
    fun i hi j hj _ _ hij => ?_⟩
  · rcases hcases i hi with rfl | rfl <;> simp only [h0, h1] <;> decide
  · rcases hcases i hi with rfl | rfl <;> simp only [h0, h1] <;> decide
  · rcases hcases i hi with rfl | rfl <;> rcases hcases j hj with rfl | rfl <;>
      simp only [h0, h1, Phdr.place] <;> first | decide | exact absurd rfl hij

theorem demo_load : ∃ m₁ m', startPaging 0x3F0000 demoImage = .ok m₁ ∧
    loadElf 0x3F0000 0 0x3F1000 m₁ 0x400000 0x300000 = .ok (0x400000, m') := by
  have h : (match startPaging 0x3F0000 demoImage with
      | .ok m₁ =>
        match loadElf 0x3F0000 0 0x3F1000 m₁ 0x400000 0x300000 with
        | .ok (e, _) => e == 0x400000
        | .error _ => false
      | .error _ => false) = true := by decide +kernel
  split at h
  · rename_i m₁ h₁
    split at h
    · rename_i e m' h'
      rw [eq_of_beq h] at h'
      exact ⟨m₁, m', h₁, h'⟩
    · cases h
  · cases h

/-- The first segment: the byte of the file, and the byte that was there. -/
theorem image_demo : ∃ m₁ m', startPaging 0x3F0000 demoImage = .ok m₁ ∧
    loadElf 0x3F0000 0 0x3F1000 m₁ 0x400000 0x300000 = .ok (0x400000, m') ∧
    (L2.Paging.Pml4.get m' 0x100000 (adr 0x400000) = some (adr 0x400000) ∧
      m' (adr 0x400000) = 0x90) ∧
    L2.Paging.Pml4.get m' 0x100000 (adr 0x400001) = some (adr 0x400001) ∧
      m' (adr 0x400001) = 0xFF := by
  obtain ⟨m₁, m', hs, he⟩ := demo_load
  obtain ⟨hn, -, hent, h0, -⟩ := demo_headers
  have hG : Globals 0x3F0000 0x3F1000 :=
    ⟨⟨by decide, by decide⟩, by decide, by decide, by decide, by decide⟩
  have hM : Module 0x3F0000 0x300000 0xC0 := ⟨by decide, by decide, by decide⟩
  have hF : Holds demoImage 0x300000 demoFile 0xC0 := fun _ _ => rfl
  obtain ⟨-, -, -, -, h⟩ := image hG hM hF demo_wellFormed (by decide) (by decide)
    (by rw [hent]; decide) hs he
  have h := h 0 (by rw [hn]; decide) (by rw [h0])
  rw [h0, hent] at h
  have hfile : demoFile 0xB0 = 0x90 := by decide +kernel
  have htail : demoImage (adr 0x400001) = 0xFF := by decide +kernel
  refine ⟨m₁, m', hs, he, ?_, ?_⟩
  · obtain ⟨h1, h2⟩ := h 0 (by decide) (by decide) (by decide)
    simp only [Nat.add_zero, Nat.reduceLT, if_true, hfile] at h1 h2
    exact ⟨h1, h2⟩
  · obtain ⟨h1, h2⟩ := h 1 (by decide) (by decide) (by decide)
    simp only [Nat.reduceAdd, Nat.reduceLT, if_false, htail] at h1 h2
    exact ⟨h1, h2⟩

/-- Nothing clears the tail of a segment, and one page is mapped. -/
theorem image_run : ∃ m₁ m', startPaging 0x3F0000 demoImage = .ok m₁ ∧
    loadElf 0x3F0000 0 0x3F1000 m₁ 0x400000 0x300000 = .ok (0x400000, m') ∧
    WellFormed demoFile 0xC0 ∧
    (1 < phnum demoFile ∧ (phdr demoFile 0).isLoad ∧ (phdr demoFile 1).isLoad) ∧
    ((phdr demoFile 0).filesz ≤ 1 ∧ 1 < (phdr demoFile 0).memsz ∧
      L2.Paging.Pml4.get m' 0x100000 (adr ((phdr demoFile 0).vaddr + 1)) = some (adr 0x400001) ∧
      m' (adr 0x400001) ≠ 0) ∧
    0 < (phdr demoFile 1).memsz ∧
      L2.Paging.Pml4.get m' 0x100000 (adr (phdr demoFile 1).vaddr) = none := by
  have h : (match startPaging 0x3F0000 demoImage with
      | .ok m₁ =>
        match loadElf 0x3F0000 0 0x3F1000 m₁ 0x400000 0x300000 with
        | .ok (e, m') => e == 0x400000 &&
          L2.Paging.Pml4.get m' 0x100000 (adr 0x400001) == some (adr 0x400001) &&
          m' (adr 0x400001) != 0 && L2.Paging.Pml4.get m' 0x100000 (adr 0x800000) == none
        | .error _ => false
      | .error _ => false) = true := by decide +kernel
  split at h
  · rename_i m₁ h₁
    split at h
    · rename_i e m' h'
      simp only [Bool.and_eq_true, beq_iff_eq, bne_iff_ne] at h
      obtain ⟨⟨⟨rfl, hget⟩, hbyte⟩, hnone⟩ := h
      obtain ⟨hn, -, -, h0, h1⟩ := demo_headers
      refine ⟨m₁, m', h₁, h', demo_wellFormed, ?_, ?_, ?_⟩
      · rw [hn, h0, h1]; decide
      · rw [h0]; exact ⟨by decide, by decide, hget, hbyte⟩
      · rw [h1]; exact ⟨by decide, hnone⟩
    · cases h
  · cases h

end X64k.L3.Loader
