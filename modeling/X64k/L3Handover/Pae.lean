import X64k.L3Handover.LoaderTables

/-!
# Paging in the loader (`src/loader/mem/pmpae.cpp`)

While it copies the kernel, the loader itself runs with PAE paging: its own
tables map the first 4 MiB to themselves and, for one segment at a time, a
2 MiB window at 0x400000 to the place the segment goes to. An access is
translated byte by byte through the tables in memory; what is not mapped is a
page fault, which the loader has no handler for.

The tables and the loader's data lie in the first 4 MiB, so accesses to them
are not translated here.

* `Paged`: the tables, by what the window's entry is.
* `translate_low`, `translate_high`: all of the address space.
* `map_window`, `unmap_window`: the window opens and closes.
* `memcpy_copied`: a copy into the window that does not fault.
* `startPaging_paged`: what `loader_main` sets up.
-/
namespace X64k.L3.Loader

open X64k.Core
open X64k.L2.Paging (entry nx Apart Tabs)

/-! ## Model -/

namespace Pdpt

/-- The constructor. mirrors src/loader/mem/pmpae.cpp:5-8 -/
def init (m : Mem) (self : Ptr) : Mem := m.fill self.addr 32 0

/-- mirrors src/loader/mem/pmpae.cpp:17-18 -/
def pdptIndex (vaddr : Word) : Ptr := (vaddr >>> 34).setWidth 32

/-- mirrors src/loader/mem/pmpae.cpp:14-32 -/
def map (tr : Ptr) (m : Mem) (self : Ptr) (vaddr paddr : Word) (flags : BitVec 32) : Res Mem :=
  let pdpti := pdptIndex vaddr
  let pdi := pdIndex vaddr
  if entryAt m self pdpti &&& 1 ≠ 0 then
    .ok (setEntryAt m (tableOf (entryAt m self pdpti)) pdi (paddr ||| flags.setWidth 64 ||| 0x81))
  else do
    let (pd, m) ← alloc tr m
    assert (pd ≠ 0xFFFFFFFF) "addr != 0xFFFFFFFF"
    let m := setEntryAt m pd pdi (paddr ||| flags.setWidth 64 ||| 0x81)
    .ok (setEntryAt m self pdpti (pd.setWidth 64 ||| 1))

/-- mirrors src/loader/mem/pmpae.cpp:34-42 -/
def unmap (m : Mem) (self : Ptr) (vaddr : Word) : Mem :=
  let pdpti := pdptIndex vaddr
  let pdi := pdIndex vaddr
  if entryAt m self pdpti &&& 1 ≠ 0 then
    setEntryAt m (tableOf (entryAt m self pdpti)) pdi 0
  else m

end Pdpt

/-- `pm::set`, without the load of `%cr3`. mirrors src/loader/mem/pm.hpp:18-23 -/
def apply (self : Ptr) : Res Unit := assert (inRegion self) "paging_region.contains(addr)"

/-- The set-up in `loader_main`. mirrors src/loader/loader.cpp:121-130 -/
def startPaging (tr : Ptr) (m : Mem) : Res Mem := do
  let m := setAlloc tr m 0x100000
  let m := Pdpt.init m 0x100000
  let m ← Pdpt.map tr m 0x100000 0 0 0x80
  let m ← Pdpt.map tr m 0x100000 0x200000 0x200000 0x80
  apply 0x100000
  .ok m

/-! ## Memory accesses -/

/-- The frame of a present entry for a 2 MiB page. The loader writes no others. -/
def bigPage (e : Word) : Option Word :=
  if e &&& 0x81 = 0x81 then some (e &&& ~~~(0x1FFFFF : Word)) else none

/-- The physical address that the tables at `cr3` give for `va`. -/
def translate (m : Mem) (cr3 va : Ptr) : Option Word :=
  let pdpte := entryAt m cr3 (va >>> 30)
  if pdpte &&& 1 ≠ 0 then
    (bigPage (entryAt m (tableOf pdpte) ((va >>> 21) &&& 0x1FF))).map (· + (va &&& 0x1FFFFF).addr)
  else none

def pageFault : Fault := .panic "page fault"

def loadByte (m : Mem) (cr3 va : Ptr) : Res Byte :=
  match translate m cr3 va with
  | some p => .ok (m p)
  | none => .error pageFault

def storeByte (m : Mem) (cr3 va : Ptr) (b : Byte) : Res Mem :=
  match translate m cr3 va with
  | some p => .ok (m.fill p 1 b)
  | none => .error pageFault

/-- The number in the `n` bytes from `va` on. -/
def loadBytes (m : Mem) (cr3 : Ptr) : Nat → Ptr → Res Nat
  | 0, _ => .ok 0
  | n + 1, va => do
    let b ← loadByte m cr3 va
    let v ← loadBytes m cr3 n (va + 1)
    .ok (b.toNat + 256 * v)

/-- mirrors src/loader/algo/memory.cpp:11-17 -/
def memcpy (cr3 : Ptr) : Nat → Mem → Ptr → Ptr → Res Mem
  | 0, m, _, _ => .ok m
  | n + 1, m, dst, src => do
    let b ← loadByte m cr3 src
    let m ← storeByte m cr3 dst b
    memcpy cr3 n m (dst + 1) (src + 1)

/-! ## The tables -/

/-- The first 4 MiB are mapped to themselves; `w` is where the window is
mapped to. -/
structure Paged (q : Nat) (w : Option Word) (m : Mem) : Prop where
  lt : q < 256
  ne : q ≠ 0
  pdpt : nx (entry m (page 0).addr 0) = some (page q).addr
  rest : ∀ i : Fin 512, i ≠ 0 → i.val < 4 → nx (entry m (page 0).addr i) = none
  pd : ∀ i : Fin 512, bigPage (entry m (page q).addr i) =
    if i.val = 0 then some 0 else if i.val = 1 then some 0x200000 else if i.val = 2 then w else none

theorem bigPage_leaf {p : Word} (hp : p &&& 0x1FFFFF = 0) :
    bigPage (p ||| 0x80 ||| 0x81) = some p := by
  have h1 : (p ||| 0x80 ||| 0x81) &&& 0x81 = 0x81 := by
    apply BitVec.eq_of_getLsbD_eq
    intro i _
    simp only [BitVec.getLsbD_and, BitVec.getLsbD_or]
    cases (0x81 : Word).getLsbD i <;> simp
  have h2 := L2.Paging.or_and_not_mask (t := p) (f := 0x81) (k := 0x1FFFFF) hp (by decide)
  rw [bigPage, if_pos h1, BitVec.or_assoc]
  exact congrArg some h2

theorem bigPage_zero : bigPage 0 = none := by decide

section Translate
variable {q : Nat} {w : Option Word} {m : Mem} {va : Ptr}

theorem pdpte_index (va : Ptr) : va >>> 30 = BitVec.ofNat 32 (va.toNat / 2 ^ 30) := by
  apply BitVec.eq_of_toNat_eq
  have := va.isLt
  rw [BitVec.toNat_ushiftRight, Nat.shiftRight_eq_div_pow, BitVec.toNat_ofNat]
  omega

theorem pde_index (va : Ptr) :
    (va >>> 21) &&& 0x1FF = BitVec.ofNat 32 (va.toNat / 2 ^ 21 % 512) := by
  have h : (0x1FF : Ptr).toNat = 2 ^ 9 - 1 := rfl
  apply BitVec.eq_of_toNat_eq
  rw [Bits.toNat_field h, BitVec.toNat_ofNat]
  omega

theorem offset_toNat (va : Ptr) : (va &&& 0x1FFFFF).addr.toNat = va.toNat % 2 ^ 21 := by
  have h : (0x1FFFFF : Ptr).toNat = 2 ^ 21 - 1 := rfl
  rw [addr_toNat, Bits.toNat_and_low h]

/-- The whole address space: two pages, the window, and nothing else. -/
theorem Paged.translate_eq (h : Paged q w m) (va : Ptr) : translate m (page 0) va =
    (if va.toNat / 2 ^ 21 = 0 then some 0 else if va.toNat / 2 ^ 21 = 1 then some 0x200000
      else if va.toNat / 2 ^ 21 = 2 then w else none).map (· + (va &&& 0x1FFFFF).addr) := by
  have hlt := va.isLt
  have hi : va.toNat / 2 ^ 30 < 512 := by omega
  have hload : entryAt m (page 0) (va >>> 30) = entry m (page 0).addr ⟨va.toNat / 2 ^ 30, hi⟩ := by
    rw [pdpte_index]
    exact entryAt_page m (by decide) ⟨va.toNat / 2 ^ 30, hi⟩
  unfold translate
  dsimp only
  rw [hload]
  by_cases hge : 2 ^ 30 ≤ va.toNat
  · have hne : (⟨va.toNat / 2 ^ 30, hi⟩ : Fin 512) ≠ 0 := by
      rw [ne_eq, Fin.ext_iff]
      show ¬ va.toNat / 2 ^ 30 = 0
      omega
    have hnone := h.rest _ hne (by show va.toNat / 2 ^ 30 < 4; omega)
    rw [if_neg (present_one.not.mpr (L2.Paging.nx_eq_none.mp hnone)), if_neg (by omega),
      if_neg (by omega), if_neg (by omega)]
    rfl
  · have h0 : (⟨va.toNat / 2 ^ 30, hi⟩ : Fin 512) = 0 := by
      rw [Fin.ext_iff]
      show va.toNat / 2 ^ 30 = 0
      omega
    have hmod : va.toNat / 2 ^ 21 % 512 = va.toNat / 2 ^ 21 := by omega
    rw [h0, if_pos (present_one.mpr (L2.Paging.present_of_nx h.pdpt).1), tableOf_page h.pdpt,
      pde_index, entryAt_page m h.lt ⟨va.toNat / 2 ^ 21 % 512, Nat.mod_lt _ (by decide)⟩, h.pd]
    simp only [hmod]

theorem Paged.translate_low (h : Paged q w m) (hva : va.toNat < 0x400000) :
    translate m (page 0) va = some va.addr := by
  have hoff := offset_toNat va
  have hadr := addr_toNat va
  rw [h.translate_eq]
  by_cases h0 : va.toNat / 2 ^ 21 = 0
  · rw [if_pos h0, Option.map_some]
    refine congrArg some (BitVec.eq_of_toNat_eq ?_)
    rw [BitVec.toNat_add, hoff, hadr]
    show (0 + _) % _ = _
    omega
  · rw [if_neg h0, if_pos (by omega), Option.map_some]
    refine congrArg some (BitVec.eq_of_toNat_eq ?_)
    rw [BitVec.toNat_add, hoff, hadr]
    show (0x200000 + _) % _ = _
    omega

/-- Above 4 MiB there is the window only. -/
theorem Paged.translate_high (h : Paged q w m) (hva : 0x400000 ≤ va.toNat) :
    translate m (page 0) va = if va.toNat < 0x600000 then w.map (· + adr (va.toNat - 0x400000))
      else none := by
  have hoff := offset_toNat va
  rw [h.translate_eq, if_neg (by omega), if_neg (by omega)]
  by_cases hw : va.toNat < 0x600000
  · rw [if_pos (by omega), if_pos hw]
    have hadr : (va &&& 0x1FFFFF).addr = adr (va.toNat - 0x400000) := by
      apply BitVec.eq_of_toNat_eq
      rw [hoff, adr_toNat (by omega)]
      omega
    rw [hadr]
  · rw [if_neg (by omega), if_neg hw]
    rfl

end Translate

/-! ## Changes of the tables -/

section Tables
variable {tr : Ptr} {q : Nat} {w : Option Word} {m m' : Mem}

/-- Writes outside the paging region leave the tables. -/
theorem Paged.transport (h : Paged q w m) (hag : Mem.EqOn m m' 0x100000 0x200000) : Paged q w m' := by
  have hrow : ∀ n < 256, ∀ i, entry m' (page n).addr i = entry m (page n).addr i := by
    intro n hn i
    have h1 := page_addr_toNat hn
    have hi := i.isLt
    exact hag.load64 (by omega) (by omega)
  refine ⟨h.lt, h.ne, ?_, fun i h0 h4 => ?_, fun i => ?_⟩
  · rw [hrow 0 (by decide)]
    exact h.pdpt
  · rw [hrow 0 (by decide)]
    exact h.rest i h0 h4
  · rw [hrow q h.lt]
    exact h.pd i

/-- One entry of a table is replaced. -/
theorem entry_setEntryAt {n k : Nat} (hn : n < 256) (hk : k < 256) (i j : Fin 512) (e : Word) :
    entry (setEntryAt m (page n) (BitVec.ofNat 32 i) e) (page k).addr j =
      if k = n ∧ j = i then e else entry m (page k).addr j := by
  have h1 := page_addr_toNat hn
  have h2 := page_addr_toNat hk
  have hi := i.isLt
  have hj := j.isLt
  rw [setEntryAt_page m hn, entry, entry]
  by_cases he : k = n ∧ j = i
  · obtain ⟨rfl, rfl⟩ := he
    rw [if_pos ⟨rfl, rfl⟩, Mem.load64_store64]
  · rw [if_neg he]
    have hne : k ≠ n ∨ j.val ≠ i.val := by
      rw [not_and_or, Fin.ext_iff] at he
      exact he
    exact Mem.load64_store64_ne m e (by omega) (by omega) (by omega)

/-- `map` and `unmap` use the first entry for every address. -/
theorem pdptIndex_zero {v : Word} (hv : v.toNat < 2 ^ 32) :
    Pdpt.pdptIndex v = BitVec.ofNat 32 0 := by
  apply BitVec.eq_of_toNat_eq
  rw [Pdpt.pdptIndex, BitVec.toNat_setWidth, BitVec.toNat_ushiftRight, Nat.shiftRight_eq_div_pow,
    BitVec.toNat_ofNat]
  omega

theorem pdpt_entry (m : Mem) {v : Word} (hv : v.toNat < 2 ^ 30) :
    entryAt m (page 0) (Pdpt.pdptIndex v) = entry m (page 0).addr 0 := by
  rw [pdptIndex_zero (by omega)]
  exact entryAt_page m (by decide) 0

/-- `map` where there is a page directory. -/
theorem pdptMap_present (h : nx (entry m (page 0).addr 0) = some (page q).addr) {v : Word}
    (hv : v.toNat < 2 ^ 30) (p : Word) (flags : BitVec 32) :
    Pdpt.map tr m (page 0) v p flags = .ok (setEntryAt m (page q)
      (BitVec.ofNat 32 (L2.Paging.pdIx v)) (p ||| flags.setWidth 64 ||| 0x81)) := by
  unfold Pdpt.map
  dsimp only
  rw [pdpt_entry m hv, if_pos (present_one.mpr (L2.Paging.present_of_nx h).1), tableOf_page h,
    pdIndex_eq]

/-- The window's entry is replaced. -/
theorem Paged.set_window (h : Paged q w m) {e : Word} {w' : Option Word} (he : bigPage e = w') :
    Paged q w' (setEntryAt m (page q) (BitVec.ofNat 32 (L2.Paging.pdIx 0x400000)) e) := by
  have hix : L2.Paging.pdIx 0x400000 = 2 := by decide
  refine ⟨h.lt, h.ne, ?_, fun i h0 h4 => ?_, fun i => ?_⟩
  · rw [entry_setEntryAt h.lt (by decide), if_neg fun he => h.ne he.1.symm]
    exact h.pdpt
  · rw [entry_setEntryAt h.lt (by decide), if_neg fun he => h.ne he.1.symm]
    exact h.rest i h0 h4
  · rw [entry_setEntryAt h.lt h.lt, hix]
    by_cases hi : i = 2
    · rw [if_pos ⟨rfl, hi⟩, hi]
      exact he
    · have hiv : i.val ≠ 2 := fun he => hi (Fin.ext he)
      rw [if_neg fun he => hi he.2, h.pd i, if_neg hiv, if_neg hiv]

/-- The window is mapped to the frame at `p`. -/
theorem Paged.map_window (h : Paged q w m) (tr : Ptr) {p : Word}
    (hp : p &&& 0x1FFFFF = 0) :
    ∃ m', Pdpt.map tr m (page 0) 0x400000 p 0x80 = .ok m' ∧ Paged q (some p) m' ∧ OffRegion m m' :=
  ⟨_, pdptMap_present h.pdpt (by decide) p 0x80, h.set_window (bigPage_leaf hp),
    offRegion_setEntryAt m h.lt _ _⟩

/-- The window is closed. -/
theorem Paged.unmap_window (h : Paged q w m) :
    Paged q none (Pdpt.unmap m (page 0) 0x400000) ∧ OffRegion m (Pdpt.unmap m (page 0) 0x400000) := by
  have heq : Pdpt.unmap m (page 0) 0x400000 =
      setEntryAt m (page q) (BitVec.ofNat 32 (L2.Paging.pdIx 0x400000)) 0 := by
    unfold Pdpt.unmap
    dsimp only
    rw [pdpt_entry m (by decide), if_pos (present_one.mpr (L2.Paging.present_of_nx h.pdpt).1),
      tableOf_page h.pdpt, pdIndex_eq]
  rw [heq]
  exact ⟨h.set_window bigPage_zero, offRegion_setEntryAt m h.lt _ _⟩

end Tables

/-! ## Copies -/

theorem ptr_add_toNat {a : Ptr} {k : Nat} (h : a.toNat + k < 2 ^ 32) :
    (a + BitVec.ofNat 32 k).toNat = a.toNat + k := by
  rw [BitVec.toNat_add, BitVec.toNat_ofNat, Nat.mod_eq_of_lt (show k < 2 ^ 32 by omega),
    Nat.mod_eq_of_lt h]

/-- `m'` is `m` with the `n` bytes from `a` on copied to `d`. -/
structure Copied (m m' : Mem) (d a n : Nat) : Prop where
  bytes : ∀ k < n, m' (adr (d + k)) = m (adr (a + k))
  rest : ∀ y < 2 ^ 64, y < d ∨ d + n ≤ y → m' (adr y) = m (adr y)

theorem Paged.loadByte_eq {q : Nat} {w : Option Word} {m : Mem} (h : Paged q w m) {va : Ptr}
    (hva : va.toNat < 0x400000) : loadByte m (page 0) va = .ok (m (adr va.toNat)) := by
  have hadr : va.addr = adr va.toNat := by rw [← addr_toNat va, adr_of_toNat]
  rw [loadByte, h.translate_low hva, hadr]

section Copy
variable {q : Nat} {P : Word}

/-- A store into the window. -/
theorem Paged.storeByte_eq {m m' : Mem} (h : Paged q (some P) m) (hP : P.toNat + 0x200000 ≤ 2 ^ 64)
    {va : Ptr} (hva : 0x400000 ≤ va.toNat) {b : Byte} (hs : storeByte m (page 0) va b = .ok m') :
    va.toNat < 0x600000 ∧ m' = m.fill (adr (P.toNat + (va.toNat - 0x400000))) 1 b := by
  rw [storeByte, h.translate_high hva] at hs
  by_cases hlt : va.toNat < 0x600000
  · have hadr : P + adr (va.toNat - 0x400000) = adr (P.toNat + (va.toNat - 0x400000)) := by
      apply BitVec.eq_of_toNat_eq
      rw [BitVec.toNat_add, adr_toNat (by omega), adr_toNat (by omega), Nat.mod_eq_of_lt (by omega)]
    rw [if_pos hlt, Option.map_some, hadr] at hs
    exact ⟨hlt, (Except.ok.inj hs).symm⟩
  · rw [if_neg hlt] at hs
    cases hs

/-- A copy from below 4 MiB through the window to a frame above: it stays in
the window, and the tables stay. -/
theorem Paged.memcpy_copied (hP1 : 0x400000 ≤ P.toNat) (hP2 : P.toNat + 0x200000 ≤ 2 ^ 64) :
    ∀ (n : Nat) {m m' : Mem} {dst src : Ptr}, Paged q (some P) m →
      memcpy (page 0) n m dst src = .ok m' → 0x400000 ≤ dst.toNat → src.toNat + n ≤ 0x400000 →
      (n = 0 ∨ dst.toNat + n ≤ 0x600000) ∧ Paged q (some P) m' ∧
        Copied m m' (P.toNat + (dst.toNat - 0x400000)) src.toNat n
  | 0, m, m', dst, src, h, he, _, _ => by
    cases he
    exact ⟨.inl rfl, h, nofun, fun _ _ _ => rfl⟩
  | n + 1, m, m', dst, src, h, he, hdst, hsrc => by
    unfold memcpy at he
    rw [h.loadByte_eq (by omega), Res.ok_bind] at he
    obtain ⟨m₁, hs, he⟩ := Res.bind_eq_ok.mp he
    obtain ⟨hlt, rfl⟩ := h.storeByte_eq hP2 hdst hs
    generalize hto : P.toNat + (dst.toNat - 0x400000) = d at *
    have hfill : ∀ lo hi, d + 1 ≤ lo ∨ hi ≤ d → hi ≤ 2 ^ 64 →
        Mem.EqOn m (m.fill (adr d) 1 (m (adr src.toNat))) lo hi :=
      fun lo hi h1 h2 => Mem.EqOn.fill m _ h1 (by omega) (by omega) h2
    have h₁ := h.transport (hfill 0x100000 0x200000 (by omega) (by omega))
    have hd1 : (dst + 1).toNat = dst.toNat + 1 := ptr_add_toNat (k := 1) (by omega)
    have hs1 : (src + 1).toNat = src.toNat + 1 := ptr_add_toNat (k := 1) (by omega)
    obtain ⟨hin, h', hc⟩ := Paged.memcpy_copied hP1 hP2 n h₁ he (by omega) (by omega)
    rw [hd1] at hin
    have hd : P.toNat + ((dst + 1).toNat - 0x400000) = d + 1 := by
      rw [hd1, ← hto]
      exact (congrArg (P.toNat + ·) (Nat.sub_add_comm hdst)).trans (Nat.add_assoc ..).symm
    rw [hd, hs1] at hc
    refine ⟨.inr (by omega), h', fun k hk => ?_, fun y hy hd => ?_⟩
    · cases k with
      | zero =>
        rw [hc.rest _ (by omega) (.inl (by omega))]
        exact Mem.fill_at (by rw [Nat.add_zero]; simp)
      | succ k =>
        rw [show d + (k + 1) = d + 1 + k by omega, hc.bytes k (by omega),
          show src.toNat + (k + 1) = src.toNat + 1 + k by omega]
        exact hfill 0 0x400000 (by omega) (by omega) _ (by omega) (by omega)
    · rw [hc.rest y hy (by omega)]
      exact hfill y (y + 1) (by omega) (by omega) y (Nat.le_refl _) (by omega)

end Copy

/-! ## The set-up -/

section Start
variable {tr : Ptr} {m m' : Mem}

theorem tracked_frame (hag : Mem.EqOn m m' tr.toNat (tr.toNat + 32)) {n : Nat} (hn : n < 256) :
    tracked tr m' n = tracked tr m n := by
  unfold tracked
  rw [hag.load32 (by omega) (by omega)]

theorem OffRegion.tracked (hL : Layout tr) (h : OffRegion m m') {n : Nat} (hn : n < 256) :
    tracked tr m' n = tracked tr m n := by
  have h1 := hL.bound
  have h2 := hL.apart
  exact tracked_frame (h tr.toNat (tr.toNat + 32) (by omega) (by omega)) hn

/-- `map` where there is no page directory yet. -/
theorem pdptMap_alloc (hL : Layout tr) (h0 : tracked tr m 0 = true)
    (hnone : nx (entry m (page 0).addr 0) = none) {p : Word} {flags : BitVec 32}
    (he : Pdpt.map tr m (page 0) 0 p flags = .ok m') :
    ∃ q < 256, q ≠ 0 ∧ Keeps tr m m' ∧ tracked tr m' 0 = true ∧
      nx (entry m' (page 0).addr 0) = some (page q).addr ∧
      (∀ i, i ≠ 0 → entry m' (page 0).addr i = entry m (page 0).addr i) ∧
      ∀ i, entry m' (page q).addr i = if i = 0 then p ||| flags.setWidth 64 ||| 0x81 else 0 := by
  have hix : pdIndex 0 = BitVec.ofNat 32 (0 : Fin 512) := by decide
  have hpx : Pdpt.pdptIndex 0 = BitVec.ofNat 32 (0 : Fin 512) := by decide
  unfold Pdpt.map at he
  dsimp only at he
  rw [pdpt_entry m (by decide), if_neg (present_one.not.mpr (L2.Paging.nx_eq_none.mp hnone))] at he
  obtain ⟨q, hq, hqt, m₁, -, hk, htrk, hrow, he⟩ := alloc_then hL (fun _ h => by cases h) he
  dsimp only at he
  rw [Res.assert_of (page_ne_fail hq), Res.ok_bind, hix, hpx] at he
  obtain rfl := Except.ok.inj he
  have hq0 : q ≠ 0 := by
    rintro rfl
    exact Bool.false_ne_true (hqt.symm.trans h0)
  refine ⟨q, hq, hq0, hk.trans ((keeps_setEntryAt tr m₁ hq 0 _).trans
    (keeps_setEntryAt tr _ (by decide) 0 _)), ?_, ?_, fun i hi => ?_, fun i => ?_⟩
  · rw [(offRegion_setEntryAt _ (by decide) 0 _).tracked hL (by decide),
      (offRegion_setEntryAt _ hq 0 _).tracked hL (by decide), htrk 0 (by decide), h0, ite_self]
  · rw [entry_setEntryAt (by decide) (by decide), if_pos ⟨rfl, rfl⟩]
    exact L2.Paging.nx_or (page_aligned hq) (by decide) (by decide)
  · rw [entry_setEntryAt (by decide) (by decide), if_neg fun h => hi h.2,
      entry_setEntryAt hq (by decide), if_neg fun h => hq0 h.1.symm, hrow 0 (by decide),
      if_neg (Ne.symm hq0)]
  · rw [entry_setEntryAt (by decide) hq, if_neg fun h => hq0 h.1, entry_setEntryAt hq hq,
      hrow q hq, if_pos rfl]
    simp only [true_and]

/-- `loader_main` maps the first 4 MiB to themselves. -/
theorem startPaging_paged (hL : Layout tr) (he : startPaging tr m = .ok m') :
    ∃ q, Paged q none m' ∧ tracked tr m' 0 = true ∧ Keeps tr m m' := by
  have hroot : (0x100000 : Ptr) = page 0 := by decide
  unfold startPaging at he
  rw [hroot] at he
  dsimp only at he
  have hk₁ := keeps_setAlloc hL m (n := 0) (by decide)
  have ht₁ : tracked tr (setAlloc tr m (page 0)) 0 = true :=
    ((shows_self tr m).setAlloc hL (n := 0) (by decide)).trk 0 (by decide)
  generalize setAlloc tr m (page 0) = m₁ at *
  have hinit : OffRegion m₁ (Pdpt.init m₁ (page 0)) :=
    offRegion_fill m₁ (by decide) (by decide) (by decide)
  have hzero : ∀ i : Fin 512, i.val < 4 → entry (Pdpt.init m₁ (page 0)) (page 0).addr i = 0 := by
    intro i hi
    have hf : Pdpt.init m₁ (page 0) = m₁.fill (adr (page 0).addr.toNat) 32 0#8 := by
      rw [adr_of_toNat]; rfl
    rw [hf]
    exact Mem.load64_fill_at m₁ (Nat.le_add_right _ _) (by omega)
  have ht₂ := (hinit.tracked hL (n := 0) (by decide)).trans ht₁
  generalize Pdpt.init m₁ (page 0) = m₂ at *
  obtain ⟨m₃, h₃, he⟩ := Res.bind_eq_ok.mp he
  obtain ⟨m₄, h₄, he⟩ := Res.bind_eq_ok.mp he
  obtain ⟨q, hq, hq0, hk₃, ht₃, hlink, hrest, hpd⟩ :=
    pdptMap_alloc hL ht₂ (by rw [hzero 0 (by decide), L2.Paging.nx_zero]) h₃
  rw [pdptMap_present hlink (by decide)] at h₄
  obtain rfl := Except.ok.inj h₄
  rw [apply, Res.assert_of (inRegion_page (by decide)), Res.ok_bind] at he
  obtain rfl := Except.ok.inj he
  have hix : L2.Paging.pdIx 0x200000 = 1 := by decide
  have hoff := offRegion_setEntryAt m₃ hq 1 (0x200000 ||| (0x80 : BitVec 32).setWidth 64 ||| 0x81)
  rw [hix]
  refine ⟨q, ⟨hq, hq0, ?_, fun i h0 h4 => ?_, fun i => ?_⟩, ?_, ?_⟩
  · rw [entry_setEntryAt hq (by decide), if_neg fun h => hq0 h.1.symm]
    exact hlink
  · rw [entry_setEntryAt hq (by decide), if_neg fun h => hq0 h.1.symm, hrest i h0, hzero i h4,
      L2.Paging.nx_zero]
  · rw [entry_setEntryAt hq hq, hpd i]
    by_cases hi1 : i = 1
    · rw [if_pos ⟨rfl, hi1⟩, hi1]
      decide
    · rw [if_neg fun h => hi1 h.2]
      by_cases hi0 : i = 0
      · rw [if_pos hi0, hi0]
        decide
      · have h0 : i.val ≠ 0 := fun h => hi0 (Fin.ext h)
        have h1 : i.val ≠ 1 := fun h => hi1 (Fin.ext h)
        rw [if_neg hi0, if_neg h0, if_neg h1, ite_self, bigPage_zero]
  · rw [hoff.tracked hL (by decide), ht₃]
  · exact hk₁.trans ((hinit.keeps tr).trans (hk₃.trans (hoff.keeps tr)))

end Start

end X64k.L3.Loader
