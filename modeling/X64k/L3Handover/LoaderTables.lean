import X64k.Core.LTS
import X64k.L2Paging.View
import X64k.L3Handover.Loader

/-!
# What the memory shows of the loader's tables

The loader's `map` and the kernel's `get` mask entries differently: 32-bit
pointers and `0xFFFFF000` on one side, `~0xFFF` on the other. Entries are
shared, so both are described by the same `nx` and `lf`.

* `tableOf_page`, `nx_pageLink`, `lf_leaf`: the loader's entries as both sides
  read them.
* `Shows`: what the memory shows of tables and tracker; `alloc_shows`: the
  page that `alloc` takes.
-/
namespace X64k.L3.Loader

open X64k.Core X64k.Core.Radix
open X64k.L2.Paging (entry nx lf Tabs TablesShow Spread Apart pml4Ix pdptIx pdIx isPresent)

/-! ## Pages -/

/-- Page `n` of the paging region. -/
def page (n : Nat) : Ptr := BitVec.ofNat 32 (0x100000 + 4096 * n)

/-- Page `n` is marked in the tracker. -/
def tracked (tr : Ptr) (m : Mem) (n : Nat) : Bool :=
  (m.load32 (adr (tr.toNat + 4 * (n / 32)))).getLsbD (n % 32)

/-- The pages of the region, as addresses of tables. -/
def pages : Set Word := {t | ∃ n < 256, t = (page n).addr}

/-- `m_dataTracker` is in the address space and outside the region. -/
structure Layout (tr : Ptr) : Prop where
  bound : tr.toNat + 32 ≤ 2 ^ 32
  apart : Apart tr.toNat 32 0x100000 0x100000

section
variable {n k : Nat}

theorem addr_toNat (p : Ptr) : p.addr.toNat = p.toNat := by
  have := p.isLt
  rw [Ptr.addr, BitVec.toNat_setWidth]
  omega

theorem page_toNat (hn : n < 256) : (page n).toNat = 0x100000 + 4096 * n := by
  rw [page, BitVec.toNat_ofNat]
  omega

theorem page_addr_toNat (hn : n < 256) : (page n).addr.toNat = 0x100000 + 4096 * n := by
  rw [addr_toNat, page_toNat hn]

theorem page_addr_inj (hn : n < 256) (hk : k < 256) :
    (page n).addr = (page k).addr ↔ n = k := by
  constructor
  · intro h
    have := congrArg BitVec.toNat h
    rw [page_addr_toNat hn, page_addr_toNat hk] at this
    omega
  · rintro rfl; rfl

theorem page_mem (hn : n < 256) : (page n).addr ∈ pages := ⟨n, hn, rfl⟩

theorem page_aligned (hn : n < 256) : (page n).addr &&& 0xFFF = 0 := by
  refine L2.Paging.low_iff.mpr ?_
  rw [page_addr_toNat hn]
  omega

theorem spread : Spread pages := by
  refine ⟨?_, ?_⟩
  · rintro t ⟨n, hn, rfl⟩
    have := page_addr_toNat hn
    omega
  · rintro t ⟨n, hn, rfl⟩ t' ⟨k, hk, rfl⟩ hne
    have h1 := page_addr_toNat hn
    have h2 := page_addr_toNat hk
    have : n ≠ k := fun he => hne (by rw [he])
    omega

/-! ## Pointers to entries and tracker words -/

theorem entry_addr (hn : n < 256) (i : Fin 512) :
    (page n + BitVec.ofNat 32 i * 8).addr = adr ((page n).addr.toNat + 8 * i) := by
  have h1 := page_toNat hn
  have h2 : (8 : Ptr).toNat = 8 := rfl
  have hi := i.isLt
  apply BitVec.eq_of_toNat_eq
  rw [addr_toNat, addr_toNat, adr_toNat (by omega), BitVec.toNat_add, BitVec.toNat_mul,
    BitVec.toNat_ofNat, h1, h2]
  omega

theorem entryAt_page (m : Mem) (hn : n < 256) (i : Fin 512) :
    entryAt m (page n) (BitVec.ofNat 32 i) = entry m (page n).addr i :=
  congrArg m.load64 (entry_addr hn i)

theorem setEntryAt_page (m : Mem) (hn : n < 256) (i : Fin 512) (e : Word) :
    setEntryAt m (page n) (BitVec.ofNat 32 i) e =
      m.store64 (adr ((page n).addr.toNat + 8 * i)) e :=
  congrArg (m.store64 · e) (entry_addr hn i)

theorem page_sub (hn : n < 256) : (page n - regionStart).toNat = 4096 * n := by
  have h1 := page_toNat hn
  have h2 : regionStart.toNat = 0x100000 := rfl
  rw [BitVec.toNat_sub, h1, h2]
  omega

theorem trackerIndex_page (hn : n < 256) : trackerIndex (page n) = BitVec.ofNat 32 (n / 32) := by
  apply BitVec.eq_of_toNat_eq
  rw [trackerIndex, BitVec.toNat_ushiftRight, page_sub hn, Nat.shiftRight_eq_div_pow,
    BitVec.toNat_ofNat]
  omega

theorem trackerBit_page (hn : n < 256) : trackerBit (page n) = (1#32) <<< (n % 32) := by
  have h2 : (0x1F : Ptr).toNat = 2 ^ 5 - 1 := rfl
  have h3 : 4096 * n / 2 ^ 12 % 2 ^ 5 = n % 32 := by omega
  rw [trackerBit, Bits.toNat_field h2, page_sub hn, h3]
  rfl

theorem tracker_addr {tr : Ptr} (hL : Layout tr) {q : Nat} (hq : q < 8) :
    (tr + BitVec.ofNat 32 q * 4).addr = adr (tr.toNat + 4 * q) := by
  have h1 := hL.bound
  have h2 : (4 : Ptr).toNat = 4 := rfl
  apply BitVec.eq_of_toNat_eq
  rw [addr_toNat, adr_toNat (by omega), BitVec.toNat_add, BitVec.toNat_mul, BitVec.toNat_ofNat, h2]
  omega

theorem inRegion_page (hn : n < 256) : inRegion (page n) := by
  have h1 := page_toNat hn
  have h2 : regionStart.toNat = 0x100000 := rfl
  have h3 : regionEnd.toNat = 0x200000 := rfl
  rw [inRegion, BitVec.le_def, BitVec.le_def]
  omega

theorem page_low (hn : n < 256) : page n &&& 0xFFF = 0 := by
  have h1 := page_toNat hn
  have h2 : (0xFFF : Ptr).toNat = 2 ^ 12 - 1 := rfl
  apply BitVec.eq_of_toNat_eq
  rw [Bits.toNat_and_low h2, h1]
  show _ = 0
  omega

theorem page_lt_end (hn : n ≤ 256) : page n < regionEnd ↔ n < 256 := by
  have h : regionEnd.toNat = 0x200000 := rfl
  rw [BitVec.lt_def, page, BitVec.toNat_ofNat, h]
  omega

theorem page_succ : page n + 0x1000 = page (n + 1) := by
  rw [page, show (0x1000 : Ptr) = BitVec.ofNat 32 4096 from rfl, ← BitVec.ofNat_add]
  exact congrArg (BitVec.ofNat 32) (by omega)

theorem page_ne_fail (hn : n < 256) : page n ≠ 0xFFFFFFFF := by
  intro h
  have h1 := page_toNat hn
  have h2 : (0xFFFFFFFF : Ptr).toNat = 0xFFFFFFFF := rfl
  rw [h, h2] at h1
  omega

end

/-! ## Entries as the loader reads and writes them -/

theorem present_one {e : Word} : e &&& 1 ≠ 0 ↔ isPresent e := Iff.rfl

theorem present_low {e : Word} : e.setWidth 32 &&& (1 : BitVec 32) ≠ 0 ↔ isPresent e := by
  have h : (1 : BitVec 32) = (1#32) <<< 0 := rfl
  rw [L2.Paging.isPresent_iff, ne_eq, h, show (0 : BitVec 32) = 0#32 from rfl,
    Bits.and_bit_eq_zero (by decide), BitVec.getLsbD_setWidth]
  simp

/-- Both sides find the same table in an entry. -/
theorem tableOf_eq (e : Word) : tableOf e = (L2.Paging.tableOf e).setWidth 32 := by
  rw [tableOf, L2.Paging.tableOf, BitVec.setWidth_and, BitVec.setWidth_and]
  rfl

theorem tableOf_page {e : Word} {n : Nat} (h : nx e = some (page n).addr) : tableOf e = page n := by
  obtain ⟨-, ht⟩ := L2.Paging.present_of_nx h
  rw [tableOf_eq, ht, Ptr.addr, BitVec.setWidth_setWidth_of_le _ (by decide), BitVec.setWidth_eq]

theorem nx_pageLink {n : Nat} (hn : n < 256) :
    nx ((page n ||| 1).setWidth 64) = some (page n).addr := by
  rw [BitVec.setWidth_or]
  exact L2.Paging.nx_or (page_aligned hn) (by decide) (by decide)

/-- The flags of a page, as both branches of `map` store them. -/
def leafFlags (flags : BitVec 32) : Word := (flags ||| 0x81).setWidth 64

theorem leafFlags_eq (p : Word) (flags : BitVec 32) :
    p ||| flags.setWidth 64 ||| 0x81 = p ||| leafFlags flags := by
  rw [leafFlags, BitVec.setWidth_or, BitVec.or_assoc]
  rfl

/-- The frame of the entry that `map` stores. -/
theorem lf_leaf {p : Word} {flags : BitVec 32} (hp : p &&& 0x1FFFFF = 0)
    (hf : flags.toNat < 2 ^ 12) : lf (p ||| leafFlags flags) = some p := by
  refine L2.Paging.lf_or hp ?_ ?_
  · have h1 : (leafFlags flags).toNat < 2 ^ 12 := by
      have h2 : (0x81 : BitVec 32).toNat < 2 ^ 12 := by decide
      have h3 := Nat.or_lt_two_pow hf h2
      rw [leafFlags, BitVec.toNat_setWidth, BitVec.toNat_or]
      exact Nat.lt_of_le_of_lt (Nat.mod_le _ _) h3
    apply BitVec.eq_of_toNat_eq
    have := L2.Paging.toNat_pageBase (leafFlags flags)
    rw [this]
    show _ = 0
    omega
  · rw [leafFlags, BitVec.setWidth_or]
    exact L2.Paging.isPresent_or (by decide)

theorem pml4Index_eq {v : Word} (hv : v.toNat < 2 ^ 48) :
    pml4Index v = BitVec.ofNat 32 (pml4Ix v) := by
  apply BitVec.eq_of_toNat_eq
  rw [pml4Index, BitVec.toNat_setWidth, BitVec.toNat_ushiftRight, Nat.shiftRight_eq_div_pow, pml4Ix,
    BitVec.toNat_ofNat]
  show _ = v.toNat / 2 ^ 39 % 512 % _
  omega

theorem index_eq (v : Word) (k : Nat) : ((v >>> k) &&& 0x1FF).setWidth 32 =
    BitVec.ofNat 32 (v.toNat / 2 ^ k % 512) := by
  have h : (0x1FF : Word).toNat = 2 ^ 9 - 1 := rfl
  apply BitVec.eq_of_toNat_eq
  rw [BitVec.toNat_setWidth, Bits.toNat_field h, BitVec.toNat_ofNat]
  rfl

theorem pdpIndex_eq (v : Word) : pdpIndex v = BitVec.ofNat 32 (pdptIx v) := index_eq v 30

theorem pdIndex_eq (v : Word) : pdIndex v = BitVec.ofNat 32 (pdIx v) := index_eq v 21

/-! ## What the memory shows -/

/-- The memory shows `V` on the pages of the region. -/
structure Shows (tr : Ptr) (m : Mem) (V : Tabs) : Prop where
  E : TablesShow m pages V.E
  trk : ∀ n < 256, tracked tr m n = V.trk n

/-- What the memory itself shows. -/
theorem shows_self (tr : Ptr) (m : Mem) : Shows tr m ⟨entry m, tracked tr m, fun _ => 0⟩ :=
  ⟨fun _ _ _ => rfl, fun _ _ => rfl⟩

/-- Outside the region the memory is as before. -/
def OffRegion (m m' : Mem) : Prop := ∀ lo hi, hi ≤ 0x100000 ∨ 0x200000 ≤ lo → hi ≤ 2 ^ 64 →
  Mem.EqOn m m' lo hi

/-- Outside the region and the tracker the memory is as before. -/
def Keeps (tr : Ptr) (m m' : Mem) : Prop := ∀ lo hi, hi ≤ 0x100000 ∨ 0x200000 ≤ lo →
  hi ≤ tr.toNat ∨ tr.toNat + 32 ≤ lo → hi ≤ 2 ^ 64 → Mem.EqOn m m' lo hi

theorem Keeps.trans {tr : Ptr} {m m' m'' : Mem} (h : Keeps tr m m') (h' : Keeps tr m' m'') :
    Keeps tr m m'' :=
  fun lo hi h1 h2 h3 => (h lo hi h1 h2 h3).trans (h' lo hi h1 h2 h3)

theorem OffRegion.keeps {m m' : Mem} (h : OffRegion m m') (tr : Ptr) : Keeps tr m m' :=
  fun lo hi h1 _ h3 => h lo hi h1 h3

/-- The tracked pages. -/
def taken (V : Tabs) : Set Word := {t | ∃ n < 256, t = (page n).addr ∧ V.trk n = true}

/-- At most one page is left. -/
def Exhausted (V : Tabs) : Prop :=
  ∀ n < 256, ∀ k < 256, V.trk n = false → V.trk k = false → n = k

section Ops
variable {tr : Ptr} {m : Mem} {V : Tabs} {n : Nat}

theorem mem_taken (hn : n < 256) (ht : V.trk n = true) : (page n).addr ∈ taken V := ⟨n, hn, rfl, ht⟩

theorem not_mem_taken (hn : n < 256) (ht : V.trk n = false) : (page n).addr ∉ taken V := by
  rintro ⟨k, hk, he, hkt⟩
  rw [(page_addr_inj hn hk).mp he] at ht
  rw [ht] at hkt; cases hkt

/-- The tracker does not see a write to a table. -/
theorem Shows.of_table {m' : Mem} {E : Word → Fin 512 → Word} (hL : Layout tr) (h : Shows tr m V)
    (hag : ∀ lo hi, Apart 0x100000 0x100000 lo (hi - lo) → lo ≤ hi → hi ≤ 2 ^ 64 →
      Mem.EqOn m m' lo hi)
    (hE : TablesShow m' pages E) : Shows tr m' { V with E := E } := by
  have h1 := hL.bound
  have h2 := hL.apart
  refine ⟨hE, fun k hk => ?_⟩
  rw [← h.trk k hk]
  unfold tracked
  rw [(hag _ (tr.toNat + 4 * (k / 32) + 4) (by omega) (by omega) (by omega)).load32 (Nat.le_refl _)
    (Nat.le_refl _)]

theorem Shows.setEntryAt (hL : Layout tr) (h : Shows tr m V) (hn : n < 256) (i : Fin 512)
    (e : Word) : Shows tr (setEntryAt m (page n) (BitVec.ofNat 32 i) e)
      (V.setEntry (page n).addr i e) := by
  have h1 := page_addr_toNat hn
  have hi := i.isLt
  rw [setEntryAt_page m hn]
  refine h.of_table hL (fun lo hi h2 h3 h4 => ?_) (h.E.store spread (page_mem hn) i e)
  exact Mem.EqOn.store64 m e (by omega) (by omega) h4

theorem Shows.clearPage (hL : Layout tr) (h : Shows tr m V) (hn : n < 256) :
    Shows tr (m.fill (page n).addr 0x1000 0) (V.clearPage (page n).addr) := by
  have h1 := page_addr_toNat hn
  have hf : m.fill (page n).addr 0x1000 0 = m.fill (adr (page n).addr.toNat) 4096 0#8 := by
    rw [adr_of_toNat]; rfl
  rw [hf]
  refine h.of_table hL (fun lo hi h2 h3 h4 => ?_) (h.E.clear spread (page_mem hn))
  exact Mem.EqOn.fill m 0#8 (by omega) (by omega) (by omega) h4

theorem offRegion_setEntryAt (m : Mem) (hn : n < 256) (i : Fin 512) (e : Word) :
    OffRegion m (setEntryAt m (page n) (BitVec.ofNat 32 i) e) := by
  have h1 := page_addr_toNat hn
  have hi := i.isLt
  intro lo hi' h2 h4
  rw [setEntryAt_page m hn]
  exact Mem.EqOn.store64 m e (by omega) (by omega) h4

theorem offRegion_fill (m : Mem) (hn : n < 256) {k : Nat} (hk : k ≤ 0x1000) (hk0 : 0 < k) :
    OffRegion m (m.fill (page n).addr k 0#8) := by
  have h1 := page_addr_toNat hn
  have hf : m.fill (page n).addr k 0#8 = m.fill (adr (page n).addr.toNat) k 0#8 := by
    rw [adr_of_toNat]
  intro lo hi h2 h4
  rw [hf]
  exact Mem.EqOn.fill m 0#8 (by omega) (by omega) (by omega) h4

theorem keeps_setEntryAt (tr : Ptr) (m : Mem) (hn : n < 256) (i : Fin 512) (e : Word) :
    Keeps tr m (setEntryAt m (page n) (BitVec.ofNat 32 i) e) :=
  (offRegion_setEntryAt m hn i e).keeps tr

theorem keeps_clearPage (tr : Ptr) (m : Mem) (hn : n < 256) :
    Keeps tr m (m.fill (page n).addr 0x1000 0) :=
  (offRegion_fill m hn (Nat.le_refl _) (by decide)).keeps tr

theorem tracker_load (hL : Layout tr) (hn : n < 256) : dataTracker tr m (trackerIndex (page n)) =
    m.load32 (adr (tr.toNat + 4 * (n / 32))) := by
  rw [trackerIndex_page hn, dataTracker, tracker_addr hL (by omega)]

theorem Shows.setAlloc (hL : Layout tr) (h : Shows tr m V) (hn : n < 256) :
    Shows tr (setAlloc tr m (page n)) (V.track n true) := by
  have h1 := hL.bound
  have h2 := hL.apart
  rw [Loader.setAlloc, tracker_load hL hn, setDataTracker, trackerIndex_page hn,
    tracker_addr hL (by omega), trackerBit_page hn]
  refine ⟨h.E.frame ?_, fun k hk => ?_⟩
  · rintro t ⟨k, hk, rfl⟩
    have := page_addr_toNat hk
    exact Mem.EqOn.store32 m _ (by omega) (by omega) (by omega)
  · rw [Tabs.track_trk, ← h.trk k hk]
    unfold tracked
    by_cases hq : k / 32 = n / 32
    · rw [hq, Mem.load32_store32]
      refine (Bits.getLsbD_or_bit (Nat.mod_lt _ (by decide))).trans ?_
      by_cases hkn : k = n
      · rw [if_pos hkn, hkn, decide_eq_true rfl, Bool.true_or]
      · rw [if_neg hkn, decide_eq_false (by omega), Bool.false_or]
    · rw [if_neg (fun he => hq (by rw [he])),
        Mem.load32_store32_ne m _ (by omega) (by omega) (by omega)]

theorem keeps_setAlloc (hL : Layout tr) (m : Mem) (hn : n < 256) :
    Keeps tr m (Loader.setAlloc tr m (page n)) := by
  have h1 := hL.bound
  intro lo hi _ h3 h4
  rw [Loader.setAlloc, setDataTracker, trackerIndex_page hn, tracker_addr hL (by omega)]
  exact Mem.EqOn.store32 m _ (by omega) (by omega) h4

theorem isFree_page (hL : Layout tr) (h : Shows tr m V) (hn : n < 256) :
    isFree tr m (page n) = .ok (!V.trk n) := by
  rw [isFree, Res.assert_of (inRegion_page hn), Res.ok_bind, Res.assert_of (page_low hn),
    Res.ok_bind, tracker_load hL hn, trackerBit_page hn, ← h.trk n hn]
  have hbit : m.load32 (adr (tr.toNat + 4 * (n / 32))) &&& (1#32) <<< (n % 32) = 0#32 ↔
      (m.load32 (adr (tr.toNat + 4 * (n / 32)))).getLsbD (n % 32) = false :=
    Bits.and_bit_eq_zero (Nat.mod_lt _ (by decide))
  unfold tracked
  cases hb : (m.load32 (adr (tr.toNat + 4 * (n / 32)))).getLsbD (n % 32) with
  | false => exact congrArg Except.ok (decide_eq_true (hbit.mpr hb))
  | true => exact congrArg Except.ok (decide_eq_false (mt hbit.mp (by rw [hb]; decide)))

/-- `alloc` takes the first page that is not tracked. -/
theorem alloc_shows (hL : Layout tr) (hS : Shows tr m V) :
    (alloc tr m = .ok (0xFFFFFFFF, m) ∧ ∀ n < 256, V.trk n = true) ∨
    ∃ n < 256, V.trk n = false ∧ ∃ m', alloc tr m = .ok (page n, m') ∧
      Shows tr m' ((V.track n true).clearPage (page n).addr) ∧ Keeps tr m m' := by
  -- from page `n` on, the pages before it being tracked
  have key : ∀ fuel n, n ≤ 256 → 256 - n < fuel → (∀ k < n, V.trk k = true) →
      (allocFrom tr m fuel (page n) = .ok (0xFFFFFFFF, m) ∧ ∀ i < 256, V.trk i = true) ∨
      ∃ i < 256, V.trk i = false ∧ ∃ m', allocFrom tr m fuel (page n) = .ok (page i, m') ∧
        Shows tr m' ((V.track i true).clearPage (page i).addr) ∧ Keeps tr m m' := by
    intro fuel
    induction fuel with
    | zero => intro n _ hf; exact absurd hf (Nat.not_lt_zero _)
    | succ fuel ih =>
      intro n hn hf hprev
      unfold allocFrom
      by_cases hlt : n < 256
      · rw [if_pos ((page_lt_end hn).mpr hlt), isFree_page hL hS hlt, Res.ok_bind]
        cases ht : V.trk n with
        | false =>
          exact .inr ⟨n, hlt, ht, _, rfl, (hS.setAlloc hL hlt).clearPage hL hlt,
            (keeps_setAlloc hL m hlt).trans (keeps_clearPage tr _ hlt)⟩
        | true =>
          rw [page_succ]
          refine ih (n + 1) hlt (by omega) fun k hk => ?_
          rcases Nat.lt_succ_iff_lt_or_eq.mp hk with hk | rfl
          · exact hprev k hk
          · exact ht
      · rw [if_neg (mt (page_lt_end hn).mp hlt)]
        exact .inl ⟨rfl, fun k hk => hprev k (by omega)⟩
  exact key scanBound 0 (Nat.zero_le _) (by decide) fun k hk => absurd hk (Nat.not_lt_zero _)

/-- A cleared page, by the entries of all pages. -/
theorem clearPage_rows (m : Mem) (hn : n < 256) {k : Nat} (hk : k < 256) (i : Fin 512) :
    entry (m.fill (page n).addr 0x1000 0) (page k).addr i =
      if k = n then 0 else entry m (page k).addr i := by
  have h1 := page_addr_toNat hn
  have h2 := page_addr_toNat hk
  have hi := i.isLt
  have hf : m.fill (page n).addr 0x1000 0 = m.fill (adr (page n).addr.toNat) 4096 0#8 := by
    rw [adr_of_toNat]; rfl
  rw [hf]
  by_cases hkn : k = n
  · subst hkn
    rw [if_pos rfl]
    exact Mem.load64_fill_at m (Nat.le_add_right _ _) (by omega)
  · rw [if_neg hkn]
    exact (Mem.EqOn.fill m 0#8 (by omega) (by omega) (by omega) (by omega)).load64 (Nat.le_refl _)
      (Nat.le_refl _)

/-- `alloc`, by the entries of the pages. -/
theorem alloc_rows (hL : Layout tr) (m : Mem) : alloc tr m = .ok (0xFFFFFFFF, m) ∨
    ∃ q < 256, tracked tr m q = false ∧ ∃ m', alloc tr m = .ok (page q, m') ∧ Keeps tr m m' ∧
      (∀ k < 256, tracked tr m' k = if k = q then true else tracked tr m k) ∧
      ∀ k < 256, ∀ i, entry m' (page k).addr i = if k = q then 0 else entry m (page k).addr i := by
  rcases alloc_shows hL (shows_self tr m) with ⟨ha, -⟩ | ⟨q, hq, hqt, m₁, ha, hS, hkeep⟩
  · exact .inl ha
  refine .inr ⟨q, hq, hqt, m₁, ha, hkeep, hS.trk, fun k hk i => ?_⟩
  rw [hS.E _ (page_mem hk)]
  show (if (page k).addr = (page q).addr then _ else _) = _
  simp only [page_addr_inj hk hq]
  rfl

/-- Where what comes next fails without a page, `alloc` has taken one. -/
theorem alloc_then (hL : Layout tr) {m m' : Mem} {k : Ptr × Mem → Res Mem}
    (hfail : ∀ m₁, k (0xFFFFFFFF, m₁) ≠ .ok m') (he : alloc tr m >>= k = .ok m') :
    ∃ q < 256, tracked tr m q = false ∧ ∃ m₁, alloc tr m = .ok (page q, m₁) ∧ Keeps tr m m₁ ∧
      (∀ k < 256, tracked tr m₁ k = if k = q then true else tracked tr m k) ∧
      (∀ k < 256, ∀ i, entry m₁ (page k).addr i =
        if k = q then 0 else entry m (page k).addr i) ∧
      k (page q, m₁) = .ok m' := by
  rcases alloc_rows hL m with ha | ⟨q, hq, hqt, m₁, ha, hkeep, htrk, hrow⟩
  · rw [ha, Res.ok_bind] at he
    exact absurd he (hfail m)
  · rw [ha, Res.ok_bind] at he
    exact ⟨q, hq, hqt, m₁, ha, hkeep, htrk, hrow, he⟩

end Ops

end X64k.L3.Loader
