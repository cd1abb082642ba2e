import X64k.L2Paging.Format

/-!
# What the memory shows of the paging structures

`Tabs` is the abstract state: the entries of every table, and for each page of
the range whether it is tracked and how often it is referenced. `Shows s m P V`
says that the memory `m` shows `V` on the tables in `P`.

The code's writes are pure updates of `Tabs`: an entry is set, a page cleared,
a page tracked or released, a counter set. The lemmas below carry `Shows`
through each of them, and `alloc`, `free`, `incRefs` and `decRefs` through
their whole bodies. They need that bitmap, counters and tables lie apart
(`Layout`, `Domain`).
-/
namespace X64k.L2.Paging

open X64k.Core X64k.Core.Radix

/-! ## Pages -/

/-- Pages in the range. -/
def Statics.pages (s : Statics) : Nat := (s.stop.toNat - s.start.toNat) / 4096

/-- Bytes of the bitmap words that track them. -/
def Statics.bitmapBytes (s : Statics) : Nat := 8 * ((s.pages + 63) / 64)

/-- Page `n` of the range. -/
def Statics.page (s : Statics) (n : Nat) : Word := adr (s.start.toNat + 4096 * n)

/-- Page `n` is marked in the bitmap. -/
def tracked (s : Statics) (m : Mem) (n : Nat) : Bool :=
  (m.load64 (adr (s.tracking.toNat + 8 * (n / 64)))).getLsbD (n % 64)

/-- The counter of page `n`. -/
def refs (s : Statics) (m : Mem) (n : Nat) : BitVec 16 := m.load16 (adr (s.refcount.toNat + 2 * n))

/-- Range, bitmap and counters are page-aligned where they have to be, fit
into the address space and lie apart. -/
structure Layout (s : Statics) : Prop where
  start_al : s.start.toNat % 4096 = 0
  stop_al : s.stop.toNat % 4096 = 0
  le : s.start.toNat ≤ s.stop.toNat
  tracking_le : s.tracking.toNat + s.bitmapBytes ≤ 2 ^ 64
  refcount_le : s.refcount.toNat + 2 * s.pages ≤ 2 ^ 64
  apart : Apart s.tracking.toNat s.bitmapBytes s.refcount.toNat (2 * s.pages)

/-- The tables in `P`: the pages of the range and whatever else holds a table,
apart from each other, the bitmap and the counters. -/
structure Domain (s : Statics) (P : Set Word) : Prop extends Spread P where
  page : ∀ n < s.pages, s.page n ∈ P
  tracking : ∀ t ∈ P, Apart t.toNat 4096 s.tracking.toNat s.bitmapBytes
  refcount : ∀ t ∈ P, Apart t.toNat 4096 s.refcount.toNat (2 * s.pages)

/-- The pages of the range and the roots. -/
def tablePages (s : Statics) (R : Set Word) : Set Word := R ∪ {t | ∃ n < s.pages, t = s.page n}

/-- Where roots may lie: apart from each other, the bitmap and the counters,
each a page of the range or apart from all of them. -/
structure Placed (s : Statics) (R : Set Word) : Prop where
  tracking : Apart s.start.toNat (4096 * s.pages) s.tracking.toNat s.bitmapBytes
  refcount : Apart s.start.toNat (4096 * s.pages) s.refcount.toNat (2 * s.pages)
  root : ∀ r ∈ R, (∃ n < s.pages, r = s.page n) ∨
    r.toNat + 4096 ≤ 2 ^ 64 ∧ Apart r.toNat 4096 s.start.toNat (4096 * s.pages) ∧
      Apart r.toNat 4096 s.tracking.toNat s.bitmapBytes ∧
      Apart r.toNat 4096 s.refcount.toNat (2 * s.pages)
  apart : ∀ r ∈ R, ∀ r' ∈ R, r ≠ r' → Apart r.toNat 4096 r'.toNat 4096

/-! ## Words and bits of the bitmap -/

theorem low_iff {v : Word} : v &&& 0xFFF = 0 ↔ v.toNat % 4096 = 0 := by
  have h3 : (0xFFF : Word).toNat = 2 ^ 12 - 1 := rfl
  rw [← BitVec.toNat_inj, Bits.toNat_and_low h3]
  exact Iff.rfl

theorem index_toNat (x : Word) : (PM_TRACKING_INDEX x).toNat = x.toNat / 2 ^ 18 := by
  rw [PM_TRACKING_INDEX, BitVec.toNat_ushiftRight, Nat.shiftRight_eq_div_pow]

theorem bit_eq (x : Word) : PM_TRACKING_BIT x = (1#64) <<< (x.toNat / 2 ^ 12 % 64) := by
  have h3 : (0x3F : Word).toNat = 2 ^ 6 - 1 := rfl
  rw [PM_TRACKING_BIT, Bits.toNat_field h3]
  rfl

namespace Layout
variable {s : Statics} {n k : Nat}

theorem stop_eq (h : Layout s) : s.stop.toNat = s.start.toNat + 4096 * s.pages := by
  have h1 := h.start_al
  have h2 := h.stop_al
  have h3 := h.le
  unfold Statics.pages
  omega

theorem page_toNat (h : Layout s) (hn : n < s.pages) :
    (s.page n).toNat = s.start.toNat + 4096 * n := by
  have := h.stop_eq
  have := s.stop.isLt
  exact adr_toNat (by omega)

theorem page_inj (h : Layout s) (hn : n < s.pages) (hk : k < s.pages) :
    s.page n = s.page k ↔ n = k := by
  constructor
  · intro he
    have := congrArg BitVec.toNat he
    rw [h.page_toNat hn, h.page_toNat hk] at this
    omega
  · rintro rfl; rfl

theorem page_lt_stop (h : Layout s) (hn : n ≤ s.pages) :
    s.page n < s.stop ↔ n < s.pages := by
  have h1 := h.stop_eq
  have h2 := s.stop.isLt
  rw [BitVec.lt_def, Statics.page, adr_toNat (by omega)]
  omega

theorem page_succ (_ : Layout s) : s.page n + 0x1000 = s.page (n + 1) := by
  rw [Statics.page, show (0x1000 : Word) = adr 4096 from rfl, adr_add]
  exact congrArg adr (by omega)

theorem contains (h : Layout s) (hn : n < s.pages) : s.contains (s.page n) := by
  have h1 := h.page_toNat hn
  have h2 := h.stop_eq
  rw [Statics.contains, BitVec.le_def, BitVec.le_def, h1]
  omega

/-- A page address has no low bits. -/
theorem aligned (h : Layout s) (hn : n < s.pages) : s.page n &&& 0xFFF = 0 := by
  have h1 := h.page_toNat hn
  have h2 := h.start_al
  rw [low_iff]
  omega

/-- Offsets in the range, and the word and bit they select. -/
theorem page_sub (h : Layout s) (hn : n < s.pages) : (s.page n - s.start).toNat = 4096 * n := by
  have h1 := h.page_toNat hn
  have h2 := (s.page n).isLt
  rw [BitVec.toNat_sub, h1]
  omega

theorem index (h : Layout s) (hn : n < s.pages) :
    PM_TRACKING_INDEX (s.page n - s.start) = adr (n / 64) := by
  have h2 := (s.page n - s.start).isLt
  apply BitVec.eq_of_toNat_eq
  rw [index_toNat, h.page_sub hn, adr_toNat (by rw [h.page_sub hn] at h2; omega)]
  omega

theorem bit (h : Layout s) (hn : n < s.pages) :
    PM_TRACKING_BIT (s.page n - s.start) = (1#64) <<< (n % 64) := by
  have h4 : 4096 * n / 2 ^ 12 % 64 = n % 64 := by omega
  rw [bit_eq, h.page_sub hn, h4]

theorem refIndex (h : Layout s) (hn : n < s.pages) :
    PM_REFCOUNT_INDEX (s.page n - s.start) = adr n := by
  have h2 := (s.page n - s.start).isLt
  apply BitVec.eq_of_toNat_eq
  rw [PM_REFCOUNT_INDEX, BitVec.toNat_ushiftRight, h.page_sub hn, Nat.shiftRight_eq_div_pow,
    adr_toNat (by rw [h.page_sub hn] at h2; omega)]
  omega

/-- Roots that are placed so, with the pages, make a domain. -/
theorem domain (h : Layout s) {R : Set Word} (hR : Placed s R) : Domain s (tablePages s R) := by
  have hstop := h.stop_eq
  have hlt := s.stop.isLt
  have h1 := hR.tracking
  have h2 := hR.refcount
  -- a table is a page or a root outside the range
  have hcase : ∀ t ∈ tablePages s R, (∃ n < s.pages, t = s.page n) ∨
      (t ∈ R ∧ t.toNat + 4096 ≤ 2 ^ 64 ∧ Apart t.toNat 4096 s.start.toNat (4096 * s.pages) ∧
        Apart t.toNat 4096 s.tracking.toNat s.bitmapBytes ∧
        Apart t.toNat 4096 s.refcount.toNat (2 * s.pages)) := by
    rintro t (ht | ht)
    · rcases hR.root t ht with hp | hp
      · exact .inl hp
      · exact .inr ⟨ht, hp⟩
    · exact .inl ht
  refine ⟨⟨?_, ?_⟩, fun n hn => .inr ⟨n, hn, rfl⟩, ?_, ?_⟩
  · intro t ht
    rcases hcase t ht with ⟨n, hn, rfl⟩ | ⟨-, hb, -⟩
    · have := h.page_toNat hn
      have := h.start_al
      omega
    · exact hb
  · intro t ht t' ht' hne
    rcases hcase t ht with ⟨n, hn, rfl⟩ | ⟨hr, -, ha, -⟩ <;>
      rcases hcase t' ht' with ⟨n', hn', rfl⟩ | ⟨hr', -, ha', -⟩
    · have h3 := h.page_toNat hn
      have h4 := h.page_toNat hn'
      have : n ≠ n' := fun he => hne (by rw [he])
      omega
    · have := h.page_toNat hn
      omega
    · have := h.page_toNat hn'
      omega
    · exact hR.apart t hr t' hr' hne
  · intro t ht
    rcases hcase t ht with ⟨n, hn, rfl⟩ | ⟨-, -, -, hb, -⟩
    · have := h.page_toNat hn
      omega
    · exact hb
  · intro t ht
    rcases hcase t ht with ⟨n, hn, rfl⟩ | ⟨-, -, -, -, hb⟩
    · have := h.page_toNat hn
      omega
    · exact hb

end Layout

/-! ## The abstract state -/

/-- Entries of tables, pages tracked, references counted. -/
structure Tabs where
  E : Word → Fin 512 → Word
  trk : Nat → Bool
  cnt : Nat → BitVec 16

namespace Tabs

def setEntry (V : Tabs) (t : Word) (i : Fin 512) (e : Word) : Tabs :=
  { V with E := setAt V.E t i e }

def clearPage (V : Tabs) (t : Word) : Tabs :=
  { V with E := clearAt V.E t 0 }

def track (V : Tabs) (n : Nat) (b : Bool) : Tabs :=
  { V with trk := fun k => if k = n then b else V.trk k }

def count (V : Tabs) (n : Nat) (c : BitVec 16) : Tabs :=
  { V with cnt := fun k => if k = n then c else V.cnt k }

section
variable (V : Tabs) (t : Word) (i : Fin 512) (e : Word) (n k : Nat) (b : Bool) (c : BitVec 16)

@[simp] theorem setEntry_E : (V.setEntry t i e).E = setAt V.E t i e := rfl
@[simp] theorem setEntry_trk : (V.setEntry t i e).trk = V.trk := rfl
@[simp] theorem setEntry_cnt : (V.setEntry t i e).cnt = V.cnt := rfl
@[simp] theorem clearPage_E : (V.clearPage t).E = clearAt V.E t 0 := rfl
@[simp] theorem clearPage_trk : (V.clearPage t).trk = V.trk := rfl
@[simp] theorem clearPage_cnt : (V.clearPage t).cnt = V.cnt := rfl
@[simp] theorem track_E : (V.track n b).E = V.E := rfl
theorem track_trk : (V.track n b).trk k = if k = n then b else V.trk k := rfl
@[simp] theorem track_cnt : (V.track n b).cnt = V.cnt := rfl
@[simp] theorem count_E : (V.count n c).E = V.E := rfl
@[simp] theorem count_trk : (V.count n c).trk = V.trk := rfl
theorem count_cnt : (V.count n c).cnt k = if k = n then c else V.cnt k := rfl

end

end Tabs

/-- The memory shows `V` on the tables in `P`. -/
structure Shows (s : Statics) (m : Mem) (P : Set Word) (V : Tabs) : Prop where
  E : TablesShow m P V.E
  trk : ∀ n < s.pages, tracked s m n = V.trk n
  cnt : ∀ n < s.pages, refs s m n = V.cnt n

/-- What the memory itself shows. -/
def tabsOf (s : Statics) (m : Mem) : Tabs := ⟨entry m, tracked s m, refs s m⟩

theorem shows_tabsOf (s : Statics) (m : Mem) (P : Set Word) : Shows s m P (tabsOf s m) :=
  ⟨fun _ _ _ => rfl, fun _ _ => rfl, fun _ _ => rfl⟩

theorem trackingWord_adr (s : Statics) (m : Mem) (q : Nat) :
    trackingWord s m (adr q) = m.load64 (adr (s.tracking.toNat + 8 * q)) :=
  congrArg m.load64 (adr_index s.tracking q 8)

theorem setTrackingWord_adr (s : Statics) (m : Mem) (q : Nat) (v : Word) :
    setTrackingWord s m (adr q) v = m.store64 (adr (s.tracking.toNat + 8 * q)) v :=
  congrArg (m.store64 · v) (adr_index s.tracking q 8)

theorem refcountOf_adr (s : Statics) (m : Mem) (n : Nat) : refcountOf s m (adr n) = refs s m n :=
  congrArg m.load16 (adr_index s.refcount n 2)

theorem setRefcount_adr (s : Statics) (m : Mem) (n : Nat) (c : BitVec 16) :
    setRefcount s m (adr n) c = m.store16 (adr (s.refcount.toNat + 2 * n)) c :=
  congrArg (m.store16 · c) (adr_index s.refcount n 2)

section Writes
variable {s : Statics} {m : Mem} {P : Set Word} {V : Tabs} {n : Nat}

theorem word_lt (hn : n < s.pages) : 8 * (n / 64) + 8 ≤ s.bitmapBytes := by
  unfold Statics.bitmapBytes
  omega

/-- A bitmap word in which only the bit of page `n` may have changed. -/
theorem Shows.setTrackingWord (hL : Layout s) (hD : Domain s P) (h : Shows s m P V)
    (hn : n < s.pages) {b : Bool} {v : Word} (hv : ∀ j < 64, v.getLsbD j =
      if j = n % 64 then b else (trackingWord s m (adr (n / 64))).getLsbD j) :
    Shows s (setTrackingWord s m (adr (n / 64)) v) P (V.track n b) := by
  have hw := word_lt hn
  have h1 := hL.tracking_le
  have h2 := hL.apart
  rw [setTrackingWord_adr]
  refine ⟨h.E.frame fun t ht => ?_, ?_, ?_⟩
  · have h3 := hD.bound t ht
    have h4 := hD.tracking t ht
    exact Mem.EqOn.store64 m v (by omega) (by omega) (by omega)
  · intro k hk
    have hwk := word_lt hk
    rw [Tabs.track_trk, ← h.trk k hk]
    unfold tracked
    by_cases hq : k / 64 = n / 64
    · rw [hq, Mem.load64_store64, hv _ (Nat.mod_lt _ (by decide)), trackingWord_adr]
      by_cases hkn : k = n
      · rw [if_pos hkn, if_pos (by rw [hkn])]
      · rw [if_neg hkn, if_neg (by omega)]
    · rw [Mem.load64_store64_ne m v (by omega) (by omega) (by omega),
        if_neg (fun he => hq (by rw [he]))]
  · intro k hk
    have h3 := hL.refcount_le
    rw [Tabs.track_cnt, ← h.cnt k hk]
    exact (Mem.EqOn.store64 m v (by omega) (by omega) (by omega)).load16 (Nat.le_refl _)
      (Nat.le_refl _)

theorem Shows.setRefcount (hL : Layout s) (hD : Domain s P) (h : Shows s m P V)
    (hn : n < s.pages) (c : BitVec 16) :
    Shows s (setRefcount s m (adr n) c) P (V.count n c) := by
  have h1 := hL.refcount_le
  have h2 := hL.apart
  rw [setRefcount_adr]
  refine ⟨h.E.frame fun t ht => ?_, ?_, ?_⟩
  · have h3 := hD.bound t ht
    have h4 := hD.refcount t ht
    exact Mem.EqOn.store16 m c (by omega) (by omega) (by omega)
  · intro k hk
    have h3 := hL.tracking_le
    have h4 := word_lt hk
    rw [Tabs.count_trk, ← h.trk k hk]
    unfold tracked
    rw [(Mem.EqOn.store16 m c (by omega) (by omega) (by omega)).load64 (Nat.le_refl _)
      (Nat.le_refl _)]
  · intro k hk
    rw [Tabs.count_cnt, ← h.cnt k hk]
    unfold refs
    by_cases hkn : k = n
    · rw [if_pos hkn, hkn, Mem.load16_store16]
    · rw [if_neg hkn, Mem.load16_store16_ne m c (by omega) (by omega) (by omega)]

/-- Bitmap and counters do not see a write that lies within a table. -/
theorem Shows.of_table {m' : Mem} {E : Word → Fin 512 → Word} (hL : Layout s) (hD : Domain s P)
    (h : Shows s m P V) {t : Word} (ht : t ∈ P)
    (hag : ∀ lo hi, Apart t.toNat 4096 lo (hi - lo) → lo ≤ hi → hi ≤ 2 ^ 64 → Mem.EqOn m m' lo hi)
    (hE : TablesShow m' P E) : Shows s m' P { V with E := E } := by
  have h2 := hD.tracking t ht
  have h3 := hD.refcount t ht
  refine ⟨hE, fun k hk => ?_, fun k hk => ?_⟩
  · have h4 := word_lt hk
    have h5 := hL.tracking_le
    rw [← h.trk k hk]
    unfold tracked
    rw [(hag _ _ (by omega) (Nat.le_add_right ..) (by omega)).load64 (Nat.le_refl _) (Nat.le_refl _)]
  · have h5 := hL.refcount_le
    rw [← h.cnt k hk]
    exact (hag _ _ (by omega) (Nat.le_add_right ..) (by omega)).load16 (Nat.le_refl _)
      (Nat.le_refl _)

theorem Shows.setEntryAt (hL : Layout s) (hD : Domain s P) (h : Shows s m P V) {t : Word}
    (ht : t ∈ P) (i : Fin 512) (e : Word) :
    Shows s (setEntryAt m t (adr i) e) P (V.setEntry t i e) := by
  have h1 := hD.bound t ht
  have hi := i.isLt
  rw [setEntryAt_adr]
  refine h.of_table hL hD ht (fun lo hi h2 h3 h4 => ?_) (h.E.store hD.toSpread ht i e)
  exact Mem.EqOn.store64 m e (by omega) (by omega) h4

theorem Shows.clearPage (hL : Layout s) (hD : Domain s P) (h : Shows s m P V) {t : Word}
    (ht : t ∈ P) : Shows s (m.fill t 0x1000 0) P (V.clearPage t) := by
  have h1 := hD.bound t ht
  have hf : m.fill t 0x1000 0 = m.fill (adr t.toNat) 4096 0#8 := by rw [adr_of_toNat]; rfl
  rw [hf]
  refine h.of_table hL hD ht (fun lo hi h2 h3 h4 => ?_) (h.E.clear hD.toSpread ht)
  exact Mem.EqOn.fill m 0#8 (by omega) (by omega) (by omega) h4

end Writes

/-! ## The allocator's operations -/

/-- The counter after `decRefs`: it stays at 0. -/
def decremented (c : BitVec 16) : BitVec 16 := if c ≠ 0 then c - 1 else 0

section Ops
variable {s : Statics} {m : Mem} {P : Set Word} {V : Tabs} {n : Nat}

theorem Shows.word (hS : Shows s m P V) (hn : n < s.pages) :
    (trackingWord s m (adr (n / 64))).getLsbD (n % 64) = V.trk n := by
  rw [trackingWord_adr]
  exact hS.trk n hn

/-- The test of the bit of page `n`. -/
theorem Shows.test (hL : Layout s) (hS : Shows s m P V) (hn : n < s.pages) :
    trackingWord s m (PM_TRACKING_INDEX (s.page n - s.start)) &&&
      PM_TRACKING_BIT (s.page n - s.start) = 0 ↔ V.trk n = false := by
  rw [hL.index hn, hL.bit hn, ← hS.word hn]
  exact Bits.and_bit_eq_zero (Nat.mod_lt _ (by decide))

/-- Setting the bit of page `n`. -/
theorem Shows.markPage (hL : Layout s) (hD : Domain s P) (hS : Shows s m P V) (hn : n < s.pages) :
    Shows s (Paging.setTrackingWord s m (PM_TRACKING_INDEX (s.page n - s.start))
      (trackingWord s m (PM_TRACKING_INDEX (s.page n - s.start)) |||
        PM_TRACKING_BIT (s.page n - s.start))) P (V.track n true) := by
  rw [hL.index hn, hL.bit hn]
  refine hS.setTrackingWord hL hD hn fun j hj => ?_
  refine (Bits.getLsbD_or_bit hj).trans ?_
  by_cases h : j = n % 64 <;> simp [h]

theorem setAlloc_shows (hL : Layout s) (hD : Domain s P) (hS : Shows s m P V) (hn : n < s.pages) :
    ∃ m', setAlloc s m (s.page n) = .ok m' ∧ Shows s m' P (V.track n true) := by
  refine ⟨_, ?_, hS.markPage hL hD hn⟩
  rw [setAlloc, Res.assert_of (hL.contains hn), Res.ok_bind, Res.assert_of (hL.aligned hn),
    Res.ok_bind]

theorem free_shows (hL : Layout s) (hD : Domain s P) (hS : Shows s m P V) (hn : n < s.pages)
    (ht : V.trk n = true) : ∃ m', free s m (s.page n) = .ok m' ∧ Shows s m' P (V.track n false) := by
  have hne := (hS.test hL hn).not.mpr (by rw [ht]; decide)
  unfold free
  dsimp only
  rw [Res.assert_of hne, Res.ok_bind, hL.index hn, hL.bit hn]
  refine ⟨_, rfl, hS.setTrackingWord hL hD hn fun j hj => ?_⟩
  refine (Bits.getLsbD_and_not_bit hj).trans ?_
  by_cases h : j = n % 64 <;> simp [h]

/-- `alloc` takes the first page that is not tracked. -/
theorem alloc_shows (hL : Layout s) (hD : Domain s P) (hS : Shows s m P V) :
    (alloc s m = .ok (none, m) ∧ ∀ n < s.pages, V.trk n = true) ∨
    ∃ n < s.pages, V.trk n = false ∧ (∀ k < n, V.trk k = true) ∧ ∃ m',
      alloc s m = .ok (some (s.page n), m') ∧
      Shows s m' P ((V.track n true).clearPage (s.page n)) := by
  -- from page `n` on, the pages before it being tracked
  have key : ∀ fuel n, n ≤ s.pages → s.pages - n < fuel → (∀ k < n, V.trk k = true) →
      (allocFrom s m fuel (s.page n) = .ok (none, m) ∧ ∀ i < s.pages, V.trk i = true) ∨
      ∃ i < s.pages, V.trk i = false ∧ (∀ k < i, V.trk k = true) ∧ ∃ m',
        allocFrom s m fuel (s.page n) = .ok (some (s.page i), m') ∧
        Shows s m' P ((V.track i true).clearPage (s.page i)) := by
    intro fuel
    induction fuel with
    | zero => intro n _ hf; exact absurd hf (Nat.not_lt_zero _)
    | succ fuel ih =>
      intro n hn hf hprev
      have hstep : allocFrom s m (fuel + 1) (s.page n) = if s.page n < s.stop then _ else _ := rfl
      by_cases hlt : n < s.pages
      · rw [if_pos ((hL.page_lt_stop hn).mpr hlt)] at hstep
        cases ht : V.trk n with
        | false =>
          rw [if_pos ((hS.test hL hlt).mpr ht)] at hstep
          exact .inr ⟨n, hlt, ht, hprev, _, hstep,
            (hS.markPage hL hD hlt).clearPage hL hD (hD.page n hlt)⟩
        | true =>
          rw [if_neg ((hS.test hL hlt).not.mpr (by rw [ht]; decide)), hL.page_succ] at hstep
          rw [hstep]
          refine ih (n + 1) hlt (by omega) fun k hk => ?_
          rcases Nat.lt_succ_iff_lt_or_eq.mp hk with hk | rfl
          · exact hprev k hk
          · exact ht
      · rw [if_neg (mt (hL.page_lt_stop hn).mp hlt)] at hstep
        rw [hstep]
        exact .inl ⟨rfl, fun k hk => hprev k (by omega)⟩
  have hp0 : s.page 0 = s.start := by
    rw [Statics.page, Nat.mul_zero, Nat.add_zero, adr_of_toNat]
  have hb : s.pages - 0 < scanBound := by
    have := hL.stop_eq
    have := s.stop.isLt
    unfold scanBound
    omega
  have := key scanBound 0 (Nat.zero_le _) hb fun k hk => absurd hk (Nat.not_lt_zero _)
  rw [hp0] at this
  exact this

theorem incRefs_shows (hL : Layout s) (hD : Domain s P) (hS : Shows s m P V) (hn : n < s.pages) :
    ∃ m', incRefs s m (s.page n) = .ok m' ∧ Shows s m' P (V.count n (V.cnt n + 1)) := by
  refine ⟨_, ?_, hS.setRefcount hL hD hn _⟩
  unfold incRefs
  rw [Res.assert_of (hL.contains hn), Res.ok_bind, Res.assert_of (hL.aligned hn), Res.ok_bind]
  dsimp only
  rw [hL.refIndex hn, refcountOf_adr, hS.cnt n hn]

theorem decRefs_shows (hL : Layout s) (hD : Domain s P) (hS : Shows s m P V) (hn : n < s.pages) :
    ∃ m', decRefs s m (s.page n) = .ok (decremented (V.cnt n), m') ∧
      Shows s m' P (V.count n (decremented (V.cnt n))) := by
  unfold decRefs decremented
  rw [Res.assert_of (hL.contains hn), Res.ok_bind, Res.assert_of (hL.aligned hn), Res.ok_bind]
  dsimp only
  rw [hL.refIndex hn, refcountOf_adr, hS.cnt n hn]
  by_cases h : V.cnt n = 0
  · rw [if_neg (not_not_intro h), if_neg (not_not_intro h)]
    refine ⟨m, rfl, hS.E, hS.trk, fun k hk => ?_⟩
    rw [Tabs.count_cnt, hS.cnt k hk]
    by_cases hkn : k = n
    · rw [if_pos hkn, hkn, h]
    · rw [if_neg hkn]
  · rw [if_pos h, if_pos h]
    exact ⟨_, rfl, hS.setRefcount hL hD hn _⟩

end Ops

end X64k.L2.Paging
