import X64k.L2Paging.View
import X64k.L3Handover.LoaderTables
import X64k.L3Handover.Retain

/-!
# What the kernel retains

For a region of whole bitmap words below the kernel, `retainLoaderPaging`

* puts bitmap and counters on the last page before the kernel (`layout`),
* marks the pages the loader marked and counts their entries (`Copied`, by
  induction over the pages of the region),
* clears the memory between the last page it kept and the bitmap.

`retained` puts this together. All the while only the last page before the
kernel is written, so the pages that are kept keep their contents.
-/
namespace X64k.L3.Retain

open X64k.Core X64k.L2.Paging
open X64k.L3 (Loader.tracked)

/-- The regions and bitmaps considered: whole words of the new bitmap, below
0x3C0000, the old bitmap not on the page the new one goes to. -/
structure Handover (ld : LoaderData) : Prop where
  base_al : ld.loaderPagingBase.toNat % 0x40000 = 0
  size_al : ld.loaderPagingSize.toNat % 0x40000 = 0
  le : ld.loaderPagingBase.toNat + ld.loaderPagingSize.toNat ≤ 0x3C0000
  tracking : Apart ld.loaderPagingTracking.toNat (4 * (ld.loaderPagingSize.toNat / 0x20000))
    0x3FF000 0x1000

namespace LoaderData

/-- Pages of the loader's region. -/
def pages (ld : LoaderData) : Nat := ld.loaderPagingSize.toNat / 0x1000

/-- Words of the new bitmap. -/
def words (ld : LoaderData) : Nat := (0x400000 - ld.loaderPagingBase.toNat) / 0x40000

/-- The loader's bitmap marks page `n`. -/
abbrev marks (ld : LoaderData) (m : Mem) (n : Nat) : Bool :=
  Loader.tracked ld.loaderPagingTracking m n

end LoaderData

/-! ## Layout -/

section Layout
variable {ld : LoaderData}

theorem start_toNat (ld : LoaderData) :
    (relocated ld).start.toNat = ld.loaderPagingBase.toNat := by
  have := ld.loaderPagingBase.isLt
  show (ld.loaderPagingBase.setWidth 64).toNat = _
  rw [BitVec.toNat_setWidth]
  omega

theorem oldStop_toNat (h : Handover ld) : (relocated ld).stop.toNat =
    ld.loaderPagingBase.toNat + ld.loaderPagingSize.toNat := by
  have := h.le
  show ((ld.loaderPagingBase + ld.loaderPagingSize).setWidth 64).toNat = _
  rw [BitVec.toNat_setWidth, BitVec.toNat_add]
  omega

theorem trackingOld_toNat (h : Handover ld) :
    (trackingOld (relocated ld).start (relocated ld).stop).toNat =
      8 * (ld.loaderPagingSize.toNat / 0x40000) := by
  have h1 := start_toNat ld
  have h2 := oldStop_toNat h
  have h3 := h.le
  rw [trackingOld, BitVec.toNat_mul, BitVec.toNat_ushiftRight, BitVec.toNat_sub, h1, h2,
    Nat.shiftRight_eq_div_pow]
  show _ * 8 % 2 ^ 64 = _
  omega

theorem trackingDelta_toNat (h : Handover ld) : (trackingDelta (relocated ld).stop).toNat =
    8 * (ld.words - ld.loaderPagingSize.toNat / 0x40000) := by
  have h2 := oldStop_toNat h
  have h3 := h.le
  have h4 : KERNEL_LOCATION.toNat = 0x400000 := rfl
  have h5 := h.base_al
  have h6 := h.size_al
  rw [trackingDelta, BitVec.toNat_mul, BitVec.toNat_ushiftRight, BitVec.toNat_sub, h2, h4,
    Nat.shiftRight_eq_div_pow, LoaderData.words]
  show _ * 8 % 2 ^ 64 = _
  omega

theorem words_bounds (h : Handover ld) : 1 ≤ ld.words ∧ ld.words ≤ 16 ∧
    ld.loaderPagingBase.toNat + 0x40000 * ld.words = 0x400000 ∧
    ld.loaderPagingSize.toNat / 0x40000 + 1 ≤ ld.words := by
  have h1 := h.base_al
  have h2 := h.size_al
  have h3 := h.le
  unfold LoaderData.words
  omega

/-- The bitmap goes to the last page before the kernel. -/
theorem tracking_toNat (h : Handover ld) : (relocated ld).tracking.toNat = 0x3FF000 := by
  have h1 := trackingOld_toNat h
  have h2 := trackingDelta_toNat h
  obtain ⟨h3, h4, -, h5⟩ := words_bounds h
  have h6 : KERNEL_LOCATION.toNat = 0x400000 := rfl
  show ((KERNEL_LOCATION - trackingDelta (relocated ld).stop -
    trackingOld (relocated ld).start (relocated ld).stop) &&& ~~~(0xFFF : Word)).toNat = _
  rw [show (0xFFF : Word) = BitVec.ofNat 64 (2 ^ 12 - 1) from rfl, Bits.toNat_clearLow _ (by decide),
    BitVec.toNat_sub, BitVec.toNat_sub, h1, h2, h6]
  omega

theorem tracking_eq (h : Handover ld) : (relocated ld).tracking = 0x3FF000 :=
  BitVec.eq_of_toNat_eq (tracking_toNat h)

theorem refcount_toNat (h : Handover ld) :
    (relocated ld).refcount.toNat = 0x3FF000 + 8 * ld.words := by
  have h1 := trackingOld_toNat h
  have h2 := trackingDelta_toNat h
  have h3 := tracking_toNat h
  obtain ⟨-, h4, -, h5⟩ := words_bounds h
  show ((relocated ld).tracking + trackingDelta (relocated ld).stop +
    trackingOld (relocated ld).start (relocated ld).stop).toNat = _
  rw [BitVec.toNat_add, BitVec.toNat_add, h1, h2, h3]
  omega

theorem refcountSize_toNat (h : Handover ld) :
    (relocated ld).refcountSize.toNat = 128 * ld.words := by
  have h1 := start_toNat ld
  have h2 : KERNEL_LOCATION.toNat = 0x400000 := rfl
  have h3 : (0x1000 : Word).toNat = 0x1000 := rfl
  obtain ⟨-, h4, h5, -⟩ := words_bounds h
  show ((KERNEL_LOCATION - (relocated ld).start) / 0x1000 * 2).toNat = _
  rw [BitVec.toNat_mul, BitVec.toNat_udiv, BitVec.toNat_sub, h1, h2, h3]
  show _ * 2 % 2 ^ 64 = _
  omega

/-- The new range ends where the bitmap begins. -/
theorem stop_eq (h : Handover ld) : (expanded ld).stop = 0x3FF000 := by
  show (relocated ld).tracking &&& ~~~(0xFFF : Word) = _
  rw [tracking_eq h]
  decide

theorem bitmap_toNat (h : Handover ld) :
    (trackingOld (relocated ld).start (relocated ld).stop +
      trackingDelta (relocated ld).stop).toNat = 8 * ld.words := by
  obtain ⟨-, h4, -, h5⟩ := words_bounds h
  rw [BitVec.toNat_add, trackingOld_toNat h, trackingDelta_toNat h]
  omega

theorem pages_expanded (h : Handover ld) : (expanded ld).pages = 64 * ld.words - 1 := by
  obtain ⟨h1, -, h2, -⟩ := words_bounds h
  have h3 : (expanded ld).start.toNat = ld.loaderPagingBase.toNat := start_toNat ld
  have h4 : (0x3FF000 : Word).toNat = 0x3FF000 := rfl
  rw [Statics.pages, stop_eq h, h3, h4]
  omega

theorem bitmapBytes_expanded (h : Handover ld) : (expanded ld).bitmapBytes = 8 * ld.words := by
  have h1 := (words_bounds h).1
  rw [Statics.bitmapBytes, pages_expanded h]
  omega

theorem pages_lt (h : Handover ld) {n : Nat} (hn : n < ld.pages) : n < (expanded ld).pages := by
  have h1 := (words_bounds h).2.2.2
  have h2 := h.size_al
  rw [pages_expanded h]
  unfold LoaderData.pages at hn
  omega

theorem layout (h : Handover ld) : Layout (expanded ld) := by
  have h1 : (expanded ld).start.toNat = ld.loaderPagingBase.toNat := start_toNat ld
  have h2 : (expanded ld).stop.toNat = 0x3FF000 := by rw [stop_eq h]; rfl
  have h3 : (expanded ld).tracking.toNat = 0x3FF000 := tracking_toNat h
  have h4 : (expanded ld).refcount.toNat = 0x3FF000 + 8 * ld.words := refcount_toNat h
  have h5 := bitmapBytes_expanded h
  have h6 := pages_expanded h
  have h7 := h.base_al
  obtain ⟨h8, h9, h10, -⟩ := words_bounds h
  refine ⟨?_, ?_, ?_, ?_, ?_, ?_⟩ <;> omega

theorem domain (h : Handover ld) : Domain (expanded ld) (tablePages (expanded ld) ∅) := by
  have h1 : (expanded ld).start.toNat = ld.loaderPagingBase.toNat := start_toNat ld
  have h3 : (expanded ld).tracking.toNat = 0x3FF000 := tracking_toNat h
  have h4 : (expanded ld).refcount.toNat = 0x3FF000 + 8 * ld.words := refcount_toNat h
  have h6 := pages_expanded h
  obtain ⟨h8, h9, h10, -⟩ := words_bounds h
  refine (layout h).domain ⟨?_, ?_, fun r hr => hr.elim, fun r hr => hr.elim⟩
  · omega
  · omega

/-- Page `n` of the region, as the loop computes it. -/
theorem page_eq {n : Nat} (hn : n < 2 ^ 20) :
    (BitVec.ofNat 32 (4096 * n)).setWidth 64 + (relocated ld).start = (expanded ld).page n := by
  apply BitVec.eq_of_toNat_eq
  rw [Statics.page, BitVec.toNat_add, BitVec.toNat_setWidth, BitVec.toNat_ofNat, BitVec.toNat_ofNat]
  show (_ + (relocated ld).start.toNat) % _ = ((relocated ld).start.toNat + _) % _
  omega

end Layout

/-! ## The loop over the old bitmap -/

/-- What steps 1 to 3 show once the first `n` pages have been looked at. -/
def copied (ld : LoaderData) (m₀ : Mem) (n : Nat) : Tabs where
  E := entry m₀
  trk k := decide (k < n) && ld.marks m₀ k
  cnt k := if k < n ∧ ld.marks m₀ k = true then
    BitVec.ofNat 16 (presentCount (entry m₀ ((expanded ld).page k))) else 0

theorem copied_trk (ld : LoaderData) (m₀ : Mem) (n k : Nat) :
    (copied ld m₀ n).trk k = (decide (k < n) && ld.marks m₀ k) := rfl

theorem copied_cnt (ld : LoaderData) (m₀ : Mem) (n k : Nat) :
    (copied ld m₀ n).cnt k = if k < n ∧ ld.marks m₀ k = true then
      BitVec.ofNat 16 (presentCount (entry m₀ ((expanded ld).page k))) else 0 := rfl

theorem copied_cnt_of_le {ld : LoaderData} {m₀ : Mem} {n k : Nat} (hk : n ≤ k) :
    (copied ld m₀ n).cnt k = 0 := if_neg fun h => absurd h.1 (Nat.not_lt.mpr hk)

/-- The loop's invariant: the view, what has been written, and `maxStruct`. -/
structure Copied (ld : LoaderData) (m₀ : Mem) (n : Nat) (maxStruct : Word) (m : Mem) : Prop where
  shows_ : Shows (expanded ld) m (tablePages (expanded ld) ∅) (copied ld m₀ n)
  off : Mem.EqOff m₀ m (adr 0x3FF000) 0x1000
  max_le : ∀ k < n, ld.marks m₀ k = true → (expanded ld).page k ≤ maxStruct
  max_eq : maxStruct = 0 ∨
    ∃ k < n, ld.marks m₀ k = true ∧ maxStruct = (expanded ld).page k

section Loop
variable {ld : LoaderData} {m₀ m m' : Mem} {n : Nat} {x : Word}

/-! ### One page -/

theorem contains_old (h : Handover ld) (hn : n < ld.pages) :
    (relocated ld).contains ((expanded ld).page n) := by
  have h1 := (layout h).page_toNat (pages_lt h hn)
  have h2 : (expanded ld).start.toNat = (relocated ld).start.toNat := rfl
  have h3 := start_toNat ld
  have h4 := oldStop_toNat h
  unfold LoaderData.pages at hn
  rw [Statics.contains, BitVec.le_def, BitVec.le_def]
  omega

/-- Neither call looks at the end of the range once its assertion holds. -/
theorem setAlloc_stop (s : Statics) (e k c : Word) (m : Mem) {a : Word} (h : s.contains a)
    (h' : { s with stop := e, kernel := k, current := c : Statics }.contains a) :
    setAlloc s m a = setAlloc { s with stop := e, kernel := k, current := c } m a := by
  unfold setAlloc
  rw [Res.assert_of h, Res.assert_of h']
  rfl

theorem incRefs_stop (s : Statics) (e k c : Word) (m : Mem) {a : Word} (h : s.contains a)
    (h' : { s with stop := e, kernel := k, current := c : Statics }.contains a) :
    incRefs s m a = incRefs { s with stop := e, kernel := k, current := c } m a := by
  unfold incRefs
  rw [Res.assert_of h, Res.assert_of h']
  rfl

theorem setAlloc_old (h : Handover ld) (hn : n < ld.pages) (m : Mem) :
    setAlloc (relocated ld) m ((expanded ld).page n) =
      setAlloc (expanded ld) m ((expanded ld).page n) :=
  setAlloc_stop _ _ _ _ m (contains_old h hn) ((layout h).contains (pages_lt h hn))

theorem incRefs_old (h : Handover ld) (hn : n < ld.pages) (m : Mem) :
    incRefs (relocated ld) m ((expanded ld).page n) =
      incRefs (expanded ld) m ((expanded ld).page n) :=
  incRefs_stop _ _ _ _ m (contains_old h hn) ((layout h).contains (pages_lt h hn))

/-- Bitmap and counters lie on the last page before the kernel. -/
theorem setAlloc_off (h : Handover ld) (hn : n < (expanded ld).pages)
    (he : setAlloc (expanded ld) m ((expanded ld).page n) = .ok m') :
    Mem.EqOff m m' (adr 0x3FF000) 0x1000 := by
  have hL := layout h
  have h1 : (expanded ld).tracking.toNat = 0x3FF000 := tracking_toNat h
  have h2 := word_lt hn
  have h3 := bitmapBytes_expanded h
  have h4 := (words_bounds h).2.1
  rw [setAlloc, Res.assert_of (hL.contains hn), Res.ok_bind, Res.assert_of (hL.aligned hn),
    Res.ok_bind] at he
  dsimp only at he
  rw [hL.index hn, setTrackingWord_adr] at he
  cases he
  exact (Mem.eqOff_store64 m _ _).mono (Mem.within_of_adr (by omega) (by omega))

theorem incRefs_off (h : Handover ld) (hn : n < (expanded ld).pages)
    (he : incRefs (expanded ld) m ((expanded ld).page n) = .ok m') :
    Mem.EqOff m m' (adr 0x3FF000) 0x1000 := by
  have hL := layout h
  have h1 : (expanded ld).refcount.toNat = 0x3FF000 + 8 * ld.words := refcount_toNat h
  have h2 := pages_expanded h
  have h4 := (words_bounds h).2.1
  rw [incRefs, Res.assert_of (hL.contains hn), Res.ok_bind, Res.assert_of (hL.aligned hn),
    Res.ok_bind] at he
  dsimp only at he
  rw [hL.refIndex hn, setRefcount_adr] at he
  cases he
  exact (Mem.eqOff_store16 m _ _).mono (Mem.within_of_adr (by omega) (by omega))

theorem presentCount_eq (row : Fin 512 → Word) :
    presentCount row = (List.finRange 512).countP fun i => isPresent (row i) := by
  rw [List.countP_eq_length_filter]
  rfl

/-- The loop over the entries, from any counter on. -/
theorem countEntries_shows (h : Handover ld) (hn : n < ld.pages) (l : List (Fin 512)) :
    ∀ {m : Mem} {V : Tabs}, Shows (expanded ld) m (tablePages (expanded ld) ∅) V →
      ∃ m', l.foldlM (countEntry (relocated ld) ((expanded ld).page n)) m = .ok m' ∧
        Shows (expanded ld) m' (tablePages (expanded ld) ∅) (V.count n (V.cnt n +
          BitVec.ofNat 16 (l.countP fun i => isPresent (V.E ((expanded ld).page n) i)))) ∧
        Mem.EqOff m m' (adr 0x3FF000) 0x1000 := by
  have hn' := pages_lt h hn
  induction l with
  | nil =>
    intro m V hS
    refine ⟨m, rfl, ⟨hS.E, hS.trk, fun k hk => ?_⟩, Mem.EqOff.refl m _ _⟩
    rw [Tabs.count_cnt, hS.cnt k hk, List.countP_nil]
    split
    · rename_i hkn
      rw [hkn]; exact (BitVec.add_zero _).symm
    · rfl
  | cons i l ih =>
    intro m V hS
    rw [List.foldlM_cons]
    have hi : entryAt m ((expanded ld).page n) (adr i) = V.E ((expanded ld).page n) i := by
      rw [entryAt_adr]; exact hS.E _ (.inr ⟨n, hn', rfl⟩) i
    have hone : countEntry (relocated ld) ((expanded ld).page n) m i =
        if isPresent (V.E ((expanded ld).page n) i) then
          incRefs (relocated ld) m ((expanded ld).page n) else .ok m := by
      rw [← hi]; rfl
    rw [hone]
    by_cases hp : isPresent (V.E ((expanded ld).page n) i)
    · obtain ⟨m₁, h1, hS₁⟩ := incRefs_shows (layout h) (domain h) hS hn'
      obtain ⟨m', h2, hS', hoff⟩ := ih hS₁
      rw [if_pos hp, incRefs_old h hn, h1, Res.ok_bind]
      refine ⟨m', h2, ⟨hS'.E, hS'.trk, fun k hk => ?_⟩, (incRefs_off h hn' h1).trans hoff⟩
      rw [hS'.cnt k hk, Tabs.count_cnt, Tabs.count_cnt, Tabs.count_cnt, Tabs.count_cnt,
        List.countP_cons_of_pos (by simpa using hp)]
      split
      · rw [if_pos rfl, BitVec.add_assoc, BitVec.ofNat_add, BitVec.add_comm 1]
        rfl
      · rfl
    · obtain ⟨m', h2, hS', hoff⟩ := ih hS
      rw [if_neg hp, Res.ok_bind]
      refine ⟨m', h2, ?_, hoff⟩
      rwa [List.countP_cons_of_neg (by simpa using hp)]

/-- The loop reads the loader's bit. -/
theorem marked_iff (ld : LoaderData) (m : Mem) (hn : n < 2 ^ 20) :
    marked ld m (BitVec.ofNat 32 (4096 * n)) ↔ ld.marks m n = true := by
  have ha : ld.loaderPagingTracking.setWidth 64 +
      ((BitVec.ofNat 32 (4096 * n)) >>> 17).setWidth 64 * 4 =
        adr (ld.loaderPagingTracking.toNat + 4 * (n / 32)) := by
    have h1 := ld.loaderPagingTracking.isLt
    have h2 : (4 : Word).toNat = 4 := rfl
    apply BitVec.eq_of_toNat_eq
    rw [BitVec.toNat_add, BitVec.toNat_mul, BitVec.toNat_setWidth, BitVec.toNat_setWidth,
      BitVec.toNat_ushiftRight, BitVec.toNat_ofNat, Nat.shiftRight_eq_div_pow, BitVec.toNat_ofNat,
      h2]
    omega
  have hb : (((BitVec.ofNat 32 (4096 * n)) >>> 12) &&& 0x1F).toNat = n % 32 := by
    have h1 : (0x1F : BitVec 32).toNat = 2 ^ 5 - 1 := rfl
    rw [Bits.toNat_field h1, BitVec.toNat_ofNat]
    omega
  have hbit := Bits.and_bit_eq_zero (w := 32) (k := n % 32) (Nat.mod_lt _ (by decide))
    (x := m.load32 (adr (ld.loaderPagingTracking.toNat + 4 * (n / 32))))
  unfold marked
  rw [ha, hb]
  refine (not_congr hbit).trans ?_
  rw [Bool.not_eq_false]
  rfl

/-- The old bitmap is not on the page that is written. -/
theorem marks_off (h : Handover ld) (hoff : Mem.EqOff m₀ m (adr 0x3FF000) 0x1000) (hn : n < ld.pages) :
    ld.marks m n = ld.marks m₀ n := by
  have h1 := h.tracking
  have h2 := ld.loaderPagingTracking.isLt
  have h3 : (adr 0x3FF000).toNat = 0x3FF000 := rfl
  have h4 := h.size_al
  unfold LoaderData.pages at hn
  have hon : Mem.EqOn m₀ m (ld.loaderPagingTracking.toNat + 4 * (n / 32))
      (ld.loaderPagingTracking.toNat + 4 * (n / 32) + 4) :=
    .of_eqOff hoff (by omega) (by omega) (by omega)
  unfold LoaderData.marks Loader.tracked
  rw [hon.load32 (Nat.le_refl _) (Nat.le_refl _)]

theorem Copied.skip (hC : Copied ld m₀ n x m) (hm : ld.marks m₀ n = false) :
    Copied ld m₀ (n + 1) x m := by
  have hlt : ∀ k, ld.marks m₀ k = true → k < n + 1 → k < n := fun k hk hlt => by
    rcases Nat.lt_succ_iff_lt_or_eq.mp hlt with h | rfl
    · exact h
    · rw [hm] at hk; cases hk
  refine ⟨⟨hC.shows_.E, fun k hk => ?_, fun k hk => ?_⟩, hC.off,
    fun k hk hkm => hC.max_le k (hlt k hkm hk) hkm, ?_⟩
  · rw [hC.shows_.trk k hk, copied_trk, copied_trk]
    cases hkm : ld.marks m₀ k with
    | false => rw [Bool.and_false, Bool.and_false]
    | true => rw [decide_eq_decide.mpr ⟨fun h => Nat.lt_succ_of_lt h, hlt k hkm⟩]
  · rw [hC.shows_.cnt k hk, copied_cnt, copied_cnt]
    by_cases hk' : k < n ∧ ld.marks m₀ k = true
    · rw [if_pos hk', if_pos ⟨Nat.lt_succ_of_lt hk'.1, hk'.2⟩]
    · rw [if_neg hk', if_neg fun h => hk' ⟨hlt k h.2 h.1, h.2⟩]
  · exact hC.max_eq.imp_right fun ⟨k, hk, hkm, he⟩ => ⟨k, Nat.lt_succ_of_lt hk, hkm, he⟩

theorem Copied.mark (h : Handover ld) (hn : n < ld.pages) (hC : Copied ld m₀ n x m)
    (hm : ld.marks m₀ n = true) : ∃ x' m',
      retainPage (relocated ld) x m ((expanded ld).page n) = .ok (x', m') ∧
      Copied ld m₀ (n + 1) x' m' := by
  have hn' := pages_lt h hn
  have hL := layout h
  obtain ⟨m₁, h1, hS₁⟩ := setAlloc_shows hL (domain h) hC.shows_ hn'
  obtain ⟨m₂, h2, hS₂, hoff₂⟩ := countEntries_shows h hn (List.finRange 512) hS₁
  have hoff₁ := setAlloc_off h hn' h1
  refine ⟨if (expanded ld).page n > x then (expanded ld).page n else x, m₂, ?_, ?_, ?_, ?_, ?_⟩
  · unfold retainPage
    rw [setAlloc_old h hn, h1, Res.ok_bind, h2, Res.ok_bind]
  · refine ⟨hS₂.E, fun k hk => (hS₂.trk k hk).trans ?_, fun k hk => (hS₂.cnt k hk).trans ?_⟩
    · rw [Tabs.count_trk, Tabs.track_trk, copied_trk, copied_trk]
      by_cases hkn : k = n
      · rw [if_pos hkn, hkn, hm, decide_eq_true (Nat.lt_succ_self n)]; rfl
      · rw [if_neg hkn, decide_eq_decide.mpr (show k < n ↔ k < n + 1 by omega)]
    · rw [← presentCount_eq, Tabs.count_cnt, Tabs.track_cnt]
      by_cases hkn : k = n
      · rw [if_pos hkn, hkn, copied_cnt_of_le (Nat.le_refl n), copied_cnt,
          if_pos ⟨Nat.lt_succ_self n, hm⟩]
        exact BitVec.zero_add _
      · rw [if_neg hkn, copied_cnt, copied_cnt]
        exact if_congr (and_congr_left fun _ => by omega) rfl rfl
  · exact (hC.off.trans hoff₁).trans hoff₂
  · intro k hk hkm
    rcases Nat.lt_succ_iff_lt_or_eq.mp hk with hk | rfl
    · have hle := hC.max_le k hk hkm
      split
      · rename_i hgt
        exact BitVec.le_trans hle (BitVec.le_of_lt hgt)
      · exact hle
    · split
      · exact BitVec.le_refl _
      · rename_i hgt
        exact BitVec.not_lt.mp hgt
  · split
    · exact .inr ⟨n, Nat.lt_succ_self n, hm, rfl⟩
    · exact hC.max_eq.imp_right fun ⟨k, hk, hkm, he⟩ => ⟨k, Nat.lt_succ_of_lt hk, hkm, he⟩

/-! ### All pages -/

theorem offset_lt_iff (h : Handover ld) (hn : n ≤ ld.pages) :
    (BitVec.ofNat 32 (4096 * n)).setWidth 64 <
      (trackingOld (relocated ld).start (relocated ld).stop / 4) <<< 17 ↔ n < ld.pages := by
  have h1 := trackingOld_toNat h
  have h2 := h.size_al
  have h3 := h.le
  have h4 : (4 : Word).toNat = 4 := rfl
  unfold LoaderData.pages at *
  rw [BitVec.lt_def, BitVec.toNat_setWidth, BitVec.toNat_ofNat, BitVec.toNat_shiftLeft,
    BitVec.toNat_udiv, h1, h4, Nat.shiftLeft_eq]
  omega

theorem retainFrom_copied (h : Handover ld) : ∀ (fuel n : Nat) (x : Word) (m : Mem),
    n ≤ ld.pages → ld.pages - n < fuel → Copied ld m₀ n x m →
    ∃ x' m', retainFrom ld (relocated ld) fuel (BitVec.ofNat 32 (4096 * n)) x m = .ok (x', m') ∧
      Copied ld m₀ ld.pages x' m' := by
  intro fuel
  induction fuel with
  | zero => intro n _ _ _ hf; exact absurd hf (Nat.not_lt_zero _)
  | succ fuel ih =>
    intro n x m hn hf hC
    have hsucc : BitVec.ofNat 32 (4096 * n) + 0x1000 = BitVec.ofNat 32 (4096 * (n + 1)) := by
      rw [show (0x1000 : BitVec 32) = BitVec.ofNat 32 4096 from rfl, ← BitVec.ofNat_add]
      exact congrArg (BitVec.ofNat 32) (by omega)
    unfold retainFrom
    by_cases hlt : n < ld.pages
    · have hn20 : n < 2 ^ 20 := by
        have := h.le
        unfold LoaderData.pages at hlt
        omega
      rw [if_pos ((offset_lt_iff h hn).mpr hlt), page_eq hn20, hsucc]
      cases hm : ld.marks m₀ n with
      | false =>
        rw [if_neg ((marked_iff ld m hn20).not.mpr (by rw [marks_off h hC.off hlt, hm]; decide))]
        exact ih (n + 1) x m hlt (by omega) (hC.skip hm)
      | true =>
        obtain ⟨x₁, m₁, h1, hC₁⟩ := hC.mark h hlt hm
        rw [if_pos ((marked_iff ld m hn20).mpr (by rw [marks_off h hC.off hlt, hm])), h1,
          Res.ok_bind]
        exact ih (n + 1) x₁ m₁ hlt (by omega) hC₁
    · rw [if_neg ((offset_lt_iff h hn).not.mpr hlt)]
      have : n = ld.pages := by omega
      exact ⟨x, m, rfl, this ▸ hC⟩

theorem clearTracking_eq (h : Handover ld) (m : Mem) : clearTracking (relocated ld) m =
    (m.fill (adr 0x3FF000) (8 * ld.words) 0#8).fill (adr (0x3FF000 + 8 * ld.words))
      (128 * ld.words) 0#8 := by
  have h1 : (relocated ld).refcount = adr (0x3FF000 + 8 * ld.words) := by
    rw [← refcount_toNat h, adr_of_toNat]
  unfold clearTracking
  rw [bitmap_toNat h, refcountSize_toNat h, tracking_eq h, h1]
  rfl

/-- Writes to the last page before the kernel leave the pages of the range. -/
theorem page_off (h : Handover ld) (hoff : Mem.EqOff m₀ m (adr 0x3FF000) 0x1000)
    (hn : n < (expanded ld).pages) : Mem.EqOn m₀ m ((expanded ld).page n).toNat
      (((expanded ld).page n).toNat + 4096) := by
  have h1 := (layout h).page_toNat hn
  have h2 : (expanded ld).start.toNat = ld.loaderPagingBase.toNat := start_toNat ld
  have h3 : (adr 0x3FF000).toNat = 0x3FF000 := rfl
  have h4 := (words_bounds h).2.2.1
  rw [pages_expanded h] at hn
  exact .of_eqOff hoff (by omega) (by omega) (by omega)

/-- After the two `memset`s nothing is marked or counted. -/
theorem copied_init (h : Handover ld) (m₀ : Mem) :
    Copied ld m₀ 0 0 (clearTracking (relocated ld) m₀) := by
  obtain ⟨h1, h2, -, -⟩ := words_bounds h
  have h3 : (expanded ld).tracking.toNat = 0x3FF000 := tracking_toNat h
  have h4 : (expanded ld).refcount.toNat = 0x3FF000 + 8 * ld.words := refcount_toNat h
  have h5 := pages_expanded h
  rw [clearTracking_eq h]
  have hoff : Mem.EqOff m₀ ((m₀.fill (adr 0x3FF000) (8 * ld.words) 0#8).fill
      (adr (0x3FF000 + 8 * ld.words)) (128 * ld.words) 0#8) (adr 0x3FF000) 0x1000 :=
    ((Mem.eqOff_fill m₀ _ _ _).mono (Mem.within_of_adr (Nat.le_refl _) (by omega))).trans
      ((Mem.eqOff_fill _ _ _ _).mono (Mem.within_of_adr (by omega) (by omega)))
  refine ⟨⟨?_, fun k hk => ?_, fun k hk => ?_⟩, hoff, fun k hk => absurd hk (Nat.not_lt_zero k),
    .inl rfl⟩
  · rintro t (ht | ⟨k, hk, rfl⟩) i
    · exact ht.elim
    · have hi := i.isLt
      exact (page_off h hoff hk).load64 (by omega) (by omega)
  · show tracked _ _ k = false
    have h6 := word_lt hk
    have h7 := bitmapBytes_expanded h
    unfold tracked
    rw [h3, Mem.load64_fill_ne _ _ (by omega) (by omega) (by omega) (by omega),
      Mem.load64_fill_at _ (by omega) (by omega)]
    exact BitVec.getLsbD_zero
  · rw [copied_cnt_of_le (Nat.zero_le k), refs, h4, Mem.load16_fill_at _ (by omega) (by omega)]

theorem retainTables_copied (h : Handover ld) (m₀ : Mem) :
    ∃ x m, retainTables ld m₀ = .ok (x, m) ∧ Copied ld m₀ ld.pages x m := by
  have hb : ld.pages - 0 < retainBound := by
    have := h.le
    unfold retainBound LoaderData.pages
    omega
  exact retainFrom_copied h retainBound 0 0 _ (Nat.zero_le _) hb (copied_init h m₀)

end Loop

end X64k.L3.Retain
