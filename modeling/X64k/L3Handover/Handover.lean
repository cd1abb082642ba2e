import X64k.L3Handover.ReadBack
import X64k.L3Handover.Retained

/-!
# The handover

`retained`: after `retainLoaderPaging` the kernel's bitmap says what the
loader's said, every retained page has as many references as present entries
and the contents it had, and bitmap and counters lie behind the new range.
-/
namespace X64k.L3.Retain

open X64k.Core X64k.L2.Paging

/-! ## The cleanup -/

section Cleanup
variable {ld : LoaderData} {m₀ m : Mem} {x : Word}

/-- `maxStruct` is below the region's end, so the cleanup ends where the new
range does. -/
theorem Copied.max_bound (h : Handover ld) (hC : Copied ld m₀ ld.pages x m) :
    x.toNat + 0x1000 ≤ 0x3C0000 := by
  rcases hC.max_eq with rfl | ⟨k, hk, -, rfl⟩
  · decide
  · have h1 := (layout h).page_toNat (pages_lt h hk)
    have h2 : (expanded ld).start.toNat = ld.loaderPagingBase.toNat := start_toNat ld
    have h3 := h.le
    unfold LoaderData.pages at hk
    omega

theorem Copied.cleanup_eq (h : Handover ld) (hC : Copied ld m₀ ld.pages x m) :
    ∃ c, cleanup (expanded ld) x = some c ∧ c.dst = adr (x.toNat + 0x1000) ∧
      c.len.toNat = 0x3FF000 - (x.toNat + 0x1000) := by
  have h1 := hC.max_bound h
  have h2 : (expanded ld).tracking.toNat = 0x3FF000 := tracking_toNat h
  have h3 : (0x3FF000 : Word).toNat = 0x3FF000 := rfl
  have hd : x + 0x1000 = adr (x.toNat + 0x1000) := by
    rw [← adr_add, adr_of_toNat]; rfl
  have hne : x ≠ (expanded ld).tracking := fun he => by
    rw [he] at h1
    omega
  refine ⟨_, if_pos hne, hd, ?_⟩
  rw [hd, stop_eq h, BitVec.toNat_sub, adr_toNat (by omega), h3]
  omega

/-- The cleanup leaves everything from the bitmap on, and up to `maxStruct`. -/
theorem Copied.cleaned (h : Handover ld) (hC : Copied ld m₀ ld.pages x m) {c : Clear}
    (hdst : c.dst = adr (x.toNat + 0x1000)) (hlen : c.len.toNat = 0x3FF000 - (x.toNat + 0x1000)) :
    Mem.EqOn m (c.run m) 0x3FF000 (2 ^ 64) ∧ Mem.EqOn m (c.run m) 0 (x.toNat + 0x1000) := by
  have hx := hC.max_bound h
  rw [Clear.run, hdst, hlen]
  exact ⟨Mem.EqOn.fill m 0#8 (by omega) (by omega) (by omega) (Nat.le_refl _),
    Mem.EqOn.fill m 0#8 (by omega) (by omega) (by omega) (by omega)⟩

/-- Behind the range, the bookkeeping of the copy is left alone. -/
theorem Copied.cleaned_books (h : Handover ld) (hC : Copied ld m₀ ld.pages x m) {m' : Mem}
    (hm : Mem.EqOn m m' 0x3FF000 (2 ^ 64)) : ∀ n < (expanded ld).pages,
      tracked (expanded ld) m' n = (copied ld m₀ ld.pages).trk n ∧
        refs (expanded ld) m' n = (copied ld m₀ ld.pages).cnt n := by
  intro n hn
  have hL := layout h
  have h2 : (expanded ld).tracking.toNat = 0x3FF000 := tracking_toNat h
  have h3 : (expanded ld).refcount.toNat = 0x3FF000 + 8 * ld.words := refcount_toNat h
  have h5 := pages_expanded h
  obtain ⟨hw1, hw2, hw3, -⟩ := words_bounds h
  have hword := word_lt hn
  rw [← hC.shows_.trk n hn, ← hC.shows_.cnt n hn]
  refine ⟨?_, hm.load16 (by omega) (by omega)⟩
  unfold tracked
  rw [hm.load64 (by omega) (by omega)]

/-- Below `maxStruct`, so are the pages. -/
theorem Copied.cleaned_page (h : Handover ld) (hC : Copied ld m₀ ld.pages x m) {m' : Mem}
    (hm : Mem.EqOn m m' 0 (x.toNat + 0x1000)) {n : Nat} (hn : n < ld.pages)
    (ht : ld.marks m₀ n = true) : Mem.EqOn m₀ m' ((expanded ld).page n).toNat
      (((expanded ld).page n).toNat + 4096) := by
  have hle := hC.max_le n hn ht
  rw [BitVec.le_def] at hle
  exact (page_off h hC.off (pages_lt h hn)).trans (hm.mono (by omega) (by omega))

end Cleanup

/-! ## Main result -/

/-- Bytes of the new bitmap. -/
def bitmapSize (ld : LoaderData) : Nat :=
  (trackingOld (relocated ld).start (relocated ld).stop + trackingDelta (relocated ld).stop).toNat

/-- What the kernel has retained of the loader's region: `m` and `m'` are the
memory before and after. -/
structure Retained (ld : LoaderData) (m : Mem) (s : Statics) (m' : Mem) : Prop where
  start : s.start.toNat = ld.loaderPagingBase.toNat
  stop : s.stop = 0x3FF000
  marked : ∀ n < ld.pages, tracked s m' n = ld.marks m n
  free : ∀ n, ld.pages ≤ n → n < s.pages → tracked s m' n = false
  apart : Apart s.tracking.toNat (bitmapSize ld) s.refcount.toNat s.refcountSize.toNat
  after : s.stop.toNat ≤ s.tracking.toNat ∧ s.stop.toNat ≤ s.refcount.toNat
  before : s.tracking.toNat + bitmapSize ld ≤ 0x400000 ∧
    s.refcount.toNat + s.refcountSize.toNat ≤ 0x400000
  long : s.bitmapBytes ≤ bitmapSize ld ∧ 2 * s.pages ≤ s.refcountSize.toNat
  counted : ∀ n < ld.pages, ld.marks m n = true →
    (refs s m' n).toNat = presentCount (entry m' (s.page n))
  uncounted : ∀ n < s.pages, (n < ld.pages → ld.marks m n = false) → refs s m' n = 0
  contents : ∀ n < ld.pages, ld.marks m n = true →
    Mem.EqOn m m' (s.page n).toNat ((s.page n).toNat + 4096)

theorem retain_statics {ld : LoaderData} {m m' : Mem} {s : Statics}
    (h : retainLoaderPaging ld m = .ok (s, m')) : s = expanded ld := by
  unfold retainLoaderPaging at h
  obtain ⟨⟨x, m₁⟩, -, h⟩ := Res.bind_eq_ok.mp h
  dsimp only at h
  split at h <;> cases h <;> rfl

/-- `retainLoaderPaging` carries the bitmap over and then clears what lies
between the last page kept and the new bitmap. -/
theorem retain_returns {ld : LoaderData} (h : Handover ld) (m : Mem) :
    ∃ (x : Word) (m₁ : Mem) (c : Clear), Copied ld m ld.pages x m₁ ∧
      c.dst = adr (x.toNat + 0x1000) ∧ c.len.toNat = 0x3FF000 - (x.toNat + 0x1000) ∧
      retainLoaderPaging ld m = .ok (expanded ld, c.run m₁) := by
  obtain ⟨x, m₁, h1, hC⟩ := retainTables_copied h m
  obtain ⟨c, h2, hdst, hlen⟩ := hC.cleanup_eq h
  refine ⟨x, m₁, c, hC, hdst, hlen, ?_⟩
  unfold retainLoaderPaging
  rw [h1, Res.ok_bind]
  dsimp only
  rw [h2]

theorem kernel_kept {ld : LoaderData} (h : Handover ld) {m m' : Mem} {s : Statics}
    (hr : retainLoaderPaging ld m = .ok (s, m')) : Mem.EqOn m m' 0x400000 (2 ^ 64) := by
  obtain ⟨x, m₁, c, hC, hdst, hlen, hok⟩ := retain_returns h m
  cases hok.symm.trans hr
  have hoff : Mem.EqOn m m₁ 0x400000 (2 ^ 64) :=
    .of_eqOff hC.off (.inl (by decide)) (by decide) (Nat.le_refl _)
  exact hoff.trans ((hC.cleaned h hdst hlen).1.mono (by decide) (Nat.le_refl _))

theorem Retained.of_ok {ld : LoaderData} (h : Handover ld) {m m' : Mem} {s : Statics}
    (hr : retainLoaderPaging ld m = .ok (s, m')) : Retained ld m s m' := by
  obtain ⟨x, m₁, c, hC, hdst, hlen, hok⟩ := retain_returns h m
  cases hok.symm.trans hr
  obtain ⟨hhigh, hlow⟩ := hC.cleaned h hdst hlen
  have hbooks := hC.cleaned_books h hhigh
  have hpage {n : Nat} (hn : n < ld.pages) (hm : ld.marks m n = true) :=
    hC.cleaned_page h hlow hn hm
  have hL := layout h
  have hs1 : (expanded ld).stop.toNat = 0x3FF000 := by rw [stop_eq h]; rfl
  have hs2 : (expanded ld).tracking.toNat = 0x3FF000 := tracking_toNat h
  have hs3 : (expanded ld).refcount.toNat = 0x3FF000 + 8 * ld.words := refcount_toNat h
  have hs4 : (expanded ld).refcountSize.toNat = 128 * ld.words := refcountSize_toNat h
  have hs5 := pages_expanded h
  have hs6 := bitmapBytes_expanded h
  have hs7 : bitmapSize ld = 8 * ld.words := bitmap_toNat h
  obtain ⟨hw1, hw2, hw3, -⟩ := words_bounds h
  refine ⟨start_toNat ld, stop_eq h, fun n hn => ?_, fun n hn hn' => ?_, by omega, by omega,
    by omega, by omega, fun n hn hm => ?_, fun n hn hm => ?_, fun n => hpage⟩
  · rw [(hbooks n (pages_lt h hn)).1, copied_trk, decide_eq_true hn, Bool.true_and]
  · rw [(hbooks n hn').1, copied_trk, decide_eq_false (Nat.not_lt.mpr hn), Bool.false_and]
  · have hrow : entry (c.run m₁) ((expanded ld).page n) = entry m ((expanded ld).page n) :=
      funext fun i => by
        have hi := i.isLt
        have := hL.page_toNat (pages_lt h hn)
        exact (hpage hn hm).load64 (by omega) (by omega)
    have hle := presentCount_le (entry m ((expanded ld).page n))
    rw [(hbooks n (pages_lt h hn)).2, copied_cnt, if_pos ⟨hn, hm⟩, hrow, BitVec.toNat_ofNat]
    omega
  · rw [(hbooks n hn).2, copied_cnt, if_neg fun h' => ?_]
    rw [hm h'.1] at h'
    cases h'.2

/-- **The handover.** `retainLoaderPaging` returns, and has retained the
loader's pages. -/
theorem retained {ld : LoaderData} (h : Handover ld) (m : Mem) :
    ∃ s m', retainLoaderPaging ld m = .ok (s, m') ∧ Retained ld m s m' := by
  obtain ⟨x, m₁, c, -, -, -, hok⟩ := retain_returns h m
  exact ⟨_, _, hok, .of_ok h hok⟩

theorem retained_published : ∃ s m',
    retainLoaderPaging ⟨0x100000, 0x100000, 0x200000⟩ Loader.demoMem = .ok (s, m') ∧
    tracked s m' 0 = true ∧ tracked s m' 1 = false := by
  obtain ⟨s, m', h, hR⟩ := retained
    (show Handover ⟨0x100000, 0x100000, 0x200000⟩ from
      ⟨by decide, by decide, by decide, .inl (by decide)⟩) Loader.demoMem
  exact ⟨s, m', h, (hR.marked 0 (by decide)).trans (by decide +kernel),
    (hR.marked 1 (by decide)).trans (by decide +kernel)⟩

end X64k.L3.Retain
