import X64k.L3Handover.Handover

/-!
# Runs of the page allocator

After the handover `pm::alloc` and `pm::free` are called in any order. The
ghost set `held` has the pages that are in use: those retained from the loader
and those handed out, less those freed.

* `Tracks`: range and bitmap as `retainLoaderPaging` has to leave them; the
  bitmap is `len` bytes from `tracking` on, wherever that is.
* `slot_inj`: a page is told by its word and bit.
* `alloc_cases`: `alloc` takes the lowest page whose bit is clear.
* `page_runs`: in every state of every run the bits are the ghost set, and
  the next call does what it should and nothing else.
-/
namespace X64k.L3.Retain

open X64k.Core X64k.L2.Paging

/-! ## Pages and their bits -/

/-- `a` is a page of the range. -/
def IsPage (s : Statics) (a : Word) : Prop := s.start ≤ a ∧ a < s.stop ∧ a &&& 0xFFF = 0

/-- The bit of the page at `a` is set. -/
abbrev Marked (s : Statics) (m : Mem) (a : Word) : Prop :=
  trackingWord s m (PM_TRACKING_INDEX (a - s.start)) &&& PM_TRACKING_BIT (a - s.start) ≠ 0

/-- The address of the bitmap word that has it. -/
def wordOf (s : Statics) (a : Word) : Word := s.tracking + PM_TRACKING_INDEX (a - s.start) * 8

/-- The range is page-aligned, and a bitmap of `len` bytes has a word for every
page and lies outside the range. -/
structure Tracks (s : Statics) (len : Nat) : Prop where
  start_al : s.start &&& 0xFFF = 0
  stop_al : s.stop &&& 0xFFF = 0
  covers : ∀ a, IsPage s a → 8 * (PM_TRACKING_INDEX (a - s.start)).toNat + 8 ≤ len
  outside : ∀ x, Within s.tracking len x → ¬ (s.start ≤ x ∧ x < s.stop)

section Slots
variable {s : Statics} {len : Nat} {m m' : Mem} {a b : Word}

theorem trackingWord_wordOf (s : Statics) (m : Mem) (a : Word) :
    trackingWord s m (PM_TRACKING_INDEX (a - s.start)) = m.load64 (wordOf s a) := rfl

theorem marked_iff' : Marked s m a ↔
    (m.load64 (wordOf s a)).getLsbD ((a - s.start).toNat / 2 ^ 12 % 64) = true := by
  rw [Marked, trackingWord_wordOf, bit_eq]
  refine (not_congr (Bits.and_bit_eq_zero (w := 64) (Nat.mod_lt _ (by decide)))).trans ?_
  rw [Bool.not_eq_false]

theorem IsPage.offset (ht : Tracks s len) (ha : IsPage s a) :
    (a - s.start).toNat = a.toNat - s.start.toNat ∧ (a - s.start).toNat % 4096 = 0 := by
  obtain ⟨h1, -, h3⟩ := ha
  have h4 := low_iff.mp ht.start_al
  rw [low_iff] at h3
  rw [BitVec.le_def] at h1
  rw [BitVec.toNat_sub]
  omega

theorem slot_inj (ht : Tracks s len) (ha : IsPage s a) (hb : IsPage s b)
    (hw : (PM_TRACKING_INDEX (a - s.start)).toNat = (PM_TRACKING_INDEX (b - s.start)).toNat)
    (hbit : (a - s.start).toNat / 2 ^ 12 % 64 = (b - s.start).toNat / 2 ^ 12 % 64) : a = b := by
  obtain ⟨h1, h2⟩ := ha.offset ht
  obtain ⟨h3, h4⟩ := hb.offset ht
  rw [index_toNat, index_toNat] at hw
  apply BitVec.eq_of_toNat_eq
  have h5 := ha.1
  have h6 := hb.1
  rw [BitVec.le_def] at h5 h6
  omega

theorem wordOf_offset (x : Word) :
    (PM_TRACKING_INDEX x * 8).toNat = 8 * (PM_TRACKING_INDEX x).toNat := by
  have h := x.isLt
  have h8 : (8 : Word).toNat = 8 := rfl
  rw [BitVec.toNat_mul, h8, index_toNat]
  omega

theorem sep_words
    (h : (PM_TRACKING_INDEX (a - s.start)).toNat ≠ (PM_TRACKING_INDEX (b - s.start)).toNat) :
    Sep (wordOf s a) 8 (wordOf s b) 8 := by
  have h1 := (a - s.start).isLt
  have h2 := (b - s.start).isLt
  rw [index_toNat, index_toNat] at h
  refine Sep.offset _ _ _ ?_ ?_ ?_ (by decide) <;> simp only [wordOf_offset, index_toNat] <;> omega

theorem sep_page (ht : Tracks s len) (ha : IsPage s a) (hb : IsPage s b) :
    Sep (wordOf s a) 8 b 4096 := by
  have hlen := ht.covers a ha
  have hw := wordOf_offset (a - s.start)
  obtain ⟨h1, h2, h3⟩ := hb
  have h4 := low_iff.mp ht.stop_al
  rw [low_iff] at h3
  rw [BitVec.le_def] at h1
  rw [BitVec.lt_def] at h2
  have h5 := s.stop.isLt
  constructor
  · -- the page's first byte is not in the word
    by_contra hlt
    refine ht.outside b ?_ ⟨h1, h2⟩
    unfold wordOf at hlt
    simp only [Within, BitVec.toNat_sub, BitVec.toNat_add] at hlt ⊢
    omega
  · by_contra hlt
    refine ht.outside (wordOf s a) ?_ ?_
    · unfold wordOf
      simp only [Within, BitVec.toNat_sub, BitVec.toNat_add]
      omega
    · rw [BitVec.le_def, BitVec.lt_def]
      rw [BitVec.toNat_sub] at hlt
      omega

/-- A word of the bitmap in which only the bit of `a` may have changed. -/
theorem marked_store (ht : Tracks s len) (ha : IsPage s a) {v : Word} {x : Bool}
    (hv : ∀ j < 64, v.getLsbD j = if j = (a - s.start).toNat / 2 ^ 12 % 64 then x
      else (m.load64 (wordOf s a)).getLsbD j) (hb : IsPage s b) :
    Marked s (m.store64 (wordOf s a) v) b ↔ if b = a then x = true else Marked s m b := by
  have hj : (b - s.start).toNat / 2 ^ 12 % 64 < 64 := Nat.mod_lt _ (by decide)
  rw [marked_iff', marked_iff']
  by_cases hw : (PM_TRACKING_INDEX (a - s.start)).toNat = (PM_TRACKING_INDEX (b - s.start)).toNat
  · have hwo : wordOf s b = wordOf s a := by
      rw [wordOf, wordOf, BitVec.eq_of_toNat_eq hw]
    rw [hwo, Mem.load64_store64, hv _ hj]
    by_cases hba : b = a
    · rw [if_pos hba, if_pos (by rw [hba])]
    · rw [if_neg hba, if_neg fun h => hba (slot_inj ht ha hb hw h.symm).symm]
  · have hba : b ≠ a := fun h => hw (by rw [h])
    rw [if_neg hba, (Mem.eqOff_store64 m (wordOf s a) v).load64 (sep_words hw)]

theorem marked_fill (ht : Tracks s len) (ha : IsPage s a) (hb : IsPage s b) :
    Marked s (m.fill a 0x1000 0#8) b ↔ Marked s m b := by
  rw [marked_iff', marked_iff',
    (Mem.eqOff_fill m a 0x1000 0#8).load64 (sep_page ht hb ha).symm]

end Slots

/-! ## `alloc` and `free` -/

/-- The memory with the bit of the page at `a` set. -/
def marking (s : Statics) (m : Mem) (a : Word) : Mem :=
  setTrackingWord s m (PM_TRACKING_INDEX (a - s.start))
    (trackingWord s m (PM_TRACKING_INDEX (a - s.start)) ||| PM_TRACKING_BIT (a - s.start))

section Ops
variable {s : Statics} {len : Nat} {m : Mem} {a b : Word}

theorem marked_marking (ht : Tracks s len) (ha : IsPage s a) (hb : IsPage s b) :
    Marked s (marking s m a) b ↔ b = a ∨ Marked s m b := by
  have h := marked_store (m := m) (x := true) ht ha (v := m.load64 (wordOf s a) |||
    PM_TRACKING_BIT (a - s.start)) (fun j hj => ?_) hb
  · refine h.trans ?_
    by_cases hba : b = a <;> simp [hba]
  · rw [bit_eq, Bits.getLsbD_or_bit hj]
    by_cases h : j = (a - s.start).toNat / 2 ^ 12 % 64 <;> simp [h]

/-- `alloc` takes the lowest page whose bit is clear. -/
theorem alloc_cases (ht : Tracks s len) (m : Mem) :
    (alloc s m = .ok (none, m) ∧ ∀ a, IsPage s a → Marked s m a) ∨
    ∃ p, IsPage s p ∧ ¬ Marked s m p ∧ (∀ a, IsPage s a → ¬ Marked s m a → p ≤ a) ∧
      alloc s m = .ok (some p, (marking s m p).fill p 0x1000 0) := by
  have hstop := low_iff.mp ht.stop_al
  -- from `addr` on, the pages below it being marked
  have key : ∀ fuel addr, addr &&& 0xFFF = 0 → s.start ≤ addr →
      (s.stop.toNat - addr.toNat) / 4096 < fuel →
      (∀ a, IsPage s a → a < addr → Marked s m a) →
      (allocFrom s m fuel addr = .ok (none, m) ∧ ∀ a, IsPage s a → Marked s m a) ∨
      ∃ p, IsPage s p ∧ ¬ Marked s m p ∧ (∀ a, IsPage s a → ¬ Marked s m a → p ≤ a) ∧
        allocFrom s m fuel addr = .ok (some p, (marking s m p).fill p 0x1000 0) := by
    intro fuel
    induction fuel with
    | zero => intro _ _ _ hf; exact absurd hf (Nat.not_lt_zero _)
    | succ fuel ih =>
      intro addr hal hle hf hprev
      have hstep : allocFrom s m (fuel + 1) addr = if addr < s.stop then _ else _ := rfl
      by_cases hlt : addr < s.stop
      · rw [if_pos hlt] at hstep
        by_cases hm : Marked s m addr
        · rw [if_neg hm] at hstep
          rw [hstep]
          have h1 := low_iff.mp hal
          have h2 := s.stop.isLt
          rw [BitVec.lt_def] at hlt
          rw [BitVec.le_def] at hle
          have hnext : (addr + 0x1000).toNat = addr.toNat + 4096 := by
            rw [BitVec.toNat_add]
            exact Nat.mod_eq_of_lt (show addr.toNat + 4096 < 2 ^ 64 by omega)
          refine ih (addr + 0x1000) ?_ ?_ ?_ fun a ha hlt' => ?_
          · rw [low_iff, hnext]
            omega
          · rw [BitVec.le_def, hnext]
            omega
          · rw [hnext]
            omega
          · have h3 := low_iff.mp ha.2.2
            rw [BitVec.lt_def, hnext] at hlt'
            by_cases heq : a = addr
            · rw [heq]
              exact hm
            · refine hprev a ha ?_
              rw [← BitVec.toNat_inj] at heq
              rw [BitVec.lt_def]
              omega
        · rw [if_pos (not_not.mp hm)] at hstep
          refine .inr ⟨addr, ⟨hle, hlt, hal⟩, hm, fun a ha hna => ?_, hstep⟩
          by_contra hlt'
          exact hna (hprev a ha (BitVec.not_le.mp hlt'))
      · rw [if_neg hlt] at hstep
        refine .inl ⟨hstep, fun a ha => hprev a ha ?_⟩
        have h1 := ha.2.1
        rw [BitVec.lt_def] at h1 hlt ⊢
        omega
  refine key scanBound s.start ht.start_al (BitVec.le_refl _) ?_ fun a ha hlt => ?_
  · have := s.stop.isLt
    unfold scanBound
    omega
  · exact absurd ha.1 (BitVec.not_le.mpr hlt)

theorem free_marked (ht : Tracks s len) (ha : IsPage s a) (hm : Marked s m a) :
    ∃ m', free s m a = .ok m' ∧ Mem.EqOff m m' (wordOf s a) 8 ∧
      ∀ b, IsPage s b → (Marked s m' b ↔ b ≠ a ∧ Marked s m b) := by
  unfold free
  dsimp only
  rw [Res.assert_of hm, Res.ok_bind]
  refine ⟨_, rfl, Mem.eqOff_store64 m (wordOf s a) _, fun b hb => ?_⟩
  have h := marked_store (m := m) (x := false) ht ha (v := m.load64 (wordOf s a) &&&
    ~~~PM_TRACKING_BIT (a - s.start)) (fun j hj => ?_) hb
  · refine h.trans ?_
    by_cases hba : b = a <;> simp [hba]
  · rw [bit_eq, Bits.getLsbD_and_not_bit hj]
    by_cases h : j = (a - s.start).toNat / 2 ^ 12 % 64 <;> simp [h]

end Ops

/-! ## The system -/

structure AllocSt where
  statics : Statics
  mem : Mem
  /-- ghost: the pages retained and handed out, less those freed -/
  held : Set Word

inductive AllocOp where
  | alloc
  | free (a : Word)
  deriving DecidableEq, Repr

/-- Only pages that are marked are freed. -/
def AllocSt.Valid (st : AllocSt) : AllocOp → Prop
  | .alloc => True
  | .free a => IsPage st.statics a ∧ Marked st.statics st.mem a

/-- The ghost set after `alloc` has answered `r`. -/
def handOut (held : Set Word) : Option Word → Set Word
  | some p => insert p held
  | none => held

def AllocSt.exec (st : AllocSt) : AllocOp → Res AllocSt
  | .alloc => do
    let (r, m) ← alloc st.statics st.mem
    .ok { st with mem := m, held := handOut st.held r }
  | .free a => do
    let m ← free st.statics st.mem a
    .ok { st with mem := m, held := st.held \ {a} }

/-- The pages marked in the bitmap. -/
def markedPages (s : Statics) (m : Mem) : Set Word := {a | IsPage s a ∧ Marked s m a}

/-- The allocator as `retainLoaderPaging` leaves it. -/
def allocator (ld : LoaderData) (m₀ : Mem) : LTS AllocSt AllocOp where
  init st := retainLoaderPaging ld m₀ = .ok (st.statics, st.mem) ∧
    Tracks st.statics (bitmapSize ld) ∧ st.held = markedPages st.statics st.mem
  step st op st' := st.Valid op ∧ st.exec op = .ok st'

/-- What the answer `r` of `alloc` promises: `m` and `m'` are the memory before
and after, `held` are the pages in use before. -/
structure Lowest (s : Statics) (held : Set Word) (m m' : Mem) (p : Word) : Prop where
  page : IsPage s p
  fresh : p ∉ held
  lowest : ∀ a, IsPage s a → a ∉ held → p ≤ a
  zero : ∀ x, Within p 4096 x → m' x = 0
  bit : m'.load64 (wordOf s p) = m.load64 (wordOf s p) ||| PM_TRACKING_BIT (p - s.start)
  frame : ∀ x, ¬ Within p 4096 x → ¬ Within (wordOf s p) 8 x → m' x = m x

def Answers (s : Statics) (held : Set Word) (m m' : Mem) : Option Word → Prop
  | some p => Lowest s held m m' p
  | none => m' = m

/-- The invariant. -/
structure Account (ld : LoaderData) (st : AllocSt) : Prop where
  tracks : Tracks st.statics (bitmapSize ld)
  held : st.held = markedPages st.statics st.mem

section Runs
variable {ld : LoaderData} {m₀ : Mem} {st st' : AllocSt}

theorem Account.not_mem (h : Account ld st) {a : Word} (ha : IsPage st.statics a) :
    a ∉ st.held ↔ ¬ Marked st.statics st.mem a := by
  rw [h.held]
  exact not_congr (and_iff_right ha)

/-- The answer of `alloc`, and the pages marked afterwards. -/
theorem Account.alloc_spec (h : Account ld st) : ∃ r m',
    alloc st.statics st.mem = .ok (r, m') ∧ Answers st.statics st.held st.mem m' r ∧
      (r = none ↔ ∀ a, IsPage st.statics a → a ∈ st.held) ∧
      handOut st.held r = markedPages st.statics m' := by
  rcases alloc_cases h.tracks st.mem with ⟨hr, hall⟩ | ⟨p, hp, hm, hlow, hr⟩
  · refine ⟨none, st.mem, hr, rfl, ⟨fun _ a ha => ?_, fun _ => rfl⟩, h.held⟩
    rw [h.held]
    exact ⟨ha, hall a ha⟩
  · have hsep := sep_page h.tracks hp hp
    refine ⟨some p, _, hr, ⟨hp, (h.not_mem hp).mpr hm, fun a ha hna => ?_, fun x hx => ?_, ?_,
      fun x hx hw => ?_⟩, ⟨nofun, fun hall => absurd (hall p hp) ((h.not_mem hp).mpr hm)⟩, ?_⟩
    · exact hlow a ha ((h.not_mem ha).mp hna)
    · exact Mem.fill_at hx
    · rw [(Mem.eqOff_fill _ p 0x1000 0).load64 hsep.symm]
      exact Mem.load64_store64 ..
    · rw [Mem.eqOff_fill _ p 0x1000 0 x hx]
      exact Mem.eqOff_store64 _ _ _ x hw
    · ext b
      rw [handOut, h.held, Set.mem_insert_iff]
      constructor
      · rintro (rfl | ⟨hb, hbm⟩)
        · exact ⟨hp, (marked_fill h.tracks hp hp).mpr
            ((marked_marking h.tracks hp hp).mpr (.inl rfl))⟩
        · exact ⟨hb, (marked_fill h.tracks hp hb).mpr
            ((marked_marking h.tracks hp hb).mpr (.inr hbm))⟩
      · rintro ⟨hb, hbm⟩
        rcases (marked_marking h.tracks hp hb).mp ((marked_fill h.tracks hp hb).mp hbm) with rfl | hm'
        · exact .inl rfl
        · exact .inr ⟨hb, hm'⟩

theorem Account.free_spec (h : Account ld st) {a : Word} (hv : st.Valid (.free a)) : ∃ m',
    free st.statics st.mem a = .ok m' ∧ Mem.EqOff st.mem m' (wordOf st.statics a) 8 ∧
      st.held \ {a} = markedPages st.statics m' := by
  obtain ⟨m', hr, hoff, hm'⟩ := free_marked h.tracks hv.1 hv.2
  refine ⟨m', hr, hoff, ?_⟩
  ext b
  rw [h.held]
  constructor
  · rintro ⟨⟨hb, hbm⟩, hba⟩
    exact ⟨hb, (hm' b hb).mpr ⟨hba, hbm⟩⟩
  · rintro ⟨hb, hbm⟩
    obtain ⟨hba, hbm⟩ := (hm' b hb).mp hbm
    exact ⟨⟨hb, hbm⟩, hba⟩

theorem account_inductive (ld : LoaderData) (m₀ : Mem) :
    (allocator ld m₀).Inductive (Account ld) where
  init _ h := ⟨h.2.1, h.2.2⟩
  step st op st' h := by
    rintro ⟨hv, hex⟩
    cases op with
    | alloc =>
      obtain ⟨r, m', hr, -, -, hheld⟩ := h.alloc_spec
      rw [AllocSt.exec, hr, Res.ok_bind] at hex
      cases hex
      exact ⟨h.tracks, hheld⟩
    | free a =>
      obtain ⟨m', hr, -, hheld⟩ := h.free_spec hv
      rw [AllocSt.exec, hr, Res.ok_bind] at hex
      cases hex
      exact ⟨h.tracks, hheld⟩

end Runs

/-! ## The pages retained -/

section Retained
variable {ld : LoaderData} {m m' : Mem} {s : Statics}

/-- For a region of whole words, range and bitmap are as they have to be. -/
theorem Handover.tracks (h : Handover ld) : Tracks (expanded ld) (bitmapSize ld) := by
  have h1 : (expanded ld).start.toNat = ld.loaderPagingBase.toNat := start_toNat ld
  have h2 : (expanded ld).stop.toNat = 0x3FF000 := by rw [stop_eq h]; rfl
  have h3 : (expanded ld).tracking.toNat = 0x3FF000 := tracking_toNat h
  have h4 : bitmapSize ld = 8 * ld.words := bitmap_toNat h
  have h5 := h.base_al
  obtain ⟨-, h6, h7, -⟩ := words_bounds h
  refine ⟨?_, ?_, fun a ha => ?_, fun x hx hin => ?_⟩
  · rw [low_iff]
    omega
  · rw [low_iff]
    omega
  · obtain ⟨h8, h9, -⟩ := ha
    rw [BitVec.le_def] at h8
    rw [BitVec.lt_def] at h9
    rw [index_toNat, BitVec.toNat_sub]
    omega
  · obtain ⟨h8, h9⟩ := hin
    rw [BitVec.lt_def] at h9
    rw [Within, BitVec.toNat_sub] at hx
    omega

/-- The pages marked at the start are the pages the loader marked. -/
theorem Handover.retained_pages (h : Handover ld) (hr : retainLoaderPaging ld m = .ok (s, m'))
    {n : Nat} (hn : n < s.pages) :
    s.page n ∈ markedPages s m' ↔ n < ld.pages ∧ ld.marks m n = true := by
  have hR := Retained.of_ok h hr
  have hL : Layout s := retain_statics hr ▸ layout h
  have hpage : IsPage s (s.page n) :=
    ⟨(hL.contains hn).1, (hL.page_lt_stop (Nat.le_of_lt hn)).mpr hn, hL.aligned hn⟩
  have hbit : Marked s m' (s.page n) ↔ tracked s m' n = true :=
    (not_congr ((shows_tabsOf s m' ∅).test hL hn)).trans (by
      rw [Bool.not_eq_false]
      rfl)
  rw [show s.page n ∈ markedPages s m' ↔ Marked s m' (s.page n) from and_iff_right hpage, hbit]
  by_cases hlt : n < ld.pages
  · rw [hR.marked n hlt, and_iff_right hlt]
  · rw [hR.free n (Nat.le_of_not_lt hlt) hn]
    simp [hlt]

end Retained

/-! ## Main result -/

/-- **Runs of the page allocator.** In every state of a run from the handover
the marked pages are those retained and handed out less those freed. `alloc`
returns the lowest page not among them, zeroed, and changes that page and its
bit only, or nothing when there is none; `free` of a marked page succeeds. -/
theorem page_runs {ld : LoaderData} {m₀ : Mem} {st₀ st : AllocSt} {ops : List AllocOp}
    (h₀ : (allocator ld m₀).init st₀) (hrun : (allocator ld m₀).Run st₀ ops st) :
    (Handover ld → ∀ n < st₀.statics.pages,
      st₀.statics.page n ∈ st₀.held ↔ n < ld.pages ∧ ld.marks m₀ n = true) ∧
    st.held = markedPages st.statics st.mem ∧
    (∃ r m', alloc st.statics st.mem = .ok (r, m') ∧ Answers st.statics st.held st.mem m' r ∧
      (r = none ↔ ∀ a, IsPage st.statics a → a ∈ st.held)) ∧
    ∀ a, st.Valid (.free a) →
      ∃ m', free st.statics st.mem a = .ok m' ∧ Mem.EqOff st.mem m' (wordOf st.statics a) 8 := by
  have hA := (account_inductive ld m₀).run hrun ((account_inductive ld m₀).init _ h₀)
  refine ⟨fun hh n hn => ?_, hA.held, ?_, fun a hv => ?_⟩
  · rw [h₀.2.2]
    exact hh.retained_pages h₀.1 hn
  · obtain ⟨r, m', h1, h2, h3, -⟩ := hA.alloc_spec
    exact ⟨r, m', h1, h2, h3⟩
  · obtain ⟨m', h1, h2, -⟩ := hA.free_spec hv
    exact ⟨m', h1, h2⟩

theorem page_runs_published : ∃ st₀ st,
    (allocator ⟨0x100000, 0x100000, 0x200000⟩ Loader.demoMem).Run st₀ [.alloc] st ∧
    st₀.statics.page 0 ∈ st₀.held ∧ st.held = markedPages st.statics st.mem := by
  have hh : Handover ⟨0x100000, 0x100000, 0x200000⟩ :=
    ⟨by decide, by decide, by decide, .inl (by decide)⟩
  obtain ⟨s, m, hr⟩ : ∃ s m, retainLoaderPaging _ Loader.demoMem = .ok (s, m) := by
    obtain ⟨x, m₁, c, -, -, -, hok⟩ := retain_returns hh Loader.demoMem
    exact ⟨_, _, hok⟩
  have h₀ : (allocator ⟨0x100000, 0x100000, 0x200000⟩ Loader.demoMem).init
      ⟨s, m, markedPages s m⟩ := ⟨hr, retain_statics hr ▸ hh.tracks, rfl⟩
  obtain ⟨r, m', h1, -⟩ := (account_inductive _ _).init _ h₀ |>.alloc_spec
  have hrun : (allocator ⟨0x100000, 0x100000, 0x200000⟩ Loader.demoMem).Run _ [.alloc]
      ⟨s, m', handOut (markedPages s m) r⟩ :=
    .cons ⟨trivial, by rw [AllocSt.exec, h1, Res.ok_bind]⟩ (.nil _)
  obtain ⟨h2, h3, -⟩ := page_runs h₀ hrun
  have hpages : 0 < s.pages := by
    rw [retain_statics hr, pages_expanded hh]
    decide
  exact ⟨_, _, hrun, (h2 hh 0 hpages).mpr ⟨by decide, by decide +kernel⟩, h3⟩

end X64k.L3.Retain
