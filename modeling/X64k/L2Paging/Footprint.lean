import X64k.L2Paging.Translate

/-!
# What the paging code writes

`map` writes to tables, bitmap and counters, and nowhere else
(`Sound.map_confined`); `unmap` writes to bitmap and counters
(`unmap_confined`). The other way round, what is written elsewhere neither harms
the tables nor changes a translation (`Sound.off`, `Sound.get_off`).
-/
namespace X64k.L2.Paging

open X64k.Core X64k.Core.Radix

/-- The byte at `y` is in no table of `P`, nor in the bitmap or the counters. -/
structure Elsewhere (s : Statics) (P : Set Word) (y : Nat) : Prop where
  lt : y < 2 ^ 64
  tables : ∀ t ∈ P, y < t.toNat ∨ t.toNat + 4096 ≤ y
  tracking : y < s.tracking.toNat ∨ s.tracking.toNat + s.bitmapBytes ≤ y
  refcount : y < s.refcount.toNat ∨ s.refcount.toNat + 2 * s.pages ≤ y

/-- The two memories differ in tables, bitmap and counters at most. -/
def Confined (s : Statics) (P : Set Word) (m m' : Mem) : Prop :=
  ∀ y, Elsewhere s P y → m' (adr y) = m (adr y)

section Writes
variable {s : Statics} {P R : Set Word} {m m' m'' : Mem} {n q : Nat}

theorem Confined.refl (s : Statics) (P : Set Word) (m : Mem) : Confined s P m m := fun _ _ => rfl

theorem Confined.trans (h : Confined s P m m') (h' : Confined s P m' m'') : Confined s P m m'' :=
  fun y hy => (h' y hy).trans (h y hy)

theorem confined_setTrackingWord (hL : Layout s) (hn : n < s.pages) (v : Word) :
    Confined s P m (setTrackingWord s m (adr (n / 64)) v) := by
  intro y hy
  have h1 := word_lt hn
  have h2 := hL.tracking_le
  have h3 := hy.tracking
  have h4 := hy.lt
  rw [setTrackingWord_adr]
  exact Mem.EqOn.store64 m v (by omega) (by omega) (by omega) y (Nat.le_refl _) (Nat.lt_succ_self _)

theorem confined_setRefcount (hL : Layout s) (hn : n < s.pages) (c : BitVec 16) :
    Confined s P m (setRefcount s m (adr n) c) := by
  intro y hy
  have h2 := hL.refcount_le
  have h3 := hy.refcount
  have h4 := hy.lt
  rw [setRefcount_adr]
  exact Mem.EqOn.store16 m c (by omega) (by omega) (by omega) y (Nat.le_refl _) (Nat.lt_succ_self _)

theorem confined_setEntryAt (hD : Domain s P) {t : Word} (ht : t ∈ P) (i : Fin 512) (e : Word) :
    Confined s P m (setEntryAt m t (adr i) e) := by
  intro y hy
  have h1 := hD.bound t ht
  have h2 := hy.tables t ht
  have h4 := hy.lt
  have hi := i.isLt
  rw [setEntryAt_adr]
  exact Mem.EqOn.store64 m e (by omega) (by omega) (by omega) y (Nat.le_refl _) (Nat.lt_succ_self _)

theorem confined_clear (hD : Domain s P) {t : Word} (ht : t ∈ P) :
    Confined s P m (m.fill t 0x1000 0) := by
  intro y hy
  have h1 := hD.bound t ht
  have h2 := hy.tables t ht
  have h4 := hy.lt
  have hf : m.fill t 0x1000 0 = m.fill (adr t.toNat) 4096 0#8 := by rw [adr_of_toNat]; rfl
  rw [hf]
  exact Mem.EqOn.fill m 0#8 (by omega) (by omega) (by omega) (by omega) y (Nat.le_refl _)
    (Nat.lt_succ_self _)

/-! ## The allocator -/

/-- The scan from page `n` on takes a page of the range, and writes to it and
to the bitmap. -/
theorem allocFrom_confined (hL : Layout s) (hD : Domain s P) {r : Option Word} (fuel : Nat)
    (hn : n ≤ s.pages) (he : allocFrom s m fuel (s.page n) = .ok (r, m')) :
    Confined s P m m' ∧ ∀ a, r = some a → ∃ k < s.pages, a = s.page k := by
  induction fuel generalizing n with
  | zero => cases he
  | succ fuel ih =>
    have hstep : allocFrom s m (fuel + 1) (s.page n) = if s.page n < s.stop then _ else _ := rfl
    rw [hstep] at he
    by_cases hlt : n < s.pages
    · rw [if_pos ((hL.page_lt_stop hn).mpr hlt)] at he
      dsimp only at he
      split at he
      · cases he
        rw [hL.index hlt]
        refine ⟨(confined_setTrackingWord hL hlt _).trans (confined_clear hD (hD.page n hlt)), ?_⟩
        rintro _ ⟨⟩
        exact ⟨n, hlt, rfl⟩
      · rw [hL.page_succ] at he
        exact ih hlt he
    · rw [if_neg (mt (hL.page_lt_stop hn).mp hlt)] at he
      cases he
      exact ⟨.refl _ _ _, nofun⟩

theorem alloc_confined (hL : Layout s) (hD : Domain s P) {r : Option Word}
    (he : alloc s m = .ok (r, m')) :
    Confined s P m m' ∧ ∀ a, r = some a → ∃ k < s.pages, a = s.page k := by
  have hp0 : s.page 0 = s.start := by
    rw [Statics.page, Nat.mul_zero, Nat.add_zero, adr_of_toNat]
  rw [alloc, ← hp0] at he
  exact allocFrom_confined hL hD scanBound (Nat.zero_le _) he

theorem free_confined (hL : Layout s) (hn : n < s.pages) (he : free s m (s.page n) = .ok m') :
    Confined s P m m' := by
  obtain ⟨⟨⟩, -, he⟩ := Res.bind_eq_ok.mp he
  cases he
  rw [hL.index hn]
  exact confined_setTrackingWord hL hn _

theorem incRefs_confined (hL : Layout s) (hn : n < s.pages) (he : incRefs s m (s.page n) = .ok m') :
    Confined s P m m' := by
  obtain ⟨⟨⟩, -, he⟩ := Res.bind_eq_ok.mp he
  obtain ⟨⟨⟩, -, he⟩ := Res.bind_eq_ok.mp he
  cases he
  rw [hL.refIndex hn]
  exact confined_setRefcount hL hn _

theorem decRefs_confined (hL : Layout s) (hn : n < s.pages) {c : BitVec 16}
    (he : decRefs s m (s.page n) = .ok (c, m')) : Confined s P m m' := by
  obtain ⟨⟨⟩, -, he⟩ := Res.bind_eq_ok.mp he
  obtain ⟨⟨⟩, -, he⟩ := Res.bind_eq_ok.mp he
  dsimp only at he
  split at he
  · cases he
    rw [hL.refIndex hn]
    exact confined_setRefcount hL hn _
  · cases he
    exact .refl _ _ _

/-- The page that an allocation is asked to deliver. -/
theorem orPanic_eq_ok {α : Type} {o : Option α} {msg : String} {a : α}
    (h : orPanic o msg = .ok a) : o = some a := by
  cases o with
  | none => cases h
  | some b => exact congrArg some (Except.ok.inj h)

/-! ## `map` and `unmap` -/

theorem mapInPd_confined (hL : Layout s) (hD : Domain s P) (hn : n < s.pages) {k : Fin 512}
    {leaf : Word} (he : Pml4.mapInPd s m (s.page n) (adr k) leaf = .ok m') : Confined s P m m' := by
  unfold Pml4.mapInPd at he
  split at he
  · cases he
  · exact (confined_setEntryAt hD (hD.page n hn) k leaf).trans (incRefs_confined hL hn he)

theorem mapNewPd_confined (hL : Layout s) (hD : Domain s P) (hq : q < s.pages) {j k : Fin 512}
    {leaf : Word} (he : Pml4.mapNewPd s m (s.page q) (adr j) (adr k) leaf = .ok m') :
    Confined s P m m' := by
  obtain ⟨⟨o, m₁⟩, ha, he⟩ := Res.bind_eq_ok.mp he
  obtain ⟨h₁, hpage⟩ := alloc_confined hL hD ha
  obtain ⟨pd, ho, he⟩ := Res.bind_eq_ok.mp he
  obtain ⟨n, hn, rfl⟩ := hpage pd (orPanic_eq_ok ho)
  obtain ⟨m₂, hi, he⟩ := Res.bind_eq_ok.mp he
  exact (((h₁.trans (confined_setEntryAt hD (hD.page n hn) k leaf)).trans
    (confined_setEntryAt hD (hD.page q hq) j _)).trans (incRefs_confined hL hn hi)).trans
    (incRefs_confined hL hq he)

theorem mapNewPdpt_confined (hL : Layout s) (hD : Domain s P) {r : Word} (hr : r ∈ P)
    {i j k : Fin 512} {leaf : Word}
    (he : Pml4.mapNewPdpt s m r (adr i) (adr j) (adr k) leaf = .ok m') : Confined s P m m' := by
  obtain ⟨⟨o, m₁⟩, ha, he⟩ := Res.bind_eq_ok.mp he
  obtain ⟨h₁, hpage⟩ := alloc_confined hL hD ha
  obtain ⟨pdpt, ho, he⟩ := Res.bind_eq_ok.mp he
  obtain ⟨q, hq, rfl⟩ := hpage pdpt (orPanic_eq_ok ho)
  obtain ⟨⟨o', m₂⟩, ha', he⟩ := Res.bind_eq_ok.mp he
  obtain ⟨h₂, hpage'⟩ := alloc_confined hL hD ha'
  obtain ⟨pd, ho', he⟩ := Res.bind_eq_ok.mp he
  obtain ⟨n, hn, rfl⟩ := hpage' pd (orPanic_eq_ok ho')
  obtain ⟨m₃, hi, he⟩ := Res.bind_eq_ok.mp he
  exact (((((h₁.trans h₂).trans (confined_setEntryAt hD (hD.page n hn) k leaf)).trans
    (confined_setEntryAt hD (hD.page q hq) j _)).trans (confined_setEntryAt hD hr i _)).trans
    (incRefs_confined hL hn hi)).trans (incRefs_confined hL hq he)

variable {r v p f : Word}

/-- Whatever branch it takes, `map` writes to the tables on its path, to new
ones, and to their bits and counters. -/
theorem Sound.map_confined (h : Sound s R m) (hr : r ∈ R) (hv : v.toNat < 2 ^ 48)
    (he : Pml4.map s m r v p f = .ok m') : Confined s (tablePages s R) m m' := by
  have hL := h.layout
  have hD := h.domain
  obtain ⟨⟨⟩, -, he⟩ := Res.bind_eq_ok.mp he
  obtain ⟨⟨⟩, -, he⟩ := Res.bind_eq_ok.mp he
  dsimp only at he
  rw [pml4Index_eq hv, pdptIndex_eq, pdIndex_eq] at he
  simp only [entryAt_adr] at he
  cases h1 : nx (entry m r (pml4Ix v)) with
  | none =>
    rw [if_neg (nx_eq_none.mp h1)] at he
    exact mapNewPdpt_confined hL hD (.inl hr) he
  | some a =>
    obtain ⟨hp, ha⟩ := present_of_nx h1
    obtain ⟨q, hq, rfl, -⟩ := h.tree.mid a (mem_mids hr h1)
    rw [if_pos hp, ha] at he
    cases h2 : nx (entry m (s.page q) (pdptIx v)) with
    | none =>
      rw [if_neg (nx_eq_none.mp h2)] at he
      exact mapNewPd_confined hL hD hq he
    | some b =>
      obtain ⟨hp', hb⟩ := present_of_nx h2
      obtain ⟨n, hn, rfl, -⟩ := h.tree.low b (mem_lows (mem_mids hr h1) h2)
      rw [if_pos hp', hb] at he
      exact mapInPd_confined hL hD hn he

theorem dropPd_confined (hL : Layout s) (hq : q < s.pages) (hn : n < s.pages)
    (he : Pml4.dropPd s m (s.page q) (s.page n) = .ok m') : Confined s P m m' := by
  obtain ⟨⟨c, m₁⟩, hd, he⟩ := Res.bind_eq_ok.mp he
  have h₁ := decRefs_confined (P := P) hL hn hd
  dsimp only at he
  split at he
  · obtain ⟨m₂, hf, he⟩ := Res.bind_eq_ok.mp he
    obtain ⟨⟨c', m₃⟩, hd', he⟩ := Res.bind_eq_ok.mp he
    have h₃ := (h₁.trans (free_confined hL hn hf)).trans (decRefs_confined hL hq hd')
    dsimp only at he
    split at he
    · exact h₃.trans (free_confined hL hq he)
    · cases he
      exact h₃
  · cases he
    exact h₁

/-- The tables named below the roots are pages of the range, tracked or not. -/
structure InRange (s : Statics) (m : Mem) (R : Set Word) : Prop where
  mid : ∀ a ∈ mids nx (entry m) R, ∃ n < s.pages, a = s.page n
  low : ∀ b ∈ lows nx (entry m) R, ∃ n < s.pages, b = s.page n

theorem Sound.inRange (h : Sound s R m) : InRange s m R where
  mid a ha := let ⟨n, hn, he, _⟩ := h.tree.mid a ha; ⟨n, hn, he⟩
  low b hb := let ⟨n, hn, he, _⟩ := h.tree.low b hb; ⟨n, hn, he⟩

/-- `unmap` drops a reference of a page directory of the range, or does
nothing. -/
theorem unmap_drops (hI : InRange s m R) (hr : r ∈ R) (hv : v.toNat < 2 ^ 48) {b : Bool}
    (he : Pml4.unmap s m r v = .ok (b, m')) :
    m' = m ∨ ∃ q < s.pages, ∃ n < s.pages, Pml4.dropPd s m (s.page q) (s.page n) = .ok m' := by
  obtain ⟨⟨⟩, -, he⟩ := Res.bind_eq_ok.mp he
  rw [pml4Index_eq hv, pdptIndex_eq, pdIndex_eq] at he
  simp only [entryAt_adr] at he
  split at he
  · rename_i hp1
    have hm : tableOf (entry m r (pml4Ix v)) ∈ mids nx (entry m) R := mem_mids hr (if_pos hp1)
    generalize tableOf (entry m r (pml4Ix v)) = a at hm he
    obtain ⟨q, hq, rfl⟩ := hI.mid a hm
    split at he
    · rename_i hp2
      have hl : tableOf (entry m (s.page q) (pdptIx v)) ∈ lows nx (entry m) R :=
        mem_lows hm (if_pos hp2)
      generalize tableOf (entry m (s.page q) (pdptIx v)) = b at hl he
      obtain ⟨n, hn, rfl⟩ := hI.low b hl
      split at he
      · obtain ⟨m₁, hd, he⟩ := Res.bind_eq_ok.mp he
        cases he
        exact .inr ⟨q, hq, n, hn, hd⟩
      · cases he
        exact .inl rfl
    · cases he
      exact .inl rfl
  · cases he
    exact .inl rfl

/-- `unmap` writes to bits and counters, whatever they say. -/
theorem unmap_confined (hL : Layout s) (hI : InRange s m R) (hr : r ∈ R) (hv : v.toNat < 2 ^ 48)
    {b : Bool} (he : Pml4.unmap s m r v = .ok (b, m')) : Confined s P m m' := by
  rcases unmap_drops hI hr hv he with rfl | ⟨q, hq, n, hn, hd⟩
  · exact .refl _ _ _
  · exact dropPd_confined hL hq hn hd

/-- Fewer places to write to. -/
theorem Confined.mono {Q : Set Word} (h : Confined s Q m m') (hPQ : Q ⊆ P) : Confined s P m m' :=
  fun y hy => h y ⟨hy.lt, fun t ht => hy.tables t (hPQ ht), hy.tracking, hy.refcount⟩

/-- Bits and counters are in no table. -/
theorem Confined.tables (hD : Domain s P) (h : Confined s ∅ m m') : TablesShow m' P (entry m) := by
  refine TablesShow.frame (m := m) (fun _ _ _ => rfl) fun t ht y h1 h2 => h y ?_
  have h3 := hD.bound t ht
  have h4 := hD.tracking t ht
  have h5 := hD.refcount t ht
  exact ⟨by omega, nofun, by omega, by omega⟩

theorem InRange.keep (hD : Domain s (tablePages s R)) (hI : InRange s m R)
    (h : Confined s ∅ m m') : InRange s m' R := by
  have hE := h.tables hD
  have h1 : ∀ t ∈ R ∪ mids nx (entry m) R, ∀ i, nx (entry m' t i) = nx (entry m t i) := by
    rintro t (ht | ht) i
    · rw [hE t (.inl ht)]
    · obtain ⟨n, hn, rfl⟩ := hI.mid t ht
      rw [hE _ (.inr ⟨n, hn, rfl⟩)]
  obtain ⟨g1, g2⟩ := mids_lows_congr h1
  exact ⟨fun a ha => hI.mid a (g1 ▸ ha), fun b hb => hI.low b (g2 ▸ hb)⟩

end Writes

/-! ## What is written elsewhere -/

section Off
variable {s : Statics} {R : Set Word} {m m' : Mem}

/-- The memories agree on tables, bitmap and counters. -/
def Agrees (s : Statics) (P : Set Word) (m m' : Mem) : Prop :=
  ∀ y < 2 ^ 64, ¬ Elsewhere s P y → m' (adr y) = m (adr y)

/-- An interval of tables, bitmap or counters. -/
theorem Agrees.eqOn {P : Set Word} (h : Agrees s P m m') {lo hi : Nat} (hhi : hi ≤ 2 ^ 64)
    (hin : ∀ y, lo ≤ y → y < hi → ¬ Elsewhere s P y) : Mem.EqOn m m' lo hi :=
  fun y h1 h2 => h y (by omega) (hin y h1 h2)

theorem Agrees.tables {P : Set Word} (hD : Domain s P) (h : Agrees s P m m') :
    TablesShow m' P (entry m) := by
  refine TablesShow.frame (m := m) (fun _ _ _ => rfl) fun t ht => h.eqOn (hD.bound t ht) ?_
  intro y h1 h2 hy
  have := hy.tables t ht
  omega

theorem Agrees.shows_ {P : Set Word} (hL : Layout s) (hD : Domain s P) (h : Agrees s P m m') :
    Shows s m' P (tabsOf s m) := by
  refine ⟨h.tables hD, fun n hn => ?_, fun n hn => ?_⟩
  · have h1 := word_lt hn
    have hag : Mem.EqOn m m' s.tracking.toNat (s.tracking.toNat + s.bitmapBytes) :=
      h.eqOn hL.tracking_le fun y h2 h3 hy => by have := hy.tracking; omega
    show tracked s m' n = tracked s m n
    unfold tracked
    rw [hag.load64 (by omega) (by omega)]
  · have hag : Mem.EqOn m m' s.refcount.toNat (s.refcount.toNat + 2 * s.pages) :=
      h.eqOn hL.refcount_le fun y h2 h3 hy => by have := hy.refcount; omega
    exact hag.load16 (by omega) (by omega)

theorem Sound.off (h : Sound s R m) (hag : Agrees s (tablePages s R) m m') : Sound s R m' :=
  h.shows_ (hag.shows_ h.layout h.domain) h.tree h.rooted'

theorem Sound.get_off (h : Sound s R m) (hag : Agrees s (tablePages s R) m m') {r v : Word}
    (hr : r ∈ R) (hv : v.toNat < 2 ^ 48) : Pml4.get m' r v = Pml4.get m r v :=
  h.get_congr (hag.tables h.domain) hr hv

end Off

end X64k.L2.Paging
