import X64k.L2Paging.Translate

/-!
# Write permission

A page may be written to when all three entries that translate it have `F_RW`.
`map` puts the flags it is given into the lowest of them, gives `F_RW` to the
two above if it makes them, and leaves them alone otherwise.

* `Extends`: what `map` does to entries: those present stay, new ones that
  name tables are writable.
* `Extends.opens_iff`: so whether the upper entries of a path let a write
  through never changes.
* `Sound.map_extends`: `map` of an unmapped page.
-/
namespace X64k.L2.Paging

open X64k.Core X64k.Core.Radix

/-- The test `entry & F_RW`. -/
abbrev isWritable (e : Word) : Prop := e &&& F_RW ≠ 0

/-- Bit 1 of an entry is the writable bit. -/
theorem isWritable_iff {e : Word} : isWritable e ↔ e.getLsbD 1 = true := by
  have h : F_RW = (1#64) <<< 1 := rfl
  rw [isWritable, ne_eq, h, show (0 : Word) = 0#64 from rfl, Bits.and_bit_eq_zero (by decide)]
  simp

/-- The processor's check of a write to `v` below the table at `p`. -/
def Writable (m : Mem) (p v : Word) : Prop :=
  let pml4e := entryAt m p (pml4Index v)
  let pdpte := entryAt m (tableOf pml4e) (pdptIndex v)
  let pde := entryAt m (tableOf pdpte) (pdIndex v)
  isWritable pml4e ∧ isWritable pdpte ∧ isWritable pde

instance (m : Mem) (p v : Word) : Decidable (Writable m p v) :=
  inferInstanceAs (Decidable (_ ∧ _ ∧ _))

/-! ## Paths -/

section
variable (E E' : Word → Fin 512 → Word) (R : Set Word) (r : Word) (i j k : Fin 512)

/-- The path ends at the entry `e`. -/
def Ends (e : Word) : Prop := ∃ a b, nx (E r i) = some a ∧ nx (E a j) = some b ∧ E b k = e

/-- The entries above the page directory, where they are present, have `F_RW`. -/
def Opens : Prop := ∀ a, nx (E r i) = some a →
  isWritable (E r i) ∧ ∀ b, nx (E a j) = some b → isWritable (E a j)

/-- Entries that are present stay, and new ones that name tables are writable. -/
structure Extends : Prop where
  kept : ∀ t ∈ R ∪ mids nx E R ∪ lows nx E R, ∀ x, isPresent (E t x) → E' t x = E t x
  root : ∀ r ∈ R, ∀ i, E' r i = E r i ∨ isWritable (E' r i)
  mid : ∀ r ∈ R, ∀ i a, nx (E' r i) = some a → ∀ j,
    nx (E r i) = some a ∧ E' a j = E a j ∨ nx (E' a j) = none ∨ isWritable (E' a j)

end

section
variable {E E' : Word → Fin 512 → Word} {R : Set Word} {r e : Word} {i j k : Fin 512}

theorem Extends.nx_kept (h : Extends E E' R) {t : Word}
    (ht : t ∈ R ∪ mids nx E R ∪ lows nx E R) {x : Fin 512} {a : Word} (ha : nx (E t x) = some a) :
    E' t x = E t x ∧ nx (E' t x) = some a := by
  have he := h.kept t ht x (present_of_nx ha).1
  exact ⟨he, by rw [he, ha]⟩

theorem Extends.opens_iff (h : Extends E E' R) (hr : r ∈ R) : Opens E' r i j ↔ Opens E r i j := by
  constructor
  · intro ho a ha
    obtain ⟨he, ha'⟩ := h.nx_kept (.inl (.inl hr)) ha
    obtain ⟨h1, h2⟩ := ho a ha'
    rw [he] at h1
    refine ⟨h1, fun b hb => ?_⟩
    obtain ⟨he', hb'⟩ := h.nx_kept (.inl (.inr (mem_mids hr ha))) hb
    have h3 := h2 b hb'
    rwa [he'] at h3
  · intro ho a ha
    refine ⟨?_, fun b hb => ?_⟩
    · rcases h.root r hr i with he | hw
      · rw [he] at ha ⊢
        exact (ho a ha).1
      · exact hw
    · rcases h.mid r hr i a ha j with ⟨ha', he⟩ | hnone | hw
      · rw [he] at hb ⊢
        exact (ho a ha').2 b hb
      · rw [hnone] at hb
        cases hb
      · exact hw

theorem Extends.ends (h : Extends E E' R) (hr : r ∈ R) (he : isPresent e)
    (hend : Ends E r i j k e) : Ends E' r i j k e := by
  obtain ⟨a, b, ha, hb, rfl⟩ := hend
  have hm := mem_mids hr ha
  refine ⟨a, b, (h.nx_kept (.inl (.inl hr)) ha).2, (h.nx_kept (.inl (.inr hm)) hb).2, ?_⟩
  exact h.kept b (.inr (mem_lows hm hb)) k he

theorem Ends.writable_iff {a b : Word} (ha : nx (E r i) = some a) (hb : nx (E a j) = some b) :
    Opens E r i j ↔ isWritable (E r i) ∧ isWritable (E a j) := by
  constructor
  · intro ho
    exact ⟨(ho a ha).1, (ho a ha).2 b hb⟩
  · rintro ⟨h1, h2⟩ a' ha'
    obtain rfl := Option.some.inj (ha.symm.trans ha')
    exact ⟨h1, fun _ _ => h2⟩

/-- The processor's check, by the path. -/
theorem writable_iff {m : Mem} {v : Word} (hv : v.toNat < 2 ^ 48)
    (h : Ends (entry m) r (pml4Ix v) (pdptIx v) (pdIx v) e) :
    Writable m r v ↔ Opens (entry m) r (pml4Ix v) (pdptIx v) ∧ isWritable e := by
  obtain ⟨a, b, ha, hb, rfl⟩ := h
  unfold Writable
  dsimp only
  rw [pml4Index_eq hv, pdptIndex_eq, pdIndex_eq, entryAt_adr, (present_of_nx ha).2, entryAt_adr,
    (present_of_nx hb).2, entryAt_adr, Ends.writable_iff ha hb, and_assoc]

/-! ## `map` -/

theorem link_writable (t : Word) : isWritable (link t) := by
  have h : F_RW.getLsbD 1 = true := by decide
  rw [isWritable_iff, link, BitVec.getLsbD_or, h, Bool.or_true]

end

section
variable {s : Statics} {P R : Set Word} {V V' : Tabs} {r leaf : Word} {i j k : Fin 512}

/-- A page that is not taken is none of the tables. -/
theorem Rooted.not_table (hL : Layout s) (hT : Tree s V R) (hR : Rooted s P V R) {n : Nat}
    (hn : n < s.pages) (ht : V.trk n = false) {t : Word}
    (hmem : t ∈ R ∪ mids nx V.E R ∪ lows nx V.E R) : t ≠ s.page n := by
  rintro rfl
  obtain ⟨hm, hl⟩ := fresh_not_named hL hT hn ht
  rcases hmem with (hr | hm') | hl'
  · exact hR.not_root hn ht hr
  · exact hm hm'
  · exact hl hl'

theorem putLeaf_extends {n : Nat} {a : Word} (hT : Tree s V R) (hr : r ∈ R)
    (h1 : nx (V.E r i) = some a) (h2 : nx (V.E a j) = some (s.page n))
    (h3 : ¬ isPresent (V.E (s.page n) k)) : Extends V.E (putLeaf s V n k leaf).E R := by
  have hlow : s.page n ∈ lows nx V.E R := mem_lows (mem_mids hr h1) h2
  have hup : ∀ t ∈ R ∪ mids nx V.E R, ∀ x, (putLeaf s V n k leaf).E t x = V.E t x := by
    intro t ht x
    rw [putLeaf_E, if_neg]
    rintro ⟨rfl, -⟩
    exact ht.elim (hT.forest.low_root hlow) (hT.forest.low_mid hlow)
  refine ⟨fun t _ x hp => ?_, fun r' hr' i' => .inl (hup r' (.inl hr') i'),
    fun r' hr' i' a' ha' j' => .inl ?_⟩
  · rw [putLeaf_E, if_neg]
    rintro ⟨rfl, rfl⟩
    exact h3 hp
  · rw [hup r' (.inl hr')] at ha'
    exact ⟨ha', hup a' (.inr (mem_mids hr' ha')) j'⟩

theorem putPd_extends {q n : Nat} (hL : Layout s) (hT : Tree s V R) (hR : Rooted s P V R)
    (hr : r ∈ R) (h1 : nx (V.E r i) = some (s.page q)) (h2 : nx (V.E (s.page q) j) = none)
    (hn : n < s.pages) (hnt : V.trk n = false) : Extends V.E (putPd s V q n j k leaf).E R := by
  have hqm : s.page q ∈ mids nx V.E R := mem_mids hr h1
  have hold : ∀ t ∈ R ∪ mids nx V.E R ∪ lows nx V.E R, ∀ x, ¬ (t = s.page q ∧ x = j) →
      (putPd s V q n j k leaf).E t x = V.E t x := by
    intro t ht x hne
    have htn := hR.not_table hL hT hn hnt ht
    rw [putPd_E, if_neg hne, if_neg fun h => htn h.1, if_neg htn]
  have hroot : ∀ r' ∈ R, ∀ i', (putPd s V q n j k leaf).E r' i' = V.E r' i' := fun r' hr' i' =>
    hold r' (.inl (.inl hr')) i' fun h => hT.forest.mid_root hqm (h.1 ▸ hr')
  refine ⟨fun t ht x hp => hold t ht x ?_, fun r' hr' i' => .inl (hroot r' hr' i'),
    fun r' hr' i' a' ha' j' => ?_⟩
  · rintro ⟨rfl, rfl⟩
    exact nx_eq_none.mp h2 hp
  · rw [hroot r' hr'] at ha'
    by_cases he : a' = s.page q ∧ j' = j
    · refine .inr (.inr ?_)
      rw [putPd_E, if_pos he]
      exact link_writable _
    · exact .inl ⟨ha', hold a' (.inl (.inr (mem_mids hr' ha'))) j' he⟩

theorem putPdpt_extends {q n : Nat} (hL : Layout s) (hT : Tree s V R) (hR : Rooted s P V R)
    (hr : r ∈ R) (h1 : nx (V.E r i) = none) (hq : q < s.pages) (hn : n < s.pages)
    (hqt : V.trk q = false) (hnt : V.trk n = false) (hnq : n ≠ q) :
    Extends V.E (putPdpt s V r q n i j k leaf).E R := by
  have hpn : s.page q ≠ s.page n := (hL.page_inj hq hn).not.mpr hnq.symm
  have hqr : s.page q ≠ r := (hR.not_table hL hT hq hqt (.inl (.inl hr))).symm
  have hold : ∀ t ∈ R ∪ mids nx V.E R ∪ lows nx V.E R, ∀ x, ¬ (t = r ∧ x = i) →
      (putPdpt s V r q n i j k leaf).E t x = V.E t x := by
    intro t ht x hne
    have htn := hR.not_table hL hT hn hnt ht
    have htq := hR.not_table hL hT hq hqt ht
    rw [putPdpt_E, if_neg hne, if_neg fun h => htq h.1, if_neg fun h => htn h.1, if_neg htn,
      if_neg htq]
  have hlink : (putPdpt s V r q n i j k leaf).E r i = link (s.page q) := by
    rw [putPdpt_E, if_pos ⟨rfl, rfl⟩]
  refine ⟨fun t ht x hp => hold t ht x ?_, fun r' hr' i' => ?_, fun r' hr' i' a' ha' j' => ?_⟩
  · rintro ⟨rfl, rfl⟩
    exact nx_eq_none.mp h1 hp
  · by_cases he : r' = r ∧ i' = i
    · obtain ⟨rfl, rfl⟩ := he
      rw [hlink]
      exact .inr (link_writable _)
    · exact .inl (hold r' (.inl (.inl hr')) i' he)
  · by_cases he : r' = r ∧ i' = i
    · -- the new PDPT has one entry, and it is writable
      obtain ⟨rfl, rfl⟩ := he
      rw [hlink, nx_link (hL.aligned hq)] at ha'
      obtain rfl := Option.some.inj ha'
      rw [putPdpt_E, if_neg fun h => hqr h.1]
      by_cases hj : j' = j
      · rw [if_pos ⟨rfl, hj⟩]
        exact .inr (.inr (link_writable _))
      · rw [if_neg fun h => hj h.2, if_neg fun h => hpn h.1, if_neg hpn, if_pos rfl]
        exact .inr (.inl nx_zero)
    · rw [hold r' (.inl (.inl hr')) i' he] at ha'
      refine .inl ⟨ha', hold a' (.inl (.inr (mem_mids hr' ha'))) j' fun h => ?_⟩
      exact hT.forest.mid_root (mem_mids hr' ha') (h.1 ▸ hr)

theorem Mapped.extends (hL : Layout s) (hT : Tree s V R) (hR : Rooted s P V R) (hr : r ∈ R)
    (h : Mapped s V r i j k leaf V') : Extends V.E V'.E R := by
  cases h with
  | inPd h1 h2 _ h3 => exact putLeaf_extends hT hr h1 h2 h3
  | newPd h1 h2 _ hn _ hnt => exact putPd_extends hL hT hR hr h1 h2 hn hnt
  | newPdpt h1 hq hn hqt hnt hnq => exact putPdpt_extends hL hT hR hr h1 hq hn hqt hnt hnq

theorem Mapped.ends (hL : Layout s) (hT : Tree s V R) (hR : Rooted s P V R) (hr : r ∈ R)
    (h : Mapped s V r i j k leaf V') : Ends V'.E r i j k leaf := by
  have hE := h.extends hL hT hR hr
  cases h with
  | @inPd a n h1 h2 hn h3 =>
    refine ⟨a, s.page n, (hE.nx_kept (.inl (.inl hr)) h1).2,
      (hE.nx_kept (.inl (.inr (mem_mids hr h1))) h2).2, ?_⟩
    rw [putLeaf_E, if_pos ⟨rfl, rfl⟩]
  | @newPd q n h1 h2 hq hn hqt hnt =>
    have hqn : q ≠ n := ne_of_apply_ne V.trk (by simp [hqt, hnt])
    have hpn : s.page n ≠ s.page q := (hL.page_inj hn hq).not.mpr hqn.symm
    refine ⟨s.page q, s.page n, (hE.nx_kept (.inl (.inl hr)) h1).2, ?_, ?_⟩
    · rw [putPd_E, if_pos ⟨rfl, rfl⟩, nx_link (hL.aligned hn)]
    · rw [putPd_E, if_neg fun h => hpn h.1, if_pos ⟨rfl, rfl⟩]
  | @newPdpt q n h1 hq hn hqt hnt hnq =>
    have hpn : s.page n ≠ s.page q := (hL.page_inj hn hq).not.mpr hnq
    have hne {x : Nat} (hx : x < s.pages) (ht : V.trk x = false) : s.page x ≠ r := fun h =>
      hR.not_root hx ht (h ▸ hr)
    refine ⟨s.page q, s.page n, ?_, ?_, ?_⟩
    · rw [putPdpt_E, if_pos ⟨rfl, rfl⟩, nx_link (hL.aligned hq)]
    · rw [putPdpt_E, if_neg fun h => hne hq hqt h.1, if_pos ⟨rfl, rfl⟩, nx_link (hL.aligned hn)]
    · rw [putPdpt_E, if_neg fun h => hne hn hnt h.1, if_neg fun h => hpn h.1, if_pos ⟨rfl, rfl⟩]

end

/-! ## In memory -/

section
variable {s : Statics} {R : Set Word} {m m' : Mem} {r v p f : Word}

/-- What one memory's tables are to another's, when only tables of the second
are looked at. -/
theorem Extends.congr {E E' E'' : Word → Fin 512 → Word} (h : Extends E E' R)
    (heq : ∀ t ∈ R ∪ mids nx E R ∪ lows nx E R ∪ mids nx E' R, ∀ x, E'' t x = E' t x) :
    Extends E E'' R := by
  refine ⟨fun t ht x hp => ?_, fun r hr i => ?_, fun r hr i a ha j => ?_⟩
  · rw [heq t (.inl ht)]
    exact h.kept t ht x hp
  · rw [heq r (.inl (.inl (.inl hr)))]
    exact h.root r hr i
  · rw [heq r (.inl (.inl (.inl hr)))] at ha
    rw [heq a (.inr (mem_mids hr ha))]
    exact h.mid r hr i a ha j

theorem Sound.map_extends (h : Sound s R m) (hr : r ∈ R) (hv : Canonical v) (hp : p &&& 0x1FFFFF = 0)
    (hfree : Pml4.get m r v = none) (hmap : Pml4.map s m r v p f = .ok m') :
    Extends (entry m) (entry m') R ∧
      Ends (entry m') r (pml4Ix v) (pdptIx v) (pdIx v) (p ||| f ||| F_PRESENT ||| F_PS) := by
  have hS := shows_tabsOf s m (tablePages s R)
  rcases map_shows (f := f) h.layout h.domain hS h.tree h.rooted' hr hv.1 hv.2 hp
    ((get_none_iff hv.1).mp hfree) with ⟨msg, he, -⟩ | ⟨m₁, V', he, hS', hM⟩
  · rw [he] at hmap
    cases hmap
  rw [he] at hmap
  obtain rfl := Except.ok.inj hmap
  obtain ⟨hT', -, -⟩ := hM.tree h.layout h.tree h.rooted' hr
  have hpage : ∀ {t}, (∃ n < s.pages, t = s.page n ∧ V'.trk n = true) → t ∈ tablePages s R :=
    fun ⟨n, hn, he, _⟩ => .inr ⟨n, hn, he⟩
  have hpage₀ : ∀ {t}, (∃ n < s.pages, t = s.page n ∧ (tabsOf s m).trk n = true) →
      t ∈ tablePages s R := fun ⟨n, hn, he, _⟩ => .inr ⟨n, hn, he⟩
  refine ⟨(hM.extends h.layout h.tree h.rooted' hr).congr fun t ht x => hS'.E t ?_ x, ?_⟩
  · rcases ht with ((ht | ht) | ht) | ht
    · exact .inl ht
    · exact hpage₀ (h.tree.mid t ht)
    · exact hpage₀ (h.tree.low t ht)
    · exact hpage (hT'.mid t ht)
  · obtain ⟨a, b, ha, hb, he⟩ := hM.ends h.layout h.tree h.rooted' hr
    have hm := mem_mids hr ha
    rw [← hS'.E r (.inl hr)] at ha
    rw [← hS'.E b (hpage (hT'.low b (mem_lows hm hb)))] at he
    rw [← hS'.E a (hpage (hT'.mid a hm))] at hb
    exact ⟨a, b, ha, hb, he⟩

end

end X64k.L2.Paging
