import X64k.L2Paging.Translate

/-!
# One page more, one page less

`map_adds`: on a well-formed table `map` adds the translation of one page, and
leaves the table well-formed.

`unmap` is meant to take it away again ("Unmaps 2MiB page from the PML4",
`src/kernel/mem/pm.hpp:55-61`), and for an address that is not mapped it
returns the error it should. For a mapped one it returns success and leaves
every entry as it was, so it never removes a translation (`unmap_removes_iff`).
-/
namespace X64k.L2.Paging

open X64k.Core X64k.Core.Radix

/-- `f` is a combination of `F_PRESENT`, `F_RW` and `F_PS`. -/
def IsFlags (f : Word) : Prop := f &&& ~~~(F_PRESENT ||| F_RW ||| F_PS) = 0

instance (f : Word) : Decidable (IsFlags f) := inferInstanceAs (Decidable (_ = _))

section
variable {s : Statics} {m m' : Mem} {r v p f : Word}

theorem IsFlags.low (hf : IsFlags f) : f &&& ~~~(0x1FFFFF : Word) = 0 := by
  have h : ~~~(0x1FFFFF : Word) = ~~~(F_PRESENT ||| F_RW ||| F_PS) &&& ~~~(0x1FFFFF : Word) := by
    decide
  rw [h, ← BitVec.and_assoc, hf]
  exact BitVec.zero_and

theorem Adds.offset {R : Set Word} (h : Adds R m m' r v p) (hv : Canonical v)
    (hp : p &&& 0x1FFFFF = 0) {off : Word} (hoff : off.toNat < 2 ^ 21) :
    Pml4.get m' r (v + off) = some (p + off) := by
  obtain ⟨h1, h2, h3⟩ := page_offset hv.1 hv.2 hoff
  rw [h.hit _ h1 h2, or_offset hp, h3]

/-! ## `map` -/

/-- **Mapping adds one page.** Unless the pages for new tables run out, `map`
of an unmapped page returns; then the page is translated to `p`, every other
address as before, and the table is well-formed. -/
theorem map_adds (hA : AllocWF s m {r}) (hW : TableWF s m r) (hv : Canonical v)
    (hfree : Pml4.get m r v = none) (hp : p &&& 0x1FFFFF = 0) (hf : IsFlags f)
    (hroom : ¬ RunsOut s (tabsOf s m) r (pml4Ix v) (pdptIx v)) :
    ∃ m', Pml4.map s m r v p f = .ok m' ∧
      (∀ off : Word, off.toNat < 2 ^ 21 → Pml4.get m' r (v + off) = some (p + off)) ∧
      (∀ w : Word, w.toNat < 2 ^ 48 → w >>> 21 ≠ v >>> 21 → Pml4.get m' r w = Pml4.get m r w) ∧
      AllocWF s m' {r} ∧ TableWF s m' r := by
  rcases (hA.sound hW).map (Set.mem_singleton r) hv hp hfree with
    ⟨msg, -, hout⟩ | ⟨m', he, -, hadd⟩
  · exact absurd hout hroom
  rw [frameOf_eq hp hf.low] at hadd
  obtain ⟨hA', hW'⟩ := map_keeps hA hW ⟨hv, hp, hfree⟩ he
  refine ⟨m', he, fun off hoff => hadd.offset hv hp hoff, fun w hw hne => ?_, hA', hW'⟩
  exact hadd.miss r (Set.mem_singleton r) w hw fun h => hne (Prod.mk.inj h).2

theorem map_adds_demo : ∃ m', Pml4.map demo demoMem 0x300000 0x40000000 0x600000 F_RW = .ok m' ∧
    Pml4.get m' 0x300000 (0x40000000 + 0x1234) = some (0x600000 + 0x1234) := by
  have hroom : ¬ RunsOut demo (tabsOf demo demoMem) 0x300000 (pml4Ix 0x40000000)
      (pdptIx 0x40000000) := by
    rintro (⟨-, h⟩ | ⟨a, h, -⟩)
    · exact absurd (h 0 (by decide) 1 (by decide) (by decide +kernel) (by decide +kernel)) (by decide)
    · rw [show (tabsOf demo demoMem).E 0x300000 (pml4Ix 0x40000000) = 0 from demo_entry .., nx_zero]
        at h
      cases h
  obtain ⟨m', h, hget, -⟩ := map_adds demo_init.1 demo_init.2 (v := 0x40000000) (p := 0x600000)
    (f := F_RW) ⟨by decide, by decide⟩ (by decide +kernel) (by decide) (by decide) hroom
  exact ⟨m', h, hget 0x1234 (by decide)⟩

/-! ## `unmap` -/

/-- What `unmap` is for: of a mapped page it removes the translation, and no
other; of an unmapped one it reports the error and changes nothing. -/
def Unmaps (s : Statics) (m : Mem) (r v : Word) : Prop :=
  (Pml4.get m r v ≠ none → ∃ m', Pml4.unmap s m r v = .ok (true, m') ∧
    (∀ w : Word, w.toNat < 2 ^ 48 → w >>> 21 = v >>> 21 → Pml4.get m' r w = none) ∧
    ∀ w : Word, w.toNat < 2 ^ 48 → w >>> 21 ≠ v >>> 21 → Pml4.get m' r w = Pml4.get m r w) ∧
  (Pml4.get m r v = none → Pml4.unmap s m r v = .ok (false, m))

theorem unmap_unmapped (s : Statics) (m : Mem) (r : Word) (hv : Canonical v)
    (h : Pml4.get m r v = none) : Pml4.unmap s m r v = .ok (false, m) := by
  have hbase : v &&& ~~~(0x1FFFFF : Word) = v := by
    apply BitVec.eq_of_toNat_eq
    have h := aligned_iff.mp hv.2
    rw [toNat_pageBase]
    omega
  unfold Pml4.get at h
  dsimp only at h
  rw [hbase] at h
  unfold Pml4.unmap
  rw [Res.assert_of hv.2, Res.ok_bind]
  dsimp only
  by_cases p1 : isPresent (entryAt m r (pml4Index v))
  · rw [if_pos p1] at h ⊢
    by_cases p2 : isPresent (entryAt m (tableOf (entryAt m r (pml4Index v))) (pdptIndex v))
    · rw [if_pos p2] at h ⊢
      split at h
      · cases h
      · rename_i p3
        rw [if_neg p3]
    · rw [if_neg p2]
  · rw [if_neg p1]

theorem Sound.unmap_same {R : Set Word} (h : Sound s R m) (hr : r ∈ R) (hv : Canonical v)
    (hmap : Pml4.get m r v ≠ none) : ∃ m', Pml4.unmap s m r v = .ok (true, m') ∧
      ∀ r' ∈ R, ∀ w : Word, w.toNat < 2 ^ 48 → Pml4.get m' r' w = Pml4.get m r' w := by
  obtain ⟨q, n, m', -, -, -, he, hS⟩ := h.unmap hr hv hmap
  refine ⟨m', he, fun r' hr' w hw => h.get_congr (fun t ht i => ?_) hr' hw⟩
  rw [hS.E t ht, dropped_E]
  rfl

/-- **Unmapping removes no page.** On a well-formed table `unmap` does what it
is for if and only if the page is not mapped. -/
theorem unmap_removes_iff (hA : AllocWF s m {r}) (hW : TableWF s m r) (hv : Canonical v) :
    Unmaps s m r v ↔ Pml4.get m r v = none := by
  constructor
  · intro h
    by_contra hmap
    obtain ⟨m', he, hnone, -⟩ := h.1 hmap
    obtain ⟨m₁, he', hsame⟩ := (hA.sound hW).unmap_same (Set.mem_singleton r) hv hmap
    rw [he] at he'
    cases he'
    refine hmap ?_
    rw [← hsame r (Set.mem_singleton r) v hv.1]
    exact hnone v hv.1 rfl
  · intro h
    exact ⟨fun hmap => absurd h hmap, unmap_unmapped s m r hv⟩

/-- The next GiB of a table in which a page is mapped. -/
theorem unmap_removes_iff_demo : ∃ m₁, Pml4.get m₁ 0x300000 0 = some 0x600000 ∧
    (Unmaps demo m₁ 0x300000 0x40000000 ↔ Pml4.get m₁ 0x300000 0x40000000 = none) := by
  obtain ⟨m₁, m₂, h₁, hget, -⟩ := demo_run
  obtain ⟨hA, hW⟩ := map_keeps demo_init.1 demo_init.2 h₁.1 h₁.2
  exact ⟨m₁, hget, unmap_removes_iff hA hW ⟨by decide, by decide⟩⟩

/-- **A mapped page stays.** The page mapped in `demo_run` is translated after
`unmap` as before. -/
theorem unmap_stays : ¬ ∀ (s : Statics) (m : Mem) (r v : Word), AllocWF s m {r} → TableWF s m r →
    Canonical v → Unmaps s m r v := by
  intro h
  obtain ⟨m₁, m₂, h₁, hget, -⟩ := demo_run
  obtain ⟨hA, hW⟩ := map_keeps demo_init.1 demo_init.2 h₁.1 h₁.2
  have hv : Canonical 0 := ⟨by decide, by decide⟩
  have hmap : Pml4.get m₁ 0x300000 0 ≠ none := by rw [hget]; nofun
  obtain ⟨m', he, hnone, -⟩ := (h demo m₁ 0x300000 0 hA hW hv).1 hmap
  obtain ⟨m'', he', hsame⟩ := (hA.sound hW).unmap_same (Set.mem_singleton _) hv hmap
  rw [he] at he'
  cases he'
  refine hmap ?_
  rw [← hsame _ (Set.mem_singleton _) 0 hv.1]
  exact hnone 0 hv.1 rfl

end

end X64k.L2.Paging
