import X64k.Core.LTS
import X64k.L2Paging.Tables

/-!
# Well-formed page tables

Runs of `map` on unmapped and `unmap` on mapped addresses, on one table.

`unmap` drops a reference and leaves the entries alone: neither the page
directory entry nor, when the directory is released, the PDPT entry that names
it is cleared. So one `unmap` is enough to leave the table ill-formed, and
`wellFormed_iff` says that nothing else does: along a run the table is
well-formed after every step exactly when no step is an `unmap`.
-/
namespace X64k.L2.Paging

open X64k.Core X64k.Core.Radix

/-- Present PML4 entries name PDPT pages and present PDPT entries page
directories, pages of the range marked in the bitmap; no page is named twice;
the counter of each named page is its number of present entries. -/
structure TableWF (s : Statics) (m : Mem) (root : Word) : Prop where
  pdpt : ∀ i a, nx (entry m root i) = some a → ∃ n < s.pages, a = s.page n ∧ tracked s m n = true
  pd : ∀ i a j b, nx (entry m root i) = some a → nx (entry m a j) = some b →
    ∃ n < s.pages, b = s.page n ∧ tracked s m n = true
  once : Forest nx (entry m) {root}
  counted : ∀ n < s.pages, s.page n ∈ mids nx (entry m) {root} ∪ lows nx (entry m) {root} →
    (refs s m n).toNat = presentCount (entry m (s.page n))

/-- The allocator's data lie apart from the tables, pages that are not tracked
have no references, and no root is such a page. -/
structure AllocWF (s : Statics) (m : Mem) (R : Set Word) : Prop where
  layout : Layout s
  domain : Domain s (tablePages s R)
  fresh : FreshZero s (tabsOf s m)
  rooted : ∀ n < s.pages, s.page n ∈ R → tracked s m n = true

inductive Op where
  | map (v p f : Word)
  | unmap (v : Word)
  deriving DecidableEq, Repr

/-- Aligned and below `2^48`. -/
def Canonical (v : Word) : Prop := v.toNat < 2 ^ 48 ∧ v &&& 0x1FFFFF = 0

instance (v : Word) : Decidable (Canonical v) := inferInstanceAs (Decidable (_ ∧ _))

/-- `map` of an unmapped, `unmap` of a mapped address. -/
def Valid (m : Mem) (root : Word) : Op → Prop
  | .map v p _ => Canonical v ∧ p &&& 0x1FFFFF = 0 ∧ Pml4.get m root v = none
  | .unmap v => Canonical v ∧ Pml4.get m root v ≠ none

def exec (s : Statics) (root : Word) (m : Mem) : Op → Res Mem
  | .map v p f => Pml4.map s m root v p f
  | .unmap v => do
    let (_, m) ← Pml4.unmap s m root v
    .ok m

/-- Runs from a well-formed table and allocator. A call that runs out of pages
panics and is no step. -/
def lts (s : Statics) (root : Word) : LTS Mem Op where
  init m := AllocWF s m {root} ∧ TableWF s m root
  step m op m' := Valid m root op ∧ exec s root m op = .ok m'

def IsMap (_ : Mem) : Op → Prop
  | .map .. => True
  | .unmap _ => False

section
variable {s : Statics} {m m' : Mem} {root : Word} {op : Op}

theorem tableWF_iff : TableWF s m root ↔
    Tree s (tabsOf s m) {root} ∧ Counted s (tabsOf s m) {root} := by
  constructor
  · intro h
    refine ⟨⟨h.once, ?_, ?_⟩, h.counted⟩
    · rintro a ⟨_, rfl, i, hi⟩
      exact h.pdpt i a hi
    · rintro b ⟨a, ⟨_, rfl, i, hi⟩, j, hj⟩
      exact h.pd i a j b hi hj
  · rintro ⟨hT, hC⟩
    refine ⟨fun i a hi => hT.mid a (mem_mids rfl hi), fun i a j b hi hj => ?_, hT.forest, hC⟩
    exact hT.low b (mem_lows (mem_mids rfl hi) hj)

theorem AllocWF.rooted' {R : Set Word} (h : AllocWF s m R) :
    Rooted s (tablePages s R) (tabsOf s m) R :=
  ⟨Set.subset_union_left, h.rooted⟩

/-- Unmapped for the code is unmapped in the table. -/
theorem get_none_iff {t v : Word} (hv : v.toNat < 2 ^ 48) : Pml4.get m t v = none ↔
    Radix.get nx lf (entry m) t (pml4Ix v) (pdptIx v) (pdIx v) = none := by
  rw [get_eq m t hv, Option.map_eq_none_iff]

/-- `map` keeps the invariant. -/
theorem map_keeps (hA : AllocWF s m {root}) (hW : TableWF s m root) {v p f : Word}
    (hv : Valid m root (.map v p f)) (h : Pml4.map s m root v p f = .ok m') :
    AllocWF s m' {root} ∧ TableWF s m' root := by
  obtain ⟨⟨hlt, hva⟩, hpa, hfree⟩ := hv
  obtain ⟨hT, hC⟩ := tableWF_iff.mp hW
  have hS := shows_tabsOf s m (tablePages s {root})
  rcases map_shows hA.layout hA.domain hS hT hA.rooted' (Set.mem_singleton root) hlt hva hpa
    ((get_none_iff hlt).mp hfree) with ⟨msg, he, -⟩ | ⟨m₁, V', he, hS', hM⟩
  · rw [he] at h; cases h
  · rw [he] at h; cases h
    obtain ⟨hT', -, -⟩ := hM.tree hA.layout hT hA.rooted' (Set.mem_singleton root)
    obtain ⟨hC', hZ'⟩ := hM.counted hA.layout hT hA.rooted' (Set.mem_singleton root)
      (leaf_present p f) hC hA.fresh
    have hR' := hS'.rooted (hM.rooted hA.rooted')
    refine ⟨⟨hA.layout, hA.domain, hS'.freshZero hZ', hR'.root⟩, tableWF_iff.mpr ⟨?_, ?_⟩⟩
    · exact hS'.tree hA.domain hA.rooted'.sub hT'
    · exact hS'.counted hA.domain hA.rooted'.sub hT' hC'

/-- `unmap` leaves a named page directory released, or its counter one short
of its entries. -/
theorem unmap_breaks (hA : AllocWF s m {root}) (hW : TableWF s m root) {v : Word}
    (hv : Valid m root (.unmap v)) (h : exec s root m (.unmap v) = .ok m') :
    ¬ TableWF s m' root := by
  obtain ⟨⟨hlt, hva⟩, hmap⟩ := hv
  obtain ⟨hT, hC⟩ := tableWF_iff.mp hW
  have hS := shows_tabsOf s m (tablePages s {root})
  obtain ⟨q, n, m₁, hq, hn, hqt, hnt, hqn, h1, h2, h3, he, hS'⟩ :=
    unmap_shows hA.layout hA.domain hS hT hA.rooted'.sub (Set.mem_singleton root) hlt hva
      ((get_none_iff hlt).not.mp hmap)
  rw [exec, he] at h
  cases h
  intro hW'
  -- the entries are those of before, so page `n` is still named
  have hE : ∀ t ∈ tablePages s {root}, ∀ i, entry m' t i = entry m t i := fun t ht i => by
    rw [hS'.E t ht i, dropped_E]; rfl
  have hroot : root ∈ tablePages s {root} := .inl rfl
  have hpq : s.page q ∈ tablePages s {root} := .inr ⟨q, hq, rfl⟩
  have hpn : s.page n ∈ tablePages s {root} := .inr ⟨n, hn, rfl⟩
  have h1' : nx (entry m' root (pml4Ix v)) = some (s.page q) := by rw [hE root hroot]; exact h1
  have h2' : nx (entry m' (s.page q) (pdptIx v)) = some (s.page n) := by rw [hE _ hpq]; exact h2
  have hrow : entry m' (s.page n) = entry m (s.page n) := funext (hE _ hpn)
  obtain ⟨k, hk, hke, htk⟩ := hW'.pd _ _ _ _ h1' h2'
  cases (hA.layout.page_inj hn hk).mp hke
  have hcnt := hW'.counted n hn (.inr (mem_lows (mem_mids rfl h1') h2'))
  have hcnt₀ := hW.counted n hn (.inr (mem_lows (mem_mids rfl h1) h2))
  rw [hrow, ← hcnt₀] at hcnt
  rw [hS'.trk n hn] at htk
  rw [hS'.cnt n hn] at hcnt
  have hpos : 0 < presentCount (entry m (s.page n)) :=
    Finset.card_pos.mpr ⟨pdIx v, Finset.mem_filter.mpr ⟨Finset.mem_univ _, h3⟩⟩
  rw [← hcnt₀] at hpos
  unfold dropped at htk hcnt
  dsimp only at htk hcnt
  split at htk
  · -- the last reference: the directory is no longer tracked
    split at htk
    · rw [Tabs.track_trk, if_neg hqn.symm] at htk
      exact absurd ((if_pos rfl).symm.trans htk) (by decide)
    · exact absurd ((if_pos rfl).symm.trans htk) (by decide)
  · rename_i hz
    rw [if_neg hz] at hcnt
    have hd : decremented (refs s m n) = refs s m n - 1 :=
      if_pos fun h0 => by rw [h0] at hpos; exact absurd hpos (by decide)
    have hlt16 := (refs s m n).isLt
    rw [Tabs.count_cnt, if_pos rfl] at hcnt
    rw [show (tabsOf s m).cnt n = refs s m n from rfl, hd, BitVec.toNat_sub] at hcnt
    have h1n : (1 : BitVec 16).toNat = 1 := rfl
    omega

end

/-! ## A small table -/

/-- Four pages from 0x100000 on, a table at 0x300000, nothing written yet. -/
def demo : Statics where
  start := 0x100000
  stop := 0x104000
  tracking := 0x200000
  refcount := 0x201000
  refcountSize := 8
  kernel := 0x100000
  current := 0x100000

def demoMem : Mem := ⟨fun _ => 0⟩

theorem demoMem_loadN (a : Word) (n : Nat) : demoMem.loadN a n = 0 := by
  induction n generalizing a with
  | zero => rfl
  | succ n ih => rw [Mem.loadN, ih]; rfl

theorem demo_entry (t : Word) (i : Fin 512) : entry demoMem t i = 0 := by
  rw [entry, Mem.load64, demoMem_loadN]; rfl

theorem demo_init : (lts demo 0x300000).init demoMem := by
  have hno : ∀ t i, nx (entry demoMem t i) = none := fun t i => by rw [demo_entry, nx_zero]
  have hmid : ∀ a, a ∉ mids nx (entry demoMem) {0x300000} := by
    rintro a ⟨t, -, i, h⟩
    rw [hno] at h; cases h
  have hlow : ∀ b, b ∉ lows nx (entry demoMem) {0x300000} := by
    rintro b ⟨t, ht, -⟩
    exact hmid t ht
  have hL : Layout demo :=
    ⟨by decide, by decide, by decide, by decide, by decide, .inl (by decide)⟩
  have hP : Placed demo {0x300000} := by
    refine ⟨.inl (by decide), .inl (by decide), ?_, ?_⟩
    · rintro r rfl
      exact .inr ⟨by decide, .inr (by decide), .inr (by decide), .inr (by decide)⟩
    · rintro r rfl r' rfl hne
      exact absurd rfl hne
  refine ⟨⟨hL, hL.domain hP, ?_, ?_⟩, ⟨?_, ?_, ⟨?_, ?_, ?_, ?_, ?_⟩, ?_⟩⟩
  · intro n _ _
    show refs demo demoMem n = 0
    rw [refs, Mem.load16, demoMem_loadN]; rfl
  · intro n hn h
    have h1 := hL.page_toNat hn
    have h2 : demo.start.toNat + 4096 * n = (0x300000 : Word).toNat := by rw [← h1, h]
    have h3 : n < 4 := hn
    have h4 : demo.start.toNat = 0x100000 := rfl
    have h5 : (0x300000 : Word).toNat = 0x300000 := rfl
    omega
  · intro i a h; rw [hno] at h; cases h
  · intro i a j b h; rw [hno] at h; cases h
  · intro r r' i i' a _ _ h; rw [hno] at h; cases h
  · intro a a' j j' b _ _ h; rw [hno] at h; cases h
  · intro a h; exact absurd h (hmid a)
  · intro b h; exact absurd h (hlow b)
  · intro b h; exact absurd h (hlow b)
  · rintro n - (h | h)
    · exact absurd h (hmid _)
    · exact absurd h (hlow _)

/-- A page is mapped in `demo` and unmapped again. -/
theorem demo_run : ∃ m₁ m₂, (lts demo 0x300000).step demoMem (.map 0 0x600000 2) m₁ ∧
    Pml4.get m₁ 0x300000 0 = some 0x600000 ∧ (lts demo 0x300000).step m₁ (.unmap 0) m₂ := by
  have h : (match exec demo 0x300000 demoMem (.map 0 0x600000 2) with
      | .ok m₁ => decide (Pml4.get m₁ 0x300000 0 = some 0x600000) &&
        match exec demo 0x300000 m₁ (.unmap 0) with
        | .ok _ => true
        | .error _ => false
      | .error _ => false) = true := by decide +kernel
  split at h
  · rename_i m₁ h₁
    rw [Bool.and_eq_true, decide_eq_true_eq] at h
    obtain ⟨hg, h⟩ := h
    split at h
    · rename_i m₂ h₂
      have hv : Valid demoMem 0x300000 (.map 0 0x600000 2) :=
        ⟨by decide, by decide, by decide +kernel⟩
      exact ⟨m₁, m₂, ⟨hv, h₁⟩, hg, ⟨⟨by decide, by rw [hg]; nofun⟩, h₂⟩⟩
    · cases h
  · cases h

/-! ## Main result -/

/-- **When the table stays well-formed.** After every step of a run, if and
only if no step of the run is an `unmap`. -/
theorem wellFormed_iff {s : Statics} {root : Word} {m : Mem} (hm : (lts s root).init m)
    {tr : List (Op × Mem)} (htr : (lts s root).Trace m tr) :
    (∀ x ∈ tr, TableWF s x.2 root) ↔ LTS.Meets IsMap m tr := by
  refine LTS.forall_iff_meets (lts s root) (I := fun m => AllocWF s m {root} ∧ TableWF s m root)
    (fun _ h => h.2) ?_ ?_ m tr hm htr
  · intro m op m' ⟨hA, hW⟩ ⟨hv, he⟩ hC
    cases op with
    | map v p f => exact map_keeps hA hW hv he
    | unmap v => exact hC.elim
  · intro m op m' ⟨hA, hW⟩ ⟨hv, he⟩ hW'
    cases op with
    | map v p f => trivial
    | unmap v => exact unmap_breaks hA hW hv he hW'

theorem wellFormed_iff_demo : ∃ m₁, Pml4.get m₁ 0x300000 0 = some 0x600000 ∧
    ((∀ x ∈ [(Op.map 0 0x600000 2, m₁)], TableWF demo x.2 0x300000) ↔
      LTS.Meets IsMap demoMem [(.map 0 0x600000 2, m₁)]) := by
  obtain ⟨m₁, -, h₁, hg, -⟩ := demo_run
  exact ⟨m₁, hg, wellFormed_iff demo_init ⟨h₁, trivial⟩⟩

/-- **Map, then unmap.** The run of `demo_run` ends with an ill-formed table. -/
theorem unmap_run : ¬ ∀ (s : Statics) (root : Word) (m : Mem), (lts s root).init m →
    ∀ tr, (lts s root).Trace m tr → ∀ x ∈ tr, TableWF s x.2 root := by
  intro h
  obtain ⟨m₁, m₂, h₁, -, h₂⟩ := demo_run
  obtain ⟨hA, hW⟩ := map_keeps demo_init.1 demo_init.2 h₁.1 h₁.2
  refine unmap_breaks hA hW h₂.1 h₂.2 ?_
  exact h demo 0x300000 demoMem demo_init [(.map 0 0x600000 2, m₁), (.unmap 0, m₂)]
    ⟨h₁, h₂, trivial⟩ (.unmap 0, m₂) (by simp)

end X64k.L2.Paging
