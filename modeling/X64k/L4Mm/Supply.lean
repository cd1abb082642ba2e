import X64k.Core.Packing
import X64k.L4Mm.Canonical
import X64k.L4Mm.Space

/-!
# The pages for tables suffice

`pm::alloc` has 767 pages for tables, of which the loader has taken at most
256, and `map` panics when it finds none. `mm::alloc` never gets there: blocks
are placed at the lowest addresses, so they stay below 293 GiB, where there are
fewer page directories than pages left. That `free` gives nothing back does
not change this: there are no more than 16384 slots of physical pages.

* `Spent.not_exhausted`: while the tables in use lie below 293 GiB, two pages
  are left.
* `AtBoot.room`: there is room for a block below 293 GiB.
* `alloc_serves`: `mm::alloc` returns, and what it returns, in every run.
-/
namespace X64k.L4.Mm

open X64k.Core X64k.Core.Radix X64k.Core.Packing X64k.L2.Paging

/-! ## Pages for tables -/

/-- Page `n` is the PDPT of the first 512 GiB, or a page directory of the first
293 GiB. -/
def OnPath (s : Statics) (root : Word) (m : Mem) (n : Nat) : Prop :=
  nx (entry m root (pml4Ix 0)) = some (s.page n) ∨
    ∃ a, nx (entry m root (pml4Ix 0)) = some a ∧
      ∃ g : Fin 512, g.1 < 293 ∧ nx (entry m a g) = some (s.page n)

/-- Pages are tracked for these tables, and for what the loader had taken. -/
def Spent (s : Statics) (root : Word) (m : Mem) : Prop :=
  ∀ n < s.pages, tracked s m n = true → n < 256 ∨ OnPath s root m n

section Spent
variable {s : Statics} {root v p f : Word} {m m' : Mem}

/-- The tables on the paths, by number: the PDPT is the last one. -/
def tableOn (root : Word) (m : Mem) (g : Nat) : Option Word :=
  if h : g < 293 then (nx (entry m root (pml4Ix 0))).bind fun a => nx (entry m a ⟨g, by omega⟩)
  else nx (entry m root (pml4Ix 0))

theorem OnPath.tableOn {n : Nat} (h : OnPath s root m n) :
    ∃ g < 294, tableOn root m g = some (s.page n) := by
  rcases h with h | ⟨a, ha, g, hg, hb⟩
  · exact ⟨293, by omega, h⟩
  · refine ⟨g, by omega, ?_⟩
    rw [Mm.tableOn, dif_pos hg, ha]
    exact hb

/-- The tracked pages beyond the loader's. -/
def takenPages (s : Statics) (m : Mem) : Finset Nat :=
  (Finset.Ico 256 767).filter fun n => tracked s m n = true

/-- Different pages are different tables. -/
theorem Spent.card_le (hL : Layout s) (hpages : s.pages = 767) (h : Spent s root m) :
    (takenPages s m).card ≤ 294 := by
  have hsub : (takenPages s m).image (fun n => some (s.page n)) ⊆
      (Finset.range 294).image (tableOn root m) := by
    intro o ho
    obtain ⟨n, hn, rfl⟩ := Finset.mem_image.mp ho
    obtain ⟨hn, ht⟩ := Finset.mem_filter.mp hn
    obtain ⟨h1, h2⟩ := Finset.mem_Ico.mp hn
    obtain ⟨g, hg, hgn⟩ := ((h n (by omega) ht).resolve_left (by omega)).tableOn
    exact Finset.mem_image.mpr ⟨g, Finset.mem_range.mpr hg, hgn⟩
  have hinj : (takenPages s m : Set Nat).InjOn fun n => some (s.page n) := by
    intro n hn k hk heq
    have h1 := Finset.mem_Ico.mp (Finset.mem_filter.mp hn).1
    have h2 := Finset.mem_Ico.mp (Finset.mem_filter.mp hk).1
    exact (hL.page_inj (by omega) (by omega)).mp (Option.some.inj heq)
  have h1 := Finset.card_le_card hsub
  rw [Finset.card_image_of_injOn hinj] at h1
  exact h1.trans (Finset.card_image_le.trans_eq (Finset.card_range 294))

theorem Spent.not_exhausted (hL : Layout s) (hpages : s.pages = 767) (h : Spent s root m) :
    ¬ Exhausted s (tabsOf s m) := by
  intro he
  have hleft : ((Finset.Ico 256 767).filter fun n => ¬ tracked s m n = true).card ≤ 1 := by
    refine Finset.card_le_one.mpr fun n hn k hk => ?_
    obtain ⟨hn, hnt⟩ := Finset.mem_filter.mp hn
    obtain ⟨hk, hkt⟩ := Finset.mem_filter.mp hk
    have h1 := (Finset.mem_Ico.mp hn).2
    have h2 := (Finset.mem_Ico.mp hk).2
    exact he n (by omega) k (by omega) (Bool.eq_false_iff.mpr hnt) (Bool.eq_false_iff.mpr hkt)
  have htaken := h.card_le hL hpages
  have hsplit := Finset.card_filter_add_card_filter_not (s := Finset.Ico 256 767)
    fun n => tracked s m n = true
  rw [Nat.card_Ico] at hsplit
  rw [takenPages] at htaken
  omega

theorem OnPath.extends {n : Nat} (hE : Extends (entry m) (entry m') {root})
    (h : OnPath s root m n) : OnPath s root m' n := by
  rcases h with h | ⟨a, ha, g, hg, hb⟩
  · exact .inl (hE.nx_kept (.inl (.inl (Set.mem_singleton root))) h).2
  · exact .inr ⟨a, (hE.nx_kept (.inl (.inl (Set.mem_singleton root))) ha).2, g, hg,
      (hE.nx_kept (.inl (.inr (mem_mids (Set.mem_singleton root) ha))) hb).2⟩

theorem Spent.map (h : Sound s {root} m) (hS : Spent s root m) (hv : Canonical v)
    (hlow : v.toNat < 0x4940000000) (hp : p &&& 0x1FFFFF = 0) (hfree : Pml4.get m root v = none)
    (he : Pml4.map s m root v p f = .ok m') : Spent s root m' := by
  obtain ⟨hE, -⟩ := h.map_extends (f := f) (Set.mem_singleton root) hv hp hfree he
  rcases map_shows (f := f) h.layout h.domain (shows_tabsOf s m _) h.tree h.rooted'
    (Set.mem_singleton root) hv.1 hv.2
    hp ((get_none_iff hv.1).mp hfree) with ⟨msg, hfail, -⟩ | ⟨m₁, V', hok, hS', hM⟩
  · cases hfail.symm.trans he
  obtain rfl := Except.ok.inj (hok.symm.trans he)
  obtain ⟨hT', -, -⟩ := hM.tree h.layout h.tree h.rooted' (Set.mem_singleton root)
  have hi : pml4Ix v = pml4Ix 0 := Fin.ext (by show v.toNat / 2 ^ 39 % 512 = 0; omega)
  have hj : (pdptIx v).1 < 293 := by show v.toNat / 2 ^ 30 % 512 < 293; omega
  have hroot (i : Fin 512) : entry m₁ root i = V'.E root i := hS'.E root (.inl (Set.mem_singleton root)) i
  intro n hn ht
  rw [hS'.trk n hn] at ht
  rcases hM.tracks h.layout h.tree h.rooted' (Set.mem_singleton root) ht with ht | hq | ⟨a, ha, hb⟩
  · exact (hS n hn ht).imp_right fun hon => hon.extends hE
  · rw [hi, ← hroot] at hq
    exact .inr (.inl hq)
  · obtain ⟨q, hq, rfl, -⟩ := hT'.mid a (mem_mids (Set.mem_singleton root) ha)
    rw [hi, ← hroot] at ha
    rw [← hS'.E _ (.inr ⟨q, hq, rfl⟩)] at hb
    exact .inr (.inr ⟨_, ha, _, hj, hb⟩)

/-- Binding a block below 293 GiB does not run out of pages. -/
theorem bindFrom_returns (hpages : s.pages = 767) (hv : v &&& 0x1FFFFF = 0) (P : List Word) (i : Nat)
    (h : Sound s {root} m) (hS : Spent s root m)
    (hlow : v.toNat + 0x200000 * (i + P.length) ≤ 0x4940000000) (hP : ∀ a ∈ P, a &&& 0x1FFFFF = 0)
    (hfree : ∀ j < P.length, Pml4.get m root (blockPage v (i + j)) = none) :
    ∃ m', bindFrom s root v f i P m = .ok m' ∧ Spent s root m' := by
  induction P generalizing i m with
  | nil => exact ⟨m, rfl, hS⟩
  | cons a P ih =>
    rw [List.length_cons] at hlow
    have hpage (j : Nat) (hj : j ≤ P.length) :
        (blockPage v (i + j)).toNat = v.toNat + 0x200000 * (i + j) := blockPage_toNat (by omega)
    have h0 := hpage 0 (Nat.zero_le _)
    rw [Nat.add_zero] at h0
    have hcan : Canonical (blockPage v i) := blockPage_canonical hv (by omega)
    have hnone := hfree 0 (Nat.zero_lt_succ _)
    rw [Nat.add_zero] at hnone
    have ha := hP a List.mem_cons_self
    rcases h.map (f := f) (Set.mem_singleton root) hcan ha hnone with
      ⟨msg, -, hout⟩ | ⟨m₁, hok, h₁, hA⟩
    · exact absurd hout.exhausted (hS.not_exhausted h.layout hpages)
    have hS₁ := hS.map h hcan (by omega) ha hnone hok
    have hfree' (j : Nat) (hj : j < P.length) :
        Pml4.get m₁ root (blockPage v (i + 1 + j)) = none := by
      have hj' := hpage (j + 1) (by omega)
      have hnone' := hfree (j + 1) (Nat.succ_lt_succ hj)
      rw [show i + (j + 1) = i + 1 + j by omega] at hj' hnone'
      rw [hA.miss root (Set.mem_singleton root) _ (by omega), hnone']
      -- the pages of a block are different pages
      intro heq
      have := blockPage_inj (by omega) (by omega) (Prod.mk.inj heq).2
      omega
    obtain ⟨m', hb, hS'⟩ := ih (i + 1) h₁ hS₁ (by omega)
      (fun b hb => hP b (List.mem_cons_of_mem _ hb)) hfree'
    refine ⟨m', ?_, hS'⟩
    rw [bindFrom, hok]
    exact hb

theorem Spent.keep (h : Sound s {root} m) (hS : Spent s root m)
    (hE : TablesShow m' (tablePages s {root}) (entry m)) (hR : Releases s m m') :
    Spent s root m' := by
  intro n hn ht
  refine (hS n hn (hR n hn ht)).imp_right fun hon => ?_
  have hroot : entry m' root (pml4Ix 0) = entry m root (pml4Ix 0) :=
    hE root (.inl (Set.mem_singleton root)) _
  rcases hon with hq | ⟨a, ha, g, hg, hb⟩
  · rw [← hroot] at hq
    exact .inl hq
  · obtain ⟨q, hq, rfl, -⟩ := h.tree.mid a (mem_mids (Set.mem_singleton root) ha)
    rw [← hroot] at ha
    rw [← hE _ (.inr ⟨q, hq, rfl⟩)] at hb
    exact .inr ⟨_, ha, g, hg, hb⟩

end Spent

/-! ## Room for blocks -/

/-- The mapped pages, by number. -/
def mappedPages (root : Word) (m : Mem) : Set Nat :=
  {i | Pml4.get m root (adr (0x200000 * i)) ≠ none}

/-- What the kernel starts with: 767 pages, of which the loader has taken some
of the first 256. -/
structure AtBoot (s : Statics) (root : Word) (m : Mem) : Prop where
  sound : Sound s {root} m
  pages : s.pages = 767
  taken : ∀ n < s.pages, tracked s m n = true → n < 256

section Room
variable {s : Statics} {root v n : Word} {m : Mem} {N : Finset Nat} {i j k : Nat}

/-- GiB `g` has a mapped page. -/
def Met (root : Word) (m : Mem) (g : Nat) : Prop :=
  ∃ i, 512 * g ≤ i ∧ i < 512 * (g + 1) ∧ i ∈ mappedPages root m

open Classical in
theorem AtBoot.met_le (h : AtBoot s root m) :
    ((Finset.Ico 2 293).filter (Met root m)).card ≤ 256 := by
  generalize hD : (Finset.Ico 2 293).filter (Met root m) = D
  have hin (g : Nat) (hg : g ∈ D) : g < 293 ∧ Met root m g := by
    rw [← hD, Finset.mem_filter, Finset.mem_Ico] at hg
    exact ⟨hg.1.2, hg.2⟩
  have hmem (x : Fin D.card) := hin (D.equivFin.symm x) (D.equivFin.symm x).2
  choose hlt i h1 h2 hi using hmem
  have hadr (x : Fin D.card) : (adr (0x200000 * i x)).toNat = 0x200000 * i x := by
    have := h2 x
    have := hlt x
    exact adr_toNat (by omega)
  refine Sound.regions_le h.sound (Set.mem_singleton root) h.taken (fun x => adr (0x200000 * i x))
    (fun x => ?_) hi fun x y hxy => ?_
  · have := h2 x
    have := hlt x
    rw [hadr]
    omega
  · rw [hadr, hadr] at hxy
    have := h1 x
    have := h2 x
    have := h1 y
    have := h2 y
    refine D.equivFin.symm.injective (Subtype.ext ?_)
    omega

open Classical in
/-- With no more pages mapped than there are slots, and no holes in front of
them, there is room below 293 GiB: 35 of the GiB from 2 GiB on are without the
loader's pages. -/
theorem AtBoot.room (h : AtBoot s root m) (hp : Packed 1024 (mappedPages root m) N)
    (hN : N.card ≤ 16384) (hk : k ≤ 32) :
    ∃ i, 1024 ≤ i ∧ i + k ≤ 512 * 293 ∧ Free (mappedPages root m) N i k := by
  have hmet := h.met_le
  have hsplit := Finset.card_filter_add_card_filter_not (s := Finset.Ico 2 293) (Met root m)
  rw [Nat.card_Ico] at hsplit
  obtain ⟨g, hg, hfree⟩ := hp.room (T := 512) (L := 32)
    (G := (Finset.Ico 2 293).filter fun g => ¬ Met root m g) hk (by decide) (by decide)
    (fun g hg => by
      have := (Finset.mem_Ico.mp (Finset.mem_filter.mp hg).1).1
      omega)
    (fun g hg i h1 h2 hi => (Finset.mem_filter.mp hg).2 ⟨i, h1, h2, hi⟩) (by omega)
  obtain ⟨h1, h2⟩ := Finset.mem_Ico.mp (Finset.mem_filter.mp hg).1
  exact ⟨_, by omega, by omega, hfree⟩

theorem blockPage_adr (h : i + j < 2 ^ 27) :
    blockPage (adr (0x200000 * i)) j = adr (0x200000 * (i + j)) := by
  have hi : (adr (0x200000 * i)).toNat = 0x200000 * i := adr_toNat (by omega)
  apply BitVec.eq_of_toNat_eq
  rw [blockPage_toNat (by omega), hi, adr_toNat (by omega)]
  omega

theorem blocked_iff (h : i + k ≤ 2 ^ 27) : Blocked m root (adr (0x200000 * i)) k ↔
    ∃ j < k, i + j ∈ mappedPages root m := by
  refine exists_congr fun j => and_congr_right fun hj => ?_
  rw [blockPage_adr (by omega), Option.isSome_iff_ne_none]
  exact Iff.rfl

theorem candidate_adr (h1 : 1024 ≤ i) (h2 : i < 2 ^ 26) : Candidate (adr (0x200000 * i)) := by
  have hi : (adr (0x200000 * i)).toNat = 0x200000 * i := adr_toNat (by omega)
  have hstart : rangeStart.toNat = 0x80000000 := rfl
  have hend : rangeEnd.toNat = 0xFFFF00000000 := rfl
  exact ⟨aligned_iff.mpr (by omega), by omega, by omega⟩

theorem find_of_room (hn : n.toNat ≤ 32) (h1 : 1024 ≤ i) (h2 : i < 2 ^ 26)
    (hfree : ∀ j < n.toNat, i + j ∉ mappedPages root m) :
    ∃ v, findVirtualRange m root n = .ok (some v) ∧ FirstVacant m root v n.toNat ∧
      v.toNat ≤ 0x200000 * i := by
  have hi : (adr (0x200000 * i)).toNat = 0x200000 * i := adr_toNat (by omega)
  have hfits : ¬ Blocked m root (adr (0x200000 * i)) n.toNat := by
    rw [blocked_iff (by omega)]
    rintro ⟨j, hj, hmem⟩
    exact hfree j hj hmem
  rcases findVirtualRange_exact m root hn with ⟨-, hall⟩ | ⟨v, he, hV, hlow⟩
  · exact absurd (hall _ (candidate_adr h1 h2)) hfits
  · refine ⟨v, he, ⟨hV, hlow⟩, ?_⟩
    by_contra hgt
    exact hfits (hlow _ (candidate_adr h1 h2) (by omega))

end Room

/-! ## The invariant -/

/-- `N` are the pages that blocks have been bound to since the memory was
`m₀`; there are no more than slots have been filled. -/
structure Supply (s : Statics) (root : Word) (m₀ : Mem) (st : Machine) (N : Finset Nat) : Prop where
  spent : Spent s root st.mem
  pages : ∀ i < 2 ^ 27, i ∈ mappedPages root st.mem ↔ i ∈ mappedPages root m₀ ∨ i ∈ N
  packed : Packed 1024 (mappedPages root m₀) N
  few : N.card + (clearSlots st.phys).card ≤ 16384

section Supply
variable {s : Statics} {root v n : Word} {m₀ m' : Mem} {st : Machine} {N : Finset Nat}
  {flags : BitVec 32}

theorem Supply.init (h : AtBoot s root m₀) : Supply s root m₀ ⟨m₀, init⟩ ∅ where
  spent k hk ht := .inl (h.taken k hk ht)
  pages i _ := by simp
  packed := packed_empty _ _
  few := by rw [clearSlots_init, Finset.card_empty]

theorem Supply.find (hb : AtBoot s root m₀) (hS : Supply s root m₀ st N) (hn : n.toNat ≤ 32) :
    ∃ v, findVirtualRange st.mem root n = .ok (some v) ∧ FirstVacant st.mem root v n.toNat ∧
      v.toNat + 0x200000 * n.toNat ≤ 0x4940000000 := by
  have := hS.few
  obtain ⟨i, h1, h2, hfree⟩ := hb.room hS.packed (by omega) hn
  have hnone (j : Nat) (hj : j < n.toNat) : i + j ∉ mappedPages root st.mem := by
    rw [hS.pages _ (by omega), not_or]
    exact hfree j hj
  obtain ⟨v, he, hV, hle⟩ := find_of_room hn h1 (by omega) hnone
  exact ⟨v, he, hV, by omega⟩

/-- The pages of a block that is bound at the lowest place. -/
theorem Supply.bound (hS : Supply s root m₀ st N) (hn : 0 < n.toNat ∧ n.toNat ≤ 32)
    (hV : FirstVacant st.mem root v n.toNat) (hlow : v.toNat + 0x200000 * n.toNat ≤ 0x4940000000)
    {f : Word} {P : List Word} (hlen : P.length = n.toNat)
    (hB : Binds {root} st.mem m' root v f 0 P) :
    Packed 1024 (mappedPages root m₀)
        (N ∪ Finset.Ico (v.toNat / 0x200000) (v.toNat / 0x200000 + n.toNat)) ∧
      ∀ i < 2 ^ 27, i ∈ mappedPages root m' ↔ i ∈ mappedPages root m₀ ∨
        i ∈ N ∪ Finset.Ico (v.toNat / 0x200000) (v.toNat / 0x200000 + n.toNat) := by
  have hal := aligned_iff.mp hV.vacant.aligned
  have habove := hV.vacant.above
  have hstart : rangeStart.toNat = 0x80000000 := rfl
  obtain ⟨p, hp⟩ : ∃ p, v.toNat / 0x200000 = p := ⟨_, rfl⟩
  have hv : v = adr (0x200000 * p) := by
    apply BitVec.eq_of_toNat_eq
    rw [adr_toNat (by omega)]
    omega
  rw [hp]
  have hpage (j : Nat) (hj : j < n.toNat) : blockPage v j = adr (0x200000 * (p + j)) := by
    rw [hv, blockPage_adr (by omega)]
  refine ⟨hS.packed.place (fun j hj => ?_) fun i hi hip hfree => ?_, fun i hi => ?_⟩
  · have hnone := hV.vacant.unmapped j hj
    rw [hpage j hj] at hnone
    rw [← not_or, ← hS.pages _ (by omega)]
    exact not_not_intro hnone
  · have hblocked := hV.lowest (adr (0x200000 * i)) (candidate_adr hi (by omega))
      (by rw [adr_toNat (by omega)]; omega)
    rw [blocked_iff (by omega)] at hblocked
    obtain ⟨j, hj, hmem⟩ := hblocked
    exact not_or.mpr (hfree j hj) ((hS.pages _ (by omega)).mp hmem)
  · have hi' : (adr (0x200000 * i)).toNat = 0x200000 * i := adr_toNat (by omega)
    rw [Finset.mem_union, Finset.mem_Ico, ← or_assoc, ← hS.pages i hi]
    by_cases hin : p ≤ i ∧ i < p + n.toNat
    · refine iff_of_true ?_ (.inr hin)
      have hget := hB.hit (i - p) _ (List.getElem?_eq_getElem (by omega)) (adr (0x200000 * i))
        (by omega) (by rw [Nat.zero_add, hpage _ (by omega), Nat.add_sub_cancel' hin.1])
      show Pml4.get m' root (adr (0x200000 * i)) ≠ none
      rw [hget]
      exact Option.some_ne_none _
    · rw [or_iff_left hin]
      have hget := hB.miss root (Set.mem_singleton root) (adr (0x200000 * i)) (by omega)
        fun j hj heq => hin ?_
      · show Pml4.get m' root (adr (0x200000 * i)) ≠ none ↔ _
        rw [hget]
        exact Iff.rfl
      · have heq := (Prod.mk.inj heq).2
        rw [Nat.zero_add, hpage _ (by omega), shift_eq_iff, hi', adr_toNat (by omega)] at heq
        omega

theorem Supply.alloc (hb : AtBoot s root m₀) (h : Sound s {root} st.mem)
    (hS : Supply s root m₀ st N) (hn : 0 < n.toNat ∧ n.toNat ≤ 32)
    (hroom : n.toNat ≤ (clearSlots st.phys).card) (flags : BitVec 32) :
    ∃ v st', Mm.alloc s st root n flags = .ok (some v, st') ∧ ∃ N', Supply s root m₀ st' N' := by
  obtain ⟨v, hfind, hV, hlow⟩ := hS.find hb hn.2
  obtain ⟨ks, hphys, hT, hlen⟩ := alloc_fits hroom
  have hlen' : (ks.map physPage).length = n.toNat := by rw [List.length_map, hlen]
  have hfree (j : Nat) (hj : j < (ks.map physPage).length) :
      Pml4.get st.mem root (blockPage v (0 + j)) = none := by
    rw [Nat.zero_add]
    exact hV.vacant.unmapped j (by omega)
  have hal := hV.vacant.aligned
  have hP (a : Word) (ha : a ∈ ks.map physPage) : a &&& 0x1FFFFF = 0 := (hT.frames a ha).1
  obtain ⟨m', hbind, hspent⟩ := bindFrom_returns (f := flags.setWidth 64) hb.pages hal _ 0 h hS.spent
    (by omega) hP hfree
  rcases bindFrom_spec (f := flags.setWidth 64) (Set.mem_singleton root) hal _ 0 st.mem h (by omega)
    hP hfree with ⟨msg, hfail, -⟩ | ⟨m₁, hok, -, hB⟩
  · cases hfail.symm.trans hbind
  obtain rfl := Except.ok.inj (hok.symm.trans hbind)
  obtain ⟨hpacked, hpages⟩ := hS.bound hn hV hlow hlen' hB
  refine ⟨v, ⟨m₁, markAll st.phys ks⟩, ?_, _, hspent, hpages, hpacked, ?_⟩
  · have hne : n ≠ 0 := fun h0 => by
      rw [h0] at hn
      exact absurd hn.1 (by decide)
    have hle : n ≤ 32 := hn.2
    simp only [Mm.alloc, if_neg hne, Res.assert_of hle, hfind, hphys, hbind, Res.ok_bind]
  · have h1 := hS.few
    have h2 : (clearSlots (markAll st.phys ks)).card + ks.length = (clearSlots st.phys).card :=
      hT.left
    have h3 := Finset.card_union_le N (Finset.Ico (v.toNat / 0x200000) (v.toNat / 0x200000 + n.toNat))
    rw [Nat.card_Ico] at h3
    show _ + (clearSlots (markAll st.phys ks)).card ≤ _
    omega

/-- With `pageCount <= 32` the call returns: a block if and only if it asks for
pages and there are enough. -/
theorem Supply.serves (hb : AtBoot s root m₀) (h : Sound s {root} st.mem)
    (hS : Supply s root m₀ st N) (hn : n.toNat ≤ 32) (flags : BitVec 32) :
    ∃ r st', Mm.alloc s st root n flags = .ok (r, st') ∧
      (r.isSome = true ↔ 0 < n.toNat ∧ n.toNat ≤ (clearSlots st.phys).card) := by
  rcases Nat.eq_zero_or_pos n.toNat with h0 | h0
  · have hz : n = 0 := BitVec.eq_of_toNat_eq h0
    exact ⟨none, st, if_pos hz, by simp [h0]⟩
  rcases Nat.lt_or_ge (clearSlots st.phys).card n.toNat with hlt | hge
  · obtain ⟨v, hfind, -, -⟩ := hS.find hb hn
    obtain ⟨t, hphys⟩ : ∃ t, allocPhysicalPages st.phys n = .ok (none, t) :=
      let ⟨_, hphys, _⟩ := alloc_short hlt
      ⟨_, hphys⟩
    have hne : n ≠ 0 := fun hz => by
      rw [hz] at h0
      exact absurd h0 (by decide)
    have hle : n ≤ 32 := hn
    refine ⟨none, { st with phys := t }, ?_, iff_of_false (by decide) fun hc =>
      absurd hc.2 (Nat.not_le.mpr hlt)⟩
    simp only [Mm.alloc, if_neg hne, Res.assert_of hle, hfind, hphys, Res.ok_bind]
  · obtain ⟨v, st', he, -⟩ := hS.alloc hb h ⟨h0, hn⟩ hge flags
    exact ⟨some v, st', he, iff_of_true rfl ⟨h0, hge⟩⟩

theorem Supply.keep (h : Sound s {root} st.mem) (hS : Supply s root m₀ st N)
    (hE : TablesShow m' (tablePages s {root}) (entry st.mem)) (hR : Releases s st.mem m') :
    Supply s root m₀ { st with mem := m' } N where
  spent := hS.spent.keep h hE hR
  pages i hi := by
    have hget : Pml4.get m' root (adr (0x200000 * i)) = Pml4.get st.mem root (adr (0x200000 * i)) :=
      h.get_congr hE (Set.mem_singleton root) (by rw [adr_toNat (by omega)]; omega)
    rw [← hS.pages i hi]
    show Pml4.get m' root (adr (0x200000 * i)) ≠ none ↔ _
    rw [hget]
    exact Iff.rfl
  packed := hS.packed
  few := hS.few

end Supply

/-! ## Whole runs -/

namespace Space

section Runs
variable {s : Statics} {root : Word} {m m₀ m' : Mem} {st st' : Space} {c : Call × Ans}

theorem supply_off (hlow : LowTables s root) (h : Inv s root st) {N : Finset Nat}
    (hS : Supply s root m₀ st.machine N)
    (ho : Prog.Off (Area st.live) (place root st.machine.mem) st.machine.mem m') :
    Supply s root m₀ (st.withMem m').machine N := by
  have hag := h.agrees hlow ho
  have hsh := hag.shows_ h.sound.layout h.sound.domain
  exact hS.keep h.sound hsh.E fun n hn ht => (hsh.trk n hn).symm.trans ht

theorem supply_step (hlow : LowTables s root) (hb : AtBoot s root m₀) (h : Inv s root st)
    (hS : ∃ N, Supply s root m₀ st.machine N) (hst : (space s root m).step st c st') :
    ∃ N, Supply s root m₀ st'.machine N := by
  obtain ⟨N, hS⟩ := hS
  obtain ⟨c, a⟩ := c
  obtain ⟨hp, he⟩ := hst
  cases c with
  | alloc n flags =>
    obtain ⟨⟨r, mach⟩, hr, he⟩ := Res.bind_eq_ok.mp he
    cases he
    rcases alloc_outcome h.sound (Set.mem_singleton root) hp.2 hr with ⟨rfl, rfl⟩ | ⟨v, ks, rfl, hG⟩
    · exact ⟨N, hS⟩
    · obtain ⟨w, mach', he, hN⟩ := hS.alloc hb h.sound hG.few hp.2 flags
      cases he.symm.trans hr
      exact hN
  | free start n =>
    obtain ⟨mach, hr, he⟩ := Res.bind_eq_ok.mp he
    cases he
    obtain ⟨⟨P, hP, hlen⟩, hsp⟩ := hp
    obtain ⟨m', hok, -, hc, hrel, -⟩ := h.free_keeps hP hlen hsp
    obtain rfl := Except.ok.inj (hok.symm.trans hr)
    exact ⟨N, hS.keep h.sound (hc.tables h.sound.domain) hrel⟩
  | store p i v =>
    obtain ⟨m₁, hr, he⟩ := Res.bind_eq_ok.mp he
    cases he
    obtain ⟨k, hk, hi⟩ := hp
    obtain ⟨m₂, hr', ho, -⟩ := h.store hlow hk hi v
    obtain rfl := Except.ok.inj (hr'.symm.trans hr)
    exact ⟨N, supply_off hlow h hS ho⟩
  | load p i =>
    obtain ⟨x, -, he⟩ := Res.bind_eq_ok.mp he
    cases he
    exact ⟨N, hS⟩

/-- A call that keeps the owner's side, for at most 32 pages, returns. -/
theorem call_returns (hlow : LowTables s root) (hb : AtBoot s root m₀) (h : Inv s root st)
    (hS : ∃ N, Supply s root m₀ st.machine N) {c : Call} (hp : Promise s root st c)
    (hn : ∀ n flags, c = .alloc n flags → n.toNat ≤ 32) :
    ∃ a st', call s root st c = .ok (a, st') := by
  obtain ⟨N, hS⟩ := hS
  cases c with
  | alloc n flags =>
    obtain ⟨r, mach, he, -⟩ := hS.serves hb h.sound (hn n flags rfl) flags
    exact ⟨.addr r, st.grant root mach n r, by rw [call, he, Res.ok_bind]⟩
  | free start n =>
    obtain ⟨⟨P, hP, hlen⟩, hsp⟩ := hp
    obtain ⟨m', he, -⟩ := h.free_keeps hP hlen hsp
    exact ⟨.done, _, by rw [call, he, Res.ok_bind]⟩
  | store p i v =>
    obtain ⟨m', he, -⟩ := h.store_returns hlow hp
    exact ⟨.done, _, he⟩
  | load p i =>
    obtain ⟨b, he⟩ := h.load_returns hlow hp
    exact ⟨.byte b, st, he⟩

end Runs

end Space

/-! ## Main result -/

theorem FromLoader.atBoot {tr root : L3.Loader.Ptr} {s : Statics} {m : Mem}
    (h : FromLoader tr root s {root.addr} m) : AtBoot s root.addr m := by
  obtain ⟨st, m₀, -, -, -, hr⟩ := h.built
  have hR := L3.Retain.Retained.of_ok (publishedAt_handover h.tracker) hr
  have hstart : s.start.toNat = 0x100000 := hR.start
  have hstop : s.stop.toNat = 0x3FF000 := by rw [hR.stop]; rfl
  have hpages := h.start.1.layout.stop_eq
  refine ⟨h.start.1, by omega, fun n hn ht => ?_⟩
  by_contra hge
  rw [hR.free n (by rw [publishedAt_pages]; omega) hn] at ht
  cases ht

/-- **`mm::alloc` serves.** In every state of every run on the loader's tables,
a call for at most 32 pages returns: it does not run out of pages for tables.
It returns a block exactly when it asks for some pages and there are as many
slots of physical pages. -/
theorem alloc_serves {tr root : L3.Loader.Ptr} {s : Statics} {m : Mem} {st : Space}
    (h₀ : FromLoader tr root s {root.addr} m) (hr : (Space.space s root.addr m).Reachable st)
    {n : Word} (hn : n.toNat ≤ 32) (flags : BitVec 32) :
    ∃ r st', alloc s st.machine root.addr n flags = .ok (r, st') ∧
      (r.isSome = true ↔ 0 < n.toNat ∧ n.toNat ≤ (clearSlots st.machine.phys).card) := by
  have hlow := Space.FromLoader.low h₀
  have hb := FromLoader.atBoot h₀
  have hinv : (Space.space s root.addr m).Inductive fun st => Space.Inv s root.addr st ∧
      ∃ N, Supply s root.addr m st.machine N := by
    refine ⟨fun st hst => ?_, fun st c st' ⟨hI, hS⟩ hst => ?_⟩
    · obtain ⟨mach, live⟩ := st
      obtain ⟨rfl, rfl⟩ := hst
      exact ⟨Space.Inv.init hb.sound, ∅, Supply.init hb⟩
    · exact ⟨(hI.step hlow hst).1, Space.supply_step hlow hb hI hS hst⟩
  obtain ⟨hI, N, hS⟩ := hinv.reachable st hr
  exact hS.serves hb hI.sound hn flags

theorem alloc_serves_demo : ∃ s st r st', alloc s st 0x100000 32 AF_RW = .ok (r, st') ∧
    (r.isSome = true ↔ 0 < (32 : Word).toNat ∧ (32 : Word).toNat ≤ (clearSlots st.phys).card) := by
  obtain ⟨s, m, st, st', v, b, h₀, h0, hr⟩ := Space.demo_run
  obtain ⟨r, st'', he⟩ := @alloc_serves 0x200000 0x100000 s m st' h₀ ⟨st, _, h0, hr⟩ 32 (by decide)
    AF_RW
  exact ⟨s, st'.machine, r, st'', he⟩

end X64k.L4.Mm
