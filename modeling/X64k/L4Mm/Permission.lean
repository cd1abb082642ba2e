import X64k.L3Handover.Bare
import X64k.L4Mm.Live

/-!
# The permission of a block (`src/kernel/mem/mm.cpp:102-136`)

`mm::alloc` casts its flags to those of `Pml4::map`, where they mean something
else: `AF_RW` becomes `F_PRESENT`, which is set anyway, and `AF_USER` becomes
`F_RW`. Above the page directory the kernel sets `F_RW` in the entries it makes,
and the loader does not.

* `bindFrom_extends`, `alloc_extends`: the entry that each page of a block ends
  at, and what becomes of the others.
* `FromLoader`: the tables that the kernel starts with.
* `writable_block`: which pages of a block can be written to.
* `permission_iff`: when that is what was asked for.
-/
namespace X64k.L4.Mm

open X64k.Core X64k.Core.Radix X64k.L2.Paging
open X64k.L3.Retain (LoaderData Handover retainLoaderPaging Retained retain_statics)

/-! ## Flags

mirrors src/kernel/mem/mm.hpp:35-40 -/

def AF_RW : BitVec 32 := (1 : BitVec 32) <<< 0
def AF_USER : BitVec 32 := (1 : BitVec 32) <<< 1

/-- The entry that `v`'s page ends at. -/
abbrev EndsAt (m : Mem) (p v e : Word) : Prop := Ends (entry m) p (pml4Ix v) (pdptIx v) (pdIx v) e

/-- The entry that `map` stores for the frame `a` has `F_RW` when `AF_USER` is
among the flags. -/
theorem leaf_writable {a : Word} (ha : a &&& 0x1FFFFF = 0) (flags : BitVec 32) :
    isWritable (a ||| flags.setWidth 64 ||| F_PRESENT ||| F_PS) ↔ flags &&& AF_USER ≠ 0 := by
  have hbit : (a &&& 0x1FFFFF).getLsbD 1 = false := by rw [ha]; rfl
  rw [BitVec.getLsbD_and, show (0x1FFFFF : Word).getLsbD 1 = true from by decide,
    Bool.and_true] at hbit
  have huser : AF_USER = (1#32) <<< 1 := rfl
  have h1 : F_PRESENT.getLsbD 1 = false := by decide
  have h2 : F_PS.getLsbD 1 = false := by decide
  rw [isWritable_iff, huser, ne_eq, show (0 : BitVec 32) = 0#32 from rfl,
    Bits.and_bit_eq_zero (by decide), BitVec.getLsbD_or, BitVec.getLsbD_or, BitVec.getLsbD_or,
    hbit, h1, h2, BitVec.getLsbD_setWidth]
  simp

/-! ## One call -/

/-- What binding the frames `P` to the block at `v`, from page `i` on, does to
the entries. -/
structure Bound (R : Set Word) (m m' : Mem) (p v f : Word) (i : Nat) (P : List Word) : Prop where
  opens : ∀ r ∈ R, ∀ x y, Opens (entry m') r x y ↔ Opens (entry m) r x y
  ends : ∀ r ∈ R, ∀ w e, isPresent e → EndsAt m r w e → EndsAt m' r w e
  leaf : ∀ j a, P[j]? = some a →
    EndsAt m' p (blockPage v (i + j)) (a ||| f ||| F_PRESENT ||| F_PS)

section
variable {s : Statics} {R : Set Word} {p v f n : Word} {flags : BitVec 32}

theorem bindFrom_extends (hp : p ∈ R) (hv : v &&& 0x1FFFFF = 0) :
    ∀ (P : List Word) (i : Nat) {m m' : Mem}, Sound s R m →
      v.toNat + 0x200000 * (i + P.length) < 2 ^ 48 → (∀ a ∈ P, a &&& 0x1FFFFF = 0) →
      (∀ j < P.length, Pml4.get m p (blockPage v (i + j)) = none) →
      bindFrom s p v f i P m = .ok m' → Bound R m m' p v f i P
  | [], i, m, m', _, _, _, _, he => by
    obtain rfl := Except.ok.inj he
    exact ⟨fun _ _ _ _ => Iff.rfl, fun _ _ _ _ _ h => h, nofun⟩
  | a :: P, i, m, m', h, hlt, hP, hnone, he => by
    rw [List.length_cons] at hlt
    have hcan : Canonical (blockPage v i) := blockPage_canonical hv (by omega)
    have ha := hP a List.mem_cons_self
    have hfree := hnone 0 (Nat.zero_lt_succ _)
    unfold bindFrom at he
    obtain ⟨m₁, hmap, he⟩ := Res.bind_eq_ok.mp he
    obtain ⟨hext, hend⟩ := h.map_extends hp hcan ha hfree hmap
    rcases h.map (f := f) hp hcan ha hfree with ⟨msg, hfail, -⟩ | ⟨m₂, hok, h₁, hadd⟩
    · rw [hfail] at hmap
      cases hmap
    obtain rfl := Except.ok.inj (hok.symm.trans hmap)
    have hB := bindFrom_extends hp hv P (i + 1) h₁ (by omega)
      (fun b hb => hP b (List.mem_cons_of_mem a hb)) (fun j hj => ?_) he
    · refine ⟨fun r hr x y => (hB.opens r hr x y).trans (hext.opens_iff hr),
        fun r hr w e hpr hw => hB.ends r hr w e hpr (hext.ends hr hpr hw), fun j b hj => ?_⟩
      cases j with
      | zero =>
        obtain rfl := Option.some.inj hj
        exact hB.ends p hp _ _ (leaf_present _ _) hend
      | succ j =>
        have hleaf := hB.leaf j b hj
        rwa [show i + 1 + j = i + (j + 1) by omega] at hleaf
    · -- the pages still to be bound are other pages
      have hcan' : Canonical (blockPage v (i + 1 + j)) := blockPage_canonical hv (by omega)
      have hnone' := hnone (j + 1) (Nat.succ_lt_succ hj)
      rw [show i + (j + 1) = i + 1 + j by omega] at hnone'
      rw [hadd.miss p hp _ hcan'.1, hnone']
      intro heq
      have := blockPage_inj (by omega) (by omega) (Prod.mk.inj heq).2
      omega

/-- The block that the search finds: the lowest one that is vacant. -/
structure FirstVacant (m : Mem) (p v : Word) (n : Nat) : Prop where
  vacant : Vacant m p v n
  lowest : ∀ v', Candidate v' → v'.toNat < v.toNat → Blocked m p v' n

theorem FirstVacant.unique {m : Mem} {v' : Word} {k : Nat} (h : FirstVacant m p v k)
    (h' : FirstVacant m p v' k) : v = v' := by
  apply BitVec.eq_of_toNat_eq
  rcases Nat.lt_trichotomy v.toNat v'.toNat with hlt | heq | hlt
  · exact absurd (h'.lowest v h.vacant.candidate hlt) h.vacant.not_blocked
  · exact heq
  · exact absurd (h.lowest v' h'.vacant.candidate hlt) h'.vacant.not_blocked

/-- A call that returns a block. -/
theorem alloc_extends {st st' : Machine} (h : Sound s R st.mem) (hp : p ∈ R)
    (he : alloc s st p n flags = .ok (some v, st')) :
    n.toNat ≤ 32 ∧ FirstVacant st.mem p v n.toNat ∧ ∃ P : List Word, P.length = n.toNat ∧
      (∀ a ∈ P, a &&& 0x1FFFFF = 0) ∧
      Bound R st.mem st'.mem p v (flags.setWidth 64) 0 P := by
  obtain ⟨-, hn, hf, ks, hT, hlen, -, hb⟩ := alloc_inv he
  have hlen' : (ks.map physPage).length = n.toNat := by rw [List.length_map, hlen]
  have hfirst : FirstVacant st.mem p v n.toNat := by
    rcases findVirtualRange_exact st.mem p hn with ⟨hf', -⟩ | ⟨v', hf', hV, hlow⟩
    · rw [hf'] at hf
      cases hf
    · rw [hf'] at hf
      obtain rfl := Option.some.inj (Except.ok.inj hf)
      exact ⟨hV, hlow⟩
  have hV := hfirst.vacant
  have hbelow := hV.below
  have hend : rangeEnd.toNat = 0xFFFF00000000 := rfl
  refine ⟨hn, hfirst, ks.map physPage, hlen', fun a ha => (hT.frames a ha).1, ?_⟩
  refine bindFrom_extends hp hV.aligned _ 0 h (by omega) (fun a ha => (hT.frames a ha).1)
    (fun j hj => ?_) hb
  rw [Nat.zero_add]
  exact hV.unmapped j (by omega)

end

/-! ## The tables at the start -/

/-- What the loader publishes. mirrors src/loader/loader.cpp:88-91 -/
def publishedAt (tr : BitVec 32) : LoaderData := ⟨0x100000, 0x100000, tr⟩

/-- `m` is the memory after `retainLoaderPaging`: the table at `root` is the
loader's, which has made some run of `map` calls on it, and the other tables of
`R` are empty. What is written between the two goes elsewhere. -/
structure FromLoader (tr root : L3.Loader.Ptr) (s : Statics) (R : Set Word) (m : Mem) : Prop where
  layout : L3.Loader.Layout tr
  tracker : Apart tr.toNat 32 0x3FF000 0x1000
  built : ∃ st m₀, (L3.Loader.lts tr root).Reachable st ∧
    Mem.EqOn st.mem m₀ 0x100000 0x200000 ∧ Mem.EqOn st.mem m₀ tr.toNat (tr.toNat + 32) ∧
    retainLoaderPaging (publishedAt tr) m₀ = .ok (s, m)
  among : root.addr ∈ R
  others : ∀ r ∈ R, r ≠ root.addr → 0x400000 ≤ r.toNat ∧ r.toNat + 4096 ≤ 2 ^ 64 ∧
    ∀ i, entry m r i = 0
  apart : ∀ r ∈ R, ∀ r' ∈ R, r ≠ r' → Apart r.toNat 4096 r'.toNat 4096

section
variable {tr root : L3.Loader.Ptr} {s : Statics} {R : Set Word} {m : Mem}

theorem publishedAt_size (tr : BitVec 32) : (publishedAt tr).loaderPagingSize.toNat = 0x100000 := rfl

theorem publishedAt_pages (tr : BitVec 32) : (publishedAt tr).pages = 256 := by
  rw [LoaderData.pages, publishedAt_size]

theorem publishedAt_handover (h : Apart tr.toNat 32 0x3FF000 0x1000) : Handover (publishedAt tr) := by
  have hbase : (publishedAt tr).loaderPagingBase.toNat = 0x100000 := rfl
  have hsize := publishedAt_size tr
  refine ⟨by omega, by omega, by omega, ?_⟩
  rw [hsize]
  exact h

/-- A page of the region has one address for both sides. -/
theorem publishedAt_page (hr : s = L3.Retain.expanded (publishedAt tr)) {n : Nat} (hn : n < 256) :
    s.page n = (L3.Loader.page n).addr := by
  have hstart : s.start.toNat = 0x100000 := by
    rw [hr]
    rfl
  apply BitVec.eq_of_toNat_eq
  rw [Statics.page, hstart, adr_toNat (by omega), L3.Loader.page_addr_toNat hn]

theorem FromLoader.start (h : FromLoader tr root s R m) : Sound s R m ∧ L3.Loader.Bare m root.addr := by
  obtain ⟨st, m₀, hreach, hag, hagt, hr⟩ := h.built
  obtain ⟨x, hx, rfl, ⟨V, hB⟩, hbare⟩ := L3.Loader.bare_of_reachable h.layout hreach
  have hh := publishedAt_handover h.tracker
  have hR := Retained.of_ok hh hr
  have hpage : ∀ {n}, n < 256 → s.page n = (L3.Loader.page n).addr :=
    publishedAt_page (retain_statics hr)
  have hlt : ∀ {n}, n < 256 → n < (publishedAt tr).pages := fun hn => by
    rwa [publishedAt_pages]
  have hS := hB.shows_.transport h.layout hag hagt
  have hmarks : ∀ n < 256, (publishedAt tr).marks m₀ n = V.trk n := hS.trk
  -- the entries of a marked page, for the loader and for the kernel
  have hrow : ∀ n < 256, V.trk n = true → ∀ i,
      entry m (L3.Loader.page n).addr i = entry m₀ (L3.Loader.page n).addr i := by
    intro n hn ht i
    have hi := i.isLt
    have hc := hR.contents n (hlt hn) ((hmarks n hn).trans ht)
    rw [hpage hn] at hc
    exact hc.load64 (by omega) (by omega)
  have hrow' : ∀ n < 256, V.trk n = true → ∀ i, entry m (L3.Loader.page n).addr i =
      V.E (L3.Loader.page n).addr i := fun n hn ht i =>
    (hrow n hn ht i).trans (hS.E _ (L3.Loader.page_mem hn) i)
  have hother : ∀ r ∈ R, r ≠ (L3.Loader.page x).addr → r ∉ L3.Loader.taken V := by
    rintro r hrR hne ⟨n, hn, rfl, -⟩
    have h1 := (h.others _ hrR hne).1
    rw [L3.Loader.page_addr_toNat hn] at h1
    omega
  have howned : Radix.Owned nx (entry m) R (L3.Loader.taken V) := by
    refine Radix.Owned.roots (hB.owned.congr fun t ht i => congrArg nx ?_) h.among (fun r hrR hne i => ?_)
      hother
    · rcases ht with rfl | ⟨n, hn, rfl, ht⟩
      · exact hrow' x hx hB.root i
      · exact hrow' n hn ht i
    · rw [(h.others r hrR hne).2.2 i, nx_zero]
  refine ⟨handover_sound hh hr (fun r hrR => ?_) h.apart (howned.mono ?_), fun i => ?_⟩
  · by_cases hne : r = (L3.Loader.page x).addr
    · exact .inl ⟨x, hlt hx, hne.trans (hpage hx).symm, (hmarks x hx).trans hB.root⟩
    · exact .inr ⟨(h.others r hrR hne).1, (h.others r hrR hne).2.1⟩
  · rintro t ⟨n, hn, rfl, ht⟩
    exact ⟨n, hlt hn, (hpage hn).symm, (hmarks n hn).trans ht⟩
  · have h1 := L3.Loader.page_addr_toNat hx
    have hi := i.isLt
    have hsame : entry m₀ (L3.Loader.page x).addr i = entry st.mem (L3.Loader.page x).addr i :=
      hag.load64 (by omega) (by omega)
    rw [hrow x hx hB.root i, hsame]
    exact hbare i

/-- A path lets a write through when there is no PML4 entry for it yet. -/
theorem FromLoader.opens_iff (h : FromLoader tr root s R m) {r : Word} (hr : r ∈ R) (i j : Fin 512) :
    Opens (entry m) r i j ↔ nx (entry m r i) = none := by
  constructor
  · intro ho
    cases hnx : nx (entry m r i) with
    | none => rfl
    | some a =>
      have hw := (ho a hnx).1
      by_cases hroot : r = root.addr
      · rw [hroot] at hw
        exact absurd hw (h.start.2 i)
      · rw [(h.others r hr hroot).2.2 i, nx_zero] at hnx
        cases hnx
  · intro hnone a ha
    rw [hnone] at ha
    cases ha

end

/-! ## Runs -/

structure AllocCall where
  root : Word
  count : Word
  flags : BitVec 32
  deriving DecidableEq, Repr

/-- Runs of `alloc` from the memory `m` and the state that `mm::init` leaves. -/
def allocs (s : Statics) (R : Set Word) (m : Mem) : LTS Machine AllocCall where
  init st := st = ⟨m, init⟩
  step st c st' := c.root ∈ R ∧ ∃ r, alloc s st c.root c.count c.flags = .ok (r, st')

/-- The invariant: a path lets a write through when it does so at the start. -/
structure Opened (s : Statics) (R : Set Word) (m : Mem) (st : Machine) : Prop where
  sound : Sound s R st.mem
  opens : ∀ r ∈ R, ∀ i j, Opens (entry st.mem) r i j ↔ Opens (entry m) r i j

section
variable {tr root : L3.Loader.Ptr} {s : Statics} {R : Set Word} {m : Mem} {st st' : Machine}
  {p v n : Word} {flags : BitVec 32}

theorem Opened.step (h : Opened s R m st) {c : AllocCall} (hst : (allocs s R m).step st c st') :
    Opened s R m st' := by
  obtain ⟨hp, r, he⟩ := hst
  rcases alloc_cases h.sound hp he with ⟨-, hmem⟩ | ⟨v, ks, rfl, -, -, -, h', -⟩
  · refine ⟨?_, ?_⟩
    · rw [hmem]
      exact h.sound
    · rw [hmem]
      exact h.opens
  · obtain ⟨-, -, P, -, -, hB⟩ := alloc_extends h.sound hp he
    exact ⟨h', fun r hr i j => (hB.opens r hr i j).trans (h.opens r hr i j)⟩

theorem opened (h₀ : FromLoader tr root s R m) (h : (allocs s R m).Reachable st) :
    Opened s R m st := by
  refine LTS.Inductive.reachable ⟨?_, fun _ _ _ h hst => h.step hst⟩ st h
  rintro st rfl
  exact ⟨h₀.start.1, fun _ _ _ _ => Iff.rfl⟩

/-- A page of a block can be written to when `AF_USER` was among the flags and
the loader had left its PML4 entry empty. -/
theorem writable_block (h₀ : FromLoader tr root s R m) (h : (allocs s R m).Reachable st)
    (hp : p ∈ R) (he : alloc s st p n flags = .ok (some v, st')) {i : Nat} (hi : i < n.toNat) :
    Writable st'.mem p (blockPage v i) ↔
      flags &&& AF_USER ≠ 0 ∧ nx (entry m p (pml4Ix (blockPage v i))) = none := by
  have hO := opened h₀ h
  obtain ⟨hn, hfirst, P, hlen, hP, hB⟩ := alloc_extends hO.sound hp he
  have hlt : i < P.length := by rw [hlen]; exact hi
  have hend := hB.leaf i P[i] (List.getElem?_eq_getElem hlt)
  rw [Nat.zero_add] at hend
  rw [writable_iff (hfirst.vacant.canonical hn hi).1 hend,
    leaf_writable (hP _ (List.getElem_mem hlt)), hB.opens p hp, hO.opens p hp, h₀.opens_iff hp,
    and_comm]

end

/-! ## Main result -/

/-- Each of the `n` pages from `v` on can be written to if and only if `AF_RW`
was asked for. -/
def AsRequested (m : Mem) (p v : Word) (n : Nat) (flags : BitVec 32) : Prop :=
  ∀ i < n, (Writable m p (blockPage v i) ↔ flags &&& AF_RW ≠ 0)

/-- The flags agree with what the first vacant block of `n` pages allows: with
`AF_RW` there is `AF_USER`, and the loader, whose tables are in `m₀`, has left
the PML4 entry of every page empty; without it one of the two fails. -/
def Agree (m₀ m : Mem) (p : Word) (n : Nat) (flags : BitVec 32) : Prop :=
  ∀ v, FirstVacant m p v n → ∀ i < n, (flags &&& AF_RW ≠ 0 ↔
    flags &&& AF_USER ≠ 0 ∧ nx (entry m₀ p (pml4Ix (blockPage v i))) = none)

/-- **What is asked for and what is granted.** In every state that calls of
`alloc` reach from the loader's tables, a call that returns a block grants what
was asked for exactly when the flags `Agree`. -/
theorem permission_iff {tr root : L3.Loader.Ptr} {s : Statics} {R : Set Word} {m : Mem}
    {st st' : Machine} {p v n : Word} {flags : BitVec 32} (h₀ : FromLoader tr root s R m)
    (h : (allocs s R m).Reachable st) (hp : p ∈ R)
    (he : alloc s st p n flags = .ok (some v, st')) :
    AsRequested st'.mem p v n.toNat flags ↔ Agree m st.mem p n.toNat flags := by
  obtain ⟨-, hfirst, -⟩ := alloc_extends (opened h₀ h).sound hp he
  constructor
  · intro hreq v' hv' i hi
    obtain rfl := hfirst.unique hv'
    rw [← hreq i hi, writable_block h₀ h hp he hi]
  · intro hagree i hi
    rw [writable_block h₀ h hp he hi, hagree v hfirst i hi]

/-- The loader's table at the first page of the region, with no call made yet. -/
def demoTable : Mem := L3.Loader.Pml4.init L3.Loader.demoMem 0x100000

theorem demo_fromLoader {m : Mem} {s : Statics}
    (hr : retainLoaderPaging (publishedAt 0x200000) demoTable = .ok (s, m)) :
    FromLoader 0x200000 0x100000 s {0x100000} m := by
  have haddr : (0x100000 : L3.Loader.Ptr).addr = (0x100000 : Word) := rfl
  have hinit : (L3.Loader.lts 0x200000 0x100000).init ⟨demoTable, []⟩ :=
    ⟨rfl, 0, by decide, rfl, L3.Loader.demoMem, by decide +kernel, rfl⟩
  refine ⟨⟨by decide, .inr (by decide)⟩, .inl (by decide), ⟨⟨demoTable, []⟩, demoTable,
    ⟨_, [], hinit, .nil _⟩, Mem.EqOn.refl demoTable _ _, Mem.EqOn.refl demoTable _ _, hr⟩, ?_, ?_, ?_⟩
  · rw [haddr]
    exact Set.mem_singleton _
  · intro r hr hne
    rw [haddr] at hne
    exact absurd hr hne
  · intro r hr r' hr' hne
    exact absurd (Eq.trans hr (Eq.symm hr')) hne

/-- The call that `heap::init` makes. -/
theorem demo_boot : ∃ s m st v, FromLoader 0x200000 0x100000 s {0x100000} m ∧
    alloc s ⟨m, init⟩ 0x100000 16 AF_RW = .ok (some v, st) := by
  have h : (match retainLoaderPaging (publishedAt 0x200000) demoTable with
      | .ok (s, m) =>
        match alloc s ⟨m, init⟩ 0x100000 16 AF_RW with
        | .ok (some _, _) => true
        | _ => false
      | _ => false) = true := by decide +kernel
  split at h
  · rename_i s m hr
    split at h
    · rename_i v st he
      exact ⟨s, m, st, v, demo_fromLoader hr, he⟩
    · cases h
  · cases h

theorem permission_heap : ∃ s m st v, alloc s ⟨m, init⟩ 0x100000 16 AF_RW = .ok (some v, st) ∧
    (AsRequested st.mem 0x100000 v 16 AF_RW ↔ Agree m m 0x100000 16 AF_RW) := by
  obtain ⟨s, m, st, v, h₀, he⟩ := demo_boot
  exact ⟨s, m, st, v, he, permission_iff h₀ ⟨_, [], rfl, .nil _⟩ rfl he⟩

/-- **The heap is not writable.** Its pages were asked for with `AF_RW`. -/
theorem heap_readonly : ¬ ∀ (tr root : L3.Loader.Ptr) (s : Statics) (R : Set Word) (m : Mem)
    (st st' : Machine) (p v n : Word) (flags : BitVec 32), FromLoader tr root s R m →
    (allocs s R m).Reachable st → p ∈ R → alloc s st p n flags = .ok (some v, st') →
      AsRequested st'.mem p v n.toNat flags := by
  intro hall
  obtain ⟨s, m, st, v, h₀, he⟩ := demo_boot
  have hreach : (allocs s {0x100000} m).Reachable ⟨m, init⟩ := ⟨_, [], rfl, .nil _⟩
  have hw := (hall _ _ _ _ _ _ _ _ _ _ _ h₀ hreach rfl he 0 (by decide)).mpr (by decide)
  exact absurd ((writable_block h₀ hreach rfl he (by decide)).mp hw).1 (by decide)

end X64k.L4.Mm
