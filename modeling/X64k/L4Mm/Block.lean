import X64k.L2Paging.Translate
import X64k.L4Mm.Alloc
import X64k.L4Mm.Exclusive

/-!
# What a block is bound to

* `findVirtualRange_spec`: the search ends, and what it finds is unmapped.
* `bindFrom_spec`: binding a list of frames to the pages of an unmapped block.
* `alloc_spec`: the outcomes of `alloc`.
* `alloc_delivers`: what a caller gets.
-/
namespace X64k.L4.Mm

open X64k.Core X64k.L2.Paging

/-! ## The pages of a block -/

section
variable {m m' : Mem} {s : Statics} {R : Set Word} {p v f : Word}

theorem blockPage_toNat {i : Nat} (h : v.toNat + 0x200000 * i < 2 ^ 64) :
    (blockPage v i).toNat = v.toNat + 0x200000 * i := by
  rw [blockPage, show (0x200000 : Word) = adr 0x200000 from rfl, adr_index, adr_toNat h]

theorem blockPage_zero (v : Word) : blockPage v 0 = v := by
  rw [blockPage, show adr 0 = 0#64 from rfl, BitVec.zero_mul]
  exact BitVec.add_zero v

theorem blockPage_canonical {i : Nat} (hv : v &&& 0x1FFFFF = 0)
    (h : v.toNat + 0x200000 * i < 2 ^ 48) : Canonical (blockPage v i) := by
  have h1 := blockPage_toNat (v := v) (i := i) (by omega)
  have h2 := aligned_iff.mp hv
  exact ⟨by omega, aligned_iff.mpr (by omega)⟩

/-- The pages of a block are different pages. -/
theorem blockPage_inj {i j : Nat} (hi : v.toNat + 0x200000 * i < 2 ^ 48)
    (hj : v.toNat + 0x200000 * j < 2 ^ 48) (h : blockPage v i >>> 21 = blockPage v j >>> 21) :
    i = j := by
  have h1 := blockPage_toNat (v := v) (i := i) (by omega)
  have h2 := blockPage_toNat (v := v) (i := j) (by omega)
  have h3 := shift_eq_iff.mp h
  omega

/-- The step of `range::iter` below the end. -/
theorem rangeNext_eq {a stop : Word} (h : a.toNat + 0x200000 ≤ stop.toNat) :
    (rangeNext a stop 0x200000).toNat = a.toNat + 0x200000 := by
  have h1 : (0x200000 : Word).toNat = 0x200000 := rfl
  have h2 := stop.isLt
  have h3 : (a + 0x200000).toNat = a.toNat + 0x200000 := by
    rw [BitVec.toNat_add, h1]; omega
  unfold rangeNext
  rw [if_neg, h3]
  rw [gt_iff_lt, BitVec.lt_def, h3]
  omega

theorem rangeNext_block {n i : Nat} (h : v.toNat + 0x200000 * n < 2 ^ 64) (hi : i < n) :
    rangeNext (blockPage v i) (blockPage v n) 0x200000 = blockPage v (i + 1) := by
  have h1 := blockPage_toNat (v := v) (i := i) (by omega)
  have h2 := blockPage_toNat (v := v) (i := n) h
  have h3 := blockPage_toNat (v := v) (i := i + 1) (by omega)
  apply BitVec.eq_of_toNat_eq
  rw [rangeNext_eq (by omega)]
  omega

/-! ## The search -/

/-- One of the `n` pages of the block is mapped. -/
def Blocked (m : Mem) (p v : Word) (n : Nat) : Prop :=
  ∃ i < n, (Pml4.get m p (blockPage v i)).isSome = true

theorem anyMapped_spec (m : Mem) (p : Word) {n : Nat} (h : v.toNat + 0x200000 * n < 2 ^ 64) :
    ∀ fuel i, i ≤ n → n - i < fuel →
      (anyMapped m p (blockPage v n) fuel (blockPage v i) = .ok true ∧ Blocked m p v n ∨
        anyMapped m p (blockPage v n) fuel (blockPage v i) = .ok false ∧
          ∀ j, i ≤ j → j < n → Pml4.get m p (blockPage v j) = none) := by
  intro fuel
  induction fuel with
  | zero => intro i _ hf; exact absurd hf (Nat.not_lt_zero _)
  | succ fuel ih =>
    intro i hi hf
    unfold anyMapped
    by_cases he : i = n
    · rw [he, if_neg (not_not_intro rfl)]
      exact .inr ⟨rfl, fun j h1 h2 => absurd h2 (by omega)⟩
    · have hne : blockPage v i ≠ blockPage v n := by
        intro hb
        have h1 := blockPage_toNat (v := v) (i := i) (by omega)
        have h2 := blockPage_toNat h
        rw [hb] at h1
        omega
      rw [if_pos hne, rangeNext_block h (by omega)]
      cases hg : Pml4.get m p (blockPage v i) with
      | some a => exact .inl ⟨if_pos rfl, i, by omega, by rw [hg]; rfl⟩
      | none =>
        rw [Option.isSome_none, if_neg (by decide)]
        refine (ih (i + 1) (by omega) (by omega)).imp_right fun ⟨h1, h2⟩ => ⟨h1, fun j hj hj' => ?_⟩
        by_cases hji : j = i
        · rw [hji, hg]
        · exact h2 j (by omega) hj'

/-- A start the search considers. -/
structure Candidate (v : Word) : Prop where
  aligned : v &&& 0x1FFFFF = 0
  above : rangeStart.toNat ≤ v.toNat
  below : v.toNat < rangeEnd.toNat

/-- The block lies in the range and none of its `n` pages is mapped. -/
structure Vacant (m : Mem) (p v : Word) (n : Nat) : Prop where
  aligned : v &&& 0x1FFFFF = 0
  above : rangeStart.toNat ≤ v.toNat
  below : v.toNat < rangeEnd.toNat
  unmapped : ∀ i < n, Pml4.get m p (blockPage v i) = none

theorem Vacant.candidate {n : Nat} (h : Vacant m p v n) : Candidate v :=
  ⟨h.aligned, h.above, h.below⟩

theorem Vacant.not_blocked {n : Nat} (h : Vacant m p v n) : ¬ Blocked m p v n := by
  rintro ⟨i, hi, hs⟩
  rw [h.unmapped i hi] at hs
  cases hs

/-- The search from `rs` on, `k` candidates below the end. -/
theorem findFrom_spec (m : Mem) (p : Word) {n : Word} (hn : n.toNat ≤ 32) :
    ∀ fuel k (rs : Word), rs.toNat + 0x200000 * k = rangeEnd.toNat → rangeStart.toNat ≤ rs.toNat →
      k < fuel →
      (findFrom m p n fuel rs = .ok none ∧
        ∀ v, Candidate v → rs.toNat ≤ v.toNat → Blocked m p v n.toNat) ∨
      ∃ v, findFrom m p n fuel rs = .ok (some v) ∧ Vacant m p v n.toNat ∧
        ∀ v', Candidate v' → rs.toNat ≤ v'.toNat → v'.toNat < v.toNat → Blocked m p v' n.toNat := by
  have hend : rangeEnd.toNat = 0xFFFF00000000 := rfl
  intro fuel
  induction fuel with
  | zero => intro k _ _ _ hf; exact absurd hf (Nat.not_lt_zero _)
  | succ fuel ih =>
    intro k rs hk hs hf
    unfold findFrom
    by_cases he : rs = rangeEnd
    · rw [if_neg (not_not_intro he)]
      refine .inl ⟨rfl, fun v hv hle => ?_⟩
      have := hv.below
      rw [he] at hle
      omega
    have hk0 : k ≠ 0 := fun h0 => he (BitVec.eq_of_toNat_eq (by omega))
    have hbound : rs.toNat + 0x200000 * n.toNat < 2 ^ 64 := by omega
    have hstop : rs + n * 0x200000 = blockPage rs n.toNat := by rw [blockPage, adr_of_toNat]
    rw [if_pos he, hstop]
    have hany := anyMapped_spec m p hbound rangeBound 0 (Nat.zero_le _)
      (show n.toNat - 0 < 2 ^ 43 + 1 by omega)
    rw [blockPage_zero] at hany
    rcases hany with ⟨h, hblk⟩ | ⟨h, hnone⟩
    · rw [h, Res.ok_bind, if_pos rfl]
      have hnext : (rangeNext rs rangeEnd 0x200000).toNat = rs.toNat + 0x200000 :=
        rangeNext_eq (by omega)
      -- a candidate from `rs` on is `rs` or lies above the next one
      have hstep : ∀ v, Candidate v → rs.toNat ≤ v.toNat → ¬ Blocked m p v n.toNat →
          rs.toNat + 0x200000 ≤ v.toNat := by
        intro v hv hle hnb
        have h1 := aligned_iff.mp hv.aligned
        have hne : v.toNat ≠ rs.toNat := fun h => hnb (BitVec.eq_of_toNat_eq h ▸ hblk)
        omega
      rcases ih (k - 1) (rangeNext rs rangeEnd 0x200000) (by omega) (by omega) (by omega) with
        ⟨h1, h2⟩ | ⟨v, h1, hV, h2⟩
      · refine .inl ⟨h1, fun v hv hle => ?_⟩
        by_contra hnb
        exact hnb (h2 v hv (by rw [hnext]; exact hstep v hv hle hnb))
      · refine .inr ⟨v, h1, hV, fun v' hv' hle hlt => ?_⟩
        by_contra hnb
        exact hnb (h2 v' hv' (by rw [hnext]; exact hstep v' hv' hle hnb) hlt)
    · rw [h, Res.ok_bind, if_neg (by decide)]
      refine .inr ⟨rs, rfl, ⟨aligned_iff.mpr (by omega), hs, by omega, fun i hi => ?_⟩, ?_⟩
      · exact hnone i (Nat.zero_le _) hi
      · intro v' _ hle hlt
        omega

theorem findVirtualRange_exact (m : Mem) (p : Word) {n : Word} (hn : n.toNat ≤ 32) :
    (findVirtualRange m p n = .ok none ∧ ∀ v, Candidate v → Blocked m p v n.toNat) ∨
      ∃ v, findVirtualRange m p n = .ok (some v) ∧ Vacant m p v n.toNat ∧
        ∀ v', Candidate v' → v'.toNat < v.toNat → Blocked m p v' n.toNat := by
  rcases findFrom_spec m p hn rangeBound ((0xFFFF00000000 - 0x80000000) / 0x200000) rangeStart
      (by decide) (Nat.le_refl _) (by decide) with ⟨he, h⟩ | ⟨v, he, hV, h⟩
  · exact .inl ⟨he, fun v hv => h v hv hv.above⟩
  · exact .inr ⟨v, he, hV, fun v' hv' => h v' hv' hv'.above⟩

theorem findVirtualRange_spec (m : Mem) (p : Word) {n : Word} (hn : n.toNat ≤ 32) :
    findVirtualRange m p n = .ok none ∨
      ∃ v, findVirtualRange m p n = .ok (some v) ∧ Vacant m p v n.toNat := by
  rcases findVirtualRange_exact m p hn with ⟨he, -⟩ | ⟨v, he, hV, -⟩
  · exact .inl he
  · exact .inr ⟨v, he, hV⟩

/-- **The search ends with the lowest block that is vacant**, and with nothing
exactly when every block of the range has a mapped page. -/
theorem findVirtualRange_lowest (m : Mem) (p : Word) (n : Word) (hn : 1 ≤ n.toNat ∧ n.toNat ≤ 32) :
    ∃ r, findVirtualRange m p n = .ok r ∧
      (∀ v, r = some v → Candidate v ∧ (∀ i < n.toNat, Pml4.get m p (blockPage v i) = none) ∧
        ∀ v', Candidate v' → v'.toNat < v.toNat → Blocked m p v' n.toNat) ∧
      (r = none ↔ ∀ v, Candidate v → Blocked m p v n.toNat) := by
  rcases findVirtualRange_exact m p hn.2 with ⟨he, h⟩ | ⟨v, he, hV, h⟩
  · exact ⟨none, he, fun v hv => (by cases hv), iff_of_true rfl h⟩
  · refine ⟨some v, he, fun v' hv' => ?_, iff_of_false (fun hv => by cases hv) ?_⟩
    · obtain rfl := Option.some.inj hv'
      exact ⟨hV.candidate, hV.unmapped, h⟩
    · exact fun hall => hV.not_blocked (hall v hV.candidate)

/-- A mapped page at 0x80200000, in a directory at 0x3000. -/
def mappedMem : Mem :=
  (((⟨fun _ => 0⟩ : Mem).store64 0x1000 0x2003).store64 0x2010 0x3003).store64 0x3008 0x600083

/-- Two pages in `mappedMem`: not the first ones, of which the second is
mapped. -/
theorem findVirtualRange_lowest_mapped :
    findVirtualRange mappedMem 0x1000 2 = .ok (some 0x80400000) ∧
      ∀ v, Candidate v → v.toNat < 0x80400000 → Blocked mappedMem 0x1000 v 2 := by
  have hfind : findVirtualRange mappedMem 0x1000 2 = .ok (some 0x80400000) := by decide +kernel
  obtain ⟨r, he, h, -⟩ := findVirtualRange_lowest mappedMem 0x1000 2 (by decide)
  rw [hfind] at he
  cases he
  exact ⟨hfind, (h 0x80400000 rfl).2.2⟩

theorem Vacant.canonical {n i : Nat} (h : Vacant m p v n) (hn : n ≤ 32) (hi : i < n) :
    Canonical (blockPage v i) := by
  have h1 := h.below
  have h2 : rangeEnd.toNat = 0xFFFF00000000 := rfl
  exact blockPage_canonical h.aligned (by omega)

/-! ## Binding -/

/-- `m'` translates the pages of the block at `v`, from page `i` on, to the
frames of `P`, and everything else below the roots `R` as `m` does. -/
structure Binds (R : Set Word) (m m' : Mem) (p v f : Word) (i : Nat) (P : List Word) : Prop where
  hit : ∀ j a, P[j]? = some a → ∀ w : Word, w.toNat < 2 ^ 48 →
    w >>> 21 = blockPage v (i + j) >>> 21 → Pml4.get m' p w = some (frameOf a f ||| (w &&& 0x1FFFFF))
  miss : ∀ r ∈ R, ∀ w : Word, w.toNat < 2 ^ 48 →
    (∀ j < P.length, (r, w >>> 21) ≠ (p, blockPage v (i + j) >>> 21)) →
    Pml4.get m' r w = Pml4.get m r w

theorem Binds.nil (R : Set Word) (m : Mem) (p v f : Word) (i : Nat) : Binds R m m p v f i [] :=
  ⟨nofun, fun _ _ _ _ _ => rfl⟩

/-- The first page, then the others. -/
theorem Binds.cons {m₁ : Mem} {i : Nat} {a : Word} {P : List Word} (hp : p ∈ R)
    (hv : v.toNat + 0x200000 * (i + P.length) < 2 ^ 48)
    (h₁ : Adds R m m₁ p (blockPage v i) (frameOf a f)) (h : Binds R m₁ m' p v f (i + 1) P) :
    Binds R m m' p v f i (a :: P) := by
  refine ⟨fun j b hj w hw hpage => ?_, fun r hr w hw hne => ?_⟩
  · cases j with
    | zero =>
      cases hj
      rw [h.miss p hp w hw, h₁.hit w hw hpage]
      intro j hj he
      have := blockPage_inj (by omega) (by omega) (hpage.symm.trans (Prod.mk.inj he).2)
      omega
    | succ j =>
      refine h.hit j b hj w hw ?_
      rw [hpage, Nat.add_assoc, Nat.add_comm 1 j]
  · rw [h.miss r hr w hw, h₁.miss r hr w hw]
    · exact hne 0 (Nat.zero_lt_succ _)
    · intro j hj
      have := hne (j + 1) (Nat.succ_lt_succ hj)
      rwa [show i + (j + 1) = i + 1 + j by omega] at this

/-- Some page of the block is met when the pages for new tables have run out. -/
def Starves (s : Statics) (m : Mem) (p v f : Word) (i : Nat) (P : List Word) : Prop :=
  ∃ j m₁, j < P.length ∧ bindFrom s p v f i (P.take j) m = .ok m₁ ∧
    RunsOut s (tabsOf s m₁) p (pml4Ix (blockPage v (i + j))) (pdptIx (blockPage v (i + j)))

/-- Binding the pages of an unmapped block. -/
theorem bindFrom_spec (hp : p ∈ R) (hv : v &&& 0x1FFFFF = 0) :
    ∀ (P : List Word) (i : Nat) (m : Mem), Sound s R m →
      v.toNat + 0x200000 * (i + P.length) < 2 ^ 48 → (∀ a ∈ P, a &&& 0x1FFFFF = 0) →
      (∀ j < P.length, Pml4.get m p (blockPage v (i + j)) = none) →
      (∃ msg, bindFrom s p v f i P m = .error (.panic msg) ∧ Starves s m p v f i P) ∨
      ∃ m', bindFrom s p v f i P m = .ok m' ∧ Sound s R m' ∧ Binds R m m' p v f i P := by
  intro P
  induction P with
  | nil => intro i m h _ _ _; exact .inr ⟨m, rfl, h, Binds.nil ..⟩
  | cons a P ih =>
    intro i m h hlt hP hnone
    rw [List.length_cons] at hlt
    have hcan : Canonical (blockPage v i) := blockPage_canonical hv (by omega)
    unfold bindFrom
    rcases h.map (f := f) hp hcan (hP a List.mem_cons_self) (hnone 0 (Nat.zero_lt_succ _)) with
      ⟨msg, he, hout⟩ | ⟨m₁, he, h₁, hadd⟩
    · rw [he]
      exact .inl ⟨msg, rfl, 0, m, Nat.zero_lt_succ _, rfl, hout⟩
    rw [he, Res.ok_bind]
    -- the pages still to be bound are other pages
    have hnone₁ : ∀ j < P.length, Pml4.get m₁ p (blockPage v (i + 1 + j)) = none := by
      intro j hj
      have hcan' : Canonical (blockPage v (i + 1 + j)) := blockPage_canonical hv (by omega)
      rw [hadd.miss p hp _ hcan'.1]
      · have := hnone (j + 1) (Nat.succ_lt_succ hj)
        rwa [show i + (j + 1) = i + 1 + j by omega] at this
      · intro he
        have := blockPage_inj (by omega) (by omega) (Prod.mk.inj he).2
        omega
    rcases ih (i + 1) m₁ h₁ (by omega) (fun b hb => hP b (List.mem_cons_of_mem a hb)) hnone₁ with
      ⟨msg, he', j, m₂, hj, hj', hout⟩ | ⟨m', he', h', hB⟩
    · refine .inl ⟨msg, he', j + 1, m₂, Nat.succ_lt_succ hj, ?_, ?_⟩
      · rw [List.take_succ_cons, bindFrom, he, Res.ok_bind, hj']
      · rwa [show i + (j + 1) = i + 1 + j by omega]
    · exact .inr ⟨m', he', h', hB.cons hp (by omega) hadd⟩

/-! ## Frames -/

theorem physPage_aligned {k : Nat} (hk : k < 32768) : physPage k &&& 0x1FFFFF = 0 := by
  rw [aligned_iff, physPage_toNat hk]
  omega

/-- One page for each slot. -/
theorem Taken.nodup {count : Word} {a b : Nat} {t : Tracker} {ks : List Nat}
    (h : Taken count a b t ks) : (ks.map slot).Nodup := by
  have hsub : (ks.map slot).toFinset ⊆ clearSlots t := by
    intro x hx
    obtain ⟨k, hk, rfl⟩ := List.mem_map.mp (List.mem_toFinset.mp hx)
    exact mem_clearSlots.mpr (h.clear k hk)
  have hleft : clearSlots (markAll t ks) = clearSlots t \ (ks.map slot).toFinset := by
    apply Finset.ext
    intro x
    rw [mem_clearSlots, clear_markAll (fun k hk => (h.range k hk).2), Finset.mem_sdiff,
      mem_clearSlots, List.mem_toFinset, List.mem_map]
    refine and_congr_right fun _ => ⟨fun h' ⟨k, hk, he⟩ => h' k hk he.symm, fun h' k hk he => ?_⟩
    exact h' ⟨k, hk, he.symm⟩
  have h1 := Finset.card_sdiff_add_card_eq_card hsub
  have h2 : (clearSlots (markAll t ks)).card + ks.length = (clearSlots t).card := h.left
  rw [← hleft] at h1
  have h3 : (ks.map slot).toFinset.card = (ks.map slot).length := by
    rw [List.length_map]
    omega
  rw [← Multiset.coe_nodup, ← Multiset.toFinset_card_eq_card_iff_nodup]
  exact h3

theorem Taken.frames_nodup {count : Word} {a b : Nat} {t : Tracker} {ks : List Nat}
    (h : Taken count a b t ks) : (ks.map physPage).Nodup := by
  refine (List.nodup_map_iff_inj_on h.nodup.of_map).mpr fun k hk k' hk' he => ?_
  exact physPage_inj (h.range k hk).2 (h.range k' hk').2 he

theorem Taken.frames {count : Word} {b : Nat} {t : Tracker} {ks : List Nat}
    (h : Taken count 3 b t ks) : ∀ a ∈ ks.map physPage,
      a &&& 0x1FFFFF = 0 ∧ (0x600000 : Word) ≤ a ∧ a < PHYS_SIZE := by
  intro a ha
  obtain ⟨k, hk, rfl⟩ := List.mem_map.mp ha
  obtain ⟨h3, hlt⟩ := h.range k hk
  refine ⟨physPage_aligned hlt, ?_, (physPage_lt (by omega)).mpr hlt⟩
  rw [BitVec.le_def, physPage_toNat hlt]
  show 0x600000 ≤ _
  omega

/-- Flags below bit 21 stay below it. -/
theorem flags_low {flags : BitVec 32} (h : flags.toNat < 2 ^ 21) :
    flags.setWidth 64 &&& ~~~(0x1FFFFF : Word) = 0 := by
  apply BitVec.eq_of_toNat_eq
  rw [toNat_pageBase, BitVec.toNat_setWidth]
  show _ = 0
  omega

/-! ## `alloc` -/

/-- In binding what `alloc` has found, the pages for new tables do not run
out. -/
def Suffices (s : Statics) (st : Machine) (p n : Word) (flags : BitVec 32) : Prop :=
  ∀ v P t, findVirtualRange st.mem p n = .ok (some v) →
    allocPhysicalPages st.phys n = .ok (some P, t) →
    ¬ Starves s st.mem p v (flags.setWidth 64) 0 P

/-- `alloc` finds no block or not enough frames, runs out of pages for tables,
or binds frames it took to a vacant block. -/
theorem alloc_spec (st : Machine) {n : Word} (flags : BitVec 32) (h : Sound s R st.mem)
    (hp : p ∈ R) (hn : n ≠ 0) (hn32 : n.toNat ≤ 32) :
    (∃ t, alloc s st p n flags = .ok (none, ⟨st.mem, t⟩)) ∨
    (∃ msg, alloc s st p n flags = .error (.panic msg) ∧ ¬ Suffices s st p n flags) ∨
    ∃ v ks m', alloc s st p n flags = .ok (some v, ⟨m', markAll st.phys ks⟩) ∧
      Vacant st.mem p v n.toNat ∧ ks.length = n.toNat ∧ Taken n 3 0 st.phys ks ∧
      allocPhysicalPages st.phys n = .ok (some (ks.map physPage), markAll st.phys ks) ∧
      Sound s R m' ∧ Binds R st.mem m' p v (flags.setWidth 64) 0 (ks.map physPage) := by
  have hle : n ≤ 32 := hn32
  unfold alloc
  rw [if_neg hn, Res.assert_of hle, Res.ok_bind]
  rcases findVirtualRange_spec st.mem p hn32 with hf | ⟨v, hf, hV⟩
  · rw [hf]
    exact .inl ⟨st.phys, rfl⟩
  rw [hf, Res.ok_bind]
  dsimp only
  rcases Nat.lt_or_ge (clearSlots st.phys).card n.toNat with hlt | hge
  · obtain ⟨ks, ha, -⟩ := alloc_short hlt
    rw [ha]
    exact .inl ⟨_, rfl⟩
  obtain ⟨ks, ha, hT, hlen⟩ := alloc_fits hge
  rw [ha, Res.ok_bind]
  dsimp only
  have hlen' : (ks.map physPage).length = n.toNat := by rw [List.length_map, hlen]
  have hend : rangeEnd.toNat = 0xFFFF00000000 := rfl
  have hbelow := hV.below
  rcases bindFrom_spec (f := flags.setWidth 64) hp hV.aligned (ks.map physPage) 0 st.mem h (by omega)
      (fun a ha => (hT.frames a ha).1)
      (fun j hj => by rw [Nat.zero_add]; exact hV.unmapped j (by omega)) with
    ⟨msg, he, hS⟩ | ⟨m', he, h', hB⟩
  · rw [he]
    exact .inr (.inl ⟨msg, rfl, fun hsuf => hsuf v _ _ hf ha hS⟩)
  · rw [he]
    exact .inr (.inr ⟨v, ks, m', rfl, hV, hlen, hT, rfl, h', hB⟩)

/-- What a call of `alloc` that returns a block has gone through. -/
theorem alloc_inv {st st' : Machine} {n : Word} {flags : BitVec 32}
    (he : alloc s st p n flags = .ok (some v, st')) : n ≠ 0 ∧ n.toNat ≤ 32 ∧
      findVirtualRange st.mem p n = .ok (some v) ∧
      ∃ ks, Taken n 3 0 st.phys ks ∧ ks.length = n.toNat ∧ st'.phys = markAll st.phys ks ∧
        bindFrom s p v (flags.setWidth 64) 0 (ks.map physPage) st.mem = .ok st'.mem := by
  unfold alloc at he
  by_cases hn : n = 0
  · rw [if_pos hn] at he
    cases he
  rw [if_neg hn] at he
  by_cases hle : n ≤ 32
  · rw [Res.assert_of hle, Res.ok_bind] at he
    obtain ⟨r, hf, he⟩ := Res.bind_eq_ok.mp he
    cases r with
    | none => cases he
    | some v' =>
      obtain ⟨⟨pr, t⟩, ha, he⟩ := Res.bind_eq_ok.mp he
      cases pr with
      | none => cases he
      | some P =>
        obtain ⟨m', hb, he⟩ := Res.bind_eq_ok.mp he
        obtain ⟨hv, rfl⟩ := Prod.mk.inj (Except.ok.inj he)
        obtain rfl := Option.some.inj hv
        rcases Nat.lt_or_ge (clearSlots st.phys).card n.toNat with hlt | hge
        · obtain ⟨ks, ha', -⟩ := alloc_short hlt
          rw [ha'] at ha
          cases ha
        · obtain ⟨ks, ha', hT, hlen⟩ := alloc_fits hge
          rw [ha'] at ha
          cases ha
          exact ⟨hn, hle, hf, ks, hT, hlen, rfl, hb⟩
  · rw [Res.assert_not hle] at he
    cases he

/-- What a call of `alloc` that returns has done. -/
theorem alloc_cases {st st' : Machine} {n : Word} {flags : BitVec 32} {r : Option Word}
    (h : Sound s R st.mem) (hp : p ∈ R) (he : alloc s st p n flags = .ok (r, st')) :
    r = none ∧ st'.mem = st.mem ∨ ∃ v, ∃ ks : List Nat, r = some v ∧ n.toNat ≤ 32 ∧
      Vacant st.mem p v n.toNat ∧ ks.length = n.toNat ∧ Sound s R st'.mem ∧
      Binds R st.mem st'.mem p v (flags.setWidth 64) 0 (ks.map physPage) := by
  by_cases hn : n = 0
  · unfold alloc at he
    rw [if_pos hn] at he
    cases he
    exact .inl ⟨rfl, rfl⟩
  by_cases hle : n ≤ 32
  · rcases alloc_spec st flags h hp hn hle with
      ⟨t, ha⟩ | ⟨msg, ha, -⟩ | ⟨v, ks, m', ha, hV, hlen, -, -, h', hB⟩
    · rw [ha] at he
      cases he
      exact .inl ⟨rfl, rfl⟩
    · rw [ha] at he
      cases he
    · rw [ha] at he
      cases he
      exact .inr ⟨v, ks, rfl, hle, hV, hlen, h', hB⟩
  · unfold alloc at he
    rw [if_neg hn, Res.assert_not hle] at he
    cases he

/-- What the caller of `alloc` gets: a block of `n` pages at `v` that were
unmapped, bound to the frames `P`, of which none is in `earlier`. -/
structure Delivered (m m' : Mem) (p v : Word) (n : Nat) (earlier : List (List Word))
    (P : List Word) : Prop where
  aligned : v &&& 0x1FFFFF = 0
  range : rangeStart ≤ v ∧ v < rangeEnd
  unmapped : ∀ i < n, ∀ off : Word, off.toNat < 2 ^ 21 →
    Pml4.get m p (v + adr i * 0x200000 + off) = none
  count : P.length = n
  distinct : P.Nodup
  frames : ∀ a ∈ P, a &&& 0x1FFFFF = 0 ∧ (0x600000 : Word) ≤ a ∧ a < PHYS_SIZE
  fresh : ∀ pages ∈ earlier, P.Disjoint pages
  bound : ∀ i a, P[i]? = some a → ∀ off : Word, off.toNat < 2 ^ 21 →
    Pml4.get m' p (v + adr i * 0x200000 + off) = some (a + off)
  others : ∀ w : Word, w.toNat < 2 ^ 48 → (∀ i < n, w >>> 21 ≠ (v + adr i * 0x200000) >>> 21) →
    Pml4.get m' p w = Pml4.get m p w

/-- The call finds as many clear slots as it asks for. -/
def Granted (st : PhysState) (count : Word) : Prop :=
  ∃ P t, allocPhysicalPages st.tracker count = .ok (some P, t)

/-- No frame is anybody's twice while every call succeeds. -/
theorem owned_of_granted {st : PhysState} (h : (physLts.guard Granted).Reachable st) : Owned st := by
  refine LTS.Inductive.reachable (I := Owned) ⟨?_, ?_⟩ st h
  · rintro st rfl
    exact ⟨nofun, .nil⟩
  · rintro st count st' hO ⟨⟨r, t, he, rfl⟩, P, t', hg⟩
    refine hO.step (.inl ?_) he
    by_contra hlt
    obtain ⟨ks, he', -⟩ := alloc_short (Nat.lt_of_not_le hlt)
    rw [he'] at hg
    cases hg

/-- **`alloc`, end to end.** The flags leave the bits of the frame alone, as
every combination of `AF_RW` and `AF_USER` does. -/
theorem alloc_delivers {st : PhysState} {n : Word} {flags : BitVec 32} (hA : AllocWF s m {p})
    (hW : TableWF s m p) (hst : (physLts.guard Granted).Reachable st) (hn : 1 ≤ n.toNat)
    (hn32 : n.toNat ≤ 32) (hf : flags.toNat < 2 ^ 21)
    (hroom : Suffices s ⟨m, st.tracker⟩ p n flags) :
    ∃ r st', alloc s ⟨m, st.tracker⟩ p n flags = .ok (r, st') ∧ ∀ v, r = some v →
      ∃ P, allocPhysicalPages st.tracker n = .ok (some P, st'.phys) ∧
        Delivered m st'.mem p v n.toNat st.calls P := by
  have hn0 : n ≠ 0 := by rintro rfl; exact absurd hn (by decide)
  rcases alloc_spec ⟨m, st.tracker⟩ flags (hA.sound hW)
      (Set.mem_singleton p) hn0 hn32 with
    ⟨t, he⟩ | ⟨msg, -, hno⟩ | ⟨v, ks, m', he, hV, hlen, hT, ha, -, hB⟩
  · exact ⟨none, _, he, nofun⟩
  · exact absurd hroom hno
  refine ⟨some v, _, he, ?_⟩
  rintro _ ⟨⟩
  have hlow := flags_low hf
  have hlen' : (ks.map physPage).length = n.toNat := by rw [List.length_map, hlen]
  refine ⟨ks.map physPage, ha, hV.aligned, ⟨hV.above, hV.below⟩, ?_, hlen', hT.frames_nodup,
    hT.frames, ?_, ?_, ?_⟩
  · intro i hi off hoff
    have hc := hV.canonical hn32 hi
    obtain ⟨h1, h2, -⟩ := page_offset hc.1 hc.2 hoff
    exact (get_none_congr m p hc.1 h1 h2).mpr (hV.unmapped i hi)
  · intro pages hp
    have hO := (owned_of_granted hst).deliver hT
    exact List.rel_of_pairwise_cons hO.exclusive hp
  · intro i a hi off hoff
    have hlt : i < n.toNat := by
      rw [← hlen']
      exact (List.getElem?_eq_some_iff.mp hi).1
    have hc := hV.canonical hn32 hlt
    obtain ⟨h1, h2, h3⟩ := page_offset hc.1 hc.2 hoff
    have hal := (hT.frames a (List.mem_of_getElem? hi)).1
    have hget := hB.hit i a hi _ h1 (by rw [Nat.zero_add]; exact h2)
    rwa [frameOf_eq hal hlow, or_offset hal, h3] at hget
  · intro w hw hne
    refine hB.miss p (Set.mem_singleton p) w hw fun j hj he => ?_
    rw [Nat.zero_add] at he
    exact hne j (by omega) (Prod.mk.inj he).2

end

/-- Two pages for an empty table, after a call that got one. -/
theorem alloc_delivers_demo : ∃ P m', Delivered demoMem m' 0x300000 0x80000000 2 [[physPage 3]] P := by
  have h₁ := alloc_first (clear_init (slot 3))
  have hst : (physLts.guard Granted).Reachable ⟨mark init (physPage 3), [[physPage 3]]⟩ :=
    ⟨_, [1], rfl, .cons ⟨⟨_, _, h₁, rfl⟩, _, _, h₁⟩ (.nil _)⟩
  have hpages : (match allocPhysicalPages (mark init (physPage 3)) 2 with
      | .ok (some P, _) => decide (P = [physPage 4, physPage 5])
      | _ => false) = true := by decide +kernel
  have hfind : findVirtualRange demoMem 0x300000 2 = .ok (some 0x80000000) := by decide +kernel
  -- the first page takes two of the four pages for tables
  have hleft : (match bindFrom demo 0x300000 0x80000000 1 0 [physPage 4] demoMem with
      | .ok m₁ => !tracked demo m₁ 2 && !tracked demo m₁ 3
      | _ => false) = true := by decide +kernel
  have hroom : Suffices demo ⟨demoMem, mark init (physPage 3)⟩ 0x300000 2 1 := by
    rintro v P t hf ha ⟨j, m₁, hj, hb, hout⟩
    have hfew := hout.exhausted
    obtain rfl := Option.some.inj (Except.ok.inj (hfind.symm.trans hf))
    have ha : allocPhysicalPages (mark init (physPage 3)) 2 = .ok (some P, t) := ha
    rw [ha] at hpages
    obtain rfl := of_decide_eq_true hpages
    obtain rfl | rfl : j = 0 ∨ j = 1 := Nat.le_one_iff_eq_zero_or_eq_one.mp (Nat.le_of_lt_succ hj)
    · cases hb
      exact absurd (hfew 2 (by decide) 3 (by decide) (by decide +kernel) (by decide +kernel))
        (by decide)
    · have hb : bindFrom demo 0x300000 0x80000000 1 0 [physPage 4] demoMem = .ok m₁ := hb
      rw [hb, Bool.and_eq_true, Bool.not_eq_true', Bool.not_eq_true'] at hleft
      exact absurd (hfew 2 (by decide) 3 (by decide) hleft.1 hleft.2) (by decide)
  obtain ⟨r, st', he, h⟩ := alloc_delivers demo_init.1 demo_init.2 hst
    (by decide : 1 ≤ (2 : Word).toNat) (by decide) (by decide) hroom
  have hsome : (match alloc demo ⟨demoMem, mark init (physPage 3)⟩ 0x300000 2 1 with
      | .ok (some v, _) => decide (v = 0x80000000)
      | _ => false) = true := by decide +kernel
  rw [he] at hsome
  cases r with
  | none => cases hsome
  | some v =>
    obtain rfl := of_decide_eq_true hsome
    obtain ⟨P, -, hD⟩ := h _ rfl
    exact ⟨P, st'.mem, hD⟩

end X64k.L4.Mm
