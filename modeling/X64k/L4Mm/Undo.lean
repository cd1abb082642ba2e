import X64k.L4Mm.Block

/-!
# What `free` undoes

`mm::free` unmaps the pages of a block. It does not look at the bitmap of the
physical pages, and `unmap` clears no entry, so after it the block is still
mapped and its frames are still taken.

* `freeFrom_entries`: whatever the counters say, `free` writes bitmap and
  counters of the paging structures only.
* `alloc_phys`, `Rounds.ledger`: pages taken and pages left.
* `never_undone`: no `alloc` is undone by `free`.
-/
namespace X64k.L4.Mm

open X64k.Core X64k.Core.Radix X64k.L2.Paging

/-! ## What is to be undone -/

/-- The physical pages that `allocPhysicalPages` may take. -/
def available (t : Tracker) : Set Word :=
  {a | (0x600000 : Word) ≤ a ∧ a < PHYS_SIZE ∧ a &&& 0x1FFFFF = 0 ∧
    t (trackIndex a) &&& trackBit a = 0}

/-- `free` after `alloc` (from `st` to `st'`) restores what it says it does. -/
def Undone (s : Statics) (st st' : Machine) (p v n : Word) : Prop :=
  ∃ st'', free s st' p v n = .ok st'' ∧
    (∀ w : Word, w.toNat < 2 ^ 48 → Pml4.get st''.mem p w = Pml4.get st.mem p w) ∧
    available st''.phys = available st.phys

/-- `k` rounds of `alloc` and `free`. -/
inductive Rounds (s : Statics) (p n : Word) (flags : BitVec 32) : Nat → Machine → Machine → Prop where
  | zero (st : Machine) : Rounds s p n flags 0 st st
  | succ {k : Nat} {v : Word} {st st₁ st₂ st₃ : Machine} :
      alloc s st p n flags = .ok (some v, st₁) → free s st₁ p v n = .ok st₂ →
      Rounds s p n flags k st₂ st₃ → Rounds s p n flags (k + 1) st st₃

/-! ## Entries -/

section Entries
variable {s : Statics} {P : Set Word} {m m' : Mem} {p v : Word}

theorem free_entries (hL : Layout s) (hD : Domain s P) {n : Nat} (hn : n < s.pages)
    (h : L2.Paging.free s m (s.page n) = .ok m') : TablesShow m' P (entry m) := by
  have hS := shows_tabsOf s m P
  cases ht : tracked s m n with
  | true =>
    obtain ⟨m₁, he, hS₁⟩ := free_shows hL hD hS hn ht
    rw [he] at h
    cases h
    exact hS₁.E
  | false =>
    have hbit := (hS.test hL hn).mpr ht
    unfold L2.Paging.free at h
    dsimp only at h
    rw [Res.assert_not (not_not_intro hbit)] at h
    cases h

theorem decRefs_entries (hL : Layout s) (hD : Domain s P) {n : Nat} (hn : n < s.pages)
    {c : BitVec 16} (h : decRefs s m (s.page n) = .ok (c, m')) : TablesShow m' P (entry m) := by
  obtain ⟨m₁, he, hS₁⟩ := decRefs_shows hL hD (shows_tabsOf s m P) hn
  rw [he] at h
  cases h
  exact hS₁.E

theorem dropPd_entries (hL : Layout s) (hD : Domain s P) {q n : Nat} (hq : q < s.pages)
    (hn : n < s.pages) (h : Pml4.dropPd s m (s.page q) (s.page n) = .ok m') :
    TablesShow m' P (entry m) := by
  have htrans : ∀ {m₁ m₂ : Mem}, TablesShow m₁ P (entry m) → TablesShow m₂ P (entry m₁) →
      TablesShow m₂ P (entry m) := fun h₁ h₂ t ht i => (h₂ t ht i).trans (h₁ t ht i)
  unfold Pml4.dropPd at h
  obtain ⟨⟨c, m₁⟩, h1, h⟩ := Res.bind_eq_ok.mp h
  dsimp only at h
  have hE₁ := decRefs_entries hL hD hn h1
  split at h
  · obtain ⟨m₂, h2, h⟩ := Res.bind_eq_ok.mp h
    obtain ⟨⟨c', m₃⟩, h3, h⟩ := Res.bind_eq_ok.mp h
    dsimp only at h
    have hE₃ := htrans (htrans hE₁ (free_entries hL hD hn h2)) (decRefs_entries hL hD hq h3)
    split at h
    · exact htrans hE₃ (free_entries hL hD hq h)
    · cases h
      exact hE₃
  · cases h
    exact hE₁

/-- The tables below `p` are pages of the range. -/
structure TablesIn (s : Statics) (m : Mem) (p : Word) : Prop where
  mid : ∀ a ∈ mids nx (entry m) {p}, ∃ n < s.pages, a = s.page n
  low : ∀ b ∈ lows nx (entry m) {p}, ∃ n < s.pages, b = s.page n

theorem TablesIn.congr (h : TablesIn s m p) (hE : TablesShow m' (tablePages s {p}) (entry m)) :
    TablesIn s m' p := by
  have hnx : ∀ t ∈ {p} ∪ mids nx (entry m) {p}, ∀ i, nx (entry m' t i) = nx (entry m t i) := by
    rintro t (ht | ht) i
    · rw [hE t (.inl ht)]
    · rw [hE t (.inr (h.mid t ht))]
  obtain ⟨h1, h2⟩ := mids_lows_congr hnx
  refine ⟨fun a ha => h.mid a ?_, fun b hb => h.low b ?_⟩
  · rwa [h1] at ha
  · rwa [h2] at hb

theorem unmap_entries (hL : Layout s) (hD : Domain s (tablePages s {p})) (hT : TablesIn s m p)
    (hv : Canonical v) {b : Bool} (h : Pml4.unmap s m p v = .ok (b, m')) :
    TablesShow m' (tablePages s {p}) (entry m) := by
  have hrefl : TablesShow m (tablePages s {p}) (entry m) := fun _ _ _ => rfl
  unfold Pml4.unmap at h
  rw [Res.assert_of hv.2, Res.ok_bind, pml4Index_eq hv.1, pdptIndex_eq, pdIndex_eq] at h
  simp only [entryAt_adr] at h
  split at h
  · rename_i h1
    have hn1 : nx (entry m p (pml4Ix v)) = some (tableOf (entry m p (pml4Ix v))) := if_pos h1
    have hm := mem_mids (R := {p}) rfl hn1
    obtain ⟨q, hq, hpq⟩ := hT.mid _ hm
    split at h
    · rename_i h2
      have hl := mem_lows hm (if_pos h2 : nx (entry m _ (pdptIx v)) = some _)
      obtain ⟨n, hn, hpn⟩ := hT.low _ hl
      split at h
      · obtain ⟨m₁, h3, h⟩ := Res.bind_eq_ok.mp h
        cases h
        rw [hpn, hpq] at h3
        exact dropPd_entries hL hD hq hn h3
      · cases h
        exact hrefl
    · cases h
      exact hrefl
  · cases h
    exact hrefl

theorem freeFrom_entries (hL : Layout s) (hD : Domain s (tablePages s {p})) {n i : Nat}
    (hT : TablesIn s m p) (hcan : ∀ j, i ≤ j → j < i + n → Canonical (blockPage v j))
    (h : freeFrom s p v n i m = .ok m') : TablesShow m' (tablePages s {p}) (entry m) := by
  induction n generalizing i m with
  | zero =>
    cases h
    exact fun _ _ _ => rfl
  | succ n ih =>
    unfold freeFrom at h
    split at h
    · obtain ⟨⟨b, m₁⟩, h1, h⟩ := Res.bind_eq_ok.mp h
      dsimp only at h
      have hE := unmap_entries hL hD hT (hcan i (Nat.le_refl _) (by omega)) h1
      have hE' := ih (hT.congr hE) (fun j h2 h3 => hcan j (by omega) (by omega)) h
      exact fun t ht j => (hE' t ht j).trans (hE t ht j)
    · cases h

end Entries

/-! ## Physical pages -/

section Phys
variable {s : Statics} {st st' : Machine} {p v n : Word} {flags : BitVec 32}

/-- A call of `alloc` that returns a block has taken `n` pages. -/
theorem alloc_phys (he : alloc s st p n flags = .ok (some v, st')) :
    n ≠ 0 ∧ ∃ ks, st'.phys = markAll st.phys ks ∧ Taken n 3 0 st.phys ks ∧ ks.length = n.toNat := by
  obtain ⟨hn, -, -, ks, hT, hlen, hphys, -⟩ := alloc_inv he
  exact ⟨hn, ks, hphys, hT, hlen⟩

theorem free_phys (he : free s st p v n = .ok st') : st'.phys = st.phys := by
  unfold free at he
  obtain ⟨m', -, he⟩ := Res.bind_eq_ok.mp he
  rw [← Except.ok.inj he]

/-- The first page taken was available. -/
theorem Taken.not_available {ks : List Nat} (hT : Taken n 3 0 st.phys ks) (hne : ks ≠ []) :
    available (markAll st.phys ks) ≠ available st.phys := by
  obtain ⟨k, ks', rfl⟩ := List.exists_cons_of_ne_nil hne
  have hk := hT.range k List.mem_cons_self
  obtain ⟨h1, h2, h3⟩ := hT.frames (physPage k) (List.mem_map_of_mem List.mem_cons_self)
  intro heq
  have hin : physPage k ∈ available st.phys :=
    ⟨h2, h3, h1, (clear_page hk.2).mpr (hT.clear k List.mem_cons_self)⟩
  rw [← heq] at hin
  have hclear := (clear_page hk.2).mp hin.2.2.2
  exact ((clear_markAll (fun k hk => (hT.range k hk).2) _).mp hclear).2 k List.mem_cons_self rfl

/-- Every round takes `n` slots for good. -/
theorem Rounds.ledger {k : Nat} (h : Rounds s p n flags k st st') :
    (clearSlots st'.phys).card + k * n.toNat = (clearSlots st.phys).card := by
  induction h with
  | zero st => rw [Nat.zero_mul, Nat.add_zero]
  | succ he hf _ ih =>
    obtain ⟨-, ks, hphys, hT, hlen⟩ := alloc_phys he
    have hleft : (clearSlots (markAll _ ks)).card + ks.length = _ := hT.left
    rw [free_phys hf, hphys] at ih
    rw [Nat.succ_mul]
    omega

end Phys

/-! ## Main result -/

/-- **No `alloc` is undone.** Whenever `alloc` returns a block, `free` of the
block, if it returns, leaves every translation as it is, so the block is still
mapped, and leaves the block's frames taken; and rounds of `alloc` and `free`
come to an end. -/
theorem never_undone {s : Statics} {st st' : Machine} {p v n : Word} {flags : BitVec 32}
    (hA : AllocWF s st.mem {p}) (hW : TableWF s st.mem p)
    (he : alloc s st p n flags = .ok (some v, st')) :
    ¬ Undone s st st' p v n ∧
    (∀ st'', free s st' p v n = .ok st'' →
      (∀ w : Word, w.toNat < 2 ^ 48 → Pml4.get st''.mem p w = Pml4.get st'.mem p w) ∧
      Pml4.get st.mem p v = none ∧ Pml4.get st''.mem p v ≠ none ∧
      (clearSlots st''.phys).card + n.toNat = (clearSlots st.phys).card) ∧
    ∀ k st₁, Rounds s p n flags k st st₁ → k * n.toNat ≤ 16384 := by
  have hp : p ∈ ({p} : Set Word) := rfl
  obtain ⟨hn, ks, hphys, hT, hlen⟩ := alloc_phys he
  have hpos : 0 < n.toNat := Nat.pos_of_ne_zero fun h0 => hn (BitVec.eq_of_toNat_eq h0)
  have hne : ks ≠ [] := fun h0 => by
    rw [h0, List.length_nil] at hlen
    omega
  refine ⟨?_, fun st'' hf => ?_, fun k st₁ hr => ?_⟩
  · rintro ⟨st'', hf, -, havail⟩
    rw [free_phys hf, hphys] at havail
    exact hT.not_available hne havail
  · rcases alloc_cases (hA.sound hW) hp he with ⟨h0, -⟩ | ⟨_, ks', ⟨⟩, hn32, hV, hlen', h', hB⟩
    · cases h0
    have hget : ∀ w : Word, w.toNat < 2 ^ 48 → Pml4.get st''.mem p w = Pml4.get st'.mem p w := by
      unfold free at hf
      obtain ⟨m', hm, hf⟩ := Res.bind_eq_ok.mp hf
      obtain rfl := Except.ok.inj hf
      have hTI : TablesIn s st'.mem p :=
        ⟨fun a ha => (h'.tree.mid a ha).imp fun _ h => ⟨h.1, h.2.1⟩,
          fun b hb => (h'.tree.low b hb).imp fun _ h => ⟨h.1, h.2.1⟩⟩
      have hE := freeFrom_entries h'.layout h'.domain hTI
        (fun j _ hj => hV.canonical hn32 (by rwa [Nat.zero_add] at hj)) hm
      exact fun w hw => h'.get_congr hE hp hw
    have hc := hV.canonical hn32 hpos
    have h0 := hV.unmapped 0 hpos
    rw [blockPage_zero] at hc h0
    refine ⟨hget, h0, ?_, ?_⟩
    · have hlt : 0 < (ks'.map physPage).length := by rw [List.length_map, hlen']; exact hpos
      rw [hget v hc.1, hB.hit 0 _ (List.getElem?_eq_getElem hlt) v hc.1
        (by rw [Nat.zero_add, blockPage_zero])]
      exact Option.some_ne_none _
    · have hleft : (clearSlots (markAll _ ks)).card + ks.length = _ := hT.left
      rw [free_phys hf, hphys]
      omega
  · have h1 := hr.ledger
    have h2 := clearSlots_card_le st.phys
    omega

/-- One page, from an empty table and all physical memory. -/
theorem demo_round : ∃ st' st'' : Machine,
    alloc demo ⟨demoMem, init⟩ 0x300000 1 1 = .ok (some 0x80000000, st') ∧
    free demo st' 0x300000 0x80000000 1 = .ok st'' := by
  have h : (match alloc demo ⟨demoMem, init⟩ 0x300000 1 1 with
      | .ok (some v, st') => v == 0x80000000 &&
        match free demo st' 0x300000 0x80000000 1 with
        | .ok _ => true
        | .error _ => false
      | _ => false) = true := by decide +kernel
  split at h
  · rename_i v st' he
    rw [Bool.and_eq_true, beq_iff_eq] at h
    obtain ⟨rfl, h⟩ := h
    split at h
    · rename_i st'' hf
      exact ⟨st', st'', he, hf⟩
    · cases h
  · cases h

/-- The round leaves its page mapped and one slot less. -/
theorem never_undone_demo : ∃ st' st'' : Machine,
    ¬ Undone demo ⟨demoMem, init⟩ st' 0x300000 0x80000000 1 ∧
    Pml4.get st''.mem 0x300000 0x80000000 ≠ none ∧ (clearSlots st''.phys).card + 1 = 16384 := by
  obtain ⟨st', st'', he, hf⟩ := demo_round
  obtain ⟨h1, h2, -⟩ := never_undone demo_init.1 demo_init.2 he
  obtain ⟨-, -, h3, h4⟩ := h2 st'' hf
  rw [clearSlots_init] at h4
  exact ⟨st', st'', h1, h3, h4⟩

/-- **One round.** The page 0x600000 was available and is not any more, and
0x80000000 was not mapped and still is. -/
theorem round_run : ∃ st' st'' : Machine,
    (AllocWF demo demoMem {0x300000} ∧ TableWF demo demoMem 0x300000) ∧
    alloc demo ⟨demoMem, init⟩ 0x300000 1 1 = .ok (some 0x80000000, st') ∧
    free demo st' 0x300000 0x80000000 1 = .ok st'' ∧
    (Pml4.get demoMem 0x300000 0x80000000 = none ∧
      Pml4.get st''.mem 0x300000 0x80000000 = some 0x600000) ∧
    (0x600000 : Word) ∈ available init ∧ (0x600000 : Word) ∉ available st''.phys := by
  have h : (match alloc demo ⟨demoMem, init⟩ 0x300000 1 1 with
      | .ok (some v, st') => v == 0x80000000 &&
        match free demo st' 0x300000 0x80000000 1 with
        | .ok st'' => Pml4.get demoMem 0x300000 0x80000000 == none &&
          Pml4.get st''.mem 0x300000 0x80000000 == some 0x600000 &&
          st''.phys (trackIndex 0x600000) &&& trackBit 0x600000 != 0
        | .error _ => false
      | _ => false) = true := by decide +kernel
  split at h
  · rename_i v st' he
    rw [Bool.and_eq_true, beq_iff_eq] at h
    obtain ⟨rfl, h⟩ := h
    split at h
    · rename_i st'' hf
      simp only [Bool.and_eq_true, beq_iff_eq, bne_iff_ne] at h
      obtain ⟨⟨h1, h2⟩, h3⟩ := h
      exact ⟨st', st'', demo_init, he, hf, ⟨h1, h2⟩, ⟨by decide, by decide, by decide, by decide⟩,
        fun hin => h3 hin.2.2.2⟩
    · cases h
  · cases h

end X64k.L4.Mm
