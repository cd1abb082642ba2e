import X64k.L4Mm.Exclusive

/-!
# A call that falls short

`allocPhysicalPages` that does not get enough pages means to restore the
bitmap ("reverting alloc state"). It clears, for each page it took, the bits of
`revertBit`, which is the number of the page's bit in place of the bit.

`restores_iff`: so the bitmap is as before in two cases only. Either nothing
was taken, or what was free are exactly the slots 0, 1, 2 and 5 of the first
word: the pages taken for them are 32, 33, 34 and 5, and the bits of these four
numbers, together, are the bits 0, 1, 2 and 5.
-/
namespace X64k.L4.Mm

open X64k.Core

/-! ## Bits of a word -/

section
variable {t : Tracker} {ks : List Nat}

theorem slotBit_self : ∀ j : Fin 32, (slotBit j).getLsbD j = true := by decide +kernel

theorem slotBit_eq : ∀ j : Fin 32, j.1 < 31 → slotBit j = (1#64) <<< j.1 := by decide +kernel

theorem Clear.bit {q : Fin 512} {j : Fin 32} (h : Clear t (q, j)) :
    (t (adr q)).getLsbD j = false := by
  have h1 := congrArg (fun w : Word => w.getLsbD j) h
  dsimp only at h1
  rw [BitVec.getLsbD_and, slotBit_self, Bool.and_true] at h1
  rw [h1]
  exact BitVec.getLsbD_zero

theorem clear_iff_bit {q : Fin 512} {j : Fin 32} (hj : j.1 < 31) :
    Clear t (q, j) ↔ (t (adr q)).getLsbD j = false := by
  unfold Clear
  dsimp only
  rw [slotBit_eq j hj]
  exact Bits.and_bit_eq_zero (by omega)

theorem getLsbD_mark {k : Nat} (hk : k < 32768) (q : Fin 512) (b : Nat) :
    ((mark t (physPage k)) (adr q)).getLsbD b = true ↔ (t (adr q)).getLsbD b = true ∨
      (slot k).1 = q ∧ (slotBit (slot k).2).getLsbD b = true := by
  unfold mark Tracker.set
  rw [trackIndex_page hk, trackBit_page hk]
  by_cases hq : (slot k).1 = q
  · rw [if_pos (by rw [hq]), hq, BitVec.getLsbD_or, Bool.or_eq_true]
    exact or_congr_right (and_iff_right rfl).symm
  · have hne : adr q ≠ adr (slot k).1 := by
      rw [ne_eq, adr_inj (by omega) (by omega)]
      exact fun h => hq (Fin.ext h.symm)
    rw [if_neg hne]
    exact (or_iff_left fun h => hq h.1).symm

theorem getLsbD_revert {k : Nat} (hk : k < 32768) (q : Fin 512) {b : Nat} (hb : b < 64) :
    ((revert t (physPage k)) (adr q)).getLsbD b = true ↔ (t (adr q)).getLsbD b = true ∧
      ((slot k).1 = q → (k % 64).testBit b = false) := by
  unfold revert Tracker.set
  rw [trackIndex_page hk, revertBit_page hk]
  by_cases hq : (slot k).1 = q
  · rw [if_pos (by rw [hq]), hq, BitVec.getLsbD_and, BitVec.getLsbD_not, BitVec.getLsbD_ofNat,
      Bool.and_eq_true]
    simp [hb]
  · have hne : adr q ≠ adr (slot k).1 := by
      rw [ne_eq, adr_inj (by omega) (by omega)]
      exact fun h => hq (Fin.ext h.symm)
    rw [if_neg hne]
    exact (and_iff_left fun h => absurd h hq).symm

theorem getLsbD_markAll (hks : ∀ k ∈ ks, k < 32768) (q : Fin 512) (b : Nat) :
    ((markAll t ks) (adr q)).getLsbD b = true ↔ (t (adr q)).getLsbD b = true ∨
      ∃ k ∈ ks, (slot k).1 = q ∧ (slotBit (slot k).2).getLsbD b = true := by
  induction ks generalizing t with
  | nil => exact ⟨.inl, fun h => h.resolve_right (by rintro ⟨k, hk, -⟩; cases hk)⟩
  | cons k ks ih =>
    rw [markAll, List.foldl_cons, ih fun k' hk' => hks k' (List.mem_cons_of_mem k hk'),
      getLsbD_mark (hks k List.mem_cons_self), or_assoc]
    simp only [List.exists_mem_cons_iff]

theorem getLsbD_revertAll (hks : ∀ k ∈ ks, k < 32768) (q : Fin 512) {b : Nat} (hb : b < 64) :
    (((ks.map physPage).foldl revert t) (adr q)).getLsbD b = true ↔
      (t (adr q)).getLsbD b = true ∧ ∀ k ∈ ks, (slot k).1 = q → (k % 64).testBit b = false := by
  induction ks generalizing t with
  | nil => exact ⟨fun h => ⟨h, nofun⟩, fun h => h.1⟩
  | cons k ks ih =>
    rw [List.map_cons, List.foldl_cons, ih fun k' hk' => hks k' (List.mem_cons_of_mem k hk'),
      getLsbD_revert (hks k List.mem_cons_self) q hb, and_assoc, List.forall_mem_cons]

/-- What a failed call leaves. -/
abbrev leftover (t : Tracker) (ks : List Nat) : Tracker :=
  (ks.map physPage).foldl revert (markAll t ks)

theorem getLsbD_leftover (hks : ∀ k ∈ ks, k < 32768) (q : Fin 512) {b : Nat} (hb : b < 64) :
    ((leftover t ks) (adr q)).getLsbD b = true ↔ ((t (adr q)).getLsbD b = true ∨
      ∃ k ∈ ks, (slot k).1 = q ∧ (slotBit (slot k).2).getLsbD b = true) ∧
      ∀ k ∈ ks, (slot k).1 = q → (k % 64).testBit b = false := by
  rw [getLsbD_revertAll hks q hb, getLsbD_markAll hks]

theorem markAll_other {i : Word} (h : ∀ k ∈ ks, trackIndex (physPage k) ≠ i) :
    markAll t ks i = t i := by
  induction ks generalizing t with
  | nil => rfl
  | cons k ks ih =>
    obtain ⟨h1, h2⟩ := List.forall_mem_cons.mp h
    rw [markAll, List.foldl_cons]
    exact (ih h2).trans (if_neg h1.symm)

theorem revertAll_other {i : Word} (h : ∀ k ∈ ks, trackIndex (physPage k) ≠ i) :
    (ks.map physPage).foldl revert t i = t i := by
  induction ks generalizing t with
  | nil => rfl
  | cons k ks ih =>
    obtain ⟨h1, h2⟩ := List.forall_mem_cons.mp h
    rw [List.map_cons, List.foldl_cons]
    exact (ih h2).trans (if_neg h1.symm)

/-! ## When the bits come out right -/

/-- The pages taken are the first ones of their slots: `k % 64` is the bit of
the slot, but for the slots 0, 1 and 2 of the first word, whose pages lie below
the scan. -/
theorem First.value (hF : First 3 ks) {k : Nat} (hk : k ∈ ks) (h3 : 3 ≤ k) :
    k % 64 = k % 32 ∨ k = 32 ∨ k = 33 ∨ k = 34 := by
  by_contra hne
  refine hF k hk (k - 32) (by omega) (by omega) ?_
  rw [slot, slot, Prod.mk.injEq, Fin.mk.injEq, Fin.mk.injEq]
  omega

/-- The slots 0, 1, 2 and 5 of the first word. -/
def oddSlots : Finset (Fin 512 × Fin 32) := {(0, 0), (0, 1), (0, 2), (0, 5)}

theorem slot_mem_oddSlots {k : Nat} (hk : k < 32768) : slot k ∈ oddSlots ↔
    k < 64 ∧ (k % 32 = 0 ∨ k % 32 = 1 ∨ k % 32 = 2 ∨ k % 32 = 5) := by
  unfold oddSlots slot
  simp only [Finset.mem_insert, Finset.mem_singleton, Prod.mk.injEq, Fin.ext_iff]
  show k / 64 % 512 = 0 ∧ k % 32 = 0 ∨ k / 64 % 512 = 0 ∧ k % 32 = 1 ∨
    k / 64 % 512 = 0 ∧ k % 32 = 2 ∨ k / 64 % 512 = 0 ∧ k % 32 = 5 ↔ _
  omega

/-- The bit of a page taken is cleared again: some page of the word has it in
its number. -/
theorem covered (hks : ∀ k ∈ ks, k < 32768) (hcl : ∀ k ∈ ks, Clear t (slot k))
    (he : leftover t ks = t) {k : Nat} (hk : k ∈ ks) :
    ∃ k' ∈ ks, k' / 64 = k / 64 ∧ (k' % 64).testBit (k % 32) = true := by
  have hbit : ((leftover t ks) (adr (slot k).1)).getLsbD (slot k).2 = false := by
    rw [he]
    exact (hcl k hk).bit
  by_contra hno
  have htrue := (getLsbD_leftover (t := t) hks (slot k).1
    (b := (slot k).2) (by omega)).mpr ⟨.inr ⟨k, hk, rfl, slotBit_self _⟩, ?_⟩
  · rw [hbit] at htrue
    cases htrue
  · intro k' hk' hq
    rw [Bool.eq_false_iff]
    intro hb
    have hk1 := hks k hk
    have hk2 := hks k' hk'
    have hq' : k' / 64 % 512 = k / 64 % 512 := congrArg Fin.val hq
    exact hno ⟨k', hk', by omega, hb⟩

/-- A bit that is cleared was clear: a page of its slot was taken. -/
theorem cleared (hks : ∀ k ∈ ks, k < 32768) (hall : ∀ x, Clear t x → ∃ k ∈ ks, slot k = x)
    (he : leftover t ks = t) {k b : Nat} (hk : k ∈ ks) (hb : (k % 64).testBit b = true) :
    ∃ k' ∈ ks, k' / 64 = k / 64 ∧ k' % 32 = b := by
  have hb6 : b < 6 := by
    have h1 := Nat.ge_two_pow_of_testBit hb
    by_contra hge
    have h2 : 2 ^ 6 ≤ 2 ^ b := Nat.pow_le_pow_right (by decide) (by omega)
    omega
  have hc : Clear t ((slot k).1, (⟨b, by omega⟩ : Fin 32)) := by
    rw [clear_iff_bit (by show b < 31; omega), ← Bool.not_eq_true]
    intro htrue
    rw [← he, getLsbD_leftover hks _ (by show b < 64; omega)] at htrue
    have := htrue.2 k hk rfl
    rw [hb] at this
    cases this
  obtain ⟨k', hk', hs⟩ := hall _ hc
  have h1 : k' / 64 % 512 = k / 64 % 512 := congrArg (fun x => x.1.val) hs
  have h2 : k' % 32 = b := congrArg (fun x => x.2.val) hs
  have hk1 := hks k hk
  have hk2 := hks k' hk'
  exact ⟨k', hk', by omega, h2⟩

/-- Nothing is taken beyond the first word: there the number of a bit is below
the bit. -/
theorem taken_first_word (hks : ∀ k ∈ ks, 3 ≤ k ∧ k < 32768) (hF : First 3 ks)
    (hcl : ∀ k ∈ ks, Clear t (slot k)) (he : leftover t ks = t) : ∀ k ∈ ks, k < 64 := by
  -- induction on how far the bit is from the end of the word
  have hdown : ∀ d k, k ∈ ks → 64 ≤ k → 32 - k % 32 ≤ d → False := by
    intro d
    induction d with
    | zero => intro k _ _ hd; omega
    | succ d ih =>
      intro k hk h64 hd
      obtain ⟨k', hk', hw, hb⟩ := covered (fun k hk => (hks k hk).2) hcl he hk
      have h1 := hF.value hk' (hks k' hk').1
      have h2 : k' % 64 = k' % 32 := by omega
      have h3 := Nat.ge_two_pow_of_testBit hb
      have h4 : k % 32 < 2 ^ (k % 32) := Nat.lt_two_pow_self
      exact ih k' hk' (by omega) (by omega)
  intro k hk
  by_contra hge
  exact hdown 32 k hk (by omega) (by omega)

/-- The pages taken, if any, are those of the odd slots. -/
theorem taken_odd (hks : ∀ k ∈ ks, 3 ≤ k ∧ k < 32768) (hF : First 3 ks)
    (hcl : ∀ k ∈ ks, Clear t (slot k)) (hall : ∀ x, Clear t x → ∃ k ∈ ks, slot k = x)
    (he : leftover t ks = t) {k : Nat} (hk : k ∈ ks) :
    (k = 5 ∨ k = 32 ∨ k = 33 ∨ k = 34) ∧ 5 ∈ ks ∧ 32 ∈ ks ∧ 33 ∈ ks ∧ 34 ∈ ks := by
  have hlt : ∀ k ∈ ks, k < 32768 := fun k hk => (hks k hk).2
  have hsmall : ∀ k ∈ ks, k < 35 := by
    intro k hk
    have h1 := taken_first_word hks hF hcl he k hk
    have h2 := hF.value hk (hks k hk).1
    omega
  have hfive : ∀ k ∈ ks, k = 5 ∨ k = 32 ∨ k = 33 ∨ k = 34 := by
    intro k hk
    obtain ⟨k', hk', -, hb⟩ := covered hlt hcl he hk
    have h1 := hsmall k hk
    have h2 := (hks k hk).1
    have h3 := hsmall k' hk'
    -- bits 3 and 4 are in no number of a page that may be taken
    have hno : ∀ k k' : Fin 35, 3 ≤ k.1 → (k'.1 % 64).testBit (k.1 % 32) = true →
        (k'.1 < 8 ∨ 32 ≤ k'.1) → k.1 = 5 ∨ k.1 = 32 ∨ k.1 = 33 ∨ k.1 = 34 := by decide +kernel
    have hk8 : k' < 8 ∨ 32 ≤ k' := by
      obtain ⟨k₂, hk₂, -, hb₂⟩ := covered hlt hcl he hk'
      have h5 := hsmall k₂ hk₂
      have h6 := Nat.ge_two_pow_of_testBit hb₂
      by_contra hmid
      have h7 : 2 ^ 8 ≤ 2 ^ (k' % 32) := Nat.pow_le_pow_right (by decide) (by omega)
      omega
    exact hno ⟨k, h1⟩ ⟨k', h3⟩ h2 hb hk8
  have hput : ∀ {k b n : Nat}, k ∈ ks → (k % 64).testBit b = true → n % 32 = b →
      (n = 5 ∨ n = 32 ∨ n = 33 ∨ n = 34) → n ∈ ks := by
    intro k b n hk hb hn hn'
    obtain ⟨k', hk', -, hb'⟩ := cleared hlt hall he hk hb
    have h1 := hfive k' hk'
    obtain rfl : n = k' := by omega
    exact hk'
  have h5 : 5 ∈ ks := by
    rcases hfive k hk with rfl | rfl | rfl | rfl
    · exact hk
    · exact hput hk (b := 5) (by decide) rfl (.inl rfl)
    · exact hput hk (b := 5) (by decide) rfl (.inl rfl)
    · exact hput hk (b := 5) (by decide) rfl (.inl rfl)
  have h34 : 34 ∈ ks := hput h5 (b := 2) (by decide) rfl (by omega)
  exact ⟨hfive k hk, h5, hput h5 (b := 0) (by decide) rfl (by omega),
    hput h34 (b := 1) (by decide) rfl (by omega), h34⟩

theorem clearSlots_eq_odd (hall : ∀ x, Clear t x → ∃ k ∈ ks, slot k = x)
    (hcl : ∀ k ∈ ks, Clear t (slot k)) (hodd : ∀ k ∈ ks, k = 5 ∨ k = 32 ∨ k = 33 ∨ k = 34)
    (h5 : 5 ∈ ks) (h32 : 32 ∈ ks) (h33 : 33 ∈ ks) (h34 : 34 ∈ ks) :
    clearSlots t = oddSlots := by
  apply Finset.ext
  intro x
  rw [mem_clearSlots]
  constructor
  · intro hx
    obtain ⟨k, hk, rfl⟩ := hall x hx
    rcases hodd k hk with rfl | rfl | rfl | rfl <;> decide
  · intro hx
    unfold oddSlots at hx
    simp only [Finset.mem_insert, Finset.mem_singleton] at hx
    rcases hx with rfl | rfl | rfl | rfl
    · exact hcl 32 h32
    · exact hcl 33 h33
    · exact hcl 34 h34
    · exact hcl 5 h5

/-- With the odd slots free and no other, the bits of the four numbers are the
four bits. -/
theorem leftover_odd (hks : ∀ k ∈ ks, 3 ≤ k ∧ k < 32768) (hF : First 3 ks)
    (hcl : ∀ k ∈ ks, Clear t (slot k)) (hall : ∀ x, Clear t x → ∃ k ∈ ks, slot k = x)
    (hodd : clearSlots t = oddSlots) : leftover t ks = t := by
  have hlt : ∀ k ∈ ks, k < 32768 := fun k hk => (hks k hk).2
  have hmem : ∀ x, Clear t x ↔ x ∈ oddSlots := fun x => by rw [← hodd, mem_clearSlots]
  have hval : ∀ k ∈ ks, k = 5 ∨ k = 32 ∨ k = 33 ∨ k = 34 := by
    intro k hk
    have h1 := (slot_mem_oddSlots (hlt k hk)).mp ((hmem _).mp (hcl k hk))
    have h2 := (hks k hk).1
    have h3 := hF.value hk h2
    omega
  have hin : ∀ n, n = 5 ∨ n = 32 ∨ n = 33 ∨ n = 34 → n ∈ ks := by
    intro n hn
    have hmemn : slot n ∈ oddSlots := (slot_mem_oddSlots (by omega)).mpr (by omega)
    obtain ⟨k, hk, hs⟩ := hall (slot n) ((hmem _).mpr hmemn)
    have h1 := hval k hk
    have h2 : k % 32 = n % 32 := congrArg (fun x => x.2.val) hs
    obtain rfl : n = k := by omega
    exact hk
  funext i
  by_cases hi : i = adr (0 : Fin 512)
  · subst hi
    apply BitVec.eq_of_getLsbD_eq
    intro b hb
    rw [Bool.eq_iff_iff, getLsbD_leftover hlt 0 hb]
    constructor
    · rintro ⟨h | ⟨k, hk, -, hs⟩, hno⟩
      · exact h
      · -- a bit that was set: one of the other numbers has it
        have hj : (slot k).2.1 < 31 := by
          have h1 : (slot k).2.1 = k % 32 := rfl
          have h2 := hval k hk
          omega
        rw [slotBit_eq _ hj, Bits.getLsbD_bit hb, decide_eq_true_eq] at hs
        have hb' : b = k % 32 := hs
        have h5 := hno 5 (hin 5 (by omega)) rfl
        have h32 := hno 32 (hin 32 (by omega)) rfl
        have h34 := hno 34 (hin 34 (by omega)) rfl
        rcases hval k hk with rfl | rfl | rfl | rfl
        · rw [hb'] at h32; cases h32
        · rw [hb'] at h5; cases h5
        · rw [hb'] at h34; cases h34
        · rw [hb'] at h5; cases h5
    · intro h
      refine ⟨.inl h, fun k hk _ => ?_⟩
      rw [Bool.eq_false_iff]
      intro hset
      have hfour : ∀ b : Fin 64, ∀ k : Fin 35, (k.1 = 5 ∨ k.1 = 32 ∨ k.1 = 33 ∨ k.1 = 34) →
          (k.1 % 64).testBit b = true → b.1 = 0 ∨ b.1 = 1 ∨ b.1 = 2 ∨ b.1 = 5 := by decide +kernel
      have hk35 : k < 35 := by
        have := hval k hk
        omega
      -- the bit belongs to a slot that was clear
      have hclear : ∀ n ∈ ks, (slot n).1 = 0 → (t (adr (0 : Fin 512))).getLsbD (n % 32) = false := by
        intro n hn h0
        have h1 : (t (adr (slot n).1)).getLsbD (n % 32) = false := (hcl n hn).bit
        rwa [h0] at h1
      have hb := hfour ⟨b, hb⟩ ⟨k, hk35⟩ (hval k hk) hset
      have hset' : ∃ n, (n = 5 ∨ n = 32 ∨ n = 33 ∨ n = 34) ∧ n % 32 = b ∧ (slot n).1 = 0 := by
        rcases hb with rfl | rfl | rfl | rfl
        · exact ⟨32, by omega, rfl, rfl⟩
        · exact ⟨33, by omega, rfl, rfl⟩
        · exact ⟨34, by omega, rfl, rfl⟩
        · exact ⟨5, by omega, rfl, rfl⟩
      obtain ⟨n, hn, rfl, h0⟩ := hset'
      rw [hclear n (hin n hn) h0] at h
      cases h
  · rw [leftover, revertAll_other, markAll_other]
    · intro k hk he
      have h1 := hval k hk
      refine hi (he.symm.trans ?_)
      rcases h1 with rfl | rfl | rfl | rfl <;> decide
    · intro k hk he
      have h1 := hval k hk
      refine hi (he.symm.trans ?_)
      rcases h1 with rfl | rfl | rfl | rfl <;> decide

/-! ## Main result -/

/-- **When a failed call leaves no trace.** If and only if it cannot fail, or
takes nothing, or the odd slots are the only free ones. -/
theorem restores_iff (t : Tracker) (count : Word) :
    (∀ t', allocPhysicalPages t count = .ok (none, t') → t' = t) ↔
      count.toNat ≤ (clearSlots t).card ∨ clearSlots t = ∅ ∨ clearSlots t = oddSlots := by
  rcases Nat.lt_or_ge (clearSlots t).card count.toNat with hlt | hge
  · obtain ⟨ks, he, hT, hF, hlen, hall⟩ := alloc_short hlt
    constructor
    · intro h
      have hback : leftover t ks = t := h _ he
      cases ks with
      | nil => exact .inr (.inl (Finset.card_eq_zero.mp hlen.symm))
      | cons k ks =>
        obtain ⟨-, h5, h32, h33, h34⟩ :=
          taken_odd hT.range hF hT.clear hall hback List.mem_cons_self
        refine .inr (.inr (clearSlots_eq_odd hall hT.clear (fun k hk => ?_) h5 h32 h33 h34))
        exact (taken_odd hT.range hF hT.clear hall hback hk).1
    · rintro (h | h | h) t' ht'
      · omega
      · rw [h, Finset.card_empty] at hlen
        obtain rfl := List.length_eq_zero_iff.mp hlen
        rw [he] at ht'
        cases ht'
        rfl
      · rw [he] at ht'
        cases ht'
        exact leftover_odd hT.range hF hT.clear hall h
  · obtain ⟨ks, he, -⟩ := alloc_fits hge
    refine iff_of_true (fun t' ht' => ?_) (.inl hge)
    rw [he] at ht'
    cases ht'

/-- **One page too many.** Page 0x600000 is taken, and 16384 are asked for. -/
theorem shortage_run : ¬ ∀ t count t', allocPhysicalPages t count = .ok (none, t') → t' = t := by
  intro h
  have hm : slot 3 ∈ clearSlots init := mem_clearSlots.mpr (clear_init _)
  have hcard : (clearSlots (mark init (physPage 3))).card < (0x4000 : Word).toNat := by
    have h1 := Finset.card_erase_add_one hm
    rw [clearSlots_init] at h1
    rw [clearSlots_mark (by decide)]
    show _ < 16384
    omega
  have h8 : Clear (mark init (physPage 3)) (slot 8) :=
    (clear_mark (by decide) _).mpr ⟨clear_init _, by decide⟩
  obtain ⟨t', he, h3⟩ := alloc_short_frees hcard h8
  rw [h _ _ _ he] at h3
  exact ((clear_mark (by decide) _).mp h3).2 rfl

end

end X64k.L4.Mm
