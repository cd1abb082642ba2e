import X64k.Core.Bits
import X64k.L1Heap.Merge

/-!
# Aligned allocation: which block it stops at

`allocAligned` tries each free block with `padding` bytes in front: none if the
payload is aligned as it is, else the distance to the first aligned address
that leaves room for a header.

* `place_spec`: the inner loop passes over a block that is too short, and
  reaches the attempt with `padding` in any other one.
* `allocAligned_cases`: what `allocAligned` answers, by the first block that
  it does not pass over (`FirstStop`).
* `returns_iff`: `allocAligned` returns if and only if the code takes that
  attempt. If what is behind the padding is not `size` and at most `size + 32`
  bytes, none of the branches leaves the loop and `nextAligned` stays the same
  (`Hangs`).
* `hang_run`: 4031 bytes at a multiple of 64 in a fresh heap of 4096.
-/
namespace X64k.L1.Heap

open X64k.Core

/-! ## Padding -/

/-- The distance from `x` to the next multiple of `A`. -/
def gap (x A : Nat) : Nat := (A - x % A) % A

/-- The padding in front of a payload at `x`. -/
def padding (x A : Nat) : Nat := if x % A = 0 then 0 else 32 + gap (x + 32) A

section Padding
variable {x A d : Nat}

theorem gap_lt (hA : 0 < A) : gap x A < A := Nat.mod_lt _ hA

theorem gap_eq_zero (hA : 0 < A) : gap x A = 0 ↔ x % A = 0 := by
  have h := Nat.mod_lt x hA
  unfold gap
  rcases Nat.eq_zero_or_pos (x % A) with h0 | h0
  · rw [h0, Nat.sub_zero, Nat.mod_self]
  · rw [Nat.mod_eq_of_lt (by omega)]
    omega

theorem add_gap (hA : 0 < A) : (x + gap x A) % A = 0 := by
  have h := Nat.mod_lt x hA
  have hx := Nat.div_add_mod x A
  rcases Nat.eq_zero_or_pos (x % A) with h0 | h0
  · rw [(gap_eq_zero hA).mpr h0, Nat.add_zero, h0]
  · have hg : gap x A = A - x % A := Nat.mod_eq_of_lt (by omega)
    rw [hg, show x + (A - x % A) = A * (x / A + 1) by rw [Nat.mul_add]; omega]
    exact Nat.mul_mod_right ..

/-- Two distances to multiples of `A` that are less than `A` apart are the same. -/
theorem aligned_unique {d' : Nat} (h : (x + d) % A = 0) (h' : (x + d') % A = 0) (hle : d ≤ d')
    (hlt : d' < d + A) : d' = d := by
  have h1 : (d' - d) % A = 0 := by
    rw [show d' - d = x + d' - (x + d) by omega]
    exact Nat.mod_eq_zero_of_dvd (Nat.dvd_sub (Nat.dvd_of_mod_eq_zero h') (Nat.dvd_of_mod_eq_zero h))
  rw [Nat.mod_eq_of_lt (by omega)] at h1
  omega

/-- `padding` is aligned, and the first such distance from 32 on. -/
theorem padding_spec (hA : 0 < A) (hx : x % A ≠ 0) :
    32 ≤ padding x A ∧ padding x A < 32 + A ∧ (x + padding x A) % A = 0 := by
  have h1 := gap_lt (x := x + 32) hA
  have h2 := add_gap (x := x + 32) hA
  unfold padding
  rw [if_neg hx]
  refine ⟨by omega, by omega, ?_⟩
  rwa [← Nat.add_assoc]

theorem padding_eq (hA : 0 < A) (hx : x % A ≠ 0) (h : (x + d) % A = 0) (h1 : 32 ≤ d)
    (h2 : d < 32 + A) : padding x A = d := by
  obtain ⟨g1, g2, g3⟩ := padding_spec hA hx
  rcases Nat.le_total d (padding x A) with hle | hle
  · exact aligned_unique h g3 hle (by omega)
  · exact (aligned_unique g3 h hle (by omega)).symm

/-- An aligned distance below 32 is at least `A` short of `padding`. -/
theorem lt_padding (hA : 0 < A) (hx : x % A ≠ 0) (h : (x + d) % A = 0) (h1 : d < 32) :
    d + A ≤ padding x A := by
  obtain ⟨g1, -, g3⟩ := padding_spec hA hx
  by_contra hlt
  have := aligned_unique h g3 (by omega) (by omega)
  omega

theorem alignUp_adr {k : Nat} (hk : k < 64) (hx : x + 2 ^ k ≤ 2 ^ 64) :
    alignUp (adr x) (adr (2 ^ k)) = adr x + adr (gap x (2 ^ k)) := by
  have hA : 0 < 2 ^ k := Nat.two_pow_pos k
  have hk64 : 2 ^ k < 2 ^ 64 := Nat.pow_lt_pow_right (by decide) hk
  have h1 : adr x + (adr (2 ^ k) - 1) = adr (x + (2 ^ k - 1)) := by
    rw [show adr (2 ^ k) - 1 = adr (2 ^ k - 1) from ?_, adr_add]
    apply BitVec.eq_of_toNat_eq
    rw [BitVec.toNat_sub, adr_toNat hk64, adr_toNat (by omega)]
    show (2 ^ 64 - 1 + 2 ^ k) % 2 ^ 64 = _
    omega
  have hdiv : (x + (2 ^ k - 1)) / 2 ^ k * 2 ^ k = x + gap x (2 ^ k) := by
    have h2 := Nat.div_add_mod (x + (2 ^ k - 1)) (2 ^ k)
    have h3 := Nat.mod_lt (x + (2 ^ k - 1)) hA
    have h4 := gap_lt (x := x) hA
    have h5 : (x + (2 ^ k - 1)) / 2 ^ k * 2 ^ k = 2 ^ k * ((x + (2 ^ k - 1)) / 2 ^ k) :=
      Nat.mul_comm ..
    have h6 : 2 ^ k * ((x + (2 ^ k - 1)) / 2 ^ k) % 2 ^ k = 0 := Nat.mul_mod_right ..
    -- both are the multiple of `2 ^ k` among the `2 ^ k` numbers from `x` on
    generalize 2 ^ k * ((x + (2 ^ k - 1)) / 2 ^ k) = y at *
    have h7 := add_gap (x := x) hA
    obtain ⟨d, rfl⟩ : ∃ d, y = x + d := ⟨y - x, by omega⟩
    rcases Nat.le_total d (gap x (2 ^ k)) with hle | hle
    · have := aligned_unique h6 h7 hle (by omega)
      omega
    · have := aligned_unique h7 h6 hle (by omega)
      omega
  have h64 : x + gap x (2 ^ k) < 2 ^ 64 := by
    have := gap_lt (x := x) hA
    omega
  unfold alignUp
  rw [h1, Bits.neg_two_pow, adr_add]
  apply BitVec.eq_of_toNat_eq
  rw [Bits.toNat_clearLow _ (by omega), adr_toNat (by omega), adr_toNat h64, hdiv]

end Padding

/-! ## The inner loop -/

section Place
variable {m : Mem} {e a n A d : Nat} {b : Blk}

theorem slt_zero_iff {x y : Nat} (hx : x < 2 ^ 63) (hy : y ≤ 2 ^ 63) :
    (adr x - adr y).slt 0 = true ↔ x < y := by
  rw [show (0 : Word) = 0#64 from rfl, BitVec.slt_zero_eq_msb, BitVec.msb_eq_decide,
    decide_eq_true_eq, BitVec.toNat_sub, adr_toNat (by omega), adr_toNat (by omega)]
  omega

/-- One iteration, with `d` bytes in front of the payload. -/
theorem place_step (hb : HdrAt m e a b) (hlen : b.len < 2 ^ 63) (hd : d ≤ 2 ^ 63)
    (hA : A ≤ 2 ^ 63) (hn : n + 32 < 2 ^ 63) (fuel : Nat) :
    place m (adr a) (adr n) (adr A) (fuel + 1) (adr (a + 32) + adr d) =
      if b.len < d then .ok none
      else if d = 0 then
        if b.len = n then
          .ok (some (adr (a + 32), setFlags m (adr a) (flags m (adr a) ||| HF_ALLOC)))
        else .ok (some (adr (a + 32), split m (adr a) (adr n)))
      else if d < 32 then
        if b.len ≤ d + A then .ok none
        else place m (adr a) (adr n) (adr A) fuel (adr (a + 32) + adr (d + A))
      else if n + 32 < b.len - d then
        .ok (some (adr (a + 32) + adr d,
          cutMiddle m (adr a) (adr (a + 32) + adr d) (adr n) (adr d) (adr (b.len - d))))
      else if b.len - d = n then
        .ok (some (adr (a + 32) + adr d, cutHead m (adr a) (adr (a + 32) + adr d) (adr n) (adr d)))
      else place m (adr a) (adr n) (adr A) fuel (adr (a + 32) + adr d) := by
  have haddr : adr a + headerSize = adr (a + 32) := by rw [headerSize_eq, adr_add]
  have hpad : adr (a + 32) + adr d - adr (a + 32) = adr d := by
    rw [BitVec.add_comm, BitVec.add_sub_cancel]
  have hnext : adr (a + 32) + adr d + adr A - adr (a + 32) = adr (d + A) := by
    rw [BitVec.add_assoc, BitVec.add_comm, BitVec.add_sub_cancel, adr_add]
  have hself : adr (a + 32) = adr (a + 32) + adr d ↔ d = 0 := by
    constructor
    · intro h
      have h1 : adr d = 0 := by rw [← hpad, ← h, BitVec.sub_self]; rfl
      exact (adr_inj (by omega) (by omega)).mp h1
    · rintro rfl
      exact (BitVec.add_zero _).symm
  have hlt32 : adr d < headerSize ↔ d < 32 := by
    rw [headerSize_eq]
    exact adr_lt_iff (by omega) (by decide)
  have hsz : adr n + headerSize = adr (n + 32) := by rw [headerSize_eq, adr_add]
  have hslt := slt_zero_iff hlen hd
  rw [place, haddr, hpad, hb.length]
  by_cases h1 : b.len < d
  · rw [if_pos (hslt.mpr h1), if_pos h1]
  rw [if_neg (mt hslt.mp h1), if_neg h1, sub_adr (by omega)]
  have heq : adr (b.len - d) = adr n ↔ b.len - d = n := adr_inj (by omega) (by omega)
  by_cases h2 : d = 0
  · rw [if_pos (hself.mpr h2), if_pos h2]
    rw [h2, Nat.sub_zero] at heq ⊢
    simp only [heq]
  rw [if_neg (mt hself.mp h2), if_neg h2]
  by_cases h3 : d < 32
  · have hge : adr (d + A) ≥ adr b.len ↔ b.len ≤ d + A := by
      rw [ge_iff_le, BitVec.le_def, adr_toNat (by omega), adr_toNat (by omega)]
    rw [if_pos (hlt32.mpr h3), if_pos h3, hnext]
    simp only [hge]
    rw [BitVec.add_assoc, adr_add]
  rw [if_neg (mt hlt32.mp h3), if_neg h3, hsz]
  have hgt : adr (b.len - d) > adr (n + 32) ↔ n + 32 < b.len - d := by
    rw [gt_iff_lt, adr_lt_iff (by omega) (by omega)]
  simp only [hgt, heq]

/-- The attempt with `padding` is not reached: the block is too short. -/
def Short (len x A : Nat) : Prop := padding x A ≠ 0 ∧
  (len < padding x A ∨ len = padding x A ∧ A ≤ padding x A)

instance (len x A : Nat) : Decidable (Short len x A) := inferInstanceAs (Decidable (_ ∧ _))

theorem padding_cases (hA : 0 < A) (x : Nat) : padding x A = 0 ∨ 32 ≤ padding x A := by
  by_cases hx : x % A = 0
  · exact .inl (if_pos hx)
  · exact .inr (padding_spec hA hx).1

theorem padding_le {len x : Nat} (h : ¬ Short len x A) : padding x A ≤ len := by
  by_contra hlt
  exact h ⟨by omega, .inl (by omega)⟩

/-- From `d` bytes on, the loop ends without success in a block that is too
short, and otherwise reaches `padding`. -/
theorem place_walk (hb : HdrAt m e a b) (hlen : b.len < 2 ^ 63) (hA : A ≤ 2 ^ 63) (hA0 : 0 < A)
    (hn : n + 32 < 2 ^ 63) (hx : (a + 32) % A ≠ 0) : ∀ (j d : Nat), 32 ≤ d + j → 0 < d →
      d ≤ 2 ^ 63 → d < 32 + A → (a + 32 + d) % A = 0 → (A ≤ d → d < b.len) →
      if Short b.len (a + 32) A then
        ∀ fuel, j < fuel → place m (adr a) (adr n) (adr A) fuel (adr (a + 32) + adr d) = .ok none
      else ∃ i ≤ j, ∀ fuel, place m (adr a) (adr n) (adr A) (fuel + i) (adr (a + 32) + adr d) =
        place m (adr a) (adr n) (adr A) fuel (adr (a + 32) + adr (padding (a + 32) A)) := by
  intro j
  induction j with
  | zero =>
    intro d hj _ hd hd2 hal hlt
    have hD := padding_eq hA0 hx hal (by omega) hd2
    by_cases hs : Short b.len (a + 32) A
    · rw [if_pos hs]
      intro fuel hf
      obtain ⟨fuel, rfl⟩ : ∃ k, fuel = k + 1 := ⟨fuel - 1, by omega⟩
      obtain ⟨-, hs⟩ := hs
      rw [place_step hb hlen hd hA hn, if_pos (by omega)]
    · rw [if_neg hs]
      exact ⟨0, Nat.le_refl _, fun fuel => by rw [hD, Nat.add_zero]⟩
  | succ j ih =>
    intro d hj h0 hd hd2 hal hlt
    by_cases hd32 : d < 32
    · have hstep := lt_padding hA0 hx hal hd32
      have hal' : (a + 32 + (d + A)) % A = 0 := by
        rw [← Nat.add_assoc, Nat.add_mod_right, hal]
      by_cases hs : Short b.len (a + 32) A
      · rw [if_pos hs]
        intro fuel hf
        obtain ⟨fuel, rfl⟩ : ∃ k, fuel = k + 1 := ⟨fuel - 1, by omega⟩
        rw [place_step hb hlen hd hA hn]
        by_cases h1 : b.len < d
        · rw [if_pos h1]
        rw [if_neg h1, if_neg (by omega), if_pos hd32]
        by_cases h2 : b.len ≤ d + A
        · rw [if_pos h2]
        rw [if_neg h2]
        have hrec := ih (d + A) (by omega) (by omega) (by omega) (by omega) hal' (by omega)
        rw [if_pos hs] at hrec
        exact hrec fuel (by omega)
      · have hlong : padding (a + 32) A < b.len := by
          by_contra hle
          exact hs ⟨by omega, by omega⟩
        have hrec := ih (d + A) (by omega) (by omega) (by omega) (by omega) hal' (by omega)
        rw [if_neg hs] at hrec ⊢
        obtain ⟨i, hi, hrec⟩ := hrec
        refine ⟨i + 1, by omega, fun fuel => ?_⟩
        rw [← Nat.add_assoc, place_step hb hlen hd hA hn, if_neg (by omega), if_neg (by omega),
          if_pos hd32, if_neg (by omega), hrec]
    · -- this is the attempt with `padding`
      have hD := padding_eq hA0 hx hal (by omega) hd2
      by_cases hs : Short b.len (a + 32) A
      · rw [if_pos hs]
        intro fuel hf
        obtain ⟨fuel, rfl⟩ : ∃ k, fuel = k + 1 := ⟨fuel - 1, by omega⟩
        obtain ⟨-, hs⟩ := hs
        rw [place_step hb hlen hd hA hn, if_pos (by omega)]
      · rw [if_neg hs]
        exact ⟨0, Nat.zero_le _, fun fuel => by rw [hD, Nat.add_zero]⟩

/-- The inner loop from its start. -/
theorem place_spec {k : Nat} (hb : HdrAt m e a b) (hlen : b.len < 2 ^ 63) (hk : k < 64)
    (ha : a + 32 < 2 ^ 63) (hn : n + 32 < 2 ^ 63) :
    if Short b.len (a + 32) (2 ^ k) then ∀ fuel, 32 < fuel →
      place m (adr a) (adr n) (adr (2 ^ k)) fuel (alignUp (adr a + headerSize) (adr (2 ^ k))) =
        .ok none
    else ∃ i ≤ 32, ∀ fuel, place m (adr a) (adr n) (adr (2 ^ k)) (fuel + i)
        (alignUp (adr a + headerSize) (adr (2 ^ k))) =
      place m (adr a) (adr n) (adr (2 ^ k)) fuel
        (adr (a + 32) + adr (padding (a + 32) (2 ^ k))) := by
  have hA : 2 ^ k ≤ 2 ^ 63 := Nat.pow_le_pow_right (by decide) (by omega)
  have hA0 : 0 < 2 ^ k := Nat.two_pow_pos k
  have hgap := gap_lt (x := a + 32) hA0
  rw [headerSize_eq, adr_add, alignUp_adr hk (by omega)]
  by_cases hx : (a + 32) % 2 ^ k = 0
  · have hD : padding (a + 32) (2 ^ k) = 0 := if_pos hx
    rw [if_neg (fun h => h.1 hD), hD, (gap_eq_zero hA0).mpr hx]
    exact ⟨0, Nat.zero_le _, fun fuel => rfl⟩
  · have h0 : gap (a + 32) (2 ^ k) ≠ 0 := (gap_eq_zero hA0).not.mpr hx
    exact place_walk hb hlen hA hA0 hn hx 32 _ (by omega) (by omega) (by omega) (by omega)
      (add_gap hA0) (by omega)

/-- What comes of the attempt with `d` bytes in front of `n`; `none`: it is
repeated for ever. -/
def attempt (m : Mem) (a n d len : Nat) : Option (Word × Mem) :=
  if d = 0 then
    if len = n then some (adr (a + 32), setFlags m (adr a) (flags m (adr a) ||| HF_ALLOC))
    else some (adr (a + 32), split m (adr a) (adr n))
  else if n + 32 < len - d then
    some (adr (a + 32) + adr d,
      cutMiddle m (adr a) (adr (a + 32) + adr d) (adr n) (adr d) (adr (len - d)))
  else if len - d = n then
    some (adr (a + 32) + adr d, cutHead m (adr a) (adr (a + 32) + adr d) (adr n) (adr d))
  else none

theorem attempt_none : attempt m a n d b.len = none ↔ d ≠ 0 ∧ b.len - d ≠ n ∧ b.len - d ≤ n + 32 := by
  unfold attempt
  split
  · split <;> simp_all
  · split
    · simp; omega
    · split
      · simp_all
      · simp; omega

theorem place_attempt (hb : HdrAt m e a b) (hlen : b.len < 2 ^ 63) (hA : A ≤ 2 ^ 63)
    (hn : n + 32 < 2 ^ 63) (hd : d = 0 ∨ 32 ≤ d) (hle : d ≤ b.len) {fuel : Nat} (hf : 0 < fuel) :
    place m (adr a) (adr n) (adr A) fuel (adr (a + 32) + adr d) =
      match attempt m a n d b.len with
      | some r => .ok (some r)
      | none => .error .loop := by
  induction fuel with
  | zero => exact absurd hf (Nat.lt_irrefl 0)
  | succ fuel ih =>
    rw [place_step hb hlen (by omega) hA hn, if_neg (by omega)]
    by_cases h0 : d = 0
    · rw [if_pos h0, attempt, if_pos h0]
      split <;> rfl
    rw [if_neg h0, if_neg (by omega)]
    by_cases h1 : n + 32 < b.len - d
    · rw [if_pos h1, attempt, if_neg h0, if_pos h1]
    rw [if_neg h1]
    by_cases h2 : b.len - d = n
    · rw [if_pos h2, attempt, if_neg h0, if_neg h1, if_pos h2]
    rw [if_neg h2]
    -- nothing has changed
    have hnone : attempt m a n d b.len = none := attempt_none.mpr ⟨h0, h2, by omega⟩
    rw [hnone] at ih ⊢
    rcases Nat.eq_zero_or_pos fuel with rfl | hpos
    · rfl
    · exact ih hpos

end Place

/-! ## The scan -/

/-- Allocated or too short, every block. -/
def Passed (A : Nat) : Nat → List Blk → Prop
  | _, [] => True
  | a, b :: l => (b.used = true ∨ Short b.len (a + 32) A) ∧ Passed A (a + 32 + b.len) l

section Scan
variable {m : Mem} {e n k bound : Nat}

theorem place_short {a : Nat} {b : Blk} (hb : HdrAt m e a b) (hlen : b.len < 2 ^ 63) (hk : k < 64)
    (ha : a + 32 < 2 ^ 63) (hn : n + 32 < 2 ^ 63) (hs : Short b.len (a + 32) (2 ^ k))
    (hbd : 32 < bound) : place m (adr a) (adr n) (adr (2 ^ k)) bound
      (alignUp (adr a + headerSize) (adr (2 ^ k))) = .ok none := by
  have h := place_spec hb hlen hk ha hn
  rw [if_pos hs] at h
  exact h bound hbd

theorem place_long {a : Nat} {b : Blk} (hb : HdrAt m e a b) (hlen : b.len < 2 ^ 63) (hk : k < 64)
    (ha : a + 32 < 2 ^ 63) (hn : n + 32 < 2 ^ 63) (hs : ¬ Short b.len (a + 32) (2 ^ k))
    (hbd : 32 < bound) : place m (adr a) (adr n) (adr (2 ^ k)) bound
      (alignUp (adr a + headerSize) (adr (2 ^ k))) =
        match attempt m a n (padding (a + 32) (2 ^ k)) b.len with
        | some r => .ok (some r)
        | none => .error .loop := by
  have h := place_spec hb hlen hk ha hn
  rw [if_neg hs] at h
  obtain ⟨i, hi, h⟩ := h
  obtain ⟨fuel, rfl⟩ : ∃ f, bound = f + i := ⟨bound - i, by omega⟩
  rw [h]
  exact place_attempt hb hlen (Nat.pow_le_pow_right (by decide) (by omega)) hn
    (padding_cases (Nat.two_pow_pos k) _) (padding_le hs) (by omega)

/-- Blocks that are allocated or too short are passed over. -/
theorem scan_passed (he : e < 2 ^ 63) (hk : k < 64) (hn : n + 32 < 2 ^ 63) (hbd : 32 < bound) :
    ∀ (l₁ l₂ : List Blk) (a fuel : Nat), Blocks m e a (l₁ ++ l₂) → a + span (l₁ ++ l₂) = e → 0 < a →
      Passed (2 ^ k) a l₁ →
      allocAlignedFrom m (adr n) (adr (2 ^ k)) bound (fuel + l₁.length) (link e a) =
        allocAlignedFrom m (adr n) (adr (2 ^ k)) bound fuel (link e (a + span l₁))
  | [], _, _, _, _, _, _, _ => rfl
  | b :: l₁, l₂, a, fuel, ⟨hb, hm⟩, hx, h0, ⟨hpass, hp⟩ => by
    have hx : a + (32 + b.len + span (l₁ ++ l₂)) = e := hx
    have hlink : link e a = adr a := if_neg (by omega)
    have hne : adr a ≠ 0 := adr_ne_zero h0 (by omega)
    have hspan : a + span (b :: l₁) = a + 32 + b.len + span l₁ := by simp only [span]; omega
    rw [hlink, List.length_cons, ← Nat.add_assoc, allocAlignedFrom, if_neg hne,
      if_neg (not_not_intro hb.hasMagic), hspan,
      ← scan_passed he hk hn hbd l₁ l₂ (a + 32 + b.len) fuel hm (by omega) (by omega) hp]
    cases hu : b.used with
    | true => rw [if_pos (hb.isAlloc.mpr hu), hb.next]
    | false =>
      rw [if_neg (by rw [hb.isAlloc, hu]; decide), place_short hb (by omega) hk (by omega) hn
        (hpass.resolve_left (by rw [hu]; decide)) hbd, Res.ok_bind, hb.next]

/-- The first block that is not passed over, if any. -/
theorem passed_or_split (A : Nat) : ∀ (l : List Blk) (a : Nat), Passed A a l ∨ ∃ l₁ b l₂,
    l = l₁ ++ b :: l₂ ∧ Passed A a l₁ ∧ b.used = false ∧ ¬ Short b.len (a + span l₁ + 32) A
  | [], _ => .inl trivial
  | b :: l, a => by
    by_cases hb : b.used = true ∨ Short b.len (a + 32) A
    · rcases passed_or_split A l (a + 32 + b.len) with h | ⟨l₁, c, l₂, rfl, h1, h2, h3⟩
      · exact .inl ⟨hb, h⟩
      · refine .inr ⟨b :: l₁, c, l₂, rfl, ⟨hb, h1⟩, h2, ?_⟩
        rwa [show a + span (b :: l₁) = a + 32 + b.len + span l₁ by simp only [span]; omega]
    · rw [not_or, Bool.not_eq_true] at hb
      exact .inr ⟨[], b, l, rfl, trivial, hb.1, hb.2⟩

/-- The outcomes of `allocAligned`. -/
theorem allocAligned_cases {h : Heap} {l : List Blk} (hm : Blocks m e h.m_base.toNat l)
    (hx : h.m_base.toNat + span l = e) (he : e < 2 ^ 63) (h0 : 0 < h.m_base.toNat) (hl : l ≠ [])
    (hk : k < 64) (hn : n + 32 < 2 ^ 63) :
    (Passed (2 ^ k) h.m_base.toNat l ∧ ∀ fuel, e + 32 < fuel →
      h.allocAligned fuel m (adr n) (adr (2 ^ k)) = .ok (none, m)) ∨
    ∃ l₁ b l₂, l = l₁ ++ b :: l₂ ∧ Passed (2 ^ k) h.m_base.toNat l₁ ∧ b.used = false ∧
      ¬ Short b.len (h.m_base.toNat + span l₁ + 32) (2 ^ k) ∧ ∀ fuel, e + 32 < fuel →
      h.allocAligned fuel m (adr n) (adr (2 ^ k)) =
        match attempt m (h.m_base.toNat + span l₁) n
          (padding (h.m_base.toNat + span l₁ + 32) (2 ^ k)) b.len with
        | some r => .ok (some r.1, r.2)
        | none => .error .loop := by
  have hlen := length_le_span (l := l)
  have hroot : link e h.m_base.toNat = h.rootHeader := by
    have hpos : 0 < span l := by
      cases l with
      | nil => exact absurd rfl hl
      | cons b l => simp only [span]; omega
    rw [link, if_neg (by omega), adr_of_toNat]
    rfl
  unfold Heap.allocAligned
  rw [← hroot]
  rcases passed_or_split (2 ^ k) l h.m_base.toNat with hp | ⟨l₁, b, l₂, rfl, hp, hu, hs⟩
  · left
    refine ⟨hp, fun fuel hf => ?_⟩
    obtain ⟨f, hf⟩ : ∃ f, fuel = f + 1 + l.length := ⟨fuel - 1 - l.length, by omega⟩
    have hscan := scan_passed (m := m) (n := n) he hk hn (show 32 < fuel by omega) l [] _ (f + 1)
      (by rwa [List.append_nil]) (by rwa [List.append_nil]) h0 hp
    rw [← hf] at hscan
    have hend : link e (h.m_base.toNat + span l) = 0 := if_pos hx
    rw [hscan, hend, allocAlignedFrom, if_pos rfl]
  · right
    refine ⟨l₁, b, l₂, rfl, hp, hu, hs, fun fuel hf => ?_⟩
    have hb := blocks_at hm
    have hx' := hx
    simp only [span_append, span, List.length_append, List.length_cons] at hx' hlen
    obtain ⟨f, hf⟩ : ∃ f, fuel = f + 1 + l₁.length := ⟨fuel - 1 - l₁.length, by omega⟩
    have hscan := scan_passed (m := m) (n := n) he hk hn (show 32 < fuel by omega) l₁ (b :: l₂) _
      (f + 1) hm hx h0 hp
    rw [← hf] at hscan
    have hlink : link e (h.m_base.toNat + span l₁) = adr (h.m_base.toNat + span l₁) :=
      if_neg (by omega)
    have hne : adr (h.m_base.toNat + span l₁) ≠ 0 := adr_ne_zero (by omega) (by omega)
    rw [hscan, hlink, allocAlignedFrom, if_neg hne, if_neg (not_not_intro hb.hasMagic),
      if_neg (by rw [hb.isAlloc, hu]; decide),
      place_long hb (by omega) hk (by omega) hn hs (by omega)]
    cases attempt m (h.m_base.toNat + span l₁) n (padding (h.m_base.toNat + span l₁ + 32) (2 ^ k))
      b.len with
    | none => rfl
    | some r => rfl

end Scan

/-! ## What a reader of the memory sees -/

/-- The free block at `h` is not passed over. -/
def Stops (m : Mem) (align h : Word) : Prop :=
  ¬ isAlloc m h ∧ ¬ Short (length m h).toNat (h + headerSize).toNat align.toNat

/-- `h` is the first block that is not passed over. -/
structure FirstStop (m : Mem) (align root h : Word) : Prop where
  start : root ≠ 0
  chain : OnChain m root h
  stops : Stops m align h
  first : ∀ g, OnChain m root g → Stops m align g → h ≤ g

/-- Behind the padding, the block at `h` has neither `size` nor more than
`size + 32` bytes. -/
def Hangs (m : Mem) (size align h : Word) : Prop :=
  padding (h + headerSize).toNat align.toNat ≠ 0 ∧
  (length m h).toNat - padding (h + headerSize).toNat align.toNat ≠ size.toNat ∧
  (length m h).toNat - padding (h + headerSize).toNat align.toNat ≤ size.toNat + 32

section Reader
variable {m : Mem} {e a : Nat} {align : Word}

theorem payload_toNat {x : Nat} (h : x + 32 < 2 ^ 64) : (adr x + headerSize).toNat = x + 32 := by
  rw [headerSize_eq, adr_add, adr_toNat h]

theorem stops_iff {l₁ l₂ : List Blk} {b : Blk} (hm : Blocks m e a (l₁ ++ b :: l₂))
    (hx : a + span (l₁ ++ b :: l₂) = e) (he : e < 2 ^ 63) :
    Stops m align (adr (a + span l₁)) ↔
      b.used = false ∧ ¬ Short b.len (a + span l₁ + 32) align.toNat := by
  have hb := blocks_at hm
  simp only [span_append, span] at hx
  rw [Stops, hb.isAlloc, Bool.not_eq_true, length_toNat hb (by omega), payload_toNat (by omega)]

theorem Passed.at {A : Nat} {c : Blk} {k₂ : List Blk} : ∀ {k₁ : List Blk} {a : Nat},
    Passed A a (k₁ ++ c :: k₂) → c.used = true ∨ Short c.len (a + span k₁ + 32) A
  | [], _, h => h.1
  | b :: k₁, a, h => by
    have ih : _ ∨ Short c.len (a + 32 + b.len + span k₁ + 32) A := Passed.at h.2
    rwa [show a + span (b :: k₁) = a + 32 + b.len + span k₁ by simp only [span]; omega]

theorem not_firstStop {l : List Blk} (hm : Blocks m e a l) (hx : a + span l = e) (he : e < 2 ^ 63)
    (hl : l ≠ []) (hp : Passed align.toNat a l) (g : Word) : ¬ FirstStop m align (adr a) g := by
  intro hg
  obtain ⟨k₁, c, k₂, rfl, rfl⟩ := (onChain_iff hm hx (by omega) hl).mp hg.chain
  obtain ⟨h1, h2⟩ := (stops_iff hm hx he).mp hg.stops
  rcases hp.at with h | h
  · rw [h1] at h
    cases h
  · exact h2 h

theorem firstStop_iff {l₁ l₂ : List Blk} {b : Blk} (hm : Blocks m e a (l₁ ++ b :: l₂))
    (hx : a + span (l₁ ++ b :: l₂) = e) (he : e < 2 ^ 63) (h0 : 0 < a)
    (hp : Passed align.toNat a l₁) (hu : b.used = false)
    (hs : ¬ Short b.len (a + span l₁ + 32) align.toNat) (g : Word) :
    FirstStop m align (adr a) g ↔ g = adr (a + span l₁) := by
  have hx' := hx
  simp only [span_append, span] at hx'
  have hon := @onChain_iff _ _ _ _ hm hx (by omega) (by simp)
  have hb : Stops m align (adr (a + span l₁)) := (stops_iff hm hx he).mpr ⟨hu, hs⟩
  have hfirst : ∀ g, OnChain m (adr a) g → Stops m align g → adr (a + span l₁) ≤ g := by
    intro g hc hg
    obtain ⟨k₁, c, k₂, hk, rfl⟩ := hon.mp hc
    rw [hk] at hm hx
    obtain ⟨h1, h2⟩ := (stops_iff hm hx he).mp hg
    simp only [span_append, span] at hx
    rw [BitVec.le_def, adr_toNat (by omega), adr_toNat (by omega)]
    -- a block that stops the scan is not among `l₁`
    rcases List.append_eq_append_iff.mp hk with ⟨r, rfl, -⟩ | ⟨r, rfl, hr⟩
    · rw [span_append]
      omega
    · cases r with
      | nil => rw [List.append_nil]
      | cons d r =>
        obtain ⟨rfl, -⟩ := List.cons.inj hr
        rcases hp.at with h | h
        · rw [h1] at h
          cases h
        · exact absurd h h2
  constructor
  · intro hg
    have h1 := hg.first _ (hon.mpr ⟨l₁, b, l₂, rfl, rfl⟩) hb
    have h2 := hfirst g hg.chain hg.stops
    exact BitVec.le_antisymm h1 h2
  · rintro rfl
    exact ⟨adr_ne_zero h0 (by omega), hon.mpr ⟨l₁, b, l₂, rfl, rfl⟩, hb, hfirst⟩

theorem hangs_iff {x : Nat} {b : Blk} {size : Word} (hb : HdrAt m e x b)
    (h : x + 32 + b.len < 2 ^ 64) :
    Hangs m size align (adr x) ↔
      attempt m x size.toNat (padding (x + 32) align.toNat) b.len = none := by
  rw [Hangs, attempt_none, length_toNat hb (by omega), payload_toNat (by omega)]

end Reader

/-! ## Main results -/

theorem place_le (m : Mem) (hdr size align : Word) {n k : Nat} (h : n ≤ k) (nxt : Word) :
    Res.Le (place m hdr size align n nxt) (place m hdr size align k nxt) := by
  have hst : ∀ (n : Nat) (nxt : Word), Res.Le (place m hdr size align n nxt)
      (place m hdr size align (n + 1) nxt) := by
    intro n
    induction n with
    | zero => exact fun _ => .loop _
    | succ n ih =>
      intro nxt
      unfold place
      refine .ite (.refl _) (.ite (.refl _) (.ite ?_ ?_))
      · exact .ite (.refl _) (ih _)
      · exact .ite (.refl _) (.ite (.refl _) (ih _))
  exact Res.Stable.le (f := (place m hdr size align · nxt)) (fun n => hst n nxt) h

theorem stable_allocAligned (h : Heap) (m : Mem) (size align : Word) :
    Res.Stable (h.allocAligned · m size align) := by
  intro k
  have key : ∀ (n : Nat) (hdr : Word), Res.Le (allocAlignedFrom m size align k n hdr)
      (allocAlignedFrom m size align (k + 1) (n + 1) hdr) := by
    intro n
    induction n with
    | zero => exact fun _ => .loop _
    | succ n ih =>
      intro hdr
      refine .ite (.refl _) (.ite (.refl _) (.ite (ih _) (.bind ?_ fun r => ?_)))
      · exact place_le m hdr size align (Nat.le_succ k) _
      · cases r with
        | none => exact ih _
        | some r => exact .refl _
  exact key k h.rootHeader


/-- The outcomes of `allocAligned`, on the memory. -/
theorem Tiled.allocAligned {h : Heap} {m : Mem} {e k : Nat} {size align : Word}
    (ht : Tiled m e h.m_base.toNat) (he : e < 2 ^ 63) (hn : size.toNat + 32 < 2 ^ 63)
    (ha : align.toNat = 2 ^ k) :
    ((∀ g, ¬ FirstStop m align h.rootHeader g) ∧ ∀ fuel, e + 32 < fuel →
      h.allocAligned fuel m size align = .ok (none, m)) ∨
    ∃ l₁ b l₂, Blocks m e h.m_base.toNat (l₁ ++ b :: l₂) ∧
      h.m_base.toNat + span (l₁ ++ b :: l₂) = e ∧ 0 < h.m_base.toNat ∧ b.used = false ∧
      ¬ Short b.len (h.m_base.toNat + span l₁ + 32) align.toNat ∧
      (∀ g, FirstStop m align h.rootHeader g ↔ g = adr (h.m_base.toNat + span l₁)) ∧
      ∀ fuel, e + 32 < fuel → h.allocAligned fuel m size align =
        match attempt m (h.m_base.toNat + span l₁) size.toNat
          (padding (h.m_base.toNat + span l₁ + 32) align.toNat) b.len with
        | some r => .ok (some r.1, r.2)
        | none => .error .loop := by
  obtain ⟨l, hl, hm, hx⟩ := ht.blocks
  have hroot : h.rootHeader = adr h.m_base.toNat := (adr_of_toNat _).symm
  rcases Nat.eq_zero_or_pos h.m_base.toNat with h0 | h0
  · have hnull : h.rootHeader = 0 := by rw [hroot, h0]; rfl
    left
    refine ⟨fun g hg => hg.start hnull, fun fuel hf => ?_⟩
    obtain ⟨f, rfl⟩ : ∃ f, fuel = f + 1 := ⟨fuel - 1, by omega⟩
    rw [Heap.allocAligned, hnull, allocAlignedFrom, if_pos rfl]
  have hk : k < 64 := by
    by_contra hge
    have := Nat.pow_le_pow_right (show 0 < 2 by decide) (show 64 ≤ k by omega)
    omega
  have hcases := allocAligned_cases hm hx he h0 hl hk hn
  rw [← ha, adr_of_toNat, adr_of_toNat] at hcases
  rw [hroot]
  rcases hcases with ⟨hp, hr⟩ | ⟨l₁, b, l₂, rfl, hp, hu, hs, hr⟩
  · exact .inl ⟨not_firstStop hm hx he hl hp, hr⟩
  · exact .inr ⟨l₁, b, l₂, hm, hx, h0, hu, hs, firstStop_iff hm hx he h0 hp hu hs, hr⟩

/-- At a block where it hangs, no number of iterations is enough. -/
theorem Tiled.not_returns {h : Heap} {m : Mem} {e k : Nat} {size align g : Word}
    (ht : Tiled m e h.m_base.toNat) (he : e < 2 ^ 63) (hn : size.toNat + 32 < 2 ^ 63)
    (ha : align.toNat = 2 ^ k) (hg : FirstStop m align h.rootHeader g) (hh : Hangs m size align g) :
    ¬ ∃ fuel r, h.allocAligned fuel m size align = .ok r := by
  rintro ⟨fuel, r, hok⟩
  rcases ht.allocAligned he hn ha with ⟨hno, -⟩ | ⟨l₁, b, l₂, hm, hx, -, -, -, hfirst, hr⟩
  · exact hno g hg
  · simp only [span_append, span] at hx
    rw [(hfirst g).mp hg, hangs_iff (blocks_at hm) (by omega)] at hh
    -- more iterations would give the same answer
    have hle := (stable_allocAligned h m size align).ok_le (Nat.le_max_left fuel (e + 33)) hok
    rw [hr _ (by omega), hh] at hle
    cases hle

/-- **When an aligned allocation returns.** On a chain that tiles the heap,
`allocAligned` returns if and only if the first block that it does not pass
over is aligned, or has exactly `size` or more than `size + 32` bytes behind
the padding. -/
theorem returns_iff {h : Heap} {m : Mem} {e k : Nat} {size align : Word}
    (ht : Tiled m e h.m_base.toNat) (he : e < 2 ^ 63) (hn : size.toNat + 32 < 2 ^ 63)
    (ha : align.toNat = 2 ^ k) :
    (∃ fuel r, h.allocAligned fuel m size align = .ok r) ↔
      ∀ g, FirstStop m align h.rootHeader g → ¬ Hangs m size align g := by
  constructor
  · intro hret g hg hh
    exact ht.not_returns he hn ha hg hh hret
  · intro hall
    rcases ht.allocAligned he hn ha with ⟨-, hr⟩ | ⟨l₁, b, l₂, hm, hx, -, -, -, hfirst, hr⟩
    · exact ⟨_, _, hr _ (Nat.lt_succ_self _)⟩
    · simp only [span_append, span] at hx
      have hnh := hall _ ((hfirst _).mpr rfl)
      rw [hangs_iff (blocks_at hm) (by omega)] at hnh
      obtain ⟨r, hsome⟩ := Option.ne_none_iff_exists'.mp hnh
      rw [hsome] at hr
      exact ⟨_, _, hr _ (Nat.lt_succ_self _)⟩

theorem fresh_tiled : Tiled fresh.mem 0x2000 0x1000 :=
  .last (by decide +kernel) (by decide +kernel) (by decide +kernel)

theorem returns_iff_fresh : (∃ fuel r, fresh.heap.allocAligned fuel fresh.mem 16 64 = .ok r) ↔
    ∀ g, FirstStop fresh.mem 64 fresh.heap.rootHeader g → ¬ Hangs fresh.mem 16 64 g :=
  returns_iff (k := 6) fresh_tiled (by decide) (by decide) rfl

/-- A fresh heap has one block for the scan to stop at. -/
theorem fresh_firstStop {align : Word} (h : Stops fresh.mem align 0x1000) :
    FirstStop fresh.mem align fresh.heap.rootHeader 0x1000 where
  start := by decide
  chain := .root
  stops := h
  first g hg _ := by rw [fresh_onChain hg]; exact BitVec.le_refl _

/-- **An allocation that never returns**: the padding leaves 4032 bytes, one
more than asked for. -/
theorem hang_run : ¬ ∀ (h : Heap) (m : Mem) (size align : Word),
    Tiled m (h.m_base.toNat + h.m_size.toNat) h.m_base.toNat →
    h.m_base.toNat + h.m_size.toNat < 2 ^ 63 → size.toNat + 32 < 2 ^ 63 →
    (∃ k, align.toNat = 2 ^ k) → ∃ fuel r, h.allocAligned fuel m size align = .ok r := by
  intro hall
  have hs : Stops fresh.mem 64 0x1000 := by
    unfold Stops
    decide +kernel
  have hh : Hangs fresh.mem 4031 64 0x1000 := by
    unfold Hangs
    decide +kernel
  exact Tiled.not_returns (h := fresh.heap) (k := 6) fresh_tiled (by decide) (by decide) rfl
    (fresh_firstStop hs) hh (hall fresh.heap fresh.mem 4031 64 fresh_tiled (by decide) (by decide)
      ⟨6, rfl⟩)

end X64k.L1.Heap
