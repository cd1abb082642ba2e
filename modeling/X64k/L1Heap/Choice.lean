import X64k.L1Heap.Fit
import Mathlib.Order.Bounds.Defs

/-!
# Aligned allocation: which address it returns

An address that `allocAligned` returns is the least multiple of `align` in the
block's payload that either is its start or leaves room for a header in front.
This holds for every size: the size decides whether a block is taken, never
where in the block.

* `place_choice`: the inner loop, over its retries.
* `allocAligned_least`: the whole scan.
-/
namespace X64k.L1.Heap

open X64k.Core

theorem padding_least {x A : Nat} (hA : 0 < A) :
    IsLeast {y | A ∣ y ∧ (y = x ∨ x + 32 ≤ y)} (x + padding x A) := by
  by_cases hx : x % A = 0
  · rw [padding, if_pos hx]
    refine ⟨⟨Nat.dvd_of_mod_eq_zero hx, .inl rfl⟩, ?_⟩
    rintro y ⟨-, rfl | hy⟩
    · exact Nat.le_refl _
    · omega
  · obtain ⟨h1, h2, h3⟩ := padding_spec hA hx
    refine ⟨⟨Nat.dvd_of_mod_eq_zero h3, .inr (by omega)⟩, ?_⟩
    rintro y ⟨hdvd, rfl | hy⟩
    · exact absurd (Nat.mod_eq_zero_of_dvd hdvd) hx
    · by_contra hlt
      obtain ⟨d, rfl⟩ : ∃ d, y = x + d := ⟨y - x, by omega⟩
      have := aligned_unique (Nat.mod_eq_zero_of_dvd hdvd) h3 (by omega) (by omega)
      omega

section
variable {m m' : Mem} {a A len : Nat} {size p : Word}

/-- An answer of the inner loop, started `d` bytes into the payload. -/
theorem place_choice (hlen : length m (adr a) = adr len) (hl : len < 2 ^ 63) (hA0 : 0 < A)
    (hA : A ≤ 2 ^ 63) : ∀ fuel d, (a + 32 + d) % A = 0 → d ≤ 2 ^ 63 → d < 32 + A →
      (d = 0 ∨ (a + 32) % A ≠ 0) →
      place m (adr a) size (adr A) fuel (adr (a + 32) + adr d) = .ok (some (p, m')) →
      p = adr (a + 32 + padding (a + 32) A) ∧ padding (a + 32) A ≤ len := by
  intro fuel
  induction fuel with
  | zero =>
    intro d _ _ _ _ h
    cases h
  | succ fuel ih =>
    intro d hal hd hd2 h0 h
    have haddr : adr a + headerSize = adr (a + 32) := by rw [headerSize_eq, adr_add]
    have hpad : adr (a + 32) + adr d - adr (a + 32) = adr d := by
      rw [BitVec.add_comm, BitVec.add_sub_cancel]
    have hnext : adr (a + 32) + adr d + adr A - adr (a + 32) = adr (d + A) := by
      rw [BitVec.add_assoc, BitVec.add_comm, BitVec.add_sub_cancel, adr_add]
    have hslt := slt_zero_iff hl hd
    rw [place, haddr, hpad, hlen, hnext] at h
    have hself : adr (a + 32) = adr (a + 32) + adr d ↔ d = 0 := by
      constructor
      · intro hs
        have hz : adr d = 0 := by rw [← hpad, ← hs, BitVec.sub_self]; rfl
        exact (adr_inj (by omega) (by omega)).mp hz
      · rintro rfl
        exact (BitVec.add_zero _).symm
    have hlt32 : adr d < headerSize ↔ d < 32 := by
      rw [headerSize_eq]
      exact adr_lt_iff (by omega) (by decide)
    by_cases hs : (adr len - adr d).slt 0 = true
    · rw [if_pos hs] at h
      cases h
    rw [if_neg hs] at h
    have hle : d ≤ len := Nat.le_of_not_lt fun hlt => hs (hslt.mpr hlt)
    by_cases hz : d = 0
    · -- the payload is aligned as it is
      rw [if_pos (hself.mpr hz)] at h
      have hpad0 : padding (a + 32) A = 0 := by
        rw [hz] at hal
        exact if_pos hal
      rw [hpad0]
      split at h
      · cases h
        exact ⟨rfl, Nat.zero_le _⟩
      · cases h
        exact ⟨rfl, Nat.zero_le _⟩
    rw [if_neg (mt hself.mp hz)] at h
    have hx := h0.resolve_left hz
    by_cases hd32 : d < 32
    · -- the next multiple
      rw [if_pos (hlt32.mpr hd32)] at h
      by_cases hge : adr (d + A) ≥ adr len
      · rw [if_pos hge] at h
        cases h
      rw [if_neg hge, BitVec.add_assoc, adr_add] at h
      have hlt : d + A < len := by
        rw [ge_iff_le, BitVec.le_def, adr_toNat (by omega), adr_toNat (by omega)] at hge
        omega
      have hal' : (a + 32 + (d + A)) % A = 0 := by
        rw [← Nat.add_assoc, Nat.add_mod_right, hal]
      exact ih (d + A) hal' (by omega) (by omega) (.inr hx) h
    rw [if_neg (mt hlt32.mp hd32)] at h
    have hpd := padding_eq hA0 hx hal (by omega) hd2
    split at h
    · cases h
      rw [hpd, adr_add]
      exact ⟨rfl, hle⟩
    · split at h
      · cases h
        rw [hpd, adr_add]
        exact ⟨rfl, hle⟩
      · exact ih d hal hd hd2 (.inr hx) h

end

theorem place_least {m m' : Mem} {e a k fuel : Nat} {size align p : Word} (ht : Tiled m e a)
    (he : e < 2 ^ 63) (ha : align.toNat = 2 ^ k)
    (h : place m (adr a) size align fuel (alignUp (adr a + headerSize) align) = .ok (some (p, m'))) :
    IsLeast {x | align.toNat ∣ x ∧ (x = a + 32 ∨ a + 32 + 32 ≤ x)} p.toNat := by
  have hlt := ht.lt
  have hend := ht.end_le
  have hA0 : 0 < 2 ^ k := Nat.two_pow_pos k
  have hk : k < 64 := by
    have := align.isLt
    rw [ha] at this
    exact (Nat.pow_lt_pow_iff_right (by decide)).mp this
  have hA : 2 ^ k ≤ 2 ^ 63 := Nat.pow_le_pow_right (by decide) (by omega)
  have halign : align = adr (2 ^ k) := by rw [← ha, adr_of_toNat]
  have hgap := gap_lt (x := a + 32) hA0
  rw [halign, headerSize_eq, adr_add, alignUp_adr hk (by omega)] at h
  obtain ⟨hp, hle⟩ := place_choice (adr_of_toNat _).symm (by omega) hA0 hA fuel _ (add_gap hA0)
    (by omega) (by omega) ((Classical.em _).imp_left fun h => (gap_eq_zero hA0).mpr h) h
  rw [hp, adr_toNat (by omega), ha]
  exact padding_least hA0

theorem allocAlignedFrom_some {m m' : Mem} {root size align p : Word} {bound : Nat} :
    ∀ (fuel : Nat) (hdr : Word), OnChain m root hdr →
      allocAlignedFrom m size align bound fuel hdr = .ok (some p, m') →
      ∃ g, OnChain m root g ∧ g ≠ 0 ∧ ¬ isAlloc m g ∧
        place m g size align bound (alignUp (g + headerSize) align) = .ok (some (p, m')) := by
  intro fuel
  induction fuel with
  | zero =>
    intro hdr _ h
    cases h
  | succ fuel ih =>
    intro hdr hc h
    rw [allocAlignedFrom] at h
    have hnext : allocAlignedFrom m size align bound fuel (next m hdr) = .ok (some p, m') →
        ∃ g, OnChain m root g ∧ g ≠ 0 ∧ ¬ isAlloc m g ∧
          place m g size align bound (alignUp (g + headerSize) align) = .ok (some (p, m')) := by
      intro hr
      by_cases hz : next m hdr = 0
      · rw [hz] at hr
        cases fuel with
        | zero => cases hr
        | succ fuel =>
          rw [allocAlignedFrom, if_pos rfl] at hr
          cases hr
      · exact ih _ (hc.next hz) hr
    by_cases h0 : hdr = 0
    · rw [if_pos h0] at h
      cases h
    rw [if_neg h0] at h
    by_cases hm : ¬ hasMagic m hdr
    · rw [if_pos hm] at h
      cases h
    rw [if_neg hm] at h
    by_cases hu : isAlloc m hdr
    · rw [if_pos hu] at h
      exact hnext h
    rw [if_neg hu] at h
    obtain ⟨r, hr, h⟩ := Res.bind_eq_ok.mp h
    cases r with
    | none => exact hnext h
    | some q =>
      obtain ⟨q, m₁⟩ := q
      cases h
      exact ⟨hdr, hc, h0, hu, hr⟩

/-- **The address choice.** What `allocAligned` returns was found in a free
block `g` of the chain, and is the least multiple of `align` that is the start
of its payload or lies at least a header behind it. So it is aligned, and the
new header does not overlap the one of `g`. -/
theorem allocAligned_least {h : Heap} {m m' : Mem} {size align p : Word} {k fuel : Nat}
    (ht : Tiled m (h.m_base.toNat + h.m_size.toNat) h.m_base.toNat)
    (he : h.m_base.toNat + h.m_size.toNat < 2 ^ 63) (ha : align.toNat = 2 ^ k)
    (hok : h.allocAligned fuel m size align = .ok (some p, m')) :
    ∃ g, OnChain m h.rootHeader g ∧ ¬ isAlloc m g ∧
      place m g size align fuel (alignUp (g + headerSize) align) = .ok (some (p, m')) ∧
      IsLeast {x | align.toNat ∣ x ∧ (x = (g + headerSize).toNat ∨
        (g + headerSize).toNat + headerSize.toNat ≤ x)} p.toNat ∧
      align.toNat ∣ p.toNat ∧
      (p ≠ g + headerSize → g.toNat + headerSize.toNat ≤ (p - headerSize).toNat) := by
  obtain ⟨g, hg, -, hu, hp⟩ := allocAlignedFrom_some fuel h.rootHeader .root hok
  have hg' := hg
  rw [show h.rootHeader = adr h.m_base.toNat from (adr_of_toNat _).symm] at hg'
  obtain ⟨x, rfl, -, hx⟩ := ht.onChain hg'
  have hlt := hx.lt
  have hleast := place_least hx he ha hp
  have hpay : (adr x + headerSize).toNat = x + 32 := by
    rw [headerSize_eq, adr_add, adr_toNat (by omega)]
  refine ⟨adr x, hg, hu, hp, ?_, hleast.1.1, fun hne => ?_⟩
  · rw [hpay]
    exact hleast
  · have h32 : headerSize.toNat = 32 := rfl
    rcases hleast.1.2 with heq | hge
    · exact absurd (BitVec.eq_of_toNat_eq (heq.trans hpay.symm)) hne
    · rw [BitVec.toNat_sub_of_le (by rw [BitVec.le_def, h32]; omega), adr_toNat (by omega), h32]
      omega

theorem allocAligned_least_fresh : ∃ p m', fresh.heap.allocAligned 64 fresh.mem 16 64 =
    .ok (some p, m') ∧ (64 : Word).toNat ∣ p.toNat := by
  have h : (fresh.heap.allocAligned 64 fresh.mem 16 64).toOption.any (·.1.isSome) = true := by
    decide +kernel
  cases hr : fresh.heap.allocAligned 64 fresh.mem 16 64 with
  | error f => rw [hr] at h; cases h
  | ok r =>
    obtain ⟨_ | p, m'⟩ := r
    · rw [hr] at h; cases h
    · obtain ⟨-, -, -, -, -, hdvd, -⟩ := allocAligned_least (h := fresh.heap) (k := 6) fresh_tiled
        (by decide) rfl hr
      exact ⟨p, m', rfl, hdvd⟩

end X64k.L1.Heap
