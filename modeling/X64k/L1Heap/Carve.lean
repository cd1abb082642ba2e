import X64k.L1Heap.Aligned

/-!
# Aligned allocation: what it hands out

The four ways to carve a free block (the whole block, its front, its middle,
its end) leave headers that tile the block, as long as what is cut off at the
end has room for a header. Three of the four branches check that. A block that
is aligned as it is, is cut for any `size` other than its length: `Spoils` is
the case that the rest is too short, or `size` larger than the block.

* `cutMiddle_hdrs`, `cutHead_hdrs`: the headers that are written.
* `carved_of`: a block replaced by headers that tile it.
* `carves_iff`: every answer is sound if and only if the first block that is
  not passed over does not spoil.
* `spoil_run`: 4050 bytes from the only block, of 4064.
-/
namespace X64k.L1.Heap

open X64k.Core

/-! ## The headers written -/

section Cut
variable {m : Mem} {e a n d : Nat} {b : Blk}

theorem cutMiddle_adr (hd : 32 ≤ d) : cutMiddle m (adr a) (adr (a + 32) + adr d) (adr n) (adr d)
      (adr (b.len - d)) =
    let m := m.store64 (adr (a + d + 32 + n + 24)) (m.load64 (adr (a + 24)))
    let m := m.store64 (adr (a + d + 24)) (adr (a + d + 32 + n))
    let m := m.store64 (adr (a + 24)) (adr (a + d))
    let m := m.store64 (adr (a + d + 32 + n + 8)) (adr (b.len - d) - adr n - headerSize)
    let m := m.store64 (adr (a + d + 8)) (adr n)
    let m := m.store64 (adr (a + 8)) (adr (d - 32))
    let m := m.store64 (adr (a + d + 32 + n)) headerMagic
    let m := m.store64 (adr (a + d)) (headerMagic ||| HF_ALLOC)
    let m := m.store64 (adr (a + d + 16)) (adr a)
    m.store64 (adr (a + d + 32 + n + 16)) (adr (a + d)) := by
  have h1 : adr (a + 32) + adr d + adr n = adr (a + d + 32 + n) := by
    rw [adr_add, adr_add, show a + 32 + d + n = a + d + 32 + n by omega]
  have h2 : adr (a + 32) + adr d - headerSize = adr (a + d) := by
    rw [adr_add, show a + 32 + d = a + d + 32 by omega, sub_headerSize]
  have h3 : adr d - headerSize = adr (d - 32) := by
    rw [headerSize_eq, sub_adr hd]
  simp only [cutMiddle, h1, h2, h3, setFlags_adr, setLength_adr, setPrev_adr, setNext_adr, next_adr]

/-- The three headers of a block cut in the middle. -/
theorem cutMiddle_hdrs (hb : HdrAt m e a b) (hd : 32 ≤ d) (hn : n + 32 < b.len - d)
    (he : a + 32 + b.len ≤ e) (hlt : e < 2 ^ 64) :
    Blocks (cutMiddle m (adr a) (adr (a + 32) + adr d) (adr n) (adr d) (adr (b.len - d))) e a
      [b.resize (d - 32), ⟨headerMagic ||| HF_ALLOC, n, adr a⟩,
        ⟨headerMagic, b.len - d - n - 32, adr (a + d)⟩] := by
  obtain ⟨hm, hf, -, hp, hx⟩ := hdrAt_iff.mp hb
  have hrest : adr (b.len - d) - adr n - headerSize = adr (b.len - d - n - 32) := by
    rw [headerSize_eq, sub_adr (by omega), sub_adr (by omega)]
  have hmid : a + 32 + (d - 32) = a + d := by omega
  have hend : a + d + 32 + n + 32 + (b.len - d - n - 32) = a + 32 + b.len := by omega
  have hl1 : link e (a + d) = adr (a + d) := if_neg (by omega)
  have hl2 : link e (a + d + 32 + n) = adr (a + d + 32 + n) := if_neg (by omega)
  rw [cutMiddle_adr hd]
  refine ⟨hdrAt_iff.mpr ⟨hm, ?_, ?_, ?_, ?_⟩, ?_, ?_, trivial⟩
  iterate 4
    simp (disch := omega) only [Mem.load64_store64, Mem.load64_store64_ne, hf, hp, hmid, hl1,
      Blk.resize]
  · simp only [Blk.resize_len, hmid]
    refine hdrAt_iff.mpr ⟨magic_or_alloc BitVec.and_self, ?_, ?_, ?_, ?_⟩ <;>
      simp (disch := omega) only [Mem.load64_store64, Mem.load64_store64_ne, hl2]
  · simp only [Blk.resize_len, hmid]
    refine hdrAt_iff.mpr ⟨BitVec.and_self, ?_, ?_, ?_, ?_⟩ <;>
      simp (disch := omega) only [Mem.load64_store64, Mem.load64_store64_ne, hrest, hx, hend]

/-- It writes inside the block, and nowhere else. -/
theorem eqOn_cutMiddle {lo hi : Nat} (hd : 32 ≤ d) (hn : n + 32 < b.len - d)
    (h : a + 32 + b.len ≤ lo ∨ hi ≤ a) (he : a + 32 + b.len < 2 ^ 64) (hhi : hi ≤ 2 ^ 64) :
    Mem.EqOn m (cutMiddle m (adr a) (adr (a + 32) + adr d) (adr n) (adr d) (adr (b.len - d)))
      lo hi := by
  rw [cutMiddle_adr hd]
  iterate 9 refine Mem.EqOn.trans ?_ (Mem.EqOn.store64 _ _ (by omega) (by omega) hhi)
  exact Mem.EqOn.store64 _ _ (by omega) (by omega) hhi

theorem cutHead_adr (hd : 32 ≤ d) : cutHead m (adr a) (adr (a + 32) + adr d) (adr n) (adr d) =
    let m := m.store64 (adr (a + d + 16)) (adr a)
    let m := m.store64 (adr (a + d + 24)) (m.load64 (adr (a + 24)))
    let m := m.store64 (adr (a + 24)) (adr (a + d))
    let m := m.store64 (adr (a + d + 8)) (adr n)
    let m := m.store64 (adr (a + 8)) (adr (d - 32))
    m.store64 (adr (a + d)) (headerMagic ||| HF_ALLOC) := by
  have h2 : adr (a + 32) + adr d - headerSize = adr (a + d) := by
    rw [adr_add, show a + 32 + d = a + d + 32 by omega, sub_headerSize]
  have h3 : adr d - headerSize = adr (d - 32) := by
    rw [headerSize_eq, sub_adr hd]
  simp only [cutHead, h2, h3, setFlags_adr, setLength_adr, setPrev_adr, setNext_adr, next_adr]

/-- The two headers of a block of which the end is cut off. -/
theorem cutHead_hdrs (hb : HdrAt m e a b) (hd : 32 ≤ d) (hn : b.len = d + n)
    (he : a + 32 + b.len ≤ e) (hlt : e < 2 ^ 64) :
    Blocks (cutHead m (adr a) (adr (a + 32) + adr d) (adr n) (adr d)) e a
      [b.resize (d - 32), ⟨headerMagic ||| HF_ALLOC, n, adr a⟩] := by
  obtain ⟨hm, hf, -, hp, hx⟩ := hdrAt_iff.mp hb
  have hmid : a + 32 + (d - 32) = a + d := by omega
  have hend : a + d + 32 + n = a + 32 + b.len := by omega
  have hl1 : link e (a + d) = adr (a + d) := if_neg (by omega)
  rw [cutHead_adr hd]
  refine ⟨hdrAt_iff.mpr ⟨hm, ?_, ?_, ?_, ?_⟩, ?_, trivial⟩
  iterate 4
    simp (disch := omega) only [Mem.load64_store64, Mem.load64_store64_ne, hf, hp, hmid, hl1,
      Blk.resize]
  · simp only [Blk.resize_len, hmid]
    refine hdrAt_iff.mpr ⟨magic_or_alloc BitVec.and_self, ?_, ?_, ?_, ?_⟩ <;>
      simp (disch := omega) only [Mem.load64_store64, Mem.load64_store64_ne, hx, hend]

theorem eqOn_cutHead {lo hi : Nat} (hd : 32 ≤ d) (hn : b.len = d + n)
    (h : a + 32 + b.len ≤ lo ∨ hi ≤ a) (he : a + 32 + b.len < 2 ^ 64) (hhi : hi ≤ 2 ^ 64) :
    Mem.EqOn m (cutHead m (adr a) (adr (a + 32) + adr d) (adr n) (adr d)) lo hi := by
  rw [cutHead_adr hd]
  iterate 5 refine Mem.EqOn.trans ?_ (Mem.EqOn.store64 _ _ (by omega) (by omega) hhi)
  exact Mem.EqOn.store64 _ _ (by omega) (by omega) hhi

/-- `split` with too little behind `n`: the new header has a length that wraps
around. -/
theorem split_wraps (hb : HdrAt m e a b) (hn : b.len < n + 32) (ha : a + 32 + n + 32 ≤ 2 ^ 64) :
    length (split m (adr a) (adr n)) (adr a) = adr n ∧
    next (split m (adr a) (adr n)) (adr a) = adr (a + 32 + n) ∧
    length (split m (adr a) (adr n)) (adr (a + 32 + n)) = adr (2 ^ 64 + b.len - n - 32) := by
  have e1 : adr a + headerSize + adr n = adr (a + 32 + n) := by
    rw [← adr_add, ← adr_add]; rfl
  obtain ⟨-, -, hl, -, -⟩ := hdrAt_iff.mp hb
  have hrest : adr b.len - adr n - headerSize = adr (2 ^ 64 + b.len - n - 32) := by
    rw [headerSize_eq]
    apply BitVec.eq_of_toNat_eq
    simp only [BitVec.toNat_sub, BitVec.toNat_ofNat]
    omega
  refine ⟨?_, ?_, ?_⟩ <;>
    simp (disch := omega) only [split, e1, flags_adr, length_adr, next_adr, setFlags_adr,
      setPrev_adr, setNext_adr, setLength_adr, Mem.load64_store64, Mem.load64_store64_ne, hl, hrest]

end Cut

/-! ## What a caller gets -/

/-- `p` is the payload of an allocated block of `size` bytes, which were free
before; the other allocated blocks are those of before. -/
structure Carved (m m' : Mem) (root : Word) (e : Nat) (size p : Word) : Prop where
  inside : ∃ g, OnChain m root g ∧ ¬ isAlloc m g ∧ g.toNat + 32 ≤ p.toNat ∧
    p.toNat + size.toNat ≤ g.toNat + 32 + (length m g).toNat
  tiled : Tiled m' e root.toNat
  block : OnChain m' root (p - headerSize)
  marked : isAlloc m' (p - headerSize)
  length : length m' (p - headerSize) = size
  kept : ∀ g, OnChain m root g → isAlloc m g →
    OnChain m' root g ∧ Heap.length m' g = Heap.length m g ∧ flags m' g = flags m g

/-- What the answer `r` promises, with `m'` the memory after the call. -/
def Answered (m m' : Mem) (root : Word) (e : Nat) (size : Word) : Option Word → Prop
  | none => m' = m
  | some p => Carved m m' root e size p

/-- The block at `h` is aligned and not of `size` bytes, and has no room for
them and a header. -/
def Spoils (m : Mem) (size align h : Word) : Prop :=
  padding (h + headerSize).toNat align.toNat = 0 ∧ length m h ≠ size ∧
    (length m h).toNat < size.toNat + 32

section Carved
variable {m m' : Mem} {e a : Nat} {l₁ l₂ : List Blk} {b : Blk}

@[simp] theorem used_alloc (n : Nat) (p : Word) :
    (⟨headerMagic ||| HF_ALLOC, n, p⟩ : Blk).used = true := by
  have h : (headerMagic ||| HF_ALLOC) &&& HF_ALLOC ≠ 0 := by decide
  exact decide_eq_true h

/-- The free block `b` replaced by blocks that cover it, `c` among them. -/
theorem carved_of (k₁ : List Blk) (c : Blk) (k₂ : List Blk)
    (hm : Blocks m e a (l₁ ++ b :: l₂)) (hx : a + span (l₁ ++ b :: l₂) = e) (he : e < 2 ^ 63)
    (hu : b.used = false)
    (hk : Blocks m' e (a + span l₁) (k₁ ++ c :: k₂)) (hspan : span (k₁ ++ c :: k₂) = 32 + b.len)
    (hc : c.used = true)
    (heq : ∀ lo hi, a + span l₁ + 32 + b.len ≤ lo ∨ hi ≤ a + span l₁ → hi ≤ 2 ^ 64 →
      Mem.EqOn m m' lo hi) :
    Carved m m' (adr a) e (adr c.len) (adr (a + span l₁ + span k₁ + 32)) := by
  have hon := @onChain_iff _ _ _ _ hm hx (by omega) (by simp)
  have hb := blocks_at hm
  have hx₀ := hx
  simp only [span_append, span] at hx₀ hspan
  -- the blocks after the call
  obtain ⟨hm₁, -, hm₂⟩ := (blocks_append _ _ _).mp hm
  have hm' : Blocks m' e a (l₁ ++ ((k₁ ++ c :: k₂) ++ l₂)) := by
    refine (blocks_append _ _ _).mpr ⟨hm₁.transport (heq _ _ (.inr (Nat.le_refl _)) (by omega)), ?_⟩
    refine (blocks_append _ _ _).mpr ⟨hk, ?_⟩
    rw [show a + span l₁ + span (k₁ ++ c :: k₂) = a + span l₁ + 32 + b.len by
      simp only [span_append, span]; omega]
    exact hm₂.transport (heq _ _ (.inl (Nat.le_refl _)) (by omega))
  have hx' : a + span (l₁ ++ ((k₁ ++ c :: k₂) ++ l₂)) = e := by
    simp only [span_append, span]
    omega
  have hon' := @onChain_iff _ _ _ _ hm' hx' (by omega) (by simp)
  have hm'' : Blocks m' e a ((l₁ ++ k₁) ++ c :: (k₂ ++ l₂)) := by simpa using hm'
  have hcb := blocks_at hm''
  rw [span_append, ← Nat.add_assoc] at hcb
  have hp : adr (a + span l₁ + span k₁ + 32) - headerSize = adr (a + span l₁ + span k₁) :=
    sub_headerSize _
  refine ⟨?_, ?_, ?_, ?_, ?_, ?_⟩
  · refine ⟨_, hon.mpr ⟨l₁, b, l₂, rfl, rfl⟩, by rw [hb.isAlloc, hu]; decide, ?_, ?_⟩
    · rw [adr_toNat (by omega), adr_toNat (by omega)]
      omega
    · rw [adr_toNat (by omega), adr_toNat (by omega), adr_toNat (by omega),
        length_toNat hb (by omega)]
      omega
  · rw [adr_toNat (by omega)]
    exact tiled_of_blocks hm' hx' (by omega) (by simp)
  · rw [hp]
    refine hon'.mpr ⟨l₁ ++ k₁, c, k₂ ++ l₂, by simp, ?_⟩
    rw [span_append, ← Nat.add_assoc]
  · rw [hp]
    exact hcb.isAlloc.mpr hc
  · rw [hp]
    exact hcb.length
  · intro g hg hga
    obtain ⟨j₁, d, j₂, hj, rfl⟩ := hon.mp hg
    have hd : HdrAt m e (a + span j₁) d := blocks_at (hj ▸ hm)
    have hdu := hd.isAlloc.mp hga
    rcases split_twice hj with ⟨rfl, -⟩ | ⟨r, rfl⟩ | ⟨r, rfl, rfl⟩
    · rw [hu] at hdu
      cases hdu
    · simp only [span_append, span] at hx₀
      have hd' := hd.transport (heq (a + span j₁) (a + span j₁ + 32)
        (.inr (by simp only [span_append, span]; omega)) (by omega))
      refine ⟨hon'.mpr ⟨j₁, d, r ++ (k₁ ++ c :: k₂) ++ l₂, by simp, rfl⟩, ?_, ?_⟩
      · rw [hd'.length, hd.length]
      · rw [hd'.flags, hd.flags]
    · simp only [span_append, span] at hx₀
      have hd' := hd.transport (heq (a + span (l₁ ++ b :: r)) (a + span (l₁ ++ b :: r) + 32)
        (.inl (by simp only [span_append, span]; omega))
        (by simp only [span_append, span]; omega))
      refine ⟨hon'.mpr ⟨l₁ ++ (k₁ ++ c :: k₂) ++ r, d, j₂, by simp, ?_⟩, ?_, ?_⟩
      · refine congrArg adr ?_
        simp only [span_append, span]
        omega
      · rw [hd'.length, hd.length]
      · rw [hd'.flags, hd.flags]

/-- A block taken whole or with room for a header is carved soundly, whatever
the padding. -/
theorem attempt_carved {d n : Nat} (hm : Blocks m e a (l₁ ++ b :: l₂))
    (hx : a + span (l₁ ++ b :: l₂) = e) (he : e < 2 ^ 63) (hu : b.used = false)
    (hd : d = 0 ∨ 32 ≤ d) (hle : d ≤ b.len) (hroom : d = 0 → b.len = n ∨ n + 32 ≤ b.len)
    {r : Word × Mem} (hr : attempt m (a + span l₁) n d b.len = some r) :
    Carved m r.2 (adr a) e (adr n) r.1 := by
  have hb := blocks_at hm
  have hx₀ := hx
  simp only [span_append, span] at hx₀
  unfold attempt at hr
  split at hr
  · rename_i h0
    split at hr
    · -- no splits required
      rename_i hlen
      cases hr
      rw [← hlen]
      refine carved_of [] b.mark [] hm hx he hu ⟨mark_hdr hb (by omega), trivial⟩
        ?_ b.mark_used fun lo hi h hhi => ?_
      · simp only [List.nil_append, span, Blk.mark_len]
        omega
      · exact eqOn_setFlags (by omega) (by omega) hhi
    · -- cut end, return beginning
      rename_i hlen
      cases hr
      have hn := (hroom h0).resolve_left hlen
      obtain ⟨h1, h2⟩ := split_hdrs hb hn (by omega) (by omega)
      refine carved_of [] (b.mark.resize n) [_] hm hx he hu ⟨h1, h2, trivial⟩
        ?_ b.mark_used fun lo hi h hhi => ?_
      · simp only [List.nil_append, span, Blk.resize_len]
        omega
      · exact eqOn_split (by omega) (by omega) (by omega) hhi
  · rename_i h0
    have hd := hd.resolve_left h0
    have hadr : adr (a + span l₁ + 32) + adr d =
        adr (a + span l₁ + span [b.resize (d - 32)] + 32) := by
      rw [adr_add]
      refine congrArg adr ?_
      simp only [span, Blk.resize_len]
      omega
    split at hr
    · -- cut end, return middle
      rename_i hn
      cases hr
      have hk := cutMiddle_hdrs hb hd hn (by omega) (by omega)
      have hc := carved_of [_] _ [_] hm hx he hu hk ?_ (used_alloc _ _)
        fun lo hi h hhi => ?_
      · rw [← hadr] at hc
        exact hc
      · simp only [List.singleton_append, span, Blk.resize_len]
        omega
      · exact eqOn_cutMiddle hd hn (by omega) (by omega) hhi
    · split at hr
      · -- cut nothing more, return end
        rename_i hn
        cases hr
        have hk := cutHead_hdrs (n := n) hb hd (by omega) (by omega) (by omega)
        have hc := carved_of [_] _ [] hm hx he hu hk ?_ (used_alloc _ _)
          fun lo hi h hhi => ?_
        · rw [← hadr] at hc
          exact hc
        · simp only [List.singleton_append, span, Blk.resize_len]
          omega
        · exact eqOn_cutHead (b := b) hd (by omega) (by omega) (by omega) hhi
      · cases hr

theorem Tiled.drop : ∀ {l₁ : List Blk} {a : Nat}, Blocks m e a l₁ → a + span l₁ < e →
    e < 2 ^ 64 → Tiled m e a → Tiled m e (a + span l₁)
  | [], _, _, _, _, ht => ht
  | b :: l₁, a, ⟨hb, hm⟩, hx, he, ht => by
    simp only [span] at hx
    have hlen := length_toNat hb (by omega)
    rw [show a + span (b :: l₁) = a + 32 + b.len + span l₁ by simp only [span]; omega]
    cases ht with
    | last _ _ h => omega
    | step _ _ _ h =>
      rw [hlen] at h
      exact h.drop hm (by omega) he

/-- After `split` with too little behind `n`, the chain no longer tiles the heap. -/
theorem not_tiled_split {n : Nat} (hm : Blocks m e a (l₁ ++ b :: l₂))
    (hx : a + span (l₁ ++ b :: l₂) = e) (he : e < 2 ^ 63) (hn : n + 32 < 2 ^ 63)
    (h : b.len < n + 32) :
    ¬ Tiled (split m (adr (a + span l₁)) (adr n)) e a := by
  intro ht
  simp only [span_append, span] at hx
  obtain ⟨h1, h2, h3⟩ := split_wraps (blocks_at hm) h (by omega)
  have hpre : Mem.EqOn m (split m (adr (a + span l₁)) (adr n)) a (a + span l₁) :=
    eqOn_split (by omega) (by omega) (by omega) (by omega)
  have hat := ht.drop (((blocks_append _ _ _).mp hm).1.transport hpre) (by omega) (by omega)
  -- the walk goes on at the new header, and past the end of the heap
  cases hat with
  | last _ h0 _ =>
    rw [h2] at h0
    exact adr_ne_zero (by omega) (by omega) h0
  | step _ _ _ h =>
    rw [h1, adr_toNat (by omega)] at h
    cases h with
    | last _ _ h =>
      rw [h3, adr_toNat (by omega)] at h
      omega
    | step _ _ _ h =>
      have hlt := h.lt
      rw [h3, adr_toNat (by omega)] at hlt
      omega

theorem spoils_iff {size align : Word} {x : Nat} (hb : HdrAt m e x b)
    (h : x + 32 + b.len < 2 ^ 64) : Spoils m size align (adr x) ↔
      padding (x + 32) align.toNat = 0 ∧ b.len ≠ size.toNat ∧ b.len < size.toNat + 32 := by
  have hlen : length m (adr x) ≠ size ↔ b.len ≠ size.toNat := by
    rw [← length_toNat hb (by omega), Ne, Ne, BitVec.toNat_inj]
  rw [Spoils, hlen, length_toNat hb (by omega), payload_toNat (by omega)]

end Carved

/-! ## Main results -/

/-- At a block that spoils, the answer is not sound. -/
theorem Tiled.not_answered {h : Heap} {m : Mem} {e k : Nat} {size align g : Word}
    (ht : Tiled m e h.m_base.toNat) (he : e < 2 ^ 63) (hn : size.toNat + 32 < 2 ^ 63)
    (ha : align.toNat = 2 ^ k) (hg : FirstStop m align h.rootHeader g)
    (hs : Spoils m size align g) : ∃ fuel r m', h.allocAligned fuel m size align = .ok (r, m') ∧
      ¬ Answered m m' h.rootHeader e size r := by
  rcases ht.allocAligned he hn ha with ⟨hno, -⟩ | ⟨l₁, b, l₂, hm, hx, -, -, -, hfirst, hr⟩
  · exact absurd hg (hno g)
  · have hx₀ := hx
    simp only [span_append, span] at hx₀
    rw [(hfirst g).mp hg, spoils_iff (blocks_at hm) (by omega)] at hs
    obtain ⟨hd, hne, hlt⟩ := hs
    have hok := hr _ (Nat.lt_succ_self _)
    rw [hd, attempt, if_pos rfl, if_neg hne] at hok
    refine ⟨_, _, _, hok, fun hc => not_tiled_split hm hx he hn hlt ?_⟩
    exact Carved.tiled hc

/-- **Aligned memory is free memory.** On a chain that tiles the heap, every
answer of `allocAligned` is sound (`none` leaves the heap as it is, and a
pointer is the payload of a new block, carved out of free memory) if and only
if the first block that is not passed over, when it is aligned as it is, has
exactly `size` bytes or room for a header behind them. -/
theorem carves_iff {h : Heap} {m : Mem} {e k : Nat} {size align : Word}
    (ht : Tiled m e h.m_base.toNat) (he : e < 2 ^ 63) (hn : size.toNat + 32 < 2 ^ 63)
    (ha : align.toNat = 2 ^ k) :
    (∀ fuel r m', h.allocAligned fuel m size align = .ok (r, m') →
      Answered m m' h.rootHeader e size r) ↔
    ∀ g, FirstStop m align h.rootHeader g → ¬ Spoils m size align g := by
  have hA : 0 < align.toNat := by
    rw [ha]
    exact Nat.two_pow_pos k
  have hroot : h.rootHeader = adr h.m_base.toNat := (adr_of_toNat _).symm
  rcases ht.allocAligned he hn ha with ⟨hno, hr⟩ | ⟨l₁, b, l₂, hm, hx, h0, hu, hs, hfirst, hr⟩
  · constructor
    · intro _ g hg
      exact absurd hg (hno g)
    · intro _ fuel r m' hok
      have hle := (stable_allocAligned h m size align).ok_le (Nat.le_max_left fuel (e + 33)) hok
      rw [hr _ (by omega)] at hle
      cases hle
      rfl
  have hx₀ := hx
  simp only [span_append, span] at hx₀
  have hsp : Spoils m size align _ ↔ _ := spoils_iff (blocks_at hm) (by omega)
  constructor
  · intro hall g hg hspoil
    obtain ⟨fuel, r, m', hok, hna⟩ := ht.not_answered he hn ha hg hspoil
    exact hna (hall fuel r m' hok)
  · intro hall fuel r m' hok
    have hnsp := hall _ ((hfirst _).mpr rfl)
    rw [hsp] at hnsp
    have hle := (stable_allocAligned h m size align).ok_le (Nat.le_max_left fuel (e + 33)) hok
    rw [hr _ (by omega)] at hle
    split at hle
    · rename_i r₀ hat
      cases hle
      have hc := attempt_carved hm hx he hu (padding_cases hA _) (padding_le hs) (by omega) hat
      rw [adr_of_toNat size, ← hroot] at hc
      exact hc
    · cases hle

theorem carves_iff_fresh : (∀ fuel r m', fresh.heap.allocAligned fuel fresh.mem 16 32 = .ok (r, m') →
      Answered fresh.mem m' fresh.heap.rootHeader 0x2000 16 r) ↔
    ∀ g, FirstStop fresh.mem 32 fresh.heap.rootHeader g → ¬ Spoils fresh.mem 16 32 g :=
  carves_iff (k := 5) fresh_tiled (by decide) (by decide) rfl

/-- **Memory past the end**: the only block, of 4064 bytes, is aligned, and is
cut behind 4050 bytes. The new header ends 18 bytes behind the heap. -/
theorem spoil_run : ¬ ∀ (h : Heap) (m : Mem) (size align : Word),
    Tiled m (h.m_base.toNat + h.m_size.toNat) h.m_base.toNat → PrevInverse m h.rootHeader →
    h.m_base.toNat + h.m_size.toNat < 2 ^ 63 → size.toNat + 32 < 2 ^ 63 →
    (∃ k, align.toNat = 2 ^ k) → ∀ fuel r m', h.allocAligned fuel m size align = .ok (r, m') →
      Answered m m' h.rootHeader (h.m_base.toNat + h.m_size.toNat) size r := by
  intro hall
  have hlink : PrevInverse fresh.mem fresh.heap.rootHeader := by
    refine ⟨by decide +kernel, fun g hg h0 => ?_⟩
    rw [fresh_onChain hg] at h0
    exact absurd (by decide +kernel) h0
  have hstop : Stops fresh.mem 32 0x1000 := by
    unfold Stops
    decide +kernel
  have hspoil : Spoils fresh.mem 4050 32 0x1000 := by
    unfold Spoils
    decide +kernel
  obtain ⟨fuel, r, m', hok, hna⟩ := Tiled.not_answered (h := fresh.heap) (k := 5) fresh_tiled
    (by decide) (by decide) rfl (fresh_firstStop hstop) hspoil
  exact hna (hall fresh.heap fresh.mem 4050 32 fresh_tiled hlink (by decide) (by decide) ⟨5, rfl⟩
    fuel r m' hok)

end X64k.L1.Heap
