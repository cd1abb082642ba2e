import X64k.L1Heap.Tiling
import X64k.L1Heap.Carve

/-!
# What the heap's calls leave alone

A payload belongs to the client it was handed to. Both allocators take one
free block and write inside it only; `free` writes headers only. So no call
changes a byte of a payload that stays live.

* `Refill`: a free block replaced by blocks that cover it, one of them handed
  out. `attempt_refill` is that for `alloc` and `allocAligned` alike.
* `free_frame`: the payloads that stay live keep their bytes through `free`.
-/
namespace X64k.L1.Heap

open X64k.Core

/-- No `prev` link points below `lo`. -/
def Above (lo : Nat) (l : List Blk) : Prop := ∀ b ∈ l, b.prev = 0 ∨ lo ≤ b.prev.toNat

theorem above_cons {lo : Nat} {b : Blk} {l : List Blk} (h : b.prev = 0 ∨ lo ≤ b.prev.toNat)
    (hl : Above lo l) : Above lo (b :: l) := List.forall_mem_cons.mpr ⟨h, hl⟩

theorem above_nil (lo : Nat) : Above lo [] := nofun

/-! ## The block that `alloc` takes -/

theorem onChain_cons {m : Mem} {root g : Word} (h0 : next m root ≠ 0)
    (h : OnChain m (next m root) g) : OnChain m root g := by
  induction h with
  | root => exact .next .root h0
  | next _ hn ih => exact .next ih hn

/-- The two ways in which `alloc` takes the free block at `g`. -/
def Took (m m' : Mem) (size g : Word) : Prop := ¬ isAlloc m g ∧
  (length m g > size + headerSize ∧ m' = split m g size ∨
    length m g = size ∧ m' = setFlags m g (flags m g ||| HF_ALLOC))

/-- What `alloc` answers and writes, at the header where its walk ends. -/
theorem allocFrom_outcome {m m' : Mem} {size : Word} {r : Option Word} :
    ∀ (fuel : Nat) (hdr : Word), allocFrom m size fuel hdr = .ok (r, m') →
      (r = none ∧ m' = m) ∨
        hdr ≠ 0 ∧ ∃ g, OnChain m hdr g ∧ r = some (g + headerSize) ∧ Took m m' size g
  | 0, _, h => by cases h
  | fuel + 1, hdr, h => by
    have hrec : hdr ≠ 0 → allocFrom m size fuel (next m hdr) = .ok (r, m') → (r = none ∧ m' = m) ∨
        hdr ≠ 0 ∧ ∃ g, OnChain m hdr g ∧ r = some (g + headerSize) ∧ Took m m' size g := by
      intro hne h
      rcases allocFrom_outcome fuel _ h with h | ⟨h0, g, hg, h⟩
      · exact .inl h
      · exact .inr ⟨hne, g, onChain_cons h0 hg, h⟩
    rw [allocFrom] at h
    split at h
    · cases h
      exact .inl ⟨rfl, rfl⟩
    rename_i hne
    split at h
    · cases h
    split at h
    · exact hrec hne h
    rename_i hu
    split at h
    · rename_i hgt
      cases h
      exact .inr ⟨hne, hdr, .root, rfl, hu, .inl ⟨hgt, rfl⟩⟩
    split at h
    · rename_i heq
      cases h
      exact .inr ⟨hne, hdr, .root, rfl, hu, .inr ⟨heq, rfl⟩⟩
    · exact hrec hne h

/-! ## The block that `allocAligned` takes -/

/-- The first block that `allocAligned` does not pass over, when it is aligned
as it is, has `n` bytes or room for a header behind them. -/
def Roomy (A n a : Nat) (l : List Blk) : Prop := ∀ l₁ b l₂, l = l₁ ++ b :: l₂ → Passed A a l₁ →
  b.used = false → ¬ Short b.len (a + span l₁ + 32) A → padding (a + span l₁ + 32) A = 0 →
    b.len = n ∨ n + 32 ≤ b.len

theorem Roomy.tail {A n a : Nat} {b : Blk} {l : List Blk} (h : Roomy A n a (b :: l))
    (hb : b.used = true ∨ Short b.len (a + 32) A) : Roomy A n (a + 32 + b.len) l := by
  rintro l₁ c l₂ rfl hp hu hs hz
  have hsp : a + 32 + b.len + span l₁ = a + span (b :: l₁) := by simp only [span]; omega
  rw [hsp] at hs hz
  exact h (b :: l₁) c l₂ rfl ⟨hb, hp⟩ hu hs hz

/-! ## A free block refilled -/

/-- In `m'` the blocks `k` cover the block `b` that was at `x`; of them only
the one with its payload at `p` is allocated, and it has `n` bytes. -/
structure Refill (m m' : Mem) (e x : Nat) (b : Blk) (k : List Blk) (p n : Nat) : Prop where
  blocks : Blocks m' e x k
  covers : span k = 32 + b.len
  used : usedOf x k = [(p, n)]
  lower : b.prev = 0 ∨ b.prev.toNat < x → Lower x k
  above : ∀ lo ≤ x, b.prev = 0 ∨ lo ≤ b.prev.toNat → Above lo k
  frame : ∀ lo hi, x + 32 + b.len ≤ lo ∨ hi ≤ x → hi ≤ 2 ^ 64 → Mem.EqOn m m' lo hi

section Refill
variable {m m' : Mem} {e x d n : Nat} {b : Blk}

theorem used_of_not {b : Blk} (h : b.used = false) (y : Nat) (l : List Blk) :
    usedOf y (b :: l) = usedOf (y + 32 + b.len) l := by
  rw [usedOf, if_neg (by rw [h]; decide)]

theorem usedOf_of_used {b : Blk} (h : b.used = true) (y : Nat) (l : List Blk) :
    usedOf y (b :: l) = (y + 32, b.len) :: usedOf (y + 32 + b.len) l := by
  rw [usedOf, if_pos h]

/-- The four ways an attempt cuts a block, with room for what it writes. -/
theorem attempt_refill (hb : HdrAt m e x b) (hx : x + 32 + b.len ≤ e) (he : e < 2 ^ 64)
    (hu : b.used = false) (hd : d = 0 ∨ 32 ≤ d) (hle : d ≤ b.len)
    (hroom : d = 0 → b.len = n ∨ n + 32 ≤ b.len) {r : Word × Mem}
    (hr : attempt m x n d b.len = some r) :
    ∃ k, r.1 = adr (x + 32 + d) ∧ Refill m r.2 e x b k (x + 32 + d) n := by
  have hlow : ∀ y, x < y → (adr x).toNat < y := fun y h => Nat.lt_of_le_of_lt (adr_toNat_le x) h
  have habove : ∀ y lo, lo ≤ y → y < 2 ^ 64 → adr y = 0 ∨ lo ≤ (adr y).toNat :=
    fun y lo h hy => .inr (by rwa [adr_toNat hy])
  unfold attempt at hr
  split at hr
  · rename_i h0
    subst h0
    split at hr
    · rename_i hlen
      cases hr
      refine ⟨[b.mark], rfl, ⟨mark_hdr hb (by omega), trivial⟩, rfl, ?_, fun h => ⟨h, trivial⟩,
        fun lo _ h => above_cons h (above_nil lo), fun lo hi h hhi => eqOn_setFlags (by omega) (by omega) hhi⟩
      rw [usedOf_of_used b.mark_used, Blk.mark_len, hlen]
      rfl
    · rename_i hlen
      cases hr
      have hn := (hroom rfl).resolve_left hlen
      obtain ⟨h1, h2⟩ := split_hdrs hb hn (by omega) (by omega)
      refine ⟨[b.mark.resize n, ⟨headerMagic, b.len - n - 32, adr x⟩], rfl, ⟨h1, h2, trivial⟩,
        ?_, ?_, fun h => ⟨h, .inr (hlow _ (by omega)), trivial⟩,
        fun lo hlo h => above_cons h (above_cons (habove x lo hlo (by omega)) (above_nil lo)),
        fun lo hi h hhi => eqOn_split (by omega) (by omega) (by omega) hhi⟩
      · simp only [span, Blk.resize_len]
        omega
      · rw [usedOf_of_used (b := b.mark.resize n) b.mark_used, used_of_not (used_headerMagic _ _)]
        rfl
  · rename_i h0
    have hd := hd.resolve_left h0
    split at hr
    · rename_i hn
      cases hr
      refine ⟨_, adr_add _ _, cutMiddle_hdrs hb hd hn hx (by omega), ?_, ?_,
        fun h => ⟨h, .inr (hlow _ (by simp only [Blk.resize_len]; omega)), .inr ?_, trivial⟩,
        fun lo hlo h => above_cons h (above_cons (habove x lo hlo (by omega))
          (above_cons (habove (x + d) lo (by omega) (by omega)) (above_nil lo))),
        fun lo hi h hhi => eqOn_cutMiddle (b := b) hd hn (by omega) (by omega) hhi⟩
      · simp only [span, Blk.resize_len]
        omega
      · rw [used_of_not (b := b.resize (d - 32)) hu, usedOf_of_used (used_alloc _ _),
          used_of_not (used_headerMagic _ _),
          Blk.resize_len]
        simp only [usedOf, List.cons.injEq, Prod.mk.injEq, and_true]
        omega
      · refine Nat.lt_of_le_of_lt (adr_toNat_le _) ?_
        simp only [Blk.resize_len]
        omega
    split at hr
    · rename_i hn
      cases hr
      refine ⟨_, adr_add _ _, cutHead_hdrs (n := n) hb hd (by omega) hx (by omega), ?_, ?_,
        fun h => ⟨h, .inr (hlow _ (by simp only [Blk.resize_len]; omega)), trivial⟩,
        fun lo hlo h => above_cons h (above_cons (habove x lo hlo (by omega)) (above_nil lo)),
        fun lo hi h hhi => eqOn_cutHead (b := b) hd (by omega) (by omega) (by omega) hhi⟩
      · simp only [span, Blk.resize_len]
        omega
      · rw [used_of_not (b := b.resize (d - 32)) hu, usedOf_of_used (used_alloc _ _), Blk.resize_len]
        simp only [usedOf, List.cons.injEq, Prod.mk.injEq, and_true]
        omega
    · cases hr

end Refill

/-! ## The heap after a refill -/

section Shape
variable {base size : Word} {s : St} {m' : Mem} {l₁ l₂ k : List Blk} {b : Blk} {p n : Nat}

theorem mem_usedOf_refill (hu : b.used = false) {a : Nat} (hc : span k = 32 + b.len)
    (hk : usedOf (a + span l₁) k = [(p, n)]) (y : Nat × Nat) :
    y ∈ usedOf a (l₁ ++ (k ++ l₂)) ↔ y = (p, n) ∨ y ∈ usedOf a (l₁ ++ b :: l₂) := by
  have hadd : a + span l₁ + (32 + b.len) = a + span l₁ + 32 + b.len := by omega
  rw [usedOf_append, usedOf_append, usedOf_append, used_of_not hu, hk, hc, hadd]
  simp only [List.mem_append, List.mem_singleton]
  tauto

/-- A payload of another block does not meet the free block. -/
theorem usedOf_off (hu : b.used = false) {a q j : Nat} (h : (q, j) ∈ usedOf a (l₁ ++ b :: l₂)) :
    a + span l₁ + 32 + b.len ≤ q ∨ q + j ≤ a + span l₁ := by
  rw [usedOf_append, used_of_not hu] at h
  rcases List.mem_append.mp h with h | h
  · exact .inr (usedOf_bounds h).2
  · have := usedOf_bounds h
    exact .inl (by omega)

theorem Refill.spans {m : Mem} {e x : Nat} (hf : Refill m m' e x b k p n) :
    span (l₁ ++ (k ++ l₂)) = span (l₁ ++ b :: l₂) := by
  simp only [span_append, span, hf.covers]

/-- What is handed out is in the heap and in no live payload. -/
theorem Shape.refill_vacant (hs : Shape base size s (l₁ ++ b :: l₂)) (hu : b.used = false)
    (hf : Refill s.mem m' (base.toNat + size.toNat) (base.toNat + span l₁) b k p n) :
    base.toNat + 32 ≤ p ∧ p + n ≤ base.toNat + size.toNat ∧
    ∀ q j, (q, j) ∈ usedOf base.toNat (l₁ ++ b :: l₂) → q ≠ p ∧ (p + n ≤ q ∨ q + j ≤ p) := by
  have hmem : (p, n) ∈ usedOf (base.toNat + span l₁) k := by rw [hf.used]; exact List.mem_singleton_self _
  have hb := usedOf_bounds hmem
  have hc := hf.covers
  have htl := hs.tiles
  simp only [span_append, span] at htl
  refine ⟨by omega, by omega, fun q j hq => ?_⟩
  rw [usedOf_append, used_of_not hu] at hq
  rcases List.mem_append.mp hq with hq | hq
  · have := usedOf_bounds hq
    exact ⟨by omega, .inr (by omega)⟩
  · have := usedOf_bounds hq
    exact ⟨by omega, .inl (by omega)⟩

/-- The payloads that were live keep their bytes. -/
theorem Shape.refill_payload (hs : Shape base size s (l₁ ++ b :: l₂)) (hu : b.used = false)
    (hf : Refill s.mem m' (base.toNat + size.toNat) (base.toNat + span l₁) b k p n)
    (hlt : base.toNat + size.toNat < 2 ^ 64) {q j : Nat} (hq : (q, j) ∈ usedOf base.toNat (l₁ ++ b :: l₂)) :
    Mem.EqOn s.mem m' q (q + j) := by
  have hb := usedOf_bounds hq
  have htl := hs.tiles
  exact hf.frame _ _ (usedOf_off hu hq) (by omega)

theorem Shape.refill (hs : Shape base size s (l₁ ++ b :: l₂)) (hu : b.used = false)
    (hf : Refill s.mem m' (base.toNat + size.toNat) (base.toNat + span l₁) b k p n)
    (hlt : base.toNat + size.toNat < 2 ^ 64) (h0 : 0 < base.toNat) {w : Word} (hw : w.toNat = n) :
    Shape base size { s with mem := m', live := setLive s.live (adr p) (some w) }
      (l₁ ++ (k ++ l₂)) := by
  obtain ⟨h1, h2, h3⟩ := hs.refill_vacant hu hf
  have htl := hs.tiles
  have hsp : span (l₁ ++ (k ++ l₂)) = span (l₁ ++ b :: l₂) := hf.spans
  have hp : (adr p).toNat = p := adr_toNat (by omega)
  have hm := hs.blocks
  simp only [span_append, span] at htl
  rw [blocks_append] at hm
  refine ⟨hs.heap, ?_, ?_, by rw [hsp]; exact hs.tiles, fun q j => ?_, by omega⟩
  · intro hnil
    rw [hnil] at hsp
    simp only [span_append, span] at hsp
    omega
  · rw [blocks_append, blocks_append, hf.covers]
    have hadd : base.toNat + span l₁ + (32 + b.len) = base.toNat + span l₁ + 32 + b.len := by omega
    rw [hadd]
    exact ⟨hm.1.transport (hf.frame _ _ (by omega) (by omega)), hf.blocks,
      hm.2.2.transport (hf.frame _ _ (by omega) (by omega))⟩
  · rw [mem_usedOf_refill hu hf.covers hf.used, ← hs.live q j]
    simp only [setLive, Prod.mk.injEq]
    split
    · rename_i hq
      subst hq
      have hfresh : s.live (adr p) ≠ some j := fun h => (h3 _ _ ((hs.live _ _).mp h)).1 hp
      simp only [hp, Option.some.injEq, hfresh, or_false, true_and, ← hw]
      exact ⟨fun h => by rw [h], fun h => (BitVec.eq_of_toNat_eq h).symm⟩
    · rename_i hq
      have hne : q.toNat ≠ p := fun hqp => hq (by rw [← hqp, adr_of_toNat])
      simp only [hne, false_and, false_or]

theorem Refill.keeps_lower {m : Mem} {e a : Nat} (hf : Refill m m' e (a + span l₁) b k p n)
    (hl : Lower a (l₁ ++ b :: l₂)) :
    Lower a (l₁ ++ (k ++ l₂)) := by
  rw [lower_append] at hl
  have hadd : a + span l₁ + (32 + b.len) = a + span l₁ + 32 + b.len := by omega
  rw [lower_append, lower_append, hf.covers, hadd]
  exact ⟨hl.1, hf.lower hl.2.1, hl.2.2⟩

theorem Refill.keeps_above {m : Mem} {e a : Nat} (hf : Refill m m' e (a + span l₁) b k p n)
    (h : Above a (l₁ ++ b :: l₂)) : Above a (l₁ ++ (k ++ l₂)) := by
  simp only [Above, List.forall_mem_append, List.forall_mem_cons] at h ⊢
  exact ⟨h.1, hf.above a (Nat.le_add_right ..) h.2.1, h.2.2⟩

end Shape

/-! ## Freeing -/

theorem Above.clear {lo : Nat} {b : Blk} {l₁ l₂ : List Blk} (h : Above lo (l₁ ++ b :: l₂)) :
    Above lo (l₁ ++ b.clear :: l₂) := by
  simpa only [Above, List.forall_mem_append, List.forall_mem_cons, Blk.clear_prev] using h

theorem Above.setHeadPrev {lo a : Nat} {l : List Blk} (h : Above lo l) (ha : lo ≤ a)
    (hlt : a < 2 ^ 64) : Above lo (setHeadPrev (adr a) l) := by
  cases l with
  | nil => exact h
  | cons c l =>
    rw [Above, List.forall_mem_cons] at h
    exact List.forall_mem_cons.mpr ⟨.inr (by rwa [Blk.relink_prev, adr_toNat hlt]), h.2⟩

theorem Above.mergeForward {lo a : Nat} {b : Blk} {l : List Blk} (h : Above lo (b :: l))
    (ha : lo ≤ a) (hlt : a < 2 ^ 64) : Above lo (mergeForward a b false l) := by
  obtain ⟨k₁, k₂, rfl, -, -, hm⟩ := mergeForward_cases a l b false
  rw [Above, List.forall_mem_cons, List.forall_mem_append] at h
  rw [hm]
  refine List.forall_mem_cons.mpr ⟨h.1, ?_⟩
  split
  · exact Above.setHeadPrev h.2.2 ha hlt
  · exact h.2.2

section Free
variable {m m' : Mem} {e a : Nat} {b : Blk} {l₁ l₂ : List Blk}

/-- Absorption writes headers of the chain and nothing else. By induction on
the blocks behind the header it starts from. -/
theorem freeForward_frame (he : e < 2 ^ 64) {lo hi : Nat} (hhi : hi ≤ 2 ^ 64) :
    ∀ (l : List Blk) (m : Mem) (a : Nat) (b : Blk) (t : Bool) (fuel : Nat) (m' : Mem),
      Blocks m e a (b :: (if t then setHeadPrev (adr a) l else l)) → a + 32 + b.len + span l = e →
      (∀ h ∈ hdrs a (b :: l), h + 32 ≤ lo ∨ hi ≤ h) → freeForward fuel m (adr a) = .ok m' →
      Mem.EqOn m m' lo hi
  | [], m, a, b, t, fuel, m', hbl, hx, _, hr => by
    cases fuel with
    | zero => cases hr
    | succ fuel =>
    simp only [span, Nat.add_zero] at hx
    have hlink : next m (adr a) = 0 := hbl.1.next.trans (if_pos hx)
    rw [freeForward, if_pos hlink] at hr
    cases hr
    exact .refl _ _ _
  | c :: l, m, a, b, t, fuel, m', hbl, hx, hoff, hr => by
    cases fuel with
    | zero => cases hr
    | succ fuel =>
    obtain ⟨hb, hrest⟩ := hbl
    obtain ⟨c', hcu, hcl, hc, hl⟩ := hrest.head_relinked
    simp only [span] at hx
    have hlink : next m (adr a) = adr (a + 32 + b.len) := hb.next.trans (if_neg (by omega))
    rw [freeForward, hlink, if_neg (adr_ne_zero (by omega) (by omega)),
      Res.assert_of hc.hasMagic, Res.ok_bind] at hr
    split at hr
    · cases hr
      exact .refl _ _ _
    · have hspan : span l = 0 ∨ 32 ≤ span l := span_pos l
      have h1 := hoff a (List.mem_cons_self ..)
      have h2 := hoff (a + 32 + b.len) (by simp [hdrs])
      have h3 : a + 32 + b.len + 32 + c'.len = e ∨ a + 32 + b.len + 32 + c'.len + 32 ≤ lo ∨
          hi ≤ a + 32 + b.len + 32 + c'.len := by
        cases l with
        | nil => exact .inl (by simp only [span] at hx; omega)
        | cons d l =>
          have := hoff (a + 32 + b.len + 32 + c.len) (by simp [hdrs])
          exact .inr (by omega)
      rw [← hcl] at hl hx
      obtain ⟨hm1, -⟩ := absorb_refines (l := l) hb hc hl (by omega) he
      refine (eqOn_absorb hb hc (by omega) he h1 h2 h3 hhi).trans
        (freeForward_frame he hhi l _ a (b.resize (b.len + 32 + c'.len)) true fuel m' hm1
          (by rw [Blk.resize_len]; omega) (fun h hh => hoff h ?_) hr)
      rcases List.mem_cons.mp hh with rfl | hh
      · exact List.mem_cons_self ..
      · refine List.mem_cons_of_mem _ (List.mem_cons_of_mem _ ?_)
        rw [Blk.resize_len, hcl] at hh
        have hadd : a + 32 + (b.len + 32 + c.len) = a + 32 + b.len + 32 + c.len := by omega
        rwa [hadd] at hh

/-- **`free` keeps the other payloads.** -/
theorem free_frame (hm : Blocks m e a (l₁ ++ b :: l₂)) (hx : a + span (l₁ ++ b :: l₂) = e)
    (he : e < 2 ^ 64) (hu : b.used = true) (hlow : Lower a (l₁ ++ b :: l₂))
    (hst : StaleFails m a (l₁ ++ b :: l₂)) {fuel : Nat} (hf : e < fuel)
    (hr : free fuel m (adr (a + span l₁ + 32)) = .ok m') {q j : Nat}
    (hq : (q, j) ∈ usedOf a (l₁ ++ b :: l₂)) : Mem.EqOn m m' q (q + j) := by
  have hm' := clear_blocks hm hx he
  have hst' := hst.clear (adr (a + span l₁))
  have hx' : a + span (l₁ ++ b.clear :: l₂) = e := by rw [span_clear]; exact hx
  have hqb := usedOf_bounds hq
  have hqe : q + j < 2 ^ 64 := by omega
  have hlt : a + span l₁ < fuel := by simp only [span_append, span] at hx; omega
  have hclear : Mem.EqOn m (setFlags m (adr (a + span l₁))
      (flags m (adr (a + span l₁)) &&& ~~~HF_ALLOC)) q (q + j) := by
    have hh := usedOf_hdrs hq (mem_hdrs.mpr ⟨l₁, b, l₂, rfl, rfl⟩)
    simp only [span_append, span] at hx
    exact eqOn_setFlags (by omega) (by omega) (by omega)
  rw [free_live hm hu fuel] at hr
  obtain ⟨h, hbk, hfw⟩ := Res.bind_eq_ok.mp hr
  rcases freeBack_cases hm' hx' he hlow.clear hst' fuel l₁ b.clear l₂ rfl b.clear_used hlt with
    ⟨msg, herr⟩ | ⟨k₁, c, k₂, hk, -, hok⟩
  · rw [herr] at hbk
    cases hbk
  rw [hok] at hbk
  cases hbk
  refine hclear.trans ?_
  rw [hk] at hm' hx'
  rw [blocks_append] at hm'
  simp only [span_append, span] at hx'
  refine freeForward_frame he (by omega) k₂ _ (a + span k₁) c false fuel m' hm'.2 (by omega)
    (fun y hy => ?_) hfw
  have hmem : y ∈ hdrs a (l₁ ++ b :: l₂) := by
    rw [← hdrs_clear, hk, hdrs_append]
    exact List.mem_append_right _ hy
  have := usedOf_hdrs hq hmem
  omega

end Free

end X64k.L1.Heap
