import X64k.L1Heap.Aligned

/-!
# First fit

What `alloc` chooses on any chain that tiles a range, whatever the flags and
the `prev` links are.

* `alloc_walk`: for every 64-bit size the walk ends at the first block that
  passes the fit test, or with nothing when none does.
* `alloc_exact`: the lowest block that holds the request is cut, and the chain
  tiles the range again.
* `alloc_safe_iff`: the fit test compares with `size + 32` in 64 bits. From
  2^64 - 32 on the sum wraps, and a block of any length from 32 on passes
  (`wrap_run`).
-/
namespace X64k.L1.Heap

open X64k.Core

/-! ## The walk -/

/-- The headers that the loops over the chain visit: a null root ends them at
once. -/
def Visited (m : Mem) (root g : Word) : Prop := root ≠ 0 ∧ OnChain m root g

section
variable {m : Mem} {e a : Nat} {n g root : Word}

theorem OnChain.head (h : OnChain m root g) :
    g = root ∨ Heap.next m root ≠ 0 ∧ OnChain m (Heap.next m root) g := by
  induction h with
  | root => exact .inl rfl
  | @next h _ hn ih =>
    rcases ih with rfl | ⟨h0, ih⟩
    · exact .inr ⟨hn, .root⟩
    · exact .inr ⟨h0, ih.next hn⟩

/-- From every visited header on the chain tiles the rest of the range. -/
theorem Tiled.onChain (ht : Tiled m e a) (h : OnChain m (adr a) g) :
    ∃ x, g = adr x ∧ a ≤ x ∧ Tiled m e x := by
  induction h with
  | root => exact ⟨a, rfl, Nat.le_refl _, ht⟩
  | @next h _ hn ih =>
    obtain ⟨x, rfl, hle, hx⟩ := ih
    cases hx with
    | last _ h0 _ => exact absurd h0 hn
    | step _ hnx _ hrest => exact ⟨_, hnx, by omega, hrest⟩

theorem Tiled.end_le {x : Nat} : Tiled m e x → x + 32 + (length m (adr x)).toNat ≤ e
  | .last _ _ h => Nat.le_of_eq h
  | .step _ _ _ h => by
    have := h.lt
    omega

theorem allocFrom_takes {hdr : Word} (h0 : hdr ≠ 0) (hm : hasMagic m hdr) (ht : Takes m n hdr)
    (fuel : Nat) : ∃ m', allocFrom m n (fuel + 1) hdr = .ok (some (hdr + headerSize), m') := by
  obtain ⟨hu, hfit⟩ := ht
  rw [allocFrom, if_neg h0, if_neg (not_not_intro hm), if_neg hu]
  by_cases hs : length m hdr > n + headerSize
  · rw [if_pos hs]
    exact ⟨_, rfl⟩
  · rw [if_neg hs, if_pos (hfit.resolve_left hs)]
    exact ⟨_, rfl⟩

theorem allocFrom_skips {hdr : Word} (h0 : hdr ≠ 0) (hm : hasMagic m hdr) (ht : ¬ Takes m n hdr)
    (fuel : Nat) : allocFrom m n (fuel + 1) hdr = allocFrom m n fuel (next m hdr) := by
  rw [allocFrom, if_neg h0, if_neg (not_not_intro hm)]
  by_cases hu : isAlloc m hdr
  · rw [if_pos hu]
  · rw [if_neg hu, if_neg fun hs => ht ⟨hu, .inl hs⟩, if_neg fun hs => ht ⟨hu, .inr hs⟩]

/-- The walk ends at the first block that passes the test. -/
theorem alloc_walk (h0 : 0 < a) (he : e ≤ 2 ^ 64) (n : Word) (ht : Tiled m e a) :
    ∀ fuel, e < a + fuel →
      (∃ g m', FirstFit m n (adr a) g ∧
        allocFrom m n fuel (adr a) = .ok (some (g + headerSize), m')) ∨
      (allocFrom m n fuel (adr a) = .ok (none, m) ∧ ∀ g, OnChain m (adr a) g → ¬ Takes m n g) := by
  induction ht with
  | @last a hm hn hx =>
    intro fuel hf
    obtain ⟨fuel, rfl⟩ : ∃ k, fuel = k + 1 + 1 := ⟨fuel - 2, by omega⟩
    have hne : adr a ≠ 0 := adr_ne_zero h0 (by omega)
    by_cases ht : Takes m n (adr a)
    · obtain ⟨m', he⟩ := allocFrom_takes hne hm ht (fuel + 1)
      exact .inl ⟨_, m', .here hne ht, he⟩
    · refine .inr ⟨?_, fun g hg => ?_⟩
      · rw [allocFrom_skips hne hm ht, hn, allocFrom, if_pos rfl]
      · rcases hg.head with rfl | ⟨h, -⟩
        · exact ht
        · exact absurd hn h
  | @step a hm hn hn0 hr ih =>
    intro fuel hf
    have hlt := hr.lt
    obtain ⟨fuel, rfl⟩ : ∃ k, fuel = k + 1 := ⟨fuel - 1, by omega⟩
    have hne : adr a ≠ 0 := adr_ne_zero h0 (by omega)
    by_cases ht : Takes m n (adr a)
    · obtain ⟨m', he⟩ := allocFrom_takes hne hm ht fuel
      exact .inl ⟨_, m', .here hne ht, he⟩
    · rw [allocFrom_skips hne hm ht, hn]
      rcases ih (by omega) fuel (by omega) with ⟨g, m', hff, he⟩ | ⟨he, hnone⟩
      · rw [← hn] at hff
        exact .inl ⟨g, m', .skip hne ht hff, he⟩
      · rw [← hn] at hnone
        refine .inr ⟨he, fun g hg => ?_⟩
        rcases hg.head with rfl | ⟨-, hg⟩
        · exact ht
        · exact hnone g hg

/-- What the walk takes lies below every other block it could take. -/
theorem FirstFit.lowest (he : e ≤ 2 ^ 64) {g' : Word} (ht : Tiled m e a)
    (h : FirstFit m n (adr a) g) (hg : OnChain m (adr a) g') (htk : Takes m n g') :
    g.toNat ≤ g'.toNat := by
  induction ht with
  | @last a hm hn hx =>
    cases h with
    | here =>
      rcases hg.head with rfl | ⟨h, -⟩
      · exact Nat.le_refl _
      · exact absurd hn h
    | skip _ _ hff => exact absurd hn hff.ne_zero
  | @step a hm hn hn0 hr ih =>
    cases h with
    | here =>
      obtain ⟨x, rfl, hle, hx⟩ := (Tiled.step hm hn hn0 hr).onChain hg
      have h1 := hx.lt
      rw [adr_toNat (by omega), adr_toNat (by omega)]
      exact hle
    | skip _ hnt hff =>
      rcases hg.head with rfl | ⟨-, hg⟩
      · exact absurd htk hnt
      · rw [hn] at hff hg
        exact ih hff hg

end

/-! ## Exact fits -/

/-- `n` bytes fit into the free block at `g`. -/
def Qualifies (m : Mem) (n g : Word) : Prop :=
  ¬ isAlloc m g ∧ ((length m g).toNat = n.toNat ∨ n.toNat + 32 < (length m g).toNat)

/-- `alloc(n)` leaves room for another block. -/
abbrev Splits (m : Mem) (n g : Word) : Prop := n.toNat + 32 < (length m g).toNat

/-- The memory after `alloc(n)` has taken the block at `g` of the heap `h`. -/
structure Fitted (h : Heap) (m m' : Mem) (n g : Word) : Prop where
  visited : Visited m h.rootHeader g
  qualifies : Qualifies m n g
  lowest : ∀ g', Visited m h.rootHeader g' → Qualifies m n g' → g.toNat ≤ g'.toNat
  marked : isAlloc m' g
  length : length m' g = n
  whole : ¬ Splits m n g → next m' g = next m g
  rest : Splits m n g → next m' g = g + headerSize + n ∧
    hasMagic m' (g + headerSize + n) ∧ ¬ isAlloc m' (g + headerSize + n) ∧
    (Heap.length m' (g + headerSize + n)).toNat = (Heap.length m g).toNat - n.toNat - 32 ∧
    next m' (g + headerSize + n) = next m g
  tiled : Tiled m' (h.m_base.toNat + h.m_size.toNat) h.m_base.toNat
  headers : ∀ g', Visited m' h.rootHeader g' ↔
    Visited m h.rootHeader g' ∨ Splits m n g ∧ g' = g + headerSize + n
  others : ∀ g', Visited m h.rootHeader g' → g' ≠ g →
    flags m' g' = flags m g' ∧ Heap.length m' g' = Heap.length m g'

section
variable {m m' : Mem} {e a n : Nat} {l l₁ l₂ : List Blk} {b : Blk}

theorem onChain_hdrs (hm : Blocks m e a l) (hx : a + span l = e) (he : e < 2 ^ 64) (hl : l ≠ [])
    {g : Word} : OnChain m (adr a) g ↔ ∃ x ∈ hdrs a l, g = adr x := by
  rw [onChain_iff hm hx he hl]
  constructor
  · rintro ⟨l₁, b, l₂, rfl, rfl⟩
    exact ⟨_, mem_hdrs.mpr ⟨l₁, b, l₂, rfl, rfl⟩, rfl⟩
  · rintro ⟨x, hx, rfl⟩
    obtain ⟨l₁, b, l₂, rfl, rfl⟩ := mem_hdrs.mp hx
    exact ⟨l₁, b, l₂, rfl, rfl⟩

theorem mem_hdrs_cut {x : Nat} : x ∈ hdrs a (l₁ ++ (cut n (a + span l₁) b ++ l₂)) ↔
    x ∈ hdrs a (l₁ ++ b :: l₂) ∨ n + 32 < b.len ∧ x = a + span l₁ + 32 + n := by
  rw [hdrs_append, hdrs_append, hdrs_append, span_cut, ← Nat.add_assoc]
  unfold cut
  simp only [List.mem_append, hdrs, List.mem_cons]
  by_cases hs : n + 32 < b.len
  · rw [if_pos hs, and_iff_right hs]
    simp only [hdrs, List.mem_cons, List.not_mem_nil, or_false, Blk.resize_len]
    tauto
  · rw [if_neg hs, iff_false_intro (fun h : n + 32 < b.len ∧ _ => hs h.1), or_false]
    simp only [hdrs, List.mem_singleton]

theorem Blocks.same_hdr {x : Nat} (h : Blocks m e a l) (h' : Blocks m' e a l) (hx : x ∈ hdrs a l) :
    flags m' (adr x) = flags m (adr x) ∧ length m' (adr x) = length m (adr x) := by
  obtain ⟨l₁, b, l₂, rfl, rfl⟩ := mem_hdrs.mp hx
  have hb := blocks_at h
  have hb' := blocks_at h'
  exact ⟨hb'.flags.trans hb.flags.symm, hb'.length.trans hb.length.symm⟩

/-- `alloc` on the blocks of a heap: the first one that fits is cut. -/
theorem alloc_list (h0 : 0 < a) (he : e < 2 ^ 64) (hn : n + 32 < 2 ^ 64) (hm : Blocks m e a l)
    (hx : a + span l = e) (hl : l ≠ []) {fuel : Nat} (hf : e < fuel) :
    (allocFrom m (adr n) fuel (adr a) = .ok (none, m) ∧ ∀ c ∈ l, c.fits n = false) ∨
    ∃ l₁ b l₂ m', l = l₁ ++ b :: l₂ ∧ (∀ c ∈ l₁, c.fits n = false) ∧ b.fits n = true ∧
      allocFrom m (adr n) fuel (adr a) = .ok (some (adr (a + span l₁ + 32)), m') ∧
      Blocks m' e a (l₁ ++ (cut n (a + span l₁) b ++ l₂)) := by
  have hlen := length_le_span (l := l)
  have hroot : link e a = adr a := by
    refine if_neg fun hae => ?_
    have hs : span l = 0 := by omega
    rw [hs] at hlen
    exact hl (List.length_eq_zero_iff.mp (Nat.le_zero.mp hlen))
  have hsp := allocFrom_refines hn he l a fuel hm hx h0 (by omega)
  rw [hroot] at hsp
  cases hr : allocBlks n a l with
  | none =>
    rw [hr] at hsp
    exact .inl ⟨hsp, allocBlks_none hr⟩
  | some q =>
    obtain ⟨p, l'⟩ := q
    rw [hr] at hsp
    obtain ⟨m', hok, hm', -⟩ := hsp
    obtain ⟨l₁, b, l₂, rfl, hnf, hf, rfl, rfl⟩ := allocBlks_cases hr
    exact .inr ⟨l₁, b, l₂, m', rfl, hnf, hf, hok, hm'⟩

theorem qualifies_iff {n g : Word} (hn : n.toNat + 32 < 2 ^ 64) :
    Qualifies m n g ↔ Takes m n g := by
  have hsz : (n + headerSize).toNat = n.toNat + 32 := by
    rw [headerSize_eq, BitVec.toNat_add, adr_toNat (by decide), Nat.mod_eq_of_lt hn]
  rw [Qualifies, Takes, gt_iff_lt, BitVec.lt_def, hsz, ← BitVec.toNat_inj, or_comm]

theorem cut_hdrs (hb : HdrAt m e a b) (hm' : Blocks m' e a (cut n a b ++ l₂))
    (hf : b.fits n = true) (hx : a + 32 + b.len ≤ e) :
    isAlloc m' (adr a) ∧ length m' (adr a) = adr n ∧
      (¬ n + 32 < b.len → next m' (adr a) = next m (adr a)) ∧
      (n + 32 < b.len → next m' (adr a) = adr (a + 32 + n) ∧
        HdrAt m' e (a + 32 + n) ⟨headerMagic, b.len - n - 32, adr a⟩ ∧
        next m' (adr (a + 32 + n)) = next m (adr a)) := by
  unfold cut at hm'
  split at hm'
  · rename_i hs
    obtain ⟨hb', hr, -⟩ := hm'
    refine ⟨hb'.isAlloc.mpr ?_, hb'.length, fun h => absurd hs h, fun _ => ⟨?_, hr, ?_⟩⟩
    · exact b.mark_used
    · rw [hb'.next]
      exact if_neg (show a + 32 + n ≠ e by omega)
    · have hend : a + 32 + n + 32 + (b.len - n - 32) = a + 32 + b.len := by omega
      rw [hb.next]
      exact hr.next.trans (congrArg (link e) hend)
  · rename_i hs
    have hb' := hm'.1
    refine ⟨hb'.isAlloc.mpr b.mark_used, ?_, fun _ => ?_, fun h => absurd h hs⟩
    · rw [← fits_len hf hs]
      exact hb'.length
    · rw [hb'.next, hb.next, Blk.mark_len]

theorem visited_hdrs {h : Heap} (hroot : h.rootHeader = adr a) (h0 : 0 < a) (hm : Blocks m e a l)
    (hx : a + span l = e) (he : e < 2 ^ 64) (hl : l ≠ []) (g : Word) :
    Visited m h.rootHeader g ↔ ∃ x ∈ hdrs a l, g = adr x := by
  have hlt := (tiled_of_blocks hm hx he hl).lt
  have hne : h.rootHeader ≠ 0 := by
    rw [hroot]
    exact adr_ne_zero h0 (by omega)
  rw [Visited, and_iff_right hne, hroot, onChain_hdrs hm hx he hl]

theorem cut_others (hm : Blocks m e a (l₁ ++ b :: l₂))
    (hm' : Blocks m' e a (l₁ ++ (cut n (a + span l₁) b ++ l₂))) {x : Nat}
    (hx : x ∈ hdrs a (l₁ ++ b :: l₂)) (hne : x ≠ a + span l₁) :
    flags m' (adr x) = flags m (adr x) ∧ length m' (adr x) = length m (adr x) := by
  obtain ⟨hm₁, hmb⟩ := (blocks_append _ _ _).mp hm
  obtain ⟨hm₁', hmc⟩ := (blocks_append _ _ _).mp hm'
  have hl₂ := ((blocks_append _ _ _).mp hmc).2
  rw [span_cut, ← Nat.add_assoc] at hl₂
  rw [hdrs_append] at hx
  rcases List.mem_append.mp hx with hx | hx
  · exact hm₁.same_hdr hm₁' hx
  · rcases List.mem_cons.mp hx with rfl | hx
    · exact absurd rfl hne
    · exact hmb.2.same_hdr hl₂ hx

/-- Reading the outcome off the blocks. -/
theorem fitted_of {h : Heap} {n : Word} (hroot : h.rootHeader = adr a)
    (hend : h.m_base.toNat + h.m_size.toNat = e) (hbase : h.m_base.toNat = a) (h0 : 0 < a)
    (he : e < 2 ^ 64) (hn : n.toNat + 32 < 2 ^ 64) (hm : Blocks m e a (l₁ ++ b :: l₂))
    (hx : a + span (l₁ ++ b :: l₂) = e) (hnf : ∀ c ∈ l₁, c.fits n.toNat = false)
    (hf : b.fits n.toNat = true)
    (hm' : Blocks m' e a (l₁ ++ (cut n.toNat (a + span l₁) b ++ l₂))) :
    Fitted h m m' n (adr (a + span l₁)) := by
  have hx' : a + span (l₁ ++ (cut n.toNat (a + span l₁) b ++ l₂)) = e := by
    rw [← hx]
    simp only [span_append, span_cut, span]
  have hne' : l₁ ++ (cut n.toNat (a + span l₁) b ++ l₂) ≠ [] := by
    unfold cut
    split <;> simp
  have hx₀ := hx
  simp only [span_append, span] at hx₀
  have hb := blocks_at hm
  have hlen := length_toNat hb (by omega)
  have hff := firstFit_of hm hx he h0 hn hnf hf
  rw [adr_of_toNat] at hff
  have hvis := visited_hdrs hroot h0 hm hx he (by simp)
  have hvis' := visited_hdrs hroot h0 hm' hx' he hne'
  have hrest : adr (a + span l₁) + headerSize + n = adr (a + span l₁ + 32 + n.toNat) := by
    rw [headerSize_eq, adr_add, ← adr_of_toNat n, adr_add, adr_of_toNat]
  obtain ⟨hmark, hlen', hwhole, hsplit⟩ :=
    cut_hdrs hb ((blocks_append _ _ _).mp hm').2 hf (by omega)
  refine ⟨(hvis _).mpr ⟨_, ?_, rfl⟩, (qualifies_iff hn).mpr hff.takes, fun g' hg' hq => ?_, hmark,
    ?_, ?_, ?_, ?_, fun g' => ?_, fun g' hg' hne => ?_⟩
  · rw [hdrs_append]
    exact List.mem_append_right _ List.mem_cons_self
  · rw [Visited, hroot] at hg'
    exact hff.lowest (Nat.le_of_lt he) (tiled_of_blocks hm hx he (by simp)) hg'.2
      ((qualifies_iff hn).mp hq)
  · rw [hlen', adr_of_toNat]
  · rw [Splits, hlen]
    exact hwhole
  · rw [Splits, hlen, hrest]
    intro hs
    obtain ⟨h1, hr, h2⟩ := hsplit hs
    refine ⟨h1, hr.hasMagic, ?_, ?_, h2⟩
    · rw [hr.isAlloc, used_headerMagic]
      decide
    · exact length_toNat hr (show b.len - n.toNat - 32 < 2 ^ 64 by omega)
  · rw [hend, hbase]
    exact tiled_of_blocks hm' hx' he hne'
  · rw [hvis, hvis', Splits, hlen, hrest]
    constructor
    · rintro ⟨x, hx, rfl⟩
      exact (mem_hdrs_cut.mp hx).imp (fun h => ⟨x, h, rfl⟩) fun h => ⟨h.1, congrArg adr h.2⟩
    · rintro (⟨x, hx, rfl⟩ | ⟨hs, rfl⟩)
      · exact ⟨x, mem_hdrs_cut.mpr (.inl hx), rfl⟩
      · exact ⟨_, mem_hdrs_cut.mpr (.inr ⟨hs, rfl⟩), rfl⟩
  · obtain ⟨x, hx, rfl⟩ := (hvis _).mp hg'
    exact cut_others hm hm' hx fun h => hne (congrArg adr h)

end

/-- A heap at address 0 has a null root, and the walk sees no header. -/
theorem alloc_null {h : Heap} (h0 : h.m_base.toNat = 0) (m : Mem) (n : Word) :
    h.rootHeader = 0 ∧ ∀ fuel, 0 < fuel → h.alloc fuel m n = .ok (none, m) := by
  have hroot : h.rootHeader = 0 := BitVec.eq_of_toNat_eq h0
  refine ⟨hroot, fun fuel hf => ?_⟩
  obtain ⟨fuel, rfl⟩ : ∃ k, fuel = k + 1 := ⟨fuel - 1, by omega⟩
  rw [Heap.alloc, hroot, allocFrom, if_pos rfl]

/-- **An exact first fit.** On a chain that tiles the heap `alloc` ends, with
nothing exactly when no free block holds the request; then the heap is as it
was. Otherwise the lowest such block is taken (`Fitted`). -/
theorem alloc_exact {h : Heap} {m : Mem} {n : Word}
    (ht : Tiled m (h.m_base.toNat + h.m_size.toNat) h.m_base.toNat)
    (he : h.m_base.toNat + h.m_size.toNat < 2 ^ 64) (hn : n.toNat + 32 < 2 ^ 64) :
    ∃ r m', (∀ fuel, h.m_base.toNat + h.m_size.toNat < fuel → h.alloc fuel m n = .ok (r, m')) ∧
      (r = none ↔ ∀ g, Visited m h.rootHeader g → ¬ Qualifies m n g) ∧
      (r = none → m' = m) ∧
      ∀ p, r = some p → ∃ g, p = g + headerSize ∧ Fitted h m m' n g := by
  rcases Nat.eq_zero_or_pos h.m_base.toNat with h0 | h0
  · obtain ⟨hroot, hok⟩ := alloc_null h0 m n
    exact ⟨none, m, fun fuel hf => hok fuel (by omega), iff_of_true rfl fun g hg => absurd hroot hg.1,
      fun _ => rfl, fun p hp => by cases hp⟩
  · have hroot : h.rootHeader = adr h.m_base.toNat := (adr_of_toNat _).symm
    obtain ⟨l, hl, hm, hx⟩ := ht.blocks
    have hlist := alloc_list h0 he hn hm hx hl (Nat.lt_succ_self _)
    unfold Heap.alloc
    rw [hroot]
    rw [adr_of_toNat n] at hlist
    rcases hlist with ⟨hok, hnf⟩ | ⟨l₁, b, l₂, m', rfl, hnf, hf, hok, hm'⟩
    · refine ⟨none, m, fun fuel hfu => ?_, iff_of_true rfl fun g hg hq => ?_, fun _ => rfl,
        fun p hp => by cases hp⟩
      · exact (stable_allocFrom m n _).ok_le hfu hok
      · obtain ⟨l₁, b, l₂, rfl, rfl⟩ := (onChain_iff hm hx he hl).mp hg.2
        rw [qualifies_iff hn, ← adr_of_toNat n, takes_iff hm hx he hn] at hq
        rw [hnf b (List.mem_append_right _ List.mem_cons_self)] at hq
        cases hq
    · have hfit := fitted_of hroot rfl rfl h0 he hn hm hx hnf hf hm'
      have hvis := hfit.visited
      rw [hroot] at hvis
      refine ⟨_, m', fun fuel hfu => (stable_allocFrom m n _).ok_le hfu hok, ?_,
        fun hr => (by cases hr), fun p hp => ⟨_, ?_, hfit⟩⟩
      · exact iff_of_false (fun hr => by cases hr) fun hall => hall _ hvis hfit.qualifies
      · cases hp
        rw [headerSize_eq, adr_add]

theorem alloc_exact_fresh : ∃ p m', (∀ fuel, 0x2000 < fuel →
    fresh.heap.alloc fuel fresh.mem 16 = .ok (some p, m')) ∧
    ∃ g, p = g + headerSize ∧ Fitted fresh.heap fresh.mem m' 16 g := by
  obtain ⟨r, m', hok, hnone, -, hfit⟩ :=
    alloc_exact (h := fresh.heap) (n := 16) fresh_tiled (by decide) (by decide)
  have hq : Qualifies fresh.mem 16 0x1000 := by
    unfold Qualifies
    decide +kernel
  have hv : Visited fresh.mem fresh.heap.rootHeader 0x1000 := ⟨by decide, .root⟩
  cases r with
  | none => exact absurd hq (hnone.mp rfl _ hv)
  | some p => exact ⟨p, m', hok, hfit p rfl⟩

/-! ## Every size -/

/-- What a caller may expect of `alloc(size)`, whatever the size: a block it
gets was free, is large enough and lies in the heap; a request larger than
every free block gets none and changes nothing. -/
def Safe (h : Heap) (m : Mem) (size : Word) : Prop :=
  ∃ r m', (∀ fuel, h.m_base.toNat + h.m_size.toNat < fuel → h.alloc fuel m size = .ok (r, m')) ∧
    (∀ a, r = some a → (∃ g, Visited m h.rootHeader g ∧ ¬ isAlloc m g ∧ size ≤ length m g) ∧
      ∀ i < size.toNat, h.m_base.toNat ≤ a.toNat + i ∧
        a.toNat + i < h.m_base.toNat + h.m_size.toNat) ∧
    ((∀ g, Visited m h.rootHeader g → ¬ isAlloc m g → length m g < size) → r = none ∧ m' = m)

/-- `size + 32` does not wrap, or no free block is longer than the wrapped sum. -/
def NoWrap (h : Heap) (m : Mem) (size : Word) : Prop :=
  size.toNat + 32 < 2 ^ 64 ∨
    ∀ g, Visited m h.rootHeader g → ¬ isAlloc m g → (length m g).toNat ≤ size.toNat + 32 - 2 ^ 64

/-- **No request size defeats the fit test** exactly while `size + 32` does not
wrap, or wraps below the length of no free block. -/
theorem alloc_safe_iff {h : Heap} {m : Mem}
    (ht : Tiled m (h.m_base.toNat + h.m_size.toNat) h.m_base.toNat)
    (he : h.m_base.toNat + h.m_size.toNat ≤ 2 ^ 64) (size : Word) :
    Safe h m size ↔ NoWrap h m size := by
  have hsz : (size + headerSize).toNat = (size.toNat + 32) % 2 ^ 64 := BitVec.toNat_add _ _
  have h264 := size.isLt
  rcases Nat.eq_zero_or_pos h.m_base.toNat with h0 | h0
  · obtain ⟨hroot, hok⟩ := alloc_null h0 m size
    exact iff_of_true ⟨none, m, fun fuel hf => hok fuel (by omega), fun a ha => (by cases ha),
      fun _ => ⟨rfl, rfl⟩⟩ (.inr fun g hg => absurd hroot hg.1)
  have hroot : h.rootHeader = adr h.m_base.toNat := (adr_of_toNat _).symm
  have hlt := ht.lt
  have hne : h.rootHeader ≠ 0 := by
    rw [hroot]
    exact adr_ne_zero h0 (by omega)
  have hstable : Res.Stable (h.alloc · m size) := stable_allocFrom m size h.rootHeader
  rcases alloc_walk h0 he size ht (h.m_base.toNat + h.m_size.toNat + 1) (by omega) with
    ⟨g, m', hff, hok⟩ | ⟨hok, hnone⟩
  · -- a block passes the test
    have hg := hff.onChain .root
    obtain ⟨hu, hfit⟩ := hff.takes
    obtain ⟨x, rfl, hx, htx⟩ := ht.onChain hg
    have hxe := htx.end_le
    have hfit' : (size.toNat + 32) % 2 ^ 64 < (length m (adr x)).toNat ∨
        (length m (adr x)).toNat = size.toNat := by
      rw [← hsz]
      exact hfit.imp_right (congrArg BitVec.toNat)
    rw [← hroot] at hok hg
    change h.alloc _ m size = _ at hok
    constructor
    · rintro ⟨r, m₁, hok₁, hsome, -⟩
      have hr := hok₁ _ (Nat.lt_succ_self _)
      rw [hok] at hr
      cases hr
      obtain ⟨⟨g', hg', -, hle⟩, -⟩ := hsome _ rfl
      -- a block of the heap is no longer than 2^64 - 32 bytes
      rw [Visited, hroot] at hg'
      obtain ⟨y, rfl, hy, hty⟩ := ht.onChain hg'.2
      have hye := hty.end_le
      have hle' := BitVec.le_def.mp hle
      exact .inl (by omega)
    · intro hnw
      have hsmall : size.toNat + 32 < 2 ^ 64 := by
        rcases hnw with h | h
        · exact h
        · have := h _ ⟨hne, hg⟩ hu
          omega
      rw [Nat.mod_eq_of_lt hsmall] at hfit'
      have hge : size.toNat ≤ (length m (adr x)).toNat := by omega
      refine ⟨_, m', fun fuel hf => hstable.ok_le hf hok, fun a ha => ?_, fun hall => ?_⟩
      · refine ⟨⟨_, ⟨hne, hg⟩, hu, hge⟩, fun i hi => ?_⟩
        cases ha
        rw [headerSize_eq, adr_add, adr_toNat (by omega)]
        omega
      · have := BitVec.lt_def.mp (hall _ ⟨hne, hg⟩ hu)
        omega
  · rw [← hroot] at hok hnone
    change h.alloc _ m size = _ at hok
    refine iff_of_true ⟨none, m, fun fuel hf => hstable.ok_le hf hok, fun a ha => (by cases ha),
      fun _ => ⟨rfl, rfl⟩⟩ ?_
    by_cases hsmall : size.toNat + 32 < 2 ^ 64
    · exact .inl hsmall
    · refine .inr fun g hg hu => ?_
      by_contra hlong
      refine hnone g hg.2 ⟨hu, .inl ?_⟩
      rw [gt_iff_lt, BitVec.lt_def, hsz]
      omega

theorem alloc_safe_iff_fresh : Safe fresh.heap fresh.mem 4000 ↔ NoWrap fresh.heap fresh.mem 4000 :=
  alloc_safe_iff (h := fresh.heap) fresh_tiled (by decide) 4000

/-- **A request for 2^64 - 1 bytes** succeeds on a fresh heap of 4096 bytes. -/
theorem wrap_run : ¬ ∀ (h : Heap) (m : Mem),
    Tiled m (h.m_base.toNat + h.m_size.toNat) h.m_base.toNat →
    h.m_base.toNat + h.m_size.toNat ≤ 2 ^ 64 → ∀ size, Safe h m size := by
  intro hall
  obtain ⟨r, m', hok, hsome, -⟩ :=
    hall fresh.heap fresh.mem fresh_tiled (by decide) (BitVec.allOnes 64)
  have hm : hasMagic fresh.mem 0x1000 := by decide +kernel
  have ht : Takes fresh.mem (BitVec.allOnes 64) 0x1000 := by
    unfold Takes
    decide +kernel
  obtain ⟨m₁, hok₁⟩ := allocFrom_takes (by decide) hm ht 0x2000
  have hr := hok 0x2001 (by decide)
  rw [Heap.alloc, show fresh.heap.rootHeader = 0x1000 from rfl, hok₁] at hr
  cases hr
  obtain ⟨⟨g, hg, -, hle⟩, -⟩ := hsome _ rfl
  rw [fresh_onChain hg.2] at hle
  exact absurd hle (by decide +kernel)

end X64k.L1.Heap
