import X64k.L1Heap.Lists

/-!
# What `free` does

`free` clears the block's flag, goes back over `prev` links while they name
free blocks, and absorbs forward from where it stops.

* `free_cases`: on a heap whose `prev` links may be stale, `free` of an
  allocated block ends, either in a failed assertion or with the free blocks
  behind some free header absorbed. It needs that a stale link does not show
  the magic by accident.
* `free_linked`: on a heap whose links are exact and which has no two free
  neighbours, `free` always succeeds and the new heap is such a heap again.
-/
namespace X64k.L1.Heap

open X64k.Core

/-! ## Clearing the flag -/

theorem clear_hdr {m : Mem} {e a : Nat} {b : Blk} (hb : HdrAt m e a b) (ha : a + 32 ≤ 2 ^ 64) :
    HdrAt (setFlags m (adr a) (flags m (adr a) &&& ~~~HF_ALLOC)) e a b.clear := by
  rw [hb.flags]
  exact setFlags_hdr hb (magic_and_not hb.magic) ha

theorem clear_blocks {m : Mem} {e a : Nat} {b : Blk} {l₁ l₂ : List Blk}
    (h : Blocks m e a (l₁ ++ b :: l₂)) (hx : a + span (l₁ ++ b :: l₂) = e) (he : e < 2 ^ 64) :
    Blocks (setFlags m (adr (a + span l₁)) (flags m (adr (a + span l₁)) &&& ~~~HF_ALLOC)) e a
      (l₁ ++ b.clear :: l₂) := by
  simp only [span_append, span] at hx
  rw [blocks_append] at h ⊢
  obtain ⟨h1, hb, h2⟩ := h
  exact ⟨h1.transport (eqOn_setFlags (by omega) (by omega) (by omega)), clear_hdr hb (by omega),
    h2.transport (eqOn_setFlags (by omega) (by omega) (by omega))⟩

/-- A word that has all the bits of `x` passes every mask test `x` passes. -/
theorem and_eq_of_and_eq {x y k : Word} (h : x &&& y = x) (hk : x &&& k = k) : y &&& k = k := by
  calc y &&& k = y &&& (x &&& k) := by rw [hk]
    _ = (x &&& y) &&& k := by ac_rfl
    _ = k := by rw [h, hk]

/-- Clearing a flag creates no magic anywhere, not even at an address that
overlaps the cleared word. -/
theorem hasMagic_of_clear {m : Mem} {h q : Word}
    (hq : hasMagic (setFlags m h (flags m h &&& ~~~HF_ALLOC)) q) : hasMagic m q := by
  have hoff : Mem.BitsOff m (setFlags m h (flags m h &&& ~~~HF_ALLOC)) := by
    apply Mem.bitsOff_store64
    show flags m h &&& ~~~HF_ALLOC &&& flags m h = flags m h &&& ~~~HF_ALLOC
    rw [BitVec.and_comm, ← BitVec.and_assoc, BitVec.and_self]
  exact and_eq_of_and_eq (hoff.load64 q) hq

/-! ## Going back -/

section Back
variable {m : Mem} {e a : Nat} {l : List Blk}

/-- No stale `prev` link names a place that shows the magic. -/
def StaleFails (m : Mem) (a : Nat) (l : List Blk) : Prop :=
  ∀ b ∈ l, b.prev ≠ 0 → (∀ h ∈ hdrs a l, b.prev ≠ adr h) → ¬ hasMagic m b.prev

theorem blocks_at {l₁ l₂ : List Blk} {b : Blk} (h : Blocks m e a (l₁ ++ b :: l₂)) :
    HdrAt m e (a + span l₁) b := ((blocks_append l₁ (b :: l₂) a).mp h).2.1

/-- Going back from a free header fails an assertion or stops at a free
header of the chain. The links point down, so the walk ends. -/
theorem freeBack_cases (hm : Blocks m e a l) (hx : a + span l = e) (he : e < 2 ^ 64)
    (hlow : Lower a l) (hst : StaleFails m a l) :
    ∀ (fuel : Nat) (l₁ : List Blk) (b : Blk) (l₂ : List Blk), l = l₁ ++ b :: l₂ → b.used = false →
      a + span l₁ < fuel →
      (∃ msg, freeBack m fuel (adr (a + span l₁)) = .error (.assertFail msg)) ∨
      ∃ k₁ c k₂, l = k₁ ++ c :: k₂ ∧ c.used = false ∧
        freeBack m fuel (adr (a + span l₁)) = .ok (adr (a + span k₁)) := by
  intro fuel
  induction fuel with
  | zero => intro l₁ b l₂ _ _ hf; exact absurd hf (Nat.not_lt_zero _)
  | succ fuel ih =>
    intro l₁ b l₂ hl hb hf
    subst hl
    have hh := blocks_at hm
    have hmem : b ∈ l₁ ++ b :: l₂ := by simp
    rw [freeBack, hh.prev]
    by_cases h0 : b.prev = 0
    · exact .inr ⟨l₁, b, l₂, rfl, hb, if_pos h0⟩
    rw [if_neg h0]
    by_cases hhd : ∀ h ∈ hdrs a (l₁ ++ b :: l₂), b.prev ≠ adr h
    · rw [Res.assert_not (hst b hmem h0 hhd)]
      exact .inl ⟨_, rfl⟩
    simp only [not_forall, not_not] at hhd
    obtain ⟨h, hh', hp⟩ := hhd
    obtain ⟨k₁, c, k₂, hk, rfl⟩ := mem_hdrs.mp hh'
    have hc : HdrAt m e (a + span k₁) c := blocks_at (hk ▸ hm)
    have hbd := hdrs_bounds hh'
    rw [hp, Res.assert_of hc.hasMagic, Res.ok_bind]
    by_cases hu : c.used = true
    · rw [if_pos (hc.isAlloc.mpr hu)]
      exact .inr ⟨l₁, b, l₂, rfl, hb, rfl⟩
    · rw [if_neg (mt hc.isAlloc.mp hu)]
      have hlt : a + span k₁ < a + span l₁ := by
        have hlo := ((lower_append _ _ _).mp hlow).2.1
        rcases hlo with h | h
        · exact absurd h h0
        · rwa [hp, adr_toNat (by omega)] at h
      exact ih k₁ c k₂ hk (by simpa using hu) (by omega)

/-- From a block whose `prev` link is exact, going back stays where it is if
the block before is allocated. -/
theorem freeBack_stay {l₁ l₂ : List Blk} {b : Blk} (hm : Blocks m e a (l₁ ++ b :: l₂))
    (hp : b.prev = lastAdr 0 a l₁) (hu : ∀ c ∈ l₁.getLast?, c.used = true) (h0 : 0 < a)
    (hx : a + span (l₁ ++ b :: l₂) = e) (he : e < 2 ^ 64) (fuel : Nat) :
    freeBack m (fuel + 1) (adr (a + span l₁)) = .ok (adr (a + span l₁)) := by
  have hb := blocks_at hm
  rw [freeBack, hb.prev, hp]
  rcases List.eq_nil_or_concat l₁ with rfl | ⟨k, c, rfl⟩
  · exact if_pos rfl
  · rw [List.concat_eq_append] at *
    have hm' : Blocks m e a (k ++ c :: (b :: l₂)) := by simpa using hm
    have hc := blocks_at hm'
    simp only [span_append, span] at hx
    rw [lastAdr_append, if_neg (adr_ne_zero (by omega) (by omega)), Res.assert_of hc.hasMagic,
      Res.ok_bind, if_pos (hc.isAlloc.mpr (hu c (by simp)))]

/-- With exact links, it goes on to the block before if that is free. -/
theorem freeBack_step {k l₂ : List Blk} {c b : Blk} (hm : Blocks m e a (k ++ c :: b :: l₂))
    (hlk : Linked 0 a (k ++ c :: b :: l₂)) (hc : c.used = false)
    (hu : ∀ d ∈ k.getLast?, d.used = true) (h0 : 0 < a) (hx : a + span (k ++ c :: b :: l₂) = e)
    (he : e < 2 ^ 64) (fuel : Nat) :
    freeBack m (fuel + 2) (adr (a + span (k ++ [c]))) = .ok (adr (a + span k)) := by
  have hm' : Blocks m e a ((k ++ [c]) ++ b :: l₂) := by simpa using hm
  have hlk' : Linked 0 a ((k ++ [c]) ++ b :: l₂) := by simpa using hlk
  have hb := blocks_at hm'
  have hcc := blocks_at hm
  have hp := ((linked_append _ _ _ _).mp hlk').2.1
  have hst := freeBack_stay hm ((linked_append _ _ _ _).mp hlk).2.1 hu h0 hx he fuel
  simp only [span_append, span] at hx
  rw [freeBack, hb.prev, hp, lastAdr_append, if_neg (adr_ne_zero (by omega) (by omega)),
    Res.assert_of hcc.hasMagic, Res.ok_bind, if_neg (by rw [hcc.isAlloc, hc]; decide), hst]

end Back

/-! ## `free` as a whole -/

section Free
variable {m : Mem} {e a : Nat} {b : Blk} {l₁ l₂ : List Blk}

/-- `free` of an allocated block passes its own checks. -/
theorem free_live (hm : Blocks m e a (l₁ ++ b :: l₂)) (hu : b.used = true) (fuel : Nat) :
    free fuel m (adr (a + span l₁ + 32)) =
      (freeBack (setFlags m (adr (a + span l₁)) (flags m (adr (a + span l₁)) &&& ~~~HF_ALLOC)) fuel
        (adr (a + span l₁)) >>= freeForward fuel
          (setFlags m (adr (a + span l₁)) (flags m (adr (a + span l₁)) &&& ~~~HF_ALLOC))) := by
  have hb := blocks_at hm
  have hp : adr (a + span l₁ + 32) - headerSize = adr (a + span l₁) := by
    rw [headerSize_eq, ← adr_add (a + span l₁) 32, BitVec.add_sub_cancel]
  rw [free, hp, Res.assert_of hb.hasMagic, Res.ok_bind,
    if_neg (not_not_intro (hb.isAlloc.mpr hu))]

/-- The absorption from a free header of the chain, as a step of the whole
heap. -/
theorem freeForward_at {c : Blk} {k₁ k₂ : List Blk} (hm : Blocks m e a (k₁ ++ c :: k₂))
    (hx : a + span (k₁ ++ c :: k₂) = e) (he : e < 2 ^ 64) {fuel : Nat} (hf : k₂.length < fuel) :
    ∃ m', freeForward fuel m (adr (a + span k₁)) = .ok m' ∧
      Blocks m' e a (k₁ ++ mergeForward (a + span k₁) c false k₂) ∧ WithinHeap m m' a e := by
  simp only [span_append, span] at hx
  rw [blocks_append] at hm
  obtain ⟨m', h1, h2, h3⟩ := freeForward_refines he k₂ m (a + span k₁) c false fuel
    (by simpa using hm.2) (by omega) hf
  refine ⟨m', h1, ?_, h3.mono (by omega)⟩
  rw [blocks_append]
  exact ⟨hm.1.transport (h3.1.mono (by omega) (by omega)), h2⟩

theorem withinHeap_clear (hx : a + span (l₁ ++ b :: l₂) = e) (he : e < 2 ^ 64) :
    WithinHeap m (setFlags m (adr (a + span l₁)) (flags m (adr (a + span l₁)) &&& ~~~HF_ALLOC))
      a e := by
  simp only [span_append, span] at hx
  exact ⟨eqOn_setFlags (by omega) (by omega) (by omega),
    eqOn_setFlags (by omega) (by omega) (by omega)⟩

theorem hdrs_clear : hdrs a (l₁ ++ b.clear :: l₂) = hdrs a (l₁ ++ b :: l₂) := by
  simp [hdrs_append, hdrs]

theorem span_clear : span (l₁ ++ b.clear :: l₂) = span (l₁ ++ b :: l₂) := by
  simp [span]

theorem length_le_span {l : List Blk} : l.length ≤ span l := by
  induction l with
  | nil => simp
  | cons b l ih => simp only [List.length_cons, span]; omega

theorem StaleFails.clear (h : StaleFails m a (l₁ ++ b :: l₂)) (x : Word) :
    StaleFails (setFlags m x (flags m x &&& ~~~HF_ALLOC)) a (l₁ ++ b.clear :: l₂) := by
  intro c hc h0 hh hmag
  rw [hdrs_clear] at hh
  rcases List.mem_append.mp hc with hc | hc
  · exact h c (List.mem_append.mpr (.inl hc)) h0 hh (hasMagic_of_clear hmag)
  · rcases List.mem_cons.mp hc with rfl | hc
    · exact h b (by simp) h0 hh (hasMagic_of_clear hmag)
    · exact h c (by simp [hc]) h0 hh (hasMagic_of_clear hmag)

/-- **`free` with links that may be stale.** -/
theorem free_cases (hm : Blocks m e a (l₁ ++ b :: l₂)) (hx : a + span (l₁ ++ b :: l₂) = e)
    (he : e < 2 ^ 64) (hu : b.used = true) (hlow : Lower a (l₁ ++ b :: l₂))
    (hst : StaleFails m a (l₁ ++ b :: l₂)) {fuel : Nat} (hf : e < fuel) :
    (∃ msg, free fuel m (adr (a + span l₁ + 32)) = .error (.assertFail msg)) ∨
    ∃ k₁ c k₂ m', l₁ ++ b.clear :: l₂ = k₁ ++ c :: k₂ ∧ c.used = false ∧
      free fuel m (adr (a + span l₁ + 32)) = .ok m' ∧
      Blocks m' e a (k₁ ++ mergeForward (a + span k₁) c false k₂) ∧ WithinHeap m m' a e := by
  have hm' := clear_blocks hm hx he
  have hwh := withinHeap_clear (m := m) hx he
  have hst' := hst.clear (adr (a + span l₁))
  have hx' : a + span (l₁ ++ b.clear :: l₂) = e := by rw [span_clear]; exact hx
  rw [free_live hm hu fuel]
  generalize setFlags m (adr (a + span l₁)) (flags m (adr (a + span l₁)) &&& ~~~HF_ALLOC) = m₁ at *
  have hlt : a + span l₁ < fuel := by simp only [span_append, span] at hx; omega
  rcases freeBack_cases hm' hx' he hlow.clear hst' fuel l₁ b.clear l₂ rfl b.clear_used hlt with
    ⟨msg, h⟩ | ⟨k₁, c, k₂, hk, hc, h⟩
  · rw [h]; exact .inl ⟨msg, rfl⟩
  · rw [h, Res.ok_bind]
    rw [hk] at hm' hx'
    have hlen : k₂.length < fuel := by
      have := length_le_span (l := k₂)
      simp only [span_append, span] at hx'; omega
    obtain ⟨m', h1, h2, h3⟩ := freeForward_at hm' hx' he hlen
    exact .inr ⟨k₁, c, k₂, m', hk, hc, h1, h2, hwh.trans h3⟩

/-- **`free` with exact links.** -/
theorem free_linked (hm : Blocks m e a (l₁ ++ b :: l₂)) (hx : a + span (l₁ ++ b :: l₂) = e)
    (he : e < 2 ^ 64) (h0 : 0 < a) (hu : b.used = true) (hlk : Linked 0 a (l₁ ++ b :: l₂))
    (hco : Coalesced (l₁ ++ b :: l₂)) {fuel : Nat} (hf : e < fuel) :
    ∃ m' l', free fuel m (adr (a + span l₁ + 32)) = .ok m' ∧ Blocks m' e a l' ∧ a + span l' = e ∧
      Linked 0 a l' ∧ Coalesced l' ∧ usedOf a l' = usedOf a (l₁ ++ b.clear :: l₂) ∧
      WithinHeap m m' a e := by
  have hm' := clear_blocks hm hx he
  have hwh := withinHeap_clear (m := m) hx he
  have hx' : a + span (l₁ ++ b.clear :: l₂) = e := by rw [span_clear]; exact hx
  rw [free_live hm hu fuel]
  generalize setFlags m (adr (a + span l₁)) (flags m (adr (a + span l₁)) &&& ~~~HF_ALLOC) = m₁ at *
  have hlk' := hlk.clear
  obtain ⟨hc1, hc2, hc3⟩ := coalesced_append.mp hco
  have hc2' := (coalesced_cons.mp hc2).1
  obtain ⟨fuel, rfl⟩ : ∃ k, fuel = k + 2 := ⟨fuel - 2, by
    simp only [span_append, span] at hx; omega⟩
  by_cases hlast : ∀ c ∈ l₁.getLast?, c.used = true
  · -- the block before is allocated: absorb from the block itself
    rw [freeBack_stay hm' ((linked_append _ _ _ _).mp hlk').2.1 hlast h0 hx' he (fuel + 1),
      Res.ok_bind]
    obtain ⟨m', h1, h2, h3⟩ := freeForward_at hm' hx' he (show _ < fuel + 2 by
      have := length_le_span (l := l₂)
      simp only [span_append, span] at hx'; omega)
    obtain ⟨g1, g2⟩ := coalesced_mergeForward (a + span l₁) b.clear_used false hc2'
    refine ⟨m', _, h1, h2, ?_, ?_, ?_, ?_, hwh.trans h3⟩
    · rw [span_append, span_mergeForward, ← span_append]; exact hx'
    · rw [linked_append] at hlk' ⊢
      exact ⟨hlk'.1, hlk'.2.mergeForward⟩
    · rw [coalesced_append]
      exact ⟨hc1, g1, fun c hc _ _ => .inl (hlast c hc)⟩
    · rw [usedOf_append, usedOf_append, usedOf_mergeForward _ b.clear_used]
  · -- the block before is free, and the one before that is not
    rcases List.eq_nil_or_concat l₁ with rfl | ⟨k, c, rfl⟩
    · simp at hlast
    rw [List.concat_eq_append] at *
    have hcu : c.used = false := by simpa using hlast
    rw [List.append_assoc, List.singleton_append] at hm' hx' hlk'
    obtain ⟨hk1, -, hk3⟩ := coalesced_append.mp hc1
    have hku : ∀ d ∈ k.getLast?, d.used = true := by
      intro d hd
      simpa [hcu] using hk3 d hd c (by simp)
    rw [freeBack_step hm' hlk' hcu hku h0 hx' he fuel, Res.ok_bind]
    obtain ⟨m', h1, h2, h3⟩ := freeForward_at hm' hx' he (show _ < fuel + 2 by
      have := length_le_span (l := b.clear :: l₂)
      simp only [span_append, span] at hx' this ⊢; omega)
    have hmf : mergeForward (a + span k) c false (b.clear :: l₂) =
        mergeForward (a + span k) (c.resize (c.len + 32 + b.clear.len)) true l₂ := by
      simp [mergeForward]
    obtain ⟨g1, g2⟩ := coalesced_mergeForward (a + span k)
      (b := c.resize (c.len + 32 + b.clear.len)) hcu true hc2'
    refine ⟨m', _, h1, h2, ?_, ?_, ?_, ?_, hwh.trans h3⟩
    · rw [span_append, span_mergeForward, ← span_append]; exact hx'
    · rw [linked_append] at hlk' ⊢
      exact ⟨hlk'.1, hlk'.2.mergeForward⟩
    · rw [coalesced_append, hmf]
      exact ⟨hk1, g1, fun d hd _ _ => .inl (hku d hd)⟩
    · rw [List.append_assoc, List.singleton_append, usedOf_append, usedOf_append,
        usedOf_mergeForward _ hcu]

end Free

end X64k.L1.Heap
