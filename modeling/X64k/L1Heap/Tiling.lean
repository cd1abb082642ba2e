import X64k.L1Heap.Exact

/-!
# Tiling and ownership

Whatever the `prev` links have become, the `next` links and the lengths stay
sound: `tiling` shows that in every state of every run the headers tile the
heap and the allocated ones are the live pointers, with the sizes asked for.

The one assumption is `NoForge`: a `prev` link that no longer names a header
of the chain does not name bytes that pass for one. The walk back of `free`
ends because every `prev` link points below its own header (`Lower`).
-/
namespace X64k.L1.Heap

open X64k.Core

/-- A `prev` link that names no header of the chain fails the magic test. -/
def NoForge (s : St) (_ : Op) : Prop :=
  ∀ h, OnChain s.mem s.heap.rootHeader h → prev s.mem h ≠ 0 →
    ¬ OnChain s.mem s.heap.rootHeader (prev s.mem h) → ¬ hasMagic s.mem (prev s.mem h)

/-- From `a` on, headers with the magic lie back to back up to `e`, each
`next` link naming the following one. -/
inductive Tiled (m : Mem) (e : Nat) : Nat → Prop where
  | last {a : Nat} : hasMagic m (adr a) → next m (adr a) = 0 →
      a + 32 + (length m (adr a)).toNat = e → Tiled m e a
  | step {a : Nat} : hasMagic m (adr a) →
      next m (adr a) = adr (a + 32 + (length m (adr a)).toNat) → next m (adr a) ≠ 0 →
      Tiled m e (a + 32 + (length m (adr a)).toNat) → Tiled m e a

/-- The live pointers are the payloads of the allocated headers of a chain
that tiles the heap. -/
structure Owned (base size : Word) (s : St) : Prop where
  tiled : Tiled s.mem (base.toNat + size.toNat) base.toNat
  live : ∀ p n, s.live p = some n ↔ OnChain s.mem base (p - headerSize) ∧
    isAlloc s.mem (p - headerSize) ∧ length s.mem (p - headerSize) = n
  disjoint : ∀ p n q k, s.live p = some n → s.live q = some k → p ≠ q →
    p.toNat + n.toNat ≤ q.toNat ∨ q.toNat + k.toNat ≤ p.toNat
  inside : ∀ p n, s.live p = some n →
    base.toNat + 32 ≤ p.toNat ∧ p.toNat + n.toNat ≤ base.toNat + size.toNat

section Tiled
variable {m : Mem} {e a : Nat} {l : List Blk}

theorem length_toNat {b : Blk} (h : HdrAt m e a b) (hlt : b.len < 2 ^ 64) :
    (length m (adr a)).toNat = b.len := by
  rw [h.length, adr_toNat hlt]

theorem tiled_of_blocks (hm : Blocks m e a l) (hx : a + span l = e) (he : e < 2 ^ 64)
    (hl : l ≠ []) : Tiled m e a := by
  induction l generalizing a with
  | nil => exact absurd rfl hl
  | cons b l ih =>
    obtain ⟨hb, hr⟩ := hm
    simp only [span] at hx
    have hlen := length_toNat hb (by omega)
    cases l with
    | nil =>
      simp only [span] at hx
      exact .last hb.hasMagic (hb.next.trans (if_pos (by omega))) (by omega)
    | cons c l =>
      simp only [span] at hx
      have hnx : next m (adr a) = adr (a + 32 + b.len) := hb.next.trans (if_neg (by omega))
      refine .step hb.hasMagic ?_ ?_ ?_
      · rw [hlen]; exact hnx
      · rw [hnx]; exact adr_ne_zero (by omega) (by omega)
      · rw [hlen]; exact ih hr (by simp only [span]; omega) (by simp)

end Tiled

section Loose
variable {base size : Word} {s s' : St} {op : Op} {l : List Blk}

theorem sub_headerSize (a : Nat) : adr (a + 32) - headerSize = adr a := by
  rw [headerSize_eq, ← adr_add a 32, BitVec.add_sub_cancel]

theorem Shape.live_iff (hs : Shape base size s l) (hlt : base.toNat + size.toNat < 2 ^ 64)
    (p n : Word) : s.live p = some n ↔ OnChain s.mem base (p - headerSize) ∧
      isAlloc s.mem (p - headerSize) ∧ length s.mem (p - headerSize) = n := by
  have htl := hs.tiles
  have hon := @onChain_iff _ _ _ _ hs.blocks hs.tiles hlt hs.nonempty (p - headerSize)
  rw [adr_of_toNat] at hon
  constructor
  · intro hp
    obtain ⟨-, l₁, b, l₂, rfl, hu, rfl, hn⟩ := hs.live_block hp
    rw [sub_headerSize] at hon ⊢
    refine ⟨hon.mpr ⟨l₁, b, l₂, rfl, rfl⟩, (blocks_at hs.blocks).isAlloc.mpr hu, ?_⟩
    rw [(blocks_at hs.blocks).length, ← hn, adr_of_toNat]
  · rintro ⟨h1, h2, h3⟩
    obtain ⟨l₁, b, l₂, rfl, hp⟩ := hon.mp h1
    rw [hp] at h2 h3
    have hb := blocks_at hs.blocks
    simp only [span_append, span] at htl
    have hpq : p.toNat = base.toNat + span l₁ + 32 := by
      have : p = adr (base.toNat + span l₁ + 32) := by
        rw [← adr_add, ← hp]; exact (BitVec.sub_add_cancel p headerSize).symm
      rw [this, adr_toNat (by omega)]
    rw [hs.live, mem_usedOf]
    exact ⟨l₁, b, l₂, rfl, hb.isAlloc.mp h2, hpq, by rw [← h3, length_toNat hb (by omega)]⟩

theorem Shape.owned (hs : Shape base size s l) (hlt : base.toNat + size.toNat < 2 ^ 64) :
    Owned base size s where
  tiled := tiled_of_blocks hs.blocks hs.tiles hlt hs.nonempty
  live := hs.live_iff hlt
  disjoint p n q k hp hq hne := by
    rcases usedOf_disjoint ((hs.live p n).mp hp) ((hs.live q k).mp hq) with h | h | h
    · exact absurd (BitVec.eq_of_toNat_eq (congrArg Prod.fst h)) hne
    · exact .inl (by omega)
    · exact .inr (by omega)
  inside p n hp := by
    have := usedOf_bounds ((hs.live p n).mp hp)
    have := hs.tiles
    omega

/-- `freeChecked` with the size asked for is `free`. -/
theorem Shape.freeChecked (hs : Shape base size s l) {p n : Word} (hp : s.live p = some n)
    (fuel : Nat) : freeChecked fuel s.mem p n = free fuel s.mem p := by
  obtain ⟨-, l₁, b, l₂, rfl, -, rfl, hn⟩ := hs.live_block hp
  have hb := blocks_at hs.blocks
  have hlen : n = length s.mem (adr (base.toNat + span l₁)) := by
    rw [hb.length, ← hn, adr_of_toNat]
  rw [Heap.freeChecked, sub_headerSize, Res.assert_of hb.hasMagic, Res.ok_bind, Res.assert_of hlen,
    Res.ok_bind]

theorem Shape.staleFails (hs : Shape base size s l) (hlt : base.toNat + size.toNat < 2 ^ 64)
    (hn : NoForge s op) : StaleFails s.mem base.toNat l := by
  intro b hb h0 hh
  rw [NoForge, hs.rootHeader, ← adr_of_toNat base] at hn
  have hon := @onChain_iff _ _ _ _ hs.blocks hs.tiles hlt hs.nonempty
  obtain ⟨l₁, l₂, hl⟩ := List.append_of_mem hb
  have hbk : HdrAt s.mem _ (base.toNat + span l₁) b := blocks_at (hl ▸ hs.blocks)
  rw [← hbk.prev] at h0 hh ⊢
  refine hn _ (hon.mpr ⟨l₁, b, l₂, hl, rfl⟩) h0 fun hc => ?_
  obtain ⟨k₁, c, k₂, hk, hp⟩ := hon.mp hc
  exact hh _ (mem_hdrs.mpr ⟨k₁, c, k₂, hk, rfl⟩) hp

/-- The invariant that stale links leave standing. -/
def Loose (base size : Word) (s : St) : Prop :=
  ∃ l, Shape base size s l ∧ Lower base.toNat l

theorem loose_init (hsz : 32 ≤ size.toNat) (hlt : base.toNat + size.toNat < 2 ^ 64)
    (h : (lts base size).init s) : Loose base size s :=
  ⟨_, .init hsz hlt h, .inl rfl, trivial⟩

/-- A call ends, and if it succeeds the invariant holds again. -/
theorem Loose.step (hlt : base.toNat + size.toNat < 2 ^ 64) (h : Loose base size s)
    (hv : Valid s op) (hn : NoForge s op) {fuel : Nat} (hf : base.toNat + size.toNat < fuel) :
    exec fuel s op ≠ .error .loop ∧ ∀ s', exec fuel s op = .ok s' → Loose base size s' := by
  obtain ⟨l, hs, hlow⟩ := h
  cases op with
  | alloc n =>
    rcases hs.alloc hlt hv hf with ⟨h, -⟩ | ⟨p, l', t, -, hr, hex, ht⟩
    · exact Res.ends_of_ok h ⟨l, hs, hlow⟩
    · exact Res.ends_of_ok hex ⟨l', ht, hlow.allocBlks hr⟩
  | free p =>
    obtain ⟨n, hp⟩ := Option.ne_none_iff_exists'.mp hv
    have hst := hs.staleFails hlt hn
    obtain ⟨h0, l₁, b, l₂, rfl, hu, rfl, -⟩ := hs.live_block hp
    rcases free_cases hs.blocks hs.tiles hlt hu hlow hst hf with
      ⟨msg, he⟩ | ⟨k₁, c, k₂, m', hk, hc, he, hm', -⟩
    · exact Res.ends_of_error (by rw [exec, he, Res.error_bind]) (fun h => by cases h)
    · refine Res.ends_of_ok (by rw [exec, he, Res.ok_bind]) ?_
      have hlc := hlow.clear
      have hspan : span (l₁ ++ b.clear :: l₂) = span (l₁ ++ b :: l₂) := span_clear
      rw [hk] at hlc hspan
      refine ⟨_, hs.freed hlt h0 hu hm' ?_ ?_, ?_⟩
      · rw [span_append, span_mergeForward, ← span_append, hspan]; exact hs.tiles
      · rw [hk, usedOf_append, usedOf_append, usedOf_mergeForward _ hc]
      · rw [lower_append] at hlc ⊢
        exact ⟨hlc.1, hlc.2.mergeForward⟩
  | poke p i v =>
    obtain ⟨t, h1, h2, -⟩ := hs.poke fuel hlt hv
    exact Res.ends_of_ok h1 ⟨l, h2, hlow⟩

theorem loose_inductive (hsz : 32 ≤ size.toNat) (hlt : base.toNat + size.toNat < 2 ^ 64) :
    ((lts base size).guard NoForge).Inductive (Loose base size) where
  init _ h := loose_init hsz hlt h
  step s op s' h := by
    rintro ⟨⟨hv, fuel, hex⟩, hn⟩
    obtain ⟨k, hk, hex⟩ := exec_large hex (base.toNat + size.toNat + 1)
    exact (h.step hlt hv hn (show _ < k by omega)).2 s' hex

end Loose

/-- **Tiling and ownership.** In every state of a run without forged headers
the chain tiles the heap and its allocated headers are the live pointers;
`freeChecked` with the size asked for passes its size assertion, and the next
call ends. -/
theorem tiling {base size : Word} (hsz : 32 ≤ size.toNat)
    (hlt : base.toNat + size.toNat < 2 ^ 64) {s : St}
    (hr : ((lts base size).guard NoForge).Reachable s) :
    Owned base size s ∧
    (∀ p n fuel, s.live p = some n → freeChecked fuel s.mem p n = free fuel s.mem p) ∧
    ∀ op, Valid s op → NoForge s op → ∃ N, ∀ fuel, N ≤ fuel → exec fuel s op ≠ .error .loop := by
  have hl := (loose_inductive hsz hlt).reachable s hr
  obtain ⟨l, hs, -⟩ := id hl
  refine ⟨hs.owned hlt, fun p n fuel hp => hs.freeChecked hp fuel, fun op hv hn => ?_⟩
  exact ⟨base.toNat + size.toNat + 1, fun fuel hf => (hl.step hlt hv hn (by omega)).1⟩

theorem fresh_noForge (op : Op) : NoForge fresh op := by
  intro h hc h0
  rw [fresh_onChain hc] at h0
  exact absurd (by decide +kernel) h0

theorem tiling_fresh : ∃ s, s.live 0x1020 = some 16 ∧ Owned 0x1000 0x1000 s ∧
    (∀ p n fuel, s.live p = some n → freeChecked fuel s.mem p n = free fuel s.mem p) ∧
    ∀ op, Valid s op → NoForge s op → ∃ N, ∀ fuel, N ≤ fuel → exec fuel s op ≠ .error .loop := by
  obtain ⟨s, hst, hl⟩ := fresh_alloc
  exact ⟨s, hl, tiling (by decide) (by decide)
    ⟨fresh, [.alloc 16], fresh_init, .cons ⟨hst, fresh_noForge _⟩ (.nil _)⟩⟩

end X64k.L1.Heap
