import X64k.L1Heap.Run

/-!
# Exact links: when the heap never panics

`split` gives the rest of the block a header but does not point the block
behind it back to that header: its `prev` link goes on naming the first half.
The fault stays silent while the block that is split is the last one.

* `no_panic`: in a run whose `alloc` calls split the last block only, no call
  fails an assertion or panics, and every call succeeds.
* `links_intact_iff`: in any run, the links stay exact and no two neighbours
  are free after every step exactly when no `alloc` splits a block with one
  behind it.
* `panic_run`, `stale_run`: runs that split a recycled hole.
-/
namespace X64k.L1.Heap

open X64k.Core

/-- If `alloc` splits a block, that block is the last one. -/
def SplitsLast (s : St) : Op → Prop
  | .alloc n => ∀ h, FirstFit s.mem n s.heap.rootHeader h →
      length s.mem h > n + headerSize → next s.mem h = 0
  | .free _ => True
  | .poke .. => True

/-- The links of the heap are exact, and no two neighbours are free. -/
def Intact (s : St) : Prop :=
  PrevInverse s.mem s.heap.rootHeader ∧ NoFreeNeighbours s.mem s.heap.rootHeader

/-- The invariant: `Intact`, on the block list. -/
def Exact (base size : Word) (s : St) : Prop :=
  ∃ l, Shape base size s l ∧ Linked 0 base.toNat l ∧ Coalesced l

section Exact
variable {base size : Word} {s s' : St} {op : Op}

theorem exact_init (hsz : 32 ≤ size.toNat) (hlt : base.toNat + size.toNat < 2 ^ 64)
    (h : (lts base size).init s) : Exact base size s :=
  ⟨_, .init hsz hlt h, ⟨rfl, trivial⟩, List.isChain_singleton _⟩

theorem Exact.intact (hlt : base.toNat + size.toNat < 2 ^ 64) (h : Exact base size s) :
    Intact s := by
  obtain ⟨l, hs, hl, hc⟩ := h
  rw [Intact, hs.rootHeader, ← adr_of_toNat base]
  exact ⟨(prevInverse_iff hs.blocks hs.tiles hlt hs.nonempty).mpr hl,
    noFreeNeighbours_of hs.blocks hs.tiles hlt hs.nonempty hc⟩

/-- The block that `alloc(n)` cuts is the first fit that the memory shows. -/
theorem Shape.firstFit {l l' : List Blk} {p : Nat} {n : Word} (hs : Shape base size s l)
    (hlt : base.toNat + size.toNat < 2 ^ 64) (hn : n.toNat + 32 < 2 ^ 64) (h0 : 0 < base.toNat)
    (h : allocBlks n.toNat base.toNat l = some (p, l')) :
    ∃ l₁ b l₂, l = l₁ ++ b :: l₂ ∧ b.fits n.toNat = true ∧
      l' = l₁ ++ (cut n.toNat (base.toNat + span l₁) b ++ l₂) ∧
      FirstFit s.mem n s.heap.rootHeader (adr (base.toNat + span l₁)) ∧
      (length s.mem (adr (base.toNat + span l₁)) > n + headerSize ↔ n.toNat + 32 < b.len) ∧
      (next s.mem (adr (base.toNat + span l₁)) = 0 ↔ l₂ = []) := by
  obtain ⟨l₁, b, l₂, rfl, hnf, hf, -, hl'⟩ := allocBlks_cases h
  have htl := hs.tiles
  refine ⟨l₁, b, l₂, rfl, hf, hl', ?_, ?_, next_eq_zero hs.blocks hs.tiles hlt⟩
  · rw [hs.rootHeader]
    have := firstFit_of hs.blocks hs.tiles hlt h0 hn hnf hf
    rwa [adr_of_toNat, adr_of_toNat] at this
  · simp only [span_append, span] at htl
    have hsz : n + headerSize = adr (n.toNat + 32) := by
      rw [← adr_add, adr_of_toNat]; rfl
    rw [(blocks_at hs.blocks).length, hsz, gt_iff_lt, adr_lt_iff hn (by omega)]

theorem Shape.no_firstFit {l : List Blk} {n g : Word} (hs : Shape base size s l)
    (hlt : base.toNat + size.toNat < 2 ^ 64) (hn : n.toNat + 32 < 2 ^ 64)
    (h : base.toNat = 0 ∨ allocBlks n.toNat base.toNat l = none) :
    ¬ FirstFit s.mem n s.heap.rootHeader g := by
  intro hg
  rw [hs.rootHeader] at hg
  rcases h with h | h
  · exact hg.ne_zero (BitVec.eq_of_toNat_eq h)
  · rw [← adr_of_toNat base] at hg
    obtain ⟨l₁, b, l₂, rfl, rfl⟩ :=
      (onChain_iff hs.blocks hs.tiles hlt hs.nonempty).mp (hg.onChain .root)
    have ht := hg.takes
    rw [← adr_of_toNat n, takes_iff hs.blocks hs.tiles hlt hn] at ht
    rw [allocBlks_none h b (by simp)] at ht
    cases ht

/-- Every call succeeds on a heap whose links are exact, and leaves such a
heap unless it splits a block with one behind it. -/
theorem Exact.step (hlt : base.toNat + size.toNat < 2 ^ 64) (h : Exact base size s)
    (hv : Valid s op) {fuel : Nat} (hf : base.toNat + size.toNat < fuel) :
    ∃ s', exec fuel s op = .ok s' ∧ (SplitsLast s op → Exact base size s') ∧
      (Intact s' → SplitsLast s op) := by
  obtain ⟨l, hs, hl, hc⟩ := h
  cases op with
  | alloc n =>
    rcases hs.alloc hlt hv hf with ⟨h, hno⟩ | ⟨p, l', s', h0, hr, hex, hs'⟩
    · exact ⟨s, h, fun _ => ⟨l, hs, hl, hc⟩, fun _ g hg _ => absurd hg (hs.no_firstFit hlt hv hno)⟩
    · obtain ⟨l₁, b, l₂, rfl, hfit, rfl, hff, hlen, hnx⟩ := hs.firstFit hlt hv h0 hr
      refine ⟨s', hex, fun hsl => ⟨_, hs', ?_, hc.cut hfit⟩, fun hi g hg hgl => ?_⟩
      · exact hl.cut fun hn => hnx.mp (hsl _ hff (hlen.mpr hn))
      · cases hg.det hff
        rw [hlen] at hgl
        refine hnx.mpr (by_contra fun hne => ?_)
        refine not_linked_cut hl hgl hne hs.tiles hlt ?_
        rw [Intact, hs'.rootHeader, ← adr_of_toNat base] at hi
        exact (prevInverse_iff hs'.blocks hs'.tiles hlt hs'.nonempty).mp hi.1
  | free p =>
    obtain ⟨n, hn⟩ := Option.ne_none_iff_exists'.mp hv
    obtain ⟨h0, l₁, b, l₂, rfl, hu, rfl, -⟩ := hs.live_block hn
    obtain ⟨m', l', h1, h2, h3, h4, h5, h6, -⟩ :=
      free_linked hs.blocks hs.tiles hlt h0 hu hl hc hf
    refine ⟨_, by rw [exec, h1, Res.ok_bind], fun _ => ⟨l', ?_, h4, h5⟩, fun _ => trivial⟩
    exact hs.freed hlt h0 hu h2 h3 h6
  | poke p i v =>
    obtain ⟨s', h1, h2, -⟩ := hs.poke fuel hlt hv
    exact ⟨s', h1, fun _ => ⟨l, h2, hl, hc⟩, fun _ => trivial⟩

theorem Exact.step_keep (hlt : base.toNat + size.toNat < 2 ^ 64) (h : Exact base size s)
    (hst : (lts base size).step s op s') :
    (SplitsLast s op → Exact base size s') ∧ (Intact s' → SplitsLast s op) := by
  obtain ⟨hv, fuel, hex⟩ := hst
  obtain ⟨k, hk, hex⟩ := exec_large hex (base.toNat + size.toNat + 1)
  obtain ⟨t, ht, h1, h2⟩ := h.step hlt hv (show _ < k by omega)
  cases hex.symm.trans ht
  exact ⟨h1, h2⟩

theorem exact_inductive (hsz : 32 ≤ size.toNat) (hlt : base.toNat + size.toNat < 2 ^ 64) :
    ((lts base size).guard SplitsLast).Inductive (Exact base size) where
  init _ h := exact_init hsz hlt h
  step _ _ _ h hst := (h.step_keep hlt hst.1).1 hst.2

end Exact

/-- The heap at 0x1000 after `reset(0x1000, 0x1000)` on zeroed memory. -/
def fresh : St := ⟨⟨0x1000, 0x1000⟩, placeInitialHeader ⟨fun _ => 0⟩ 0x1000 0x1000, fun _ => none⟩

theorem fresh_init : (lts 0x1000 0x1000).init fresh :=
  ⟨⟨1, .empty, ⟨fun _ => 0⟩, rfl⟩, rfl⟩

theorem fresh_onChain {h : Word} (hc : OnChain fresh.mem fresh.heap.rootHeader h) :
    h = 0x1000 := by
  induction hc with
  | root => rfl
  | next _ hn ih => subst ih; exact absurd (by decide +kernel) hn

theorem fresh_splitsLast (op : Op) : SplitsLast fresh op := by
  cases op with
  | alloc n =>
    intro h hf _
    rw [fresh_onChain (hf.onChain .root)]
    decide +kernel
  | free p => trivial
  | poke p i v => trivial

/-- The first allocation from `fresh`. -/
theorem fresh_alloc : ∃ s, (lts 0x1000 0x1000).step fresh (.alloc 16) s ∧
    s.live 0x1020 = some 16 := by
  have h : (exec 12 fresh (.alloc 16)).toOption.any (decide <| ·.live 0x1020 = some 16) = true := by
    decide +kernel
  cases hs : exec 12 fresh (.alloc 16) with
  | ok s =>
    rw [hs] at h
    exact ⟨s, ⟨by decide, 12, hs⟩, of_decide_eq_true h⟩
  | error f => rw [hs] at h; cases h

/-! ## Main results -/

/-- **No panic.** In a run of `alloc` calls that split the last block only and
`free` calls on live pointers, the next call succeeds, whatever it is. -/
theorem no_panic {base size : Word} (hsz : 32 ≤ size.toNat)
    (hlt : base.toNat + size.toNat < 2 ^ 64) {s : St}
    (hr : ((lts base size).guard SplitsLast).Reachable s) {op : Op} (hv : Valid s op) :
    ¬ Panics s op ∧ ∃ fuel s', exec fuel s op = .ok s' := by
  have he := (exact_inductive hsz hlt).reachable s hr
  obtain ⟨s', h, -, -⟩ := he.step hlt hv (Nat.lt_succ_self _)
  exact ⟨not_panics_of_ok h, _, s', h⟩

theorem no_panic_fresh : ∃ s, s.live 0x1020 = some 16 ∧ ¬ Panics s (.free 0x1020) ∧
    ∃ fuel s', exec fuel s (.free 0x1020) = .ok s' := by
  obtain ⟨s, hst, hl⟩ := fresh_alloc
  exact ⟨s, hl, no_panic (by decide) (by decide)
    ⟨fresh, [.alloc 16], fresh_init, .cons ⟨hst, fresh_splitsLast _⟩ (.nil _)⟩
    (show s.live 0x1020 ≠ none by rw [hl]; nofun)⟩

/-- **Exact links.** Along a run, every state has exact links and no two free
neighbours if and only if no `alloc` splits a block with one behind it. -/
theorem links_intact_iff {base size : Word} (hsz : 32 ≤ size.toNat)
    (hlt : base.toNat + size.toNat < 2 ^ 64) {s : St} (hs : (lts base size).init s)
    {tr : List (Op × St)} (htr : (lts base size).Trace s tr) :
    Intact s ∧ ((∀ x ∈ tr, Intact x.2) ↔ LTS.Meets SplitsLast s tr) := by
  have he := exact_init hsz hlt hs
  refine ⟨he.intact hlt, ?_⟩
  exact LTS.forall_iff_meets _ (fun _ h => h.intact hlt)
    (fun _ _ _ h hst => (h.step_keep hlt hst).1) (fun _ _ _ h hst => (h.step_keep hlt hst).2) s tr
    he htr

theorem links_intact_iff_alloc : ∃ s, s.live 0x1020 = some 16 ∧ Intact fresh ∧
    ((∀ x ∈ [(Op.alloc 16, s)], Intact x.2) ↔ LTS.Meets SplitsLast fresh [(.alloc 16, s)]) := by
  obtain ⟨s, hst, hl⟩ := fresh_alloc
  exact ⟨s, hl, links_intact_iff (by decide) (by decide) fresh_init ⟨hst, trivial⟩⟩

/-! ## A recycled hole is split -/

/-- A hole of 100 bytes between two live blocks is used for 10 bytes. -/
def recycle : List Op := [.alloc 16, .alloc 100, .alloc 16, .free 0x1050, .alloc 10]

/-- The hole is filled up, and everything is freed from the front. -/
def drain : List Op := recycle ++ [.alloc 58, .free 0x1020, .free 0x1050]

theorem reachable_of_play {fuel : Nat} {ops : List Op} {s : St}
    (h : play fuel fresh ops = some s) : (lts 0x1000 0x1000).Reachable s :=
  ⟨fresh, ops, fresh_init, play_run _ _ h⟩

/-- Does the run end with a valid call that fails? -/
def failsAfter (fuel : Nat) (ops : List Op) (op : Op) : Bool :=
  match play fuel fresh ops with
  | some s => decide (Valid s op) &&
    match exec fuel s op with
    | .error (.assertFail _) => true
    | _ => false
  | none => false

theorem panics_of_failsAfter (fuel : Nat) (ops : List Op) {op : Op}
    (h : failsAfter fuel ops op = true) :
    ∃ s, (lts 0x1000 0x1000).Reachable s ∧ Valid s op ∧ Panics s op := by
  unfold failsAfter at h
  split at h
  · rename_i s hs
    rw [Bool.and_eq_true, decide_eq_true_eq] at h
    refine ⟨s, reachable_of_play hs, h.1, ?_⟩
    have h2 := h.2
    split at h2
    · rename_i msg he
      exact ⟨fuel, _, he, nofun⟩
    · cases h2
  · cases h

/-- **A spurious panic**: the last `free` of `drain` meets a header that an
earlier `free` has erased. -/
theorem panic_run : ¬ ∀ base size : Word, 32 ≤ size.toNat → base.toNat + size.toNat < 2 ^ 64 →
    ∀ s, (lts base size).Reachable s → ∀ op, Valid s op → ¬ Panics s op := by
  intro h
  obtain ⟨s, hr, hv, hp⟩ : ∃ s, (lts 0x1000 0x1000).Reachable s ∧ Valid s (.free 0x10D4) ∧
      Panics s (.free 0x10D4) := panics_of_failsAfter 12 drain (by decide +kernel)
  exact h 0x1000 0x1000 (by decide) (by decide) s hr _ hv hp

/-- Is the `prev` link of the block behind `h` another header? -/
def staleAfter (fuel : Nat) (ops : List Op) : Bool :=
  match play fuel fresh ops with
  | some s =>
    let h := next s.mem (next s.mem s.heap.rootHeader)
    decide (next s.mem s.heap.rootHeader ≠ 0) && decide (h ≠ 0) && decide (next s.mem h ≠ 0) &&
      decide (prev s.mem (next s.mem h) ≠ h)
  | none => false

/-- **A stale link**: `recycle` leaves the last header's `prev` on the first
half of the block that was split. -/
theorem stale_run : ¬ ∀ base size : Word, 32 ≤ size.toNat → base.toNat + size.toNat < 2 ^ 64 →
    ∀ s, (lts base size).Reachable s → Intact s := by
  intro hall
  have hst : staleAfter 12 recycle = true := by decide +kernel
  unfold staleAfter at hst
  split at hst
  · rename_i s hs
    simp only [Bool.and_eq_true, decide_eq_true_eq] at hst
    obtain ⟨⟨⟨h1, h2⟩, h3⟩, h4⟩ := hst
    have hi := hall 0x1000 0x1000 (by decide) (by decide) s (reachable_of_play hs)
    exact h4 (hi.1.2 _ ((OnChain.root.next h1).next h2) h3)
  · cases hst

end X64k.L1.Heap
