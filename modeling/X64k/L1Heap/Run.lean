import X64k.Core.LTS
import X64k.L1Heap.Free

/-!
# Runs of the heap

The heap as a transition system: `reset` sets it up, clients call `alloc` and
`free`, and store bytes into the payloads they own. A ghost map `live` records
the pointers handed out and not yet freed, with the size asked for.

`Shape` ties a state to a block list.

* `Shape.alloc`, `Shape.freed`, `Shape.poke`: what one operation does to the
  list.
* `OnChain`, `PrevInverse`, `NoFreeNeighbours`, `FirstFit`: what a reader of
  memory sees by following `next` links, and how it is told by the list.
-/
namespace X64k.L1.Heap

open X64k.Core

/-! ## Bounds on iterations -/

theorem stable_allocFrom (m : Mem) (size hdr : Word) : Res.Stable (allocFrom m size · hdr) := by
  intro n
  induction n generalizing hdr with
  | zero => exact .loop _
  | succ n ih =>
    exact .ite (.refl _) (.ite (.refl _) (.ite (ih _) (.ite (.refl _) (.ite (.refl _) (ih _)))))

theorem stable_freeBack (m : Mem) (hdr : Word) : Res.Stable (freeBack m · hdr) := by
  intro n
  induction n generalizing hdr with
  | zero => exact .loop _
  | succ n ih => exact .ite (.refl _) (.bind (.refl _) fun _ => .ite (.refl _) (ih _))

theorem stable_freeForward (m : Mem) (hdr : Word) : Res.Stable (freeForward · m hdr) := by
  intro n
  induction n generalizing m with
  | zero => exact .loop _
  | succ n ih => exact .ite (.refl _) (.bind (.refl _) fun _ => .ite (.refl _) (ih _))

theorem stable_free (m : Mem) (p : Word) : Res.Stable (free · m p) := fun n =>
  .bind (.refl _) fun _ => .ite (.refl _) <|
    .bind (stable_freeBack _ _ n) fun _ => stable_freeForward _ _ n

/-! ## The system -/

structure St where
  heap : Heap
  mem : Mem
  /-- ghost: the size asked for, of every pointer handed out and not freed -/
  live : Word → Option Word

inductive Op where
  | alloc (n : Word)
  | free (p : Word)
  /-- a client stores a byte into a payload it owns -/
  | poke (p i : Word) (v : Byte)
  deriving DecidableEq, Repr

/-- What callers promise. -/
def Valid (s : St) : Op → Prop
  | .alloc n => n.toNat + 32 < 2 ^ 64
  | .free p => s.live p ≠ none
  | .poke p i _ => i < (s.live p).getD 0

/-- `live` with the entry of `p` replaced. -/
def setLive (live : Word → Option Word) (p : Word) (v : Option Word) : Word → Option Word :=
  fun q => if q = p then v else live q

def exec (fuel : Nat) (s : St) : Op → Res St
  | .alloc n => do
    match ← s.heap.alloc fuel s.mem n with
    | (some p, m) => .ok { s with mem := m, live := setLive s.live p (some n) }
    | (none, m) => .ok { s with mem := m }
  | .free p => do
    let m ← free fuel s.mem p
    .ok { s with mem := m, live := setLive s.live p none }
  | .poke p i v => .ok { s with mem := s.mem.fill (p + i) 1 v }

/-- The heap that `reset(base, size)` leaves, whatever the heap object and the
memory were before. -/
def lts (base size : Word) : LTS St Op where
  init s := (∃ fuel h m, Heap.reset fuel h m base size = .ok (s.heap, s.mem)) ∧ s.live = fun _ => none
  step s op s' := Valid s op ∧ ∃ fuel, exec fuel s op = .ok s'

theorem stable_exec (s : St) (op : Op) : Res.Stable (exec · s op) := by
  intro n
  cases op with
  | alloc k => exact .bind (stable_allocFrom _ _ _ n) fun _ => .refl _
  | free p => exact .bind (stable_free _ _ n) fun _ => .refl _
  | poke p i v => exact .refl _

theorem exec_large {fuel : Nat} {s s' : St} {op : Op} (h : exec fuel s op = .ok s') (N : Nat) :
    ∃ k, N ≤ k ∧ exec k s op = .ok s' :=
  ⟨max N fuel, Nat.le_max_left .., (stable_exec s op).ok_le (Nat.le_max_right N fuel) h⟩

/-- Some bound on the iterations ends the call in a failed assertion or a
panic. -/
def Panics (s : St) (op : Op) : Prop := ∃ fuel f, exec fuel s op = .error f ∧ f ≠ .loop

/-- A call that succeeds does not panic under another bound. -/
theorem not_panics_of_ok {fuel : Nat} {s s' : St} {op : Op} (h : exec fuel s op = .ok s') :
    ¬ Panics s op := by
  rintro ⟨k, f, hk, hf⟩
  exact hf ((stable_exec s op).eq_loop h hk)

instance (s : St) : (op : Op) → Decidable (Valid s op)
  | .alloc n => inferInstanceAs (Decidable (n.toNat + 32 < 2 ^ 64))
  | .free p => inferInstanceAs (Decidable (s.live p ≠ none))
  | .poke p i _ => inferInstanceAs (Decidable (i < (s.live p).getD 0))

/-- The calls `ops` in turn, each with its precondition checked. -/
def play (fuel : Nat) : St → List Op → Option St
  | s, [] => some s
  | s, op :: ops =>
    if Valid s op then
      match exec fuel s op with
      | .ok s' => play fuel s' ops
      | .error _ => none
    else none

theorem play_run (base size : Word) {fuel : Nat} : ∀ {ops : List Op} {s s' : St},
    play fuel s ops = some s' → (lts base size).Run s ops s'
  | [], _, _, h => by cases h; exact .nil _
  | op :: ops, s, s', h => by
    simp only [play] at h
    split at h
    · rename_i hv
      split at h
      · rename_i t ht
        exact .cons ⟨hv, fuel, ht⟩ (play_run base size h)
      · cases h
    · cases h

/-! ## What a reader of the memory sees -/

/-- `h` is reached from `root` along `next` links. -/
inductive OnChain (m : Mem) (root : Word) : Word → Prop where
  | root : OnChain m root root
  | next {h : Word} : OnChain m root h → next m h ≠ 0 → OnChain m root (next m h)

/-- The `prev` links are the inverse of the `next` links. -/
def PrevInverse (m : Mem) (root : Word) : Prop :=
  prev m root = 0 ∧ ∀ h, OnChain m root h → next m h ≠ 0 → prev m (next m h) = h

/-- Of two neighbours one is allocated. -/
def NoFreeNeighbours (m : Mem) (root : Word) : Prop :=
  ∀ h, OnChain m root h → next m h ≠ 0 → isAlloc m h ∨ isAlloc m (next m h)

/-- The test by which `alloc(n)` takes the block at `h`. -/
def Takes (m : Mem) (n h : Word) : Prop :=
  ¬ isAlloc m h ∧ (length m h > n + headerSize ∨ length m h = n)

/-- `h` is the first block from a given one on that `alloc(n)` takes. -/
inductive FirstFit (m : Mem) (n : Word) : Word → Word → Prop where
  | here {h : Word} : h ≠ 0 → Takes m n h → FirstFit m n h h
  | skip {g h : Word} : g ≠ 0 → ¬ Takes m n g → FirstFit m n (next m g) h → FirstFit m n g h

theorem FirstFit.det {m : Mem} {n g h h' : Word} (hh : FirstFit m n g h)
    (hh' : FirstFit m n g h') : h = h' := by
  induction hh with
  | here _ h2 =>
    cases hh' with
    | here => rfl
    | skip _ h2' _ => exact absurd h2 h2'
  | skip _ h2 _ ih =>
    cases hh' with
    | here _ h2' => exact absurd h2' h2
    | skip _ _ h3' => exact ih h3'

theorem FirstFit.ne_zero {m : Mem} {n g h : Word} : FirstFit m n g h → g ≠ 0
  | .here h1 _ => h1
  | .skip h1 _ _ => h1

theorem FirstFit.takes {m : Mem} {n g h : Word} : FirstFit m n g h → Takes m n h
  | .here _ h2 => h2
  | .skip _ _ h3 => h3.takes

theorem FirstFit.onChain {m : Mem} {n root g h : Word} (hg : OnChain m root g) :
    FirstFit m n g h → OnChain m root h
  | .here _ _ => hg
  | .skip _ _ h3 => h3.onChain (hg.next h3.ne_zero)

section Reader
variable {m : Mem} {e a : Nat} {l : List Blk}

/-- The `next` link of a block is null exactly for the last one. -/
theorem next_eq_zero {l₁ l₂ : List Blk} {b : Blk} (hm : Blocks m e a (l₁ ++ b :: l₂))
    (hx : a + span (l₁ ++ b :: l₂) = e) (he : e < 2 ^ 64) :
    next m (adr (a + span l₁)) = 0 ↔ l₂ = [] := by
  simp only [span_append, span] at hx
  rw [(blocks_at hm).next, link]
  cases l₂ with
  | nil =>
    simp only [span] at hx
    simp only [iff_true, ite_eq_left_iff]
    intro h; omega
  | cons c l₂ =>
    simp only [span] at hx
    rw [if_neg (by omega)]
    simp only [reduceCtorEq, iff_false]
    exact adr_ne_zero (by omega) (by omega)

theorem next_eq_adr {l₁ l₂ : List Blk} {b c : Blk} (hm : Blocks m e a (l₁ ++ b :: c :: l₂))
    (hx : a + span (l₁ ++ b :: c :: l₂) = e) :
    next m (adr (a + span l₁)) = adr (a + span (l₁ ++ [b])) := by
  simp only [span_append, span] at hx ⊢
  rw [(blocks_at hm).next, link, if_neg (by omega)]
  exact congrArg adr (by omega)

theorem onChain_iff (hm : Blocks m e a l) (hx : a + span l = e) (he : e < 2 ^ 64) (hl : l ≠ [])
    {h : Word} : OnChain m (adr a) h ↔ ∃ l₁ b l₂, l = l₁ ++ b :: l₂ ∧ h = adr (a + span l₁) := by
  constructor
  · intro hc
    induction hc with
    | root =>
      cases l with
      | nil => exact absurd rfl hl
      | cons b l => exact ⟨[], b, l, rfl, rfl⟩
    | @next h _ hn ih =>
      obtain ⟨l₁, b, l₂, rfl, rfl⟩ := ih
      cases l₂ with
      | nil => exact absurd ((next_eq_zero hm hx he).mpr rfl) hn
      | cons c l₂ => exact ⟨l₁ ++ [b], c, l₂, by simp, next_eq_adr hm hx⟩
  · rintro ⟨l₁, b, l₂, rfl, rfl⟩
    induction l₁ using List.reverseRecOn generalizing b l₂ with
    | nil => exact .root
    | append_singleton l₁ c ih =>
      rw [List.append_assoc, List.singleton_append] at hm hx hl
      have hn := next_eq_adr hm hx
      have h0 := (next_eq_zero hm hx he).not.mpr (by simp)
      rw [← hn]
      exact (ih c (b :: l₂) hm hx hl).next h0

theorem prevInverse_iff (hm : Blocks m e a l) (hx : a + span l = e) (he : e < 2 ^ 64)
    (hl : l ≠ []) : PrevInverse m (adr a) ↔ Linked 0 a l := by
  rw [linked_iff]
  constructor
  · rintro ⟨h1, h2⟩
    refine ⟨?_, ?_⟩
    · intro b hb
      cases l with
      | nil => cases hb
      | cons d l => cases hb; rw [← hm.1.prev]; exact h1
    · rintro l₁ b c l₂ rfl
      have hc := h2 _ ((onChain_iff hm hx he hl).mpr ⟨l₁, b, c :: l₂, rfl, rfl⟩)
        ((next_eq_zero hm hx he).not.mpr (by simp))
      have hm' : Blocks m e a ((l₁ ++ [b]) ++ c :: l₂) := by simpa using hm
      rwa [next_eq_adr hm hx, (blocks_at hm').prev] at hc
  · rintro ⟨h1, h2⟩
    refine ⟨?_, ?_⟩
    · cases l with
      | nil => exact absurd rfl hl
      | cons d l => rw [hm.1.prev]; exact h1 d rfl
    · intro h hc hn
      obtain ⟨l₁, b, l₂, rfl, rfl⟩ := (onChain_iff hm hx he hl).mp hc
      cases l₂ with
      | nil => exact absurd ((next_eq_zero hm hx he).mpr rfl) hn
      | cons c l₂ =>
        have hm' : Blocks m e a ((l₁ ++ [b]) ++ c :: l₂) := by simpa using hm
        rw [next_eq_adr hm hx, (blocks_at hm').prev]
        exact h2 l₁ b c l₂ rfl

theorem noFreeNeighbours_of (hm : Blocks m e a l) (hx : a + span l = e) (he : e < 2 ^ 64)
    (hl : l ≠ []) (hc : Coalesced l) : NoFreeNeighbours m (adr a) := by
  intro h ho hn
  obtain ⟨l₁, b, l₂, rfl, rfl⟩ := (onChain_iff hm hx he hl).mp ho
  cases l₂ with
  | nil => exact absurd ((next_eq_zero hm hx he).mpr rfl) hn
  | cons c l₂ =>
    have hm' : Blocks m e a ((l₁ ++ [b]) ++ c :: l₂) := by simpa using hm
    rw [next_eq_adr hm hx, (blocks_at hm).isAlloc, (blocks_at hm').isAlloc]
    exact (coalesced_cons.mp (coalesced_append.mp hc).2.1).2 c rfl

theorem takes_iff {l₁ l₂ : List Blk} {b : Blk} (hm : Blocks m e a (l₁ ++ b :: l₂))
    (hx : a + span (l₁ ++ b :: l₂) = e) (he : e < 2 ^ 64) {n : Nat} (hn : n + 32 < 2 ^ 64) :
    Takes m (adr n) (adr (a + span l₁)) ↔ b.fits n = true := by
  simp only [span_append, span] at hx
  have hb := blocks_at hm
  rw [Takes, hb.isAlloc, hb.length, headerSize_eq, adr_add, gt_iff_lt,
    adr_lt_iff hn (by omega), adr_inj (by omega) (by omega)]
  simp [Blk.fits]

theorem firstFit_of {l₁ l₂ : List Blk} {b : Blk} (hm : Blocks m e a (l₁ ++ b :: l₂))
    (hx : a + span (l₁ ++ b :: l₂) = e) (he : e < 2 ^ 64) (h0 : 0 < a) {n : Nat}
    (hn : n + 32 < 2 ^ 64) (hnf : ∀ c ∈ l₁, c.fits n = false) (hf : b.fits n = true) :
    FirstFit m (adr n) (adr a) (adr (a + span l₁)) := by
  have hne : ∀ k₁ c k₂, l₁ ++ b :: l₂ = k₁ ++ c :: k₂ → adr (a + span k₁) ≠ 0 := by
    intro k₁ c k₂ hk
    rw [hk] at hx
    simp only [span_append, span] at hx
    exact adr_ne_zero (by omega) (by omega)
  -- from any block of `l₁` on, by how many are still to be passed over
  have key : ∀ k₂ k₁, l₁ = k₁ ++ k₂ →
      FirstFit m (adr n) (adr (a + span k₁)) (adr (a + span l₁)) := by
    intro k₂
    induction k₂ with
    | nil =>
      intro k₁ hk
      rw [List.append_nil] at hk
      subst hk
      exact .here (hne l₁ b l₂ rfl) ((takes_iff hm hx he hn).mpr hf)
    | cons c k₂ ih =>
      intro k₁ hk
      have hsplit : l₁ ++ b :: l₂ = k₁ ++ c :: (k₂ ++ b :: l₂) := by rw [hk]; simp
      refine .skip (hne k₁ c _ hsplit) ?_ ?_
      · rw [takes_iff (hsplit ▸ hm) (hsplit ▸ hx) he hn, hnf c (by rw [hk]; simp)]
        decide
      · have hnx : next m (adr (a + span k₁)) = adr (a + span (k₁ ++ [c])) := by
          cases k₂ with
          | nil => exact next_eq_adr (hsplit ▸ hm) (hsplit ▸ hx)
          | cons d k₂ => exact next_eq_adr (hsplit ▸ hm) (hsplit ▸ hx)
        rw [hnx]
        exact ih (k₁ ++ [c]) (by simpa using hk)
  exact key l₁ [] rfl

end Reader

/-! ## States and block lists -/

/-- The blocks `l` tile the heap of `s`, and the allocated ones are the live
pointers. A heap at address 0 hands out nothing: its root is the null pointer. -/
structure Shape (base size : Word) (s : St) (l : List Blk) : Prop where
  heap : s.heap = ⟨base, size⟩
  nonempty : l ≠ []
  blocks : Blocks s.mem (base.toNat + size.toNat) base.toNat l
  tiles : base.toNat + span l = base.toNat + size.toNat
  live : ∀ p n, s.live p = some n ↔ (p.toNat, n.toNat) ∈ usedOf base.toNat l
  null : base.toNat = 0 → usedOf base.toNat l = []

theorem reset_hdr {m : Mem} {a n : Nat} (hn : 32 ≤ n) (hlt : a + n < 2 ^ 64) :
    HdrAt (placeInitialHeader m (adr a) (adr n)) (a + n) a ⟨headerMagic, n - 32, 0⟩ := by
  have hsz : adr n - headerSize = adr (n - 32) := by
    rw [headerSize_eq, sub_adr hn]
  have hnx : link (a + n) (a + 32 + (n - 32)) = 0 := if_pos (by omega)
  refine hdrAt_iff.mpr ⟨BitVec.and_self, ?_, ?_, ?_, ?_⟩ <;>
    simp (disch := omega) only [placeInitialHeader, setFlags_adr, setLength_adr, setPrev_adr,
      setNext_adr, Mem.load64_store64, Mem.load64_store64_ne, hsz, hnx]

/-- `reset` installs the range and the single header, whatever was there. -/
theorem reset_eq {fuel : Nat} {h h' : Heap} {m m' : Mem} {base size : Word}
    (hr : Heap.reset fuel h m base size = .ok (h', m')) :
    h' = ⟨base, size⟩ ∧ m' = placeInitialHeader m base size := by
  unfold Heap.reset at hr
  split at hr
  · obtain ⟨_, -, hr⟩ := Res.bind_eq_ok.mp hr
    cases hr; exact ⟨rfl, rfl⟩
  · cases hr; exact ⟨rfl, rfl⟩

section Steps
variable {base size : Word} {s s' : St} {l : List Blk} {fuel : Nat}

theorem Shape.init (hsz : 32 ≤ size.toNat) (hlt : base.toNat + size.toNat < 2 ^ 64)
    (h : (lts base size).init s) :
    Shape base size s [⟨headerMagic, size.toNat - 32, 0⟩] := by
  obtain ⟨⟨fuel, h₀, m, hr⟩, hl⟩ := h
  obtain ⟨he, hm⟩ := reset_eq hr
  have hu : usedOf base.toNat [⟨headerMagic, size.toNat - 32, 0⟩] = [] :=
    usedOf_free (by simp)
  refine ⟨he, by simp, ⟨?_, trivial⟩, by simp only [span]; omega, ?_, fun _ => hu⟩
  · rw [hm]
    have := reset_hdr (m := m) hsz hlt
    rwa [adr_of_toNat, adr_of_toNat] at this
  · intro p n
    rw [hl, hu]
    simp

theorem Shape.rootHeader (h : Shape base size s l) : s.heap.rootHeader = base := by
  rw [h.heap]; rfl

/-- A live pointer is the payload of an allocated block. -/
theorem Shape.live_block (h : Shape base size s l) {p n : Word} (hp : s.live p = some n) :
    0 < base.toNat ∧ ∃ l₁ b l₂, l = l₁ ++ b :: l₂ ∧ b.used = true ∧
      p = adr (base.toNat + span l₁ + 32) ∧ n.toNat = b.len := by
  have hm := (h.live p n).mp hp
  refine ⟨?_, ?_⟩
  · rcases Nat.eq_zero_or_pos base.toNat with h0 | h0
    · rw [h.null h0] at hm; cases hm
    · exact h0
  · obtain ⟨l₁, b, l₂, rfl, hu, hq, hk⟩ := mem_usedOf.mp hm
    exact ⟨l₁, b, l₂, rfl, hu, by rw [← hq, adr_of_toNat], hk⟩

theorem allocBlks_range {n a p : Nat} {l l' : List Blk} (h : allocBlks n a l = some (p, l')) :
    p + n ≤ a + span l' ∧ span l' = span l ∧ l' ≠ [] := by
  have hu := usedOf_bounds ((usedOf_allocBlks h (p, n)).mpr (.inl rfl))
  obtain ⟨l₁, b, l₂, rfl, -, -, rfl, rfl⟩ := allocBlks_cases h
  refine ⟨hu.2, by simp only [span_append, span_cut, span], ?_⟩
  unfold cut
  split <;> simp

/-- `alloc` in a heap of known blocks. -/
theorem Shape.alloc (h : Shape base size s l) (hlt : base.toNat + size.toNat < 2 ^ 64) {n : Word}
    (hn : n.toNat + 32 < 2 ^ 64) (hf : base.toNat + size.toNat < fuel) :
    (exec fuel s (.alloc n) = .ok s ∧
      (base.toNat = 0 ∨ allocBlks n.toNat base.toNat l = none)) ∨
    ∃ p l' s', 0 < base.toNat ∧ allocBlks n.toNat base.toNat l = some (p, l') ∧
      exec fuel s (.alloc n) = .ok s' ∧ Shape base size s' l' := by
  obtain ⟨fuel, rfl⟩ : ∃ k, fuel = k + 1 := ⟨fuel - 1, by omega⟩
  rcases Nat.eq_zero_or_pos base.toNat with h0 | h0
  · left
    have hz : base = 0 := BitVec.eq_of_toNat_eq h0
    exact ⟨by rw [exec, Heap.alloc, h.rootHeader, allocFrom, if_pos hz, Res.ok_bind], .inl h0⟩
  have hlen := length_le_span (l := l)
  have htl := h.tiles
  have hroot : link (base.toNat + size.toNat) base.toNat = base := by
    rw [link, if_neg, adr_of_toNat]
    cases l with
    | nil => exact absurd rfl h.nonempty
    | cons b l => simp only [span] at htl; omega
  have hsp := allocFrom_refines hn hlt l base.toNat (fuel + 1) h.blocks htl h0 (by omega)
  rw [adr_of_toNat, hroot] at hsp
  cases hr : allocBlks n.toNat base.toNat l with
  | none =>
    rw [hr] at hsp
    left
    exact ⟨by rw [exec, Heap.alloc, h.rootHeader, hsp, Res.ok_bind], .inr rfl⟩
  | some q =>
    obtain ⟨p, l'⟩ := q
    rw [hr] at hsp
    obtain ⟨m', h1, h2, -⟩ := hsp
    obtain ⟨hb1, hb2, hb3⟩ := allocBlks_range hr
    right
    refine ⟨p, l', { s with mem := m', live := setLive s.live (adr p) (some n) }, h0, rfl, ?_, ?_⟩
    · rw [exec, Heap.alloc, h.rootHeader, h1, Res.ok_bind]
    · refine ⟨h.heap, hb3, h2, by omega, ?_, by omega⟩
      intro q k
      have hp : (adr p).toNat = p := adr_toNat (by omega)
      rw [usedOf_allocBlks hr, ← h.live q k]
      simp only [setLive, Prod.mk.injEq]
      split
      · rename_i hq
        subst hq
        have hfresh : s.live (adr p) ≠ some k := by
          rw [ne_eq, h.live, hp]; exact allocBlks_fresh hr _
        simp only [hp, Option.some.injEq, hfresh, or_false, true_and]
        exact ⟨fun h => by rw [h], fun h => (BitVec.eq_of_toNat_eq h).symm⟩
      · rename_i hq
        have hne : q.toNat ≠ p := fun hqp => hq (by rw [← hqp, adr_of_toNat])
        simp only [hne, false_and, false_or]

/-- The shape after a `free` whose new blocks have the payloads of the old
ones but for the one freed. -/
theorem Shape.freed {m' : Mem} {l₁ l₂ l' : List Blk} {b : Blk}
    (h : Shape base size s (l₁ ++ b :: l₂)) (hlt : base.toNat + size.toNat < 2 ^ 64)
    (h0 : 0 < base.toNat) (hu : b.used = true)
    (hm : Blocks m' (base.toNat + size.toNat) base.toNat l')
    (hx : base.toNat + span l' = base.toNat + size.toNat)
    (hus : usedOf base.toNat l' = usedOf base.toNat (l₁ ++ b.clear :: l₂)) :
    Shape base size { s with
      mem := m', live := setLive s.live (adr (base.toNat + span l₁ + 32)) none } l' := by
  have htl := h.tiles
  have hne : l' ≠ [] := by
    rintro rfl
    simp only [span_append, span] at hx htl; omega
  refine ⟨h.heap, hne, hm, hx, ?_, by omega⟩
  intro q k
  simp only [span_append, span] at htl
  have hp : (adr (base.toNat + span l₁ + 32)).toNat = base.toNat + span l₁ + 32 :=
    adr_toNat (by omega)
  rw [hus, usedOf_clear hu, ← h.live q k]
  simp only [setLive]
  split
  · rename_i hq
    simp [hq, hp]
  · rename_i hq
    have hne : q.toNat ≠ base.toNat + span l₁ + 32 := fun hqp => hq (by rw [← hqp, adr_of_toNat])
    simp [hne]

theorem usedOf_hdrs {q k h : Nat} {a : Nat} {l : List Blk} (hq : (q, k) ∈ usedOf a l)
    (hh : h ∈ hdrs a l) : h + 32 ≤ q ∨ q + k ≤ h := by
  induction l generalizing a with
  | nil => cases hh
  | cons b l ih =>
    simp only [usedOf] at hq
    rcases List.mem_cons.mp hh with rfl | hh
    · split at hq
      · rcases List.mem_cons.mp hq with hq | hq
        · cases hq; exact .inl (by omega)
        · have := usedOf_bounds hq; exact .inl (by omega)
      · have := usedOf_bounds hq; exact .inl (by omega)
    · have hb := hdrs_bounds hh
      split at hq
      · rcases List.mem_cons.mp hq with hq | hq
        · cases hq; exact .inr (by omega)
        · exact ih hq hh
      · exact ih hq hh

/-- Blocks are told by their headers alone. -/
theorem Blocks.of_hdrs {m m' : Mem} {e : Nat} : ∀ {l : List Blk} {a : Nat}, Blocks m e a l →
    (∀ h ∈ hdrs a l, Mem.EqOn m m' h (h + 32)) → Blocks m' e a l
  | [], _, _, _ => trivial
  | _ :: _, _, ⟨h1, h2⟩, hh => ⟨h1.transport (hh _ (List.mem_cons_self ..)),
      h2.of_hdrs fun h hm => hh h (List.mem_cons_of_mem _ hm)⟩

/-- A client's store into its payload changes no header. -/
theorem Shape.poke (fuel : Nat) (h : Shape base size s l) (hlt : base.toNat + size.toNat < 2 ^ 64)
    {p i : Word} {v : Byte} (hv : Valid s (.poke p i v)) :
    ∃ s', exec fuel s (.poke p i v) = .ok s' ∧ Shape base size s' l ∧ s'.live = s.live := by
  refine ⟨_, rfl, ⟨h.heap, h.nonempty, ?_, h.tiles, h.live, h.null⟩, rfl⟩
  cases hn : s.live p with
  | none =>
    simp only [Valid, hn, Option.getD_none] at hv
    exact absurd hv (BitVec.not_lt_zero)
  | some n =>
    simp only [Valid, hn, Option.getD_some] at hv
    have hu := (h.live p n).mp hn
    have hb := usedOf_bounds hu
    have htl := h.tiles
    have hi : i.toNat < n.toNat := BitVec.lt_def.mp hv
    have hpi : p + i = adr (p.toNat + i.toNat) := by
      rw [← adr_add, adr_of_toNat, adr_of_toNat]
    refine h.blocks.of_hdrs fun x hx => ?_
    have := usedOf_hdrs hu hx
    have := hdrs_bounds hx
    show Mem.EqOn s.mem (s.mem.fill (p + i) 1 v) x (x + 32)
    rw [hpi]
    exact Mem.EqOn.fill _ _ (by omega) (by omega) (by omega) (by omega)

end Steps

end X64k.L1.Heap
