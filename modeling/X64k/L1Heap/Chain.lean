import X64k.L1Heap.Model

/-!
# The block list behind the heap's headers

`Blk` is a block as its header describes it; `Blocks m e a l` says that the
headers found from address `a` on describe the blocks `l`, back to back, with
`next` links that name the following header (null at the heap's end `e`).
`prev` links are whatever they are: nothing ties them to the neighbours here.

On block lists the heap's operations are pure functions: `allocBlks` is the
first fit, `mergeForward` the absorption of the free blocks behind one.
`allocFrom_refines` and `freeForward_refines` connect them to the code: from a
memory that shows `l`, the code ends, with enough iterations, in a memory that
shows the new list, and has written nothing outside the blocks it was given.
-/
namespace X64k.L1.Heap

open X64k.Core

theorem headerSize_eq : headerSize = adr 32 := rfl

/-! ## Field words -/

theorem flags_adr (m : Mem) (a : Nat) : flags m (adr a) = m.load64 (adr a) := rfl

theorem length_adr (m : Mem) (a : Nat) : length m (adr a) = m.load64 (adr (a + 8)) := by
  rw [← adr_add]; rfl

theorem prev_adr (m : Mem) (a : Nat) : prev m (adr a) = m.load64 (adr (a + 16)) := by
  rw [← adr_add]; rfl

theorem next_adr (m : Mem) (a : Nat) : next m (adr a) = m.load64 (adr (a + 24)) := by
  rw [← adr_add]; rfl

theorem setFlags_adr (m : Mem) (a : Nat) (v : Word) :
    setFlags m (adr a) v = m.store64 (adr a) v := rfl

theorem setLength_adr (m : Mem) (a : Nat) (v : Word) :
    setLength m (adr a) v = m.store64 (adr (a + 8)) v := by
  rw [← adr_add]; rfl

theorem setPrev_adr (m : Mem) (a : Nat) (v : Word) :
    setPrev m (adr a) v = m.store64 (adr (a + 16)) v := by
  rw [← adr_add]; rfl

theorem setNext_adr (m : Mem) (a : Nat) (v : Word) :
    setNext m (adr a) v = m.store64 (adr (a + 24)) v := by
  rw [← adr_add]; rfl

/-! ## Flag words -/

theorem magic_or_alloc {f : Word} (h : f &&& headerMagic = headerMagic) :
    (f ||| HF_ALLOC) &&& headerMagic = headerMagic := by
  rw [BitVec.and_or_distrib_right, h]; decide

theorem or_alloc_and (f : Word) : (f ||| HF_ALLOC) &&& HF_ALLOC = HF_ALLOC := by
  apply BitVec.eq_of_getLsbD_eq
  intro i hi
  simp only [BitVec.getLsbD_and, BitVec.getLsbD_or]
  cases HF_ALLOC.getLsbD i <;> simp

theorem magic_and_not {f : Word} (h : f &&& headerMagic = headerMagic) :
    (f &&& ~~~HF_ALLOC) &&& headerMagic = headerMagic := by
  rw [BitVec.and_assoc, BitVec.and_comm (~~~HF_ALLOC), ← BitVec.and_assoc, h]; decide

theorem and_not_alloc (f : Word) : (f &&& ~~~HF_ALLOC) &&& HF_ALLOC = 0 := by
  rw [BitVec.and_assoc, BitVec.and_comm (~~~HF_ALLOC), BitVec.and_not_self]
  exact BitVec.and_zero

/-! ## Blocks -/

structure Blk where
  flags : Word
  len : Nat
  prev : Word
  deriving DecidableEq, Repr

/-- The block is allocated. -/
def Blk.used (b : Blk) : Bool := decide (b.flags &&& HF_ALLOC ≠ 0)

/-- The block marked allocated. -/
def Blk.mark (b : Blk) : Blk := { b with flags := b.flags ||| HF_ALLOC }

/-- The block marked free. -/
def Blk.clear (b : Blk) : Blk := { b with flags := b.flags &&& ~~~HF_ALLOC }

def Blk.resize (b : Blk) (n : Nat) : Blk := { b with len := n }

def Blk.relink (b : Blk) (p : Word) : Blk := { b with prev := p }

@[simp] theorem Blk.mark_used (b : Blk) : b.mark.used = true := by
  simp only [Blk.used, Blk.mark, or_alloc_and]; decide

@[simp] theorem Blk.clear_used (b : Blk) : b.clear.used = false := by
  simp only [Blk.used, Blk.clear, and_not_alloc]; decide

@[simp] theorem Blk.mark_len (b : Blk) : b.mark.len = b.len := rfl
@[simp] theorem Blk.clear_len (b : Blk) : b.clear.len = b.len := rfl
@[simp] theorem Blk.mark_prev (b : Blk) : b.mark.prev = b.prev := rfl
@[simp] theorem Blk.clear_prev (b : Blk) : b.clear.prev = b.prev := rfl
@[simp] theorem Blk.resize_self (b : Blk) : b.resize b.len = b := rfl
@[simp] theorem Blk.resize_flags (b : Blk) (n : Nat) : (b.resize n).flags = b.flags := rfl
@[simp] theorem Blk.relink_flags (b : Blk) (p : Word) : (b.relink p).flags = b.flags := rfl
@[simp] theorem Blk.resize_used (b : Blk) (n : Nat) : (b.resize n).used = b.used := rfl
@[simp] theorem Blk.resize_len (b : Blk) (n : Nat) : (b.resize n).len = n := rfl
@[simp] theorem Blk.resize_prev (b : Blk) (n : Nat) : (b.resize n).prev = b.prev := rfl
@[simp] theorem Blk.relink_used (b : Blk) (p : Word) : (b.relink p).used = b.used := rfl
@[simp] theorem Blk.relink_len (b : Blk) (p : Word) : (b.relink p).len = b.len := rfl
@[simp] theorem Blk.relink_prev (b : Blk) (p : Word) : (b.relink p).prev = p := rfl

/-- The header written for the rest of a split block is free. -/
@[simp] theorem used_headerMagic (n : Nat) (p : Word) : (⟨headerMagic, n, p⟩ : Blk).used = false := by
  have h : headerMagic &&& HF_ALLOC = 0 := by decide
  simp [Blk.used, h]

/-- Bytes covered by the blocks, headers included. -/
def span : List Blk → Nat
  | [] => 0
  | b :: l => 32 + b.len + span l

@[simp] theorem span_append : ∀ l₁ l₂ : List Blk, span (l₁ ++ l₂) = span l₁ + span l₂
  | [], l₂ => by simp [span]
  | b :: l₁, l₂ => by simp only [List.cons_append, span, span_append l₁ l₂]; omega

theorem span_pos (l : List Blk) : span l = 0 ∨ 32 ≤ span l := by
  cases l with
  | nil => exact .inl rfl
  | cons b l => exact .inr (by simp only [span]; omega)

/-- The `next` link to the header at `a` in a heap that ends at `e`. -/
def link (e a : Nat) : Word := if a = e then 0 else adr a

/-- The header at `a` describes `b`. -/
structure HdrAt (m : Mem) (e a : Nat) (b : Blk) : Prop where
  flags : flags m (adr a) = b.flags
  magic : b.flags &&& headerMagic = headerMagic
  length : length m (adr a) = adr b.len
  prev : prev m (adr a) = b.prev
  next : next m (adr a) = link e (a + 32 + b.len)

/-- The header as four words of the memory. -/
theorem hdrAt_iff {m : Mem} {e a : Nat} {b : Blk} : HdrAt m e a b ↔
    b.flags &&& headerMagic = headerMagic ∧ m.load64 (adr a) = b.flags ∧
    m.load64 (adr (a + 8)) = adr b.len ∧ m.load64 (adr (a + 16)) = b.prev ∧
    m.load64 (adr (a + 24)) = link e (a + 32 + b.len) := by
  constructor
  · intro h
    exact ⟨h.magic, h.flags, by rw [← length_adr, h.length], by rw [← prev_adr, h.prev],
      by rw [← next_adr, h.next]⟩
  · intro h
    obtain ⟨hm, hf, hl, hp, hx⟩ := h
    exact ⟨hf, hm, by rw [length_adr, hl], by rw [prev_adr, hp], by rw [next_adr, hx]⟩

/-- The headers from `a` on describe the blocks `l`. -/
def Blocks (m : Mem) (e : Nat) : Nat → List Blk → Prop
  | _, [] => True
  | a, b :: l => HdrAt m e a b ∧ Blocks m e (a + 32 + b.len) l

instance (m : Mem) (e a : Nat) (b : Blk) : Decidable (HdrAt m e a b) :=
  decidable_of_iff _ hdrAt_iff.symm

instance decidableBlocks (m : Mem) (e : Nat) : (a : Nat) → (l : List Blk) → Decidable (Blocks m e a l)
  | _, [] => inferInstanceAs (Decidable True)
  | a, b :: l => @instDecidableAnd _ _ _ (decidableBlocks m e (a + 32 + b.len) l)

theorem blocks_append {m : Mem} {e : Nat} : ∀ (l₁ l₂ : List Blk) (a : Nat),
    Blocks m e a (l₁ ++ l₂) ↔ Blocks m e a l₁ ∧ Blocks m e (a + span l₁) l₂
  | [], l₂, a => by simp [Blocks, span]
  | b :: l₁, l₂, a => by
    simp only [List.cons_append, Blocks, blocks_append l₁ l₂, and_assoc, span]
    rw [show a + 32 + b.len + span l₁ = a + (32 + b.len + span l₁) by omega]

theorem HdrAt.transport {m m' : Mem} {e a : Nat} {b : Blk} (h : HdrAt m e a b)
    (hag : Mem.EqOn m m' a (a + 32)) : HdrAt m' e a b where
  flags := by rw [← h.flags, flags_adr, flags_adr, hag.load64 (by omega) (by omega)]
  magic := h.magic
  length := by rw [← h.length, length_adr, length_adr, hag.load64 (by omega) (by omega)]
  prev := by rw [← h.prev, prev_adr, prev_adr, hag.load64 (by omega) (by omega)]
  next := by rw [← h.next, next_adr, next_adr, hag.load64 (by omega) (by omega)]

theorem Blocks.transport {m m' : Mem} {e : Nat} : ∀ {l : List Blk} {a : Nat}, Blocks m e a l →
    Mem.EqOn m m' a (a + span l) → Blocks m' e a l
  | [], _, _, _ => trivial
  | b :: l, a, ⟨h1, h2⟩, hag => by
    simp only [span] at hag
    exact ⟨h1.transport (hag.mono (by omega) (by omega)),
      h2.transport (hag.mono (by omega) (by omega))⟩

/-- The code's tests on a header, from the block it describes. -/
theorem HdrAt.hasMagic {m : Mem} {e a : Nat} {b : Blk} (h : HdrAt m e a b) :
    hasMagic m (adr a) := by rw [Heap.hasMagic, h.flags, h.magic]

theorem HdrAt.isAlloc {m : Mem} {e a : Nat} {b : Blk} (h : HdrAt m e a b) :
    isAlloc m (adr a) ↔ b.used = true := by
  rw [Heap.isAlloc, h.flags, Blk.used, decide_eq_true_eq]

/-! ## First fit -/

/-- `alloc(n)` takes this block: it is free, and `n` bytes fit exactly or
leave room for a header and more. -/
def Blk.fits (n : Nat) (b : Blk) : Bool :=
  !b.used && (decide (n + 32 < b.len) || decide (b.len = n))

/-- What becomes of the block `b` at `a` when `alloc(n)` takes it. -/
def cut (n a : Nat) (b : Blk) : List Blk :=
  if n + 32 < b.len then
    [b.mark.resize n, ⟨headerMagic, b.len - n - 32, adr a⟩]
  else [b.mark]

/-- The payload address and the blocks after `alloc(n)` on the blocks at `a`. -/
def allocBlks (n a : Nat) : List Blk → Option (Nat × List Blk)
  | [] => none
  | b :: l =>
    if b.fits n then some (a + 32, cut n a b ++ l)
    else (allocBlks n (a + 32 + b.len) l).map fun (p, l') => (p, b :: l')

/-- Nothing below `a` and nothing from `e` on is written. -/
def WithinHeap (m m' : Mem) (a e : Nat) : Prop := Mem.EqOn m m' 0 a ∧ Mem.EqOn m m' e (2 ^ 64)

theorem WithinHeap.refl (m : Mem) (a e : Nat) : WithinHeap m m a e :=
  ⟨Mem.EqOn.refl m _ _, Mem.EqOn.refl m _ _⟩

theorem WithinHeap.trans {m m' m'' : Mem} {a e : Nat} (h : WithinHeap m m' a e)
    (h' : WithinHeap m' m'' a e) : WithinHeap m m'' a e :=
  ⟨h.1.trans h'.1, h.2.trans h'.2⟩

theorem WithinHeap.mono {m m' : Mem} {a a' e : Nat} (h : WithinHeap m m' a' e) (ha : a ≤ a') :
    WithinHeap m m' a e :=
  ⟨h.1.mono (Nat.le_refl _) ha, h.2⟩

theorem eqOn_setFlags {m : Mem} {a lo hi : Nat} {v : Word} (h : a + 8 ≤ lo ∨ hi ≤ a)
    (ha : a + 8 ≤ 2 ^ 64) (hhi : hi ≤ 2 ^ 64) : Mem.EqOn m (setFlags m (adr a) v) lo hi :=
  Mem.EqOn.store64 m v h ha hhi

/-- `split` writes the two headers and nothing else. -/
theorem eqOn_split {m : Mem} {a n lo hi : Nat} (h : a + 32 ≤ lo ∨ hi ≤ a)
    (h' : a + 32 + n + 32 ≤ lo ∨ hi ≤ a + 32 + n) (ha : a + 32 + n + 32 ≤ 2 ^ 64)
    (hhi : hi ≤ 2 ^ 64) : Mem.EqOn m (split m (adr a) (adr n)) lo hi := by
  have e1 : adr a + headerSize + adr n = adr (a + 32 + n) := by
    rw [← adr_add, ← adr_add]; rfl
  simp only [split, e1, setFlags_adr, setPrev_adr, setNext_adr, setLength_adr]
  iterate 6 refine Mem.EqOn.trans ?_ (Mem.EqOn.store64 _ _ (by omega) (by omega) hhi)
  exact Mem.EqOn.store64 _ _ (by omega) (by omega) hhi

section Split
variable {m : Mem} {e a n : Nat} {b : Blk}

/-- The two headers left by `split`. -/
theorem split_hdrs (hb : HdrAt m e a b) (hn : n + 32 ≤ b.len) (he : a + 32 + b.len ≤ e)
    (hlt : e < 2 ^ 64) :
    HdrAt (split m (adr a) (adr n)) e a (b.mark.resize n) ∧
      HdrAt (split m (adr a) (adr n)) e (a + 32 + n) ⟨headerMagic, b.len - n - 32, adr a⟩ := by
  have e1 : adr a + headerSize + adr n = adr (a + 32 + n) := by
    rw [← adr_add, ← adr_add]; rfl
  obtain ⟨hm, hf, hl, hp, hx⟩ := hdrAt_iff.mp hb
  have hrest : adr b.len - adr n - headerSize = adr (b.len - n - 32) := by
    rw [headerSize_eq, sub_adr (by omega), sub_adr (by omega)]
  have hnx : link e (a + 32 + n) = adr (a + 32 + n) := if_neg (by omega)
  have hend : a + 32 + n + 32 + (b.len - n - 32) = a + 32 + b.len := by omega
  refine ⟨hdrAt_iff.mpr ⟨magic_or_alloc hm, ?_, ?_, ?_, ?_⟩,
    hdrAt_iff.mpr ⟨BitVec.and_self, ?_, ?_, ?_, ?_⟩⟩ <;>
    simp (disch := omega) only [split, e1, flags_adr, length_adr, next_adr, setFlags_adr,
      setPrev_adr, setNext_adr, setLength_adr, Mem.load64_store64, Mem.load64_store64_ne, hf, hl,
      hp, hx, hrest, hnx, hend, Blk.mark, Blk.resize]

/-- New flags with the magic leave the rest of the header. -/
theorem setFlags_hdr (hb : HdrAt m e a b) {f : Word} (hf : f &&& headerMagic = headerMagic)
    (ha : a + 32 ≤ 2 ^ 64) : HdrAt (setFlags m (adr a) f) e a { b with flags := f } := by
  obtain ⟨-, -, hl, hp, hx⟩ := hdrAt_iff.mp hb
  refine hdrAt_iff.mpr ⟨hf, ?_, ?_, ?_, ?_⟩ <;>
    simp (disch := omega) only [setFlags_adr, Mem.load64_store64, Mem.load64_store64_ne, hl, hp, hx]

theorem mark_hdr (hb : HdrAt m e a b) (ha : a + 32 ≤ 2 ^ 64) :
    HdrAt (setFlags m (adr a) (flags m (adr a) ||| HF_ALLOC)) e a b.mark := by
  rw [hb.flags]
  exact setFlags_hdr hb (magic_or_alloc hb.magic) ha

end Split

/-- `allocBlks` is what `alloc` does: the returned pointer, the new blocks,
and nothing written outside them. -/
theorem allocFrom_refines {m : Mem} {e n : Nat} (hn : n + 32 < 2 ^ 64) (he : e < 2 ^ 64) :
    ∀ (l : List Blk) (a fuel : Nat), Blocks m e a l → a + span l = e → 0 < a → l.length < fuel →
      match allocBlks n a l with
      | none => allocFrom m (adr n) fuel (link e a) = .ok (none, m)
      | some (p, l') => ∃ m', allocFrom m (adr n) fuel (link e a) = .ok (some (adr p), m') ∧
          Blocks m' e a l' ∧ WithinHeap m m' a e
  | _, _, 0, _, _, _, hf => absurd hf (Nat.not_lt_zero _)
  | [], a, fuel + 1, _, hx, _, _ => by
    simp only [span, Nat.add_zero] at hx
    simp only [allocBlks, allocFrom, link, hx, if_true]
  | b :: l, a, fuel + 1, ⟨hb, hl⟩, hx, h0, hf => by
    simp only [span] at hx
    simp only [List.length_cons] at hf
    have hlink : link e a = adr a := if_neg (by omega)
    have hne : adr a ≠ 0 := adr_ne_zero h0 (by omega)
    have hsz : adr n + headerSize = adr (n + 32) := by rw [headerSize_eq, adr_add]
    have hp : adr a + headerSize = adr (a + 32) := by rw [headerSize_eq, adr_add]
    have hlt : adr (n + 32) < adr b.len ↔ n + 32 < b.len := adr_lt_iff hn (by omega)
    have heq : adr b.len = adr n ↔ b.len = n := adr_inj (by omega) (by omega)
    have ih := allocFrom_refines hn he l (a + 32 + b.len) fuel hl (by omega) (by omega) (by omega)
    rw [hlink, allocFrom, if_neg hne, if_neg (not_not_intro hb.hasMagic)]
    simp only [hb.isAlloc, hb.length, hb.next, hsz, hp, gt_iff_lt, hlt, heq]
    by_cases hfit : b.fits n = true
    · have hu : b.used = false := by simp only [Blk.fits] at hfit; cases hu : b.used <;> simp_all
      rw [if_neg (by simp [hu])]
      simp only [allocBlks, hfit, if_true]
      by_cases hs : n + 32 < b.len
      · simp only [cut, if_pos hs]
        obtain ⟨h1, h2⟩ := split_hdrs hb (Nat.le_of_lt hs) (by omega) he
        refine ⟨_, rfl, ⟨h1, h2, ?_⟩, ?_, ?_⟩
        · show Blocks _ e (a + 32 + n + 32 + (b.len - n - 32)) l
          rw [show a + 32 + n + 32 + (b.len - n - 32) = a + 32 + b.len by omega]
          exact hl.transport (eqOn_split (by omega) (by omega) (by omega) (by omega))
        · exact eqOn_split (by omega) (by omega) (by omega) (by omega)
        · exact eqOn_split (by omega) (by omega) (by omega) (by omega)
      · have hlen : b.len = n := by
          simp only [Blk.fits, hs, decide_false, Bool.false_or, Bool.and_eq_true,
            decide_eq_true_eq] at hfit
          exact hfit.2
        simp only [cut, if_neg hs, if_pos hlen]
        refine ⟨_, rfl, ⟨mark_hdr hb (by omega), ?_⟩, ?_, ?_⟩
        · exact hl.transport (eqOn_setFlags (by omega) (by omega) (by omega))
        · exact eqOn_setFlags (by omega) (by omega) (by omega)
        · exact eqOn_setFlags (by omega) (by omega) (by omega)
    · have hskip : (if b.used = true then allocFrom m (adr n) fuel (link e (a + 32 + b.len))
          else if n + 32 < b.len then
            .ok (some (adr (a + 32)), split m (adr a) (adr n))
          else if b.len = n then
            .ok (some (adr (a + 32)), setFlags m (adr a) (flags m (adr a) ||| HF_ALLOC))
          else allocFrom m (adr n) fuel (link e (a + 32 + b.len))) =
            allocFrom m (adr n) fuel (link e (a + 32 + b.len)) := by
        cases hu : b.used
        · simp only [Blk.fits, hu, Bool.not_false, Bool.true_and, Bool.or_eq_true,
            decide_eq_true_eq, not_or] at hfit
          simp [hfit.1, hfit.2]
        · simp
      rw [hskip]
      simp only [allocBlks, hfit]
      cases hr : allocBlks n (a + 32 + b.len) l with
      | none => rw [hr] at ih; simpa using ih
      | some q =>
        obtain ⟨p, l'⟩ := q
        rw [hr] at ih
        obtain ⟨m', h1, h2, h3⟩ := ih
        refine ⟨m', h1, ⟨hb.transport (h3.1.mono (by omega) (by omega)), h2⟩, h3.mono (by omega)⟩

/-! ## Absorbing the free blocks behind a block -/

/-- The first block gets the `prev` link `p`. -/
def setHeadPrev (p : Word) : List Blk → List Blk
  | [] => []
  | c :: l => c.relink p :: l

@[simp] theorem span_setHeadPrev (p : Word) (l : List Blk) : span (setHeadPrev p l) = span l := by
  cases l <;> rfl

/-- The blocks from `a` on after the free blocks at the head of `l` have been
absorbed by `b`. `t`: some block has been absorbed already, so the block
behind has had its `prev` link set. -/
def mergeForward (a : Nat) (b : Blk) (t : Bool) : List Blk → List Blk
  | [] => [b]
  | c :: l =>
    if c.used then b :: (if t then setHeadPrev (adr a) (c :: l) else c :: l)
    else mergeForward a (b.resize (b.len + 32 + c.len)) true l

section Absorb
variable {m : Mem} {e a : Nat} {b c : Blk}

theorem absorb_len (n k : Nat) : adr n + (headerSize + adr k) = adr (n + 32 + k) := by
  rw [headerSize_eq, adr_add, adr_add, Nat.add_assoc]

/-- The writes of `absorb` when `c` is the last block. -/
theorem absorb_last (hb : HdrAt m e a b) (hc : HdrAt m e (a + 32 + b.len) c)
    (hx : a + 32 + b.len + 32 + c.len = e) (he : e < 2 ^ 64) :
    absorb m (adr a) (adr (a + 32 + b.len)) =
      ((m.store64 (adr (a + 8)) (adr (b.len + 32 + c.len))).store64 (adr (a + 24)) 0).fill
        (adr (a + 32 + b.len)) 32 0 := by
  obtain ⟨-, -, hbl, -, -⟩ := hdrAt_iff.mp hb
  obtain ⟨-, -, hcl, -, hcx⟩ := hdrAt_iff.mp hc
  have h32 : headerSize.toNat = 32 := rfl
  have hz : link e (a + 32 + b.len + 32 + c.len) = 0 := if_pos hx
  simp (disch := omega) only [absorb, length_adr, next_adr, setLength_adr, setNext_adr, hbl, hcl,
    absorb_len, Mem.load64_store64, Mem.load64_store64_ne, hcx, hz, h32, ne_eq, not_true_eq_false,
    if_false]

/-- The writes of `absorb` when another block follows `c`. -/
theorem absorb_inner (hb : HdrAt m e a b) (hc : HdrAt m e (a + 32 + b.len) c)
    (hx : a + 32 + b.len + 32 + c.len + 32 ≤ e) (he : e < 2 ^ 64) :
    absorb m (adr a) (adr (a + 32 + b.len)) =
      (((m.store64 (adr (a + 8)) (adr (b.len + 32 + c.len))).store64 (adr (a + 24))
        (adr (a + 32 + b.len + 32 + c.len))).store64
        (adr (a + 32 + b.len + 32 + c.len + 16)) (adr a)).fill (adr (a + 32 + b.len)) 32 0 := by
  obtain ⟨-, -, hbl, -, -⟩ := hdrAt_iff.mp hb
  obtain ⟨-, -, hcl, -, hcx⟩ := hdrAt_iff.mp hc
  have h32 : headerSize.toNat = 32 := rfl
  have hz : link e (a + 32 + b.len + 32 + c.len) = adr (a + 32 + b.len + 32 + c.len) :=
    if_neg (by omega)
  have hne : adr (a + 32 + b.len + 32 + c.len) ≠ 0 := adr_ne_zero (by omega) (by omega)
  simp (disch := omega) only [absorb, length_adr, next_adr, setLength_adr, setNext_adr,
    setPrev_adr, hbl, hcl, absorb_len, Mem.load64_store64, Mem.load64_store64_ne, hcx, hz, h32,
    ne_eq, hne, not_false_eq_true, if_true]

/-- `absorb` writes the two headers and the one behind them, and nothing else. -/
theorem eqOn_absorb (hb : HdrAt m e a b) (hc : HdrAt m e (a + 32 + b.len) c)
    (hx : a + 32 + b.len + 32 + c.len = e ∨ a + 32 + b.len + 32 + c.len + 32 ≤ e)
    (he : e < 2 ^ 64) {lo hi : Nat} (h1 : a + 32 ≤ lo ∨ hi ≤ a)
    (h2 : a + 32 + b.len + 32 ≤ lo ∨ hi ≤ a + 32 + b.len)
    (h3 : a + 32 + b.len + 32 + c.len = e ∨ a + 32 + b.len + 32 + c.len + 32 ≤ lo ∨
      hi ≤ a + 32 + b.len + 32 + c.len) (hhi : hi ≤ 2 ^ 64) :
    Mem.EqOn m (absorb m (adr a) (adr (a + 32 + b.len))) lo hi := by
  by_cases hlast : a + 32 + b.len + 32 + c.len = e
  · rw [absorb_last hb hc hlast he]
    refine Mem.EqOn.trans ?_ (Mem.EqOn.fill _ _ (by omega) (by omega) (by omega) (by omega))
    refine Mem.EqOn.trans ?_ (Mem.EqOn.store64 _ _ (by omega) (by omega) (by omega))
    exact Mem.EqOn.store64 _ _ (by omega) (by omega) (by omega)
  · rw [absorb_inner hb hc (by omega) he]
    refine Mem.EqOn.trans ?_ (Mem.EqOn.fill _ _ (by omega) (by omega) (by omega) (by omega))
    refine Mem.EqOn.trans ?_ (Mem.EqOn.store64 _ _ (by omega) (by omega) (by omega))
    refine Mem.EqOn.trans ?_ (Mem.EqOn.store64 _ _ (by omega) (by omega) (by omega))
    exact Mem.EqOn.store64 _ _ (by omega) (by omega) (by omega)

/-- The absorbed header is left zero. -/
theorem absorb_zero (m : Mem) (hdr : Word) (x : Nat) {i : Nat} (hi : i < 32) :
    absorb m hdr (adr x) (adr (x + i)) = 0 := by
  unfold absorb
  refine Mem.fill_at ?_
  rw [← adr_add]
  exact within_add hi (by decide)

/-- The absorption step: `c` becomes part of `b`, the block behind points back
to `b`. -/
theorem absorb_refines {l : List Blk} (hb : HdrAt m e a b)
    (hc : HdrAt m e (a + 32 + b.len) c) (hl : Blocks m e (a + 32 + b.len + 32 + c.len) l)
    (hx : a + 32 + b.len + 32 + c.len + span l = e) (he : e < 2 ^ 64) :
    Blocks (absorb m (adr a) (adr (a + 32 + b.len))) e a
        (b.resize (b.len + 32 + c.len) :: setHeadPrev (adr a) l) ∧
      WithinHeap m (absorb m (adr a) (adr (a + 32 + b.len))) a e := by
  obtain ⟨hbm, hbf, -, hbp, -⟩ := hdrAt_iff.mp hb
  have hend : a + 32 + (b.len + 32 + c.len) = a + 32 + b.len + 32 + c.len := by omega
  have hspan := span_pos l
  refine ⟨?_, ?_, ?_⟩
  · cases l with
    | nil =>
      simp only [span, Nat.add_zero] at hx
      have hz : link e (a + 32 + b.len + 32 + c.len) = 0 := if_pos hx
      rw [absorb_last hb hc hx he]
      refine ⟨hdrAt_iff.mpr ⟨hbm, ?_, ?_, ?_, ?_⟩, trivial⟩ <;>
        simp (disch := omega) only [Mem.load64_fill_ne, Mem.load64_store64, Mem.load64_store64_ne,
          hbf, hbp, hend, hz, Blk.resize_flags, Blk.resize_len, Blk.resize_prev]
    | cons d l =>
      obtain ⟨hd, hl⟩ := hl
      simp only [span] at hx
      obtain ⟨hdm, hdf, hdl, -, hdx⟩ := hdrAt_iff.mp hd
      have hz : link e (a + 32 + b.len + 32 + c.len) = adr (a + 32 + b.len + 32 + c.len) :=
        if_neg (by omega)
      have hrest := hl.transport (eqOn_absorb hb hc (.inr (by omega)) he (by omega) (by omega)
        (by omega) (by omega))
      rw [absorb_inner hb hc (by omega) he] at hrest ⊢
      refine ⟨hdrAt_iff.mpr ⟨hbm, ?_, ?_, ?_, ?_⟩, ?_⟩
      iterate 4
        simp (disch := omega) only [Mem.load64_fill_ne, Mem.load64_store64, Mem.load64_store64_ne,
          hbf, hbp, hend, hz, Blk.resize_flags, Blk.resize_len, Blk.resize_prev]
      rw [Blk.resize_len, hend]
      refine ⟨hdrAt_iff.mpr ⟨hdm, ?_, ?_, ?_, ?_⟩, hrest⟩ <;>
        simp (disch := omega) only [Mem.load64_fill_ne, Mem.load64_store64, Mem.load64_store64_ne,
          hdf, hdl, hdx, Blk.relink_flags, Blk.relink_len, Blk.relink_prev]
  · exact eqOn_absorb hb hc (by omega) he (by omega) (by omega) (by omega) (by omega)
  · exact eqOn_absorb hb hc (by omega) he (by omega) (by omega) (by omega) (by omega)

end Absorb

/-- The first block, whether or not its `prev` link has been set. -/
theorem Blocks.head_relinked {m : Mem} {e x : Nat} {p : Word} {t : Bool} {c : Blk} {l : List Blk}
    (h : Blocks m e x (if t then setHeadPrev p (c :: l) else c :: l)) :
    ∃ c' : Blk, c'.used = c.used ∧ c'.len = c.len ∧ HdrAt m e x c' ∧
      Blocks m e (x + 32 + c.len) l := by
  cases t with
  | false => exact ⟨c, rfl, rfl, h.1, h.2⟩
  | true => exact ⟨c.relink p, rfl, rfl, h.1, h.2⟩

/-- `mergeForward` is what the second loop of `free` does. -/
theorem freeForward_refines {e : Nat} (he : e < 2 ^ 64) :
    ∀ (l : List Blk) (m : Mem) (a : Nat) (b : Blk) (t : Bool) (fuel : Nat),
      Blocks m e a (b :: (if t then setHeadPrev (adr a) l else l)) →
      a + 32 + b.len + span l = e → l.length < fuel →
      ∃ m', freeForward fuel m (adr a) = .ok m' ∧ Blocks m' e a (mergeForward a b t l) ∧
        WithinHeap m m' a e
  | _, _, _, _, _, 0, _, _, hf => absurd hf (Nat.not_lt_zero _)
  | [], m, a, b, t, fuel + 1, hbl, hx, _ => by
    simp only [span, Nat.add_zero] at hx
    have hb := hbl.1
    have hn : next m (adr a) = 0 := by rw [hb.next]; exact if_pos hx
    exact ⟨m, by rw [freeForward, if_pos hn], ⟨hb, trivial⟩, WithinHeap.refl ..⟩
  | c :: l, m, a, b, t, fuel + 1, hbl, hx, hf => by
    simp only [span] at hx
    simp only [List.length_cons] at hf
    obtain ⟨hb, hr⟩ := hbl
    obtain ⟨c', hcu, hcl, hc, hl⟩ := hr.head_relinked
    have hlink : link e (a + 32 + b.len) = adr (a + 32 + b.len) := if_neg (by omega)
    have hne : adr (a + 32 + b.len) ≠ 0 := adr_ne_zero (by omega) (by omega)
    rw [freeForward, hb.next, hlink, if_neg hne, Res.assert_of hc.hasMagic, Res.ok_bind]
    cases hu : c.used with
    | true =>
      rw [if_pos (hc.isAlloc.mpr (hcu.trans hu))]
      simp only [mergeForward, hu, if_true]
      exact ⟨m, rfl, ⟨hb, hr⟩, WithinHeap.refl ..⟩
    | false =>
      rw [if_neg (by rw [hc.isAlloc, hcu, hu]; decide)]
      simp only [mergeForward, hu]
      rw [← hcl] at hl hx ⊢
      obtain ⟨h1, h2⟩ := absorb_refines hb hc hl (by omega) he
      obtain ⟨m', h3, h4, h5⟩ := freeForward_refines he l _ a
        (b.resize (b.len + 32 + c'.len)) true fuel h1 (by rw [Blk.resize_len]; omega) (by omega)
      exact ⟨m', h3, h4, h2.trans h5⟩

end X64k.L1.Heap
