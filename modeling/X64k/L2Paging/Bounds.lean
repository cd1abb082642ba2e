import X64k.L2Paging.Code
import X64k.L2Paging.Format

/-!
# Which entries an address selects

The processor takes the bits 47..39, 38..30 and 29..21 of an address as indices
into tables of 512 entries. `map`, `get` and `unmap` mask the last two fields;
the first one is `vaddr >> 39`, with the bits 63..48 still in it. These are
clear in the lower half of the canonical addresses, where every entry that the
operations load or store is one that the processor's indices select, in the
tables of the walk or in those that `map` makes (`TableOp.code_uses`). In the
upper half they are set, and the first entry looked at lies past the end of the
PML4 (`inTables_iff`).
-/
namespace X64k.L2.Paging

open X64k.Core

/-! ## The walk -/

/-- The index that the processor reads from bit `i` of the address on. -/
def walkIndex (v : Word) (i : Nat) : Word := (v >>> i) &&& 0x1FF

/-- Bits 63..47 are all equal. -/
def SignExtended (v : Word) : Prop := ∀ i, 47 ≤ i → i < 64 → v.getLsbD i = v.getLsbD 47

/-- The entries of the processor's walk for `v`, as far as it comes: each a
table and an index. -/
def walk (m : Mem) (root v : Word) : List (Word × Word) :=
  (root, walkIndex v 39) ::
    if isPresent (entryAt m root (walkIndex v 39)) then
      let pdpt := tableOf (entryAt m root (walkIndex v 39))
      (pdpt, walkIndex v 30) ::
        if isPresent (entryAt m pdpt (walkIndex v 30)) then
          [(tableOf (entryAt m pdpt (walkIndex v 30)), walkIndex v 21)]
        else []
    else []

/-! ## The operations -/

/-- An operation on the tables, with its further arguments. -/
inductive TableOp where
  | map (paddr flags : Word)
  | get
  | unmap
  deriving DecidableEq, Repr

namespace TableOp

def Answer : TableOp → Type
  | map _ _ => Unit
  | get => Option Word
  | unmap => Bool

/-- What the operation does. -/
def exec (s : Statics) (m : Mem) (self v : Word) : (op : TableOp) → Res (op.Answer × Mem)
  | map paddr flags => Pml4.map s m self v paddr flags >>= fun m' => .ok ((), m')
  | get => .ok (Pml4.get m self v, m)
  | unmap => Pml4.unmap s m self v

/-- How it does it. -/
def code (s : Statics) (self v : Word) : (op : TableOp) → Prog op.Answer
  | map paddr flags => Code.map s self v paddr flags
  | get => Code.get self v
  | unmap => Code.unmap s self v

/-- What the operation asserts of its arguments.
mirrors src/kernel/mem/pm.cpp:26-27, 102 -/
def Accepts (v : Word) : TableOp → Prop
  | map paddr _ => v &&& 0x1FFFFF = 0 ∧ paddr &&& 0x1FFFFF = 0
  | get => True
  | unmap => v &&& 0x1FFFFF = 0

end TableOp

/-! ## What they may touch -/

/-- An entry of the walk. -/
def Walked (m : Mem) (root v a : Word) (n : Nat) : Prop :=
  ∃ e ∈ walk m root v, a = e.1 + e.2 * 8 ∧ n = 8

/-- The word of the bitmap or the counter for a page of the range. A range that
reaches the last page below 2^64 is scanned past its start again. -/
def Bookkeeping (s : Statics) (a : Word) (n : Nat) : Prop :=
  ∃ p ≤ s.stop, (s.start ≤ p ∨ 2 ^ 64 < s.stop.toNat + 0x1000) ∧
    (a = s.tracking + PM_TRACKING_INDEX (p - s.start) * 8 ∧ n = 8 ∨
      a = s.refcount + PM_REFCOUNT_INDEX (p - s.start) * 2 ∧ n = 2)

/-- A table that `map` makes, with the processor's index into it: a page
directory where the walk ends in the PDPT; where it ends in the PML4, a PDPT
and a page directory. -/
inductive Made (s : Statics) (m : Mem) (root v : Word) : Word → Word → Prop where
  | pd {a : Word} {m₁ : Mem} (hp : isPresent (entryAt m root (walkIndex v 39)))
      (hn : ¬ isPresent (entryAt m (tableOf (entryAt m root (walkIndex v 39))) (walkIndex v 30)))
      (h : alloc s m = .ok (some a, m₁)) : Made s m root v a (walkIndex v 21)
  | pdpt {a : Word} {m₁ : Mem} (hn : ¬ isPresent (entryAt m root (walkIndex v 39)))
      (h : alloc s m = .ok (some a, m₁)) : Made s m root v a (walkIndex v 30)
  | both {a b : Word} {m₁ m₂ : Mem} (hn : ¬ isPresent (entryAt m root (walkIndex v 39)))
      (h : alloc s m = .ok (some a, m₁)) (h' : alloc s m₁ = .ok (some b, m₂)) :
      Made s m root v b (walkIndex v 21)

/-- A table that is made: it is cleared byte by byte, then the entry for `v` is
written. -/
def Filled (s : Statics) (m : Mem) (root v a : Word) (n : Nat) : Prop :=
  ∃ t i, Made s m root v t i ∧ (n = 1 ∧ (∃ j < 0x1000, a = t + adr j) ∨ n = 8 ∧ a = t + i * 8)

/-- The accesses that the operation has reason to make. -/
def TableOp.Allowed (s : Statics) (m : Mem) (root v : Word) : TableOp → Word → Nat → Prop
  | .map _ _, a, n => Walked m root v a n ∨ Bookkeeping s a n ∨ Filled s m root v a n
  | .get, a, n => Walked m root v a n
  | .unmap, a, n => Walked m root v a n ∨ Bookkeeping s a n

/-- The operation starts with the entry of the PML4 that the processor starts
with; it loads and stores entries that the processor's indices select, and
bookkeeping; and it leaves all else as it was. -/
structure InTables (s : Statics) (m : Mem) (root : Word) (op : TableOp) (v : Word) : Prop where
  first : (op.code s root v).first = some (root + walkIndex v 39 * 8, 8)
  uses : (op.code s root v).Uses (op.Allowed s m root v) m
  frame : ∀ a m', op.exec s m root v = .ok (a, m') →
    ∀ x, (∀ b n, op.Allowed s m root v b n → ¬ Within b n x) → m' x = m x

section
variable {s : Statics} {m : Mem} {root v : Word} {W : Word → Nat → Prop}

theorem walkIndex_toNat (v : Word) (i : Nat) : (walkIndex v i).toNat = v.toNat / 2 ^ i % 512 := by
  have h : (0x1FF : Word).toNat = 2 ^ 9 - 1 := rfl
  exact Bits.toNat_field h v i

theorem pml4Index_toNat (v : Word) : (pml4Index v).toNat = v.toNat / 2 ^ 39 := by
  rw [pml4Index, BitVec.toNat_ushiftRight, Nat.shiftRight_eq_div_pow]

/-- The two halves of the canonical addresses. -/
theorem SignExtended.halves (h : SignExtended v) :
    v.toNat < 2 ^ 47 ∨ 2 ^ 64 - 2 ^ 47 ≤ v.toNat := by
  have hv := v.isLt
  cases h47 : v.getLsbD 47 with
  | false =>
    refine .inl (Nat.lt_pow_two_of_testBit _ fun i hi => ?_)
    rw [BitVec.testBit_toNat]
    by_cases hi' : i < 64
    · rw [h i hi hi', h47]
    · exact BitVec.getLsbD_of_ge v i (by omega)
  | true =>
    have hnot : (~~~v).toNat < 2 ^ 47 := by
      refine Nat.lt_pow_two_of_testBit _ fun i hi => ?_
      rw [BitVec.testBit_toNat, BitVec.getLsbD_not]
      by_cases hi' : i < 64
      · rw [h i hi hi', h47, Bool.not_true, Bool.and_false]
      · rw [decide_eq_false hi', Bool.false_and]
    rw [BitVec.toNat_not] at hnot
    exact .inr (by omega)

/-- In the lower half nothing is left above bit 47. -/
theorem pml4Index_low (hv : v.toNat < 2 ^ 47) : pml4Index v = walkIndex v 39 := by
  apply BitVec.eq_of_toNat_eq
  rw [pml4Index_toNat, walkIndex_toNat]
  omega

/-- `get` drops the offset, of which no index has a bit. -/
theorem pageBase_div (v : Word) {i : Nat} (hi : 21 ≤ i) :
    (v &&& ~~~(0x1FFFFF : Word)).toNat / 2 ^ i = v.toNat / 2 ^ i := by
  have h21 : (v &&& ~~~(0x1FFFFF : Word)).toNat / 2 ^ 21 = v.toNat / 2 ^ 21 := by
    rw [toNat_pageBase]
    omega
  have hpow : 2 ^ i = 2 ^ 21 * 2 ^ (i - 21) := by rw [← Nat.pow_add, Nat.add_sub_cancel' hi]
  rw [hpow, ← Nat.div_div_eq_div_mul, ← Nat.div_div_eq_div_mul, h21]

theorem pml4Index_pageBase (v : Word) :
    pml4Index (v &&& ~~~(0x1FFFFF : Word)) = pml4Index v := by
  apply BitVec.eq_of_toNat_eq
  rw [pml4Index_toNat, pml4Index_toNat, pageBase_div v (by decide)]

theorem walkIndex_pageBase (v : Word) {i : Nat} (hi : 21 ≤ i) :
    walkIndex (v &&& ~~~(0x1FFFFF : Word)) i = walkIndex v i := by
  apply BitVec.eq_of_toNat_eq
  rw [walkIndex_toNat, walkIndex_toNat, pageBase_div v hi]

/-! ## On the way down -/

theorem walk_pdpt (h : isPresent (entryAt m root (walkIndex v 39))) :
    (tableOf (entryAt m root (walkIndex v 39)), walkIndex v 30) ∈ walk m root v := by
  rw [walk, if_pos h]
  exact .tail _ (.head _)

theorem walk_pd (h : isPresent (entryAt m root (walkIndex v 39)))
    (h' : isPresent (entryAt m (tableOf (entryAt m root (walkIndex v 39))) (walkIndex v 30))) :
    (tableOf (entryAt m (tableOf (entryAt m root (walkIndex v 39))) (walkIndex v 30)),
      walkIndex v 21) ∈ walk m root v := by
  rw [walk, if_pos h]
  dsimp only
  rw [if_pos h']
  exact .tail _ (.tail _ (.head _))

section
variable (hW : ∀ a n, Walked m root v a n → W a n)
include hW

/-- An entry of the walk may be accessed. -/
theorem allows_entry {t i : Word} (he : (t, i) ∈ walk m root v) : W (t + i * 8) 8 :=
  hW _ _ ⟨(t, i), he, rfl, rfl⟩

/-- The way down through PML4 and PDPT, which the three operations share. -/
theorem descend_uses {α : Type} {inPd : Word → Word → Prog α} {noPd : Word → Prog α}
    {noPdpt : Prog α}
    (h3 : ∀ e e', (tableOf e', walkIndex v 21) ∈ walk m root v → (inPd e e').Uses W m)
    (h2 : isPresent (entryAt m root (walkIndex v 39)) →
      ¬ isPresent (entryAt m (tableOf (entryAt m root (walkIndex v 39))) (walkIndex v 30)) →
      (noPd (entryAt m root (walkIndex v 39))).Uses W m)
    (h1 : ¬ isPresent (entryAt m root (walkIndex v 39)) → noPdpt.Uses W m) :
    (do
      let e ← Code.entryAt root (walkIndex v 39)
      if isPresent e then do
        let pml4e ← Code.entryAt root (walkIndex v 39)
        let e ← Code.entryAt (tableOf pml4e) (walkIndex v 30)
        if isPresent e then do
          let pdpte ← Code.entryAt (tableOf pml4e) (walkIndex v 30)
          inPd pml4e pdpte
        else noPd pml4e
      else noPdpt).Uses W m := by
  have c1 := allows_entry hW (.head _)
  refine Prog.uses_load c1 rfl (Prog.uses_ite (fun hp => ?_) h1)
  have c2 := allows_entry hW (walk_pdpt hp)
  refine Prog.uses_load c1 rfl (Prog.uses_load c2 rfl (Prog.uses_ite (fun hp' => ?_) (h2 hp)))
  exact Prog.uses_load c2 rfl (h3 _ _ (walk_pd hp hp'))

end

/-! ## Bookkeeping -/

section
variable (hB : ∀ a n, Bookkeeping s a n → W a n)
include hB

/-- Bit and counter of an address of the range. -/
theorem allows_bookkeeping {p : Word} (hle : p ≤ s.stop)
    (hge : s.start ≤ p ∨ 2 ^ 64 < s.stop.toNat + 0x1000) :
    W (s.tracking + PM_TRACKING_INDEX (p - s.start) * 8) 8 ∧
      W (s.refcount + PM_REFCOUNT_INDEX (p - s.start) * 2) 2 :=
  ⟨hB _ _ ⟨p, hle, hge, .inl ⟨rfl, rfl⟩⟩, hB _ _ ⟨p, hle, hge, .inr ⟨rfl, rfl⟩⟩⟩

theorem incRefs_uses (a : Word) : (Code.incRefs s a).Uses W m := by
  refine Prog.uses_assert fun hc => Prog.uses_assert fun _ => ?_
  have hcount := (allows_bookkeeping hB hc.2 (.inl hc.1)).2
  exact .load hcount (.store hcount (.ret _ _))

theorem decRefs_uses (a : Word) : (Code.decRefs s a).Uses W m := by
  refine Prog.uses_assert fun hc => Prog.uses_assert fun _ => ?_
  have hcount := (allows_bookkeeping hB hc.2 (.inl hc.1)).2
  refine .load hcount (Prog.uses_ite (fun _ => ?_) fun _ => .ret _ _)
  exact .load hcount (.store hcount (.ret _ _))

theorem free_uses {a : Word} (hc : s.contains a) : (Code.free s a).Uses W m := by
  have hbit := (allows_bookkeeping hB hc.2 (.inl hc.1)).1
  refine Prog.uses_load hbit rfl (Prog.uses_assert fun _ => ?_)
  exact Prog.uses_load hbit rfl (Prog.uses_store64 hbit)

/-- The scan, by induction on its bound: the bits that it tests, and the page
that it ends with. -/
theorem allocFrom_uses {fuel : Nat} {a : Word} (hge : s.start ≤ a ∨ 2 ^ 64 < s.stop.toNat + 0x1000)
    (hpage : ∀ t m', allocFrom s m fuel a = .ok (some t, m') → ∀ j < 0x1000, W (t + adr j) 1) :
    (Code.allocFrom s fuel a).Uses W m := by
  induction fuel generalizing a with
  | zero => exact .fail _ _
  | succ fuel ih =>
    have hstep : allocFrom s m (fuel + 1) a = if a < s.stop then _ else _ := rfl
    refine Prog.uses_ite (fun hlt => ?_) fun _ => .ret _ _
    rw [hstep, if_pos hlt] at hpage
    have hbits := (allows_bookkeeping hB (BitVec.le_of_lt hlt) hge).1
    refine Prog.uses_load hbits rfl (Prog.uses_ite (fun hbit => ?_) fun hbit => ?_)
    · refine Prog.uses_load hbits rfl (Prog.uses_store hbits ?_)
      refine Prog.uses_bind (Prog.uses_memset 0 _ 0 _ fun j _ hj => ?_) fun _ _ _ => .ret _ _
      exact hpage a _ (if_pos hbit) j (by omega)
    · refine ih ?_ fun t m' he => hpage t m' ((if_neg hbit).trans he)
      -- the next page, unless the scan is past the top
      rw [BitVec.lt_def] at hlt
      rw [BitVec.le_def] at hge ⊢
      rw [BitVec.toNat_add, show (0x1000 : Word).toNat = 0x1000 from rfl]
      omega

/-- A page that is handed out, and what is done with it. -/
theorem alloc_uses {α : Type} {msg : String} {f : Word → Prog α}
    (hpage : ∀ t m₁, alloc s m = .ok (some t, m₁) → ∀ j < 0x1000, W (t + adr j) 1)
    (hf : ∀ t m₁, alloc s m = .ok (some t, m₁) → (f t).Uses W m₁) :
    (Code.alloc s >>= fun o => Code.orPanic o msg >>= f).Uses W m := by
  refine Prog.uses_bind (allocFrom_uses hB (.inl (BitVec.le_refl _)) hpage) fun o m₁ hr => ?_
  have ha : alloc s m = .ok (o, m₁) := Code.alloc_run.symm.trans hr
  cases o with
  | none => exact .fail _ _
  | some t => exact hf t m₁ ha

theorem incBoth_uses (a b : Word) : (Code.incRefs s a >>= fun _ => Code.incRefs s b).Uses W m :=
  Prog.uses_bind (incRefs_uses hB a) fun _ _ _ => incRefs_uses hB b

end

/-! ## The operations -/

/-- A table that is made may be cleared and filled. -/
theorem allows_made (hF : ∀ a n, Filled s m root v a n → W a n) {t i : Word}
    (h : Made s m root v t i) : W (t + i * 8) 8 ∧ ∀ j < 0x1000, W (t + adr j) 1 :=
  ⟨hF _ _ ⟨t, i, h, .inr ⟨rfl, rfl⟩⟩, fun j hj => hF _ _ ⟨t, i, h, .inl ⟨rfl, j, hj, rfl⟩⟩⟩

theorem mapNewPd_uses {pdpt leaf : Word} (hB : ∀ a n, Bookkeeping s a n → W a n)
    (hF : ∀ a n, Filled s m root v a n → W a n)
    (hmade : ∀ t m₁, alloc s m = .ok (some t, m₁) → Made s m root v t (walkIndex v 21))
    (hentry : W (pdpt + walkIndex v 30 * 8) 8) :
    (Code.mapNewPd s pdpt (walkIndex v 30) (walkIndex v 21) leaf).Uses W m := by
  refine alloc_uses hB (fun t m₁ h => (allows_made hF (hmade t m₁ h)).2) fun pd m₁ h => ?_
  refine Prog.uses_store (allows_made hF (hmade pd m₁ h)).1 (Prog.uses_store hentry ?_)
  exact incBoth_uses hB _ _

theorem mapNewPdpt_uses {leaf : Word} (hB : ∀ a n, Bookkeeping s a n → W a n)
    (hF : ∀ a n, Filled s m root v a n → W a n)
    (hn : ¬ isPresent (entryAt m root (walkIndex v 39)))
    (hentry : W (root + walkIndex v 39 * 8) 8) :
    (Code.mapNewPdpt s root (walkIndex v 39) (walkIndex v 30) (walkIndex v 21) leaf).Uses W m := by
  have hpdpt {t : Word} {m₁ : Mem} (h : alloc s m = .ok (some t, m₁)) :=
    allows_made hF (.pdpt hn h)
  refine alloc_uses hB (fun t m₁ h => (hpdpt h).2) fun pdpt m₁ h => ?_
  have hpd {t : Word} {m₂ : Mem} (h' : alloc s m₁ = .ok (some t, m₂)) :=
    allows_made hF (.both hn h h')
  refine alloc_uses hB (fun t m₂ h' => (hpd h').2) fun pd m₂ h' => ?_
  refine Prog.uses_store (hpd h').1 (Prog.uses_store (hpdpt h).1 (Prog.uses_store hentry ?_))
  exact incBoth_uses hB _ _

theorem mapInPd_uses {pd leaf : Word} (hB : ∀ a n, Bookkeeping s a n → W a n)
    (hentry : W (pd + walkIndex v 21 * 8) 8) : (Code.mapInPd s pd (walkIndex v 21) leaf).Uses W m := by
  refine Prog.uses_load hentry rfl (Prog.uses_ite (fun _ => .fail _ _) fun _ => ?_)
  exact Prog.uses_store hentry (incRefs_uses hB pd)

/-- A counter is looked at only for a page of the range. -/
theorem decRefs_contains {a : Word} {n : BitVec 16} {m' : Mem}
    (h : (Code.decRefs s a).run m = .ok (n, m')) : s.contains a := by
  rw [Code.decRefs_run] at h
  obtain ⟨⟨⟩, hc, -⟩ := Res.bind_eq_ok.mp h
  by_contra hn
  rw [assert, if_neg hn] at hc
  cases hc

theorem dropPd_uses (hB : ∀ a n, Bookkeeping s a n → W a n) (pdpt pd : Word) :
    (Code.dropPd s pdpt pd).Uses W m := by
  refine Prog.uses_bind (decRefs_uses hB pd) fun n m₁ hr => ?_
  refine Prog.uses_ite (fun _ => ?_) fun _ => .ret _ _
  refine Prog.uses_bind (free_uses hB (decRefs_contains hr)) fun _ m₂ _ => ?_
  refine Prog.uses_bind (decRefs_uses hB pdpt) fun n m₃ hr' => ?_
  exact Prog.uses_ite (fun _ => free_uses hB (decRefs_contains hr')) fun _ => .ret _ _

theorem map_uses {paddr flags : Word} (hi : pml4Index v = walkIndex v 39)
    (hW : ∀ a n, Walked m root v a n → W a n) (hB : ∀ a n, Bookkeeping s a n → W a n)
    (hF : ∀ a n, Filled s m root v a n → W a n) : (Code.map s root v paddr flags).Uses W m := by
  refine Prog.uses_assert fun _ => Prog.uses_assert fun _ => ?_
  rw [hi]
  refine descend_uses hW (fun e e' he => ?_) (fun hp hn => ?_) fun hn => ?_
  · exact mapInPd_uses hB (allows_entry hW he)
  · exact mapNewPd_uses hB hF (fun t m₁ h => .pd hp hn h) (allows_entry hW (walk_pdpt hp))
  · exact mapNewPdpt_uses hB hF hn (allows_entry hW (.head _))

theorem get_uses (hi : pml4Index v = walkIndex v 39) (hW : ∀ a n, Walked m root v a n → W a n) :
    (Code.get root v).Uses W m := by
  have h30 : pdptIndex (v &&& ~~~(0x1FFFFF : Word)) = walkIndex v 30 :=
    walkIndex_pageBase v (by decide)
  have h21 : pdIndex (v &&& ~~~(0x1FFFFF : Word)) = walkIndex v 21 :=
    walkIndex_pageBase v (by decide)
  rw [Code.get, pml4Index_pageBase, hi, h30, h21]
  refine descend_uses hW (fun e e' he => ?_) (fun _ _ => .ret _ _) fun _ => .ret _ _
  have c3 := allows_entry hW he
  refine Prog.uses_load c3 rfl (Prog.uses_ite (fun _ => ?_) fun _ => .ret _ _)
  exact Prog.uses_load c3 rfl (.ret _ _)

theorem unmap_uses (hi : pml4Index v = walkIndex v 39) (hW : ∀ a n, Walked m root v a n → W a n)
    (hB : ∀ a n, Bookkeeping s a n → W a n) : (Code.unmap s root v).Uses W m := by
  refine Prog.uses_assert fun _ => ?_
  rw [hi]
  refine descend_uses hW (fun e e' he => ?_) (fun _ _ => .ret _ _) fun _ => .ret _ _
  refine Prog.uses_load (allows_entry hW he) rfl (Prog.uses_ite (fun _ => ?_) fun _ => .ret _ _)
  exact Prog.uses_bind (dropPd_uses hB _ _) fun _ _ _ => .ret _ _

namespace TableOp

/-- The program computes the operation. -/
theorem code_run (op : TableOp) : (op.code s root v).run m = op.exec s m root v := by
  cases op with
  | map paddr flags => exact Code.map_computes root v paddr flags
  | get => exact Code.get_computes root v
  | unmap => exact Code.unmap_computes root v

/-- Whatever the address, the first access is `m_entries[pml4i]`. -/
theorem code_first {op : TableOp} (ha : op.Accepts v) :
    (op.code s root v).first = some (root + pml4Index v * 8, 8) := by
  cases op with
  | map paddr flags =>
    rw [code, Code.map, Prog.assert_seq ha.1, Prog.assert_seq ha.2]
    rfl
  | get =>
    rw [code, Code.get, pml4Index_pageBase]
    rfl
  | unmap =>
    have ha : v &&& 0x1FFFFF = 0 := ha
    rw [code, Code.unmap, Prog.assert_seq ha]
    rfl

/-- With the processor's index into the PML4, all accesses are as they should
be. -/
theorem code_uses (hi : pml4Index v = walkIndex v 39) (op : TableOp) :
    (op.code s root v).Uses (op.Allowed s m root v) m := by
  cases op with
  | map paddr flags =>
    exact map_uses hi (fun _ _ => .inl) (fun _ _ h => .inr (.inl h)) fun _ _ h => .inr (.inr h)
  | get => exact get_uses hi fun _ _ => id
  | unmap => exact unmap_uses hi (fun _ _ => .inl) fun _ _ => .inr

end TableOp

/-- Only the processor's index gives the processor's entry. -/
theorem entry_inj (h : root + pml4Index v * 8 = root + walkIndex v 39 * 8) :
    v.toNat / 2 ^ 39 = v.toNat / 2 ^ 39 % 512 := by
  have h8 := congrArg BitVec.toNat ((BitVec.add_right_inj _).mp h)
  have h1 := pml4Index_toNat v
  have h2 := walkIndex_toNat v 39
  have h64 := v.isLt
  rw [BitVec.toNat_mul, BitVec.toNat_mul, show (8 : Word).toNat = 8 from rfl] at h8
  omega

end

/-- **The tables' entries.** Each operation is its program. For a canonical
address, that program uses the entries which the processor's indices select,
and none outside the tables, exactly when the address is in the lower half. -/
theorem inTables_iff (s : Statics) (m : Mem) (root : Word) (op : TableOp) {v : Word}
    (hv : SignExtended v) (ha : op.Accepts v) :
    (op.code s root v).run m = op.exec s m root v ∧
      (InTables s m root op v ↔ v.toNat < 2 ^ 47) := by
  refine ⟨op.code_run, fun h => ?_, fun hlow => ?_⟩
  · have h64 := v.isLt
    have hidx := entry_inj (Prod.mk.inj (Option.some.inj ((TableOp.code_first ha).symm.trans h.first))).1
    rcases hv.halves with hlow | hhigh
    · exact hlow
    · omega
  · have hi := pml4Index_low hlow
    have huses : (op.code s root v).Uses (op.Allowed s m root v) m := op.code_uses hi
    refine ⟨by rw [TableOp.code_first ha, hi], huses, fun a m' he x hx => ?_⟩
    exact huses.frame (op.code_run.trans he) hx

/-- A page of the kernel's image, mapped one to one. -/
theorem inTables_kernel : InTables ⟨0x100000, 0x3FF000, 0x3FF000, 0x3FF100, 767, 0x100000, 0x100000⟩
    ⟨fun _ => 0⟩ 0x100000 (.map 0x400000 F_RW) 0x400000 :=
  (inTables_iff _ _ _ (.map 0x400000 F_RW) (by unfold SignExtended; decide)
    ⟨by decide, by decide⟩).2.mpr (by decide)

/-- **The first address of the upper half**: `map` starts with the entry
0x1FFFF00 of the PML4. -/
theorem past_table : ¬ ∀ (s : Statics) (m : Mem) (root : Word) (op : TableOp) (v : Word),
    SignExtended v → op.Accepts v → InTables s m root op v := by
  intro hall
  have hs : SignExtended 0xFFFF800000000000 := by
    unfold SignExtended
    decide
  have ha : (TableOp.map 0 0).Accepts 0xFFFF800000000000 := ⟨by decide, by decide⟩
  have h := hall ⟨0x100000, 0x3FF000, 0x3FF000, 0x3FF100, 767, 0x100000, 0x100000⟩ ⟨fun _ => 0⟩
    0x100000 (.map 0 0) 0xFFFF800000000000 hs ha
  exact absurd ((TableOp.code_first ha).symm.trans h.first) (by decide)

end X64k.L2.Paging
