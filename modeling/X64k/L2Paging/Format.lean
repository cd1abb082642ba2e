import X64k.Core.Bits
import X64k.Core.Radix
import X64k.L2Paging.Model
import Mathlib.Data.Fintype.Card

/-!
# Tables in memory

The format shared by everything that reads or writes tables: 512 entries of
eight bytes, `nx` the table an entry names, `lf` the 2 MiB frame it maps, and
the three indices of an address.

* `get_eq`: `Pml4::get` is the lookup along the path of the address.
* `TablesShow`: the memory holds given entries on a set of tables that lie
  apart; how it changes under a store to an entry, a cleared table, and writes
  elsewhere.
* `presentCount`: how many entries of a table are present.
-/
namespace X64k.L2.Paging

open X64k.Core X64k.Core.Radix

/-! ## Entries -/

/-- Entry `i` of the table at `t`. -/
def entry (m : Mem) (t : Word) (i : Fin 512) : Word := m.load64 (adr (t.toNat + 8 * i))

theorem entryAt_adr (m : Mem) (t : Word) (i : Fin 512) : entryAt m t (adr i) = entry m t i :=
  congrArg m.load64 (adr_index t i 8)

theorem setEntryAt_adr (m : Mem) (t : Word) (i : Fin 512) (e : Word) :
    setEntryAt m t (adr i) e = m.store64 (adr (t.toNat + 8 * i)) e :=
  congrArg (m.store64 · e) (adr_index t i 8)

/-- The table an entry names. -/
def nx (e : Word) : Option Word := if isPresent e then some (tableOf e) else none

/-- The frame a page directory entry maps. -/
def lf (e : Word) : Option Word := if isPresent e then some (e &&& ~~~(0x1FFFFF : Word)) else none

/-- The entry that names a table. -/
def link (t : Word) : Word := t ||| F_PRESENT ||| F_RW

@[simp] theorem nx_zero : nx 0 = none := if_neg (by decide)
@[simp] theorem lf_zero : lf 0 = none := if_neg (by decide)

theorem nx_eq_none {e : Word} : nx e = none ↔ ¬ isPresent e := by
  unfold nx
  split <;> simp_all

theorem present_of_nx {e t : Word} (h : nx e = some t) : isPresent e ∧ tableOf e = t := by
  unfold nx at h
  split at h
  · rename_i hp
    exact ⟨hp, Option.some.inj h⟩
  · cases h

/-- Bit 0 of an entry is the present bit. -/
theorem isPresent_iff {e : Word} : isPresent e ↔ e.getLsbD 0 = true := by
  have h : F_PRESENT = (1#64) <<< 0 := rfl
  rw [isPresent, ne_eq, h, show (0 : Word) = 0#64 from rfl, Bits.and_bit_eq_zero (by decide)]
  simp

theorem isPresent_or {e f : Word} (h : isPresent f) : isPresent (e ||| f) := by
  rw [isPresent_iff] at *
  rw [BitVec.getLsbD_or, h, Bool.or_true]

/-- Bits added below a mask that cuts none of the rest. -/
theorem or_and_not_mask {t f k : Word} (ht : t &&& k = 0) (hf : f &&& ~~~k = 0) :
    (t ||| f) &&& ~~~k = t := by
  have h : t &&& ~~~k = t := by
    calc t &&& ~~~k = (t &&& ~~~k) ||| (t &&& k) := by rw [ht]; exact BitVec.or_zero.symm
      _ = t &&& (~~~k ||| k) := (BitVec.and_or_distrib_left ..).symm
      _ = t := by
        rw [show ~~~k ||| k = BitVec.allOnes 64 by
          apply BitVec.eq_of_getLsbD_eq; intro i hi; simp [hi], BitVec.and_allOnes]
  rw [BitVec.and_or_distrib_right, h, hf]
  exact BitVec.or_zero

/-- A page address survives the flags added to it. -/
theorem nx_or {t f : Word} (ht : t &&& 0xFFF = 0) (hf : f &&& ~~~(0xFFF : Word) = 0)
    (hp : isPresent f) : nx (t ||| f) = some t := by
  rw [nx, if_pos (isPresent_or hp), tableOf, or_and_not_mask ht hf]

theorem lf_or {p f : Word} (hpa : p &&& 0x1FFFFF = 0) (hf : f &&& ~~~(0x1FFFFF : Word) = 0)
    (hp : isPresent f) : lf (p ||| f) = some p := by
  rw [lf, if_pos (isPresent_or hp), or_and_not_mask hpa hf]

theorem nx_link {t : Word} (ht : t &&& 0xFFF = 0) : nx (link t) = some t := by
  rw [link, BitVec.or_assoc]
  exact nx_or ht (by decide) (by decide)

theorem link_present (t : Word) : isPresent (link t) := by
  rw [link, BitVec.or_assoc]
  exact isPresent_or (by decide)

/-- Entries as the code writes them. -/
theorem leaf_present (p f : Word) : isPresent (p ||| f ||| F_PRESENT ||| F_PS) := by
  rw [BitVec.or_assoc]
  exact isPresent_or (by decide)

/-! ## Paths -/

def pml4Ix (v : Word) : Fin 512 := ⟨v.toNat / 2 ^ 39 % 512, Nat.mod_lt _ (by decide)⟩
def pdptIx (v : Word) : Fin 512 := ⟨v.toNat / 2 ^ 30 % 512, Nat.mod_lt _ (by decide)⟩
def pdIx (v : Word) : Fin 512 := ⟨v.toNat / 2 ^ 21 % 512, Nat.mod_lt _ (by decide)⟩

theorem pml4Index_eq {v : Word} (hv : v.toNat < 2 ^ 48) : pml4Index v = adr (pml4Ix v) := by
  apply BitVec.eq_of_toNat_eq
  rw [pml4Index, BitVec.toNat_ushiftRight, Nat.shiftRight_eq_div_pow, pml4Ix, adr_toNat (by omega)]
  show _ = v.toNat / 2 ^ 39 % 512
  omega

theorem pdptIndex_eq (v : Word) : pdptIndex v = adr (pdptIx v) := by
  have h : (0x1FF : Word).toNat = 2 ^ 9 - 1 := rfl
  apply BitVec.eq_of_toNat_eq
  rw [pdptIndex, Bits.toNat_field h, pdptIx, adr_toNat (by omega)]
  rfl

theorem pdIndex_eq (v : Word) : pdIndex v = adr (pdIx v) := by
  have h : (0x1FF : Word).toNat = 2 ^ 9 - 1 := rfl
  apply BitVec.eq_of_toNat_eq
  rw [pdIndex, Bits.toNat_field h, pdIx, adr_toNat (by omega)]
  rfl

/-- Below `2^48`, the path tells the 2 MiB page. -/
theorem path_eq_iff {v w : Word} (hv : v.toNat < 2 ^ 48) (hw : w.toNat < 2 ^ 48) :
    (pml4Ix v = pml4Ix w ∧ pdptIx v = pdptIx w ∧ pdIx v = pdIx w) ↔ v >>> 21 = w >>> 21 := by
  rw [← BitVec.toNat_inj]
  simp only [pml4Ix, pdptIx, pdIx, Fin.mk.injEq, BitVec.toNat_ushiftRight,
    Nat.shiftRight_eq_div_pow]
  omega

/-- The page's part of an address. -/
theorem toNat_pageBase (v : Word) :
    (v &&& ~~~(0x1FFFFF : Word)).toNat = v.toNat / 2 ^ 21 * 2 ^ 21 := by
  rw [show (0x1FFFFF : Word) = BitVec.ofNat 64 (2 ^ 21 - 1) from rfl,
    Bits.toNat_clearLow v (by decide)]

theorem path_pageBase (v : Word) : pml4Ix (v &&& ~~~(0x1FFFFF : Word)) = pml4Ix v ∧
    pdptIx (v &&& ~~~(0x1FFFFF : Word)) = pdptIx v ∧ pdIx (v &&& ~~~(0x1FFFFF : Word)) = pdIx v := by
  simp only [pml4Ix, pdptIx, pdIx, Fin.mk.injEq, toNat_pageBase]
  omega

/-- `Pml4::get` looks up the frame along the address's path. -/
theorem get_eq (m : Mem) (t : Word) {v : Word} (hv : v.toNat < 2 ^ 48) :
    Pml4.get m t v = (Radix.get nx lf (entry m) t (pml4Ix v) (pdptIx v) (pdIx v)).map
      (· ||| (v &&& 0x1FFFFF)) := by
  obtain ⟨h1, h2, h3⟩ := path_pageBase v
  have hb : (v &&& ~~~(0x1FFFFF : Word)).toNat < 2 ^ 48 := by rw [toNat_pageBase]; omega
  unfold Pml4.get Radix.get
  dsimp only
  rw [pml4Index_eq hb, pdptIndex_eq, pdIndex_eq, h1, h2, h3]
  simp only [entryAt_adr]
  unfold nx lf
  by_cases p1 : isPresent (entry m t (pml4Ix v))
  · simp only [if_pos p1, Option.bind_some]
    by_cases p2 : isPresent (entry m (tableOf (entry m t (pml4Ix v))) (pdptIx v))
    · simp only [if_pos p2, Option.bind_some]
      split <;> rfl
    · simp only [if_neg p2, Option.bind_none, Option.map_none]
  · simp only [if_neg p1, Option.bind_none, Option.map_none]

/-- A frame and an offset below it. -/
theorem or_offset {p : Word} (hp : p &&& 0x1FFFFF = 0) (w : Word) :
    p ||| (w &&& 0x1FFFFF) = p + (w &&& 0x1FFFFF) := by
  have h : p &&& (w &&& 0x1FFFFF) = 0#64 := by
    rw [← BitVec.and_assoc, BitVec.and_comm p w, BitVec.and_assoc, hp]
    exact BitVec.and_zero
  exact (BitVec.add_eq_or_of_and_eq_zero _ _ h).symm

/-- The frame of the entry that `map` stores. -/
def frameOf (p f : Word) : Word := (p ||| f ||| F_PRESENT ||| F_PS) &&& ~~~(0x1FFFFF : Word)

theorem lf_leaf (p f : Word) : lf (p ||| f ||| F_PRESENT ||| F_PS) = some (frameOf p f) :=
  if_pos (leaf_present p f)

/-- Flags below bit 21 do not reach the frame. -/
theorem frameOf_eq {p f : Word} (hp : p &&& 0x1FFFFF = 0) (hf : f &&& ~~~(0x1FFFFF : Word) = 0) :
    frameOf p f = p := by
  have h : (f ||| F_PRESENT ||| F_PS) &&& ~~~(0x1FFFFF : Word) = 0 := by
    rw [BitVec.or_assoc, BitVec.and_or_distrib_right, hf]
    decide
  rw [frameOf, BitVec.or_assoc p, BitVec.or_assoc p, or_and_not_mask hp h]

theorem aligned_iff {v : Word} : v &&& 0x1FFFFF = 0 ↔ v.toNat % 2 ^ 21 = 0 := by
  have h1 : (0x1FFFFF : Word).toNat = 2 ^ 21 - 1 := rfl
  rw [← BitVec.toNat_inj, Bits.toNat_and_low h1]
  exact Iff.rfl

/-- Pages by their number. -/
theorem shift_eq_iff {v w : Word} : v >>> 21 = w >>> 21 ↔ v.toNat / 2 ^ 21 = w.toNat / 2 ^ 21 := by
  rw [← BitVec.toNat_inj, BitVec.toNat_ushiftRight, BitVec.toNat_ushiftRight,
    Nat.shiftRight_eq_div_pow, Nat.shiftRight_eq_div_pow]

/-- An address in the page of an aligned one. -/
theorem page_offset {v off : Word} (hv : v.toNat < 2 ^ 48) (hva : v &&& 0x1FFFFF = 0)
    (hoff : off.toNat < 2 ^ 21) : (v + off).toNat < 2 ^ 48 ∧ (v + off) >>> 21 = v >>> 21 ∧
      (v + off) &&& 0x1FFFFF = off := by
  have h1 : (0x1FFFFF : Word).toNat = 2 ^ 21 - 1 := rfl
  have h3 := aligned_iff.mp hva
  have h4 : (v + off).toNat = v.toNat + off.toNat := by
    rw [BitVec.toNat_add]; omega
  refine ⟨by omega, shift_eq_iff.mpr (by omega), ?_⟩
  apply BitVec.eq_of_toNat_eq
  rw [Bits.toNat_and_low h1, h4]
  omega

/-! ## Present entries -/

/-- Present entries of a table. -/
def presentCount (row : Fin 512 → Word) : Nat :=
  (Finset.univ.filter fun i => isPresent (row i)).card

section
variable {k : Fin 512}

theorem presentCount_set {row row' : Fin 512 → Word} (hoff : ∀ x, x ≠ k → row' x = row x)
    (h : ¬ isPresent (row k)) (h' : isPresent (row' k)) :
    presentCount row' = presentCount row + 1 := by
  have hset : (Finset.univ.filter fun x => isPresent (row' x)) =
      insert k (Finset.univ.filter fun x => isPresent (row x)) := by
    apply Finset.ext
    intro x
    rw [Finset.mem_insert, Finset.mem_filter, Finset.mem_filter]
    by_cases hx : x = k
    · subst hx; exact iff_of_true ⟨Finset.mem_univ _, h'⟩ (.inl rfl)
    · rw [hoff x hx, or_iff_right hx]
  have hk : k ∉ Finset.univ.filter fun x => isPresent (row x) :=
    fun hm => h (Finset.mem_filter.mp hm).2
  rw [presentCount, hset, Finset.card_insert_of_notMem hk]
  rfl

theorem presentCount_single {row : Fin 512 → Word} (hoff : ∀ x, x ≠ k → row x = 0)
    (h : isPresent (row k)) : presentCount row = 1 := by
  have h0 : presentCount (fun _ => 0) = 0 := by
    rw [presentCount, Finset.filter_false_of_mem, Finset.card_empty]
    intro x _; decide
  rw [presentCount_set hoff (by decide) h, h0]

theorem presentCount_le (row : Fin 512 → Word) : presentCount row ≤ 512 := by
  have := Finset.card_filter_le (Finset.univ : Finset (Fin 512)) fun x => isPresent (row x)
  simpa [presentCount] using this

/-- One more entry, one more reference. -/
theorem count_succ {c : BitVec 16} {row row' : Fin 512 → Word} (hc : c.toNat = presentCount row)
    (hoff : ∀ x, x ≠ k → row' x = row x) (h : ¬ isPresent (row k)) (h' : isPresent (row' k)) :
    (c + 1).toNat = presentCount row' := by
  have := presentCount_le row
  rw [presentCount_set hoff h h', BitVec.toNat_add, hc]
  show (presentCount row + 1) % 65536 = _
  omega

theorem count_single {row : Fin 512 → Word} (hoff : ∀ x, x ≠ k → row x = 0)
    (h : isPresent (row k)) : ((0 : BitVec 16) + 1).toNat = presentCount row := by
  rw [presentCount_single hoff h]; rfl

end

/-! ## Tables that lie apart -/

/-- `n` bytes at `a` and `k` bytes at `b`, as numbers, do not meet. -/
abbrev Apart (a n b k : Nat) : Prop := a + n ≤ b ∨ b + k ≤ a

/-- Tables in the address space, apart from each other. -/
structure Spread (P : Set Word) : Prop where
  bound : ∀ t ∈ P, t.toNat + 4096 ≤ 2 ^ 64
  apart : ∀ t ∈ P, ∀ t' ∈ P, t ≠ t' → Apart t.toNat 4096 t'.toNat 4096

/-- The memory holds the entries `E` on the tables in `P`. -/
def TablesShow (m : Mem) (P : Set Word) (E : Word → Fin 512 → Word) : Prop :=
  ∀ t ∈ P, ∀ i, entry m t i = E t i

section TablesShow
variable {m m' : Mem} {P : Set Word} {E : Word → Fin 512 → Word}

theorem TablesShow.store (hP : Spread P) (h : TablesShow m P E) {t : Word} (ht : t ∈ P)
    (i : Fin 512) (e : Word) :
    TablesShow (m.store64 (adr (t.toNat + 8 * i)) e) P (setAt E t i e) := by
  have h1 := hP.bound t ht
  have hi := i.isLt
  intro t' ht' i'
  have h4 := hP.bound t' ht'
  have hi' := i'.isLt
  rw [setAt, ← h t' ht' i']
  unfold entry
  by_cases hte : t' = t
  · subst hte
    by_cases hie : i' = i
    · rw [if_pos ⟨rfl, hie⟩, hie, Mem.load64_store64]
    · have : (i' : Nat) ≠ i := fun he => hie (Fin.ext he)
      rw [if_neg (fun he => hie he.2), Mem.load64_store64_ne m e (by omega) (by omega) (by omega)]
  · have h5 := hP.apart t' ht' t ht hte
    rw [if_neg (fun he => hte he.1), Mem.load64_store64_ne m e (by omega) (by omega) (by omega)]

theorem TablesShow.clear (hP : Spread P) (h : TablesShow m P E) {t : Word} (ht : t ∈ P) :
    TablesShow (m.fill (adr t.toNat) 4096 0#8) P (clearAt E t 0) := by
  have h1 := hP.bound t ht
  intro t' ht' i'
  have h4 := hP.bound t' ht'
  have hi' := i'.isLt
  rw [clearAt, ← h t' ht' i']
  unfold entry
  by_cases hte : t' = t
  · rw [if_pos hte, hte]
    exact Mem.load64_fill_at m (by omega) (by omega)
  · have h5 := hP.apart t' ht' t ht hte
    rw [if_neg hte]
    exact Mem.load64_fill_ne m 0#8 (by omega) (by omega) (by omega) (by omega)

/-- Writes that leave every table alone. -/
theorem TablesShow.frame (h : TablesShow m P E)
    (hag : ∀ t ∈ P, Mem.EqOn m m' t.toNat (t.toNat + 4096)) : TablesShow m' P E := by
  intro t ht i
  have hi := i.isLt
  rw [← h t ht i]
  exact (hag t ht).load64 (by omega) (by omega)

end TablesShow

end X64k.L2.Paging
