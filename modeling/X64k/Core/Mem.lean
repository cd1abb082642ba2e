import Mathlib.Algebra.Group.Nat.Defs
/-!
# Byte memory

Memory is a function from 64-bit addresses to bytes; addresses wrap. A
`Within a n x` is the test "x is one of the n bytes from a on" made with one
wrapping subtraction, so that a store is one `if`, whatever its width.

* `loadN` / `storeN`: little-endian numbers of `n` bytes; `load64`, `store64`
  and the narrower pairs are their fixed-width forms.
* `fill`: the bytes `memset` leaves (`fillLoop_eq_fill`: what its loop does).
* `Sep a n b k`: the two byte ranges do not meet. `eqOff_store64` and the
  other frame lemmas say that a write outside a range does not change what is
  read from it; `EqOff` is agreement outside a range, `EqOn` on the addresses
  between two numbers.
-/
namespace X64k.Core

abbrev Byte := BitVec 8
abbrev Word := BitVec 64

/-! ## Addresses -/

/-- The machine word of an address. -/
abbrev adr (a : Nat) : Word := BitVec.ofNat 64 a

theorem adr_toNat {a : Nat} (h : a < 2 ^ 64) : (adr a).toNat = a := by
  rw [BitVec.toNat_ofNat, Nat.mod_eq_of_lt h]

theorem adr_inj {a b : Nat} (ha : a < 2 ^ 64) (hb : b < 2 ^ 64) : adr a = adr b ↔ a = b := by
  constructor
  · intro h
    have := congrArg BitVec.toNat h
    rwa [adr_toNat ha, adr_toNat hb] at this
  · rintro rfl; rfl

theorem adr_add (a b : Nat) : adr a + adr b = adr (a + b) := (BitVec.ofNat_add a b).symm

theorem sub_adr {x y : Nat} (h : y ≤ x) : adr x - adr y = adr (x - y) := by
  obtain ⟨z, rfl⟩ : ∃ z, x = z + y := ⟨x - y, by omega⟩
  rw [Nat.add_sub_cancel, ← adr_add, BitVec.add_sub_cancel]

theorem adr_ne_zero {a : Nat} (h0 : 0 < a) (h : a < 2 ^ 64) : adr a ≠ 0 := by
  intro he
  have := congrArg BitVec.toNat he
  rw [adr_toNat h] at this
  simp at this; omega

theorem adr_lt_iff {x y : Nat} (hx : x < 2 ^ 64) (hy : y < 2 ^ 64) : adr x < adr y ↔ x < y := by
  rw [BitVec.lt_def, adr_toNat hx, adr_toNat hy]

theorem adr_toNat_le (a : Nat) : (adr a).toNat ≤ a := by
  rw [BitVec.toNat_ofNat]; exact Nat.mod_le _ _

/-- The address of element `i` of an array of `k`-byte elements. -/
theorem adr_index (a : Word) (i k : Nat) : a + adr i * adr k = adr (a.toNat + k * i) := by
  apply BitVec.eq_of_toNat_eq
  simp only [BitVec.toNat_add, BitVec.toNat_mul, BitVec.toNat_ofNat]
  rw [Nat.mul_comm k i]
  simp [Nat.add_mod, Nat.mul_mod]

theorem adr_of_toNat (p : Word) : adr p.toNat = p := by
  rw [adr, BitVec.ofNat_toNat, BitVec.setWidth_eq]

/-! ## Memory -/

@[ext] structure Mem where
  byte : Word → Byte

instance : CoeFun Mem fun _ => Word → Byte := ⟨Mem.byte⟩

/-- `x` is one of the `n` bytes from `a` on. -/
abbrev Within (a : Word) (n : Nat) (x : Word) : Prop := (x - a).toNat < n

/-- The ranges of `n` bytes at `a` and of `k` bytes at `b` do not meet. -/
def Sep (a : Word) (n : Nat) (b : Word) (k : Nat) : Prop :=
  n ≤ (b - a).toNat ∧ k ≤ (a - b).toNat

namespace Mem

def loadN (m : Mem) (a : Word) : Nat → Nat
  | 0 => 0
  | n + 1 => (m a).toNat + 256 * loadN m (a + 1#64) n

def storeN (m : Mem) (a : Word) (n v : Nat) : Mem where
  byte x := if (x - a).toNat < n then BitVec.ofNat 8 (v / 256 ^ (x - a).toNat) else m x

def load16 (m : Mem) (a : Word) : BitVec 16 := BitVec.ofNat 16 (m.loadN a 2)
def load32 (m : Mem) (a : Word) : BitVec 32 := BitVec.ofNat 32 (m.loadN a 4)
def load64 (m : Mem) (a : Word) : Word := BitVec.ofNat 64 (m.loadN a 8)

def store16 (m : Mem) (a : Word) (v : BitVec 16) : Mem := m.storeN a 2 v.toNat
def store32 (m : Mem) (a : Word) (v : BitVec 32) : Mem := m.storeN a 4 v.toNat
def store64 (m : Mem) (a v : Word) : Mem := m.storeN a 8 v.toNat

/-- The bytes left by a `memset` of `n` bytes at `a`. -/
def fill (m : Mem) (a : Word) (n : Nat) (b : Byte) : Mem where
  byte x := if (x - a).toNat < n then b else m x

/-- The two memories agree outside the `n` bytes at `a`. -/
def EqOff (m m' : Mem) (a : Word) (n : Nat) : Prop := ∀ x, ¬ Within a n x → m' x = m x

end Mem

/-! ## Ranges -/

namespace Sep
variable {a b : Word} {n k : Nat}

theorem symm (h : Sep a n b k) : Sep b k a n := ⟨h.2, h.1⟩

/-- A byte of one range is not in the other. -/
theorem not_within (h : Sep a n b k) {x : Word} (hx : Within b k x) : ¬ Within a n x := by
  obtain ⟨h1, h2⟩ := h
  simp only [Within, BitVec.toNat_sub] at *
  omega

/-- Distinct offsets below `2^64` of one base, `n` apart. -/
theorem offset (a i j : Word) (h : i.toNat + n ≤ j.toNat ∨ j.toNat + n ≤ i.toNat)
    (hi : i.toNat + n < 2 ^ 64) (hj : j.toNat + n < 2 ^ 64) (hn : 0 < n) :
    Sep (a + i) n (a + j) n := by
  simp only [Sep, BitVec.toNat_sub, BitVec.toNat_add]
  omega

end Sep

theorem within_add {a : Word} {n i : Nat} (hi : i < n) (hn : n ≤ 2 ^ 64) :
    Within a n (a + BitVec.ofNat 64 i) := by
  simp only [Within, BitVec.toNat_sub, BitVec.toNat_add, BitVec.toNat_ofNat]
  omega

theorem eq_add_of_within (a x : Word) : x = a + BitVec.ofNat 64 (x - a).toNat := by
  apply BitVec.eq_of_toNat_eq
  simp only [BitVec.toNat_sub, BitVec.toNat_add, BitVec.toNat_ofNat]
  omega

namespace Mem
variable {m m' : Mem} {a b x : Word} {n k v : Nat}

/-! ## Numbers of `n` bytes -/

theorem loadN_congr : ∀ (n : Nat) (b : Word), n ≤ 2 ^ 64 → (∀ x, Within b n x → m' x = m x) →
    m'.loadN b n = m.loadN b n
  | 0, _, _, _ => rfl
  | n + 1, b, hn, h => by
    have h0 : m' b = m b := h b (by simp [Within])
    have ih := loadN_congr n (b + 1#64) (by omega) fun x hx => h x (by
      simp only [Within, BitVec.toNat_sub, BitVec.toNat_add, BitVec.toNat_ofNat] at *
      omega)
    simp only [loadN, h0, ih]

theorem storeN_off (h : ¬ Within a n x) : m.storeN a n v x = m x := if_neg h

theorem storeN_at (h : Within a n x) :
    m.storeN a n v x = BitVec.ofNat 8 (v / 256 ^ (x - a).toNat) := if_pos h

/-- Reading `k` of the `n` stored bytes back, from byte `i` on. -/
theorem loadN_storeN_from (hn : n ≤ 2 ^ 64) : ∀ (k i : Nat), i + k ≤ n →
    (m.storeN a n v).loadN (a + BitVec.ofNat 64 i) k = v / 256 ^ i % 256 ^ k
  | 0, i, _ => by simp [loadN, Nat.mod_one]
  | k + 1, i, h => by
    have hw : Within a n (a + BitVec.ofNat 64 i) := within_add (by omega) hn
    have hi : (a + BitVec.ofNat 64 i - a).toNat = i := by
      simp only [BitVec.toNat_sub, BitVec.toNat_add, BitVec.toNat_ofNat]
      omega
    have hs : a + BitVec.ofNat 64 i + 1#64 = a + BitVec.ofNat 64 (i + 1) := by
      apply BitVec.eq_of_toNat_eq
      simp only [BitVec.toNat_add, BitVec.toNat_ofNat]
      omega
    simp only [loadN, storeN_at hw, hi, hs, loadN_storeN_from hn k (i + 1) (by omega),
      BitVec.toNat_ofNat]
    have hd : v / 256 ^ (i + 1) = v / 256 ^ i / 256 := by
      rw [Nat.pow_succ, Nat.div_div_eq_div_mul]
    have hp : 256 ^ (k + 1) = 256 * 256 ^ k := by rw [Nat.pow_succ, Nat.mul_comm]
    rw [hd, hp, Nat.mod_mul]

theorem loadN_storeN (hn : n ≤ 2 ^ 64) : (m.storeN a n v).loadN a n = v % 256 ^ n := by
  have := loadN_storeN_from (m := m) (a := a) (v := v) hn n 0 (by omega)
  simpa using this

/-- Bit `i` of a number is a bit of byte `i / 8`. -/
theorem testBit_loadN (m : Mem) : ∀ (n : Nat) (a : Word) (i : Nat), (m.loadN a n).testBit i =
    (decide (i < 8 * n) && (m (a + BitVec.ofNat 64 (i / 8))).getLsbD (i % 8))
  | 0, _, i => by simp [loadN]
  | n + 1, a, i => by
    have h8 : loadN m a (n + 1) = 2 ^ 8 * loadN m (a + 1#64) n + (m a).toNat := by
      rw [loadN, Nat.add_comm, show 256 = 2 ^ 8 from rfl]
    rw [h8, Nat.testBit_two_pow_mul_add _ (m a).isLt]
    by_cases hi : i < 8
    · have hd : i / 8 = 0 := by omega
      have hm : i % 8 = i := by omega
      simp only [hi, if_true, hd, hm, BitVec.add_zero, BitVec.getLsbD,
        show i < 8 * (n + 1) by omega, decide_true, Bool.true_and]
    · have hs : a + 1#64 + BitVec.ofNat 64 ((i - 8) / 8) = a + BitVec.ofNat 64 (i / 8) := by
        apply BitVec.eq_of_toNat_eq
        simp only [BitVec.toNat_add, BitVec.toNat_ofNat]
        omega
      have hm : (i - 8) % 8 = i % 8 := by omega
      have hc : decide (i - 8 < 8 * n) = decide (i < 8 * (n + 1)) := by
        rw [decide_eq_decide]; omega
      rw [if_neg hi, testBit_loadN m n (a + 1#64) (i - 8), hs, hm, hc]

/-! ## Fixed widths -/

theorem getLsbD_load64 (m : Mem) (a : Word) {i : Nat} (hi : i < 64) :
    (m.load64 a).getLsbD i = (m (a + BitVec.ofNat 64 (i / 8))).getLsbD (i % 8) := by
  rw [load64, BitVec.getLsbD_ofNat, testBit_loadN]
  simp [hi]

@[simp] theorem load64_store64 (m : Mem) (a v : Word) : (m.store64 a v).load64 a = v := by
  apply BitVec.eq_of_toNat_eq
  have := v.isLt
  simp only [load64, store64, loadN_storeN (show 8 ≤ 2 ^ 64 by omega), BitVec.toNat_ofNat]
  omega

@[simp] theorem load32_store32 (m : Mem) (a : Word) (v : BitVec 32) :
    (m.store32 a v).load32 a = v := by
  apply BitVec.eq_of_toNat_eq
  have := v.isLt
  simp only [load32, store32, loadN_storeN (show 4 ≤ 2 ^ 64 by omega), BitVec.toNat_ofNat]
  omega

@[simp] theorem load16_store16 (m : Mem) (a : Word) (v : BitVec 16) :
    (m.store16 a v).load16 a = v := by
  apply BitVec.eq_of_toNat_eq
  have := v.isLt
  simp only [load16, store16, loadN_storeN (show 2 ≤ 2 ^ 64 by omega), BitVec.toNat_ofNat]
  omega

/-! ## Frames -/

namespace EqOff

theorem refl (m : Mem) (a : Word) (n : Nat) : EqOff m m a n := fun _ _ => rfl

theorem trans {m'' : Mem} (h : EqOff m m' a n) (h' : EqOff m' m'' a n) : EqOff m m'' a n :=
  fun x hx => (h' x hx).trans (h x hx)

theorem mono (h : EqOff m m' b k) (hab : ∀ x, Within b k x → Within a n x) : EqOff m m' a n :=
  fun x hx => h x fun hk => hx (hab x hk)

theorem loadN (h : EqOff m m' a n) (hs : Sep a n b k) (hk : k ≤ 2 ^ 64) :
    m'.loadN b k = m.loadN b k :=
  loadN_congr k b hk fun x hx => h x (hs.not_within hx)

theorem load64 (h : EqOff m m' a n) (hs : Sep a n b 8) : m'.load64 b = m.load64 b := by
  simp only [Mem.load64, h.loadN hs (by omega)]

end EqOff

theorem eqOff_storeN (m : Mem) (a : Word) (n v : Nat) : EqOff m (m.storeN a n v) a n :=
  fun _ => storeN_off

theorem eqOff_store64 (m : Mem) (a v : Word) : EqOff m (m.store64 a v) a 8 :=
  eqOff_storeN m a 8 _

theorem eqOff_store16 (m : Mem) (a : Word) (v : BitVec 16) : EqOff m (m.store16 a v) a 2 :=
  eqOff_storeN m a 2 _

theorem eqOff_fill (m : Mem) (a : Word) (n : Nat) (b : Byte) : EqOff m (m.fill a n b) a n :=
  fun _ h => if_neg h

/-! ## Bytes that only lose bits -/

/-- Every bit set in `m'` is set in `m`. -/
def BitsOff (m m' : Mem) : Prop := ∀ x i, (m' x).getLsbD i = true → (m x).getLsbD i = true

theorem BitsOff.load64 (h : BitsOff m m') (a : Word) : m'.load64 a &&& m.load64 a = m'.load64 a := by
  apply BitVec.eq_of_getLsbD_eq
  intro i hi
  have := h (a + BitVec.ofNat 64 (i / 8)) (i % 8)
  rw [BitVec.getLsbD_and, getLsbD_load64 m' a hi, getLsbD_load64 m a hi]
  cases h' : (m' (a + BitVec.ofNat 64 (i / 8))).getLsbD (i % 8)
  · rfl
  · rw [this h']; rfl

/-- Clearing bits of a stored word clears bits of the memory. -/
theorem bitsOff_store64 (m : Mem) (a : Word) {v : Word} (hv : v &&& m.load64 a = v) :
    BitsOff m (m.store64 a v) := by
  intro x i hx
  by_cases hw : Within a 8 x
  · have hi : i < 8 := by
      by_cases hi : i < 8
      · exact hi
      · rw [BitVec.getLsbD_of_ge _ _ (by omega)] at hx; cases hx
    have hj : 8 * (x - a).toNat + i < 64 := by omega
    have hd : (8 * (x - a).toNat + i) / 8 = (x - a).toNat := by omega
    have hm : (8 * (x - a).toNat + i) % 8 = i := by omega
    have h1 := getLsbD_load64 (m.store64 a v) a hj
    have h2 := getLsbD_load64 m a hj
    rw [hd, hm, ← eq_add_of_within] at h1 h2
    rw [load64_store64] at h1
    rw [← h1, ← hv, BitVec.getLsbD_and, Bool.and_eq_true] at hx
    rw [← h2]; exact hx.2
  · rwa [show m.store64 a v x = m x from storeN_off hw] at hx

/-! ## Agreement on an interval

Addresses given as numbers below `2^64`, where order is order. -/

/-- The two memories agree on the addresses from `lo` up to `hi`. -/
def EqOn (m m' : Mem) (lo hi : Nat) : Prop :=
  ∀ y, lo ≤ y → y < hi → m' (adr y) = m (adr y)

namespace EqOn
variable {lo hi : Nat}

theorem refl (m : Mem) (lo hi : Nat) : EqOn m m lo hi := fun _ _ _ => rfl

theorem trans {m'' : Mem} (h : EqOn m m' lo hi) (h' : EqOn m' m'' lo hi) : EqOn m m'' lo hi :=
  fun y h1 h2 => (h' y h1 h2).trans (h y h1 h2)

theorem mono (h : EqOn m m' lo hi) {lo' hi' : Nat} (h1 : lo ≤ lo') (h2 : hi' ≤ hi) :
    EqOn m m' lo' hi' :=
  fun y hl hh => h y (Nat.le_trans h1 hl) (Nat.lt_of_lt_of_le hh h2)

theorem loadN (h : EqOn m m' lo hi) {y : Nat} (k : Nat) (h1 : lo ≤ y) (h2 : y + k ≤ hi)
    (hk : k ≤ 2 ^ 64) : m'.loadN (adr y) k = m.loadN (adr y) k := by
  refine loadN_congr k _ hk fun x hx => ?_
  have hxy : x = adr (y + (x - adr y).toNat) := by
    have := eq_add_of_within (adr y) x
    rwa [← BitVec.ofNat_add] at this
  rw [hxy]
  exact h _ (by omega) (by omega)

theorem load64 (h : EqOn m m' lo hi) {y : Nat} (h1 : lo ≤ y) (h2 : y + 8 ≤ hi) :
    m'.load64 (adr y) = m.load64 (adr y) := by
  simp only [Mem.load64, h.loadN 8 h1 h2 (by omega)]

theorem load32 (h : EqOn m m' lo hi) {y : Nat} (h1 : lo ≤ y) (h2 : y + 4 ≤ hi) :
    m'.load32 (adr y) = m.load32 (adr y) := by
  simp only [Mem.load32, h.loadN 4 h1 h2 (by omega)]

theorem load16 (h : EqOn m m' lo hi) {y : Nat} (h1 : lo ≤ y) (h2 : y + 2 ≤ hi) :
    m'.load16 (adr y) = m.load16 (adr y) := by
  simp only [Mem.load16, h.loadN 2 h1 h2 (by omega)]

theorem of_eqOff (h : EqOff m m' a n) (hd : a.toNat + n ≤ lo ∨ hi ≤ a.toNat)
    (hn : a.toNat + n ≤ 2 ^ 64) (hhi : hi ≤ 2 ^ 64) : EqOn m m' lo hi := by
  intro y h1 h2
  refine h _ ?_
  simp only [Within, BitVec.toNat_sub, BitVec.toNat_ofNat]
  omega

theorem storeN (m : Mem) {x : Nat} (n v : Nat) (hd : x + n ≤ lo ∨ hi ≤ x) (hx : x + n ≤ 2 ^ 64)
    (hlt : x < 2 ^ 64) (hhi : hi ≤ 2 ^ 64) : EqOn m (m.storeN (adr x) n v) lo hi := by
  have hx' := adr_toNat hlt
  exact of_eqOff (eqOff_storeN m _ n v) (by omega) (by omega) hhi

theorem store64 (m : Mem) {x : Nat} (v : Word) (hd : x + 8 ≤ lo ∨ hi ≤ x) (hx : x + 8 ≤ 2 ^ 64)
    (hhi : hi ≤ 2 ^ 64) : EqOn m (m.store64 (adr x) v) lo hi :=
  storeN m 8 _ hd hx (by omega) hhi

theorem store32 (m : Mem) {x : Nat} (v : BitVec 32) (hd : x + 4 ≤ lo ∨ hi ≤ x)
    (hx : x + 4 ≤ 2 ^ 64) (hhi : hi ≤ 2 ^ 64) : EqOn m (m.store32 (adr x) v) lo hi :=
  storeN m 4 _ hd hx (by omega) hhi

theorem store16 (m : Mem) {x : Nat} (v : BitVec 16) (hd : x + 2 ≤ lo ∨ hi ≤ x)
    (hx : x + 2 ≤ 2 ^ 64) (hhi : hi ≤ 2 ^ 64) : EqOn m (m.store16 (adr x) v) lo hi :=
  storeN m 2 _ hd hx (by omega) hhi

theorem fill (m : Mem) {x : Nat} (c : Byte) (hd : x + n ≤ lo ∨ hi ≤ x) (hx : x + n ≤ 2 ^ 64)
    (hlt : x < 2 ^ 64) (hhi : hi ≤ 2 ^ 64) : EqOn m (m.fill (adr x) n c) lo hi := by
  have hx' := adr_toNat hlt
  exact of_eqOff (eqOff_fill m _ n c) (by omega) (by omega) hhi

end EqOn

/-- Words at numbers 8 apart do not disturb each other. -/
theorem load64_store64_ne (m : Mem) {x y : Nat} (v : Word) (h : x + 8 ≤ y ∨ y + 8 ≤ x)
    (hx : x + 8 ≤ 2 ^ 64) (hy : y + 8 ≤ 2 ^ 64) :
    (m.store64 (adr x) v).load64 (adr y) = m.load64 (adr y) :=
  (EqOn.store64 m v h hx hy).load64 (Nat.le_refl _) (Nat.le_refl _)

theorem load16_store16_ne (m : Mem) {x y : Nat} (v : BitVec 16) (h : x + 2 ≤ y ∨ y + 2 ≤ x)
    (hx : x + 2 ≤ 2 ^ 64) (hy : y + 2 ≤ 2 ^ 64) :
    (m.store16 (adr x) v).load16 (adr y) = m.load16 (adr y) :=
  (EqOn.store16 m v h hx hy).load16 (Nat.le_refl _) (Nat.le_refl _)

theorem load32_store32_ne (m : Mem) {x y : Nat} (v : BitVec 32) (h : x + 4 ≤ y ∨ y + 4 ≤ x)
    (hx : x + 4 ≤ 2 ^ 64) (hy : y + 4 ≤ 2 ^ 64) :
    (m.store32 (adr x) v).load32 (adr y) = m.load32 (adr y) :=
  (EqOn.store32 m v h hx hy).load32 (Nat.le_refl _) (Nat.le_refl _)

theorem load64_fill_ne (m : Mem) {x y : Nat} (c : Byte) (h : x + n ≤ y ∨ y + 8 ≤ x)
    (hx : x + n ≤ 2 ^ 64) (hlt : x < 2 ^ 64) (hy : y + 8 ≤ 2 ^ 64) :
    (m.fill (adr x) n c).load64 (adr y) = m.load64 (adr y) :=
  (EqOn.fill m c h hx hlt hy).load64 (Nat.le_refl _) (Nat.le_refl _)

/-! ## `fill` -/

theorem fill_at {c : Byte} (h : Within a n x) : m.fill a n c x = c := if_pos h

theorem loadN_fill_zero : ∀ (k : Nat) (b : Word), k ≤ 2 ^ 64 →
    (∀ x, Within b k x → Within a n x) → (m.fill a n 0#8).loadN b k = 0
  | 0, _, _, _ => rfl
  | k + 1, b, hk, h => by
    have h0 : m.fill a n 0#8 b = 0#8 := fill_at (h b (by simp [Within]))
    have ih := loadN_fill_zero k (b + 1#64) (by omega) fun x hx => h x (by
      simp only [Within, BitVec.toNat_sub, BitVec.toNat_add, BitVec.toNat_ofNat] at *
      omega)
    simp [loadN, h0, ih]

theorem load64_fill_zero (h : ∀ x, Within b 8 x → Within a n x) : (m.fill a n 0#8).load64 b = 0 := by
  simp [load64, loadN_fill_zero 8 b (by omega) h]

theorem load16_fill_zero (h : ∀ x, Within b 2 x → Within a n x) : (m.fill a n 0#8).load16 b = 0 := by
  simp [load16, loadN_fill_zero 2 b (by omega) h]

theorem within_of_adr {x y k : Nat} (hxy : x ≤ y) (hy : y + k ≤ x + n) :
    ∀ z, Within (adr y) k z → Within (adr x) n z := by
  intro z hz
  simp only [Within, BitVec.toNat_sub, BitVec.toNat_ofNat] at *
  omega

theorem load64_fill_at (m : Mem) {x y : Nat} (hxy : x ≤ y) (hy : y + 8 ≤ x + n) :
    (m.fill (adr x) n 0#8).load64 (adr y) = 0 :=
  load64_fill_zero (within_of_adr hxy hy)

theorem load16_fill_at (m : Mem) {x y : Nat} (hxy : x ≤ y) (hy : y + 2 ≤ x + n) :
    (m.fill (adr x) n 0#8).load16 (adr y) = 0 :=
  load16_fill_zero (within_of_adr hxy hy)

/-- The loop of `memset`: byte `i`, for `i` from `i₀` on. -/
def fillLoop (a : Word) (b : Byte) : Nat → Nat → Mem → Mem
  | 0, _, m => m
  | n + 1, i, m => fillLoop a b n (i + 1) (m.storeN (a + BitVec.ofNat 64 i) 1 b.toNat)

theorem fillLoop_apply (a : Word) (b : Byte) (x : Word) : ∀ (n i : Nat) (m : Mem), i + n ≤ 2 ^ 64 →
    fillLoop a b n i m x = if i ≤ (x - a).toNat ∧ (x - a).toNat < i + n then b else m x
  | 0, i, m, _ => by
    rw [if_neg (by omega)]; rfl
  | n + 1, i, m, h => by
    rw [fillLoop, fillLoop_apply a b x n (i + 1) _ (by omega)]
    have hd : (x - (a + BitVec.ofNat 64 i)).toNat < 1 ↔ (x - a).toNat = i := by
      simp only [BitVec.toNat_sub, BitVec.toNat_add, BitVec.toNat_ofNat]
      omega
    by_cases hx : (x - a).toNat = i
    · have h0 : (x - (a + BitVec.ofNat 64 i)).toNat = 0 := by have := hd.mpr hx; omega
      rw [if_neg (by omega), if_pos (by omega), storeN_at (hd.mpr hx), h0]
      simp
    · rw [storeN_off (fun hw => hx (hd.mp hw))]
      by_cases hr : i + 1 ≤ (x - a).toNat ∧ (x - a).toNat < i + 1 + n
      · rw [if_pos hr, if_pos (by omega)]
      · rw [if_neg hr, if_neg (by omega)]

/-- `fill` is what the byte loop of `memset` computes. -/
theorem fillLoop_eq_fill (m : Mem) (a : Word) (n : Nat) (b : Byte) (hn : n ≤ 2 ^ 64) :
    fillLoop a b n 0 m = m.fill a n b := by
  ext1
  funext x
  rw [fillLoop_apply a b x n 0 m (by omega)]
  simp [fill]

end Mem
end X64k.Core
