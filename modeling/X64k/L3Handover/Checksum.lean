import X64k.L3Handover.Elf
import Mathlib.Algebra.BigOperators.Intervals
import Mathlib.Data.BitVec
import Mathlib.Tactic.Ring

/-!
# The checksum of `LoaderData`

The loader sums the 21 bytes of the record with a zero in place of the checksum,
and stores the negated sum there (`src/loader/loader.cpp:86-98`). The kernel sums
all of them and asserts that the low byte of the sum is zero
(`src/kernel/main.cpp:10-17`). Both sums are 32 bits wide; what counts is their
low byte, and that is the sum of the bytes as 8-bit numbers (`byteTotal`).

* `validate_iff`: the kernel accepts a record whose total is 0.
* `put_total`: the total of the record that the loader writes is 0.
* `total_poke`: what another value of one byte does to the total.
-/
namespace X64k.L3.Checksum

open X64k.Core
open X64k.L3.Loader (Ptr byteSum writeLoaderData)

/-! ## Both sides -/

/-- `loader_data` with all its fields, packed, at `data`.
mirrors src/loader/loader.cpp:87-98, loader.hpp:6-13 -/
def putLoaderData (loaderMagic loaderPagingBase loaderPagingSize loaderPagingTracking
    multibootInfo : BitVec 32) (data : Ptr) (m : Mem) : Mem :=
  let m := m.store32 data.addr loaderMagic
  let m := m.store32 (data + 4).addr loaderPagingBase
  let m := m.store32 (data + 8).addr loaderPagingSize
  let m := m.store32 (data + 12).addr loaderPagingTracking
  let m := m.store32 (data + 16).addr multibootInfo
  let m := m.storeN (data + 20).addr 1 0
  let sum := byteSum m data 21 &&& 0xFF
  m.storeN (data + 20).addr 1 ((-sum).setWidth 8 : Byte).toNat

/-- `load_elf` writes such a record. -/
theorem writeLoaderData_eq (tr mbInfo data : Ptr) (m : Mem) :
    writeLoaderData tr mbInfo data m = putLoaderData 0x310AD007 Loader.regionStart
      (Loader.regionEnd - Loader.regionStart) tr mbInfo data m := rfl

/-- The kernel's sum of the `n` bytes from `p` on.
mirrors src/kernel/main.cpp:11-14 -/
def sumBytes (m : Mem) (p : Word) : Nat → BitVec 32
  | 0 => 0
  | n + 1 => sumBytes m p n + (m (p + adr n)).setWidth 32

/-- mirrors src/kernel/main.cpp:10-17 -/
def validateLoaderData (m : Mem) (data : Word) : Res Unit :=
  assert (sumBytes m data 21 &&& 0xFF = 0) "(sum & 0xFF) == 0"

/-- One byte of the memory is replaced. -/
def poke (m : Mem) (a : Word) (b : Byte) : Mem := ⟨Function.update m.byte a b⟩

/-! ## Totals -/

/-- The sum of the `n` bytes from `p` on, as 8-bit numbers. -/
def byteTotal (m : Mem) (p : Word) (n : Nat) : Byte := ∑ i ∈ Finset.range n, m (p + adr i)

section
variable {m : Mem} {p : Word} {n i : Nat}

theorem byteTotal_succ (m : Mem) (p : Word) (n : Nat) :
    byteTotal m p (n + 1) = byteTotal m p n + m (p + adr n) := Finset.sum_range_succ _ n

theorem sumBytes_low (m : Mem) (p : Word) :
    ∀ n, (sumBytes m p n).setWidth 8 = byteTotal m p n
  | 0 => rfl
  | n + 1 => by
    rw [sumBytes, byteTotal_succ, BitVec.setWidth_add _ _ (by decide), sumBytes_low m p n,
      BitVec.setWidth_setWidth_of_le _ (by decide), BitVec.setWidth_eq]

/-- The record lies below 4 GiB, so both sides count the same bytes. -/
theorem byteSum_low {data : Ptr} (m : Mem) :
    ∀ n, data.toNat + n ≤ 2 ^ 32 → (byteSum m data n).setWidth 8 = byteTotal m data.addr n
  | 0, _ => rfl
  | n + 1, h => by
    have haddr : (data + BitVec.ofNat 32 n).addr = data.addr + adr n := by
      apply BitVec.eq_of_toNat_eq
      rw [Loader.addr_toNat, Loader.ptr_add_toNat (by omega), BitVec.toNat_add, Loader.addr_toNat,
        adr_toNat (by omega)]
      omega
    rw [byteSum, byteTotal_succ, BitVec.setWidth_add _ _ (by decide), byteSum_low m n (by omega),
      haddr, BitVec.setWidth_setWidth_of_le _ (by decide), BitVec.setWidth_eq]

theorem low_eq_zero (x : BitVec 32) : x &&& 0xFF = 0 ↔ x.setWidth 8 = (0 : Byte) := by
  have h : (0xFF : BitVec 32).toNat = 2 ^ 8 - 1 := rfl
  rw [← BitVec.toNat_inj, ← BitVec.toNat_inj, Bits.toNat_and_low h, BitVec.toNat_setWidth]
  rfl

/-- The kernel accepts a record whose total is 0, and no other. -/
theorem validate_iff (m : Mem) (p : Word) : validateLoaderData m p =
    if byteTotal m p 21 = 0 then .ok () else .error (.assertFail "(sum & 0xFF) == 0") := by
  rw [validateLoaderData, ← sumBytes_low]
  by_cases h : (sumBytes m p 21).setWidth 8 = (0 : Byte)
  · rw [if_pos h, Res.assert_of ((low_eq_zero _).mpr h)]
  · rw [if_neg h, Res.assert_not fun h' => h ((low_eq_zero _).mp h')]

theorem poke_add (hi : i < 2 ^ 64) {j : Nat} (hj : j < 2 ^ 64) (b : Byte) :
    poke m (p + adr i) b (p + adr j) = if j = i then b else m (p + adr j) := by
  have hiff : p + adr j = p + adr i ↔ j = i := by
    rw [BitVec.add_right_inj, adr_inj hj hi]
  show Function.update _ _ _ _ = _
  rw [Function.update_apply]
  simp only [hiff]

/-- Another value of one byte shifts the total by the difference. -/
theorem total_poke (hi : i < n) (hn : n ≤ 2 ^ 64) (b : Byte) :
    byteTotal (poke m (p + adr i) b) p n = byteTotal m p n - m (p + adr i) + b := by
  have hmem : i ∈ Finset.range n := Finset.mem_range.mpr hi
  have hsplit : ∀ m : Mem, byteTotal m p n =
      m (p + adr i) + ∑ j ∈ (Finset.range n).erase i, m (p + adr j) :=
    fun m => (Finset.add_sum_erase _ (fun j => m (p + adr j)) hmem).symm
  have hrest : ∑ j ∈ (Finset.range n).erase i, poke m (p + adr i) b (p + adr j) =
      ∑ j ∈ (Finset.range n).erase i, m (p + adr j) := by
    refine Finset.sum_congr rfl fun j hj => ?_
    obtain ⟨hne, hj⟩ := Finset.mem_erase.mp hj
    have := Finset.mem_range.mp hj
    rw [poke_add (by omega) (by omega), if_neg hne]
  rw [hsplit m, hsplit (poke m (p + adr i) b), hrest, poke_add (by omega) (by omega), if_pos rfl]
  ring

/-! ## The loader's record -/

theorem storeN_one (m : Mem) (a : Word) (v : Nat) : m.storeN a 1 v = poke m a (BitVec.ofNat 8 v) := by
  apply Mem.ext
  funext x
  show (if (x - a).toNat < 1 then _ else _) = Function.update m.byte a _ x
  rw [Function.update_apply]
  by_cases hx : x = a
  · have h0 : (x - a).toNat = 0 := by rw [hx, BitVec.sub_self]; rfl
    rw [if_pos hx, if_pos (by omega), h0, Nat.pow_zero, Nat.div_one]
  · have h0 : (x - a).toNat ≠ 0 := by
      intro h
      refine hx ?_
      rw [eq_add_of_within a x, h]
      exact BitVec.add_zero a
    rw [if_neg hx, if_neg (by omega)]

/-- The checksum byte makes the total 0. -/
theorem put_total (loaderMagic loaderPagingBase loaderPagingSize loaderPagingTracking
    multibootInfo : BitVec 32) {data : Ptr} (h : data.toNat + 21 ≤ 2 ^ 32) (m : Mem) :
    byteTotal (putLoaderData loaderMagic loaderPagingBase loaderPagingSize loaderPagingTracking
      multibootInfo data m) data.addr 21 = 0 := by
  have haddr : (data + 20).addr = data.addr + adr 20 := by
    apply BitVec.eq_of_toNat_eq
    have h20 := Loader.ptr_add_toNat (a := data) (k := 20) (by omega)
    rw [Loader.addr_toNat, show data + 20 = data + BitVec.ofNat 32 20 from rfl, h20,
      BitVec.toNat_add, Loader.addr_toNat, adr_toNat (by omega)]
    omega
  unfold putLoaderData
  dsimp only
  rw [storeN_one, storeN_one, haddr]
  generalize Mem.store32 _ (data + 16).addr multibootInfo = m₁
  -- the sum is made with a zero in the checksum's place
  have hzero : poke m₁ (data.addr + adr 20) (BitVec.ofNat 8 0) (data.addr + adr 20) = 0 := by
    rw [poke_add (by decide) (by decide), if_pos rfl]
    rfl
  generalize poke m₁ (data.addr + adr 20) (BitVec.ofNat 8 0) = m₂ at *
  have hlow : (byteSum m₂ data 21 &&& 0xFF).setWidth 8 = byteTotal m₂ data.addr 21 := by
    rw [← byteSum_low m₂ 21 h, BitVec.setWidth_and, show (0xFF : BitVec 32).setWidth 8 =
      BitVec.allOnes 8 from rfl, BitVec.and_allOnes]
  rw [total_poke (by decide) (by decide), hzero, BitVec.ofNat_toNat, BitVec.setWidth_eq,
    BitVec.setWidth_neg_of_le (by decide), hlow]
  ring

end

/-! ## Main result -/

/-- **Loader and kernel agree.** A record that the loader writes, whatever its
fields, passes the kernel's check; a record that passes does not pass any more
when any one of its bytes has another value. -/
theorem checksum_agrees :
    (∀ (loaderMagic loaderPagingBase loaderPagingSize loaderPagingTracking multibootInfo :
        BitVec 32) (data : Ptr) (m : Mem), data.toNat + 21 ≤ 2 ^ 32 →
      validateLoaderData (putLoaderData loaderMagic loaderPagingBase loaderPagingSize
        loaderPagingTracking multibootInfo data m) data.addr = .ok ()) ∧
    ∀ (m : Mem) (p : Word), validateLoaderData m p = .ok () →
      ∀ i < 21, ∀ b, b ≠ m (p + adr i) →
        validateLoaderData (poke m (p + adr i) b) p = .error (.assertFail "(sum & 0xFF) == 0") := by
  refine ⟨fun _ _ _ _ _ data m h => ?_, fun m p hok i hi b hb => ?_⟩
  · rw [validate_iff, if_pos (put_total _ _ _ _ _ h m)]
  · have h0 : byteTotal m p 21 = 0 := by
      by_contra hne
      rw [validate_iff, if_neg hne] at hok
      cases hok
    rw [validate_iff, total_poke hi (by decide), h0, if_neg]
    intro heq
    refine hb ?_
    have hsub : b - m (p + adr i) = 0 := by
      rw [← heq]
      ring
    exact sub_eq_zero.mp hsub

/-- The record at 0x200000, and its checksum byte flipped. -/
theorem checksum_agrees_demo : ∃ m, validateLoaderData m 0x200000 = .ok () ∧
    validateLoaderData (poke m (0x200000 + adr 20) (~~~m (0x200000 + adr 20))) 0x200000 =
      .error (.assertFail "(sum & 0xFF) == 0") := by
  have hok := checksum_agrees.1 0x310AD007 0x100000 0x100000 0x200100 0x9500 0x200000 ⟨fun _ => 0⟩
    (by decide)
  refine ⟨_, hok, checksum_agrees.2 _ _ hok 20 (by decide) _ ?_⟩
  have hflip : ∀ x : Byte, ~~~x ≠ x := by decide
  exact hflip _

end X64k.L3.Checksum
