import X64k.L5Debug.Padding
import X64k.L5Debug.LoaderVprintf

/-!
# What printed numbers mean

Each conversion takes an argument of 32 or 64 bits, widens it to 64, and renders it
in base 10 or 16. Reading the digits back gives the argument, except for one
conversion: `%d` takes its argument as `uint32_t` and so widens it with zeros
(`src/kernel/sys/debug.cpp:76-77`, `src/loader/sys/debug.cpp:50-51`), and the
sign that `itoa<10>` looks for is lost. `%ld` has it.

* `readBack_digits`: what reading back gives, for each style.
* `numbers_denote`: it is the argument unless a `%d` prints a negative number.
* `negative_lost`: -1 comes out as 4294967295.
-/
namespace X64k.L5.Denote

open X64k.Core
open X64k.L5.Itoa (Buf ascii numeralOf)

/-! ## Meaning -/

inductive Style where
  | signed
  | unsigned
  | hex
  | addr
  deriving DecidableEq, Repr

/-- The number that printed digits denote; an address has `0x` in front of them. -/
def Style.readBack : Style → List Byte → Option Int
  | signed, t => ascii.readInt 10 t
  | unsigned, t => (ascii.read 10 t).map fun n : Nat => (n : Int)
  | hex, t => (ascii.read 16 t).map fun n : Nat => (n : Int)
  | addr, c :: c' :: t =>
    if c = ch '0' ∧ c' = ch 'x' then (ascii.read 16 t).map fun n : Nat => (n : Int) else none
  | addr, _ => none

/-- The argument as a number: `wide` says that it has 64 bits, else it is the low 32. -/
def Style.value (wide : Bool) (w : Word) : Style → Int
  | signed => if wide then w.toInt else (w.setWidth 32).toInt
  | _ => if wide then w.toNat else (w.setWidth 32).toNat

/-- The one conversion that loses something. -/
def NegativeInt (k : Style) (wide : Bool) (w : Word) : Prop :=
  k = .signed ∧ wide = false ∧ (w.setWidth 32).toInt < 0

/-- The text of a number in each style, with so many zeros in front of an address's. -/
def Style.digits (zeros : Nat) (v : Word) : Style → List Byte
  | signed => numeralOf 10 false v
  | unsigned => numeralOf 10 true v
  | hex => numeralOf 16 false v
  | addr => ch '0' :: ch 'x' :: (List.replicate zeros (ch '0') ++ numeralOf 16 false v)

theorem readBack_digits (k : Style) (zeros : Nat) (v : Word) :
    k.readBack (k.digits zeros v) = some (if k = .signed then v.toInt else v.toNat) := by
  have h16 : ascii.read 16 (numeralOf 16 false v) = some v.toNat :=
    Alphabet.read_numeral Itoa.base16 v.toNat
  cases k with
  | signed => exact Alphabet.readInt_numeralInt Itoa.base10 v.toInt
  | unsigned =>
    have h10 : ascii.read 10 (numeralOf 10 true v) = some v.toNat :=
      Alphabet.read_numeral Itoa.base10 v.toNat
    rw [Style.digits, Style.readBack, h10]
    rfl
  | hex =>
    rw [Style.digits, Style.readBack, h16]
    rfl
  | addr =>
    have hne : numeralOf 16 false v ≠ [] := Alphabet.numeral_ne_nil 16 v.toNat
    have hz : ascii.read 16 (List.replicate zeros (ch '0') ++ numeralOf 16 false v) =
        some v.toNat := (Alphabet.read_zeros Itoa.base16 hne zeros).trans h16
    rw [Style.digits, Style.readBack, if_pos ⟨rfl, rfl⟩, hz]
    rfl

/-- Widening with zeros keeps every number but a negative one of 32 bits. -/
theorem denotes_iff (k : Style) (wide : Bool) (zeros : Nat) (w : Word) :
    k.readBack (k.digits zeros (Vprintf.widen wide w)) = some (k.value wide w) ↔
      ¬ NegativeInt k wide w := by
  have hnat : ((w.setWidth 32).setWidth 64).toNat = (w.setWidth 32).toNat := by
    rw [BitVec.toNat_setWidth, Nat.mod_eq_of_lt (by omega)]
  have hint : ((w.setWidth 32).setWidth 64).toInt = ((w.setWidth 32).toNat : Int) := by
    rw [BitVec.toInt_eq_toNat_of_lt (by rw [hnat]; omega), hnat]
  have hval : (if k = .signed then (Vprintf.widen wide w).toInt else (Vprintf.widen wide w).toNat) =
      k.value wide w ↔ ¬ NegativeInt k wide w := by
    unfold NegativeInt Vprintf.widen
    cases wide with
    | true => cases k <;> simp [Style.value]
    | false =>
      cases k with
      | signed =>
        have hcond := BitVec.toInt_eq_toNat_cond (w.setWidth 32)
        simp only [Style.value, if_true, Bool.false_eq_true, if_false, hint, true_and]
        split at hcond <;> omega
      | _ =>
        simp only [Style.value, reduceCtorEq, Bool.false_eq_true, if_false, hnat, false_and,
          not_false_eq_true]
  rw [readBack_digits, Option.some.injEq, hval]

/-! ## The kernel's conversions -/

/-- `%d`, `%u`, `%x`, `%a`, and with `l`. -/
def kernelSpell (wide : Bool) (k : Style) : CStr where
  bytes := ch '%' :: ((if wide then [ch 'l'] else []) ++
    [match k with
      | .signed => ch 'd'
      | .unsigned => ch 'u'
      | .hex => ch 'x'
      | .addr => ch 'a'])
  noNul := by cases wide <;> cases k <;> decide

theorem kernelSpell_plain (wide : Bool) (k : Style) :
    Vprintf.Complete (kernelSpell wide k) ∧ Vprintf.Neutral (kernelSpell wide k) ∧
      Vprintf.argCount .text (kernelSpell wide k).bytes = 1 := by
  cases wide <;> cases k <;> decide

/-- The zeros that fill an address up. -/
def kernelZeros (wide : Bool) (v : Word) : Nat :=
  (if wide then 16 else 8) - (numeralOf 16 false v).length

theorem padded_zero (c : Byte) (t : List Byte) : Vprintf.padded c 0 t = t := by
  rw [Vprintf.padded, show (0 : Word).toNat - t.length = 0 from Nat.zero_sub _, List.replicate_zero,
    List.nil_append]

/-- What the machine prints for the conversion, before it is read as a style. -/
theorem kernel_emit (m : Mem) (wide : Bool) (k : Style) (w : Word) (b : Vprintf.Args) :
    (Vprintf.machine m).emit (.init ([w] ++ₛ b)) (kernelSpell wide k).bytes =
      .ok (match k with
        | .signed => Vprintf.padded (-1) 0 (numeralOf 10 false (Vprintf.widen wide w)) ++ []
        | .unsigned => Vprintf.padded (-1) 0 (numeralOf 10 true (Vprintf.widen wide w)) ++ []
        | .hex => Vprintf.padded (-1) 0 (numeralOf 16 false (Vprintf.widen wide w)) ++ []
        | .addr => ch '0' :: ch 'x' :: (Vprintf.padded (ch '0') (if wide then 16 else 8)
            (numeralOf 16 false (Vprintf.widen wide w)) ++ [])) := by
  cases wide <;> cases k <;> rfl

theorem kernel_text (m : Mem) (buf : Buf) (wide : Bool) (k : Style) (w : Word) (b : Vprintf.Args) :
    Vprintf.vprintf m buf (kernelSpell wide k) ([w] ++ₛ b) =
      .ok (k.digits (kernelZeros wide (Vprintf.widen wide w)) (Vprintf.widen wide w)) := by
  rw [Vprintf.vprintf_eq, kernel_emit, Res.ok_bind, if_pos (kernelSpell_plain wide k).1]
  cases k with
  | addr =>
    have hfill : (if wide then 16 else 8 : Word).toNat = if wide then 16 else 8 := by
      cases wide <;> rfl
    simp only [List.append_nil, Vprintf.padded, hfill]
    rfl
  | _ => simp only [List.append_nil, padded_zero, Style.digits]

/-! ## The loader's conversions -/

inductive LoaderConv where
  | d
  | x
  | a
  | X
  | A
  deriving DecidableEq, Repr

namespace LoaderConv

def wide : LoaderConv → Bool
  | X | A => true
  | _ => false

def style : LoaderConv → Style
  | d => .signed
  | x | X => .hex
  | a | A => .addr

def spell (k : LoaderConv) : CStr where
  bytes := [ch '%', match k with
    | d => ch 'd'
    | x => ch 'x'
    | a => ch 'a'
    | X => ch 'X'
    | A => ch 'A']
  noNul := by cases k <;> decide

/-- The slots of the argument, the low half first. -/
def slots (w : Word) (k : LoaderConv) : List (BitVec 32) :=
  w.setWidth 32 :: if k.wide then [(w >>> 32).setWidth 32] else []

end LoaderConv

theorem slots_widen (k : LoaderConv) (w : Word) (b : LoaderVprintf.Args) :
    LoaderVprintf.Conv.widen k.wide (k.slots w ++ₛ b) = Vprintf.widen k.wide w := by
  have hboth : (w >>> 32).setWidth 32 ++ w.setWidth 32 = w := by
    apply BitVec.eq_of_getLsbD_eq
    intro i hi
    rw [BitVec.getLsbD_append, BitVec.getLsbD_setWidth, BitVec.getLsbD_setWidth,
      BitVec.getLsbD_ushiftRight]
    by_cases h : i < 32
    · simp [h]
    · simp [h, show i - 32 < 32 by omega, show 32 + (i - 32) = i by omega]
  cases hk : k.wide with
  | false =>
    rw [LoaderConv.slots, hk]
    rfl
  | true =>
    rw [LoaderConv.slots, hk]
    exact hboth

theorem loader_emit (m : Mem) (k : LoaderConv) (b : LoaderVprintf.Args) :
    (LoaderVprintf.machine m).emit ⟨.text, b⟩ k.spell.bytes =
      .ok (k.style.digits 0 (LoaderVprintf.Conv.widen k.wide b) ++ []) := by
  cases k <;> rfl

theorem loader_text (m : Mem) (buf : Buf) (k : LoaderConv) (w : Word) (b : LoaderVprintf.Args) :
    LoaderVprintf.vprintf m buf k.spell (k.slots w ++ₛ b) =
      .ok (k.style.digits 0 (Vprintf.widen k.wide w)) := by
  have hc : LoaderVprintf.Complete k.spell := by cases k <;> decide
  rw [LoaderVprintf.vprintf_eq, loader_emit, slots_widen, Res.ok_bind, if_pos hc, List.append_nil]

/-! ## Main result -/

/-- **When printed numbers denote their arguments.** Each conversion, behind any
format that leaves no padding and in front of any other, prints a text that reads
back to its argument if and only if it is not a `%d` with a negative one. This holds
of the kernel's conversions, and of the loader's. -/
theorem numbers_denote (m : Mem) (buf : Buf) (pre post : CStr) :
    (∀ (q : Word) (s : List Byte), Vprintf.strAt m q = .ok s → Vprintf.Complete pre →
      Vprintf.Neutral pre → ∀ a : List Word, a.length = Vprintf.argCount .text pre.bytes →
      ∀ (b : Vprintf.Args) (wide : Bool) (k : Style) (w : Word), ∃ t,
      Vprintf.vprintf m buf (kernelSpell wide k) ([w] ++ₛ b) = .ok t ∧
      Vprintf.vprintf m buf (pre ++ (kernelSpell wide k ++ post)) (a ++ₛ ([w] ++ₛ b)) = (do
        let x ← Vprintf.vprintf m buf pre (a ++ₛ b)
        let y ← Vprintf.vprintf m buf post b
        .ok (x ++ (t ++ y))) ∧
      (k.readBack t = some (k.value wide w) ↔ ¬ NegativeInt k wide w)) ∧
    ∀ (q : L3.Loader.Ptr) (s : List Byte), LoaderVprintf.strAt m q = .ok s →
      LoaderVprintf.Complete pre → ∀ a : List (BitVec 32),
      a.length = LoaderVprintf.slotCount .text pre.bytes →
      ∀ (b : LoaderVprintf.Args) (k : LoaderConv) (w : Word), ∃ t,
      LoaderVprintf.vprintf m buf k.spell (k.slots w ++ₛ b) = .ok t ∧
      LoaderVprintf.vprintf m buf (pre ++ (k.spell ++ post)) (a ++ₛ (k.slots w ++ₛ b)) = (do
        let x ← LoaderVprintf.vprintf m buf pre (a ++ₛ b)
        let y ← LoaderVprintf.vprintf m buf post b
        .ok (x ++ (t ++ y))) ∧
      (k.style.readBack t = some (k.style.value k.wide w) ↔ ¬ NegativeInt k.style k.wide w) := by
  refine ⟨fun q s hq hpre hn a ha b wide k w => ?_, fun q s hq hpre a ha b k w => ?_⟩
  · obtain ⟨hc, hneutral, hcount⟩ := kernelSpell_plain wide k
    refine ⟨_, kernel_text m buf wide k w b, ?_, denotes_iff k wide _ w⟩
    rw [Vprintf.composes_of_neutral hq hpre hn ha _ _ buf b,
      Vprintf.composes_of_neutral (a := [w]) hq hc hneutral hcount.symm post b buf b, kernel_text]
    simp only [Res.ok_bind, bind_assoc]
  · have hc : LoaderVprintf.Complete k.spell := by cases k <;> decide
    have hcount : (k.slots w).length = LoaderVprintf.slotCount .text k.spell.bytes := by
      cases k <;> rfl
    refine ⟨_, loader_text m buf k w b, ?_, denotes_iff k.style k.wide 0 w⟩
    rw [LoaderVprintf.composes hq hpre ha _ _ buf b,
      LoaderVprintf.composes hq hc hcount post b buf b, loader_text]
    simp only [Res.ok_bind, bind_assoc]

/-- Both formatters print -1 as 4294967295. -/
theorem negative_lost :
    (Vprintf.vprintf ⟨fun _ => 0⟩ (fun _ => 0) (kernelSpell false .signed)
        ([0xFFFFFFFF] ++ₛ Stream'.const 0) = .ok ("4294967295".toList.map ch) ∧
      Style.signed.value false 0xFFFFFFFF = -1) ∧
    (LoaderVprintf.vprintf ⟨fun _ => 0⟩ (fun _ => 0) LoaderConv.d.spell
        ([0xFFFFFFFF] ++ₛ Stream'.const 0) = .ok ("4294967295".toList.map ch) ∧
      LoaderConv.d.style.value LoaderConv.d.wide 0xFFFFFFFF = -1) ∧
    Style.signed.readBack ("4294967295".toList.map ch) = some 4294967295 := by
  refine ⟨⟨rfl, by decide⟩, ⟨rfl, by decide⟩, by decide⟩

/-- `%ld` with -2 behind a `%d`, and the loader's `%x` alone. -/
theorem numbers_denote_demo :
    (∃ t, Vprintf.vprintf ⟨fun _ => 0⟩ (fun _ => 0) (kernelSpell true .signed)
        ([-2] ++ₛ Stream'.const 0) = .ok t ∧ Style.signed.readBack t = some (-2)) ∧
    ∃ t, LoaderVprintf.vprintf ⟨fun _ => 0⟩ (fun _ => 0) LoaderConv.x.spell
      (LoaderConv.x.slots 0xFFFFFFFF ++ₛ Stream'.const 0) = .ok t ∧
      Style.hex.readBack t = some 0xFFFFFFFF := by
  constructor
  · obtain ⟨t, ht, _, h⟩ := (numbers_denote ⟨fun _ => 0⟩ (fun _ => 0) Vprintf.unpadded
      Vprintf.unpadded).1 0 [] rfl (by decide) (by decide) [7] rfl (Stream'.const 0) true .signed (-2)
    exact ⟨t, ht, h.mpr fun hneg => absurd hneg.2.1 (by decide)⟩
  · obtain ⟨t, ht, _, h⟩ := (numbers_denote ⟨fun _ => 0⟩ (fun _ => 0) ⟨[], by decide⟩
      Vprintf.unpadded).2 0 [] rfl rfl [] rfl (Stream'.const 0) .x 0xFFFFFFFF
    exact ⟨t, ht, h.mpr fun hneg => absurd hneg.1 (by decide)⟩

end X64k.L5.Denote
