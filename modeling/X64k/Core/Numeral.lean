import Mathlib.Data.Nat.Digits.Lemmas

/-!
# Numerals

An `Alphabet` gives the digits below `B` a letter each, and has one more letter
for the minus sign. `numeral b v` is the text of the number `v` in base `b`,
most significant digit first; `read b` gives a text its number back, by Horner's
rule, and nothing where a letter is no digit of the base.

* `read_numeral`, `readInt_numeralInt`: the round trips, unsigned and signed.
* `canonical_numeral`: only digits of the base, and no leading zero except in
  the text of 0.
* `read_zeros`: leading zeros change no value.
* `numeral_length`: `k` digits suffice below `b ^ k`.
-/
namespace X64k.Core

/-- Letters for the digits below `B`, and a minus sign. -/
structure Alphabet (α : Type) (B : Nat) where
  digit : Nat → α
  value : α → Option Nat
  minus : α
  value_digit : ∀ d < B, value (digit d) = some d
  value_minus : value minus = none

/-- A base all of whose digits have a letter. -/
structure IsBase (B b : Nat) : Prop where
  one_lt : 1 < b
  le : b ≤ B

theorem IsBase.pos {B b : Nat} (hb : IsBase B b) : 0 < b := Nat.lt_of_succ_lt hb.one_lt

namespace Alphabet
variable {α : Type} {B : Nat} (A : Alphabet α B)

def numeral (b v : Nat) : List α :=
  if v = 0 then [A.digit 0] else (Nat.digits b v).reverse.map A.digit

def numeralInt (b : Nat) (z : Int) : List α :=
  if z < 0 then A.minus :: A.numeral b z.natAbs else A.numeral b z.natAbs

/-- The number of the digits read so far, continued. -/
def horner (b : Nat) : Nat → List α → Option Nat
  | n, [] => some n
  | n, c :: t =>
    match A.value c with
    | some d => if d < b then horner b (b * n + d) t else none
    | none => none

def read (b : Nat) : List α → Option Nat
  | [] => none
  | t => A.horner b 0 t

def readInt [DecidableEq α] (b : Nat) : List α → Option Int
  | [] => none
  | c :: t =>
    if c = A.minus then (A.read b t).map fun n : Nat => -(n : Int)
    else (A.read b (c :: t)).map fun n : Nat => (n : Int)

/-- Digits of the base, the first of them not zero unless it is the only one. -/
structure Canonical (b : Nat) (t : List α) : Prop where
  ne_nil : t ≠ []
  digits : ∀ c ∈ t, ∃ d < b, c = A.digit d
  leading : t.head? = some (A.digit 0) → t = [A.digit 0]

/-- A canonical numeral, or the minus sign and one that is not zero's. -/
def CanonicalInt (b : Nat) (t : List α) : Prop :=
  A.Canonical b t ∨ ∃ t', t = A.minus :: t' ∧ A.Canonical b t' ∧ t' ≠ [A.digit 0]

section
variable {A} {b v : Nat}

theorem numeral_zero (b : Nat) : A.numeral b 0 = [A.digit 0] := if_pos rfl

theorem numeral_pos (b : Nat) (h : v ≠ 0) :
    A.numeral b v = (Nat.digits b v).reverse.map A.digit := if_neg h

theorem numeral_ne_nil (b v : Nat) : A.numeral b v ≠ [] := by
  by_cases h : v = 0
  · rw [h, numeral_zero]
    exact List.cons_ne_nil _ _
  · rw [numeral_pos b h]
    simp [Nat.digits_ne_nil_iff_ne_zero.mpr h]

theorem mem_numeral (hb : 1 < b) {c : α} (hc : c ∈ A.numeral b v) : ∃ d < b, c = A.digit d := by
  by_cases h : v = 0
  · rw [h, numeral_zero, List.mem_singleton] at hc
    exact ⟨0, by omega, hc⟩
  · rw [numeral_pos b h, List.mem_map] at hc
    obtain ⟨d, hd, rfl⟩ := hc
    exact ⟨d, Nat.digits_lt_base hb (List.mem_reverse.mp hd), rfl⟩

theorem numeral_length (hb : 1 < b) {k : Nat} (hk : 0 < k) (hv : v < b ^ k) :
    (A.numeral b v).length ≤ k := by
  by_cases h : v = 0
  · rw [h, numeral_zero]
    exact hk
  · rw [numeral_pos b h, List.length_map, List.length_reverse]
    exact (Nat.digits_length_le_iff hb v).mpr hv

/-! ## Reading back -/

theorem horner_append (s t : List α) : ∀ n,
    A.horner b n (s ++ t) = (A.horner b n s).bind fun k => A.horner b k t := by
  induction s with
  | nil => exact fun _ => rfl
  | cons c s ih =>
    intro n
    simp only [List.cons_append, horner]
    cases A.value c with
    | none => rfl
    | some d =>
      by_cases hd : d < b
      · simp only [hd, if_true, ih]
      · simp only [hd, if_false, Option.bind_none]

theorem horner_digit (hb : IsBase B b) {d : Nat} (hd : d < b) (n : Nat) (t : List α) :
    A.horner b n (A.digit d :: t) = A.horner b (b * n + d) t := by
  simp only [horner, A.value_digit d (Nat.lt_of_lt_of_le hd hb.le), hd, if_true]

/-- Horner's rule on digits given least significant first. -/
theorem horner_digits (hb : IsBase B b) : ∀ {ds : List Nat}, (∀ d ∈ ds, d < b) →
    A.horner b 0 (ds.reverse.map A.digit) = some (Nat.ofDigits b ds)
  | [], _ => rfl
  | d :: ds, h => by
    have ih := horner_digits hb fun x hx => h x (List.mem_cons_of_mem d hx)
    rw [List.reverse_cons, List.map_append, List.map_singleton, horner_append, ih,
      Option.bind_some, horner_digit hb (h d List.mem_cons_self), Nat.ofDigits_cons, horner]
    simp [Nat.add_comm]

theorem read_eq_horner {t : List α} (h : t ≠ []) : A.read b t = A.horner b 0 t := by
  cases t with
  | nil => exact absurd rfl h
  | cons c t => rfl

theorem read_numeral (hb : IsBase B b) (v : Nat) : A.read b (A.numeral b v) = some v := by
  rw [read_eq_horner (numeral_ne_nil b v)]
  by_cases h : v = 0
  · rw [h, numeral_zero, horner_digit hb hb.pos]
    rfl
  · rw [numeral_pos b h, horner_digits hb fun d hd => Nat.digits_lt_base hb.one_lt hd,
      Nat.ofDigits_digits]

theorem read_zeros (hb : IsBase B b) {t : List α} (ht : t ≠ []) :
    ∀ k, A.read b (List.replicate k (A.digit 0) ++ t) = A.read b t
  | 0 => rfl
  | k + 1 => by
    have ih := read_zeros hb ht k
    have hne : List.replicate k (A.digit 0) ++ t ≠ [] := List.append_ne_nil_of_right_ne_nil _ ht
    rw [read_eq_horner hne] at ih
    rw [List.replicate_succ, List.cons_append, read_eq_horner (List.cons_ne_nil _ _),
      horner_digit hb hb.pos, ← ih]
    rfl

theorem digit_ne_minus {d : Nat} (hd : d < B) : A.digit d ≠ A.minus := by
  intro h
  have := A.value_digit d hd
  rw [h, A.value_minus] at this
  cases this

theorem readInt_numeral [DecidableEq α] (hb : IsBase B b) (v : Nat) :
    A.readInt b (A.numeral b v) = some (v : Int) := by
  have hread := read_numeral (A := A) hb v
  cases ht : A.numeral b v with
  | nil => exact absurd ht (numeral_ne_nil b v)
  | cons c t =>
    obtain ⟨d, hd, rfl⟩ := mem_numeral hb.one_lt (ht ▸ List.mem_cons_self : c ∈ A.numeral b v)
    rw [ht] at hread
    rw [readInt, if_neg (digit_ne_minus (Nat.lt_of_lt_of_le hd hb.le)), hread, Option.map_some]

theorem readInt_numeralInt [DecidableEq α] (hb : IsBase B b) (z : Int) :
    A.readInt b (A.numeralInt b z) = some z := by
  by_cases hz : z < 0
  · rw [numeralInt, if_pos hz, readInt, if_pos rfl, read_numeral hb, Option.map_some,
      show -(z.natAbs : Int) = z by omega]
  · rw [numeralInt, if_neg hz, readInt_numeral hb, show (z.natAbs : Int) = z by omega]

/-! ## Canonical form -/

theorem digit_inj {d d' : Nat} (hd : d < B) (hd' : d' < B) (h : A.digit d = A.digit d') : d = d' := by
  have := congrArg A.value h
  rw [A.value_digit d hd, A.value_digit d' hd'] at this
  exact Option.some.inj this

theorem canonical_numeral (hb : IsBase B b) (v : Nat) : A.Canonical b (A.numeral b v) where
  ne_nil := numeral_ne_nil b v
  digits c hc := mem_numeral hb.one_lt hc
  leading hhead := by
    by_cases h : v = 0
    · rw [h, numeral_zero]
    · exfalso
      have hne := Nat.digits_ne_nil_iff_ne_zero (b := b).mpr h
      -- the first letter is the last of the digits, and that one is not zero
      rw [numeral_pos b h, List.head?_map, List.head?_reverse, List.getLast?_eq_some_getLast hne,
        Option.map_some, Option.some.injEq] at hhead
      have hlt : (Nat.digits b v).getLast hne < b :=
        Nat.digits_lt_base hb.one_lt (List.getLast_mem hne)
      exact Nat.getLast_digit_ne_zero b h
        (digit_inj (Nat.lt_of_lt_of_le hlt hb.le) (Nat.lt_of_lt_of_le hb.pos hb.le) hhead)

theorem canonicalInt_numeralInt (hb : IsBase B b) (z : Int) :
    A.CanonicalInt b (A.numeralInt b z) := by
  by_cases hz : z < 0
  · refine Or.inr ⟨A.numeral b z.natAbs, if_pos hz, canonical_numeral hb _, ?_⟩
    intro h0
    have hread := read_numeral (A := A) hb z.natAbs
    rw [h0, ← numeral_zero (A := A) b, read_numeral hb, Option.some.injEq] at hread
    omega
  · rw [numeralInt, if_neg hz]
    exact Or.inl (canonical_numeral hb _)

end
end Alphabet
end X64k.Core
