import X64k.Core.Res
import X64k.Core.Mem
import Mathlib.Data.Nat.Find
import Mathlib.Tactic.ByContra

/-!
# Strings with a length

`str` of `src/kernel/algo/string.cpp` is a pointer and a length, and a slice of one
is another one on the same bytes. `==` and `!=` compare the lengths and leave the
bytes to `strncmp`, the loop for C strings (`src/kernel/algo/cstring.cpp:11-22`):
it stops where both bytes are NUL, and it answers with a pointer to the first
differing byte, or the null pointer.

Each string lets its own bytes be read only (`Str.read`); a comparison that ends has
stayed inside both.

* `bytes_sliceTo`, `bytes_slice`: the bytes of a slice; `same_iff_bytes`: two strings have
  the same contents when these are the same.
* `strncmp_spec`: what the loop answers.
* `eq_iff`: `==` is equality of length and bytes exactly where the first
  difference has no NUL in front of it and does not lie at address 0.
* `eq_behind_nul`: `a\0b` equals `a\0c`.
-/
namespace X64k.L5

open X64k.Core

/-- mirrors src/kernel/algo/string.hpp:11-32 -/
structure Str where
  length : Word
  data : Word
  deriving DecidableEq, Repr

def beyond : Fault := .panic "read beyond the string"

namespace Str

/-- mirrors src/kernel/algo/string.cpp:11-13, algorithm.hpp:7-9 -/
def sliceTo (s : Str) (stop : Word) : Str where
  data := s.data
  length := if stop < s.length then stop else s.length

/-- mirrors src/kernel/algo/string.cpp:15-18, algorithm.hpp:3-9 -/
def slice (s : Str) (start stop : Word) : Str :=
  let start' := if start < s.length then start else s.length
  let stop' := if start > stop then start else stop
  { data := s.data + start'
    length := (if stop' < s.length then stop' else s.length) - start' }

/-- The byte at `p`, one of the string's own. -/
def read (m : Mem) (s : Str) (p : Word) : Res Byte :=
  if Within s.data s.length.toNat p then .ok (m p) else .error beyond

/-- The bytes of the string. -/
def bytes (m : Mem) (s : Str) : List Byte :=
  (List.range s.length.toNat).map fun i => m (s.data + adr i)

end Str

/-- `strncmp(a, b, lim)` with `n = lim - i` bytes to go; null is 0.
mirrors src/kernel/algo/cstring.cpp:11-22 -/
def strncmp (rd rd' : Word → Res Byte) : Nat → Word → Word → Res Word
  | 0, _, _ => .ok 0
  | n + 1, a, b => do
    let x ← rd a
    let go ← if x ≠ 0 then .ok true else do
      let y ← rd' b
      .ok (y ≠ 0)
    if go then do
      let x ← rd a
      let y ← rd' b
      if x ≠ y then .ok a else strncmp rd rd' n (a + 1) (b + 1)
    else .ok 0

namespace Str

/-- mirrors src/kernel/algo/string.cpp:39-44 -/
def eq (m : Mem) (s t : Str) : Res Bool :=
  if s.length ≠ t.length then .ok false
  else do
    let p ← strncmp (s.read m) (t.read m) s.length.toNat s.data t.data
    .ok (p = 0)

/-- mirrors src/kernel/algo/string.cpp:32-37 -/
def ne (m : Mem) (s t : Str) : Res Bool :=
  if s.length ≠ t.length then .ok true
  else do
    let p ← strncmp (s.read m) (t.read m) s.length.toNat s.data t.data
    .ok (p ≠ 0)

end Str

/-! ## Slices -/

namespace Str
variable {m : Mem} {s t : Str} {d : Nat}

theorem length_bytes (m : Mem) (s : Str) : (s.bytes m).length = s.length.toNat := by
  rw [bytes, List.length_map, List.length_range]

theorem getElem_bytes {i : Nat} (h : i < (s.bytes m).length) :
    (s.bytes m)[i] = m (s.data + adr i) := by
  simp only [bytes, List.getElem_map, List.getElem_range]

theorem toNat_min (x y : Word) : (if x < y then x else y).toNat = min x.toNat y.toNat := by
  split
  · rename_i h
    have := BitVec.lt_def.mp h
    omega
  · rename_i h
    have := BitVec.le_def.mp (BitVec.not_lt.mp h)
    omega

theorem toNat_max (x y : Word) : (if x > y then x else y).toNat = max x.toNat y.toNat := by
  split
  · rename_i h
    have := BitVec.lt_def.mp h
    omega
  · rename_i h
    have := BitVec.le_def.mp (BitVec.not_lt.mp h)
    omega

theorem bytes_sliceTo (m : Mem) (s : Str) (stop : Word) :
    (s.sliceTo stop).bytes m = (s.bytes m).take stop.toNat := by
  apply List.ext_getElem
  · rw [length_bytes, List.length_take, length_bytes]
    exact toNat_min stop s.length
  · intro i _ _
    rw [getElem_bytes, List.getElem_take, getElem_bytes]
    rfl

theorem bytes_slice (m : Mem) (s : Str) (start stop : Word) :
    (s.slice start stop).bytes m =
      ((s.bytes m).take (max start.toNat stop.toNat)).drop start.toNat := by
  have hlen : (s.slice start stop).length.toNat =
      min (max start.toNat stop.toNat) s.length.toNat - min start.toNat s.length.toNat := by
    have hstop := toNat_min (if start > stop then start else stop) s.length
    have hstart := toNat_min start s.length
    rw [toNat_max] at hstop
    rw [slice, BitVec.toNat_sub_of_le (by rw [BitVec.le_def, hstop, hstart]; omega), hstop, hstart]
  apply List.ext_getElem
  · rw [length_bytes, hlen, List.length_drop, List.length_take, length_bytes]
    omega
  · intro i hi _
    rw [length_bytes, hlen] at hi
    have hdata : (s.slice start stop).data = s.data + start := by
      show s.data + (if start < s.length then start else s.length) = s.data + start
      rw [if_pos (BitVec.lt_def.mpr (by omega))]
    rw [getElem_bytes, List.getElem_drop, List.getElem_take, getElem_bytes, hdata, ← adr_add,
      adr_of_toNat, BitVec.add_assoc]

/-! ## The loop -/

/-- The strings differ at `d`, and agree in front of it. -/
def FirstDiff (m : Mem) (s t : Str) (d : Nat) : Prop :=
  d < s.length.toNat ∧ m (s.data + adr d) ≠ m (t.data + adr d) ∧
    ∀ i < d, m (s.data + adr i) = m (t.data + adr i)

/-- The loop comes to the first difference: no NUL lies in front of it. -/
def Seen (m : Mem) (s t : Str) (d : Nat) : Prop :=
  FirstDiff m s t d ∧ ∀ i < d, m (s.data + adr i) ≠ 0

theorem FirstDiff.unique {d' : Nat} (h : FirstDiff m s t d) (h' : FirstDiff m s t d') : d = d' := by
  rcases Nat.lt_trichotomy d d' with hlt | heq | hgt
  · exact absurd (h'.2.2 d hlt) h.2.1
  · exact heq
  · exact absurd (h.2.2 d' hgt) h'.2.1

theorem read_own {i : Nat} (h : i < s.length.toNat) :
    s.read m (s.data + adr i) = .ok (m (s.data + adr i)) :=
  if_pos (within_add h (Nat.le_of_lt s.length.isLt))

theorem strncmp_step {rd rd' : Word → Res Byte} {a b : Word} {x y : Byte} (hx : rd a = .ok x)
    (hy : rd' b = .ok y) (n : Nat) : strncmp rd rd' (n + 1) a b =
      if x ≠ 0 ∨ y ≠ 0 then if x ≠ y then .ok a else strncmp rd rd' n (a + 1) (b + 1) else .ok 0 := by
  by_cases h : x = 0
  · by_cases h' : y = 0
    · simp only [strncmp, hx, hy, h, h', Res.ok_bind, ne_eq, not_true_eq_false, if_false, or_self,
        decide_false, Bool.false_eq_true]
    · simp only [strncmp, hx, hy, h, h', Res.ok_bind, ne_eq, not_true_eq_false, if_false, false_or,
        not_false_eq_true, decide_true, if_true]
  · simp only [strncmp, hx, hy, h, Res.ok_bind, ne_eq, not_false_eq_true, true_or, if_true]

/-- From position `i` on, up to which the strings agree and have no NUL: the loop
finds the first difference, or there is none that it comes to. -/
theorem strncmp_spec (hlen : s.length = t.length) : ∀ (n i : Nat), i + n = s.length.toNat →
    (∀ j < i, m (s.data + adr j) = m (t.data + adr j) ∧ m (s.data + adr j) ≠ 0) →
    (∃ d, Seen m s t d ∧
      strncmp (s.read m) (t.read m) n (s.data + adr i) (t.data + adr i) = .ok (s.data + adr d)) ∨
    ((∀ d, ¬ Seen m s t d) ∧
      strncmp (s.read m) (t.read m) n (s.data + adr i) (t.data + adr i) = .ok 0) := by
  intro n
  induction n with
  | zero =>
    intro i hi hagree
    refine Or.inr ⟨fun d hd => ?_, rfl⟩
    exact hd.1.2.1 (hagree d (by have := hd.1.1; omega)).1
  | succ n ih =>
    intro i hi hagree
    have hstep := strncmp_step (read_own (m := m) (show i < s.length.toNat by omega))
      (read_own (m := m) (show i < t.length.toNat by rw [← hlen]; omega)) n
    by_cases hxy : m (s.data + adr i) = m (t.data + adr i)
    · by_cases hx : m (s.data + adr i) = 0
      · -- both strings have a NUL here
        have hy : m (t.data + adr i) = 0 := hxy ▸ hx
        refine Or.inr ⟨fun d hd => ?_, ?_⟩
        · rcases Nat.lt_trichotomy d i with hlt | heq | hgt
          · exact hd.1.2.1 (hagree d hlt).1
          · exact hd.1.2.1 (heq ▸ hxy)
          · exact hd.2 i hgt hx
        · rw [hstep, if_neg (by simp [hx, hy])]
      · have hnext : ∀ p : Word, p + adr i + 1 = p + adr (i + 1) := fun p => by
          rw [BitVec.add_assoc, ← adr_add]
          rfl
        rw [hstep, if_pos (Or.inl hx), if_neg (not_not_intro hxy), hnext, hnext]
        refine ih (i + 1) (by omega) fun j hj => ?_
        rcases Nat.lt_succ_iff_lt_or_eq.mp hj with hlt | rfl
        · exact hagree j hlt
        · exact ⟨hxy, hx⟩
    · have hne : m (s.data + adr i) ≠ 0 ∨ m (t.data + adr i) ≠ 0 := by
        by_contra h
        obtain ⟨hx, hy⟩ := not_or.mp h
        exact hxy ((not_not.mp hx).trans (not_not.mp hy).symm)
      refine Or.inl ⟨i, ⟨⟨by omega, hxy, fun j hj => (hagree j hj).1⟩,
        fun j hj => (hagree j hj).2⟩, ?_⟩
      rw [hstep, if_pos hne, if_pos hxy]

/-! ## Main result -/

/-- The same length, and the same byte at every position below it. -/
def Same (m : Mem) (s t : Str) : Prop :=
  s.length = t.length ∧ ∀ i < s.length.toNat, m (s.data + adr i) = m (t.data + adr i)

theorem same_iff_bytes : Same m s t ↔ s.bytes m = t.bytes m := by
  constructor
  · rintro ⟨hlen, hsame⟩
    apply List.ext_getElem
    · rw [length_bytes, length_bytes, hlen]
    · intro i hi _
      rw [length_bytes] at hi
      rw [getElem_bytes, getElem_bytes, hsame i hi]
  · intro h
    have hlen := congrArg List.length h
    rw [length_bytes, length_bytes] at hlen
    refine ⟨BitVec.eq_of_toNat_eq hlen, fun i hi => ?_⟩
    have hs : i < (s.bytes m).length := by rw [length_bytes]; exact hi
    have ht : i < (t.bytes m).length := by rw [← h]; exact hs
    have hi := List.getElem_of_eq h hs
    rwa [getElem_bytes, getElem_bytes] at hi

/-- What the two comparisons answer for strings of one length. -/
theorem compare_spec (hlen : s.length = t.length) : ∃ r, s.eq m t = .ok r ∧ s.ne m t = .ok (!r) ∧
    (r = true ↔ ∀ d, Seen m s t d → s.data + adr d = 0) := by
  have hspec := strncmp_spec (m := m) hlen s.length.toNat 0 (Nat.zero_add _)
    fun j hj => absurd hj (Nat.not_lt_zero j)
  rw [BitVec.add_zero, BitVec.add_zero] at hspec
  have hboth : ∀ p, strncmp (s.read m) (t.read m) s.length.toNat s.data t.data = .ok p →
      s.eq m t = .ok (p = 0) ∧ s.ne m t = .ok (!(decide (p = 0))) := by
    intro p hp
    simp only [eq, ne, hlen, ne_eq, not_true_eq_false, if_false]
    rw [← hlen, hp]
    simp
  rcases hspec with ⟨d, hd, hp⟩ | ⟨hno, hp⟩
  · refine ⟨_, (hboth _ hp).1, (hboth _ hp).2, ?_⟩
    rw [decide_eq_true_iff]
    constructor
    · intro h d' hd'
      rwa [← hd.1.unique hd'.1]
    · exact fun h => h d hd
  · refine ⟨_, (hboth _ hp).1, (hboth _ hp).2, ?_⟩
    rw [decide_eq_true_iff]
    exact ⟨fun _ d hd => absurd hd (hno d), fun _ => rfl⟩

theorem exists_firstDiff (hlen : s.length = t.length) (h : ¬ Same m s t) : ∃ d, FirstDiff m s t d := by
  have hex : ∃ d, d < s.length.toNat ∧ m (s.data + adr d) ≠ m (t.data + adr d) := by
    by_contra hno
    exact h ⟨hlen, fun i hi => by_contra fun hne => hno ⟨i, hi, hne⟩⟩
  obtain ⟨hlt, hne⟩ := Nat.find_spec hex
  refine ⟨Nat.find hex, hlt, hne, fun i hi => ?_⟩
  by_contra hi'
  exact Nat.find_min hex hi ⟨by omega, hi'⟩

/-- **When `==` is content equality.** For every two strings and all bytes, the
comparisons end without reading beyond the strings, `!=` is the negation of `==`,
and `==` says whether the contents are the same if and only if, where strings of
one length differ, the first difference has no NUL in front of it and its address
is not null. -/
theorem eq_iff (m : Mem) (s t : Str) : ∃ r, s.eq m t = .ok r ∧ s.ne m t = .ok (!r) ∧
    ((r = true ↔ Same m s t) ↔ (s.length = t.length → ∀ d, FirstDiff m s t d →
      (∀ i < d, m (s.data + adr i) ≠ 0) ∧ s.data + adr d ≠ 0)) := by
  by_cases hlen : s.length = t.length
  · obtain ⟨r, heq, hne, hr⟩ := compare_spec (m := m) hlen
    refine ⟨r, heq, hne, ?_⟩
    rw [hr]
    constructor
    · -- a difference that is not seen makes two strings equal
      intro h _ d hd
      have hns : ¬ Same m s t := fun hsame => hd.2.1 (hsame.2 d hd.1)
      have hex : ∃ d', Seen m s t d' ∧ s.data + adr d' ≠ 0 := by
        by_contra hno
        exact hns (h.mp fun d' hd' => by_contra fun h0 => hno ⟨d', hd', h0⟩)
      obtain ⟨d', hseen, h0⟩ := hex
      rw [hd.unique hseen.1]
      exact ⟨hseen.2, h0⟩
    · intro h
      constructor
      · intro hzero
        by_contra hns
        obtain ⟨d, hd⟩ := exists_firstDiff hlen hns
        obtain ⟨hnul, h0⟩ := h hlen d hd
        exact h0 (hzero d ⟨hd, hnul⟩)
      · exact fun hsame d hd => absurd (hsame.2 d hd.1.1) hd.1.2.1
  · refine ⟨false, if_pos hlen, if_pos hlen, ?_⟩
    have hns : ¬ Same m s t := fun hsame => hlen hsame.1
    simp only [hns, hlen, Bool.false_eq_true, false_implies]

/-- `a` NUL `b` at 0x1000, and `a` NUL `c` behind it. -/
def twoStrings : Mem := ⟨fun p => ([0x61, 0, 0x62, 0x61, 0, 0x63] : List Byte).getD (p - 0x1000).toNat 0⟩

/-- They compare as equal. -/
theorem eq_behind_nul : Str.eq twoStrings ⟨3, 0x1000⟩ ⟨3, 0x1003⟩ = .ok true ∧
    Str.ne twoStrings ⟨3, 0x1000⟩ ⟨3, 0x1003⟩ = .ok false ∧
    ¬ Same twoStrings ⟨3, 0x1000⟩ ⟨3, 0x1003⟩ := by
  refine ⟨rfl, rfl, fun h => ?_⟩
  exact absurd (h.2 2 (by decide)) (by decide)

end Str
end X64k.L5
