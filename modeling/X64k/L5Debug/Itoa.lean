import X64k.Core.CStr
import X64k.Core.Numeral

/-!
# Number rendering

`itoa` of `src/kernel/algo/itoa.hpp` and, word for word, of
`src/loader/algo/itoa.hpp`: the digits go into the buffer with the last one first,
behind them a minus sign where the number is negative, and xor swaps turn the
whole round. The buffer has 65 bytes; an access outside is a fault, so a call
that ends has stayed inside.

* `digitLoop_spec`: what the digit loop appends to the buffer.
* `swapLoop_spec`: the swaps mirror the buffer.
* `itoa_text`: the text in the buffer is the numeral, for every base up to 16.
* `itoa_canonical`: it is canonical and reads back to the value.
-/
namespace X64k.L5.Itoa

open X64k.Core

/-- mirrors src/kernel/algo/itoa.hpp:9 -/
def bufferSize : Nat := 8 * 8 + 1

/-- mirrors src/kernel/algo/itoa.hpp:10 -/
def chars : List Byte := "0123456789abcdef".toList.map ch

/-! ## The buffer -/

/-- `char buf[itoa::bufferSize]`; only the first `bufferSize` bytes are there. -/
abbrev Buf := Nat → Byte

def outside : Fault := .panic "access outside the buffer"

namespace Buf

def get (buf : Buf) (i : Nat) : Res Byte := if i < bufferSize then .ok (buf i) else .error outside

def put (buf : Buf) (i : Nat) (c : Byte) : Res Buf :=
  if i < bufferSize then .ok (Function.update buf i c) else .error outside

/-- `buf[i] ^= buf[j]` -/
def xor (buf : Buf) (i j : Nat) : Res Buf := do
  let a ← buf.get i
  let b ← buf.get j
  buf.put i (a ^^^ b)

/-- The C string in the buffer. -/
def text (buf : Buf) : Res (List Byte) := cstr buf.get (bufferSize + 1) 0

end Buf

/-! ## itoa -/

/-- mirrors src/kernel/algo/itoa.hpp:32-35 -/
def digitLoop (base : Word) : Nat → Buf → Nat → Word → Res (Buf × Nat)
  | 0, _, _, _ => .error .loop
  | k + 1, buf, n, val =>
    if val = 0 then .ok (buf, n)
    else do
      let buf ← buf.put n (chars.getD (val % base).toNat 0)
      digitLoop base k buf (n + 1) (val / base)

/-- mirrors src/kernel/algo/itoa.hpp:49-55 -/
def swapLoop : Nat → Buf → Nat → Nat → Res Buf
  | 0, _, _, _ => .error .loop
  | k + 1, buf, n, j =>
    if n > j then do
      let buf ← buf.xor n j
      let buf ← buf.xor j n
      let buf ← buf.xor n j
      swapLoop k buf (n - 1) (j + 1)
    else .ok buf

/-- `itoa<base, u>`; `isSigned` is the condition of its two `if constexpr`.
mirrors src/kernel/algo/itoa.hpp:12-60, src/loader/algo/itoa.hpp:12-60 -/
def itoa (base : Nat) (u : Bool) (buf : Buf) (val : Word) : Res Buf :=
  if val = 0 then do
    let buf ← buf.put 0 (ch '0')
    buf.put 1 0
  else do
    let isSigned := base = 10 ∧ u = false
    let sign := isSigned ∧ val.toInt < 0
    let val := if sign then -val else val
    let (buf, n) ← digitLoop (BitVec.ofNat 64 base) (64 + 1) buf 0 val
    let (buf, n, r) ← if sign then do
        let buf ← buf.put n (ch '-')
        .ok (buf, n, n + 1)
      else .ok (buf, n - 1, n)
    let buf ← swapLoop bufferSize buf n 0
    buf.put r 0

/-! ## Text -/

/-- The letters of `itoa`, with the value each digit stands for. -/
def ascii : Alphabet Byte 16 where
  digit d := chars.getD d 0
  value c :=
    if ch '0' ≤ c ∧ c ≤ ch '9' then some (c.toNat - 48)
    else if ch 'a' ≤ c ∧ c ≤ ch 'f' then some (c.toNat - 87) else none
  minus := ch '-'
  value_digit := by decide
  value_minus := by decide

/-- What `itoa<base, u>` shall write for `val`. -/
def numeralOf (base : Nat) (u : Bool) (val : Word) : List Byte :=
  if base = 10 ∧ u = false then ascii.numeralInt base val.toInt else ascii.numeral base val.toNat

/-- The buffer begins with `t`. -/
def Holds (buf : Buf) (t : List Byte) : Prop := ∀ i, ∀ h : i < t.length, buf i = t[i]

section
variable {base n k j : Nat} {buf : Buf} {t : List Byte} {val : Word} {u : Bool}

theorem base10 : IsBase 16 10 := ⟨by decide, by decide⟩

theorem base16 : IsBase 16 16 := ⟨by decide, by decide⟩

theorem digit_ne_nul : ∀ d < 16, ascii.digit d ≠ 0 := by decide

theorem numeral_noNul (hbase : IsBase 16 base) (v : Nat) :
    ∀ c ∈ ascii.numeral base v, c ≠ 0 := by
  intro c hc
  obtain ⟨d, hd, rfl⟩ := Alphabet.mem_numeral hbase.one_lt hc
  exact digit_ne_nul d (Nat.lt_of_lt_of_le hd hbase.le)

theorem numeralOf_noNul (hbase : IsBase 16 base) : ∀ c ∈ numeralOf base u val, c ≠ 0 := by
  have hnat := numeral_noNul hbase
  intro c hc
  unfold numeralOf Alphabet.numeralInt at hc
  split at hc
  · split at hc
    · rcases List.mem_cons.mp hc with rfl | hc
      · decide
      · exact hnat _ c hc
    · exact hnat _ c hc
  · exact hnat _ c hc

theorem put_of (h : n < bufferSize) (c : Byte) : buf.put n c = .ok (Function.update buf n c) :=
  if_pos h

theorem Holds.put (h : Holds buf t) (c : Byte) :
    Holds (Function.update buf t.length c) (t ++ [c]) := by
  intro i hi
  rw [List.length_append, List.length_singleton] at hi
  rcases Nat.lt_succ_iff_lt_or_eq.mp hi with hlt | rfl
  · rw [Function.update_of_ne (by omega), List.getElem_append_left hlt, h i hlt]
  · rw [Function.update_self, List.getElem_concat_length rfl]

/-- A text that the buffer holds, with the NUL behind it, is its C string. -/
theorem Holds.text (h : Holds buf (t ++ [0])) (hne : ∀ c ∈ t, c ≠ 0) (hlen : t.length < bufferSize) :
    buf.text = .ok t := by
  have hget : ∀ i, ∀ hi : i < (t ++ [0]).length, buf.get i = .ok (t ++ [0])[i] := by
    intro i hi
    rw [List.length_append, List.length_singleton] at hi
    rw [Buf.get, if_pos (by omega), h i]
  refine cstr_of hne (fun k hk => ?_) ?_ (by omega)
  · rw [Nat.zero_add, hget k (by rw [List.length_append]; omega), List.getElem_append_left hk]
  · rw [Nat.zero_add, hget t.length (by simp), List.getElem_concat_length rfl]

/-! ## The digit loop -/

theorem ofNat_toNat (hbase : IsBase 16 base) : (BitVec.ofNat 64 base).toNat = base := by
  have := hbase.le
  rw [BitVec.toNat_ofNat, Nat.mod_eq_of_lt (by omega)]

/-- From a buffer that holds `t`, with room for `k` more digits, the loop
appends the digits of the value, least significant first. -/
theorem digitLoop_spec (hbase : IsBase 16 base) : ∀ (k : Nat) {buf : Buf} {t : List Byte}
    {val : Word}, Holds buf t → val.toNat < base ^ k → t.length + k < bufferSize →
    ∃ buf', digitLoop (BitVec.ofNat 64 base) (k + 1) buf t.length val =
        .ok (buf', t.length + (Nat.digits base val.toNat).length) ∧
      Holds buf' (t ++ (Nat.digits base val.toNat).map ascii.digit) := by
  intro k
  induction k with
  | zero =>
    intro buf t val hb hv _
    have h0 : val = 0 := BitVec.eq_of_toNat_eq (by simpa using hv)
    refine ⟨buf, ?_, ?_⟩
    · rw [digitLoop, if_pos h0, h0]
      simp
    · rw [h0]
      simpa using hb
  | succ k ih =>
    intro buf t val hb hv hlen
    rw [digitLoop]
    by_cases h0 : val = 0
    · refine ⟨buf, ?_, ?_⟩
      · rw [if_pos h0, h0]
        simp
      · rw [h0]
        simpa using hb
    · have hpos : 0 < val.toNat := by
        rcases Nat.eq_zero_or_pos val.toNat with h | h
        · exact absurd (BitVec.eq_of_toNat_eq h) h0
        · exact h
      have hdig : chars.getD (val % BitVec.ofNat 64 base).toNat 0 =
          ascii.digit (val.toNat % base) := by
        rw [BitVec.toNat_umod, ofNat_toNat hbase]
        rfl
      have hdiv : (val / BitVec.ofNat 64 base).toNat = val.toNat / base := by
        rw [BitVec.toNat_udiv, ofNat_toNat hbase]
      have hlt : (val / BitVec.ofNat 64 base).toNat < base ^ k := by
        rw [hdiv, Nat.div_lt_iff_lt_mul hbase.pos, ← Nat.pow_succ]
        exact hv
      obtain ⟨buf', hrun, hb'⟩ := ih (hb.put (ascii.digit (val.toNat % base))) hlt
        (by rw [List.length_append, List.length_singleton]; omega)
      rw [List.length_append, List.length_singleton, hdiv] at hrun
      rw [hdiv] at hb'
      refine ⟨buf', ?_, ?_⟩
      · rw [if_neg h0, put_of (by omega), Res.ok_bind, hdig, hrun, Nat.digits_def' hbase.one_lt hpos,
          List.length_cons, Nat.add_right_comm, Nat.add_assoc]
      · rwa [Nat.digits_def' hbase.one_lt hpos, List.map_cons, ← List.singleton_append, ← List.append_assoc]

/-! ## The swaps -/

/-- Three xors exchange two bytes. -/
theorem swap_xor (hn : n < bufferSize) (hj : j < bufferSize) (hne : n ≠ j) (buf : Buf) :
    (do let buf ← Buf.xor buf n j
        let buf ← Buf.xor buf j n
        Buf.xor buf n j) =
      .ok (Function.update (Function.update buf n (buf j)) j (buf n)) := by
  have hget : ∀ (b : Buf) {i : Nat}, i < bufferSize → b.get i = .ok (b i) := fun _ _ h => if_pos h
  have hback : ∀ a b : Byte, b ^^^ (a ^^^ b) = a := fun a b => by
    rw [BitVec.xor_comm, BitVec.xor_assoc, BitVec.xor_self, BitVec.xor_zero]
  simp only [Buf.xor, hget _ hn, hget _ hj, Res.ok_bind, put_of hn, put_of hj,
    Function.update_self, Function.update_of_ne hne, Function.update_of_ne hne.symm, hback]
  rw [Function.update_comm hne, Function.update_idem, Function.update_comm hne.symm]

/-- The buffer `o` of `len` bytes, mirrored outside the places `j` to `n`. -/
def Mirrored (o : Buf) (len n j : Nat) (buf : Buf) : Prop :=
  ∀ i < len, buf i = if j ≤ i ∧ i ≤ n then o i else o (len - 1 - i)

theorem Mirrored.swap {o : Buf} {len : Nat} (hm : Mirrored o len n j buf) (hnj : n + j + 1 = len)
    (hgt : j < n) : Mirrored o len (n - 1) (j + 1)
      (Function.update (Function.update buf n (buf j)) j (buf n)) := by
  have hat_j : buf j = o j := by rw [hm j (by omega), if_pos (by omega)]
  have hat_n : buf n = o n := by rw [hm n (by omega), if_pos (by omega)]
  intro i hi
  by_cases hij : i = j
  · rw [hij, Function.update_self, hat_n, if_neg (by omega), show len - 1 - j = n by omega]
  · rw [Function.update_of_ne hij]
    by_cases hin : i = n
    · rw [hin, Function.update_self, hat_j, if_neg (by omega), show len - 1 - n = j by omega]
    · rw [Function.update_of_ne hin, hm i hi]
      by_cases hmid : j ≤ i ∧ i ≤ n
      · rw [if_pos hmid, if_pos (by omega)]
      · rw [if_neg hmid, if_neg (by omega)]

theorem swapLoop_spec {o : Buf} {len : Nat} (hlen : len ≤ bufferSize) :
    ∀ (k : Nat) {buf : Buf} {n j : Nat}, n + j + 1 = len → n ≤ k + j → Mirrored o len n j buf →
      ∃ buf', swapLoop (k + 1) buf n j = .ok buf' ∧ ∀ i < len, buf' i = o (len - 1 - i) := by
  -- where the two places have met, all is mirrored
  have hmet : ∀ {k n j : Nat} {buf : Buf}, n + j + 1 = len → ¬ n > j → Mirrored o len n j buf →
      ∃ buf', swapLoop (k + 1) buf n j = .ok buf' ∧ ∀ i < len, buf' i = o (len - 1 - i) := by
    intro k n j buf hnj hle hm
    refine ⟨buf, if_neg hle, fun i hi => ?_⟩
    rw [hm i hi]
    split
    · rw [show len - 1 - i = i by omega]
    · rfl
  intro k
  induction k with
  | zero => exact fun hnj hk hm => hmet hnj (by omega) hm
  | succ k ih =>
    intro buf n j hnj hk hm
    by_cases hgt : n > j
    · have hswap := swap_xor (show n < bufferSize by omega) (show j < bufferSize by omega)
        (by omega) buf
      obtain ⟨buf', hrun, hb'⟩ := ih (by omega) (by omega) (hm.swap hnj hgt)
      refine ⟨buf', ?_, hb'⟩
      rw [swapLoop, if_pos hgt]
      obtain ⟨b₁, h₁, hswap⟩ := Res.bind_eq_ok.mp hswap
      obtain ⟨b₂, h₂, h₃⟩ := Res.bind_eq_ok.mp hswap
      rw [h₁, Res.ok_bind, h₂, Res.ok_bind, h₃, Res.ok_bind, hrun]
    · exact hmet hnj hgt hm

/-- The swaps turn a text round. -/
theorem swapLoop_reverse (hb : Holds buf t) (hne : t ≠ []) (hlen : t.length ≤ bufferSize) :
    ∃ buf', swapLoop bufferSize buf (t.length - 1) 0 = .ok buf' ∧ Holds buf' t.reverse := by
  have hpos := List.length_pos_iff.mpr hne
  have hm : Mirrored buf t.length (t.length - 1) 0 buf := by
    intro i hi
    rw [if_pos (by omega)]
  obtain ⟨buf', hrun, hb'⟩ := swapLoop_spec hlen 64 (by omega)
    (by rw [bufferSize] at hlen; omega) hm
  refine ⟨buf', hrun, fun i hi => ?_⟩
  rw [List.length_reverse] at hi
  rw [hb' i hi, hb _ (by omega), List.getElem_reverse]

/-! ## The whole call -/

theorem toInt_neg_toNat (h : val.toInt < 0) : (-val).toNat = val.toInt.natAbs := by
  have hlt := val.isLt
  rw [BitVec.toInt_eq_toNat_cond] at h ⊢
  split at h
  · omega
  · rw [if_neg (by assumption), BitVec.toNat_neg]
    omega

theorem toInt_toNat (h : ¬ val.toInt < 0) : val.toNat = val.toInt.natAbs := by
  have hlt := val.isLt
  rw [BitVec.toInt_eq_toNat_cond] at h ⊢
  split at h
  · rw [if_pos (by assumption)]
    omega
  · omega

theorem lt_pow_64 (hbase : IsBase 16 base) (val : Word) : val.toNat < base ^ 64 :=
  Nat.lt_of_lt_of_le val.isLt (Nat.pow_le_pow_left hbase.one_lt 64)

/-- The end of the call: the letters are turned round and closed by the NUL. -/
theorem close_spec (hb : Holds buf t) (hne : t ≠ []) (hlen : t.length < bufferSize) :
    ∃ buf', (do let buf ← swapLoop bufferSize buf (t.length - 1) 0
                buf.put t.length 0) = .ok buf' ∧ Holds buf' (t.reverse ++ [0]) := by
  obtain ⟨buf₁, hswap, hb₁⟩ := swapLoop_reverse hb hne (by omega)
  refine ⟨Function.update buf₁ t.length 0, ?_, ?_⟩
  · rw [hswap, Res.ok_bind, put_of hlen]
  · have := hb₁.put 0
    rwa [List.length_reverse] at this

theorem numeral_reverse (base : Nat) {v : Nat} (hv : v ≠ 0) :
    ((Nat.digits base v).map ascii.digit).reverse = ascii.numeral base v := by
  rw [Alphabet.numeral_pos base hv, List.map_reverse]

/-- A negative number: its magnitude's digits and the sign. -/
theorem itoa_negative (hneg : val.toInt < 0) (buf : Buf) :
    ∃ buf', itoa 10 false buf val = .ok buf' ∧ Holds buf' (numeralOf 10 false val ++ [0]) ∧
      (numeralOf 10 false val).length < bufferSize := by
  have h0 : val ≠ 0 := by
    rintro rfl
    exact absurd hneg (by decide)
  have hmag := toInt_neg_toNat hneg
  have hmag0 : (-val).toNat ≠ 0 := by omega
  have hlt : (-val).toNat < 10 ^ 20 := Nat.lt_of_lt_of_le (-val).isLt (by decide)
  have hnil : Holds buf [] := fun i hi => absurd hi (Nat.not_lt_zero i)
  obtain ⟨buf₁, hloop, hb₁⟩ := digitLoop_spec base10 64 hnil (lt_pow_64 base10 (-val))
    (by decide)
  rw [List.nil_append] at hb₁
  rw [List.length_nil, Nat.zero_add] at hloop
  have hcount := (Nat.digits_length_le_iff base10.one_lt (-val).toNat).mpr hlt
  have htext : ((Nat.digits 10 (-val).toNat).map ascii.digit ++ [ch '-']).reverse =
      numeralOf 10 false val := by
    rw [List.reverse_append, numeral_reverse 10 hmag0, hmag, numeralOf, if_pos ⟨rfl, rfl⟩,
      Alphabet.numeralInt, if_pos hneg]
    rfl
  generalize Nat.digits 10 (-val).toNat = ds at hloop hb₁ hcount htext
  have hb₂ := hb₁.put (ch '-')
  rw [List.length_map] at hb₂
  have hlen : (ds.map ascii.digit ++ [ch '-']).length = ds.length + 1 := by
    rw [List.length_append, List.length_map, List.length_singleton]
  obtain ⟨buf', hclose, hb'⟩ := close_spec hb₂ (List.append_ne_nil_of_right_ne_nil _
    (List.cons_ne_nil _ _)) (by rw [hlen, bufferSize]; omega)
  rw [hlen, Nat.add_sub_cancel] at hclose
  refine ⟨buf', ?_, htext ▸ hb', by rw [← htext, List.length_reverse, hlen, bufferSize]; omega⟩
  have hput : buf₁.put ds.length (ch '-') =
      .ok (Function.update buf₁ ds.length (ch '-')) := put_of (by rw [bufferSize]; omega) _
  rw [itoa, if_neg h0]
  simp only [hneg, and_self, if_true, hloop, Res.ok_bind, hput]
  exact hclose

/-- Any other number. -/
theorem itoa_unsigned (hbase : IsBase 16 base)
    (hsign : ¬ ((base = 10 ∧ u = false) ∧ val.toInt < 0)) (buf : Buf) :
    ∃ buf', itoa base u buf val = .ok buf' ∧ Holds buf' (ascii.numeral base val.toNat ++ [0]) ∧
      (ascii.numeral base val.toNat).length < bufferSize := by
  have hlen : (ascii.numeral base val.toNat).length ≤ 64 :=
    Alphabet.numeral_length hbase.one_lt (by decide) (lt_pow_64 hbase val)
  have hnil : Holds buf [] := fun i hi => absurd hi (Nat.not_lt_zero i)
  by_cases h0 : val = 0
  · refine ⟨Function.update (Function.update buf 0 (ch '0')) 1 0, ?_, ?_, by rw [bufferSize]; omega⟩
    · rw [itoa, if_pos h0, put_of (by decide), Res.ok_bind, put_of (by decide)]
    · rw [h0]
      exact (hnil.put (ch '0')).put 0
  · have hv0 : val.toNat ≠ 0 := fun h => h0 (BitVec.eq_of_toNat_eq h)
    obtain ⟨buf₁, hloop, hb₁⟩ := digitLoop_spec hbase 64 hnil (lt_pow_64 hbase val) (by decide)
    rw [List.nil_append] at hb₁
    rw [List.length_nil, Nat.zero_add] at hloop
    have hcount := (Nat.digits_length_le_iff hbase.one_lt val.toNat).mpr (lt_pow_64 hbase val)
    obtain ⟨buf', hclose, hb'⟩ := close_spec hb₁
      (by simpa [Nat.digits_eq_nil_iff_eq_zero] using hv0)
      (by rw [List.length_map, bufferSize]; omega)
    rw [numeral_reverse base hv0] at hb'
    rw [List.length_map] at hclose
    refine ⟨buf', ?_, hb', by rw [bufferSize]; omega⟩
    rw [itoa, if_neg h0]
    simp only [hsign, if_false, hloop, Res.ok_bind]
    exact hclose

/-- **The text that `itoa` leaves.** -/
theorem itoa_text (hbase : IsBase 16 base) (u : Bool) (buf : Buf) (val : Word) :
    ∃ buf', itoa base u buf val = .ok buf' ∧ buf'.text = .ok (numeralOf base u val) ∧
      (numeralOf base u val).length < bufferSize := by
  by_cases hneg : (base = 10 ∧ u = false) ∧ val.toInt < 0
  · obtain ⟨⟨rfl, rfl⟩, hneg⟩ := hneg
    obtain ⟨buf', hrun, hb', hlen⟩ := itoa_negative hneg buf
    exact ⟨buf', hrun, hb'.text (numeralOf_noNul hbase) hlen, hlen⟩
  · have htext : numeralOf base u val = ascii.numeral base val.toNat := by
      unfold numeralOf Alphabet.numeralInt
      split
      · rename_i hs
        have hpos : ¬ val.toInt < 0 := fun h => hneg ⟨hs, h⟩
        rw [if_neg hpos, toInt_toNat hpos]
      · rfl
    obtain ⟨buf', hrun, hb', hlen⟩ := itoa_unsigned hbase hneg buf
    rw [← htext] at hb' hlen
    exact ⟨buf', hrun, hb'.text (numeralOf_noNul hbase) hlen, hlen⟩

end

/-! ## Main result -/

/-- **Rendering round-trips.** For every base from 2 to 16, every value and
whatever the buffer held, `itoa` ends inside the buffer and leaves the canonical
numeral, signed in the one signed form, and it reads back to the value. -/
theorem itoa_canonical (base : Nat) (h2 : 2 ≤ base) (h16 : base ≤ 16) (u : Bool) (buf : Buf)
    (val : Word) : ∃ buf' t, itoa base u buf val = .ok buf' ∧ buf'.text = .ok t ∧
      t.length + 1 ≤ 65 ∧
      if base = 10 ∧ u = false then
        t = ascii.numeralInt base val.toInt ∧ ascii.CanonicalInt base t ∧
          ascii.readInt base t = some val.toInt
      else
        t = ascii.numeral base val.toNat ∧ ascii.Canonical base t ∧
          ascii.read base t = some val.toNat := by
  have hbase : IsBase 16 base := ⟨h2, h16⟩
  obtain ⟨buf', hrun, htext, hlen⟩ := itoa_text hbase u buf val
  refine ⟨buf', _, hrun, htext, hlen, ?_⟩
  unfold numeralOf
  split
  · exact ⟨rfl, Alphabet.canonicalInt_numeralInt hbase _, Alphabet.readInt_numeralInt hbase _⟩
  · exact ⟨rfl, Alphabet.canonical_numeral hbase _, Alphabet.read_numeral hbase _⟩

/-- The most negative number, with twenty letters. -/
theorem itoa_canonical_demo : ∃ buf' t, itoa 10 false (fun _ => 0xAA) 0x8000000000000000 = .ok buf' ∧
    buf'.text = .ok t ∧ ascii.readInt 10 t = some (-9223372036854775808) := by
  obtain ⟨buf', t, hrun, htext, _, h⟩ := itoa_canonical 10 (by decide) (by decide) false
    (fun _ => 0xAA) 0x8000000000000000
  rw [if_pos ⟨rfl, rfl⟩] at h
  exact ⟨buf', t, hrun, htext, h.2.2⟩

end X64k.L5.Itoa
