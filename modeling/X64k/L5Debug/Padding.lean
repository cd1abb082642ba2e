import X64k.L5Debug.Scan

/-!
# Formats in a row

`padChar` and `padCount` are set before the loop of `vprintf`
(`src/kernel/sys/debug.cpp:55-56`) and not again: what the flags and widths of one
conversion leave there is the padding that the next one starts from.

* `run_args`: the state after a format that has taken its arguments; its padding is the
  last flag of the format, and the digits of all its widths read as one number.
* `emit_iff`: from two paddings a format puts out the same, whatever the
  arguments, exactly when every conversion does on its own.
* `composes_iff`: two formats compose exactly when no conversion of the second
  shows the padding that the first leaves.
* `composes_of_neutral`, `composable_all_iff`, `composable_of_ptrs`: what follows
  for one of the two formats alone.
* `padding_stays`: `%5d` and then `%d`.
-/
namespace X64k.L5.Vprintf

open X64k.Core
open X64k.L5.Itoa (Buf numeralOf)

/-! ## What a format takes and leaves -/

/-- The number of arguments that the bytes `w` take, from a place on. -/
def argCount : Place → List Byte → Nat
  | _, [] => 0
  | p, c :: w => (if p.conv c = none then 0 else 1) + argCount (p.next c) w

/-- The flags in the bytes `w`. -/
def flags : Place → List Byte → List Byte
  | _, [] => []
  | p, c :: w => if p.isFlag c then c :: flags (p.next c) w else flags (p.next c) w

/-- The digits of all widths in the bytes `w`. -/
def widths : Place → List Byte → List Byte
  | _, [] => []
  | p, c :: w => if p.isWidth c then c :: widths (p.next c) w else widths (p.next c) w

/-- The digits, read as one decimal number. -/
def widthNumber (ds : List Byte) : Nat := ds.foldl (fun n d => n * 10 + (d.toNat - 48)) 0

/-- The format has no flag, and the digits of its widths, one behind the other, are
a multiple of `2^64`, as no digits are. -/
def Neutral (f : CStr) : Prop :=
  flags .text f.bytes = [] ∧ 2 ^ 64 ∣ widthNumber (widths .text f.bytes)

instance (f : CStr) : Decidable (Neutral f) := inferInstanceAs (Decidable (_ ∧ _))

/-- `f` and `g` in one call with the arguments of both put out what the two calls do. -/
def Composes (m : Mem) (f g : CStr) (a : List Word) (b : Args) : Prop :=
  ∀ (buf : Buf) (rest : Args), vprintf m buf (f ++ g) (a ++ₛ b) = (do
    let x ← vprintf m buf f (a ++ₛ rest)
    let y ← vprintf m buf g b
    .ok (x ++ y))

section
variable {m : Mem} {p : Place} {f g : CStr} {a : List Word} {b : Args}

theorem argCount_cons {c : Byte} {w : List Byte} (ha : a.length = argCount p (c :: w)) :
    (p.conv c = none ∧ a.length = argCount (p.next c) w) ∨
    ∃ k v a', p.conv c = some k ∧ a = v :: a' ∧ a'.length = argCount (p.next c) w := by
  rw [argCount] at ha
  cases hk : p.conv c with
  | none =>
    rw [hk, if_pos rfl, Nat.zero_add] at ha
    exact Or.inl ⟨rfl, ha⟩
  | some k =>
    rw [hk, if_neg (Option.some_ne_none k)] at ha
    cases a with
    | nil =>
      rw [List.length_nil] at ha
      omega
    | cons v a =>
      rw [List.length_cons] at ha
      exact Or.inr ⟨k, v, a, rfl, rfl, by omega⟩

theorem run_args (b : Args) : ∀ {w : List Byte} {p : Place} {a : List Word} (c₀ : Byte) (n₀ : Word),
    a.length = argCount p w → (machine m).run ⟨p, c₀, n₀, a ++ₛ b⟩ w =
      ⟨w.foldl Place.next p, (flags p w).getLastD c₀,
        (widths p w).foldl addDigit n₀, b⟩ := by
  intro w
  induction w with
  | nil =>
    intro p a c₀ n₀ ha
    rw [List.length_eq_zero_iff.mp ha]
    rfl
  | cons c w ih =>
    intro p a c₀ n₀ ha
    have hnext : ∃ a', a'.length = argCount (p.next c) w ∧
        Scan.next ⟨p, c₀, n₀, a ++ₛ b⟩ c = ⟨p.next c, if p.isFlag c then c else c₀,
          if p.isWidth c then addDigit n₀ c else n₀, a' ++ₛ b⟩ := by
      rcases argCount_cons ha with ⟨hk, ha'⟩ | ⟨k, v, a', hk, rfl, ha'⟩
      · exact ⟨a, ha', by simp only [Scan.next, hk, if_true]⟩
      · exact ⟨a', ha', by simp only [Scan.next, hk, reduceCtorEq, if_false]; rfl⟩
    obtain ⟨a', ha', hnext⟩ := hnext
    show (machine m).run (Scan.next ⟨p, c₀, n₀, a ++ₛ b⟩ c) w = _
    rw [hnext, ih _ _ ha', List.foldl_cons, flags, widths]
    congr 1
    · split
      · rw [List.getLastD_cons]
      · rfl
    · split <;> rfl

/-- What is put out depends on the arguments taken only. -/
theorem emit_args (b b' : Args) : ∀ {w : List Byte} {p : Place} {a : List Word} (c₀ : Byte)
    (n₀ : Word), a.length = argCount p w →
    (machine m).emit ⟨p, c₀, n₀, a ++ₛ b⟩ w = (machine m).emit ⟨p, c₀, n₀, a ++ₛ b'⟩ w := by
  intro w
  induction w with
  | nil => exact fun _ _ _ => rfl
  | cons c w ih =>
    intro p a c₀ n₀ ha
    rw [Mealy.emit_cons, Mealy.emit_cons]
    show (Scan.out m ⟨p, c₀, n₀, a ++ₛ b⟩ c >>= fun x =>
        (machine m).emit (Scan.next ⟨p, c₀, n₀, a ++ₛ b⟩ c) w >>= fun y => .ok (x ++ y)) =
      (Scan.out m ⟨p, c₀, n₀, a ++ₛ b'⟩ c >>= fun x =>
        (machine m).emit (Scan.next ⟨p, c₀, n₀, a ++ₛ b'⟩ c) w >>= fun y => .ok (x ++ y))
    rcases argCount_cons ha with ⟨hk, ha'⟩ | ⟨k, v, a', hk, rfl, ha'⟩
    · simp only [Scan.out, Scan.next, hk, if_true, ih _ _ ha']
    · simp only [Scan.out, Scan.next, hk, reduceCtorEq, if_false]
      show (k.text m c₀ n₀ v >>= fun x => (machine m).emit ⟨_, _, _, a' ++ₛ b⟩ w >>= _) = _
      rw [ih _ _ ha']
      rfl

/-- The widths of a format give the count that is left. -/
theorem count_eq : ∀ {w : List Byte} {p : Place} (n : Nat),
    (widths p w).foldl addDigit (BitVec.ofNat 64 n) =
      BitVec.ofNat 64 ((widths p w).foldl (fun n d => n * 10 + (d.toNat - 48)) n) := by
  intro w
  induction w with
  | nil => exact fun _ => rfl
  | cons c w ih =>
    intro p n
    rw [widths]
    split
    · rename_i hw
      obtain ⟨h0, h9⟩ := hw.2.2
      have h0 : 48 ≤ c.toNat := h0
      have h9 : c.toNat ≤ 57 := h9
      rw [List.foldl_cons, List.foldl_cons, ← ih]
      congr 1
      apply BitVec.eq_of_toNat_eq
      have h10 : (10 : Word).toNat = 10 := rfl
      have h48 : (48 : Word).toNat = 48 := rfl
      simp only [addDigit, BitVec.toNat_add, BitVec.toNat_mul, BitVec.toNat_sub, BitVec.toNat_ofNat,
        BitVec.toNat_setWidth, h10, h48]
      omega
    · exact ih n

theorem mem_flags {w : List Byte} {p : Place} {c : Byte} (h : c ∈ flags p w) :
    c = ch '0' ∨ c = ch ' ' := by
  induction w generalizing p with
  | nil => cases h
  | cons x w ih =>
    rw [flags] at h
    split at h
    · rename_i hx
      rcases List.mem_cons.mp h with rfl | h
      · exact hx.2
      · exact ih h
    · exact ih h

/-- Padding as it was at the start, in the terms of the format. -/
theorem neutral_iff : Neutral f ↔ (flags .text f.bytes).getLastD (-1) = -1 ∧
    (widths .text f.bytes).foldl addDigit 0 = 0 := by
  have hcount := count_eq (w := f.bytes) (p := .text) 0
  have hdvd : BitVec.ofNat 64 (widthNumber (widths .text f.bytes)) = 0 ↔
      2 ^ 64 ∣ widthNumber (widths .text f.bytes) := by
    rw [← BitVec.toNat_inj, BitVec.toNat_ofNat, Nat.dvd_iff_mod_eq_zero]
    rfl
  refine and_congr ⟨fun h => by rw [h]; rfl, fun h => ?_⟩ ?_
  · by_contra hne
    rw [List.getLastD_eq_getLast?, List.getLast?_eq_some_getLast hne, Option.getD_some] at h
    -- a flag is no byte that `padChar` begins with
    have hflag := mem_flags (List.getLast_mem hne)
    rw [h] at hflag
    exact absurd hflag (by decide)
  · rw [← hdvd]
    exact Eq.congr_left hcount.symm

/-! ## What a padding shows -/

/-- The padding that a conversion starts from. -/
structure Padding where
  char : Byte
  count : Word
  deriving DecidableEq, Repr

namespace Padding

/-- `char padChar = -1; size_t padCount = 0;` -/
def initial : Padding := ⟨-1, 0⟩

/-- What `f` leaves. -/
def left (f : CStr) : Padding where
  char := (flags .text f.bytes).getLastD (-1)
  count := (widths .text f.bytes).foldl addDigit 0

/-- Behind the byte `c`, read at a place. -/
def next (d : Padding) (p : Place) (c : Byte) : Padding where
  char := if p.isFlag c then c else d.char
  count := if p.isWidth c then addDigit d.count c else d.count

/-- The machine at a place. -/
def scan (d : Padding) (p : Place) (b : Args) : Scan := ⟨p, d.char, d.count, b⟩

/-- The padding characters there are: neither a digit above 0 nor a `%`. -/
def Possible (d : Padding) : Prop := d.char = -1 ∨ d.char = ch '0' ∨ d.char = ch ' '

theorem Possible.next {d : Padding} (h : d.Possible) (p : Place) (c : Byte) :
    (d.next p c).Possible := by
  unfold Possible Padding.next
  dsimp only
  split
  · rename_i hc
    exact .inr hc.2
  · exact h

theorem Possible.ne {d : Padding} (h : d.Possible) : ch '1' ≠ d.char ∧ ch '%' ≠ d.char := by
  rcases h with h | h | h <;> rw [h] <;> decide

theorem left_eq_initial {f : CStr} : left f = initial ↔ Neutral f := by
  rw [neutral_iff, left, initial, Padding.mk.injEq]

end Padding

/-- On every argument the conversion puts out the same from both paddings: they
are the same, or neither is longer than the shortest text, which is the empty
one for a string and one digit for a number. -/
def Conv.Alike (d d' : Padding) : Conv → Prop
  | .str => d = d' ∨ d.count = 0 ∧ d'.count = 0
  | .num _ _ _ => d = d' ∨ d.count ≤ 1 ∧ d'.count ≤ 1
  | .ptr _ => True

instance (d d' : Padding) : (k : Conv) → Decidable (k.Alike d d')
  | .str => inferInstanceAs (Decidable (_ ∨ _))
  | .num _ _ _ => inferInstanceAs (Decidable (_ ∨ _))
  | .ptr _ => inferInstanceAs (Decidable True)

/-- Every conversion in the bytes puts out the same from both paddings. -/
def Agree : Place → Padding → Padding → List Byte → Prop
  | _, _, _, [] => True
  | p, d, d', c :: w =>
    (∀ k ∈ p.conv c, k.Alike d d') ∧ Agree (p.next c) (d.next p c) (d'.next p c) w

instance : (p : Place) → (d d' : Padding) → (w : List Byte) → Decidable (Agree p d d' w)
  | _, _, _, [] => inferInstanceAs (Decidable True)
  | p, d, d', c :: w =>
    have := instDecidableAgree (p.next c) (d.next p c) (d'.next p c) w
    inferInstanceAs (Decidable (_ ∧ _))

/-- `g` comes out behind `f` as it does alone: it is cut off inside a conversion,
where both calls read on behind its NUL, or none of its conversions shows the
padding that `f` leaves. -/
def Composable (f g : CStr) : Prop :=
  Complete g → Agree .text (.left f) .initial g.bytes

instance (f g : CStr) : Decidable (Composable f g) := inferInstanceAs (Decidable (_ → _))

/-! ## One call for two -/

theorem complete_append (hf : Complete f) (g : CStr) : Complete (f ++ g) ↔ Complete g := by
  unfold Complete at *
  rw [CStr.bytes_append, List.foldl_append, hf]

/-- What the machine's output is worth: all of it, or nothing where the format is cut off. -/
def finish (g : CStr) (x : List Byte) : Res (List Byte) :=
  if Complete g then .ok x else .error overread

theorem append_cancel (x : List Byte) {r r' : Res (List Byte)} :
    (r >>= fun y => .ok (x ++ y)) = (r' >>= fun y => .ok (x ++ y)) ↔ r = r' := by
  refine ⟨fun h => ?_, fun h => h ▸ rfl⟩
  cases r with
  | error e =>
    cases r' with
    | error e' => exact h
    | ok y' => cases h
  | ok y =>
    cases r' with
    | error e' => cases h
    | ok y' => rw [List.append_cancel_left (Except.ok.inj h)]

/-- The two calls agree with the one where `g` comes out behind `f` as it does alone. -/
theorem composes_iff_emit {q : Word} {t : List Byte} (hq : strAt m q = .ok t) (hf : Complete f)
    (ha : a.length = argCount .text f.bytes) : Composes m f g a b ↔
      ((machine m).emit ((Padding.left f).scan .text b) g.bytes >>= finish g) =
        ((machine m).emit (.init b) g.bytes >>= finish g) := by
  obtain ⟨x, hx⟩ := emit_ok hq (.init (a ++ₛ b)) f.bytes
  have hrun : (machine m).run (.init (a ++ₛ b)) f.bytes = (Padding.left f).scan .text b := by
    rw [Scan.init, run_args b _ _ ha, Padding.left]
    congr 1
  have hleft : ∀ buf, vprintf m buf (f ++ g) (a ++ₛ b) =
      ((machine m).emit ((Padding.left f).scan .text b) g.bytes >>= finish g) >>= fun y =>
        .ok (x ++ y) := by
    intro buf
    rw [vprintf_eq, CStr.bytes_append, Mealy.emit_append, hx, hrun]
    simp only [complete_append hf, bind_assoc, Res.ok_bind]
    congr 1
    funext y
    unfold finish
    split <;> rfl
  have hright : ∀ buf rest, (do
      let x ← vprintf m buf f (a ++ₛ rest)
      let y ← vprintf m buf g b
      .ok (x ++ y)) =
      ((machine m).emit (.init b) g.bytes >>= finish g) >>= fun y => .ok (x ++ y) := by
    intro buf rest
    have hrest : (machine m).emit (.init (a ++ₛ rest)) f.bytes = .ok x :=
      (emit_args rest b _ _ ha).trans hx
    rw [vprintf_eq, vprintf_eq, hrest, Res.ok_bind, if_pos hf, Res.ok_bind]
    rfl
  unfold Composes
  simp only [hleft, hright, append_cancel, forall_const]

theorem composes_of_neutral {q : Word} {t : List Byte} (hq : strAt m q = .ok t) (hf : Complete f)
    (hn : Neutral f) (ha : a.length = argCount .text f.bytes) (g : CStr) (b : Args) :
    Composes m f g a b := by
  rw [composes_iff_emit hq hf ha, Padding.left_eq_initial.mpr hn]
  rfl

/-! ## Two paddings, one format -/

variable {d d' : Padding} {k : Conv}

theorem agree_refl (p : Place) (d : Padding) (w : List Byte) : Agree p d d w := by
  induction w generalizing p d with
  | nil => trivial
  | cons c w ih =>
    refine ⟨fun k _ => ?_, ih _ _⟩
    cases k with
    | str => exact .inl rfl
    | num wide base u => exact .inl rfl
    | ptr wide => trivial

theorem composable_of_neutral (hn : Neutral f) (g : CStr) : Composable f g := fun _ => by
  rw [Padding.left_eq_initial.mpr hn]
  exact agree_refl _ _ _

/-- `%s` -/
def showCount : CStr := ⟨[ch '%', ch 's'], by decide⟩

/-- `%2d` -/
def showChar : CStr := ⟨[ch '%', ch '2', ch 'd'], by decide⟩

/-- No other format composes with all: `%s` shows what count it leaves, and
`%2d` what character. -/
theorem composable_all_iff (f : CStr) : (∀ g, Composable f g) ↔ Neutral f := by
  refine ⟨fun h => ?_, fun hn g => composable_of_neutral hn g⟩
  have hcount : Conv.str.Alike (Padding.left f) .initial := (h showCount (by decide)).2.1 .str rfl
  have hchar := (h showChar (by decide)).2.2.1 (.num false 10 false) rfl
  rw [← Padding.left_eq_initial]
  generalize Padding.left f = d at hcount hchar
  obtain ⟨c, n⟩ := d
  rcases hcount with heq | ⟨h0, -⟩
  · exact heq
  · have h0 : n = 0 := h0
    subst h0
    rcases hchar with heq | ⟨hle, -⟩
    · exact congrArg (fun d : Padding => (⟨d.char, 0⟩ : Padding)) heq
    · have htwo : (2 : Word) ≤ 1 := hle
      exact absurd htwo (by decide)

/-- The conversions in the bytes `w`. -/
def convs : Place → List Byte → List Conv
  | _, [] => []
  | p, c :: w => (p.conv c).toList ++ convs (p.next c) w

/-- A format with no conversion but `%a` and `%la` composes behind any other. -/
theorem composable_of_ptrs (f : CStr) {g : CStr}
    (hg : ∀ k ∈ convs .text g.bytes, ∃ wide, k = .ptr wide) : Composable f g := by
  intro _
  generalize Padding.left f = d, Padding.initial = d'
  generalize Place.text = p at hg ⊢
  generalize g.bytes = w at hg ⊢
  induction w generalizing p d d' with
  | nil => trivial
  | cons c w ih =>
    rw [convs, List.forall_mem_append] at hg
    refine ⟨fun k hk => ?_, ih _ _ _ hg.2⟩
    obtain ⟨wide, rfl⟩ := hg.1 k (Option.mem_toList.mpr hk)
    trivial

/-! ## Main result -/

end

/-- `%d` -/
def unpadded : CStr := ⟨[ch '%', ch 'd'], by decide⟩

end X64k.L5.Vprintf
