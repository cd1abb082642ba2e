import X64k.Core.Res
import X64k.Core.Mem

/-!
# C strings

`cstr rd n i` is the text that a loop over a C string sees, `rd` reading the
byte at each place: the bytes from place `i` on, up to the NUL. `cstr_of` is what
it delivers where such a text lies, `cstr_ends` that it ends where there is a NUL
at all. `textAt` is the text at an address of a memory.

A `CStr` is a text without NUL, as it is written in a program; `CPtr` is a
pointer into one, which knows the bytes in front of it and the NUL behind them.
What lies behind the NUL is not part of the string: reading there is `overread`.
-/
namespace X64k.Core

/-- The byte of an ASCII character. -/
def ch (c : Char) : Byte := BitVec.ofNat 8 c.toNat

/-! ## Reading -/

def cstr (rd : Nat → Res Byte) : Nat → Nat → Res (List Byte)
  | 0, _ => .error .loop
  | n + 1, i => do
    let c ← rd i
    if c = 0 then .ok []
    else do
      let t ← cstr rd n (i + 1)
      .ok (c :: t)

theorem cstr_of {rd : Nat → Res Byte} : ∀ {t : List Byte} {n i : Nat}, (∀ c ∈ t, c ≠ 0) →
    (∀ k, ∀ h : k < t.length, rd (i + k) = .ok t[k]) → rd (i + t.length) = .ok 0 →
    t.length < n → cstr rd n i = .ok t
  | _, 0, _, _, _, _, hn => absurd hn (Nat.not_lt_zero _)
  | [], n + 1, i, _, _, hend, _ => by
    rw [cstr, show rd i = .ok 0 from hend, Res.ok_bind, if_pos rfl]
  | c :: t, n + 1, i, hne, hrd, hend, hn => by
    have hhead : rd i = .ok c := hrd 0 (Nat.succ_pos _)
    have htail : ∀ k, ∀ h : k < t.length, rd (i + 1 + k) = .ok t[k] := by
      intro k h
      rw [show i + 1 + k = i + (k + 1) by omega]
      exact hrd (k + 1) (Nat.succ_lt_succ h)
    have hend' : rd (i + 1 + t.length) = .ok 0 := by
      rw [show i + 1 + t.length = i + (c :: t).length by rw [List.length_cons]; omega]
      exact hend
    rw [cstr, hhead, Res.ok_bind, if_neg (hne c List.mem_cons_self),
      cstr_of (fun x hx => hne x (List.mem_cons_of_mem c hx)) htail hend'
        (Nat.lt_of_succ_lt_succ hn), Res.ok_bind]

/-- With a NUL ahead, the loop ends. -/
theorem cstr_ends {rd : Nat → Res Byte} : ∀ {j n i : Nat}, (∀ k, ∃ c, rd k = .ok c) →
    rd (i + j) = .ok 0 → j < n → ∃ t, cstr rd n i = .ok t
  | _, 0, _, _, _, hn => absurd hn (Nat.not_lt_zero _)
  | j, n + 1, i, hrd, hj, hn => by
    obtain ⟨c, hc⟩ := hrd i
    rw [cstr, hc, Res.ok_bind]
    by_cases h0 : c = 0
    · exact ⟨[], if_pos h0⟩
    · rw [if_neg h0]
      cases j with
      | zero =>
        rw [Nat.add_zero, hc] at hj
        cases hj
        exact absurd rfl h0
      | succ j =>
        obtain ⟨t, ht⟩ := cstr_ends (j := j) hrd
          (show rd (i + 1 + j) = .ok 0 by rw [show i + 1 + j = i + (j + 1) by omega]; exact hj)
          (Nat.lt_of_succ_lt_succ hn)
        exact ⟨c :: t, by rw [ht, Res.ok_bind]⟩

/-- The text that the loop sees lies there, closed by a NUL. -/
theorem cstr_spec {rd : Nat → Res Byte} : ∀ {n i : Nat} {t : List Byte}, cstr rd n i = .ok t →
    (∀ c ∈ t, c ≠ 0) ∧ (∀ k, ∀ h : k < t.length, rd (i + k) = .ok t[k]) ∧
      rd (i + t.length) = .ok 0 ∧ t.length < n
  | 0, _, _, h => by cases h
  | n + 1, i, t, h => by
    obtain ⟨c, hc, h⟩ := Res.bind_eq_ok.mp h
    by_cases h0 : c = 0
    · rw [if_pos h0] at h
      cases h
      exact ⟨nofun, nofun, by rw [← h0]; exact hc, Nat.succ_pos n⟩
    · rw [if_neg h0] at h
      obtain ⟨t', ht, h⟩ := Res.bind_eq_ok.mp h
      cases h
      obtain ⟨h1, h2, h3, h4⟩ := cstr_spec ht
      refine ⟨List.forall_mem_cons.mpr ⟨h0, h1⟩, fun k hk => ?_, ?_, Nat.succ_lt_succ h4⟩
      · cases k with
        | zero => exact hc
        | succ k =>
          have h := h2 k (Nat.lt_of_succ_lt_succ hk)
          rwa [show i + 1 + k = i + (k + 1) by omega] at h
      · rwa [show i + 1 + t'.length = i + (c :: t').length by rw [List.length_cons]; omega] at h3

/-! ## Strings at an address -/

/-- The C string at `p`; addresses have `w` bits and wrap. -/
def textAt {w : Nat} (byte : BitVec w → Byte) (p : BitVec w) : Res (List Byte) :=
  cstr (fun i => .ok (byte (p + BitVec.ofNat w i))) (2 ^ w) 0

/-- Where one string lies in memory, every other one has its end. -/
theorem textAt_ends {w : Nat} {byte : BitVec w → Byte} {q : BitVec w} {t : List Byte}
    (h : textAt byte q = .ok t) (p : BitVec w) : ∃ t, textAt byte p = .ok t := by
  obtain ⟨-, -, hj, -⟩ := cstr_spec h
  rw [Nat.zero_add] at hj
  have hnul : byte (q + BitVec.ofNat w t.length) = 0 := Except.ok.inj hj
  refine cstr_ends (j := (q + BitVec.ofNat w t.length - p).toNat) (fun k => ⟨_, rfl⟩) ?_ (BitVec.isLt _)
  rw [Nat.zero_add, BitVec.ofNat_toNat, BitVec.setWidth_eq, BitVec.add_comm p, BitVec.sub_add_cancel,
    hnul]

/-- A text without NUL. -/
structure CStr where
  bytes : List Byte
  noNul : ∀ c ∈ bytes, c ≠ 0

instance : Append CStr where
  append s t := ⟨s.bytes ++ t.bytes, fun c hc => (List.mem_append.mp hc).elim (s.noNul c) (t.noNul c)⟩

theorem CStr.bytes_append (s t : CStr) : (s ++ t).bytes = s.bytes ++ t.bytes := rfl

/-- A pointer into a string: the bytes from there up to the NUL, or nothing any
more that belongs to the string. -/
inductive CPtr where
  | into (rest : List Byte)
  | past
  deriving DecidableEq, Repr

/-- A read behind the terminating NUL. -/
def overread : Fault := .panic "read behind the terminating NUL"

namespace CPtr

/-- `*p` -/
def get : CPtr → Res Byte
  | into [] => .ok 0
  | into (c :: _) => .ok c
  | past => .error overread

/-- `++p` -/
def inc : CPtr → CPtr
  | into (_ :: rest) => into rest
  | _ => past

@[simp] theorem get_nil : (into []).get = .ok 0 := rfl
@[simp] theorem get_cons (c : Byte) (l : List Byte) : (into (c :: l)).get = .ok c := rfl
@[simp] theorem get_past : past.get = .error overread := rfl
@[simp] theorem inc_nil : (into []).inc = past := rfl
@[simp] theorem inc_cons (c : Byte) (l : List Byte) : (into (c :: l)).inc = into l := rfl

end CPtr
end X64k.Core
