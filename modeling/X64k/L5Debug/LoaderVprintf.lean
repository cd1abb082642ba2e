import X64k.L5Debug.Itoa
import X64k.L3Handover.Loader
import X64k.Core.Mealy
import Mathlib.Data.Stream.Init

/-!
# The loader's formatter

`debug::vprintf` of `src/loader/sys/debug.cpp`: no flags, no widths, one letter
behind each `%`, small for 32 bits and capital for 64, and it is 32-bit code. Its
argument list is a stream of 4-byte slots; a 64-bit argument takes two of them,
the low half first.

As for the kernel's, `machine` is what a format says byte by byte, and
`vprintf_eq` that the loop follows it: a format that ends right behind a `%` is
read beyond its NUL. `composes`: no conversion leaves anything behind for the next.
-/
namespace X64k.L5.LoaderVprintf

open X64k.Core
open X64k.L3.Loader (Ptr)
open X64k.L5.Itoa (Buf itoa numeralOf)

abbrev Args := Stream' (BitVec 32)

/-- The local variables of `vprintf`, and what was put out. -/
structure St where
  fmt : CPtr
  args : Args
  buf : Buf
  out : List Byte

/-- The C string at an address. -/
def strAt (m : Mem) (p : Ptr) : Res (List Byte) := textAt (fun p : Ptr => m p.addr) p

namespace St

def putc (s : St) (c : Byte) : St := { s with out := s.out ++ [c] }

def puts (s : St) (t : List Byte) : St := { s with out := s.out ++ t }

def inc (s : St) : St := { s with fmt := s.fmt.inc }

/-- `va_arg(args, uint32_t)` -/
def arg32 (s : St) : BitVec 32 × St := (s.args.head, { s with args := s.args.tail })

/-- `va_arg(args, uint64_t)` -/
def arg64 (s : St) : Word × St :=
  (s.args.tail.head ++ s.args.head, { s with args := s.args.tail.tail })

/-- `puts(itoa::itoa<base>(buf, val))` -/
def number (s : St) (base : Nat) (val : Word) : Res St := do
  let buf ← itoa base false s.buf val
  let t ← buf.text
  .ok ({ s with buf }.puts t)

/-- mirrors src/loader/sys/debug.cpp:45-48 -/
def caseX32 (s : St) : Res St :=
  let (v32, s) := s.arg32
  s.number 16 (v32.setWidth 64)

/-- mirrors src/loader/sys/debug.cpp:56-59 -/
def caseX64 (s : St) : Res St :=
  let (v64, s) := s.arg64
  s.number 16 v64

/-- `a` and `A` fall through to `x` and `X`.
mirrors src/loader/sys/debug.cpp:41-68 -/
def conv (m : Mem) (c : Byte) (s : St) : Res St :=
  if c = ch 'a' then (s.puts [ch '0', ch 'x']).caseX32
  else if c = ch 'x' then s.caseX32
  else if c = ch 'd' then
    let (v32, s) := s.arg32
    s.number 10 (v32.setWidth 64)
  else if c = ch 'A' then (s.puts [ch '0', ch 'x']).caseX64
  else if c = ch 'X' then s.caseX64
  else if c = ch 's' then do
    let (v32, s) := s.arg32
    let t ← strAt m v32
    .ok (s.puts t)
  else .ok ((s.putc (ch '%')).putc c)

/-- mirrors src/loader/sys/debug.cpp:40-69 -/
def percent (m : Mem) (s : St) : Res St := do
  let s := s.inc
  let c ← s.fmt.get
  s.conv m c

end St

/-- mirrors src/loader/sys/debug.cpp:38-75 -/
def loop (m : Mem) : Nat → St → Res (List Byte)
  | 0, _ => .error .loop
  | n + 1, s => do
    let c ← s.fmt.get
    if c = 0 then .ok s.out
    else do
      let s ← if c = ch '%' then s.percent m else .ok (s.putc c)
      loop m n s.inc

/-- What `debug::vprintf` puts out; `buf` is what its buffer holds before the
first write. mirrors src/loader/sys/debug.cpp:33-76 -/
def vprintf (m : Mem) (buf : Buf) (fmt : CStr) (args : Args) : Res (List Byte) :=
  loop m (fmt.bytes.length + 1) { fmt := .into fmt.bytes, args, buf, out := [] }

/-! ## The machine -/

inductive Place where
  | text
  | start
  deriving DecidableEq, Repr

/-- What a conversion prints; `addr` is the `0x` in front, `wide` a capital letter. -/
inductive Conv where
  | str
  | num (addr wide : Bool) (base : Nat)
  deriving DecidableEq, Repr

namespace Conv

/-- The letters behind `%`. -/
def letter (c : Byte) : Option Conv :=
  if c = ch 'a' then some (.num true false 16)
  else if c = ch 'x' then some (.num false false 16)
  else if c = ch 'd' then some (.num false false 10)
  else if c = ch 'A' then some (.num true true 16)
  else if c = ch 'X' then some (.num false true 16)
  else if c = ch 's' then some .str
  else none

/-- The slots that its argument takes. -/
def slots : Conv → Nat
  | num _ true _ => 2
  | _ => 1

/-- The arguments behind the one that is printed. -/
def rest (args : Args) : Conv → Args
  | num _ true _ => args.tail.tail
  | _ => args.tail

/-- The argument as `itoa` gets it. -/
def widen (wide : Bool) (args : Args) : Word :=
  if wide then args.tail.head ++ args.head else args.head.setWidth 64

def text (m : Mem) (args : Args) : Conv → Res (List Byte)
  | str => strAt m args.head
  | num addr wide base =>
    .ok ((if addr then [ch '0', ch 'x'] else []) ++ numeralOf base false (widen wide args))

end Conv

namespace Place

def next : Place → Byte → Place
  | text, c => if c = ch '%' then start else text
  | start, _ => text

def conv : Place → Byte → Option Conv
  | text, _ => none
  | start, c => Conv.letter c

/-- The bytes put out for a byte that ends no conversion. -/
def plain : Place → Byte → List Byte
  | text, c => if c = ch '%' then [] else [c]
  | start, c => [ch '%', c]

end Place

structure Scan where
  place : Place
  args : Args

namespace Scan

def next (s : Scan) (c : Byte) : Scan where
  place := s.place.next c
  args := match s.place.conv c with
    | some k => k.rest s.args
    | none => s.args

def out (m : Mem) (s : Scan) (c : Byte) : Res (List Byte) :=
  match s.place.conv c with
  | some k => k.text m s.args
  | none => .ok (s.place.plain c)

end Scan

def machine (m : Mem) : Mealy Scan Byte Byte where
  next := Scan.next
  out := Scan.out m

/-- The format does not end right behind a `%`. -/
def Complete (f : CStr) : Prop := f.bytes.foldl Place.next .text = .text

instance (f : CStr) : Decidable (Complete f) := inferInstanceAs (Decidable (_ = _))

section
variable {m : Mem} {c : Byte} {s : St}

theorem run_place (s : Scan) (w : List Byte) :
    ((machine m).run s w).place = w.foldl Place.next s.place :=
  Mealy.run_part (fun _ _ => rfl) s w

/-! ## Conversions -/

theorem number_eq {base : Nat} (hb : IsBase 16 base) (s : St) (val : Word) :
    ∃ buf, s.number base val = .ok { s with buf, out := s.out ++ numeralOf base false val } := by
  obtain ⟨buf, hrun, htext, _⟩ := Itoa.itoa_text hb false s.buf val
  refine ⟨buf, ?_⟩
  rw [St.number, hrun, Res.ok_bind, htext, Res.ok_bind]
  rfl

/-- `go` prints the conversion `k` at `s`. -/
def Prints (m : Mem) (k : Conv) (s : St) (go : Res St) : Prop :=
  (∃ e, k.text m s.args = .error e ∧ go = .error e) ∨
  ∃ x buf, k.text m s.args = .ok x ∧
    go = .ok { s with args := k.rest s.args, buf, out := s.out ++ x }

theorem prints_num {base : Nat} (hb : IsBase 16 base) (wide : Bool) :
    Prints m (.num false wide base) s
      ({ s with args := (Conv.num false wide base).rest s.args }.number base
        (Conv.widen wide s.args)) := by
  obtain ⟨buf, hrun⟩ := number_eq hb { s with args := (Conv.num false wide base).rest s.args }
    (Conv.widen wide s.args)
  exact Or.inr ⟨_, buf, rfl, hrun⟩

/-- The conversions with `0x` print it, and go on as those without. -/
theorem prints_addr (wide : Bool) :
    Prints m (.num true wide 16) s
      (({ s with args := (Conv.num true wide 16).rest s.args }.puts [ch '0', ch 'x']).number 16
        (Conv.widen wide s.args)) := by
  obtain ⟨buf, hrun⟩ := number_eq Itoa.base16
    ({ s with args := (Conv.num true wide 16).rest s.args }.puts [ch '0', ch 'x'])
    (Conv.widen wide s.args)
  refine Or.inr ⟨_, buf, rfl, ?_⟩
  rw [hrun]
  simp only [St.puts, List.append_assoc, if_true]

theorem prints_str : Prints m .str s (s.conv m (ch 's')) := by
  show Prints m .str s (strAt m s.args.head >>= fun t => .ok _)
  cases ht : strAt m s.args.head with
  | error e => exact Or.inl ⟨e, ht, rfl⟩
  | ok t => exact Or.inr ⟨t, s.buf, ht, rfl⟩

theorem conv_some {k : Conv} (hk : Conv.letter c = some k) : Prints m k s (s.conv m c) := by
  unfold Conv.letter at hk
  split_ifs at hk with h1 h2 h3 h4 h5 h6
  · cases hk
    exact h1 ▸ prints_addr false
  · cases hk
    exact h2 ▸ prints_num Itoa.base16 false
  · cases hk
    exact h3 ▸ prints_num Itoa.base10 false
  · cases hk
    exact h4 ▸ prints_addr true
  · cases hk
    exact h5 ▸ prints_num Itoa.base16 true
  · cases hk
    exact h6 ▸ prints_str

theorem conv_none (hk : Conv.letter c = none) :
    s.conv m c = .ok { s with out := s.out ++ [ch '%', c] } := by
  unfold Conv.letter at hk
  split_ifs at hk with h1 h2 h3 h4 h5 h6
  simp only [St.conv, h1, h2, h3, h4, h5, h6, if_false, St.putc, List.append_assoc]
  rfl

/-! ## One byte of the source's loop -/

/-- What is left of the loop's round at a place, and the rounds behind it. -/
def resume (m : Mem) (n : Nat) (s : St) : Place → Res (List Byte)
  | .text => loop m n s
  | .start => do
    let c ← s.fmt.get
    let s ← s.conv m c
    loop m n s.inc

/-- The place, the rounds left and the locals: a state of the loop. -/
structure At where
  place : Place
  rounds : Nat
  locals : St

def At.Reads (t : At) (w : List Byte) : Prop :=
  t.locals.fmt = .into w ∧ w.length < t.rounds ∧ ∀ c ∈ w, c ≠ 0

def At.scan (t : At) : Scan := ⟨t.place, t.locals.args⟩

/-- One step of the machine, seen in the loop. -/
def Steps (m : Mem) (t : At) (c : Byte) (w : List Byte) (prog : Res (List Byte)) : Prop :=
  (∃ e, t.scan.out m c = .error e ∧ prog = .error e) ∨
  ∃ (t' : At) (x : List Byte), t.scan.out m c = .ok x ∧
    prog = resume m t'.rounds t'.locals t'.place ∧ t'.Reads w ∧ t'.scan = t.scan.next c ∧
    t'.locals.out = t.locals.out ++ x

theorem steps (t : At) (c : Byte) (w : List Byte) (hr : t.Reads (c :: w)) :
    Steps m t c w (resume m t.rounds t.locals t.place) := by
  obtain ⟨p, n, s⟩ := t
  obtain ⟨hf, hlen, hne⟩ := hr
  replace hf : s.fmt = .into (c :: w) := hf
  replace hlen : w.length + 1 < n := hlen
  have h0 : c ≠ 0 := hne c List.mem_cons_self
  replace hne : ∀ x ∈ w, x ≠ 0 := fun x hx => hne x (List.mem_cons_of_mem c hx)
  have hget : s.fmt.get = .ok c := by rw [hf]; rfl
  cases p with
  | text =>
    -- a round of the loop begins
    obtain ⟨n, rfl⟩ : ∃ k, n = k + 1 := ⟨n - 1, by omega⟩
    have hround : w.length < n := by omega
    by_cases hpc : c = ch '%'
    · refine Or.inr ⟨⟨.start, n, s.inc⟩, [], ?_, ?_, ⟨?_, hround, hne⟩, ?_, (List.append_nil _).symm⟩
      · simp only [Scan.out, At.scan, Place.conv, Place.plain, hpc, if_true]
      · simp only [resume, loop, hget, Res.ok_bind, if_neg h0, if_pos hpc, St.percent, bind_assoc]
      · simp only [St.inc, hf, CPtr.inc_cons]
      · simp only [At.scan, Scan.next, Place.next, Place.conv, hpc, if_true, St.inc]
    · refine Or.inr ⟨⟨.text, n, (s.putc c).inc⟩, [c], ?_, ?_, ⟨?_, hround, hne⟩, ?_, rfl⟩
      · simp only [Scan.out, At.scan, Place.conv, Place.plain, hpc, if_false]
      · simp only [resume, loop, hget, h0, hpc, if_false, Res.ok_bind]
      · simp only [St.inc, St.putc, hf, CPtr.inc_cons]
      · simp only [At.scan, Scan.next, Place.next, Place.conv, hpc, if_false, St.inc, St.putc]
  | start =>
    have hgo : resume m n s .start = s.conv m c >>= fun s => loop m n s.inc := by
      simp only [resume, hget, Res.ok_bind]
    rw [hgo]
    cases hk : Conv.letter c with
    | none =>
      rw [conv_none hk, Res.ok_bind]
      refine Or.inr ⟨⟨.text, n, St.inc { s with out := s.out ++ [ch '%', c] }⟩, [ch '%', c], ?_, rfl,
        ⟨?_, Nat.lt_of_succ_lt hlen, hne⟩, ?_, rfl⟩
      · simp only [Scan.out, At.scan, Place.conv, hk, Place.plain]
      · simp only [St.inc, hf, CPtr.inc_cons]
      · simp only [At.scan, Scan.next, Place.next, Place.conv, hk, St.inc]
    | some k =>
      have hout : (At.scan ⟨.start, n, s⟩).out m c = k.text m s.args := by
        simp only [Scan.out, At.scan, Place.conv, hk]
      rcases conv_some (m := m) (s := s) hk with ⟨e, htext, hrun⟩ | ⟨x, buf, htext, hrun⟩
      · exact Or.inl ⟨e, hout.trans htext, by rw [hrun]; rfl⟩
      · rw [hrun, Res.ok_bind]
        refine Or.inr ⟨⟨.text, n, St.inc { s with
          args := k.rest s.args, buf, out := s.out ++ x }⟩, x, hout.trans htext, rfl,
          ⟨?_, Nat.lt_of_succ_lt hlen, hne⟩, ?_, rfl⟩
        · simp only [St.inc, hf, CPtr.inc_cons]
        · simp only [At.scan, Scan.next, Place.next, Place.conv, hk, St.inc]

/-- At the NUL: in the text the loop is done; behind a `%` it steps over the NUL. -/
theorem stops (t : At) (hr : t.Reads []) : resume m t.rounds t.locals t.place =
    if t.scan.place = .text then .ok t.locals.out else .error overread := by
  obtain ⟨p, n, s⟩ := t
  obtain ⟨hf, hn, -⟩ := hr
  replace hf : s.fmt = .into [] := hf
  obtain ⟨n, rfl⟩ : ∃ k, n = k + 1 := ⟨n - 1, (Nat.sub_add_cancel (Nat.one_le_of_lt hn)).symm⟩
  have hget : s.fmt.get = .ok 0 := by rw [hf]; rfl
  cases p with
  | text =>
    refine Eq.trans ?_ (if_pos rfl).symm
    simp only [resume, loop, hget, Res.ok_bind, if_true]
  | start =>
    rw [if_neg nofun]
    have hpast : ∀ s : St, s.fmt = .into [] → loop m (n + 1) s.inc = .error overread := by
      intro s hs
      simp only [loop, St.inc, hs, CPtr.inc_nil, CPtr.get_past, Res.error_bind]
    simp only [resume, hget, Res.ok_bind, conv_none (show Conv.letter 0 = none from rfl)]
    exact hpast _ hf

theorem simulated (m : Mem) : (machine m).Simulated
    (fun t : At => resume m t.rounds t.locals t.place) At.Reads At.scan (fun t => t.locals.out)
    (fun s => s.place = .text) overread where
  step t c w hr := steps t c w hr
  stop t hr := stops t hr

/-! ## Strings in memory -/

theorem emit_ok {q : Ptr} {t : List Byte} (h : strAt m q = .ok t) (s : Scan) (w : List Byte) :
    ∃ x, (machine m).emit s w = .ok x := by
  refine Mealy.emit_ok (fun s c => ?_) s w
  show ∃ x, s.out m c = .ok x
  unfold Scan.out
  cases s.place.conv c with
  | none => exact ⟨_, rfl⟩
  | some k =>
    cases k with
    | str => exact textAt_ends h s.args.head
    | num addr wide base => exact ⟨_, rfl⟩

/-- **What the loader's `vprintf` puts out**: the output of the machine, where the
format ends in the text. -/
theorem vprintf_eq (m : Mem) (buf : Buf) (f : CStr) (args : Args) : vprintf m buf f args = (do
    let x ← (machine m).emit ⟨.text, args⟩ f.bytes
    if Complete f then .ok x else .error overread) := by
  have h := (simulated m).eq (t := ⟨.text, f.bytes.length + 1,
    { fmt := .into f.bytes, args, buf, out := [] }⟩) ⟨rfl, Nat.lt_succ_self _, f.noNul⟩
  simp only [run_place, List.nil_append] at h
  exact h

/-! ## Formats in a row -/

/-- The number of slots that the bytes `w` take, from a place on. -/
def slotCount : Place → List Byte → Nat
  | _, [] => 0
  | p, c :: w => (p.conv c).elim 0 Conv.slots + slotCount (p.next c) w

theorem Conv.text_num (addr wide : Bool) (base : Nat) (b : Args) :
    (num addr wide base).text m b =
      .ok ((if addr then [ch '0', ch 'x'] else []) ++ numeralOf base false (widen wide b)) := rfl

theorem Conv.take_slots (k : Conv) {a : List (BitVec 32)} {n : Nat} (ha : a.length = k.slots + n) :
    ∃ a', a'.length = n ∧ ∀ b, k.rest (a ++ₛ b) = a' ++ₛ b ∧
      k.text m (a ++ₛ b) = k.text m (a ++ₛ Stream'.const 0) := by
  have hone : ∀ {k : Conv}, k.slots = 1 → a.length = k.slots + n → ∃ lo a', a = lo :: a' ∧
      a'.length = n := by
    intro k hk ha
    rw [hk] at ha
    cases a with
    | nil => rw [List.length_nil] at ha; omega
    | cons lo a => exact ⟨lo, a, rfl, by rw [List.length_cons] at ha; omega⟩
  match k, ha with
  | str, ha =>
    obtain ⟨lo, a', rfl, hn⟩ := hone rfl ha
    exact ⟨a', hn, fun b => ⟨rfl, rfl⟩⟩
  | num addr false base, ha =>
    obtain ⟨lo, a', rfl, hn⟩ := hone rfl ha
    have hwiden : ∀ b, widen false (lo :: a' ++ₛ b) = lo.setWidth 64 := fun b => rfl
    exact ⟨a', hn, fun b => ⟨rfl, by rw [text_num, text_num, hwiden, hwiden]⟩⟩
  | num addr true base, ha =>
    match a, ha with
    | [], ha =>
      have hn : 0 = 2 + n := ha
      omega
    | [_], ha =>
      have hn : 1 = 2 + n := ha
      omega
    | lo :: hi :: a', ha =>
      have hn : a'.length + 1 + 1 = 2 + n := ha
      have hwiden : ∀ b, widen true (lo :: hi :: a' ++ₛ b) = hi ++ lo := fun b => rfl
      exact ⟨a', by omega, fun b => ⟨rfl, by rw [text_num, text_num, hwiden, hwiden]⟩⟩

/-- What `c` takes lies in `a`. -/
theorem slotCount_cons {p : Place} {w : List Byte} {a : List (BitVec 32)}
    (ha : a.length = slotCount p (c :: w)) :
    ∃ a', a'.length = slotCount (p.next c) w ∧ ∃ r, ∀ b,
      Scan.next ⟨p, a ++ₛ b⟩ c = ⟨p.next c, a' ++ₛ b⟩ ∧ Scan.out m ⟨p, a ++ₛ b⟩ c = r := by
  rw [slotCount] at ha
  cases hk : p.conv c with
  | none =>
    rw [hk, Option.elim_none, Nat.zero_add] at ha
    exact ⟨a, ha, _, fun b => ⟨by simp only [Scan.next, hk], by simp only [Scan.out, hk]; rfl⟩⟩
  | some k =>
    rw [hk, Option.elim_some] at ha
    obtain ⟨a', ha', htake⟩ := k.take_slots (m := m) ha
    refine ⟨a', ha', k.text m (a ++ₛ Stream'.const 0), fun b => ?_⟩
    simp only [Scan.next, Scan.out, hk, (htake b).1, (htake b).2, and_self]

/-- What is put out depends on the arguments taken only, and these are gone afterwards. -/
theorem emit_args : ∀ {w : List Byte} {p : Place} {a : List (BitVec 32)},
    a.length = slotCount p w → ∃ r, ∀ b, (machine m).emit ⟨p, a ++ₛ b⟩ w = r ∧
      (machine m).run ⟨p, a ++ₛ b⟩ w = ⟨w.foldl Place.next p, b⟩ := by
  intro w
  induction w with
  | nil =>
    intro p a ha
    rw [List.length_eq_zero_iff.mp ha]
    exact ⟨.ok [], fun b => ⟨rfl, rfl⟩⟩
  | cons c w ih =>
    intro p a ha
    obtain ⟨a', ha', r, hc⟩ := slotCount_cons (m := m) ha
    obtain ⟨r', hw⟩ := ih ha'
    refine ⟨r >>= fun x => r' >>= fun y => .ok (x ++ y), fun b => ?_⟩
    have hnext : (machine m).next ⟨p, a ++ₛ b⟩ c = ⟨p.next c, a' ++ₛ b⟩ := (hc b).1
    have hout : (machine m).out ⟨p, a ++ₛ b⟩ c = r := (hc b).2
    rw [Mealy.emit_cons, Mealy.run_cons, hnext, hout, (hw b).1, (hw b).2]
    exact ⟨rfl, rfl⟩

/-- The loader's formats compose: nothing is carried from one conversion to the next. -/
theorem composes {q : Ptr} {t : List Byte} (hq : strAt m q = .ok t) {f : CStr} (hf : Complete f)
    {a : List (BitVec 32)} (ha : a.length = slotCount .text f.bytes) (g : CStr) (b : Args)
    (buf : Buf) (rest : Args) : vprintf m buf (f ++ g) (a ++ₛ b) = (do
      let x ← vprintf m buf f (a ++ₛ rest)
      let y ← vprintf m buf g b
      .ok (x ++ y)) := by
  obtain ⟨r, hr⟩ := emit_args (m := m) ha
  obtain ⟨x, hx⟩ := emit_ok hq ⟨.text, a ++ₛ b⟩ f.bytes
  have hx' : r = .ok x := (hr b).1.symm.trans hx
  have hrun : (machine m).run ⟨.text, a ++ₛ b⟩ f.bytes = ⟨.text, b⟩ := by
    rw [(hr b).2]
    exact congrArg (Scan.mk · b) hf
  have happ : Complete (f ++ g) ↔ Complete g := by
    unfold Complete at *
    rw [CStr.bytes_append, List.foldl_append, hf]
  rw [vprintf_eq, vprintf_eq, vprintf_eq, CStr.bytes_append, Mealy.emit_append, hx, hrun,
    (hr rest).1, hx']
  simp only [happ, bind_assoc, Res.ok_bind, if_pos hf]
  congr 1
  funext y
  split <;> rfl

end
end X64k.L5.LoaderVprintf
