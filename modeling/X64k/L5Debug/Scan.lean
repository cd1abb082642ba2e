import X64k.L5Debug.Vprintf
import X64k.Core.Mealy

/-!
# The kernel's formatter as a machine

What a format says, byte by byte: each byte is read at a place (in the text, right
behind a `%`, in the width, behind `%l`), and puts out itself, a conversion or
nothing. The place moves on its own (`Place.next`); padding and arguments follow
it (`Scan.next`). `machine` is the Mealy machine over these, and

* `vprintf_eq`: `vprintf` puts out what the machine does, where the format ends
  in the text; where it ends inside a conversion, the loop reads on behind the NUL.
-/
namespace X64k.L5.Vprintf

open X64k.Core
open X64k.L5.Itoa (Buf itoa numeralOf)

inductive Place where
  | text
  | start
  | width
  | long
  deriving DecidableEq, Repr

/-- What a conversion prints: a string, a number in some base, or an address
with its `0x`; `wide` is the `l`. -/
inductive Conv where
  | str
  | num (wide : Bool) (base : Nat) (u : Bool)
  | ptr (wide : Bool)
  deriving DecidableEq, Repr

namespace Conv

/-- The letters behind `%`. -/
def short (c : Byte) : Option Conv :=
  if c = ch 's' then some .str
  else if c = ch 'd' then some (.num false 10 false)
  else if c = ch 'x' then some (.num false 16 false)
  else if c = ch 'u' then some (.num false 10 true)
  else if c = ch 'a' then some (.ptr false)
  else none

/-- The letters behind `%l`. -/
def long (c : Byte) : Option Conv :=
  if c = ch 'd' then some (.num true 10 false)
  else if c = ch 'x' then some (.num true 16 false)
  else if c = ch 'u' then some (.num true 10 true)
  else if c = ch 'a' then some (.ptr true)
  else none

end Conv

namespace Place

/-- A `0` or a blank right behind the `%`. -/
def isFlag (p : Place) (c : Byte) : Prop := p = .start ∧ (c = ch '0' ∨ c = ch ' ')

/-- A digit of the width. -/
def isWidth (p : Place) (c : Byte) : Prop :=
  (p = .start ∨ p = .width) ∧ ¬ p.isFlag c ∧ isDigit c

instance (p : Place) (c : Byte) : Decidable (p.isFlag c) := inferInstanceAs (Decidable (_ ∧ _))
instance (p : Place) (c : Byte) : Decidable (p.isWidth c) := inferInstanceAs (Decidable (_ ∧ _))

def next : Place → Byte → Place
  | text, c => if c = ch '%' then start else text
  | long, _ => text
  | p, c => if p.isFlag c ∨ p.isWidth c then width else if c = ch 'l' then long else text

/-- The conversion that `c` ends. -/
def conv : Place → Byte → Option Conv
  | text, _ => none
  | long, c => Conv.long c
  | _, c => Conv.short c

/-- The bytes put out for a byte that ends no conversion. -/
def plain : Place → Byte → List Byte
  | text, c => if c = ch '%' then [] else [c]
  | long, _ => []
  | p, c => if p.next c = text then [ch '%', c] else []

end Place

/-- The argument as `itoa` gets it: all of the slot or its low half. -/
def widen (wide : Bool) (w : Word) : Word := if wide then w else (w.setWidth 32).setWidth 64

def Conv.text (m : Mem) (padChar : Byte) (padCount w : Word) : Conv → Res (List Byte)
  | .str => do
    let t ← strAt m w
    .ok (padded padChar padCount t)
  | .num wide base u => .ok (padded padChar padCount (numeralOf base u (widen wide w)))
  | .ptr wide =>
    .ok ([ch '0', ch 'x'] ++
      padded (ch '0') (if wide then 16 else 8) (numeralOf 16 false (widen wide w)))

/-! ## The machine -/

structure Scan where
  place : Place
  padChar : Byte
  padCount : Word
  args : Args

namespace Scan

/-- The state a call starts in. -/
def init (args : Args) : Scan := ⟨.text, -1, 0, args⟩

def next (s : Scan) (c : Byte) : Scan where
  place := s.place.next c
  padChar := if s.place.isFlag c then c else s.padChar
  padCount := if s.place.isWidth c then addDigit s.padCount c else s.padCount
  args := if s.place.conv c = none then s.args else s.args.tail

def out (m : Mem) (s : Scan) (c : Byte) : Res (List Byte) :=
  match s.place.conv c with
  | some k => k.text m s.padChar s.padCount s.args.head
  | none => .ok (s.place.plain c)

end Scan

def machine (m : Mem) : Mealy Scan Byte Byte where
  next := Scan.next
  out := Scan.out m

/-- The format ends in the text, not inside a conversion. -/
def Complete (f : CStr) : Prop := f.bytes.foldl Place.next .text = .text

instance (f : CStr) : Decidable (Complete f) := inferInstanceAs (Decidable (_ = _))

section
variable {m : Mem} {buf : Buf} {p : Place} {c : Byte} {s : St}

theorem run_place (s : Scan) (w : List Byte) :
    ((machine m).run s w).place = w.foldl Place.next s.place :=
  Mealy.run_part (fun _ _ => rfl) s w

/-! ## Conversions -/

theorem number_eq {base : Nat} (hb : IsBase 16 base) (u : Bool) (s : St) (val : Word)
    (c : Byte) (n : Word) : ∃ buf, s.number base u val c n =
      .ok { s with buf, out := s.out ++ padded c n (numeralOf base u val) } := by
  obtain ⟨buf, hrun, htext, _⟩ := Itoa.itoa_text hb u s.buf val
  refine ⟨buf, ?_⟩
  rw [St.number, hrun, Res.ok_bind, htext, Res.ok_bind]
  rfl

/-- `go` prints the conversion `k` at `s`. -/
def Prints (m : Mem) (k : Conv) (s : St) (go : Res St) : Prop :=
  (∃ e, k.text m s.padChar s.padCount s.args.head = .error e ∧ go = .error e) ∨
  ∃ x buf, k.text m s.padChar s.padCount s.args.head = .ok x ∧
    go = .ok { s with args := s.args.tail, buf, out := s.out ++ x }

theorem prints_num {base : Nat} (hb : IsBase 16 base) (wide u : Bool) :
    Prints m (.num wide base u) s ({ s with args := s.args.tail }.number base u
      (widen wide s.args.head) s.padChar s.padCount) := by
  obtain ⟨buf, hrun⟩ := number_eq hb u { s with args := s.args.tail } (widen wide s.args.head)
    s.padChar s.padCount
  exact Or.inr ⟨_, buf, rfl, hrun⟩

theorem prints_ptr (wide : Bool) :
    Prints m (.ptr wide) s (({ s with args := s.args.tail }.puts [ch '0', ch 'x']).number 16 false
      (widen wide s.args.head) (ch '0') (if wide then 16 else 8)) := by
  obtain ⟨buf, hrun⟩ := number_eq Itoa.base16 false
    ({ s with args := s.args.tail }.puts [ch '0', ch 'x']) (widen wide s.args.head) (ch '0')
    (if wide then 16 else 8)
  refine Or.inr ⟨_, buf, rfl, ?_⟩
  rw [hrun]
  simp only [St.puts, List.append_assoc]

theorem prints_str : Prints m .str s (s.conv m (ch 's')) := by
  show Prints m .str s (strAt m s.args.head >>= fun t => .ok _)
  cases ht : strAt m s.args.head with
  | error e => exact Or.inl ⟨e, by rw [Conv.text, ht]; rfl, rfl⟩
  | ok t => exact Or.inr ⟨padded s.padChar s.padCount t, s.buf, by rw [Conv.text, ht]; rfl, rfl⟩

theorem conv_some {k : Conv} (hk : Conv.short c = some k) : Prints m k s (s.conv m c) := by
  unfold Conv.short at hk
  split_ifs at hk with h1 h2 h3 h4 h5
  · cases hk
    exact h1 ▸ prints_str
  · cases hk
    exact h2 ▸ prints_num Itoa.base10 false false
  · cases hk
    exact h3 ▸ prints_num Itoa.base16 false false
  · cases hk
    exact h4 ▸ prints_num Itoa.base10 false true
  · cases hk
    exact h5 ▸ prints_ptr false

theorem convLong_some {k : Conv} (hk : Conv.long c = some k) : Prints m k s (s.convLong c) := by
  unfold Conv.long at hk
  split_ifs at hk with h1 h2 h3 h4
  · cases hk
    exact h1 ▸ prints_num Itoa.base10 true false
  · cases hk
    exact h2 ▸ prints_num Itoa.base16 true false
  · cases hk
    exact h3 ▸ prints_num Itoa.base10 true true
  · cases hk
    exact h4 ▸ prints_ptr true

theorem conv_l : s.conv m (ch 'l') = s.inc.fmt.get >>= fun c => s.inc.convLong c := rfl

/-- A byte that ends no conversion is put out behind a `%`. -/
theorem conv_none (hk : Conv.short c = none) (hl : c ≠ ch 'l') :
    s.conv m c = .ok { s with out := s.out ++ [ch '%', c] } := by
  unfold Conv.short at hk
  split_ifs at hk with h1 h2 h3 h4 h5
  simp only [St.conv, h1, h2, h3, h4, h5, hl, if_false, St.putc, List.append_assoc]
  rfl

theorem convLong_none (hk : Conv.long c = none) : s.convLong c = .ok s := by
  unfold Conv.long at hk
  split_ifs at hk with h1 h2 h3 h4
  simp only [St.convLong, h1, h2, h3, h4, if_false]

/-! ## One byte of the source's loop -/

/-- What is left of the loop's round at a place, and the rounds behind it. -/
def resume (m : Mem) (n : Nat) (s : St) : Place → Res (List Byte)
  | .text => loop m n s
  | .start => do
    let s ← s.flag
    let (c, s) ← s.width
    let s ← s.conv m c
    loop m n s.inc
  | .width => do
    let (c, s) ← s.width
    let s ← s.conv m c
    loop m n s.inc
  | .long => do
    let c ← s.fmt.get
    let s ← s.convLong c
    loop m n s.inc

/-- The place, the rounds left and the locals: a state of the loop. -/
structure At where
  place : Place
  rounds : Nat
  locals : St

def At.Reads (t : At) (w : List Byte) : Prop :=
  t.locals.fmt = .into w ∧ w.length < t.rounds ∧ ∀ c ∈ w, c ≠ 0

def At.scan (t : At) : Scan := ⟨t.place, t.locals.padChar, t.locals.padCount, t.locals.args⟩

theorem width_digit {w : List Byte} (hf : s.fmt = .into (c :: w)) (hd : isDigit c) : s.width =
    St.width { s with fmt := .into w, padCount := addDigit s.padCount c } := by
  simp only [St.width, hf, St.widthLoop, hd, if_true]

theorem width_stop {w : List Byte} (hf : s.fmt = .into (c :: w)) (hd : ¬ isDigit c) :
    s.width = .ok (c, s) := by
  simp only [St.width, hf, St.widthLoop, hd, if_false]
  rw [← hf]

theorem width_nil (hf : s.fmt = .into []) : s.width = .ok (0, s) := by
  simp only [St.width, hf, St.widthLoop]
  rw [← hf]

theorem short_digit : ∀ c : Byte, isDigit c → Conv.short c = none ∧ c ≠ ch 'l' := by decide

/-- One step of the machine, seen in the loop. -/
def Steps (m : Mem) (t : At) (c : Byte) (w : List Byte) (prog : Res (List Byte)) : Prop :=
  (∃ e, t.scan.out m c = .error e ∧ prog = .error e) ∨
  ∃ (t' : At) (x : List Byte), t.scan.out m c = .ok x ∧ prog = resume m t'.rounds t'.locals t'.place ∧ t'.Reads w ∧
    t'.scan = t.scan.next c ∧ t'.locals.out = t.locals.out ++ x

theorem At.Reads.tail {t : At} {w : List Byte} (h : t.Reads (c :: w)) :
    w.length < t.rounds ∧ ∀ c ∈ w, c ≠ 0 := by
  obtain ⟨_, hlen, hne⟩ := h
  rw [List.length_cons] at hlen
  exact ⟨by omega, fun x hx => hne x (List.mem_cons_of_mem c hx)⟩

/-- A conversion, or no conversion, printed at the byte `c`: the next place is the text. -/
theorem steps_conv {t : At} {w : List Byte} {go : Res St} (hr : t.Reads (c :: w))
    (hnext : t.scan.next c = { t.scan with
      place := .text, args := if t.place.conv c = none then t.locals.args else t.locals.args.tail })
    (hgo : (∃ k, t.place.conv c = some k ∧ Prints m k t.locals go) ∨
      (t.place.conv c = none ∧
        go = .ok { t.locals with out := t.locals.out ++ t.place.plain c })) :
    Steps m t c w (go >>= fun s => loop m t.rounds s.inc) := by
  obtain ⟨hlen, hne⟩ := hr.tail
  have hf := hr.1
  rcases hgo with ⟨k, hk, hgo⟩ | ⟨hk, hgo⟩
  · have hout : t.scan.out m c = k.text m t.locals.padChar t.locals.padCount t.locals.args.head := by
      simp only [Scan.out, At.scan, hk]
    rcases hgo with ⟨e, htext, hgo⟩ | ⟨x, buf, htext, hgo⟩
    · exact Or.inl ⟨e, hout.trans htext, by rw [hgo]; rfl⟩
    · refine Or.inr ⟨⟨.text, t.rounds, St.inc { t.locals with
        args := t.locals.args.tail, buf, out := t.locals.out ++ x }⟩, x, hout.trans htext, ?_,
        ⟨?_, hlen, hne⟩, ?_, rfl⟩
      · rw [hgo]
        rfl
      · simp only [St.inc, hf, CPtr.inc_cons]
      · rw [hnext, if_neg (by rw [hk]; exact Option.some_ne_none k)]
        rfl
  · have hout : t.scan.out m c = .ok (t.place.plain c) := by
      simp only [Scan.out, At.scan, hk]
    refine Or.inr ⟨⟨.text, t.rounds, St.inc { t.locals with
      out := t.locals.out ++ t.place.plain c }⟩, _, hout, ?_, ⟨?_, hlen, hne⟩, ?_, rfl⟩
    · rw [hgo]
      rfl
    · simp only [St.inc, hf, CPtr.inc_cons]
    · rw [hnext, if_pos hk]
      rfl

theorem steps_width {t : At} {w : List Byte} (hp : t.place = .start ∨ t.place = .width)
    (hflag : ¬ t.place.isFlag c) (hr : t.Reads (c :: w)) :
    Steps m t c w (resume m t.rounds t.locals .width) := by
  obtain ⟨hlen, hne⟩ := hr.tail
  have hf := hr.1
  have hconv : t.place.conv c = Conv.short c := by
    rcases hp with h | h <;> rw [h] <;> rfl
  have hplain : t.place.plain c = if t.place.next c = .text then [ch '%', c] else [] := by
    rcases hp with h | h <;> rw [h] <;> rfl
  have hplace : t.place.next c =
      if t.place.isFlag c ∨ t.place.isWidth c then .width else if c = ch 'l' then .long else .text := by
    rcases hp with h | h <;> rw [h] <;> rfl
  by_cases hd : isDigit c
  · -- a digit of the width
    have hw : t.place.isWidth c := ⟨hp, hflag, hd⟩
    obtain ⟨hshort, _⟩ := short_digit c hd
    rw [if_pos (Or.inr hw)] at hplace
    refine Or.inr ⟨⟨.width, t.rounds, { t.locals with
      fmt := .into w, padCount := addDigit t.locals.padCount c }⟩, [], ?_, ?_,
      ⟨rfl, hlen, hne⟩, ?_, (List.append_nil _).symm⟩
    · simp only [Scan.out, At.scan, hconv, hshort, hplain, hplace, reduceCtorEq, if_false]
    · simp only [resume, width_digit hf hd]
    · simp only [At.scan, Scan.next, hplace, hflag, hw, hconv, hshort, if_true, if_false]
  · have hw : ¬ t.place.isWidth c := fun h => hd h.2.2
    rw [if_neg (by rintro (h | h) <;> contradiction)] at hplace
    have hgo : resume m t.rounds t.locals .width =
        t.locals.conv m c >>= fun s => loop m t.rounds s.inc := by
      simp only [resume, width_stop hf hd, Res.ok_bind]
    by_cases hl : c = ch 'l'
    · have hshort : Conv.short c = none := hl ▸ rfl
      rw [if_pos hl] at hplace
      refine Or.inr ⟨⟨.long, t.rounds, t.locals.inc⟩, [], ?_, ?_, ⟨?_, hlen, hne⟩, ?_,
        (List.append_nil _).symm⟩
      · simp only [Scan.out, At.scan, hconv, hshort, hplain, hplace, reduceCtorEq, if_false]
      · rw [hgo, hl, conv_l, bind_assoc]
        rfl
      · simp only [St.inc, hf, CPtr.inc_cons]
      · simp only [At.scan, Scan.next, hplace, hflag, hw, hconv, hshort, if_true, if_false, St.inc]
    · rw [if_neg hl] at hplace
      rw [hgo]
      refine steps_conv hr ?_ ?_
      · simp only [At.scan, Scan.next, hplace, hflag, hw, if_false]
        rfl
      · rw [hconv, hplain, if_pos hplace]
        cases hk : Conv.short c with
        | none => exact Or.inr ⟨rfl, conv_none hk hl⟩
        | some k => exact Or.inl ⟨k, rfl, conv_some hk⟩

theorem steps (t : At) (c : Byte) (w : List Byte) (hr : t.Reads (c :: w)) :
    Steps m t c w (resume m t.rounds t.locals t.place) := by
  obtain ⟨hlen, hne⟩ := hr.tail
  obtain ⟨p, n, s⟩ := t
  have hf : s.fmt = .into (c :: w) := hr.1
  have hget : s.fmt.get = .ok c := by rw [hf]; rfl
  cases p with
  | text =>
    -- a round of the loop begins
    obtain ⟨n, rfl⟩ : ∃ k, n = k + 1 := ⟨n - 1, (Nat.sub_add_cancel (Nat.one_le_of_lt hlen)).symm⟩
    have hround : w.length < n := Nat.lt_of_succ_lt_succ hr.2.1
    have h0 : c ≠ 0 := hr.2.2 c List.mem_cons_self
    by_cases hpc : c = ch '%'
    · refine Or.inr ⟨⟨.start, n, s.inc⟩, [], ?_, ?_, ⟨?_, hround, hne⟩, ?_, (List.append_nil _).symm⟩
      · simp only [Scan.out, At.scan, Place.conv, Place.plain, hpc, if_true]
      · simp only [resume, loop, hget, Res.ok_bind, if_neg h0, if_pos hpc, St.percent, bind_assoc]
      · simp only [St.inc, hf, CPtr.inc_cons]
      · simp only [At.scan, Scan.next, Place.next, Place.isFlag, Place.isWidth, Place.conv, hpc,
          if_true, reduceCtorEq, false_and, or_self, if_false, St.inc]
    · refine Or.inr ⟨⟨.text, n, (s.putc c).inc⟩, [c], ?_, ?_, ⟨?_, hround, hne⟩, ?_, rfl⟩
      · simp only [Scan.out, At.scan, Place.conv, Place.plain, hpc, if_false]
      · simp only [resume, loop, hget, h0, hpc, if_false, Res.ok_bind]
      · simp only [St.inc, St.putc, hf, CPtr.inc_cons]
      · simp only [At.scan, Scan.next, Place.next, Place.isFlag, Place.isWidth, Place.conv, hpc,
          if_true, reduceCtorEq, false_and, or_self, if_false, St.inc, St.putc]
  | start =>
    by_cases hflag : c = ch '0' ∨ c = ch ' '
    · have hin : ({ s with padChar := c } : St).inc.fmt = .into w := by
        simp only [St.inc, hf, CPtr.inc_cons]
      obtain ⟨c', hc'⟩ : ∃ c', (CPtr.into w).get = .ok c' := by
        cases w with
        | nil => exact ⟨0, rfl⟩
        | cons c' w => exact ⟨c', rfl⟩
      have hfl : Place.start.isFlag c := ⟨rfl, hflag⟩
      have hshort : Conv.short c = none := by rcases hflag with rfl | rfl <;> rfl
      have hplace : Place.start.next c = .width := if_pos (Or.inl hfl)
      refine Or.inr ⟨⟨.width, n, ({ s with padChar := c } : St).inc⟩, [], ?_, ?_, ⟨hin, hlen, hne⟩, ?_,
        (List.append_nil _).symm⟩
      · simp only [Scan.out, At.scan, Place.conv, hshort, Place.plain, hplace, reduceCtorEq, if_false]
      · simp only [resume, St.flag, hget, Res.ok_bind, hflag, if_true, hin, hc']
      · have hw : ¬ Place.start.isWidth c := fun h => h.2.1 hfl
        simp only [At.scan, Scan.next, hplace, hfl, hw, Place.conv, hshort, if_true, if_false, St.inc]
    · have hsame : resume m n s .start = resume m n s .width := by
        simp only [resume, St.flag, hget, Res.ok_bind, hflag, if_false]
      rw [hsame]
      exact steps_width (Or.inl rfl) (fun h => hflag h.2) hr
  | width => exact steps_width (Or.inr rfl) (fun h => by cases h.1) hr
  | long =>
    have hgo : resume m n s .long = s.convLong c >>= fun s => loop m n s.inc := by
      simp only [resume, hget, Res.ok_bind]
    rw [hgo]
    refine steps_conv hr ?_ ?_
    · simp only [At.scan, Scan.next, Place.next, Place.isFlag, Place.isWidth, reduceCtorEq, false_and,
        or_self, if_false]
      rfl
    · cases hk : Conv.long c with
      | none =>
        refine Or.inr ⟨hk, ?_⟩
        rw [convLong_none hk, Place.plain, List.append_nil]
      | some k => exact Or.inl ⟨k, hk, convLong_some hk⟩

/-- At the NUL: in the text the loop is done; elsewhere it steps over the NUL. -/
theorem stops (t : At) (hr : t.Reads []) : resume m t.rounds t.locals t.place =
    if t.scan.place = .text then .ok t.locals.out else .error overread := by
  obtain ⟨p, n, s⟩ := t
  obtain ⟨hf, hn, -⟩ := hr
  obtain ⟨n, rfl⟩ : ∃ k, n = k + 1 := ⟨n - 1, (Nat.sub_add_cancel (Nat.one_le_of_lt hn)).symm⟩
  have hpast : ∀ s : St, s.fmt = .into [] → loop m (n + 1) s.inc = .error overread := by
    intro s hs
    simp only [loop, St.inc, hs, CPtr.inc_nil, CPtr.get_past, Res.error_bind]
  have hwidth : resume m (n + 1) s .width = .error overread := by
    simp only [resume, width_nil hf, Res.ok_bind]
    exact hpast _ hf
  have hget : s.fmt.get = .ok 0 := by rw [hf]; rfl
  cases p with
  | text =>
    refine Eq.trans ?_ (if_pos rfl).symm
    simp only [resume, loop, hget, Res.ok_bind, if_true]
  | start =>
    rw [if_neg nofun]
    have hsame : resume m (n + 1) s .start = resume m (n + 1) s .width := by
      simp only [resume, St.flag, hget, Res.ok_bind]
      rfl
    exact hsame.trans hwidth
  | width =>
    rw [if_neg nofun]
    exact hwidth
  | long =>
    rw [if_neg nofun]
    simp only [resume, hget, Res.ok_bind, convLong_none (show Conv.long 0 = none from rfl)]
    exact hpast s hf

theorem simulated (m : Mem) : (machine m).Simulated
    (fun t : At => resume m t.rounds t.locals t.place) At.Reads At.scan (fun t => t.locals.out)
    (fun s => s.place = .text) overread where
  step t c w hr := steps t c w hr
  stop t hr := stops t hr

/-! ## Strings in memory -/

theorem emit_ok {q : Word} {t : List Byte} (h : strAt m q = .ok t) (s : Scan) (w : List Byte) :
    ∃ x, (machine m).emit s w = .ok x := by
  refine Mealy.emit_ok (fun s c => ?_) s w
  show ∃ x, s.out m c = .ok x
  unfold Scan.out
  cases s.place.conv c with
  | none => exact ⟨_, rfl⟩
  | some k =>
    cases k with
    | str =>
      obtain ⟨t', ht'⟩ : ∃ t', strAt m s.args.head = .ok t' := textAt_ends h s.args.head
      exact ⟨padded s.padChar s.padCount t', by simp only [Conv.text, ht', Res.ok_bind]⟩
    | num wide base u => exact ⟨_, rfl⟩
    | ptr wide => exact ⟨_, rfl⟩

/-- **What `vprintf` puts out**: the output of the machine, where the format ends
in the text. -/
theorem vprintf_eq (m : Mem) (buf : Buf) (f : CStr) (args : Args) : vprintf m buf f args = (do
    let x ← (machine m).emit (.init args) f.bytes
    if Complete f then .ok x else .error overread) := by
  have h := (simulated m).eq (t := ⟨.text, f.bytes.length + 1,
    { fmt := .into f.bytes, padChar := -1, padCount := 0, args, buf, out := [] }⟩)
    ⟨rfl, Nat.lt_succ_self _, f.noNul⟩
  simp only [run_place, List.nil_append] at h
  exact h

end
end X64k.L5.Vprintf
