import X64k.L5Debug.Itoa
import Mathlib.Data.Stream.Init

/-!
# The kernel's formatter

`debug::vprintf` of `src/kernel/sys/debug.cpp`, statement by statement. The
format is a pointer into a C string; the argument list is the stream of its 8-byte
slots, what the caller passed and whatever lies behind, a 32-bit argument in
the low half of its slot. The output is the sequence of bytes that `out.putc` gets.
`padChar` and `padCount` belong to the call, not to a conversion.
-/
namespace X64k.L5.Vprintf

open X64k.Core
open X64k.L5.Itoa (Buf itoa)

abbrev Args := Stream' Word

/-- The local variables of `vprintf`, and what was put out. -/
structure St where
  fmt : CPtr
  padChar : Byte
  padCount : Word
  args : Args
  buf : Buf
  out : List Byte

/-- The C string at an address. -/
def strAt (m : Mem) (p : Word) : Res (List Byte) := textAt m.byte p

/-- The padding and the text of `puts(s, c, p)`.
mirrors src/kernel/sys/debug.cpp:18-26 -/
def padded (c : Byte) (p : Word) (t : List Byte) : List Byte :=
  List.replicate (p.toNat - t.length) c ++ t

/-- `c - '0'` for the bytes from `'0'` to `'9'`. -/
def isDigit (c : Byte) : Prop := ch '0' ≤ c ∧ c ≤ ch '9'

instance (c : Byte) : Decidable (isDigit c) := inferInstanceAs (Decidable (_ ∧ _))

/-- `padCount *= 10; padCount += c - '0'` -/
def addDigit (padCount : Word) (c : Byte) : Word := padCount * 10 + (c.setWidth 64 - 48)

namespace St

def putc (s : St) (c : Byte) : St := { s with out := s.out ++ [c] }

/-- `puts(s)`, `t` being the text of `s`. -/
def puts (s : St) (t : List Byte) : St := { s with out := s.out ++ t }

def inc (s : St) : St := { s with fmt := s.fmt.inc }

/-- `va_arg(args, uint32_t)` -/
def arg32 (s : St) : BitVec 32 × St := (s.args.head.setWidth 32, { s with args := s.args.tail })

/-- `va_arg(args, uint64_t)` -/
def arg64 (s : St) : Word × St := (s.args.head, { s with args := s.args.tail })

/-- `puts(itoa::itoa<base, u>(buf, val), c, p)` -/
def number (s : St) (base : Nat) (u : Bool) (val : Word) (c : Byte) (p : Word) : Res St := do
  let buf ← itoa base u s.buf val
  let t ← buf.text
  .ok ({ s with buf }.puts (padded c p t))

/-- The digits of the width, and the byte behind them.
mirrors src/kernel/sys/debug.cpp:65-69 -/
def widthLoop : List Byte → Word → Byte × Word × List Byte
  | [], padCount => (0, padCount, [])
  | c :: rest, padCount =>
    if isDigit c then widthLoop rest (addDigit padCount c) else (c, padCount, c :: rest)

def width (s : St) : Res (Byte × St) :=
  match s.fmt with
  | .past => .error overread
  | .into rest =>
    let (c, padCount, rest) := widthLoop rest s.padCount
    .ok (c, { s with padCount, fmt := .into rest })

/-- mirrors src/kernel/sys/debug.cpp:94-114 -/
def convLong (c : Byte) (s : St) : Res St :=
  if c = ch 'd' then
    let (v64, s) := s.arg64
    s.number 10 false v64 s.padChar s.padCount
  else if c = ch 'x' then
    let (v64, s) := s.arg64
    s.number 16 false v64 s.padChar s.padCount
  else if c = ch 'u' then
    let (v64, s) := s.arg64
    s.number 10 true v64 s.padChar s.padCount
  else if c = ch 'a' then
    let (v64, s) := s.arg64
    (s.puts [ch '0', ch 'x']).number 16 false v64 (ch '0') 16
  else .ok s

/-- mirrors src/kernel/sys/debug.cpp:70-120 -/
def conv (m : Mem) (c : Byte) (s : St) : Res St :=
  if c = ch 's' then do
    let (v64, s) := s.arg64
    let t ← strAt m v64
    .ok (s.puts (padded s.padChar s.padCount t))
  else if c = ch 'd' then
    let (v32, s) := s.arg32
    s.number 10 false (v32.setWidth 64) s.padChar s.padCount
  else if c = ch 'x' then
    let (v32, s) := s.arg32
    s.number 16 false (v32.setWidth 64) s.padChar s.padCount
  else if c = ch 'u' then
    let (v32, s) := s.arg32
    s.number 10 true (v32.setWidth 64) s.padChar s.padCount
  else if c = ch 'a' then
    let (v32, s) := s.arg32
    (s.puts [ch '0', ch 'x']).number 16 false (v32.setWidth 64) (ch '0') 8
  else if c = ch 'l' then do
    let s := s.inc
    let c ← s.fmt.get
    s.convLong c
  else .ok ((s.putc (ch '%')).putc c)

/-- mirrors src/kernel/sys/debug.cpp:61-64 -/
def flag (s : St) : Res St := do
  let c ← s.fmt.get
  if c = ch '0' ∨ c = ch ' ' then do
    let s := { s with padChar := c }.inc
    let _ ← s.fmt.get
    .ok s
  else .ok s

/-- mirrors src/kernel/sys/debug.cpp:59-121 -/
def percent (m : Mem) (s : St) : Res St := do
  let s ← s.inc.flag
  let (c, s) ← s.width
  s.conv m c

end St

/-- mirrors src/kernel/sys/debug.cpp:57-127 -/
def loop (m : Mem) : Nat → St → Res (List Byte)
  | 0, _ => .error .loop
  | n + 1, s => do
    let c ← s.fmt.get
    if c = 0 then .ok s.out
    else do
      let s ← if c = ch '%' then s.percent m else .ok (s.putc c)
      loop m n s.inc

/-- What `debug::vprintf` puts out; `buf` is what its buffer holds before the
first write. mirrors src/kernel/sys/debug.cpp:50-128 -/
def vprintf (m : Mem) (buf : Buf) (fmt : CStr) (args : Args) : Res (List Byte) :=
  loop m (fmt.bytes.length + 1)
    { fmt := .into fmt.bytes, padChar := -1, padCount := 0, args, buf, out := [] }

end X64k.L5.Vprintf
