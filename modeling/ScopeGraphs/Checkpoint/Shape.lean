import ScopeGraphs.Order.Keyed

/-!
# Checkpoints

Checkers write their state down as bytes, to be taken up again in a later run. What can be written
is described by a `Shape`, and `Shape.Value` is the type of the values of a shape. The bytes do not
describe themselves: whoever reads them says which shape to expect, and bytes after the value are
left over.

The format: a single byte for 8-bit integers, truth values and the tag of an optional value; wider
integers and lengths in a form of variable length, in which numbers below 251 take one byte and the
markers 251 to 254 announce two, four, eight and sixteen bytes, the least significant first; signed
integers folded onto the unsigned ones, so that small magnitudes stay small; characters in UTF-8;
texts, lists and maps after their length; parts of a pair one after the other; the number of a
choice.
-/

namespace ScopeGraphs

/-- Bytes written down. -/
abbrev Bytes := List UInt8

/-- Widths of integers that take more than a byte. -/
inductive Width where
  /-- 16 bits. -/
  | two
  /-- 32 bits. -/
  | four
  /-- 64 bits. -/
  | eight
  /-- 128 bits. -/
  | sixteen
  deriving DecidableEq, Repr

/-- The number of bytes of a width. -/
def Width.bytes : Width → Nat
  | two => 2
  | four => 4
  | eight => 8
  | sixteen => 16

/-- The number of values of a width. -/
def Width.bound : Width → Nat
  | two => 0x10000
  | four => 0x100000000
  | eight => 0x10000000000000000
  | sixteen => 0x100000000000000000000000000000000

/-- What can be written down. -/
inductive Shape where
  /-- Truth values. -/
  | bool
  /-- Integers from 0 to 255. -/
  | byte
  /-- Unsigned integers of a width. -/
  | unsigned (w : Width)
  /-- Integers from -128 to 127. -/
  | signedByte
  /-- Signed integers of a width. -/
  | signed (w : Width)
  /-- Characters. -/
  | char
  /-- Texts. -/
  | text
  /-- The value without content. -/
  | unit
  /-- Lists. -/
  | list (item : Shape)
  /-- Optional values. -/
  | option (content : Shape)
  /-- Pairs. -/
  | pair (first second : Shape)
  /-- Maps from texts. -/
  | map (value : Shape)
  /-- One of a number of choices. -/
  | choice (count : Nat)
  deriving DecidableEq, Repr

namespace Shape

/-- The values of a shape. -/
abbrev Value : Shape → Type
  | bool => Bool
  | byte => UInt8
  | unsigned w => { n : Nat // n < w.bound }
  | signedByte => { i : Int // -128 ≤ i ∧ i < 128 }
  | signed w => { i : Int // -(w.bound : Int) ≤ 2 * i ∧ 2 * i < w.bound }
  | char => Char
  | text => String
  | unit => Unit
  | list s => List s.Value
  | option s => Option s.Value
  | pair s t => s.Value × t.Value
  | map s => SortedMap String s.Value
  | choice n => { i : Nat // i < n ∧ i < Width.four.bound }

end Shape

/-! ## Integers -/

namespace Checkpoint

/-- The lowest bytes of a number, the least significant first. -/
def littleEndian : Nat → Nat → Bytes
  | 0, _ => []
  | k + 1, n => UInt8.ofNat (n % 256) :: littleEndian k (n / 256)

/-- The number that bytes denote, the least significant first. -/
def ofLittleEndian : Bytes → Nat
  | [] => 0
  | b :: bs => b.toNat + 256 * ofLittleEndian bs

/-- An unsigned number in as few bytes as its magnitude allows. -/
def encodeNat (n : Nat) : Bytes :=
  if n < 251 then [UInt8.ofNat n]
  else if n < Width.two.bound then 251 :: littleEndian 2 n
  else if n < Width.four.bound then 252 :: littleEndian 4 n
  else if n < Width.eight.bound then 253 :: littleEndian 8 n
  else 254 :: littleEndian 16 n

/-- Reads a number of a fixed count of bytes. -/
def take? (k : Nat) (bs : Bytes) : Option (Bytes × Bytes) :=
  if k ≤ bs.length then some (bs.take k, bs.drop k) else none

/-- Reads an unsigned number of a width. Markers of a greater width are refused; more bytes than
necessary are not. -/
def decodeNat? (w : Width) : Bytes → Option (Nat × Bytes)
  | [] => none
  | b :: bs =>
    let k :=
      if b < 251 then 0 else if b = 251 then 2 else if b = 252 then 4
      else if b = 253 then 8 else if b = 254 then 16 else w.bytes + 1
    if k = 0 then some (b.toNat, bs)
    else if k ≤ w.bytes then (take? k bs).map fun r ↦ (ofLittleEndian r.1, r.2)
    else none

/-- The unsigned number that a signed one is folded onto. -/
def fold (i : Int) : Nat := if 0 ≤ i then (2 * i).toNat else (-2 * i - 1).toNat

/-- The signed number that was folded onto an unsigned one. -/
def unfold (n : Nat) : Int := if n % 2 = 0 then (n / 2 : Nat) else -((n / 2 : Nat) : Int) - 1

/-! ## Texts -/

/-- The bytes of a text. -/
def textBytes (s : String) : Bytes := s.toByteArray.toList

/-- The text that bytes denote. -/
def ofTextBytes? (bs : Bytes) : Option String := String.fromUTF8? (ByteArray.mk bs.toArray)

/-- The number of bytes of the character that starts with a byte. -/
def charWidth? (b : UInt8) : Option Nat :=
  if b < 0x80 then some 1
  else if b < 0xc2 then none
  else if b < 0xe0 then some 2
  else if b < 0xf0 then some 3
  else if b < 0xf5 then some 4
  else none

/-- Reads a character. -/
def decodeChar? (bs : Bytes) : Option (Char × Bytes) := do
  let (first, rest) ← take? (← charWidth? (← bs.head?)) bs
  match (← ofTextBytes? first).toList with
  | [c] => some (c, rest)
  | _ => none

end Checkpoint

/-! ## Values -/

namespace Shape

open Checkpoint

/-- The bytes of a value. -/
def encode : (s : Shape) → s.Value → Bytes
  | bool, b => [if b then 1 else 0]
  | byte, b => [b]
  | unsigned _, n => encodeNat n.1
  | signedByte, i => [UInt8.ofNat (i.1 % 256).toNat]
  | signed _, i => encodeNat (fold i.1)
  | char, c => textBytes (String.singleton c)
  | text, t => encodeNat (textBytes t).length ++ textBytes t
  | unit, _ => []
  | list s, vs => encodeNat vs.length ++ vs.flatMap s.encode
  | option _, none => [0]
  | option s, some v => 1 :: s.encode v
  | pair s t, v => s.encode v.1 ++ t.encode v.2
  | map s, m =>
    encodeNat m.size ++ m.toList.flatMap fun e ↦
      encodeNat (textBytes e.1).length ++ textBytes e.1 ++ s.encode e.2
  | choice _, i => encodeNat i.1

/-- Reads a text after its length. -/
def decodeText? (bs : Bytes) : Option (String × Bytes) := do
  let (n, bs) ← decodeNat? .eight bs
  let (first, rest) ← take? n bs
  some (← ofTextBytes? first, rest)

/-- Reads a number of values one after the other. -/
def decodeMany {α : Type} (read : Bytes → Option (α × Bytes)) :
    Nat → Bytes → Option (List α × Bytes)
  | 0, bs => some ([], bs)
  | n + 1, bs => do
    let (v, bs) ← read bs
    let (vs, bs) ← decodeMany read n bs
    some (v :: vs, bs)

/-- Reads values after their number. -/
def decodeCounted {α : Type} (read : Bytes → Option (α × Bytes)) (bs : Bytes) :
    Option (List α × Bytes) := do
  let (n, bs) ← decodeNat? .eight bs
  decodeMany read n bs

/-- Reads a value of a shape; what is left over is returned. -/
def decode? : (s : Shape) → Bytes → Option (s.Value × Bytes)
  | bool, 0 :: bs => some (false, bs)
  | bool, 1 :: bs => some (true, bs)
  | bool, _ => none
  | byte, b :: bs => some (b, bs)
  | byte, [] => none
  | unsigned w, bs => do
    let (n, bs) ← decodeNat? w bs
    if h : n < w.bound then some (⟨n, h⟩, bs) else none
  | signedByte, b :: bs =>
    let i : Int := if b < 128 then b.toNat else (b.toNat : Int) - 256
    if h : -128 ≤ i ∧ i < 128 then some (⟨i, h⟩, bs) else none
  | signedByte, [] => none
  | signed w, bs => do
    let (n, bs) ← decodeNat? w bs
    if h : -(w.bound : Int) ≤ 2 * unfold n ∧ 2 * unfold n < w.bound then some (⟨unfold n, h⟩, bs)
    else none
  | char, bs => decodeChar? bs
  | text, bs => decodeText? bs
  | unit, bs => some ((), bs)
  | list s, bs => decodeCounted s.decode? bs
  | option _, 0 :: bs => some (none, bs)
  | option s, 1 :: bs => (s.decode? bs).map fun r ↦ (some r.1, r.2)
  | option _, _ => none
  | pair s t, bs => do
    let (v, bs) ← s.decode? bs
    let (w, bs) ← t.decode? bs
    some ((v, w), bs)
  | map s, bs =>
    (decodeCounted (fun bs ↦ do
      let (k, bs) ← decodeText? bs
      let (v, bs) ← s.decode? bs
      some ((k, v), bs)) bs).map fun r ↦ (SortedMap.ofList r.1, r.2)
  | choice n, bs => do
    let (i, bs) ← decodeNat? .four bs
    if h : i < n ∧ i < Width.four.bound then some (⟨i, h⟩, bs) else none

end Shape

/-! ## The checkpoints of checkers -/

/-- The state of a checker, written down. -/
structure Checkpoint where
  /-- The bytes. -/
  bytes : Bytes
  deriving DecidableEq, Inhabited, Repr

namespace Checkpoint

/-- A value written down. -/
def ofValue (s : Shape) (v : s.Value) : Checkpoint := ⟨s.encode v⟩

/-- The value that was written down, if the bytes begin with one of the expected shape. -/
def value? (c : Checkpoint) (s : Shape) : Option s.Value := (s.decode? c.bytes).map Prod.fst

/-- A text written down. -/
def ofText (t : String) : Checkpoint := ofValue .text t

/-- The text that was written down. -/
def text? (c : Checkpoint) : Option String := c.value? .text

/-- The bytes in hexadecimal digits, two for each. -/
def hexText (c : Checkpoint) : String :=
  String.ofList (c.bytes.flatMap fun b ↦
    [Nat.digitChar (b.toNat / 16), Nat.digitChar (b.toNat % 16)])

/-- The number that a hexadecimal digit in lower case stands for. -/
def ofDigitChar? (c : Char) : Option Nat := (List.range 16).find? fun n ↦ Nat.digitChar n = c

/-- The bytes that pairs of hexadecimal digits stand for. -/
def bytesOfDigits? : List Char → Option Bytes
  | [] => some []
  | [_] => none
  | c :: d :: cs => do
    let high ← ofDigitChar? c
    let low ← ofDigitChar? d
    let bs ← bytesOfDigits? cs
    some (UInt8.ofNat (16 * high + low) :: bs)

/-- The checkpoint whose bytes a text of hexadecimal digits stands for. -/
def ofHex? (text : String) : Option Checkpoint := (bytesOfDigits? text.toList).map Checkpoint.mk

end Checkpoint

end ScopeGraphs
