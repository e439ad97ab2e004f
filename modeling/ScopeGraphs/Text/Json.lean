/-!
# JSON texts

A strict reader for JSON (`Json.parse?`) and the writer for texts inside JSON (`Json.quote`).

The reader keeps what documents of this library need: numbers are checked for their form but not
kept, and a text whose escapes do not denote characters (a lone surrogate) is read as no text at
all, which matters only to whoever wants to use it. Every step of the reader consumes input, so
the length of the input bounds the recursion.
-/

namespace ScopeGraphs

/-- A JSON value. -/
inductive Json where
  /-- The null value. -/
  | null
  /-- A truth value. -/
  | bool (b : Bool)
  /-- Some number. -/
  | number
  /-- A text, if its escapes denote characters. -/
  | text (s : Option String)
  /-- An array. -/
  | array (items : List Json)
  /-- An object: its fields in the order in which they are written. -/
  | object (fields : List (Option String × Json))
  deriving Inhabited, Repr

namespace Json

/-! ## Texts -/

/-- A part of a written text: a character, or a 16-bit unit given by its number. -/
inductive Piece where
  /-- A character. -/
  | char (c : Char)
  /-- A unit. -/
  | unit (n : Nat)
  deriving Repr

/-- The characters that pieces denote. Units above the surrogates and below them denote one
character each, a high surrogate denotes one together with the low surrogate after it. -/
def join? : List Piece → Option (List Char)
  | [] => some []
  | .char c :: rest => (join? rest).map (c :: ·)
  | .unit n :: .unit m :: rest =>
    if 0xd800 ≤ n ∧ n < 0xdc00 then
      if 0xdc00 ≤ m ∧ m < 0xe000 then
        (join? rest).map (Char.ofNat (0x10000 + (n - 0xd800) * 0x400 + (m - 0xdc00)) :: ·)
      else none
    else if 0xdc00 ≤ n ∧ n < 0xe000 then none
    else (join? (.unit m :: rest)).map (Char.ofNat n :: ·)
  | .unit n :: rest =>
    if 0xd800 ≤ n ∧ n < 0xe000 then none else (join? rest).map (Char.ofNat n :: ·)

/-- The value of a hexadecimal digit. -/
def hexDigit? (c : Char) : Option Nat :=
  if '0' ≤ c ∧ c ≤ '9' then some (c.toNat - '0'.toNat)
  else if 'a' ≤ c ∧ c ≤ 'f' then some (c.toNat - 'a'.toNat + 10)
  else if 'A' ≤ c ∧ c ≤ 'F' then some (c.toNat - 'A'.toNat + 10)
  else none

/-- The character that a letter after a backslash stands for. -/
def unescape? : Char → Option Char
  | '"' => some '"'
  | '\\' => some '\\'
  | '/' => some '/'
  | 'b' => some '\x08'
  | 'f' => some '\x0c'
  | 'n' => some '\n'
  | 'r' => some '\r'
  | 't' => some '\t'
  | _ => none

/-- Reads the rest of a text after its opening quote. -/
def pieces? : List Char → Option (List Piece × List Char)
  | '"' :: rest => some ([], rest)
  | '\\' :: 'u' :: a :: b :: c :: d :: rest => do
    let n := ((← hexDigit? a) * 16 + (← hexDigit? b)) * 16
    let n := (n + (← hexDigit? c)) * 16 + (← hexDigit? d)
    let (ps, rest) ← pieces? rest
    some (.unit n :: ps, rest)
  | '\\' :: e :: rest => do
    let c ← unescape? e
    let (ps, rest) ← pieces? rest
    some (.char c :: ps, rest)
  | c :: rest =>
    if c.toNat < 0x20 ∨ c = '\\' then none
    else do
      let (ps, rest) ← pieces? rest
      some (.char c :: ps, rest)
  | [] => none

/-- Reads a text after its opening quote. -/
def text? (cs : List Char) : Option (Option String × List Char) :=
  (pieces? cs).map fun r ↦ ((join? r.1).map String.ofList, r.2)

/-! ## Numbers -/

/-- Reads at least one digit. -/
def digits? (cs : List Char) : Option (List Char) :=
  match cs with
  | c :: rest => if c.isDigit then some (rest.dropWhile Char.isDigit) else none
  | [] => none

/-- Reads the whole part of a number, which has no leading zeros. -/
def whole? : List Char → Option (List Char)
  | '0' :: rest => some rest
  | cs => digits? cs

/-- Reads the fraction of a number, if there is one. -/
def fraction? : List Char → Option (List Char)
  | '.' :: rest => digits? rest
  | cs => some cs

/-- Reads the exponent of a number, if there is one. -/
def exponent? : List Char → Option (List Char)
  | 'e' :: rest | 'E' :: rest =>
    match rest with
    | '+' :: rest | '-' :: rest => digits? rest
    | rest => digits? rest
  | cs => some cs

/-- Reads a number. -/
def number? (cs : List Char) : Option (List Char) :=
  let cs := match cs with
    | '-' :: rest => rest
    | cs => cs
  (whole? cs).bind fun cs ↦ (fraction? cs).bind exponent?

/-! ## Values -/

/-- Whether a character may stand between the parts of a document. -/
def isBlank (c : Char) : Bool := c = ' ' || c = '\n' || c = '\t' || c = '\r'

/-- Skips blanks. -/
def skip (cs : List Char) : List Char := cs.dropWhile isBlank

mutual

/-- Reads a value. -/
def value? : Nat → List Char → Option (Json × List Char)
  | 0, _ => none
  | n + 1, cs =>
    match skip cs with
    | 'n' :: 'u' :: 'l' :: 'l' :: rest => some (null, rest)
    | 't' :: 'r' :: 'u' :: 'e' :: rest => some (bool true, rest)
    | 'f' :: 'a' :: 'l' :: 's' :: 'e' :: rest => some (bool false, rest)
    | '"' :: rest => (text? rest).map fun r ↦ (text r.1, r.2)
    | '[' :: rest =>
      match skip rest with
      | ']' :: rest => some (array [], rest)
      | rest => (items? n rest).map fun r ↦ (array r.1, r.2)
    | '\x7b' :: rest =>
      match skip rest with
      | '\x7d' :: rest => some (object [], rest)
      | rest => (fields? n rest).map fun r ↦ (object r.1, r.2)
    | cs => (number? cs).map fun rest ↦ (number, rest)

/-- Reads the items of an array, of which there is at least one, and the closing bracket. -/
def items? : Nat → List Char → Option (List Json × List Char)
  | 0, _ => none
  | n + 1, cs =>
    (value? n cs).bind fun (v, rest) ↦
      match skip rest with
      | ',' :: rest => (items? n rest).map fun r ↦ (v :: r.1, r.2)
      | ']' :: rest => some ([v], rest)
      | _ => none

/-- Reads the fields of an object, of which there is at least one, and the closing brace. -/
def fields? : Nat → List Char → Option (List (Option String × Json) × List Char)
  | 0, _ => none
  | n + 1, cs =>
    match skip cs with
    | '"' :: rest =>
      (text? rest).bind fun (key, rest) ↦
        match skip rest with
        | ':' :: rest =>
          (value? n rest).bind fun (v, rest) ↦
            match skip rest with
            | ',' :: rest => (fields? n rest).map fun r ↦ ((key, v) :: r.1, r.2)
            | '\x7d' :: rest => some ([(key, v)], rest)
            | _ => none
        | _ => none
    | _ => none

end

/-- Reads a document: one value, with nothing but blanks around it. -/
def parse? (s : String) : Option Json :=
  match value? (s.length + 1) s.toList with
  | some (v, rest) => if (skip rest).isEmpty then some v else none
  | none => none

/-! ## Looking at values -/

/-- The content of a text. -/
def asText? : Json → Option String
  | text s => s
  | _ => none

/-- The truth value. -/
def asBool? : Json → Option Bool
  | bool b => some b
  | _ => none

/-- The values of a field, in order; nothing if a key of the object is no text. -/
def field (fields : List (Option String × Json)) (key : String) : Option (List Json) :=
  if fields.all fun f ↦ f.1.isSome then
    some ((fields.filter fun f ↦ f.1 = some key).map Prod.snd)
  else none

/-! ## Writing texts -/

/-- Two hexadecimal digits. -/
def hex2 (n : Nat) : List Char := [Nat.digitChar (n / 16), Nat.digitChar (n % 16)]

/-- The written form of a character. -/
def escape (c : Char) : List Char :=
  match c with
  | '"' => ['\\', '"']
  | '\\' => ['\\', '\\']
  | '\x08' => ['\\', 'b']
  | '\x0c' => ['\\', 'f']
  | '\n' => ['\\', 'n']
  | '\r' => ['\\', 'r']
  | '\t' => ['\\', 't']
  | c => if c.toNat < 0x20 then ['\\', 'u', '0', '0'] ++ hex2 c.toNat else [c]

/-- A text as it is written in a document. -/
def quote (s : String) : String := String.ofList ('"' :: s.toList.flatMap escape ++ ['"'])

end Json

end ScopeGraphs
