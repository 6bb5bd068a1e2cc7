import ObjectMapping.Configuration.Document
import ObjectMapping.Text.Hexadecimal

/-!
# Documents in JSON

`Document.ofJson?` reads a text that holds one JSON value and nothing else. The grammar is strict:
no comments, no trailing commas, no leading zeros, and no raw control characters in strings. A
string whose escapes leave half of a surrogate pair alone belongs to the grammar, but has no text.
-/

namespace ObjectMapping.Configuration.Json

open Text (hexNumber? hexPadded)

/-! ## Strings -/

/-- Whether a character may stand between the tokens. -/
def isBlank (c : Char) : Bool :=
  c == ' ' || c == '\t' || c == '\n' || c == '\r'

/-- The text without leading blanks. -/
def skipBlanks (cs : List Char) : List Char :=
  cs.dropWhile isBlank

/-- The character that a short escape stands for. -/
def shortEscape? : Char → Option Char
  | '"' => some '"'
  | '\\' => some '\\'
  | '/' => some '/'
  | 'b' => some '\x08'
  | 'f' => some '\x0c'
  | 'n' => some '\n'
  | 'r' => some '\r'
  | 't' => some '\t'
  | _ => none

/-- The code points up to the closing quote, and what comes after it. Halves of surrogate pairs are
listed one by one. -/
def stringBody? : List Char → Option (List Nat × List Char)
  | [] => none
  | '"' :: rest => some ([], rest)
  | '\\' :: 'u' :: a :: b :: c :: d :: rest => do
    let n ← hexNumber? [a, b, c, d]
    let (ns, rest) ← stringBody? rest
    return (n :: ns, rest)
  | '\\' :: c :: rest => do
    let escaped ← shortEscape? c
    let (ns, rest) ← stringBody? rest
    return (escaped.toNat :: ns, rest)
  | c :: rest =>
    if c.toNat < 0x20 then none
    else do
      let (ns, rest) ← stringBody? rest
      return (c.toNat :: ns, rest)

/-- Whether a code point is the first half of a surrogate pair. -/
def isHighSurrogate (n : Nat) : Bool :=
  0xD800 ≤ n && n < 0xDC00

/-- Whether a code point is the second half of a surrogate pair. -/
def isLowSurrogate (n : Nat) : Bool :=
  0xDC00 ≤ n && n < 0xE000

/-- The characters of code points, in which surrogates must come in pairs. -/
def chars? : List Nat → Option (List Char)
  | [] => some []
  | [n] => if isHighSurrogate n || isLowSurrogate n then none else some [Char.ofNat n]
  | n :: n' :: rest =>
    if isHighSurrogate n && isLowSurrogate n' then
      (chars? rest).map (Char.ofNat (0x10000 + (n - 0xD800) * 0x400 + (n' - 0xDC00)) :: ·)
    else if isHighSurrogate n || isLowSurrogate n then none
    else (chars? (n' :: rest)).map (Char.ofNat n :: ·)

/-- The text of code points. -/
def text? (ns : List Nat) : Option String :=
  (chars? ns).map String.ofList

/-! ## Numbers -/

/-- One digit or more, and what comes after them. -/
def digits? (cs : List Char) : Option (List Char × List Char) :=
  match cs.span Char.isDigit with
  | ([], _) => none
  | (ds, rest) => some (ds, rest)

/-- The integral part of a number: a zero stands alone. -/
def integral? : List Char → Option (List Char × List Char)
  | '0' :: rest => if (rest.head?.map Char.isDigit).getD false then none else some (['0'], rest)
  | cs => digits? cs

/-- The fraction of a number, which may be absent. -/
def fraction? : List Char → Option (List Char × List Char)
  | '.' :: rest => (digits? rest).map fun (ds, rest) => ('.' :: ds, rest)
  | cs => some ([], cs)

/-- The exponent of a number, which may be absent. -/
def exponent? : List Char → Option (List Char × List Char)
  | c :: sign :: rest =>
    if c = 'e' ∨ c = 'E' then
      if sign = '+' ∨ sign = '-' then
        (digits? rest).map fun (ds, rest) => (c :: sign :: ds, rest)
      else
        (digits? (sign :: rest)).map fun (ds, rest) => (c :: ds, rest)
    else some ([], c :: sign :: rest)
  | ['e'] | ['E'] => none
  | cs => some ([], cs)

/-- A number and what comes after it. -/
def number? (cs : List Char) : Option (List Char × List Char) := do
  let (sign, cs) := match cs with
    | '-' :: rest => (['-'], rest)
    | cs => ([], cs)
  let (whole, cs) ← integral? cs
  let (fraction, cs) ← fraction? cs
  let (exponent, cs) ← exponent? cs
  return (sign ++ whole ++ fraction ++ exponent, cs)

/-! ## Values -/

/-- The first of the words that a text starts with, and what comes after it. -/
def word? (cs : List Char) : Option (String × List Char) :=
  ["null", "true", "false"].findSome? fun w =>
    if w.toList.isPrefixOf cs then some (w, cs.drop w.length) else none

/-- What a word or number without quotes is: at most a truth value. -/
def bareWord (w : String) : Document :=
  match w with
  | "true" => .scalar (some true) none
  | "false" => .scalar (some false) none
  | _ => .scalar none none

mutual

/-- A value at the start of a text, and what comes after it. The fuel bounds the number of
tokens. -/
def value? : Nat → List Char → Option (Document × List Char)
  | 0, _ => none
  | fuel + 1, cs =>
    match skipBlanks cs with
    | '"' :: rest => do
      let (ns, rest) ← stringBody? rest
      return (.scalar none (text? ns), rest)
    | '[' :: rest =>
      match skipBlanks rest with
      | ']' :: rest => some (.list [], rest)
      | rest => do
        let (items, rest) ← items? fuel rest
        return (.list items, rest)
    | '\x7b' :: rest =>
      match skipBlanks rest with
      | '\x7d' :: rest => some (.record [], rest)
      | rest => do
        let (fields, rest) ← fields? fuel rest
        return (.record fields, rest)
    | cs =>
      match word? cs with
      | some (w, rest) => some (bareWord w, rest)
      | none => do
        let (digits, rest) ← number? cs
        return (bareWord (String.ofList digits), rest)

/-- The items up to the closing bracket, of which there is one at least. -/
def items? : Nat → List Char → Option (List Document × List Char)
  | 0, _ => none
  | fuel + 1, cs => do
    let (item, rest) ← value? fuel cs
    match skipBlanks rest with
    | ',' :: rest =>
      let (items, rest) ← items? fuel rest
      return (item :: items, rest)
    | ']' :: rest => return ([item], rest)
    | _ => none

/-- The fields up to the closing brace, of which there is one at least. -/
def fields? : Nat → List Char → Option (List (Option String × Document) × List Char)
  | 0, _ => none
  | fuel + 1, cs =>
    match skipBlanks cs with
    | '"' :: rest => do
      let (name, rest) ← stringBody? rest
      match skipBlanks rest with
      | ':' :: rest =>
        let (value, rest) ← value? fuel rest
        match skipBlanks rest with
        | ',' :: rest =>
          let (fields, rest) ← fields? fuel rest
          return ((text? name, value) :: fields, rest)
        | '\x7d' :: rest => return ([(text? name, value)], rest)
        | _ => none
      | _ => none
    | _ => none

end

/-- The value that makes up a whole text. -/
def document? (cs : List Char) : Option Document := do
  let (value, rest) ← value? (cs.length + 1) cs
  if (skipBlanks rest).isEmpty then some value else none

/-! ## Writing -/

/-- What stands for a character inside quotes. -/
def escapedChar (c : Char) : List Char :=
  if c = '"' then ['\\', '"']
  else if c = '\\' then ['\\', '\\']
  else if c = '\x08' then ['\\', 'b']
  else if c = '\x0c' then ['\\', 'f']
  else if c = '\n' then ['\\', 'n']
  else if c = '\r' then ['\\', 'r']
  else if c = '\t' then ['\\', 't']
  else if c.toNat < 0x20 then
    ['\\', 'u'] ++ hexPadded 4 c.toNat
  else [c]

/-- A text as a JSON string. -/
def string (s : String) : String :=
  String.ofList ('"' :: s.toList.flatMap escapedChar ++ ['"'])

end ObjectMapping.Configuration.Json

namespace ObjectMapping.Configuration

/-- The document in a JSON text. -/
def Document.ofJson? (text : String) : Option Document :=
  Json.document? text.toList

end ObjectMapping.Configuration
