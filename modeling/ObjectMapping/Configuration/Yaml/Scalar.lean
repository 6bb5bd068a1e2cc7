import ObjectMapping.Configuration.Document
import ObjectMapping.Text.Hexadecimal

/-!
# Scalars in YAML

A scalar is written without quotes, between single quotes or between double quotes, and may go on
over several lines in each of these forms. Between two of its words, blanks on one line stand for
themselves. A single line break reads as a space, and of several line breaks all but the first are
kept; the blanks around them are dropped.

The readers here are given the text from the first character of a scalar on and also return how many
characters it takes up, with the gap that may end it. Every line break but the two Unicode
separators is taken to be a newline: `unifyBreaks` makes it so.
-/

namespace ObjectMapping.Configuration.Yaml

open Text (hexNumber?)

/-! ## Characters -/

/-- Whether a character may stand in a text, be it in a comment: no control characters besides tabs
and line breaks, and no noncharacters of the first plane. -/
def isAllowed (c : Char) : Bool :=
  c == '\t' || c == '\n' || c == '\r' || c == '\u0085' || (0x20 ≤ c.toNat && c.toNat ≤ 0x7E) ||
    (0xA0 ≤ c.toNat && c.toNat ≤ 0xFFFD) || 0x10000 ≤ c.toNat

/-- Whether a character separates words on a line. -/
def isBlank (c : Char) : Bool :=
  c == ' ' || c == '\t'

/-- Whether a character ends a line. -/
def isBreak (c : Char) : Bool :=
  c == '\n' || c == '\u2028' || c == '\u2029'

/-- The text with a newline for every other line break, the Unicode separators excepted. -/
def unifyBreaks : List Char → List Char
  | [] => []
  | '\r' :: '\n' :: rest => '\n' :: unifyBreaks rest
  | c :: rest => (if c == '\r' || c == '\u0085' then '\n' else c) :: unifyBreaks rest

/-- Whether a word has ended where the text goes on like this. -/
def endsWord : List Char → Bool
  | [] => true
  | c :: _ => isBlank c || isBreak c

/-- Whether a line that goes on like this is the start or the end mark of a document. -/
def isDocumentMark : List Char → Bool
  | '-' :: '-' :: '-' :: rest => endsWord rest
  | '.' :: '.' :: '.' :: rest => endsWord rest
  | _ => false

/-- Whether a character opens, separates or closes the items of a flow collection. -/
def isFlowMark (c : Char) : Bool :=
  c ∈ [',', '[', ']', '\x7b', '\x7d']

/-! ## Between the words -/

/-- What has been read since the last word of a scalar, the latest first: blanks on its line, or the
line breaks, of which the first may be left out, and the column reached after the last of them. -/
inductive Gap where
  | blanks (cs : List Char)
  | breaks (first : Option Char) (more : List Char) (column : Nat)

namespace Gap

/-- Nothing between two characters. -/
def empty : Gap :=
  .blanks []

/-- The gap with one more blank. -/
def addBlank (c : Char) : Gap → Gap
  | .blanks cs => .blanks (c :: cs)
  | .breaks first more column => .breaks first more (column + 1)

/-- The gap with one more line break, before which blanks are lost. -/
def addBreak (c : Char) : Gap → Gap
  | .blanks _ => .breaks (some c) [] 0
  | .breaks first more _ => .breaks first (c :: more) 0

/-- The part of the scalar that the gap is. -/
def text : Gap → List Char
  | .blanks cs => cs.reverse
  | .breaks (some '\n') [] _ => [' ']
  | .breaks (some '\n') more _ => more.reverse
  | .breaks first more _ => first.toList ++ more.reverse

/-- Whether nothing has been read. -/
def isEmpty : Gap → Bool
  | .blanks cs => cs.isEmpty
  | .breaks .. => false

/-- The column at which a new line goes on. -/
def column? : Gap → Option Nat
  | .blanks _ => none
  | .breaks _ _ column => some column

end Gap

/-- A scalar that starts with `cs`, written in `n` characters, given how it goes on. -/
def prepend (cs : List Char) (n : Nat) : Option (List Char × Nat) → Option (List Char × Nat) :=
  Option.map fun (more, length) => (cs ++ more, length + n)

/-! ## Quoted scalars -/

/-- The character that a short escape in double quotes stands for. -/
def shortEscape? : Char → Option Char
  | '0' => some '\x00'
  | 'a' => some '\x07'
  | 'b' => some '\x08'
  | 't' | '\t' => some '\t'
  | 'n' => some '\n'
  | 'v' => some '\x0b'
  | 'f' => some '\x0c'
  | 'r' => some '\r'
  | 'e' => some '\x1b'
  | ' ' => some ' '
  | '"' => some '"'
  | '/' => some '/'
  | '\\' => some '\\'
  | 'N' => some '\u0085'
  | '_' => some '\u00a0'
  | 'L' => some '\u2028'
  | 'P' => some '\u2029'
  | _ => none

/-- The character of a numeric escape, which is no half of a surrogate pair. -/
def escapedChar? (digits : List Char) : Option Char := do
  let n ← hexNumber? digits
  if n.isValidChar then some (Char.ofNat n) else none

/-- The scalar up to the closing double quote, after a gap. -/
def doubleQuoted? : Gap → List Char → Option (List Char × Nat)
  | _, [] => none
  | gap, '"' :: _ => some (gap.text, 1)
  | gap, '\\' :: 'x' :: a :: b :: rest => do
    prepend (gap.text ++ [← escapedChar? [a, b]]) 4 (doubleQuoted? .empty rest)
  | gap, '\\' :: 'u' :: a :: b :: c :: d :: rest => do
    prepend (gap.text ++ [← escapedChar? [a, b, c, d]]) 6 (doubleQuoted? .empty rest)
  | gap, '\\' :: 'U' :: a :: b :: c :: d :: e :: f :: g :: h :: rest => do
    prepend (gap.text ++ [← escapedChar? [a, b, c, d, e, f, g, h]]) 10 (doubleQuoted? .empty rest)
  | gap, '\\' :: c :: rest =>
    if isBreak c then prepend gap.text 2 (doubleQuoted? (.breaks none [] 0) rest)
    else do prepend (gap.text ++ [← shortEscape? c]) 2 (doubleQuoted? .empty rest)
  | gap, c :: rest =>
    if isBlank c then prepend [] 1 (doubleQuoted? (gap.addBlank c) rest)
    else if isBreak c then prepend [] 1 (doubleQuoted? (gap.addBreak c) rest)
    else if gap.column? == some 0 && isDocumentMark (c :: rest) then none
    else prepend (gap.text ++ [c]) 1 (doubleQuoted? .empty rest)

/-- The scalar up to the closing single quote, which is written twice inside, after a gap. -/
def singleQuoted? : Gap → List Char → Option (List Char × Nat)
  | _, [] => none
  | gap, '\'' :: '\'' :: rest => prepend (gap.text ++ ['\'']) 2 (singleQuoted? .empty rest)
  | gap, '\'' :: _ => some (gap.text, 1)
  | gap, c :: rest =>
    if isBlank c then prepend [] 1 (singleQuoted? (gap.addBlank c) rest)
    else if isBreak c then prepend [] 1 (singleQuoted? (gap.addBreak c) rest)
    else if gap.column? == some 0 && isDocumentMark (c :: rest) then none
    else prepend (gap.text ++ [c]) 1 (singleQuoted? .empty rest)

/-! ## Scalars without quotes -/

/-- Whether a scalar without quotes may start like this. -/
def startsPlain (flow : Bool) : List Char → Bool
  | [] => false
  | c :: rest =>
    if c == '-' then !endsWord rest
    else if c == '?' || c == ':' then !flow && !endsWord rest
    else !(isBlank c || isBreak c || isFlowMark c || "#&*!|>'\"%@`".toList.contains c)

/-- Whether a scalar without quotes has ended before the gap, if the text goes on like this: at a
line that is indented too little or marks a document, at a comment, at the colon that ends a name,
and in a flow collection at its marks. -/
def endsPlain (flow : Bool) (indent : Nat) (gap : Gap) : List Char → Bool
  | [] => true
  | c :: rest =>
    gap.column?.any (fun column =>
        (!flow && column < indent) || (column == 0 && isDocumentMark (c :: rest))) ||
      (!gap.isEmpty && c == '#') || (c == ':' && endsWord rest) || (flow && isFlowMark c)

/-- A scalar without quotes after a gap, and the gap that it ends with. Its lines are indented at
least by `indent` outside flow collections, and never by tabs up to there. In a flow collection a
colon must not touch a mark. -/
def plainText? (flow : Bool) (indent : Nat) : Gap → List Char → Option (List Char × Gap × Nat)
  | gap, [] => some ([], gap, 0)
  | gap, c :: rest =>
    if isBlank c then
      if c == '\t' && gap.column?.any (· < indent) then none
      else do
        let (text, last, length) ← plainText? flow indent (gap.addBlank c) rest
        return (text, last, length + 1)
    else if isBreak c then do
      let (text, last, length) ← plainText? flow indent (gap.addBreak c) rest
      return (text, last, length + 1)
    else if endsPlain flow indent gap (c :: rest) then some ([], gap, 0)
    else if flow && c == ':' && rest.head?.any (fun c => c == '?' || isFlowMark c) then none
    else do
      let (text, last, length) ← plainText? flow indent .empty rest
      return (gap.text ++ c :: text, last, length + 1)

/-- What a scalar without quotes is. -/
def plain (w : String) : Document :=
  if w ∈ ["true", "True", "TRUE"] then .scalar (some true) (some w)
  else if w ∈ ["false", "False", "FALSE"] then .scalar (some false) (some w)
  else .scalar none (some w)

/-- What a quoted scalar is: a text, whatever it looks like. -/
def quoted (w : String) : Document :=
  .scalar none (some w)

end ObjectMapping.Configuration.Yaml
