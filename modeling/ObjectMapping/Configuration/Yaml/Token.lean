import ObjectMapping.Configuration.Yaml.Scalar

/-!
# Tokens of YAML

`tokens?` splits a YAML text into tokens, in which the nesting that the text shows by indentation is
marked at both ends.

That a node names a field is known only at the colon after it. So the place of a node that may be a
name is kept as a candidate, and the tokens that come before a name are put in at that place once
the colon is met. A name is written on one line and has at most 1024 bytes. Outside flow collections
a node in the column of the innermost open block can be nothing but a name or an item.

Between tokens a line, the first as well, may start with a byte order mark, which takes up a column.
-/

namespace ObjectMapping.Configuration.Yaml

/-- What a collection is. -/
inductive Shape where
  | list
  | record
  deriving DecidableEq

/-- A token. -/
inductive Token where
  | documentStart
  | documentEnd
  /-- the start of a collection that indentation shows -/
  | openBlock (shape : Shape)
  | closeBlock
  /-- an opening bracket or brace -/
  | openFlow (shape : Shape)
  | closeFlow (shape : Shape)
  | comma
  /-- before an item of a list -/
  | dash
  /-- before the name of a field -/
  | key
  /-- before the value of a field -/
  | colon
  | scalar (value : Document)

/-- A place in a text: its offset in bytes, and its line and its column there. -/
structure Mark where
  offset : Nat := 0
  line : Nat := 0
  column : Nat := 0

namespace Mark

/-- The place after a character. -/
def next (mark : Mark) (c : Char) : Mark :=
  if isBreak c then ⟨mark.offset + c.utf8Size, mark.line + 1, 0⟩
  else ⟨mark.offset + c.utf8Size, mark.line, mark.column + 1⟩

end Mark

/-- A node that is a name if a colon follows. -/
structure KeyCandidate where
  mark : Mark
  /-- how many tokens come before it -/
  position : Nat
  /-- whether it can be nothing else -/
  required : Bool

namespace KeyCandidate

/-- Whether it is too late for the colon. -/
def isStale (candidate : KeyCandidate) (mark : Mark) : Bool :=
  candidate.mark.line < mark.line || candidate.mark.offset + 1024 < mark.offset

/-- The candidate that is left at a place, unless one is lost that had to be a name. -/
def refresh? (mark : Mark) : Option KeyCandidate → Option (Option KeyCandidate)
  | none => some none
  | some candidate =>
    if !candidate.isStale mark then some (some candidate)
    else if candidate.required then none
    else some none

end KeyCandidate

/-! ## Reading -/

/-- A text that has been read in part. -/
structure Reader where
  rest : List Char
  mark : Mark := {}
  /-- the columns of the open blocks, the innermost first -/
  columns : List Nat := []
  /-- whether a name, or an item outside flow collections, may start here -/
  keyAllowed : Bool := true
  /-- the last node of the innermost collection, if it may be a name -/
  candidate : Option KeyCandidate := none
  /-- the candidates around the open flow collections, the innermost first -/
  outer : List (Option KeyCandidate) := []
  /-- the tokens so far, the latest first -/
  tokens : List Token := []

/-- The parts of the lines between tokens. -/
inductive GapPart where
  | lineStart
  | blanks
  | comment

/-- What follows a character between tokens, and whether a name may start there. A new line allows
that outside flow collections. There tabs do not count as blanks where a name may start. -/
def GapPart.after? (flow keyAllowed : Bool) (part : GapPart) (c : Char) :
    Option (GapPart × Bool) :=
  if isBreak c then some (.lineStart, keyAllowed || !flow)
  else if part matches .comment then some (.comment, keyAllowed)
  else if part matches .lineStart && c == '\ufeff' then some (.blanks, keyAllowed)
  else if c == ' ' || (c == '\t' && (flow || !keyAllowed)) then some (.blanks, keyAllowed)
  else if c == '#' then some (.comment, keyAllowed)
  else none

/-- How many characters come before the next token, and whether a name may start there. -/
def skipGap (flow : Bool) : GapPart → (keyAllowed : Bool) → List Char → Nat × Bool
  | _, keyAllowed, [] => (0, keyAllowed)
  | part, keyAllowed, c :: rest =>
    match part.after? flow keyAllowed c with
    | some (part, keyAllowed) =>
      let (length, keyAllowed) := skipGap flow part keyAllowed rest
      (length + 1, keyAllowed)
    | none => (0, keyAllowed)

namespace Reader

/-- Whether a flow collection is open. -/
def inFlow (r : Reader) : Bool :=
  !r.outer.isEmpty

/-- The reader after the next `n` characters. -/
def advance (r : Reader) (n : Nat) : Reader :=
  { r with rest := r.rest.drop n, mark := (r.rest.take n).foldl Mark.next r.mark }

/-- The reader after one more token. -/
def emit (r : Reader) (token : Token) : Reader :=
  { r with tokens := token :: r.tokens }

/-- The reader with tokens put in after the first `position` ones. -/
def insert (r : Reader) (position : Nat) (tokens : List Token) : Reader :=
  let later := r.tokens.length - position
  { r with tokens := r.tokens.take later ++ tokens.reverse ++ r.tokens.drop later }

/-- Closes the open blocks down to the first that stays. -/
def closeBlocks (r : Reader) (closes : Nat → Bool) : Reader :=
  let closed := r.columns.takeWhile closes
  { r with
    columns := r.columns.dropWhile closes
    tokens := closed.map (fun _ => .closeBlock) ++ r.tokens }

/-- Opens a block at a column with the next token to come after the first `position` ones, unless
a block is open there or further in. -/
def openBlock (r : Reader) (column : Nat) (shape : Shape) (position : Nat) : Reader :=
  if r.inFlow || r.columns.head?.any (column ≤ ·) then r
  else { r.insert position [.openBlock shape] with columns := column :: r.columns }

/-- Gives up the candidate, unless it has to be a name. -/
def dropCandidate? (r : Reader) : Option Reader :=
  if r.candidate.any (·.required) then none else some { r with candidate := none }

/-- Keeps the node that starts here as a candidate, if a name may start here. -/
def saveCandidate? (r : Reader) : Option Reader :=
  if r.keyAllowed then do
    let r ← r.dropCandidate?
    let required := !r.inFlow && r.columns.head? == some r.mark.column
    return { r with candidate := some ⟨r.mark, r.tokens.length, required⟩ }
  else some r

/-- The reader at the next token, with blocks closed that the token is not indented for. -/
def toToken? (r : Reader) : Option Reader := do
  let part := if r.mark.column == 0 then .lineStart else .blanks
  let (length, keyAllowed) := skipGap r.inFlow part r.keyAllowed r.rest
  let r := { r.advance length with keyAllowed }
  let candidate ← KeyCandidate.refresh? r.mark r.candidate
  let outer ← r.outer.mapM (KeyCandidate.refresh? r.mark)
  let r := { r with candidate, outer }
  return if r.inFlow then r else r.closeBlocks (r.mark.column < ·)

/-! ## The kinds of tokens -/

/-- Reads the mark of a document, which closes all blocks. -/
def documentMark? (r : Reader) (token : Token) : Option Reader := do
  let r ← (r.closeBlocks fun _ => true).dropCandidate?
  return { (r.emit token).advance 3 with keyAllowed := false }

/-- Reads an opening bracket or brace. -/
def openFlow? (r : Reader) (shape : Shape) : Option Reader := do
  let r ← r.saveCandidate?
  return { (r.emit (.openFlow shape)).advance 1 with
    candidate := none
    outer := r.candidate :: r.outer
    keyAllowed := true }

/-- Reads a closing bracket or brace. Whether there is one to close is seen when nodes are read. -/
def closeFlow? (r : Reader) (shape : Shape) : Option Reader := do
  let r ← r.dropCandidate?
  return { (r.emit (.closeFlow shape)).advance 1 with
    candidate := r.outer.head?.join
    outer := r.outer.tail
    keyAllowed := false }

/-- Reads a comma. Whether it separates anything is seen when nodes are read. -/
def comma? (r : Reader) : Option Reader := do
  let r ← r.dropCandidate?
  return { (r.emit .comma).advance 1 with keyAllowed := true }

/-- Reads the dash before an item, which stands outside flow collections alone. -/
def dash? (r : Reader) : Option Reader := do
  if r.inFlow || !r.keyAllowed then none
  else
    let r ← (r.openBlock r.mark.column .list r.tokens.length).dropCandidate?
    return { (r.emit .dash).advance 1 with keyAllowed := true }

/-- Reads the question mark before a name that need not be on one line. In a flow collection the
name may follow it at once. -/
def questionMark? (r : Reader) : Option Reader := do
  if !r.inFlow && !r.keyAllowed then none
  else
    let r ← (r.openBlock r.mark.column .record r.tokens.length).dropCandidate?
    return { (r.emit .key).advance 1 with keyAllowed := !r.inFlow }

/-- Reads a colon, which makes a name of the candidate. Without one, the name came after a question
mark, or is missing. -/
def colon? (r : Reader) : Option Reader :=
  match r.candidate with
  | some ⟨mark, position, _⟩ =>
    let r := (r.insert position [.key]).openBlock mark.column .record position
    some { (r.emit .colon).advance 1 with candidate := none, keyAllowed := false }
  | none =>
    if !r.inFlow && !r.keyAllowed then none
    else
      let r := r.openBlock r.mark.column .record r.tokens.length
      some { (r.emit .colon).advance 1 with keyAllowed := !r.inFlow }

/-- Reads a scalar in quotes, given how it goes on after the opening one. -/
def quoted? (r : Reader) (body : Option (List Char × Nat)) : Option Reader := do
  let r ← r.saveCandidate?
  let (text, length) ← body
  let value := quoted (String.ofList text)
  return { (r.emit (.scalar value)).advance (length + 1) with keyAllowed := false }

/-- Reads a scalar without quotes. It may end on a later line, where a name may start. -/
def plain? (r : Reader) : Option Reader := do
  let indent := (r.columns.head?.map (· + 1)).getD 0
  let r ← r.saveCandidate?
  let (text, last, length) ← plainText? r.inFlow indent .empty r.rest
  let value := plain (String.ofList text)
  return { (r.emit (.scalar value)).advance length with keyAllowed := last.column?.isSome }

/-- Reads a token. Directives, anchors, tags, aliases and block scalars are refused. -/
def token? (r : Reader) : Option Reader :=
  if r.mark.column == 0 && isDocumentMark r.rest then
    r.documentMark? (if r.rest.head? == some '-' then .documentStart else .documentEnd)
  else
    match r.rest with
    | '[' :: _ => r.openFlow? .list
    | '\x7b' :: _ => r.openFlow? .record
    | ']' :: _ => r.closeFlow? .list
    | '\x7d' :: _ => r.closeFlow? .record
    | ',' :: _ => r.comma?
    | '"' :: rest => r.quoted? (doubleQuoted? .empty rest)
    | '\'' :: rest => r.quoted? (singleQuoted? .empty rest)
    | c :: rest =>
      if c == '-' && endsWord rest then r.dash?
      else if c == '?' && (r.inFlow || endsWord rest) then r.questionMark?
      else if c == ':' && (r.inFlow || endsWord rest) then r.colon?
      else if startsPlain r.inFlow (c :: rest) then r.plain?
      else none
    | [] => none

/-- Reads the remaining tokens. The fuel bounds their number. -/
def run? : Nat → Reader → Option Reader
  | 0, _ => none
  | fuel + 1, r => do
    let r ← r.toToken?
    if r.rest.isEmpty then
      if r.inFlow then none else (r.closeBlocks fun _ => true).dropCandidate?
    else (← r.token?).run? fuel

end Reader

/-- The tokens of a text. -/
def tokens? (cs : List Char) : Option (List Token) :=
  if cs.all isAllowed then do
    let cs := unifyBreaks cs
    let r ← ({ rest := cs } : Reader).run? (cs.length + 1)
    return r.tokens.reverse
  else none

end ObjectMapping.Configuration.Yaml
