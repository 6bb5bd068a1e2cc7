import ObjectMapping.Configuration.Yaml.Token

/-!
# Documents in YAML

`Document.ofYaml?` reads a text that holds at most one YAML document: lists and records in block and
in flow notation, and scalars with or without quotes. Directives, anchors, tags, aliases and block
scalars are refused.

A scalar without quotes can be read as a text whatever it looks like, and `true` and `false` also as
truth values. A value that is left out is void.
-/

namespace ObjectMapping.Configuration.Yaml

/-! ## Where a value is left out -/

/-- Whether the field of a block ends before a token. -/
def endsBlockField : Token → Bool
  | .key | .colon | .closeBlock => true
  | _ => false

/-- Whether the item of a block ends before a token. -/
def endsBlockItem : Token → Bool
  | .dash | .closeBlock => true
  | _ => false

/-- Whether the item of a list that has no block of its own ends before a token. -/
def endsBareItem : Token → Bool
  | .dash => true
  | token => endsBlockField token

/-- Whether the value of a field in a flow collection ends before a token. -/
def endsFlowValue (shape : Shape) : Token → Bool
  | .comma => true
  | .closeFlow other => shape = other
  | _ => false

/-- Whether the name of a field in a flow collection ends before a token. -/
def endsFlowName (shape : Shape) : Token → Bool
  | .colon => true
  | token => endsFlowValue shape token

/-- The tokens of a field in a flow list from its name on. If the name is left out, the token that
shows it takes the place of the name, and another that ends a name has to follow. -/
def listField? : List Token → Option (List Token)
  | [] => none
  | token :: rest =>
    if !endsFlowName .list token then some (token :: rest)
    else if rest.head?.any (endsFlowName .list) then some rest
    else none

/-! ## Nodes -/

mutual

/-- The node at the start of the tokens, and the tokens after it. The fuel bounds the steps. -/
def node? : Nat → List Token → Option (Document × List Token)
  | _, .scalar value :: rest => some (value, rest)
  | fuel + 1, .openBlock .list :: rest => do
    let (items, rest) ← blockItems? fuel rest
    return (.list items, rest)
  | fuel + 1, .openBlock .record :: rest => do
    let (fields, rest) ← blockFields? fuel rest
    return (.record fields, rest)
  | fuel + 1, .openFlow .list :: rest => do
    let (items, rest) ← flowItems? fuel rest
    return (.list items, rest)
  | fuel + 1, .openFlow .record :: rest => do
    let (fields, rest) ← flowFields? fuel rest
    return (.record fields, rest)
  | _, _ => none

/-- The node at the start of the tokens, or void if it is left out there. A list in the column of
the names around it has no block of its own. -/
def value? (isEnd : Token → Bool) : Nat → List Token → Option (Document × List Token)
  | 0, _ => none
  | fuel + 1, ts =>
    if ts.head?.any isEnd then some (.void, ts)
    else
      match ts with
      | .dash :: _ => do
        let (items, rest) ← bareItems? fuel ts
        return (.list items, rest)
      | _ => node? fuel ts

/-- A field from its name on. Without a colon it has no value. -/
def field? (endsName endsValue : Token → Bool) :
    Nat → List Token → Option ((Option String × Document) × List Token)
  | 0, _ => none
  | fuel + 1, ts => do
    let (name, rest) ← value? endsName fuel ts
    match rest with
    | .colon :: rest =>
      let (value, rest) ← value? endsValue fuel rest
      return ((name.text?, value), rest)
    | _ => return ((name.text?, .void), rest)

/-- The items up to the end of their block. -/
def blockItems? : Nat → List Token → Option (List Document × List Token)
  | _, .closeBlock :: rest => some ([], rest)
  | fuel + 1, .dash :: rest => do
    let (item, rest) ← value? endsBlockItem fuel rest
    let (items, rest) ← blockItems? fuel rest
    return (item :: items, rest)
  | _, _ => none

/-- The items of a list that has no block of its own. -/
def bareItems? : Nat → List Token → Option (List Document × List Token)
  | 0, _ => none
  | fuel + 1, .dash :: rest => do
    let (item, rest) ← value? endsBareItem fuel rest
    let (items, rest) ← bareItems? fuel rest
    return (item :: items, rest)
  | _, rest => some ([], rest)

/-- The fields up to the end of their block. -/
def blockFields? : Nat → List Token → Option (List (Option String × Document) × List Token)
  | _, .closeBlock :: rest => some ([], rest)
  | fuel + 1, .key :: rest => do
    let (field, rest) ← field? endsBlockField endsBlockField fuel rest
    let (fields, rest) ← blockFields? fuel rest
    return (field :: fields, rest)
  | _, _ => none

/-- The fields up to the closing brace, before which a comma may stand. -/
def flowFields? : Nat → List Token → Option (List (Option String × Document) × List Token)
  | _, .closeFlow .record :: rest => some ([], rest)
  | 0, _ => none
  | fuel + 1, ts => do
    let (field, rest) ← match ts with
      | .key :: rest => field? (endsFlowName .record) (endsFlowValue .record) fuel rest
      | _ => (node? fuel ts).map fun (name, rest) => ((name.text?, .void), rest)
    match rest with
    | .comma :: rest =>
      let (fields, rest) ← flowFields? fuel rest
      return (field :: fields, rest)
    | .closeFlow .record :: rest => return ([field], rest)
    | _ => none

/-- The items up to the closing bracket, before which a comma may stand. A single field is a record
of its own. -/
def flowItems? : Nat → List Token → Option (List Document × List Token)
  | _, .closeFlow .list :: rest => some ([], rest)
  | 0, _ => none
  | fuel + 1, ts => do
    let (item, rest) ← match ts with
      | .key :: rest => do
        let rest ← listField? rest
        let (field, rest) ← field? (endsFlowName .list) (endsFlowValue .list) fuel rest
        pure (.record [field], rest)
      | _ => node? fuel ts
    match rest with
    | .comma :: rest =>
      let (items, rest) ← flowItems? fuel rest
      return (item :: items, rest)
    | .closeFlow .list :: rest => return ([item], rest)
    | _ => none

end

/-! ## Documents -/

/-- The node of the only document and the tokens after it. Without tokens there is no document, and
after its start mark a document may have no node. -/
def root? (ts : List Token) : Option (Document × List Token) :=
  match ts with
  | [] => some (.void, [])
  | [.documentStart] => some (.void, [])
  | .documentStart :: .documentEnd :: rest => some (.void, rest)
  | .documentStart :: rest => node? (4 * rest.length + 4) rest
  | ts => node? (4 * ts.length + 4) ts

/-- The document of tokens, after which nothing but end marks may come. -/
def document? (ts : List Token) : Option Document := do
  let (value, rest) ← root? ts
  if rest.all (· matches .documentEnd) then some value else none

end ObjectMapping.Configuration.Yaml

namespace ObjectMapping.Configuration

/-- The document in a YAML text. -/
def Document.ofYaml? (text : String) : Option Document :=
  (Yaml.tokens? text.toList).bind Yaml.document?

end ObjectMapping.Configuration
