/-!
# Documents

What the text of a configuration holds before it is known what is wanted: scalars, lists, and
records with named fields. A scalar is kept by what it can be read as, since the same characters may
be a truth value in one place and a text in another.
-/

namespace ObjectMapping.Configuration

/-- The notations of configuration texts. -/
inductive Format where
  | json
  | yaml
  deriving DecidableEq

/-- The content of a configuration text. -/
inductive Document where
  /-- nothing at all, where a value might be -/
  | void
  /-- a scalar, by the truth value and by the text that it can be read as -/
  | scalar (flag? : Option Bool) (text? : Option String)
  | list (items : List Document)
  /-- named fields in order; a name may be unreadable -/
  | record (fields : List (Option String × Document))

namespace Document

/-- The document as a truth value. -/
def flag? : Document → Option Bool
  | .scalar flag? _ => flag?
  | _ => none

/-- The document as a text. -/
def text? : Document → Option String
  | .void => some ""
  | .scalar _ text? => text?
  | _ => none

/-- The values of a field that may be given once. Other fields are skipped, but an unreadable name
is no name of any field. -/
def field? (name : String) (fields : List (Option String × Document)) :
    Option (Option Document) :=
  if fields.any (·.1.isNone) then none
  else
    match fields.filter (·.1 == some name) with
    | [] => some none
    | [(_, value)] => some (some value)
    | _ => none

/-- The values of the fields with these names, if the document is a structure that may have them: a
record, nothing at all, or in JSON the list of the values in order, which may break off early. -/
def fields? (format : Format) (names : List String) : Document → Option (List (Option Document))
  | .void => some (names.map fun _ => none)
  | .record fields => names.mapM (field? · fields)
  | .list items =>
    if format = .json ∧ items.length ≤ names.length then
      some (names.zipIdx.map fun (_, i) => items[i]?)
    else none
  | .scalar .. => none

/-- The value that is wanted of an optional field, or the default without it. -/
def readOr {α : Type} (default : α) (read? : Document → Option α) : Option Document → Option α
  | none => some default
  | some value => read? value

end Document

end ObjectMapping.Configuration
