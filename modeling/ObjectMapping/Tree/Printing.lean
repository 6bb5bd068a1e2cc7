import ObjectMapping.Tree
import ObjectMapping.Text.Decimal
import ObjectMapping.Text.Quoted

/-!
# The text of expressions and values

`Expr.text`, `Lambda.text` and `Value.text` write a tree on one line. Names stand for the nodes and
members they name, a mapper or mapper reference is written by its number, and a function by the
lambda it closes over.
-/

namespace ObjectMapping

open Text

/-- The texts with a comma between them. -/
def commaSeparated (texts : List String) : String :=
  ", ".intercalate texts

mutual

/-- The text of an expression. -/
def Expr.text : Expr → String
  | .param p => p.name
  | .constant _ _ v => v.text
  | .default _ ty => "default(" ++ ty.text ++ ")"
  | .member _ object m => object.text ++ "." ++ m.name
  | .unary _ _ op operand => op.symbol ++ operand.text
  | .binary _ _ op left right => "(" ++ left.text ++ " " ++ op.symbol ++ " " ++ right.text ++ ")"
  | .conditional _ _ test ifTrue ifFalse =>
    "(" ++ test.text ++ " ? " ++ ifTrue.text ++ " : " ++ ifFalse.text ++ ")"
  | .call _ _ operation receiver arguments =>
    (Expr.receiverText receiver).getD operation.signature.owner ++ "." ++
      operation.signature.name ++ "(" ++ commaSeparated (Expr.texts arguments) ++ ")"
  | .lambda _ f => f.text
  | .quote _ f => f.text
  | .construct _ ty arguments assignments =>
    "new " ++ ty.text ++
      (if arguments.isEmpty then ""
        else "(" ++ commaSeparated (Assignment.texts ": " arguments) ++ ")") ++
      (if assignments.isEmpty then ""
        else " \x7b " ++ commaSeparated (Assignment.texts " = " assignments) ++ " \x7d")
  | .previous _ ty fallback =>
    match fallback with
    | some e => "OriginalValue(" ++ e.text ++ ")"
    | none => "OriginalValue<" ++ ty.text ++ ">()"

/-- The text of a receiver. -/
def Expr.receiverText : Option Expr → Option String
  | none => none
  | some e => some e.text

/-- The texts of expressions. -/
def Expr.texts : List Expr → List String
  | [] => []
  | e :: rest => e.text :: Expr.texts rest

/-- The text of a lambda. Only a single parameter stands without parentheses. -/
def Lambda.text : Lambda → String
  | ⟨_, params, body⟩ =>
    (match params with
      | [p] => p.name
      | _ => "(" ++ commaSeparated (params.map (·.name)) ++ ")") ++ " => " ++ body.text

/-- The texts of assignments, with `mark` between a member and its value. -/
def Assignment.texts (mark : String) : List Assignment → List String
  | [] => []
  | ⟨member, value⟩ :: rest =>
    (member.name ++ mark ++ value.text) :: Assignment.texts mark rest

/-- The text of a value. -/
def Value.text : Value → String
  | .null => "null"
  | .bool b => if b then "true" else "false"
  | .int i => integer i.toInt
  | .float x => decimal x
  | .string s => quoted s
  | .object _ typeName fields =>
    typeName ++ " \x7b" ++ (if fields.isEmpty then "" else " ") ++
      commaSeparated (Field.texts fields) ++ " \x7d"
  | .sequence _ items => "[" ++ commaSeparated (Value.texts items) ++ "]"
  | .function ⟨f, _, _, _⟩ => "<fn " ++ f.text ++ ">"
  | .expression f => f.text
  | .mapper ⟨id, _, _, _, _⟩ => "<mapper #" ++ integer id ++ ">"
  | .mapperReference ref => "<mapper #" ++ integer ref.id ++ ">"

/-- The texts of values. -/
def Value.texts : List Value → List String
  | [] => []
  | v :: rest => v.text :: Value.texts rest

/-- The texts of fields. -/
def Field.texts : List Field → List String
  | [] => []
  | ⟨name, value⟩ :: rest => (name ++ ": " ++ value.text) :: Field.texts rest

end

end ObjectMapping
