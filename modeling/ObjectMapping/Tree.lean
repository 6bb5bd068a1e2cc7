import ObjectMapping.Operation

/-!
# Expression trees and values

Expressions are immutable trees whose nodes have an identity, given once when a node is made. Two
nodes that look alike are still different nodes, and a node may stand at many places of a tree:
parameters are bound, looked up and substituted by the node they were made as, never by name.

A node records its static type where its parts do not determine it. Expressions hold values as
constants, and some values hold expressions: an unevaluated lambda, a function closed over its
environment, a mapper. So `Expr` and `Value` are defined together.
-/

namespace ObjectMapping

/-! ## Identities -/

/-- The identity of a node, of a lambda or of an object. -/
abbrev NodeId := Nat

/-- The identity of a mapper, taken from a count of its own. -/
abbrev MapperId := Nat

/-- A parameter of a lambda, known by its identity. -/
structure Param where
  id : NodeId
  name : String
  ty : Ty

/-- One preparation of an expression for evaluation. -/
inductive Stamp where
  /-- prepared for one evaluation -/
  | run (id : NodeId)
  /-- prepared once for all uses of a mapper -/
  | mapper (id : MapperId)
  deriving DecidableEq

/-- A place in the code of a prepared expression, by the path of child positions that leads there,
last step first. -/
structure Site where
  stamp : Stamp
  path : List Nat
  deriving DecidableEq

/-- The place of the child at position `i`. -/
def Site.child (site : Site) (i : Nat) : Site :=
  ⟨site.stamp, i :: site.path⟩

/-- A mapper reference as a value: its identity and declared types. -/
structure MapperReference where
  id : MapperId
  input : Ty
  output : Ty

/-! ## Operators -/

/-- Operators with one operand. -/
inductive UnaryOp where
  | not
  | negate
  deriving DecidableEq

/-- Operators with two operands. -/
inductive BinaryOp where
  | equal
  | notEqual
  | less
  | lessOrEqual
  | greater
  | greaterOrEqual
  | add
  | subtract
  | multiply
  | and
  | or
  deriving DecidableEq

namespace UnaryOp

/-- How the operator is written. -/
def symbol : UnaryOp → String
  | .not => "!"
  | .negate => "-"

/-- The static type of the operator applied to an operand of this type. -/
def resultTy (op : UnaryOp) (operand : Ty) : Ty :=
  match op with
  | .not => .bool
  | .negate => operand

end UnaryOp

namespace BinaryOp

/-- How the operator is written. -/
def symbol : BinaryOp → String
  | .equal => "=="
  | .notEqual => "!="
  | .less => "<"
  | .lessOrEqual => "<="
  | .greater => ">"
  | .greaterOrEqual => ">="
  | .add => "+"
  | .subtract => "-"
  | .multiply => "*"
  | .and => "&&"
  | .or => "||"

/-- Whether the operator yields a truth value whatever its operands are. -/
def isTest : BinaryOp → Bool
  | .add | .subtract | .multiply => false
  | _ => true

/-- The static type of the operator applied to operands of these types. An arithmetic operator with
a text on either side yields a text. -/
def resultTy (op : BinaryOp) (left right : Ty) : Ty :=
  if op.isTest then .bool
  else if left = .string ∨ right = .string then .string
  else left

end BinaryOp

/-! ## Expressions and values -/

mutual

/-- An expression node. -/
inductive Expr where
  | param (p : Param)
  | constant (id : NodeId) (ty : Ty) (value : Value)
  /-- the default value of the type -/
  | default (id : NodeId) (ty : Ty)
  | member (id : NodeId) (object : Expr) (member : Member)
  | unary (id : NodeId) (ty : Ty) (op : UnaryOp) (operand : Expr)
  | binary (id : NodeId) (ty : Ty) (op : BinaryOp) (left right : Expr)
  | conditional (id : NodeId) (ty : Ty) (test ifTrue ifFalse : Expr)
  | call (id : NodeId) (ty : Ty) (operation : Operation) (receiver : Option Expr)
      (arguments : List Expr)
  | lambda (id : NodeId) (fn : Lambda)
  | quote (id : NodeId) (fn : Lambda)
  /-- a construction: constructor arguments, named after the members they set, then assignments -/
  | construct (id : NodeId) (ty : Ty) (arguments assignments : List Assignment)
  /-- stands for the value that the merged member had before -/
  | previous (id : NodeId) (ty : Ty) (fallback : Option Expr)

/-- A function given by its parameters and its body. -/
structure Lambda where
  id : NodeId
  params : List Param
  body : Expr

/-- The value that a construction gives to a member. -/
structure Assignment where
  member : Member
  value : Expr

/-- A value that evaluation yields. -/
inductive Value where
  | null
  | bool (b : Bool)
  | int (i : Int64)
  | float (x : Float)
  | string (s : String)
  /-- a record with named fields in the order they were first set -/
  | object (id : NodeId) (typeName : String) (fields : List Field)
  | sequence (kind : SequenceKind) (items : List Value)
  | function (fn : Function)
  /-- an unevaluated lambda -/
  | expression (fn : Lambda)
  | mapper (m : Mapper)
  | mapperReference (ref : MapperReference)

/-- A named field of an object. -/
structure Field where
  name : String
  value : Value

/-- The value of a parameter. -/
structure Binding where
  param : NodeId
  value : Value

/-- A lambda closed over the environment it was evaluated in, one list of bindings for each call it
is nested in, the innermost first. The site tells which code it runs. -/
structure Function where
  lambda : Lambda
  env : List (List Binding)
  site : Site
  quoted : Bool

/-- A mapper: the expression it was given and the transformed expression that runs. -/
structure Mapper where
  id : MapperId
  input : Ty
  output : Ty
  given : Lambda
  expression : Lambda

end

/-- The bindings in scope, one list for each enclosing call, the innermost first. -/
abbrev Env := List (List Binding)

/-- The value of a parameter in the innermost call that binds it. -/
def Env.lookup (param : NodeId) (env : Env) : Option Value :=
  env.findSome? fun frame => (frame.find? (·.param == param)).map (·.value)

/-! ## Identity and static type -/

namespace Expr

/-- The identity of a node. -/
def id : Expr → NodeId
  | .param p => p.id
  | .constant id .. => id
  | .default id _ => id
  | .member id .. => id
  | .unary id .. => id
  | .binary id .. => id
  | .conditional id .. => id
  | .call id .. => id
  | .lambda id _ => id
  | .quote id _ => id
  | .construct id .. => id
  | .previous id .. => id

/-- Whether two expressions are one and the same node. -/
def same (a b : Expr) : Bool :=
  a.id == b.id

/-- The static type of an expression. -/
def ty : Expr → Ty
  | .param p => p.ty
  | .constant _ ty _ => ty
  | .default _ ty => ty
  | .member _ _ m => m.ty
  | .unary _ ty .. => ty
  | .binary _ ty .. => ty
  | .conditional _ ty .. => ty
  | .call _ ty .. => ty
  | .lambda _ ⟨_, params, body⟩ => .function (params.map (·.ty)) body.ty
  | .quote _ ⟨_, params, body⟩ => .quoted (params.map (·.ty)) body.ty
  | .construct _ ty .. => ty
  | .previous _ ty _ => ty

/-- The parameter that an expression is. -/
def param? : Expr → Option Param
  | .param p => some p
  | _ => none

end Expr

namespace Lambda

/-- Whether two lambdas are one and the same. -/
def same (f g : Lambda) : Bool :=
  f.id == g.id

/-- The types of the parameters. -/
def paramTys (f : Lambda) : List Ty :=
  f.params.map (·.ty)

/-- The type of what the lambda yields. -/
def returnTy (f : Lambda) : Ty :=
  f.body.ty

/-- The type of the lambda as a function. -/
def functionTy (f : Lambda) : Ty :=
  .function f.paramTys f.returnTy

/-- The type of the lambda as a function that is passed on unevaluated. -/
def quotedTy (f : Lambda) : Ty :=
  .quoted f.paramTys f.returnTy

end Lambda

@[simp]
theorem Expr.ty_lambda (id : NodeId) (f : Lambda) : (Expr.lambda id f).ty = f.functionTy := by
  cases f; rfl

@[simp]
theorem Expr.ty_quote (id : NodeId) (f : Lambda) : (Expr.quote id f).ty = f.quotedTy := by
  cases f; rfl

/-! ## Values -/

namespace Value

/-- The name of the kind of a value. -/
def kindName : Value → String
  | .null => "null"
  | .bool _ => "bool"
  | .int _ => "int"
  | .float _ => "float"
  | .string _ => "string"
  | .object .. => "object"
  | .sequence .. => "sequence"
  | .function _ => "function"
  | .expression _ => "expression"
  | .mapper _ => "mapper"
  | .mapperReference _ => "mapper reference"

/-- The default value of a type: zero for a value type, null for any other. -/
def defaultOf : Ty → Value
  | .bool => .bool false
  | .int => .int 0
  | .float => .float 0
  | _ => .null

end Value

namespace Field

/-- The value of the field of that name. -/
def lookup (name : String) : List Field → Option Value
  | [] => none
  | field :: rest => if field.name = name then some field.value else lookup name rest

/-- Sets the field of that name, in its place if there is one, else at the end. -/
def set (name : String) (value : Value) : List Field → List Field
  | [] => [⟨name, value⟩]
  | field :: rest =>
    if field.name = name then ⟨name, value⟩ :: rest else field :: set name value rest

/-- A field that was set has the value it was set to, and no other field changes. -/
theorem lookup_set (name other : String) (value : Value) :
    ∀ fields : List Field, lookup other (set name value fields) =
      if name = other then some value else lookup other fields
  | [] => rfl
  | field :: rest => by
    have ih := lookup_set name other value rest
    by_cases h : field.name = name <;> by_cases h' : name = other <;>
      simp_all [set, lookup]

end Field

/-! ## Constructions -/

namespace Assignment

/-- The assignment to a member. -/
def find? (member : Member) (assignments : List Assignment) : Option Assignment :=
  assignments.find? (·.member.same member)

/-- The first member that is given a value which an earlier assignment gave it already. -/
def repeated? : List Assignment → Option Member :=
  go []
where
  /-- Goes on after the members `seen`. -/
  go (seen : List Member) : List Assignment → Option Member
    | [] => none
    | a :: rest => if seen.any (·.same a.member) then some a.member else go (a.member :: seen) rest

end Assignment

end ObjectMapping
