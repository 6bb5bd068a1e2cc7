import ObjectMapping.RunM
import ObjectMapping.Tree.Printing

/-!
# Making nodes

Every function here makes one new node with an identity of its own and gives it the static type that
its parts call for. `Lambda.ofExprs`, `Expr.mkCall` and `Expr.mkConstruct` check their parts first.
-/

namespace ObjectMapping

open RunM

/-- A new parameter. -/
def Param.make (name : String) (ty : Ty) : RunM Param := do
  return ⟨← fresh, name, ty⟩

namespace Expr

/-! ## Constants -/

/-- A constant of a given type. -/
def mkConstant (value : Value) (ty : Ty) : RunM Expr := do
  return .constant (← fresh) ty value

/-- An integer constant. -/
def mkInt (i : Int64) : RunM Expr :=
  mkConstant (.int i) .int

/-- A text constant. -/
def mkString (s : String) : RunM Expr :=
  mkConstant (.string s) .string

/-- A typed null. -/
def mkNull (ty : Ty) : RunM Expr :=
  mkConstant .null ty

/-- The default value of a type: a typed null unless it is a value type. -/
def mkDefault (ty : Ty) : RunM Expr := do
  if ty.isValueType then return .default (← fresh) ty else mkNull ty

/-- A constant holding a mapper. -/
def mkMapper (m : Mapper) : RunM Expr :=
  mkConstant (.mapper m) (.mapper m.input m.output)

/-- A constant holding a mapper reference. -/
def mkMapperReference (ref : MapperReference) : RunM Expr :=
  mkConstant (.mapperReference ref) (.mapper ref.input ref.output)

/-- A constant holding an unevaluated lambda. -/
def mkExpression (f : Lambda) : RunM Expr :=
  mkConstant (.expression f) f.quotedTy

/-! ## Operators and members -/

/-- Access to a member. -/
def mkMember (object : Expr) (m : Member) : RunM Expr := do
  return .member (← fresh) object m

/-- An operator with one operand. -/
def mkUnary (op : UnaryOp) (operand : Expr) : RunM Expr := do
  return .unary (← fresh) (op.resultTy operand.ty) op operand

/-- An operator with two operands. -/
def mkBinary (op : BinaryOp) (left right : Expr) : RunM Expr := do
  return .binary (← fresh) (op.resultTy left.ty right.ty) op left right

/-- A choice, which has the type of its first branch. -/
def mkConditional (test ifTrue ifFalse : Expr) : RunM Expr := do
  return .conditional (← fresh) ifTrue.ty test ifTrue ifFalse

/-! ## Calls, lambdas and constructions -/

/-- A call. The operation's signature says how many arguments it takes and whether it has a
receiver. -/
def mkCall (operation : Operation) (receiver : Option Expr) (arguments : List Expr) (ty : Ty) :
    RunM Expr := do
  if operation.signature.arity ≠ arguments.length then
    reject (.argumentCount operation.signature arguments.length)
  if operation.signature.hasReceiver ≠ receiver.isSome then
    reject (.receiverPresence operation.signature)
  return .call (← fresh) ty operation receiver arguments

/-- A lambda as an expression. -/
def mkLambda (f : Lambda) : RunM Expr := do
  return .lambda (← fresh) f

/-- A lambda that is passed on unevaluated. -/
def mkQuote (f : Lambda) : RunM Expr := do
  return .quote (← fresh) f

/-- A construction, in which no member may be given a value twice. -/
def mkConstruct (ty : Ty) (arguments assignments : List Assignment) : RunM Expr := do
  if let some m := Assignment.repeated? assignments then
    reject (.assignedTwice m.text)
  if let some m := Assignment.repeated? arguments then
    reject (.givenTwice m.text)
  return .construct (← fresh) ty arguments assignments

/-- A placeholder for the value that the merged member had before. -/
def mkPrevious (ty : Ty) : RunM Expr := do
  return .previous (← fresh) ty none

/-- A placeholder with a value to use when the member had none before. -/
def mkPreviousOr (fallback : Expr) : RunM Expr := do
  return .previous (← fresh) fallback.ty (some fallback)

end Expr

namespace Lambda

/-- The parameters that the expressions are; none of them may be among those `seen` before it. -/
def paramsOf (seen : List Param) : List Expr → RunM (List Param)
  | [] => pure []
  | e :: rest =>
    match e.param? with
    | none => reject (.notParameter e.text)
    | some p => do
      if seen.any (·.id == p.id) then reject (.parameterTwice p.name)
      return p :: (← paramsOf (p :: seen) rest)

/-- A new lambda over pairwise different parameters. -/
def ofExprs (params : List Expr) (body : Expr) : RunM Lambda := do
  let params ← paramsOf [] params
  return ⟨← fresh, params, body⟩

/-- A new lambda with one parameter. -/
def unary (param body : Expr) : RunM Lambda :=
  ofExprs [param] body

/-- The parameters as expressions. -/
def paramExprs (f : Lambda) : List Expr :=
  f.params.map .param

end Lambda

end ObjectMapping
