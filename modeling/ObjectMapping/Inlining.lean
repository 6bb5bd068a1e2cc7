import ObjectMapping.BuildContext
import ObjectMapping.Evaluation
import ObjectMapping.Merge
import ObjectMapping.Text.Hexadecimal
import ObjectMapping.Tree.Calls

/-!
# Inlining mappers

The body of a mapper takes the place of a call site: `Lambda.inline` puts the source of the call in
place of the single parameter, `Expr.inlineOver` adds the guard that maps the default input to the
default output, and `Expr.inlineOverItems` makes a projection over a new parameter.

The mapper of a call site is found by evaluating its operand. A mapper is not inlined into itself.
-/

namespace ObjectMapping

open RunM

/-- Refuses the mapper under construction. -/
def BuildContext.refuseCurrent (cx : BuildContext) (id : MapperId) : RunM Unit := do
  if cx.isBuilding id then fail .selfInclusion

namespace Expr

/-- The mapping expression that an operand holds: a mapper, a filled reference, an unevaluated
lambda or a function. -/
def heldLambda (host : Host) (operand : Expr) (cx : BuildContext) : RunM Lambda := do
  match ← operand.evaluate host with
  | .mapper m => do
    cx.refuseCurrent m.id
    return m.expression
  | .mapperReference ref => do
    cx.refuseCurrent ref.id
    match host.filled ref.id with
    | some m => return m.expression
    | none => fail .absentMapper
  | .expression f => return f
  | .function f => return f.lambda
  | .null => fail .absentMapper
  | v => fail (.wrongKind operand.text "mapper" v.kindName)

end Expr

/-- The body of a lambda over a source in place of its single parameter. If the source mentions the
parameter, the lambda is given a new one first. -/
def Lambda.inline (f : Lambda) (source : Expr) : RunM Expr := do
  match f.params with
  | [p] => do
    if p.ty ≠ source.ty then
      reject (.inlinedType f.text p.ty source.text source.ty)
    if p.id = source.id then
      return f.body
    if (Expr.param p).occursIn source then
      let other ← Param.make p.name p.ty
      let renamed ← f.substitute [⟨.param p, .param other⟩]
      renamed.body.substitute [⟨.param other, source⟩]
    else
      f.body.substitute [⟨.param p, source⟩]
  | params => reject (.inlinedParameterCount f.text params.length)

namespace Expr

/-- A mapped source that yields the default value for the default source. -/
def guarding (source body : Expr) : RunM Expr := do
  let result ← mkDefault body.ty
  let test ← mkBinary .equal source (← mkDefault source.ty)
  mkConditional test result body

/-- A mapper inlined over an object, guarded if so wanted. -/
def inlineOver (host : Host) (source operand : Expr) (guarded : Bool) (cx : BuildContext) :
    RunM Expr := do
  let f ← operand.heldLambda host cx
  let body ← f.inline source
  if guarded then guarding source body else return body

/-- The part of the name of a projection parameter that no other one has: thirty-two hexadecimal
digits. -/
def uniqueName (n : Nat) : String :=
  String.ofList (Text.hexPadded 32 n)

/-- A mapper inlined over the items of a sequence, as a projection. -/
def inlineOverItems (host : Host) (source operand : Expr) (parameterStem : String)
    (cx : BuildContext) : RunM Expr := do
  match source.ty.itemTy? with
  | none => fail (.notProjectable source.ty)
  | some element => do
    let f ← operand.heldLambda host cx
    let p ← Param.make (parameterStem ++ uniqueName (← fresh)) element
    let body ← f.inline (.param p)
    let projection ← Lambda.unary (.param p) body
    source.select projection

end Expr

end ObjectMapping
