import ObjectMapping.CallSite
import ObjectMapping.Session.Mapper

/-!
# Ready-made transformers

Custom call-site transformers and transformers of whole expressions that show what a transformer is
given and what it may give back.
-/

namespace ObjectMapping.Stock

open RunM

/-! ## Call sites -/

/-- The text of a type that may be absent. -/
def tyText (ty : Option Ty) : String :=
  (ty.map Ty.text).getD "none"

/-- The text of a truth value. -/
def boolText (b : Bool) : String :=
  if b then "true" else "false"

/-- The ready-made call-site transformers by name. There is nothing to make one of another name
from. -/
def siteTransformer : CustomTransformers := fun name settings =>
  match name with
  | "Constant42" => .ok fun _ _ _ _ => Expr.mkInt 42
  | "Same" => .ok fun _ _ site _ => return site.node
  | "First" => .ok fun _ _ site _ => return site.arguments.head?.getD site.node
  | "Rejecting" => .ok fun _ _ _ _ => fail (.configuration "rejected")
  | "Context" => .ok fun _ _ _ cx =>
    Expr.mkString (boolText cx.mapper.isSome ++ " " ++ tyText cx.input ++ " -> " ++ cx.output.text)
  | "Options" =>
    let text := boolText settings.options.nullPropagation ++ " " ++
      settings.options.parameterStem ++ " " ++ countText settings.resolvers.length
    .ok fun _ _ _ _ => Expr.mkString text
  | _ => .error "no default constructor"

/-! ## Whole expressions -/

/-- Writes the expression to the log under a title and keeps it. -/
def logging (title : String) : LambdaTransformer := fun f _ => do
  note (title ++ ": " ++ f.text)
  return f

/-- Writes the context to the log and keeps the expression. -/
def loggingContext : LambdaTransformer := fun f cx => do
  note ("mapper=" ++ (cx.mapper.map countText).getD "none" ++ " input=" ++ tyText cx.input ++
    " output=" ++ cx.output.text)
  return f

/-- Puts what the expression yields into upper case. -/
def upperCasing : LambdaTransformer := fun f _ => do
  Lambda.ofExprs f.paramExprs (← f.body.toUpper)

/-- Puts another expression in place. -/
def replacing (g : Lambda) : LambdaTransformer := fun _ _ => return g

/-- Lays an extension over the expression. -/
def merging (extension : Lambda) : LambdaTransformer := fun f _ => f.merge extension

/-- Adds a parameter at the end. -/
def addingParam (param : Expr) : LambdaTransformer := fun f _ =>
  Lambda.ofExprs (f.paramExprs ++ [param]) f.body

/-- Replaces nodes, parameters included. -/
def substituting (replacements : List Replacement) : LambdaTransformer := fun f _ =>
  f.substitute replacements

/-- Fails. -/
def failing : LambdaTransformer := fun _ _ => fail (.configuration "transformer failed")

end ObjectMapping.Stock
