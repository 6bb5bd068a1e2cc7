import ObjectMapping.Tree.Node

/-!
# Calls of the built-in operations

These functions build the calls that mapping expressions are written with. Each finds the static
type of the call in the types of its operands and refuses operands of which it cannot.
-/

namespace ObjectMapping.Expr

open RunM

/-- What an expression maps to: it must have the type of a mapper or of a function. -/
def mappedTo (mapper : Expr) : RunM Ty :=
  match mapper.ty with
  | .mapper _ output => pure output
  | .function _ result | .quoted _ result => pure result
  | other => reject (.notMapper other)

/-- The type of the items of a sequence. -/
def itemTy (source : Expr) : RunM Ty :=
  match source.ty.itemTy? with
  | some element => pure element
  | none => reject (.notSequence source.ty)

/-! ## Calls that are expanded -/

/-- Inlines a mapper over a source, without a null guard. -/
def includeGiven (source mapper : Expr) : RunM Expr := do
  mkCall .includeGiven none [source, mapper] (← mapper.mappedTo)

/-- Inlines the mapper to a type that the resolvers find. -/
def includeResolved (source : Expr) (output : Ty) : RunM Expr :=
  mkCall .includeResolved none [source] output

/-- Maps an object. -/
def mapWith (source mapper : Expr) : RunM Expr := do
  mkCall .mapWith none [source, mapper] (← mapper.mappedTo)

/-- Maps every item of a sequence; a query stays a query. -/
def mapAllWith (source mapper : Expr) : RunM Expr := do
  let output ← mapper.mappedTo
  let kind := match source.ty.kind? with
    | some .queryable => .queryable
    | _ => .enumerable
  mkCall .mapAllWith none [source, mapper] (.sequence kind output)

/-- Maps an object with the mapper that is the receiver. -/
def map (mapper source : Expr) : RunM Expr := do
  mkCall .map (some mapper) [source] (← mapper.mappedTo)

/-! ## Calls that stay -/

/-- Projects a sequence. A query takes its projection unevaluated and stays a query. -/
def select (source : Expr) (projection : Lambda) : RunM Expr := do
  if source.ty.queryItemTy?.isSome then
    mkCall .queryableSelect none [source, ← mkQuote projection]
      (.sequence .queryable projection.returnTy)
  else if source.ty.itemTy?.isSome then
    mkCall .enumerableSelect none [source, ← mkLambda projection]
      (.sequence .enumerable projection.returnTy)
  else
    fail (.notProjectable source.ty)

/-- Collects a sequence into a list. -/
def toList (source : Expr) : RunM Expr := do
  mkCall .toList none [source] (.sequence .list (← source.itemTy))

/-- Views a sequence as an enumerable one. -/
def asEnumerable (source : Expr) : RunM Expr := do
  mkCall .asEnumerable none [source] (.sequence .enumerable (← source.itemTy))

/-- Views a sequence as a query. -/
def asQueryable (source : Expr) : RunM Expr := do
  mkCall .asQueryable none [source] (.sequence .queryable (← source.itemTy))

/-- Puts a text into upper case. -/
def toUpper (source : Expr) : RunM Expr :=
  mkCall .toUpper (some source) [] .string

end ObjectMapping.Expr
