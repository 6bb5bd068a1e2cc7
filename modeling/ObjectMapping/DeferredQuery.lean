import ObjectMapping.Evaluation
import ObjectMapping.Tree.Calls

/-!
# Queries

A query keeps its stages as an expression of queryable type and runs them only when it is executed.
-/

namespace ObjectMapping

open RunM

/-- A deferred query. -/
structure DeferredQuery where
  expression : Expr

namespace DeferredQuery

/-- A query over values. -/
def ofValues (element : Ty) (items : List Value) : RunM DeferredQuery := do
  return ⟨← Expr.mkConstant (.sequence .queryable items) (.sequence .queryable element)⟩

/-- A query by an expression, which must be of queryable type. -/
def ofExpr (e : Expr) : RunM DeferredQuery := do
  if e.ty.queryItemTy?.isNone then reject (.notQueryable e.ty)
  return ⟨e⟩

/-- The type of the items. -/
def element? (query : DeferredQuery) : Option Ty :=
  query.expression.ty.queryItemTy?

/-- Adds a projection through the expression of a mapper. Nothing is evaluated. -/
def mapWith (query : DeferredQuery) (m : Mapper) : RunM DeferredQuery := do
  return ⟨← query.expression.select m.expression⟩

/-- Runs the query: the kind and the items of the sequence it yields. -/
def execute (host : Host) (query : DeferredQuery) : RunM (SequenceKind × List Value) := do
  match ← query.expression.evaluate host with
  | .sequence kind items => return (kind, items)
  | v => fail (.wrongKind "query" "sequence" v.kindName)

end DeferredQuery

end ObjectMapping
