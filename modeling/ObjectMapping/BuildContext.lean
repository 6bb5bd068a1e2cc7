import ObjectMapping.Tree

/-!
# What is being built

Which mapper is being built, if any, and between which types.
-/

namespace ObjectMapping

/-- What an expansion is made for: the mapper under construction, if any, and the types it maps
between. -/
structure BuildContext where
  mapper : Option MapperId
  input : Option Ty
  output : Ty

namespace BuildContext

/-- The context of a lambda that belongs to no mapper. -/
def ofLambda (f : Lambda) : BuildContext :=
  ⟨none, f.params.head?.map (·.ty), f.returnTy⟩

/-- The context of a lambda that a mapper is built from. -/
def ofMapper (id : MapperId) (f : Lambda) : BuildContext :=
  ⟨some id, f.params.head?.map (·.ty), f.returnTy⟩

/-- Whether a mapper is the one under construction. -/
def isBuilding (cx : BuildContext) (id : MapperId) : Bool :=
  cx.mapper == some id

end BuildContext

end ObjectMapping
