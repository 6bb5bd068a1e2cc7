import ObjectMapping.CallSite

/-!
# Expanding call sites

A pass walks a lambda and hands every call whose operation carries a marker to the transformer that
the marker names. What the transformer gives back is not looked into.

Transformers are made once for each operation and kept in the cache of the expander: `transformerOf`
looks an operation up by its signature alone. That an operation has no marker is kept too; a
transformer that cannot be made is tried again.
-/

namespace ObjectMapping

/-! ## The cache -/

/-- The operations looked up so far with their transformers, the earliest first. -/
abbrev TransformerCache := List (Signature × Option SiteTransformer)

/-- A run with a cache of transformers at hand. -/
abbrev PassM := ExceptT Fault (StateM (Trail × TransformerCache))

/-- A run leaves the cache alone. -/
def RunM.toPass {α : Type} (run : RunM α) : PassM α :=
  fun (trail, cache) =>
    let (result, trail) := run trail
    (result, (trail, cache))

instance : MonadLift RunM PassM := ⟨RunM.toPass⟩

namespace PassM

/-- What the cache holds for a signature. -/
def known (signature : Signature) : PassM (Option (Option SiteTransformer)) :=
  fun (trail, cache) => (.ok (cache.lookup signature), (trail, cache))

/-- Keeps what was found for a signature. -/
def keep (signature : Signature) (transformer : Option SiteTransformer) : PassM Unit :=
  fun (trail, cache) => (.ok (), (trail, cache ++ [(signature, transformer)]))

end PassM

/-- What an expander is made of, its cache apart. -/
structure ExpanderDesign where
  settings : Settings
  custom : CustomTransformers

namespace ExpanderDesign

/-- A new transformer for an operation, if it carries a marker. -/
def makeTransformer (design : ExpanderDesign) (operation : Operation) :
    RunM (Option SiteTransformer) := do
  match operation.markers with
  | [] => return none
  | [marker] =>
    match marker.transformer? design.custom design.settings with
    | .ok expand => return some ⟨← RunM.fresh, expand⟩
    | .error cause =>
      RunM.fail (.transformerNotMade marker.name operation.signature cause)
  | _ => RunM.fail (.multipleMarkers operation.signature)

/-- The transformer for an operation, made and kept when it is first asked for. -/
def transformerOf (design : ExpanderDesign) (operation : Operation) :
    PassM (Option SiteTransformer) := do
  match ← PassM.known operation.signature with
  | some known => return known
  | none => do
    let transformer ← design.makeTransformer operation
    PassM.keep operation.signature transformer
    return transformer

/-! ## The pass -/

/-- Puts in place of a marked call what its transformer gives. -/
def visitor (design : ExpanderDesign) (host : Host) (cx : BuildContext) : Visitor PassM where
  judge e := do
    match e with
    | .call _ _ operation receiver arguments =>
      match ← design.transformerOf operation with
      | some transformer =>
        return .put (← transformer.apply host ⟨e, operation, receiver, arguments⟩ cx)
      | none => return .enter
    | _ => return .enter

/-- Expands the call sites of an expression. -/
def expandExpr (design : ExpanderDesign) (host : Host) (e : Expr) (cx : BuildContext) :
    PassM Expr :=
  (design.visitor host cx).apply e

/-- Expands the call sites of a lambda. -/
def expandLambda (design : ExpanderDesign) (host : Host) (f : Lambda) (cx : BuildContext) :
    PassM Lambda :=
  f.walk (design.visitor host cx)

end ExpanderDesign

end ObjectMapping
