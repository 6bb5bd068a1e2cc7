import ObjectMapping.Substitution

/-!
# Merging constructions

`Lambda.merge` lays an extension over a source, both of which construct an object. The extension's
constructor, parameters and values survive; members that only the source assigns keep their values.
A member that both sides assign with a construction is merged in turn.

A placeholder in a value of the extension stands for the value that the source assigns to that
member. Where the source assigns none the placeholder's fallback takes its place.
-/

namespace ObjectMapping

open RunM

/-! ## Placeholders -/

/-- Replaces placeholders by the previous value, which is put in as it is. Without a previous value
a placeholder gives way to its fallback. -/
def Visitor.fillingPrevious (previous : Option Expr) (member : Member) : Visitor RunM where
  judge e :=
    match e, previous with
    | .previous .., some value => pure (.put value)
    | .previous _ _ (some _), none => pure .standIn
    | .previous _ _ none, none => fail (.previousValueMissing member.text)
    | _, _ => pure .enter

/-- A value for a member, with its placeholders replaced. -/
def Expr.fillPrevious (value : Expr) (previous : Option Expr) (member : Member) : RunM Expr :=
  (Visitor.fillingPrevious previous member).apply value

/-! ## Constructions -/

/-- The assignments of members that the source does not assign, without placeholders. -/
def Assignment.added (source : List Assignment) : List Assignment → RunM (List Assignment)
  | [] => pure []
  | a :: rest => do
    if (Assignment.find? a.member source).isSome then
      added source rest
    else
      let value ← a.value.fillPrevious none a.member
      return ⟨a.member, value⟩ :: (← added source rest)

mutual

/-- A source value under an extension value: constructions are merged, and otherwise the extension's
value is taken. -/
def Expr.mergeValue : Expr → Expr → RunM Expr
  | .construct _ _ _ source, .construct _ ty arguments extension => do
    let kept ← Assignment.mergeList extension source
    let added ← Assignment.added source extension
    return .construct (← fresh) ty arguments (kept ++ added)
  | _, extension => pure extension
termination_by structural source => source

/-- The source's assignments, each under the extension's assignment to the same member. -/
def Assignment.mergeList (extension : List Assignment) :
    List Assignment → RunM (List Assignment)
  | [] => pure []
  | ⟨member, previous⟩ :: rest => do
    match Assignment.find? member extension with
    | none => return ⟨member, previous⟩ :: (← Assignment.mergeList extension rest)
    | some replacement =>
      let value ← previous.mergeValue replacement.value
      let value ← value.fillPrevious (some previous) replacement.member
      return ⟨replacement.member, value⟩ :: (← Assignment.mergeList extension rest)
termination_by structural source => source

end

/-- Whether an expression is a construction. -/
def Expr.isConstruct : Expr → Bool
  | .construct .. => true
  | _ => false

/-- The replacements of parameters by the parameters at the same places, where they differ. -/
def Replacement.ofParams (old new : List Param) : List Replacement :=
  ((old.zip new).filter fun (p, q) => p.id != q.id).map fun (p, q) => ⟨.param p, .param q⟩

/-- The source with the extension laid over it. Both must be constructions with the same number of
parameters. -/
def Lambda.merge (source extension : Lambda) : RunM Lambda := do
  unless source.body.isConstruct do fail (.notConstruction .source)
  unless extension.body.isConstruct do fail (.notConstruction .extension)
  if source.params.length ≠ extension.params.length then
    reject (.mergedParameterCount extension.params.length source.params.length)
  let merged ← source.body.mergeValue extension.body
  let body ← merged.substitute (Replacement.ofParams source.params extension.params)
  Lambda.ofExprs extension.paramExprs body

end ObjectMapping
