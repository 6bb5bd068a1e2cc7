import ObjectMapping.Tree.Node

/-!
# Traversing a tree

A `Visitor` judges every node it comes to, from the top down: the node may be looked into, another
expression may take its place, or its stand-in may, the false branch of a choice or the fallback of
a placeholder. `Expr.walk` visits the parts of a node, `Expr.walkStandIn` its stand-in alone, and
`Visitor.apply` the node itself. What a verdict passes over is not visited at all.

A node is made anew only if one of its parts has become another node, so whatever a visitor leaves
alone keeps its identity. A parameter of a lambda must become a parameter.

`Expr.outermostBelow` lists the first nodes with a given property on each way down.
-/

namespace ObjectMapping

open RunM

/-! ## Visitors -/

/-- What becomes of a node that a visitor comes to. -/
inductive Verdict where
  /-- the parts of the node are visited -/
  | enter
  /-- an expression takes the place of the node and is not looked into -/
  | put (e : Expr)
  /-- the stand-in of the node takes its place and is visited; a node without one stays -/
  | standIn

/-- What becomes of the nodes of a tree, in a monad `m` in which nodes can be made. -/
structure Visitor (m : Type → Type) where
  judge : Expr → m Verdict

/-- Visits a node, given how its parts and its stand-in are visited. -/
def Visitor.visit {m : Type → Type} [Monad m] (v : Visitor m) (e : Expr)
    (parts standIn : Unit → m Expr) : m Expr := do
  match ← v.judge e with
  | .enter => parts ()
  | .put replacement => pure replacement
  | .standIn => standIn ()

/-! ## Making nodes anew -/

namespace Expr

/-- Whether two lists have the same nodes at every place. -/
def sameAll (as bs : List Expr) : Bool :=
  (as.zip bs).all fun (a, b) => a.same b

/-- A new node. -/
def remake {m : Type → Type} [Monad m] [MonadLiftT RunM m] (make : NodeId → Expr) : m Expr := do
  return make (← (fresh : RunM NodeId))

end Expr

/-- Whether two lists of assignments have the same values at every place. -/
def Assignment.sameAll (as bs : List Assignment) : Bool :=
  (as.zip bs).all fun (a, b) => a.value.same b.value

/-- Whether two receivers are the same node, or both absent. -/
def Expr.sameOption : Option Expr → Option Expr → Bool
  | some a, some b => a.same b
  | _, _ => true

/-- Makes sure that each parameter of a lambda has become a parameter again. -/
def Param.requireParams : List Param → List Expr → RunM Unit
  | p :: ps, e :: es => do
    if e.param?.isNone then fail (.parameterLost p.name)
    requireParams ps es
  | _, _ => pure ()

section

variable {m : Type → Type} [Monad m] [MonadLiftT RunM m]

/-- Visits the parameters of a lambda. -/
def Param.walkList (v : Visitor m) : List Param → m (List Expr)
  | [] => pure []
  | p :: ps => do
    let e ← v.visit (.param p) (fun _ => pure (.param p)) (fun _ => pure (.param p))
    return e :: (← Param.walkList v ps)

mutual

/-- Visits the parts of an expression, and makes it anew if one of them has changed. -/
def Expr.walk (v : Visitor m) : Expr → m Expr
  | .param p => pure (.param p)
  | .constant id ty value => pure (.constant id ty value)
  | .default id ty => pure (.default id ty)
  | .member id object field => do
    let object' ← v.visit object (fun _ => object.walk v) (fun _ => object.walkStandIn v)
    if object'.same object then return .member id object field
    Expr.remake (.member · object' field)
  | .unary id ty op operand => do
    let operand' ← v.visit operand (fun _ => operand.walk v) (fun _ => operand.walkStandIn v)
    if operand'.same operand then return .unary id ty op operand
    Expr.remake (.unary · ty op operand')
  | .binary id ty op left right => do
    let left' ← v.visit left (fun _ => left.walk v) (fun _ => left.walkStandIn v)
    let right' ← v.visit right (fun _ => right.walk v) (fun _ => right.walkStandIn v)
    if left'.same left && right'.same right then return .binary id ty op left right
    Expr.remake (.binary · ty op left' right')
  | .conditional id ty test ifTrue ifFalse => do
    let test' ← v.visit test (fun _ => test.walk v) (fun _ => test.walkStandIn v)
    let ifTrue' ← v.visit ifTrue (fun _ => ifTrue.walk v) (fun _ => ifTrue.walkStandIn v)
    let ifFalse' ← v.visit ifFalse (fun _ => ifFalse.walk v) (fun _ => ifFalse.walkStandIn v)
    if test'.same test && ifTrue'.same ifTrue && ifFalse'.same ifFalse then
      return .conditional id ty test ifTrue ifFalse
    Expr.remake (.conditional · ty test' ifTrue' ifFalse')
  | .call id ty operation receiver arguments => do
    let receiver' ← Expr.walkOption v receiver
    let arguments' ← Expr.walkList v arguments
    if Expr.sameOption receiver' receiver && Expr.sameAll arguments' arguments then
      return .call id ty operation receiver arguments
    Expr.remake (.call · ty operation receiver' arguments')
  | .lambda id f => do
    let f' ← f.walk v
    if f'.same f then return .lambda id f
    Expr.remake (.lambda · f')
  | .quote id f => do
    let f' ← f.walk v
    if f'.same f then return .quote id f
    Expr.remake (.quote · f')
  | .construct id ty arguments assignments => do
    let arguments' ← Assignment.walkList v arguments
    let assignments' ← Assignment.walkList v assignments
    if Assignment.sameAll arguments' arguments && Assignment.sameAll assignments' assignments then
      return .construct id ty arguments assignments
    Expr.remake (.construct · ty arguments' assignments')
  | .previous id ty fallback => do
    let fallback' ← Expr.walkOption v fallback
    if Expr.sameOption fallback' fallback then return .previous id ty fallback
    Expr.remake (.previous · ty fallback')

/-- Visits the stand-in of an expression, which is what stays in its place. -/
def Expr.walkStandIn (v : Visitor m) : Expr → m Expr
  | .conditional _ _ _ _ ifFalse =>
    v.visit ifFalse (fun _ => ifFalse.walk v) (fun _ => ifFalse.walkStandIn v)
  | .previous _ _ (some fallback) =>
    v.visit fallback (fun _ => fallback.walk v) (fun _ => fallback.walkStandIn v)
  | e => pure e

/-- Visits an expression that may be absent. -/
def Expr.walkOption (v : Visitor m) : Option Expr → m (Option Expr)
  | none => pure none
  | some e => do return some (← v.visit e (fun _ => e.walk v) (fun _ => e.walkStandIn v))

/-- Visits expressions from left to right. -/
def Expr.walkList (v : Visitor m) : List Expr → m (List Expr)
  | [] => pure []
  | e :: rest => do
    let e' ← v.visit e (fun _ => e.walk v) (fun _ => e.walkStandIn v)
    return e' :: (← Expr.walkList v rest)

/-- Visits the values of assignments from left to right. -/
def Assignment.walkList (v : Visitor m) : List Assignment → m (List Assignment)
  | [] => pure []
  | ⟨field, value⟩ :: rest => do
    let value' ← v.visit value (fun _ => value.walk v) (fun _ => value.walkStandIn v)
    return ⟨field, value'⟩ :: (← Assignment.walkList v rest)

/-- Visits the parameters and then the body of a lambda, and makes it anew if one of them has
changed. -/
def Lambda.walk (v : Visitor m) : Lambda → m Lambda
  | ⟨id, params, body⟩ => do
    let params' ← Param.walkList v params
    (Param.requireParams params params' : RunM Unit)
    let body' ← v.visit body (fun _ => body.walk v) (fun _ => body.walkStandIn v)
    if Expr.sameAll params' (params.map .param) && body'.same body then return ⟨id, params, body⟩
    (Lambda.ofExprs params' body' : RunM Lambda)

end

/-- Visits an expression. -/
def Visitor.apply (v : Visitor m) (e : Expr) : m Expr :=
  v.visit e (fun _ => e.walk v) (fun _ => e.walkStandIn v)

end

/-! ## Finding nodes -/

/-- The node itself if it has the property, else the nodes found below it, which are not looked for
in the first case. -/
@[macro_inline]
def Expr.orBelow (hit : Expr → Bool) (e : Expr) (below : List Expr) : List Expr :=
  if hit e then [e] else below

mutual

/-- The nodes below an expression that have a property, from left to right, without those below
other nodes that have it. -/
def Expr.outermostBelow (hit : Expr → Bool) : Expr → List Expr
  | .param _ => []
  | .constant .. => []
  | .default .. => []
  | .member _ object _ => object.orBelow hit (object.outermostBelow hit)
  | .unary _ _ _ operand => operand.orBelow hit (operand.outermostBelow hit)
  | .binary _ _ _ left right =>
    left.orBelow hit (left.outermostBelow hit) ++ right.orBelow hit (right.outermostBelow hit)
  | .conditional _ _ test ifTrue ifFalse =>
    test.orBelow hit (test.outermostBelow hit) ++
      (ifTrue.orBelow hit (ifTrue.outermostBelow hit) ++
        ifFalse.orBelow hit (ifFalse.outermostBelow hit))
  | .call _ _ _ receiver arguments =>
    Expr.outermostOption hit receiver ++ Expr.outermostList hit arguments
  | .lambda _ f => f.outermost hit
  | .quote _ f => f.outermost hit
  | .construct _ _ arguments assignments =>
    Assignment.outermostList hit arguments ++ Assignment.outermostList hit assignments
  | .previous _ _ fallback => Expr.outermostOption hit fallback

/-- The outermost nodes with a property in an expression that may be absent. -/
def Expr.outermostOption (hit : Expr → Bool) : Option Expr → List Expr
  | none => []
  | some e => e.orBelow hit (e.outermostBelow hit)

/-- The outermost nodes with a property in expressions. -/
def Expr.outermostList (hit : Expr → Bool) : List Expr → List Expr
  | [] => []
  | e :: rest => e.orBelow hit (e.outermostBelow hit) ++ Expr.outermostList hit rest

/-- The outermost nodes with a property in the values of assignments. -/
def Assignment.outermostList (hit : Expr → Bool) : List Assignment → List Expr
  | [] => []
  | ⟨_, e⟩ :: rest => e.orBelow hit (e.outermostBelow hit) ++ Assignment.outermostList hit rest

/-- The outermost nodes with a property among the parameters and in the body of a lambda. -/
def Lambda.outermost (hit : Expr → Bool) : Lambda → List Expr
  | ⟨_, params, body⟩ =>
    (params.map .param).filter hit ++ body.orBelow hit (body.outermostBelow hit)

end

/-- The outermost nodes of an expression that have a property, from left to right. -/
def Expr.outermost (hit : Expr → Bool) (e : Expr) : List Expr :=
  e.orBelow hit (e.outermostBelow hit)

end ObjectMapping
