import ObjectMapping.Inlining
import ObjectMapping.Options
import ObjectMapping.Resolution

/-!
# Call-site transformers

A transformer says what takes the place of a call. `Marker.transformer?` makes the transformer that
a marker names from the settings of an expander: the built-in ones inline mappers, and custom ones
come from outside, which may fail to make one.
-/

namespace ObjectMapping

open RunM

/-- What transformers are made from. The resolvers are asked in order. -/
structure Settings where
  options : Options := {}
  resolvers : List Resolver := []

/-- A call that is to be expanded: the node and its parts. -/
structure CallSite where
  node : Expr
  operation : Operation
  receiver : Option Expr
  arguments : List Expr

/-- What takes the place of a call. It is not looked into. The first argument is the identity of the
instance that is at work, under which it may keep things from one call to the next. -/
abbrev SiteExpansion := NodeId → Host → CallSite → BuildContext → RunM Expr

/-- One instance of a transformer. -/
structure SiteTransformer where
  id : NodeId
  expand : SiteExpansion

/-- What an instance puts in the place of a call. -/
abbrev SiteTransformer.apply (transformer : SiteTransformer) :
    Host → CallSite → BuildContext → RunM Expr :=
  transformer.expand transformer.id

/-- Makes the custom transformer of a name, or says why it cannot. -/
abbrev CustomTransformers := String → Settings → Except String SiteExpansion

namespace CallSite

/-- An argument of the call. -/
def argument (site : CallSite) (index : Nat) : RunM Expr :=
  match site.arguments[index]? with
  | some e => pure e
  | none => reject (.missingArgument site.operation.signature index)

/-- Inlines the mapper that is the second argument over the first. -/
def inlineGiven (guarded : Bool) : SiteExpansion := fun _ host site cx => do
  let source ← site.argument 0
  let mapper ← site.argument 1
  source.inlineOver host mapper guarded cx

/-- Inlines the mapper that is the second argument over the items of the first. -/
def inlineGivenOverItems (parameterStem : String) : SiteExpansion := fun _ host site cx => do
  let source ← site.argument 0
  let mapper ← site.argument 1
  source.inlineOverItems host mapper parameterStem cx

/-- Inlines the mapper that is the receiver over the first argument. -/
def inlineReceiver (guarded : Bool) : SiteExpansion := fun _ host site cx => do
  match site.receiver with
  | none => reject .missingReceiver
  | some mapper =>
    let source ← site.argument 0
    source.inlineOver host mapper guarded cx

/-- Inlines the mapper that the resolvers find between the types of the first argument and of the
call. -/
def inlineResolved (resolvers : List Resolver) : SiteExpansion := fun _ host site cx => do
  let source ← site.argument 0
  match ← Resolver.askAll host ⟨site.operation, source.ty, site.node.ty⟩ resolvers with
  | none => fail (.noMapperFound site.node.text)
  | some handle => do
    cx.refuseCurrent handle.id
    match handle.mapper? host with
    | some m => m.expression.inline source
    | none => fail .absentMapper

end CallSite

/-- What the transformer of a marker does, or why there is none. -/
def Marker.transformer? (custom : CustomTransformers) (settings : Settings) :
    Marker → Except String SiteExpansion
  | .includeGiven => .ok (CallSite.inlineGiven false)
  | .includeResolved => .ok (CallSite.inlineResolved settings.resolvers)
  | .mapWith => .ok (CallSite.inlineGiven settings.options.nullPropagation)
  | .mapAllWith => .ok (CallSite.inlineGivenOverItems settings.options.parameterStem)
  | .map => .ok (CallSite.inlineReceiver settings.options.nullPropagation)
  | .custom name => custom name settings

end ObjectMapping
