import ObjectMapping.Session

/-!
# Building mappers

A mapper is built from an expression by a pipeline: transformers of the whole expression around one
pass over its call sites. It keeps the expression it was given and the transformed one.

The identity of a mapper is taken before anything can fail. A reference has its identity before its
expression, so that expressions may mention it; `PlannedMapper.fill` supplies the expression once,
and the mapper built from it has the identity of the reference.

A transformer of whole expressions works in the session that builds the mapper: it may build mappers
and make references of its own meanwhile.
-/

namespace ObjectMapping

open RunM

/-! ## Pipelines -/

/-- Transforms an expression as a whole. -/
abbrev LambdaTransformer := Lambda → BuildContext → SessionM Lambda

/-- The transformers of an expression before and after the pass over its call sites, and the
expander that makes the pass. -/
structure Pipeline where
  before : List LambdaTransformer := []
  after : List LambdaTransformer := []
  expander : ExpanderId := .shared

/-- Where in a pipeline a transformer runs. -/
inductive Position where
  | first
  | last
  deriving DecidableEq

namespace Pipeline

/-- Adds a transformer after those at the same position. -/
def add (pipeline : Pipeline) (transformer : LambdaTransformer) : Position → Pipeline
  | .first => { pipeline with before := pipeline.before ++ [transformer] }
  | .last => { pipeline with after := pipeline.after ++ [transformer] }

/-- Transforms an expression. -/
def apply (hooks : Hooks) (pipeline : Pipeline) (f : Lambda) (cx : BuildContext) :
    SessionM Lambda := do
  let f ← pipeline.before.foldlM (fun f transform => transform f cx) f
  let f ← SessionM.expandLambda hooks pipeline.expander f cx
  pipeline.after.foldlM (fun f transform => transform f cx) f

end Pipeline

/-! ## Mappers -/

/-- A mapper with the pipeline it was built by. -/
structure BuiltMapper where
  mapper : Mapper
  pipeline : Pipeline

/-- The type of the single parameter that the expression of a mapper must have. -/
def Lambda.mappedTy (f : Lambda) : RunM Ty :=
  match f.params with
  | [p] => pure p.ty
  | params => reject (.mapperParameterCount params.length)

namespace BuiltMapper

/-- Builds the mapper of an identity. -/
def build (hooks : Hooks) (id : MapperId) (given : Lambda) (pipeline : Pipeline) :
    SessionM BuiltMapper := do
  let input ← given.mappedTy
  let expression ← pipeline.apply hooks given (.ofMapper id given)
  return ⟨⟨id, input, given.returnTy, given, expression⟩, pipeline⟩

/-- Builds a new mapper. -/
def make (hooks : Hooks) (given : Lambda) (pipeline : Pipeline) : SessionM BuiltMapper := do
  let built ← build hooks (← takeMapperId) given pipeline
  enter (.mapper built.mapper)
  return built

/-- A new mapper over another expression, built by the same pipeline. -/
def rebuild (hooks : Hooks) (built : BuiltMapper) (f : Lambda) : SessionM BuiltMapper :=
  make hooks f built.pipeline

/-- A new mapper over the transformed expression with an extension laid over it. -/
def merge (hooks : Hooks) (built : BuiltMapper) (extension : Lambda) : SessionM BuiltMapper := do
  built.rebuild hooks (← built.mapper.expression.merge extension)

/-- A new mapper over the given expression with an extension laid over it, so that the result is
transformed as a whole. -/
def mergeGiven (hooks : Hooks) (built : BuiltMapper) (extension : Lambda) :
    SessionM BuiltMapper := do
  built.rebuild hooks (← built.mapper.given.merge extension)

end BuiltMapper

/-! ## References -/

/-- A mapper reference with the pipeline that its mapper will be built by. -/
structure PlannedMapper where
  ref : MapperReference
  pipeline : Pipeline

namespace PlannedMapper

/-- A new reference, not yet filled. -/
def make (input output : Ty) (pipeline : Pipeline) : SessionM PlannedMapper := do
  let reference := ⟨← takeMapperId, input, output⟩
  enter (.ref reference)
  return ⟨reference, pipeline⟩

/-- Supplies the expression of a reference, which must map between the declared types. This succeeds
at most once. -/
def fill (hooks : Hooks) (reference : PlannedMapper) (f : Lambda) : SessionM BuiltMapper := do
  if (← SessionM.filled? reference.ref.id).isSome then
    (fail .alreadyFilled : RunM Unit)
  let input ← f.mappedTy
  if input ≠ reference.ref.input ∨ f.returnTy ≠ reference.ref.output then
    (reject (.declaredTypes input f.returnTy reference.ref.input reference.ref.output) : RunM Unit)
  let built ← BuiltMapper.build hooks reference.ref.id f reference.pipeline
  SessionM.fill reference.ref.id built.mapper
  return built

/-- The mapper of a reference that has been filled. -/
def mapper? (reference : PlannedMapper) : SessionM (Option BuiltMapper) := do
  return (← SessionM.filled? reference.ref.id).map (⟨·, reference.pipeline⟩)

/-- What the mapper of a reference makes of a value. -/
def map (hooks : Hooks) (reference : PlannedMapper) (input : Value) : SessionM Value := do
  match ← reference.mapper? with
  | some built => SessionM.within hooks fun host => built.mapper.map host input
  | none => (fail .absentMapper : RunM Value)

end PlannedMapper

end ObjectMapping
