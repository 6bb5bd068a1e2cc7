import ObjectMapping.Expansion

/-!
# Sessions

A session is what outlives a single run: its trail, the mappers of the references that have been
filled, and the expanders with their caches. A run inside a session sees the filled references as
they are when it starts and cannot change them.

Every session starts with one expander with default settings, `ExpanderId.shared`.
-/

namespace ObjectMapping

/-! ## Expanders -/

/-- An expander with its cache. -/
structure Expander where
  design : ExpanderDesign
  cache : TransformerCache := []

/-- The number of operations whose lookup is kept. -/
def Expander.cachedOperations (expander : Expander) : Nat :=
  expander.cache.length

/-- The position of an expander in a session. -/
abbrev ExpanderId := Nat

/-- The expander that a session starts with. -/
def ExpanderId.shared : ExpanderId := 0

/-! ## Sessions -/

/-- What outlives a run. -/
structure Session where
  trail : Trail := {}
  /-- the mappers of filled references -/
  filled : List (MapperId × Mapper) := []
  expanders : List Expander

/-- What a session is given from outside. -/
structure Hooks where
  /-- how deeply calls may be nested -/
  depth : Nat
  /-- native implementations by name -/
  native : String → List Value → Reply
  /-- mappers and references by name -/
  directory : String → Option MapperHandle

namespace Session

/-- A session in which nothing has been made, with one expander with default settings. -/
def start (custom : CustomTransformers) : Session :=
  { expanders := [⟨⟨{}, custom⟩, []⟩] }

/-- What a run in the session finds around it. -/
def host (session : Session) (hooks : Hooks) : Host where
  depth := hooks.depth
  filled id := session.filled.lookup id
  native := hooks.native
  directory := hooks.directory

end Session

/-- A step of a session that may fail. -/
abbrev SessionM := ExceptT Fault (StateM Session)

/-- A run inside a session. -/
def RunM.toSession {α : Type} (run : RunM α) : SessionM α := fun session =>
  let (result, trail) := run session.trail
  (result, { session with trail })

instance : MonadLift RunM SessionM := ⟨RunM.toSession⟩

namespace SessionM

/-- A run that depends on what it finds around it. -/
def within {α : Type} (hooks : Hooks) (run : Host → RunM α) : SessionM α := fun session =>
  (run (session.host hooks)).toSession session

/-- A pass of an expander, whose cache is kept for its next pass. -/
def pass {α : Type} (hooks : Hooks) (id : ExpanderId)
    (run : ExpanderDesign → Host → PassM α) : SessionM α := fun session =>
  match session.expanders[id]? with
  | none => (.error .exhausted, session)
  | some expander =>
    let (result, trail, cache) :=
      run expander.design (session.host hooks) (session.trail, expander.cache)
    (result, { session with trail, expanders := session.expanders.set id { expander with cache } })

/-- Adds an expander. -/
def addExpander (design : ExpanderDesign) : SessionM ExpanderId := fun session =>
  (.ok session.expanders.length,
    { session with expanders := session.expanders ++ [⟨design, []⟩] })

/-- The mapper of a filled reference. -/
def filled? (id : MapperId) : SessionM (Option Mapper) := fun session =>
  (.ok (session.filled.lookup id), session)

/-- Fills a reference, which succeeds at most once. -/
def fill (id : MapperId) (m : Mapper) : SessionM Unit := fun session =>
  match session.filled.lookup id with
  | some _ => (.error (.failed .alreadyFilled), session)
  | none => (.ok (), { session with filled := session.filled ++ [(id, m)] })

/-- The transformer that an expander has for an operation, made when it is first asked for. -/
def transformerOf (hooks : Hooks) (id : ExpanderId) (operation : Operation) :
    SessionM (Option SiteTransformer) :=
  pass hooks id fun design _ => design.transformerOf operation

/-- Expands the call sites of an expression. -/
def expandExpr (hooks : Hooks) (id : ExpanderId) (e : Expr) (cx : BuildContext) :
    SessionM Expr :=
  pass hooks id fun design host => design.expandExpr host e cx

/-- Expands the call sites of a lambda. -/
def expandLambda (hooks : Hooks) (id : ExpanderId) (f : Lambda) (cx : BuildContext) :
    SessionM Lambda :=
  pass hooks id fun design host => design.expandLambda host f cx

/-- Expands the call sites of a lambda that belongs to no mapper, with the shared expander. -/
def expandStandalone (hooks : Hooks) (f : Lambda) : SessionM Lambda :=
  expandLambda hooks .shared f (.ofLambda f)

end SessionM

end ObjectMapping
