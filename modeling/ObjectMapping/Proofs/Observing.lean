import ObjectMapping.Proofs.Expanding
import ObjectMapping.Proofs.Filling

/-!
# What hooks do to identities

Custom transformers, resolvers and transformers of whole expressions come from outside, and a run in
which they are at work may make mappers and references of theirs. A hook observes a course
(`Trail.Course`) if the trail goes on along it wherever the hook is at work. The rest of a pass and
of a build makes nodes and writes lines only, so what all hooks observe, the pass and the build do
(`BuiltMapper.build_upholds`).

A hook that makes mappers and references by the steps of a session observes
`Trail.Course.growing`, and one that makes none observes `Trail.Course.sparing`.
-/

namespace ObjectMapping

open RunM

variable {C : Trail.Course}

/-! ## Hooks -/

/-- The trail goes on along the course wherever a call is expanded. -/
def SiteExpansion.Observes (expand : SiteExpansion) (C : Trail.Course) : Prop :=
  ∀ (self : NodeId) (host : Host) (site : CallSite) (cx : BuildContext) (t : Trail),
    C.goes t (outcome (expand self host site cx) t).2

def CustomTransformers.Observes (custom : CustomTransformers) (C : Trail.Course) : Prop :=
  ∀ (name : String) (settings : Settings) (expand : SiteExpansion),
    custom name settings = .ok expand → expand.Observes C

/-- The trail goes on along the course wherever the resolver is asked. -/
def Resolver.Observes (resolver : Resolver) (C : Trail.Course) : Prop :=
  ∀ (host : Host) (request : MapperRequest) (t : Trail),
    C.goes t (resolver.ask host request t).2

theorem Resolver.observes_growing (resolver : Resolver) : resolver.Observes .growing :=
  resolver.grows

structure ExpanderDesign.Observes (design : ExpanderDesign) (C : Trail.Course) : Prop where
  custom : design.custom.Observes C
  resolver {resolver : Resolver} :
    resolver ∈ design.settings.resolvers → resolver.Observes C

def TransformerCache.Observes (cache : TransformerCache) (C : Trail.Course) : Prop :=
  ∀ {key : Signature} {transformer : SiteTransformer}, (key, some transformer) ∈ cache →
    transformer.expand.Observes C

structure Expander.Observes (expander : Expander) (C : Trail.Course) : Prop where
  design : expander.design.Observes C
  cache : expander.cache.Observes C

def Session.Observes (s : Session) (C : Trail.Course) : Prop :=
  ∀ expander ∈ s.expanders, expander.Observes C

/-- What comes of a session in work along a course by which no reference is filled. -/
structure Session.Goes (start : Session) (C : Trail.Course) (s : Session) : Prop where
  trail : C.goes start.trail s.trail
  filled : s.filled = start.filled
  observes : s.Observes C

/-- Wherever the transformer is at work, the session goes on along the course. -/
def LambdaTransformer.Observes (transform : LambdaTransformer) (C : Trail.Course) : Prop :=
  ∀ (f : Lambda) (cx : BuildContext) (s : Session), s.Observes C →
    s.Goes C (outcome (transform f cx) s).2

structure Pipeline.Observes (pipeline : Pipeline) (C : Trail.Course) : Prop where
  before {transform : LambdaTransformer} :
    transform ∈ pipeline.before → LambdaTransformer.Observes transform C
  after {transform : LambdaTransformer} :
    transform ∈ pipeline.after → LambdaTransformer.Observes transform C

theorem Pipeline.observes_bare (expander : ExpanderId) : Observes { expander := expander } C :=
  ⟨nofun, nofun⟩

namespace Session.Goes

variable {s s' s'' : Session}

theorem refl (hs : s.Observes C) : s.Goes C s :=
  ⟨C.refl _, rfl, hs⟩

theorem trans (h : s.Goes C s') (h' : s'.Goes C s'') : s.Goes C s'' :=
  ⟨C.trans h.trail h'.trail, h'.filled.trans h.filled, h'.observes⟩

end Session.Goes

/-! ## Passes -/

/-- What every marker names observes what the hooks do. -/
theorem Marker.transformer_observes {design : ExpanderDesign} (hdesign : design.Observes C)
    {marker : Marker} {expand : SiteExpansion}
    (h : marker.transformer? design.custom design.settings = .ok expand) : expand.Observes C := by
  intro self host site cx t
  have builtIn (hcustom : ∀ name, marker ≠ .custom name) :
      C.goes t (outcome (expand self host site cx) t).2 :=
    (Marker.transformer_keeps (I := C.ahead t) hcustom h (fun resolver hmem request u hu =>
      C.trans hu (hdesign.resolver hmem host request u)) self site cx t (C.refl t)).1
  cases marker with
  | custom name => exact hdesign.custom name _ _ h self host site cx t
  | _ => exact builtIn nofun

namespace ExpanderDesign

variable {design : ExpanderDesign} {start : Trail}

/-- What a pass keeps whose hooks observe a course. -/
def Passing (C : Trail.Course) (start : Trail) (s : Trail × TransformerCache) : Prop :=
  C.goes start s.1 ∧ s.2.Observes C

theorem Passing.lift {α : Type} {run : RunM α} {Q : Except Fault α → Prop}
    (h : Upholds (C.ahead start).holds run Q) :
    Upholds (Passing C start) (liftM run : PassM α) Q :=
  fun s hs => ⟨⟨(h s.1 hs.1).1, hs.2⟩, (h s.1 hs.1).2⟩

/-- The transformer that is found for an operation observes what the hooks do. -/
theorem transformerOf_observes (hdesign : design.Observes C) (op : Operation) :
    Upholds (Passing C start) (design.transformerOf op) fun r =>
      ∀ transformer, r = .ok (some transformer) → transformer.expand.Observes C := by
  have hknown : Upholds (Passing C start) (PassM.known op.signature) fun r =>
      ∀ transformer, r = .ok (some (some transformer)) → transformer.expand.Observes C := by
    refine fun s hs => ⟨hs, fun transformer hfound => ?_⟩
    obtain ⟨before, after, hcache, -⟩ := List.lookup_eq_some_iff.1 (Except.ok.inj hfound)
    have hmem : (op.signature, some transformer) ∈ s.2 := by simp [hcache]
    exact hs.2 hmem
  refine hknown.bind (fun known hknown => ?_) nofun
  cases known with
  | some known =>
    refine .pure fun transformer h => ?_
    obtain rfl := Except.ok.inj h
    exact hknown transformer rfl
  | none =>
    refine (Passing.lift (makeTransformer_upholds (C.ahead start))).bind (fun made hmade => ?_)
      nofun
    have hmakes (transformer : SiteTransformer) (h : made = some transformer) :
        transformer.expand.Observes C := by
      subst h
      cases hmade _ rfl with | some _ hexpand =>
      exact Marker.transformer_observes hdesign hexpand
    have hkeep : Keeps (Passing C start) (PassM.keep op.signature made) := by
      refine fun s hs => ⟨⟨hs.1, fun {key transformer} hmem => ?_⟩, trivial⟩
      rcases List.mem_append.1 hmem with hmem | hmem
      · exact hs.2 hmem
      · exact hmakes transformer (Prod.mk.inj (List.mem_singleton.1 hmem)).2.symm
    exact Upholds.bind hkeep (fun _ _ => .pure fun transformer h => hmakes transformer
      (Except.ok.inj h)) nofun

/-- A pass goes on along the course that the hooks observe. -/
theorem expandLambda_passing (hdesign : design.Observes C) (host : Host) (f : Lambda)
    (cx : BuildContext) : Keeps (Passing C start) (design.expandLambda host f cx) := by
  have hlift {α : Type} {run : RunM α} (h : run.Advances) :
      Keeps (Passing C start) (liftM run : PassM α) := Passing.lift (h (C.ahead start))
  have hjudge (e : Expr) : Keeps (Passing C start) ((design.visitor host cx).judge e) := by
    cases e with
    | call id ty op receiver arguments =>
      refine (transformerOf_observes hdesign op).bind (fun made hmade => ?_) fun _ _ => trivial
      cases made with
      | none => exact Keeps.pure
      | some made =>
        have hexpand := hmade made rfl
        exact Keeps.bind (Passing.lift fun t ht => ⟨C.trans ht (hexpand _ _ _ _ t), trivial⟩)
          fun _ => Keeps.pure
    | _ => exact Keeps.pure
  exact (Visitor.walkFn_upholds (R := fun _ _ => True) hlift fun d _ =>
    Visitor.apply_keeps (P := fun _ => True) hlift (fun e _ => hjudge e)
      (Expr.all_of_forall (fun _ => trivial) d)).keeps

end ExpanderDesign

/-! ## Builds -/

section

variable {start : Session} {hooks : Hooks}

theorem SessionM.lift_goes {α : Type} {run : RunM α} (h : run.Advances) :
    Keeps (start.Goes C) (liftM run : SessionM α) :=
  fun s hs => ⟨⟨(h (C.ahead start.trail) s.trail hs.trail).1, hs.filled, hs.observes⟩, trivial⟩

theorem SessionM.expandLambda_goes (id : ExpanderId) (f : Lambda) (cx : BuildContext) :
    Keeps (start.Goes C) (SessionM.expandLambda hooks id f cx) := by
  refine SessionM.pass_upholds trivial fun s expander hs hfound r t cache hrun => ⟨?_, trivial⟩
  have hexpander := hs.observes expander (List.mem_of_getElem? hfound)
  have hpass : Keeps (ExpanderDesign.Passing C start.trail)
      (expander.design.expandLambda (s.host hooks) f cx) :=
    ExpanderDesign.expandLambda_passing hexpander.design _ _ _
  obtain ⟨⟨htrail, hcache⟩, -⟩ := hpass (s.trail, expander.cache) ⟨hs.trail, hexpander.cache⟩
  rw [hrun] at htrail hcache
  refine ⟨htrail, hs.filled, fun other hother => ?_⟩
  rcases List.mem_or_eq_of_mem_set hother with hother | rfl
  · exact hs.observes other hother
  · exact ⟨hexpander.design, hcache⟩

theorem LambdaTransformer.Observes.goes {transform : LambdaTransformer}
    (h : LambdaTransformer.Observes transform C) (f : Lambda) (cx : BuildContext) :
    Keeps (start.Goes C) (transform f cx) :=
  fun s hs => ⟨hs.trans (h f cx s hs.observes), trivial⟩

theorem Pipeline.apply_goes {pipeline : Pipeline} (hpipeline : pipeline.Observes C) (f : Lambda)
    (cx : BuildContext) : Keeps (start.Goes C) (pipeline.apply hooks f cx) := by
  have fold {transforms : List LambdaTransformer}
      (h : ∀ transform ∈ transforms, LambdaTransformer.Observes transform C) (f : Lambda) :
      Keeps (start.Goes C) (transforms.foldlM (fun f transform => transform f cx) f) := by
    induction transforms generalizing f with
    | nil => exact .pure
    | cons transform rest ih =>
      rw [List.foldlM_cons]
      exact ((h transform List.mem_cons_self).goes f cx).bind
        (ih fun other hother => h other (List.mem_cons_of_mem _ hother))
  exact (fold (fun _ => hpipeline.before) f).bind fun g =>
    (SessionM.expandLambda_goes _ g cx).bind (fold fun _ => hpipeline.after)

/-- The mapper was built by this pipeline from this expression, and it has this identity. -/
structure BuiltMapper.IsBuilt (built : BuiltMapper) (id : MapperId) (f : Lambda)
    (pipeline : Pipeline) : Prop where
  id_eq : built.mapper.id = id
  given_eq : built.mapper.given = f
  pipeline_eq : built.pipeline = pipeline

variable {id : MapperId} {f : Lambda} {pipeline : Pipeline}

/-- A build goes on along the course that the hooks observe, and fills no reference. -/
theorem BuiltMapper.build_upholds (hpipeline : pipeline.Observes C) (hooks : Hooks)
    (id : MapperId) (f : Lambda) :
    Upholds (start.Goes C) (build hooks id f pipeline) fun r =>
      ∀ built, r = .ok built → built.IsBuilt id f pipeline := by
  rcases build_cases hooks id f pipeline with ⟨p, -, hbuild⟩ | ⟨fault, hbuild⟩ <;> rw [hbuild]
  · refine Upholds.bind (Pipeline.apply_goes hpipeline f _) (fun e _ => .pure ?_) fun _ _ => nofun
    rintro built ⟨⟩
    exact ⟨rfl, rfl, rfl⟩
  · exact .throw nofun

/-- A build that fails leaves what its pipeline has left, if that has been at work at all. -/
theorem BuiltMapper.build_leaves {s s' : Session} {fault : Fault}
    (hrun : outcome (build hooks id f pipeline) s = (.error fault, s')) :
    s' = s ∨ outcome (pipeline.apply hooks f (.ofMapper id f)) s = (.error fault, s') := by
  rcases build_cases hooks id f pipeline with ⟨p, -, hbuild⟩ | ⟨_, hbuild⟩ <;> rw [hbuild] at hrun
  · rcases happly : outcome (pipeline.apply hooks f (.ofMapper id f)) s with ⟨fault' | e, s₁⟩
    · rw [outcome_bind_of_error happly] at hrun
      cases hrun
      exact .inr rfl
    · rw [outcome_bind_of_ok happly] at hrun
      cases hrun
  · exact .inl (Prod.mk.inj hrun).2.symm

end

end ObjectMapping
