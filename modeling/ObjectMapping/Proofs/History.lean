import ObjectMapping.Proofs.Expansions
import ObjectMapping.Proofs.Filling

/-!
# Runs that build mappers

A program writes lambdas, makes expanders and references, and builds mappers and fills references
one after another. `Session.Reached` says which sessions it comes to, and with what `History` : the
lambdas, mappers and references made so far. A build may fail, and the program goes on.

Runs differ in what a build may be given, which is the `Admission` they are taken under.
`Session.Reached.sound` is what all of them keep whose expressions call ordinary operations only :
operations that are built in, or unmarked and of another key than the built-in ones.
-/

namespace ObjectMapping

open RunM

/-! ## Ordinary operations -/

namespace Operation

/-- The operations that carry the markers of the built-in transformers. -/
def builtIns : List Operation :=
  [includeGiven, includeResolved, mapWith, mapAllWith, map]

/-- The operation is built in, or it is unmarked and no built-in one has its key. -/
def Ordinary (op : Operation) : Prop :=
  op ∈ builtIns ∨ op.markers = [] ∧ ∀ b ∈ builtIns, op.signature ≠ b.signature

theorem Ordinary.markers_eq {op op' : Operation} (h : op.Ordinary) (h' : op'.Ordinary)
    (hsignature : op.signature = op'.signature) : op.markers = op'.markers := by
  have builtIn : ∀ a ∈ builtIns, ∀ b ∈ builtIns, a.signature = b.signature → a = b := by decide
  rcases h with h | ⟨h, hne⟩ <;> rcases h' with h' | ⟨h', hne'⟩
  · rw [builtIn _ h _ h' hsignature]
  · exact absurd hsignature.symm (hne' _ h)
  · exact absurd hsignature (hne _ h')
  · rw [h, h']

theorem Ordinary.not_custom {op : Operation} (h : op.Ordinary) (name : String) :
    op.markers ≠ [.custom name] := by
  rcases h with h | ⟨h, -⟩
  · simp only [builtIns, List.mem_cons, List.not_mem_nil, or_false] at h
    rcases h with rfl | rfl | rfl | rfl | rfl <;> nofun
  · simp [h]

end Operation

/-! ## Passes over ordinary calls -/

namespace ExpanderDesign

variable {design : ExpanderDesign} {host : Host} {cx : BuildContext} {f f' : Lambda}
  {F : Forest} {s s' : Trail × TransformerCache}

/-- A pass over ordinary calls keeps what a pass should, whether it ends with a result or not. -/
theorem expandLambda_keeps (start : Trail) (hf : f.All (Expr.CallsIn Operation.Ordinary)) :
    Keeps (design.Kept Operation.Ordinary (Trail.Course.growing.ahead start))
      (design.expandLambda host f cx) := by
  have hlift {α : Type} {run : RunM α} (h : run.Advances) :
      Keeps (design.Kept Operation.Ordinary (Trail.Course.growing.ahead start))
        (liftM run : PassM α) :=
    Kept.lift (h (Trail.Course.growing.ahead start))
  refine (Visitor.walkFn_upholds (R := fun _ _ => True) hlift fun d hd => ?_).keeps
  refine Visitor.apply_keeps hlift (fun e he => ?_) (hf d hd)
  refine judge_keeps Operation.Ordinary.markers_eq he fun hcall hmakes => ?_
  cases hmakes with | some hmarkers hexpand =>
  refine Marker.transformer_keeps (I := Trail.Course.growing.ahead start) (fun name h => ?_) hexpand
    (fun resolver _ request t ht => ht.trans (resolver.grows host request t)) _ _ _
  exact (he _ (by rw [hcall, Expr.operation?])).not_custom name (h ▸ hmarkers)

/-- A call whose operand is a constant, and that takes one of some lambdas. -/
structure Operable (design : ExpanderDesign) (host : Host) (fs : List Lambda) (e : Expr) :
    Prop where
  calls : e.CallsIn Operation.Ordinary
  operand {d : Expr} : e.operand? = some d → ∃ i ty v, d = .constant i ty v
  known {g : Lambda} : e.Takes host design.settings.resolvers g → g ∈ fs

theorem Operable.calls_all {fs : List Lambda} (h : f.All (design.Operable host fs)) :
    f.All (Expr.CallsIn Operation.Ordinary) :=
  fun d hd => (h d hd).imp fun _ he => he.calls

/-- What a pass over ordinary calls makes of a lambda. -/
theorem expandLambda_expands {fs : List Lambda} (hfs : ∀ g ∈ fs, F.fns g) (hf : f ∈ fs)
    (hall : f.All (design.Operable host fs)) (hF : F.Below s.1.next)
    (hcache : design.Caches Operation.Ordinary s.2)
    (h : outcome (design.expandLambda host f cx) s = (.ok f', s')) :
    f.Becomes (.expanding host design.settings.resolvers) f' ∧
      ∃ G, F ≤ G ∧ G.Below s'.1.next ∧ G.fns f' := by
  have hfollows : (design.visitor host cx).Follows (fun s => design.Caches Operation.Ordinary s.2)
      (F.within (design.Operable host fs)) F (.expanding host design.settings.resolvers) :=
    visitor_follows_expanding (F.within_le _) Operation.Ordinary.markers_eq
      (fun _ h => h.not_custom) (fun _ he => he.2.head.calls)
      (fun _ he _ hd => he.2.head.operand hd) fun _ he _ hg => hfs _ (he.2.head.known hg)
  obtain ⟨-, G, hFG, hG, hf', hbecomes⟩ := hfollows.walkFn F.le_refl ⟨hfs f hf, hall⟩ hF hcache h
  exact ⟨hbecomes, G, hFG, hG, hf'⟩

end ExpanderDesign

/-! ## Runs -/

/-- What a program has made so far. -/
structure History where
  lambdas : List Lambda
  mappers : List Mapper
  references : List MapperReference

/-- Which expressions a build may be given by way of an expander. -/
abbrev Admission := History → Host → ExpanderDesign → Lambda → Prop

namespace Session

/-- A mapper is built or a reference filled, by a pipeline of an expander alone : what it comes to,
and the session that it leaves. -/
inductive Builds (h : History) (hooks : Hooks) (id : ExpanderId) (f : Lambda) (s : Session) :
    Except Fault BuiltMapper → Session → Prop
  | make {r : Except Fault BuiltMapper} {s' : Session} :
    outcome (BuiltMapper.make hooks f { expander := id }) s = (r, s') → Builds h hooks id f s r s'
  | fill {ref : MapperReference} {r : Except Fault BuiltMapper} {s' : Session} :
    ref ∈ h.references →
    outcome (PlannedMapper.fill hooks ⟨ref, { expander := id }⟩ f) s = (r, s') →
    Builds h hooks id f s r s'

/-- The sessions that a program comes to, with what it has made. All lambdas that are there after it
has written some are made of nodes of one forest, below the next identity. -/
inductive Reached (admits : Admission) : History → Session → Prop
  | start (custom : CustomTransformers) : Reached admits ⟨[], [], []⟩ (.start custom)
  | write {h : History} {s : Session} {fs : List Lambda} {F : Forest} {t : Trail} :
    Reached admits h s → (∀ f ∈ fs ++ h.lambdas, F.fns f) → F.Below t.next → s.trail.Grows t →
    Reached admits { h with lambdas := fs ++ h.lambdas } { s with trail := t }
  | addExpander {h : History} {s s' : Session} {design : ExpanderDesign} {id : ExpanderId} :
    Reached admits h s → outcome (SessionM.addExpander design) s = (.ok id, s') →
    Reached admits h s'
  | refer {h : History} {s s' : Session} {input output : Ty} {pipeline : Pipeline}
      {planned : PlannedMapper} : Reached admits h s →
    outcome (PlannedMapper.make input output pipeline) s = (.ok planned, s') →
    Reached admits { h with references := planned.ref :: h.references } s'
  | build {h : History} {s s' : Session} {hooks : Hooks} {id : ExpanderId} {expander : Expander}
      {f : Lambda} {built : BuiltMapper} : Reached admits h s →
    s.expanders[id]? = some expander → f ∈ h.lambdas →
    admits h (s.host hooks) expander.design f → s.Builds h hooks id f (.ok built) s' →
    Reached admits
      ⟨built.mapper.expression :: h.lambdas, built.mapper :: h.mappers, h.references⟩ s'
  | failure {h : History} {s s' : Session} {hooks : Hooks} {id : ExpanderId} {expander : Expander}
      {f : Lambda} {fault : Fault} : Reached admits h s →
    s.expanders[id]? = some expander → f ∈ h.lambdas →
    admits h (s.host hooks) expander.design f → s.Builds h hooks id f (.error fault) s' →
    Reached admits h s'

end Session

/-! ## Builds -/

/-- A pipeline without transformers of whole expressions is the pass of its expander. -/
theorem Pipeline.apply_eq (hooks : Hooks) (id : ExpanderId) (f : Lambda) (cx : BuildContext) :
    Pipeline.apply hooks { expander := id } f cx = SessionM.expandLambda hooks id f cx := by
  simp only [Pipeline.apply, List.foldlM_nil, pure_bind, bind_pure]

namespace Session

variable {h : History} {hooks : Hooks} {id : ExpanderId} {f : Lambda} {s s' : Session}

/-- A build by a pass of an expander : it fails before the pass, or in it, or it ends with the
mapper whose final expression the pass has made. -/
inductive Passes (hooks : Hooks) (expander : Expander) (id : ExpanderId) (f : Lambda)
    (s : Session) : Except Fault BuiltMapper → Session → Prop
  | refused {fault : Fault} : Passes hooks expander id f s (.error fault) s
  | failed {i : MapperId} {fault : Fault} {t : Trail} {cache : TransformerCache} :
    outcome (expander.design.expandLambda (s.host hooks) f (.ofMapper i f))
      (s.trail, expander.cache) = (.error fault, t, cache) →
    Passes hooks expander id f s (.error fault)
      { s with trail := t, expanders := s.expanders.set id { expander with cache } }
  | ended {i : MapperId} {p : Param} {f' : Lambda} {t : Trail} {cache : TransformerCache} :
    f.params = [p] →
    outcome (expander.design.expandLambda (s.host hooks) f (.ofMapper i f))
      (s.trail, expander.cache) = (.ok f', t, cache) →
    Passes hooks expander id f s (.ok ⟨⟨i, p.ty, f.returnTy, f, f'⟩, { expander := id }⟩)
      { s with trail := t, expanders := s.expanders.set id { expander with cache } }

theorem outcome_expandLambda {expander : Expander} {cx : BuildContext} {r : Except Fault Lambda}
    {t : Trail} {cache : TransformerCache} (hexpander : s.expanders[id]? = some expander)
    (hrun : outcome (expander.design.expandLambda (s.host hooks) f cx) (s.trail, expander.cache) =
      (r, t, cache)) :
    outcome (SessionM.expandLambda hooks id f cx) s =
      (r, { s with trail := t, expanders := s.expanders.set id { expander with cache } }) := by
  unfold SessionM.expandLambda
  exact SessionM.outcome_pass hexpander hrun

/-- A build is a pass of its expander. -/
theorem passes_of_build {expander : Expander} {i : MapperId} {r : Except Fault BuiltMapper}
    (hexpander : s.expanders[id]? = some expander)
    (hrun : outcome (BuiltMapper.build hooks i f { expander := id }) s = (r, s')) :
    Passes hooks expander id f s r s' := by
  rcases BuiltMapper.build_cases hooks i f { expander := id } with ⟨p, hp, hbuild⟩ | ⟨_, hbuild⟩ <;>
    rw [hbuild] at hrun
  · rw [Pipeline.apply_eq] at hrun
    rcases hpass : outcome (expander.design.expandLambda (s.host hooks) f (.ofMapper i f))
      (s.trail, expander.cache) with ⟨fault | f', t, cache⟩
    · have hexpand := outcome_expandLambda hexpander hpass
      obtain ⟨rfl, rfl⟩ := Prod.mk.inj ((outcome_bind_of_error hexpand).symm.trans hrun)
      exact .failed hpass
    · have hexpand := outcome_expandLambda hexpander hpass
      obtain ⟨rfl, rfl⟩ := Prod.mk.inj ((outcome_bind_of_ok hexpand).symm.trans hrun)
      exact .ended hp hpass
  · obtain ⟨rfl, rfl⟩ := Prod.mk.inj hrun
    exact .refused

theorem Passes.filled_eq {expander : Expander} {r : Except Fault BuiltMapper}
    (h : Passes hooks expander id f s r s') : s'.filled = s.filled := by
  cases h <;> rfl

/-- A new mapper is a pass, with the next identity taken, and it is put down if the pass ends. -/
theorem passes_of_make {expander : Expander} {r : Except Fault BuiltMapper}
    (hexpander : s.expanders[id]? = some expander)
    (hrun : outcome (BuiltMapper.make hooks f { expander := id }) s = (r, s')) :
    ∃ s₁, Passes hooks expander id f { s with trail := s.trail.taken } r s₁ ∧
      (s' = s₁ ∨ ∃ handle, s' = { s₁ with trail := s₁.trail.entered handle }) := by
  cases BuiltMapper.made_of_make hrun with
  | failed hbuild => exact ⟨_, passes_of_build hexpander hbuild, .inl rfl⟩
  | ended hbuild => exact ⟨_, passes_of_build hexpander hbuild, .inr ⟨_, rfl⟩⟩

/-- A reference that is filled is a pass whose mapper is put down for the reference. -/
theorem passes_of_fill {expander : Expander} {ref : MapperReference}
    {r : Except Fault BuiltMapper} (hexpander : s.expanders[id]? = some expander)
    (hrun : outcome (PlannedMapper.fill hooks ⟨ref, { expander := id }⟩ f) s = (r, s')) :
    ∃ s₁, Passes hooks expander id f s r s₁ ∧
      ((∃ fault, r = .error fault ∧ s' = s₁) ∨
        ∃ built, r = .ok built ∧ s' = { s₁ with filled := s₁.filled ++ [(ref.id, built.mapper)] } ∧
          built.mapper.input = ref.input ∧ built.mapper.output = ref.output) := by
  cases PlannedMapper.fills_of_fill hrun with
  | refused => exact ⟨_, .refused, .inl ⟨_, rfl, rfl⟩⟩
  | failed hbuild => exact ⟨_, passes_of_build hexpander hbuild, .inl ⟨_, rfl, rfl⟩⟩
  | forestalled hnone hbuild hfound =>
    rw [(passes_of_build hexpander hbuild).filled_eq, hnone] at hfound
    cases hfound
  | ended _ hinput houtput hbuild _ =>
    have hpasses := passes_of_build hexpander hbuild
    refine ⟨_, hpasses, .inr ⟨_, rfl, rfl, ?_⟩⟩
    cases hpasses with
    | ended hp _ =>
      rw [Lambda.paramTys, hp] at hinput
      exact ⟨List.singleton_inj.1 hinput, houtput⟩

/-! ## What every run keeps -/

/-- What every expander has cached for ordinary operations was made for operations like them. -/
def CachesOrdinary (s : Session) : Prop :=
  ∀ (id : ExpanderId) (expander : Expander), s.expanders[id]? = some expander →
    expander.design.Caches Operation.Ordinary expander.cache

/-- The lambdas, the final expressions of the mappers among them, are made of nodes of one forest
below the next identity, references have identities of their own, and a filled reference has a
mapper that was built between the types that it declares. -/
structure Sound (h : History) (s : Session) : Prop where
  forest : ∃ F : Forest, F.Below s.trail.next ∧ ∀ f ∈ h.lambdas, F.fns f
  expression {m : Mapper} : m ∈ h.mappers → m.expression ∈ h.lambdas
  reference {ref : MapperReference} : ref ∈ h.references → ref.id < s.trail.register.nextMapper
  reference_eq {ref ref' : MapperReference} : ref ∈ h.references → ref' ∈ h.references →
    ref.id = ref'.id → ref = ref'
  filled {i : MapperId} {m : Mapper} : (i, m) ∈ s.filled → m ∈ h.mappers ∧
    ∃ ref ∈ h.references, ref.id = i ∧ m.input = ref.input ∧ m.output = ref.output
  caches : s.CachesOrdinary

theorem CachesOrdinary.set (hs : s.CachesOrdinary) {expander : Expander} {t : Trail}
    {cache : TransformerCache} (hcache : expander.design.Caches Operation.Ordinary cache) :
    CachesOrdinary
      { s with trail := t, expanders := s.expanders.set id { expander with cache } } := by
  intro i other hother
  rw [List.getElem?_set] at hother
  split at hother
  · split at hother
    · obtain rfl := Option.some.inj hother
      exact hcache
    · cases hother
  · exact hs i other hother

/-- A pass over ordinary calls gives no identity back. -/
theorem Passes.keeps {expander : Expander} {r : Except Fault BuiltMapper}
    (hexpander : s.expanders[id]? = some expander) (hs : s.CachesOrdinary)
    (hf : f.All (Expr.CallsIn Operation.Ordinary)) (h : Passes hooks expander id f s r s') :
    s.trail.Grows s'.trail ∧ s'.CachesOrdinary := by
  have pass {cx : BuildContext} {r : Except Fault Lambda} {t : Trail} {cache : TransformerCache}
      (hrun : outcome (expander.design.expandLambda (s.host hooks) f cx)
        (s.trail, expander.cache) = (r, t, cache)) :
      s.trail.Grows t ∧ expander.design.Caches Operation.Ordinary cache := by
    have hkeeps : Keeps
        (expander.design.Kept Operation.Ordinary (Trail.Course.growing.ahead s.trail))
        (expander.design.expandLambda (s.host hooks) f cx) :=
      ExpanderDesign.expandLambda_keeps s.trail hf
    have hkept := (hkeeps (s.trail, expander.cache) ⟨.refl _, hs id expander hexpander⟩).1
    rwa [hrun] at hkept
  cases h with
  | refused => exact ⟨.refl _, hs⟩
  | failed hrun => exact ⟨(pass hrun).1, hs.set (pass hrun).2⟩
  | ended _ hrun => exact ⟨(pass hrun).1, hs.set (pass hrun).2⟩

/-- A build is a pass, by which no reference is filled but the one that the build is for. -/
theorem Builds.passes {expander : Expander} {r : Except Fault BuiltMapper}
    (hexpander : s.expanders[id]? = some expander) (hb : s.Builds h hooks id f r s') :
    ∃ s₀ s₁, Passes hooks expander id f s₀ r s₁ ∧ s.trail.Grows s₀.trail ∧
      s₀.expanders = s.expanders ∧ s₀.filled = s.filled ∧ s'.trail.next = s₁.trail.next ∧
      s'.trail.register.nextMapper = s₁.trail.register.nextMapper ∧
      s'.expanders = s₁.expanders ∧
      (s'.filled = s₁.filled ∨ ∃ built ref, r = .ok built ∧ ref ∈ h.references ∧
        s'.filled = s₁.filled ++ [(ref.id, built.mapper)] ∧ built.mapper.input = ref.input ∧
        built.mapper.output = ref.output) := by
  have taken : s.trail.Grows s.trail.taken := .attempt (.refl _)
  cases hb with
  | make hrun =>
    obtain ⟨s₁, hpasses, rfl | ⟨handle, rfl⟩⟩ := passes_of_make hexpander hrun <;>
      exact ⟨_, _, hpasses, taken, rfl, rfl, rfl, rfl, rfl, .inl rfl⟩
  | fill href hrun =>
    obtain ⟨s₁, hpasses, ⟨fault, -, rfl⟩ | ⟨built, hr, rfl, hinput, houtput⟩⟩ :=
      passes_of_fill hexpander hrun
    · exact ⟨s, s', hpasses, .refl _, rfl, rfl, rfl, rfl, rfl, .inl rfl⟩
    · exact ⟨s, s₁, hpasses, .refl _, rfl, rfl, rfl, rfl, rfl,
        .inr ⟨built, _, hr, href, rfl, hinput, houtput⟩⟩

/-- A build over ordinary calls gives no identity back, and it fills at most a reference that it was
made for, with the mapper that it ends with. -/
theorem Builds.keeps {expander : Expander} {r : Except Fault BuiltMapper}
    (hexpander : s.expanders[id]? = some expander) (hs : s.CachesOrdinary)
    (hf : f.All (Expr.CallsIn Operation.Ordinary)) (hb : s.Builds h hooks id f r s') :
    s.trail.next ≤ s'.trail.next ∧ s.trail.register.nextMapper ≤ s'.trail.register.nextMapper ∧
      s'.CachesOrdinary ∧
      (s'.filled = s.filled ∨ ∃ built ref, r = .ok built ∧ ref ∈ h.references ∧
        s'.filled = s.filled ++ [(ref.id, built.mapper)] ∧ built.mapper.input = ref.input ∧
        built.mapper.output = ref.output) := by
  obtain ⟨s₀, s₁, hpasses, hgrows, hexpanders, hfilled, hnext, hnextMapper, hexpanders', hfills⟩ :=
    hb.passes hexpander
  obtain ⟨hgrows', hcaches⟩ := hpasses.keeps (hexpanders ▸ hexpander)
    (fun i other hother => hs i other (hexpanders ▸ hother)) hf
  have hgrown := hgrows.trans hgrows'
  rw [hpasses.filled_eq, hfilled] at hfills
  exact ⟨hnext ▸ hgrown.next_le, hnextMapper ▸ hgrown.nextMapper_le,
    fun i other hother => hcaches i other (hexpanders' ▸ hother), hfills⟩

/-- The mapper of a filled reference was built in the run, between the types that a reference of the
run declares. -/
theorem Sound.filled_mem (hs : s.Sound h) {ref : MapperReference} {m : Mapper}
    (hm : (s.host hooks).filled ref.id = some m) : m ∈ h.mappers ∧
      (ref ∈ h.references → m.input = ref.input ∧ m.output = ref.output) := by
  obtain ⟨before, after, hmem, -⟩ := List.lookup_eq_some_iff.1 hm
  obtain ⟨hmapper, ref', href', hid, hinput, houtput⟩ :=
    hs.filled (i := ref.id) (m := m) (by rw [hmem]; simp)
  refine ⟨hmapper, fun href => ?_⟩
  obtain rfl := hs.reference_eq href' href hid
  exact ⟨hinput, houtput⟩

/-- What a build that ends has made of the lambda that it was given. -/
theorem Builds.becomes {expander : Expander} {built : BuiltMapper} (hs : s.Sound h)
    (hexpander : s.expanders[id]? = some expander) (hf : f ∈ h.lambdas)
    (hall : f.All (expander.design.Operable (s.host hooks) h.lambdas))
    (hb : s.Builds h hooks id f (.ok built) s') :
    (built.mapper.given = f ∧ built.mapper.output = f.returnTy ∧
      f.Becomes (.expanding (s.host hooks) expander.design.settings.resolvers)
        built.mapper.expression) ∧
      ∃ F : Forest, F.Below s'.trail.next ∧
        ∀ g ∈ built.mapper.expression :: h.lambdas, F.fns g := by
  obtain ⟨s₀, s₁, hpasses, hgrows, -, hfilled, hnext, -⟩ := hb.passes hexpander
  obtain ⟨F, hF, hfs⟩ := hs.forest
  have hhost : s₀.host hooks = s.host hooks := by
    unfold host
    rw [hfilled]
  cases hpasses with
  | ended hp hrun =>
    rw [hhost] at hrun
    obtain ⟨hbecomes, G, hFG, hG, hfn⟩ := ExpanderDesign.expandLambda_expands hfs hf hall
      (hF.mono hgrows.next_le) (hs.caches id expander hexpander) hrun
    refine ⟨⟨rfl, rfl, hbecomes⟩, G, by rwa [hnext], fun g hg => ?_⟩
    rcases List.mem_cons.1 hg with rfl | hg
    · exact hfn
    · exact hFG.2 _ (hfs g hg)

theorem sound_start (custom : CustomTransformers) : (Session.start custom).Sound ⟨[], [], []⟩ := by
  refine ⟨⟨.ofLists [] [] .nil .nil nofun nofun nofun nofun, Forest.below_ofLists nofun nofun,
    nofun⟩, nofun, nofun, nofun, nofun, fun i expander hexpander => ?_⟩
  have hstart : (⟨⟨{}, custom⟩, []⟩ : Expander) = expander := by
    cases i with
    | zero => exact Option.some.inj hexpander
    | succ i => cases hexpander
  subst hstart
  exact @ExpanderDesign.caches_nil _ _

/-- A new expander has an empty cache. -/
theorem Sound.addExpander (hs : s.Sound h) {design : ExpanderDesign}
    (hrun : outcome (SessionM.addExpander design) s = (.ok id, s')) : s'.Sound h := by
  obtain ⟨-, rfl⟩ := Prod.mk.inj hrun
  refine ⟨hs.forest, hs.expression, hs.reference, hs.reference_eq, hs.filled, ?_⟩
  intro i expander hexpander
  rcases Nat.lt_or_ge i s.expanders.length with hi | hi
  · exact hs.caches i expander (by rwa [List.getElem?_append_left hi] at hexpander)
  · rw [List.getElem?_append_right hi] at hexpander
    have hnew : (⟨design, []⟩ : Expander) = expander := by
      cases hj : i - s.expanders.length with
      | zero => rw [hj] at hexpander; exact Option.some.inj hexpander
      | succ j => rw [hj] at hexpander; cases hexpander
    subst hnew
    exact @ExpanderDesign.caches_nil _ _

/-- A new reference has an identity that no other one has. -/
theorem Sound.refer (hs : s.Sound h) {input output : Ty} {pipeline : Pipeline}
    {planned : PlannedMapper}
    (hrun : outcome (PlannedMapper.make input output pipeline) s = (.ok planned, s')) :
    s'.Sound { h with references := planned.ref :: h.references } := by
  obtain ⟨hplanned, rfl⟩ := Prod.mk.inj hrun
  obtain rfl := Except.ok.inj hplanned
  refine ⟨hs.forest, hs.expression, fun {ref} href => ?_, fun {ref ref'} href href' hid => ?_,
    fun hfilled => ?_, hs.caches⟩
  · rcases List.mem_cons.1 href with rfl | href
    · exact Nat.lt_succ_self _
    · exact Nat.lt_succ_of_lt (hs.reference href)
  · rcases List.mem_cons.1 href with rfl | href <;> rcases List.mem_cons.1 href' with rfl | href'
    · rfl
    · exact absurd hid.symm (Nat.ne_of_lt (hs.reference href'))
    · exact absurd hid (Nat.ne_of_lt (hs.reference href))
    · exact hs.reference_eq href href' hid
  · obtain ⟨hm, ref, href, hdeclared⟩ := hs.filled hfilled
    exact ⟨hm, ref, List.mem_cons_of_mem _ href, hdeclared⟩

section

variable {expander : Expander} (hexpander : s.expanders[id]? = some expander)
  (hall : f.All (expander.design.Operable (s.host hooks) h.lambdas))

include hexpander hall

/-- A build that ends adds its mapper, and fills no reference but with that. -/
theorem Sound.build (hs : s.Sound h) {built : BuiltMapper} (hf : f ∈ h.lambdas)
    (hb : s.Builds h hooks id f (.ok built) s') : s'.Sound
      ⟨built.mapper.expression :: h.lambdas, built.mapper :: h.mappers, h.references⟩ := by
  obtain ⟨-, hnext, hcaches, hfills⟩ := hb.keeps hexpander hs.caches
    (ExpanderDesign.Operable.calls_all hall)
  refine ⟨(hb.becomes hs hexpander hf hall).2, fun hm => ?_,
    fun href => Nat.lt_of_lt_of_le (hs.reference href) hnext, hs.reference_eq,
    fun {i m} hfilled => ?_, hcaches⟩
  · rcases List.mem_cons.1 hm with rfl | hm
    · exact List.mem_cons_self
    · exact List.mem_cons_of_mem _ (hs.expression hm)
  · have old (hold : (i, m) ∈ s.filled) :=
      (hs.filled hold).imp_left (List.mem_cons_of_mem built.mapper)
    rcases hfills with hsame | ⟨built, ref, hbuilt, href, hfill, hinput, houtput⟩
    · exact old (hsame ▸ hfilled)
    · obtain rfl := Except.ok.inj hbuilt
      rcases List.mem_append.1 (hfill ▸ hfilled) with hold | hnew
      · exact old hold
      · obtain ⟨rfl, rfl⟩ := Prod.mk.inj (List.mem_singleton.1 hnew)
        exact ⟨List.mem_cons_self, ref, href, rfl, hinput, houtput⟩

/-- A build that fails adds nothing, and fills no reference. -/
theorem Sound.failure (hs : s.Sound h) {fault : Fault}
    (hb : s.Builds h hooks id f (.error fault) s') : s'.Sound h := by
  obtain ⟨htrail, hnext, hcaches, hfills⟩ :=
    hb.keeps hexpander hs.caches (ExpanderDesign.Operable.calls_all hall)
  obtain ⟨F, hF, hfs⟩ := hs.forest
  refine ⟨⟨F, hF.mono htrail, hfs⟩, hs.expression,
    fun href => Nat.lt_of_lt_of_le (hs.reference href) hnext, hs.reference_eq,
    fun hfilled => ?_, hcaches⟩
  rcases hfills with hsame | ⟨_, _, hbuilt, -⟩
  · exact hs.filled (hsame ▸ hfilled)
  · cases hbuilt

end

/-- Every run is sound that builds from ordinary calls of what it has made. -/
theorem Reached.sound {admits : Admission}
    (hadmits : ∀ {h : History} {s : Session} {hooks : Hooks} {design : ExpanderDesign} {f : Lambda},
      s.Sound h → admits h (s.host hooks) design f →
        f.All (design.Operable (s.host hooks) h.lambdas))
    (hr : s.Reached admits h) : s.Sound h := by
  induction hr with
  | start custom => exact sound_start custom
  | write _ hfs hF hgrows ih =>
    exact ⟨⟨_, hF, hfs⟩, fun hm => List.mem_append_right _ (ih.expression hm),
      fun href => Nat.lt_of_lt_of_le (ih.reference href) hgrows.nextMapper_le, ih.reference_eq,
      ih.filled, ih.caches⟩
  | addExpander _ hrun ih => exact ih.addExpander hrun
  | refer _ hrun ih => exact ih.refer hrun
  | build _ hexpander hf hadmitted hb ih => exact ih.build hexpander (hadmits ih hadmitted) hf hb
  | failure _ hexpander _ hadmitted hb ih =>
    exact ih.failure hexpander (hadmits ih hadmitted) hb

end Session

end ObjectMapping
