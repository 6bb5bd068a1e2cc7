import ObjectMapping.Proofs.Run
import ObjectMapping.Session.Mapper

/-!
# Building mappers and filling references

A new mapper is put down if its build ends (`BuiltMapper.Made`). A reference that is filled refuses
an expression, and so it does with one that has other types than it declares. Everything else is
left to the build : a reference is filled if it ends, unless a hook has filled it meanwhile. `Fills`
tells these cases apart, so that what is said of a filled reference is said of a build.
-/

namespace ObjectMapping

open RunM

/-! ## Steps of a session -/

namespace SessionM

theorem lift_pure {α : Type} (a : α) : (liftM (pure a : RunM α) : SessionM α) = pure a :=
  rfl

theorem outcome_filled? (id : MapperId) (s : Session) :
    outcome (filled? id) s = (.ok (s.filled.lookup id), s) :=
  rfl

theorem outcome_fill {id : MapperId} {m : Mapper} {s : Session} (h : s.filled.lookup id = none) :
    outcome (fill id m) s = (.ok (), { s with filled := s.filled ++ [(id, m)] }) := by
  simp only [fill, outcome, h]

theorem outcome_fill_of_filled {id : MapperId} {m m' : Mapper} {s : Session}
    (h : s.filled.lookup id = some m') :
    outcome (fill id m) s = (.error (.failed .alreadyFilled), s) := by
  simp only [fill, outcome, h]

end SessionM

theorem Lambda.mappedTy_of_params {f : Lambda} {p : Param} (hp : f.params = [p]) :
    f.mappedTy = pure p.ty := by
  rw [mappedTy, hp]

theorem Lambda.mappedTy_cases (f : Lambda) :
    (∃ p, f.params = [p] ∧ f.mappedTy = pure p.ty) ∨ ∃ fault, f.mappedTy = reject fault := by
  unfold Lambda.mappedTy
  split
  · rename_i p hp
    exact .inl ⟨p, hp, rfl⟩
  · exact .inr ⟨_, rfl⟩

/-! ## Building -/

/-- A build is refused, or its pipeline makes the final expression. -/
theorem BuiltMapper.build_cases (hooks : Hooks) (id : MapperId) (f : Lambda) (pipeline : Pipeline) :
    (∃ p, f.params = [p] ∧ build hooks id f pipeline = do
      let expression ← pipeline.apply hooks f (.ofMapper id f)
      return ⟨⟨id, p.ty, f.returnTy, f, expression⟩, pipeline⟩) ∨
    ∃ fault : ArgumentFault, build hooks id f pipeline = throw (.failed (.argument fault)) := by
  unfold build
  rcases f.mappedTy_cases with ⟨p, hp, hmapped⟩ | ⟨fault, hmapped⟩
  · exact .inl ⟨p, hp, by rw [hmapped]; rfl⟩
  · exact .inr ⟨fault, by rw [hmapped]; rfl⟩

/-- What comes of building a new mapper : its identity is taken, and it is put down if its build
ends. -/
inductive BuiltMapper.Made (hooks : Hooks) (f : Lambda) (pipeline : Pipeline) (s : Session) :
    Except Fault BuiltMapper → Session → Prop
  | failed {fault : Fault} {s' : Session} :
    outcome (build hooks s.trail.register.nextMapper f pipeline) { s with trail := s.trail.taken } =
      (.error fault, s') → Made hooks f pipeline s (.error fault) s'
  | ended {built : BuiltMapper} {s₁ : Session} :
    outcome (build hooks s.trail.register.nextMapper f pipeline) { s with trail := s.trail.taken } =
      (.ok built, s₁) →
    Made hooks f pipeline s (.ok built)
      { s₁ with trail := s₁.trail.entered (.mapper built.mapper) }

theorem BuiltMapper.made_of_make {hooks : Hooks} {f : Lambda} {pipeline : Pipeline} {s s' : Session}
    {r : Except Fault BuiltMapper} (hrun : outcome (make hooks f pipeline) s = (r, s')) :
    Made hooks f pipeline s r s' := by
  have htaken : outcome (liftM takeMapperId : SessionM MapperId) s =
    (.ok s.trail.register.nextMapper, { s with trail := s.trail.taken }) := rfl
  unfold make at hrun
  rw [outcome_bind_of_ok htaken] at hrun
  rcases hbuild : outcome (build hooks s.trail.register.nextMapper f pipeline)
    { s with trail := s.trail.taken } with ⟨fault | built, s₁⟩
  · rw [outcome_bind_of_error hbuild] at hrun
    obtain ⟨rfl, rfl⟩ := Prod.mk.inj hrun
    exact .failed hbuild
  · rw [outcome_bind_of_ok hbuild] at hrun
    obtain ⟨rfl, rfl⟩ := Prod.mk.inj hrun
    exact .ended hbuild

/-! ## Filling -/

namespace PlannedMapper

variable {hooks : Hooks} {reference : PlannedMapper} {f : Lambda} {s s' s₁ : Session}

/-- A reference is filled once at most. -/
theorem fill_of_filled {m : Mapper} (h : s.filled.lookup reference.ref.id = some m) :
    outcome (reference.fill hooks f) s = (.error (.failed .alreadyFilled), s) := by
  unfold fill
  rw [outcome_bind_of_ok (SessionM.outcome_filled? ..), h]
  rfl

/-- What is left of filling a reference that is not filled yet. -/
theorem fill_of_unfilled (h : s.filled.lookup reference.ref.id = none) :
    outcome (reference.fill hooks f) s = outcome (do
      let input ← f.mappedTy
      if input ≠ reference.ref.input ∨ f.returnTy ≠ reference.ref.output then
        (reject (.declaredTypes input f.returnTy reference.ref.input reference.ref.output) :
          RunM Unit)
      let built ← BuiltMapper.build hooks reference.ref.id f reference.pipeline
      SessionM.fill reference.ref.id built.mapper
      return built : SessionM BuiltMapper) s := by
  unfold fill
  rw [outcome_bind_of_ok (SessionM.outcome_filled? ..), h]
  rfl

/-- An expression of other types does not fill a reference. -/
theorem fill_of_undeclared (hooks : Hooks)
    (h : s.filled.lookup reference.ref.id = none)
    (hty : ¬(f.paramTys = [reference.ref.input] ∧ f.returnTy = reference.ref.output)) :
    ∃ fault, outcome (reference.fill hooks f) s = (.error fault, s) := by
  rw [fill_of_unfilled h]
  rcases f.mappedTy_cases with ⟨p, hp, hmapped⟩ | ⟨fault, hmapped⟩
  · have hne : p.ty ≠ reference.ref.input ∨ f.returnTy ≠ reference.ref.output := by
      refine Classical.not_and_iff_not_or_not.1 fun h => hty ?_
      simpa [Lambda.paramTys, hp] using h
    rw [hmapped, SessionM.lift_pure, pure_bind, if_pos hne]
    exact ⟨_, rfl⟩
  · rw [hmapped]
    exact ⟨_, rfl⟩

/-- An expression of the declared types fills a reference if its build ends. -/
theorem fill_of_declared (h : s.filled.lookup reference.ref.id = none)
    (hinput : f.paramTys = [reference.ref.input]) (houtput : f.returnTy = reference.ref.output) :
    outcome (reference.fill hooks f) s = outcome (do
      let built ← BuiltMapper.build hooks reference.ref.id f reference.pipeline
      SessionM.fill reference.ref.id built.mapper
      return built : SessionM BuiltMapper) s := by
  rw [fill_of_unfilled h]
  obtain ⟨p, hp, hpty⟩ : ∃ p, f.params = [p] ∧ p.ty = reference.ref.input := by
    simpa [Lambda.paramTys, List.map_eq_singleton_iff] using hinput
  rw [Lambda.mappedTy_of_params hp, SessionM.lift_pure, pure_bind,
    if_neg (by simp [hpty, houtput])]

/-- A reference that is not filled yet is filled by every expression of its types whose build ends
and has not filled it, with the mapper that the build ends with. -/
theorem fill_of_build {built : BuiltMapper} (h : s.filled.lookup reference.ref.id = none)
    (hinput : f.paramTys = [reference.ref.input]) (houtput : f.returnTy = reference.ref.output)
    (hbuild : outcome (BuiltMapper.build hooks reference.ref.id f reference.pipeline) s =
      (.ok built, s₁)) (h₁ : s₁.filled.lookup reference.ref.id = none) :
    outcome (reference.fill hooks f) s =
      (.ok built, { s₁ with filled := s₁.filled ++ [(reference.ref.id, built.mapper)] }) := by
  rw [fill_of_declared h hinput houtput, outcome_bind_of_ok hbuild,
    outcome_bind_of_ok (SessionM.outcome_fill h₁)]
  rfl

/-- What comes of an expression for a reference : it is refused, its build fails, the reference has
been filled when the build ends, or it is filled with the mapper that the build ends with. -/
inductive Fills (hooks : Hooks) (reference : PlannedMapper) (f : Lambda) (s : Session) :
    Except Fault BuiltMapper → Session → Prop
  | refused {fault : Fault} : Fills hooks reference f s (.error fault) s
  | failed {fault : Fault} {s' : Session} :
    outcome (BuiltMapper.build hooks reference.ref.id f reference.pipeline) s =
      (.error fault, s') → Fills hooks reference f s (.error fault) s'
  | forestalled {built : BuiltMapper} {m : Mapper} {s₁ : Session} :
    s.filled.lookup reference.ref.id = none →
    outcome (BuiltMapper.build hooks reference.ref.id f reference.pipeline) s =
      (.ok built, s₁) → s₁.filled.lookup reference.ref.id = some m →
    Fills hooks reference f s (.error (.failed .alreadyFilled)) s₁
  | ended {built : BuiltMapper} {s₁ : Session} : s.filled.lookup reference.ref.id = none →
    f.paramTys = [reference.ref.input] → f.returnTy = reference.ref.output →
    outcome (BuiltMapper.build hooks reference.ref.id f reference.pipeline) s =
      (.ok built, s₁) → s₁.filled.lookup reference.ref.id = none →
    Fills hooks reference f s (.ok built)
      { s₁ with filled := s₁.filled ++ [(reference.ref.id, built.mapper)] }

theorem fills_of_fill {r : Except Fault BuiltMapper}
    (hrun : outcome (reference.fill hooks f) s = (r, s')) : Fills hooks reference f s r s' := by
  cases h : s.filled.lookup reference.ref.id with
  | some m =>
    obtain ⟨rfl, rfl⟩ := Prod.mk.inj ((fill_of_filled h).symm.trans hrun)
    exact .refused
  | none =>
    by_cases hty : f.paramTys = [reference.ref.input] ∧ f.returnTy = reference.ref.output
    · obtain ⟨hinput, houtput⟩ := hty
      rcases hbuild : outcome (BuiltMapper.build hooks reference.ref.id f reference.pipeline) s with
        ⟨fault | built, s₁⟩
      · rw [fill_of_declared h hinput houtput, outcome_bind_of_error hbuild] at hrun
        obtain ⟨rfl, rfl⟩ := Prod.mk.inj hrun
        exact .failed hbuild
      · cases h₁ : s₁.filled.lookup reference.ref.id with
        | none =>
          obtain ⟨rfl, rfl⟩ :=
            Prod.mk.inj ((fill_of_build h hinput houtput hbuild h₁).symm.trans hrun)
          exact .ended h hinput houtput hbuild h₁
        | some m =>
          rw [fill_of_declared h hinput houtput, outcome_bind_of_ok hbuild,
            outcome_bind_of_error (SessionM.outcome_fill_of_filled h₁)] at hrun
          obtain ⟨rfl, rfl⟩ := Prod.mk.inj hrun
          exact .forestalled h hbuild h₁
    · obtain ⟨fault, hfault⟩ := fill_of_undeclared hooks h hty
      obtain ⟨rfl, rfl⟩ := Prod.mk.inj (hfault.symm.trans hrun)
      exact .refused

end PlannedMapper

end ObjectMapping
