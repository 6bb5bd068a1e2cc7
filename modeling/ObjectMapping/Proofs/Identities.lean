import Mathlib.Logic.Relation
import ObjectMapping.Proofs.Observing

/-!
# Identities of mappers and references

The register of a session counts the identities that mappers and references take, and has everything
that was made : the references, and the mappers that were built anew, those of hooks among them. A
mapper that is built anew takes the next identity before its build can fail, a reference takes one
when it is made, and the mapper that fills a reference has the identity of the reference.

Hooks may make mappers and references of theirs at any time, in builds that end as in builds that
fail, as long as they act by the steps of a session (`Trail.Course.growing`) and fill no reference.
`Session.Step` is a step of a session, hooks and all, `Session.Step.goes` says what it does to
identities and filled references, and `Session.Numbered` is what every step keeps.
-/

namespace ObjectMapping

open RunM

/-! ## The register -/

/-- Every one of them has an identity of its own, from `n` on and below `k`. -/
structure MapperHandle.Between (n k : MapperId) (handles : List MapperHandle) : Prop where
  nodup : (handles.map MapperHandle.id).Nodup
  range {handle : MapperHandle} : handle ∈ handles → n ≤ handle.id ∧ handle.id < k

namespace MapperHandle.Between

variable {n k l : MapperId} {handle : MapperHandle} {handles handles' : List MapperHandle}

theorem nil : Between n k [] :=
  ⟨.nil, nofun⟩

theorem singleton (h : handle.id = n) : Between n (n + 1) [handle] := by
  refine ⟨List.nodup_singleton _, fun hmem => ?_⟩
  rw [List.mem_singleton.1 hmem, h]
  exact ⟨Nat.le_refl n, Nat.lt_succ_self n⟩

theorem from_le (h : Between n k handles) (hl : l ≤ n) : Between l k handles :=
  ⟨h.nodup, fun hmem => ⟨Nat.le_trans hl (h.range hmem).1, (h.range hmem).2⟩⟩

/-- What comes after is numbered after. -/
theorem append (h : Between n k handles) (h' : Between k l handles') (hnk : n ≤ k) (hkl : k ≤ l) :
    Between n l (handles ++ handles') := by
  refine ⟨?_, fun hmem => ?_⟩
  · rw [List.map_append]
    refine h.nodup.append h'.nodup fun i hi hi' => ?_
    obtain ⟨handle, hmem, rfl⟩ := List.mem_map.1 hi
    obtain ⟨handle', hmem', heq⟩ := List.mem_map.1 hi'
    exact Nat.lt_irrefl _ (heq ▸ Nat.lt_of_lt_of_le (h.range hmem).2 (h'.range hmem').1)
  · rcases List.mem_append.1 hmem with hmem | hmem
    · exact ⟨(h.range hmem).1, Nat.lt_of_lt_of_le (h.range hmem).2 hkl⟩
    · exact ⟨Nat.le_trans hnk (h'.range hmem).1, (h'.range hmem).2⟩

theorem perm (h : Between n k handles) (hperm : handles.Perm handles') : Between n k handles' :=
  ⟨(hperm.map _).nodup_iff.1 h.nodup, fun hmem => h.range (hperm.mem_iff.2 hmem)⟩

end MapperHandle.Between

/-- What is made is put down with identities of its own, which had not been taken. -/
theorem Trail.Grows.made {t u : Trail} (h : t.Grows u) :
    ∃ newer, u.register.made = t.register.made ++ newer ∧
      MapperHandle.Between t.register.nextMapper u.register.nextMapper newer := by
  induction h with
  | work _ _ hmade => exact ⟨[], by rw [hmade, List.append_nil], .nil⟩
  | refer => exact ⟨_, rfl, .singleton rfl⟩
  | @build t u m hid h ih =>
    obtain ⟨newer, hmade, hnewer⟩ := ih
    have hmapper : MapperHandle.Between t.register.nextMapper t.taken.register.nextMapper
      [.mapper m] := .singleton hid
    refine ⟨newer ++ [.mapper m], ?_, ?_⟩
    · change u.register.made ++ [.mapper m] = _
      rw [hmade, List.append_assoc]
      rfl
    -- the mapper took its identity first, and is put down last
    · exact (hmapper.append hnewer (Nat.le_succ _) h.nextMapper_le).perm List.perm_append_comm
  | attempt _ ih =>
    obtain ⟨newer, hmade, hnewer⟩ := ih
    exact ⟨newer, hmade, hnewer.from_le (Nat.le_succ _)⟩
  | trans h h' ih ih' =>
    obtain ⟨newer, hmade, hnewer⟩ := ih
    obtain ⟨newer', hmade', hnewer'⟩ := ih'
    exact ⟨newer ++ newer', by rw [hmade', hmade, List.append_assoc],
      hnewer.append hnewer' h.nextMapper_le h'.nextMapper_le⟩

/-- What is in the register stays there. -/
theorem Trail.Grows.mem_made {t u : Trail} (h : t.Grows u) {handle : MapperHandle}
    (hmem : handle ∈ t.register.made) : handle ∈ u.register.made := by
  obtain ⟨newer, hmade, -⟩ := h.made
  rw [hmade]
  exact List.mem_append_left _ hmem

/-! ## Mappers built anew -/

/-- The run takes identities as hooks do, fills no reference, and puts the mapper down that it ends
with. -/
def BuildsAnew (run : SessionM BuiltMapper) : Prop :=
  ∀ {s s' : Session} {r : Except Fault BuiltMapper}, s.Observes .growing →
    outcome run s = (r, s') → s.Goes .growing s' ∧
      ∀ built, r = .ok built → .mapper built.mapper ∈ s'.trail.register.made

namespace BuiltMapper

theorem make_anew (hooks : Hooks) (f : Lambda) {pipeline : Pipeline}
    (hpipeline : pipeline.Observes .growing) : BuildsAnew (make hooks f pipeline) := by
  intro s s' r hs hrun
  have hbuilds := build_upholds hpipeline hooks s.trail.register.nextMapper f
    { s with trail := s.trail.taken } (.refl hs)
  cases made_of_make hrun with
  | failed hbuild =>
    rw [hbuild] at hbuilds
    obtain ⟨⟨htrail, hfilled, hs'⟩, -⟩ := hbuilds
    exact ⟨⟨.attempt htrail, hfilled, hs'⟩, nofun⟩
  | ended hbuild =>
    rw [hbuild] at hbuilds
    obtain ⟨⟨htrail, hfilled, hs'⟩, hbuilt⟩ := hbuilds
    refine ⟨⟨.build (hbuilt _ rfl).id_eq htrail, hfilled, hs'⟩, ?_⟩
    rintro built ⟨⟩
    exact List.mem_append_right _ (List.mem_singleton_self _)

/-- A run over expressions before the build leaves all identities to it. -/
theorem bind_anew {α : Type} {run : RunM α} {next : α → SessionM BuiltMapper} (hrun : run.Advances)
    (h : ∀ a, BuildsAnew (next a)) : BuildsAnew ((liftM run : SessionM α) >>= next) := by
  intro s s' r hs hall
  have hgoes := (SessionM.lift_goes (C := .growing) hrun s (.refl hs)).1
  rcases hlift : outcome (liftM run : SessionM α) s with ⟨fault | a, s₁⟩ <;> rw [hlift] at hgoes
  · rw [outcome_bind_of_error hlift] at hall
    obtain ⟨rfl, rfl⟩ := Prod.mk.inj hall
    exact ⟨hgoes, nofun⟩
  · rw [outcome_bind_of_ok hlift] at hall
    obtain ⟨hgoes', hmade⟩ := h a hgoes.observes hall
    exact ⟨hgoes.trans hgoes', hmade⟩

/-- The ways to build a mapper anew. -/
inductive Making (hooks : Hooks) : SessionM BuiltMapper → Prop
  | make (f : Lambda) {pipeline : Pipeline} : pipeline.Observes .growing →
    Making hooks (make hooks f pipeline)
  | rebuild {built : BuiltMapper} (f : Lambda) : built.pipeline.Observes .growing →
    Making hooks (built.rebuild hooks f)
  | merge {built : BuiltMapper} (extension : Lambda) : built.pipeline.Observes .growing →
    Making hooks (built.merge hooks extension)
  | mergeGiven {built : BuiltMapper} (extension : Lambda) : built.pipeline.Observes .growing →
    Making hooks (built.mergeGiven hooks extension)

theorem Making.anew {hooks : Hooks} {run : SessionM BuiltMapper} (h : Making hooks run) :
    BuildsAnew run := by
  cases h with
  | make f hpipeline | rebuild f hpipeline => exact make_anew hooks f hpipeline
  | merge extension hpipeline | mergeGiven extension hpipeline =>
    exact bind_anew (Lambda.merge_advances _ _) fun f => make_anew hooks f hpipeline

end BuiltMapper

/-! ## References -/

namespace PlannedMapper

variable {hooks : Hooks} {reference : PlannedMapper} {f : Lambda} {s s' : Session}

theorem make_goes (hs : s.Observes .growing) {input output : Ty} {pipeline : Pipeline}
    (hrun : outcome (make input output pipeline) s = (.ok reference, s')) :
    s.Goes .growing s' ∧ .ref reference.ref ∈ s'.trail.register.made := by
  obtain ⟨hreference, rfl⟩ := Prod.mk.inj hrun
  obtain rfl := Except.ok.inj hreference
  exact ⟨⟨.refer input output, rfl, hs⟩, List.mem_append_right _ (List.mem_singleton_self _)⟩

/-- A reference holds the mapper that it was filled with, with the pipeline of the reference. -/
theorem outcome_mapper?_some_iff {built : BuiltMapper} :
    outcome reference.mapper? s = (.ok (some built), s) ↔
      s.filled.lookup reference.ref.id = some built.mapper ∧
        built.pipeline = reference.pipeline := by
  change (Except.ok ((s.filled.lookup reference.ref.id).map
    (BuiltMapper.mk · reference.pipeline)), s) = _ ↔ _
  obtain ⟨m, pipeline⟩ := built
  simp [Option.map_eq_some_iff, @eq_comm _ pipeline]

theorem outcome_mapper?_none_iff : outcome reference.mapper? s = (.ok none, s) ↔
    s.filled.lookup reference.ref.id = none := by
  change (Except.ok ((s.filled.lookup reference.ref.id).map
    (BuiltMapper.mk · reference.pipeline)), s) = _ ↔ _
  simp

/-- Filling a reference does to identities what the hooks do. It fails, with nothing changed or with
what the pipeline has left, and fills nothing, or it fills this reference with a mapper of its
identity and types. -/
theorem fill_cases {C : Trail.Course} {r : Except Fault BuiltMapper}
    (hpipeline : reference.pipeline.Observes C) (hs : s.Observes C)
    (hrun : outcome (reference.fill hooks f) s = (r, s')) :
    C.goes s.trail s'.trail ∧ s'.Observes C ∧
      ((∃ fault, r = .error fault ∧ s'.filled = s.filled ∧
          (s' = s ∨ outcome (reference.pipeline.apply hooks f (.ofMapper reference.ref.id f)) s =
            (.error fault, s'))) ∨
        ∃ built, r = .ok built ∧ s.filled.lookup reference.ref.id = none ∧
          s'.filled = s.filled ++ [(reference.ref.id, built.mapper)] ∧
          built.IsBuilt reference.ref.id f reference.pipeline ∧
          f.paramTys = [reference.ref.input] ∧ f.returnTy = reference.ref.output) := by
  have hbuilds := BuiltMapper.build_upholds hpipeline hooks reference.ref.id f s (.refl hs)
  cases fills_of_fill hrun with
  | refused => exact ⟨C.refl _, hs, .inl ⟨_, rfl, rfl, .inl rfl⟩⟩
  | failed hbuild =>
    rw [hbuild] at hbuilds
    obtain ⟨⟨htrail, hfilled, hs'⟩, -⟩ := hbuilds
    exact ⟨htrail, hs', .inl ⟨_, rfl, hfilled, BuiltMapper.build_leaves hbuild⟩⟩
  | forestalled hnone hbuild hfound =>
    rw [hbuild] at hbuilds
    rw [hbuilds.1.filled, hnone] at hfound
    cases hfound
  | ended hnone hinput houtput hbuild =>
    rw [hbuild] at hbuilds
    obtain ⟨⟨htrail, hfilled, hs'⟩, hbuilt⟩ := hbuilds
    exact ⟨htrail, hs', .inr ⟨_, rfl, hnone, congrArg (· ++ _) hfilled, hbuilt _ rfl, hinput,
      houtput⟩⟩

end PlannedMapper

/-! ## Sessions -/

namespace Session

/-- A step of a session : work on expressions, by way of expanders or without them, a mapper built
anew, a new reference, or an expression for a reference. A mapper may be built from a mapper of any
origin, every build may fail, and hooks may be at work in it. -/
inductive Step : Session → Session → Prop
  | work {s : Session} {t : Trail} {expanders : List Expander} : s.trail.Grows t →
    (∀ expander ∈ expanders, expander.Observes .growing) →
    Step s { s with trail := t, expanders := expanders }
  | build {s s' : Session} {hooks : Hooks} {run : SessionM BuiltMapper}
      {r : Except Fault BuiltMapper} : BuiltMapper.Making hooks run →
    outcome run s = (r, s') → Step s s'
  | refer {s s' : Session} {input output : Ty} {pipeline : Pipeline} {reference : PlannedMapper} :
    outcome (PlannedMapper.make input output pipeline) s = (.ok reference, s') → Step s s'
  | fill {s s' : Session} {hooks : Hooks} {reference : PlannedMapper} {f : Lambda}
      {r : Except Fault BuiltMapper} : .ref reference.ref ∈ s.trail.register.made →
    reference.pipeline.Observes .growing → outcome (reference.fill hooks f) s = (r, s') → Step s s'

/-- The steps that a session takes one after the other. -/
abbrev Steps : Session → Session → Prop :=
  Relation.ReflTransGen Step

/-- A mapper that fills a reference has the identity and the types of the reference. -/
structure Fits (m : Mapper) (ref : MapperReference) : Prop where
  id_eq : m.id = ref.id
  paramTys_eq : m.given.paramTys = [ref.input]
  returnTy_eq : m.given.returnTy = ref.output

variable {s s' : Session} {reference : PlannedMapper}

/-- A step takes identities as hooks do. It fills no reference, or one that was made, that was not
filled, and that the mapper fits. -/
theorem Step.goes (hs : s.Observes .growing) (hstep : Step s s') :
    s.trail.Grows s'.trail ∧ s'.Observes .growing ∧
      (s'.filled = s.filled ∨ ∃ ref m, .ref ref ∈ s.trail.register.made ∧
        s.filled.lookup ref.id = none ∧ s'.filled = s.filled ++ [(ref.id, m)] ∧ Fits m ref) := by
  cases hstep with
  | work hgrows hexpanders => exact ⟨hgrows, hexpanders, .inl rfl⟩
  | build hmaking hrun =>
    obtain ⟨⟨htrail, hfilled, hs'⟩, -⟩ := hmaking.anew hs hrun
    exact ⟨htrail, hs', .inl hfilled⟩
  | refer hrun =>
    obtain ⟨⟨htrail, hfilled, hs'⟩, -⟩ := PlannedMapper.make_goes hs hrun
    exact ⟨htrail, hs', .inl hfilled⟩
  | fill hmem hpipeline hrun =>
    obtain ⟨htrail, hs', ⟨_, -, hfilled, -⟩ |
      ⟨built, -, hnone, hfilled, hbuilt, hinput, houtput⟩⟩ :=
        PlannedMapper.fill_cases hpipeline hs hrun
    · exact ⟨htrail, hs', .inl hfilled⟩
    · exact ⟨htrail, hs', .inr ⟨_, built.mapper, hmem, hnone, hfilled, hbuilt.id_eq,
        hbuilt.given_eq ▸ hinput, hbuilt.given_eq ▸ houtput⟩⟩

/-- No identity was given twice, the next one was not given yet, and a reference is filled with a
mapper of its identity and types. -/
structure Numbered (s : Session) : Prop where
  between : MapperHandle.Between 0 s.trail.register.nextMapper s.trail.register.made
  filled {i : MapperId} {m : Mapper} : (i, m) ∈ s.filled →
    ∃ ref, .ref ref ∈ s.trail.register.made ∧ ref.id = i ∧ Fits m ref
  observes : s.Observes .growing

namespace Numbered

theorem start {custom : CustomTransformers} (hcustom : custom.Observes .growing) :
    (Session.start custom).Numbered where
  between := .nil
  filled := nofun
  observes := by
    intro expander hexpander
    obtain rfl := List.mem_singleton.1 hexpander
    exact ⟨⟨hcustom, fun _ => Resolver.observes_growing _⟩, nofun⟩

/-- Every step keeps a session numbered. -/
theorem step (h : s.Numbered) (hstep : Step s s') : s'.Numbered := by
  obtain ⟨hgrows, hs', hfills⟩ := hstep.goes h.observes
  obtain ⟨newer, hmade, hnewer⟩ := hgrows.made
  refine ⟨?_, fun {i m} hmem => ?_, hs'⟩
  · rw [hmade]
    exact h.between.append hnewer (Nat.zero_le _) hgrows.nextMapper_le
  · have old (hmem : (i, m) ∈ s.filled) :
        ∃ ref, .ref ref ∈ s'.trail.register.made ∧ ref.id = i ∧ Fits m ref := by
      obtain ⟨ref, href, hfits⟩ := h.filled hmem
      exact ⟨ref, hgrows.mem_made href, hfits⟩
    rcases hfills with hfilled | ⟨ref, m', href, -, hfilled, hfits⟩
    · exact old (hfilled ▸ hmem)
    · rcases List.mem_append.1 (hfilled ▸ hmem) with hmem | hmem
      · exact old hmem
      · obtain ⟨rfl, rfl⟩ := Prod.mk.inj (List.mem_singleton.1 hmem)
        exact ⟨ref, hgrows.mem_made href, rfl, hfits⟩

theorem steps (h : s.Numbered) (hsteps : Steps s s') : s'.Numbered := by
  induction hsteps with
  | refl => exact h
  | tail _ hstep ih => exact ih.step hstep

/-- A reference holds a mapper that fits it. -/
theorem fits (h : s.Numbered) {ref : MapperReference} {m : Mapper}
    (href : .ref ref ∈ s.trail.register.made) (hfound : s.filled.lookup ref.id = some m) :
    Fits m ref := by
  obtain ⟨before, after, hfilled, -⟩ := List.lookup_eq_some_iff.1 hfound
  obtain ⟨ref', href', hid, hfits⟩ := h.filled (i := ref.id) (m := m) (by simp [hfilled])
  have heq : MapperHandle.ref ref' = .ref ref :=
    List.inj_on_of_nodup_map h.between.nodup href' href hid
  exact MapperHandle.ref.inj heq ▸ hfits

/-- What is made is in the register of every later session. -/
theorem mem_made (h : s.Numbered) (hsteps : Steps s s') {handle : MapperHandle}
    (hmem : handle ∈ s.trail.register.made) : handle ∈ s'.trail.register.made := by
  induction hsteps with
  | refl => exact hmem
  | tail hsteps hstep ih => exact (hstep.goes (h.steps hsteps).observes).1.mem_made ih

/-- What a reference is filled with it keeps. -/
theorem lookup (h : s.Numbered) (hsteps : Steps s s') {i : MapperId} {m : Mapper}
    (hfound : s.filled.lookup i = some m) : s'.filled.lookup i = some m := by
  induction hsteps with
  | refl => exact hfound
  | tail hsteps hstep ih =>
    obtain ⟨-, -, hfilled | ⟨_, _, -, -, hfilled, -⟩⟩ := hstep.goes (h.steps hsteps).observes
    · rwa [hfilled]
    · rw [hfilled, List.lookup_append, ih, Option.some_or]

end Numbered

/-- Identities are sound in every run of a session whose hooks take identities by its steps and fill
no reference. All references and all mappers built anew, those of hooks included, have identities of
their own, below the next one. A reference that holds a mapper holds one of its own identity and of
its declared types, and it holds it ever after, while every further expression is refused. An
expression that is refused fills nothing and takes no identity : it leaves what the pipeline has
left, if that was at work, and the next identity as it was, if the hooks take none. A reference that
holds no mapper is filled by every expression of its types whose build ends. -/
theorem Steps.identities_sound {custom : CustomTransformers} (hcustom : custom.Observes .growing)
    (hsteps : Steps (.start custom) s) :
    ((s.trail.register.made.map MapperHandle.id).Nodup ∧
      ∀ handle ∈ s.trail.register.made, handle.id < s.trail.register.nextMapper) ∧
    ((∀ hooks run built s₁ s', BuiltMapper.Making hooks run → outcome run s = (.ok built, s₁) →
        Steps s₁ s' → .mapper built.mapper ∈ s'.trail.register.made) ∧
      ∀ input output pipeline reference s₁ s',
        outcome (PlannedMapper.make input output pipeline) s = (.ok reference, s₁) →
          Steps s₁ s' → .ref reference.ref ∈ s'.trail.register.made) ∧
    ∀ reference : PlannedMapper, .ref reference.ref ∈ s.trail.register.made →
      (∀ built, outcome reference.mapper? s = (.ok (some built), s) →
        (built.mapper.id = reference.ref.id ∧
          built.mapper.given.paramTys = [reference.ref.input] ∧
          built.mapper.given.returnTy = reference.ref.output) ∧
        ∀ s', Steps s s' → outcome reference.mapper? s' = (.ok (some built), s') ∧
          ∀ hooks f, outcome (reference.fill hooks f) s' = (.error (.failed .alreadyFilled), s')) ∧
      (reference.pipeline.Observes .growing → ∀ hooks f fault s',
        outcome (reference.fill hooks f) s = (.error fault, s') →
          s'.filled = s.filled ∧
          (s' = s ∨ outcome (reference.pipeline.apply hooks f (.ofMapper reference.ref.id f)) s =
            (.error fault, s')) ∧
          (s.Observes .sparing → reference.pipeline.Observes .sparing →
            s'.trail.register.nextMapper = s.trail.register.nextMapper)) ∧
      (reference.pipeline.Observes .growing → outcome reference.mapper? s = (.ok none, s) →
        ∀ hooks f built s₁, f.paramTys = [reference.ref.input] →
          f.returnTy = reference.ref.output →
          outcome (BuiltMapper.build hooks reference.ref.id f reference.pipeline) s =
            (.ok built, s₁) →
          ∃ s', outcome (reference.fill hooks f) s = (.ok built, s') ∧
            outcome reference.mapper? s' = (.ok (some built), s')) := by
  have hs : s.Numbered := (Numbered.start hcustom).steps hsteps
  refine ⟨⟨hs.between.nodup, fun _ hmem => (hs.between.range hmem).2⟩, ⟨?mapper, ?reference⟩,
    fun reference href => ⟨?held, ?refused, ?unfilled⟩⟩
  case mapper =>
    intro hooks run built s₁ s' hmaking hrun hlater
    exact (hs.step (.build hmaking hrun)).mem_made hlater
      ((hmaking.anew hs.observes hrun).2 built rfl)
  case reference =>
    intro input output pipeline reference s₁ s' hrun hlater
    exact (hs.step (.refer hrun)).mem_made hlater (PlannedMapper.make_goes hs.observes hrun).2
  case held =>
    intro built hheld
    obtain ⟨hfound, hheld⟩ := PlannedMapper.outcome_mapper?_some_iff.1 hheld
    obtain ⟨hid, hinput, houtput⟩ := hs.fits href hfound
    refine ⟨⟨hid, hinput, houtput⟩, fun s' hlater => ?_⟩
    have hfound' := hs.lookup hlater hfound
    exact ⟨PlannedMapper.outcome_mapper?_some_iff.2 ⟨hfound', hheld⟩,
      fun hooks f => PlannedMapper.fill_of_filled hfound'⟩
  case refused =>
    intro hpipeline hooks f fault s' hrun
    obtain ⟨-, -, ⟨_, hr, hfilled, hleaves⟩ | ⟨_, hr, -⟩⟩ :=
      PlannedMapper.fill_cases hpipeline hs.observes hrun
    · obtain rfl := Except.error.inj hr
      exact ⟨hfilled, hleaves, fun hsparing hpipeline =>
        (PlannedMapper.fill_cases hpipeline hsparing hrun).1⟩
    · cases hr
  case unfilled =>
    intro hpipeline hnone hooks f built s₁ hinput houtput hbuild
    replace hnone := PlannedMapper.outcome_mapper?_none_iff.1 hnone
    obtain ⟨hgoes, hbuilt⟩ := BuiltMapper.build_upholds hpipeline hooks reference.ref.id f s
      (.refl hs.observes)
    rw [hbuild] at hgoes hbuilt
    have hnone₁ : s₁.filled.lookup reference.ref.id = none := hgoes.filled ▸ hnone
    refine ⟨_, PlannedMapper.fill_of_build hnone hinput houtput hbuild hnone₁,
      PlannedMapper.outcome_mapper?_some_iff.2 ⟨?_, (hbuilt built rfl).pipeline_eq⟩⟩
    rw [List.lookup_append, hnone₁]
    simp

/-- A reference whose pipeline makes a mapper in every build. The first expression includes the
reference itself, so that it is refused, with the identity of that mapper taken ; the second one
fills the reference. A mapper that cannot be built comes after them, and one whose expression has a
call that is expanded with a reference made. -/
theorem Steps.identities_sound_filled :
    let a : Ty := .object "A"
    let p : Param := ⟨0, "p", a⟩
    let f : Lambda := ⟨1, [p], .param p⟩
    let hooks : Hooks := ⟨0, fun _ _ => ⟨[], .value .null⟩, fun _ => none⟩
    let making : LambdaTransformer := fun g _ => do
      let _ ← BuiltMapper.make hooks f {}
      return g
    let planting : SiteExpansion := fun _ _ site _ => do
      let id ← takeMapperId
      enter (.ref ⟨id, a, a⟩)
      return site.arguments.head?.getD site.node
    let custom : CustomTransformers := fun _ _ => .ok planting
    let reference : PlannedMapper := ⟨⟨1, a, a⟩, { before := [making] }⟩
    let operand : Expr := .constant 2 (.mapper a a) (.mapperReference reference.ref)
    let included : Lambda := ⟨4, [p], .call 3 a .includeGiven none [.param p, operand]⟩
    let plant : Operation := ⟨⟨"Site", "Plant", 1, false⟩, [.custom "Planting"], none⟩
    let planted : Lambda := ⟨6, [p], .call 5 a plant none [.param p]⟩
    let mapper (id : MapperId) : Mapper := ⟨id, a, a, f, f⟩
    ∃ s s' : Session, Steps (.start custom) s ∧
      outcome (reference.fill hooks included) s = (.error (.failed .selfInclusion), s') ∧
      s.trail.register = { nextMapper := 2, made := [.ref reference.ref] } ∧
      s'.trail.register =
        { nextMapper := 3, made := [.ref reference.ref, .mapper (mapper 2)] } ∧
      ∃ s'' : Session, Steps s' s'' ∧
        s''.trail.register = { nextMapper := 7, made :=
          [.ref reference.ref, .mapper (mapper 2), .mapper (mapper 3), .ref ⟨6, a, a⟩,
            .mapper ⟨5, a, a, planted, ⟨11, [p], .param p⟩⟩] } ∧
        (s''.trail.register.made.map MapperHandle.id).Nodup ∧
        (∀ handle ∈ s''.trail.register.made, handle.id < s''.trail.register.nextMapper) ∧
        outcome reference.mapper? s'' = (.ok (some ⟨mapper 1, reference.pipeline⟩), s'') ∧
        outcome (reference.fill hooks f) s'' = (.error (.failed .alreadyFilled), s'') := by
  intro a p f hooks making planting custom reference operand included plant planted mapper
  let refused : Lambda := ⟨7, [], .param p⟩
  let trail (next : NodeId) (nextMapper : MapperId) (newer : List MapperHandle) : Trail :=
    { next, register := { nextMapper, made := .ref reference.ref :: newer } }
  let including : TransformerCache :=
    [(Operation.includeGiven.signature, some ⟨8, CallSite.inlineGiven false⟩)]
  let expanders (cache : TransformerCache) : List Expander := [⟨⟨{}, custom⟩, cache⟩]
  let made : List MapperHandle := [.mapper (mapper 2), .mapper (mapper 3)]
  let final : Mapper := ⟨5, a, a, planted, ⟨11, [p], .param p⟩⟩
  let start : Session := ⟨{ next := 8 }, [], expanders []⟩
  let s₁ : Session := ⟨trail 8 2 [], [], expanders []⟩
  let s₂ : Session := ⟨trail 10 3 [.mapper (mapper 2)], [], expanders including⟩
  let s₃ : Session := ⟨trail 10 4 made, [(1, mapper 1)], expanders including⟩
  let s₄ : Session := ⟨trail 10 5 made, [(1, mapper 1)], expanders including⟩
  let s₅ : Session := ⟨trail 12 7 (made ++ [.ref ⟨6, a, a⟩, .mapper final]), [(1, mapper 1)],
    expanders (including ++ [(plant.signature, some ⟨10, planting⟩)])⟩
  have hbare : Pipeline.Observes {} .growing := Pipeline.observes_bare _
  have hmaking : reference.pipeline.Observes .growing := by
    refine ⟨fun {transform} hmem g cx s hs => ?_, nofun⟩
    obtain rfl := List.mem_singleton.1 hmem
    have hkeeps : Keeps (s.Goes .growing) (making g cx) :=
      Keeps.bind (fun s' hs' => ⟨hs'.trans (BuiltMapper.make_anew hooks f hbare hs'.observes rfl).1,
        trivial⟩) fun _ => .pure
    exact (hkeeps s (.refl hs)).1
  have hcustom : custom.Observes .growing := by
    rintro name settings expand ⟨⟩ self host site cx t
    exact .refer a a
  have hwork : Step (.start custom) start :=
    .work (.work (Nat.zero_le _) rfl rfl) (Numbered.start hcustom).observes
  have hrefer : Step start s₁ :=
    .refer (rfl : outcome (PlannedMapper.make a a reference.pipeline) start = (.ok reference, s₁))
  have h₁ : Steps (.start custom) s₁ := .tail (.single hwork) hrefer
  have hrefuses : outcome (reference.fill hooks included) s₁ =
    (.error (.failed .selfInclusion), s₂) := Prod.ext rfl rfl
  have hbuild : outcome (BuiltMapper.build hooks 1 f reference.pipeline) s₂ =
    (.ok ⟨mapper 1, reference.pipeline⟩, { s₃ with filled := [] }) := Prod.ext rfl rfl
  have hfills : outcome (reference.fill hooks f) s₂ = (.ok ⟨mapper 1, reference.pipeline⟩, s₃) :=
    PlannedMapper.fill_of_build rfl rfl rfl hbuild rfl
  have hfill : Step s₂ s₃ := .fill List.mem_cons_self hmaking hfills
  have hattempt : Step s₃ s₄ := .build (.make refused hbare)
    (rfl : outcome (BuiltMapper.make hooks refused {}) s₃ = (_, s₄))
  have hmake : outcome (BuiltMapper.make hooks planted {}) s₄ = (.ok ⟨final, {}⟩, s₅) :=
    Prod.ext rfl rfl
  have h₅ : Steps s₂ s₅ :=
    .tail (.tail (.single hfill) hattempt) (.build (.make planted hbare) hmake)
  have hheld : outcome reference.mapper? s₅ = (.ok (some ⟨mapper 1, reference.pipeline⟩), s₅) := rfl
  have hsound := identities_sound hcustom
    (h₁.trans (.head (.fill List.mem_cons_self hmaking hrefuses) h₅))
  have hkeeps := hsound.2.2 reference List.mem_cons_self
  exact ⟨s₁, s₂, h₁, hrefuses, rfl, rfl, s₅, h₅, rfl, hsound.1.1, hsound.1.2, hheld,
    ((hkeeps.1 _ hheld).2 s₅ .refl).2 hooks f⟩

end Session

end ObjectMapping
