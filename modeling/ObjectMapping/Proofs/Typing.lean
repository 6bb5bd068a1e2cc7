import ObjectMapping.Proofs.History

/-!
# The pass keeps static types

Types are recorded in nodes and not worked out again when a node is rebuilt, so that a lambda keeps
its type if every marked call gives way to an expression of its own type. The builders of marked
calls take the type from the operand, whose type says what the mapper yields that it holds : mappers
keep the type that they were built with, references are filled with mappers of the types that they
declare, and tables know mappers by their types.

`Session.Reached.functionTy_eq` says so of every run whose marked calls were made by the builders
and whose operations are ordinary. `Session.Reached.functionTy_ne` is a run with an operation that
is taken for a marked one of the same key.
-/

namespace ObjectMapping

open RunM

/-! ## Judgements -/

/-- The judgement of a pass that puts in the place of every marked call that it comes to an
expression of the type of the call. -/
def Judgement.retaining : Judgement where
  enters e := e.markers = []
  puts e e' := e.markers ≠ [] ∧ e'.ty = e.ty
  stands _ := False

namespace Lambda.Becomes

variable {f f' : Lambda}

/-- Such a pass keeps the parameters of a lambda. -/
theorem params_eq (h : f.Becomes .retaining f') : f'.params = f.params :=
  Param.eq_of_becomes h.params fun hput => hput.1 rfl

theorem returnTy_eq (h : f.Becomes .retaining f') : f'.returnTy = f.returnTy :=
  h.body.ty_eq (fun _ h => h) And.right

/-- Such a pass keeps the type of a lambda. -/
theorem fnTy_eq (h : f.Becomes .retaining f') : f'.functionTy = f.functionTy := by
  simp only [Lambda.functionTy, paramTys, h.params_eq, h.returnTy_eq]

end Lambda.Becomes

/-! ## What is spliced in -/

section

variable {g : Lambda} {source e : Expr}

theorem Lambda.InlinedOver.ty_eq (h : g.InlinedOver source e) : e.ty = g.returnTy := by
  obtain ⟨p, -, hty, hbecomes⟩ := h
  exact hbecomes.ty_eq_of_replacing hty

theorem Expr.IsDefault.ty_eq {ty : Ty} (h : e.IsDefault ty) : e.ty = ty := by
  obtain ⟨i, rfl | rfl⟩ := h <;> rfl

theorem Lambda.Expansion.ty_eq (h : g.Expansion source e) : e.ty = g.returnTy := by
  cases h with
  | plain h => exact h.ty_eq
  | guarded h _ hresult => exact hresult.ty_eq.trans h.ty_eq

/-- A projection is a query exactly if the source is one. -/
theorem Lambda.Projection.ty_eq (h : g.Projection source e) : e.ty = .sequence
    (match source.ty.kind? with | some .queryable => .queryable | _ => .enumerable) g.returnTy := by
  cases h with
  | @mk i kind element op lambda f q hty hparams hinlined hop hfn =>
    have hreturn : f.returnTy = g.returnTy := hinlined.ty_eq
    rw [hty, ← hreturn]
    cases kind <;> rfl

end

/-! ## Calls that the builders make -/

/-- A constant that was made for the operand of a call : it holds a mapper of the run, a reference
or a lambda. -/
inductive Expr.IsOperand (h : History) (e : Expr) : Prop
  | mapper {m : Mapper} {t t' : Trail} : m ∈ h.mappers →
    outcome (Expr.mkMapper m) t = (.ok e, t') → Expr.IsOperand h e
  | reference {ref : MapperReference} {t t' : Trail} : ref ∈ h.references →
    outcome (Expr.mkMapperReference ref) t = (.ok e, t') → Expr.IsOperand h e
  | expression {f : Lambda} {t t' : Trail} : f ∈ h.lambdas →
    outcome (Expr.mkExpression f) t = (.ok e, t') → Expr.IsOperand h e

/-- A call that one of the builders of marked calls has made, over such an operand. -/
inductive Expr.IsBuilt (h : History) (e : Expr) : Prop
  | includeGiven {source operand : Expr} {t t' : Trail} : operand.IsOperand h →
    outcome (source.includeGiven operand) t = (.ok e, t') → Expr.IsBuilt h e
  | includeResolved {source : Expr} {output : Ty} {t t' : Trail} :
    outcome (source.includeResolved output) t = (.ok e, t') → Expr.IsBuilt h e
  | mapWith {source operand : Expr} {t t' : Trail} : operand.IsOperand h →
    outcome (source.mapWith operand) t = (.ok e, t') → Expr.IsBuilt h e
  | mapAllWith {source operand : Expr} {t t' : Trail} : operand.IsOperand h →
    outcome (source.mapAllWith operand) t = (.ok e, t') → Expr.IsBuilt h e
  | map {source operand : Expr} {t t' : Trail} : operand.IsOperand h →
    outcome (operand.map source) t = (.ok e, t') → Expr.IsBuilt h e

/-- The resolvers answer with what tables have that know mappers of the run and references. -/
def History.Tabulates (h : History) (host : Host) (resolvers : List Resolver) : Prop :=
  ∀ resolver ∈ resolvers, ∃ table : MapperTable,
    (∀ entry ∈ table.entries, (∃ m ∈ h.mappers, entry = .mapper m) ∨
      ∃ ref ∈ h.references, entry = .ref ref) ∧
    ∀ request handle, resolver.Answers host request handle →
      table.get? request.input request.output = some handle

theorem History.tabulates_nil {h : History} {host : Host} : h.Tabulates host [] := by
  simp [Tabulates]

/-- Lambdas are built whose marked calls were all made by the builders. -/
def Admission.built : Admission := fun h host design f =>
  (f.All fun e => e.markers ≠ [] → e.IsBuilt h) ∧ h.Tabulates host design.settings.resolvers

/-- No other operation has the key of a built-in one. -/
def Admission.builtOrdinary : Admission := fun h host design f =>
  Admission.built h host design f ∧ f.All (Expr.CallsIn Operation.Ordinary)

section

variable {h : History} {hooks : Hooks} {s : Session} {design : ExpanderDesign} {f g : Lambda}
  {e d : Expr}

/-- The mappers of the run yield what they declare. -/
def History.Typed (h : History) : Prop :=
  ∀ m ∈ h.mappers, m.expression.returnTy = m.output

/-- An operand maps to what the lambda yields that it holds. -/
theorem Session.Sound.returnTy_of_holds (hs : s.Sound h) {i : NodeId} {ty : Ty}
    {v : Value} (hd : (Expr.constant i ty v).IsOperand h) (hg : v.Holds (s.host hooks) g) :
    g ∈ h.lambdas ∧ (h.Typed → (Expr.constant i ty v).mappedTo = pure g.returnTy) := by
  cases hd with
  | @mapper m t t' hm hmake =>
    obtain ⟨rfl, rfl, rfl⟩ := Expr.constant.inj (Except.ok.inj (Prod.mk.inj hmake).1)
    cases hg
    refine ⟨hs.expression hm, fun htyped => ?_⟩
    rw [htyped m hm]
    rfl
  | @reference ref t t' href hmake =>
    obtain ⟨rfl, rfl, rfl⟩ := Expr.constant.inj (Except.ok.inj (Prod.mk.inj hmake).1)
    cases hg with
    | @reference _ m hfilled =>
      obtain ⟨hm, hdeclared⟩ := hs.filled_mem hfilled
      refine ⟨hs.expression hm, fun htyped => ?_⟩
      rw [htyped m hm, (hdeclared href).2]
      rfl
  | @expression f t t' hf hmake =>
    obtain ⟨rfl, rfl, rfl⟩ := Expr.constant.inj (Except.ok.inj (Prod.mk.inj hmake).1)
    cases hg
    exact ⟨hf, fun _ => rfl⟩

theorem Expr.IsOperand.constant (hd : d.IsOperand h) : ∃ i ty v, d = .constant i ty v := by
  cases hd with
  | mapper _ hmake | reference _ hmake | expression _ hmake =>
    exact ⟨_, _, _, (Except.ok.inj (Prod.mk.inj hmake).1).symm⟩

/-- The type of a call follows from what its operand maps to. -/
theorem Expr.IsBuilt.operand (he : e.IsBuilt h) (hd : e.operand? = some d) : d.IsOperand h ∧
    ∀ output, d.mappedTo = pure output → e.markers ≠ [.mapAllWith] ∧ e.ty = output ∨
      ∃ source, e.source? = some source ∧ e.markers = [.mapAllWith] ∧ e.ty = .sequence
        (match source.ty.kind? with | some .queryable => .queryable | _ => .enumerable) output := by
  have output_eq {d : Expr} {ty output : Ty} {t t' : Trail}
      (hty : outcome d.mappedTo t = (.ok ty, t')) (houtput : d.mappedTo = pure output) :
      ty = output := by
    rw [houtput] at hty
    exact (outcome_pure_ok.1 hty).1.symm
  cases he with
  | includeResolved hmake =>
    obtain ⟨rfl, -⟩ := outcome_mkCall hmake
    cases hd
  | includeGiven ho hmake | mapWith ho hmake | map ho hmake =>
    obtain ⟨ty, t₁, hty, hcall⟩ := outcome_bind_ok.1 hmake
    obtain ⟨rfl, -⟩ := outcome_mkCall hcall
    obtain rfl := Option.some.inj hd
    exact ⟨ho, fun output houtput => .inl ⟨by simp [markers, Operation.includeGiven,
      Operation.mapWith, Operation.map], output_eq hty houtput⟩⟩
  | mapAllWith ho hmake =>
    obtain ⟨ty, t₁, hty, hcall⟩ := outcome_bind_ok.1 hmake
    obtain ⟨rfl, -⟩ := outcome_mkCall hcall
    obtain rfl := Option.some.inj hd
    exact ⟨ho, fun output houtput => .inr ⟨_, rfl, rfl, by rw [← output_eq hty houtput]; rfl⟩⟩

/-- What a table answers with yields the type that it is asked for. -/
theorem Session.Sound.returnTy_of_answer (hs : s.Sound h)
    {resolvers : List Resolver} (hresolvers : h.Tabulates (s.host hooks) resolvers)
    {resolver : Resolver} (hresolver : resolver ∈ resolvers) {request : MapperRequest}
    {handle : MapperHandle} {m : Mapper}
    (hanswer : resolver.Answers (s.host hooks) request handle)
    (hm : handle.mapper? (s.host hooks) = some m) :
    m.expression ∈ h.lambdas ∧ (h.Typed → m.expression.returnTy = request.output) := by
  obtain ⟨table, hentries, hask⟩ := hresolvers resolver hresolver
  replace hanswer := hask request handle hanswer
  have houtput : handle.output = request.output := by
    have := List.find?_some hanswer
    simp only [Bool.and_eq_true, beq_iff_eq] at this
    exact this.2
  rcases hentries handle (List.mem_of_find?_eq_some hanswer) with ⟨m', hm', rfl⟩ | ⟨ref, href, rfl⟩
  · obtain rfl := Option.some.inj hm
    exact ⟨hs.expression hm', fun htyped => (htyped m' hm').trans houtput⟩
  · obtain ⟨hmem, hdeclared⟩ := hs.filled_mem hm
    exact ⟨hs.expression hmem, fun htyped =>
      (htyped m hmem).trans ((hdeclared href).2.trans houtput)⟩

/-- A call that a builder has made takes a lambda of the run. -/
theorem Session.Sound.mem_of_takes_built (hs : s.Sound h)
    {resolvers : List Resolver} (hresolvers : h.Tabulates (s.host hooks) resolvers)
    (he : e.IsBuilt h) (hg : e.Takes (s.host hooks) resolvers g) : g ∈ h.lambdas := by
  cases hg with
  | held ho hg => exact (hs.returnTy_of_holds (he.operand ho).1 hg).1
  | found _ _ _ hresolver hanswer hm =>
    exact (hs.returnTy_of_answer hresolvers hresolver hanswer hm).1

/-- What is put in the place of a call that a builder has made has the type of the call. -/
theorem Session.Sound.ty_eq_of_puts (hs : s.Sound h) (htyped : h.Typed)
    {resolvers : List Resolver} (hresolvers : h.Tabulates (s.host hooks) resolvers)
    (he : e.IsBuilt h) {e' : Expr}
    (hputs : (Judgement.expanding (s.host hooks) resolvers).puts e e') : e'.ty = e.ty := by
  obtain ⟨g, source, hsource, hg, hmade⟩ := hputs
  cases hg with
  | held ho hg =>
    obtain ⟨hd, hty⟩ := he.operand ho
    have hmapped := (hs.returnTy_of_holds hd hg).2 htyped
    rcases hmade with ⟨-, hitems, hmade⟩ | ⟨hitems, hmade⟩
    · rcases hty _ hmapped with ⟨-, hty⟩ | ⟨_, -, hitems', -⟩
      · exact hmade.ty_eq.trans hty.symm
      · exact absurd hitems' hitems
    · rcases hty _ hmapped with ⟨hitems', -⟩ | ⟨source', hsource', -, hty⟩
      · exact absurd hitems hitems'
      · obtain rfl := Option.some.inj (hsource.symm.trans hsource')
        exact hmade.ty_eq.trans hty.symm
  | found hop hmarkers _ hresolver hanswer hm =>
    have hitems : e.markers ≠ [.mapAllWith] := by
      cases e <;> cases hop
      simp [Expr.markers, hmarkers]
    rcases hmade with ⟨-, -, hmade⟩ | ⟨hitems', -⟩
    · exact hmade.ty_eq.trans
        ((hs.returnTy_of_answer hresolvers hresolver hanswer hm).2 htyped)
    · exact absurd hitems' hitems

theorem Session.Sound.operable_of_built (hs : s.Sound h)
    (hf : Admission.builtOrdinary h (s.host hooks) design f) :
    f.All (design.Operable (s.host hooks) h.lambdas) := by
  intro d hd
  refine ((hf.1.1 d hd).and (hf.2 d hd)).imp fun e he => ⟨he.2, fun ho => ?_, fun hg => ?_⟩
  · exact ((he.1 (Expr.markers_ne_of_operand? ho)).operand ho).1.constant
  · exact hs.mem_of_takes_built hf.1.2 (he.1 hg.markers_ne) hg

/-! ## Runs -/

namespace Session

/-- Every marked call of a lambda that is built gives way to an expression of its own type. -/
theorem Sound.retaining_of_becomes (hs : s.Sound h) (htyped : h.Typed)
    (hf : Admission.built h (s.host hooks) design f) {f' : Lambda}
    (hbecomes : f.Becomes (.expanding (s.host hooks) design.settings.resolvers) f') :
    f.Becomes .retaining f' := by
  refine Lambda.Becomes.imp (fun _ hstands => ?_) (fun {e e'} he hputs => ?_)
    (fun _ henters => ?_) hf.1 hbecomes
  · exact hstands
  · have hmarked : e.markers ≠ [] := by
      obtain ⟨_, _, _, htakes, -⟩ := hputs
      exact htakes.markers_ne
    exact ⟨hmarked, hs.ty_eq_of_puts htyped hf.2 (he hmarked) hputs⟩
  · exact henters

theorem Reached.retaining (hr : s.Reached .builtOrdinary h) :
    ∀ m ∈ h.mappers, m.output = m.given.returnTy ∧ m.given.Becomes .retaining m.expression := by
  induction hr with
  | start => nofun
  | write _ _ _ _ ih => exact ih
  | addExpander _ _ ih => exact ih
  | refer _ _ ih => exact ih
  | failure _ _ _ _ _ ih => exact ih
  | build hr hexpander hf hadmitted hb ih =>
    have hs := hr.sound fun hs hf => hs.operable_of_built hf
    have htyped : History.Typed _ := fun m hm => by
      obtain ⟨houtput, hbecomes⟩ := ih m hm
      rw [houtput, hbecomes.returnTy_eq]
    obtain ⟨⟨hgiven, houtput, hbecomes⟩, -⟩ :=
      hb.becomes hs hexpander hf (hs.operable_of_built hadmitted)
    intro m hm
    rcases List.mem_cons.1 hm with rfl | hm
    · rw [hgiven]
      exact ⟨houtput, hs.retaining_of_becomes htyped hadmitted.1 hbecomes⟩
    · exact ih m hm

/-- The final expression of every mapper that is built has the parameters and the type of the
expression that it was built from, and every marked call that the pass comes to has given way to an
expression of its own type. -/
theorem Reached.functionTy_eq (hr : s.Reached .builtOrdinary h) {m : Mapper}
    (hm : m ∈ h.mappers) : m.expression.params = m.given.params ∧
      m.expression.functionTy = m.given.functionTy ∧ m.given.Becomes .retaining m.expression := by
  have hbecomes := (hr.retaining m hm).2
  exact ⟨hbecomes.params_eq, hbecomes.fnTy_eq, hbecomes⟩

/-- A run that fills a reference with the identity and then builds a mapper that includes it. -/
theorem Reached.functionTy_eq_included :
    ∃ (h : History) (s : Session) (m : Mapper), s.Reached .builtOrdinary h ∧ m ∈ h.mappers ∧
      m.given.body.markers = [.includeGiven] ∧ m.expression.params = m.given.params ∧
      m.expression.functionTy = m.given.functionTy ∧ m.given.Becomes .retaining m.expression := by
  let ref : MapperReference := ⟨1, .int, .int⟩
  let x : Param := ⟨0, "x", .int⟩
  let y : Param := ⟨2, "y", .int⟩
  let inner : Lambda := ⟨1, [x], .param x⟩
  let operand : Expr := .constant 3 (.mapper .int .int) (.mapperReference ref)
  let call : Expr := .call 4 .int .includeGiven none [.param y, operand]
  let outer : Lambda := ⟨5, [y], call⟩
  let m : Mapper := ⟨1, .int, .int, inner, inner⟩
  let included : Mapper := ⟨2, .int, .int, outer, ⟨8, [y], .param y⟩⟩
  let hooks : Hooks := ⟨0, fun _ _ => ⟨[], .value .null⟩, fun _ => none⟩
  let custom : CustomTransformers := fun _ _ => .error "none"
  let cache : TransformerCache :=
    [(Operation.includeGiven.signature, some ⟨6, CallSite.inlineGiven false⟩)]
  let register : Register := { nextMapper := 2, made := [.ref ref] }
  let written : Session :=
    { Session.start custom with trail := { next := 6, register := register } }
  let filled : Session := { written with filled := [(1, m)] }
  let made : Session :=
    { filled with
      trail := { next := 9, register := { nextMapper := 3, made := [.ref ref, .mapper included] } }
      expanders := [⟨⟨{}, custom⟩, cache⟩] }
  let F : Forest := .ofLists [.param x, .param y, operand, call] [inner, outer] (by decide)
    (by decide) (by simp [Expr.parts, call, operand]) (by simp [Expr.fn?, call, operand])
    (by simp [inner, outer]) (by simp [inner, outer])
  have built {h : History} {e : Expr} (hop : e.operation? = none) (hchildren : e.children = []) :
      e.All fun e => e.markers ≠ [] → e.IsBuilt h :=
    .leaf (absurd (Expr.markers_of_none hop) ·) hchildren
  have ordinary {e : Expr} (hop : e.operation? = none) (hchildren : e.children = []) :
      e.All (Expr.CallsIn Operation.Ordinary) :=
    .leaf (Expr.callsIn_of_none hop) hchildren
  have hrefers : outcome (PlannedMapper.make .int .int {}) (.start custom) =
    (.ok ⟨ref, {}⟩, { Session.start custom with trail := { register := register } }) := rfl
  have hfns : ∀ f ∈ [inner, outer] ++ [], F.fns f := by simp [F, Forest.ofLists]
  have hwritten : written.Reached .builtOrdinary ⟨[inner, outer], [], [ref]⟩ :=
    .write (.refer (.start custom) hrefers) hfns (Forest.below_ofLists (by decide) (by decide))
      (.work (Nat.zero_le _) rfl rfl)
  have hfills : written.Builds ⟨[inner, outer], [], [ref]⟩ hooks 0 inner (.ok ⟨m, {}⟩) filled :=
    .fill (List.mem_singleton_self ref) rfl
  have hfilled : filled.Reached .builtOrdinary ⟨[inner, inner, outer], [m], [ref]⟩ := by
    have hexpander : written.expanders[0]? = some ⟨⟨{}, custom⟩, []⟩ := rfl
    refine .build hwritten hexpander (by simp)
      ⟨⟨fun d hd => ?_, History.tabulates_nil⟩, fun d hd => ?_⟩ hfills
    · rcases List.mem_pair.1 hd with rfl | rfl <;> exact built rfl rfl
    · rcases List.mem_pair.1 hd with rfl | rfl <;> exact ordinary rfl rfl
  have hmakes : filled.Builds ⟨[inner, inner, outer], [m], [ref]⟩ hooks 0 outer
    (.ok ⟨included, {}⟩) made := .make rfl
  have hmade : made.Reached .builtOrdinary
      ⟨[included.expression, inner, inner, outer], [included, m], [ref]⟩ := by
    have hexpander : filled.expanders[0]? = some ⟨⟨{}, custom⟩, []⟩ := rfl
    refine .build hfilled hexpander (by simp)
      ⟨⟨fun d hd => ?_, History.tabulates_nil⟩, fun d hd => ?_⟩ hmakes
    · rcases List.mem_pair.1 hd with rfl | rfl
      · exact built rfl rfl
      · refine .mk (fun _ => .includeGiven (t := { next := 4 })
          (.reference (t := { next := 3 }) (List.mem_singleton_self ref) rfl) rfl) fun d hd => ?_
        rcases List.mem_pair.1 hd with rfl | rfl <;> exact built rfl rfl
    · rcases List.mem_pair.1 hd with rfl | rfl
      · exact ordinary rfl rfl
      · refine .mk (fun op hop => ?_) fun d hd => ?_
        · obtain rfl := Option.some.inj hop
          exact .inl (by decide)
        · rcases List.mem_pair.1 hd with rfl | rfl <;> exact ordinary rfl rfl
  exact ⟨_, made, included, hmade, List.mem_cons_self, rfl, hmade.functionTy_eq List.mem_cons_self⟩

/-- A run in which a call without a marker is taken for the marked call of the same key that was
looked up before it, and gives way to an expression of another type than its own. -/
theorem Reached.functionTy_ne :
    ∃ (h : History) (s : Session) (m : Mapper), s.Reached .built h ∧ m ∈ h.mappers ∧
      m.expression.functionTy ≠ m.given.functionTy := by
  let ref : MapperReference := ⟨1, .int, .string⟩
  let x : Param := ⟨0, "x", .int⟩
  let y : Param := ⟨3, "y", .int⟩
  let z : Param := ⟨7, "z", .int⟩
  let text : Expr := .constant 1 .string (.string "a")
  let inner : Lambda := ⟨2, [x], text⟩
  let operand : Expr := .constant 4 (.mapper .int .string) (.mapperReference ref)
  let call : Expr := .call 5 .string .includeGiven none [.param y, operand]
  let outer : Lambda := ⟨6, [y], call⟩
  let twin : Operation := ⟨Operation.includeGiven.signature, [], none⟩
  let taken : Expr := .call 8 .int twin none [.param z, operand]
  let last : Lambda := ⟨9, [z], taken⟩
  let m : Mapper := ⟨1, .int, .string, inner, inner⟩
  let included : Mapper := ⟨2, .int, .string, outer, ⟨12, [y], text⟩⟩
  let mistaken : Mapper := ⟨3, .int, .int, last, ⟨14, [z], text⟩⟩
  let hooks : Hooks := ⟨0, fun _ _ => ⟨[], .value .null⟩, fun _ => none⟩
  let custom : CustomTransformers := fun _ _ => .error "none"
  let cache : TransformerCache :=
    [(Operation.includeGiven.signature, some ⟨10, CallSite.inlineGiven false⟩)]
  let register : Register := { nextMapper := 2, made := [.ref ref] }
  let written : Session :=
    { Session.start custom with trail := { next := 10, register := register } }
  let filled : Session := { written with filled := [(1, m)] }
  let made : Session :=
    { filled with
      trail := { next := 13, register := { nextMapper := 3, made := [.ref ref, .mapper included] } }
      expanders := [⟨⟨{}, custom⟩, cache⟩] }
  let remade : Session :=
    { made with
      trail :=
        { next := 15
          register :=
            { nextMapper := 4, made := [.ref ref, .mapper included, .mapper mistaken] } } }
  let F : Forest := .ofLists [.param x, text, .param y, operand, call, .param z, taken]
    [inner, outer, last] (by decide) (by decide) (by simp [Expr.parts, call, operand, text, taken])
    (by simp [Expr.fn?, call, operand, text, taken]) (by simp [inner, outer, last])
    (by simp [inner, outer, last])
  have leaf {h : History} {e : Expr} (hop : e.markers = []) (hchildren : e.children = []) :
      e.All fun e => e.markers ≠ [] → e.IsBuilt h :=
    .leaf (absurd hop ·) hchildren
  let fs : List Lambda := [inner, outer, last]
  have hrefers : outcome (PlannedMapper.make .int .string {}) (.start custom) =
    (.ok ⟨ref, {}⟩, { Session.start custom with trail := { register := register } }) := rfl
  have hfns : ∀ f ∈ fs ++ [], F.fns f := by simp [F, fs, Forest.ofLists]
  have hwritten : written.Reached .built ⟨fs, [], [ref]⟩ :=
    .write (.refer (.start custom) hrefers) hfns (Forest.below_ofLists (by decide) (by decide))
      (.work (Nat.zero_le _) rfl rfl)
  have hfills : written.Builds ⟨fs, [], [ref]⟩ hooks 0 inner (.ok ⟨m, {}⟩) filled :=
    .fill (List.mem_singleton_self ref) rfl
  have hfilled : filled.Reached .built ⟨inner :: fs, [m], [ref]⟩ := by
    have hexpander : written.expanders[0]? = some ⟨⟨{}, custom⟩, []⟩ := rfl
    refine .build hwritten hexpander (by simp [fs]) ⟨fun d hd => ?_, History.tabulates_nil⟩ hfills
    rcases List.mem_pair.1 hd with rfl | rfl <;> exact leaf rfl rfl
  have hmakes : filled.Builds ⟨inner :: fs, [m], [ref]⟩ hooks 0 outer (.ok ⟨included, {}⟩) made :=
    .make rfl
  have hmade : made.Reached .built
      ⟨included.expression :: inner :: fs, [included, m], [ref]⟩ := by
    have hexpander : filled.expanders[0]? = some ⟨⟨{}, custom⟩, []⟩ := rfl
    refine .build hfilled hexpander (by simp [fs]) ⟨fun d hd => ?_, History.tabulates_nil⟩ hmakes
    rcases List.mem_pair.1 hd with rfl | rfl
    · exact leaf rfl rfl
    · refine .mk (fun _ => .includeGiven (t := { next := 5 })
        (.reference (t := { next := 4 }) (List.mem_singleton_self ref) rfl) rfl) fun d hd => ?_
      rcases List.mem_pair.1 hd with rfl | rfl <;> exact leaf rfl rfl
  have hmistakes : made.Builds ⟨included.expression :: inner :: fs, [included, m], [ref]⟩ hooks 0
    last (.ok ⟨mistaken, {}⟩) remade := .make rfl
  have hremade : remade.Reached .built ⟨mistaken.expression :: included.expression :: inner :: fs,
      [mistaken, included, m], [ref]⟩ := by
    have hexpander : made.expanders[0]? = some ⟨⟨{}, custom⟩, cache⟩ := rfl
    refine .build hmade hexpander (by simp [fs]) ⟨fun d hd => ?_, History.tabulates_nil⟩ hmistakes
    rcases List.mem_pair.1 hd with rfl | rfl
    · exact leaf rfl rfl
    · refine .mk (fun h => absurd rfl h) fun d hd => ?_
      rcases List.mem_pair.1 hd with rfl | rfl <;> exact leaf rfl rfl
  exact ⟨_, remade, mistaken, hremade, List.mem_cons_self, by decide⟩

end Session

end

end ObjectMapping
