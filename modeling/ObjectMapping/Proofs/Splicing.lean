import ObjectMapping.Proofs.Blocking
import ObjectMapping.Proofs.Expansions
import ObjectMapping.Proofs.SelfInclusion

/-!
# Which calls are expanded, and to what

`Expr.Inlines` says what a call needs so that a built-in transformer inlines the mapping expression
that its operand holds, and `Expr.Splices` what takes the place of the call then : the body over the
source, guarded or not, or a projection over a parameter that is new. The two are what the
transformer does (`ExpanderDesign.expand_splices`) and when it succeeds
(`ExpanderDesign.expand_reaches`). Nothing is left open but the identities of the nodes that are
made.
-/

namespace ObjectMapping

open RunM

/-! ## What is made around a body -/

/-- A node for the default value of a type. -/
def Expr.defaultNode (i : NodeId) (ty : Ty) : Expr :=
  if ty.isValueType then .default i ty else .constant i ty .null

/-- The body, guarded by a comparison of the source with its default value. -/
def Expr.IsGuard (source body e : Expr) : Prop :=
  ∃ i j k l, e = .conditional i body.ty
    (.binary j .bool .equal source (defaultNode k source.ty)) (defaultNode l body.ty) body

/-- The projection of the source through the lambda, by the operation that its type asks for. -/
def Expr.IsProjection (source : Expr) (f : Lambda) (e : Expr) : Prop :=
  ∃ i j, e = if source.ty.queryItemTy?.isSome then
    .call i (.sequence .queryable f.returnTy) .queryableSelect none [source, .quote j f]
  else .call i (.sequence .enumerable f.returnTy) .enumerableSelect none [source, .lambda j f]

section

variable {ty : Ty} {t : Trail}

theorem Expr.ty_defaultNode (i : NodeId) : (defaultNode i ty).ty = ty := by
  unfold defaultNode
  split <;> rfl

theorem Expr.outcome_mkDefault :
    outcome (mkDefault ty) t = (.ok (defaultNode t.next ty), { t with next := t.next + 1 }) := by
  unfold mkDefault defaultNode
  split <;> rfl

/-- A guard is always made. -/
theorem Expr.outcome_guarding (source body : Expr) (t : Trail) :
    ∃ e t', outcome (guarding source body) t = (.ok e, t') ∧ t.next ≤ t'.next ∧
      source.IsGuard body e := by
  refine ⟨_, { t with next := t.next + 4 }, ?_, Nat.le_add_right .., t.next + 3, t.next + 2,
    t.next + 1, t.next, rfl⟩
  rw [guarding, outcome_bind_of_ok outcome_mkDefault, outcome_bind_of_ok outcome_mkDefault]
  have hbinary {d : Expr} {t : Trail} : outcome (mkBinary .equal source d) t =
    (.ok (.binary t.next .bool .equal source d), { t with next := t.next + 1 }) := rfl
  rw [outcome_bind_of_ok hbinary]
  have hconditional {test d : Expr} {t : Trail} : outcome (mkConditional test d body) t =
    (.ok (.conditional t.next d.ty test d body), { t with next := t.next + 1 }) := rfl
  rw [hconditional, ty_defaultNode]

/-- A sequence is always projected. -/
theorem Expr.outcome_select_of_item (source : Expr) (f : Lambda) (t : Trail)
    (hitem : source.ty.itemTy?.isSome = true) :
    ∃ e t', outcome (source.select f) t = (.ok e, t') ∧ t.next ≤ t'.next ∧
      source.IsProjection f e := by
  refine ⟨_, { t with next := t.next + 2 }, ?_, Nat.le_add_right .., t.next + 1, t.next, rfl⟩
  by_cases hquery : source.ty.queryItemTy?.isSome = true
  · simp only [select, if_pos hquery]
    rfl
  · simp only [select, if_neg hquery, if_pos hitem]
    rfl

end

/-! ## Inlining -/

/-- The value is the mapper under construction, or refers to it. -/
def Value.IsCurrent (cx : BuildContext) (v : Value) : Prop :=
  ∃ id, v.mapperId? = some id ∧ cx.isBuilding id = true

section

variable {F : Forest} {host : Host} {cx : BuildContext} {source e : Expr} {g : Lambda} {p : Param}
  {i : NodeId} {ty : Ty} {v : Value} {t t' : Trail}

/-- A value holds one mapping expression at most. -/
theorem Value.Holds.unique {g' : Lambda} (h : v.Holds host g) (h' : v.Holds host g') : g = g' := by
  cases h with
  | reference hm =>
    cases h' with | reference hm' =>
    obtain rfl := Option.some.inj (hm.symm.trans hm')
    rfl
  | _ =>
    cases h'
    rfl

/-- What a constant holds is given out, unless it is the mapper under construction. -/
theorem Expr.heldLambda_yields (hv : v.Holds host g) (hcurrent : ¬ v.IsCurrent cx) {n : NodeId} :
    Yields (n ≤ ·.next) ((Expr.constant i ty v).heldLambda host cx) g := by
  have hrefuse {id : MapperId} (hid : v.mapperId? = some id) :
      Yields (fun t : Trail => n ≤ t.next) (cx.refuseCurrent id) () := by
    rw [BuildContext.refuseCurrent, if_neg fun h => hcurrent ⟨id, hid, h⟩]
    exact .pure
  have heval : Yields (fun t : Trail => n ≤ t.next) ((Expr.constant i ty v).evaluate host) v :=
    fun t ht => ⟨Nat.le_succ_of_le ht, rfl⟩
  refine heval.next ?_
  cases hv with
  | mapper m => exact (hrefuse rfl).bind .pure
  | reference hm =>
    refine (hrefuse rfl).next ?_
    rw [hm]
    exact Yields.pure
  | expression | function => exact Yields.pure

theorem Expr.outcome_heldLambda_holds (hF : F.Below t.next)
    (h : outcome ((Expr.constant i ty v).heldLambda host cx) t = (.ok g, t')) :
    v.Holds host g ∧ ¬ v.IsCurrent cx ∧ t.next ≤ t'.next := by
  obtain ⟨-, G, -, -, hg⟩ := heldLambda_leadsTo.made F.le_refl hF trivial h
  have hnext := (heldLambda_advances host (.constant i ty v) cx (.above t.next) t (Nat.le_refl _)).1
  rw [h] at hnext
  refine ⟨hg, fun ⟨id, hid, hcx⟩ => ?_, hnext⟩
  obtain ⟨-, fault, hfault⟩ := heldLambda_fails hid hcx t (Nat.le_refl t.next)
  rw [h] at hfault
  cases hfault

/-- Nothing stands in the way of the body of the lambda over the source, its parameter being `p`. -/
structure Lambda.FitsOver (g : Lambda) (p : Param) (source : Expr) : Prop where
  params : g.params = [p]
  ty : p.ty = source.ty
  unblocked : source ≠ .param p → ¬ g.body.Blocks p source

/-- What a lambda is inlined to if it is. -/
theorem Lambda.outcome_inline (hg : F.fns g) (hformed : g.WellFormed) (hs : F.nodes source)
    (hF : F.Below t.next) (h : outcome (g.inline source) t = (.ok e, t')) :
    ∃ p, g.FitsOver p source ∧ g.body.Becomes (.replacing [⟨.param p, source⟩]) e := by
  obtain ⟨p, hp, hty, hbecomes, -⟩ := inline_becomes hg hs hF h
  refine ⟨p, ⟨hp, hty, fun hne hblocks => ?_⟩, hbecomes⟩
  obtain ⟨-, hfails, -⟩ := inline_failsIff hF hg hformed hs hp hty t (Nat.le_refl _)
  obtain ⟨fault, hfault, -⟩ := hfails ⟨hne, hblocks⟩
  rw [h] at hfault
  cases hfault

/-- A lambda that fits over a source is inlined. -/
theorem Lambda.FitsOver.reaches {n : NodeId} (h : g.FitsOver p source) (hg : F.fns g)
    (hformed : g.WellFormed) (hs : F.nodes source) (hF : F.Below n) :
    Reaches (n ≤ ·.next) (g.inline source) fun _ => True :=
  (inline_failsIff hF hg hformed hs h.params h.ty).reaches fun hblocks =>
    h.unblocked hblocks.1 hblocks.2

/-- The body of the lambda over the source, guarded if so wanted. -/
def Expr.IsInlined (source : Expr) (guarded : Bool) (g : Lambda) (p : Param) (e : Expr) : Prop :=
  ∃ body, g.body.Becomes (.replacing [⟨.param p, source⟩]) body ∧
    if guarded then source.IsGuard body e else e = body

/-- The projection of the source through the body of the lambda over a parameter that is new : no
node of the forest has its identity. -/
def Expr.IsMapped (F : Forest) (source : Expr) (g : Lambda) (p : Param) (e : Expr) : Prop :=
  ∃ q f, (∀ d, F.nodes d → d.id ≠ q.id) ∧ q.ty = p.ty ∧ f.params = [q] ∧
    g.body.Becomes (.replacing [⟨.param p, .param q⟩]) f.body ∧ source.IsProjection f e

/-- An object mapping that is inlined fits over the source. -/
theorem Expr.outcome_inlineOver {guarded : Bool} (hknown : ∀ g, v.Holds host g → F.fns g)
    (hformed : ∀ g, v.Holds host g → g.WellFormed) (hs : F.nodes source) (hF : F.Below t.next)
    (h : outcome (source.inlineOver host (.constant i ty v) guarded cx) t = (.ok e, t')) :
    ∃ g p, v.Holds host g ∧ ¬ v.IsCurrent cx ∧ g.FitsOver p source ∧
      source.IsInlined guarded g p e := by
  obtain ⟨g, t₁, hheld, h⟩ := outcome_bind_ok.1 h
  obtain ⟨hg, hcurrent, hnext⟩ := outcome_heldLambda_holds hF hheld
  obtain ⟨body, t₂, hbody, h⟩ := outcome_bind_ok.1 h
  obtain ⟨p, hfits, hbecomes⟩ :=
    Lambda.outcome_inline (hknown g hg) (hformed g hg) hs (hF.mono hnext) hbody
  refine ⟨g, p, hg, hcurrent, hfits, body, hbecomes, ?_⟩
  cases guarded with
  | false =>
    obtain ⟨rfl, -⟩ := outcome_pure_ok.1 h
    rfl
  | true =>
    obtain ⟨e', t₃, hguard, -, his⟩ := outcome_guarding source body t₂
    obtain ⟨rfl, -⟩ : e' = e ∧ t₃ = t' := by simpa using hguard.symm.trans h
    exact his

/-- An object mapping that fits over the source is inlined. -/
theorem Expr.inlineOver_reaches {guarded : Bool} {n : NodeId} (hg : v.Holds host g)
    (hcurrent : ¬ v.IsCurrent cx) (hfits : g.FitsOver p source) (hgF : F.fns g)
    (hformed : g.WellFormed) (hs : F.nodes source) (hF : F.Below n) :
    Reaches (n ≤ ·.next) (source.inlineOver host (.constant i ty v) guarded cx) fun _ => True := by
  refine (heldLambda_yields hg hcurrent).next ?_
  refine (hfits.reaches hgF hformed hs hF).bind fun body _ => ?_
  cases guarded with
  | false => exact .pure trivial
  | true =>
    intro t ht
    obtain ⟨e, t', hguard, hnext, -⟩ := outcome_guarding source body t
    simp only [if_true, hguard]
    exact ⟨Nat.le_trans ht hnext, e, rfl, trivial⟩

/-- A collection mapping that is inlined takes the items of the source. -/
theorem Expr.outcome_inlineOverItems {stem : String} (hknown : ∀ g, v.Holds host g → F.fns g)
    (hF : F.Below t.next)
    (h : outcome (source.inlineOverItems host (.constant i ty v) stem cx) t = (.ok e, t')) :
    ∃ g p kind, v.Holds host g ∧ ¬ v.IsCurrent cx ∧ g.params = [p] ∧
      source.ty = .sequence kind p.ty ∧ source.IsMapped F g p e := by
  unfold inlineOverItems at h
  cases hitem : source.ty.itemTy? with
  | none => simp [hitem] at h
  | some element =>
    simp only [hitem] at h
    obtain ⟨kind, hkind⟩ := Ty.itemTy?_eq_some_iff.1 hitem
    obtain ⟨g, t₁, hheld, h⟩ := outcome_bind_ok.1 h
    obtain ⟨hg, hcurrent, hnext⟩ := outcome_heldLambda_holds hF hheld
    obtain ⟨j, t₂, hj, h⟩ := outcome_bind_ok.1 h
    obtain ⟨rfl, rfl⟩ := outcome_fresh_ok.1 hj
    obtain ⟨q, t₃, hq, h⟩ := outcome_bind_ok.1 h
    have hF' : F.Below (t₁.next + 1) := hF.mono (Nat.le_succ_of_le hnext)
    obtain ⟨-, G, hFG, hG, hqG⟩ := Forest.exists_makeParam hF' hq
    obtain ⟨rfl, -⟩ := outcome_makeParam hq
    obtain ⟨body, t₄, hbody, h⟩ := outcome_bind_ok.1 h
    obtain ⟨p, hp, hty, hbecomes, -⟩ :=
      Lambda.inline_becomes (hFG.2 _ (hknown g hg)) hqG hG hbody
    obtain ⟨f, t₅, hf, hprojection⟩ := outcome_bind_ok.1 h
    obtain ⟨-, hparams, rfl, -⟩ := outcome_ofExprs hf
    obtain ⟨e', t₆, hselect, -, his⟩ := outcome_select_of_item source f t₅ (by rw [hitem]; rfl)
    obtain ⟨rfl, -⟩ : e' = e ∧ t₆ = t' := by simpa using hselect.symm.trans hprojection
    refine ⟨g, p, kind, hg, hcurrent, hp, hty ▸ hkind, ⟨_, _, _⟩, f, fun d hd => ?_, hty.symm, ?_,
      hbecomes, his⟩
    · exact Nat.ne_of_lt (hF'.node hd)
    · exact (List.map_injective_iff.2 fun _ _ => Expr.param.inj) hparams.symm

/-- A collection mapping that takes the items of the source is inlined. -/
theorem Expr.inlineOverItems_reaches {stem : String} {kind : SequenceKind} {n : NodeId}
    (hg : v.Holds host g) (hcurrent : ¬ v.IsCurrent cx) (hp : g.params = [p])
    (hty : source.ty = .sequence kind p.ty) (hgF : F.fns g) (hformed : g.WellFormed)
    (hF : F.Below n) :
    Reaches (n ≤ ·.next) (source.inlineOverItems host (.constant i ty v) stem cx)
      fun _ => True := by
  have hitem : source.ty.itemTy? = some p.ty := Ty.itemTy?_eq_some_iff.2 ⟨kind, hty⟩
  simp only [inlineOverItems, hitem]
  refine (heldLambda_yields hg hcurrent).next ?_
  refine Reaches.bind (P := fun _ => True) (fun t ht => ?_) fun j _ t ht => ?_
  · exact ⟨Nat.le_succ_of_le ht, t.next, rfl, trivial⟩
  -- the new parameter is bound nowhere
  let q : Param := ⟨t.next, stem ++ uniqueName j, p.ty⟩
  have hq : outcome (Param.make (stem ++ uniqueName j) p.ty) t =
    (.ok q, { t with next := t.next + 1 }) := rfl
  have hFt : F.Below t.next := hF.mono ht
  have hqF : ¬ F.nodes (.param q) := fun h => Nat.lt_irrefl _ (hFt.node h)
  obtain ⟨G, hFG, hG, hqG⟩ := Forest.exists_grow (e := .param q) hFt (by simp [parts])
    (by simp [fn?])
  have hfits : g.FitsOver p (.param q) := by
    refine ⟨hp, rfl, fun _ => ?_⟩
    exact F.not_someFn (fun f hf hrefuses => hqF (F.param hf (hrefuses.2 q rfl))) (F.body hgF)
  have hrest : Reaches (fun t : Trail => q.id + 1 ≤ t.next) (do
      let body ← g.inline (.param q)
      source.select (← Lambda.unary (.param q) body)) fun _ => True := by
    refine (hfits.reaches (hFG.2 _ hgF) hformed hqG hG).bind fun body _ => ?_
    refine Reaches.bind (P := fun _ => True) (fun t ht => ?_) fun f _ t ht => ?_
    · exact ⟨Nat.le_succ_of_le ht, ⟨t.next, [q], body⟩, rfl, trivial⟩
    · obtain ⟨e, t', hselect, hnext, -⟩ :=
        outcome_select_of_item source f t (by rw [hitem]; rfl)
      rw [hselect]
      exact ⟨Nat.le_trans ht hnext, e, rfl, trivial⟩
  rw [outcome_bind_of_ok hq]
  obtain ⟨hnext, hends⟩ := hrest { t with next := t.next + 1 } (Nat.le_refl _)
  exact ⟨Nat.le_trans (Nat.le_succ_of_le ht) hnext, hends⟩

end

/-! ## Transformers -/

/-- Whether the body that takes the place of a marked call is guarded. -/
def Expr.guards (options : Options) (e : Expr) : Bool :=
  match e.markers with
  | [.mapWith] | [.map] => options.nullPropagation
  | _ => false

/-- Nothing stands in the way of the mapping expression that the operand of a marked call holds :
it is not the one under construction, and fits over the source, or over its items. -/
structure Expr.Inlines (host : Host) (cx : BuildContext) (e source : Expr) (g : Lambda)
    (p : Param) : Prop where
  first : e.source? = some source
  operand : ∃ i ty v, e.operand? = some (.constant i ty v) ∧ v.Holds host g ∧ ¬ v.IsCurrent cx
  fits : e.markers ≠ [.mapAllWith] → g.FitsOver p source
  items : e.markers = [.mapAllWith] → g.params = [p] ∧ ∃ kind, source.ty = .sequence kind p.ty

/-- What takes the place of a marked call : the mapping expression over the source, or over its
items. -/
def Expr.Splices (F : Forest) (host : Host) (cx : BuildContext) (options : Options)
    (e e' : Expr) : Prop :=
  ∃ source g p, e.Inlines host cx source g p ∧
    (e.markers ≠ [.mapAllWith] → source.IsInlined (e.guards options) g p e') ∧
    (e.markers = [.mapAllWith] → source.IsMapped F g p e')

namespace ExpanderDesign

variable {design : ExpanderDesign} {F : Forest} {host : Host} {cx : BuildContext} {i : NodeId}
  {ty : Ty} {op : Operation} {receiver : Option Expr} {arguments : List Expr}
  {made : SiteTransformer} {e source operand : Expr}

/-- What the transformer of a call does whose mapper is an operand. -/
theorem expand_eq (he : e = .call i ty op receiver arguments) (hmakes : design.Makes op (some made))
    (hs : e.source? = some source) (ho : e.operand? = some operand) :
    made.apply host ⟨e, op, receiver, arguments⟩ cx =
      if e.markers = [.mapAllWith] then
        source.inlineOverItems host operand design.settings.options.parameterStem cx
      else source.inlineOver host operand (e.guards design.settings.options) cx := by
  subst he
  cases hmakes with | @some marker _ expand hmarkers hexpand =>
  have argument {k : Nat} {d : Expr} (h : arguments[k]? = .some d) :
      CallSite.argument ⟨.call i ty op receiver arguments, op, receiver, arguments⟩ k =
        pure d := by
    simp only [CallSite.argument, h]
  rw [Expr.source?] at hs
  simp only [Expr.operand?, hmarkers] at ho
  simp only [Expr.markers, hmarkers, Expr.guards]
  cases marker with
  | includeGiven | mapWith =>
    obtain rfl := Except.ok.inj hexpand
    simp [SiteTransformer.apply, CallSite.inlineGiven, argument hs, argument ho]
  | mapAllWith =>
    obtain rfl := Except.ok.inj hexpand
    simp [SiteTransformer.apply, CallSite.inlineGivenOverItems, argument hs, argument ho]
  | map =>
    obtain rfl := Except.ok.inj hexpand
    obtain rfl : receiver = .some operand := ho
    simp [SiteTransformer.apply, CallSite.inlineReceiver, argument hs]
  | includeResolved | custom => cases ho

/-- A call without arguments is not expanded. -/
theorem source?_of_expand (he : e = .call i ty op receiver arguments)
    (hmakes : design.Makes op (some made)) (ho : e.operand? = some operand) {e' : Expr}
    {t t' : Trail}
    (h : outcome (made.apply host ⟨e, op, receiver, arguments⟩ cx) t = (.ok e', t')) :
    ∃ source, e.source? = some source := by
  subst he
  cases hmakes with | @some marker _ expand hmarkers hexpand =>
  have argument {α : Type} {f : Expr → RunM α} {a : α} (h : outcome (do
      let source ← CallSite.argument ⟨.call i ty op receiver arguments, op, receiver, arguments⟩ 0
      f source) t = (.ok a, t')) : ∃ source, arguments[0]? = .some source := by
    obtain ⟨source, t₁, hsource, -⟩ := outcome_bind_ok.1 h
    unfold CallSite.argument at hsource
    split at hsource
    · exact ⟨_, ‹_›⟩
    · simp at hsource
  rw [Expr.source?]
  simp only [Expr.operand?, hmarkers] at ho
  cases marker with
  | includeGiven | mapWith | mapAllWith =>
    obtain rfl := Except.ok.inj hexpand
    exact argument h
  | map =>
    obtain rfl := Except.ok.inj hexpand
    obtain rfl : receiver = .some operand := ho
    exact argument h
  | includeResolved | custom => cases ho

/-- What the transformer of a built-in call makes, if it makes anything. -/
theorem expand_splices (he : e = .call i ty op receiver arguments)
    (hmakes : design.Makes op (some made))
    (hoperand : ∃ i ty v, e.operand? = some (.constant i ty v) ∧
      ∀ g, v.Holds host g → F.fns g ∧ g.WellFormed)
    (hsource : ∀ source, e.source? = some source → F.nodes source) :
    LeadsTo F (made.apply host ⟨e, op, receiver, arguments⟩ cx) fun G e' =>
      G.nodes e' ∧ e.Splices F host cx design.settings.options e' := by
  obtain ⟨j, cty, v, ho, hknown⟩ := hoperand
  refine ⟨fun {G t t' e'} hFG hG _ h => ?_⟩
  obtain ⟨source, hs⟩ := source?_of_expand he hmakes ho h
  rw [expand_eq he hmakes hs ho] at h
  have hsG := hFG.1 _ (hsource _ hs)
  have hfns (g : Lambda) (hg : v.Holds host g) : G.fns g := hFG.2 _ (hknown g hg).1
  by_cases hitems : e.markers = [.mapAllWith]
  · rw [if_pos hitems] at h
    obtain ⟨-, H, hGH, hH, he', -⟩ :=
      (Expr.inlineOverItems_leadsTo hsG hfns).made G.le_refl hG trivial h
    obtain ⟨g, p, kind, hg, hcurrent, hp, hkind, q, f, hq, hmapped⟩ :=
      Expr.outcome_inlineOverItems hfns hG h
    refine ⟨trivial, H, hGH, hH, he', source, g, p, ⟨hs, ⟨j, cty, v, ho, hg, hcurrent⟩,
      fun hne => absurd hitems hne, fun _ => ⟨hp, kind, hkind⟩⟩, fun hne => absurd hitems hne,
      fun _ => ⟨q, f, fun d hd => hq d (hFG.1 _ hd), hmapped⟩⟩
  · rw [if_neg hitems] at h
    obtain ⟨-, H, hGH, hH, he', -⟩ :=
      (Expr.inlineOver_leadsTo hsG hfns).made G.le_refl hG trivial h
    obtain ⟨g, p, hg, hcurrent, hfits, hinlined⟩ :=
      Expr.outcome_inlineOver hfns (fun g hg => (hknown g hg).2) hsG hG h
    exact ⟨trivial, H, hGH, hH, he', source, g, p, ⟨hs, ⟨j, cty, v, ho, hg, hcurrent⟩,
      fun _ => hfits, fun heq => absurd heq hitems⟩, fun _ => hinlined,
      fun heq => absurd heq hitems⟩

/-- The transformer of a built-in call makes something, if nothing stands in the way. -/
theorem expand_reaches {n : NodeId} {g : Lambda} {p : Param}
    (he : e = .call i ty op receiver arguments) (hmakes : design.Makes op (some made))
    (h : e.Inlines host cx source g p) (hgF : F.fns g) (hformed : g.WellFormed)
    (hsF : F.nodes source) (hF : F.Below n) :
    Reaches (n ≤ ·.next) (made.apply host ⟨e, op, receiver, arguments⟩ cx) fun _ => True := by
  obtain ⟨j, cty, v, ho, hg, hcurrent⟩ := h.operand
  rw [expand_eq he hmakes h.first ho]
  split
  · rename_i hitems
    obtain ⟨hp, kind, hkind⟩ := h.items hitems
    exact Expr.inlineOverItems_reaches hg hcurrent hp hkind hgF hformed hF
  · rename_i hobject
    exact Expr.inlineOver_reaches hg hcurrent (h.fits hobject) hgF hformed hsF hF

end ExpanderDesign

/-! ## The pass -/

/-- The judgement of a pass over calls of built-in operations whose operands are constants. -/
def Judgement.splicing (F : Forest) (host : Host) (cx : BuildContext) (options : Options) :
    Judgement where
  enters e := e.markers = []
  puts := Expr.Splices F host cx options
  stands _ := False

/-- The call has as its operand a constant, and what that holds is known. -/
def Expr.TakesKnown (host : Host) (K : Lambda → Prop) (e : Expr) : Prop :=
  ∃ i ty v, e.operand? = some (.constant i ty v) ∧ ∀ ⦃g⦄, v.Holds host g → K g

/-- A pass comes to an end on the expression : nothing stands in the way of the marked calls that it
comes to. -/
inductive Expr.Expandable (host : Host) (cx : BuildContext) : Expr → Prop
  | marked {e source : Expr} {g : Lambda} {p : Param} : e.Inlines host cx source g p →
    Expandable host cx e
  | node {e : Expr} : e.markers = [] → (∀ d ∈ e.children, Expandable host cx d) →
    Expandable host cx e

section

variable {F : Forest} {host : Host} {cx : BuildContext} {options : Options} {e e' source : Expr}
  {g : Lambda} {p : Param}

theorem Expr.Inlines.markers_ne (h : e.Inlines host cx source g p) : e.markers ≠ [] := by
  obtain ⟨i, ty, v, ho, -⟩ := h.operand
  exact markers_ne_of_operand? ho

theorem Expr.Splices.markers_ne (h : e.Splices F host cx options e') : e.markers ≠ [] := by
  obtain ⟨_, _, _, hinlines, -⟩ := h
  exact hinlines.markers_ne

theorem Expr.becomes_splicing : e.Becomes (.splicing F host cx options) e' ↔
    e.markers = [] ∧ e.Rebuilt (.splicing F host cx options) e' ∨
      e.markers ≠ [] ∧ e.Splices F host cx options e' := by
  constructor
  · intro h
    cases h with
    | put h => exact .inr ⟨h.markers_ne, h⟩
    | enter he hr => exact .inl ⟨he, hr⟩
    | standIn h => exact False.elim h
    | stay h => exact False.elim h
  · rintro (⟨he, hr⟩ | ⟨-, h⟩)
    · exact .enter he hr
    · exact .put h

namespace ExpanderDesign

variable {design : ExpanderDesign} {ops : Operation → Prop} {D : Forest} {n : NodeId}
  (hkeys : ∀ {op op' : Operation}, ops op → ops op' → op.signature = op'.signature →
    op.markers = op'.markers)

include hkeys

/-- A pass over calls of built-in operations whose operands are constants does what the judgement
says. -/
theorem visitor_follows_splicing (hDF : D ≤ F) (hops : ∀ e, D.nodes e → e.CallsIn ops)
    (hoperand : ∀ e, D.nodes e → e.markers ≠ [] →
      e.TakesKnown host fun g => F.fns g ∧ g.WellFormed) :
    (design.visitor host cx).Follows (fun s => design.Caches ops s.2) D F
      (.splicing F host cx design.settings.options) := by
  refine visitor_follows_of hDF hkeys hops (fun _ h => h) ?_
  intro e id ty op receiver arguments made he hcall hmakes
  have hmarked : e.markers ≠ [] := by
    cases hmakes with | some hmarkers => simp [hcall, Expr.markers, hmarkers]
  exact expand_splices hcall hmakes (hoperand e he hmarked) fun source h =>
    hDF.1 _ (D.part he (Expr.mem_parts_of_source? h))

/-- A transformer that can be made is made, or found in the cache. -/
theorem transformerOf_reaches {op : Operation} {marker : Marker} {expand : SiteExpansion}
    (hop : ops op) (hmarkers : op.markers = [marker])
    (hexpand : marker.transformer? design.custom design.settings = .ok expand) :
    Reaches (design.Kept ops (.above n)) (design.transformerOf op) fun transformer =>
      ∃ made, transformer = some made ∧ design.Makes op (some made) := by
  refine (known_upholds hop).bind (fun known hknown => ?_) fun _ ⟨_, h⟩ => nomatch h
  obtain ⟨hknown, -⟩ := hknown
  cases known with
  | some transformer =>
    have hmakes := hknown transformer rfl
    cases transformer with
    | none => cases hmakes with | none hnone => exact absurd (hmarkers.symm.trans hnone) (by simp)
    | some made => exact Reaches.pure ⟨made, rfl, hmakes⟩
  | none =>
    have hmake : Reaches (fun t : Trail => n ≤ t.next) (design.makeTransformer op)
        fun transformer => ∃ made, transformer = some made ∧ design.Makes op (some made) := by
      simp only [makeTransformer, hmarkers, hexpand]
      intro t ht
      exact ⟨Nat.le_succ_of_le ht, _, rfl, ⟨t.next, expand⟩, rfl, .some hmarkers hexpand⟩
    refine Reaches.bind (Kept.lift hmake) fun transformer hmade => ?_
    obtain ⟨made, rfl, hmakes⟩ := hmade
    exact (keep_yields hkeys hop hmakes).next (Reaches.pure ⟨made, rfl, hmakes⟩)

/-- A pass comes to an end on a marked call that nothing stands in the way of. -/
theorem judge_reaches (hF : F.Below n) (he : F.nodes e) (hops : e.CallsIn ops)
    (hknown : e.TakesKnown host fun g => F.fns g ∧ g.WellFormed)
    (h : e.Inlines host cx source g p) :
    Reaches (design.Kept ops (.above n)) ((design.visitor host cx).judge e) fun verdict =>
      ∃ e', verdict = .put e' := by
  obtain ⟨i, ty, v, ho, hg, -⟩ := h.operand
  obtain ⟨i', ty', v', ho', hknown⟩ := hknown
  obtain ⟨-, -, rfl⟩ := Expr.constant.inj (Option.some.inj (ho.symm.trans ho'))
  obtain ⟨hgF, hformed⟩ := hknown hg
  cases e with
  | call id cty op receiver arguments =>
    obtain ⟨marker, hmarkers, expand, hexpand⟩ : ∃ marker, op.markers = [marker] ∧
        ∃ expand, marker.transformer? design.custom design.settings = .ok expand := by
      rw [Expr.operand?] at ho
      split at ho
      case h_5 => cases ho
      all_goals exact ⟨_, ‹_›, _, rfl⟩
    refine (transformerOf_reaches hkeys (hops op rfl) hmarkers hexpand).bind
      fun transformer hmade => ?_
    obtain ⟨made, rfl, hmakes⟩ := hmade
    exact Reaches.bind (Kept.lift (expand_reaches rfl hmakes h hgF hformed
      (F.part he (Expr.mem_parts_of_source? h.first)) hF)) fun e' _ => .pure ⟨e', rfl⟩
  | _ => cases ho

omit hkeys in
/-- What runs inside a pass and comes to an end does so there. -/
theorem Kept.lift_reaches {α : Type} {run : RunM α} {Q : α → Prop} (hadvances : run.Advances)
    (hrun : Reaches (fun _ => True) run Q) :
    Reaches (design.Kept ops (.above n)) (liftM run : PassM α) Q :=
  Kept.lift fun t ht => ⟨(hadvances (.above n) t ht).1, (hrun t trivial).2⟩

/-- A pass comes to an end on a lambda if it does on the body. -/
theorem walkFn_reaches {f : Lambda} {E : Fault → Prop} (hids : (f.params.map (·.id)).Nodup)
    (hbody :
      FailsIff (design.Kept ops (.above n)) ((design.visitor host cx).apply f.body) E False) :
    FailsIff (design.Kept ops (.above n)) (f.walk (design.visitor host cx)) E False :=
  Visitor.walkFn_failsIff Kept.lift_reaches
    (fun _ _ => judge_yields hkeys (fun _ hop => nomatch hop) rfl) hids hbody

/-- A pass comes to an end on a tree that can be expanded. -/
theorem apply_reaches (hF : F.Below n) (he : F.nodes e) (hformed : e.WellFormed)
    (hops : e.All (Expr.CallsIn ops))
    (hknown : e.All fun c => c.markers ≠ [] → c.TakesKnown host fun g => F.fns g ∧ g.WellFormed)
    (h : e.Expandable host cx) {E : Fault → Prop} :
    FailsIff (design.Kept ops (.above n)) ((design.visitor host cx).apply e) E False := by
  induction h with
  | marked h =>
    refine FailsIff.of_reaches (Q := fun _ => True) ?_
    refine (judge_reaches hkeys hF he hops.head (hknown.head h.markers_ne) h).bind
      fun verdict hverdict => ?_
    obtain ⟨e', rfl⟩ := hverdict
    exact .pure trivial
  | node hmarkers _ ih =>
    refine (judge_yields hkeys hops.head hmarkers).next ((Visitor.walk_failsIff
      (B := fun _ => False) (C := fun _ => False) Kept.lift_reaches
      (fun d hd => ih d (Expr.mem_children.2 (.inl hd)) (F.part he hd) (hformed.part hd)
        (hops.part hd) (hknown.part hd))
      fun f hf => ?_).congr (by simp))
    exact walkFn_reaches hkeys (hformed.fn hf).1
      (ih f.body (Expr.mem_children.2 (.inr ⟨f, hf, List.mem_append_right _ (by simp)⟩))
        (F.body (F.fn he hf)) (hformed.fn hf).2 (hops.fn hf).body (hknown.fn hf).body)

variable {f : Lambda} (hf : F.fns f) (hops : f.body.All (Expr.CallsIn ops))
  (hknown : f.body.All fun c => c.markers ≠ [] → c.TakesKnown host fun g => F.fns g ∧ g.WellFormed)

include hf hops hknown

/-- A pass comes to an end on a lambda whose body can be expanded. -/
theorem expandLambda_reaches (hF : F.Below n) (hformed : f.WellFormed)
    (h : f.body.Expandable host cx) :
    Reaches (design.Kept ops (.above n)) (design.expandLambda host f cx) fun _ => True :=
  (walkFn_reaches (E := fun _ => True) hkeys hformed.1
    (apply_reaches hkeys hF (F.body hf) hformed.2 hops hknown h)).reaches not_false

/-- What a pass makes of a lambda. -/
theorem expandLambda_splices {f' : Lambda} {s s' : Trail × TransformerCache}
    (hF : F.Below s.1.next) (hcache : design.Caches ops s.2)
    (h : outcome (design.expandLambda host f cx) s = (.ok f', s')) :
    f'.params = f.params ∧
      f.body.Becomes (.splicing F host cx design.settings.options) f'.body ∧
      ∃ G, F ≤ G ∧ G.Below s'.1.next ∧ G.fns f' := by
  let P (c : Expr) : Prop := c.CallsIn ops ∧ (c.markers ≠ [] →
    c.TakesKnown host fun g => F.fns g ∧ g.WellFormed)
  have hfP : f.All P := by
    intro d hd
    rcases List.mem_append.1 hd with hd | hd
    · obtain ⟨p, -, rfl⟩ := List.mem_map.1 hd
      exact .leaf ⟨fun _ hop => (nomatch hop), fun hne => absurd rfl hne⟩ rfl
    · obtain rfl := List.mem_singleton.1 hd
      exact hops.and hknown
  obtain ⟨-, G, hFG, hG, hf', hbecomes⟩ := (visitor_follows_splicing hkeys (F.within_le P)
    (fun e he => he.2.head.1) fun e he => he.2.head.2).walkFn F.le_refl ⟨hf, hfP⟩ hF hcache h
  exact ⟨Param.eq_of_becomes hbecomes.params fun hputs => hputs.markers_ne rfl, hbecomes.body, G,
    hFG, hG, hf'⟩

end ExpanderDesign

end

end ObjectMapping
