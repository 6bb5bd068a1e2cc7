import ObjectMapping.DeferredQuery
import ObjectMapping.Proofs.Renaming
import ObjectMapping.Proofs.Splicing

/-!
# Two ways to project a query

A query is projected through a mapper by a call that a pass expands, or by the deferred query that
the mapper is added to. The deferred query takes the expression of the mapper as it is, the pass
puts its body over a new parameter. `ExpanderDesign.expandExpr_mapAllWith` says that the two
projections are structurally equal, both ways, and of one type.

The pass takes the call for what its cache says of the key of the operation. If an operation without
a marker was looked up first that has the key, the call stays as it is
(`ExpanderDesign.expandExpr_mapAllWith_twin`).
-/

namespace ObjectMapping

open RunM

section

variable {F : Forest} {host : Host} {p : Param} {f g : Lambda} {source e e' : Expr} {element : Ty}

/-- What a call is given for a mapper holds its expression. -/
theorem Value.holds_of_givenMapper {context : String} {v : Value} {m : Mapper}
    (h : Native.givenMapper host context (some v) = .ok m) : v.Holds host m.expression := by
  cases v with
  | mapper n =>
    obtain rfl := Except.ok.inj h
    exact .mapper n
  | mapperReference ref =>
    simp only [Native.givenMapper] at h
    split at h
    · obtain rfl := Except.ok.inj h
      exact .reference ‹_›
    · cases h
  | _ => cases h

/-! ## Projections -/

/-- The projections of a query through lambdas that are structurally equal and return the same type
are structurally equal. -/
theorem Expr.IsProjection.structurallyEqual (hquery : source.ty = .sequence .queryable element)
    (h : source.IsProjection f e) (h' : source.IsProjection g e')
    (hty : f.returnTy = g.returnTy) (hfg : f.structurallyEqual g = true) :
    e.ty = e'.ty ∧ e.structurallyEqual e' = true := by
  obtain ⟨i, j, rfl⟩ := h
  obtain ⟨i', j', rfl⟩ := h'
  have hisSome : source.ty.queryItemTy?.isSome = true := by rw [hquery]; rfl
  have hquoted : (Expr.quote j f).ty = (Expr.quote j' g).ty := by
    rw [ty_quote, ty_quote, Lambda.quotedTy, Lambda.quotedTy, (Lambda.agreesIn_iff.1 hfg).1, hty]
  have hsource : Scope.Matches [] source source := Scope.matches_iff.2 (.inl ⟨rfl, rfl⟩)
  have hprojection : Scope.Matches [] (.quote j f) (.quote j' g) :=
    Scope.matches_iff.2 (.inr ⟨hquoted, hfg⟩)
  rw [if_pos hisSome, if_pos hisSome, hty]
  let kind : Kind := .call Operation.queryableSelect.signature false
  refine ⟨rfl, Scope.matches_iff.2 (.inr ⟨rfl, ?_⟩)⟩
  refine (agreesIn_of_kind? (k := kind) rfl ?_).2 ⟨?_, .cons hsource (.cons hprojection .nil), ?_⟩
  · rfl
  · rfl
  · simp [fn?]

/-- A projection over a parameter that is new, and one through the lambda itself, are structurally
equal both ways. -/
theorem Expr.IsMapped.structurallyEqual (hg : F.fns g) (hp : g.params = [p])
    (hself : g.body.SelfEqual) (hquery : source.ty = .sequence .queryable element)
    (h : source.IsMapped F g p e) (h' : source.IsProjection g e') :
    e.structurallyEqual e' = true ∧ e'.structurallyEqual e = true ∧ e.ty = e'.ty := by
  obtain ⟨q, f, hq, hqty, hparams, hbody, hprojection⟩ := h
  let G : Forest := F.grow (.param q) hq (by simp [parts]) (by simp [fn?])
  have hFG : F ≤ G := ⟨fun _ => .inl, fun _ hf => hf⟩
  have hbecomes : g.Becomes (.replacing [⟨.param p, .param q⟩]) f := by
    refine ⟨?_, hbody⟩
    rw [hp, hparams]
    exact .cons (Param.becomes_replacing_one.2 (.inl ⟨rfl, rfl⟩)) .nil
  obtain ⟨hgf, hfg⟩ := Lambda.structurallyEqual_of_fresh hg hFG (by simp [hp])
    (show G.nodes (.param q) from .inr rfl) (fun hqF => hq _ hqF rfl) hqty hself hbecomes
  have hreturn : f.returnTy = g.returnTy := hbody.ty_eq_of_replacing hqty.symm
  obtain ⟨hty, hforth⟩ := hprojection.structurallyEqual hquery h' hreturn hfg
  exact ⟨hforth, (h'.structurallyEqual hquery hprojection hreturn.symm hgf).2, hty⟩

/-- A query is projected through a mapper by a projection through its expression. -/
theorem DeferredQuery.outcome_mapWith (query : DeferredQuery) (m : Mapper) (t : Trail)
    (hitem : query.expression.ty.itemTy?.isSome = true) :
    ∃ query' t', outcome (query.mapWith m) t = (.ok query', t') ∧ t.next ≤ t'.next ∧
      query.expression.IsProjection m.expression query'.expression := by
  obtain ⟨e, t', hselect, hnext, his⟩ :=
    Expr.outcome_select_of_item query.expression m.expression t hitem
  refine ⟨⟨e⟩, t', ?_, hnext, his⟩
  rw [mapWith, outcome_bind_of_ok hselect]
  rfl

theorem DeferredQuery.outcome_ofExpr_mapWith (m : Mapper)
    (hquery : source.ty = .sequence .queryable element) (t : Trail) :
    ∃ query query' t', outcome (ofExpr source) t = (.ok query, t) ∧
      outcome (query.mapWith m) t = (.ok query', t') ∧
      source.IsProjection m.expression query'.expression := by
  have hof : outcome (ofExpr source) t = (.ok ⟨source⟩, t) := by
    rw [ofExpr, hquery]
    rfl
  obtain ⟨query', t', hwith, -, his⟩ := outcome_mapWith ⟨source⟩ m t (by rw [hquery]; rfl)
  exact ⟨⟨source⟩, query', t', hof, hwith, his⟩

end

/-! ## The pass -/

namespace ExpanderDesign

variable {design : ExpanderDesign} {ops : Operation → Prop} {F : Forest} {host : Host}
  {cx : BuildContext} {id i : NodeId} {ty cty : Ty} {e source : Expr} {g : Lambda} {v : Value}
  {m : Mapper} {p : Param} {s : Trail × TransformerCache}

/-- A pass over a marked call that nothing stands in the way of puts in its place what the
transformer makes. -/
theorem apply_splices
    (hkeys : ∀ {op op' : Operation}, ops op → ops op' → op.signature = op'.signature →
      op.markers = op'.markers)
    (he : F.nodes e) (hops : e.CallsIn ops)
    (hknown : e.TakesKnown host fun g => F.fns g ∧ g.WellFormed)
    (h : e.Inlines host cx source g p) (hF : F.Below s.1.next)
    (hcache : design.Caches ops s.2) :
    ∃ e' s', outcome ((design.visitor host cx).apply e) s = (.ok e', s') ∧
      e.Splices F host cx design.settings.options e' := by
  have hs : design.Kept ops (.above s.1.next) s := ⟨Nat.le_refl _, hcache⟩
  have hreaches : Reaches (design.Kept ops (.above s.1.next)) ((design.visitor host cx).judge e)
      fun verdict => ∃ e', verdict = .put e' := judge_reaches hkeys hF he hops hknown h
  obtain ⟨-, _, hverdict, e', rfl⟩ := hreaches s hs
  obtain ⟨s', hjudge⟩ : ∃ s', outcome ((design.visitor host cx).judge e) s = (.ok (.put e'), s') :=
    ⟨_, Prod.ext hverdict rfl⟩
  obtain ⟨i, ty, v, ho, hheld⟩ := hknown
  refine ⟨e', s', ?_, ?_⟩
  · rw [Visitor.apply, Visitor.visit, outcome_bind_of_ok hjudge]
    rfl
  cases e with
  | call id cty op receiver arguments =>
    obtain ⟨transformer, s₁, htransformer, hrest⟩ := outcome_bind_ok.1 hjudge
    obtain ⟨⟨hnext, -⟩, hmakes⟩ := transformerOf_upholds hkeys (hops op rfl) s hs
    rw [htransformer] at hnext hmakes
    replace hmakes := hmakes transformer rfl
    cases transformer with
    | none =>
      obtain ⟨hput, -⟩ := outcome_pure_ok.1 hrest
      cases hput
    | some made =>
      obtain ⟨r, s₂, hexpand, hpure⟩ := outcome_bind_ok.1 hrest
      obtain ⟨hput, -⟩ := outcome_pure_ok.1 hpure
      obtain rfl := Verdict.put.inj hput
      obtain ⟨-, -, -, -, -, hsplices⟩ := (expand_splices rfl hmakes ⟨i, ty, v, ho, hheld⟩
        fun source hs => F.part he (Expr.mem_parts_of_source? hs)).made F.le_refl (hF.mono hnext)
        trivial (CarriesTrail.outcome_lift hexpand)
      exact hsplices
  | _ => cases ho

/-- A pass over a call that maps the items of a query makes what the deferred query is projected to,
up to the parameter of the projection. The cache must hold nothing for the key of the operation but
transformers made for it. -/
theorem expandExpr_mapAllWith
    (hm : Native.givenMapper host "MapAllWith" (some v) = .ok m) (hcurrent : ¬ v.IsCurrent cx)
    (he : F.nodes (.call id ty .mapAllWith none [source, .constant i cty v]))
    (hf : F.fns m.expression) (hF : F.Below s.1.next)
    (hformed : m.expression.WellFormed) (hself : m.expression.body.SelfEqual)
    (hp : m.expression.params = [p]) (hquery : source.ty = .sequence .queryable p.ty)
    (hcache : design.Caches (· = .mapAllWith) s.2) :
    ∃ e s', outcome (design.expandExpr host
        (.call id ty .mapAllWith none [source, .constant i cty v]) cx) s = (.ok e, s') ∧
      ∀ t, ∃ query query' t', outcome (DeferredQuery.ofExpr source) t = (.ok query, t) ∧
        outcome (query.mapWith m) t = (.ok query', t') ∧
        e.structurallyEqual query'.expression = true ∧
        query'.expression.structurallyEqual e = true ∧ e.ty = query'.expression.ty := by
  have hheld : v.Holds host m.expression := Value.holds_of_givenMapper hm
  have hkeys {op op' : Operation} (hop : op = .mapAllWith) (hop' : op' = .mapAllWith)
      (_ : op.signature = op'.signature) : op.markers = op'.markers := by rw [hop, hop']
  obtain ⟨e, s', hrun, hsplices⟩ := apply_splices hkeys he
    (fun op hop => (Option.some.inj hop).symm)
    ⟨i, cty, v, rfl, fun g hg => hg.unique hheld ▸ ⟨hf, hformed⟩⟩
    ⟨rfl, ⟨i, cty, v, rfl, hheld, hcurrent⟩, fun hne => absurd rfl hne,
      fun _ => ⟨hp, .queryable, hquery⟩⟩ hF hcache
  obtain ⟨source', g, q, hinlines, -, hmapped⟩ := hsplices
  obtain rfl : source = source' := Option.some.inj hinlines.first
  obtain ⟨_, _, _, ho, hg, -⟩ := hinlines.operand
  obtain ⟨-, -, rfl⟩ := Expr.constant.inj (Option.some.inj ho)
  obtain rfl := hg.unique hheld
  obtain ⟨rfl⟩ : p = q := by simpa using hp.symm.trans (hinlines.items rfl).1
  refine ⟨e, s', hrun, fun t => ?_⟩
  obtain ⟨query, query', t', hof, hwith, hprojection⟩ :=
    DeferredQuery.outcome_ofExpr_mapWith m hquery t
  exact ⟨query, query', t', hof, hwith,
    (hmapped rfl).structurallyEqual hf hp hself hquery hprojection⟩

/-- A mapper whose expression binds its parameter again. -/
theorem expandExpr_mapAllWith_bound_again :
    let p : Param := ⟨0, "p", .int⟩
    let doubled : Expr := .binary 1 .int .add (.param p) (.param p)
    let f : Lambda := ⟨4, [p], .lambda 3 ⟨2, [p], doubled⟩⟩
    let m : Mapper := ⟨1, .int, .function [.int] .int, f, f⟩
    let source : Expr := .param ⟨5, "q", .sequence .queryable .int⟩
    let operand : Expr := .constant 6 (.mapper m.input m.output) (.mapper m)
    let call : Expr := .call 7 (.sequence .queryable m.output) .mapAllWith none [source, operand]
    let design : ExpanderDesign := ⟨{}, fun _ _ => .error "none"⟩
    ∃ e s', outcome (design.expandExpr (.bare 1) call ⟨none, none, .int⟩) ({ next := 8 }, []) =
        (.ok e, s') ∧
      ∀ t, ∃ query query' t', outcome (DeferredQuery.ofExpr source) t = (.ok query, t) ∧
        outcome (query.mapWith m) t = (.ok query', t') ∧
        e.structurallyEqual query'.expression = true ∧
        query'.expression.structurallyEqual e = true ∧ e.ty = query'.expression.ty := by
  intro p doubled f m source operand call design
  let F : Forest := .ofLists [.param p, doubled, f.body, source, operand, call]
    [⟨2, [p], doubled⟩, f] (by decide) (by decide)
    (by simp [Expr.parts, doubled, f, source, operand, call])
    (by simp [Expr.fn?, doubled, f, source, operand, call]) (by simp [f]) (by simp [f])
  have hformed : m.expression.WellFormed :=
    ⟨by simp [m, f], by simp [m, f, doubled, Lambda.WellFormed]⟩
  have hself : m.expression.body.SelfEqual := by
    refine (Forest.all (F := F) (by simp [F, Forest.ofLists, m])).imp fun e he v hv => ?_
    simp only [F, Forest.ofLists, List.mem_cons, List.not_mem_nil, or_false] at he
    rcases he with rfl | rfl | rfl | rfl | rfl | rfl <;> cases hv
    decide
  exact expandExpr_mapAllWith (F := F) rfl (by simp [Value.IsCurrent, BuildContext.isBuilding])
    (by simp [F, Forest.ofLists, call, operand]) (by simp [F, Forest.ofLists, m])
    (Forest.below_ofLists (by decide) (by decide)) hformed hself rfl rfl
    (@caches_nil _ _)

/-- The call stays as it is where an operation with the same key and without a marker was looked up
first. -/
theorem expandExpr_mapAllWith_twin :
    let p : Param := ⟨0, "p", .int⟩
    let f : Lambda := ⟨2, [p], .binary 1 .int .add (.param p) (.param p)⟩
    let m : Mapper := ⟨1, .int, .int, f, f⟩
    let source : Expr := .param ⟨3, "q", .sequence .queryable .int⟩
    let operand : Expr := .constant 4 (.mapper m.input m.output) (.mapper m)
    let twin : Operation := ⟨Operation.mapAllWith.signature, [], none⟩
    let first : Expr := .call 5 (.sequence .queryable .int) twin none [source, operand]
    let call : Expr := .call 6 (.sequence .queryable .int) .mapAllWith none [source, operand]
    let design : ExpanderDesign := ⟨{}, fun _ _ => .error "none"⟩
    let cx : BuildContext := ⟨none, none, .int⟩
    cx.isBuilding m.id = false ∧ ∃ s s' query query' t,
      outcome (design.expandExpr (.bare 1) first cx) ({ next := 7 }, []) = (.ok first, s) ∧
      outcome (design.expandExpr (.bare 1) call cx) s = (.ok call, s') ∧
      outcome (DeferredQuery.ofExpr source) s'.1 = (.ok query, s'.1) ∧
      outcome (query.mapWith m) s'.1 = (.ok query', t) ∧
      call.structurallyEqual query'.expression = false :=
  ⟨rfl, _, _, _, _, _, rfl, rfl, rfl, rfl, rfl⟩

end ExpanderDesign

end ObjectMapping
