import ObjectMapping.Proofs.Expanding
import ObjectMapping.Proofs.Projecting

/-!
# What takes the place of a marked call

A built-in transformer takes a mapping expression from the operand of the call, or from the
resolvers (`Expr.Takes`), and inlines it over the first argument (`Lambda.Expansion`) or over the
items of it (`Lambda.Projection`). `ExpanderDesign.visitor_follows_expanding` says so of a pass over
calls of built-in operations, whatever expander makes it.
-/

namespace ObjectMapping

open RunM

/-! ## Calls of built-in operations -/

/-- The mapping expression that a marked call is expanded with : its operand holds it, or a resolver
knows it. -/
inductive Expr.Takes (host : Host) (resolvers : List Resolver) (e : Expr) : Lambda → Prop
  | held {i : NodeId} {ty : Ty} {v : Value} {g : Lambda} : e.operand? = some (.constant i ty v) →
    v.Holds host g → Expr.Takes host resolvers e g
  | found {op : Operation} {source : Expr} {resolver : Resolver} {handle : MapperHandle}
      {m : Mapper} : e.operation? = some op → op.markers = [.includeResolved] →
    e.source? = some source → resolver ∈ resolvers →
    resolver.Answers host ⟨op, source.ty, e.ty⟩ handle → handle.mapper? host = some m →
    Expr.Takes host resolvers e m.expression

theorem Expr.Takes.markers_ne {host : Host} {resolvers : List Resolver} {e : Expr} {g : Lambda}
    (h : e.Takes host resolvers g) : e.markers ≠ [] := by
  cases h with
  | held ho => exact markers_ne_of_operand? ho
  | found hop hmarkers =>
    cases e <;> cases hop
    simp [markers, hmarkers]

/-- A lambda inlined over an object, with a guard or without one. -/
inductive Lambda.Expansion (g : Lambda) (source : Expr) : Expr → Prop
  | plain {e : Expr} : g.InlinedOver source e → Lambda.Expansion g source e
  | guarded {i j : NodeId} {bty : Ty} {d result body : Expr} : g.InlinedOver source body →
    d.IsDefault source.ty → result.IsDefault body.ty →
    Lambda.Expansion g source (.conditional i result.ty (.binary j bty .equal source d) result body)

/-- A lambda inlined over the items of a sequence. -/
inductive Lambda.Projection (g : Lambda) (source : Expr) : Expr → Prop
  | mk {i : NodeId} {kind : SequenceKind} {element : Ty} {op : Operation} {lambda : Expr}
      {f : Lambda} {q : Param} : source.ty = .sequence kind element → f.params = [q] →
    g.InlinedOver (.param q) f.body → op.IsSelect → lambda.fn? = some f →
    Lambda.Projection g source
      (.call i (.sequence (Native.mappedKind kind) f.returnTy) op none [source, lambda])

/-- The judgement of a pass over calls of built-in operations. -/
def Judgement.expanding (host : Host) (resolvers : List Resolver) : Judgement where
  enters e := e.markers = []
  puts e e' := ∃ g source, e.source? = some source ∧ e.Takes host resolvers g ∧
    (e.markers ≠ [] ∧ e.markers ≠ [.mapAllWith] ∧ g.Expansion source e' ∨
      e.markers = [.mapAllWith] ∧ g.Projection source e')
  stands _ := False

/-! ## Inlining -/

section

variable {F : Forest} {host : Host} {cx : BuildContext} {source : Expr} {g : Lambda} {i : NodeId}
  {ty : Ty} {v : Value}

/-- An object mapping is inlined as an expansion. -/
theorem Expr.inlineOver_leadsTo {guarded : Bool} (hs : F.nodes source)
    (hknown : ∀ g, v.Holds host g → F.fns g) :
    LeadsTo F (source.inlineOver host (.constant i ty v) guarded cx) fun G e =>
      G.nodes e ∧ ∃ g, v.Holds host g ∧ g.Expansion source e := by
  refine heldLambda_leadsTo.bind fun {G g} hFG hg => ?_
  refine (Lambda.inline_leadsTo (hFG.2 _ (hknown g hg)) (hFG.1 _ hs)).bind fun {H body} hGH h => ?_
  obtain ⟨hbody, hinlined⟩ := h
  split
  · refine (guarding_leadsTo (hGH.1 _ (hFG.1 _ hs)) hbody).imp fun {K e} _ h => ?_
    obtain ⟨he, i, j, bty, d, result, rfl, hd, hresult⟩ := h
    exact ⟨he, g, hg, .guarded hinlined hd.1 hresult.1⟩
  · exact .pure fun hHK => ⟨hHK.1 _ hbody, g, hg, .plain hinlined⟩

/-- A projection of a sequence is a call of the Select operation that its type asks for. -/
theorem Expr.select_leadsTo {projection : Lambda} {kind : SequenceKind} {element : Ty}
    (hs : F.nodes source) (hf : F.fns projection) (hty : source.ty = .sequence kind element) :
    LeadsTo F (source.select projection) fun G e => G.nodes e ∧ ∃ i op lambda,
      e = .call i (.sequence (Native.mappedKind kind) projection.returnTy) op none
        [source, lambda] ∧ lambda.fn? = some projection ∧ op.IsSelect := by
  have call {G : Forest} {lambda : Expr} {op : Operation} {ty : Ty} (hs : G.nodes source)
      (hlambda : G.nodes lambda) (hop : op.IsSelect) :
      LeadsTo G (mkCall op none [source, lambda] ty) fun H e =>
        H.nodes e ∧ ∃ i, e = .call i ty op none [source, lambda] := by
    have hcall : mkCall op none [source, lambda] ty =
        (do return .call (← fresh) ty op none [source, lambda] : RunM Expr) := by
      rcases hop with rfl | rfl <;> rfl
    rw [hcall]
    exact leadsTo_make (fun _ => rfl) (fun _ => by simpa [parts] using ⟨hs, hlambda⟩)
      (by simp [fn?])
  unfold select
  rw [hty]
  by_cases hquery : kind = .queryable
  · subst hquery
    refine Leads.bind (leadsTo_make (fun _ => rfl) (by simp [parts])
      fun _ f h => Option.some.inj h ▸ hf) fun {G lambda} hFG h => ?_
    obtain ⟨hlambda, j, rfl⟩ := h
    refine (call (hFG.1 _ hs) hlambda (.inr rfl)).imp fun {H e} _ h => ?_
    obtain ⟨he, i, rfl⟩ := h
    exact ⟨he, i, _, _, rfl, rfl, .inr rfl⟩
  · have hnone : (Ty.sequence kind element).queryItemTy?.isSome = false := by
      cases kind <;> first | rfl | exact absurd rfl hquery
    have hsome : (Ty.sequence kind element).itemTy?.isSome = true := by cases kind <;> rfl
    have hkind : Native.mappedKind kind = .enumerable := by
      cases kind <;> first | rfl | exact absurd rfl hquery
    rw [hnone, hsome, hkind]
    refine Leads.bind (leadsTo_make (fun _ => rfl) (by simp [parts])
      fun _ f h => Option.some.inj h ▸ hf) fun {G lambda} hFG h => ?_
    obtain ⟨hlambda, j, rfl⟩ := h
    refine (call (hFG.1 _ hs) hlambda (.inl rfl)).imp fun {H e} _ h => ?_
    obtain ⟨he, i, rfl⟩ := h
    exact ⟨he, i, _, _, rfl, rfl, .inl rfl⟩

/-- A collection mapping is inlined as a projection. -/
theorem Expr.inlineOverItems_leadsTo {stem : String} (hs : F.nodes source)
    (hknown : ∀ g, v.Holds host g → F.fns g) :
    LeadsTo F (source.inlineOverItems host (.constant i ty v) stem cx) fun G e =>
      G.nodes e ∧ ∃ g, v.Holds host g ∧ g.Projection source e := by
  unfold inlineOverItems
  split
  · exact leadsTo_fail
  · rename_i element hitem
    obtain ⟨kind, hkind⟩ := Ty.itemTy?_eq_some_iff.1 hitem
    refine heldLambda_leadsTo.bind fun {G g} hFG hg => ?_
    refine Leads.bind (Upholds.leadsTo fun n =>
        (advances_fresh (.above n)).imp fun _ _ _ _ => trivial)
      fun {G₁ j} hG₁ _ => ?_
    refine (Param.make_leadsTo _ _).bind fun {H p} hGH hp => ?_
    have hFH := F.le_trans hFG (G.le_trans hG₁ hGH)
    refine (Lambda.inline_leadsTo (hFH.2 _ (hknown g hg)) hp.1).bind fun {K body} hHK h => ?_
    obtain ⟨hbody, hinlined⟩ := h
    refine Leads.bind (Lambda.ofExprs_leadsTo (by simpa using hHK.1 _ hp.1) hbody)
      fun {L f} hKL h => ?_
    obtain ⟨hf, hparams, rfl⟩ := h
    have hsL : L.nodes source := hKL.1 _ (hHK.1 _ (hFH.1 _ hs))
    refine (select_leadsTo hsL hf hkind).imp fun {M e} _ h => ?_
    obtain ⟨he, i, op, lambda, rfl, hfn, hop⟩ := h
    refine ⟨he, g, hg, .mk hkind ?_ hinlined hop hfn⟩
    exact (List.map_injective_iff.2 fun _ _ => Expr.param.inj) hparams.symm

/-! ## Transformers -/

theorem CallSite.argument_leadsTo (site : CallSite) (index : Nat) :
    LeadsTo F (site.argument index) fun _ e => site.arguments[index]? = some e := by
  unfold argument
  split
  · rename_i e he
    exact .pure fun _ => he
  · exact leadsTo_reject

/-- The answer comes from one of the resolvers. -/
theorem Resolver.askAll_leadsTo (request : MapperRequest) (resolvers : List Resolver) :
    LeadsTo F (askAll host request resolvers) fun _ answer => ∀ handle, answer = some handle →
      ∃ resolver ∈ resolvers, resolver.Answers host request handle :=
  Upholds.leadsTo fun _ => (askAll_upholds fun resolver _ _ => resolver.ask_next_le host
    request).imp fun _ hr _ hanswer handle hhandle => hr handle (hhandle ▸ hanswer)

/-- What a built-in transformer makes of a call whose operand is a constant. -/
theorem ExpanderDesign.expand_leadsTo {design : ExpanderDesign} {op : Operation} {e : Expr}
    {receiver : Option Expr} {arguments : List Expr} {made : SiteTransformer}
    (he : e = .call i ty op receiver arguments) (hmakes : design.Makes op (some made))
    (hcustom : ∀ name, op.markers ≠ [.custom name])
    (hoperand : ∀ d, e.operand? = some d → ∃ i ty v, d = .constant i ty v)
    (hsource : ∀ source, e.source? = some source → F.nodes source)
    (hknown : ∀ g, e.Takes host design.settings.resolvers g → F.fns g) :
    LeadsTo F (made.apply host ⟨e, op, receiver, arguments⟩ cx) fun G e' =>
      G.nodes e' ∧ (Judgement.expanding host design.settings.resolvers).puts e e' := by
  cases hmakes with | some hmarkers hexpand =>
  rename_i marker id expand
  have hemarkers : e.markers = [marker] := by rw [he, Expr.markers, hmarkers]
  have source {d : Expr} (h : arguments[0]? = some d) : e.source? = some d := by
    rw [he, Expr.source?, h]
  have argument (index : Nat) : LeadsTo F (CallSite.argument ⟨e, op, receiver, arguments⟩ index)
      fun _ d => arguments[index]? = some d := CallSite.argument_leadsTo _ _
  -- the transformers that inline the mapper of an operand over an object
  have inlined {G : Forest} {d operand : Expr} {guarded : Bool} (hFG : F ≤ G)
      (hd : arguments[0]? = some d) (ho : e.operand? = some operand)
      (hitems : marker ≠ .mapAllWith) :
      LeadsTo G (d.inlineOver host operand guarded cx) fun H e' =>
        H.nodes e' ∧ (Judgement.expanding host design.settings.resolvers).puts e e' := by
    obtain ⟨j, cty, v, rfl⟩ := hoperand operand ho
    refine (Expr.inlineOver_leadsTo (hFG.1 _ (hsource _ (source hd)))
      fun g hg => hFG.2 _ (hknown g (.held ho hg))).imp fun {H e'} _ h => ?_
    obtain ⟨he', g, hg, hexpansion⟩ := h
    refine ⟨he', g, d, source hd, .held ho hg, .inl ⟨?_, ?_, hexpansion⟩⟩
    · simp [hemarkers]
    · simpa [hemarkers] using hitems
  cases marker with
  | includeGiven | mapWith =>
    obtain rfl := Except.ok.inj hexpand
    refine (argument 0).bind fun {G d} hFG hd => ?_
    refine (((argument 1).of_le hFG).bind fun {H operand} hGH ho => ?_)
    refine inlined (F.le_trans hFG hGH) hd ?_ (by simp)
    rw [he, Expr.operand?, hmarkers]
    exact ho
  | mapAllWith =>
    obtain rfl := Except.ok.inj hexpand
    refine (argument 0).bind fun {G d} hFG hd => ?_
    refine (((argument 1).of_le hFG).bind fun {H operand} hGH ho => ?_)
    have hFH := F.le_trans hFG hGH
    replace ho : e.operand? = some operand := by
      rw [he, Expr.operand?, hmarkers]
      exact ho
    obtain ⟨j, cty, v, rfl⟩ := hoperand operand ho
    refine (Expr.inlineOverItems_leadsTo (hFH.1 _ (hsource _ (source hd)))
      fun g hg => hFH.2 _ (hknown g (.held ho hg))).imp fun {H e'} _ h => ?_
    obtain ⟨he', g, hg, hprojection⟩ := h
    exact ⟨he', g, d, source hd, .held ho hg, .inr ⟨hemarkers, hprojection⟩⟩
  | map =>
    obtain rfl := Except.ok.inj hexpand
    dsimp only [SiteTransformer.apply, CallSite.inlineReceiver]
    split
    · exact leadsTo_reject
    · rename_i operand _
      refine (argument 0).bind fun {G d} hFG hd => inlined hFG hd ?_ (by simp)
      rw [he, Expr.operand?, hmarkers]
  | includeResolved =>
    obtain rfl := Except.ok.inj hexpand
    refine (argument 0).bind fun {G d} hFG hd => ?_
    refine (Resolver.askAll_leadsTo _ _).bind fun {H found} hGH hfound => ?_
    cases found with
    | none => exact leadsTo_fail
    | some handle =>
      obtain ⟨resolver, hresolver, hanswer⟩ := hfound handle rfl
      refine Leads.bind (Upholds.leadsTo fun n =>
        (BuildContext.refuseCurrent_advances cx handle.id (.above n)).imp fun _ _ _ _ => trivial)
        fun {K _} hHK _ => ?_
      split
      · rename_i m hm
        have hFK := F.le_trans hFG (G.le_trans hGH hHK)
        have htakes : e.Takes host design.settings.resolvers m.expression :=
          .found (by rw [he, Expr.operation?]) hmarkers (source hd) hresolver hanswer hm
        refine (Lambda.inline_leadsTo (hFK.2 _ (hknown _ htakes))
          (hFK.1 _ (hsource _ (source hd)))).imp fun {L e'} _ h => ?_
        refine ⟨h.1, m.expression, d, source hd, htakes, .inl ⟨?_, ?_, .plain h.2⟩⟩
        · simp [hemarkers]
        · simp [hemarkers]
      · exact leadsTo_fail
  | custom name => exact absurd hmarkers (hcustom name)

end

/-! ## The pass -/

namespace ExpanderDesign

variable {design : ExpanderDesign} {ops : Operation → Prop} {D F : Forest} {host : Host}
  {cx : BuildContext}

/-- A pass over calls of built-in operations does what the judgement says. -/
theorem visitor_follows_expanding (hDF : D ≤ F)
    (hkeys : ∀ {op op' : Operation}, ops op → ops op' → op.signature = op'.signature →
      op.markers = op'.markers)
    (hcustom : ∀ op, ops op → ∀ name, op.markers ≠ [.custom name])
    (hops : ∀ e, D.nodes e → e.CallsIn ops)
    (hoperand : ∀ e, D.nodes e → ∀ d, e.operand? = some d → ∃ i ty v, d = .constant i ty v)
    (hknown : ∀ e, D.nodes e → ∀ g, e.Takes host design.settings.resolvers g → F.fns g) :
    (design.visitor host cx).Follows (fun s => design.Caches ops s.2) D F
      (.expanding host design.settings.resolvers) := by
  refine visitor_follows_of hDF hkeys hops (fun _ h => h) ?_
  intro e id ty op receiver arguments made he hcall hmakes
  have hop : ops op := hops e he op (by rw [hcall, Expr.operation?])
  refine expand_leadsTo hcall hmakes (hcustom op hop) (hoperand e he) ?_ (hknown e he)
  exact fun source h => hDF.1 _ (D.part he (Expr.mem_parts_of_source? h))

end ExpanderDesign

end ObjectMapping
