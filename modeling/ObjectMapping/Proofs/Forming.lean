import ObjectMapping.Proofs.Expanding
import ObjectMapping.Proofs.WellFormed

/-!
# Rewriting keeps trees well formed

Visits and merges make nodes anew without the checks of the builders. Nothing is lost by that : a
node that is made anew has as many parts as the one before and sets the same members
(`Visitor.walk_gives`), a merge assigns the members of the source and those that the extension alone
assigns (`Expr.mergeValue_ends`), and lambdas are checked whenever they are made. So substitution,
merging, inlining and the transformers make well-formed trees of well-formed ones ;
`wellFormed_of_rewriting` is the main statement.
-/

namespace ObjectMapping

open RunM

/-! ## Builders -/

theorem Lambda.paramsOf_ends (es : List Expr) (seen : List Param) :
    Ends (paramsOf seen es) fun ps =>
      (ps.map (·.id)).Nodup ∧ ∀ p ∈ ps, ∀ q ∈ seen, q.id ≠ p.id := by
  induction es generalizing seen with
  | nil => exact .pure (by simp)
  | cons e es ih =>
    rw [paramsOf]
    split
    · exact .throw
    · rename_i p _
      by_cases hseen : seen.any (·.id == p.id) = true
      · rw [if_pos hseen]
        exact Gives.stop
      · rw [if_neg hseen]
        refine (ih (p :: seen)).bind fun ps hps => .pure ?_
        obtain ⟨hnodup, hnew⟩ := hps
        refine ⟨List.nodup_cons.2 ⟨fun hmem => ?_, hnodup⟩, List.forall_mem_cons.2 ⟨?_, ?_⟩⟩
        · obtain ⟨q, hq, heq⟩ := List.mem_map.1 hmem
          exact hnew q hq p (by simp) heq.symm
        · simpa using hseen
        · exact fun q hq r hr => hnew q hq r (by simp [hr])

/-- A lambda is made over pairwise different parameters only. -/
theorem Lambda.ofExprs_ends (es : List Expr) {body : Expr} (hbody : body.WellFormed) :
    Ends (ofExprs es body) Lambda.WellFormed :=
  (paramsOf_ends es []).bind fun _ hps => Gives.bind ends_any fun _ _ => .pure ⟨hps.1, hbody⟩

/-- A call is made only with the arguments and the receiver that its operation takes. -/
theorem Expr.mkCall_ends {op : Operation} {receiver : Option Expr} {arguments : List Expr} {ty : Ty}
    (hreceiver : ∀ e ∈ receiver, e.WellFormed) (harguments : ∀ e ∈ arguments, e.WellFormed) :
    Ends (mkCall op receiver arguments ty) Expr.WellFormed := by
  refine .ite (fun _ => .stop) fun harity => .ite (fun _ => .stop) fun hpresence => ?_
  refine Gives.bind ends_any fun i _ => .pure (wellFormed_call.2 ⟨⟨?_, ?_⟩, hreceiver, harguments⟩)
  · exact (not_not.1 harity).symm
  · exact (not_not.1 hpresence).symm

/-- No assignment is to a member that an earlier one, or one of those seen before, assigns. -/
theorem Assignment.nodup_of_go {as : List Assignment} {seen : List Member}
    (h : repeated?.go seen as = none) :
    (as.map key).Nodup ∧ ∀ a ∈ as, ∀ m ∈ seen, m.same a.member = false := by
  induction as generalizing seen with
  | nil => simp
  | cons a rest ih =>
    rw [repeated?.go] at h
    split at h
    · cases h
    · rename_i hseen
      obtain ⟨hnodup, hnew⟩ := ih h
      refine ⟨List.nodup_cons.2 ⟨fun hmem => ?_, hnodup⟩, List.forall_mem_cons.2 ⟨?_, ?_⟩⟩
      · obtain ⟨b, hb, heq⟩ := List.mem_map.1 hmem
        exact same_eq_false_iff.1 (hnew b hb a.member (by simp)) heq.symm
      · simpa only [List.any_eq_true, not_exists, not_and, Bool.not_eq_true] using hseen
      · exact fun b hb m hm => hnew b hb m (by simp [hm])

/-- A construction is made only if no member is given a value twice. -/
theorem Expr.mkConstruct_ends {ty : Ty} {arguments assignments : List Assignment}
    (harguments : ∀ a ∈ arguments, a.value.WellFormed)
    (hassignments : ∀ a ∈ assignments, a.value.WellFormed) :
    Ends (mkConstruct ty arguments assignments) Expr.WellFormed := by
  unfold mkConstruct
  cases has : Assignment.repeated? assignments with
  | some m => exact Gives.stop
  | none =>
    cases harg : Assignment.repeated? arguments with
    | some m => exact Gives.stop
    | none =>
      refine Gives.bind ends_any fun i _ =>
        .pure (wellFormed_construct.2 ⟨?_, harguments, hassignments⟩)
      exact ⟨(Assignment.nodup_of_go harg).1, (Assignment.nodup_of_go has).1⟩

/-! ## Nodes made anew -/

/-- A node that is made anew over well-formed parts is well formed if it was. -/
theorem Expr.MadeOver.wellFormed {i : NodeId} {e e' : Expr} {ds : List Expr}
    (h : e.MadeOver i ds e') (he : e.WellFormed) (hds : ∀ d ∈ ds, d.WellFormed) :
    e'.WellFormed := by
  have keys {as as' : List Assignment} (hmembers : as'.map (·.member) = as.map (·.member)) :
      as'.map Assignment.key = as.map Assignment.key := by
    have hkeys := congrArg (List.map fun m : Member => (m.owner, m.name)) hmembers
    rwa [List.map_map, List.map_map] at hkeys
  have hparts : ∀ d ∈ e'.parts, d.WellFormed := h.parts_eq ▸ hds
  refine Expr.wellFormed_iff.2 ⟨?_, ?_, hparts, by simp [h.fn?_eq]⟩
  · obtain ⟨hformed, -⟩ := Expr.wellFormed_iff.1 he
    cases h with
    | @call _ _ _ r r' _ _ hr ha =>
      have hsome : r'.isSome = r.isSome := by cases r <;> cases r' <;> simp_all
      exact ⟨ha.trans hformed.1, hsome.trans hformed.2⟩
    | construct hma hmb => exact ⟨keys hma ▸ hformed.1, keys hmb ▸ hformed.2⟩
    | _ => trivial
  · obtain ⟨-, hvalue, -⟩ := Expr.wellFormed_iff.1 he
    cases h with
    | constant => exact hvalue
    | _ => exact fun v hv => nomatch hv

theorem Expr.wellFormed_withFn {i : NodeId} {e : Expr} {f f' : Lambda} (hfn : e.fn? = some f)
    (h : f'.WellFormed) : (e.withFn i f').WellFormed := by
  cases e with
  | lambda => exact Expr.wellFormed_lambda.2 h
  | quote => exact Expr.wellFormed_quote.2 h
  | _ => cases hfn

/-! ## Visits -/

/-- What is put in the place of a node is well formed. -/
def Verdict.WellFormed : Verdict → Prop
  | .put e => e.WellFormed
  | .enter | .standIn => True

section

variable {σ : Type} {I : σ → Prop} [MonadLiftT RunM (Steps σ)] {v : Visitor (Steps σ)}

variable (hlift : ∀ {α : Type} {run : RunM α} {Q : α → Prop}, Ends run Q →
  Gives I (liftM run : Steps σ α) Q)

include hlift

/-- A lambda that is made anew is checked. -/
theorem Visitor.walkFn_gives {f : Lambda} (hf : f.WellFormed)
    (hparams : ∀ p ∈ f.params, Gives I (v.apply (.param p)) Expr.WellFormed)
    (hbody : Gives I (v.apply f.body) Expr.WellFormed) :
    Gives I (f.walk v) Lambda.WellFormed := by
  rw [Lambda.walk_eq]
  refine (walkList_gives (List.forall_mem_map.2 hparams)).bind fun es _ => ?_
  refine Gives.bind (hlift ends_any) fun _ _ => hbody.bind fun b' hb' => ?_
  exact .ite (fun _ => .pure hf) fun _ => hlift (Lambda.ofExprs_ends es hb')

/-- A node that is made anew is formed like the one before. -/
theorem Visitor.walk_gives {e : Expr} (he : e.WellFormed)
    (hpart : ∀ d ∈ e.parts, Gives I (v.apply d) Expr.WellFormed)
    (hfn : ∀ f, e.fn? = some f → Gives I (f.walk v) Lambda.WellFormed) :
    Gives I (e.walk v) Expr.WellFormed := by
  have keepOrRemake {c : Bool} {make : NodeId → Expr} (hmake : ∀ i, (make i).WellFormed) :
      Gives I (Expr.keepOrRemake c e make : Steps σ Expr) Expr.WellFormed :=
    .ite (fun _ => .pure he) fun _ => (hlift ends_any).bind fun i _ => .pure (hmake i)
  cases hf : e.fn? with
  | none =>
    rw [Expr.walk_of_parts hf]
    refine (walkList_gives hpart).bind fun ds hds => keepOrRemake fun i => ?_
    exact (Expr.madeOver_withParts i hf hds.1).wellFormed he hds.2
  | some f =>
    rw [Expr.walk_of_fn hf]
    exact (hfn f hf).bind fun f' hf' => keepOrRemake fun i => Expr.wellFormed_withFn hf hf'

variable (hjudge : ∀ e, e.WellFormed → Gives I (v.judge e) Verdict.WellFormed)

include hjudge

/-- A visitor that puts well-formed trees in the places of nodes makes well-formed trees. -/
theorem Visitor.apply_gives {e : Expr} (he : e.WellFormed) :
    Gives I (v.apply e) Expr.WellFormed := by
  have leaf (p : Param) : Gives I (v.apply (.param p)) Expr.WellFormed := by
    refine (hjudge (.param p) (by simp)).bind fun verdict hverdict => ?_
    cases verdict with
    | put d => exact .pure hverdict
    | enter | standIn => exact .pure (Expr.wellFormed_param p)
  induction e using Expr.byPart with
  | h e ihpart ihfn =>
    have hpart (d : Expr) (hd : d ∈ e.parts) := ihpart d hd (he.part hd)
    refine (hjudge e he).bind fun verdict hverdict => ?_
    cases verdict with
    | put d => exact .pure hverdict
    | enter =>
      refine walk_gives hlift he hpart fun f hf => ?_
      exact walkFn_gives hlift (he.fn hf) (fun p _ => leaf p) (ihfn f hf (he.fn hf).2)
    | standIn =>
      cases hd : e.standIn? with
      | none =>
        rw [Expr.walkStandIn_of_none hd]
        exact .pure he
      | some d =>
        rw [Expr.walkStandIn_of_some hd]
        exact hpart d (Expr.mem_parts_of_standIn? hd)

theorem Visitor.walkFn_wellFormed {f : Lambda} (hf : f.WellFormed) :
    Gives I (f.walk v) Lambda.WellFormed := by
  refine walkFn_gives hlift hf (fun p _ => ?_) (apply_gives hlift hjudge hf.2)
  exact apply_gives hlift hjudge (Expr.wellFormed_param p)

theorem Visitor.walk_wellFormed {e : Expr} (he : e.WellFormed) :
    Gives I (e.walk v) Expr.WellFormed :=
  walk_gives hlift he (fun _ hd => apply_gives hlift hjudge (he.part hd)) fun _ hf =>
    walkFn_wellFormed hlift hjudge (he.fn hf)

end

/-! ## Substitution -/

section

variable {rs : List Replacement}

theorem Visitor.judge_replacing_ends (hrs : ∀ r ∈ rs, r.new.WellFormed) :
    ∀ depth e, Ends ((Visitor.replacing rs depth).judge e) Verdict.WellFormed
  | 0, _ => by
    simp only [Visitor.replacing]
    split
    · exact Gives.stop
    · exact .pure trivial
  | depth + 1, e => by
    simp only [Visitor.replacing]
    split
    · rename_i new hnew
      obtain ⟨r, hr, rfl⟩ := Option.map_eq_some_iff.1 hnew
      refine (Visitor.walk_wellFormed (fun h => h) (fun d _ => judge_replacing_ends hrs depth d)
        (hrs r (List.mem_of_find?_eq_some hr))).bind fun d hd => .pure hd
    · exact .pure trivial

theorem Expr.substitute_ends (hrs : ∀ r ∈ rs, r.new.WellFormed) {e : Expr} (he : e.WellFormed) :
    Ends (e.substitute rs) Expr.WellFormed :=
  Gives.bind ends_any fun _ _ =>
    Visitor.apply_gives (fun h => h) (fun d _ => Visitor.judge_replacing_ends hrs _ d) he

theorem Lambda.substitute_ends (hrs : ∀ r ∈ rs, r.new.WellFormed) {f : Lambda}
    (hf : f.WellFormed) : Ends (f.substitute rs) Lambda.WellFormed :=
  Gives.bind ends_any fun _ _ =>
    Visitor.walkFn_wellFormed (fun h => h) (fun d _ => Visitor.judge_replacing_ends hrs _ d) hf

end

/-! ## Merging -/

section

theorem Expr.fillPrevious_ends {value : Expr} {previous : Option Expr} {m : Member}
    (hvalue : value.WellFormed) (hprevious : ∀ d ∈ previous, d.WellFormed) :
    Ends (value.fillPrevious previous m) Expr.WellFormed := by
  refine Visitor.apply_gives (fun h => h) (fun e _ => ?_) hvalue
  simp only [Visitor.fillingPrevious]
  split
  · exact .pure (hprevious _ rfl)
  · exact .pure trivial
  · exact .throw
  · exact .pure trivial

/-- What is added is assigned to the members that the extension alone assigns. -/
theorem Assignment.added_ends (source : List Assignment) {extension : List Assignment}
    (h : ∀ a ∈ extension, a.value.WellFormed) :
    Ends (added source extension) fun as => (∀ a ∈ as, a.value.WellFormed) ∧
      as.map key = (extension.filter fun a => (find? a.member source).isNone).map key := by
  induction extension with
  | nil => exact .pure (by simp)
  | cons a rest ih =>
    replace ih := ih fun b hb => h b (by simp [hb])
    rw [added]
    by_cases hfind : (find? a.member source).isSome
    · rw [if_pos hfind, List.filter_cons_of_neg (by simpa [Option.isSome_iff_ne_none] using hfind)]
      exact ih
    · rw [if_neg hfind, List.filter_cons_of_pos (by simpa using hfind)]
      refine (Expr.fillPrevious_ends (h a (by simp)) (by simp)).bind fun value hvalue => ?_
      refine ih.bind fun as has => .pure ⟨List.forall_mem_cons.2 ⟨hvalue, has.1⟩, ?_⟩
      rw [List.map_cons, List.map_cons, has.2]
      rfl

/-- What is kept is assigned to the members that the source assigns. -/
theorem Assignment.mergeList_ends {source extension : List Assignment}
    (hmerge : ∀ a ∈ source, ∀ x : Expr, x.WellFormed → Ends (a.value.mergeValue x) Expr.WellFormed)
    (hsource : ∀ a ∈ source, a.value.WellFormed)
    (hextension : ∀ a ∈ extension, a.value.WellFormed) :
    Ends (mergeList extension source) fun as =>
      (∀ a ∈ as, a.value.WellFormed) ∧ as.map key = source.map key := by
  induction source with
  | nil =>
    rw [mergeList]
    exact .pure (by simp)
  | cons a rest ih =>
    replace ih := ih (fun b hb => hmerge b (by simp [hb])) fun b hb => hsource b (by simp [hb])
    obtain ⟨m, previous⟩ := a
    have hprevious : previous.WellFormed := hsource ⟨m, previous⟩ (by simp)
    rw [mergeList]
    split
    · refine ih.bind fun as has => .pure ⟨List.forall_mem_cons.2 ⟨hprevious, has.1⟩, ?_⟩
      rw [List.map_cons, List.map_cons, has.2]
    · rename_i x hx
      refine (hmerge ⟨m, previous⟩ (by simp) _ (hextension x (mem_of_find? hx))).bind
        fun value hvalue => ?_
      refine (Expr.fillPrevious_ends hvalue (by simpa using hprevious)).bind
        fun filled hfilled => ?_
      refine ih.bind fun as has => .pure ⟨List.forall_mem_cons.2 ⟨hfilled, has.1⟩, ?_⟩
      have hkey : x.key = (m.owner, m.name) := key_eq_of_find? hx
      rw [List.map_cons, List.map_cons, has.2]
      exact congrArg (· :: _) hkey

/-- A merged construction assigns no member twice. -/
theorem Expr.mergeValue_ends {s x : Expr} (hs : s.WellFormed) (hx : x.WellFormed) :
    Ends (s.mergeValue x) Expr.WellFormed := by
  induction s using Expr.byParts generalizing x with
  | construct i sty sargs source _ ih =>
    cases x with
    | construct j ty arguments extension =>
      obtain ⟨⟨-, hsource⟩, -, hvalues⟩ := wellFormed_construct.1 hs
      obtain ⟨⟨harguments, hextension⟩, harguments', hvalues'⟩ := wellFormed_construct.1 hx
      rw [mergeValue]
      refine (Assignment.mergeList_ends (fun a ha x hx => ih a ha (hvalues a ha) hx) hvalues
        hvalues').bind fun kept hkept => ?_
      refine (Assignment.added_ends source hvalues').bind fun added hadded => ?_
      refine Gives.bind ends_any fun k _ => .pure (wellFormed_construct.2 ⟨⟨harguments, ?_⟩,
        harguments', List.forall_mem_append.2 ⟨hkept.1, hadded.1⟩⟩)
      rw [List.map_append, hkept.2, hadded.2]
      exact Assignment.nodup_keys_append hsource hextension
    | _ =>
      rw [mergeValue]
      · exact .pure hx
      · simp
  | _ =>
    rw [mergeValue]
    · exact .pure hx
    · simp

theorem Lambda.merge_ends {source extension : Lambda} (hs : source.WellFormed)
    (hx : extension.WellFormed) : Ends (source.merge extension) Lambda.WellFormed := by
  refine ends_iff.2 fun {t t' result} h => ?_
  obtain ⟨-, -, -, hparams, merged, t₁, t₂, hmerged, hbody, -⟩ := outcome_merge_ok h
  have hnew : ∀ r ∈ Replacement.ofParams source.params extension.params, r.new.WellFormed := by
    intro r hr
    obtain ⟨p, -, q, -, rfl⟩ := Replacement.mem_ofParams hr
    exact Expr.wellFormed_param q
  have hmergedFormed := ends_iff.1 (Expr.mergeValue_ends hs.2 hx.2) hmerged
  refine ⟨?_, ends_iff.1 (Expr.substitute_ends hnew hmergedFormed) hbody⟩
  rw [hparams]
  exact hx.1

end

/-! ## Inlining -/

section

variable {host : Host} {source : Expr}

theorem Lambda.inline_ends {f : Lambda} (hf : f.WellFormed) (hs : source.WellFormed) :
    Ends (f.inline source) Expr.WellFormed := by
  have hone {p : Param} {new : Expr} (hnew : new.WellFormed) :
      ∀ r ∈ [(⟨.param p, new⟩ : Replacement)], r.new.WellFormed := by simpa using hnew
  simp only [inline]
  split
  · refine .ite (fun _ => .stop) fun _ => .ite (fun _ => .pure hf.2) fun _ => .ite (fun _ => ?_)
      fun _ => Expr.substitute_ends (hone hs) hf.2
    refine Gives.bind ends_any fun other _ => ?_
    refine (Lambda.substitute_ends (hone (Expr.wellFormed_param other)) hf).bind fun g hg => ?_
    exact Expr.substitute_ends (hone hs) hg.2
  · exact .throw

theorem Expr.mkDefault_ends (ty : Ty) : Ends (mkDefault ty) Expr.WellFormed := by
  refine .ite (fun _ => Gives.bind ends_any fun i _ => .pure wellFormed_default) fun _ => ?_
  refine Gives.bind ends_any fun i _ => .pure (wellFormed_constant.2 ?_)
  exact Value.wellFormed_of_plain rfl rfl

theorem Expr.guarding_ends {body : Expr} (hs : source.WellFormed) (hbody : body.WellFormed) :
    Ends (guarding source body) Expr.WellFormed := by
  refine (mkDefault_ends body.ty).bind fun result hresult => ?_
  refine (mkDefault_ends source.ty).bind fun d hd => ?_
  refine Gives.bind (P := Expr.WellFormed) ?_ fun test htest => ?_
  · exact Gives.bind ends_any fun i _ => .pure (wellFormed_binary.2 ⟨hs, hd⟩)
  · refine Gives.bind ends_any fun i _ => .pure ?_
    exact wellFormed_conditional.2 ⟨htest, hresult, hbody⟩

theorem Expr.inlineOver_ends (hhost : host.WellFormed) {operand : Expr} (hs : source.WellFormed)
    (hoperand : operand.WellFormed) (guarded : Bool) (cx : BuildContext) :
    Ends (source.inlineOver host operand guarded cx) Expr.WellFormed := by
  refine (heldLambda_ends hhost hoperand cx).bind fun f hf => ?_
  refine (Lambda.inline_ends hf hs).bind fun body hbody => ?_
  exact .ite (fun _ => guarding_ends hs hbody) fun _ => .pure hbody

theorem Expr.select_ends {projection : Lambda} (hs : source.WellFormed)
    (hf : projection.WellFormed) : Ends (source.select projection) Expr.WellFormed := by
  have hcall {d : Expr} (op : Operation) (ty : Ty) (hd : d.WellFormed) :
      Ends (mkCall op none [source, d] ty) Expr.WellFormed :=
    mkCall_ends (by simp) (by simpa using ⟨hs, hd⟩)
  unfold select
  refine .ite (fun _ => ?_) fun _ => .ite (fun _ => ?_) fun _ => .throw
  · refine Gives.bind (P := Expr.WellFormed) ?_ fun d hd => hcall _ _ hd
    exact Gives.bind ends_any fun i _ => .pure (wellFormed_quote.2 hf)
  · refine Gives.bind (P := Expr.WellFormed) ?_ fun d hd => hcall _ _ hd
    exact Gives.bind ends_any fun i _ => .pure (wellFormed_lambda.2 hf)

theorem Expr.inlineOverItems_ends (hhost : host.WellFormed) {operand : Expr}
    (hs : source.WellFormed) (hoperand : operand.WellFormed) (stem : String) (cx : BuildContext) :
    Ends (source.inlineOverItems host operand stem cx) Expr.WellFormed := by
  unfold inlineOverItems
  split
  · exact .throw
  · refine (heldLambda_ends hhost hoperand cx).bind fun f hf => ?_
    refine Gives.bind ends_any fun n _ => Gives.bind ends_any fun p _ => ?_
    refine (Lambda.inline_ends hf (wellFormed_param p)).bind fun body hbody => ?_
    exact (Lambda.ofExprs_ends _ hbody).bind fun projection hprojection =>
      select_ends hs hprojection

end

/-! ## Transformers -/

section

variable {host : Host} {design : ExpanderDesign}

/-- A call and its parts are well formed. -/
structure CallSite.WellFormed (site : CallSite) : Prop where
  node : site.node.WellFormed
  receiver {e : Expr} : site.receiver = some e → e.WellFormed
  arguments {e : Expr} : e ∈ site.arguments → e.WellFormed

/-- The resolvers answer with well-formed mappers, and the custom transformers put well-formed trees
in the places of well-formed calls. -/
structure ExpanderDesign.WellFormed (design : ExpanderDesign) (host : Host) : Prop where
  resolvers {resolver : Resolver} {request : MapperRequest} {handle : MapperHandle} :
    resolver ∈ design.settings.resolvers → resolver.Answers host request handle →
    handle.WellFormed
  custom {name : String} {expand : SiteExpansion} {self : NodeId} {site : CallSite}
      {cx : BuildContext} :
    design.custom name design.settings = .ok expand → site.WellFormed →
    Ends (expand self host site cx) Expr.WellFormed

/-- Every transformer in the cache is one that some marker names. -/
def ExpanderDesign.Stocks (design : ExpanderDesign) (cache : TransformerCache) : Prop :=
  ∀ entry ∈ cache, ∃ op, design.Makes op entry.2

theorem ExpanderDesign.stocks_nil : design.Stocks [] := by
  simp [Stocks]

theorem CallSite.argument_ends {site : CallSite} (hsite : site.WellFormed) (index : Nat) :
    Ends (site.argument index) Expr.WellFormed := by
  unfold argument
  split
  · rename_i e he
    exact .pure (hsite.arguments (List.mem_of_getElem? he))
  · exact .throw

theorem Resolver.askAll_ends {request : MapperRequest} {resolvers : List Resolver}
    (h : ∀ resolver ∈ resolvers, ∀ handle, resolver.Answers host request handle →
      handle.WellFormed) :
    Ends (askAll host request resolvers) fun answer => ∀ handle ∈ answer, handle.WellFormed := by
  refine (askAll_upholds fun _ _ _ _ => trivial).imp fun r hr answer hanswer handle hhandle => ?_
  obtain ⟨resolver, hmem, hanswers⟩ := hr handle (hhandle ▸ hanswer)
  exact h resolver hmem handle hanswers

theorem MapperHandle.mapper?_wellFormed (hhost : host.WellFormed) {handle : MapperHandle}
    (hhandle : handle.WellFormed) {m : Mapper} (h : handle.mapper? host = some m) :
    (Value.mapper m).WellFormed := by
  cases handle with
  | mapper n => exact Option.some.inj h ▸ hhandle
  | ref r => exact hhost.filled h

/-- What a transformer puts in the place of a call is well formed. -/
theorem Marker.transformer_ends (hhost : host.WellFormed) (hdesign : design.WellFormed host)
    {marker : Marker} {expand : SiteExpansion}
    (h : marker.transformer? design.custom design.settings = .ok expand) {site : CallSite}
    (hsite : site.WellFormed) (self : NodeId) (cx : BuildContext) :
    Ends (expand self host site cx) Expr.WellFormed := by
  have hargument (index : Nat) := CallSite.argument_ends hsite index
  cases marker with
  | includeGiven | mapWith =>
    obtain rfl := Except.ok.inj h
    exact (hargument 0).bind fun source hs => (hargument 1).bind fun mapper hmapper =>
      Expr.inlineOver_ends hhost hs hmapper _ cx
  | mapAllWith =>
    obtain rfl := Except.ok.inj h
    exact (hargument 0).bind fun source hs => (hargument 1).bind fun mapper hmapper =>
      Expr.inlineOverItems_ends hhost hs hmapper _ cx
  | map =>
    obtain rfl := Except.ok.inj h
    simp only [CallSite.inlineReceiver]
    split
    · exact .throw
    · rename_i hreceiver
      exact (hargument 0).bind fun source hs =>
        Expr.inlineOver_ends hhost hs (hsite.receiver hreceiver) _ cx
  | includeResolved =>
    obtain rfl := Except.ok.inj h
    simp only [CallSite.inlineResolved]
    refine (hargument 0).bind fun source hs => ?_
    refine (Resolver.askAll_ends fun r hr _ => hdesign.resolvers hr).bind fun answer hanswer => ?_
    split
    · exact .throw
    · refine Gives.bind ends_any fun _ _ => ?_
      split
      · rename_i hm
        have hwell := MapperHandle.mapper?_wellFormed hhost (hanswer _ rfl) hm
        exact Lambda.inline_ends (Value.wellFormed_mapper.1 hwell).2 hs
      · exact .throw
  | custom name => exact hdesign.custom h hsite

/-- A run inside a pass gives there what it ends with by itself. -/
theorem Gives.lift {J : TransformerCache → Prop} {α : Type} {run : RunM α} {Q : α → Prop}
    (h : Ends run Q) : Gives (fun s => J s.2) (liftM run : PassM α) Q := by
  intro s hs
  have hcache : (outcome (liftM run : PassM α) s).2.2 = s.2 := ExpanderDesign.cache_eq_of_lift rfl
  refine ⟨?_, (h s.1 trivial).2⟩
  change J _
  rwa [hcache]

namespace ExpanderDesign

/-- A transformer that is looked up is one that some marker names. -/
theorem transformerOf_gives (op : Operation) :
    Gives (fun s => design.Stocks s.2) (design.transformerOf op) fun transformer =>
      ∃ op', design.Makes op' transformer := by
  have hknown : Gives (fun s => design.Stocks s.2) (PassM.known op.signature) fun known =>
      ∀ transformer ∈ known, ∃ op', design.Makes op' transformer := by
    intro s hs
    refine ⟨hs, fun known h transformer hfound => ?_⟩
    obtain rfl := Except.ok.inj h
    obtain ⟨l₁, l₂, hcache, -⟩ := List.lookup_eq_some_iff.1 hfound
    exact hs (op.signature, transformer) (by simp [hcache])
  refine hknown.bind fun known hmakes => ?_
  cases known with
  | some transformer => exact .pure (hmakes _ rfl)
  | none =>
    have hmake : Ends (design.makeTransformer op) (design.Makes op) := ends_iff.2 fun {t t' a} h =>
      (makeTransformer_upholds (.above t.next) t (Nat.le_refl _)).2 a (by rw [h])
    refine (Gives.lift hmake).bind fun transformer hmade => ?_
    refine Gives.bind (P := fun _ => True) (fun s hs => ⟨?_, fun _ _ => trivial⟩) fun _ _ =>
      .pure ⟨op, hmade⟩
    exact List.forall_mem_append.2 ⟨hs, by simpa using ⟨op, hmade⟩⟩

/-- A pass puts well-formed trees in the places of marked calls. -/
theorem judge_gives (hhost : host.WellFormed) (hdesign : design.WellFormed host)
    (cx : BuildContext) {e : Expr} (he : e.WellFormed) :
    Gives (fun s => design.Stocks s.2) ((design.visitor host cx).judge e) Verdict.WellFormed := by
  cases e with
  | call id ty op receiver arguments =>
    obtain ⟨-, hreceiver, harguments⟩ := Expr.wellFormed_call.1 he
    refine (transformerOf_gives op).bind fun transformer hmakes => ?_
    obtain ⟨op', hmakes⟩ := hmakes
    cases hmakes with
    | none => exact .pure trivial
    | some _ hexpand =>
      refine Gives.bind (Gives.lift (Marker.transformer_ends hhost hdesign hexpand ?_ _ cx))
        fun e' he' => .pure he'
      exact ⟨he, fun h => hreceiver _ h, fun h => harguments _ h⟩
  | _ => exact .pure trivial

end ExpanderDesign

end

/-! ## Rewriting -/

/-- A run inside another one gives there what it ends with by itself. -/
theorem Ends.lift {σ α : Type} [MonadLiftT RunM (Steps σ)] [CarriesTrail σ] {run : RunM α}
    {Q : α → Prop} (h : Ends run Q) : Ends (liftM run : Steps σ α) Q :=
  ends_iff.2 fun hrun => ends_iff.1 h (CarriesTrail.outcome_lift hrun)

/-- The builders that check their parts, visits with visitors that put well-formed trees in,
substitution, merging, inlining and passes with well-formed transformers make well-formed trees of
well-formed ones. -/
theorem wellFormed_of_rewriting {host : Host} (hhost : host.WellFormed) {e source operand : Expr}
    {f g : Lambda} (he : e.WellFormed) (hsource : source.WellFormed)
    (hoperand : operand.WellFormed) (hf : f.WellFormed) (hg : g.WellFormed) :
    ((∀ params, Ends (Lambda.ofExprs params e) Lambda.WellFormed) ∧
      (∀ {op receiver arguments ty}, (∀ d ∈ receiver, d.WellFormed) →
        (∀ d ∈ arguments, d.WellFormed) →
          Ends (Expr.mkCall op receiver arguments ty) Expr.WellFormed) ∧
      ∀ {ty arguments assignments}, (∀ a ∈ arguments, a.value.WellFormed) →
        (∀ a ∈ assignments, a.value.WellFormed) →
          Ends (Expr.mkConstruct ty arguments assignments) Expr.WellFormed) ∧
    (∀ {σ : Type} [MonadLiftT RunM (Steps σ)] [CarriesTrail σ] {v : Visitor (Steps σ)},
      (∀ d, d.WellFormed → Ends (v.judge d) Verdict.WellFormed) →
        Ends (v.apply e) Expr.WellFormed ∧ Ends (e.walk v) Expr.WellFormed ∧
          Ends (f.walk v) Lambda.WellFormed) ∧
    (∀ {rs : List Replacement}, (∀ r ∈ rs, r.new.WellFormed) →
      Ends (e.substitute rs) Expr.WellFormed ∧ Ends (f.substitute rs) Lambda.WellFormed) ∧
    Ends (f.merge g) Lambda.WellFormed ∧
    Ends (f.inline source) Expr.WellFormed ∧
    (∀ guarded cx, Ends (source.inlineOver host operand guarded cx) Expr.WellFormed) ∧
    (∀ stem cx, Ends (source.inlineOverItems host operand stem cx) Expr.WellFormed) ∧
    ∀ {design : ExpanderDesign}, design.WellFormed host → ∀ cx,
      Gives (fun s => design.Stocks s.2) (design.expandExpr host e cx) Expr.WellFormed ∧
        Gives (fun s => design.Stocks s.2) (design.expandLambda host f cx) Lambda.WellFormed := by
  refine ⟨⟨fun params => Lambda.ofExprs_ends params he, Expr.mkCall_ends, Expr.mkConstruct_ends⟩,
    ?_, fun hrs => ⟨Expr.substitute_ends hrs he, Lambda.substitute_ends hrs hf⟩,
    Lambda.merge_ends hf hg, Lambda.inline_ends hf hsource,
    Expr.inlineOver_ends hhost hsource hoperand, Expr.inlineOverItems_ends hhost hsource hoperand,
    ?_⟩
  · intro σ _ _ v hv
    exact ⟨Visitor.apply_gives Ends.lift hv he, Visitor.walk_wellFormed Ends.lift hv he,
      Visitor.walkFn_wellFormed Ends.lift hv hf⟩
  · intro design hdesign cx
    have hjudge (d : Expr) (hd : d.WellFormed) :=
      ExpanderDesign.judge_gives hhost hdesign cx hd
    exact ⟨Visitor.apply_gives Gives.lift hjudge he, Visitor.walkFn_wellFormed Gives.lift hjudge hf⟩

/-- A lambda that maps an object, laid under another one and expanded. -/
theorem wellFormed_of_rewriting_mapped :
    let a : Param := ⟨0, "a", .object "A"⟩
    let getter : Lambda := ⟨2, [a], .member 1 (.param a) ⟨"A", "n", .int⟩⟩
    let m : Mapper := ⟨1, .object "A", .int, getter, getter⟩
    let x : Param := ⟨3, "x", .object "A"⟩
    let mapped : Expr :=
      .call 5 .int .mapWith none [.param x, .constant 4 (.mapper m.input m.output) (.mapper m)]
    let source : Lambda := ⟨7, [x], .construct 6 (.object "D") [] [⟨⟨"D", "n", .int⟩, mapped⟩]⟩
    let y : Param := ⟨8, "y", .object "A"⟩
    let extension : Lambda := ⟨12, [y], .construct 11 (.object "E") []
      [⟨⟨"E", "k", .int⟩, .constant 9 .int (.int 1)⟩, ⟨⟨"D", "n", .int⟩, .previous 10 .int none⟩]⟩
    let design : ExpanderDesign := ⟨{}, fun _ _ => .error ""⟩
    ∃ merged expanded t s, outcome (source.merge extension) { next := 13 } = (.ok merged, t) ∧
      outcome (design.expandLambda (Host.bare 1) source (.ofLambda source)) (t, []) =
        (.ok expanded, s) ∧ merged.WellFormed ∧ expanded.WellFormed := by
  intro a getter m x mapped source y extension design
  have hgetter : getter.WellFormed := ⟨by simp [getter], by simp [getter]⟩
  have hmapped : mapped.WellFormed :=
    Expr.wellFormed_call.2 ⟨⟨rfl, rfl⟩, by simp, by simp [m, hgetter]⟩
  have hone (i : Int64) : (Value.int i).WellFormed := Value.wellFormed_of_plain rfl rfl
  have hsource : source.WellFormed := ⟨by simp [source], by simpa [source] using hmapped⟩
  have hextension : extension.WellFormed :=
    ⟨by simp [extension], by simp [extension, Assignment.key, hone]⟩
  obtain ⟨-, -, -, hmerge, -, -, -, hpass⟩ := wellFormed_of_rewriting (Host.bare_wellFormed 1)
    hmapped hmapped hmapped hsource hextension
  have hdesign : design.WellFormed (Host.bare 1) := ⟨by simp [design], by simp [design]⟩
  obtain ⟨-, hexpand⟩ := hpass hdesign (.ofLambda source)
  obtain ⟨merged, hmerged⟩ :
      ∃ merged, outcome (source.merge extension) { next := 13 } = (.ok merged, { next := 17 }) :=
    ⟨_, rfl⟩
  obtain ⟨expanded, s, hexpanded⟩ : ∃ expanded s, outcome (design.expandLambda (Host.bare 1) source
    (.ofLambda source)) ({ next := 17 }, []) = (.ok expanded, s) :=
    outcome_of_isOk (by decide +kernel)
  exact ⟨merged, expanded, _, s, hmerged, hexpanded, ends_iff.1 hmerge hmerged,
    (hexpand _ ExpanderDesign.stocks_nil).2 expanded (by rw [hexpanded])⟩

end ObjectMapping
