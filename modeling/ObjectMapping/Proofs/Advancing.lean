import ObjectMapping.Proofs.Upholding

/-!
# Runs that advance

Evaluation, substitution, merging and inlining do nothing to the trail but take identities of nodes
and write to the log : a run of theirs advances, whether it ends with a result or not. What was made
below the next identity before such a run is below it afterwards. A built-in transformer advances as
well, but for the resolvers that it asks (`Marker.transformer_keeps`).
-/

namespace ObjectMapping

open RunM

/-! ## Evaluation -/

/-- Whatever function is called on whatever values, the run advances. -/
def Caller.Advances (call : Caller) : Prop :=
  ∀ f args, (call f args).Advances

section

variable {host : Host} {call : Caller}

theorem Mapper.mapBy_advances (hcall : call.Advances) (m : Mapper) (v : Value) :
    (m.mapBy call v).Advances :=
  fun I => .ite .pure (hcall _ _ I)

theorem Native.run_advances (hcall : call.Advances) (args : List Value) (native : Native) :
    (native.run host call args).Advances := by
  intro I
  cases native with
  | select kind =>
    refine (advances_ofExcept _ I).bind fun given => (advances_ofExcept _ I).bind fun f => ?_
    exact (Keeps.mapM fun _ _ => hcall _ _ I).bind fun _ => .pure
  | convert kind => exact (advances_ofExcept _ I).bind fun _ => .pure
  | toUpper =>
    simp only [run]
    split
    · exact .pure
    · exact advances_fail _ I
    · exact advances_fail _ I
    · exact advances_fail _ I
  | mapWith => exact (advances_ofExcept _ I).bind fun m => Mapper.mapBy_advances hcall m _ I
  | mapAllWith =>
    refine (advances_ofExcept _ I).bind fun m => (advances_ofExcept _ I).bind fun given => ?_
    exact (Keeps.mapM fun _ _ => Mapper.mapBy_advances hcall m _ I).bind fun _ => .pure
  | map => exact (advances_ofExcept _ I).bind fun m => Mapper.mapBy_advances hcall m _ I
  | custom name =>
    refine Keeps.bind (advances_notes _ I) fun _ => ?_
    split
    · exact .pure
    · exact advances_fail _ I
    · exact hcall _ _ I

theorem Expr.evalList_advances {env : Env} {es : List Expr}
    (h : ∀ e ∈ es, ∀ site, (e.evalIn host call env site).Advances) (site : Site) :
    (Expr.evalList host call env site es).Advances := by
  intro I
  induction es generalizing site with
  | nil => exact .pure
  | cons e es ih =>
    exact (h e (by simp) _ I).bind fun v =>
      (ih (fun d hd => h d (by simp [hd])) _).bind fun _ => .pure

theorem Assignment.evalList_advances {env : Env} {as : List Assignment}
    (h : ∀ a ∈ as, ∀ site, (a.value.evalIn host call env site).Advances) (site : Site)
    (fields : List Field) : (Assignment.evalList host call env site fields as).Advances := by
  intro I
  induction as generalizing site fields with
  | nil => exact .pure
  | cons a as ih =>
    obtain ⟨m, e⟩ := a
    exact (h ⟨m, e⟩ (by simp) _ I).bind fun v => ih (fun b hb => h b (by simp [hb])) _ _

/-- Evaluating an expression gives no identity back, whatever comes of it. -/
theorem Expr.evalIn_advances (hcall : call.Advances) (env : Env) (site : Site) (e : Expr) :
    (e.evalIn host call env site).Advances := by
  induction e using Expr.byParts generalizing site with
  | param p =>
    intro I
    simp only [evalIn]
    split
    · exact .pure
    · exact advances_fail _ I
  | constant | default | lambda | quote => exact fun _ => .pure
  | member id o m ih => exact fun I => (ih _ I).bind fun _ => advances_ofExcept _ I
  | unary id ty op a ih => exact fun I => (ih _ I).bind fun _ => advances_ofExcept _ I
  | binary id ty op a b iha ihb =>
    intro I
    refine (iha _ I).bind fun v => ?_
    split
    · exact (advances_ofExcept _ I).bind fun _ => .ite (ihb _ I) .pure
    · exact (advances_ofExcept _ I).bind fun _ => .ite .pure (ihb _ I)
    · exact (ihb _ I).bind fun _ => advances_ofExcept _ I
  | conditional id ty a b c iha ihb ihc =>
    intro I
    exact (iha _ I).bind fun _ =>
      (advances_ofExcept _ I).bind fun _ => .ite (ihb _ I) (ihc _ I)
  | call id ty op receiver arguments ihr iha =>
    intro I
    have hreceiver : Keeps I.holds
        (Expr.evalOption host call env (site.child 0) receiver) := by
      cases receiver with
      | none => exact .pure
      | some r => exact (ihr r rfl _ I).bind fun _ => .pure
    refine hreceiver.bind fun vs => (evalList_advances iha _ I).bind fun ws => ?_
    simp only [Operation.invokeBy]
    split
    · exact Native.run_advances hcall _ _ I
    · exact advances_fail _ I
  | construct id ty as bs iha ihb =>
    intro I
    refine (Assignment.evalList_advances iha _ _ I).bind fun fields => ?_
    refine (Assignment.evalList_advances ihb _ _ I).bind fun fields' => ?_
    exact (advances_fresh I).bind fun _ => .pure
  | previous => exact advances_fail _

/-- Calling a function gives no identity back, however deeply calls are nested. -/
theorem Function.callWithin_advances (host : Host) :
    ∀ d, Caller.Advances (Function.callWithin host d)
  | 0 => fun _ _ _ => .throw trivial
  | d + 1 => fun _ _ I =>
    .ite (advances_reject _ I) (Expr.evalIn_advances (callWithin_advances host d) _ _ _ I)

/-- A constant has the value that it holds. -/
theorem Expr.evaluate_constant_upholds (host : Host) (id : NodeId) (ty : Ty) (v : Value)
    (I : Trail.Invariant) :
    Upholds I.holds ((Expr.constant id ty v).evaluate host) fun r => ∀ w, r = .ok w → w = v :=
  Upholds.bind (advances_fresh I) (fun _ _ => .pure fun _ h => (Except.ok.inj h).symm) nofun

theorem Expr.evaluate_advances (host : Host) (e : Expr) : (e.evaluate host).Advances :=
  fun I => (advances_fresh I).bind fun _ =>
    Expr.evalIn_advances (Function.callWithin_advances host host.depth) _ _ _ I

end

/-! ## Substitution, merging and inlining -/

section

variable {α : Type}

variable {v : Visitor RunM}

theorem Visitor.apply_advances (h : ∀ e, (v.judge e).Advances) (e : Expr) :
    (v.apply e).Advances :=
  fun I => Visitor.apply_keeps (P := fun _ => True) (fun hrun => hrun I) (fun e _ => h e I)
    (Expr.all_of_forall (fun _ => trivial) e)

theorem Visitor.walk_advances (h : ∀ e, (v.judge e).Advances) (e : Expr) : (e.walk v).Advances :=
  fun I => (Visitor.walk_upholds (R := fun _ _ => True) (fun hrun => hrun I)
    fun d _ => Visitor.apply_advances h d I).keeps

theorem Visitor.walkFn_advances (h : ∀ e, (v.judge e).Advances) (f : Lambda) :
    (f.walk v).Advances :=
  fun I => (Visitor.walkFn_upholds (R := fun _ _ => True) (fun hrun => hrun I)
    fun d _ => Visitor.apply_advances h d I).keeps

theorem Visitor.judge_replacing_advances (rs : List Replacement) :
    ∀ d e, ((Visitor.replacing rs d).judge e).Advances
  | 0, _ => fun _ => .ite (Keeps.bind (Upholds.throw trivial) fun _ => .pure) .pure
  | d + 1, e => by
    intro I
    simp only [Visitor.replacing]
    split
    · exact (Visitor.walk_advances (judge_replacing_advances rs d) _ I).bind fun _ => .pure
    · exact .pure

theorem Replacement.check_advances (rs : List Replacement) : (check rs).Advances := by
  intro I
  simp only [check]
  split <;> split <;> first | exact .pure | exact advances_reject _ I

theorem Expr.substitute_advances (e : Expr) (rs : List Replacement) : (e.substitute rs).Advances :=
  fun I => (Replacement.check_advances rs I).bind fun _ =>
    Visitor.apply_advances (Visitor.judge_replacing_advances rs _) e I

theorem Lambda.substitute_advances (f : Lambda) (rs : List Replacement) :
    (f.substitute rs).Advances :=
  fun I => (Replacement.check_advances rs I).bind fun _ =>
    Visitor.walkFn_advances (Visitor.judge_replacing_advances rs _) f I

theorem Expr.fillPrevious_advances (value : Expr) (previous : Option Expr) (member : Member) :
    (value.fillPrevious previous member).Advances := by
  refine Visitor.apply_advances (fun e I => ?_) value
  simp only [Visitor.fillingPrevious]
  split
  · exact .pure
  · exact .pure
  · exact advances_fail _ I
  · exact .pure

theorem Assignment.added_advances (source extension : List Assignment) :
    (added source extension).Advances := by
  intro I
  induction extension with
  | nil => exact .pure
  | cons a rest ih =>
    rw [added]
    exact .ite ih ((Expr.fillPrevious_advances _ _ _ I).bind fun _ => ih.bind fun _ => .pure)

theorem Assignment.mergeList_advances {source : List Assignment} (extension : List Assignment)
    (h : ∀ a ∈ source, ∀ x, (a.value.mergeValue x).Advances) :
    (mergeList extension source).Advances := by
  intro I
  induction source with
  | nil => exact .pure
  | cons a rest ih =>
    replace ih := ih fun b hb => h b (List.mem_cons_of_mem _ hb)
    obtain ⟨member, previous⟩ := a
    rw [mergeList]
    split
    · exact ih.bind fun _ => .pure
    · exact (h _ List.mem_cons_self _ I).bind fun _ =>
        (Expr.fillPrevious_advances _ _ _ I).bind fun _ => ih.bind fun _ => .pure

theorem Expr.mergeValue_advances (source extension : Expr) :
    (source.mergeValue extension).Advances := by
  induction source using Expr.byParts generalizing extension with
  | construct _ _ _ source _ ih =>
    cases extension with
    | construct _ ty arguments extension =>
      rw [mergeValue]
      exact fun I => (Assignment.mergeList_advances extension ih I).bind fun _ =>
        (Assignment.added_advances source extension I).bind fun _ => advances_make _ I
    | _ =>
      rw [mergeValue]
      · exact fun _ => .pure
      · simp
  | _ =>
    rw [mergeValue]
    · exact fun _ => .pure
    · simp

theorem Lambda.merge_advances (source extension : Lambda) : (source.merge extension).Advances := by
  intro I
  have hmerge : Keeps I.holds (do
      let merged ← source.body.mergeValue extension.body
      let body ← merged.substitute (Replacement.ofParams source.params extension.params)
      Lambda.ofExprs extension.paramExprs body : RunM Lambda) :=
    (Expr.mergeValue_advances _ _ I).bind fun _ => (Expr.substitute_advances _ _ I).bind fun _ =>
      advances_ofExprs _ _ I
  -- each check lets the run go on or fails
  refine .ite ?_ ((advances_fail _ I).bind fun _ => ?_) <;>
    refine .ite ?_ ((advances_fail _ I).bind fun _ => ?_) <;>
    exact .ite ((advances_reject _ I).bind fun _ => hmerge) hmerge

theorem Lambda.inline_advances (f : Lambda) (source : Expr) : (f.inline source).Advances := by
  intro I
  simp only [Lambda.inline]
  split
  · rename_i p _
    have hrest : Keeps I.holds (do
        if p.id = source.id then
          return f.body
        if (Expr.param p).occursIn source then
          let other ← Param.make p.name p.ty
          let renamed ← f.substitute [⟨.param p, .param other⟩]
          renamed.body.substitute [⟨.param other, source⟩]
        else
          f.body.substitute [⟨.param p, source⟩] : RunM Expr) := by
      refine .ite .pure (.ite ?_ (Expr.substitute_advances _ _ I))
      exact (advances_make _ I).bind fun other => (Lambda.substitute_advances _ _ I).bind fun g =>
        Expr.substitute_advances _ _ I
    exact .ite ((advances_reject _ I).bind fun _ => hrest) hrest
  · exact advances_reject _ I

theorem Expr.mkDefault_advances (ty : Ty) : (mkDefault ty).Advances :=
  fun I => .ite (advances_make _ I) (advances_make _ I)

theorem Expr.guarding_advances (source body : Expr) : (guarding source body).Advances :=
  fun I => (mkDefault_advances _ I).bind fun _ => (mkDefault_advances _ I).bind fun _ =>
    (advances_make _ I).bind fun _ => advances_make _ I

theorem BuildContext.refuseCurrent_advances (cx : BuildContext) (id : MapperId) :
    (cx.refuseCurrent id).Advances :=
  fun I => .ite (advances_fail _ I) .pure

theorem Expr.heldLambda_advances (host : Host) (operand : Expr) (cx : BuildContext) :
    (operand.heldLambda host cx).Advances := by
  intro I
  refine (evaluate_advances host operand I).bind fun v => ?_
  split
  · exact (BuildContext.refuseCurrent_advances _ _ I).bind fun _ => .pure
  · refine (BuildContext.refuseCurrent_advances _ _ I).bind fun _ => ?_
    split
    · exact .pure
    · exact advances_fail _ I
  · exact .pure
  · exact .pure
  · exact advances_fail _ I
  · exact advances_fail _ I

theorem Expr.mkCall_advances (op : Operation) (receiver : Option Expr) (arguments : List Expr)
    (ty : Ty) : (mkCall op receiver arguments ty).Advances := by
  intro I
  have hrest : Keeps I.holds (do
      if op.signature.hasReceiver ≠ receiver.isSome then
        reject (.receiverPresence op.signature)
      return .call (← fresh) ty op receiver arguments : RunM Expr) :=
    .ite ((advances_reject _ I).bind fun _ => advances_make _ I) (advances_make _ I)
  exact .ite ((advances_reject _ I).bind fun _ => hrest) hrest

theorem Expr.select_advances (source : Expr) (projection : Lambda) :
    (source.select projection).Advances :=
  fun I => .ite ((advances_make _ I).bind fun _ => mkCall_advances _ _ _ _ I)
    (.ite ((advances_make _ I).bind fun _ => mkCall_advances _ _ _ _ I) (advances_fail _ I))

theorem Expr.inlineOver_advances (host : Host) (source operand : Expr) (guarded : Bool)
    (cx : BuildContext) : (source.inlineOver host operand guarded cx).Advances :=
  fun I => (heldLambda_advances host operand cx I).bind fun f =>
    (Lambda.inline_advances f source I).bind fun body =>
      .ite (guarding_advances source body I) .pure

theorem Expr.inlineOverItems_advances (host : Host) (source operand : Expr) (stem : String)
    (cx : BuildContext) : (source.inlineOverItems host operand stem cx).Advances := by
  intro I
  simp only [inlineOverItems]
  split
  · exact advances_fail _ I
  · refine (heldLambda_advances host operand cx I).bind fun f => (advances_fresh I).bind fun i => ?_
    refine (advances_make _ I).bind fun p => (Lambda.inline_advances f _ I).bind fun body => ?_
    exact (advances_ofExprs _ _ I).bind fun projection => select_advances source projection I

/-- The resolver gives this answer to the request, from one trail or another. -/
def Resolver.Answers (resolver : Resolver) (host : Host) (request : MapperRequest)
    (handle : MapperHandle) : Prop :=
  ∃ t, (resolver.ask host request t).1 = some handle

/-- Asking resolvers keeps what each of them keeps, and the answer is one of theirs. -/
theorem Resolver.askAll_upholds {I : Trail → Prop} {host : Host} {request : MapperRequest} :
    ∀ {resolvers : List Resolver},
      (∀ resolver ∈ resolvers, ∀ t, I t → I (resolver.ask host request t).2) →
      Upholds I (askAll host request resolvers) fun r => ∀ handle, r = .ok (some handle) →
        ∃ resolver ∈ resolvers, resolver.Answers host request handle
  | [], _ => .pure nofun
  | resolver :: rest, h => by
    have hask : Upholds I (liftM (resolver.ask host request) : RunM (Option MapperHandle))
        fun r => ∀ handle, r = .ok (some handle) → resolver.Answers host request handle :=
      fun t ht => ⟨h resolver (by simp) t ht, fun _ hr => ⟨t, Except.ok.inj hr⟩⟩
    rw [askAll]
    refine hask.bind (fun answer hanswer => ?_) nofun
    split
    · refine .pure fun handle hr => ⟨resolver, by simp, hanswer handle ?_⟩
      rw [Except.ok.inj hr]
    · refine (askAll_upholds fun other hother => h other (by simp [hother])).imp
        fun r hr handle hhandle => ?_
      obtain ⟨other, hother, hanswer⟩ := hr handle hhandle
      exact ⟨other, by simp [hother], hanswer⟩

/-- Resolvers give no identity back. -/
theorem Resolver.ask_next_le (resolver : Resolver) (host : Host) (request : MapperRequest)
    {n : NodeId} {t : Trail} (hn : n ≤ t.next) : n ≤ (resolver.ask host request t).2.next :=
  Nat.le_trans hn (resolver.grows host request t).next_le

theorem CallSite.argument_advances (site : CallSite) (index : Nat) :
    (site.argument index).Advances := by
  intro I
  unfold argument
  split
  · exact .pure
  · exact advances_reject _ I

/-- The transformers of the built-in markers keep what advancing runs keep, if the resolvers do. -/
theorem Marker.transformer_keeps {marker : Marker} {custom : CustomTransformers}
    {settings : Settings} {expand : SiteExpansion} {I : Trail.Invariant} {host : Host}
    (hcustom : ∀ name, marker ≠ .custom name)
    (h : marker.transformer? custom settings = .ok expand)
    (hresolvers : ∀ resolver ∈ settings.resolvers, ∀ request t,
      I.holds t → I.holds (resolver.ask host request t).2)
    (self : NodeId) (site : CallSite) (cx : BuildContext) :
    Keeps I.holds (expand self host site cx) := by
  have hargument (index : Nat) := CallSite.argument_advances site index I
  cases marker with
  | includeGiven | mapWith =>
    obtain rfl := Except.ok.inj h
    exact (hargument 0).bind fun source => (hargument 1).bind fun mapper =>
      Expr.inlineOver_advances host source mapper _ cx I
  | mapAllWith =>
    obtain rfl := Except.ok.inj h
    exact (hargument 0).bind fun source => (hargument 1).bind fun mapper =>
      Expr.inlineOverItems_advances host source mapper _ cx I
  | map =>
    obtain rfl := Except.ok.inj h
    simp only [CallSite.inlineReceiver]
    split
    · exact advances_reject _ I
    · exact (hargument 0).bind fun source => Expr.inlineOver_advances host source _ _ cx I
  | includeResolved =>
    obtain rfl := Except.ok.inj h
    simp only [CallSite.inlineResolved]
    refine (hargument 0).bind fun source => Keeps.bind (Resolver.askAll_upholds
      fun resolver hmem => hresolvers resolver hmem _).keeps fun found => ?_
    split
    · exact advances_fail _ I
    · refine (BuildContext.refuseCurrent_advances _ _ I).bind fun _ => ?_
      split
      · exact Lambda.inline_advances _ _ I
      · exact advances_fail _ I
  | custom name => exact absurd rfl (hcustom name)

end

end ObjectMapping
