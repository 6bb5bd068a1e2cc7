import ObjectMapping.Proofs.Expanding
import ObjectMapping.Proofs.PairedTrees
import ObjectMapping.Stock.Transformers

/-!
# Expansions side by side

The transformer of a marker puts paired expressions in the place of one call, in whatever runs it
does so (`Marker.transformer_oblivious`), if what is supplied from outside does not look at
identities (`ExpanderDesign.Oblivious`). The names of projection parameters are generated from an
identity, and are the one thing that may differ.
-/

namespace ObjectMapping

open RunM

section

variable {log log' : List String} {ρ τ : Pairing} {e e' source source' body body' : Expr}
  {f g : Lambda}

/-! ## Making nodes -/

/-- New nodes over paired parts are made in step. -/
theorem Expr.make_inStep {make make' : NodeId → Expr}
    (h : ∀ {τ i j}, ρ ≤ τ → τ.rel i j → (make i).Paired τ (make' j)) :
    ObjectMapping.InStep (Abreast log log') ρ (do return make (← fresh))
      (do return make' (← fresh)) Expr.Paired :=
  .bind (Abreast.fresh ρ) fun hτ hid =>
    .pure fun hυ => h (Pairing.le_trans hτ hυ) (hυ _ _ hid)

theorem Expr.mkDefault_inStep (ty : Ty) :
    ObjectMapping.InStep (Abreast log log') ρ (mkDefault ty) (mkDefault ty) Expr.Paired :=
  .ite Iff.rfl (fun _ => make_inStep fun _ => .default ty)
    fun _ => make_inStep fun _ => .constant ty .null

/-- The guards around paired bodies are made in step. -/
theorem Expr.guarding_inStep (hs : source.Paired ρ source') (hb : body.Paired ρ body') :
    ObjectMapping.InStep (Abreast log log') ρ (guarding source body) (guarding source' body')
      Expr.Paired := by
  simp only [guarding, ← hs.ty_eq, ← hb.ty_eq]
  refine .bind (mkDefault_inStep _) fun {τ r r'} hτ hr => ?_
  refine .bind (mkDefault_inStep _) fun {υ d d'} hυ hd => ?_
  have hρυ := Pairing.le_trans hτ hυ
  simp only [mkBinary, mkConditional, ← hs.ty_eq, ← hr.ty_eq, ← hd.ty_eq]
  refine .bind (make_inStep fun hφ hid =>
    .binary _ _ hid (hs.mono (Pairing.le_trans hρυ hφ)) (hd.mono hφ)) fun hφ ht => ?_
  exact make_inStep fun hψ hid => .conditional _ hid (ht.mono hψ)
    (hr.mono (Pairing.le_trans hυ (Pairing.le_trans hφ hψ)))
    (hb.mono (Pairing.le_trans hρυ (Pairing.le_trans hφ hψ)))

/-- Projections of paired sequences by paired lambdas are made in step. -/
theorem Expr.select_inStep (hs : source.Paired ρ source') (hf : f.Paired ρ g) :
    ObjectMapping.InStep (Abreast log log') ρ (source.select f) (source'.select g)
      Expr.Paired := by
  have hreturn : f.returnTy = g.returnTy := hf.body.ty_eq
  have call {τ : Pairing} {d d' : Expr} (op : Operation) (ty : Ty) (hτ : ρ ≤ τ)
      (hd : d.Paired τ d') (hop : op.signature.arity = 2 ∧ op.signature.hasReceiver = false) :
      ObjectMapping.InStep (Abreast log log') τ (mkCall op none [source, d] ty)
        (mkCall op none [source', d'] ty) Expr.Paired := by
    have hcall (source d : Expr) : mkCall op none [source, d] ty =
        (do return .call (← fresh) ty op none [source, d] : RunM Expr) := by
      simp [mkCall, hop.1, hop.2]
    rw [hcall, hcall]
    exact make_inStep fun hυ hid => .call _ _ hid .nil
      (.cons (hs.mono (Pairing.le_trans hτ hυ)) (.cons (hd.mono hυ) .nil))
  simp only [select, ← hs.ty_eq, ← hreturn]
  refine .ite Iff.rfl (fun _ => ?_) fun _ => .ite Iff.rfl (fun _ => ?_) fun _ => inStep_fail _
  · refine .bind (make_inStep fun hτ hid => ?_) fun hτ hd => call _ _ hτ hd ⟨rfl, rfl⟩
    exact .quote hid (hf.mono hτ).id (hf.mono hτ).params (hf.mono hτ).body
  · refine .bind (make_inStep fun hτ hid => ?_) fun hτ hd => call _ _ hτ hd ⟨rfl, rfl⟩
    exact .lambda hid (hf.mono hτ).id (hf.mono hτ).params (hf.mono hτ).body

/-! ## Inlining -/

variable {F : Forest} {n : NodeId}

/-- A source of both runs : one node made before, or paired parameters. -/
inductive Expr.CommonSource (F : Forest) (ρ : Pairing) : Expr → Expr → Prop
  | node {e : Expr} : F.nodes e → Expr.CommonSource F ρ e e
  | param {p q : Param} : p.Paired ρ q → Expr.CommonSource F ρ (.param p) (.param q)

theorem Expr.CommonSource.paired (hF : F.Below n) (hρ : .below n ≤ ρ)
    (h : source.CommonSource F ρ source') : source.Paired ρ source' := by
  cases h with
  | node he => exact F.paired hF hρ he
  | param hp => exact .param hp

theorem Expr.CommonSource.named (h : source.CommonSource F ρ source') :
    ρ.Named source.text source'.text := by
  cases h with
  | node => exact .same _
  | param hp => exact hp.name

/-- A parameter occurs in a source exactly if it does on the other side. -/
theorem Expr.CommonSource.occursIn_eq {p : Param} (hp : ρ.rel p.id p.id)
    (h : source.CommonSource F ρ source') :
    (Expr.param p).occursIn source = (Expr.param p).occursIn source' := by
  cases h with
  | node => rfl
  | @param x y hxy =>
    have hsame : (Expr.param p).same (.param x) = (Expr.param p).same (.param y) :=
      ρ.beq_eq hp hxy.id
    simp only [occursIn, outermost, orBelow, outermostBelow, hsame]
    split <;> rfl

/-- What both runs take next is beyond what was made before. -/
theorem Abreast.fresh_above (hρ : .below n ≤ ρ) :
    ObjectMapping.InStep (Abreast log log') ρ RunM.fresh RunM.fresh
      fun υ i j => υ.rel i j ∧ n ≤ i ∧ n ≤ j := by
  refine (Abreast.fresh_apart ρ).imp fun _ h => ⟨h.1, ?_, ?_⟩
  · exact Nat.le_of_not_lt fun hi => h.2.1 _ (Pairing.rel_of_below hρ hi)
  · exact Nat.le_of_not_lt fun hj => h.2.2 _ (Pairing.rel_of_below hρ hj)

/-- Inlining over a node of both runs that mentions the parameter goes in step. -/
theorem Lambda.inline_inStep_of_occurs (hF : F.Below n) (hρ : .below n ≤ ρ) {p : Param}
    (hf : f.Paired ρ f) (hp : F.nodes (.param p)) (hs : F.nodes source) (ty : Ty) :
    let run : RunM Expr := do
      let other ← Param.make p.name ty
      let renamed ← f.substitute [⟨.param p, .param other⟩]
      renamed.body.substitute [⟨.param other, source⟩]
    ObjectMapping.InStep (Abreast log log') ρ run run Expr.Paired := by
  intro run
  have unused {o : Param} (ho : n ≤ o.id) {e : Expr} (he : F.nodes e) :
      e.outermost (Expr.param o).same = [] := Forest.outermost_fresh (hF.mono ho) he
  have apart {o : Param} (ho : n ≤ o.id) {e : Expr} (he : F.nodes e) : o.id ≠ e.id :=
    fun h => Nat.lt_irrefl _ (Nat.lt_of_lt_of_le (h ▸ hF.node he) ho)
  have hmake : ObjectMapping.InStep (Abreast log log') ρ (Param.make p.name ty)
      (Param.make p.name ty) fun υ o o' => o.Paired υ o' ∧ n ≤ o.id ∧ n ≤ o'.id :=
    (Abreast.fresh_above hρ).bind fun _ h =>
      .pure fun hυ => ⟨⟨hυ _ _ h.1, rfl, .same _⟩, h.2⟩
  refine hmake.bind fun {τ o o'} hτ ⟨ho, hn, hn'⟩ => ?_
  have hpτ : p.Paired τ p := ⟨hτ _ _ (Pairing.rel_of_below hρ (hF.node hp)), rfl, .same _⟩
  refine (substitute_inStep hpτ (.param ho) (apart hn hp).symm rfl rfl (hf.mono hτ)).bind
    fun {υ g g'} hυ hg => ?_
  exact Expr.substitute_inStep (ho.mono hυ)
    (((F.paired hF hρ hs).mono hτ).mono hυ) (apart hn hs)
    (Expr.outermost_eq_nil_iff.1 (unused hn hs)).2 (Expr.outermost_eq_nil_iff.1 (unused hn' hs)).2
    hg.body

theorem Lambda.inline_inStep (hF : F.Below n) (hρ : .below n ≤ ρ) (hf : F.fns f)
    (hs : source.CommonSource F ρ source') :
    ObjectMapping.InStep (Abreast log log') ρ (f.inline source) (f.inline source')
      Expr.Paired := by
  have hsource := hs.paired hF hρ
  have hfρ := F.paired_fn hF hρ hf
  simp only [inline]
  split
  swap
  · exact .throw fun _ => .same _
  · rename_i p hparams
    have hp : p.id < n := hF.node (F.param hf (by simp [hparams]))
    have hpρ : ρ.rel p.id p.id := Pairing.rel_of_below hρ hp
    have hpp : p.Paired ρ p := ⟨hpρ, rfl, .same _⟩
    rw [← hsource.ty_eq, ← hs.occursIn_eq hpρ]
    refine .ite Iff.rfl (fun _ => .stop fun hτ => .inlinedType (hs.named.mono hτ)) fun _ => ?_
    refine .ite (ρ.eq_iff hpρ hsource.id) (fun _ => .pure fun hτ => hfρ.body.mono hτ)
      fun hne => ?_
    refine .ite Iff.rfl (fun hoccurs => ?_) fun hoccurs => ?_
    · cases hs with
      | node hs => exact inline_inStep_of_occurs hF hρ hfρ (F.param hf (by simp [hparams])) hs _
      | @param x y hxy => simp [Expr.occursIn, Expr.outermost, Expr.orBelow, Expr.outermostBelow,
          Expr.same, Expr.id, show p.id ≠ x.id from hne] at hoccurs
    · have flat {e : Expr} (h : ¬ (Expr.param p).occursIn e = true) :
          e.outermostBelow (Expr.param p).same = [] := by
        rw [Bool.not_eq_true, Expr.occursIn_eq_false_iff, Expr.outermost_eq_nil_iff] at h
        exact h.2
      exact Expr.substitute_inStep hpp hsource hne (flat hoccurs)
        (flat (hs.occursIn_eq hpρ ▸ hoccurs)) hfρ.body

/-! ## What the built-in transformers put -/

section

variable {host : Host} {operand : Expr} (hhost : host.Oblivious F n) (hearly : F.Early n)
  (hF : F.Below n) (hρ : .below n ≤ ρ)

include hhost hearly hF hρ

theorem Expr.inlineOver_inStep (hs : F.nodes source) (ho : F.nodes operand) (guarded : Bool)
    (cx : BuildContext) :
    ObjectMapping.InStep (Abreast log log') ρ (source.inlineOver host operand guarded cx)
      (source.inlineOver host operand guarded cx) Expr.Paired := by
  refine .bind (heldLambda_inStep hhost hearly ho hρ cx) fun {τ f g} hτ ⟨hfg, hf⟩ => ?_
  subst hfg
  have hρτ := Pairing.le_trans hρ hτ
  refine .bind (Lambda.inline_inStep hF hρτ hf (.node hs)) fun {υ b b'} hυ hb => ?_
  exact .ite Iff.rfl
    (fun _ => guarding_inStep (F.paired hF (Pairing.le_trans hρτ hυ) hs) hb)
    fun _ => .pure fun hφ => hb.mono hφ

theorem Expr.inlineOverItems_inStep (hs : F.nodes source) (ho : F.nodes operand) (stem : String)
    (cx : BuildContext) :
    ObjectMapping.InStep (Abreast log log') ρ (source.inlineOverItems host operand stem cx)
      (source.inlineOverItems host operand stem cx) Expr.Paired := by
  unfold inlineOverItems
  cases source.ty.itemTy? with
  | none => exact inStep_fail _
  | some element =>
    refine .bind (heldLambda_inStep hhost hearly ho hρ cx) fun {τ f g} hτ ⟨hfg, hf⟩ => ?_
    subst hfg
    refine .bind (Abreast.fresh τ) fun {υ i j} hυ hid => ?_
    have hmake : ObjectMapping.InStep (Abreast log log') υ
        (Param.make (stem ++ uniqueName i) element) (Param.make (stem ++ uniqueName j) element)
        fun φ p q => p.Paired φ q :=
      .bind (Abreast.fresh υ) fun hφ hk =>
        .pure fun hψ => ⟨hψ _ _ hk, rfl, .generated stem (hψ _ _ (hφ _ _ hid))⟩
    refine hmake.bind fun {φ p q} hφ hp => ?_
    have hρφ := Pairing.le_trans hρ (Pairing.le_trans hτ (Pairing.le_trans hυ hφ))
    refine .bind (Lambda.inline_inStep hF hρφ hf (.param hp)) fun {ψ b b'} hψ hb => ?_
    refine .bind (Lambda.ofExprs_inStep (.abreast log log') (.cons (hp.mono hψ) .nil) hb)
      fun {χ f g} hχ hfg => ?_
    exact select_inStep
      (F.paired hF (Pairing.le_trans hρφ (Pairing.le_trans hψ hχ)) hs) hfg

end

/-! ## Transformers -/

/-- What is put in the place of a call of the forest depends neither on identities nor on what is
kept, whichever instance puts it. -/
def SiteExpansion.Oblivious (expand : SiteExpansion) (host : Host) (F : Forest) (n : NodeId) :
    Prop :=
  ∀ {log log' : List String} {ρ : Pairing} {id : NodeId} {ty : Ty} {op : Operation}
    {receiver : Option Expr} {arguments : List Expr} (self self' : NodeId) (cx : BuildContext),
    .below n ≤ ρ → F.nodes (.call id ty op receiver arguments) →
    InStep (Abreast log log') ρ
      (expand self host ⟨.call id ty op receiver arguments, op, receiver, arguments⟩ cx)
      (expand self' host ⟨.call id ty op receiver arguments, op, receiver, arguments⟩ cx)
      Expr.Paired

/-- A request is answered in the same way whenever it comes, with the same lines for the log, and
by mappers of the forest alone. -/
structure Resolver.Oblivious (resolver : Resolver) (host : Host) (F : Forest) : Prop where
  steady (request : MapperRequest) : ∃ answer lines, ∀ t : Trail,
    (resolver.ask host request t).1 = answer ∧ (resolver.ask host request t).2.log = t.log ++ lines
  known {request : MapperRequest} {handle : MapperHandle} {m : Mapper} :
    resolver.Answers host request handle → handle.mapper? host = some m → F.fns m.expression

/-- Neither resolvers nor custom transformers look at identities or at what is kept. -/
structure ExpanderDesign.Oblivious (design : ExpanderDesign) (host : Host) (F : Forest)
    (n : NodeId) : Prop where
  resolver {resolver : Resolver} : resolver ∈ design.settings.resolvers → resolver.Oblivious host F
  custom {name : String} {expand : SiteExpansion} :
    design.custom name design.settings = .ok expand → expand.Oblivious host F n

/-- Tables are asked and do nothing else. -/
theorem Resolver.ofTable_oblivious {table : MapperTable} {host : Host}
    (h : ∀ handle ∈ table.entries, ∀ m, handle.mapper? host = some m → F.fns m.expression) :
    (ofTable table).Oblivious host F where
  steady request := ⟨table.get? request.input request.output, [], fun t =>
    ⟨rfl, (List.append_nil t.log).symm⟩⟩
  known := by
    rintro request handle m ⟨t, hanswer⟩ hm
    exact h handle (List.mem_of_find?_eq_some hanswer) m hm

/-- Both runs are given the same answer by a resolver. -/
theorem Resolver.Oblivious.ask_inStep {resolver : Resolver} {host : Host}
    (h : resolver.Oblivious host F) (request : MapperRequest) :
    ObjectMapping.InStep (Abreast log log') ρ
      (liftM (resolver.ask host request) : RunM (Option MapperHandle))
      (liftM (resolver.ask host request) : RunM (Option MapperHandle)) fun _ a b =>
        a = b ∧ ∀ handle, a = some handle → resolver.Answers host request handle := by
  obtain ⟨answer, lines, hask⟩ := h.steady request
  refine ⟨fun {τ t t'} _ ht => ?_⟩
  obtain ⟨written, hlog, hlog'⟩ := ht.log
  have hnext (t : Trail) := (resolver.grows host request t).next_le
  refine ⟨τ, τ.le_refl, ⟨fun hij => ?_, written ++ lines, ?_, ?_⟩, .ok ⟨?_, fun handle heq => ?_⟩⟩
  · exact ⟨Nat.lt_of_lt_of_le (ht.next hij).1 (hnext t),
      Nat.lt_of_lt_of_le (ht.next hij).2 (hnext t')⟩
  · exact (hask t).2.trans (by rw [hlog, List.append_assoc])
  · exact (hask t').2.trans (by rw [hlog', List.append_assoc])
  · exact (hask t).1.trans (hask t').1.symm
  · exact ⟨t, heq⟩

/-- Both runs are given the same answer by resolvers that are asked in order. -/
theorem Resolver.askAll_inStep {host : Host} {request : MapperRequest}
    {resolvers : List Resolver} (h : ∀ resolver ∈ resolvers, resolver.Oblivious host F) :
    ObjectMapping.InStep (Abreast log log') ρ (askAll host request resolvers)
      (askAll host request resolvers) fun _ a b => a = b ∧ ∀ handle, a = some handle →
        ∃ resolver ∈ resolvers, resolver.Answers host request handle := by
  induction resolvers generalizing ρ with
  | nil => exact .pure fun _ => ⟨rfl, nofun⟩
  | cons resolver rest ih =>
    refine .bind ((h resolver List.mem_cons_self).ask_inStep request) fun _ hab => ?_
    obtain ⟨rfl, hanswers⟩ := hab
    split
    · exact .pure fun _ => ⟨rfl, fun handle heq =>
        ⟨resolver, List.mem_cons_self, hanswers handle heq⟩⟩
    · refine (ih fun other hother => h other (List.mem_cons_of_mem _ hother)).imp fun _ hab =>
        ⟨hab.1, fun handle heq => ?_⟩
      obtain ⟨other, hmem, hask⟩ := hab.2 handle heq
      exact ⟨other, List.mem_cons_of_mem _ hmem, hask⟩

/-- An argument of a call of the forest is the same node in both runs. -/
theorem CallSite.argument_inStep {site : CallSite}
    (hsite : ∀ d ∈ site.arguments, F.nodes d) (index : Nat) :
    ObjectMapping.InStep (Abreast log log') ρ (site.argument index) (site.argument index)
      fun _ a b => a = b ∧ F.nodes a := by
  unfold argument
  cases h : site.arguments[index]? with
  | none => exact .throw fun _ => .same _
  | some e => exact .pure fun _ => ⟨rfl, hsite e (List.mem_of_getElem? h)⟩

/-- The transformer of a marker does not look at identities. -/
theorem Marker.transformer_oblivious {host : Host} (hhost : host.Oblivious F n)
    (hearly : F.Early n) (hF : F.Below n) {design : ExpanderDesign}
    (hdesign : design.Oblivious host F n) {marker : Marker} {expand : SiteExpansion}
    (h : marker.transformer? design.custom design.settings = .ok expand) :
    expand.Oblivious host F n := by
  intro log log' ρ id ty op receiver arguments self self' cx hρ he
  let site : CallSite := ⟨.call id ty op receiver arguments, op, receiver, arguments⟩
  have hsite : ∀ d ∈ site.arguments, F.nodes d := fun d hd =>
    F.part he (List.mem_append_right _ hd)
  have given (guarded : Bool) : ObjectMapping.InStep (Abreast log log') ρ
      (CallSite.inlineGiven guarded self host site cx)
      (CallSite.inlineGiven guarded self' host site cx)
      Expr.Paired := by
    refine .bind (CallSite.argument_inStep hsite 0) fun hτ ⟨hab, hs⟩ => ?_
    subst hab
    refine .bind (CallSite.argument_inStep hsite 1) fun hυ ⟨hab, ho⟩ => ?_
    subst hab
    exact Expr.inlineOver_inStep hhost hearly hF
      (Pairing.le_trans hρ (Pairing.le_trans hτ hυ)) hs ho guarded cx
  cases marker with
  | includeGiven => exact Except.ok.inj h ▸ given false
  | mapWith => exact Except.ok.inj h ▸ given _
  | mapAllWith =>
    obtain rfl := Except.ok.inj h
    refine .bind (CallSite.argument_inStep hsite 0) fun hτ ⟨hab, hs⟩ => ?_
    subst hab
    refine .bind (CallSite.argument_inStep hsite 1) fun hυ ⟨hab, ho⟩ => ?_
    subst hab
    exact Expr.inlineOverItems_inStep hhost hearly hF
      (Pairing.le_trans hρ (Pairing.le_trans hτ hυ)) hs ho _ cx
  | map =>
    obtain rfl := Except.ok.inj h
    unfold CallSite.inlineReceiver
    cases receiver with
    | none => exact .throw fun _ => .same _
    | some mapper =>
      refine .bind (CallSite.argument_inStep hsite 0) fun hτ ⟨hab, hs⟩ => ?_
      subst hab
      exact Expr.inlineOver_inStep hhost hearly hF (Pairing.le_trans hρ hτ) hs
        (F.part he (List.mem_append_left _ (by simp))) _ cx
  | includeResolved =>
    obtain rfl := Except.ok.inj h
    refine .bind (CallSite.argument_inStep hsite 0) fun {τ _ _} hτ ⟨hab, hs⟩ => ?_
    subst hab
    refine .bind (Resolver.askAll_inStep fun _ => hdesign.resolver) fun {υ a b} hυ ⟨hab, hask⟩ => ?_
    subst hab
    cases a with
    | none => exact inStep_fail _
    | some handle =>
      obtain ⟨resolver, hmem, hanswer⟩ := hask handle rfl
      refine .bind (R := fun _ _ _ => True)
        (.ite Iff.rfl (fun _ => inStep_fail _) fun _ => .pure fun _ => trivial) fun hφ _ => ?_
      cases hm : handle.mapper? host with
      | none => exact inStep_fail _
      | some m =>
        exact Lambda.inline_inStep hF
          (Pairing.le_trans hρ (Pairing.le_trans hτ (Pairing.le_trans hυ hφ)))
          ((hdesign.resolver hmem).known hanswer hm) (.node hs)
  | custom name => exact hdesign.custom h self self' cx hρ he

/-- No ready-made transformer looks at identities. -/
theorem Stock.siteTransformer_oblivious (host : Host) {n : NodeId} (hF : F.Below n) {name : String}
    {settings : Settings} {expand : SiteExpansion}
    (h : siteTransformer name settings = .ok expand) : expand.Oblivious host F n := by
  intro log log' ρ id ty op receiver arguments self self' cx hρ he
  have constant (ty : Ty) (v : Value) : ObjectMapping.InStep (Abreast log log') ρ
      (Expr.mkConstant v ty) (Expr.mkConstant v ty) Expr.Paired :=
    Expr.make_inStep fun _ hid => .constant ty v hid
  have node {e : Expr} (he : F.nodes e) : ObjectMapping.InStep (Abreast log log') ρ
      (pure e : RunM Expr) (pure e) Expr.Paired :=
    .pure fun hτ => (F.paired hF hρ he).mono hτ
  unfold siteTransformer at h
  split at h
  · exact Except.ok.inj h ▸ constant _ _
  · exact Except.ok.inj h ▸ node he
  · obtain rfl := Except.ok.inj h
    refine node ?_
    cases arguments with
    | nil => exact he
    | cons first rest => exact F.part he (List.mem_append_right _ List.mem_cons_self)
  · exact Except.ok.inj h ▸ inStep_fail _
  · exact Except.ok.inj h ▸ constant _ _
  · exact Except.ok.inj h ▸ constant _ _
  · cases h

end

end ObjectMapping
