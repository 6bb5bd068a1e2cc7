import ObjectMapping.Proofs.Blocking
import ObjectMapping.Proofs.PairedValues

/-!
# Visits side by side

Trees that two runs make in step are the same but for the identities of their nodes, which are
paired, and for generated parameter names : `Expr.Paired`. Which nodes of a tree are one and the
same node comes out alike on both sides, so two visits that judge alike keep the same nodes and
remake the same nodes (`Visitor.apply_inStep`). Substitution, inlining and the makers of projections
go in step.
-/

namespace ObjectMapping

open RunM

/-! ## Paired trees -/

/-- Parameters of the same type, with the same name or generated ones. -/
structure Param.Paired (ρ : Pairing) (p q : Param) : Prop where
  id : ρ.rel p.id q.id
  ty : p.ty = q.ty
  name : ρ.Named p.name q.name

/-- Expressions that are the same but for the identities of their nodes, which are paired, and for
generated parameter names. -/
inductive Expr.Paired (ρ : Pairing) : Expr → Expr → Prop
  | param {p q : Param} : p.Paired ρ q → Expr.Paired ρ (.param p) (.param q)
  | constant {i j : NodeId} (ty : Ty) (v : Value) : ρ.rel i j →
    Expr.Paired ρ (.constant i ty v) (.constant j ty v)
  | default {i j : NodeId} (ty : Ty) : ρ.rel i j → Expr.Paired ρ (.default i ty) (.default j ty)
  | member {i j : NodeId} {o o' : Expr} (m : Member) : ρ.rel i j → Expr.Paired ρ o o' →
    Expr.Paired ρ (.member i o m) (.member j o' m)
  | unary {i j : NodeId} (ty : Ty) (op : UnaryOp) {a a' : Expr} : ρ.rel i j →
    Expr.Paired ρ a a' → Expr.Paired ρ (.unary i ty op a) (.unary j ty op a')
  | binary {i j : NodeId} (ty : Ty) (op : BinaryOp) {a a' b b' : Expr} : ρ.rel i j →
    Expr.Paired ρ a a' → Expr.Paired ρ b b' →
    Expr.Paired ρ (.binary i ty op a b) (.binary j ty op a' b')
  | conditional {i j : NodeId} (ty : Ty) {a a' b b' c c' : Expr} : ρ.rel i j →
    Expr.Paired ρ a a' → Expr.Paired ρ b b' → Expr.Paired ρ c c' →
    Expr.Paired ρ (.conditional i ty a b c) (.conditional j ty a' b' c')
  | call {i j : NodeId} (ty : Ty) (op : Operation) {r r' : Option Expr} {as as' : List Expr} :
    ρ.rel i j → List.Forall₂ (Expr.Paired ρ) r.toList r'.toList →
    List.Forall₂ (Expr.Paired ρ) as as' → Expr.Paired ρ (.call i ty op r as) (.call j ty op r' as')
  | lambda {i j : NodeId} {f g : Lambda} : ρ.rel i j → ρ.rel f.id g.id →
    List.Forall₂ (Param.Paired ρ) f.params g.params → Expr.Paired ρ f.body g.body →
    Expr.Paired ρ (.lambda i f) (.lambda j g)
  | quote {i j : NodeId} {f g : Lambda} : ρ.rel i j → ρ.rel f.id g.id →
    List.Forall₂ (Param.Paired ρ) f.params g.params → Expr.Paired ρ f.body g.body →
    Expr.Paired ρ (.quote i f) (.quote j g)
  | construct {i j : NodeId} (ty : Ty) {as as' bs bs' : List Assignment} : ρ.rel i j →
    as.map (·.member) = as'.map (·.member) → bs.map (·.member) = bs'.map (·.member) →
    List.Forall₂ (Expr.Paired ρ) (as.map (·.value)) (as'.map (·.value)) →
    List.Forall₂ (Expr.Paired ρ) (bs.map (·.value)) (bs'.map (·.value)) →
    Expr.Paired ρ (.construct i ty as bs) (.construct j ty as' bs')
  | previous {i j : NodeId} (ty : Ty) {d d' : Option Expr} : ρ.rel i j →
    List.Forall₂ (Expr.Paired ρ) d.toList d'.toList →
    Expr.Paired ρ (.previous i ty d) (.previous j ty d')

/-- Lambdas that are the same but for the identities of their nodes and for generated names. -/
structure Lambda.Paired (ρ : Pairing) (f g : Lambda) : Prop where
  id : ρ.rel f.id g.id
  params : List.Forall₂ (Param.Paired ρ) f.params g.params
  body : f.body.Paired ρ g.body

section

variable {ρ τ : Pairing} {e e' a a' b b' : Expr} {f g : Lambda}

theorem Param.Paired.mono (hρτ : ρ ≤ τ) {p q : Param} (h : p.Paired ρ q) : p.Paired τ q :=
  ⟨hρτ _ _ h.id, h.ty, h.name.mono hρτ⟩

theorem Expr.Paired.id (h : e.Paired ρ e') : ρ.rel e.id e'.id := by
  cases h with
  | param h => exact h.id
  | _ => assumption

/-- Paired expressions have the same type. -/
theorem Expr.Paired.ty_eq (h : e.Paired ρ e') : e.ty = e'.ty := by
  have params {ps qs : List Param} (h : List.Forall₂ (Param.Paired ρ) ps qs) :
      ps.map (·.ty) = qs.map (·.ty) := map_eq_map_of_forall₂ (h.imp fun _ _ h => h.ty)
  induction e using Expr.byParts generalizing e' with
  | param p => cases h with | param h => exact h.ty
  | lambda i f ih =>
    cases h with | lambda _ _ hparams hbody =>
    simp only [ty_lambda, Lambda.functionTy, Lambda.paramTys, Lambda.returnTy, params hparams,
      ih hbody]
  | quote i f ih =>
    cases h with | quote _ _ hparams hbody =>
    simp only [ty_quote, Lambda.quotedTy, Lambda.paramTys, Lambda.returnTy, params hparams,
      ih hbody]
  | _ =>
    cases h
    rfl

theorem Expr.Paired.mono (hρτ : ρ ≤ τ) (h : e.Paired ρ e') : e.Paired τ e' := by
  have list {es es' : List Expr} (ih : ∀ e ∈ es, ∀ {e'}, e.Paired ρ e' → e.Paired τ e')
      (h : List.Forall₂ (Expr.Paired ρ) es es') : List.Forall₂ (Expr.Paired τ) es es' :=
    forall₂_imp_of_mem h fun e he _ h => ih e he h
  have params {ps qs : List Param} (h : List.Forall₂ (Param.Paired ρ) ps qs) :
      List.Forall₂ (Param.Paired τ) ps qs := h.imp fun _ _ h => h.mono hρτ
  induction e using Expr.byParts generalizing e' with
  | param p => cases h with | param h => exact .param (h.mono hρτ)
  | constant i ty v => cases h with | constant _ _ h => exact .constant _ _ (hρτ _ _ h)
  | default i ty => cases h with | default _ h => exact .default _ (hρτ _ _ h)
  | member i o m ih => cases h with | member _ h ho => exact .member _ (hρτ _ _ h) (ih ho)
  | unary i ty op a ih => cases h with | unary _ _ h ha => exact .unary _ _ (hρτ _ _ h) (ih ha)
  | binary i ty op a b iha ihb =>
    cases h with | binary _ _ h ha hb => exact .binary _ _ (hρτ _ _ h) (iha ha) (ihb hb)
  | conditional i ty a b c iha ihb ihc =>
    cases h with | conditional _ h ha hb hc =>
    exact .conditional _ (hρτ _ _ h) (iha ha) (ihb hb) (ihc hc)
  | call i ty op r as ihr iha =>
    cases h with | call _ _ h hr ha =>
    exact .call _ _ (hρτ _ _ h) (list (fun d hd => ihr d (by simpa using hd)) hr) (list iha ha)
  | lambda i f ih =>
    cases h with | lambda h hid hparams hbody =>
    exact .lambda (hρτ _ _ h) (hρτ _ _ hid) (params hparams) (ih hbody)
  | quote i f ih =>
    cases h with | quote h hid hparams hbody =>
    exact .quote (hρτ _ _ h) (hρτ _ _ hid) (params hparams) (ih hbody)
  | construct i ty as bs iha ihb =>
    cases h with | construct _ h hma hmb ha hb =>
    exact .construct _ (hρτ _ _ h) hma hmb (list (List.forall_mem_map.2 iha) ha)
      (list (List.forall_mem_map.2 ihb) hb)
  | previous i ty d ih =>
    cases h with | previous _ h hd =>
    exact .previous _ (hρτ _ _ h) (list (fun d hd => ih d (by simpa using hd)) hd)

theorem Expr.Paired.mono_list (hρτ : ρ ≤ τ) {es es' : List Expr}
    (h : List.Forall₂ (Expr.Paired ρ) es es') : List.Forall₂ (Expr.Paired τ) es es' :=
  h.imp fun _ _ => mono hρτ

theorem Lambda.Paired.mono (hρτ : ρ ≤ τ) (h : f.Paired ρ g) : f.Paired τ g :=
  ⟨hρτ _ _ h.id, h.params.imp fun _ _ h => h.mono hρτ, h.body.mono hρτ⟩

/-- Assignments are known by their members and values. -/
theorem Assignment.list_ext {as bs : List Assignment}
    (hm : as.map (·.member) = bs.map (·.member)) (hv : as.map (·.value) = bs.map (·.value)) :
    as = bs := by
  induction as generalizing bs with
  | nil => simpa using hm.symm
  | cons a as ih =>
    obtain _ | ⟨b, bs⟩ := bs
    · simp at hm
    obtain ⟨m, d⟩ := a
    obtain ⟨m', d'⟩ := b
    simp only [List.map_cons, List.cons.injEq] at hm hv
    obtain ⟨rfl, hm⟩ := hm
    obtain ⟨rfl, hv⟩ := hv
    rw [ih hm hv]

section

variable (hρ : ∀ i, ρ.rel i i)

include hρ

/-- Where all identities are paired with themselves, they are paired with nothing else. -/
theorem Pairing.eq_of_rel {i j : NodeId} (h : ρ.rel i j) : i = j :=
  ρ.right_eq (hρ i) h

theorem Pairing.Named.eq {name name' : String} (h : ρ.Named name name') : name = name' := by
  cases h with
  | same => rfl
  | generated stem h => rw [eq_of_rel hρ h]

theorem Fault.Paired.eq {r r' : Fault} (h : r.Paired ρ r') : r = r' := by
  cases h with
  | same => rfl
  | parameterLost h | parameterTwice h | inlinedType h => rw [h.eq hρ]

theorem Param.Paired.eq {p q : Param} (h : p.Paired ρ q) : p = q := by
  obtain ⟨i, name, ty⟩ := p
  obtain ⟨j, name', ty'⟩ := q
  obtain ⟨hid, hty, hname⟩ := h
  rw [Param.mk.injEq]
  exact ⟨Pairing.eq_of_rel hρ hid, hname.eq hρ, hty⟩

theorem Lambda.Paired.eq_of_body (h : f.Paired ρ g) (hbody : f.body = g.body) : f = g := by
  obtain ⟨i, ps, b⟩ := f
  obtain ⟨j, qs, d⟩ := g
  rw [Lambda.mk.injEq]
  refine ⟨Pairing.eq_of_rel hρ h.id, ?_, hbody⟩
  exact (congrFun₂ List.forall₂_eq_eq_eq _ _).mp (h.params.imp fun _ _ h => h.eq hρ)

/-- Where all identities are paired with themselves, so are expressions with themselves alone. -/
theorem Expr.Paired.eq (h : e.Paired ρ e') : e = e' := by
  have list {es es' : List Expr} (ih : ∀ e ∈ es, ∀ {e'}, e.Paired ρ e' → e = e')
      (h : List.Forall₂ (Expr.Paired ρ) es es') : es = es' :=
    (congrFun₂ List.forall₂_eq_eq_eq _ _).mp (forall₂_imp_of_mem h fun e he _ h => ih e he h)
  have option {d d' : Option Expr} (h : d.toList = d'.toList) : d = d' := by
    cases d <;> cases d' <;> simp_all
  induction e using Expr.byParts generalizing e' with
  | param p => cases h with | param h => rw [h.eq hρ]
  | constant i ty v => cases h with | constant _ _ h => rw [Pairing.eq_of_rel hρ h]
  | default i ty => cases h with | default _ h => rw [Pairing.eq_of_rel hρ h]
  | member i o m ih => cases h with | member _ h ho => rw [Pairing.eq_of_rel hρ h, ih ho]
  | unary i ty op a ih => cases h with | unary _ _ h ha => rw [Pairing.eq_of_rel hρ h, ih ha]
  | binary i ty op a b iha ihb =>
    cases h with | binary _ _ h ha hb => rw [Pairing.eq_of_rel hρ h, iha ha, ihb hb]
  | conditional i ty a b c iha ihb ihc =>
    cases h with | conditional _ h ha hb hc =>
    rw [Pairing.eq_of_rel hρ h, iha ha, ihb hb, ihc hc]
  | call i ty op r as ihr iha =>
    cases h with | call _ _ h hr ha =>
    rw [Pairing.eq_of_rel hρ h, list iha ha,
      option (list (fun d hd => ihr d (by simpa using hd)) hr)]
  | lambda i f ih =>
    cases h with | lambda h hid hparams hbody =>
    rw [Pairing.eq_of_rel hρ h, Lambda.Paired.eq_of_body hρ ⟨hid, hparams, hbody⟩ (ih hbody)]
  | quote i f ih =>
    cases h with | quote h hid hparams hbody =>
    rw [Pairing.eq_of_rel hρ h, Lambda.Paired.eq_of_body hρ ⟨hid, hparams, hbody⟩ (ih hbody)]
  | construct i ty as bs iha ihb =>
    cases h with | construct _ h hma hmb ha hb =>
    rw [Pairing.eq_of_rel hρ h, Assignment.list_ext hma (list (List.forall_mem_map.2 iha) ha),
      Assignment.list_ext hmb (list (List.forall_mem_map.2 ihb) hb)]
  | previous i ty d ih =>
    cases h with | previous _ h hd =>
    rw [Pairing.eq_of_rel hρ h, option (list (fun c hc => ih c (by simpa using hc)) hd)]

theorem Lambda.Paired.eq (h : f.Paired ρ g) : f = g :=
  h.eq_of_body hρ (h.body.eq hρ)

end

/-- The identities of a node and of the lambda that it holds are paired with themselves. -/
structure Expr.Common (ρ : Pairing) (e : Expr) : Prop where
  node : ρ.rel e.id e.id
  fn {f : Lambda} : e.fn? = some f → ρ.rel f.id f.id

/-- A tree all of whose identities are paired with themselves is paired with itself. -/
theorem Expr.paired_self (h : e.All (Expr.Common ρ)) : e.Paired ρ e := by
  have params {f : Lambda} (hf : f.All (Expr.Common ρ)) :
      List.Forall₂ (Param.Paired ρ) f.params f.params :=
    List.forall₂_same.2 fun p hp => ⟨(hf.param hp).head.node, rfl, .same _⟩
  have list {es : List Expr} (h : ∀ e ∈ es, e.Paired ρ e) : List.Forall₂ (Expr.Paired ρ) es es :=
    List.forall₂_same.2 h
  have rel := h.head.node
  induction e using Expr.byParts with
  | param p => exact .param ⟨rel, rfl, .same _⟩
  | constant i ty v => exact .constant _ _ rel
  | default i ty => exact .default _ rel
  | member i o m ih =>
    have ho : o.All (Expr.Common ρ) := h.part (by simp [Expr.parts])
    exact .member _ rel (ih ho ho.head.node)
  | unary i ty op a ih =>
    have ha : a.All (Expr.Common ρ) := h.part (by simp [Expr.parts])
    exact .unary _ _ rel (ih ha ha.head.node)
  | binary i ty op a b iha ihb =>
    have ha : a.All (Expr.Common ρ) := h.part (by simp [Expr.parts])
    have hb : b.All (Expr.Common ρ) := h.part (by simp [Expr.parts])
    exact .binary _ _ rel (iha ha ha.head.node) (ihb hb hb.head.node)
  | conditional i ty a b c iha ihb ihc =>
    have ha : a.All (Expr.Common ρ) := h.part (by simp [Expr.parts])
    have hb : b.All (Expr.Common ρ) := h.part (by simp [Expr.parts])
    have hc : c.All (Expr.Common ρ) := h.part (by simp [Expr.parts])
    exact .conditional _ rel (iha ha ha.head.node) (ihb hb hb.head.node) (ihc hc hc.head.node)
  | call i ty op r as ihr iha =>
    refine .call _ _ rel (list fun d hd => ?_) (list fun d hd => ?_)
    · have hd' := h.part (List.mem_append_left _ hd)
      exact ihr d (by simpa using hd) hd' hd'.head.node
    · have hd' := h.part (List.mem_append_right _ hd)
      exact iha d hd hd' hd'.head.node
  | lambda i f ih =>
    have hf := h.fn rfl
    exact .lambda rel (h.head.fn rfl) (params hf) (ih hf.body hf.body.head.node)
  | quote i f ih =>
    have hf := h.fn rfl
    exact .quote rel (h.head.fn rfl) (params hf) (ih hf.body hf.body.head.node)
  | construct i ty as bs iha ihb =>
    refine .construct _ rel rfl rfl (list ?_) (list ?_)
    · refine List.forall_mem_map.2 fun a ha => ?_
      have ha' := h.part (List.mem_append_left _ (List.mem_map_of_mem ha))
      exact iha a ha ha' ha'.head.node
    · refine List.forall_mem_map.2 fun b hb => ?_
      have hb' := h.part (List.mem_append_right _ (List.mem_map_of_mem hb))
      exact ihb b hb hb' hb'.head.node
  | previous i ty d ih =>
    refine .previous _ rel (list fun c hc => ?_)
    have hc' := h.part hc
    exact ih c (by simpa using hc) hc' hc'.head.node

/-- A tree that was made before is paired with itself. -/
theorem Forest.paired {F : Forest} {n : NodeId} (hF : F.Below n) (hρ : .below n ≤ ρ)
    (he : F.nodes e) : e.Paired ρ e := by
  refine Expr.paired_self ((F.all he).imp fun d hd => ⟨?_, fun hf => ?_⟩)
  · exact Pairing.rel_of_below hρ (hF.node hd)
  · exact Pairing.rel_of_below hρ (hF.fn (F.fn hd hf))

theorem Forest.paired_fn {F : Forest} {n : NodeId} (hF : F.Below n) (hρ : .below n ≤ ρ)
    (hf : F.fns f) : f.Paired ρ f :=
  ⟨Pairing.rel_of_below hρ (hF.fn hf),
    List.forall₂_same.2 fun _ hp =>
      ⟨Pairing.rel_of_below hρ (hF.node (F.param hf hp)), rfl, .same _⟩,
    paired hF hρ (F.body hf)⟩

/-! ## The same nodes -/

theorem Expr.Paired.same_eq (ha : a.Paired ρ a') (hb : b.Paired ρ b') : a.same b = a'.same b' :=
  ρ.beq_eq ha.id hb.id

theorem Lambda.Paired.same_eq {f' g' : Lambda} (hf : f.Paired ρ f') (hg : g.Paired ρ g') :
    f.same g = f'.same g' :=
  ρ.beq_eq hf.id hg.id

theorem Expr.Paired.sameAll_eq {as as' bs bs' : List Expr}
    (ha : List.Forall₂ (Expr.Paired ρ) as as') (hb : List.Forall₂ (Expr.Paired ρ) bs bs') :
    sameAll as bs = sameAll as' bs' := by
  induction ha generalizing bs bs' with
  | nil => simp [sameAll]
  | cons h _ ih =>
    cases hb with
    | nil => simp [sameAll]
    | cons h' hb =>
      have ih := ih hb
      simp only [sameAll, List.zip_cons_cons, List.all_cons, h.same_eq h'] at ih ⊢
      rw [ih]

/-! ## Parts -/

theorem Expr.Paired.parts (h : e.Paired ρ e') : List.Forall₂ (Expr.Paired ρ) e.parts e'.parts := by
  cases h with
  | member _ _ ho => exact .cons ho .nil
  | unary _ _ _ ha => exact .cons ha .nil
  | binary _ _ _ ha hb => exact .cons ha (.cons hb .nil)
  | conditional _ _ ha hb hc => exact .cons ha (.cons hb (.cons hc .nil))
  | call _ _ _ hr ha => exact List.rel_append hr ha
  | construct _ _ _ _ ha hb => exact List.rel_append ha hb
  | previous _ _ hd => exact hd
  | _ => exact .nil

theorem Expr.Paired.fn? (h : e.Paired ρ e') : Option.Rel (Lambda.Paired ρ) e.fn? e'.fn? := by
  cases h with
  | lambda _ hid hparams hbody => exact .some ⟨hid, hparams, hbody⟩
  | quote _ hid hparams hbody => exact .some ⟨hid, hparams, hbody⟩
  | _ => exact .none

theorem Expr.Paired.fn (h : e.Paired ρ e') (hf : e.fn? = some f) (hg : e'.fn? = some g) :
    f.Paired ρ g := by
  have hfn := h.fn?
  rw [hf, hg] at hfn
  cases hfn with
  | some hfn => exact hfn

/-- What holds of the parts of paired nodes, place by place, holds of their stand-ins. -/
theorem Expr.Paired.standIn? {R : Expr → Expr → Prop} (h : e.Paired ρ e')
    (hparts : List.Forall₂ R e.parts e'.parts) : Option.Rel R e.standIn? e'.standIn? := by
  cases h with
  | conditional =>
    obtain ⟨-, -, hc⟩ : _ ∧ _ ∧ R _ _ := by simpa [Expr.parts] using hparts
    exact .some hc
  | @previous _ _ _ d d' =>
    change List.Forall₂ R d.toList d'.toList at hparts
    cases d <;> cases d' <;> cases hparts
    · exact .none
    · exact .some ‹_›
  | _ => exact .none

/-- Paired nodes, made anew over paired parts, are paired. -/
theorem Expr.Paired.madeOver {i j : NodeId} {ds ds' : List Expr} (h : e.Paired ρ e')
    (ha : e.MadeOver i ds a) (ha' : e'.MadeOver j ds' a') (hij : ρ.rel i j)
    (hds : List.Forall₂ (Expr.Paired ρ) ds ds') : a.Paired ρ a' := by
  cases ha with
  | param | constant | default =>
    cases h
    cases ha'
    constructor
    assumption
  | member | unary =>
    cases h
    cases ha'
    constructor
    · exact hij
    · exact (List.forall₂_cons.1 hds).1
  | binary =>
    cases h
    cases ha'
    obtain ⟨hx, hy⟩ : _ ∧ _ := by simpa using hds
    exact .binary _ _ hij hx hy
  | conditional =>
    cases h
    cases ha'
    obtain ⟨hx, hy, hz⟩ : _ ∧ _ ∧ _ := by simpa using hds
    exact .conditional _ hij hx hy hz
  | call hlength =>
    cases h with | call _ _ _ hr =>
    cases ha' with | call hlength' =>
    have hsplit := (forall₂_append_iff (hlength.trans (hr.length_eq.trans hlength'.symm))).1 hds
    exact .call _ _ hij hsplit.1 hsplit.2
  | construct hm hm' =>
    cases h with | construct _ _ hma hmb =>
    cases ha' with | construct hn hn' =>
    have hmembers := hm.trans (hma.trans hn.symm)
    have hlength := congrArg List.length hmembers
    rw [List.length_map, List.length_map] at hlength
    have hsplit := (forall₂_append_iff (by simpa using hlength)).1 hds
    exact .construct _ hij hmembers (hm'.trans (hmb.trans hn'.symm)) hsplit.1 hsplit.2
  | previous =>
    cases h
    cases ha'
    exact .previous _ hij hds

/-- Paired nodes, made anew over paired lambdas, are paired. -/
theorem Expr.Paired.withFn {i j : NodeId} {f' g' : Lambda} (h : e.Paired ρ e')
    (hf : e.fn? = some f) (hij : ρ.rel i j) (hfn : f'.Paired ρ g') :
    (e.withFn i f').Paired ρ (e'.withFn j g') := by
  cases h with
  | lambda => exact .lambda hij hfn.id hfn.params hfn.body
  | quote => exact .quote hij hfn.id hfn.params hfn.body
  | _ => cases hf

/-- What holds of two paired trees holds of their parts, place by place. -/
structure Expr.Inherits (D : Expr → Expr → Prop) : Prop where
  parts {ρ : Pairing} {e e' : Expr} : D e e' → e.Paired ρ e' → List.Forall₂ D e.parts e'.parts
  fn {ρ : Pairing} {e e' : Expr} {f g : Lambda} : D e e' → e.Paired ρ e' → e.fn? = some f →
    e'.fn? = some g → D f.body g.body ∧
      List.Forall₂ (fun p q => D (.param p) (.param q)) f.params g.params

theorem Expr.inherits_true : Expr.Inherits fun _ _ => True where
  parts _ h := h.parts.imp fun _ _ _ => trivial
  fn _ h hf hg := ⟨trivial, (h.fn hf hg).params.imp fun _ _ _ => trivial⟩

end

/-! ## Visits -/

/-- Verdicts that put paired expressions in, or are the same. -/
inductive Verdict.Paired (ρ : Pairing) : Verdict → Verdict → Prop
  | enter : Verdict.Paired ρ .enter .enter
  | put {e e' : Expr} : e.Paired ρ e' → Verdict.Paired ρ (.put e) (.put e')
  | standIn : Verdict.Paired ρ .standIn .standIn

section

variable {σ σ' : Type} [MonadLiftT RunM (Steps σ)] [MonadLiftT RunM (Steps σ')]

/-- Two visitors judge paired nodes that `D` relates in step. -/
structure Visitor.InStep (C : Coupling σ σ') (D : Expr → Expr → Prop) (ρ : Pairing)
    (v : Visitor (Steps σ)) (w : Visitor (Steps σ')) : Prop where
  judge {τ : Pairing} {e e' : Expr} : ρ ≤ τ → D e e' → e.Paired τ e' →
    ObjectMapping.InStep C.states τ (v.judge e) (w.judge e') Verdict.Paired

/-- Two runs make paired expressions in step, from the pairing `ρ` on. -/
abbrev Expr.MadeInStep (C : Coupling σ σ') (ρ : Pairing) (x : Steps σ Expr) (y : Steps σ' Expr) :
    Prop :=
  ObjectMapping.InStep C.states ρ x y Expr.Paired

variable {C : Coupling σ σ'} {D : Expr → Expr → Prop} {ρ τ : Pairing} {v : Visitor (Steps σ)}
  {w : Visitor (Steps σ')} {e e' : Expr}

theorem Visitor.InStep.mono (hv : Visitor.InStep C D ρ v w) (hρτ : ρ ≤ τ) :
    Visitor.InStep C D τ v w :=
  ⟨fun hτ => hv.judge (Pairing.le_trans hρτ hτ)⟩

/-- The visits to paired nodes go in step if those to their parts and to their stand-ins do. -/
theorem Visitor.InStep.visit (hv : Visitor.InStep C D ρ v w) (hD : D e e') (h : e.Paired ρ e')
    {x x' : Unit → Steps σ Expr} {y y' : Unit → Steps σ' Expr}
    (hparts : Expr.MadeInStep C ρ (x ()) (y ()))
    (hstandIn : Expr.MadeInStep C ρ (x' ()) (y' ())) :
    Expr.MadeInStep C ρ (v.visit e x x') (w.visit e' y y') := by
  refine .bind (hv.judge ρ.le_refl hD h) fun hτ hverdict => ?_
  cases hverdict with
  | enter => exact hparts.mono hτ
  | put hput => exact .pure fun hυ => hput.mono hυ
  | standIn => exact hstandIn.mono hτ

/-- A node is kept on both sides or remade on both. -/
theorem Expr.keepOrRemake_inStep {c c' : Bool} {make make' : NodeId → Expr} (hc : c = c')
    (he : e.Paired ρ e')
    (hmake : ∀ {τ i j}, ρ ≤ τ → τ.rel i j → (make i).Paired τ (make' j)) :
    Expr.MadeInStep C ρ (Expr.keepOrRemake c e make) (Expr.keepOrRemake c' e' make') := by
  subst hc
  refine .ite Iff.rfl (fun _ => .pure fun hτ => he.mono hτ) fun _ => ?_
  refine .bind (C.lift (C.fresh ρ)) fun hτ hid => ?_
  exact .pure fun hυ => hmake (Pairing.le_trans hτ hυ) (hυ _ _ hid)

theorem Visitor.walkList_inStep {es es' : List Expr}
    (h : List.Forall₂ (fun d d' => Expr.MadeInStep C ρ (v.apply d) (w.apply d')) es es') :
    ObjectMapping.InStep C.states ρ (Expr.walkList v es) (Expr.walkList w es')
      fun τ ds ds' => ds.length = es.length ∧ List.Forall₂ (Expr.Paired τ) ds ds' := by
  induction h with
  | nil => exact .pure fun _ => ⟨rfl, .nil⟩
  | cons h _ ih =>
    rw [Expr.walkList_cons, Expr.walkList_cons]
    refine .bind h fun hτ hd => .bind (ih.mono hτ) fun hυ hds => ?_
    refine .pure fun hφ => ⟨congrArg Nat.succ hds.1, ?_⟩
    exact .cons (hd.mono (Pairing.le_trans hυ hφ)) (Expr.Paired.mono_list hφ hds.2)

/-! ## Lambdas -/

/-- What has become of parameters is made sure to be parameters, on both sides. -/
theorem Param.requireParams_inStep {T : Pairing → Trail → Trail → Prop} {ps qs : List Param}
    (h : List.Forall₂ (Param.Paired ρ) ps qs) {es es' : List Expr} (hlength : ps.length = es.length)
    (hes : List.Forall₂ (Expr.Paired ρ) es es') :
    ObjectMapping.InStep T ρ (requireParams ps es) (requireParams qs es') fun _ _ _ =>
      ∃ xs ys, es = xs.map .param ∧ es' = ys.map .param ∧ List.Forall₂ (Param.Paired ρ) xs ys := by
  induction h generalizing es es' with
  | nil =>
    obtain rfl : es = [] := List.length_eq_zero_iff.1 hlength.symm
    cases hes
    exact .pure fun _ => ⟨[], [], rfl, rfl, .nil⟩
  | cons h _ ih =>
    cases hes with
    | nil => cases hlength
    | @cons e e' es es' he hes =>
      simp only [requireParams]
      cases he with
      | param hx =>
        refine (ih (by simpa using hlength) hes).imp fun _ h => ?_
        obtain ⟨xs, ys, rfl, rfl, hxs⟩ := h
        exact ⟨_ :: xs, _ :: ys, rfl, rfl, .cons hx hxs⟩
      | _ => exact .stop fun hτ => .parameterLost (h.name.mono hτ)

theorem Lambda.paramsOf_inStep {T : Pairing → Trail → Trail → Prop} {seen seen' ps qs : List Param}
    (hseen : List.Forall₂ (Param.Paired ρ) seen seen') (h : List.Forall₂ (Param.Paired ρ) ps qs) :
    ObjectMapping.InStep T ρ (paramsOf seen (ps.map .param)) (paramsOf seen' (qs.map .param))
      fun _ xs ys => List.Forall₂ (Param.Paired ρ) xs ys := by
  induction h generalizing seen seen' with
  | nil => exact .pure fun _ => .nil
  | @cons p q _ _ h _ ih =>
    have hany : (seen.any (·.id == p.id)) = seen'.any (·.id == q.id) := by
      clear ih
      induction hseen with
      | nil => rfl
      | cons h' _ ih => rw [List.any_cons, List.any_cons, ih, ρ.beq_eq h'.id h.id]
    have rest := (ih (.cons h hseen)).bind (P := fun _ xs ys => List.Forall₂ (Param.Paired ρ) xs ys)
      fun _ hxs => .pure fun _ => .cons h hxs
    simp only [List.map_cons, paramsOf, Expr.param?, hany]
    exact .ite Iff.rfl (fun _ => .stop fun hτ => .parameterTwice (h.name.mono hτ)) fun _ => rest

/-- Lambdas over paired parameters and bodies are made in step. -/
theorem Lambda.ofExprs_inStep (C : Coupling σ σ') {ps qs : List Param}
    (h : List.Forall₂ (Param.Paired ρ) ps qs) (he : e.Paired ρ e') :
    ObjectMapping.InStep C.trails ρ (ofExprs (ps.map .param) e) (ofExprs (qs.map .param) e')
      Lambda.Paired := by
  refine .bind (paramsOf_inStep .nil h) fun {τ _ _} hτ hxs => ?_
  refine .bind (C.fresh τ) fun hυ hid => .pure fun hφ => ⟨hφ _ _ hid, ?_, ?_⟩
  · exact hxs.imp fun _ _ h => h.mono (Pairing.le_trans hτ (Pairing.le_trans hυ hφ))
  · exact he.mono (Pairing.le_trans hτ (Pairing.le_trans hυ hφ))

/-- The visits to paired lambdas go in step if those to their bodies do. -/
theorem Visitor.walkFn_inStep_of_body (hv : Visitor.InStep C D ρ v w) {f g : Lambda}
    (hD : List.Forall₂ (fun p q => D (.param p) (.param q)) f.params g.params)
    (h : f.Paired ρ g)
    (hbody : ∀ {τ}, ρ ≤ τ → Expr.MadeInStep C τ (v.apply f.body) (w.apply g.body)) :
    ObjectMapping.InStep C.states ρ (f.walk v) (g.walk w) Lambda.Paired := by
  have nodes {τ : Pairing} {ps qs : List Param} (h : List.Forall₂ (Param.Paired τ) ps qs) :
      List.Forall₂ (Expr.Paired τ) (ps.map .param) (qs.map .param) := by
    rw [List.forall₂_map_left_iff, List.forall₂_map_right_iff]
    exact h.imp fun _ _ => .param
  have visits : List.Forall₂ (fun d d' => Expr.MadeInStep C ρ (v.apply d) (w.apply d'))
      (f.params.map .param) (g.params.map .param) := by
    rw [List.forall₂_map_left_iff, List.forall₂_map_right_iff]
    refine (forall₂_and hD h.params).imp fun p q ⟨hpq, h⟩ => ?_
    have keep : Expr.MadeInStep C ρ (pure (.param p)) (pure (.param q)) :=
      .pure fun hτ => .param (h.mono hτ)
    exact hv.visit hpq (.param h) keep keep
  rw [Lambda.walk_eq, Lambda.walk_eq, Lambda.paramExprs, Lambda.paramExprs]
  refine .bind (walkList_inStep visits) fun {τ es es'} hτ hes => ?_
  have hlength : f.params.length = es.length := by simpa using hes.1.symm
  refine .bind (C.lift (Param.requireParams_inStep (h.mono hτ).params hlength hes.2))
    fun {υ _ _} hυ hps => ?_
  obtain ⟨xs, ys, rfl, rfl, hxs⟩ := hps
  have hρυ := Pairing.le_trans hτ hυ
  refine .bind (hbody hρυ) fun {φ b' d'} hφ hb' => ?_
  have hρφ := Pairing.le_trans hρυ hφ
  replace hxs := hxs.imp fun _ _ h => h.mono (Pairing.le_trans hυ hφ)
  rw [Expr.Paired.sameAll_eq (nodes hxs) (nodes (h.mono hρφ).params),
    hb'.same_eq (h.mono hρφ).body]
  refine .ite Iff.rfl (fun _ => .pure fun hψ => ?_) fun _ =>
    C.lift (Lambda.ofExprs_inStep C hxs hb')
  exact h.mono (Pairing.le_trans hρφ hψ)

/-! ## Trees -/

/-- The visits to the parts of paired nodes go in step, and so do those to their stand-ins. -/
theorem Visitor.walk_inStep (hD : Expr.Inherits D) (hv : Visitor.InStep C D ρ v w)
    (he : D e e') (h : e.Paired ρ e') :
    Expr.MadeInStep C ρ (e.walk v) (e'.walk w) ∧
      Expr.MadeInStep C ρ (e.walkStandIn v) (e'.walkStandIn w) := by
  induction e using Expr.byPart generalizing e' ρ with
  | h e ihpart ihfn =>
    -- what is visited later is paired by then with more than it is now
    have part {τ : Pairing} (hτ : ρ ≤ τ) : List.Forall₂
        (fun d d' => Expr.MadeInStep C τ (v.apply d) (w.apply d')) e.parts e'.parts := by
      refine forall₂_imp_of_mem (forall₂_and (hD.parts he h) h.parts) fun d hd d' ⟨hdd', hp⟩ => ?_
      have ih := ihpart d hd (hv.mono hτ) hdd' (hp.mono hτ)
      exact (hv.mono hτ).visit hdd' (hp.mono hτ) ih.1 ih.2
    refine ⟨?_, ?_⟩
    · match hf : e.fn?, hg : e'.fn?, h.fn? with
      | none, none, .none =>
        rw [Expr.walk_of_parts hf, Expr.walk_of_parts hg]
        refine .bind (walkList_inStep (part ρ.le_refl)) fun hτ hds => ?_
        have hlength := hds.2.length_eq.symm.trans (hds.1.trans h.parts.length_eq)
        have hsame := Expr.Paired.sameAll_eq hds.2 (Expr.Paired.mono_list hτ h.parts)
        refine Expr.keepOrRemake_inStep hsame (h.mono hτ) fun {υ i j} hυ hij => ?_
        exact (h.mono (Pairing.le_trans hτ hυ)).madeOver (Expr.madeOver_withParts i hf hds.1)
          (Expr.madeOver_withParts j hg hlength) hij (Expr.Paired.mono_list hυ hds.2)
      | some f, some g, .some hfg =>
        obtain ⟨hDb, hDp⟩ := hD.fn he h hf hg
        rw [Expr.walk_of_fn hf, Expr.walk_of_fn hg]
        refine .bind (walkFn_inStep_of_body hv hDp hfg fun hτ => ?_) fun hτ hx => ?_
        · have ih := ihfn f hf (hv.mono hτ) hDb (hfg.body.mono hτ)
          exact (hv.mono hτ).visit hDb (hfg.body.mono hτ) ih.1 ih.2
        · exact Expr.keepOrRemake_inStep (hx.same_eq (hfg.mono hτ)) (h.mono hτ) fun hυ hij =>
            (h.mono (Pairing.le_trans hτ hυ)).withFn hf hij (hx.mono hυ)
    · match hd : e.standIn?, hd' : e'.standIn?, h.standIn? (part ρ.le_refl) with
      | none, none, .none =>
        rw [Expr.walkStandIn_of_none hd, Expr.walkStandIn_of_none hd']
        exact .pure fun hτ => h.mono hτ
      | some d, some d', .some hvisit =>
        rw [Expr.walkStandIn_of_some hd, Expr.walkStandIn_of_some hd']
        exact hvisit

/-- Visits that judge in step make paired expressions of paired expressions. -/
theorem Visitor.apply_inStep (hD : Expr.Inherits D) (hv : Visitor.InStep C D ρ v w)
    (he : D e e') (h : e.Paired ρ e') : Expr.MadeInStep C ρ (v.apply e) (w.apply e') :=
  hv.visit he h (walk_inStep hD hv he h).1 (walk_inStep hD hv he h).2

/-- Visits that judge in step make paired lambdas of paired lambdas. -/
theorem Visitor.walkFn_inStep (hD : Expr.Inherits D) (hv : Visitor.InStep C D ρ v w) {f g : Lambda}
    (hbody : D f.body g.body)
    (hparams : List.Forall₂ (fun p q => D (.param p) (.param q)) f.params g.params)
    (h : f.Paired ρ g) : ObjectMapping.InStep C.states ρ (f.walk v) (g.walk w) Lambda.Paired :=
  walkFn_inStep_of_body hv hparams h fun hτ =>
    apply_inStep hD (hv.mono hτ) hbody (h.body.mono hτ)

end

/-! ## Substitution -/

section

variable {log log' : List String} {ρ : Pairing} {p p' : Param} {source source' e e' : Expr}
  {f g : Lambda}

section

variable (hp : p.Paired ρ p') (hs : source.Paired ρ source') (hne : p.id ≠ source.id)
  (hflat : source.outermostBelow (Expr.param p).same = [])
  (hflat' : source'.outermostBelow (Expr.param p').same = [])

include hp hs hflat hflat'

theorem Visitor.replacing_inStep : Visitor.InStep (.abreast log log') (fun _ _ => True) ρ
    (.replacing [⟨.param p, source⟩] 1) (.replacing [⟨.param p', source'⟩] 1) := by
  refine ⟨fun {τ e e'} hτ _ he => ?_⟩
  have hsame : (Expr.param p).same e = (Expr.param p').same e' :=
    (Expr.Paired.param (hp.mono hτ)).same_eq he
  have enter {p : Param} {source e : Expr} (h : (Expr.param p).same e = false) {I : Trail → Prop} :
      Yields I ((Visitor.replacing [⟨.param p, source⟩] 1).judge e) .enter := by
    intro t ht
    rw [judge_replacing_of_not_old (by simpa [Replacement.isOld] using h)]
    exact ⟨ht, rfl⟩
  cases h : (Expr.param p).same e with
  | true =>
    exact .of_yields (judge_replacing_of_same hflat h) (judge_replacing_of_same hflat' (hsame ▸ h))
      fun hυ => .put (hs.mono (Pairing.le_trans hτ hυ))
  | false => exact .of_yields (enter h) (enter (hsame ▸ h)) fun _ => .enter

include hne

theorem Replacement.check_inStep :
    ObjectMapping.InStep (Abreast log log') ρ (check [⟨.param p, source⟩])
      (check [⟨.param p', source'⟩]) fun _ _ _ => True := by
  have hne' : p'.id ≠ source'.id := fun h => hne ((ρ.eq_iff hp.id hs.id).2 h)
  have check {p : Param} {source : Expr} (hne : p.id ≠ source.id)
      (hflat : source.outermostBelow (Expr.param p).same = []) {I : Trail → Prop} :
      Yields I (Replacement.check [⟨.param p, source⟩]) () :=
    check_yields (by simpa [Expr.same, Expr.id] using hne) (flat_one hflat)
  exact .of_yields (check hne hflat) (check hne' hflat') fun _ => trivial

/-- The replacement of paired parameters in paired expressions goes in step. -/
theorem Expr.substitute_inStep (he : e.Paired ρ e') :
    ObjectMapping.InStep (Abreast log log') ρ (e.substitute [⟨.param p, source⟩])
      (e'.substitute [⟨.param p', source'⟩]) Expr.Paired :=
  .bind (Replacement.check_inStep hp hs hne hflat hflat') fun hτ _ =>
    Visitor.apply_inStep (C := .abreast log log') inherits_true
      ((Visitor.replacing_inStep hp hs hflat hflat').mono hτ) trivial (he.mono hτ)

theorem Lambda.substitute_inStep (hf : f.Paired ρ g) :
    ObjectMapping.InStep (Abreast log log') ρ (f.substitute [⟨.param p, source⟩])
      (g.substitute [⟨.param p', source'⟩]) Lambda.Paired :=
  .bind (Replacement.check_inStep hp hs hne hflat hflat') fun hτ _ =>
    Visitor.walkFn_inStep (C := .abreast log log') Expr.inherits_true
      ((Visitor.replacing_inStep hp hs hflat hflat').mono hτ) trivial
      (hf.params.imp fun _ _ _ => trivial) (hf.mono hτ)

end

end

end ObjectMapping
