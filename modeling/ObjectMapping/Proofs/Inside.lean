import ObjectMapping.Proofs.Remaking
import ObjectMapping.Tree.Node

/-!
# What lies inside a tree

A visit goes from a node to its parts, or to the parameters and the body of the lambda that it
holds : these are its `children`. `Expr.All` says of a property that it holds of a tree and of all
that lies inside it, and `Expr.Becomes.all` that it holds again of what becomes of the tree. The
nodes of a forest that have it throughout are a forest of their own, `Forest.within`.
-/

namespace ObjectMapping

/-- The nodes that a visit to the parts of a lambda comes to : its parameters and its body. -/
def Lambda.children (f : Lambda) : List Expr :=
  f.paramExprs ++ [f.body]

/-- The nodes that a visit to the parts of a node comes to. -/
def Expr.children : Expr → List Expr
  | .lambda _ f | .quote _ f => f.children
  | e => e.parts

theorem Expr.mem_children {e d : Expr} :
    d ∈ e.children ↔ d ∈ e.parts ∨ ∃ f, e.fn? = some f ∧ d ∈ f.children := by
  cases e <;> simp [children, parts, fn?]

theorem Expr.children_of_parts {e : Expr} (h : e.fn? = none) : e.children = e.parts := by
  cases e <;> first | rfl | cases h

theorem Expr.children_of_fn? {e : Expr} {f : Lambda} (h : e.fn? = some f) :
    e.children = f.children := by
  cases e <;> cases h <;> rfl

/-- Induction over an expression by the nodes that a visit comes to. -/
theorem Expr.byChildren {P : Expr → Prop} (h : ∀ e : Expr, (∀ d ∈ e.children, P d) → P e)
    (e : Expr) : P e := by
  have hparam (p : Param) : P (.param p) := h _ (by simp [children, parts])
  induction e using Expr.byPart with
  | h e ihpart ihfn =>
    refine h e fun d hd => ?_
    rcases mem_children.1 hd with hd | ⟨f, hf, hd⟩
    · exact ihpart d hd
    · rcases List.mem_append.1 hd with hd | hd
      · obtain ⟨p, -, rfl⟩ := List.mem_map.1 hd
        exact hparam p
      · obtain rfl := List.mem_singleton.1 hd
        exact ihfn f hf

/-- The property holds of an expression and of every node inside it, constants apart. -/
inductive Expr.All (P : Expr → Prop) : Expr → Prop
  | mk {e : Expr} : P e → (∀ d ∈ e.children, Expr.All P d) → Expr.All P e

/-- The property holds of every node of a lambda, its parameters included. -/
def Lambda.All (P : Expr → Prop) (f : Lambda) : Prop :=
  ∀ d ∈ f.children, d.All P

theorem Expr.All.leaf {P : Expr → Prop} {e : Expr} (h : P e) (hchildren : e.children = []) :
    e.All P :=
  .mk h (by simp [hchildren])

theorem Expr.All.head {P : Expr → Prop} {e : Expr} (h : e.All P) : P e := by
  cases h with | mk hP _ => exact hP

theorem Expr.All.child {P : Expr → Prop} {e d : Expr} (h : e.All P) (hd : d ∈ e.children) :
    d.All P := by
  cases h with | mk _ hall => exact hall d hd

/-- A node lies in an expression, below nodes that have the property. -/
inductive Expr.LiesIn (P : Expr → Prop) (node : Expr) : Expr → Prop
  | here : Expr.LiesIn P node node
  | child {e d : Expr} : P e → d ∈ e.children → Expr.LiesIn P node d → Expr.LiesIn P node e

theorem Expr.LiesIn.all {P Q : Expr → Prop} {node e : Expr} (h : node.LiesIn Q e)
    (he : e.All P) : node.All P := by
  induction h with
  | here => exact he
  | child _ hd _ ih => exact ih (he.child hd)

theorem Expr.all_of_forall {P : Expr → Prop} (h : ∀ e, P e) (e : Expr) : e.All P := by
  induction e using Expr.byChildren with
  | h e ih => exact .mk (h e) ih

theorem Expr.All.imp {P Q : Expr → Prop} (hPQ : ∀ e, P e → Q e) {e : Expr} (h : e.All P) :
    e.All Q := by
  induction h with
  | mk hP _ ih => exact .mk (hPQ _ hP) ih

theorem Expr.All.and {P Q : Expr → Prop} {e : Expr} (hP : e.All P) (hQ : e.All Q) :
    e.All fun d => P d ∧ Q d := by
  induction hP with
  | mk hP _ ih => exact .mk ⟨hP, hQ.head⟩ fun d hd => ih d hd (hQ.child hd)

theorem Lambda.All.body {P : Expr → Prop} {f : Lambda} (h : f.All P) : f.body.All P :=
  h _ (List.mem_append_right _ (List.mem_singleton_self _))

theorem Lambda.All.param {P : Expr → Prop} {f : Lambda} (h : f.All P) {p : Param}
    (hp : p ∈ f.params) : (Expr.param p).All P :=
  h _ (List.mem_append_left _ (List.mem_map_of_mem hp))

theorem Expr.All.part {P : Expr → Prop} {e d : Expr} (h : e.All P) (hd : d ∈ e.parts) : d.All P :=
  h.child (mem_children.2 (.inl hd))

theorem Expr.All.fn {P : Expr → Prop} {e : Expr} {f : Lambda} (h : e.All P)
    (hf : e.fn? = some f) : f.All P :=
  fun _ hd => h.child (mem_children.2 (.inr ⟨f, hf, hd⟩))

/-! ## What becomes of a tree -/

section

variable {J : Judgement} {P Q : Expr → Prop}

theorem Lambda.children_becomes {f f' : Lambda}
    (hparams : List.Forall₂ (Param.Becomes J) f.params f'.params)
    (hbody : f.body.Becomes J f'.body) :
    List.Forall₂ (Expr.Becomes J) f.children f'.children := by
  refine List.rel_append ?_ (.cons hbody .nil)
  rw [paramExprs, paramExprs, List.forall₂_map_left_iff, List.forall₂_map_right_iff]
  exact hparams.imp fun _ _ => Param.becomes_iff.1

/-- The children of a node that is rebuilt are what becomes of its children. -/
theorem Expr.Rebuilt.children {e e' : Expr} (h : e.Rebuilt J e') :
    List.Forall₂ (Expr.Becomes J) e.children e'.children := by
  cases h with
  | param | constant | default => exact .nil
  | member ho => exact .cons ho .nil
  | unary ha => exact .cons ha .nil
  | binary ha hb => exact .cons ha (.cons hb .nil)
  | conditional ha hb hc => exact .cons ha (.cons hb (.cons hc .nil))
  | call hr ha => exact List.rel_append hr ha
  | lambda hparams hbody => exact Lambda.children_becomes hparams hbody
  | quote hparams hbody => exact Lambda.children_becomes hparams hbody
  | construct _ _ ha hb => exact List.rel_append ha hb
  | previous hf => exact hf

/-- The parts of a node that is rebuilt are what becomes of its parts. -/
theorem Expr.Rebuilt.parts_becomes {e e' : Expr} (h : e.Rebuilt J e') :
    List.Forall₂ (Expr.Becomes J) e.parts e'.parts := by
  have hchildren := h.children
  cases h with
  | lambda | quote => exact .nil
  | _ => exact hchildren

/-- The lambda of a node that is rebuilt is what becomes of its lambda. -/
theorem Expr.Rebuilt.fn?_becomes {e e' : Expr} {f' : Lambda} (h : e.Rebuilt J e')
    (hf' : e'.fn? = some f') : ∃ f, e.fn? = some f ∧ f.Becomes J f' := by
  cases h with
  | lambda hps hb | quote hps hb =>
    obtain rfl := Option.some.inj hf'
    exact ⟨_, rfl, hps, hb⟩
  | _ => cases hf'

/-- A visit that puts nothing in the place of parameters leaves them as they are. -/
theorem Param.eq_of_becomes {ps qs : List Param} (h : List.Forall₂ (Param.Becomes J) ps qs)
    (hputs : ∀ {p : Param} {e}, ¬ J.puts (.param p) e) : qs = ps := by
  refine List.forall₂_eq_eq_eq ▸ h.flip.imp fun q p hpq => ?_
  rcases hpq with hput | ⟨-, rfl⟩
  · exact absurd hput hputs
  · rfl

/-- A property holds throughout what becomes of a tree, if it passes to the nodes that are rebuilt
and holds throughout what is put in. -/
theorem Expr.Becomes.all (hstands : ∀ {e}, P e → J.stands e → e.standIn?.isSome = true)
    (hputs : ∀ {e e'}, e.All P → J.puts e e' → e'.All Q)
    (henters : ∀ {e e'}, P e → J.enters e → e.Rebuilt J e' → Q e') {e e' : Expr} (he : e.All P)
    (h : e.Becomes J e') : e'.All Q := by
  induction e using Expr.byChildren generalizing e' with
  | h e ih =>
    cases h with
    | put h => exact hputs he h
    | enter h hr =>
      refine .mk (henters he.head h hr) fun d' hd' => ?_
      obtain ⟨d, hd, hbecomes⟩ := forall₂_mem_right hr.children hd'
      exact ih d hd (he.child hd) hbecomes
    | standIn _ hd h =>
      have hpart := mem_parts_of_standIn? hd
      exact ih _ (mem_children.2 (.inl hpart)) (he.part hpart) h
    | stay h hnone =>
      have hsome := hstands he.head h
      rw [hnone] at hsome
      cases hsome

/-- What becomes of a tree has its static type, if all that is put in has. -/
theorem Expr.Becomes.ty_eq (hstands : ∀ e, ¬ J.stands e)
    (hputs : ∀ {e e'}, J.puts e e' → e'.ty = e.ty) {e e' : Expr} (h : e.Becomes J e') :
    e'.ty = e.ty := by
  have params {ps qs : List Param} (h : List.Forall₂ (Param.Becomes J) ps qs) :
      ps.map (·.ty) = qs.map (·.ty) := by
    refine map_eq_map_of_forall₂ (h.imp fun p q h => ?_)
    rcases h with h | ⟨-, rfl⟩
    · exact (hputs h).symm
    · rfl
  induction e using Expr.byPart generalizing e' with
  | h e _ ihfn =>
    cases h with
    | put h => exact hputs h
    | standIn h => exact absurd h (hstands e)
    | stay => rfl
    | enter _ hr =>
      cases hr with
      | lambda hparams hbody =>
        simp only [ty_lambda, Lambda.functionTy, Lambda.paramTys, Lambda.returnTy, params hparams,
          ihfn _ rfl hbody]
      | quote hparams hbody =>
        simp only [ty_quote, Lambda.quotedTy, Lambda.paramTys, Lambda.returnTy, params hparams,
          ihfn _ rfl hbody]
      | _ => rfl

end

/-! ## Forests -/

/-- The nodes and lambdas of the forest that have the property throughout. -/
def Forest.within (F : Forest) (P : Expr → Prop) : Forest where
  nodes e := F.nodes e ∧ e.All P
  fns f := F.fns f ∧ f.All P
  node_eq ha hb := F.node_eq ha.1 hb.1
  fn_eq hf hg := F.fn_eq hf.1 hg.1
  part he hp := ⟨F.part he.1 hp, he.2.part hp⟩
  fn he hf := ⟨F.fn he.1 hf, he.2.fn hf⟩
  param hf hp := ⟨F.param hf.1 hp, hf.2.param hp⟩
  body hf := ⟨F.body hf.1, hf.2.body⟩

theorem Forest.within_le (F : Forest) (P : Expr → Prop) : F.within P ≤ F :=
  ⟨fun _ h => h.1, fun _ h => h.1⟩

theorem Forest.child {F : Forest} {e d : Expr} (he : F.nodes e) (hd : d ∈ e.children) :
    F.nodes d := by
  rcases Expr.mem_children.1 hd with hd | ⟨f, hf, hd⟩
  · exact F.part he hd
  · have hfF := F.fn he hf
    rcases List.mem_append.1 hd with hd | hd
    · obtain ⟨p, hp, rfl⟩ := List.mem_map.1 hd
      exact F.param hfF hp
    · obtain rfl := List.mem_singleton.1 hd
      exact F.body hfF

/-- All nodes of a tree of a forest are in the forest. -/
theorem Forest.all {F : Forest} {e : Expr} (he : F.nodes e) : e.All F.nodes := by
  induction e using Expr.byChildren with
  | h e ih => exact .mk he fun d hd => ih d hd (Forest.child he hd)

end ObjectMapping
