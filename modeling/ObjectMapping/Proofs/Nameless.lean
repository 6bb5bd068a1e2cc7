import ObjectMapping.Proofs.Comparing
import ObjectMapping.Proofs.Inside

/-!
# Structural equality as equality of nameless forms

The nameless form of an expression (`Expr.nameless`) forgets which nodes its parameters are : a
bound parameter is the position of its binder, a free one is its name. Two expressions are
structurally equal exactly if their nameless forms are the same, constants being compared as values,
provided that no lambda binds a node again.

The invariant is on the scope of the comparison : a parameter on the left corresponds to one on the
right exactly if both are bound at one position, or both are free and have one name
(`Scope.relates_iff`). A lookup on the left finds the innermost binder, but on the right it only
asks for the node, so the nodes bound on the right have to be different.
-/

namespace ObjectMapping

/-! ## Nameless forms -/

/-- What an expression is, whatever nodes its lambdas bind. -/
inductive Nameless where
  /-- a bound parameter, by the number of parameters that are bound further inside -/
  | bound (ty : Ty) (position : Nat)
  | free (ty : Ty) (name : String)
  | constant (ty : Ty) (value : Value)
  | node (ty : Ty) (kind : Expr.Kind) (parts : List Nameless)

/-- The nameless forms are equal, constants up to the equality of values. -/
@[mk_iff]
inductive Nameless.Same : Nameless → Nameless → Prop
  | bound {ty : Ty} {position : Nat} : Same (.bound ty position) (.bound ty position)
  | free {ty : Ty} {name : String} : Same (.free ty name) (.free ty name)
  | constant {ty : Ty} {v w : Value} :
    v.equal w = true → Same (.constant ty v) (.constant ty w)
  | node {ty : Ty} {kind : Expr.Kind} {ps qs : List Nameless} :
    List.Forall₂ Same ps qs → Same (.node ty kind ps) (.node ty kind qs)

/-- The nameless form of a parameter, where `bound` are bound, the innermost first. -/
def Param.nameless (bound : List NodeId) (p : Param) : Nameless :=
  match bound.idxOf? p.id with
  | some position => .bound p.ty position
  | none => .free p.ty p.name

mutual

/-- The nameless form of an expression, where `bound` are bound around it, the innermost first. -/
def Expr.nameless (bound : List NodeId) : Expr → Nameless
  | .param p => p.nameless bound
  | .constant _ ty v => .constant ty v
  | .default _ ty => .node ty .default []
  | .member _ o m => .node m.ty (.member m.owner m.name) [o.nameless bound]
  | .unary _ ty op a => .node ty (.unary op) [a.nameless bound]
  | .binary _ ty op a b => .node ty (.binary op) [a.nameless bound, b.nameless bound]
  | .conditional _ ty a b c =>
    .node ty .conditional [a.nameless bound, b.nameless bound, c.nameless bound]
  | .call _ ty operation receiver arguments =>
    .node ty (.call operation.signature receiver.isSome)
      (Expr.namelessOption bound receiver ++ Expr.namelessList bound arguments)
  | .lambda _ f => .node f.functionTy .lambda [f.nameless bound]
  | .quote _ f => .node f.quotedTy .quote [f.nameless bound]
  | .construct _ ty arguments assignments =>
    .node ty (.construct (arguments.map (·.member.key)) (assignments.map (·.member.key)))
      (Assignment.namelessList bound arguments ++ Assignment.namelessList bound assignments)
  | .previous _ ty fallback => .node ty .previous (Expr.namelessOption bound fallback)
termination_by structural e => e

/-- The nameless form of an expression that there may be. -/
def Expr.namelessOption (bound : List NodeId) : Option Expr → List Nameless
  | none => []
  | some e => [e.nameless bound]
termination_by structural e => e

/-- The nameless forms of expressions. -/
def Expr.namelessList (bound : List NodeId) : List Expr → List Nameless
  | [] => []
  | e :: es => e.nameless bound :: Expr.namelessList bound es
termination_by structural es => es

/-- The nameless forms of what members are set to. -/
def Assignment.namelessList (bound : List NodeId) : List Assignment → List Nameless
  | [] => []
  | ⟨_, e⟩ :: as => e.nameless bound :: Assignment.namelessList bound as
termination_by structural as => as

/-- The nameless form of the body of a lambda. -/
def Lambda.nameless (bound : List NodeId) : Lambda → Nameless
  | ⟨_, ps, e⟩ => e.nameless ((ps.map (·.id)).reverse ++ bound)
termination_by structural f => f

end

section

variable {bound : List NodeId}

theorem Expr.namelessOption_eq : ∀ e : Option Expr,
    Expr.namelessOption bound e = e.toList.map (Expr.nameless bound)
  | none => rfl
  | some _ => rfl

theorem Expr.namelessList_eq : ∀ es : List Expr,
    Expr.namelessList bound es = es.map (Expr.nameless bound)
  | [] => rfl
  | _ :: es => congrArg _ (Expr.namelessList_eq es)

theorem Assignment.namelessList_eq : ∀ as : List Assignment,
    Assignment.namelessList bound as = (as.map (·.value)).map (Expr.nameless bound)
  | [] => rfl
  | ⟨_, _⟩ :: as => congrArg _ (Assignment.namelessList_eq as)

theorem Lambda.nameless_eq (f : Lambda) : f.nameless bound = f.body.nameless (f.binders bound) := by
  cases f; rfl

/-- The nameless form of a node that has a kind : the lambda that it holds, then its parts. -/
theorem Expr.nameless_of_kind? {e : Expr} {k : Kind} (h : e.kind? = some k) :
    e.nameless bound =
      .node e.ty k
        (e.fn?.toList.map (Lambda.nameless bound) ++ e.parts.map (Expr.nameless bound)) := by
  cases e with
  | param | constant => cases h
  | lambda | quote => cases h; simp [nameless, parts, fn?]
  | _ =>
    cases h
    simp [nameless, parts, fn?, Expr.ty, namelessOption_eq, namelessList_eq,
      Assignment.namelessList_eq]

theorem Nameless.same_constant_iff {s t : Ty} {v w : Value} :
    Same (.constant s v) (.constant t w) ↔ s = t ∧ v.equal w = true := by
  constructor
  · intro h
    cases h with | constant h => exact ⟨rfl, h⟩
  · rintro ⟨rfl, h⟩
    exact .constant h

theorem Nameless.same_node_iff {s t : Ty} {k l : Expr.Kind} {ps qs : List Nameless} :
    Same (.node s k ps) (.node t l qs) ↔ s = t ∧ k = l ∧ List.Forall₂ Same ps qs := by
  constructor
  · intro h
    cases h with | node h => exact ⟨rfl, rfl, h⟩
  · rintro ⟨rfl, rfl, h⟩
    exact .node h

end

/-! ## Parameters -/

theorem Param.same_nameless_iff {bs cs : List NodeId} {p q : Param} :
    (p.nameless bs).Same (q.nameless cs) ↔
      p.ty = q.ty ∧ bs.idxOf? p.id = cs.idxOf? q.id ∧ (p.id ∈ bs ∨ p.name = q.name) := by
  have hmem : p.id ∈ bs ↔ bs.idxOf? p.id ≠ none := by
    rw [Ne, List.idxOf?_eq_none_iff, not_not]
  rw [hmem, nameless, nameless]
  cases bs.idxOf? p.id <;> cases cs.idxOf? q.id <;> simp [Nameless.same_iff]

/-! ## Expressions -/

/-- Every constant of the expression equals itself, as a float that is not a number does not. -/
def Expr.SelfEqual (e : Expr) : Prop :=
  e.All fun d => ∀ v ∈ d.value?, v.equal v = true

/-- The nameless form of an expression whose constants equal themselves is its own. -/
theorem Expr.SelfEqual.same_nameless {e : Expr} (h : e.SelfEqual) (bound : List NodeId) :
    (e.nameless bound).Same (e.nameless bound) := by
  induction e using Expr.byPart generalizing bound with
  | h e ihpart ihfn =>
    rcases e.kind?_cases with ⟨p, rfl⟩ | ⟨id, ty, v, rfl⟩ | ⟨k, hk⟩
    · rw [nameless, Param.same_nameless_iff]
      exact ⟨rfl, rfl, .inr rfl⟩
    · exact .constant (h.head v rfl)
    · rw [nameless_of_kind? hk]
      refine .node (List.rel_append (List.forall₂_same.2 ?_) (List.forall₂_same.2 ?_))
      · refine List.forall_mem_map.2 fun f hf => ?_
        have hf : e.fn? = some f := by simpa using hf
        rw [Lambda.nameless_eq]
        exact ihfn f hf (h.fn hf).body _
      · exact List.forall_mem_map.2 fun d hd => ihpart d hd (h.part hd) bound

theorem Param.not_same_node {bs : List NodeId} {p : Param} {ty : Ty} {k : Expr.Kind}
    {qs : List Nameless} :
    ¬(p.nameless bs).Same (.node ty k qs) ∧ ¬Nameless.Same (.node ty k qs) (p.nameless bs) := by
  rw [nameless]
  cases bs.idxOf? p.id <;> simp [Nameless.same_iff]

theorem Param.not_same_constant {bs : List NodeId} {p : Param} {ty : Ty} {v : Value} :
    ¬(p.nameless bs).Same (.constant ty v) ∧ ¬Nameless.Same (.constant ty v) (p.nameless bs) := by
  rw [nameless]
  cases bs.idxOf? p.id <;> simp [Nameless.same_iff]

/-- Expressions match in a scope exactly if their nameless forms in it are the same. -/
theorem Scope.matches_iff_nameless {F : Forest} {scope : Scope} {a b : Expr} (ha : F.nodes a)
    (hb : F.nodes b) (hself : a.SelfEqual) (hscope : scope.rights.Nodup)
    (hanew : b.BindsAnew scope.rights) :
    scope.Matches a b ↔ (a.nameless scope.lefts).Same (b.nameless scope.rights) := by
  induction a using Expr.byPart generalizing b scope with
  | h a ihpart ihfn =>
    have hsame : scope = [] ∧ a.id = b.id →
        (a.nameless scope.lefts).Same (b.nameless scope.rights) := by
      rintro ⟨rfl, hid⟩
      exact F.node_eq ha hb hid ▸ hself.same_nameless []
    suffices h : a.ty = b.ty ∧ a.agreesIn scope b = true ↔
        (a.nameless scope.lefts).Same (b.nameless scope.rights) by
      rw [matches_iff]
      exact ⟨fun hmatch => hmatch.elim hsame h.1, fun hmatch => .inr (h.2 hmatch)⟩
    rcases a.kind?_cases with ⟨p, rfl⟩ | ⟨id, ty, v, rfl⟩ | ⟨k, hk⟩
    · cases b with
      | param q =>
        simp only [Expr.agreesIn, relates_iff hscope, Expr.nameless, Param.same_nameless_iff,
          Expr.ty]
      | _ => simp [Expr.agreesIn, Expr.nameless, Param.not_same_constant, Param.not_same_node]
    · cases b with
      | param q => simp [Expr.agreesIn, Expr.nameless, Param.not_same_constant]
      | constant => simp only [Expr.agreesIn, Expr.nameless, Expr.ty, Nameless.same_constant_iff]
      | _ => simp [Expr.agreesIn, Expr.nameless, Nameless.same_iff]
    · rw [Expr.nameless_of_kind? hk]
      rcases b.kind?_cases with ⟨q, rfl⟩ | ⟨id, ty, v, rfl⟩ | ⟨l, hl⟩
      · simp +contextual [Expr.agreesIn_of_kind? hk, Expr.kind?, Expr.nameless, Param.not_same_node]
      · simp +contextual [Expr.agreesIn_of_kind? hk, Expr.kind?, Expr.nameless, Nameless.same_iff]
      · rw [Expr.nameless_of_kind? hl, Nameless.same_node_iff]
        refine and_congr_right fun hty => ?_
        rw [Expr.agreesIn_of_kind? hk hty, hl, Option.some.injEq, eq_comm]
        refine and_congr_right fun hkl => ?_
        subst hkl
        have hisSome := Expr.isSome_fn?_eq hk hl
        have hparts : List.Forall₂ scope.Matches a.parts b.parts ↔
            List.Forall₂ Nameless.Same (a.parts.map (Expr.nameless scope.lefts))
              (b.parts.map (Expr.nameless scope.rights)) := by
          rw [List.forall₂_map_left_iff, List.forall₂_map_right_iff]
          exact forall₂_congr_of_mem fun d hd e he => ihpart d hd (F.part ha hd) (F.part hb he)
            (hself.part hd) hscope (hanew.part he)
        have hfn (f : Lambda) (hf : a.fn? = some f) (g : Lambda) (hg : b.fn? = some g) :
            f.agreesIn scope g = true ↔
              (f.nameless scope.lefts).Same (g.nameless scope.rights) := by
          have htys := Expr.paramTys_eq_of_ty_eq hf hg hty
          have hlength : f.params.length = g.params.length := by
            simpa [Lambda.paramTys] using congrArg List.length htys
          have hrights : (scope.enter f.params g.params).rights = g.binders scope.rights :=
            rights_enter hlength
          rw [Lambda.agreesIn_iff, Lambda.nameless_eq, Lambda.nameless_eq, ← lefts_enter hlength,
            ← hrights, ihfn f hf (F.body (F.fn ha hf)) (F.body (F.fn hb hg)) (hself.fn hf).body
              (hrights ▸ (hanew.fn hg).nodup) (hrights ▸ (hanew.fn hg).body)]
          exact and_iff_right htys
        rw [forall₂_append_iff, hparts, and_comm]
        refine and_congr_left fun _ => ?_
        · cases hf : a.fn? <;> cases hg : b.fn? <;> simp_all
        · cases hf : a.fn? <;> cases hg : b.fn? <;> simp_all

/-- Structural equality is equality of nameless forms. The constants need to equal themselves on one
side only, where a node is compared with itself and its parts are not, and lambdas must not bind
again on the other, where a binder is known by its node alone. -/
theorem Expr.structurallyEqual_iff_nameless {F : Forest} {a b : Expr} (ha : F.nodes a)
    (hb : F.nodes b) (hself : a.SelfEqual) (hanew : b.BindsAnew []) :
    a.structurallyEqual b = true ↔ (a.nameless []).Same (b.nameless []) :=
  Scope.matches_iff_nameless ha hb hself List.nodup_nil hanew

theorem Expr.structurallyEqual_iff_nameless_renamed :
    let x : Param := ⟨0, "x", .int⟩
    let y : Param := ⟨1, "y", .int⟩
    let z : Param := ⟨2, "z", .int⟩
    let a : Expr := .lambda 4 ⟨5, [x, y], .binary 3 .int .add (.param y) (.param z)⟩
    let u : Param := ⟨6, "u", .int⟩
    let v : Param := ⟨7, "v", .int⟩
    let w : Param := ⟨8, "z", .int⟩
    let b : Expr := .lambda 10 ⟨11, [u, v], .binary 9 .int .add (.param v) (.param w)⟩
    let c : Expr := .lambda 13 ⟨14, [u, v], .binary 12 .int .add (.param u) (.param w)⟩
    (a.nameless []).Same (b.nameless []) ∧ ¬(a.nameless []).Same (c.nameless []) := by
  intro x y z a u v w b c
  let F : Forest := .ofLists [.param x, .param y, .param z,
      .binary 3 .int .add (.param y) (.param z), a, .param u, .param v, .param w,
      .binary 9 .int .add (.param v) (.param w), b, .binary 12 .int .add (.param u) (.param w), c]
    [⟨5, [x, y], .binary 3 .int .add (.param y) (.param z)⟩,
      ⟨11, [u, v], .binary 9 .int .add (.param v) (.param w)⟩,
      ⟨14, [u, v], .binary 12 .int .add (.param u) (.param w)⟩]
    (by decide) (by decide) (by simp [Expr.parts, a, b, c]) (by simp [Expr.fn?, a, b, c]) (by simp)
    (by simp)
  have hself : a.SelfEqual := by
    have hparam (p : Param) : (Expr.param p).SelfEqual :=
      .mk (by simp [value?]) (by simp [children, parts])
    refine .mk (by simp [a, value?]) ?_
    simp only [a, children, Lambda.children, Lambda.paramExprs, List.map_cons, List.map_nil,
      List.cons_append, List.nil_append, List.forall_mem_cons]
    refine ⟨hparam x, hparam y, .mk (by simp [value?]) ?_, by simp⟩
    simpa [children, parts] using ⟨hparam y, hparam z⟩
  have hanew (id sid fid : NodeId) (p q : Param) :
      (Expr.lambda fid ⟨id, [u, v], .binary sid .int .add (.param p) (.param q)⟩).BindsAnew [] := by
    have hparam (p : Param) : (Expr.param p).BindsAnew [v.id, u.id] :=
      .mk (by simp [parts]) (by simp [fn?]) (by simp [value?])
    refine .mk (by simp [parts]) ?_ (by simp [value?])
    rintro f ⟨⟩
    refine .mk (by simp [Lambda.binders, u, v]) (.mk ?_ (by simp [fn?]) (by simp [value?]))
    simpa [parts] using ⟨hparam p, hparam q⟩
  have ha : F.nodes a := by simp [F, Forest.ofLists]
  have hb : F.nodes b := by simp [F, Forest.ofLists]
  have hc : F.nodes c := by simp [F, Forest.ofLists]
  exact ⟨(structurallyEqual_iff_nameless ha hb hself (hanew ..)).1 (by decide),
    mt (structurallyEqual_iff_nameless ha hc hself (hanew ..)).2 (by decide)⟩

end ObjectMapping
