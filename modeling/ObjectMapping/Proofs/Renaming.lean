import ObjectMapping.Proofs.Blocking
import ObjectMapping.Proofs.Invoking
import ObjectMapping.Proofs.Renamed

/-!
# Renaming a parameter

A parameter of a lambda can be given a new node, which the lambda does not hold yet, and nothing
that can be observed changes (`Lambda.substitute_fresh`). The replacement does not fail, since no
lambda binds the new node. What it makes has the nameless form of the lambda, so that the two are
structurally equal both ways : wherever the parameter is bound, by the lambda or by one inside that
binds it again, the new one is bound in its place (`ScopesMirror`). In the fragment where functions
are only projected through, calls of the two come to the same.
-/

namespace ObjectMapping

open RunM

/-- The trees of the forest in which no node has a property. -/
def Forest.without (F : Forest) (hit : Expr → Bool) : Forest where
  nodes e := F.nodes e ∧ e.outermost hit = []
  fns f := F.fns f ∧ f.outermost hit = []
  node_eq ha hb := F.node_eq ha.1 hb.1
  fn_eq hf hg := F.fn_eq hf.1 hg.1
  part he hd := ⟨F.part he.1 hd, Expr.outermost_part he.2 hd⟩
  fn he hf := by
    obtain ⟨hparams, hbody⟩ := Expr.outermost_fn he.2 hf
    exact ⟨F.fn he.1 hf, Lambda.outermost_eq_nil_iff.2
      ⟨fun p hp => (Expr.outermost_eq_nil_iff.1 (hparams p hp)).1, hbody⟩⟩
  param hf hp := ⟨F.param hf.1 hp,
    Expr.outermost_eq_nil_iff.2 ⟨(Lambda.outermost_eq_nil_iff.1 hf.2).1 _ hp, rfl⟩⟩
  body hf := ⟨F.body hf.1, (Lambda.outermost_eq_nil_iff.1 hf.2).2⟩

/-! ## Scopes -/

/-- The scopes bind `p` and `q` at one position, or neither of them, and agree on all others. -/
structure ScopesMirror (p q : Param) (bound bound' : List NodeId) : Prop where
  position : bound.idxOf? p.id = bound'.idxOf? q.id
  others {i : NodeId} : i ≠ p.id → i ≠ q.id → bound.idxOf? i = bound'.idxOf? i

namespace ScopesMirror

variable {p q : Param} {bound bound' : List NodeId}

theorem refl_of_not_mem (hp : p.id ∉ bound) (hq : q.id ∉ bound) :
    ScopesMirror p q bound bound where
  position := by rw [List.idxOf?_eq_none_iff.2 hp, List.idxOf?_eq_none_iff.2 hq]
  others _ _ := rfl

theorem bind (h : ScopesMirror p q bound bound') :
    ScopesMirror p q (p.id :: bound) (q.id :: bound') where
  position := by simp [List.idxOf?_cons]
  others hp hq := by simp [List.idxOf?_cons, Ne.symm hp, Ne.symm hq, h.others hp hq]

theorem enter (h : ScopesMirror p q bound bound') {i : NodeId} (hp : i ≠ p.id) (hq : i ≠ q.id) :
    ScopesMirror p q (i :: bound) (i :: bound') where
  position := by simp [List.idxOf?_cons, hp, hq, h.position]
  others hjp hjq := by rw [List.idxOf?_cons, List.idxOf?_cons, h.others hjp hjq]

/-- A scope that binds the one parameter agrees with the scope that binds the other one for it. -/
theorem agree (h : ScopesMirror p q bound bound') (hp : p.id ∈ bound) :
    ScopesAgree p q bound bound' where
  binds := by
    obtain ⟨k, hk⟩ : ∃ k, bound.idxOf? p.id = some k :=
      Option.ne_none_iff_exists'.1 (mt List.idxOf?_eq_none_iff.1 (not_not.2 hp))
    exact ⟨k, hk, h.position ▸ hk⟩
  others := h.others

end ScopesMirror

/-! ## What a new parameter is put in -/

section

variable {F G : Forest} {p q : Param} {e e' : Expr} {f g : Lambda} {bound bound' : List NodeId}

/-- An expression over a new parameter has the nameless form that it had, where the new parameter is
bound for the old one. -/
theorem Expr.nameless_eq_of_fresh (he : F.nodes e) (hFG : F ≤ G) (hp : G.nodes (.param p))
    (hq : G.nodes (.param q)) (hfresh : ¬ F.nodes (.param q)) (hty : q.ty = p.ty)
    (h : e.Becomes (.replacing [⟨.param p, .param q⟩]) e')
    (hscopes : ScopesAgree p q bound bound') : e.nameless bound = e'.nameless bound' := by
  have hids {z : Param} (hz : F.nodes (.param z)) (hzp : z ≠ p) : z.id ≠ p.id ∧ z.id ≠ q.id :=
    ⟨fun h => hzp (G.param_eq (hFG.1 _ hz) hp h),
      fun h => hfresh (G.param_eq (hFG.1 _ hz) hq h ▸ hz)⟩
  refine (related_of_made (P := F.nodes) (R := Becomes .keeping)
    (T := Becomes (.replacing [⟨.param p, .param q⟩])) (S := FormsAlike (ScopesAgree p q))
    (N := (·.param? = none)) (fun _ => nofun)
    (fun hparam hr hs => hs.formsAlike (hr.param?_eq.trans hparam)) (fun {c r r'} hc hr hr' => ?_)
    (Forest.all he) (becomes_keeping.2 rfl) h).forms hscopes
  obtain rfl := becomes_keeping.1 hr
  cases hparam : r.param? with
  | some z =>
    obtain rfl := Expr.eq_of_param? hparam
    refine .inl ?_
    rcases becomes_replacing_one.1 hr' with ⟨hzp, rfl⟩ | ⟨hne, hr'⟩
    · obtain rfl := Expr.param.inj hzp
      refine ⟨fun hscopes => ?_, fun {x y} hx hy bound bound' hscopes => ?_⟩
      · obtain ⟨k, hk, hk'⟩ := hscopes.binds
        simp only [nameless, Param.nameless, hk, hk', hty]
      · obtain rfl := Expr.param.inj hx
        obtain rfl := Expr.param.inj hy
        exact .bind hscopes.others
    · obtain ⟨hzp, hzq⟩ := hids hc fun h => hne (h ▸ rfl)
      cases hr'
      refine ⟨fun {bound bound'} hscopes => ?_, fun {x y} hx hy bound bound' hscopes => ?_⟩
      · simp only [nameless, Param.nameless, hscopes.others hzp hzq]
      · obtain rfl := Expr.param.inj hx
        obtain rfl := Expr.param.inj hy
        exact hscopes.enter hzp hzq
  | none =>
    rcases becomes_replacing_one.1 hr' with ⟨rfl, -⟩ | ⟨-, hr'⟩
    · cases hparam
    · exact .inr (.inr ⟨rfl, (rebuilt_keeping r).of fun h => h, hr'.of fun h => h⟩)

/-- The binders of a lambda over a new parameter mirror those that it had. -/
theorem ScopesMirror.binders {ps qs : List Param}
    (hids : ∀ x ∈ ps, x ≠ p → x.id ≠ p.id ∧ x.id ≠ q.id)
    (h : List.Forall₂ (Param.Becomes (.replacing [⟨.param p, .param q⟩])) ps qs)
    (hscopes : ScopesMirror p q bound bound') :
    ScopesMirror p q ((ps.map (·.id)).reverse ++ bound) ((qs.map (·.id)).reverse ++ bound') := by
  induction h generalizing bound bound' with
  | nil => exact hscopes
  | @cons x y _ _ hxy _ ih =>
    simp only [List.map_cons, List.reverse_cons, List.append_assoc, List.cons_append,
      List.nil_append]
    refine ih (fun z hz => hids z (by simp [hz])) ?_
    rcases Param.becomes_replacing_one.1 hxy with ⟨rfl, hy⟩ | ⟨hne, rfl⟩
    · obtain rfl := Expr.param.inj hy
      exact hscopes.bind
    · obtain ⟨hp, hq⟩ := hids _ (by simp) hne
      exact hscopes.enter hp hq

/-- Replacing a parameter by another one keeps the constants. -/
theorem Expr.Becomes.selfEqual_of_replacing (he : e.SelfEqual)
    (h : e.Becomes (.replacing [⟨.param p, .param q⟩]) e') : e'.SelfEqual := by
  refine h.all (fun _ hstands => ?_) (fun _ hputs => ?_) (fun hc _ hr => ?_) he
  · exact False.elim hstands
  · obtain ⟨r, hr, -, rfl⟩ := hputs
    obtain rfl := List.mem_singleton.1 hr
    exact .leaf (by simp [value?]) rfl
  · rwa [hr.value?_eq]

/-- A lambda over a new parameter is structurally equal to the lambda, both ways. -/
theorem Lambda.structurallyEqual_of_fresh (hf : F.fns f) (hFG : F ≤ G) (hp : p ∈ f.params)
    (hq : G.nodes (.param q)) (hfresh : ¬ F.nodes (.param q)) (hty : q.ty = p.ty)
    (hself : f.body.SelfEqual) (h : f.Becomes (.replacing [⟨.param p, .param q⟩]) g) :
    f.structurallyEqual g = true ∧ g.structurallyEqual f = true := by
  have hpG : G.nodes (.param p) := hFG.1 _ (F.param hf hp)
  have hids : ∀ x ∈ f.params, x ≠ p → x.id ≠ p.id ∧ x.id ≠ q.id := fun x hx hne =>
    have hxF := F.param hf hx
    ⟨fun heq => hne (G.param_eq (hFG.1 _ hxF) hpG heq),
      fun heq => hfresh (G.param_eq (hFG.1 _ hxF) hq heq ▸ hxF)⟩
  have hscopes : ScopesAgree p q (f.binders []) (g.binders []) := by
    refine (ScopesMirror.binders hids h.params (.refl_of_not_mem (by simp) (by simp))).agree ?_
    simpa using ⟨p, hp, rfl⟩
  have hbody : f.body.nameless (f.binders []) = g.body.nameless (g.binders []) :=
    Expr.nameless_eq_of_fresh (F.body hf) hFG hpG hq hfresh hty h.body hscopes
  have htys : f.paramTys = g.paramTys := by
    refine map_eq_map_of_forall₂ (h.params.imp fun x y hxy => ?_)
    rcases Param.becomes_replacing_one.1 hxy with ⟨rfl, hy⟩ | ⟨-, rfl⟩
    · rw [Expr.param.inj hy, hty]
    · rfl
  have hlength := h.params.length_eq
  constructor
  · refine agreesIn_iff.2 ⟨htys, Scope.matches_of_nameless hself ?_⟩
    rw [Scope.lefts_enter hlength, Scope.rights_enter hlength]
    exact hbody
  · refine agreesIn_iff.2 ⟨htys.symm,
      Scope.matches_of_nameless (h.body.selfEqual_of_replacing hself) ?_⟩
    rw [Scope.lefts_enter hlength.symm, Scope.rights_enter hlength.symm]
    exact hbody.symm

/-! ## Calls -/

/-- Parameters that are bound by the same parameters of two calls have the same value. -/
theorem Env.lookup_ofArgs_congr {ps qs : List Param} {i j : NodeId}
    (h : List.Forall₂ (fun x y => x.id = i ↔ y.id = j) ps qs) (vs : List Value) :
    Env.lookup i [Binding.ofArgs ps vs] = Env.lookup j [Binding.ofArgs qs vs] := by
  induction h generalizing vs with
  | nil => simp [Env.lookup, Binding.ofArgs]
  | @cons x y _ _ hxy _ ih =>
    cases vs with
    | nil => simp [Env.lookup, Binding.ofArgs]
    | cons v vs =>
      by_cases hi : x.id = i
      · simp [Env.lookup, Binding.ofArgs, hi, hxy.1 hi]
      · have hj : y.id ≠ j := mt hxy.2 hi
        simpa [Env.lookup, Binding.ofArgs, hi, hj] using ih vs

/-- A new parameter keeps different parameters different. -/
theorem Param.id_eq_iff_of_fresh (hFG : F ≤ G) (hq : G.nodes (.param q))
    (hfresh : ¬ F.nodes (.param q)) {x y x' y' : Param} (hx : F.nodes (.param x))
    (hy : F.nodes (.param y)) (hxx' : x.Becomes (.replacing [⟨.param p, .param q⟩]) x')
    (hyy' : y.Becomes (.replacing [⟨.param p, .param q⟩]) y') : x.id = y.id ↔ x'.id = y'.id := by
  have hJ := Judgement.replacing_one_renames (p := p) hq
  refine ⟨fun h => ?_, fun h => ?_⟩
  · obtain rfl := F.param_eq hx hy h
    rw [hJ.eq hxx' hyy']
  · obtain rfl := G.param_eq (hJ.node (hFG.1 _ hx) hxx') (hJ.node (hFG.1 _ hy) hyy') h
    rcases Param.becomes_replacing_one.1 hxx' with ⟨rfl, hx'⟩ | ⟨-, rfl⟩ <;>
      rcases Param.becomes_replacing_one.1 hyy' with ⟨rfl, hy'⟩ | ⟨-, rfl⟩
    · rfl
    · exact absurd (hx' ▸ hy) hfresh
    · exact absurd (hy' ▸ hx) hfresh
    · rfl

/-- A lambda over a new parameter comes to the same on all arguments. -/
theorem Lambda.invoke_eq_of_fresh {host : Host} (hf : F.fns f) (hFG : F ≤ G)
    (hids : (f.params.map (·.id)).Nodup) (hp : p ∈ f.params) (hq : G.nodes (.param q))
    (hfresh : ¬ F.nodes (.param q)) (hfirst : f.body.FirstOrder)
    (h : f.Becomes (.replacing [⟨.param p, .param q⟩]) g) (args : List Value) :
    g.invoke host args = f.invoke host args := by
  have hlength : g.params.length = f.params.length := h.params.length_eq.symm
  -- a parameter and what it becomes are bound to the same argument
  have hsame (hcount : args.length = f.params.length) {y z : Param} (hy : F.nodes (.param y))
      (hyz : y.Becomes (.replacing [⟨.param p, .param q⟩]) z) :
      Env.SameAt (fun _ => False) [Binding.ofArgs f.params args] y
        [Binding.ofArgs g.params args] z := by
    refine .inl ⟨Env.lookup_ofArgs_congr (forall₂_imp_of_mem h.params fun x hx x' hxx' => ?_) args,
      fun hnone => ?_⟩
    · exact Param.id_eq_iff_of_fresh hFG hq hfresh (F.param hf hx) hy hxx' hyz
    · rcases Param.becomes_replacing_one.1 hyz with ⟨rfl, -⟩ | ⟨-, rfl⟩
      · obtain ⟨i, hi, hget⟩ := List.getElem_of_mem hp
        rw [Env.lookup_ofArgs hids (List.getElem?_eq_some_iff.2 ⟨hi, hget⟩),
          List.getElem?_eq_none_iff] at hnone
        omega
      · rfl
  have hrun (hcount : args.length = f.params.length) (d : Nat) (site : Site) :
      g.body.evalIn host (Function.callWithin host d) [Binding.ofArgs g.params args] site =
        f.body.evalIn host (Function.callWithin host d) [Binding.ofArgs f.params args] site :=
    (Expr.Renamed.refines (Judgement.replacing_one_renames hq)
      ⟨hFG.1 _ (F.body hf), hfirst, h.body, F.not_clashes_of_fresh hfresh (F.body hf),
        fun hy hyz => hsame hcount (F.free (F.body hf) hy) hyz⟩ d site site).eq.symm
  have hcall (site : Site) :
      Function.call host ⟨g, [], site, false⟩ args =
        Function.call host ⟨f, [], site, false⟩ args := by
    unfold Function.call
    cases host.depth with
    | zero => rfl
    | succ d =>
      simp only [Function.callWithin_succ, Function.run, hlength]
      split
      · rfl
      · exact hrun (not_not.1 ‹_›) d _
  simp only [invoke, prepare, bind_assoc, pure_bind, hcall]

end

/-! ## Renaming -/

section

variable {F : Forest} {p q : Param} {f : Lambda} {t : Trail}

/-- A parameter of a lambda can be given a new node : the lambda that this makes is structurally
equal to the lambda, both ways, and where functions are only projected through, invoking it is
invoking the lambda. -/
theorem Lambda.substitute_fresh (hF : F.Below t.next) (hf : F.fns f) (hformed : f.WellFormed)
    (hself : f.body.SelfEqual) (hp : p ∈ f.params) (hq : F.nodes (.param q))
    (hfresh : f.outermost (Expr.param q).same = []) (hty : q.ty = p.ty) :
    ∃ g t', outcome (f.substitute [⟨.param p, .param q⟩]) t = (.ok g, t') ∧
      f.structurallyEqual g = true ∧ g.structurallyEqual f = true ∧
      (f.body.FirstOrder → ∀ host args, g.invoke host args = f.invoke host args) := by
  let F₀ := F.without (Expr.param q).same
  have hle : F₀ ≤ F := ⟨fun _ he => he.1, fun _ hf => hf.1⟩
  have hf₀ : F₀.fns f := ⟨hf, hfresh⟩
  have hq₀ : ¬ F₀.nodes (.param q) := fun h => by
    simpa [Expr.same_refl] using (Expr.outermost_eq_nil_iff.1 h.2).1
  have hne : Expr.param q ≠ .param p := fun h => hq₀ (h ▸ F₀.param hf₀ hp)
  have hrefuses {g : Lambda} (hg : F₀.fns g) : ¬ g.Refuses p (.param q) := fun h =>
    hq₀ (F₀.param hg (h.2 q rfl))
  obtain ⟨g, hg⟩ := (substitute_failsIff (F.param hf hp) hq hne rfl hf hformed t trivial).2.2
    (not_or.2 ⟨hrefuses hf₀, F₀.not_someFn (fun _ => hrefuses) (F₀.body hf₀)⟩)
  obtain ⟨t', hrun⟩ : ∃ t', outcome (f.substitute [⟨.param p, .param q⟩]) t = (.ok g, t') :=
    ⟨_, Prod.ext hg rfl⟩
  obtain ⟨-, -, -, -, hbecomes⟩ := substitute_becomes (Replacement.flat_one rfl)
    (by simpa using F.param hf hp) (by simpa using hq) hf hF hrun
  obtain ⟨hforth, hback⟩ := structurallyEqual_of_fresh hf₀ hle hp hq hq₀ hty hself hbecomes
  exact ⟨g, t', hrun, hforth, hback, fun hfirst host args =>
    invoke_eq_of_fresh hf₀ hle hformed.1 hp hq hq₀ hfirst hbecomes args⟩

/-- A lambda inside the lambda binds the parameter again. -/
theorem Lambda.substitute_fresh_bound_again :
    let p : Param := ⟨0, "p", .int⟩
    let q : Param := ⟨1, "q", .int⟩
    let doubled : Expr := .binary 2 .int .add (.param p) (.param p)
    let items : Expr := .constant 3 (.sequence .list .int) (.sequence .list [.int 1, .int 2])
    let projected : Expr := .call 6 (.sequence .enumerable .int) .enumerableSelect none
      [items, .lambda 5 ⟨4, [p], doubled⟩]
    let f : Lambda := ⟨8, [p], .construct 7 (.object "T") []
      [⟨⟨"T", "Given", .int⟩, .param p⟩, ⟨⟨"T", "Doubled", .sequence .enumerable .int⟩, projected⟩]⟩
    ∃ g t', outcome (f.substitute [⟨.param p, .param q⟩]) { next := 9 } = (.ok g, t') ∧
      f.structurallyEqual g = true ∧ g.structurallyEqual f = true ∧
      ∀ host args, g.invoke host args = f.invoke host args := by
  intro p q doubled items projected f
  let F : Forest := .ofLists
    [.param p, .param q, doubled, items, .lambda 5 ⟨4, [p], doubled⟩, projected, f.body]
    [⟨4, [p], doubled⟩, f] (by decide) (by decide)
    (by simp [Expr.parts, doubled, items, projected, f])
    (by simp [Expr.fn?, doubled, items, projected, f]) (by simp [f]) (by simp [f])
  have hparam : (Expr.param p).FirstOrder := .leaf rfl rfl
  have hdoubled : doubled.FirstOrder := .node rfl (by simpa [doubled, Expr.parts] using hparam)
  have hprojected : projected.FirstOrder := .select (.inl rfl) (.leaf rfl rfl) rfl hdoubled
  have hfirst : f.body.FirstOrder :=
    .node rfl (by simpa [f, Expr.parts] using ⟨hparam, hprojected⟩)
  have hint (i : Int64) : (Value.int i).WellFormed := Value.wellFormed_of_plain rfl rfl
  have hformed : f.WellFormed := by
    refine ⟨by simp [f], ?_⟩
    simpa [f, projected, items, doubled, Lambda.WellFormed, Assignment.key, hint] using
      (⟨rfl, rfl⟩ : 2 = Operation.enumerableSelect.signature.arity ∧
        Operation.enumerableSelect.signature.hasReceiver = false)
  have hself : f.body.SelfEqual := by
    refine (Forest.all (F := F) (by simp [F, Forest.ofLists])).imp fun e he v hv => ?_
    simp only [F, Forest.ofLists, List.mem_cons, List.not_mem_nil, or_false] at he
    rcases he with rfl | rfl | rfl | rfl | rfl | rfl | rfl <;> cases hv
    decide
  obtain ⟨g, t', hrun, hforth, hback, hinvoke⟩ := substitute_fresh (F := F) (p := p) (q := q)
    (f := f) (t := { next := 9 }) (Forest.below_ofLists (by decide) (by decide))
    (by simp [F, Forest.ofLists]) hformed hself (by simp [f]) (by simp [F, Forest.ofLists])
    (by decide) rfl
  exact ⟨g, t', hrun, hforth, hback, hinvoke hfirst⟩

end

end ObjectMapping
