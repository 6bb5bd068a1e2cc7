import ObjectMapping.Proofs.Refining
import ObjectMapping.Proofs.Replacing

/-!
# Free parameters and capture

A lambda binds its parameters in its body, and a parameter that no lambda around it binds is free
(`Expr.Free`). Replacing a parameter does not look at binders, so it may capture (`Expr.CapturedIn`)
: a lambda in the way may bind a parameter of the source, or the source may be a parameter that was
free in a lambda that binds the replaced one and now is bound by it. Where parameters are renamed,
several of them at once, a parameter that is free in a lambda and one that it binds may come to be
the same (`Expr.Clashes`).

`Expr.FirstOrder` is the fragment in which functions are only made to be projected through. There
parameters can be renamed without a clash and nothing changes (`Expr.Renamed.refines`) ; in
particular the value of an expression depends on its free parameters and not on the place it stands
at (`Expr.evalIn_congr`).
-/

namespace ObjectMapping

open RunM

/-! ## The fragment -/

/-- The operations that project a sequence. -/
def Operation.IsSelect (op : Operation) : Prop :=
  op = .enumerableSelect ∨ op = .queryableSelect

/-- Lambdas and quotes appear only as the projections of the Select operations. -/
inductive Expr.FirstOrder : Expr → Prop
  | node {e : Expr} : e.fn? = none → (∀ d ∈ e.parts, FirstOrder d) → FirstOrder e
  | select {id : NodeId} {ty : Ty} {op : Operation} {source projection : Expr} {f : Lambda} :
    op.IsSelect → FirstOrder source → projection.fn? = some f → FirstOrder f.body →
    FirstOrder (.call id ty op none [source, projection])

theorem Expr.FirstOrder.leaf {e : Expr} (hparts : e.parts = []) (hfn : e.fn? = none) :
    e.FirstOrder :=
  .node hfn (by simp [hparts])

/-- A parameter that no lambda of the expression binds occurs in it. -/
inductive Expr.Free (x : Param) : Expr → Prop
  | here : Free x (.param x)
  | part {e d : Expr} : d ∈ e.parts → Free x d → Free x e
  | body {e : Expr} {f : Lambda} : e.fn? = some f → (∀ y ∈ f.params, y.id ≠ x.id) →
    Free x f.body → Free x e

/-- A lambda of the expression binds the parameter. -/
inductive Expr.Binds (x : Param) : Expr → Prop
  | here {e : Expr} {f : Lambda} : e.fn? = some f → x ∈ f.params → Binds x e
  | part {e d : Expr} : d ∈ e.parts → Binds x d → Binds x e
  | body {e : Expr} {f : Lambda} : e.fn? = some f → Binds x f.body → Binds x e

/-- Putting the source in the places of a parameter of the expression captures. -/
inductive Expr.CapturedIn (p : Param) (source : Expr) : Expr → Prop
  | part {e d : Expr} : d ∈ e.parts → CapturedIn p source d → CapturedIn p source e
  | body {e : Expr} {f : Lambda} : e.fn? = some f → CapturedIn p source f.body →
    CapturedIn p source e
  /-- a lambda around the parameter binds a parameter of the source -/
  | binds {e : Expr} {f : Lambda} {x : Param} : e.fn? = some f → x ∈ f.params → x ≠ p →
    f.body.Free p → source.Free x → CapturedIn p source e
  /-- a lambda that binds the parameter comes to bind the source, which was free in it -/
  | renames {e : Expr} {f : Lambda} {q : Param} : e.fn? = some f → p ∈ f.params →
    source = .param q → q ≠ p → f.body.Free q → CapturedIn p source e

/-- Parameters of which one is free in a lambda of the expression that binds the other become the
same. -/
inductive Expr.Clashes (J : Judgement) : Expr → Prop
  | part {e d : Expr} : d ∈ e.parts → Clashes J d → Clashes J e
  | body {e : Expr} {f : Lambda} : e.fn? = some f → Clashes J f.body → Clashes J e
  | binds {e : Expr} {f : Lambda} {x y z : Param} : e.fn? = some f → x ∈ f.params → e.Free y →
    x.Becomes J z → y.Becomes J z → Clashes J e

/-! ## One projection -/

deriving instance DecidableEq for Param

/-- What stands in place of a parameter when the source replaces `p`. -/
def Param.standing (p : Param) (source : Expr) (y : Param) : Expr :=
  if y = p then source else .param y

section

variable {p x x' y : Param} {source : Expr}

@[simp]
theorem Param.standing_self (p : Param) (source : Expr) : p.standing source p = source :=
  if_pos rfl

theorem Param.standing_of_ne (h : y ≠ p) : p.standing source y = .param y :=
  if_neg h

theorem Expr.free_iff {e : Expr} : e.Free x ↔ e = .param x ∨ (∃ d ∈ e.parts, d.Free x) ∨
    ∃ f, e.fn? = some f ∧ (∀ y ∈ f.params, y.id ≠ x.id) ∧ f.body.Free x := by
  constructor
  · intro h
    cases h with
    | here => exact .inl rfl
    | part hd h => exact .inr (.inl ⟨_, hd, h⟩)
    | body hf hne h => exact .inr (.inr ⟨_, hf, hne, h⟩)
  · rintro (rfl | ⟨d, hd, h⟩ | ⟨f, hf, hne, h⟩)
    · exact .here
    · exact .part hd h
    · exact .body hf hne h

/-- What is free in a lambda is free in its body, and not bound by it. -/
theorem Expr.Free.of_fn? {e : Expr} {f : Lambda} (hf : e.fn? = some f) (h : e.Free x) :
    (∀ y ∈ f.params, y.id ≠ x.id) ∧ f.body.Free x := by
  cases h with
  | here => cases hf
  | part hd => simp [parts_of_fn? hf] at hd
  | body hg hne h =>
    obtain rfl := Option.some.inj (hf.symm.trans hg)
    exact ⟨hne, h⟩

theorem Expr.free_param : (Expr.param y).Free x ↔ x = y := by
  rw [free_iff]
  simp [parts, fn?, eq_comm]

/-- A parameter that is free in an expression occurs in it. -/
theorem Expr.Free.occursIn {e : Expr} (h : e.Free x) :
    (Expr.param x).occursIn e = true := by
  rw [← Bool.not_eq_false, occursIn_eq_false_iff]
  intro hout
  induction h with
  | here => simp [outermost_eq_nil_iff, same_refl] at hout
  | part hd _ ih => exact ih (outermost_part hout hd)
  | body hf _ _ ih => exact ih (outermost_fn hout hf).2

/-- The parameter of a projection has been given what stands in its place. -/
theorem Param.Becomes.standing (h : x.Becomes (.replacing [⟨.param p, source⟩]) x') :
    p.standing source x = .param x' := by
  rcases Param.becomes_replacing_one.1 h with ⟨rfl, hsource⟩ | ⟨hne, rfl⟩
  · rw [standing_self, hsource]
  · exact standing_of_ne hne

/-- Without capture, the parameter of a projection is bound nowhere but in its own places. -/
theorem Param.Becomes.not_free {e : Expr} {f : Lambda}
    (h : x.Becomes (.replacing [⟨.param p, source⟩]) x') (hf : e.fn? = some f)
    (hx : f.params = [x]) (hcap : ¬ source.CapturedIn p e) (hy : f.body.Free y) (hne : y ≠ x) :
    ¬ (p.standing source y).Free x' := by
  intro hfree
  rcases Param.becomes_replacing_one.1 h with ⟨rfl, rfl⟩ | ⟨hxp, rfl⟩
  · rw [standing_of_ne hne, Expr.free_param] at hfree
    subst hfree
    exact hcap (.renames hf (by simp [hx]) rfl hne hy)
  · by_cases hyp : y = p
    · subst hyp
      rw [standing_self] at hfree
      exact hcap (.binds hf (by simp [hx]) hxp hy hfree)
    · rw [standing_of_ne hyp, Expr.free_param] at hfree
      exact hne hfree.symm

end

/-! ## Looking up -/

/-- A parameter on one side is bound to what a parameter on the other side is bound to, or neither
is bound and they have the same name. The first one may also be unbound where that is a fault of
`E`. -/
def Env.SameAt (E : Fault → Prop) (env : Env) (y : Param) (env' : Env) (z : Param) : Prop :=
  env.lookup y.id = env'.lookup z.id ∧ (env.lookup y.id = none → y.name = z.name) ∨
    env.lookup y.id = none ∧ E (.failed (.unboundParam y.name))

/-- The innermost call binds the parameter of a projection. -/
theorem Env.lookup_push_self (x : Param) (v : Value) (env : Env) :
    Env.lookup x.id (Binding.ofArgs [x] [v] :: env) = some v := by
  simp [Env.lookup, Binding.ofArgs]

theorem Env.lookup_push_of_ne {x : Param} {i : NodeId} (h : x.id ≠ i) (v : Value) (env : Env) :
    Env.lookup i (Binding.ofArgs [x] [v] :: env) = Env.lookup i env := by
  simp [Env.lookup, Binding.ofArgs, h]

theorem Expr.refines_param {E : Fault → Prop} {host : Host} {call : Caller} {env env' : Env}
    {y z : Param} (h : env.SameAt E y env' z) (site site' : Site) :
    RunM.Refines E ((Expr.param y).evalIn host call env site)
      ((Expr.param z).evalIn host call env' site') := by
  simp only [evalIn]
  rcases h with ⟨hlookup, hname⟩ | ⟨hnone, hE⟩
  · rw [← hlookup]
    split
    · exact .refl _
    · rw [hname ‹_›]
      exact .refl _
  · rw [hnone]
    exact .of_fault hE

/-! ## Projections -/

/-- Projects the items of a sequence. -/
def Native.project (kind : SequenceKind) (run : Value → RunM Value) (v : Value) : RunM Value := do
  let (_, items) ← ofExcept (givenSequence "Select" (some v))
  return .sequence kind (← items.mapM run)

theorem Native.project_sequence (kind kind' : SequenceKind) (run : Value → RunM Value)
    (items : List Value) :
    project kind run (.sequence kind' items) = do return .sequence kind (← items.mapM run) := by
  simp [project, givenSequence, RunM.ofExcept]

/-- The kind of sequence that a Select operation yields. -/
def Operation.selectKind (op : Operation) : SequenceKind :=
  if op = .queryableSelect then .queryable else .enumerable

theorem Operation.IsSelect.invokeBy {op : Operation} (h : op.IsSelect) (host : Host)
    (call : Caller) (v : Value) (g : Function) :
    op.invokeBy host call [v, .function g] =
      Native.project op.selectKind (fun item => call g [item]) v := by
  rcases h with rfl | rfl <;> rfl

/-- The value of a lambda or a quote is a function closed over the bindings in scope. -/
theorem Expr.evalIn_of_fn? {e : Expr} {f : Lambda} (h : e.fn? = some f) :
    ∃ quoted, ∀ (host : Host) (call : Caller) (env : Env) (site : Site),
      e.evalIn host call env site = pure (.function ⟨f, env, site, quoted⟩) := by
  cases e with
  | lambda | quote =>
    obtain rfl := Option.some.inj h
    exact ⟨_, fun _ _ _ _ => rfl⟩
  | _ => simp [fn?] at h

/-- A projection through a lambda calls it on every item of the source. -/
theorem Expr.evalIn_select (id : NodeId) (ty : Ty) {op : Operation} (source : Expr)
    {projection : Expr} {f : Lambda} (hop : op.IsSelect) (hf : projection.fn? = some f) :
    ∃ quoted, ∀ (host : Host) (call : Caller) (env : Env) (site : Site),
      (Expr.call id ty op none [source, projection]).evalIn host call env site = (do
        let v ← source.evalIn host call env ((site.child 1).child 0)
        Native.project op.selectKind
          (fun item => call ⟨f, env, ((site.child 1).child 1).child 0, quoted⟩ [item]) v) := by
  obtain ⟨quoted, hvalue⟩ := evalIn_of_fn? hf
  refine ⟨quoted, fun host call env site => ?_⟩
  simp only [evalIn, evalOption, evalList, hvalue, pure_bind, bind_assoc, List.nil_append]
  exact bind_congr fun v => hop.invokeBy host call v _

/-- Runs the code of a function on arguments, with a caller for the functions that it calls. -/
def Function.run (host : Host) (call : Caller) (f : Function) (args : List Value) : RunM Value :=
  if args.length ≠ f.lambda.params.length then
    reject (.valueCount f.lambda.params.length args.length)
  else
    f.lambda.body.evalIn host call (Binding.ofArgs f.lambda.params args :: f.env) (f.site.child 0)

theorem Function.callWithin_succ (host : Host) (d : Nat) (f : Function) (args : List Value) :
    callWithin host (d + 1) f args = f.run host (callWithin host d) args :=
  rfl

/-- A function of one parameter evaluates its body on one argument. -/
theorem Function.run_one {f : Lambda} {x : Param} (hx : f.params = [x]) (host : Host)
    (call : Caller) (env : Env) (site : Site) (quoted : Bool) (v : Value) :
    run host call ⟨f, env, site, quoted⟩ [v] =
      f.body.evalIn host call (Binding.ofArgs [x] [v] :: env) (site.child 0) := by
  simp [run, hx]

/-- A function that has not one parameter fails on one argument. -/
theorem Function.run_of_ne {f : Lambda} (hlen : f.params.length ≠ 1) (host : Host) (call : Caller)
    (env : Env) (site : Site) (quoted : Bool) (v : Value) :
    run host call ⟨f, env, site, quoted⟩ [v] = reject (.valueCount f.params.length 1) := by
  simp [run, hlen.symm]

/-! ## Renaming -/

/-- The free parameters of a tree of a forest are in the forest. -/
theorem Forest.free {F : Forest} {e : Expr} {x : Param} (he : F.nodes e) (h : e.Free x) :
    F.nodes (.param x) := by
  induction h with
  | here => exact he
  | part hd _ ih => exact ih (F.part he hd)
  | body hf _ _ ih => exact ih (F.body (F.fn he hf))

/-- Capture takes a lambda that binds a parameter of the source or the one that is replaced. -/
theorem Forest.fn_of_capturedIn {F : Forest} {p : Param} {source e : Expr} (he : F.nodes e)
    (h : source.CapturedIn p e) :
    ∃ d f, F.nodes d ∧ d.fn? = some f ∧ ∃ x ∈ f.params, source.Free x ∨ x = p := by
  induction h with
  | part hd _ ih => exact ih (F.part he hd)
  | body hf _ ih => exact ih (F.body (F.fn he hf))
  | binds hf hx _ _ hfree => exact ⟨_, _, he, hf, _, hx, .inl hfree⟩
  | renames hf hp => exact ⟨_, _, he, hf, _, hp, .inr rfl⟩

theorem Forest.param_eq {F : Forest} {x y : Param} (hx : F.nodes (.param x))
    (hy : F.nodes (.param y)) (h : x.id = y.id) : x = y :=
  Expr.param.inj (F.node_eq hx hy h)

/-- Different parameters of the forest that become different parameters do not clash. -/
theorem Forest.not_clashes {F : Forest} {J : Judgement}
    (hJ : ∀ {x y z : Param}, F.nodes (.param x) → F.nodes (.param y) → x.Becomes J z →
      y.Becomes J z → x = y)
    {e : Expr} (he : F.nodes e) : ¬ e.Clashes J := by
  intro h
  induction h with
  | part hd _ ih => exact ih (F.part he hd)
  | body hf _ ih => exact ih (F.body (F.fn he hf))
  | binds hf hx hy hxz hyz =>
    obtain rfl := hJ (F.param (F.fn he hf) hx) (F.free he hy) hxz hyz
    exact (hy.of_fn? hf).1 _ hx rfl

/-- A parameter that is given a new node clashes with none. -/
theorem Forest.not_clashes_of_fresh {F : Forest} {p q : Param} {e : Expr}
    (hq : ¬ F.nodes (.param q)) (he : F.nodes e) :
    ¬ e.Clashes (.replacing [⟨.param p, .param q⟩]) := by
  refine F.not_clashes (fun {x y z} hx hy hxz hyz => ?_) he
  rcases Param.becomes_replacing_one.1 hxz with ⟨rfl, hz⟩ | ⟨-, rfl⟩ <;>
    rcases Param.becomes_replacing_one.1 hyz with ⟨rfl, hz'⟩ | ⟨-, rfl⟩
  · rfl
  · exact absurd (hz ▸ hy) hq
  · exact absurd (hz' ▸ hx) hq
  · rfl

namespace Judgement

/-- All nodes but parameters are entered. -/
structure OnParams (J : Judgement) : Prop where
  stands (e : Expr) : ¬ J.stands e
  puts {e e' : Expr} : J.puts e e' → ∃ x, e = .param x

/-- Parameters are renamed to parameters of the forest, and all other nodes are entered. -/
structure Renames (J : Judgement) (F : Forest) : Prop extends J.OnParams where
  new {e e' : Expr} : J.puts e e' → F.nodes e' ∧ ∃ y, e' = .param y
  eq {x y z : Param} : x.Becomes J y → x.Becomes J z → y = z

theorem replacing_onParams {rs : List Replacement} (h : ∀ r ∈ rs, ∃ p, r.old = .param p) :
    (replacing rs).OnParams where
  stands _ h := h
  puts := by
    rintro _ _ ⟨r, hr, rfl, -⟩
    exact h r hr

theorem replacing_renames {F : Forest} {rs : List Replacement}
    (h : ∀ r ∈ rs, F.nodes r.new ∧ ∃ p q, r = ⟨.param p, .param q⟩)
    (honce : ∀ r ∈ rs, ∀ r' ∈ rs, r.old = r'.old → r.new = r'.new) : (replacing rs).Renames F where
  toOnParams := replacing_onParams fun r hr => by
    obtain ⟨-, p, q, rfl⟩ := h r hr
    exact ⟨p, rfl⟩
  new := by
    rintro _ _ ⟨r, hr, -, rfl⟩
    obtain ⟨hnode, p, q, rfl⟩ := h r hr
    exact ⟨hnode, q, rfl⟩
  eq := by
    rintro x y z (⟨r, hr, hx, hy⟩ | ⟨hx | hx, rfl⟩) (⟨r', hr', hx', hz⟩ | ⟨hx' | hx', rfl⟩)
    · exact Expr.param.inj (hy.trans ((honce r hr r' hr' (hx.symm.trans hx')).trans hz.symm))
    · exact absurd hx (hx' r hr)
    · exact hx'.elim
    · exact absurd hx' (hx r' hr')
    · rfl
    · rfl
    · exact hx.elim
    · rfl
    · rfl

theorem replacing_one_renames {F : Forest} {p q : Param} (hq : F.nodes (.param q)) :
    (replacing [⟨.param p, .param q⟩]).Renames F := by
  refine replacing_renames (fun r hr => ?_) fun r hr r' hr' _ => ?_
  · obtain rfl := List.mem_singleton.1 hr
    exact ⟨hq, p, q, rfl⟩
  · rw [List.mem_singleton.1 hr, List.mem_singleton.1 hr']

theorem Renames.node {J : Judgement} {F : Forest} (hJ : J.Renames F) {x y : Param}
    (hx : F.nodes (.param x)) (h : x.Becomes J y) : F.nodes (.param y) := by
  rcases h with h | ⟨-, rfl⟩
  · exact (hJ.new h).1
  · exact hx

end Judgement

section

variable {J : Judgement}

/-- A node other than a parameter is rebuilt. -/
theorem Expr.Becomes.rebuilt (hJ : J.OnParams) {e e' : Expr} (he : e.param? = none)
    (h : e.Becomes J e') : e.Rebuilt J e' := by
  cases h with
  | put h =>
    obtain ⟨x, rfl⟩ := hJ.puts h
    cases he
  | enter _ hr => exact hr
  | standIn h => exact absurd h (hJ.stands e)
  | stay h => exact absurd h (hJ.stands e)

/-- What becomes of a lambda or a quote is one, over what becomes of its lambda. -/
theorem Expr.Becomes.fn? (hJ : J.OnParams) {e e' : Expr} {f : Lambda} (h : e.Becomes J e')
    (hf : e.fn? = some f) : ∃ f', e'.fn? = some f' ∧ f.Becomes J f' := by
  cases e with
  | lambda | quote =>
    obtain rfl := Option.some.inj hf
    cases h.rebuilt hJ rfl
    exact ⟨_, rfl, ‹_›, ‹_›⟩
  | _ => simp [Expr.fn?] at hf

/-- A lambda with one parameter is one with one parameter again. -/
theorem Lambda.Becomes.params_one {f f' : Lambda} {x : Param} (h : f.Becomes J f')
    (hx : f.params = [x]) : ∃ x', f'.params = [x'] ∧ x.Becomes J x' := by
  have hparams := h.params
  rw [hx] at hparams
  rcases hf' : f'.params with _ | ⟨x', _ | _⟩ <;> rw [hf'] at hparams
  · cases hparams
  · exact ⟨x', rfl, (List.forall₂_cons.1 hparams).1⟩
  · cases hparams with | cons _ h => cases h

/-- A projection is rebuilt over what becomes of its source and its lambda. -/
theorem Expr.Rebuilt.of_select {id : NodeId} {ty : Ty} {op : Operation}
    {source projection e' : Expr}
    (h : (Expr.call id ty op none [source, projection]).Rebuilt J e') :
    ∃ id' source' projection', e' = .call id' ty op none [source', projection'] ∧
      source.Becomes J source' ∧ projection.Becomes J projection' := by
  cases h with | call hr ha =>
  obtain rfl := Option.toList_eq_nil_iff.1 (List.forall₂_nil_left_iff.1 hr)
  rcases ha with _ | ⟨hsource, _ | ⟨hprojection, _ | _⟩⟩
  exact ⟨_, _, _, rfl, hsource, hprojection⟩

end

section

variable {E : Fault → Prop} {host : Host} {env env' : Env}

/-- An expression of the fragment in which parameters are renamed without a clash, and the values
that its free parameters have before and after. -/
structure Expr.Renamed (E : Fault → Prop) (F : Forest) (J : Judgement) (env env' : Env)
    (e e' : Expr) : Prop where
  node : F.nodes e
  first : e.FirstOrder
  becomes : e.Becomes J e'
  apart : ¬ e.Clashes J
  sameAt {y z : Param} : e.Free y → y.Becomes J z → env.SameAt E y env' z

namespace Expr.Renamed

variable {F : Forest} {J : Judgement} {x x' : Param} {e e' c c' : Expr} {f f' : Lambda}

/-- A part is renamed with the expression. -/
theorem part (h : Renamed E F J env env' e e') (hc : c ∈ e.parts) (hfirst : c.FirstOrder)
    (hbecomes : c.Becomes J c') : Renamed E F J env env' c c' where
  node := F.part h.node hc
  first := hfirst
  becomes := hbecomes
  apart hclash := h.apart (.part hc hclash)
  sameAt hy hz := h.sameAt (.part hc hy) hz

/-- The body of a projection is renamed with the expression that holds it, with the item in scope on
both sides. -/
theorem body (hJ : J.Renames F) (h : Renamed E F J env env' e e') (hc : c ∈ e.parts)
    (hf : c.fn? = some f) (hfirst : f.body.FirstOrder) (hbecomes : f.body.Becomes J f'.body)
    (hx : f.params = [x]) (hparam : x.Becomes J x') (v : Value) :
    Renamed E F J (Binding.ofArgs [x] [v] :: env) (Binding.ofArgs [x'] [v] :: env') f.body
      f'.body := by
  have hfF := F.fn (F.part h.node hc) hf
  have hxF : F.nodes (.param x) := F.param hfF (by simp [hx])
  refine ⟨F.body hfF, hfirst, hbecomes, fun hclash => h.apart (.part hc (.body hf hclash)), ?_⟩
  intro y z hy hz
  have hyF := F.free (F.body hfF) hy
  by_cases hyx : y = x
  · subst hyx
    obtain rfl := hJ.eq hparam hz
    exact .inl ⟨by rw [Env.lookup_push_self, Env.lookup_push_self], by simp [Env.lookup_push_self]⟩
  · have hids : x.id ≠ y.id := fun h => hyx (F.param_eq hxF hyF h).symm
    have hfree : c.Free y := .body hf (by simpa [hx] using hids) hy
    have hids' : x'.id ≠ z.id := by
      intro heq
      obtain rfl := F.param_eq (hJ.node hxF hparam) (hJ.node hyF hz) heq
      exact h.apart (.part hc (.binds hf (by simp [hx]) hfree hparam hz))
    unfold Env.SameAt
    rw [Env.lookup_push_of_ne hids, Env.lookup_push_of_ne hids']
    exact h.sameAt (.part hc hfree) hz

end Expr.Renamed

theorem Native.project_refines {run run' : Value → RunM Value}
    (h : ∀ item, RunM.Refines E (run item) (run' item)) (kind : SequenceKind) (v : Value) :
    RunM.Refines E (project kind run v) (project kind run' v) :=
  (RunM.Refines.refl _).bind fun _ => (RunM.Refines.mapM h _).bind fun _ => .refl _

/-- Parameters can be renamed without a clash, and nothing changes. -/
theorem Expr.Renamed.refines {F : Forest} {J : Judgement} (hJ : J.Renames F) {e e' : Expr}
    (h : Renamed E F J env env' e e') (d : Nat) :
    e.Refines E host (Function.callWithin host d) env env' e' := by
  have becomes := h.becomes
  induction h.first generalizing e' env env' d with
  | @select id ty op source projection f hop hsource hf hbody ihs ihb =>
    obtain ⟨_, _, _, rfl, hsource', hprojection⟩ := (becomes.rebuilt hJ.toOnParams rfl).of_select
    obtain ⟨f', hf', hbecomes⟩ := hprojection.fn? hJ.toOnParams hf
    obtain ⟨quoted, hvalue⟩ := evalIn_select id ty source hop hf
    obtain ⟨quoted', hvalue'⟩ := evalIn_select _ ty _ hop hf'
    have hs := h.part (by simp [parts]) hsource hsource'
    intro site site'
    rw [hvalue, hvalue']
    refine (ihs hs d hsource' _ _).bind fun v => Native.project_refines (fun item => ?_) _ v
    cases d with
    | zero => exact .refl _
    | succ d =>
      rw [Function.callWithin_succ, Function.callWithin_succ]
      by_cases hlen : f.params.length = 1
      · obtain ⟨x, hx⟩ := List.length_eq_one_iff.1 hlen
        obtain ⟨x', hx', hparam⟩ := hbecomes.params_one hx
        rw [Function.run_one hx, Function.run_one hx']
        exact ihb (h.body hJ (by simp [parts]) hf hbody hbecomes.body hx hparam item) d
          hbecomes.body _ _
      · have hlen' := hbecomes.params.length_eq
        rw [Function.run_of_ne hlen, Function.run_of_ne (hlen' ▸ hlen), hlen']
        exact .refl _
  | @node e hfn hfirst ih =>
    cases becomes with
    | put hputs =>
      obtain ⟨x, rfl⟩ := hJ.puts hputs
      obtain ⟨-, y, rfl⟩ := hJ.new hputs
      exact refines_param (h.sameAt .here (.inl hputs))
    | enter henters hr =>
      refine hr.refines hfn (fun y hy => ?_) fun c hc c' hbecomes => ?_
      · subst hy
        exact refines_param (h.sameAt .here (.inr ⟨.inl henters, rfl⟩))
      · exact ih c hc (h.part hc (hfirst c hc) hbecomes) d hbecomes
    | standIn hstands => exact absurd hstands (hJ.stands e)
    | stay hstands => exact absurd hstands (hJ.stands e)

/-- An expression of the fragment depends on the values of its free parameters, and not on the place
it stands at. -/
theorem Expr.evalIn_congr {F : Forest} {e : Expr} (he : F.nodes e) (hfirst : e.FirstOrder)
    (henv : ∀ y, e.Free y → env.SameAt (fun _ => False) y env' y) (d : Nat) (site site' : Site) :
    e.evalIn host (Function.callWithin host d) env site =
      e.evalIn host (Function.callWithin host d) env' site' := by
  have keeps {x z : Param} (h : x.Becomes (.replacing []) z) : z = x := by
    simpa [Param.Becomes, Judgement.replacing] using h
  have hrenamed : Renamed (fun _ => False) F (.replacing []) env env' e e := by
    refine ⟨he, hfirst, .refl (fun e => .inr (by simp [Judgement.replacing])) e, ?_, ?_⟩
    · exact F.not_clashes (fun _ _ hx hy => (keeps hx).symm.trans (keeps hy)) he
    · intro y z hy hz
      exact keeps hz ▸ henv y hy
  exact (hrenamed.refines (Judgement.replacing_renames (by simp) (by simp)) d site site').eq

end

end ObjectMapping
