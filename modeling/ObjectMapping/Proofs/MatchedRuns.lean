import ObjectMapping.Proofs.Matching

/-!
# Runs of the same code on matched values

Two evaluations of one expression, at places that answer to each other, with matched values for its
free parameters, come to matched values or to the same fault (`Expr.evalIn_matched`). They take the
same identities and write the same lines, so that only places and unseen bindings differ.

Where functions are only made to be projected through, no place is ever compared. In that fragment
the two evaluations may stand at any places (`Expr.Stands`).

Native implementations that come from outside must not look at places and at unseen bindings
(`Host.Impartial`).
-/

namespace ObjectMapping

open RunM

/-! ## Runs on one trail -/

/-- Both runs are on one trail, and no identity answers to another one. -/
structure Together (ρ : Pairing) (t t' : Trail) : Prop where
  eq : t' = t
  same : ρ ≤ .same

/-- Two runs have ended on one trail, with related results or with the same fault. -/
inductive EndsLike {α β : Type} (R : α → β → Prop) :
    Except Fault α × Trail → Except Fault β × Trail → Prop
  | ok {a : α} {b : β} (t : Trail) : R a b → EndsLike R (.ok a, t) (.ok b, t)
  | error (fault : Fault) (t : Trail) : EndsLike R (.error fault, t) (.error fault, t)

/-- What the results of the other run always have may be used. -/
theorem EndsLike.imp_of_ends {α β : Type} {R Q : α → β → Prop} {P : β → Prop}
    {o : Except Fault α × Trail} {y : RunM β} {t : Trail} (h : EndsLike R o (outcome y t))
    (hy : Ends y P) (hRQ : ∀ a b, R a b → P b → Q a b) : EndsLike Q o (outcome y t) := by
  generalize hout : outcome y t = o' at h
  cases h with
  | ok _ hab => exact .ok _ (hRQ _ _ hab (ends_iff.1 hy hout))
  | error fault t => exact .error fault t

theorem Fault.Paired.eq_of_same {ρ : Pairing} (hρ : ρ ≤ .same) {e e' : Fault}
    (h : e.Paired ρ e') : e' = e := by
  have named {name name' : String} (h : ρ.Named name name') : name' = name := by
    cases h with
    | same => rfl
    | generated stem hij => rw [hρ _ _ hij]
  cases h with
  | same => rfl
  | parameterLost h | parameterTwice h | inlinedType h => rw [named h]

/-- Runs that go in step on one trail end alike, wherever they start. -/
theorem InStep.endsLike {α β : Type} {R : α → β → Prop} {x : RunM α} {y : RunM β}
    (h : InStep Together .same x y fun _ => R) (t : Trail) :
    EndsLike R (outcome x t) (outcome y t) := by
  obtain ⟨υ, -, ⟨htrail, hsame⟩, hended⟩ := h.ended (Pairing.le_refl _) ⟨rfl, Pairing.le_refl _⟩
  rcases hx : outcome x t with ⟨r, t₁⟩
  rcases hy : outcome y t with ⟨r', t₁'⟩
  rw [hx, hy] at htrail hended
  obtain rfl : t₁' = t₁ := htrail
  cases hended with
  | ok hab => exact .ok _ hab
  | error he =>
    obtain rfl := he.eq_of_same hsame
    exact .error _ _

section

variable {ρ : Pairing}

/-- Both runs take the same identity. -/
theorem Together.fresh : InStep Together ρ fresh fresh fun _ i j => j = i := by
  refine ⟨fun {τ t t'} hτ ht => ?_⟩
  obtain rfl := ht.eq
  exact ⟨τ, τ.le_refl, ⟨rfl, ht.same⟩, .ok rfl⟩

theorem Together.note (line : String) :
    InStep Together ρ (note line) (note line) fun _ _ _ => True := by
  refine ⟨fun {τ t t'} hτ ht => ?_⟩
  obtain rfl := ht.eq
  exact ⟨τ, τ.le_refl, ⟨rfl, ht.same⟩, .ok trivial⟩

theorem Together.notes (lines : List String) :
    InStep Together ρ (lines.forM RunM.note) (lines.forM RunM.note) fun _ _ _ => True := by
  induction lines generalizing ρ with
  | nil => exact .pure fun _ => trivial
  | cons line lines ih =>
    rw [List.forM_eq_forM, List.forM_cons]
    exact .bind (Together.note line) fun _ _ => ih

end

/-! ## Native implementations -/

/-- Matched outcomes of native implementations from outside. -/
inductive Outcome.Matched (σ : Placement) (C : Expr → Prop) : Outcome → Outcome → Prop
  | value {v w : Value} : v.Matched σ C w → Outcome.Matched σ C (.value v) (.value w)
  | failure (e : Failure) : Outcome.Matched σ C (.failure e) (.failure e)
  | call {f g : Function} {vs ws : List Value} :
    (Value.function f).Matched σ C (.function g) → List.Forall₂ (Value.Matched σ C) vs ws →
    Outcome.Matched σ C (.call f vs) (.call g ws)

/-- Native implementations write and do the same whatever the places and the unseen bindings of the
functions in the values that they are given. -/
def Host.Impartial (σ : Placement) (C : Expr → Prop) (host : Host) : Prop :=
  ∀ {vs ws : List Value} (name : String), List.Forall₂ (Value.Matched σ C) vs ws →
    (host.native name vs).lines = (host.native name ws).lines ∧
      Outcome.Matched σ C (host.native name vs).outcome (host.native name ws).outcome

theorem Host.bare_impartial (σ : Placement) (C : Expr → Prop) (depth : Nat) :
    (Host.bare depth).Impartial σ C :=
  fun _ _ => ⟨rfl, .value .null⟩

/-- The code is closed : it holds the parts of what it holds, and its constants are matched with
themselves. -/
structure Placement.Covers (σ : Placement) (C : Expr → Prop) : Prop where
  part {e d : Expr} : C e → d ∈ e.parts → C d
  body {e : Expr} {f : Lambda} : C e → e.fn? = some f → C f.body
  constant {id : NodeId} {ty : Ty} {v : Value} : C (.constant id ty v) → v.Matched σ C v

/-- The mappers of filled references run code that is in use, at places that answer to
themselves. -/
def Host.Fills (host : Host) (σ : Placement) (C : Expr → Prop) : Prop :=
  ∀ {id : MapperId} {m : Mapper}, host.filled id = some m →
    (Value.mapper m).Matched σ C (.mapper m)

theorem Placement.covers_same : Placement.same.Covers fun _ => True where
  part _ _ := trivial
  body _ _ := trivial
  constant _ := Value.Indiscernible.refl _

theorem Host.fills_same (host : Host) : host.Fills .same fun _ => True :=
  fun _ => Value.Indiscernible.refl _

/-- The expression stands at places that answer to each other, or makes no function but to project
through it. -/
def Expr.Stands (σ : Placement) (e : Expr) (s s' : Site) : Prop :=
  σ.rel s s' ∨ e.FirstOrder

/-- Functions of one lambda with matched values for what it captures. -/
structure Function.Akin (σ : Placement) (C : Expr → Prop) (f g : Function) : Prop where
  lambda : g.lambda = f.lambda
  code : C f.lambda.body
  captures : f.lambda.CapturesAlike σ C f.env g.env
  stands : f.lambda.body.Stands σ (f.site.child 0) (g.site.child 0)

theorem Value.Matched.akin {σ : Placement} {C : Expr → Prop} {f g : Function}
    (h : (Value.function f).Matched σ C (.function g)) : f.Akin σ C g := by
  obtain ⟨f, env, s, quoted⟩ := f
  obtain ⟨g, env', s', quoted'⟩ := g
  obtain rfl : g = f := by cases h; rfl
  obtain rfl : quoted' = quoted := by cases h; rfl
  have hcaptures := h.captures
  cases h with | function hC _ _ hs => exact ⟨rfl, hC, hcaptures, .inl (σ.child hs 0)⟩

/-- Calls of functions akin on matched values go in step. -/
def Caller.Matches (σ : Placement) (C : Expr → Prop) (call : Caller) : Prop :=
  ∀ {ρ : Pairing} {f g : Function} {vs ws : List Value}, f.Akin σ C g →
    List.Forall₂ (Value.Matched σ C) vs ws →
      ObjectMapping.InStep Together ρ (call f vs) (call g ws) fun _ => Value.Matched σ C

section

variable {σ : Placement} {C : Expr → Prop} {host : Host} {call : Caller} {ρ : Pairing}
  {vs ws : List Value}

namespace Native

theorem givenSequence_matched (context : String) {o o' : Option Value}
    (h : Option.Rel (Value.Matched σ C) o o') :
    Agree (fun p q : SequenceKind × List Value =>
      p.1 = q.1 ∧ List.Forall₂ (Value.Matched σ C) p.2 q.2)
      (givenSequence context o) (givenSequence context o') := by
  cases h with
  | none => exact .error _
  | some h =>
    cases h with
    | sequence h => exact .ok ⟨rfl, h⟩
    | _ => exact .error _

theorem givenFunction_matched (context : String) {o o' : Option Value}
    (h : Option.Rel (Value.Matched σ C) o o') :
    Agree (Function.Akin σ C) (givenFunction context o) (givenFunction context o') := by
  cases h with
  | none => exact .error _
  | some h =>
    cases h with
    | function hC hsome henv hs =>
      exact .ok (Value.Matched.akin (.function hC hsome henv hs))
    | _ => exact .error _

/-- Both runs are given the same mapper. -/
theorem givenMapper_matched (hfills : host.Fills σ C) (context : String) {o o' : Option Value}
    (h : Option.Rel (Value.Matched σ C) o o') :
    Agree (fun m m' => m = m' ∧ (Value.mapper m).Matched σ C (.mapper m))
      (givenMapper host context o) (givenMapper host context o') := by
  cases h with
  | none => exact .error _
  | some h =>
    cases h with
    | mapper hC hs => exact .ok ⟨rfl, .mapper hC hs⟩
    | mapperReference ref =>
      simp only [givenMapper]
      split
      · rename_i m hm
        exact .ok ⟨rfl, hfills hm⟩
      · exact .error _
    | _ => exact .error _

end Native

/-- Runs over matched values, one after the other. -/
theorem InStep.mapM_matched {f g : Value → RunM Value}
    (hfg : ∀ {v w}, v.Matched σ C w →
      InStep Together ρ (f v) (g w) fun _ => Value.Matched σ C)
    (h : List.Forall₂ (Value.Matched σ C) vs ws) :
    InStep Together ρ (vs.mapM f) (ws.mapM g) fun _ => List.Forall₂ (Value.Matched σ C) :=
  .mapM (fun _ h => h) (fun _ _ h => hfg h) h

/-- The prepared expression of a mapper is a function like itself. -/
theorem Mapper.prepared_akin {m : Mapper} (h : (Value.mapper m).Matched σ C (.mapper m)) :
    m.prepared.Akin σ C m.prepared := by
  cases h with | mapper hC hs => exact ⟨rfl, hC, fun _ _ => .none, .inl (σ.child hs 0)⟩

theorem Mapper.mapBy_matched (hcall : call.Matches σ C) {m : Mapper}
    (hm : (Value.mapper m).Matched σ C (.mapper m)) {v w : Value} (h : v.Matched σ C w) :
    InStep Together ρ (m.mapBy call v) (m.mapBy call w) fun _ => Value.Matched σ C := by
  have hdefault (ty : Ty) : (Value.defaultOf ty).Matched σ C (.defaultOf ty) :=
    .of_isPlain (Value.isPlain_defaultOf ty)
  simp only [mapBy, h.equal_eq (hdefault m.input)]
  split
  · exact .pure fun _ => hdefault m.output
  · exact hcall (prepared_akin hm) (.cons h .nil)

/-- A projection through functions akin goes in step. -/
theorem Native.project_matched {kind : SequenceKind} {run run' : Value → RunM Value}
    (hrun : ∀ {ρ : Pairing} {v w : Value}, v.Matched σ C w →
      InStep Together ρ (run v) (run' w) fun _ => Value.Matched σ C)
    {v w : Value} (h : v.Matched σ C w) :
    InStep Together ρ (project kind run v) (project kind run' w)
      fun _ => Value.Matched σ C := by
  refine .bind (inStep_ofExcept fun _ => givenSequence_matched _ (.some h)) fun _ hgiven => ?_
  refine .bind (.mapM_matched hrun hgiven.2) fun _ hall => ?_
  exact .pure fun _ => .sequence hall

theorem Native.run_matched (hhost : host.Impartial σ C) (hfills : host.Fills σ C)
    (hcall : call.Matches σ C) (native : Native) (h : List.Forall₂ (Value.Matched σ C) vs ws) :
    InStep Together ρ (native.run host call vs) (native.run host call ws)
      fun _ => Value.Matched σ C := by
  have hargs (i : Nat) : Option.Rel (Value.Matched σ C) vs[i]? ws[i]? :=
    getElem?_rel_of_forall₂ h i
  have hhead : Option.Rel (Value.Matched σ C) vs.head? ws.head? := by
    simpa only [List.head?_eq_getElem?] using hargs 0
  have hitem {o o' : Option Value} (h : Option.Rel (Value.Matched σ C) o o') :
      (o.getD .null).Matched σ C (o'.getD .null) := by
    cases h with
    | none => exact .null
    | some h => exact h
  cases native with
  | select kind =>
    refine .bind (inStep_ofExcept fun _ => givenSequence_matched _ hhead) fun _ hgiven => ?_
    refine .bind (inStep_ofExcept fun _ => givenFunction_matched _ (hargs 1)) fun _ hfg => ?_
    refine .bind (.mapM_matched (fun hv => hcall hfg (.cons hv .nil)) hgiven.2) fun _ hall => ?_
    exact .pure fun _ => .sequence hall
  | convert kind =>
    refine .bind (inStep_ofExcept fun _ => givenSequence_matched _ hhead) fun _ hgiven => ?_
    exact .pure fun _ => .sequence hgiven.2
  | toUpper =>
    simp only [run]
    generalize vs.head? = o, ws.head? = o' at hhead
    cases hhead with
    | none => exact inStep_fail _
    | some h =>
      cases h with
      | string s => exact .pure fun _ => .string _
      | _ => exact inStep_fail _
  | mapWith =>
    refine .bind (inStep_ofExcept fun _ => givenMapper_matched hfills _ (hargs 1))
      fun {_ m m'} _ hm => ?_
    obtain ⟨rfl, hm⟩ := hm
    exact Mapper.mapBy_matched hcall hm (hitem hhead)
  | mapAllWith =>
    refine .bind (inStep_ofExcept fun _ => givenMapper_matched hfills _ (hargs 1))
      fun {_ m m'} _ hm => ?_
    obtain ⟨rfl, hm⟩ := hm
    refine .bind (inStep_ofExcept fun _ => givenSequence_matched _ hhead) fun {_ p q} _ hgiven => ?_
    obtain ⟨kind, items⟩ := p
    obtain ⟨kind', items'⟩ := q
    obtain ⟨rfl, hitems⟩ := hgiven
    refine .bind (.mapM_matched (fun hv => Mapper.mapBy_matched hcall hm hv) hitems)
      fun _ hall => ?_
    exact .pure fun _ => .sequence hall
  | map =>
    refine .bind (inStep_ofExcept fun _ => givenMapper_matched hfills _ hhead)
      fun {_ m m'} _ hm => ?_
    obtain ⟨rfl, hm⟩ := hm
    exact Mapper.mapBy_matched hcall hm (hitem (hargs 1))
  | custom name =>
    obtain ⟨hlines, hreply⟩ := hhost name h
    simp only [run, hlines]
    refine .bind (Together.notes _) fun _ _ => ?_
    generalize (host.native name vs).outcome = o, (host.native name ws).outcome = o' at hreply
    cases hreply with
    | value hv => exact .pure fun _ => hv
    | failure e => exact inStep_fail e
    | call hfg hvs => exact hcall hfg.akin hvs

theorem Operation.invokeBy_matched (hhost : host.Impartial σ C) (hfills : host.Fills σ C)
    (hcall : call.Matches σ C) (operation : Operation)
    (h : List.Forall₂ (Value.Matched σ C) vs ws) :
    InStep Together ρ (operation.invokeBy host call vs) (operation.invokeBy host call ws)
      fun _ => Value.Matched σ C := by
  unfold invokeBy
  split
  · exact Native.run_matched hhost hfills hcall _ h
  · exact inStep_fail _

/-! ## Expressions -/

/-- Environments that bind the free parameters of an expression to matched values. -/
def Env.MatchedOn (σ : Placement) (C : Expr → Prop) (e : Expr) (env env' : Env) : Prop :=
  ∀ x, e.Free x → Option.Rel (Value.Matched σ C) (env.lookup x.id) (env'.lookup x.id)

/-- The evaluations of an expression, where it stands and with its free parameters bound to matched
values, go in step. -/
def Expr.Matches (σ : Placement) (C : Expr → Prop) (host : Host) (call : Caller) (e : Expr) :
    Prop :=
  ∀ {ρ : Pairing} {env env' : Env} {s s' : Site}, e.Stands σ s s' → env.MatchedOn σ C e env' →
    ObjectMapping.InStep Together ρ (e.evalIn host call env s) (e.evalIn host call env' s')
      fun _ => Value.Matched σ C

section

variable {env env' : Env} {s s' : Site} {e d : Expr}

theorem Env.MatchedOn.part (h : env.MatchedOn σ C e env') (hd : d ∈ e.parts) :
    env.MatchedOn σ C d env' :=
  fun x hx => h x (.part hd hx)

/-- The parts of anything but a call stand like it. -/
theorem Expr.Stands.part (h : e.Stands σ s s')
    (hcall : ∀ {id ty op receiver arguments}, e ≠ .call id ty op receiver arguments)
    (hd : d ∈ e.parts) (i : Nat) : d.Stands σ (s.child i) (s'.child i) := by
  rcases h with hs | hfirst
  · exact .inl (σ.child hs i)
  · cases hfirst with
    | node _ hparts => exact .inr (hparts d hd)
    | select => exact absurd rfl hcall

theorem Expr.evalList_matched {es : List Expr} (h : ∀ e ∈ es, e.Matches σ C host call)
    (hs : σ.rel s s' ∨ ∀ e ∈ es, e.FirstOrder) (henv : ∀ e ∈ es, env.MatchedOn σ C e env') :
    ObjectMapping.InStep Together ρ (evalList host call env s es) (evalList host call env' s' es)
      fun _ => List.Forall₂ (Value.Matched σ C) := by
  induction es generalizing ρ s s' with
  | nil => exact .pure fun _ => .nil
  | cons e es ih =>
    have hhead : e.Stands σ (s.child 0) (s'.child 0) :=
      hs.imp (σ.child · 0) fun hfirst => hfirst e (by simp)
    have htail : σ.rel (s.child 1) (s'.child 1) ∨ ∀ e ∈ es, e.FirstOrder :=
      hs.imp (σ.child · 1) fun hfirst d hd => hfirst d (by simp [hd])
    refine .bind (h e (by simp) hhead (henv e (by simp))) fun _ hv => ?_
    refine .bind (ih (fun d hd => h d (by simp [hd])) htail fun d hd =>
      henv d (by simp [hd])) fun _ hvs => ?_
    exact .pure fun _ => .cons hv hvs

theorem Expr.evalOption_matched {o : Option Expr} (h : ∀ e ∈ o, e.Matches σ C host call)
    (hs : σ.rel s s' ∨ ∀ e ∈ o, e.FirstOrder) (henv : ∀ e ∈ o, env.MatchedOn σ C e env') :
    ObjectMapping.InStep Together ρ (evalOption host call env s o) (evalOption host call env' s' o)
      fun _ => List.Forall₂ (Value.Matched σ C) := by
  cases o with
  | none => exact .pure fun _ => .nil
  | some e =>
    exact .bind (h e rfl (hs.imp_right fun hfirst => hfirst e rfl) (henv e rfl))
      fun _ hv => .pure fun _ => .cons hv .nil

theorem Assignment.evalList_matched {as : List Assignment}
    (h : ∀ a ∈ as, a.value.Matches σ C host call)
    (hs : σ.rel s s' ∨ ∀ a ∈ as, a.value.FirstOrder)
    (henv : ∀ a ∈ as, env.MatchedOn σ C a.value env') {fs gs : List Field}
    (hfs : List.Forall₂ (Field.Like (Value.Matched σ C)) fs gs) :
    InStep Together ρ (evalList host call env s fs as) (evalList host call env' s' gs as)
      fun _ => List.Forall₂ (Field.Like (Value.Matched σ C)) := by
  induction as generalizing ρ s s' fs gs with
  | nil => exact .pure fun _ => hfs
  | cons a as ih =>
    obtain ⟨m, e⟩ := a
    have hhead : e.Stands σ (s.child 0) (s'.child 0) :=
      hs.imp (σ.child · 0) fun hfirst => hfirst ⟨m, e⟩ (by simp)
    refine .bind (h ⟨m, e⟩ (by simp) hhead (henv ⟨m, e⟩ (by simp))) fun _ hv => ?_
    exact ih (fun b hb => h b (by simp [hb]))
      (hs.imp (σ.child · 1) fun hfirst b hb => hfirst b (by simp [hb]))
      (fun b hb => henv b (by simp [hb])) (Field.Like.set hfs _ hv)

/-- The truth value that is needed of matched values is the same. -/
theorem InStep.truth_matched {v w : Value} (h : v.Matched σ C w) (context : String) :
    InStep Together ρ (RunM.ofExcept (v.truth context)) (RunM.ofExcept (w.truth context))
      fun _ a b => a = b := by
  rw [Value.Like.truth_eq Value.Matched.like h]
  refine inStep_ofExcept fun _ => ?_
  cases w.truth context with
  | ok => exact .ok rfl
  | error => exact .error _

section

variable {id : NodeId} {ty : Ty} (hpart : ∀ d ∈ e.parts, d.Matches σ C host call)

include hpart

/-- The evaluations of a part of anything but a call go in step. -/
theorem Expr.Matches.part (hcall : ∀ {id ty op receiver arguments},
      e ≠ .call id ty op receiver arguments)
    (hs : e.Stands σ s s') (henv : env.MatchedOn σ C e env') (hd : d ∈ e.parts) (i : Nat) :
    ObjectMapping.InStep Together ρ (d.evalIn host call env (s.child i))
      (d.evalIn host call env' (s'.child i)) fun _ => Value.Matched σ C :=
  hpart d hd (hs.part hcall hd i) (henv.part hd)

/-- The second operand is evaluated on both sides or on none. -/
theorem Expr.Matches.of_binary {op : BinaryOp} {a b : Expr} (he : e = .binary id ty op a b) :
    e.Matches σ C host call := by
  subst he
  intro ρ env env' s s' hs henv
  have operand {ρ : Pairing} {d : Expr} (hd : d ∈ [a, b]) (i : Nat) :
      ObjectMapping.InStep Together ρ (d.evalIn host call env (s.child i))
        (d.evalIn host call env' (s'.child i)) fun _ => Value.Matched σ C :=
    Matches.part hpart (by simp) hs henv hd i
  refine .bind (operand (by simp) 0) fun _ hv => ?_
  cases op with
  | and =>
    refine .bind (.truth_matched hv _) fun _ hab => ?_
    subst hab
    exact .ite Iff.rfl (fun _ => operand (by simp) 1) fun _ => .pure fun _ => .bool _
  | or =>
    refine .bind (.truth_matched hv _) fun _ hab => ?_
    subst hab
    exact .ite Iff.rfl (fun _ => .pure fun _ => .bool _) fun _ => operand (by simp) 1
  | _ =>
    refine .bind (operand (by simp) 1) fun _ hw => ?_
    exact inStep_ofExcept fun _ => BinaryOp.apply_matched _ hv hw

/-- The same branch is taken on both sides. -/
theorem Expr.Matches.of_conditional {a b c : Expr} (he : e = .conditional id ty a b c) :
    e.Matches σ C host call := by
  subst he
  intro ρ env env' s s' hs henv
  have part {ρ : Pairing} {d : Expr} (hd : d ∈ [a, b, c]) (i : Nat) :
      ObjectMapping.InStep Together ρ (d.evalIn host call env (s.child i))
        (d.evalIn host call env' (s'.child i)) fun _ => Value.Matched σ C :=
    Matches.part hpart (by simp) hs henv hd i
  refine .bind (part (by simp) 0) fun _ hv => .bind (.truth_matched hv _) fun _ hab => ?_
  subst hab
  exact .ite Iff.rfl (fun _ => part (by simp) 1) fun _ => part (by simp) 2

/-- A call goes in step, at places that answer to each other or if its parts make no function. -/
theorem Expr.Matches.call_of_parts (hhost : host.Impartial σ C) (hfills : host.Fills σ C)
    (hcall : call.Matches σ C) {op : Operation} {receiver : Option Expr} {arguments : List Expr}
    (he : e = .call id ty op receiver arguments)
    (hs : σ.rel s s' ∨ ∀ d ∈ e.parts, d.FirstOrder) (henv : env.MatchedOn σ C e env') :
    ObjectMapping.InStep Together ρ (e.evalIn host call env s) (e.evalIn host call env' s')
      fun _ => Value.Matched σ C := by
  subst he
  have hr (d : Expr) (hd : d ∈ receiver) :
      d ∈ (Expr.call id ty op receiver arguments).parts := by simp_all [parts]
  have ha (d : Expr) (hd : d ∈ arguments) :
      d ∈ (Expr.call id ty op receiver arguments).parts := by simp_all [parts]
  refine .bind (evalOption_matched (fun d hd => hpart d (hr d hd))
    (hs.imp (σ.child · 0) fun h d hd => h d (hr d hd)) fun d hd => henv.part (hr d hd))
    fun _ hvs => ?_
  refine .bind (evalList_matched (fun d hd => hpart d (ha d hd))
    (hs.imp (σ.child · 1) fun h d hd => h d (ha d hd)) fun d hd => henv.part (ha d hd))
    fun _ hws => ?_
  exact Operation.invokeBy_matched hhost hfills hcall op (List.rel_append hvs hws)

/-- A call stands at any places that projects through a function which makes none. -/
theorem Expr.Matches.of_call (hhost : host.Impartial σ C) (hfills : host.Fills σ C)
    (hσ : σ.Covers C) (hcall : call.Matches σ C) (hC : C e) {op : Operation}
    {receiver : Option Expr} {arguments : List Expr} (he : e = .call id ty op receiver arguments) :
    e.Matches σ C host call := by
  intro ρ env env' s s' hs henv
  rcases hs with hs | hfirst
  · exact call_of_parts hpart hhost hfills hcall he (.inl hs) henv
  cases hfirst with
  | node _ hparts => exact call_of_parts hpart hhost hfills hcall he (.inr hparts) henv
  | @select _ _ _ source projection f hop hsource hf hbody =>
    -- the function is not seen by anything but the projection, which calls it
    have hprojection : projection ∈ [source, projection] := by simp
    obtain ⟨quoted, hvalue⟩ := evalIn_select _ _ source hop hf
    rw [hvalue, hvalue]
    refine .bind (hpart source (by simp [parts]) (.inr hsource)
      (henv.part (by simp [parts]))) fun _ hv => ?_
    refine Native.project_matched (fun hw => hcall ?_ (.cons hw .nil)) hv
    exact ⟨rfl, hσ.body (hσ.part hC hprojection) hf,
      fun x hx => henv.part hprojection x (.body hf hx.1 hx.2), .inr hbody⟩

/-- The fields are set in the same order on both sides, and both objects have the same identity. -/
theorem Expr.Matches.of_construct {as bs : List Assignment} (he : e = .construct id ty as bs) :
    e.Matches σ C host call := by
  subst he
  intro ρ env env' s s' hs henv
  have ha (a : Assignment) (ha : a ∈ as) : a.value ∈ (Expr.construct id ty as bs).parts :=
    List.mem_append_left _ (List.mem_map_of_mem ha)
  have hb (b : Assignment) (hb : b ∈ bs) : b.value ∈ (Expr.construct id ty as bs).parts :=
    List.mem_append_right _ (List.mem_map_of_mem hb)
  have hfirst : σ.rel s s' ∨ ∀ d ∈ (Expr.construct id ty as bs).parts, d.FirstOrder :=
    hs.imp_right fun hfirst => by cases hfirst with | node _ hparts => exact hparts
  refine .bind (Assignment.evalList_matched (fun a h => hpart _ (ha a h))
    (hfirst.imp (σ.child · 0) fun h a hmem => h _ (ha a hmem)) (fun a h => henv.part (ha a h))
    .nil) fun _ hfs => ?_
  refine .bind (Assignment.evalList_matched (fun b h => hpart _ (hb b h))
    (hfirst.imp (σ.child · 1) fun h b hmem => h _ (hb b hmem)) (fun b h => henv.part (hb b h))
    hfs) fun _ hgs => ?_
  refine .bind Together.fresh fun _ hid => ?_
  subst hid
  exact .pure fun _ => .object _ hgs

end

/-- The evaluations of an expression go in step. -/
theorem Expr.evalIn_matched (hhost : host.Impartial σ C) (hfills : host.Fills σ C) (hσ : σ.Covers C)
    (hcall : call.Matches σ C) {e : Expr} (he : C e) : e.Matches σ C host call := by
  induction e using Expr.byPart with
  | h e ihpart _ =>
    have hpart (d : Expr) (hd : d ∈ e.parts) : d.Matches σ C host call :=
      ihpart d hd (hσ.part he hd)
    intro ρ env env' s s' hs henv
    cases e with
    | param p =>
      have hlookup := henv p .here
      simp only [evalIn]
      generalize env.lookup p.id = o, env'.lookup p.id = o' at hlookup
      cases hlookup with
      | none => exact inStep_fail _
      | some h => exact .pure fun _ => h
    | constant id ty v => exact .pure fun _ => hσ.constant he
    | default id ty => exact .pure fun _ => .of_isPlain (Value.isPlain_defaultOf ty)
    | member id o m =>
      refine .bind (Matches.part hpart (by simp) hs henv (by simp [parts]) 0) fun _ hv => ?_
      exact inStep_ofExcept fun _ => Value.Like.field Value.Matched.like hv _
    | unary id ty op a =>
      refine .bind (Matches.part hpart (by simp) hs henv (by simp [parts]) 0) fun _ hv => ?_
      exact inStep_ofExcept fun _ => UnaryOp.apply_matched op hv
    | binary => exact Matches.of_binary hpart rfl hs henv
    | conditional => exact Matches.of_conditional hpart rfl hs henv
    | call => exact Matches.of_call hpart hhost hfills hσ hcall he rfl hs henv
    | lambda id f | quote id f =>
      rcases hs with hs | hfirst
      · exact .pure fun _ => .of_captures (hσ.body he rfl)
          (fun x hx => henv x (.body rfl hx.1 hx.2)) hs
      · cases hfirst with | node hfn _ => cases hfn
    | construct => exact Matches.of_construct hpart rfl hs henv
    | previous => exact inStep_fail _

end

/-! ## Calls -/

theorem Env.lookup_push (b : Binding) (frame : List Binding) (env : Env) (i : NodeId) :
    Env.lookup i ((b :: frame) :: env) =
      if b.param = i then some b.value else Env.lookup i (frame :: env) := by
  by_cases h : b.param = i <;> simp [Env.lookup, List.findSome?_cons, h]

/-- The arguments of a call hide what was bound around it. -/
theorem Binding.lookup_ofArgs_rel {R : Value → Value → Prop} {params : List Param} {env env' : Env}
    {i : NodeId} (h : List.Forall₂ R vs ws) (hlen : vs.length = params.length)
    (houter : (∀ y ∈ params, y.id ≠ i) → Option.Rel R (env.lookup i) (env'.lookup i)) :
    Option.Rel R (Env.lookup i (ofArgs params vs :: env))
      (Env.lookup i (ofArgs params ws :: env')) := by
  induction params generalizing vs ws with
  | nil => exact houter (by simp)
  | cons y params ih =>
    cases h with
    | nil => cases hlen
    | @cons v w vs ws hvw hvs =>
      simp only [ofArgs, List.zipWith_cons_cons, Env.lookup_push]
      split
      · exact .some hvw
      · rename_i hne
        exact ih hvs (Nat.succ.inj hlen) fun hnone => houter (List.forall_mem_cons.2 ⟨hne, hnone⟩)

/-- Calls of functions akin on matched values go in step, however deeply calls may be nested. -/
theorem Function.callWithin_matches (hhost : host.Impartial σ C) (hfills : host.Fills σ C)
    (hσ : σ.Covers C) (d : Nat) : Caller.Matches σ C (callWithin host d) := by
  induction d with
  | zero => exact fun _ _ => .throw fun _ => .same _
  | succ d ih =>
    intro ρ f g vs ws hfg hvs
    simp only [callWithin, hfg.lambda, ← hvs.length_eq]
    refine .ite Iff.rfl (fun _ => inStep_fail _) fun hlen => ?_
    refine Expr.evalIn_matched hhost hfills hσ ih hfg.code hfg.stands fun x hx => ?_
    exact Binding.lookup_ofArgs_rel hvs (not_not.1 hlen) fun hne => hfg.captures x ⟨hne, hx⟩

theorem Function.call_matched (hhost : host.Impartial σ C) (hfills : host.Fills σ C)
    (hσ : σ.Covers C) {f g : Function} (hfg : f.Akin σ C g)
    (h : List.Forall₂ (Value.Matched σ C) vs ws) :
    InStep Together ρ (f.call host vs) (g.call host ws) fun _ => Value.Matched σ C :=
  callWithin_matches hhost hfills hσ host.depth hfg h

end

end ObjectMapping
