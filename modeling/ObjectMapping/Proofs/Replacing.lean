import ObjectMapping.Proofs.Remaking
import ObjectMapping.Proofs.Upholding

/-!
# What substitution and inlining make

`Judgement.replacing` says what a list of replacements does to a tree in which no new node holds an
old one : an old node gives way to its new node, and all else is entered. `Expr.substitute_becomes`
and `Lambda.substitute_becomes` are the statements for expressions and lambdas.

The three ways in which a lambda is inlined over a source come to the same
(`Lambda.inline_becomes`) : the parameter gives way to the source throughout the body, also when the
source mentions it and the lambda is given a new parameter first. That is one replacement after the
other, and `Expr.Becomes.comp` says what two visits in a row make.
-/

set_option linter.unusedSectionVars false

namespace ObjectMapping

open RunM

/-! ## Trees without certain nodes -/

namespace Expr

variable {hit : Expr → Bool}

theorem orBelow_eq_nil_iff {e : Expr} {below : List Expr} :
    e.orBelow hit below = [] ↔ hit e = false ∧ below = [] := by
  unfold orBelow
  split <;> simp_all

theorem outermost_eq_nil_iff {e : Expr} :
    e.outermost hit = [] ↔ hit e = false ∧ e.outermostBelow hit = [] :=
  orBelow_eq_nil_iff

theorem outermostList_eq_nil_iff {es : List Expr} :
    outermostList hit es = [] ↔ ∀ e ∈ es, e.outermost hit = [] := by
  induction es with
  | nil => simp [outermostList]
  | cons e es ih => simp [outermostList, ih, outermost]

theorem outermostOption_eq_nil_iff {o : Option Expr} :
    outermostOption hit o = [] ↔ ∀ e ∈ o, e.outermost hit = [] := by
  cases o <;> simp [outermostOption, outermost]

end Expr

theorem Assignment.outermostList_eq_nil_iff {hit : Expr → Bool} {as : List Assignment} :
    Assignment.outermostList hit as = [] ↔ ∀ a ∈ as, a.value.outermost hit = [] := by
  induction as with
  | nil => simp [Assignment.outermostList]
  | cons a as ih =>
    obtain ⟨m, e⟩ := a
    simp [Assignment.outermostList, ih, Expr.outermost]

theorem Lambda.outermost_eq_nil_iff {hit : Expr → Bool} {f : Lambda} :
    f.outermost hit = [] ↔
      (∀ p ∈ f.params, hit (.param p) = false) ∧ f.body.outermost hit = [] := by
  obtain ⟨i, ps, b⟩ := f
  simp [Lambda.outermost, Expr.outermost]

/-- A tree has no certain nodes below its root if its parts and its lambda have none. -/
theorem Expr.outermostBelow_eq_nil_iff {hit : Expr → Bool} {e : Expr} :
    e.outermostBelow hit = [] ↔
      (∀ d ∈ e.parts, d.outermost hit = []) ∧ ∀ f, e.fn? = some f → f.outermost hit = [] := by
  cases e with
  | param | constant | default => simp [outermostBelow, parts, fn?]
  | member | unary | binary | conditional =>
    simp [outermostBelow, parts, fn?, outermost]
  | call id ty op receiver arguments =>
    simp [outermostBelow, parts, fn?, outermostOption_eq_nil_iff, outermostList_eq_nil_iff, or_imp,
      forall_and]
  | lambda | quote => simp [outermostBelow, parts, fn?]
  | construct id ty as bs =>
    simp [outermostBelow, parts, fn?, Assignment.outermostList_eq_nil_iff, or_imp, forall_and]
  | previous id ty fallback => simp [outermostBelow, parts, fn?, outermostOption_eq_nil_iff]

/-- A tree without certain nodes has parts without them. -/
theorem Expr.outermost_part {hit : Expr → Bool} {e d : Expr} (h : e.outermost hit = [])
    (hd : d ∈ e.parts) : d.outermost hit = [] :=
  (outermostBelow_eq_nil_iff.1 (outermost_eq_nil_iff.1 h).2).1 d hd

/-- A tree without certain nodes holds a lambda without them, parameters included. -/
theorem Expr.outermost_fn {hit : Expr → Bool} {e : Expr} {f : Lambda} (h : e.outermost hit = [])
    (hf : e.fn? = some f) :
    (∀ p ∈ f.params, (Expr.param p).outermost hit = []) ∧ f.body.outermost hit = [] := by
  have hfn := (outermostBelow_eq_nil_iff.1 (outermost_eq_nil_iff.1 h).2).2 f hf
  obtain ⟨hps, hb⟩ := Lambda.outermost_eq_nil_iff.1 hfn
  exact ⟨fun p hp => outermost_eq_nil_iff.2 ⟨hps p hp, rfl⟩, hb⟩

theorem Expr.occursIn_eq_false_iff {node tree : Expr} :
    node.occursIn tree = false ↔ tree.outermost node.same = [] := by
  simp [Expr.occursIn]

/-! ## Visits that change nothing -/

section

variable {σ : Type} {I : σ → Prop} [MonadLiftT RunM (Steps σ)] [CarriesTrail σ]
  {v : Visitor (Steps σ)} {hit : Expr → Bool}

theorem Expr.same_refl (e : Expr) : e.same e = true := by
  simp [Expr.same]

theorem Expr.sameAll_refl (es : List Expr) : Expr.sameAll es es = true := by
  induction es with
  | nil => rfl
  | cons e es ih => simpa [Expr.sameAll, Expr.same_refl] using ih

/-- A visitor that enters every node without the property leaves a tree without such nodes as it
is. -/
theorem Visitor.apply_yields_of_walk (hv : ∀ e, hit e = false → Yields I (v.judge e) .enter)
    {e : Expr} (hwalk : e.outermostBelow hit = [] → Yields I (e.walk v) e)
    (h : e.outermost hit = []) : Yields I (v.apply e) e := by
  rw [Expr.outermost_eq_nil_iff] at h
  exact (hv e h.1).bind (hwalk h.2)

omit [CarriesTrail σ] in
theorem Visitor.walkList_yields {es ds : List Expr}
    (h : List.Forall₂ (fun e d => Yields I (v.apply e) d) es ds) :
    Yields I (Expr.walkList v es) ds := by
  induction h with
  | nil => exact .pure
  | cons h _ ih => exact h.bind (ih.bind .pure)

theorem outcome_requireParams_self (ps : List Param) (t : Trail) :
    outcome (Param.requireParams ps (ps.map .param)) t = (.ok (), t) := by
  induction ps with
  | nil => rfl
  | cons p ps ih => simpa [Param.requireParams, Expr.param?] using ih

theorem Visitor.walkFn_yields (hv : ∀ e, hit e = false → Yields I (v.judge e) .enter) {f : Lambda}
    (hbody : Yields I (v.apply f.body) f.body) (h : ∀ p ∈ f.params, hit (.param p) = false) :
    Yields I (f.walk v) f := by
  have hparams : Yields I (Expr.walkList v (f.params.map .param)) (f.params.map .param) :=
    walkList_yields
      (List.forall₂_same.2 (List.forall_mem_map.2 fun p hp => (hv _ (h p hp)).bind .pure))
  have hrequire :
      Yields I (liftM (Param.requireParams f.params (f.params.map .param)) : Steps σ Unit) () := by
    intro s hs
    rw [CarriesTrail.outcome_lift_of_ok (outcome_requireParams_self _ (CarriesTrail.trail s))]
    exact ⟨hs, rfl⟩
  rw [Lambda.walk_eq, Lambda.paramExprs]
  refine hparams.bind (hrequire.bind (hbody.bind ?_))
  simpa [Expr.sameAll_refl, Expr.same_refl] using Yields.pure

/-- A visitor that enters every node without the property leaves a tree that has no such nodes below
its root as it is. -/
theorem Visitor.walk_yields (hv : ∀ e, hit e = false → Yields I (v.judge e) .enter) {e : Expr}
    (h : e.outermostBelow hit = []) : Yields I (e.walk v) e := by
  induction e using Expr.byPart with
  | h e ihpart ihfn =>
    obtain ⟨hparts, hfn⟩ := Expr.outermostBelow_eq_nil_iff.1 h
    cases hf : e.fn? with
    | none =>
      have hpart (d : Expr) (hd : d ∈ e.parts) : Yields I (v.apply d) d :=
        apply_yields_of_walk hv (ihpart d hd) (hparts d hd)
      rw [Expr.walk_of_parts hf]
      refine (walkList_yields (List.forall₂_same.2 hpart)).bind ?_
      simpa [Expr.keepOrRemake, Expr.sameAll_refl] using Yields.pure
    | some f =>
      obtain ⟨hps, hb⟩ := Lambda.outermost_eq_nil_iff.1 (hfn f hf)
      rw [Expr.walk_of_fn hf]
      refine (walkFn_yields hv (apply_yields_of_walk hv (ihfn f hf) hb) hps).bind ?_
      simpa [Expr.keepOrRemake, Lambda.same] using Yields.pure

/-- A visitor that enters every node without the property, and leaves the state alone there, leaves
a tree without such nodes below its root, and the state, as they are. -/
theorem outcome_walk_of_unhit
    (hv : ∀ e s, hit e = false → outcome (v.judge e) s = (.ok .enter, s)) {e : Expr}
    (h : e.outermostBelow hit = []) (s : σ) : outcome (e.walk v) s = (.ok e, s) := by
  have hyields : Yields (· = s) (e.walk v) e := Visitor.walk_yields
    (fun d hd s' hs' => by rw [hv d s' hd]; exact ⟨hs', rfl⟩) h
  obtain ⟨hs, he⟩ := hyields s rfl
  exact Prod.ext he hs

end

/-! ## Substitution -/

/-- An old node gives way to its new node, and every other node is entered. -/
def Judgement.replacing (rs : List Replacement) : Judgement where
  enters e := ∀ r ∈ rs, e ≠ r.old
  puts e e' := ∃ r ∈ rs, e = r.old ∧ e' = r.new
  stands _ := False

namespace Replacement

variable {rs : List Replacement} {t t' : Trail}

theorem outcome_check {u : Unit} (h : outcome (check rs) t = (.ok u, t')) : t' = t := by
  unfold check at h
  cases hself : rs.find? fun r => r.old.same r.new with
  | some r => simp [hself, outcome_bind_of_error (outcome_reject _ t)] at h
  | none =>
    cases hcyclic : (cyclic? rs).bind (rs[·]?) with
    | some r => simp [hself, hcyclic] at h
    | none =>
      simp only [hself, hcyclic] at h
      exact (outcome_pure_ok.1 h).2.symm

/-- No new node holds an old one. -/
def Flat (rs : List Replacement) : Prop :=
  ∀ r ∈ rs, r.new.outermostBelow (isOld rs) = []

theorem isOld_eq_false_iff {e : Expr} : isOld rs e = false ↔ ∀ r ∈ rs, r.old.same e = false := by
  simp [isOld]

theorem find?_eq_none_iff {e : Expr} : find? rs e = none ↔ ∀ r ∈ rs, r.old.same e = false := by
  simp [find?]

theorem exists_of_find? {e new : Expr} (h : find? rs e = some new) :
    ∃ r ∈ rs, r.old.same e = true ∧ r.new = new := by
  obtain ⟨r, hr, rfl⟩ := Option.map_eq_some_iff.1 h
  exact ⟨r, List.mem_of_find?_eq_some hr, by simpa using List.find?_some hr, rfl⟩

end Replacement

theorem Expr.ne_of_not_same {a b : Expr} (h : a.same b = false) : b ≠ a := by
  rintro rfl
  simp [Expr.same_refl] at h

theorem Visitor.judge_replacing_of_not_old {rs : List Replacement} {e : Expr}
    (h : Replacement.isOld rs e = false) (d : Nat) (t : Trail) :
    outcome ((Visitor.replacing rs d).judge e) t = (.ok .enter, t) := by
  cases d with
  | zero => simp [Visitor.replacing, h]
  | succ d =>
    rw [Replacement.isOld_eq_false_iff, ← Replacement.find?_eq_none_iff] at h
    simp [Visitor.replacing, h]

/-- Replacing nodes puts the new nodes in the places of the old ones, if no new node holds an old
one. -/
theorem Visitor.replacing_follows {rs : List Replacement} (hflat : Replacement.Flat rs)
    {F₀ : Forest} (hold : ∀ r ∈ rs, F₀.nodes r.old) (hnew : ∀ r ∈ rs, F₀.nodes r.new) {d : Nat}
    (hd : d = 0 → rs = []) :
    (Visitor.replacing rs d).Follows (fun _ => True) F₀ F₀ (Judgement.replacing rs) where
  le := F₀.le_refl
  keeps _ _ := trivial
  judge {F e verdict t t'} hF₀ he hF _ hrun := by
    cases hfind : Replacement.find? rs e with
    | none =>
      have hnot := Replacement.find?_eq_none_iff.1 hfind
      rw [judge_replacing_of_not_old (Replacement.isOld_eq_false_iff.2 hnot)] at hrun
      obtain ⟨rfl, rfl⟩ := outcome_pure_ok.1 hrun
      exact .intro trivial hF fun r hr => Expr.ne_of_not_same (hnot r hr)
    | some new =>
      obtain ⟨r, hr, hsame, rfl⟩ := Replacement.exists_of_find? hfind
      cases d with
      | zero => simp [hd rfl] at hr
      | succ d =>
        simp only [Visitor.replacing, hfind] at hrun
        rw [outcome_bind_of_ok (outcome_walk_of_unhit
          (fun e t h => judge_replacing_of_not_old h d t) (hflat r hr) t)] at hrun
        obtain ⟨rfl, rfl⟩ := outcome_pure_ok.1 hrun
        have heq : r.old = e := F₀.eq_of_same (hold r hr) he hsame
        exact .intro trivial hF ⟨hF₀.1 _ (hnew r hr), r, hr, heq.symm, rfl⟩

section

variable {rs : List Replacement} {F : Forest} {t t' : Trail}

/-- What a substitution makes of an expression. -/
theorem Expr.substitute_becomes (hflat : Replacement.Flat rs) (hold : ∀ r ∈ rs, F.nodes r.old)
    (hnew : ∀ r ∈ rs, F.nodes r.new) {e e' : Expr} (he : F.nodes e) (hF : F.Below t.next)
    (h : outcome (e.substitute rs) t = (.ok e', t')) :
    ∃ G, F ≤ G ∧ G.Below t'.next ∧ G.nodes e' ∧ e.Becomes (.replacing rs) e' := by
  obtain ⟨u, t₁, hcheck, happly⟩ := outcome_bind_ok.1 h
  obtain rfl := Replacement.outcome_check hcheck
  exact ((Visitor.replacing_follows hflat hold hnew List.eq_nil_of_length_eq_zero).apply
    F.le_refl he hF trivial happly).2

/-- What a substitution makes of a lambda. -/
theorem Lambda.substitute_becomes (hflat : Replacement.Flat rs) (hold : ∀ r ∈ rs, F.nodes r.old)
    (hnew : ∀ r ∈ rs, F.nodes r.new) {f f' : Lambda} (hf : F.fns f) (hF : F.Below t.next)
    (h : outcome (f.substitute rs) t = (.ok f', t')) :
    ∃ G, F ≤ G ∧ G.Below t'.next ∧ G.fns f' ∧ f.Becomes (.replacing rs) f' := by
  obtain ⟨u, t₁, hcheck, hwalk⟩ := outcome_bind_ok.1 h
  obtain rfl := Replacement.outcome_check hcheck
  exact ((Visitor.replacing_follows hflat hold hnew List.eq_nil_of_length_eq_zero).walkFn
    F.le_refl hf hF trivial hwalk).2

end

/-! ## One replacement after the other -/

/-- A node that is rebuilt twice is rebuilt once, over what becomes of its parts and its lambda. -/
theorem Expr.Rebuilt.comp {J₁ J₂ J : Judgement} {e e₁ e₂ : Expr}
    (hpart : ∀ d ∈ e.parts, ∀ d₁ d₂, d.Becomes J₁ d₁ → d₁.Becomes J₂ d₂ → d.Becomes J d₂)
    (hparam : ∀ f, e.fn? = some f → ∀ x ∈ f.params, ∀ y z,
      x.Becomes J₁ y → y.Becomes J₂ z → x.Becomes J z)
    (hbody : ∀ f, e.fn? = some f → ∀ b₁ b₂,
      f.body.Becomes J₁ b₁ → b₁.Becomes J₂ b₂ → f.body.Becomes J b₂)
    (h₁ : e.Rebuilt J₁ e₁) (h₂ : e₁.Rebuilt J₂ e₂) : e.Rebuilt J e₂ := by
  cases hf : e.fn? with
  | none =>
    have hmade := h₁.madeOver hf
    refine (hmade.trans (h₂.madeOver hmade.fn?_eq)).rebuilt ?_
    exact forall₂_comp_of_mem hpart h₁.parts_becomes h₂.parts_becomes
  | some f =>
    obtain ⟨i, f₁, hf₁, rfl⟩ := h₁.withFn hf
    obtain ⟨j, f₂, hf₂, rfl⟩ := h₂.withFn (fn?_withFn hf)
    rw [withFn_withFn hf]
    refine rebuilt_withFn hf ⟨?_, hbody f hf _ _ hf₁.body hf₂.body⟩
    exact forall₂_comp_of_mem (hparam f hf) hf₁.params hf₂.params

/-- Two visits, one after the other, make what one visit makes whose judgement answers for both. It
has to answer for them on trees without the nodes that have the property `hit` alone. -/
theorem Expr.Becomes.comp {J₁ J₂ J : Judgement} {hit : Expr → Bool}
    (hput : ∀ {e e₁ e₂}, J₁.puts e e₁ → e₁.Becomes J₂ e₂ → J.puts e e₂)
    (hstand : ∀ {e}, hit e = false → J₁.stands e → J.stands e ∧ e.standIn?.isSome)
    (henter : ∀ {e e₁ e₂}, hit e = false → J₁.enters e → e.Rebuilt J₁ e₁ → e₁.Becomes J₂ e₂ →
      J.puts e e₂ ∨ J.enters e ∧ e₁.Rebuilt J₂ e₂)
    {e e₁ e₂ : Expr} (hhit : e.outermost hit = []) (h₁ : e.Becomes J₁ e₁) (h₂ : e₁.Becomes J₂ e₂) :
    e.Becomes J e₂ := by
  -- it is enough to know what becomes of the parts, and how a rebuilt node is rebuilt
  have step {e e₁ e₂ : Expr} (hhit : hit e = false) (h₁ : e.Becomes J₁ e₁) (h₂ : e₁.Becomes J₂ e₂)
      (hpart : ∀ d ∈ e.parts, d.Becomes J₁ e₁ → d.Becomes J e₂)
      (hrebuilt : e.Rebuilt J₁ e₁ → e₁.Rebuilt J₂ e₂ → e.Rebuilt J e₂) : e.Becomes J e₂ := by
    cases h₁ with
    | put h => exact .put (hput h h₂)
    | enter he hr =>
      rcases henter hhit he hr h₂ with hJ | ⟨hJ, hr₂⟩
      · exact .put hJ
      · exact .enter hJ (hrebuilt hr hr₂)
    | standIn hs hd h => exact .standIn (hstand hhit hs).1 hd (hpart _ (mem_parts_of_standIn? hd) h)
    | stay hs hd =>
      have hsome := (hstand hhit hs).2
      rw [hd] at hsome
      cases hsome
  have param {x y z : Param} (hhit : (Expr.param x).outermost hit = []) (h : x.Becomes J₁ y)
      (h' : y.Becomes J₂ z) : x.Becomes J z := by
    rw [Param.becomes_iff] at h h' ⊢
    refine step (outermost_eq_nil_iff.1 hhit).1 h h' (by simp [parts]) fun hr hr₂ => ?_
    cases hr
    cases hr₂
    exact .param x
  induction e using Expr.byPart generalizing e₁ e₂ with
  | h e ihpart ihfn =>
    have part {d : Expr} (hd : d ∈ e.parts) {d₁ d₂ : Expr} (h : d.Becomes J₁ d₁)
        (h' : d₁.Becomes J₂ d₂) : d.Becomes J d₂ := ihpart d hd (outermost_part hhit hd) h h'
    refine step (outermost_eq_nil_iff.1 hhit).1 h₁ h₂ (fun d hd h => part hd h h₂) ?_
    refine .comp (fun d hd _ _ => part hd) (fun f hf x hx _ _ => ?_) fun f hf _ _ => ?_
    · exact param ((outermost_fn hhit hf).1 x hx)
    · exact ihfn f hf (outermost_fn hhit hf).2

/-- What a judgement makes of a tree, another one does that agrees with it on the nodes of the
tree. -/
theorem Expr.Becomes.imp {J J' : Judgement} {P : Expr → Prop} (hstands : ∀ {e}, P e → ¬ J.stands e)
    (hputs : ∀ {e e'}, P e → J.puts e e' → J'.puts e e')
    (henters : ∀ {e}, P e → J.enters e → J'.enters e) {e e' : Expr} (he : e.All P)
    (h : e.Becomes J e') : e.Becomes J' e' := by
  induction e using Expr.byPart generalizing e' with
  | h e ihpart ihfn =>
    cases h with
    | put h => exact .put (hputs he.head h)
    | standIn h => exact absurd h (hstands he.head)
    | stay h => exact absurd h (hstands he.head)
    | enter h hr =>
      refine .enter (henters he.head h) (.comp (fun d hd d₁ d₂ h₁ h₂ => ?_)
        (fun f hf x hx y z h₁ h₂ => ?_) (fun f hf b₁ b₂ h₁ h₂ => ?_) hr (rebuilt_keeping e'))
      · obtain rfl := becomes_keeping.1 h₂
        exact ihpart d hd (he.part hd) h₁
      · obtain rfl : z = y := Expr.param.inj (becomes_keeping.1 (Param.becomes_iff.1 h₂))
        have hx := ((he.fn hf).param hx).head
        rcases h₁ with h | ⟨h | h, rfl⟩
        · exact .inl (hputs hx h)
        · exact .inr ⟨.inl (henters hx h), rfl⟩
        · exact absurd h (hstands hx)
      · obtain rfl := becomes_keeping.1 h₂
        exact ihfn f hf (he.fn hf).body h₁

/-- A lambda becomes what its parameters and its body become. -/
theorem Lambda.Becomes.imp {J J' : Judgement} {P : Expr → Prop}
    (hstands : ∀ {e}, P e → ¬ J.stands e)
    (hputs : ∀ {e e'}, P e → J.puts e e' → J'.puts e e')
    (henters : ∀ {e}, P e → J.enters e → J'.enters e) {f f' : Lambda} (hf : f.All P)
    (h : f.Becomes J f') : f.Becomes J' f' where
  params := forall₂_imp_of_mem h.params fun _ hp _ hpq => Param.becomes_iff.2
    ((Param.becomes_iff.1 hpq).imp hstands hputs henters (hf.param hp))
  body := h.body.imp hstands hputs henters hf.body

section

variable {p o : Param} {source : Expr}

/-- What one replacement makes of a node. -/
theorem Expr.becomes_replacing_one {old new e e' : Expr} :
    e.Becomes (.replacing [⟨old, new⟩]) e' ↔
      e = old ∧ e' = new ∨ e ≠ old ∧ e.Rebuilt (.replacing [⟨old, new⟩]) e' := by
  constructor
  · intro h
    cases h with
    | put h => exact .inl (by simpa [Judgement.replacing] using h)
    | enter h hr => exact .inr ⟨by simpa [Judgement.replacing] using h, hr⟩
    | standIn h => exact h.elim
    | stay h => exact h.elim
  · rintro (⟨he, he'⟩ | ⟨hne, hr⟩)
    · exact .put (by simp [Judgement.replacing, he, he'])
    · exact .enter (by simpa [Judgement.replacing] using hne) hr

/-- Replacing a parameter by an expression of its type leaves static types alone. -/
theorem Expr.Becomes.ty_eq_of_replacing {e e' : Expr} (hty : p.ty = source.ty)
    (h : e.Becomes (.replacing [⟨.param p, source⟩]) e') : e'.ty = e.ty := by
  refine h.ty_eq (fun _ h => h) fun hputs => ?_
  obtain ⟨rfl, rfl⟩ : _ = Expr.param p ∧ _ = source := by simpa [Judgement.replacing] using hputs
  exact hty.symm

theorem Param.becomes_replacing_one {x y : Param} {new : Expr} :
    x.Becomes (.replacing [⟨.param p, new⟩]) y ↔ x = p ∧ .param y = new ∨ x ≠ p ∧ y = x := by
  simp [Param.Becomes, Judgement.replacing]

/-- A parameter that is given a new node, which the tree does not hold, and then the source has been
given the source. -/
theorem Expr.Becomes.comp_replacing {e e₁ e₂ : Expr} (ho : e.outermost (Expr.param o).same = [])
    (h₁ : e.Becomes (.replacing [⟨.param p, .param o⟩]) e₁)
    (h₂ : e₁.Becomes (.replacing [⟨.param o, source⟩]) e₂) :
    e.Becomes (.replacing [⟨.param p, source⟩]) e₂ := by
  refine comp (fun hput h => ?_) (fun _ => False.elim) (fun hhit henter hr h => .inr ?_) ho h₁ h₂
  · obtain ⟨rfl, rfl⟩ : _ = Expr.param p ∧ _ = Expr.param o := by
      simpa [Judgement.replacing] using hput
    rcases becomes_replacing_one.1 h with ⟨-, rfl⟩ | ⟨hne, -⟩
    · simp [Judgement.replacing]
    · exact absurd rfl hne
  · rcases becomes_replacing_one.1 h with ⟨rfl, -⟩ | ⟨-, hr₂⟩
    · cases hr
      simp [Expr.same_refl] at hhit
    · exact ⟨by simpa [Judgement.replacing] using henter, hr₂⟩

/-! ## Inlining -/

theorem outcome_makeParam {name : String} {ty : Ty} {q : Param} {t t' : Trail}
    (h : outcome (Param.make name ty) t = (.ok q, t')) :
    q = ⟨t.next, name, ty⟩ ∧ t'.next = t.next + 1 := by
  obtain ⟨i, t₁, hi, hpure⟩ := outcome_bind_ok.1 h
  obtain ⟨rfl, rfl⟩ := outcome_pure_ok.1 hpure
  obtain ⟨rfl, rfl⟩ := outcome_fresh_ok.1 hi
  exact ⟨rfl, rfl⟩

theorem Replacement.flat_one {old new : Expr} (h : new.outermostBelow old.same = []) :
    Flat [⟨old, new⟩] := by
  intro r hr
  obtain rfl := List.mem_singleton.1 hr
  have hhit : isOld [⟨old, new⟩] = old.same := by
    funext e
    simp [isOld]
  rw [hhit]
  exact h

/-- A tree holds no nodes with a property if its nodes have another one, which passes to the parts
of a node and into its lambda and excludes the first. -/
theorem Expr.outermost_eq_nil_of {hit : Expr → Bool} {P : Expr → Prop}
    (hhit : ∀ {e}, P e → hit e = false) (hpart : ∀ {e d}, P e → d ∈ e.parts → P d)
    (hfn : ∀ {e f}, P e → e.fn? = some f → (∀ p ∈ f.params, P (.param p)) ∧ P f.body) {e : Expr}
    (he : P e) : e.outermost hit = [] := by
  induction e using Expr.byPart with
  | h e ihpart ihfn =>
    refine outermost_eq_nil_iff.2 ⟨hhit he, outermostBelow_eq_nil_iff.2 ⟨?_, fun f hf => ?_⟩⟩
    · exact fun d hd => ihpart d hd (hpart he hd)
    · obtain ⟨hps, hb⟩ := hfn he hf
      exact Lambda.outermost_eq_nil_iff.2 ⟨fun p hp => hhit (hps p hp), ihfn f hf hb⟩

/-- No node of a tree without certain nodes is one of them. -/
theorem Expr.all_of_outermost {hit : Expr → Bool} {e : Expr} (h : e.outermost hit = []) :
    e.All (hit · = false) := by
  have all_param {p : Param} (h : (Expr.param p).outermost hit = []) :
      (Expr.param p).All (hit · = false) :=
    .leaf (outermost_eq_nil_iff.1 h).1 rfl
  induction e using byPart with
  | h e ihpart ihfn =>
    refine .mk (outermost_eq_nil_iff.1 h).1 fun d hd => ?_
    rcases mem_children.1 hd with hd | ⟨f, hf, hd⟩
    · exact ihpart d hd (outermost_part h hd)
    obtain ⟨hparams, hbody⟩ := outermost_fn h hf
    rcases List.mem_append.1 hd with hd | hd
    · obtain ⟨p, hp, rfl⟩ := List.mem_map.1 hd
      exact all_param (hparams p hp)
    · obtain rfl := List.mem_singleton.1 hd
      exact ihfn f hf hbody

/-- A tree of a forest without certain nodes has none of them. -/
theorem Forest.outermost_eq_nil {F : Forest} {hit : Expr → Bool}
    (hhit : ∀ e, F.nodes e → hit e = false) {e : Expr} (he : F.nodes e) : e.outermost hit = [] :=
  Expr.outermost_eq_nil_of (hhit _) F.part
    (fun he hf => ⟨fun _ => F.param (F.fn he hf), F.body (F.fn he hf)⟩) he

/-- A tree of a forest holds no node with an identity that is not taken. -/
theorem Forest.outermost_fresh {F : Forest} {node e : Expr} (hF : F.Below node.id)
    (he : F.nodes e) : e.outermost node.same = [] :=
  F.outermost_eq_nil (fun _ hd => by simpa [Expr.same] using (Nat.ne_of_lt (hF.node hd)).symm) he

/-- The expression of the mapper that a constant holds. -/
theorem Expr.outcome_heldLambda {host : Host} {id : NodeId} {ty : Ty} {v : Value} {m : Mapper}
    {context : String} {cx : BuildContext} {f : Lambda} {t t' : Trail}
    (hm : Native.givenMapper host context (some v) = .ok m)
    (h : outcome ((Expr.constant id ty v).heldLambda host cx) t = (.ok f, t')) :
    f = m.expression ∧ t'.next = t.next + 1 := by
  obtain ⟨w, t₁, hw, h⟩ := outcome_bind_ok.1 h
  obtain ⟨i, t₂, hi, hpure⟩ := outcome_bind_ok.1 hw
  obtain ⟨rfl, rfl⟩ := outcome_pure_ok.1 hpure
  obtain ⟨-, rfl⟩ := outcome_fresh_ok.1 hi
  have refuse {i : MapperId} {u : Unit} {t t₁ : Trail}
      (h : outcome (cx.refuseCurrent i) t = (.ok u, t₁)) : t₁ = t := by
    unfold BuildContext.refuseCurrent at h
    split at h
    · simp at h
    · exact (outcome_pure_ok.1 h).2.symm
  cases v with
  | mapper n =>
    obtain rfl := Except.ok.inj hm
    obtain ⟨u, t₁, hu, h⟩ := outcome_bind_ok.1 h
    obtain ⟨rfl, rfl⟩ := outcome_pure_ok.1 h
    rw [refuse hu]
    exact ⟨rfl, rfl⟩
  | mapperReference ref =>
    obtain ⟨u, t₁, hu, h⟩ := outcome_bind_ok.1 h
    simp only [Native.givenMapper] at hm
    cases hfilled : host.filled ref.id with
    | none => simp [hfilled] at hm
    | some n =>
      simp only [hfilled] at hm h
      obtain rfl := Except.ok.inj hm
      obtain ⟨rfl, rfl⟩ := outcome_pure_ok.1 h
      rw [refuse hu]
      exact ⟨rfl, rfl⟩
  | _ => simp [Native.givenMapper] at hm

/-- A new parameter lies in no tree of a forest, and there is room for it. -/
theorem Forest.exists_makeParam {F : Forest} {name : String} {ty : Ty} {t t' : Trail}
    (hF : F.Below t.next) (h : outcome (Param.make name ty) t = (.ok o, t')) :
    F.Below o.id ∧ ∃ G, F ≤ G ∧ G.Below t'.next ∧ G.nodes (.param o) := by
  obtain ⟨rfl, hnext⟩ := outcome_makeParam h
  obtain ⟨G, hFG, hG, ho⟩ := Forest.exists_grow (F := F) (e := .param ⟨t.next, name, ty⟩) hF
    (by simp [Expr.parts]) (by simp [Expr.fn?])
  exact ⟨hF, G, hFG, hnext ▸ hG, ho⟩

/-- The ways in which a lambda is inlined : the source is the parameter itself, or does not mention
it, or the lambda is given a new parameter first. -/
theorem Lambda.inline_cases {f : Lambda} {source e : Expr} {t t' : Trail}
    (h : outcome (f.inline source) t = (.ok e, t')) :
    ∃ p, f.params = [p] ∧ p.ty = source.ty ∧
      (p.id = source.id ∧ e = f.body ∧ t' = t ∨ p.id ≠ source.id ∧
        ((Expr.param p).occursIn source = false ∧
            outcome (f.body.substitute [⟨.param p, source⟩]) t = (.ok e, t') ∨
          ∃ o t₁ renamed t₂, outcome (Param.make p.name p.ty) t = (.ok o, t₁) ∧
            outcome (f.substitute [⟨.param p, .param o⟩]) t₁ = (.ok renamed, t₂) ∧
            outcome (renamed.body.substitute [⟨.param o, source⟩]) t₂ = (.ok e, t'))) := by
  unfold Lambda.inline at h
  split at h
  case h_2 => simp at h
  case h_1 p hp =>
  by_cases hty : p.ty = source.ty
  case neg => simp [hty, outcome_bind_of_error (outcome_reject _ t)] at h
  rw [if_neg (not_not.2 hty)] at h
  refine ⟨p, hp, hty, ?_⟩
  by_cases hid : p.id = source.id
  · rw [if_pos hid] at h
    obtain ⟨rfl, rfl⟩ := outcome_pure_ok.1 h
    exact .inl ⟨hid, rfl, rfl⟩
  rw [if_neg hid] at h
  refine .inr ⟨hid, ?_⟩
  cases hoccurs : (Expr.param p).occursIn source with
  | false =>
    rw [hoccurs, if_neg Bool.false_ne_true] at h
    exact .inl ⟨rfl, h⟩
  | true =>
    rw [if_pos hoccurs] at h
    obtain ⟨o, t₁, ho, h⟩ := outcome_bind_ok.1 h
    obtain ⟨renamed, t₂, hrenamed, h⟩ := outcome_bind_ok.1 h
    exact .inr ⟨o, t₁, renamed, t₂, ho, hrenamed, h⟩

/-- What inlining makes of the body of a lambda : the source stands in the parameter's places. -/
theorem Lambda.inline_becomes {f : Lambda} {source e : Expr} {F : Forest} {t t' : Trail}
    (hf : F.fns f) (hs : F.nodes source) (hF : F.Below t.next)
    (h : outcome (f.inline source) t = (.ok e, t')) :
    ∃ p, f.params = [p] ∧ p.ty = source.ty ∧ f.body.Becomes (.replacing [⟨.param p, source⟩]) e ∧
      ∃ G, F ≤ G ∧ G.Below t'.next ∧ G.nodes e := by
  obtain ⟨p, hp, hty, hcases⟩ := inline_cases h
  have hpF : F.nodes (.param p) := F.param hf (by simp [hp])
  refine ⟨p, hp, hty, ?_⟩
  rcases hcases with ⟨hid, rfl, rfl⟩ | ⟨-, ⟨hoccurs, h⟩ | ⟨o, t₁, renamed, t₂, ho, hrenamed, h⟩⟩
  · obtain rfl : .param p = source := F.node_eq hpF hs hid
    refine ⟨.refl (fun e => ?_) _, F, F.le_refl, hF, F.body hf⟩
    by_cases he : e = .param p
    · exact .inl (by simp [Judgement.replacing, he])
    · exact .inr (by simp [Judgement.replacing, he])
  · rw [Expr.occursIn_eq_false_iff] at hoccurs
    obtain ⟨G, hFG, hG, he, hbecomes⟩ := Expr.substitute_becomes
      (Replacement.flat_one (Expr.outermost_eq_nil_iff.1 hoccurs).2) (by simpa using hpF)
      (by simpa using hs) (F.body hf) hF h
    exact ⟨hbecomes, G, hFG, hG, he⟩
  · obtain ⟨hFo, G, hFG, hG, hoG⟩ := Forest.exists_makeParam hF ho
    have hfresh {e : Expr} (he : F.nodes e) : e.outermost (Expr.param o).same = [] :=
      Forest.outermost_fresh hFo he
    obtain ⟨H, hGH, hH, hrenamedH, hbecomes₁⟩ := Lambda.substitute_becomes
      (Replacement.flat_one rfl) (by simpa using hFG.1 _ hpF) (by simpa using hoG) (hFG.2 _ hf) hG
      hrenamed
    obtain ⟨K, hHK, hK, he, hbecomes₂⟩ := Expr.substitute_becomes
      (Replacement.flat_one (Expr.outermost_eq_nil_iff.1 (hfresh hs)).2)
      (by simpa using hGH.1 _ hoG) (by simpa using hGH.1 _ (hFG.1 _ hs)) (H.body hrenamedH) hH h
    exact ⟨hbecomes₁.body.comp_replacing (hfresh (F.body hf)) hbecomes₂, K,
      F.le_trans hFG (G.le_trans hGH hHK), hK, he⟩

end

end ObjectMapping
