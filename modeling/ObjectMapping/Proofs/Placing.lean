import ObjectMapping.Proofs.Sequencing

/-!
# Where the source of an inlined lambda is placed

A node that is visited is made anew only if something inside it is. `Judgement.placing` says so of
replacements whose new nodes hold no old ones : an old node gives way to its new node, an expression
without old nodes is left as it is, and every other one is entered. `Expr.substitute_places` and
`Lambda.substitute_places` are the statements for expressions and lambdas.

A lambda is inlined in one of three ways (`Lambda.inline_cases`). They place the source in the same
places, also where the lambda is given a new parameter first (`Expr.Becomes.comp_placing`) : a tree
that is left alone by the second replacement, because it does not hold the new parameter, did not
hold the old one either (`Expr.Becomes.spared_of_placing`). And they fail for the same reasons,
`Lambda.InlineFails`. `Lambda.inline_places` is the main statement.
-/

namespace ObjectMapping

open RunM

/-! ## Trees that are left alone -/

/-- The expression holds no old node. -/
def Expr.SparedBy (rs : List Replacement) (e : Expr) : Prop :=
  e.All fun d => ∀ r ∈ rs, d ≠ r.old

/-- An old node gives way to its new node, an expression that holds no old node stays as it is, and
every other one is entered. -/
def Judgement.placing (rs : List Replacement) : Judgement where
  enters e := (∀ r ∈ rs, e ≠ r.old) ∧ ¬ e.SparedBy rs
  puts e e' := (∃ r ∈ rs, e = r.old ∧ e' = r.new) ∨ e.SparedBy rs ∧ e' = e
  stands _ := False

section

variable {rs : List Replacement} {p o : Param} {source e e' e₁ e₂ : Expr}

theorem Expr.becomes_placing : e.Becomes (.placing rs) e' ↔
    (∃ r ∈ rs, e = r.old ∧ e' = r.new) ∨ e.SparedBy rs ∧ e' = e ∨
      (∀ r ∈ rs, e ≠ r.old) ∧ ¬ e.SparedBy rs ∧ e.Rebuilt (.placing rs) e' := by
  constructor
  · intro h
    cases h with
    | put h => exact h.imp_right .inl
    | enter h hr => exact .inr (.inr ⟨h.1, h.2, hr⟩)
    | standIn h => exact h.elim
    | stay h => exact h.elim
  · rintro (h | h | ⟨hne, hspared, hr⟩)
    · exact .put (.inl h)
    · exact .put (.inr h)
    · exact .enter ⟨hne, hspared⟩ hr

theorem Expr.becomes_placing_one {old new : Expr} : e.Becomes (.placing [⟨old, new⟩]) e' ↔
    e = old ∧ e' = new ∨ e.SparedBy [⟨old, new⟩] ∧ e' = e ∨
      e ≠ old ∧ ¬ e.SparedBy [⟨old, new⟩] ∧ e.Rebuilt (.placing [⟨old, new⟩]) e' := by
  simp [becomes_placing]

theorem Expr.sparedBy_one {old new : Expr} :
    e.SparedBy [⟨old, new⟩] ↔ e.All (· ≠ old) := by
  simp [SparedBy]

/-- Placing a node where it stands changes nothing. -/
theorem Expr.becomes_placing_self (old e : Expr) : e.Becomes (.placing [⟨old, old⟩]) e := by
  refine .refl (fun d => ?_) e
  by_cases hd : d = old
  · exact .inl (.inl ⟨_, List.mem_singleton_self _, hd, hd⟩)
  by_cases hspared : d.SparedBy [⟨old, old⟩]
  · exact .inl (.inr ⟨hspared, rfl⟩)
  · exact .inr ⟨by simpa using hd, hspared⟩

/-- An expression that holds no old node becomes itself. -/
theorem Expr.Becomes.eq_of_spared (hspared : e.SparedBy rs) (h : e.Becomes (.placing rs) e') :
    e' = e := by
  rcases becomes_placing.1 h with ⟨r, hr, he, -⟩ | ⟨-, h⟩ | ⟨-, hnot, -⟩
  · exact absurd he (hspared.head r hr)
  · exact h
  · exact absurd hspared hnot

/-- What becomes of an expression that holds an old node holds something new. -/
theorem Expr.Becomes.spared_of_placing {P : Expr → Prop} (hnew : ∀ r ∈ rs, ¬ P r.new)
    (h : e.Becomes (.placing rs) e') (he' : e'.All P) : e.SparedBy rs := by
  induction e using Expr.byChildren generalizing e' with
  | h e ih =>
    rcases becomes_placing.1 h with ⟨r, hr, -, rfl⟩ | ⟨hspared, -⟩ | ⟨hne, -, hrebuilt⟩
    · exact absurd he'.head (hnew r hr)
    · exact hspared
    · refine .mk hne fun c hc => ?_
      obtain ⟨c', hc', hbecomes⟩ := forall₂_mem_left hrebuilt.children hc
      exact ih c hc hbecomes (he'.child hc')

/-- A parameter gives way to the source through another one that is not in the tree. -/
theorem Expr.Becomes.comp_placing (ho : e.All (· ≠ .param o))
    (h₁ : e.Becomes (.placing [⟨.param p, .param o⟩]) e₁)
    (h₂ : e₁.Becomes (.placing [⟨.param o, source⟩]) e₂) :
    e.Becomes (.placing [⟨.param p, source⟩]) e₂ := by
  induction e using Expr.byChildren generalizing e₁ e₂ with
  | h e ih =>
    rw [becomes_placing_one]
    rcases becomes_placing_one.1 h₁ with ⟨rfl, rfl⟩ | ⟨hspared, rfl⟩ | ⟨hne, hnot, hr₁⟩
    · rcases becomes_placing_one.1 h₂ with ⟨-, rfl⟩ | ⟨hspared, -⟩ | ⟨hne, -, -⟩
      · exact .inl ⟨rfl, rfl⟩
      · exact absurd rfl (sparedBy_one.1 hspared).head
      · exact absurd rfl hne
    · exact .inr (.inl ⟨sparedBy_one.2 (sparedBy_one.1 hspared),
        h₂.eq_of_spared (sparedBy_one.2 ho)⟩)
    · refine .inr (.inr ⟨hne, mt (fun h => sparedBy_one.2 (sparedBy_one.1 h)) hnot, ?_⟩)
      rcases becomes_placing_one.1 h₂ with ⟨rfl, -⟩ | ⟨hspared, -⟩ | ⟨-, -, hr₂⟩
      · exact absurd (hr₁.eq_of_param rfl) ho.head
      · -- the first replacement would have left the new parameter there
        refine absurd (h₁.spared_of_placing (fun r hr => ?_) (sparedBy_one.1 hspared)) hnot
        rw [List.mem_singleton.1 hr]
        exact not_not.2 rfl
      · exact hr₁.comp_of_children (fun c hc _ _ => ih c hc (ho.child hc)) hr₂

end

/-! ## What substitution leaves alone -/

section

variable {rs : List Replacement} {d : Nat} {f f' : Lambda} {e e' : Expr} {F F₀ : Forest}
  {t t' : Trail}

theorem Expr.SparedBy.outermost_eq_nil (hold : ∀ r ∈ rs, F.nodes r.old) (he : F.nodes e)
    (h : e.SparedBy rs) : e.outermost (Replacement.isOld rs) = [] := by
  refine outermost_eq_nil_iff_all.2 ((h.and (Forest.all he)).imp fun c hc => ?_)
  refine Replacement.isOld_eq_false_iff.2 fun r hr => Bool.eq_false_iff.2 fun hsame => ?_
  exact hc.1 r hr (F.eq_of_same (hold r hr) hc.2 hsame).symm

/-- Replacing nodes leaves alone what holds no old node. -/
theorem Visitor.Makes.places (hflat : Replacement.Flat rs) (hold : ∀ r ∈ rs, F₀.nodes r.old)
    (hnew : ∀ r ∈ rs, F₀.nodes r.new) (hd : d = 0 → rs = []) (he : F₀.nodes e)
    (h : (Visitor.replacing rs d).Makes F₀ e e') : e.Becomes (.placing rs) e' := by
  induction e using Expr.byChildren generalizing e' with
  | h e ih =>
    obtain ⟨F, t, t', hF₀, hF, hrun⟩ := h
    have unhit {c : Expr} (hc : c.outermostBelow (Replacement.isOld rs) = []) (d : Nat) :
        outcome (c.walk (Visitor.replacing rs d)) t = (.ok c, t) :=
      outcome_walk_of_unhit (fun _ t h => judge_replacing_of_not_old h d t) hc t
    rw [Expr.becomes_placing]
    cases hfind : Replacement.find? rs e with
    | none =>
      rw [apply_of_judge_enter (judge_replacing_of_none hfind d)] at hrun
      by_cases hspared : e.SparedBy rs
      · rw [unhit (Expr.outermost_eq_nil_iff.1 (hspared.outermost_eq_nil hold he)).2] at hrun
        exact .inr (.inl ⟨hspared, (Except.ok.inj (congrArg Prod.fst hrun)).symm⟩)
      · have hne : ∀ r ∈ rs, e ≠ r.old := fun r hr =>
          Expr.ne_of_not_same (Replacement.find?_eq_none_iff.1 hfind r hr)
        refine .inr (.inr ⟨hne, hspared, ?_⟩)
        exact ((replacing_chains hold hnew d).walk_makes hF₀ he hF hrun).imp fun c hc _ h =>
          ih c hc (Forest.child he hc) (Expr.becomes_of.1 h)
    | some new =>
      obtain ⟨r, hr, hsame, rfl⟩ := Replacement.exists_of_find? hfind
      obtain ⟨d, rfl⟩ : ∃ k, d = k + 1 := Nat.exists_eq_succ_of_ne_zero fun h => by
        simp [hd h] at hr
      rw [apply_of_judge_put (judge_replacing_of_some hfind d), unhit (hflat r hr)] at hrun
      exact .inl ⟨r, hr, (F₀.eq_of_same (hold r hr) he hsame).symm,
        (Except.ok.inj (congrArg Prod.fst hrun)).symm⟩

variable (hflat : Replacement.Flat rs) (hold : ∀ r ∈ rs, F.nodes r.old)
  (hnew : ∀ r ∈ rs, F.nodes r.new) (hF : F.Below t.next)

include hflat hold hnew hF

/-- A substitution in an expression leaves alone what holds no old node. -/
theorem Expr.substitute_places (he : F.nodes e) (h : outcome (e.substitute rs) t = (.ok e', t')) :
    e.Becomes (.placing rs) e' := by
  obtain ⟨u, t₁, hcheck, happly⟩ := outcome_bind_ok.1 h
  obtain rfl := Replacement.outcome_check hcheck
  exact Visitor.Makes.places hflat hold hnew List.eq_nil_of_length_eq_zero he
    ⟨F, t₁, t', F.le_refl, hF, happly⟩

/-- A substitution in a lambda leaves alone what holds no old node. -/
theorem Lambda.substitute_places (hf : F.fns f)
    (h : outcome (f.substitute rs) t = (.ok f', t')) : f.Becomes (.placing rs) f' := by
  obtain ⟨u, t₁, hcheck, hwalk⟩ := outcome_bind_ok.1 h
  obtain rfl := Replacement.outcome_check hcheck
  obtain ⟨hparams, hbody⟩ :=
    (Visitor.replacing_chains hold hnew rs.length).walkFn_makes F.le_refl hf hF hwalk
  have places {c c' : Expr} (hc : F.nodes c)
      (h : (Visitor.replacing rs rs.length).Makes F c c') : c.Becomes (.placing rs) c' :=
    h.places hflat hold hnew List.eq_nil_of_length_eq_zero hc
  exact ⟨forall₂_imp_of_mem hparams fun x hx y h => Param.becomes_iff.2
    (places (F.param hf hx) (Param.becomes_of.1 h)), places (F.body hf) (Expr.becomes_of.1 hbody)⟩

end

/-! ## Inlining -/

section

variable {p : Param} {source e : Expr} {f : Lambda} {F : Forest} {t t' : Trail} {fault : Fault}

/-- In whatever way a lambda is inlined, the source is placed where the parameter was. -/
theorem Lambda.inline_placing (hf : F.fns f) (hs : F.nodes source) (hF : F.Below t.next)
    (h : outcome (f.inline source) t = (.ok e, t')) :
    ∃ p, f.params = [p] ∧ f.body.Becomes (.placing [⟨.param p, source⟩]) e ∧
      (source = .param p → e = f.body) := by
  obtain ⟨p, hp, -, hcases⟩ := inline_cases h
  have hpF : F.nodes (.param p) := F.param hf (by simp [hp])
  refine ⟨p, hp, ?_⟩
  rcases hcases with ⟨hid, rfl, -⟩ | ⟨hid, hcases⟩
  · obtain rfl : .param p = source := F.node_eq hpF hs hid
    exact ⟨Expr.becomes_placing_self _ _, fun _ => rfl⟩
  refine ⟨?_, fun hsource => absurd (by rw [hsource]; rfl) hid⟩
  rcases hcases with ⟨hoccurs, h⟩ | ⟨o, t₁, renamed, t₂, ho, hrenamed, h⟩
  · rw [Expr.occursIn_eq_false_iff] at hoccurs
    exact Expr.substitute_places (Replacement.flat_one (Expr.outermost_eq_nil_iff.1 hoccurs).2)
      (by simpa using hpF) (by simpa using hs) hF (F.body hf) h
  · obtain ⟨hFo, G, hFG, hG, hoG⟩ := Forest.exists_makeParam hF ho
    -- neither the body nor the source holds the new parameter
    have hbody : f.body.All (· ≠ .param o) := (Forest.all (F.body hf)).imp fun c hc => by
      rintro rfl
      exact Nat.lt_irrefl _ (hFo.node hc)
    have hsource : source.outermostBelow (Expr.param o).same = [] :=
      (Expr.outermost_eq_nil_iff.1 (Forest.outermost_fresh hFo hs)).2
    have hflat : Replacement.Flat [⟨.param p, .param o⟩] := Replacement.flat_one rfl
    have hold : ∀ r ∈ [Replacement.mk (.param p) (.param o)], G.nodes r.old := by
      simpa using hFG.1 _ hpF
    have hnew : ∀ r ∈ [Replacement.mk (.param p) (.param o)], G.nodes r.new := by simpa using hoG
    obtain ⟨H, hGH, hH, hrenamedH, -⟩ := substitute_becomes hflat hold hnew (hFG.2 _ hf) hG hrenamed
    have hfirst : f.body.Becomes (.placing [⟨.param p, .param o⟩]) renamed.body :=
      (substitute_places hflat hold hnew hG (hFG.2 _ hf) hrenamed).body
    have hsecond : renamed.body.Becomes (.placing [⟨.param o, source⟩]) e :=
      Expr.substitute_places (Replacement.flat_one hsource) (by simpa using hGH.1 _ hoG)
        (by simpa using hGH.1 _ (hFG.1 _ hs)) hH (H.body hrenamedH) h
    exact hfirst.comp_placing hbody hsecond

/-- How a lambda fails to be inlined over a source : it does not take one parameter of the type of
the source, or a lambda inside it binds the parameter and cannot bind the source in its place. -/
inductive Lambda.InlineFails (f : Lambda) (source : Expr) : Fault → Prop
  | count : f.params.length ≠ 1 → InlineFails f source
      (.failed (.argument (.inlinedParameterCount f.text f.params.length)))
  | type {p : Param} : f.params = [p] → p.ty ≠ source.ty → InlineFails f source
      (.failed (.argument (.inlinedType f.text p.ty source.text source.ty)))
  | lost {p : Param} : f.params = [p] → p.ty = source.ty → source.param? = none → f.body.Binds p →
      InlineFails f source (.failed (.parameterLost p.name))
  | twice {p q : Param} : f.params = [p] → p.ty = source.ty → source = .param q → q ≠ p →
      f.body.SomeFn (fun g => p ∈ g.params ∧ q ∈ g.params) →
      InlineFails f source (.failed (.argument (.parameterTwice q.name)))

/-- A lambda that takes one parameter of the type of the source fails to be inlined if a lambda
inside it refuses. -/
theorem Lambda.inlineFails_iff (hp : f.params = [p]) (hty : p.ty = source.ty) :
    f.InlineFails source fault ↔
      fault = Replacement.fault p source ∧ source ≠ .param p ∧ f.body.Blocks p source := by
  have hparam {q : Param} (hq : f.params = [q]) : q = p := (List.singleton_inj.1 (hp ▸ hq)).symm
  constructor
  · intro h
    cases h with
    | count h => exact absurd (by rw [hp]; rfl) h
    | type hq hne => exact absurd (hparam hq ▸ hty) hne
    | lost hq _ hsource hbinds =>
      obtain rfl := hparam hq
      refine ⟨?_, fun h => by simp [h, Expr.param?] at hsource, ?_⟩
      · cases source with
        | param => cases hsource
        | _ => rfl
      · exact (Expr.binds_iff.1 hbinds).imp fun g hg => refuses_iff.2 (.inl ⟨hg, hsource⟩)
    | twice hq _ hsource hne hsome =>
      obtain rfl := hparam hq
      subst hsource
      refine ⟨rfl, fun h => hne (Expr.param.inj h), hsome.imp fun g hg => ⟨hg.1, fun x hx => ?_⟩⟩
      exact Expr.param.inj hx ▸ hg.2
  · rintro ⟨rfl, hne, hblocks⟩
    cases source with
    | param q =>
      exact .twice hp hty rfl (fun h => hne (h ▸ rfl)) (hblocks.imp fun g hg => ⟨hg.1, hg.2 q rfl⟩)
    | _ => exact .lost hp hty rfl hblocks.binds

theorem Lambda.outcome_inline_count (h : f.params.length ≠ 1) (t : Trail) :
    (outcome (f.inline source) t).1 =
      .error (.failed (.argument (.inlinedParameterCount f.text f.params.length))) := by
  obtain ⟨i, ps, b⟩ := f
  rcases ps with _ | ⟨x, _ | ⟨y, ps⟩⟩
  · rfl
  · exact absurd rfl h
  · rfl

theorem Lambda.outcome_inline_type (hp : f.params = [p]) (hty : p.ty ≠ source.ty) (t : Trail) :
    (outcome (f.inline source) t).1 =
      .error (.failed (.argument (.inlinedType f.text p.ty source.text source.ty))) := by
  simp [inline, hp, hty, outcome_bind_of_error (outcome_reject _ t)]

/-- Inlining fails as it can be seen from the lambda and the source, and ends well otherwise. -/
theorem Lambda.inline_error_iff (hf : F.fns f) (hformed : f.WellFormed) (hs : F.nodes source)
    (hF : F.Below t.next) :
    (outcome (f.inline source) t).1 = .error fault ↔ f.InlineFails source fault := by
  by_cases hcount : f.params.length = 1
  case neg =>
    rw [outcome_inline_count hcount]
    refine ⟨fun h => Except.error.inj h ▸ .count hcount, fun h => ?_⟩
    cases h with
    | count => rfl
    | type hp | lost hp | twice hp => exact absurd (by rw [hp]; rfl) hcount
  obtain ⟨p, hp⟩ := List.length_eq_one_iff.1 hcount
  by_cases hty : p.ty = source.ty
  case neg =>
    rw [outcome_inline_type hp hty]
    refine ⟨fun h => Except.error.inj h ▸ .type hp hty, fun h => ?_⟩
    cases h with
    | count h => exact absurd hcount h
    | type hq => rw [List.singleton_inj.1 (hp ▸ hq : [p] = [_])]
    | lost hq hty' | twice hq hty' =>
      exact absurd (List.singleton_inj.1 (hp ▸ hq : [p] = [_]) ▸ hty') hty
  obtain ⟨hfails, hends⟩ := (inline_failsIff hF hf hformed hs hp hty t (Nat.le_refl _)).2
  rw [inlineFails_iff hp hty]
  by_cases hrefuses : source ≠ .param p ∧ f.body.Blocks p source
  · obtain ⟨_, hrun, rfl⟩ := hfails hrefuses
    rw [hrun]
    exact ⟨fun h => ⟨(Except.error.inj h).symm, hrefuses⟩, fun h => h.1 ▸ rfl⟩
  · obtain ⟨e, hrun⟩ := hends hrefuses
    rw [hrun]
    exact ⟨(nomatch ·), fun h => absurd h.2 hrefuses⟩

/-- Whether the source is the parameter of the lambda, mentions it or does not, inlining does one
and the same replacement. It fails exactly if the lambda does not take one parameter, of the type of
the source, or if a lambda inside the body binds the parameter again where it cannot bind the source
instead : that is no parameter, or another one which the lambda binds too. Otherwise the result is
the body in which the source itself stands for every occurrence of the parameter, and in which every
part without the parameter is kept. -/
theorem Lambda.inline_places (hf : F.fns f) (hformed : f.WellFormed) (hs : F.nodes source)
    (hF : F.Below t.next) :
    (∀ fault, (outcome (f.inline source) t).1 = .error fault ↔ f.InlineFails source fault) ∧
      ((∀ fault, ¬ f.InlineFails source fault) → ∃ p e t', f.params = [p] ∧
        outcome (f.inline source) t = (.ok e, t') ∧
        f.body.Becomes (.placing [⟨.param p, source⟩]) e ∧ (source = .param p → e = f.body)) := by
  refine ⟨fun fault => inline_error_iff hf hformed hs hF, fun hnone => ?_⟩
  rcases hrun : outcome (f.inline source) t with ⟨r, t'⟩
  cases r with
  | error fault =>
    exact absurd ((inline_error_iff hf hformed hs hF).1 (by rw [hrun])) (hnone fault)
  | ok e =>
    obtain ⟨p, hp, hplaced, hsame⟩ := inline_placing hf hs hF hrun
    exact ⟨p, e, t', hp, rfl, hplaced, hsame⟩

/-- A source that mentions the parameter, and a lambda around one of the places. -/
theorem Lambda.inline_places_mentioned :
    let p : Param := ⟨0, "p", .int⟩
    let x : Param := ⟨1, "x", .int⟩
    let source : Expr := .binary 2 .int .add (.param p) (.param p)
    let kept : Expr := .binary 3 .int .add (.param x) (.param x)
    let f : Lambda := ⟨7, [p], .lambda 6 ⟨5, [x], .binary 4 .int .add (.param p) kept⟩⟩
    (∀ fault, ¬ f.InlineFails source fault) ∧ ∃ q e t', f.params = [q] ∧
      outcome (f.inline source) { next := 8 } = (.ok e, t') ∧
      f.body.Becomes (.placing [⟨.param q, source⟩]) e ∧ (source = .param q → e = f.body) := by
  intro p x source kept f
  let sum : Expr := .binary 4 .int .add (.param p) kept
  let F : Forest := .ofLists [.param p, .param x, source, kept, sum, f.body] [f, ⟨5, [x], sum⟩]
    (by decide) (by decide) (by simp [Expr.parts, source, kept, sum, f])
    (by simp [Expr.fn?, source, kept, sum, f]) (by simp [f]) (by simp [f])
  have hformed : f.WellFormed := ⟨by simp [f], Expr.wellFormed_lambda.2 ⟨by simp, by simp [kept]⟩⟩
  have hs : F.nodes source := by simp [F, Forest.ofLists]
  obtain ⟨herror, hends⟩ :=
    inline_places (f := f) (t := { next := 8 }) (by simp [F, Forest.ofLists])
    hformed hs (Forest.below_ofLists (by decide) (by decide))
  have hnone (fault : Fault) : ¬ f.InlineFails source fault := fun h => by
    obtain ⟨e, he⟩ : ∃ e, (outcome (f.inline source) { next := 8 }).1 = .ok e := ⟨_, rfl⟩
    exact nomatch he.symm.trans ((herror fault).2 h)
  exact ⟨hnone, hends hnone⟩

end

end ObjectMapping
