import ObjectMapping.Proofs.Forming
import ObjectMapping.Proofs.Scoping

/-!
# When a parameter can be replaced

Replacing a parameter does not look at binders, so a lambda that binds the parameter stands in the
way : what it binds then has to be a parameter again, and a different one from all others that it
binds. `Expr.Blocks` says that such a lambda is in a tree, and `Expr.substitute_failsIff` that this
is the one thing that makes the replacement fail, and with which fault. What is made otherwise is
the business of `Expr.substitute_becomes`.

`Lambda.inline_failsIff` is the same for a lambda that is inlined over a source.
-/

namespace ObjectMapping

open RunM

/-! ## Making lambdas -/

/-- Different parameters are taken as parameters. -/
theorem Lambda.paramsOf_yields {I : Trail → Prop} {seen ps : List Param}
    (hps : (ps.map (·.id)).Nodup) (hseen : ∀ x ∈ ps, ∀ y ∈ seen, y.id ≠ x.id) :
    Yields I (paramsOf seen (ps.map .param)) ps := by
  induction ps generalizing seen with
  | nil => exact .pure
  | cons x ps ih =>
    obtain ⟨hx, hps⟩ := List.nodup_cons.1 hps
    have hnot : seen.any (·.id == x.id) = false := by simpa using hseen x (by simp)
    simp only [List.map_cons, paramsOf, Expr.param?, hnot]
    refine (ih hps fun y hy z hz => ?_).bind .pure
    rcases List.mem_cons.1 hz with rfl | hz
    · exact fun heq => hx (List.mem_map.2 ⟨y, hy, heq.symm⟩)
    · exact hseen y (by simp [hy]) z hz

/-- A new lambda over different parameters is made. -/
theorem Lambda.ofExprs_reaches {ps : List Param} (hps : (ps.map (·.id)).Nodup) (b : Expr) :
    Reaches (fun _ => True) (ofExprs (ps.map .param) b) fun f => f.params = ps ∧ f.body = b :=
  Reaches.bind ((paramsOf_yields hps (by simp)).reaches rfl) fun _ hps =>
    Reaches.bind (P := fun _ => True) (fun _ _ => ⟨trivial, _, rfl, trivial⟩) fun _ _ =>
      .pure ⟨hps.symm ▸ rfl, rfl⟩

/-! ## Visits -/

section

variable {σ : Type} {I : σ → Prop} {E : Fault → Prop} [MonadLiftT RunM (Steps σ)]
  {v : Visitor (Steps σ)} {B : Expr → Prop}

theorem Visitor.walkList_failsIff {es : List Expr}
    (h : ∀ e ∈ es, FailsIff I (v.apply e) E (B e)) :
    FailsIff I (Expr.walkList v es) E (∃ e ∈ es, B e) := by
  induction es with
  | nil => exact FailsIff.pure.congr (by simp)
  | cons e es ih =>
    rw [Expr.walkList]
    refine ((h e (by simp)).bind fun _ =>
      (ih fun d hd => h d (by simp [hd])).bind fun _ => .pure).congr (by simp)

section

variable (hlift : ∀ {α : Type} {run : RunM α} {Q : α → Prop}, run.Advances →
  Reaches (fun _ => True) run Q → Reaches I (liftM run : Steps σ α) Q)

include hlift

/-- The visit to a lambda whose parameters are entered fails if the visit to its body does. -/
theorem Visitor.walkFn_failsIff {f : Lambda} {b : Prop}
    (hparams : ∀ p ∈ f.params, Yields I (v.judge (.param p)) .enter)
    (hids : (f.params.map (·.id)).Nodup) (hbody : FailsIff I (v.apply f.body) E b) :
    FailsIff I (f.walk v) E b := by
  have hparam (p : Param) (hp : p ∈ f.params) : Yields I (v.apply (.param p)) (.param p) :=
    (hparams p hp).bind .pure
  have hrequire : Reaches (fun _ => True)
      (Param.requireParams f.params (f.params.map .param)) fun _ => True :=
    fun t _ => by rw [outcome_requireParams_self]; exact ⟨trivial, (), rfl, trivial⟩
  rw [Lambda.walk_eq, Lambda.paramExprs]
  refine (walkList_yields (List.forall₂_same.2 (List.forall_mem_map.2 hparam))).next ?_
  refine ((FailsIff.of_reaches (hlift (advances_requireParams _ _) hrequire)).bind fun _ =>
    hbody.bind fun b' => (?_ : FailsIff I _ E False)).congr (by simp)
  split
  · exact .pure
  · exact .of_reaches (hlift (advances_ofExprs _ _) (Lambda.ofExprs_reaches hids b'))

/-- The visit to the parts of a node fails if one of the visits to them does. -/
theorem Visitor.walk_failsIff {C : Lambda → Prop} {e : Expr}
    (hpart : ∀ d ∈ e.parts, FailsIff I (v.apply d) E (B d))
    (hfn : ∀ f, e.fn? = some f → FailsIff I (f.walk v) E (C f)) :
    FailsIff I (e.walk v) E ((∃ d ∈ e.parts, B d) ∨ ∃ f, e.fn? = some f ∧ C f) := by
  have keepOrRemake {c : Bool} {make : NodeId → Expr} :
      FailsIff I (Expr.keepOrRemake c e make : Steps σ Expr) E False := by
    have hfresh : Reaches (fun _ => True) (fresh : RunM NodeId) fun _ => True :=
      fun _ _ => ⟨trivial, _, rfl, trivial⟩
    unfold Expr.keepOrRemake
    split
    · exact .pure
    · exact (FailsIff.of_reaches (hlift advances_fresh hfresh)).bind (fun _ => .pure)
        |>.congr (by simp)
  cases hf : e.fn? with
  | none =>
    rw [Expr.walk_of_parts hf]
    exact ((walkList_failsIff hpart).bind fun _ => keepOrRemake).congr (by simp)
  | some f =>
    rw [Expr.walk_of_fn hf]
    exact ((hfn f hf).bind fun _ => keepOrRemake).congr (by simp [Expr.parts_of_fn? hf])

end

end

/-! ## Lambdas in the way -/

/-- The parameter cannot be replaced by the source in what the lambda binds : the source is no
parameter, or the lambda would bind it twice. -/
def Lambda.Refuses (p : Param) (source : Expr) (f : Lambda) : Prop :=
  p ∈ f.params ∧ ∀ q, source = .param q → q ∈ f.params

/-- A lambda inside the expression has the property. -/
inductive Expr.SomeFn (Q : Lambda → Prop) : Expr → Prop
  | here {e : Expr} {f : Lambda} : e.fn? = some f → Q f → SomeFn Q e
  | part {e d : Expr} : d ∈ e.parts → SomeFn Q d → SomeFn Q e
  | body {e : Expr} {f : Lambda} : e.fn? = some f → SomeFn Q f.body → SomeFn Q e

/-- A lambda inside the expression refuses that the parameter is replaced by the source. -/
def Expr.Blocks (e : Expr) (p : Param) (source : Expr) : Prop :=
  e.SomeFn (Lambda.Refuses p source)

/-- How the replacement of the parameter by the source fails. -/
def Replacement.fault (p : Param) (source : Expr) : Fault :=
  match source with
  | .param q => .failed (.argument (.parameterTwice q.name))
  | _ => .failed (.parameterLost p.name)

theorem Lambda.refuses_iff {p : Param} {source : Expr} {f : Lambda} :
    f.Refuses p source ↔ p ∈ f.params ∧ source.param? = none ∨
      p ∈ f.params ∧ ∃ q ∈ f.params, source = .param q := by
  cases source <;> simp [Refuses, Expr.param?]

section

variable {Q Q' : Lambda → Prop}

theorem Expr.someFn_iff {e : Expr} : e.SomeFn Q ↔
    (∃ d ∈ e.parts, d.SomeFn Q) ∨ ∃ f, e.fn? = some f ∧ (Q f ∨ f.body.SomeFn Q) := by
  constructor
  · intro h
    cases h with
    | part hd h => exact .inl ⟨_, hd, h⟩
    | here hf h => exact .inr ⟨_, hf, .inl h⟩
    | body hf h => exact .inr ⟨_, hf, .inr h⟩
  · rintro (⟨d, hd, h⟩ | ⟨f, hf, h | h⟩)
    · exact .part hd h
    · exact .here hf h
    · exact .body hf h

theorem Expr.not_someFn_param {p : Param} : ¬ (Expr.param p).SomeFn Q := by
  rw [someFn_iff]
  simp [parts, fn?]

/-- What no lambda of a forest has, none inside its trees has. -/
theorem Forest.not_someFn {F : Forest} (hQ : ∀ f, F.fns f → ¬ Q f) {e : Expr} (he : F.nodes e) :
    ¬ e.SomeFn Q := by
  intro h
  induction h with
  | here hf h => exact hQ _ (F.fn he hf) h
  | part hd _ ih => exact ih (F.part he hd)
  | body hf _ ih => exact ih (F.body (F.fn he hf))

theorem Expr.SomeFn.imp (h : ∀ f, Q f → Q' f) {e : Expr} (he : e.SomeFn Q) : e.SomeFn Q' := by
  induction he with
  | here hf hQ => exact .here hf (h _ hQ)
  | part hd _ ih => exact .part hd ih
  | body hf _ ih => exact .body hf ih

theorem Expr.binds_iff {x : Param} {e : Expr} : e.Binds x ↔ e.SomeFn (x ∈ ·.params) := by
  constructor
  · intro h
    induction h with
    | here hf hx => exact .here hf hx
    | part hd _ ih => exact .part hd ih
    | body hf _ ih => exact .body hf ih
  · intro h
    induction h with
    | here hf hx => exact .here hf hx
    | part hd _ ih => exact .part hd ih
    | body hf _ ih => exact .body hf ih

/-- A lambda that refuses binds the parameter. -/
theorem Expr.Blocks.binds {e source : Expr} {p : Param} (h : e.Blocks p source) : e.Binds p :=
  binds_iff.2 (h.imp fun _ hf => hf.1)

/-- Renaming parameters leaves the lambdas of a tree where they are. -/
theorem Expr.Becomes.someFn_iff {F G : Forest} {J : Judgement} (hJ : J.Renames G)
    (hQ : ∀ {f f'}, F.fns f → f.Becomes J f' → (Q f ↔ Q' f')) {e e' : Expr} (he : F.nodes e)
    (h : e.Becomes J e') : e.SomeFn Q ↔ e'.SomeFn Q' := by
  induction e using Expr.byPart generalizing e' with
  | h e ihpart ihfn =>
    cases h with
    | put h =>
      obtain ⟨x, rfl⟩ := hJ.puts h
      obtain ⟨-, y, rfl⟩ := hJ.new h
      exact iff_of_false not_someFn_param not_someFn_param
    | standIn h => exact absurd h (hJ.stands e)
    | stay h => exact absurd h (hJ.stands e)
    | enter henters hr =>
      have hfn {f f' : Lambda} (hf : e.fn? = some f) (hbecomes : f.Becomes J f') :
          (Q f ∨ f.body.SomeFn Q) ↔ (Q' f' ∨ f'.body.SomeFn Q') :=
        or_congr (hQ (F.fn he hf) hbecomes) (ihfn f hf (F.body (F.fn he hf)) hbecomes.body)
      rw [Expr.someFn_iff, Expr.someFn_iff]
      refine or_congr ⟨?_, ?_⟩ ⟨?_, ?_⟩
      · rintro ⟨d, hd, hsome⟩
        obtain ⟨d', hd', hbecomes⟩ := forall₂_mem_left hr.parts_becomes hd
        exact ⟨d', hd', (ihpart d hd (F.part he hd) hbecomes).1 hsome⟩
      · rintro ⟨d', hd', hsome⟩
        obtain ⟨d, hd, hbecomes⟩ := forall₂_mem_right hr.parts_becomes hd'
        exact ⟨d, hd, (ihpart d hd (F.part he hd) hbecomes).2 hsome⟩
      · rintro ⟨f, hf, hsome⟩
        obtain ⟨f', hf', hbecomes⟩ := (Expr.Becomes.enter henters hr).fn? hJ.toOnParams hf
        exact ⟨f', hf', (hfn hf hbecomes).1 hsome⟩
      · rintro ⟨f', hf', hsome⟩
        obtain ⟨f, hf, hbecomes⟩ := hr.fn?_becomes hf'
        exact ⟨f, hf, (hfn hf hbecomes).2 hsome⟩

end

/-! ## What lambdas bind -/

section

variable {I : Trail → Prop} {F : Forest} {p : Param} {source : Expr}

/-- A parameter that is put in the place of another one is taken as a parameter once. -/
theorem Lambda.paramsOf_failsIff {q : Param} (hq : F.nodes (.param q)) (hne : q ≠ p)
    {seen ps : List Param} (hnodes : ∀ x ∈ seen ++ ps, F.nodes (.param x)) (hps : ps.Nodup)
    (hseen : ∀ x ∈ ps, x ∈ seen → x = q) :
    FailsIff I (paramsOf seen (ps.map (p.standing (.param q))))
      (· = .failed (.argument (.parameterTwice q.name)))
      (p ∈ ps ∧ q ∈ ps ∨ (p ∈ ps ∨ q ∈ ps) ∧ q ∈ seen) := by
  induction ps generalizing seen with
  | nil => exact FailsIff.pure.congr (by simp)
  | cons x ps ih =>
    obtain ⟨hx, hps⟩ := List.nodup_cons.1 hps
    -- the parameter `y` that comes to stand in the place of `x` is taken if it was not seen before
    have step {y : Param} (hy : F.nodes (.param y)) (hyq : y ∈ seen → y = q)
        (hstanding : p.standing (.param q) x = .param y) (hyps : y ∈ ps → y = q) :
        FailsIff I (paramsOf seen ((x :: ps).map (p.standing (.param q))))
          (· = .failed (.argument (.parameterTwice q.name)))
          (y ∈ seen ∨ p ∈ ps ∧ q ∈ ps ∨ (p ∈ ps ∨ q ∈ ps) ∧ q ∈ y :: seen) := by
      have hany : seen.any (·.id == y.id) = true ↔ y ∈ seen := by
        rw [List.any_eq_true]
        constructor
        · rintro ⟨z, hz, heq⟩
          exact F.param_eq (hnodes z (by simp [hz])) hy (by simpa using heq) ▸ hz
        · exact fun h => ⟨y, h, by simp⟩
      simp only [List.map_cons, paramsOf, hstanding, Expr.param?]
      by_cases h : y ∈ seen
      · rw [if_pos (hany.2 h)]
        obtain rfl := hyq h
        exact FailsIff.congr (.stop rfl) (by simp [h])
      · rw [if_neg (mt hany.1 h)]
        refine ((@ih (y :: seen) ?_ hps ?_).bind fun _ => .pure).congr (by simp [h])
        · simp only [List.cons_append, List.mem_cons, List.mem_append] at hnodes ⊢
          rintro z (rfl | hz | hz)
          · exact hy
          · exact hnodes z (.inl hz)
          · exact hnodes z (.inr (.inr hz))
        · intro z hz hz'
          rcases List.mem_cons.1 hz' with rfl | hz'
          · exact hyps hz
          · exact hseen z (by simp [hz]) hz'
    by_cases hxp : x = p
    · subst hxp
      refine (step hq (fun _ => rfl) (Param.standing_self ..) fun _ => rfl).congr ?_
      simp only [List.mem_cons, hne, hx]
      tauto
    · have hxseen : x ∈ seen → x = q := hseen x (by simp)
      refine (step (hnodes x (by simp)) hxseen (Param.standing_of_ne hxp)
        fun h => absurd h hx).congr ?_
      by_cases hxq : x = q
      · subst hxq
        simp only [List.mem_cons, hx, Ne.symm hxp]
        tauto
      · have hnot : x ∉ seen := fun h => hxq (hxseen h)
        simp only [List.mem_cons, hnot, Ne.symm hxp, Ne.symm hxq]
        tauto

/-- What comes to stand in the places of parameters are parameters, unless one of them is given a
source that is none. -/
theorem Param.requireParams_failsIff (ps : List Param) :
    FailsIff I (requireParams ps (ps.map (p.standing source))) (· = Replacement.fault p source)
      (p ∈ ps ∧ source.param? = none) := by
  induction ps with
  | nil => exact FailsIff.pure.congr (by simp)
  | cons x ps ih =>
    rw [List.map_cons, requireParams]
    by_cases hx : x = p
    · subst hx
      rw [standing_self]
      by_cases hsource : source.param? = none
      · rw [if_pos (by simp [hsource])]
        refine FailsIff.congr (.stop ?_) (by simp [hsource])
        cases source <;> first | rfl | cases hsource
      · rw [if_neg (by simpa using hsource)]
        exact ih.congr (by simp [hsource])
    · rw [standing_of_ne hx]
      exact ih.congr (by simp [Ne.symm hx])

section

variable (hp : F.nodes (.param p)) (hsource : F.nodes source) (hne : source ≠ .param p)
  (hflat : source.outermostBelow (Expr.param p).same = [])

include hflat

/-- The source is put in the place of the parameter, wherever that is met. -/
theorem Visitor.judge_replacing_of_same {e : Expr} (h : (Expr.param p).same e = true) :
    Yields I ((Visitor.replacing [⟨.param p, source⟩] 1).judge e) (.put source) := by
  have hfind : Replacement.find? [⟨.param p, source⟩] e = some source := by
    simp [Replacement.find?, h]
  have hwalk : Yields I (source.walk (replacing [⟨.param p, source⟩] 0)) source := by
    refine walk_yields ?_ (Replacement.flat_one hflat _ (List.mem_singleton_self _))
    intro e he t ht
    rw [judge_replacing_of_not_old he]
    exact ⟨ht, rfl⟩
  simp only [replacing, hfind]
  exact hwalk.bind .pure

theorem Visitor.judge_replacing_self :
    Yields I ((Visitor.replacing [⟨.param p, source⟩] 1).judge (.param p)) (.put source) :=
  judge_replacing_of_same hflat (Expr.same_refl _)

include hp

omit hflat in
/-- A node other than the parameter is entered. -/
theorem Visitor.judge_replacing_of_ne {e : Expr} (he : F.nodes e) (hne : e ≠ .param p) :
    Yields I ((Visitor.replacing [⟨.param p, source⟩] 1).judge e) .enter := by
  intro t ht
  rw [judge_replacing_of_not_old]
  · exact ⟨ht, rfl⟩
  · rw [Replacement.isOld_eq_false_iff]
    intro r hr
    obtain rfl := List.mem_singleton.1 hr
    rw [← Bool.not_eq_true]
    exact fun h => hne (F.eq_of_same hp he h).symm

theorem Visitor.walkList_replacing {ps : List Param} (hps : ∀ x ∈ ps, F.nodes (.param x)) :
    Yields I (Expr.walkList (.replacing [⟨.param p, source⟩] 1) (ps.map .param))
      (ps.map (p.standing source)) := by
  refine walkList_yields ?_
  rw [List.forall₂_map_left_iff, List.forall₂_map_right_iff, List.forall₂_same]
  intro x hx
  by_cases hxp : x = p
  · subst hxp
    rw [Param.standing_self]
    exact (judge_replacing_self hflat).bind .pure
  · rw [Param.standing_of_ne hxp]
    exact (judge_replacing_of_ne hp (hps x hx) (by simpa using hxp)).bind .pure

include hsource hne

/-- The visit to a lambda fails if the lambda refuses or the visit to its body does. -/
theorem Visitor.walkFn_replacing {f : Lambda} (hf : F.fns f)
    (hids : (f.params.map (·.id)).Nodup)
    (hbody : FailsIff (fun _ => True) ((Visitor.replacing [⟨.param p, source⟩] 1).apply f.body)
      (· = Replacement.fault p source) (f.body.Blocks p source)) :
    FailsIff (fun _ => True) (f.walk (.replacing [⟨.param p, source⟩] 1))
      (· = Replacement.fault p source) (f.Refuses p source ∨ f.body.Blocks p source) := by
  have hnodes : ∀ x ∈ f.params, F.nodes (.param x) := fun x => F.param hf
  obtain ⟨i, ps, b⟩ := f
  have hmake (hparam : ¬ (p ∈ ps ∧ source.param? = none)) (b' : Expr) : FailsIff (fun _ => True)
      (if (Expr.sameAll (ps.map (p.standing source)) (ps.map .param) && b'.same b) = true then
        pure ⟨i, ps, b⟩ else Lambda.ofExprs (ps.map (p.standing source)) b')
      (· = Replacement.fault p source) (p ∈ ps ∧ ∃ q ∈ ps, source = .param q) := by
    by_cases hmem : p ∈ ps
    · obtain ⟨q, rfl⟩ : ∃ q, source = .param q := by
        cases source <;> first | exact ⟨_, rfl⟩ | exact absurd ⟨hmem, rfl⟩ hparam
      have hchanged : Expr.sameAll (ps.map (p.standing (.param q))) (ps.map .param) = false := by
        simp only [Expr.sameAll, List.zip_map', List.all_map, List.all_eq_false]
        refine ⟨p, hmem, ?_⟩
        simp only [Function.comp, Param.standing_self]
        exact fun h => hne (F.eq_of_same hsource hp h)
      rw [hchanged, Bool.false_and, if_neg Bool.false_ne_true]
      refine ((Lambda.paramsOf_failsIff hsource (fun h => hne (h ▸ rfl)) ?_
        hids.of_map (by simp)).bind fun _ => FailsIff.of_reaches (Q := fun _ => True) ?_).congr ?_
      · simpa using hnodes
      · exact Reaches.bind (P := fun _ => True) (fun _ _ => ⟨trivial, _, rfl, trivial⟩) fun _ _ =>
          .pure trivial
      · simp [hmem]
    · have hkept : ps.map (p.standing source) = ps.map .param :=
        List.map_congr_left fun x hx => Param.standing_of_ne fun h => hmem (h ▸ hx)
      rw [hkept]
      refine FailsIff.congr (B := False) ?_ (by simp [hmem])
      split
      · exact .pure
      · exact .of_reaches (Lambda.ofExprs_reaches hids b')
  rw [Lambda.walk_eq]
  refine FailsIff.congr (B := (p ∈ ps ∧ source.param? = none) ∨ b.Blocks p source ∨
    (p ∈ ps ∧ ∃ q ∈ ps, source = .param q)) ?_ ?_
  · refine (walkList_replacing hp hflat hnodes).next ?_
    exact (Param.requireParams_failsIff ps).next fun h _ => hbody.bind fun b' => hmake h b'
  · rw [Lambda.refuses_iff, or_left_comm, or_comm]

/-- The replacement fails in an expression exactly if a lambda inside refuses. -/
theorem Visitor.apply_replacing {e : Expr} (he : F.nodes e) (hformed : e.WellFormed) :
    FailsIff (fun _ => True) ((Visitor.replacing [⟨.param p, source⟩] 1).apply e)
      (· = Replacement.fault p source) (e.Blocks p source) := by
  induction e using Expr.byPart with
  | h e ihpart ihfn =>
    by_cases hep : e = .param p
    · subst hep
      refine FailsIff.congr (B := False) ((judge_replacing_self hflat).next FailsIff.pure) ?_
      exact iff_of_false id Expr.not_someFn_param
    · refine (judge_replacing_of_ne hp he hep).next (FailsIff.congr ?_ Expr.someFn_iff.symm)
      refine walk_failsIff (fun _ h => h)
        (fun d hd => ihpart d hd (F.part he hd) (hformed.part hd)) fun f hf => ?_
      exact walkFn_replacing hp hsource hne hflat (F.fn he hf) (hformed.fn hf).1
        (ihfn f hf (F.body (F.fn he hf)) (hformed.fn hf).2)

end

/-! ## Substitution -/

/-- Replacements that are flat and replace no node by itself pass the check. -/
theorem Replacement.check_yields {rs : List Replacement}
    (hself : ∀ r ∈ rs, r.old.same r.new = false) (hflat : Flat rs) : Yields I (check rs) () := by
  have hnext (i : Nat) : (rs[i]?.map (leadsTo rs)).getD [] = [] := by
    cases h : rs[i]? with
    | none => rfl
    | some r => simp [leadsTo, hflat r (List.mem_of_getElem? h)]
  have hexplore (done : List Nat) (i : Nat) : ∃ done', explore
      (fun i => (rs[i]?.map (leadsTo rs)).getD []) (rs.length + 1) [] done i = .ok done' := by
    simp only [explore, hnext]
    split
    · exact ⟨_, rfl⟩
    · exact ⟨_, rfl⟩
  have hall (is done : List Nat) : ∃ done', is.foldlM (explore
      (fun i => (rs[i]?.map (leadsTo rs)).getD []) (rs.length + 1) []) done = .ok done' := by
    induction is generalizing done with
    | nil => exact ⟨done, rfl⟩
    | cons i is ih =>
      obtain ⟨done', h⟩ := hexplore done i
      rw [List.foldlM_cons, h]
      exact ih done'
  have hcyclic : cyclic? rs = none := by
    obtain ⟨done', h⟩ := hall (List.range rs.length) []
    simp only [cyclic?, h]
  have hfind : rs.find? (fun r => r.old.same r.new) = none := by
    simpa using hself
  intro t ht
  simp [check, hfind, hcyclic, ht]

section

variable (hp : F.nodes (.param p)) (hsource : F.nodes source) (hne : source ≠ .param p)
  (hflat : source.outermostBelow (Expr.param p).same = [])

include hp hsource hne hflat

theorem Replacement.check_one : Yields I (check [⟨.param p, source⟩]) () := by
  refine check_yields (fun r hr => ?_) (flat_one hflat)
  obtain rfl := List.mem_singleton.1 hr
  rw [← Bool.not_eq_true]
  exact fun h => hne (F.eq_of_same hp hsource h).symm

/-- Replacing a parameter by a source fails exactly if a lambda inside refuses. -/
theorem Expr.substitute_failsIff {e : Expr} (he : F.nodes e) (hformed : e.WellFormed) :
    FailsIff (fun _ => True) (e.substitute [⟨.param p, source⟩]) (· = Replacement.fault p source)
      (e.Blocks p source) :=
  (Replacement.check_one hp hsource hne hflat).next
    (Visitor.apply_replacing hp hsource hne hflat he hformed)

theorem Lambda.substitute_failsIff {f : Lambda} (hf : F.fns f) (hformed : f.WellFormed) :
    FailsIff (fun _ => True) (f.substitute [⟨.param p, source⟩]) (· = Replacement.fault p source)
      (f.Refuses p source ∨ f.body.Blocks p source) :=
  (Replacement.check_one hp hsource hne hflat).next
    (Visitor.walkFn_replacing hp hsource hne hflat hf hformed.1
      (Visitor.apply_replacing hp hsource hne hflat (F.body hf) hformed.2))

end

/-! ## Inlining -/

/-- A parameter that is given a new node is bound by the lambdas that bound it before. -/
theorem Expr.Becomes.blocks_iff {o : Param} (ho : ¬ F.nodes (.param o)) {G : Forest}
    (hoG : G.nodes (.param o)) (hsource : source.param? = none) {e e' : Expr} (he : F.nodes e)
    (h : e.Becomes (.replacing [⟨.param p, .param o⟩]) e') :
    e.Blocks p source ↔ e'.Blocks o source := by
  have hrefuses {x : Param} {f : Lambda} : f.Refuses x source ↔ x ∈ f.params := by
    rw [Lambda.refuses_iff]
    refine ⟨fun h => h.elim And.left And.left, fun h => .inl ⟨h, hsource⟩⟩
  refine h.someFn_iff (Judgement.replacing_one_renames hoG) (fun {f f'} hf hbecomes => ?_) he
  rw [hrefuses, hrefuses]
  constructor
  · intro hp
    obtain ⟨y, hy, hpy⟩ := forall₂_mem_left hbecomes.params hp
    rcases Param.becomes_replacing_one.1 hpy with ⟨-, heq⟩ | ⟨hne, -⟩
    · exact Expr.param.inj heq ▸ hy
    · exact absurd rfl hne
  · intro ho'
    obtain ⟨x, hx, hxo⟩ := forall₂_mem_right hbecomes.params ho'
    rcases Param.becomes_replacing_one.1 hxo with ⟨rfl, -⟩ | ⟨-, rfl⟩
    · exact hx
    · exact absurd (F.param hf hx) ho

/-- A lambda that is given a new parameter and then the source in its place fails exactly if a
lambda inside refuses the source. -/
theorem Lambda.substitute_twice_failsIff {f : Lambda} {o : Param} {t : Trail}
    (hF : F.Below o.id) (ht : t.next = o.id + 1) (hname : o.name = p.name) (hf : F.fns f)
    (hformed : f.WellFormed) (hp : F.nodes (.param p)) (hs : F.nodes source)
    (hsource : source.param? = none) :
    let run := do
      let renamed ← f.substitute [⟨.param p, .param o⟩]
      renamed.body.substitute [⟨.param o, source⟩]
    (f.body.Blocks p source → (outcome run t).1 = .error (Replacement.fault p source)) ∧
      (¬ f.body.Blocks p source → ∃ e, (outcome run t).1 = .ok e) := by
  intro run
  have ho : ¬ F.nodes (.param o) := fun h => Nat.lt_irrefl _ (hF.node h)
  obtain ⟨G, hFG, hG, hoG⟩ := Forest.exists_grow (F := F) (e := .param o) hF (by simp [Expr.parts])
    (by simp [Expr.fn?])
  replace hG : G.Below t.next := ht ▸ hG
  -- the new parameter is bound nowhere, so that the lambda can be given it
  have hfree (g : Lambda) (hg : F.fns g) : ¬ g.Refuses p (.param o) :=
    fun h => ho (F.param hg (h.2 _ rfl))
  obtain ⟨renamed, t', hrenamed, -, -⟩ := ((Lambda.substitute_failsIff (hFG.1 _ hp) hoG
    (fun h => ho (h ▸ hp)) rfl (hFG.2 _ hf) hformed).reaches
      (not_or.2 ⟨hfree f hf, F.not_someFn hfree (F.body hf)⟩)).exists_outcome trivial
  obtain ⟨H, hGH, -, hrenamedH, hbecomes⟩ := Lambda.substitute_becomes (Replacement.flat_one rfl)
    (by simpa using hFG.1 _ hp) (by simpa using hoG) (hFG.2 _ hf) hG hrenamed
  have hrenamedFormed : renamed.WellFormed :=
    ends_iff.1 (Lambda.substitute_ends (by simp) hformed) hrenamed
  have hflat : source.outermostBelow (Expr.param o).same = [] :=
    (Expr.outermost_eq_nil_iff.1 (Forest.outermost_fresh hF hs)).2
  have hfault : Replacement.fault o source = Replacement.fault p source := by
    cases source with
    | param => cases hsource
    | _ => simp only [Replacement.fault, hname]
  have h := (Expr.substitute_failsIff (hGH.1 _ hoG) (hGH.1 _ (hFG.1 _ hs)) (fun h => ho (h ▸ hs))
    hflat (H.body hrenamedH) hrenamedFormed.2 t' trivial).2
  rw [← hbecomes.body.blocks_iff ho hoG hsource (F.body hf), hfault] at h
  simpa only [run, outcome_bind_of_ok hrenamed, exists_eq_right] using h

/-- Inlining a lambda over a source fails, once the types agree, exactly if a lambda inside
refuses. -/
theorem Lambda.inline_failsIff {n : NodeId} {f : Lambda} (hF : F.Below n) (hf : F.fns f)
    (hformed : f.WellFormed) (hs : F.nodes source) (hparams : f.params = [p])
    (hty : p.ty = source.ty) :
    FailsIff (n ≤ ·.next) (f.inline source) (· = Replacement.fault p source)
      (source ≠ .param p ∧ f.body.Blocks p source) := by
  have hp : F.nodes (.param p) := F.param hf (by simp [hparams])
  intro t ht
  refine ⟨(Lambda.inline_advances f source (.above n) t ht).1, ?_⟩
  simp only [inline, hparams, hty, ne_eq, not_true, if_false, exists_eq_right]
  by_cases hid : p.id = source.id
  · obtain rfl : .param p = source := F.node_eq hp hs hid
    simp [Expr.id]
  have hne : source ≠ .param p := fun h => hid (h ▸ rfl)
  simp only [hne, not_false_iff, true_and]
  rw [if_neg hid]
  by_cases hoccurs : (Expr.param p).occursIn source = true
  · -- the source mentions the parameter, so that it is no parameter itself
    rw [if_pos hoccurs]
    have hsource : source.param? = none := by
      cases source with
      | param q =>
        have hsame : (Expr.param p).same (.param q) = true := by
          by_contra h
          simp [Expr.occursIn, Expr.outermost, Expr.orBelow, Expr.outermostBelow, h] at hoccurs
        exact absurd (F.eq_of_same hp hs hsame).symm hne
      | _ => rfl
    have hmake : outcome (Param.make p.name source.ty) t =
      (.ok ⟨t.next, p.name, source.ty⟩, { t with next := t.next + 1 }) := rfl
    rw [outcome_bind_of_ok hmake]
    exact Lambda.substitute_twice_failsIff (hF.mono ht) rfl rfl hf hformed hp hs hsource
  · rw [if_neg hoccurs]
    rw [Bool.not_eq_true, Expr.occursIn_eq_false_iff] at hoccurs
    simpa only [exists_eq_right] using (Expr.substitute_failsIff hp hs hne
      (Expr.outermost_eq_nil_iff.1 hoccurs).2 (F.body hf) hformed.2 t trivial).2

end

end ObjectMapping
