import Mathlib
import ObjectMapping.Proofs.Comparing

/-!
# Symmetry of structural equality

The comparison is the same from either side on trees in which no lambda binds a node again : then a
node has one binder at most on either side, and it does not matter from which side the binder is
looked up. A lambda that binds a node again breaks the symmetry. On the left the lookup finds the
inner binder, on the right it only asks for the node, so `b => a => b` equals `x => x => x` and not
the other way round (`structuralEquality_asymm`).

The comparison goes from expressions to the values of their constants and back to the lambdas that
values hold, so the three statements are proved together, by induction over what `BindsAnew` says.
-/

namespace ObjectMapping

/-! ## Scopes -/

namespace Scope

variable {scope : Scope}

/-- The scope as the other side has it. -/
def swap (scope : Scope) : Scope :=
  scope.map Prod.swap

@[simp]
theorem lefts_swap : scope.swap.lefts = scope.rights := by
  simp [lefts, rights, swap, Function.comp_def]

@[simp]
theorem rights_swap : scope.swap.rights = scope.lefts := by
  simp [lefts, rights, swap, Function.comp_def]

theorem swap_enter (ps qs : List Param) :
    (scope.enter ps qs).swap = scope.swap.enter qs ps := by
  rw [enter, enter, ← List.zip_swap ps qs]
  simp only [swap, List.map_append, List.map_reverse, List.map_map]
  rfl

/-- If no node is bound twice on either side, parameters correspond from both sides. -/
theorem relates_swap (hlefts : scope.lefts.Nodup) (hrights : scope.rights.Nodup) {p q : Param}
    (h : scope.relates p q = true) : scope.swap.relates q p = true := by
  obtain ⟨hpos, hname⟩ := (relates_iff hrights).1 h
  refine (relates_iff (by simpa using hlefts)).2 ?_
  rw [lefts_swap, rights_swap]
  refine ⟨hpos.symm, hname.imp (fun hp => ?_) Eq.symm⟩
  by_contra hq
  rw [List.idxOf?_eq_none_iff.2 hq, List.idxOf?_eq_none_iff] at hpos
  exact hpos hp

end Scope

/-! ## Expressions, lambdas and values -/

mutual

/-- Expressions that match, where neither binds a node again, match the other way round. -/
theorem Expr.BindsAnew.matches_swap {bound : List NodeId} {a : Expr} :
    a.BindsAnew bound → ∀ {scope : Scope}, bound = scope.lefts → scope.lefts.Nodup →
      scope.rights.Nodup → ∀ {b : Expr}, b.BindsAnew scope.rights → scope.Matches a b →
        scope.swap.Matches b a
  | .mk hparts hfn hvalue, scope, hbound, hlefts, hrights, b, hb, h => by
    have hpart : ∀ d ∈ a.parts, ∀ e ∈ b.parts, scope.Matches d e → scope.swap.Matches e d :=
      fun d hd _ he => (hparts d hd).matches_swap hbound hlefts hrights (hb.part he)
    have hlambda : ∀ g ∈ b.fn?, ∀ f ∈ a.fn?, f.agreesIn scope g = true →
        g.agreesIn scope.swap f = true :=
      fun _ hg f hf => (hfn f hf).agreesIn_swap hbound (hb.fn hg)
    have hheld : ∀ v ∈ a.value?, ∀ w ∈ b.value?, v.equal w = true → w.equal v = true :=
      fun v hv _ hw => (hvalue v hv).equal_symm (hb.value hw)
    rw [Scope.matches_iff] at h ⊢
    rcases h with ⟨rfl, hid⟩ | ⟨hty, hagree⟩
    · exact .inl ⟨rfl, hid.symm⟩
    refine .inr ⟨hty.symm, ?_⟩
    rcases a.kind?_cases with ⟨p, rfl⟩ | ⟨id, ty, v, rfl⟩ | ⟨k, hk⟩
    · cases b with
      | param q =>
        rw [Expr.agreesIn] at hagree ⊢
        exact Scope.relates_swap hlefts hrights hagree
      | _ => simp [Expr.agreesIn] at hagree
    · cases b with
      | constant id' ty' w =>
        rw [Expr.agreesIn] at hagree ⊢
        exact hheld v rfl w rfl hagree
      | _ => simp [Expr.agreesIn] at hagree
    · obtain ⟨hk', hall, hfns⟩ := (Expr.agreesIn_of_kind? hk hty).1 hagree
      refine (Expr.agreesIn_of_kind? hk' hty.symm).2 ⟨hk, ?_, fun g hg f hf => ?_⟩
      · exact forall₂_flip_of_mem hall hpart
      · exact hlambda g hg f hf (hfns f hf g hg)

/-- Lambdas that agree, where neither binds a node again, agree the other way round. -/
theorem Lambda.BindsAnew.agreesIn_swap {bound : List NodeId} {f : Lambda} :
    f.BindsAnew bound → ∀ {scope : Scope}, bound = scope.lefts → ∀ {g : Lambda},
      g.BindsAnew scope.rights → f.agreesIn scope g = true → g.agreesIn scope.swap f = true
  | .mk hnodup hbody, scope, hbound, g, hg, h => by
    obtain ⟨htys, hmatch⟩ := Lambda.agreesIn_iff.1 h
    have hlength : f.params.length = g.params.length := by
      simpa [Lambda.paramTys] using congrArg List.length htys
    have hlefts : (scope.enter f.params g.params).lefts = f.binders scope.lefts :=
      Scope.lefts_enter hlength
    have hrights : (scope.enter f.params g.params).rights = g.binders scope.rights :=
      Scope.rights_enter hlength
    refine Lambda.agreesIn_iff.2 ⟨htys.symm, Scope.swap_enter _ _ ▸ ?_⟩
    exact hbody.matches_swap (hbound ▸ hlefts.symm) (hlefts ▸ hbound ▸ hnodup) (hrights ▸ hg.nodup)
      (hrights ▸ hg.body) hmatch

/-- Values that are equal, where no lambda in them binds a node again, are equal the other way
round. -/
theorem Value.BindsAnew.equal_symm {v : Value} :
    v.BindsAnew → ∀ {w : Value}, w.BindsAnew → v.equal w = true → w.equal v = true
  | .mk hfn hparts, w, hw, h => by
    have hpart : ∀ x ∈ v.parts, ∀ y ∈ w.parts, x.equal y = true → y.equal x = true :=
      fun x hx _ hy => (hparts x hx).equal_symm (hw.part hy)
    have hlambda : ∀ f g, v = .expression f → w = .expression g → f.agreesIn [] g = true →
        g.agreesIn [] f = true :=
      fun f _ hf hg => (hfn f hf).agreesIn_swap rfl (hg ▸ hw).fn
    cases v with
    | object i s fs =>
      cases w with
      | object j t gs =>
        rw [Value.equal_object] at h ⊢
        refine h.imp Eq.symm (And.imp Eq.symm fun hfields name => ?_)
        have hfield := hfields name
        have hfieldpart (v w : Value) (hv : Field.lookup name fs = some v)
            (hw : Field.lookup name gs = some w) : v.equal w = true → w.equal v = true :=
          hpart v (Field.mem_of_lookup hv) w (Field.mem_of_lookup hw)
        generalize Field.lookup name fs = o, Field.lookup name gs = o' at hfield hfieldpart ⊢
        cases hfield with
        | none => exact .none
        | some h => exact .some (hfieldpart _ _ rfl rfl h)
      | _ => simp [Value.equal] at h
    | sequence j vs =>
      cases w with
      | sequence k ws =>
        rw [Value.equal_sequence] at h ⊢
        exact ⟨h.1.symm, forall₂_flip_of_mem h.2 hpart⟩
      | _ => simp [Value.equal] at h
    | expression f =>
      cases w with
      | expression g =>
        rw [Value.equal] at h ⊢
        exact hlambda f g rfl rfl h
      | _ => simp [Value.equal] at h
    | float x =>
      cases w with
      | float y =>
        -- a float that is not a number equals nothing, itself included, from either side
        rw [Value.equal] at h ⊢
        rw [BEq.comm, h]
      | _ => simp [Value.equal] at h
    | _ => cases w <;> simp_all [Value.equal]

end

/-- Structural equality of expressions, of lambdas and of values is symmetric where no lambda binds
a node again. -/
theorem structuralEquality_comm (a b : Expr) (f g : Lambda) (v w : Value) :
    (a.BindsAnew [] → b.BindsAnew [] → a.structurallyEqual b = b.structurallyEqual a) ∧
    (f.BindsAnew [] → g.BindsAnew [] → f.structurallyEqual g = g.structurallyEqual f) ∧
    (v.BindsAnew → w.BindsAnew → v.equal w = w.equal v) := by
  have hscope : [] = Scope.lefts [] := rfl
  have expr {a b : Expr} (ha : a.BindsAnew []) (hb : b.BindsAnew []) :
      a.structurallyEqual b = true → b.structurallyEqual a = true :=
    ha.matches_swap hscope List.nodup_nil List.nodup_nil hb
  have lambda {f g : Lambda} (hf : f.BindsAnew []) (hg : g.BindsAnew []) :
      f.structurallyEqual g = true → g.structurallyEqual f = true :=
    hf.agreesIn_swap hscope hg
  refine ⟨fun ha hb => ?_, fun hf hg => ?_, fun hv hw => ?_⟩
  · exact Bool.eq_iff_iff.2 ⟨expr ha hb, expr hb ha⟩
  · exact Bool.eq_iff_iff.2 ⟨lambda hf hg, lambda hg hf⟩
  · exact Bool.eq_iff_iff.2 ⟨hv.equal_symm hw, hw.equal_symm hv⟩

theorem structuralEquality_comm_renamed :
    let f (x y : Param) : Lambda := ⟨4, [x], .lambda 3 ⟨5, [y], .param x⟩⟩
    let p : Param := ⟨0, "p", .int⟩
    let q : Param := ⟨1, "q", .int⟩
    let r : Param := ⟨2, "r", .int⟩
    let v (g : Lambda) : Value := .expression g
    let c (g : Lambda) : Expr := .constant 6 g.quotedTy (v g)
    ((c (f p q)).BindsAnew [] ∧ (c (f q r)).BindsAnew [] ∧
      (c (f p q)).structurallyEqual (c (f q r)) = (c (f q r)).structurallyEqual (c (f p q))) ∧
    ((f p q).BindsAnew [] ∧ (f q r).BindsAnew [] ∧
      (f p q).structurallyEqual (f q r) = (f q r).structurallyEqual (f p q)) ∧
    ((v (f p q)).BindsAnew ∧ (v (f q r)).BindsAnew ∧
      (v (f p q)).equal (v (f q r)) = (v (f q r)).equal (v (f p q))) ∧
    (f p q).structurallyEqual (f q r) = true := by
  intro f p q r v c
  have hfn (x y : Param) (hne : x.id ≠ y.id) : (f x y).BindsAnew [] := by
    refine .mk (by simp [f, Lambda.binders])
      (.mk (by simp [f, Expr.parts]) ?_ (by simp [f, Expr.value?]))
    rintro g ⟨⟩
    refine .mk (by simpa [f, Lambda.binders] using Ne.symm hne) (.mk ?_ ?_ ?_)
    all_goals simp [Expr.parts, Expr.fn?, Expr.value?]
  have hheld {g : Lambda} (hg : g.BindsAnew []) : (v g).BindsAnew := by
    refine .mk ?_ ?_
    all_goals simp_all [v, Value.parts]
  have hconstant {g : Lambda} (hg : g.BindsAnew []) : (c g).BindsAnew [] := by
    refine .mk ?_ ?_ ?_
    all_goals simp_all [c, Expr.parts, Expr.fn?, Expr.value?]
  have hf := hfn p q (by decide)
  have hg := hfn q r (by decide)
  obtain ⟨hexpr, hlambda, hvalue⟩ := structuralEquality_comm (c (f p q)) (c (f q r)) (f p q) (f q r)
    (v (f p q)) (v (f q r))
  exact ⟨⟨hconstant hf, hconstant hg, hexpr (hconstant hf) (hconstant hg)⟩,
    ⟨hf, hg, hlambda hf hg⟩, ⟨hheld hf, hheld hg, hvalue (hheld hf) (hheld hg)⟩, by decide⟩

/-- A lambda that binds a node again is equal to one that does not from one side only. -/
theorem structuralEquality_asymm :
    let b : Param := ⟨0, "b", .int⟩
    let a : Param := ⟨1, "a", .int⟩
    let x : Param := ⟨2, "x", .int⟩
    let f : Lambda := ⟨5, [b], .lambda 3 ⟨4, [a], .param b⟩⟩
    let g : Lambda := ⟨8, [x], .lambda 6 ⟨7, [x], .param x⟩⟩
    (f.structurallyEqual g = true ∧ g.structurallyEqual f = false) ∧
    ((Expr.lambda 9 f).structurallyEqual (.lambda 10 g) = true ∧
      (Expr.lambda 10 g).structurallyEqual (.lambda 9 f) = false) ∧
    (Value.expression f).equal (.expression g) = true ∧
      (Value.expression g).equal (.expression f) = false := by
  decide

end ObjectMapping
