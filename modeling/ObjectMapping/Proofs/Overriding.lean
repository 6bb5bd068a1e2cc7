import ObjectMapping.Proofs.MergedFields
import ObjectMapping.Proofs.Unfilled

/-!
# Overriding objects

Two lambdas construct objects, and so does the lambda that merges them. `Value.Override` says of
three objects that the third is the second laid over the first, field by field and, where both sides
construct the object in a field, again inside. `Lambda.merge_overrides` says that merged lambdas
yield such objects : wherever the two lambdas succeed on an argument, the merge succeeds, and what
it makes succeeds on that argument and yields the one object laid over the other.

Each invocation makes its own objects, so that values are the same up to their identities
(`Value.Agrees`).
-/

namespace ObjectMapping

open RunM

/-! ## Objects laid over objects -/

/-- The values are the same up to the identities of objects made from `n` on. -/
def Value.Agrees (F : Forest) (n : NodeId) (v w : Value) : Prop :=
  ∃ W : World F n, v.Alike W w

mutual

/-- The last object is that of the extension laid over that of the source, where `R` says when a
field has the value that it has on one side. -/
inductive Value.Override (R : Value → Value → Prop) : Expr → Expr → Value → Value → Value → Prop
  | construct {i j a b c : NodeId} {sty ty : Ty} {source extension : List Assignment}
      {fs gs kept added : List Field} :
    List.Forall₂ (Field.Override R)
      (source.map fun x => (x, Assignment.find? x.member extension,
        Field.lookup x.member.name fs, Field.lookup x.member.name gs)) kept →
    List.Forall₂ (fun x f => f.name = x.member.name ∧
        ∃ u, Field.lookup x.member.name gs = some u ∧ R u f.value)
      (extension.filter fun x => (Assignment.find? x.member source).isNone) added →
    Value.Override R (.construct i sty [] source) (.construct j ty [] extension)
      (.object a sty.text fs) (.object b ty.text gs) (.object c ty.text (kept ++ added))

/-- What becomes of a field that the source assigns, given the assignment of the extension to it and
the values that the field has on the two sides. -/
inductive Field.Override (R : Value → Value → Prop) :
    Assignment × Option Assignment × Option Value × Option Value → Field → Prop
  /-- the extension does not assign the field -/
  | kept {a : Assignment} {v w : Value} {other : Option Value} : R v w →
    Field.Override R (a, none, some v, other) ⟨a.member.name, w⟩
  /-- both assign constructions -/
  | merged {a x : Assignment} {v u w : Value} : a.value.isConstruct = true →
    x.value.isConstruct = true → Value.Override R a.value x.value v u w →
    Field.Override R (a, some x, some v, some u) ⟨a.member.name, w⟩
  /-- both assign the field, and not both of them a construction -/
  | replaced {a x : Assignment} {u w : Value} {own : Option Value} :
    (a.value.isConstruct && x.value.isConstruct) = false → R u w →
    Field.Override R (a, some x, own, some u) ⟨a.member.name, w⟩

end

/-- The constructions that are merged have no constructor arguments, and members of the same name
are the same member. -/
inductive Expr.Mergeable : Expr → Expr → Prop
  | construct {i j : NodeId} {sty ty : Ty} {source extension : List Assignment} :
    Assignment.NamesApart (source ++ extension) →
    (∀ a ∈ source, ∀ x, Assignment.find? a.member extension = some x →
      Expr.Mergeable a.value x.value) →
    Expr.Mergeable (.construct i sty [] source) (.construct j ty [] extension)
  | value {s x : Expr} : (s.isConstruct && x.isConstruct) = false → Expr.Mergeable s x

/-- A well-formed tree of the forest that holds no placeholders, and lambdas and quotes only as
projections. -/
structure Expr.Ordinary (F : Forest) (e : Expr) : Prop where
  node : F.nodes e
  first : e.FirstOrder
  plain : e.outermost Expr.isPrevious = []
  formed : e.WellFormed

namespace Expr.Ordinary

variable {F : Forest} {i : NodeId} {ty : Ty} {as bs : List Assignment}

theorem value (h : (Expr.construct i ty as bs).Ordinary F) {a : Assignment} (ha : a ∈ bs) :
    a.value.Ordinary F := by
  have hpart : a.value ∈ (Expr.construct i ty as bs).parts :=
    List.mem_append_right _ (List.mem_map_of_mem ha)
  refine ⟨F.part h.node hpart, ?_, outermost_part h.plain hpart, h.formed.part hpart⟩
  cases h.first with | node _ hparts => exact hparts _ hpart

theorem nodup_names (h : (Expr.construct i ty as bs).Ordinary F) {all : List Assignment}
    (hall : Assignment.NamesApart all) (hmem : ∀ a ∈ bs, a ∈ all) :
    (bs.map (·.member.name)).Nodup :=
  Assignment.nodup_names hall (fun a ha => ⟨a, hmem a ha, rfl⟩)
    (Assignment.pairwise_iff.2 (wellFormed_construct.1 h.formed).1.2)

end Expr.Ordinary

/-! ## Values of the two sides -/

section

variable (host : Host) (k : Nat) (n : NodeId) (p : Param) (arg : Value)

/-- With the argument in place of the parameter, the expression has the value on a run that makes
its objects from `n` on. -/
def Expr.ComesTo (e : Expr) (v : Value) : Prop :=
  ∃ site t t', n ≤ t.next ∧ outcome (e.evalIn host (Function.callWithin host k)
    [Binding.ofArgs [p] [arg]] site) t = (.ok v, t')

/-- With the argument in place of the parameter, the expression has a value with the property on all
such runs. -/
def Expr.Succeeds (e : Expr) (Q : Value → Prop) : Prop :=
  ∀ site, Reaches (n ≤ ·.next) (e.evalIn host (Function.callWithin host k)
    [Binding.ofArgs [p] [arg]] site) Q

end

section

variable {F : Forest} {n : NodeId} {host : Host} {k : Nat} {p q : Param} {arg : Value}

/-- The fields of an object have the values that were assigned to them. -/
theorem Expr.ComesTo.construct {i : NodeId} {ty : Ty} {as : List Assignment} {v : Value}
    (h : (Expr.construct i ty [] as).ComesTo host k n p arg v)
    (hnames : (as.map (·.member.name)).Nodup) :
    ∃ j fs, v = .object j ty.text fs ∧ ∀ a ∈ as, ∃ u, Field.lookup a.member.name fs = some u ∧
      a.value.ComesTo host k n p arg u := by
  obtain ⟨site, t, t', hle, hrun⟩ := h
  obtain ⟨j, fs, t₁, rfl, hfs⟩ := outcome_evalIn_construct hrun
  refine ⟨j, fs, rfl, fun a ha => ?_⟩
  obtain ⟨u, s, t₂, t₃, hu, hval, hnext⟩ := Assignment.outcome_evalList_field
    (Function.callWithin_advances host k) hnames ha hfs
  exact ⟨u, hu, s, t₂, t₃, Nat.le_trans hle hnext, hval⟩

/-- A construction succeeds if all that it assigns does. -/
theorem Expr.succeeds_construct {i : NodeId} {ty : Ty} {Ss : List (Field → Prop)}
    {bs : List Assignment} (hnames : (bs.map (·.member.name)).Nodup)
    (h : List.Forall₂ (fun S b => b.value.Succeeds host k n p arg fun w => S ⟨b.member.name, w⟩)
      Ss bs) :
    (Expr.construct i ty [] bs).Succeeds host k n p arg fun w =>
      ∃ j fs, w = .object j ty.text fs ∧ List.Forall₂ (fun S f => S f) Ss fs :=
  evalIn_construct_reaches (fun _ => Nat.le_succ_of_le) h hnames

section

variable (hhost : host.Respects F n) (hknown : F.Known n) (harg : arg.Known F n)

include hhost hknown harg

/-- An expression that is left as it is has the value that it had. -/
theorem Expr.ComesTo.succeeds {e e' : Expr} {v : Value} (he : e.Ordinary F)
    (hv : e.ComesTo host k n p arg v) (h : e.Becomes (.replacing []) e') :
    e'.Succeeds host k n p arg (v.Agrees F n) := by
  obtain ⟨site, t, t', hle, hrun⟩ := hv
  have same {y z : Param} (h : y.Becomes (.replacing []) z) : y = z := by
    simpa [Param.Becomes, Judgement.replacing, eq_comm] using h
  have hJ : (Judgement.replacing []).Renames F := Judgement.replacing_renames (by simp) (by simp)
  have hclash : ¬ e.Clashes (.replacing []) :=
    F.not_clashes (fun _ _ hx hy => (same hx).trans (same hy).symm) he.node
  exact fun site => h.reaches_alike hhost hknown hJ he.node he.first hclash
    (.cons (Binding.ofArgs_alike _ (.cons harg .nil)) .nil)
    (fun y z _ hz => .inl (by rw [same hz])) hle hrun

/-- An expression has the value that it had once its parameter is renamed to one that it does not
hold. -/
theorem Expr.ComesTo.succeeds_renamed (hp : F.nodes (.param p)) (hq : F.nodes (.param q))
    {e e' : Expr} {v : Value} (he : e.Ordinary (F.within (· ≠ .param q)))
    (hv : e.ComesTo host k n p arg v) (h : e.Becomes (.replacing [⟨.param p, .param q⟩]) e') :
    e'.Succeeds host k n q arg (v.Agrees F n) := by
  obtain ⟨site, t, t', hle, hrun⟩ := hv
  have hclash : ¬ e.Clashes (.replacing [⟨.param p, .param q⟩]) :=
    Forest.not_clashes_of_fresh (F := F.within (· ≠ .param q)) (fun h => h.2.head rfl) he.node
  refine fun site => h.reaches_alike hhost hknown (Judgement.replacing_one_renames hq) he.node.1
    he.first hclash (.cons (Binding.ofArgs_alike _ (.cons harg .nil)) .nil) (fun y z hy hz => ?_)
    hle hrun
  rcases Param.becomes_replacing_one.1 hz with ⟨rfl, hzq⟩ | ⟨hne, rfl⟩
  · obtain rfl := Expr.param.inj hzq
    exact .inl (by simp [Env.lookup, Binding.ofArgs])
  · refine .inr (Env.lookup_ofArgs_of_not_mem (fun x hx heq => ?_) _)
    obtain rfl := List.mem_singleton.1 hx
    exact hne (F.param_eq (F.free he.node.1 hy) hp heq.symm)

end

/-! ## What a merged construction assigns -/

/-- Without placeholders, a value of the extension is left as it is. -/
theorem Expr.Becomes.replacing_of_plain {J : Judgement} (hstands : ∀ {e}, e.isPrevious = false →
    ¬ J.stands e) (hputs : ∀ {e e'}, e.isPrevious = false → ¬ J.puts e e') {e e' : Expr}
    (he : e.outermost isPrevious = []) (h : e.Becomes J e') : e.Becomes (.replacing []) e' :=
  h.imp (P := (·.isPrevious = false)) hstands (fun he hput => absurd hput (hputs he))
    (fun _ _ => by simp [Judgement.replacing]) (all_of_outermost he)

theorem Expr.Becomes.replacing_of_overriding {J : Judgement} {v e e' : Expr}
    (he : e.outermost isPrevious = []) (h : e.Becomes (J.overriding v) e') :
    e.Becomes (.replacing []) e' := by
  refine h.replacing_of_plain (fun _ hstands => hstands) (fun hplain hputs => ?_) he
  exact Bool.false_ne_true (hplain.symm.trans hputs.1)

theorem Expr.Becomes.replacing_of_filling {e e' : Expr} (he : e.outermost isPrevious = [])
    (h : e.Becomes (.filling none) e') : e.Becomes (.replacing []) e' := by
  refine h.replacing_of_plain (fun hplain hstands => ?_) (fun _ hputs => ?_) he
  · exact Bool.false_ne_true (hplain.symm.trans hstands.1)
  · cases hputs.2

theorem Assignment.name_eq_of_find? {m : Member} {as : List Assignment} {x : Assignment}
    (h : find? m as = some x) : x.member.name = m.name :=
  congrArg Prod.snd (key_eq_of_find? h)

section

variable (hhost : host.Respects F n) (hknown : F.Known n) (harg : arg.Known F n)

include hhost hknown harg

/-- What a member comes to that the extension alone assigns. -/
theorem Assignment.succeeds_added {a b : Assignment} {gs : List Field} (ha : a.value.Ordinary F)
    {u : Value} (hu : Field.lookup a.member.name gs = some u)
    (hcomes : a.value.ComesTo host k n q arg u) (hmember : b.member = a.member)
    (h : a.value.Becomes (.filling none) b.value) :
    b.value.Succeeds host k n q arg fun w => b.member.name = a.member.name ∧
      ∃ u, Field.lookup a.member.name gs = some u ∧ u.Agrees F n w :=
  fun site => (hcomes.succeeds hhost hknown harg ha (h.replacing_of_filling ha.plain) site).imp
    fun _ hw => ⟨congrArg Member.name hmember, u, hu, hw⟩

variable (hp : F.nodes (.param p)) (hq : F.nodes (.param q))

include hp hq

/-- What a member comes to that the source assigns, given what constructions on both sides come
to. -/
theorem Assignment.Override.succeeds {extension : List Assignment} {a b : Assignment} {v : Value}
    {gs : List Field} (ha : a.value.Ordinary (F.within (· ≠ .param q)))
    (hv : a.value.ComesTo host k n p arg v)
    (hx : ∀ x, Assignment.find? a.member extension = some x → x.value.Ordinary F ∧
      ∃ u, Field.lookup x.member.name gs = some u ∧ x.value.ComesTo host k n q arg u)
    (ih : ∀ x u r, Assignment.find? a.member extension = some x →
      x.value.ComesTo host k n q arg u →
      a.value.Override (.replacing [⟨.param p, .param q⟩]) x.value r →
      r.Succeeds host k n q arg (Value.Override (Value.Agrees F n) a.value x.value v u))
    (h : Assignment.Override (.replacing [⟨.param p, .param q⟩])
      (a, Assignment.find? a.member extension) b) :
    b.value.Succeeds host k n q arg fun w => Field.Override (Value.Agrees F n)
      (a, Assignment.find? a.member extension, some v, Field.lookup a.member.name gs)
      ⟨b.member.name, w⟩ := by
  generalize hfind : Assignment.find? a.member extension = o at h hx ih
  cases h with
  | kept h =>
    exact fun site => (hv.succeeds_renamed hhost hknown harg hp hq ha h site).imp
      fun _ hw => .kept (a := ⟨_, _⟩) hw
  | @merged m e r x hc hxc h =>
    obtain ⟨-, u, hu, hcomes⟩ := hx _ rfl
    have hname : x.member.name = m.name := name_eq_of_find? hfind
    rw [← hname, hu]
    refine fun site => (ih _ _ _ rfl hcomes h site).imp fun _ hw => ?_
    rw [hname]
    exact .merged (a := ⟨_, _⟩) hc hxc hw
  | @replaced m e r x hne h =>
    obtain ⟨hxo, u, hu, hcomes⟩ := hx _ rfl
    have hname : x.member.name = m.name := name_eq_of_find? hfind
    rw [← hname, hu]
    refine fun site => (hcomes.succeeds hhost hknown harg hxo
      (h.replacing_of_overriding hxo.plain) site).imp fun _ hw => ?_
    rw [hname]
    exact .replaced (a := ⟨_, _⟩) hne hw

/-- Where two constructions succeed, each with the argument in place of its own parameter, what a
merge makes of them does, and yields the one object laid over the other. -/
theorem Expr.Override.succeeds {s x r : Expr} {v u : Value}
    (h : s.Override (.replacing [⟨.param p, .param q⟩]) x r) (hmergeable : s.Mergeable x)
    (hs : s.Ordinary (F.within (· ≠ .param q))) (hx : x.Ordinary F)
    (hv : s.ComesTo host k n p arg v) (hu : x.ComesTo host k n q arg u) :
    r.Succeeds host k n q arg (Value.Override (Value.Agrees F n) s x v u) := by
  induction s using Expr.byParts generalizing x r v u with
  | construct i sty sargs source iha ihb =>
    cases h with
    | @construct _ j k' _ ty _ eargs args _ extension kept added hmembers hkept hadded hpairs =>
    cases hmergeable with
    | value hne => cases hne
    | construct hnames hrec =>
    obtain rfl : args = [] := by simpa using hmembers
    obtain ⟨a, fs, rfl, hfs⟩ :=
      hv.construct (hs.nodup_names hnames fun _ => List.mem_append_left _)
    obtain ⟨b, gs, rfl, hgs⟩ :=
      hu.construct (hx.nodup_names hnames fun _ => List.mem_append_right _)
    have hkept' : List.Forall₂ (fun S b =>
        b.value.Succeeds host k n q arg fun w => S ⟨b.member.name, w⟩)
        (source.map fun c => Field.Override (Value.Agrees F n) (c,
          Assignment.find? c.member extension, Field.lookup c.member.name fs,
          Field.lookup c.member.name gs)) kept := by
      rw [List.forall₂_map_left_iff] at hkept ⊢
      refine forall₂_imp_of_mem hkept fun c hc d hcd => ?_
      obtain ⟨w, hw, hcomes⟩ := hfs c hc
      rw [hw]
      refine hcd.succeeds hhost hknown harg hp hq (hs.value hc) hcomes (fun y hy => ?_)
        fun y u' r' hy hcomes' h => ?_
      · have hmem := Assignment.mem_of_find? hy
        exact ⟨hx.value hmem, hgs y hmem⟩
      · exact ihb c hc h (hrec c hc y hy) (hs.value hc) (hx.value (Assignment.mem_of_find? hy))
          hcomes hcomes'
    have hadded' : List.Forall₂ (fun S b =>
        b.value.Succeeds host k n q arg fun w => S ⟨b.member.name, w⟩)
        ((extension.filter fun c => (Assignment.find? c.member source).isNone).map
          fun c (f : Field) => f.name = c.member.name ∧
            ∃ u, Field.lookup c.member.name gs = some u ∧ u.Agrees F n f.value) added := by
      rw [List.forall₂_map_left_iff]
      refine forall₂_imp_of_mem hadded fun c hc d hcd => ?_
      have hc := List.mem_of_mem_filter hc
      obtain ⟨w, hw, hcomes⟩ := hgs c hc
      exact Assignment.succeeds_added hhost hknown harg (hx.value hc) hw hcomes hcd.1 hcd.2
    have hbnames := Assignment.nodup_names hnames
      (fun _ => Assignment.member_eq_of_override hkept hadded) hpairs
    refine fun site => (succeeds_construct hbnames (List.rel_append hkept' hadded') site).imp ?_
    rintro _ ⟨c, fields, rfl, hfields⟩
    obtain ⟨kept'', added'', rfl, hkept'', hadded''⟩ := forall₂_append_split hfields
    refine .construct ?_ ?_
    · rw [List.forall₂_map_left_iff] at hkept'' ⊢
      exact hkept''
    · rwa [List.forall₂_map_left_iff] at hadded''
  | _ => cases h

end

end

/-! ## Merged lambdas -/

/-- A lambda of one parameter that constructs an object. -/
structure Lambda.Shapes (F : Forest) (p : Param) (f : Lambda) : Prop where
  fn : F.fns f
  params : f.params = [p]
  body : f.body.Ordinary F
  constructs : f.body.isConstruct = true

theorem Lambda.Shapes.wellFormed {F : Forest} {p : Param} {f : Lambda} (h : f.Shapes F p) :
    f.WellFormed :=
  ⟨by simp [h.params], h.body.formed⟩

theorem Expr.all_ne {p : Param} {e : Expr} (h : (Expr.param p).occursIn e = false) :
    e.All (· ≠ .param p) :=
  (all_of_outermost (occursIn_eq_false_iff.1 h)).imp fun _ => ne_of_not_same

/-- Without placeholders nothing is left unfilled. -/
theorem Expr.not_unfilled_of_plain {s x : Expr} (hx : x.outermost isPrevious = []) :
    ¬ s.Unfilled x := by
  intro h
  induction h with
  | @added i j sty ty sargs eargs source extension a ha _ hbare =>
    have hpart : a.value ∈ (Expr.construct j ty eargs extension).parts :=
      List.mem_append_right _ (List.mem_map_of_mem ha)
    refine hbare (outermost_eq_nil_of (P := (·.outermost isPrevious = [])) (fun {e} he => ?_)
      outermost_part outermost_fn (outermost_part hx hpart))
    have hnot := (outermost_eq_nil_iff.1 he).1
    cases e <;> first | rfl | cases hnot
  | @merged i j sty ty sargs eargs source extension a x _ hfind _ ih =>
    exact ih (outermost_part hx (List.mem_append_right _
      (List.mem_map_of_mem (Assignment.mem_of_find? hfind))))

namespace Lambda

variable {F : Forest} {n : NodeId} {host : Host} {p q : Param} {arg : Value}
  {source extension : Lambda} {t : Trail}

/-- A lambda that succeeds on an argument has a body that does. -/
theorem comesTo_of_invoke {f : Lambda} (hparams : f.params = [p]) {v : Value} {t' : Trail}
    (hle : n ≤ t.next) (h : outcome (f.invoke host [arg]) t = (.ok v, t')) :
    ∃ k, host.depth = k + 1 ∧ f.body.ComesTo host k n p arg v := by
  obtain ⟨k, site, t₁, hdepth, -, hnext, hrun⟩ := outcome_invoke h
  exact ⟨k, hdepth, site, t₁, t', Nat.le_trans hle hnext, hparams ▸ hrun⟩

/-- A lambda whose body succeeds with the argument in place of its parameter succeeds on it. -/
theorem exists_invoke_of_succeeds {f : Lambda} {k : Nat} {Q : Value → Prop}
    (hdepth : host.depth = k + 1) (hparams : f.params = [p]) (hle : n ≤ t.next)
    (h : f.body.Succeeds host k n p arg Q) :
    ∃ w t', outcome (f.invoke host [arg]) t = (.ok w, t') ∧ Q w := by
  have hbody (site : Site) : Reaches (n ≤ ·.next) (f.body.evalIn host (Function.callWithin host k)
      [Binding.ofArgs f.params [arg]] site) Q := by
    rw [hparams]
    exact h site
  obtain ⟨w, t', hw, -, hQ⟩ := (invoke_reaches hdepth (by simp [hparams])
    (fun _ => Nat.le_succ_of_le) hbody).exists_outcome hle
  exact ⟨w, t', hw, hQ⟩

/-- Merging two lambdas succeeds, and wherever the two succeed on an argument, what it makes does
and yields the one object laid over the other. -/
theorem merge_overrides (hs : source.Shapes F p) (hx : extension.Shapes F q)
    (hmergeable : source.body.Mergeable extension.body) (hne : p ≠ q)
    (hqs : (Expr.param q).occursIn source.body = false)
    (hpx : (Expr.param p).occursIn extension.body = false) (hF : F.Below t.next)
    (hhost : host.Respects F n) (hknown : F.Known n) (harg : arg.Known F n) :
    ∃ result t', outcome (source.merge extension) t = (.ok result, t') ∧
      ∀ {v u : Value} {t₁ t₁' t₂ t₂' : Trail}, n ≤ t₁.next → n ≤ t₂.next →
        outcome (source.invoke host [arg]) t₁ = (.ok v, t₁') →
        outcome (extension.invoke host [arg]) t₂ = (.ok u, t₂') →
        ∀ t₃, n ≤ t₃.next → ∃ w t₃', outcome (result.invoke host [arg]) t₃ = (.ok w, t₃') ∧
          Value.Override (Value.Agrees F n) source.body extension.body v u w := by
  have hp : F.nodes (.param p) := F.param hs.fn (by simp [hs.params])
  have hq : F.nodes (.param q) := F.param hx.fn (by simp [hx.params])
  -- neither side binds the parameter of the other one
  have hs' : (F.within (· ≠ .param q)).nodes source.body := ⟨hs.body.node, Expr.all_ne hqs⟩
  have hx' : (F.within (· ≠ .param p)).nodes extension.body := ⟨hx.body.node, Expr.all_ne hpx⟩
  have hsblocks : ¬ source.body.Blocks p (.param q) :=
    Forest.not_someFn (fun f hf h => (hf.2.param (h.2 _ rfl)).head rfl) hs'
  have hxblocks : ¬ extension.body.Blocks p (.param q) :=
    Forest.not_someFn (fun f hf h => (hf.2.param h.1).head rfl) hx'
  obtain ⟨result, hresult⟩ := (merge_failsIff (E := fun _ => True) (fun _ => trivial) hs.fn hx.fn hF
    hs.wellFormed hx.wellFormed hs.constructs hx.constructs hs.params hx.params hs.body.plain
    hsblocks hxblocks).2 (Expr.not_unfilled_of_plain hx.body.plain)
  replace hresult : outcome (source.merge extension) t = (.ok result, _) := Prod.ext hresult rfl
  refine ⟨result, _, hresult, fun {v u t₁ t₁' t₂ t₂'} hle₁ hle₂ hv hu t₃ hle₃ => ?_⟩
  obtain ⟨hparams, hover⟩ := merge_overlaid (F := F.within Expr.Formed) ⟨hs.fn, hs.wellFormed.all⟩
    ⟨hx.fn, hx.wellFormed.all⟩ F.assignsOnce_formed (hF.of_le (F.within_le _)) hs.body.plain
    (by simpa [hs.params] using hpx) hresult
  have hrs : Replacement.ofParams source.params extension.params = [⟨.param p, .param q⟩] := by
    have hid : p.id ≠ q.id := fun h => hne (F.param_eq hp hq h)
    simp [Replacement.ofParams, hs.params, hx.params, hid]
  rw [hrs] at hover
  obtain ⟨k, hdepth, hv⟩ := comesTo_of_invoke hs.params hle₁ hv
  obtain ⟨k', hdepth', hu⟩ := comesTo_of_invoke hx.params hle₂ hu
  obtain rfl : k = k' := Nat.succ.inj (hdepth.symm.trans hdepth')
  have hbody := hover.override.succeeds hhost hknown harg hp hq hmergeable
    ⟨hs', hs.body.first, hs.body.plain, hs.body.formed⟩ hx.body hv hu
  rw [hx.params] at hparams
  exact exists_invoke_of_succeeds hdepth hparams hle₃ hbody

/-- A field that the source alone assigns, one in which both construct an object, and one that is
added. -/
theorem merge_overrides_nested :
    let a : Param := ⟨0, "a", .int⟩
    let b : Param := ⟨1, "b", .int⟩
    let one : Expr := .constant 2 .int (.int 1)
    let two : Expr := .constant 3 .int (.int 2)
    let inner : Expr :=
      .construct 4 (.object "E") [] [⟨⟨"E", "u", .int⟩, .param a⟩, ⟨⟨"E", "v", .int⟩, one⟩]
    let source : Lambda := ⟨6, [a], .construct 5 (.object "D") []
      [⟨⟨"D", "x", .int⟩, .param a⟩, ⟨⟨"D", "y", .object "E"⟩, inner⟩]⟩
    let inner' : Expr := .construct 7 (.object "E") [] [⟨⟨"E", "v", .int⟩, .param b⟩]
    let extension : Lambda := ⟨9, [b], .construct 8 (.object "F") []
      [⟨⟨"D", "z", .int⟩, two⟩, ⟨⟨"D", "y", .object "E"⟩, inner'⟩]⟩
    let v : Value := .object 17 "D" [⟨"x", .int 5⟩, ⟨"y", .object 16 "E"
      [⟨"u", .int 5⟩, ⟨"v", .int 1⟩]⟩]
    let u : Value := .object 20 "F" [⟨"z", .int 2⟩, ⟨"y", .object 19 "E" [⟨"v", .int 5⟩]⟩]
    ∃ F result, outcome (source.merge extension) { next := 10 } = (.ok result, { next := 15 }) ∧
      outcome (source.invoke (.bare 1) [.int 5]) { next := 15 } = (.ok v, { next := 18 }) ∧
      outcome (extension.invoke (.bare 1) [.int 5]) { next := 18 } = (.ok u, { next := 21 }) ∧
      ∃ w t, outcome (result.invoke (.bare 1) [.int 5]) { next := 21 } = (.ok w, t) ∧
        Value.Override (Value.Agrees F 10) source.body extension.body v u w := by
  intro a b one two inner source inner' extension v u
  let F : Forest := .ofLists [.param a, .param b, one, two, inner, source.body, inner',
      extension.body] [source, extension] (by decide) (by decide)
    (by simp [Expr.parts, one, two, inner, source, inner', extension])
    (by simp [Expr.fn?, one, two, inner, source, inner', extension]) (by simp [source, extension])
    (by simp)
  have param (y : Param) : (Expr.param y).FirstOrder := .leaf rfl rfl
  have constant (i : NodeId) (x : Int64) : (Expr.constant i .int (.int x)).FirstOrder :=
    .leaf rfl rfl
  have hint (i : Int64) : (Value.int i).WellFormed := Value.wellFormed_of_plain rfl rfl
  have hinner : inner.FirstOrder := .node rfl (by simp [inner, one, Expr.parts, param, constant])
  have hinner' : inner'.FirstOrder := .node rfl (by simp [inner', Expr.parts, param])
  have hsource : source.Shapes F a :=
    ⟨by simp [F, Forest.ofLists], rfl, ⟨by simp [F, Forest.ofLists],
      .node rfl (by simp [source, Expr.parts, param, hinner]), rfl,
      by simp [source, inner, one, Assignment.key, hint]⟩, rfl⟩
  have hextension : extension.Shapes F b :=
    ⟨by simp [F, Forest.ofLists], rfl, ⟨by simp [F, Forest.ofLists],
      .node rfl (by simp [extension, two, Expr.parts, constant, hinner']), rfl,
      by simp [extension, inner', two, Assignment.key, hint]⟩, rfl⟩
  have hmergeable : source.body.Mergeable extension.body := by
    refine .construct (by simp [Assignment.NamesApart]) fun c hc x hx => ?_
    rcases List.mem_pair.1 hc with rfl | rfl
    · cases hx
    obtain rfl := Option.some.inj hx
    refine .construct (by simp [Assignment.NamesApart]) fun c hc x hx => ?_
    rcases List.mem_pair.1 hc with rfl | rfl
    · cases hx
    · exact .value rfl
  have hknown : F.Known 10 := by
    intro i ty x h
    obtain ⟨-, -, rfl⟩ | ⟨-, -, rfl⟩ : _ ∨ _ := by
      simpa [F, Forest.ofLists, one, two, inner, source, inner', extension] using h
    · exact .int 1
    · exact .int 2
  have hv : outcome (source.invoke (.bare 1) [.int 5]) { next := 15 } = (.ok v, { next := 18 }) :=
    rfl
  have hu : outcome (extension.invoke (.bare 1) [.int 5]) { next := 18 } =
    (.ok u, { next := 21 }) := rfl
  obtain ⟨result, t', hmerge, hruns⟩ := merge_overrides (t := { next := 10 }) hsource hextension
    hmergeable (by simp [a, b]) rfl rfl (Forest.below_ofLists (by decide) (by decide))
    (Host.bare_respects 1)
    hknown (.int 5)
  obtain rfl : ({ next := 15 } : Trail) = t' := congrArg Prod.snd hmerge
  exact ⟨F, result, hmerge, hv, hu, hruns (by decide) (by decide) hv hu { next := 21 } (by decide)⟩

end Lambda

end ObjectMapping
