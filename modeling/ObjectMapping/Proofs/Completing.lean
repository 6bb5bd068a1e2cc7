import ObjectMapping.Proofs.Unfilled

/-!
# Which merges are completed

`Lambda.MergeFails` lists what stands in the way of a merge, in the order in which it is looked at :
the shape of the source, that of the extension, the number of parameters, and a placeholder that
stands for nothing. `Lambda.merge_completes` says that a merge fails exactly for these, whatever
placeholders the source itself holds, unless a lambda inside binds a parameter of the source. The
renaming of parameters never fails then (`Expr.substitute_ofParams_failsIff`).

It also says that no placeholder is left if there was none in the source and in the constructor
arguments of the extension, which a merge does not look into.
-/

namespace ObjectMapping

open RunM

/-! ## Renaming parameters that are not bound inside -/

section

variable {I : Trail → Prop} {E : Fault → Prop} {rs : List Replacement} {d : Nat} {e : Expr}

/-- A replacement that is flat puts its new node in as it is. -/
theorem Visitor.judge_replacing_put (hflat : Replacement.Flat rs) (hd : d = 0 → rs = [])
    (hold : Replacement.isOld rs e = true) :
    ∃ new, Yields I ((Visitor.replacing rs d).judge e) (.put new) := by
  obtain ⟨new, hnew⟩ : ∃ new, Replacement.find? rs e = some new := by
    cases hfind : Replacement.find? rs e with
    | some new => exact ⟨new, rfl⟩
    | none =>
      rw [Replacement.isOld_eq_false_iff.2 (Replacement.find?_eq_none_iff.1 hfind)] at hold
      cases hold
  obtain ⟨r, hr, -, rfl⟩ := Replacement.exists_of_find? hnew
  cases d with
  | zero =>
    obtain rfl := hd rfl
    cases hr
  | succ d =>
    refine ⟨r.new, ?_⟩
    simp only [Visitor.replacing, hnew]
    exact Yields.bind (Visitor.walk_yields (fun e he t ht => by
      rw [judge_replacing_of_not_old he]; exact ⟨ht, rfl⟩) (hflat r hr)) .pure

/-- Replacing nodes that no lambda inside binds never fails. -/
theorem Visitor.apply_replacing_failsIff (hflat : Replacement.Flat rs) (hd : d = 0 → rs = [])
    (hformed : e.WellFormed)
    (hbinds : e.All fun c => ∀ f, c.fn? = some f → ∀ p ∈ f.params,
      Replacement.isOld rs (.param p) = false) :
    FailsIff (fun _ => True) ((Visitor.replacing rs d).apply e) E False := by
  have enters {c : Expr} (hc : Replacement.isOld rs c = false) :
      Yields (fun _ => True) ((Visitor.replacing rs d).judge c) .enter := fun t _ => by
    rw [judge_replacing_of_not_old hc]
    exact ⟨trivial, rfl⟩
  induction e using Expr.byPart with
  | h e ihpart ihfn =>
    cases hold : Replacement.isOld rs e with
    | true =>
      obtain ⟨new, hput⟩ := judge_replacing_put (I := fun _ => True) hflat hd hold
      exact hput.next FailsIff.pure
    | false =>
      refine (enters hold).next ((Visitor.walk_failsIff (B := fun _ => False) (C := fun _ => False)
        (fun _ h => h) (fun c hc => ihpart c hc (hformed.part hc) (hbinds.part hc))
        fun f hf => ?_).congr (by simp))
      have hfbinds := hbinds.fn hf
      exact Visitor.walkFn_failsIff (fun _ h => h) (fun p hp => enters (hbinds.head f hf p hp))
        (hformed.fn hf).1 (ihfn f hf (hformed.fn hf).2 hfbinds.body)

/-- Renaming parameters that no lambda inside binds never fails. -/
theorem Expr.substitute_ofParams_failsIff {old new : List Param} (hformed : e.WellFormed)
    (hbinds : e.All fun c => ∀ f, c.fn? = some f → ∀ p ∈ f.params, ∀ o ∈ old, o.id ≠ p.id) :
    FailsIff (fun _ => True) (e.substitute (Replacement.ofParams old new)) E False := by
  refine (Replacement.check_yields (fun r hr => ?_) (Replacement.flat_ofParams old new)).next
    (Visitor.apply_replacing_failsIff (Replacement.flat_ofParams old new)
      List.eq_nil_of_length_eq_zero hformed (hbinds.imp fun c hc f hf p hp => ?_))
  · obtain ⟨p, -, q, -, rfl⟩ := Replacement.mem_ofParams hr
    exact beq_false_of_ne (Replacement.mem_ofParams_iff.1 hr).2
  · refine Replacement.isOld_eq_false_iff.2 fun r hr => ?_
    obtain ⟨o, ho, q, -, rfl⟩ := Replacement.mem_ofParams hr
    exact beq_false_of_ne (hc f hf p hp o ho)

end

/-! ## What holds throughout a merge -/

section

variable {P : Expr → Prop} (hconstruct : ∀ i ty as bs, P (.construct i ty as bs))
  (hrebuilt : ∀ {J : Judgement} {e e' : Expr}, (∀ {d d'}, J.puts d d' → d.isPrevious = true) →
    P e → e.Rebuilt J e' → P e')

include hrebuilt in
/-- A property that no node loses when its parts become others holds throughout a value of which the
placeholders are filled, if it does throughout the value and the previous one. -/
theorem Expr.Becomes.all_of_filling {previous : Option Expr} (hprevious : ∀ v ∈ previous, v.All P)
    {e r : Expr} (he : e.All P) (h : e.Becomes (.filling previous) r) : r.All P := by
  refine h.all (fun _ hstands => ?_) (fun _ hputs => ?_) (fun he _ hr => ?_) he
  · exact hstands.2.2
  · exact hprevious _ hputs.2
  · exact hrebuilt (fun {_ _} hputs => And.left hputs) he hr

include hconstruct hrebuilt

/-- A property that no node loses when its parts become others holds throughout what a merge makes,
if it does throughout both sides. -/
theorem Expr.Layered.all {s x v : Expr} (hs : s.All P) (hx : x.All P) (h : s.Layered x v) :
    v.All P := by
  induction s using Expr.byParts generalizing x v with
  | construct i sty sargs source iha ihb =>
    cases h with
    | replaced => exact hx
    | @construct _ j k _ ty _ eargs _ extension kept added hkept hadded =>
      have hvalue {a : Assignment} (ha : a ∈ source) : a.value.All P :=
        hs.part (List.mem_append_right _ (List.mem_map_of_mem ha))
      have hxvalue {a : Assignment} (ha : a ∈ extension) : a.value.All P :=
        hx.part (List.mem_append_right _ (List.mem_map_of_mem ha))
      refine .mk (hconstruct ..) fun d hd => ?_
      rcases List.mem_append.1 hd with hd | hd
      · exact hx.part (List.mem_append_left _ hd)
      obtain ⟨b, hb, rfl⟩ := List.mem_map.1 hd
      rcases List.mem_append.1 hb with hb | hb
      · obtain ⟨_, hp, h⟩ := forall₂_mem_right hkept hb
        obtain ⟨a, ha, rfl⟩ := List.mem_map.1 hp
        generalize hfind : Assignment.find? a.member extension = o at h
        obtain ⟨m, u⟩ := a
        cases h with
        | kept => exact hvalue ha
        | filled h hr =>
          refine Expr.Becomes.all_of_filling hrebuilt (by simpa using hvalue ha) ?_ hr
          exact ihb _ ha (hvalue ha) (hxvalue (Assignment.mem_of_find? hfind)) h
      · obtain ⟨a, ha, -, h⟩ := forall₂_mem_right hadded hb
        exact Expr.Becomes.all_of_filling hrebuilt (by simp) (hxvalue (List.mem_of_mem_filter ha)) h
  | _ => cases h with | replaced => exact hx

end

/-- A parameter that no lambda inside binds on either side is bound by none inside of what a merge
makes. -/
theorem Expr.Layered.not_binds {s x v : Expr} {p : Param} (hs : ¬ s.Binds p) (hx : ¬ x.Binds p)
    (h : s.Layered x v) : ¬ v.Binds p := by
  rw [binds_iff, not_someFn_iff] at hs hx ⊢
  refine h.all (fun _ _ _ _ => by simp [fn?]) (fun {J e e'} hputs he hr f' hf' => ?_) hs hx
  obtain ⟨f, hf, hbecomes⟩ := hr.fn?_becomes hf'
  rw [Param.eq_of_becomes hbecomes.params fun h => nomatch hputs h]
  exact he f hf

/-! ## What stands in the way -/

/-- What a merge of two lambdas fails with : the first of these that holds. -/
inductive Lambda.MergeFails (source extension : Lambda) : Failure → Prop
  | source : source.body.isConstruct = false →
      MergeFails source extension (.notConstruction .source)
  | extension : source.body.isConstruct = true → extension.body.isConstruct = false →
    MergeFails source extension (.notConstruction .extension)
  | params : source.body.isConstruct = true → extension.body.isConstruct = true →
    source.params.length ≠ extension.params.length →
    MergeFails source extension
      (.argument (.mergedParameterCount extension.params.length source.params.length))
  | unfilled (m : Member) : source.body.isConstruct = true → extension.body.isConstruct = true →
    source.params.length = extension.params.length → source.body.Unfilled extension.body →
    MergeFails source extension (.previousValueMissing m.text)

/-- The values that the expression gives to a constructor. -/
def Expr.constructorArguments : Expr → List Assignment
  | .construct _ _ arguments _ => arguments
  | _ => []

/-! ## Placeholders that are left -/

theorem Expr.outermost_eq_nil_iff_all {hit : Expr → Bool} {e : Expr} :
    e.outermost hit = [] ↔ e.All (hit · = false) :=
  ⟨all_of_outermost, fun h => outermost_eq_nil_of (fun h => h.head) (fun h hd => h.part hd)
    (fun h hf => ⟨fun _ hp => (h.fn hf).param hp, (h.fn hf).body⟩) h⟩

/-- Filling leaves no placeholders but those of the previous value. -/
theorem Expr.Becomes.plain_of_filling {previous : Option Expr}
    (hprevious : ∀ v ∈ previous, v.outermost isPrevious = []) {e r : Expr}
    (h : e.Becomes (.filling previous) r) : r.outermost isPrevious = [] := by
  rw [outermost_eq_nil_iff_all]
  refine h.all (P := fun _ => True) (fun _ hstands => ?_) (fun _ hputs => ?_)
    (fun _ henters hr => ?_) (all_of_forall (fun _ => trivial) e)
  · exact hstands.2.2
  · exact all_of_outermost (hprevious _ hputs.2)
  · exact hr.isPrevious_eq.trans henters

/-- Replacing nodes makes no placeholders but those of the new nodes. -/
theorem Expr.Becomes.plain_of_replacing {rs : List Replacement}
    (hrs : ∀ r ∈ rs, r.new.outermost isPrevious = []) {e e' : Expr}
    (he : e.outermost isPrevious = []) (h : e.Becomes (.replacing rs) e') :
    e'.outermost isPrevious = [] := by
  rw [outermost_eq_nil_iff_all] at *
  refine h.all (fun _ hstands => ?_) (fun _ hputs => ?_) (fun he _ hr => ?_) he
  · exact hstands.elim
  · obtain ⟨r, hr, -, rfl⟩ := hputs
    exact all_of_outermost (hrs r hr)
  · exact hr.isPrevious_eq.trans he

/-- What is laid over a source without placeholders has none left but in its constructor
arguments. -/
theorem Expr.Layered.plain {s x v : Expr} (hs : s.outermost isPrevious = [])
    (hsc : s.isConstruct = true) (hxc : x.isConstruct = true)
    (hx : ∀ a ∈ x.constructorArguments, a.value.outermost isPrevious = []) (h : s.Layered x v) :
    v.outermost isPrevious = [] := by
  cases h with
  | replaced hne => simp [hsc, hxc] at hne
  | @construct i j k sty ty sargs eargs source extension kept added hkept hadded =>
    refine outermost_eq_nil_iff.2 ⟨rfl, outermostBelow_eq_nil_iff.2 ⟨fun d hd => ?_, nofun⟩⟩
    rcases List.mem_append.1 hd with hd | hd
    · obtain ⟨a, ha, rfl⟩ := List.mem_map.1 hd
      exact hx a ha
    obtain ⟨b, hb, rfl⟩ := List.mem_map.1 hd
    rcases List.mem_append.1 hb with hb | hb
    · obtain ⟨_, hp, h⟩ := forall₂_mem_right hkept hb
      obtain ⟨a, ha, rfl⟩ := List.mem_map.1 hp
      have hvalue : a.value.outermost isPrevious = [] :=
        outermost_part hs (List.mem_append_right _ (List.mem_map_of_mem ha))
      generalize Assignment.find? a.member extension = o at h
      cases h with
      | kept => exact hvalue
      | filled _ hr => exact hr.plain_of_filling (by simpa using hvalue)
    · obtain ⟨a, -, -, h⟩ := forall₂_mem_right hadded hb
      exact h.plain_of_filling (by simp)

/-! ## Merging lambdas -/

section

variable {F : Forest} {source extension : Lambda} {t : Trail}

/-- Properties that each hold throughout a tree hold throughout it together. -/
theorem Expr.all_forall {ι : Sort*} {P : ι → Expr → Prop} {e : Expr} (h : ∀ i, e.All (P i)) :
    e.All fun d => ∀ i, P i d := by
  induction e using byChildren with
  | h e ih => exact .mk (fun i => (h i).head) fun d hd => ih d hd fun i => (h i).child hd

/-- In a tree of a forest the parameters that no lambda inside binds have other identities than
those that one does. -/
theorem Expr.bound_ids_ne {ps : List Param} {e : Expr} (he : F.nodes e)
    (hps : ∀ p ∈ ps, F.nodes (.param p)) (hbinds : ∀ p ∈ ps, ¬ e.Binds p) :
    e.All fun c => ∀ f, c.fn? = some f → ∀ y ∈ f.params, ∀ p ∈ ps, p.id ≠ y.id := by
  have hall : e.All fun c => ∀ p : { p // p ∈ ps }, ∀ f, c.fn? = some f → ¬ p.1 ∈ f.params :=
    all_forall fun p => not_someFn_iff.1 fun h => hbinds p.1 p.2 (binds_iff.2 h)
  refine (hall.and (Forest.all he)).imp fun c hc f hf y hy p hp hid => ?_
  obtain rfl := F.param_eq (hps p hp) (F.param (F.fn hc.2 hf) hy) hid
  exact hc.1 ⟨p, hp⟩ f hf hy

namespace Lambda

theorem merge_of_constructs (hsc : source.body.isConstruct = true)
    (hxc : extension.body.isConstruct = true)
    (hlen : source.params.length = extension.params.length) :
    source.merge extension = (do
      let merged ← source.body.mergeValue extension.body
      let body ← merged.substitute (Replacement.ofParams source.params extension.params)
      Lambda.ofExprs extension.paramExprs body) := by
  simp [merge, hsc, hxc, hlen]

variable (hs : F.fns source) (hx : F.fns extension) (hF : F.Below t.next)
  (hsformed : source.WellFormed) (hxformed : extension.WellFormed)
  (hsbinds : ∀ p ∈ source.params, ¬ source.body.Binds p)
  (hxbinds : ∀ p ∈ source.params, ¬ extension.body.Binds p)

include hs hx hF hsformed hxformed hsbinds hxbinds

/-- Once the two constructions are merged, all goes well. -/
theorem exists_renamed {merged : Expr} {t₁ : Trail}
    (hmerged : outcome (source.body.mergeValue extension.body) t = (.ok merged, t₁)) :
    ∃ result, (outcome (do
      let body ← merged.substitute (Replacement.ofParams source.params extension.params)
      Lambda.ofExprs extension.paramExprs body) t₁).1 = .ok result := by
  obtain ⟨G, hFG, -, hnode, hlayered⟩ :=
    Expr.mergeValue_layered F.le_refl (F.body hs) (F.body hx) hF hmerged
  have hbinds := Expr.bound_ids_ne hnode (fun p hp => hFG.1 _ (F.param hs hp)) fun p hp =>
    hlayered.not_binds (hsbinds p hp) (hxbinds p hp)
  have hformed := ends_iff.1 (Expr.mergeValue_ends hsformed.2 hxformed.2) hmerged
  have hrename : Reaches (fun _ => True)
      (merged.substitute (Replacement.ofParams source.params extension.params)) fun _ => True :=
    (Expr.substitute_ofParams_failsIff (E := fun _ => True) hformed hbinds).reaches not_false
  have hmake (body : Expr) :
      Reaches (fun _ => True) (Lambda.ofExprs extension.paramExprs body) fun _ => True :=
    (Lambda.ofExprs_reaches hxformed.1 body).imp fun _ _ => trivial
  exact ((hrename.bind fun body _ => hmake body) _ trivial).2.imp fun _ h => h.1

/-- Two constructions with the same number of parameters are merged, unless a placeholder stands for
nothing. -/
theorem outcome_merge_constructs (hsc : source.body.isConstruct = true)
    (hxc : extension.body.isConstruct = true)
    (hlen : source.params.length = extension.params.length) :
    (source.body.Unfilled extension.body → ∃ m : Member,
      (outcome (source.merge extension) t).1 = .error (.failed (.previousValueMissing m.text))) ∧
    (¬ source.body.Unfilled extension.body →
      ∃ result, (outcome (source.merge extension) t).1 = .ok result) := by
  rw [merge_of_constructs hsc hxc hlen]
  obtain ⟨-, hfails, hends⟩ := Expr.mergeValue_failsIff
    (E := fun e => ∃ m : Member, e = .failed (.previousValueMissing m.text)) (fun m => ⟨m, rfl⟩)
    hsformed.2 hxformed.2 t trivial
  constructor
  · intro h
    obtain ⟨e, he, m, rfl⟩ := hfails h
    exact ⟨m, congrArg Prod.fst (outcome_bind_of_error (Prod.ext he rfl))⟩
  · intro h
    obtain ⟨merged, hmerged⟩ := hends h
    replace hmerged : outcome (source.body.mergeValue extension.body) t = (.ok merged, _) :=
      Prod.ext hmerged rfl
    rw [outcome_bind_of_ok hmerged]
    exact exists_renamed hs hx hF hsformed hxformed hsbinds hxbinds hmerged

omit hsformed hxformed hsbinds hxbinds in
/-- What a merge makes holds no placeholders but those in the constructor arguments of the
extension. -/
theorem merge_plain {result : Lambda} {t' : Trail}
    (h : outcome (source.merge extension) t = (.ok result, t'))
    (hplain : source.body.outermost Expr.isPrevious = [])
    (hargs : ∀ a ∈ extension.body.constructorArguments, a.value.outermost Expr.isPrevious = []) :
    result.body.outermost Expr.isPrevious = [] := by
  obtain ⟨hsc, hxc, -, -, merged, t₁, t₂, hmerged, hbody, -⟩ := outcome_merge_ok h
  obtain ⟨G, hFG, hG, hnode, hlayered⟩ :=
    Expr.mergeValue_layered F.le_refl (F.body hs) (F.body hx) hF hmerged
  obtain ⟨-, -, -, -, hbecomes⟩ := Expr.substitute_becomes
    (Replacement.flat_ofParams source.params extension.params)
    (fun r hr => hFG.1 _ (Replacement.nodes_ofParams hs hx hr).1)
    (fun r hr => hFG.1 _ (Replacement.nodes_ofParams hs hx hr).2) hnode hG hbody
  refine hbecomes.plain_of_replacing (fun r hr => ?_) (hlayered.plain hplain hsc hxc hargs)
  obtain ⟨p, -, q, -, rfl⟩ := Replacement.mem_ofParams hr
  rfl

/-- A merge fails exactly if the source or the extension is no construction, their parameters
differ in number, or a placeholder stands for nothing, with the first of these that is so. It leaves
no placeholder if there is none in the source or in the constructor arguments of the extension. -/
theorem merge_completes :
    ((∃ e, source.MergeFails extension e) → ∃ e, source.MergeFails extension e ∧
      (outcome (source.merge extension) t).1 = .error (.failed e)) ∧
    ((¬ ∃ e, source.MergeFails extension e) → ∃ result t',
      outcome (source.merge extension) t = (.ok result, t') ∧
        (source.body.outermost Expr.isPrevious = [] →
          (∀ a ∈ extension.body.constructorArguments, a.value.outermost Expr.isPrevious = []) →
            result.body.outermost Expr.isPrevious = [])) := by
  by_cases hsc : source.body.isConstruct = true
  case neg =>
    have hfails : source.MergeFails extension (.notConstruction .source) :=
      .source (Bool.not_eq_true _ ▸ hsc)
    have hrun : (outcome (source.merge extension) t).1 =
        .error (.failed (.notConstruction .source)) := by
      simp [merge, hsc, outcome_bind_of_error (outcome_fail _ t)]
    exact ⟨fun _ => ⟨_, hfails, hrun⟩, fun h => absurd ⟨_, hfails⟩ h⟩
  by_cases hxc : extension.body.isConstruct = true
  case neg =>
    have hfails : source.MergeFails extension (.notConstruction .extension) :=
      .extension hsc (Bool.not_eq_true _ ▸ hxc)
    have hrun : (outcome (source.merge extension) t).1 =
        .error (.failed (.notConstruction .extension)) := by
      simp [merge, hsc, hxc, outcome_bind_of_error (outcome_fail _ t)]
    exact ⟨fun _ => ⟨_, hfails, hrun⟩, fun h => absurd ⟨_, hfails⟩ h⟩
  by_cases hlen : source.params.length = extension.params.length
  case neg =>
    have hfails := MergeFails.params hsc hxc hlen
    have hrun : (outcome (source.merge extension) t).1 = .error (.failed (.argument
        (.mergedParameterCount extension.params.length source.params.length))) := by
      simp [merge, hsc, hxc, hlen, outcome_bind_of_error (outcome_reject _ t)]
    exact ⟨fun _ => ⟨_, hfails, hrun⟩, fun h => absurd ⟨_, hfails⟩ h⟩
  obtain ⟨hmissing, hends⟩ :=
    outcome_merge_constructs hs hx hF hsformed hxformed hsbinds hxbinds hsc hxc hlen
  constructor
  · rintro ⟨e, hfails⟩
    have hunfilled : source.body.Unfilled extension.body := by
      cases hfails with
      | source h => simp [h] at hsc
      | extension _ h => simp [h] at hxc
      | params _ _ h => exact absurd hlen h
      | unfilled _ _ _ _ h => exact h
    obtain ⟨m, hrun⟩ := hmissing hunfilled
    exact ⟨_, .unfilled m hsc hxc hlen hunfilled, hrun⟩
  · intro h
    have hfilled : ¬ source.body.Unfilled extension.body := fun hunfilled =>
      h ⟨_, .unfilled ⟨"", "", .int⟩ hsc hxc hlen hunfilled⟩
    obtain ⟨result, hresult⟩ := hends hfilled
    exact ⟨result, _, Prod.ext hresult rfl, merge_plain hs hx hF (Prod.ext hresult rfl)⟩

omit hs hx hF hsformed hxformed hsbinds hxbinds in
/-- Inside of a construction that is merged with another one, a placeholder stands for nothing if it
has no fallback but a placeholder. -/
theorem merge_completes_nested :
    let a : Param := ⟨0, "a", .object "A"⟩
    let b : Param := ⟨1, "b", .object "A"⟩
    let x : Member := ⟨"D", "x", .object "E"⟩
    let u : Member := ⟨"E", "u", .int⟩
    let v : Member := ⟨"E", "v", .int⟩
    let one : Expr := .constant 2 .int (.int 1)
    let under : Expr := .construct 3 (.object "E") [] [⟨u, one⟩]
    let source : Lambda := ⟨5, [a], .construct 4 (.object "D") [] [⟨x, under⟩]⟩
    let bare : Expr := .previous 6 .int none
    let upper (fallback : Expr) : Expr :=
      .construct 8 (.object "E") [] [⟨u, bare⟩, ⟨v, .previous 7 .int (some fallback)⟩]
    let extension (fallback : Expr) : Lambda :=
      ⟨10, [b], .construct 9 (.object "D") [] [⟨x, upper fallback⟩]⟩
    (∃ e, source.MergeFails (extension bare) e ∧
      (outcome (source.merge (extension bare)) { next := 11 }).1 = .error (.failed e)) ∧
    ∃ result t', outcome (source.merge (extension one)) { next := 11 } = (.ok result, t') ∧
      result.body.outermost Expr.isPrevious = [] := by
  intro a b x u v one under source bare upper extension
  have hone : (Value.int 1).WellFormed := Value.wellFormed_of_plain rfl rfl
  have hsource : source.WellFormed :=
    ⟨by simp [source], by simp [source, under, one, Assignment.key, hone]⟩
  have hextension (d : Expr) (hd : d = bare ∨ d = one) : (extension d).WellFormed := by
    refine ⟨by simp [extension], ?_⟩
    rcases hd with rfl | rfl <;>
      simp [extension, upper, bare, one, u, v, Assignment.key, hone]
  let nodes (d : Expr) : List Expr := [.param a, .param b, one, under, source.body, bare,
    .previous 7 .int (some d), upper d, (extension d).body]
  have hparts (d : Expr) (hd : d = bare ∨ d = one) : ∀ e ∈ nodes d, ∀ c ∈ e.parts, c ∈ nodes d := by
    rcases hd with rfl | rfl <;>
      simp [nodes, Expr.parts, source, under, upper, extension, one, bare]
  have hids (d : Expr) : (nodes d).map Expr.id = [0, 1, 2, 3, 4, 6, 7, 8, 9] := rfl
  have hnodup (d : Expr) : ((nodes d).map Expr.id).Nodup := by
    rw [hids]
    decide
  have hfn (d : Expr) : ∀ e ∈ nodes d, ∀ f, e.fn? ≠ some f := by
    simp [nodes, Expr.fn?, source, under, upper, extension, one, bare]
  -- no lambda is inside
  have hbinds (d : Expr) (hd : d = bare ∨ d = one) (p : Param) {e : Expr} (he : e ∈ nodes d) :
      ¬ e.Binds p := by
    let G : Forest := .ofLists (nodes d) [] (hnodup d) (by simp) (hparts d hd)
      (fun e he f hf => absurd hf (hfn d e he f)) (by simp) (by simp)
    exact fun h => Forest.not_someFn (F := G) (fun _ hf => absurd hf List.not_mem_nil) he
      (Expr.binds_iff.1 h)
  have hmerge (d : Expr) (hd : d = bare ∨ d = one) := by
    let F : Forest := .ofLists (nodes d) [source, extension d] (hnodup d)
      (by simp [source, extension]) (hparts d hd) (fun e he f hf => absurd hf (hfn d e he f))
      (by simp [source, extension, nodes]) (by simp [source, extension, nodes])
    have hbelow : F.Below 11 := Forest.below_ofLists (by rw [hids]; decide)
      (by simp [source, extension])
    exact merge_completes (F := F) (t := { next := 11 }) (List.mem_cons_self ..)
      (List.mem_cons_of_mem _ (List.mem_singleton_self _)) hbelow hsource (hextension d hd)
      (fun p _ => hbinds d hd p (by simp [nodes])) fun p _ => hbinds d hd p (by simp [nodes])
  have hbare : source.body.Unfilled (extension bare).body :=
    .merged (List.mem_singleton_self _) rfl
      (.added (List.mem_cons_of_mem _ (List.mem_singleton_self _)) rfl (by decide))
  refine ⟨(hmerge bare (.inl rfl)).1 ⟨_, .unfilled v rfl rfl rfl hbare⟩, ?_⟩
  obtain ⟨result, t', hrun, hplain⟩ := (hmerge one (.inr rfl)).2 fun hfails => by
    obtain ⟨e, -, hrun⟩ := (hmerge one (.inr rfl)).1 hfails
    cases hrun
  exact ⟨result, t', hrun, hplain rfl (by simp [extension, Expr.constructorArguments])⟩

end Lambda

end

end ObjectMapping
