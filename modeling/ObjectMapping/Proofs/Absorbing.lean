import ObjectMapping.Proofs.Associating

/-!
# Merging an extension again

A tree laid over itself is that tree (`Expr.overlay_self`), and what has been laid over a tree
changes nothing when it is laid over it once more (`Expr.overlay_absorb`). Both go by induction over
the nesting : the members that both sides assign are laid over one another further inside, and all
that an extension assigns is assigned once it has been laid over.

`Lambda.merge_absorb` says so of merges, whatever the number of parameters
(`Lambda.Literal.merge`). The second time the parameters are the same on both sides already, so that
none is renamed.
-/

namespace ObjectMapping

open RunM

/-! ## Trees laid over trees once more -/

section

variable {σ : Param → Param} {a x : Assignment} {as X : List Assignment}

/-- An assignment of a list is laid under the list as it is, if its value is laid under itself. -/
theorem Assignment.overlay_of_mem (honce : (as.map key).Nodup) (ha : a ∈ as)
    (hself : a.value.overlay a.value = a.value) : overlay as a = a := by
  obtain ⟨m, v⟩ := a
  rw [overlay, find?_of_mem honce ha]
  exact congrArg (mk m) hself

/-- All that a list assigns, it assigns. -/
theorem Assignment.filter_unassigned_self :
    (as.filter fun a => (find? a.member as).isNone) = [] := by
  refine List.filter_eq_nil_iff.2 fun a ha hnone => ?_
  have hne := List.find?_eq_none.1 (Option.isNone_iff_eq_none.1 hnone) a ha
  simp at hne

/-- What lies under an extension lies under it once more as it is. -/
theorem Assignment.overlay_absorb
    (ih : ∀ x, find? a.member X = some x →
      (a.value.overlay x.value).overlay x.value = a.value.overlay x.value) :
    overlay X (overlay X a) = overlay X a := by
  cases hfind : find? a.member X with
  | none =>
    have hkept : overlay X a = a := by rw [overlay, hfind]
    rw [hkept, hkept]
  | some x =>
    have hmember : find? x.member X = some x := (find?_member hfind X).trans hfind
    rw [overlay.eq_1 X a, hfind]
    simp only [overlay, hmember, ih x hfind]

/-- A tree in which no member is assigned twice, laid over itself, is the same tree. -/
theorem Expr.overlay_self {x : Expr} (honce : x.AssignsOnce) :
    (x.relabel σ).overlay (x.relabel σ) = x.relabel σ := by
  induction x using Expr.byParts with
  | construct i ty as bs iha ihb =>
    have hnodup : ((bs.map (Assignment.relabel σ)).map Assignment.key).Nodup := by
      rw [List.map_map]
      exact honce [] i ty as bs rfl
    have hkept : (bs.map (Assignment.relabel σ)).map
        (Assignment.overlay (bs.map (Assignment.relabel σ))) = bs.map (Assignment.relabel σ) := by
      refine (List.map_congr_left fun a ha => ?_).trans (List.map_id _)
      obtain ⟨b, hb, rfl⟩ := List.mem_map.1 ha
      exact Assignment.overlay_of_mem hnodup ha (ihb b hb (honce.value hb))
    simp only [relabel, overlay, Assignment.relabelList_eq, Assignment.overlayList_eq, hkept,
      Assignment.filter_unassigned_self, List.append_nil]
  | _ => exact overlay_of_not rfl

/-- What has been laid over a tree changes nothing when it is laid over it once more. -/
theorem Expr.overlay_absorb {s x : Expr} (honce : x.AssignsOnce) :
    (s.overlay (x.relabel σ)).overlay (x.relabel σ) = s.overlay (x.relabel σ) := by
  have replaced {s x : Expr} (honce : x.AssignsOnce)
      (h : s.overlay (x.relabel σ) = x.relabel σ) :
      (s.overlay (x.relabel σ)).overlay (x.relabel σ) = s.overlay (x.relabel σ) := by
    rw [h, overlay_self honce]
  induction s using Expr.byParts generalizing x with
  | construct i sty sargs source iha ihb =>
    cases x with
    | construct j ty eargs extension =>
      let X := extension.map (Assignment.relabel σ)
      have hkept : (source.map (Assignment.overlay X)).map (Assignment.overlay X) =
          source.map (Assignment.overlay X) := by
        rw [List.map_map]
        refine List.map_congr_left fun a ha => Assignment.overlay_absorb fun x hx => ?_
        obtain ⟨b, hb, rfl⟩ := List.mem_map.1 (Assignment.mem_of_find? hx)
        exact ihb a ha (honce.value hb)
      have hadded : (X.filter fun x => (Assignment.find? x.member source).isNone).map
          (Assignment.overlay X) = X.filter fun x => (Assignment.find? x.member source).isNone := by
        have hnodup : (X.map Assignment.key).Nodup := by
          rw [List.map_map]
          exact honce [] j ty eargs extension rfl
        refine (List.map_congr_left fun a ha => ?_).trans (List.map_id _)
        have hX := List.mem_of_mem_filter ha
        obtain ⟨b, hb, rfl⟩ := List.mem_map.1 hX
        exact Assignment.overlay_of_mem hnodup hX (overlay_self (honce.value hb))
      simp only [relabel, overlay, Assignment.relabelList_eq, Assignment.overlayList_eq,
        List.map_append]
      change Expr.construct _ _ _ ((source.map (Assignment.overlay X)).map (Assignment.overlay X) ++
        (X.filter fun x => (Assignment.find? x.member source).isNone).map (Assignment.overlay X) ++
          X.filter fun x => (Assignment.find? x.member (source.map (Assignment.overlay X) ++
            X.filter fun x => (Assignment.find? x.member source).isNone)).isNone) = _
      rw [hkept, hadded, Assignment.filter_unassigned fun _ => Assignment.key_overlay,
        Assignment.filter_unassigned_self, List.filter_nil, List.append_nil]
    | _ => exact replaced honce (overlay_of_not rfl)
  | _ => exact replaced honce (overlay_of_ne rfl)

end

/-! ## Renaming parameters throughout -/

/-- The parameter that comes to stand in the place of one of the first list : the one at the same
place of the second list. -/
def Param.renamedAll : List Param → List Param → Param → Param
  | p :: ps, q :: qs, y => if y = p then q else renamedAll ps qs y
  | _, _, y => y

section

variable {F : Forest} {ps qs : List Param} {p q y : Param} {σ : Param → Param}

theorem Param.renamedAll_eq_or_mem (ps qs : List Param) (y : Param) :
    renamedAll ps qs y = y ∨ (y, renamedAll ps qs y) ∈ ps.zip qs := by
  induction ps generalizing qs with
  | nil => exact .inl rfl
  | cons p ps ih =>
    cases qs with
    | nil => exact .inl rfl
    | cons q qs =>
      rw [renamedAll]
      split
      · rename_i hy
        exact .inr (by simp [hy])
      · exact (ih qs).imp_right fun h => List.mem_cons_of_mem _ h

theorem Param.renamedAll_of_not_mem (h : y ∉ ps) : renamedAll ps qs y = y :=
  (renamedAll_eq_or_mem ps qs y).resolve_right fun hmem => h (List.of_mem_zip hmem).1

theorem Param.renamedAll_of_mem (hnodup : ps.Nodup) (h : (p, q) ∈ ps.zip qs) :
    renamedAll ps qs p = q := by
  induction ps generalizing qs with
  | nil => cases h
  | cons x ps ih =>
    cases qs with
    | nil => cases h
    | cons z qs =>
      obtain ⟨hx, hnodup⟩ := List.nodup_cons.1 hnodup
      rw [renamedAll]
      rcases List.mem_cons.1 h with heq | h
      · obtain ⟨rfl, rfl⟩ := Prod.mk.inj heq
        exact if_pos rfl
      · have hpx : p ≠ x := fun hpx => hx (hpx ▸ (List.of_mem_zip h).1)
        rw [if_neg hpx, ih hnodup h]

theorem Param.eq_of_mem_zip_self (h : (p, q) ∈ ps.zip ps) : p = q := by
  obtain ⟨i, hi, heq⟩ := List.mem_iff_getElem.1 h
  rw [List.getElem_zip] at heq
  exact (Prod.mk.inj heq).1.symm.trans (Prod.mk.inj heq).2

/-- Parameters that are renamed to themselves stay. -/
theorem Param.renamedAll_self : renamedAll ps ps = fun y => y := by
  funext y
  rcases renamedAll_eq_or_mem ps ps y with h | h
  · exact h
  · exact (eq_of_mem_zip_self h).symm

theorem Replacement.ofParams_self : ofParams ps ps = [] := by
  rw [ofParams, List.map_eq_nil_iff, List.filter_eq_nil_iff]
  intro pq h
  simp [Param.eq_of_mem_zip_self h]

/-- Renaming the parameters of a forest does to a tree what it does to its parameters. -/
theorem Expr.Becomes.relabel_of_renamedAll (hnodup : ps.Nodup)
    (hps : ∀ p ∈ ps, F.nodes (.param p)) (hqs : ∀ q ∈ qs, F.nodes (.param q)) {e e' : Expr}
    (h : e.Becomes (.replacing (Replacement.ofParams ps qs)) e') :
    e'.relabel σ = e.relabel (σ ∘ Param.renamedAll ps qs) := by
  refine h.relabel_eq (fun _ => not_false) (fun hputs => ?_) fun {y} henters => ?_
  · obtain ⟨r, hr, rfl, rfl⟩ := hputs
    obtain ⟨p, -, q, -, rfl⟩ := Replacement.mem_ofParams hr
    have hpq := (Replacement.mem_ofParams_iff.1 hr).1
    rw [relabel, relabel, Function.comp_apply, Param.renamedAll_of_mem hnodup hpq]
  · rcases Param.renamedAll_eq_or_mem ps qs y with hsame | hmem
    · rw [Function.comp_apply, hsame]
    -- a parameter that is entered though it is listed has its own counterpart
    obtain ⟨hp, hq⟩ := List.of_mem_zip hmem
    by_cases hid : y.id = (Param.renamedAll ps qs y).id
    · rw [Function.comp_apply, ← F.param_eq (hps _ hp) (hqs _ hq) hid]
    · exact absurd rfl (henters _ (Replacement.mem_ofParams_iff.2 ⟨hmem, hid⟩))

/-- Where none of the parameters occurs, renaming them changes nothing. -/
theorem Expr.relabel_renamedAll_of_not_occurs {e : Expr}
    (h : ∀ p ∈ ps, (Expr.param p).occursIn e = false) :
    e.relabel (σ ∘ Param.renamedAll ps qs) = e.relabel σ := by
  have hall : e.All fun d => ∀ p : { p // p ∈ ps }, d ≠ .param p :=
    all_forall fun p => all_ne (h p.1 p.2)
  refine relabel_congr (hall.imp fun d hd y hy => ?_)
  rw [Function.comp_apply, Param.renamedAll_of_not_mem fun hmem => hd ⟨y, hmem⟩ hy]

end

/-! ## Merging once more -/

/-- A lambda that constructs an object and holds no placeholders. -/
structure Lambda.Concrete (F : Forest) (f : Lambda) : Prop where
  fn : F.fns f
  constructs : f.body.isConstruct = true
  plain : f.body.outermost Expr.isPrevious = []
  formed : f.WellFormed

section

variable {F G : Forest} {source extension result a b : Lambda} {t t' u : Trail}

theorem Lambda.Concrete.of_le (h : a.Concrete F) (hFG : F.within Expr.Formed ≤ G) : a.Concrete G :=
  ⟨hFG.2 _ ⟨h.fn, h.formed.all⟩, h.constructs, h.plain, h.formed⟩

/-- A merge of lambdas over the same parameters renames none of them and succeeds, if there are no
placeholders. -/
theorem Lambda.Concrete.merge_same_params (hs : source.Concrete F) (hx : extension.Concrete F)
    (hparams : source.params = extension.params) :
    ∃ result t', outcome (source.merge extension) t = (.ok result, t') := by
  have hids : (extension.params.map (·.id)).Nodup := hx.formed.1
  have hvalue : Reaches (fun _ => True) (source.body.mergeValue extension.body) fun _ => True :=
    (Expr.mergeValue_failsIff (E := fun _ => True) (fun _ => trivial) hs.formed.2
      hx.formed.2).reaches (Expr.not_unfilled_of_plain hx.plain)
  have hrename (merged : Expr) : Reaches (fun _ => True) (merged.substitute []) fun _ => True :=
    (Expr.substitute_nil_yields merged).reaches trivial
  have hmake (body : Expr) :
      Reaches (fun _ => True) (Lambda.ofExprs extension.paramExprs body) fun _ => True :=
    (Lambda.ofExprs_reaches hids body).imp fun _ _ => trivial
  rw [merge_of_constructs hs.constructs hx.constructs (congrArg List.length hparams),
    hparams, Replacement.ofParams_self]
  obtain ⟨result, t', h, -⟩ := (hvalue.bind fun merged _ =>
    (hrename merged).bind fun body _ => hmake body).exists_outcome trivial
  exact ⟨result, t', h⟩

/-- What a merge of two lambdas without placeholders makes is, once it is relabelled, the one laid
over the other with the parameters of the source renamed. -/
theorem Lambda.Concrete.outcome_merge (hs : source.Concrete F) (hx : extension.Concrete F)
    (hF : F.Below t.next) (h : outcome (source.merge extension) t = (.ok result, t')) :
    result.params = extension.params ∧
      (∃ G, F.within Expr.Formed ≤ G ∧ G.Below t'.next ∧ result.Concrete G) ∧
      ∀ σ, result.body.relabel σ =
        (source.body.relabel (σ ∘ Param.renamedAll source.params extension.params)).overlay
          (extension.body.relabel (σ ∘ Param.renamedAll source.params extension.params)) := by
  obtain ⟨-, hparams, merged, hover, hbecomes, G, hFG, hG, -, hfn⟩ :=
    Lambda.outcome_merge (F := F.within Expr.Formed) ⟨hs.fn, hs.formed.all⟩
      ⟨hx.fn, hx.formed.all⟩ F.assignsOnce_formed (hF.of_le (F.within_le _)) hs.plain h
  have hids : (source.params.map (·.id)).Nodup := hs.formed.1
  have hrelabel (σ : Param → Param) : result.body.relabel σ =
      (source.body.relabel (σ ∘ Param.renamedAll source.params extension.params)).overlay
        (extension.body.relabel (σ ∘ Param.renamedAll source.params extension.params)) := by
    rw [hbecomes.relabel_of_renamedAll hids.of_map (fun p => F.param hs.fn)
      (fun q => F.param hx.fn)]
    exact hover.relabel_eq (fun _ h => Expr.becomes_keeping.1 h ▸ .refl
      (fun _ => .inr (by simp [Judgement.replacing])) _) hs.plain hx.plain
  refine ⟨hparams, ⟨G, hFG, hG, hfn, ?_, ?_, ?_⟩, hrelabel⟩
  · rw [← Expr.isConstruct_relabel (σ := fun y => y), hrelabel, Expr.isConstruct_overlay,
      Expr.isConstruct_relabel, hx.constructs]
  · exact merge_plain hs.fn hx.fn hF h hs.plain fun _ =>
      Expr.outermost_constructorArguments hx.plain
  · exact ends_iff.1 (merge_ends hs.formed hx.formed) h

/-- A merge of lambdas over the same parameters lays the one over the other. -/
theorem Lambda.Concrete.outcome_merge_same_params (hs : source.Concrete F)
    (hx : extension.Concrete F) (hF : F.Below t.next) (hparams : source.params = extension.params) :
    ∃ result t', outcome (source.merge extension) t = (.ok result, t') ∧
      result.params = extension.params ∧ result.body.relabel (fun y => y) =
        (source.body.relabel fun y => y).overlay (extension.body.relabel fun y => y) := by
  obtain ⟨result, t', h⟩ := hs.merge_same_params hx hparams
  obtain ⟨hresult, -, hrelabel⟩ := hs.outcome_merge hx hF h
  refine ⟨result, t', h, hresult, ?_⟩
  have hover := hrelabel fun y => y
  rwa [hparams, Param.renamedAll_self] at hover

/-- Merging an extension again changes nothing. Source and extension construct objects, hold no
placeholders and have the same number of parameters, and those of the source occur nowhere in the
extension and are bound by no lambda inside the source. Then what the merge makes is merged with the
extension once more into the same tree over the same parameters, and so is the extension with
itself. -/
theorem Lambda.merge_absorb (ha : a.Concrete F) (hb : b.Concrete F) (hF : F.Below t.next)
    (hF' : F.Below u.next) (hlen : a.params.length = b.params.length)
    (hoccurs : ∀ p ∈ a.params, (Expr.param p).occursIn b.body = false)
    (hbinds : ∀ p ∈ a.params, ¬ a.body.Binds p) :
    (∃ once t₁, outcome (a.merge b) t = (.ok once, t₁) ∧ once.params = b.params ∧
      ∀ v : Trail, t₁.next ≤ v.next → ∃ twice v', outcome (once.merge b) v = (.ok twice, v') ∧
        twice.params = once.params ∧ twice.body.SameTree once.body) ∧
    ∃ itself u', outcome (b.merge b) u = (.ok itself, u') ∧ itself.params = b.params ∧
      itself.body.SameTree b.body := by
  have honce : b.body.AssignsOnce := hb.formed.2.assignsOnce
  constructor
  · obtain ⟨once, honce'⟩ := (outcome_merge_constructs ha.fn hb.fn hF ha.formed hb.formed hbinds
      (fun p hp => Expr.not_binds_of_occursIn (hoccurs p hp)) ha.constructs hb.constructs
      hlen).2 (Expr.not_unfilled_of_plain hb.plain)
    replace honce' : outcome (a.merge b) t = (.ok once, _) := Prod.ext honce' rfl
    obtain ⟨hparams, ⟨G, hFG, hG, hconcrete⟩, hrelabel⟩ := ha.outcome_merge hb hF honce'
    refine ⟨once, _, honce', hparams, fun v hv => ?_⟩
    obtain ⟨twice, v', htwice, hparams', hrelabel'⟩ :=
      hconcrete.outcome_merge_same_params (hb.of_le hFG) (hG.mono hv) hparams
    refine ⟨twice, v', htwice, hparams'.trans hparams.symm, ?_⟩
    have hover := hrelabel fun y => y
    rw [Expr.relabel_renamedAll_of_not_occurs hoccurs] at hover
    rw [Expr.SameTree, hrelabel', hover, Expr.overlay_absorb honce]
  · obtain ⟨itself, u', hitself, hparams, hrelabel⟩ := hb.outcome_merge_same_params hb hF' rfl
    refine ⟨itself, u', hitself, hparams, ?_⟩
    rw [Expr.SameTree, hrelabel, Expr.overlay_self honce]

/-- Over two parameters, a member that is merged further inside, one that a construction replaces
and one that is added. -/
theorem Lambda.merge_absorb_nested :
    let p : Param := ⟨0, "p", .int⟩
    let o : Param := ⟨1, "o", .int⟩
    let q : Param := ⟨2, "q", .int⟩
    let r : Param := ⟨3, "r", .int⟩
    let u : Member := ⟨"E", "u", .int⟩
    let v : Member := ⟨"E", "v", .int⟩
    let x : Member := ⟨"D", "x", .object "E"⟩
    let y : Member := ⟨"D", "y", .int⟩
    let z : Member := ⟨"D", "z", .object "E"⟩
    let inA : Expr := .construct 4 (.object "E") [] [⟨u, .param o⟩, ⟨v, .param p⟩]
    let a : Lambda := ⟨6, [p, o], .construct 5 (.object "D") [] [⟨x, .param p⟩, ⟨z, inA⟩]⟩
    let inB : Expr := .construct 7 (.object "E") [] [⟨v, .param r⟩]
    let b : Lambda := ⟨9, [q, r], .construct 8 (.object "D") [] [⟨y, .param q⟩, ⟨z, inB⟩, ⟨x, inB⟩]⟩
    (∃ once t, outcome (a.merge b) { next := 10 } = (.ok once, t) ∧ once.params = b.params ∧
      ∀ v : Trail, t.next ≤ v.next → ∃ twice v', outcome (once.merge b) v = (.ok twice, v') ∧
        twice.params = once.params ∧ twice.body.SameTree once.body) ∧
    ∃ itself t, outcome (b.merge b) { next := 10 } = (.ok itself, t) ∧ itself.params = b.params ∧
      itself.body.SameTree b.body := by
  intro p o q r u v x y z inA a inB b
  let F : Forest := .ofLists [.param p, .param o, .param q, .param r, inA, a.body, inB, b.body]
    [a, b] (by decide) (by decide) (by simp [Expr.parts, inA, a, inB, b])
    (by simp [Expr.fn?, inA, a, inB, b]) (by simp [a, b]) (by simp)
  have ha : a.Concrete F := ⟨by simp [F, Forest.ofLists], rfl, rfl, by simp [a, p, o],
    by simp [a, inA, Assignment.key, u, v, x, z]⟩
  have hb : b.Concrete F := ⟨by simp [F, Forest.ofLists], rfl, rfl, by simp [b, q, r],
    by simp [b, inB, Assignment.key, x, y, z]⟩
  have hF : F.Below 10 := Forest.below_ofLists (by decide) (by decide)
  -- no lambda is inside
  let G : Forest := .ofLists [.param p, .param o, inA, a.body] [] (by decide) (by simp)
    (by simp [Expr.parts, inA, a]) (by simp [Expr.fn?, inA, a]) (by simp) (by simp)
  have hbinds (w : Param) : ¬ a.body.Binds w := fun h =>
    Forest.not_someFn (F := G) (fun _ hf => absurd hf List.not_mem_nil)
      (by simp [G, Forest.ofLists]) (Expr.binds_iff.1 h)
  refine merge_absorb ha hb hF hF rfl (fun w hw => ?_) fun w _ => hbinds w
  rcases List.mem_pair.1 hw with rfl | rfl <;> rfl

end

end ObjectMapping
