import ObjectMapping.Proofs.Blocking

/-!
# When constructions can be merged

A placeholder asks for the value that the source assigns to the member. Where the source assigns
none it gives way to its fallback, so that a merge fails if it meets one without a fallback there
(`Expr.Unfilled`). `Expr.mergeValue_failsIff` says that it fails for nothing else, and
`Lambda.merge_failsIff` that neither do lambdas with one parameter each, unless a lambda inside
binds the parameters of both.
-/

namespace ObjectMapping

open RunM

/-! ## Placeholders without a fallback -/

/-- Whether an expression is a placeholder without a fallback. -/
def Expr.isBare : Expr → Bool
  | .previous _ _ none => true
  | _ => false

/-- A placeholder without a fallback stands for the value of a member that the extension alone
assigns. -/
inductive Expr.Unfilled : Expr → Expr → Prop
  | added {i j : NodeId} {sty ty : Ty} {sargs eargs source extension : List Assignment}
      {a : Assignment} :
    a ∈ extension → Assignment.find? a.member source = none →
    a.value.outermost Expr.isBare ≠ [] →
    Unfilled (.construct i sty sargs source) (.construct j ty eargs extension)
  | merged {i j : NodeId} {sty ty : Ty} {sargs eargs source extension : List Assignment}
      {a x : Assignment} :
    a ∈ source → Assignment.find? a.member extension = some x → Unfilled a.value x.value →
    Unfilled (.construct i sty sargs source) (.construct j ty eargs extension)

section

variable {E : Fault → Prop} (hE : ∀ m : Member, E (.failed (.previousValueMissing m.text)))

theorem Expr.bare_iff {e : Expr} (he : e.isBare = false) : e.outermost isBare ≠ [] ↔
    (∃ d ∈ e.parts, d.outermost isBare ≠ []) ∨
      ∃ f, e.fn? = some f ∧ f.body.outermost isBare ≠ [] := by
  have hfn (f : Lambda) : f.outermost isBare = [] ↔ f.body.outermost isBare = [] := by
    rw [Lambda.outermost_eq_nil_iff]
    exact and_iff_right fun _ _ => rfl
  rw [ne_eq, outermost_eq_nil_iff, outermostBelow_eq_nil_iff]
  simp only [he, hfn, true_and, not_and_or, not_forall, exists_prop]

include hE

/-- Filling the placeholders of a value fails exactly if there is no previous value and one of them
has no fallback. -/
theorem Expr.fillPrevious_failsIff {previous : Option Expr} (m : Member) {value : Expr}
    (hformed : value.WellFormed) :
    FailsIff (fun _ => True) (value.fillPrevious previous m) E
      (previous = none ∧ value.outermost isBare ≠ []) := by
  unfold fillPrevious
  induction value using Expr.byPart with
  | h e ihpart ihfn =>
    -- a node that is entered fails if its parts do
    have enter (he : e.isBare = false) (hjudge : Yields (fun _ => True)
        ((Visitor.fillingPrevious previous m).judge e) .enter) :
        FailsIff (fun _ => True) ((Visitor.fillingPrevious previous m).apply e) E
          (previous = none ∧ e.outermost isBare ≠ []) := by
      refine FailsIff.congr (hjudge.next (Visitor.walk_failsIff (fun _ h => h)
        (fun d hd => ihpart d hd (hformed.part hd)) fun f hf => Visitor.walkFn_failsIff
          (fun _ h => h) (fun p _ => .pure) (hformed.fn hf).1
            (ihfn f hf (hformed.fn hf).2))) ?_
      rw [bare_iff he]
      constructor
      · rintro (⟨d, hd, hnone, h⟩ | ⟨f, hf, hnone, h⟩)
        · exact ⟨hnone, .inl ⟨d, hd, h⟩⟩
        · exact ⟨hnone, .inr ⟨f, hf, h⟩⟩
      · rintro ⟨hnone, ⟨d, hd, h⟩ | ⟨f, hf, h⟩⟩
        · exact .inl ⟨d, hd, hnone, h⟩
        · exact .inr ⟨f, hf, hnone, h⟩
    cases e with
    | previous i ty fallback =>
      cases previous with
      | some v =>
        have hjudge : Yields (fun _ => True)
            ((Visitor.fillingPrevious (some v) m).judge (.previous i ty fallback)) (.put v) :=
          .pure
        exact FailsIff.congr (hjudge.next FailsIff.pure) (by simp)
      | none =>
        cases fallback with
        | none =>
          exact FailsIff.congr (B := True) (.stop (hE m)) (by simp [outermost, orBelow, isBare])
        | some d =>
          have hjudge : Yields (fun _ => True)
              ((Visitor.fillingPrevious none m).judge (.previous i ty (some d))) .standIn := .pure
          have hd : d ∈ (Expr.previous i ty (some d)).parts := by simp [parts]
          exact FailsIff.congr (hjudge.next (ihpart d hd (hformed.part hd)))
            (by rw [bare_iff (e := .previous i ty (some d)) rfl]; simp [parts, fn?])
    | _ => exact enter rfl (by cases previous <;> exact .pure)

/-- Adding the members that the extension alone assigns. -/
theorem Assignment.added_failsIff {source extension : List Assignment}
    (hformed : ∀ a ∈ extension, a.value.WellFormed) :
    FailsIff (fun _ => True) (added source extension) E (∃ a ∈ extension,
      find? a.member source = none ∧ a.value.outermost Expr.isBare ≠ []) := by
  induction extension with
  | nil => exact FailsIff.pure.congr (by simp)
  | cons a rest ih =>
    have hrest := ih fun b hb => hformed b (by simp [hb])
    rw [added]
    cases hfind : find? a.member source with
    | some x =>
      rw [if_pos (by simp)]
      exact hrest.congr (by simp [hfind])
    | none =>
      rw [if_neg (by simp)]
      refine ((Expr.fillPrevious_failsIff hE a.member (hformed a (by simp))).bind fun _ =>
        hrest.bind fun _ => .pure).congr ?_
      simp [hfind]

/-- Laying the source's assignments under the extension's. -/
theorem Assignment.mergeList_failsIff {source extension : List Assignment}
    (ih : ∀ a ∈ source, ∀ {x : Expr}, x.WellFormed →
      FailsIff (fun _ => True) (a.value.mergeValue x) E (a.value.Unfilled x))
    (hsource : ∀ a ∈ source, a.value.WellFormed)
    (hextension : ∀ a ∈ extension, a.value.WellFormed) :
    FailsIff (fun _ => True) (mergeList extension source) E (∃ a ∈ source, ∃ x,
      find? a.member extension = some x ∧ a.value.Unfilled x.value) := by
  induction source with
  | nil => exact FailsIff.pure.congr (by simp)
  | cons a rest ihrest =>
    have hrest := ihrest (fun b hb => ih b (by simp [hb])) fun b hb => hsource b (by simp [hb])
    obtain ⟨m, previous⟩ := a
    have hprevious : previous.WellFormed := hsource ⟨m, previous⟩ (by simp)
    rw [mergeList]
    cases hfind : find? m extension with
    | none => exact (hrest.bind fun _ => .pure).congr (by simp [hfind])
    | some x =>
      have hx := hextension x (mem_of_find? hfind)
      have hfill {v : Expr} (hv : v.WellFormed) :
          FailsIff (fun _ => True) (v.fillPrevious (some previous) x.member) E False :=
        (Expr.fillPrevious_failsIff hE x.member hv).congr (by simp)
      refine ((ih ⟨m, previous⟩ (by simp) hx).bind_of_gives (Expr.mergeValue_ends hprevious hx)
        fun _ v hv => (hfill hv).bind fun _ => hrest.bind fun _ => .pure).congr ?_
      simp [hfind]

/-- Merging two expressions fails exactly if they are constructions and a placeholder stands for
nothing. -/
theorem Expr.mergeValue_failsIff {s x : Expr} (hs : s.WellFormed) (hx : x.WellFormed) :
    FailsIff (fun _ => True) (s.mergeValue x) E (s.Unfilled x) := by
  induction s using Expr.byParts generalizing x with
  | construct i sty sargs source iha ihb =>
    cases x with
    | construct j ty eargs extension =>
      obtain ⟨-, -, hsource⟩ := wellFormed_construct.1 hs
      obtain ⟨-, -, hextension⟩ := wellFormed_construct.1 hx
      rw [mergeValue]
      refine ((Assignment.mergeList_failsIff hE (fun a ha {x} => ihb a ha (hsource a ha)) hsource
        hextension).bind fun _ => (Assignment.added_failsIff hE hextension).bind fun _ =>
          (FailsIff.of_reaches (Q := fun _ => True) fun _ _ => ⟨trivial, _, rfl, trivial⟩).bind
            fun _ => .pure).congr ?_
      constructor
      · rintro (⟨a, ha, x, hfind, h⟩ | ⟨a, ha, hfind, h⟩ | h)
        · exact .merged ha hfind h
        · exact .added ha hfind h
        · simp at h
      · rintro (⟨ha, hfind, h⟩ | ⟨ha, hfind, h⟩)
        · exact .inr (.inl ⟨_, ha, hfind, h⟩)
        · exact .inl ⟨_, ha, _, hfind, h⟩
    | _ => exact FailsIff.pure.congr (iff_of_false not_false fun h => by cases h)
  | _ =>
    rw [mergeValue]
    · exact FailsIff.pure.congr (iff_of_false not_false fun h => by cases h)
    · simp

end

/-! ## Merging lambdas -/

section

variable {F : Forest} {Q : Lambda → Prop}

/-- No lambda inside a tree has the property if none that the tree holds anywhere has. -/
theorem Expr.not_someFn_iff {e : Expr} :
    ¬ e.SomeFn Q ↔ e.All fun d => ∀ f, d.fn? = some f → ¬ Q f := by
  constructor
  · intro h
    induction e using byChildren with
    | h e ih =>
      refine .mk (fun f hf hQ => h (.here hf hQ)) fun d hd => ih d hd fun hsome => ?_
      rcases mem_children.1 hd with hd | ⟨f, hf, hd⟩
      · exact h (.part hd hsome)
      rcases List.mem_append.1 hd with hd | hd
      · obtain ⟨p, -, rfl⟩ := List.mem_map.1 hd
        exact not_someFn_param hsome
      · obtain rfl := List.mem_singleton.1 hd
        exact h (.body hf hsome)
  · intro h hsome
    induction hsome with
    | here hf hQ => exact h.head _ hf hQ
    | part hd _ ih => exact ih (h.part hd)
    | body hf _ ih => exact ih (h.fn hf).body

/-- A merge binds nothing in lambdas that was not bound in them on one of the two sides. -/
theorem Expr.Overlaid.not_someFn {s x r : Expr} {P : List Param → Prop}
    (h : s.Overlaid (.replacing []) .keeping x r) (hs : ¬ s.SomeFn (P ·.params))
    (hx : ¬ x.SomeFn (P ·.params)) : ¬ r.SomeFn (P ·.params) := by
  rw [not_someFn_iff] at hs hx ⊢
  have hrebuilt {K : Judgement} {e e' : Expr} (hputs : ∀ {p : Param} {d}, ¬ K.puts (.param p) d)
      (he : ∀ f, e.fn? = some f → ¬ P f.params) (hr : e.Rebuilt K e') (f' : Lambda)
      (hf' : e'.fn? = some f') : ¬ P f'.params := by
    obtain ⟨f, hf, hbecomes⟩ := hr.fn?_becomes hf'
    rw [Param.eq_of_becomes hbecomes.params hputs]
    exact he f hf
  refine h.all (fun _ _ _ _ => by simp [fn?]) (fun hputs => hrebuilt hputs) (fun hv h => ?_)
    (fun hd h => becomes_keeping.1 h ▸ hd) hs hx
  refine h.all (fun _ hstands => ?_) (fun _ hputs => ?_) (fun he _ hr => ?_) hv
  · exact False.elim hstands
  · simp [Judgement.replacing] at hputs
  · exact hrebuilt (by simp [Judgement.replacing]) he hr

/-- Replacing nothing gives a tree back as it is. -/
theorem Expr.substitute_nil_yields {I : Trail → Prop} (e : Expr) :
    Yields I (e.substitute []) e := by
  refine (Replacement.check_yields (by simp) fun r hr => absurd hr List.not_mem_nil).next ?_
  refine Visitor.apply_yields_of_walk (fun d _ => .pure) ?_ e.outermost_never
  exact Visitor.walk_yields fun d _ => .pure

/-- Every node of a well-formed tree is formed as its builder would have it. -/
theorem Expr.WellFormed.all {e : Expr} (h : e.WellFormed) : e.All Formed := by
  induction e using byChildren with
  | h e ih =>
    refine .mk (wellFormed_iff.1 h).1 fun d hd => ih d hd ?_
    rcases mem_children.1 hd with hd | ⟨f, hf, hd⟩
    · exact h.part hd
    rcases List.mem_append.1 hd with hd | hd
    · obtain ⟨p, -, rfl⟩ := List.mem_map.1 hd
      exact wellFormed_param p
    · obtain rfl := List.mem_singleton.1 hd
      exact (h.fn hf).2

theorem Lambda.WellFormed.all {f : Lambda} (h : f.WellFormed) : f.All Expr.Formed := by
  intro d hd
  rcases List.mem_append.1 hd with hd | hd
  · obtain ⟨p, -, rfl⟩ := List.mem_map.1 hd
    exact (Expr.wellFormed_param p).all
  · obtain rfl := List.mem_singleton.1 hd
    exact h.2.all

theorem Forest.assignsOnce_formed (F : Forest) : (F.within Expr.Formed).AssignsOnce :=
  fun h => Assignment.pairwise_iff.2 h.2.head.2

/-- Renaming a parameter fails in no tree in which no lambda binds both it and its new name. -/
theorem Expr.substitute_ofParams_reaches {p q : Param} (hp : F.nodes (.param p))
    (hq : F.nodes (.param q)) {e : Expr} (he : F.nodes e) (hformed : e.WellFormed)
    (hblocks : p ≠ q → ¬ e.Blocks p (.param q)) :
    Reaches (fun _ => True) (e.substitute (Replacement.ofParams [p] [q])) fun _ => True := by
  by_cases hid : p.id = q.id
  · have hnone : Replacement.ofParams [p] [q] = [] := by simp [Replacement.ofParams, hid]
    rw [hnone]
    exact (substitute_nil_yields e).reaches trivial
  · have hone : Replacement.ofParams [p] [q] = [⟨.param p, .param q⟩] := by
      simp [Replacement.ofParams, hid]
    rw [hone]
    have hne : p ≠ q := fun h => hid (congrArg Param.id h)
    exact (substitute_failsIff hp hq (fun h => hne (Expr.param.inj h).symm) rfl he hformed).reaches
      (hblocks hne)

section

variable {E : Fault → Prop} (hE : ∀ m : Member, E (.failed (.previousValueMissing m.text)))
  {source extension : Lambda} {p q : Param} {t : Trail} (hs : F.fns source) (hx : F.fns extension)
  (hF : F.Below t.next) (hsformed : source.WellFormed) (hxformed : extension.WellFormed)
  (hsc : source.body.isConstruct = true) (hxc : extension.body.isConstruct = true)
  (hp : source.params = [p]) (hq : extension.params = [q])
  (hplain : source.body.outermost Expr.isPrevious = [])

include hE hs hx hF hsformed hxformed hsc hxc hp hq hplain

/-- A merge of two constructions with one parameter each fails exactly if a placeholder stands for
nothing, unless their parameters are different and a lambda inside binds both of them. -/
theorem Lambda.merge_failsIff_of_ne (hblocks : p ≠ q →
      ¬ source.body.Blocks p (.param q) ∧ ¬ extension.body.Blocks p (.param q)) :
    (source.body.Unfilled extension.body →
        ∃ e, (outcome (source.merge extension) t).1 = .error e ∧ E e) ∧
      (¬ source.body.Unfilled extension.body →
        ∃ result, (outcome (source.merge extension) t).1 = .ok result) := by
  have hrun : source.merge extension = (do
      let merged ← source.body.mergeValue extension.body
      let body ← merged.substitute (Replacement.ofParams [p] [q])
      Lambda.ofExprs extension.paramExprs body) := by
    simp [merge, hsc, hxc, hp, hq]
  rw [hrun]
  obtain ⟨-, hfails, hends⟩ := Expr.mergeValue_failsIff hE hsformed.2 hxformed.2 t trivial
  constructor
  · intro h
    obtain ⟨e, he, hE⟩ := hfails h
    exact ⟨e, congrArg Prod.fst (outcome_bind_of_error (Prod.ext he rfl)), hE⟩
  intro h
  obtain ⟨merged, hmerged⟩ := hends h
  replace hmerged : outcome (source.body.mergeValue extension.body) t = (.ok merged, _) :=
    Prod.ext hmerged rfl
  have hformed {f : Lambda} (hf : F.fns f) (h : f.WellFormed) : (F.within Expr.Formed).fns f :=
    ⟨hf, h.all⟩
  replace hs := hformed hs hsformed
  replace hx := hformed hx hxformed
  obtain ⟨G, hFG, -, hnode, hover⟩ := Expr.outcome_mergeValue F.assignsOnce_formed
    (Forest.body _ hs) hplain (Forest.body _ hx) hsc hxc (hF.of_le (F.within_le _)) hmerged
  have hblocks (hne : p ≠ q) : ¬ merged.Blocks p (.param q) := hover.not_someFn
    (P := fun ps => p ∈ ps ∧ ∀ y, Expr.param q = .param y → y ∈ ps) (hblocks hne).1 (hblocks hne).2
  have hids : (extension.params.map (·.id)).Nodup := hxformed.1
  rw [outcome_bind_of_ok hmerged]
  have hrename := Expr.substitute_ofParams_reaches
    (hFG.1 _ (Forest.param _ hs (by simp [hp]))) (hFG.1 _ (Forest.param _ hx (by simp [hq]))) hnode
    (ends_iff.1 (Expr.mergeValue_ends hsformed.2 hxformed.2) hmerged) hblocks
  have hmake (body : Expr) :
      Reaches (fun _ => True) (Lambda.ofExprs extension.paramExprs body) fun _ => True :=
    (Lambda.ofExprs_reaches hids body).imp fun _ _ => trivial
  exact ((hrename.bind fun body _ => hmake body) _ trivial).2.imp fun _ h => h.1

/-- A merge of two constructions with one parameter each fails exactly if a placeholder stands for
nothing, unless a lambda inside binds the parameters of both. -/
theorem Lambda.merge_failsIff (hsblocks : ¬ source.body.Blocks p (.param q))
    (hxblocks : ¬ extension.body.Blocks p (.param q)) :
    (source.body.Unfilled extension.body →
        ∃ e, (outcome (source.merge extension) t).1 = .error e ∧ E e) ∧
      (¬ source.body.Unfilled extension.body →
        ∃ result, (outcome (source.merge extension) t).1 = .ok result) :=
  merge_failsIff_of_ne hE hs hx hF hsformed hxformed hsc hxc hp hq hplain fun _ =>
    ⟨hsblocks, hxblocks⟩

end

end

end ObjectMapping
