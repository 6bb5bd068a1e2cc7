import ObjectMapping.Proofs.Completing
import ObjectMapping.Proofs.Overriding

/-!
# What the source alone assigns

`Expr.Alone` says that the source assigns a value to a member, somewhere inside of constructions
that are merged with those of the extension, and the extension assigns none. Nothing is laid over
such a value. At the root it stands in what a merge makes as it is, up to the renaming of the
parameters, placeholders included.

Further inside the placeholders of the extension are filled in all that has been merged there
(`Expr.Layered`), the values of the source not excepted. Its own placeholders give way there as
well, to the source's values of the members on the way, the innermost first (`Expr.FilledBy`).
`Lambda.merge_keeps` is the main statement, and `Lambda.merge_keeps_not_inside` an instance of
this.
-/

namespace ObjectMapping

open RunM

/-! ## Values inside of constructions -/

/-- The value at the end of a path of members through constructions. -/
def Expr.at? : List Member → Expr → Option Expr
  | [], e => some e
  | m :: path, .construct _ _ _ assignments =>
    match Assignment.find? m assignments with
    | some a => a.value.at? path
    | none => none
  | _ :: _, _ => none

/-- At the end of the path the source alone assigns the value `w`. The values that the source
assigns to the members on the way are `vs`, the innermost first. -/
inductive Expr.Alone : Expr → Expr → List Expr → List Member → Expr → Prop
  | here {i j : NodeId} {sty ty : Ty} {sargs eargs source extension : List Assignment}
      {m : Member} {a : Assignment} :
    Assignment.find? m source = some a → Assignment.find? m extension = none →
    Alone (.construct i sty sargs source) (.construct j ty eargs extension) [] [m] a.value
  | inside {i j : NodeId} {sty ty : Ty} {sargs eargs source extension : List Assignment}
      {m : Member} {a x : Assignment} {vs : List Expr} {path : List Member} {w : Expr} :
    Assignment.find? m source = some a → Assignment.find? m extension = some x →
    Alone a.value x.value vs path w →
    Alone (.construct i sty sargs source) (.construct j ty eargs extension) (vs ++ [a.value])
      (m :: path) w

/-- The placeholders of an expression are filled by one value after the other. -/
inductive Expr.FilledBy : List Expr → Expr → Expr → Prop
  | nil {e : Expr} : FilledBy [] e e
  | cons {v e e' r : Expr} {vs : List Expr} : e.Becomes (.filling (some v)) e' →
    FilledBy vs e' r → FilledBy (v :: vs) e r

section

variable {J : Judgement} {m : Member} {path : List Member} {vs : List Expr} {e r u v w : Expr}

theorem Expr.FilledBy.snoc (h : w.FilledBy vs u) (hu : u.Becomes (.filling (some v)) r) :
    w.FilledBy (vs ++ [v]) r := by
  induction h with
  | nil => exact .cons hu .nil
  | cons he _ ih => exact .cons he (ih hu)

/-- Filling does nothing to an expression without placeholders. -/
theorem Expr.FilledBy.replacing_of_plain (hw : w.outermost isPrevious = [])
    (h : w.FilledBy vs u) : w.Becomes (.replacing []) u := by
  induction h with
  | nil => exact .refl (fun _ => .inr (by simp [Judgement.replacing])) _
  | @cons v e e' r vs he _ ih =>
    have hsame : e.Becomes (.replacing []) e' := by
      refine he.replacing_of_plain (fun hplain hstands => ?_) (fun hplain hputs => ?_) hw
      · exact Bool.false_ne_true (hplain.symm.trans hstands.1)
      · exact Bool.false_ne_true (hplain.symm.trans hputs.1)
    exact .replacing_entered (by simp) (by simp [Judgement.replacing]) (fun _ => False.elim)
      e.outermost_never hsame (ih (hsame.plain_of_replacing (by simp) hw))

theorem Expr.at?_construct {i : NodeId} {ty : Ty} {as bs : List Assignment} {a : Assignment}
    (hfind : Assignment.find? m bs = some a) (path : List Member) :
    (Expr.construct i ty as bs).at? (m :: path) = a.value.at? path := by
  rw [Expr.at?, hfind]

/-- Assignments are looked up by what a member is known by. -/
theorem Assignment.find?_member {a : Assignment} {as : List Assignment}
    (h : find? m as = some a) (bs : List Assignment) : find? a.member bs = find? m bs := by
  obtain ⟨howner, hname⟩ := Prod.mk.inj (key_eq_of_find? h)
  simp only [find?, Member.same, howner, hname]

theorem Assignment.same_eq_of_key {a b : Assignment} (h : b.key = a.key) (m : Member) :
    b.member.same m = a.member.same m := by
  obtain ⟨howner, hname⟩ := Prod.mk.inj h
  rw [Member.same, Member.same, howner, hname]

/-- The assignment to a member is found at the same place of assignments to the same members. -/
theorem Assignment.find?_of_forall₂ {R : Assignment → Assignment → Prop} {as bs : List Assignment}
    (h : List.Forall₂ R as bs) (hR : ∀ a ∈ as, ∀ b, R a b → b.key = a.key) {a : Assignment}
    (hfind : find? m as = some a) : ∃ b, find? m bs = some b ∧ R a b := by
  induction h with
  | nil => cases hfind
  | @cons c d as bs hcd _ ih =>
    have hsame := same_eq_of_key (hR c (by simp) d hcd) m
    cases hc : c.member.same m with
    | true =>
      obtain rfl : c = a := by simpa [find?, hc] using hfind
      exact ⟨d, by simp [find?, hsame, hc], hcd⟩
    | false =>
      obtain ⟨b, hb, hab⟩ := ih (fun a ha => hR a (by simp [ha]))
        (by simpa [find?, hc] using hfind)
      exact ⟨b, by simpa [find?, hsame, hc] using hb, hab⟩

/-- A visit that enters the constructions on a path goes on to the value at its end. -/
theorem Expr.Becomes.at? (henters : ∀ {i ty as bs r}, (Expr.construct i ty as bs).Becomes J r →
      (Expr.construct i ty as bs).Rebuilt J r) (h : v.Becomes J r) (hu : v.at? path = some u) :
    ∃ w, r.at? path = some w ∧ u.Becomes J w := by
  induction path generalizing v r with
  | nil =>
    obtain rfl := Option.some.inj hu
    exact ⟨r, rfl, h⟩
  | cons m path ih =>
    cases v with
    | construct i ty as bs =>
      cases henters h with | construct hma hmb ha hb =>
      rw [Expr.at?] at hu
      split at hu
      · rename_i a hfind
        obtain ⟨b, hfind', -, hab⟩ := Assignment.find?_of_forall₂ (forall₂_assignments hmb hb)
          (fun a _ b hab => by rw [Assignment.key, Assignment.key, hab.1]) hfind
        rw [Expr.at?_construct hfind']
        exact ih hab hu
      · cases hu
    | _ => cases hu

end

/-! ## What becomes of them -/

section

variable {m : Member} {path : List Member} {vs : List Expr} {s x v w : Expr}

theorem Assignment.Layered.key_eq {extension : List Assignment} {a r : Assignment}
    (h : Layered (a, find? a.member extension) r) : r.key = a.key := by
  generalize hfind : find? a.member extension = o at h
  cases h with
  | kept => rfl
  | filled => exact (key_eq_of_find? hfind :)

/-- What becomes of the assignment to a member of the source. -/
theorem Assignment.Layered.find? {source extension kept : List Assignment} {a : Assignment}
    (h : List.Forall₂ Layered
      (source.map fun a => (a, Assignment.find? a.member extension)) kept)
    (hfind : Assignment.find? m source = some a) (added : List Assignment) :
    ∃ r, Assignment.find? m (kept ++ added) = some r ∧
      Layered (a, Assignment.find? m extension) r := by
  rw [List.forall₂_map_left_iff] at h
  obtain ⟨r, hr, hlayered⟩ := find?_of_forall₂ h (fun _ _ _ h => h.key_eq) hfind
  refine ⟨r, ?_, find?_member hfind extension ▸ hlayered⟩
  unfold Assignment.find? at hr ⊢
  rw [List.find?_append, hr]
  rfl

/-- What is laid over a source keeps what the source alone assigns, but for its placeholders, which
are filled with the values that the source has on the way. -/
theorem Expr.Layered.alone (h : s.Layered x v) (hw : s.Alone x vs path w) :
    ∃ u, v.at? path = some u ∧ w.FilledBy vs u := by
  induction hw generalizing v with
  | @here i j sty ty sargs eargs source extension m a hsource hextension =>
    cases h with
    | replaced hne => cases hne
    | @construct _ _ _ _ _ _ _ _ _ _ added hkept hadded =>
      obtain ⟨r, hr, hlayered⟩ := Assignment.Layered.find? hkept hsource added
      rw [hextension] at hlayered
      cases hlayered
      exact ⟨_, (Expr.at?_construct hr []).trans rfl, .nil⟩
  | @inside i j sty ty sargs eargs source extension m a b vs path w hsource hextension _ ih =>
    cases h with
    | replaced hne => cases hne
    | @construct _ _ _ _ _ _ _ _ _ _ added hkept hadded =>
      obtain ⟨r, hr, hlayered⟩ := Assignment.Layered.find? hkept hsource added
      rw [hextension] at hlayered
      cases hlayered with
      | filled hlayered hbecomes =>
        obtain ⟨u, hu, hfilled⟩ := ih hlayered
        obtain ⟨u', hu', hbecomes⟩ := hbecomes.at? (fun h => h.rebuilt_of_filling rfl) hu
        exact ⟨u', (Expr.at?_construct hr path).trans hu', hfilled.snoc hbecomes⟩

/-- What the source alone assigns stands in what a merge makes, with its parameters renamed and
nothing else changed, if it is assigned at the root or holds no placeholder. Inside of constructions
that are merged its placeholders are filled with the values that the source has on the way. -/
theorem Lambda.merge_keeps {F : Forest} {source extension result : Lambda} {t t' : Trail}
    (hs : F.fns source) (hx : F.fns extension) (hF : F.Below t.next)
    (h : outcome (source.merge extension) t = (.ok result, t'))
    (hw : source.body.Alone extension.body vs path w) :
    ∃ u r, result.body.at? path = some r ∧ w.FilledBy vs u ∧
      u.Becomes (.replacing (Replacement.ofParams source.params extension.params)) r ∧
      (vs = [] ∨ w.outermost Expr.isPrevious = [] →
        w.Becomes (.replacing (Replacement.ofParams source.params extension.params)) r) := by
  obtain ⟨-, -, -, -, merged, t₁, t₂, hmerged, hbody, -⟩ := outcome_merge_ok h
  obtain ⟨G, hFG, hG, hnode, hlayered⟩ :=
    Expr.mergeValue_layered F.le_refl (F.body hs) (F.body hx) hF hmerged
  obtain ⟨-, -, -, -, hbecomes⟩ := Expr.substitute_becomes
    (Replacement.flat_ofParams source.params extension.params)
    (fun r hr => hFG.1 _ (Replacement.nodes_ofParams hs hx hr).1)
    (fun r hr => hFG.1 _ (Replacement.nodes_ofParams hs hx hr).2) hnode hG hbody
  have hold {r : Replacement} : r ∈ Replacement.ofParams source.params extension.params →
      ∃ p, r.old = .param p := Replacement.exists_old_of_mem_ofParams
  obtain ⟨u, hu, hfilled⟩ := hlayered.alone hw
  obtain ⟨r, hr, hrenamed⟩ := hbecomes.at?
    ((Judgement.goesOn_replacing fun _ => hold).enters rfl) hu
  refine ⟨u, r, hr, hfilled, hrenamed, ?_⟩
  rintro (rfl | hplain)
  · cases hfilled
    exact hrenamed
  · exact .replacing_entered (fun _ => hold) (by simp [Judgement.replacing]) (fun _ => False.elim)
      w.outermost_never (hfilled.replacing_of_plain hplain) hrenamed

/-- A value at the root keeps its placeholder, and one further inside that has none is kept. -/
theorem Lambda.merge_keeps_apart :
    let a : Param := ⟨0, "a", .int⟩
    let b : Param := ⟨1, "b", .int⟩
    let p : Member := ⟨"D", "p", .int⟩
    let q : Member := ⟨"D", "q", .object "E"⟩
    let x : Member := ⟨"E", "x", .int⟩
    let y : Member := ⟨"E", "y", .int⟩
    let sum : Expr := .binary 3 .int .add (.param a) (.previous 2 .int none)
    let under : Expr := .construct 4 (.object "E") [] [⟨x, .param a⟩]
    let source : Lambda := ⟨6, [a], .construct 5 (.object "D") [] [⟨p, sum⟩, ⟨q, under⟩]⟩
    let upper : Expr := .construct 8 (.object "E") [] [⟨y, .param b⟩]
    let extension : Lambda := ⟨10, [b], .construct 9 (.object "D") [] [⟨q, upper⟩]⟩
    let J : Judgement := .replacing (Replacement.ofParams source.params extension.params)
    ∃ result t', outcome (source.merge extension) { next := 11 } = (.ok result, t') ∧
      (∃ r, result.body.at? [p] = some r ∧ sum.Becomes J r) ∧
      ∃ r, result.body.at? [q, x] = some r ∧ (Expr.param a).Becomes J r := by
  intro a b p q x y sum under source upper extension J
  let F : Forest := .ofLists [.param a, .param b, .previous 2 .int none, sum, under, source.body,
      upper, extension.body] [source, extension] (by decide) (by decide)
    (by simp [Expr.parts, sum, under, source, upper, extension])
    (by simp [Expr.fn?, sum, under, source, upper, extension]) (by simp [source, extension])
    (by simp)
  obtain ⟨result, t', hrun⟩ :
      ∃ result t', outcome (source.merge extension) { next := 11 } = (.ok result, t') := ⟨_, _, rfl⟩
  have hkeeps {vs : List Expr} {path : List Member} {w : Expr}
      (hw : source.body.Alone extension.body vs path w) :=
    Lambda.merge_keeps (F := F) (List.mem_cons_self ..)
      (List.mem_cons_of_mem _ (List.mem_singleton_self _))
      (Forest.below_ofLists (by decide) (by decide)) hrun hw
  refine ⟨result, t', hrun, ?_, ?_⟩
  · obtain ⟨-, r, hr, -, -, hkept⟩ := hkeeps (.here (m := p) (a := ⟨p, sum⟩) rfl rfl)
    exact ⟨r, hr, hkept (.inl rfl)⟩
  · obtain ⟨-, r, hr, -, -, hkept⟩ := hkeeps (.inside (m := q) (a := ⟨q, under⟩) (x := ⟨q, upper⟩)
      rfl rfl (.here (m := x) (a := ⟨x, .param a⟩) rfl rfl))
    exact ⟨r, hr, hkept (.inr rfl)⟩

/-- A placeholder that the source assigns inside of a construction does not stay in its place where
that construction is merged : what the source assigns further outside takes it. -/
theorem Lambda.merge_keeps_not_inside :
    let a : Param := ⟨0, "a", .int⟩
    let q : Member := ⟨"D", "q", .object "E"⟩
    let x : Member := ⟨"E", "x", .int⟩
    let y : Member := ⟨"E", "y", .int⟩
    let own : Expr := .previous 2 .int none
    let under : Expr := .construct 3 (.object "E") [] [⟨x, own⟩]
    let source : Lambda := ⟨5, [a], .construct 4 (.object "D") [] [⟨q, under⟩]⟩
    let upper : Expr := .construct 7 (.object "E") [] [⟨y, .constant 6 .int (.int 1)⟩]
    let extension : Lambda := ⟨9, [a], .construct 8 (.object "D") [] [⟨q, upper⟩]⟩
    source.body.Alone extension.body [under] [q, x] own ∧
      ∃ result t', outcome (source.merge extension) { next := 10 } = (.ok result, t') ∧
        result.body.at? [q, x] = some under ∧
        ¬ own.Becomes (.replacing (Replacement.ofParams source.params extension.params)) under := by
  intro a q x y own under source upper extension
  have halone : source.body.Alone extension.body ([] ++ [under]) [q, x] own :=
    .inside (a := ⟨q, under⟩) (x := ⟨q, upper⟩) rfl rfl (.here (a := ⟨x, own⟩) rfl rfl)
  refine ⟨halone, _, _, rfl, rfl, fun h => ?_⟩
  have hkind (r : Expr) (h : (Expr.previous 2 .int none).Becomes (.replacing []) r) :
      r.isPrevious = true := by
    cases h with
    | put h => simp [Judgement.replacing] at h
    | enter _ h => exact h.isPrevious_eq
    | standIn h => exact h.elim
    | stay => rfl
  cases hkind under h

end

end ObjectMapping
