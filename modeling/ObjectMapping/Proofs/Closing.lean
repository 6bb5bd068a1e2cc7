import ObjectMapping.Proofs.Needing

/-!
# Rewrites of closed lambdas

A merge needs no parameter that neither of its sides needs (`Expr.mergeValue_leadsTo`), until it
renames those of the source. A pass puts a lambda over the source of a call in the place of the
call, and what is put in needs what the call has needed (`Expr.Sealed.needs_of_puts`), if the lambda
is closed or is held by a constant in the call. `Lambda.Rewritten.needs_replaced` is the main
statement : a rewrite of closed lambdas leaves every parameter node of the tree bound. A lambda that
a constant holds is a value and is left as it is, so that it may go on to name a parameter that the
rewrite has replaced, and no other one.
-/

namespace ObjectMapping

open RunM

/-! ## Merging -/

/-- The expression needs no parameter that none of the others needs. -/
def Expr.NeedsAtMost (e : Expr) (es : List Expr) : Prop :=
  ∀ i, e.Needs .constants i → ∃ d ∈ es, d.Needs .constants i

namespace Expr.NeedsAtMost

variable {e d : Expr} {es ds : List Expr}

theorem of_mem (h : e ∈ es) : e.NeedsAtMost es :=
  fun _ hi => ⟨e, h, hi⟩

theorem of_part (hd : d ∈ e.parts) (h : e ∈ es) : d.NeedsAtMost es :=
  fun _ hi => ⟨e, h, .part hd hi⟩

theorem trans (h : e.NeedsAtMost es) (hes : ∀ d ∈ es, d.NeedsAtMost ds) : e.NeedsAtMost ds := by
  intro i hi
  obtain ⟨d, hd, hi⟩ := h i hi
  exact hes d hd i hi

theorem mono (h : e.NeedsAtMost es) (hes : es ⊆ ds) : e.NeedsAtMost ds :=
  h.trans fun _ hd => of_mem (hes hd)

/-- A node that holds no lambda needs what its parts need. -/
theorem of_parts {k : Kind} (hk : e.kind? = some k) (hf : e.fn? = none)
    (h : ∀ d ∈ e.parts, d.NeedsAtMost es) : e.NeedsAtMost es := by
  intro i hi
  obtain ⟨d, hd, hi⟩ := (needs_iff_parts hk hf).1 hi
  exact h d hd i hi

end Expr.NeedsAtMost

section

variable {F : Forest}

/-- A value whose placeholders are filled needs what the value or the previous one needs. -/
theorem Expr.fillPrevious_leadsTo {value : Expr} {previous : Option Expr} {member : Member}
    (hvalue : F.nodes value) (hprevious : ∀ d ∈ previous, F.nodes d) :
    LeadsTo F (value.fillPrevious previous member) fun G e =>
      G.nodes e ∧ e.NeedsAtMost (value :: previous.toList) := by
  refine ((Visitor.fillingPrevious_follows hprevious).remakes value hvalue).imp fun _ h => ?_
  exact ⟨h.1, fun i hi => by simpa using h.2.needs_of_filling hi⟩

/-- What is added needs what the values of the extension need. -/
theorem Assignment.added_leadsTo {source extension : List Assignment}
    (hextension : ∀ a ∈ extension, F.nodes a.value) :
    LeadsTo F (Assignment.added source extension) fun G added => ∀ r ∈ added,
      G.nodes r.value ∧ r.value.NeedsAtMost (extension.map (·.value)) := by
  induction extension with
  | nil => exact .pure fun _ => by simp
  | cons a rest ih =>
    obtain ⟨ha, hrest⟩ := List.forall_mem_cons.1 hextension
    have hsub : rest.map (·.value) ⊆ (a :: rest).map (·.value) := List.subset_cons_self _ _
    rw [Assignment.added]
    split
    · exact (ih hrest).imp fun _ h r hr => ⟨(h r hr).1, (h r hr).2.mono hsub⟩
    · refine (Expr.fillPrevious_leadsTo ha (by simp)).bind fun hFG hvalue => ?_
      refine ((ih hrest).of_le hFG).bind fun hGH h => .pure fun hHK => ?_
      refine List.forall_mem_cons.2 ⟨⟨hHK.1 _ (hGH.1 _ hvalue.1), hvalue.2.mono (by simp)⟩, ?_⟩
      exact fun r hr => ⟨hHK.1 _ (h r hr).1, (h r hr).2.mono hsub⟩

/-- What is made of the values of the source, under the extension, needs what the two need. -/
theorem Assignment.mergeList_leadsTo {source extension : List Assignment}
    (ih : ∀ a ∈ source, ∀ {x : Expr} {F : Forest}, F.nodes a.value → F.nodes x →
      LeadsTo F (a.value.mergeValue x) fun G v => G.nodes v ∧ v.NeedsAtMost [a.value, x])
    (hsource : ∀ a ∈ source, F.nodes a.value) (hextension : ∀ a ∈ extension, F.nodes a.value) :
    LeadsTo F (Assignment.mergeList extension source) fun G kept => ∀ r ∈ kept,
      G.nodes r.value ∧ r.value.NeedsAtMost ((source ++ extension).map (·.value)) := by
  induction source with
  | nil => exact .pure fun _ => by simp
  | cons a rest ihrest =>
    obtain ⟨m, previous⟩ := a
    obtain ⟨hprevious, hrest⟩ := List.forall_mem_cons.1 hsource
    -- the rest of the list, under one more value
    have finish {G : Forest} {r : Assignment} (hFG : F ≤ G) (hr : G.nodes r.value ∧
        r.value.NeedsAtMost ((⟨m, previous⟩ :: rest ++ extension).map (·.value))) :
        LeadsTo G (do return r :: (← Assignment.mergeList extension rest)) fun H kept =>
          ∀ r ∈ kept, H.nodes r.value ∧
            r.value.NeedsAtMost ((⟨m, previous⟩ :: rest ++ extension).map (·.value)) := by
      refine ((ihrest (fun b hb => ih b (by simp [hb])) hrest).of_le hFG).bind fun hGH h =>
        .pure fun hHK => List.forall_mem_cons.2 ⟨⟨hHK.1 _ (hGH.1 _ hr.1), hr.2⟩, ?_⟩
      exact fun r hr => ⟨hHK.1 _ (h r hr).1, (h r hr).2.mono (List.subset_cons_self _ _)⟩
    rw [Assignment.mergeList]
    split
    · exact finish F.le_refl ⟨hprevious, .of_mem (by simp)⟩
    · rename_i x hfind
      have hmem := mem_of_find? hfind
      refine (ih ⟨m, previous⟩ (by simp) hprevious (hextension x hmem)).bind fun hFG hvalue => ?_
      refine (Expr.fillPrevious_leadsTo hvalue.1 (by simpa using hFG.1 _ hprevious)).bind
        fun {H filled} hGH hfilled => finish (F.le_trans hFG hGH) ⟨hfilled.1, ?_⟩
      have hfrom : filled.NeedsAtMost [previous, x.value] := hfilled.2.trans <|
        by simpa using ⟨hvalue.2, .of_mem (by simp)⟩
      refine hfrom.mono (List.cons_subset.2 ⟨by simp, ?_⟩)
      simpa using .inr (.inr ⟨x, hmem, rfl⟩)

/-- What a merge makes of two values needs what the two need. -/
theorem Expr.mergeValue_leadsTo {s x : Expr} (hs : F.nodes s) (hx : F.nodes x) :
    LeadsTo F (s.mergeValue x) fun G v => G.nodes v ∧ v.NeedsAtMost [s, x] := by
  have replaced {F : Forest} {s x : Expr} (hx : F.nodes x) :
      LeadsTo F (pure x) fun G v => G.nodes v ∧ v.NeedsAtMost [s, x] :=
    .pure fun hFG => ⟨hFG.1 _ hx, .of_mem (by simp)⟩
  induction s using Expr.byParts generalizing x F with
  | construct i sty sargs source iha ihb =>
    cases x with
    | construct j ty eargs extension =>
      have hsource {a : Assignment} (ha : a ∈ source) :
          a.value ∈ (construct i sty sargs source).parts :=
        List.mem_append_right _ (List.mem_map_of_mem ha)
      have hextension {a : Assignment} (ha : a ∈ extension) :
          a.value ∈ (construct j ty eargs extension).parts :=
        List.mem_append_right _ (List.mem_map_of_mem ha)
      have hxF {a : Assignment} (ha : a ∈ extension) : F.nodes a.value := F.part hx (hextension ha)
      have values {v : Expr} (hv : v.NeedsAtMost ((source ++ extension).map (·.value))) :
          v.NeedsAtMost [construct i sty sargs source, construct j ty eargs extension] := by
        refine hv.trans fun d hd => ?_
        obtain ⟨a, ha, rfl⟩ := List.mem_map.1 hd
        rcases List.mem_append.1 ha with ha | ha
        · exact .of_part (hsource ha) (by simp)
        · exact .of_part (hextension ha) (by simp)
      rw [mergeValue]
      refine (Assignment.mergeList_leadsTo (fun a ha _ _ hs hx => ihb a ha hs hx)
        (fun a ha => F.part hs (hsource ha)) fun a ha => hxF ha).bind fun {G kept} hFG hkept => ?_
      refine (Assignment.added_leadsTo fun a ha => hFG.1 _ (hxF ha)).bind
        fun {H added} hGH hadded => ?_
      have hparts : ∀ n, ∀ d ∈ (construct n ty eargs (kept ++ added)).parts, H.nodes d ∧
          d.NeedsAtMost [construct i sty sargs source, construct j ty eargs extension] := by
        intro n d hd
        rcases List.mem_append.1 hd with hd | hd
        · have hmem : d ∈ (construct j ty eargs extension).parts := List.mem_append_left _ hd
          exact ⟨hGH.1 _ (hFG.1 _ (F.part hx hmem)), .of_part hmem (by simp)⟩
        · obtain ⟨a, ha, rfl⟩ := List.mem_map.1 hd
          rcases List.mem_append.1 ha with ha | ha
          · exact ⟨hGH.1 _ (hkept a ha).1, values (hkept a ha).2⟩
          · exact ⟨(hadded a ha).1, values ((hadded a ha).2.mono (by simp))⟩
      refine (leadsTo_make (fun _ => rfl) (fun n d hd => (hparts n d hd).1) (by simp [fn?])).imp
        fun _ h => ?_
      obtain ⟨he, n, rfl⟩ := h
      exact ⟨he, .of_parts rfl rfl fun d hd => (hparts n d hd).2⟩
    | _ => exact replaced hx
  | _ =>
    rw [mergeValue]
    · exact replaced hx
    · simp

/-- What a merge of closed lambdas leaves unbound is a parameter of the source, in a constant. -/
theorem Lambda.needs_of_merge {source extension result : Lambda} {t t' : Trail} (hs : F.fns source)
    (hx : F.fns extension) (hF : F.Below t.next) (hsource : source.Closed)
    (hextension : extension.Closed) (h : outcome (source.merge extension) t = (.ok result, t'))
    {reach : Reach} {i : NodeId} (hi : result.Needs reach i) :
    reach = .constants ∧ Param.Bind i source.params := by
  obtain ⟨-, -, hlen, hparams, merged, t₁, t₂, hmerged, hbody, -⟩ := outcome_merge_ok h
  obtain ⟨-, G, hFG, hG, hnode, hmost⟩ :=
    (Expr.mergeValue_leadsTo (F.body hs) (F.body hx)).made F.le_refl hF trivial hmerged
  have hold : ∀ r ∈ Replacement.ofParams source.params extension.params, G.nodes r.old :=
    fun r hr => hFG.1 _ (Replacement.nodes_ofParams hs hx hr).1
  obtain ⟨-, -, -, -, hbecomes⟩ := Expr.substitute_becomes
    (Replacement.flat_ofParams source.params extension.params) hold
    (fun r hr => hFG.1 _ (Replacement.nodes_ofParams hs hx hr).2) hnode hG hbody
  obtain ⟨hunbound, hi⟩ := hi
  rw [hparams] at hunbound
  rcases hbecomes.needs_of_replacing hold hnode hi with
    ⟨hi, hkept⟩ | ⟨r, hr, hi⟩ | ⟨hreach, r, hr, rfl⟩
  · -- a parameter that is not renamed is one of the extension
    obtain ⟨d, hd, hi⟩ := hmost i hi
    obtain rfl | rfl := List.mem_pair.1 hd
    · refine absurd ⟨fun ⟨p, hp, hpi⟩ => ?_, hi⟩ (hsource i)
      obtain ⟨q, hq, hid | hr⟩ := Replacement.exists_mem_ofParams hlen hp
      · exact hunbound ⟨q, hq, hid.trans hpi⟩
      · exact hkept _ hr hpi
    · exact absurd ⟨hunbound, hi⟩ (hextension i)
  · obtain ⟨p, hp, q, hq, rfl⟩ := Replacement.mem_ofParams hr
    exact absurd ⟨q, hq, Expr.needs_param.1 hi⟩ hunbound
  · obtain ⟨p, hp, q, hq, rfl⟩ := Replacement.mem_ofParams hr
    exact ⟨hreach, p, hp, rfl⟩

/-! ## Expanding -/

variable {ops : Operation → Prop} {host : Host} {resolvers : List Resolver} {taken : Lambda → Prop}
  {source e e' : Expr} {g : Lambda} {reach : Reach} {i : NodeId}

/-- What is needed where a lambda is inlined is needed by the lambda or by the source. In constants
it may also be the parameter that is replaced. -/
theorem Lambda.InlinedOver.needs (hg : F.fns g) (h : g.InlinedOver source e)
    (hi : e.Needs reach i) : g.Needs .constants i ∨ source.Needs .constants i ∨
      reach = .constants ∧ Param.Bind i g.params := by
  obtain ⟨p, hp, -, hbecomes⟩ := h
  have hold : ∀ r ∈ [(⟨.param p, source⟩ : Replacement)], F.nodes r.old := by
    simpa using F.param hg (by simp [hp])
  rcases hbecomes.needs_of_replacing hold (F.body hg) hi with ⟨hi, hne⟩ | hi | ⟨hreach, hbind⟩
  · exact .inl ⟨by simpa [Param.Bind, hp, Expr.id] using hne, hi⟩
  · exact .inr (.inl (by simpa using hi))
  · exact .inr (.inr ⟨hreach, by simpa [Param.Bind, hp, Expr.id] using hbind⟩)

theorem Expr.IsDefault.not_needs {ty : Ty} {d : Expr} (h : d.IsDefault ty) :
    ¬ d.Needs reach i := by
  obtain ⟨j, rfl | rfl⟩ := h <;> simp

theorem Lambda.Expansion.needs (hg : F.fns g) (h : g.Expansion source e) (hi : e.Needs reach i) :
    g.Needs .constants i ∨ source.Needs .constants i ∨
      reach = .constants ∧ Param.Bind i g.params := by
  cases h with
  | plain h => exact h.needs hg hi
  | guarded h hd hresult =>
    rcases Expr.needs_conditional.1 hi with hi | hi | hi
    · rcases Expr.needs_binary.1 hi with hi | hi
      · exact .inr (.inl hi.of_reach)
      · exact absurd hi hd.not_needs
    · exact absurd hi hresult.not_needs
    · exact h.needs hg hi

theorem Lambda.Projection.needs (hg : F.fns g) (h : g.Projection source e) (hi : e.Needs reach i) :
    g.Needs .constants i ∨ source.Needs .constants i ∨
      reach = .constants ∧ Param.Bind i g.params := by
  cases h with | @mk _ _ _ _ lambda _ q _ hparams h _ hfn =>
  have hsides : source.Needs reach i ∨ lambda.Needs reach i := by simpa using hi
  rcases hsides with hi | hi
  · exact .inr (.inl hi.of_reach)
  · obtain ⟨hunbound, hi⟩ := (Expr.needs_of_fn? hfn).1 hi
    refine (h.needs hg hi).imp_right (Or.imp_left fun hi => ?_)
    exact absurd ⟨q, by simp [hparams], Expr.needs_param.1 hi⟩ hunbound

/-- A node that a pass may expand : a call takes its lambda from a constant or from the resolvers,
and the lambda is closed, or a constant holds it in the place of the call. -/
structure Expr.Sealed (ops : Operation → Prop) (host : Host) (resolvers : List Resolver)
    (taken : Lambda → Prop) (e : Expr) : Prop where
  calls : e.CallsIn ops
  operand {d : Expr} : e.operand? = some d → ∃ i ty v, d = .constant i ty v
  known {g : Lambda} : e.Takes host resolvers g → taken g
  closed {g : Lambda} : e.Takes host resolvers g →
    g.Closed ∨ ∃ i ty, e.operand? = some (.constant i ty (.expression g))

/-- What takes the place of a call needs what the call needed. In constants it may also need the
parameter of a lambda that is inlined. -/
theorem Expr.Sealed.needs_of_puts (he : e.Sealed ops host resolvers taken)
    (htaken : ∀ g, taken g → F.fns g) (h : (Judgement.expanding host resolvers).puts e e')
    (hi : e'.Needs reach i) :
    e.Needs .constants i ∨ reach = .constants ∧ ∃ g, taken g ∧ Param.Bind i g.params := by
  obtain ⟨g, source, hsource, htakes, hexpands⟩ := h
  have hg := htaken g (he.known htakes)
  have hneeds : g.Needs .constants i ∨ source.Needs .constants i ∨
      reach = .constants ∧ Param.Bind i g.params := by
    rcases hexpands with ⟨-, -, hexpansion⟩ | ⟨-, hprojection⟩
    · exact hexpansion.needs hg hi
    · exact hprojection.needs hg hi
  rcases hneeds with hneeds | hneeds | ⟨hreach, hbind⟩
  · rcases he.closed htakes with hclosed | ⟨j, ty, hoperand⟩
    · exact absurd hneeds (hclosed i)
    · refine .inl (.part (mem_parts_of_operand? hoperand) (needs_constant.2 ?_))
      exact ⟨rfl, g, rfl, hneeds⟩
  · exact .inl (.part (mem_parts_of_source? hsource) hneeds)
  · exact .inr ⟨hreach, g, he.known htakes, hbind⟩

/-- What a pass makes of a tree needs what the tree needed. In constants it may also need the
parameter of a lambda that is inlined. -/
theorem Expr.Becomes.needs_of_expanding (h : e.Becomes (.expanding host resolvers) e')
    (he : e.All (Expr.Sealed ops host resolvers taken)) (htaken : ∀ g, taken g → F.fns g)
    (hi : e'.Needs reach i) :
    e.Needs .constants i ∨ reach = .constants ∧ ∃ g, taken g ∧ Param.Bind i g.params := by
  refine (h.needs (R := True) he hi (fun h => h.elim) (fun _ _ _ _ => .inl trivial)
    (fun he hput hi => ?_) fun _ hps hbind => ?_).imp_left And.left
  · exact (he.head.needs_of_puts htaken hput hi).imp_left fun hi => ⟨hi, trivial⟩
  · rwa [Param.eq_of_becomes hps fun ⟨_, _, hsource, _⟩ => nomatch hsource]

/-- What a pass over a closed lambda leaves unbound is the parameter of a lambda that is inlined, in
a constant. -/
theorem ExpanderDesign.needs_of_expandLambda {design : ExpanderDesign} {cx : BuildContext}
    {f f' : Lambda} {s s' : Trail × TransformerCache}
    (hkeys : ∀ {op op' : Operation}, ops op → ops op' → op.signature = op'.signature →
      op.markers = op'.markers)
    (hcustom : ∀ op, ops op → ∀ name, op.markers ≠ [.custom name])
    (hcache : design.Caches ops s.2) (hf : F.fns f) (htaken : ∀ g, taken g → F.fns g)
    (hF : F.Below s.1.next) (hclosed : f.Closed)
    (hsealed : f.All (Expr.Sealed ops host design.settings.resolvers taken))
    (h : outcome (design.expandLambda host f cx) s = (.ok f', s')) (hi : f'.Needs reach i) :
    reach = .constants ∧ ∃ g, taken g ∧ Param.Bind i g.params := by
  have hfollows : (design.visitor host cx).Follows (fun s => design.Caches ops s.2)
      (F.within (Expr.Sealed ops host design.settings.resolvers taken)) F
      (.expanding host design.settings.resolvers) :=
    visitor_follows_expanding (F.within_le _) hkeys hcustom (fun _ he => he.2.head.calls)
      (fun _ he _ hd => he.2.head.operand hd) fun _ he _ hg => htaken _ (he.2.head.known hg)
  obtain ⟨-, -, -, -, -, hbecomes⟩ := hfollows.walkFn F.le_refl ⟨hf, hsealed⟩ hF hcache h
  obtain ⟨hunbound, hi⟩ := hi
  rw [Param.eq_of_becomes hbecomes.params fun ⟨_, _, hsource, _⟩ => nomatch hsource] at hunbound
  refine (hbecomes.body.needs_of_expanding hsealed.body htaken hi).resolve_left fun hi => ?_
  exact hclosed i ⟨hunbound, hi⟩

/-! ## Rewrites -/

/-- A rewrite of closed lambdas ends with the lambda, and it may have replaced the parameters of
which the property holds. -/
inductive Lambda.Rewritten (F : Forest) (host : Host) : (NodeId → Prop) → Lambda → Prop
  | merge {source extension result : Lambda} {t t' : Trail} : F.fns source → F.fns extension →
    F.Below t.next → source.Closed → extension.Closed →
    outcome (source.merge extension) t = (.ok result, t') →
    Rewritten F host (Param.Bind · source.params) result
  | expand {design : ExpanderDesign} {ops : Operation → Prop} {taken : Lambda → Prop}
      {cx : BuildContext} {f result : Lambda} {s s' : Trail × TransformerCache} :
    (∀ {op op' : Operation}, ops op → ops op' → op.signature = op'.signature →
      op.markers = op'.markers) → (∀ op, ops op → ∀ name, op.markers ≠ [.custom name]) →
    design.Caches ops s.2 → F.fns f → (∀ g, taken g → F.fns g) → F.Below s.1.next → f.Closed →
    f.All (Expr.Sealed ops host design.settings.resolvers taken) →
    outcome (design.expandLambda host f cx) s = (.ok result, s') →
    Rewritten F host (fun i => ∃ g, taken g ∧ Param.Bind i g.params) result

/-- A rewrite of closed lambdas leaves no parameter of the tree unbound, and in the lambdas that
constants hold none but those that it replaces. -/
theorem Lambda.Rewritten.needs_replaced {replaced : NodeId → Prop} {result : Lambda}
    (h : result.Rewritten F host replaced) :
    (∀ i, ¬ result.Needs .tree i) ∧ ∀ i, result.Needs .constants i → replaced i := by
  have needs {reach : Reach} {i : NodeId} (hi : result.Needs reach i) :
      reach = .constants ∧ replaced i := by
    cases h with
    | merge hs hx hF hsource hextension hrun =>
      exact needs_of_merge hs hx hF hsource hextension hrun hi
    | expand hkeys hcustom hcache hf htaken hF hclosed hsealed hrun =>
      exact ExpanderDesign.needs_of_expandLambda hkeys hcustom hcache hf htaken hF hclosed hsealed
        hrun hi
  exact ⟨fun _ hi => (nomatch (needs hi).1), fun _ hi => (needs hi).2⟩

/-- A node without a marker is no call to expand. -/
theorem Expr.Sealed.of_unmarked (hcalls : e.CallsIn ops) (h : e.markers = []) :
    e.Sealed ops host resolvers taken where
  calls := hcalls
  operand ho := absurd h (markers_ne_of_operand? ho)
  known ht := absurd h ht.markers_ne
  closed ht := absurd h ht.markers_ne

/-- A merge that renames a parameter in both sides, and a lambda that is included and takes a
parameter from the scope that it is included in. -/
theorem Lambda.Rewritten.needs_included :
    let ty : Ty := .object "A"
    let P : Member := ⟨"A", "P", ty⟩
    let Q : Member := ⟨"A", "Q", ty⟩
    let x : Param := ⟨0, "x", ty⟩
    let m : Param := ⟨1, "m", ty⟩
    let source : Lambda := ⟨3, [x], .construct 2 ty [] [⟨P, .param x⟩]⟩
    let extension : Lambda := ⟨5, [m], .construct 4 ty [] [⟨Q, .param m⟩]⟩
    let g : Lambda := ⟨7, [m], .construct 6 ty [] [⟨P, .param m⟩, ⟨Q, .param x⟩]⟩
    let f : Lambda := ⟨10, [x], .call 9 ty .includeGiven none
      [.param x, .constant 8 g.quotedTy (.expression g)]⟩
    let design : ExpanderDesign := ⟨{}, fun _ _ => .error "none"⟩
    (∃ result t, outcome (source.merge extension) { next := 11 } = (.ok result, t) ∧
      (∀ i, ¬ result.Needs .tree i) ∧
        ∀ i, result.Needs .constants i → Param.Bind i source.params) ∧
    ∃ result s, outcome (design.expandLambda (.bare 3) f ⟨none, none, ty⟩) ({ next := 11 }, []) =
        (.ok result, s) ∧ (∀ i, ¬ result.Needs .tree i) ∧
          ∀ i, result.Needs .constants i → ∃ f, f = g ∧ Param.Bind i f.params := by
  intro ty P Q x m source extension g f design
  let operand : Expr := .constant 8 g.quotedTy (.expression g)
  let F : Forest := .ofLists [.param x, .param m, source.body, extension.body, g.body, operand,
      f.body] [source, extension, g, f] (by decide) (by decide)
    (by simp [Expr.parts, source, extension, g, operand, f])
    (by simp [Expr.fn?, source, extension, g, operand, f])
    (by simp [source, extension, g, f]) (by simp)
  have hF : F.Below 11 := Forest.below_ofLists (by decide) (by decide)
  have hfns : ∀ k ∈ [source, extension, g, f], F.fns k := fun _ h => h
  constructor
  · obtain ⟨result, t, hrun⟩ :
        ∃ result t, outcome (source.merge extension) { next := 11 } = (.ok result, t) := ⟨_, _, rfl⟩
    have hsource : source.Closed := by
      rintro i ⟨hunbound, hi⟩
      exact hunbound ⟨x, by simp [source], by simpa [source] using hi⟩
    have hextension : extension.Closed := by
      rintro i ⟨hunbound, hi⟩
      exact hunbound ⟨m, by simp [extension], by simpa [extension] using hi⟩
    have hrewritten : result.Rewritten F (.bare 3) (Param.Bind · source.params) :=
      .merge (hfns _ (by simp)) (hfns _ (by simp)) hF hsource hextension hrun
    exact ⟨result, t, hrun, hrewritten.needs_replaced⟩
  · obtain ⟨result, s, hrun⟩ : ∃ result s, outcome (design.expandLambda (.bare 3) f
      ⟨none, none, ty⟩) ({ next := 11 }, []) = (.ok result, s) := ⟨_, _, rfl⟩
    have hf : f.Closed := by
      rintro i ⟨hunbound, hi⟩
      have hneeds : x.id = i ∨ g.Needs .constants i := by simpa [f] using hi
      rcases hneeds with hx | ⟨hm, hi⟩
      · exact hunbound ⟨x, by simp [f], hx⟩
      · have hneeds : m.id = i ∨ x.id = i := by simpa [g] using hi
        rcases hneeds with hi | hi
        · exact hm ⟨m, by simp [g], hi⟩
        · exact hunbound ⟨x, by simp [f], hi⟩
    have hsealed : f.All (Expr.Sealed (· = .includeGiven) (.bare 3) [] (· = g)) := by
      have leaf {e : Expr} (hop : e.operation? = none) (hchildren : e.children = []) :
          e.All (Expr.Sealed (· = .includeGiven) (.bare 3) [] (· = g)) :=
        .leaf (.of_unmarked (Expr.callsIn_of_none hop) (Expr.markers_of_none hop)) hchildren
      have takes {h : Lambda} (ht : f.body.Takes (.bare 3) [] h) : h = g := by
        cases ht with
        | held ho hv =>
          obtain ⟨-, -, rfl⟩ := Expr.constant.inj (Option.some.inj ho)
          cases hv
          rfl
        | found _ _ _ hresolver => cases hresolver
      intro d hd
      rcases List.mem_pair.1 hd with rfl | rfl
      · exact leaf rfl rfl
      · refine .mk ⟨fun op hop => (Option.some.inj hop).symm, fun ho => ?_, takes, fun ht => ?_⟩
          fun d hd => ?_
        · exact ⟨_, _, _, (Option.some.inj ho).symm⟩
        · exact .inr ⟨8, g.quotedTy, by rw [takes ht]; rfl⟩
        · rcases List.mem_pair.1 hd with rfl | rfl <;> exact leaf rfl rfl
    have hrewritten : result.Rewritten F (.bare 3) fun i => ∃ f, f = g ∧ Param.Bind i f.params :=
      .expand (by rintro op op' rfl rfl _; rfl) (by rintro op rfl name h; cases h)
        (@ExpanderDesign.caches_nil _ _) (hfns _ (by simp)) (fun k hk => hfns _ (by simp [hk]))
        hF hf hsealed hrun
    exact ⟨result, s, hrun, hrewritten.needs_replaced⟩

/-- Rewrites of closed lambdas that do not end with a closed one. A constant holds a lambda that
needs the parameter which a merge or a pass replaces. A resolver answers with a mapper that is not
closed, a custom transformer with a parameter of its own, and an operation without a marker is taken
for an include because of its key, with a mapper that is not closed. -/
theorem Lambda.Rewritten.needs_dangling :
    let ty : Ty := .object "A"
    let x : Param := ⟨0, "x", ty⟩
    let m : Param := ⟨1, "m", ty⟩
    let y : Param := ⟨2, "y", ty⟩
    let held : Lambda := ⟨3, [y], .param x⟩
    let source : Lambda := ⟨6, [x], .construct 5 ty []
      [⟨⟨"A", "P", held.quotedTy⟩, .constant 4 held.quotedTy (.expression held)⟩]⟩
    let extension : Lambda := ⟨8, [m], .construct 7 ty [] []⟩
    let inner : Lambda := ⟨3, [y], .param m⟩
    let outer : Lambda := ⟨6, [m], .call 5 ty .includeGiven none
      [.param m, .constant 4 inner.quotedTy (.expression inner)]⟩
    let nested : Lambda := ⟨9, [x], .call 8 ty .includeGiven none
      [.param x, .constant 7 outer.quotedTy (.expression outer)]⟩
    let unclosed : Lambda := ⟨3, [m], .param y⟩
    let mapper : Mapper := ⟨1, ty, ty, unclosed, unclosed⟩
    let resolved : Lambda := ⟨5, [x], .call 4 ty .includeResolved none [.param x]⟩
    let own : Operation := ⟨⟨"A", "Own", 1, false⟩, [.custom "own"], none⟩
    let customary : Lambda := ⟨5, [x], .call 4 ty own none [.param x]⟩
    let twin : Operation := { Operation.includeGiven with markers := [] }
    let mistaken : Lambda := ⟨6, [x], .call 5 ty twin none
      [.param x, .constant 4 (.mapper ty ty) (.mapper mapper)]⟩
    let dangles (settings : Settings) (expand : SiteExpansion) (cache : TransformerCache)
        (f : Lambda) : Prop :=
      f.Closed ∧ ∃ f' s, outcome (ExpanderDesign.expandLambda ⟨settings, fun _ _ => .ok expand⟩
        (.bare 3) f ⟨none, none, ty⟩) ({ next := 10 }, cache) = (.ok f', s) ∧ ¬ f'.Closed
    (source.Closed ∧ extension.Closed ∧ ∃ result t,
      outcome (source.merge extension) { next := 10 } = (.ok result, t) ∧ ¬ result.Closed) ∧
    dangles {} (fun _ _ _ _ => pure (.param y)) [] nested ∧
    dangles { resolvers := [.ofTable ⟨[.mapper mapper]⟩] } (fun _ _ _ _ => pure (.param y)) []
      resolved ∧
    dangles {} (fun _ _ _ _ => pure (.param y)) [] customary ∧
    dangles {} (fun _ _ _ _ => pure (.param y))
      [(twin.signature, some ⟨0, CallSite.inlineGiven false⟩)] mistaken := by
  intro ty x m y held source extension inner outer nested unclosed mapper resolved own customary
    twin mistaken dangles
  -- what is given is closed, and what comes out needs the parameter that is named
  refine ⟨⟨?_, ?_, _, _, rfl, fun h => h x.id ?_⟩, ⟨?_, _, _, rfl, fun h => h m.id ?_⟩,
    ⟨?_, _, _, rfl, fun h => h y.id ?_⟩, ⟨?_, _, _, rfl, fun h => h y.id ?_⟩,
    ⟨?_, _, _, rfl, fun h => h y.id ?_⟩⟩
  all_goals simp [Lambda.Closed, Lambda.Needs, Param.Bind, source, held, extension, inner, outer,
    nested, unclosed, mapper, resolved, customary, mistaken, x, y, m]
  all_goals tauto

end

end ObjectMapping
