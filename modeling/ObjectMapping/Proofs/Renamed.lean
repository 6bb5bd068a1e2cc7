import ObjectMapping.Proofs.Congruence
import ObjectMapping.Proofs.Splicing

/-!
# Calls of renamed trees

A pass over a tree whose parameters have been renamed makes the same as one over the tree itself,
but for the names (`Expr.Splices.congruent`).
-/

namespace ObjectMapping

/-! ## Bodies over renamed sources -/

/-- The renaming moves no parameter of the tree. -/
abbrev Expr.Fixed (σ : Param → Param) (e : Expr) : Prop :=
  e.All fun d => ∀ y, d = .param y → σ y = y

section

variable {F G : Forest} {σ : Param → Param} {p : Param} {source source' body body' e : Expr}

/-- What becomes of a node in which a parameter is replaced, and then renamed. -/
theorem Expr.rebuilt_of_replacing {c y x u : Expr} (hc : c.param? = none) (hne : c ≠ .param p)
    (h : c.Becomes (.replacing [⟨.param p, u⟩]) y) (hx : y.Renames σ x) :
    c.Rebuilt (.of fun c x => ∃ y, c.Becomes (.replacing [⟨.param p, u⟩]) y ∧ y.Renames σ x) x := by
  rcases becomes_replacing_one.1 h with ⟨rfl, -⟩ | ⟨-, hr⟩
  · exact absurd rfl hne
  · refine hr.chain (hx.rebuilt ?_) fun h h' => ⟨_, h, becomes_of.1 h'⟩
    cases hr <;> first | rfl | cases hc

/-- A body over a renamed source is congruent to the renamed body over the source. -/
theorem Expr.congruent_of_replacing {b : Expr} (hfixed : b.Fixed σ) (hs : source.Renames σ source')
    (h : b.Becomes (.replacing [⟨.param p, source⟩]) body) (hbody : body.Renames σ body')
    (h' : b.Becomes (.replacing [⟨.param p, source'⟩]) e) : e.Congruent body' := by
  refine congruent_of_made (R := Becomes (.replacing [⟨.param p, source'⟩]))
    (T := fun c x => ∃ y, c.Becomes (.replacing [⟨.param p, source⟩]) y ∧ y.Renames σ x)
    (fun {c r r'} hc hr hr' => ?_) hfixed h' ⟨body, h, hbody⟩
  obtain ⟨y, hy, hr'⟩ := hr'
  cases hparam : c.param? with
  | some z =>
    obtain rfl := Expr.eq_of_param? hparam
    refine .inl ?_
    rcases becomes_replacing_one.1 hr with ⟨hz, rfl⟩ | ⟨hne, hr⟩
    · rcases becomes_replacing_one.1 hy with ⟨-, rfl⟩ | ⟨hne, -⟩
      · exact hs.congruent hr'
      · exact absurd hz hne
    · rcases becomes_replacing_one.1 hy with ⟨hz, -⟩ | ⟨-, hy⟩
      · exact absurd hz hne
      · cases hr
        cases hy
        rw [renames_param.1 hr', hc z rfl]
        exact .refl _
  | none =>
    have hne : c ≠ .param p := fun h => by simp [h, param?] at hparam
    refine .inr (.inr ⟨rfl, ?_, rebuilt_of_replacing hparam hne hy hr'⟩)
    rcases becomes_replacing_one.1 hr with ⟨heq, -⟩ | ⟨-, hr⟩
    · exact absurd heq hne
    · exact hr.of fun h => h

/-- The scopes bind the parameter `q` and the parameter `w` by the same binder, and agree on all
others. -/
structure ScopesAgree (q w : Param) (bound bound' : List NodeId) : Prop where
  binds : ∃ k, bound.idxOf? q.id = some k ∧ bound'.idxOf? w.id = some k
  others {i : NodeId} : i ≠ q.id → i ≠ w.id → bound.idxOf? i = bound'.idxOf? i

theorem ScopesAgree.enter {q w : Param} {bound bound' : List NodeId} {i : NodeId}
    (h : ScopesAgree q w bound bound') (hq : i ≠ q.id) (hw : i ≠ w.id) :
    ScopesAgree q w (i :: bound) (i :: bound') where
  binds := by
    obtain ⟨k, hk, hk'⟩ := h.binds
    exact ⟨k + 1, by simp [List.idxOf?_cons, hq, hk], by simp [List.idxOf?_cons, hw, hk']⟩
  others hjq hjw := by rw [List.idxOf?_cons, List.idxOf?_cons, h.others hjq hjw]

theorem ScopesAgree.bind {q w : Param} {bound bound' : List NodeId}
    (h : ∀ {i : NodeId}, i ≠ q.id → i ≠ w.id → bound.idxOf? i = bound'.idxOf? i) :
    ScopesAgree q w (q.id :: bound) (w.id :: bound') where
  binds := ⟨0, by simp [List.idxOf?_cons], by simp [List.idxOf?_cons]⟩
  others hq hw := by simp [List.idxOf?_cons, Ne.symm hq, Ne.symm hw, h hq hw]

/-- A body over a new parameter has the nameless form that it has over another one, where these are
bound. -/
theorem Expr.nameless_eq_of_replacing {q w : Param} {b : Expr} (hb : F.nodes b)
    (hq : ∀ d, F.nodes d → d.id ≠ q.id) (hw : ∀ d, F.nodes d → d.id ≠ w.id) (hty : q.ty = w.ty)
    (hfixed : b.Fixed σ) (hσ : σ w = w)
    (h : b.Becomes (.replacing [⟨.param p, .param w⟩]) body) (hbody : body.Renames σ body')
    (h' : b.Becomes (.replacing [⟨.param p, .param q⟩]) e) (bound : List NodeId) :
    e.nameless (q.id :: bound) = body'.nameless (w.id :: bound) := by
  -- what becomes of a parameter of the body
  have params {z : Param} {r r' : Expr} (hz : σ z = z)
      (hr : (Expr.param z).Becomes (.replacing [⟨.param p, .param q⟩]) r)
      (hr' : ∃ y, (Expr.param z).Becomes (.replacing [⟨.param p, .param w⟩]) y ∧ y.Renames σ r') :
      r = .param q ∧ r' = .param w ∨ r = .param z ∧ r' = .param z := by
    obtain ⟨y, hy, hr'⟩ := hr'
    rcases becomes_replacing_one.1 hr with ⟨hzp, rfl⟩ | ⟨hne, hr⟩
    · rcases becomes_replacing_one.1 hy with ⟨-, rfl⟩ | ⟨hne, -⟩
      · exact .inl ⟨rfl, by rw [renames_param.1 hr', hσ]⟩
      · exact absurd hzp hne
    · rcases becomes_replacing_one.1 hy with ⟨hzp, -⟩ | ⟨-, hy⟩
      · exact absurd hzp hne
      · cases hr
        cases hy
        exact .inr ⟨rfl, by rw [renames_param.1 hr', hz]⟩
  refine (related_of_made (P := fun c => F.nodes c ∧ ∀ y, c = .param y → σ y = y)
    (R := Becomes (.replacing [⟨.param p, .param q⟩]))
    (T := fun c x => ∃ y, c.Becomes (.replacing [⟨.param p, .param w⟩]) y ∧ y.Renames σ x)
    (S := FormsAlike (ScopesAgree q w)) (N := (·.param? = none)) (fun _ => nofun)
    (fun hparam hr hs => hs.formsAlike (hr.param?_eq.trans hparam)) (fun {c r r'} hc hr hr' => ?_)
    ((Forest.all hb).and hfixed) h' ⟨body, h, hbody⟩).forms (.bind fun _ _ => rfl)
  cases hparam : c.param? with
  | some z =>
    obtain rfl := Expr.eq_of_param? hparam
    refine .inl ?_
    rcases params (hc.2 z rfl) hr hr' with ⟨rfl, rfl⟩ | ⟨rfl, rfl⟩
    · refine ⟨fun hscopes => ?_, fun {x y} hx hy bound bound' hscopes => ?_⟩
      · obtain ⟨k, hk, hk'⟩ := hscopes.binds
        simp only [nameless, Param.nameless, hk, hk', hty]
      · obtain rfl := Expr.param.inj hx
        obtain rfl := Expr.param.inj hy
        exact .bind hscopes.others
    · refine ⟨fun {bound bound'} hscopes => ?_, fun {x y} hx hy bound bound' hscopes => ?_⟩
      · have hposition : bound.idxOf? z.id = bound'.idxOf? z.id :=
          hscopes.others (hq _ hc.1) (hw _ hc.1)
        simp only [nameless, Param.nameless, hposition]
      · obtain rfl := Expr.param.inj hx
        obtain rfl := Expr.param.inj hy
        exact hscopes.enter (hq _ hc.1) (hw _ hc.1)
  | none =>
    have hne : c ≠ .param p := fun h => by simp [h, param?] at hparam
    obtain ⟨y, hy, hr'⟩ := hr'
    refine .inr (.inr ⟨rfl, ?_, rebuilt_of_replacing hparam hne hy hr'⟩)
    rcases becomes_replacing_one.1 hr with ⟨heq, -⟩ | ⟨-, hr⟩
    · exact absurd heq hne
    · exact hr.of fun h => h

end

/-! ## What takes the place of a renamed call -/

section

variable {F G : Forest} {σ : Param → Param} {host : Host} {cx : BuildContext} {options : Options}
  {c c' d r r' e source : Expr}

/-- A call that is renamed is a call of the same operation. -/
theorem Expr.Renames.markers_eq (h : c.Renames σ c') : c'.markers = c.markers := by
  cases hparam : c.param? with
  | some p =>
    obtain rfl := Expr.eq_of_param? hparam
    rw [renames_param.1 h]
    rfl
  | none => cases h.rebuilt hparam <;> rfl

theorem Expr.Renames.source? (h : c.Renames σ c') (hs : c.source? = some source) :
    ∃ source', c'.source? = some source' ∧ source.Renames σ source' := by
  cases c with
  | call id ty op receiver arguments =>
    cases h.rebuilt rfl with | @call _ _ _ _ _ _ _ arguments' _ harguments =>
    have hrel := getElem?_rel_of_forall₂ harguments 0
    rw [Expr.source?] at hs ⊢
    rw [hs] at hrel
    generalize arguments'[0]? = o at hrel ⊢
    cases hrel with | some hrel =>
    exact ⟨_, rfl, becomes_of.1 hrel⟩
  | _ => cases hs

/-- The operand of a call that is rebuilt is the constant that it was, if the constant stays as it
is. -/
theorem Expr.Rebuilt.operand? {J : Judgement} {i : NodeId} {ty : Ty} {v : Value}
    (hconstant : ∀ {d}, (Expr.constant i ty v).Becomes J d → d = .constant i ty v)
    (h : c.Rebuilt J c') (ho : c.operand? = some (.constant i ty v)) :
    c'.operand? = some (.constant i ty v) := by
  cases h with
  | @call _ _ _ _ receiver receiver' arguments arguments' hreceiver harguments =>
    have argument {k : Nat} (hk : arguments[k]? = some (.constant i ty v)) :
        arguments'[k]? = some (.constant i ty v) := by
      have hrel := getElem?_rel_of_forall₂ harguments k
      rw [hk] at hrel
      generalize arguments'[k]? = o at hrel ⊢
      cases hrel with | some hrel =>
      rw [hconstant hrel]
    simp only [Expr.operand?] at ho ⊢
    split at ho
    · exact argument ho
    · exact argument ho
    · exact argument ho
    · rw [ho] at hreceiver
      cases receiver' with
      | none => cases hreceiver
      | some d =>
        cases hreceiver with | cons hd _ =>
        rw [hconstant hd]
    · cases ho
  | _ => cases ho

/-- The operand of a call that is renamed is the constant that it was. -/
theorem Expr.Renames.operand? {i : NodeId} {ty : Ty} {v : Value} (h : c.Renames σ c')
    (ho : c.operand? = some (.constant i ty v)) : c'.operand? = some (.constant i ty v) := by
  refine (h.rebuilt ?_).operand? (fun {d} h => ?_) ho
  · cases c <;> first | rfl | cases ho
  · cases (becomes_of.1 h).rebuilt rfl
    rfl

/-- A default value is the same whatever is renamed. -/
theorem Expr.congruent_defaultNode {i j : NodeId} {ty : Ty}
    (h : (defaultNode i ty).Renames σ d) : (defaultNode j ty).Congruent d := by
  intro bound
  unfold defaultNode at h ⊢
  split at h
  · cases h.rebuilt rfl
    rw [if_pos ‹_›]
    rfl
  · cases h.rebuilt rfl
    rw [if_neg ‹_›]
    rfl

/-- What takes the place of a call over a renamed source is congruent to what takes the place of the
call, once that is renamed. -/
theorem Expr.IsInlined.congruent {guarded : Bool} {g : Lambda} {p : Param} {source' : Expr}
    (hfixed : g.body.Fixed σ) (hs : source.Renames σ source') (hty : p.ty = source.ty)
    (hty' : p.ty = source'.ty) (h : source.IsInlined guarded g p e) (he : e.Renames σ d)
    (h' : source'.IsInlined guarded g p r) : r.Congruent d := by
  obtain ⟨body, hbecomes, his⟩ := h
  obtain ⟨body', hbecomes', his'⟩ := h'
  cases guarded with
  | false =>
    obtain rfl := his
    obtain rfl := his'
    exact congruent_of_replacing hfixed hs hbecomes he hbecomes'
  | true =>
    obtain ⟨i, j, k, l, rfl⟩ := his
    obtain ⟨i', j', k', l', rfl⟩ := his'
    cases he.rebuilt rfl with | conditional htest hresult hbody =>
    cases (becomes_of.1 htest).rebuilt rfl with | binary hsource hdefault =>
    have hbodyTy : body'.ty = body.ty := by
      rw [hbecomes'.ty_eq_of_replacing hty', hbecomes.ty_eq_of_replacing hty]
    intro bound
    simp only [nameless, hbodyTy, hty'.symm.trans hty,
      (hs.congruent (becomes_of.1 hsource)) bound,
      congruent_defaultNode (becomes_of.1 hdefault) bound,
      congruent_defaultNode (becomes_of.1 hresult) bound,
      congruent_of_replacing hfixed hs hbecomes (becomes_of.1 hbody) hbecomes' bound]

/-- A projection of a renamed source is congruent to the projection, once that is renamed. -/
theorem Expr.IsMapped.congruent {g : Lambda} {p : Param} {source' : Expr} (hFG : F ≤ G)
    (hg : F.fns g) (hσ : ∀ y, ¬ F.nodes (.param y) → σ y = y) (hσty : ∀ y, (σ y).ty = y.ty)
    (hfixed : g.body.Fixed σ) (hs : source.Renames σ source') (h : source.IsMapped F g p e)
    (he : e.Renames σ d) (h' : source'.IsMapped G g p r) : r.Congruent d := by
  obtain ⟨w, f, hw, hwty, hparams, hbecomes, i, j, rfl⟩ := h
  obtain ⟨q, f', hq, hqty, hparams', hbecomes', i', j', rfl⟩ := h'
  have hσw : σ w = w := hσ w fun hwF => hw _ hwF rfl
  have hq (d : Expr) (hd : F.nodes d) : d.id ≠ q.id := hq d (hFG.1 _ hd)
  rw [hs.ty_eq hσty]
  -- what the lambdas of the two projections are
  have hfn {f₁ : Lambda}
      (hps : List.Forall₂ (Param.Becomes (.of (Renames σ))) f.params f₁.params)
      (hb : f.body.Becomes (.of (Renames σ)) f₁.body) (bound : List NodeId) :
      f'.paramTys = f₁.paramTys ∧ f'.returnTy = f₁.returnTy ∧ f'.returnTy = f.returnTy ∧
        f'.nameless bound = f₁.nameless bound := by
    have hparams₁ : f₁.params = [w] := by
      rw [hparams] at hps
      obtain ⟨z, _, hz, hnil, heq⟩ := List.forall₂_cons_left_iff.1 hps
      cases hnil
      rw [heq, Expr.param.inj (renames_param.1 (Param.becomes_of.1 hz)), hσw]
    have hbody := nameless_eq_of_replacing (F.body hg) hq hw (hqty.trans hwty.symm) hfixed hσw
      hbecomes (becomes_of.1 hb) hbecomes' bound
    have hty := congrArg Nameless.ty hbody
    rw [ty_nameless, ty_nameless] at hty
    have hty' := (becomes_of.1 hb).ty_eq hσty
    refine ⟨?_, hty, hty.trans hty', ?_⟩
    · simp [Lambda.paramTys, hparams', hparams₁, hqty, hwty]
    · simpa [Lambda.nameless_eq, Lambda.binders, hparams', hparams₁] using hbody
  intro bound
  have hsource {s : Expr} (h : source.Becomes (.of (Renames σ)) s) :
      source'.nameless bound = s.nameless bound := hs.congruent (becomes_of.1 h) bound
  by_cases hquery : source.ty.queryItemTy?.isSome
  · rw [if_pos hquery] at he ⊢
    cases he.rebuilt rfl with | @call _ _ _ _ _ receiver _ _ hreceiver harguments =>
    obtain rfl : receiver = none := by cases receiver <;> first | rfl | cases hreceiver
    cases harguments with | cons hs' harguments =>
    cases harguments with | cons hprojection hnil =>
    cases hnil
    cases (becomes_of.1 hprojection).rebuilt rfl with | quote hps hb =>
    obtain ⟨hparamTys, hreturn, hreturn', hnameless⟩ := hfn hps hb bound
    simp only [nameless, namelessList, namelessOption, hsource hs', Lambda.quotedTy, hparamTys,
      hreturn, ← hreturn', hnameless]
  · rw [if_neg hquery] at he ⊢
    cases he.rebuilt rfl with | @call _ _ _ _ _ receiver _ _ hreceiver harguments =>
    obtain rfl : receiver = none := by cases receiver <;> first | rfl | cases hreceiver
    cases harguments with | cons hs' harguments =>
    cases harguments with | cons hprojection hnil =>
    cases hnil
    cases (becomes_of.1 hprojection).rebuilt rfl with | lambda hps hb =>
    obtain ⟨hparamTys, hreturn, hreturn', hnameless⟩ := hfn hps hb bound
    simp only [nameless, namelessList, namelessOption, hsource hs', Lambda.functionTy, hparamTys,
      hreturn, ← hreturn', hnameless]

/-- What is known of the mapping expressions that the operand of a call may hold. -/
def Expr.Knows (host : Host) (K : Lambda → Prop) (c : Expr) : Prop :=
  ∀ ⦃i ty v⦄, c.operand? = some (.constant i ty v) → ∀ ⦃g⦄, v.Holds host g → K g

/-- What takes the place of a renamed call is congruent to what takes the place of the call, once
that is renamed. -/
theorem Expr.Splices.congruent (hFG : F ≤ G) (hσ : ∀ y, ¬ F.nodes (.param y) → σ y = y)
    (hσty : ∀ y, (σ y).ty = y.ty) (hknown : c.Knows host fun g => F.fns g ∧ g.body.Fixed σ)
    (h : c.Splices F host cx options e) (hc : c.Renames σ c')
    (h' : c'.Splices G host cx options r) (he : e.Renames σ d) : r.Congruent d := by
  obtain ⟨source, g, p, hinlines, hobject, hitems⟩ := h
  obtain ⟨source', g', p', hinlines', hobject', hitems'⟩ := h'
  obtain ⟨i, ty, v, ho, hg, -⟩ := hinlines.operand
  obtain ⟨i', ty', v', ho', hg', -⟩ := hinlines'.operand
  obtain ⟨-, -, rfl⟩ := Expr.constant.inj (Option.some.inj ((hc.operand? ho).symm.trans ho'))
  obtain rfl := hg.unique hg'
  obtain ⟨s, hs, hrenames⟩ := hc.source? hinlines.first
  obtain rfl := Option.some.inj (hs.symm.trans hinlines'.first)
  obtain ⟨hgF, hfixed⟩ := hknown ho hg
  rw [hc.markers_eq] at hobject' hitems'
  have guards : c'.guards options = c.guards options := by rw [Expr.guards, hc.markers_eq]; rfl
  rw [guards] at hobject'
  by_cases hmarkers : c.markers = [.mapAllWith]
  · have hp := (hinlines.items hmarkers).1
    have hp' := (hinlines'.items (hc.markers_eq.trans hmarkers)).1
    obtain ⟨rfl⟩ : p = p' := by simpa using hp.symm.trans hp'
    exact (hitems hmarkers).congruent hFG hgF hσ hσty hfixed hrenames he (hitems' hmarkers)
  · have hfits := hinlines.fits hmarkers
    have hfits' := hinlines'.fits fun heq => hmarkers (hc.markers_eq.symm.trans heq)
    obtain ⟨rfl⟩ : p = p' := by simpa using hfits.params.symm.trans hfits'.params
    exact (hobject hmarkers).congruent hfixed hrenames hfits.ty hfits'.ty he (hobject' hmarkers)

/-- Nothing stands in the way of the mapping expression of a renamed call, if nothing does in that
of the call. -/
theorem Expr.Inlines.renamed {g : Lambda} {p : Param} (h : c.Inlines host cx source g p)
    (hc : c.Renames σ c') (hσty : ∀ y, (σ y).ty = y.ty) (hne : source ≠ .param p)
    (hbinds : ∀ y, source = .param y → ¬ g.body.Binds (σ y)) :
    ∃ source', c'.Inlines host cx source' g p := by
  obtain ⟨source', hs, hrenames⟩ := hc.source? h.first
  have hty := hrenames.ty_eq hσty
  refine ⟨source', hs, ?_, fun hmarkers => ?_, fun hmarkers => ?_⟩
  · obtain ⟨i, ty, v, ho, hheld⟩ := h.operand
    exact ⟨i, ty, v, hc.operand? ho, hheld⟩
  · have hfits := h.fits (hc.markers_eq ▸ hmarkers)
    refine ⟨hfits.params, hfits.ty.trans hty.symm, fun _ hblocks => ?_⟩
    cases hparam : source.param? with
    | some y =>
      obtain rfl := Expr.eq_of_param? hparam
      obtain rfl := renames_param.1 hrenames
      exact hbinds y rfl (binds_iff.2 (hblocks.imp fun f hf => hf.2 _ rfl))
    | none =>
      refine hfits.unblocked hne (hblocks.imp fun f hf => ⟨hf.1, fun q hq => ?_⟩)
      rw [hq] at hparam
      cases hparam
  · obtain ⟨hp, kind, hkind⟩ := h.items (hc.markers_eq ▸ hmarkers)
    exact ⟨hp, kind, hty.trans hkind⟩

end

end ObjectMapping
