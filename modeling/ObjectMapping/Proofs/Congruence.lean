import ObjectMapping.Proofs.Associating
import ObjectMapping.Proofs.Nameless

/-!
# Trees that are made alike

Two expressions are congruent if they have the same nameless form, whatever is bound around them
(`Expr.Congruent`). Trees that are made of one tree in two ways are, if what the two ways make of a
node is congruent, or is a node over what they make of its parts (`Expr.congruent_of_made`). The two
trees may stand in different scopes (`Expr.FormsAlike`), which is how projections over different
parameters are compared.

Congruent lambdas over the same parameters are structurally equal
(`Lambda.structurallyEqual_of_congruent`). Unlike the converse, that needs nothing of what they
bind.
-/

namespace ObjectMapping

/-! ## Relations between parts -/

/-- The judgement that puts in the place of a node what is in relation to it. -/
def Judgement.of (R : Expr → Expr → Prop) : Judgement where
  enters _ := False
  puts := R
  stands _ := False

section

variable {R T S : Expr → Expr → Prop} {J J₁ J₂ : Judgement} {e e₁ e₂ d : Expr}

theorem Expr.becomes_of : e.Becomes (.of R) d ↔ R e d := by
  refine ⟨fun h => ?_, fun h => .put h⟩
  cases h with
  | put h => exact h
  | enter h => exact False.elim h
  | standIn h => exact False.elim h
  | stay h => exact False.elim h

theorem Param.becomes_of {p q : Param} : p.Becomes (.of R) q ↔ R (.param p) (.param q) := by
  rw [becomes_iff, Expr.becomes_of]

/-- A node that is rebuilt twice is rebuilt over what is made of its parts in two steps. -/
theorem Expr.Rebuilt.chain (h₁ : e.Rebuilt J₁ e₁) (h₂ : e₁.Rebuilt J₂ e₂)
    (hR : ∀ {d d₁ d₂}, d.Becomes J₁ d₁ → d₁.Becomes J₂ d₂ → R d d₂) : e.Rebuilt (.of R) e₂ := by
  refine h₁.comp (fun _ _ _ _ h h' => becomes_of.2 (hR h h')) (fun _ _ _ _ _ _ h h' => ?_)
    (fun _ _ _ _ h h' => becomes_of.2 (hR h h')) h₂
  exact Param.becomes_of.2 (hR (Param.becomes_iff.1 h) (Param.becomes_iff.1 h'))

/-- A node that is rebuilt is rebuilt over whatever its parts are known to become. -/
theorem Expr.Rebuilt.of (h : e.Rebuilt J d) (hR : ∀ {c c'}, c.Becomes J c' → R c c') :
    e.Rebuilt (.of R) d :=
  h.chain (rebuilt_keeping d) fun h h' => becomes_keeping.1 h' ▸ hR h

/-- Nodes that are made of one node are nodes of one kind, over what is made of its parts. -/
theorem Expr.Rebuilt.pair (h₁ : e.Rebuilt (.of R) e₁) (h₂ : e.Rebuilt (.of T) e₂)
    (hpart : ∀ d ∈ e.parts, ∀ d₁ d₂, R d d₁ → T d d₂ → S d₁ d₂)
    (hparam : ∀ f, e.fn? = some f → ∀ p ∈ f.params, ∀ p₁ p₂,
      R (.param p) (.param p₁) → T (.param p) (.param p₂) → S (.param p₁) (.param p₂))
    (hbody : ∀ f, e.fn? = some f → ∀ b₁ b₂, R f.body b₁ → T f.body b₂ → S b₁ b₂) :
    e₁.Rebuilt (.of S) e₂ := by
  cases hf : e.fn? with
  | none =>
    refine ((h₁.madeOver hf).symm.trans (h₂.madeOver hf)).rebuilt ?_
    refine forall₂_fork_of_mem (fun d hd d₁ d₂ h h' => ?_) h₁.parts_becomes h₂.parts_becomes
    exact becomes_of.2 (hpart d hd d₁ d₂ (becomes_of.1 h) (becomes_of.1 h'))
  | some f =>
    obtain ⟨i, f₁, hf₁, rfl⟩ := h₁.withFn hf
    obtain ⟨j, f₂, hf₂, rfl⟩ := h₂.withFn hf
    have hparams := forall₂_fork_of_mem (fun p hp p₁ p₂ h h' => Param.becomes_of.2
      (hparam f hf p hp p₁ p₂ (Param.becomes_of.1 h) (Param.becomes_of.1 h'))) hf₁.params hf₂.params
    have hbody := becomes_of.2 (hbody f hf _ _ (becomes_of.1 hf₁.body) (becomes_of.1 hf₂.body))
    have hrebuilt := rebuilt_withFn (i := j) (fn?_withFn (i := i) hf) ⟨hparams, hbody⟩
    rwa [withFn_withFn hf] at hrebuilt

/-- A node that is rebuilt twice is rebuilt over what becomes of its children in two steps. -/
theorem Expr.Rebuilt.comp_of_children (hJ : ∀ c ∈ e.children, ∀ {c₁ c₂}, c.Becomes J₁ c₁ →
      c₁.Becomes J₂ c₂ → c.Becomes J c₂) (h₁ : e.Rebuilt J₁ e₁) (h₂ : e₁.Rebuilt J₂ e₂) :
    e.Rebuilt J e₂ := by
  refine h₁.comp (fun d hd _ _ => hJ d (mem_children.2 (.inl hd)))
    (fun f hf p hp _ _ h h' => ?_) (fun f hf _ _ => hJ _ ?_) h₂
  · rw [Param.becomes_iff] at h h' ⊢
    exact hJ _ (mem_children.2 (.inr ⟨f, hf,
      List.mem_append_left _ (List.mem_map_of_mem hp)⟩)) h h'
  · exact mem_children.2 (.inr ⟨f, hf, List.mem_append_right _ (by simp)⟩)

/-- A node is rebuilt as its children become. -/
theorem Expr.Rebuilt.imp (hJ : ∀ c ∈ e.children, ∀ {c'}, c.Becomes J₁ c' → c.Becomes J c')
    (h : e.Rebuilt J₁ d) : e.Rebuilt J d := by
  refine h.comp_of_children (fun c hc _ _ h h' => ?_) (rebuilt_keeping d)
  obtain rfl := becomes_keeping.1 h'
  exact hJ c hc h

/-- What two visits make of a node are nodes of one kind, over what they make of its children. -/
theorem Expr.Rebuilt.fork (h₁ : e.Rebuilt J₁ e₁) (h₂ : e.Rebuilt J₂ e₂)
    (hJ : ∀ c ∈ e.children, ∀ {c₁ c₂}, c.Becomes J₁ c₁ → c.Becomes J₂ c₂ → c₁.Becomes J c₂) :
    e₁.Rebuilt J e₂ := by
  have hpair : e₁.Rebuilt (.of (Becomes J)) e₂ := by
    refine Rebuilt.pair (h₁.of fun h => h) (h₂.of fun h => h)
      (fun d hd _ _ => hJ d (mem_children.2 (.inl hd)))
      (fun f hf p hp _ _ => hJ _ ?_) fun f hf _ _ => hJ _ ?_
    · exact mem_children.2 (.inr ⟨f, hf, List.mem_append_left _ (List.mem_map_of_mem hp)⟩)
    · exact mem_children.2 (.inr ⟨f, hf, List.mem_append_right _ (by simp)⟩)
  exact hpair.imp fun _ _ _ h => becomes_of.1 h

theorem Expr.Rebuilt.markers_eq (h : e.Rebuilt J d) : d.markers = e.markers := by
  cases h <;> rfl

theorem Expr.Rebuilt.value?_eq (h : e.Rebuilt J d) : d.value? = e.value? := by
  cases h <;> rfl

/-- What two ways make of a tree is related, if what they make of a node is, or is made of its
stand-in, or is a node over what they make of its parts. -/
theorem Expr.related_of_made {P N : Expr → Prop} (hparam : ∀ p, ¬ N (.param p))
    (hnode : ∀ {c r r'}, N c → c.Rebuilt (.of R) r → r.Rebuilt (.of S) r' → S r r')
    (hmade : ∀ {c r r'}, P c → R c r → T c r' → S r r' ∨
      (∃ d, c.standIn? = some d ∧ R d r ∧ T d r') ∨
      N c ∧ c.Rebuilt (.of R) r ∧ c.Rebuilt (.of T) r')
    (he : e.All P) (h : R e e₁) (h' : T e e₂) : S e₁ e₂ := by
  induction e using byPart generalizing e₁ e₂ with
  | h e ihpart ihfn =>
    rcases hmade he.head h h' with hrelated | ⟨d, hd, h, h'⟩ | ⟨hnode', hr, hr'⟩
    · exact hrelated
    · have hmem := mem_parts_of_standIn? hd
      exact ihpart d hmem (he.part hmem) h h'
    · refine hnode hnode' hr (hr.pair hr' (fun d hd _ _ => ihpart d hd (he.part hd))
        (fun f hf p hp p₁ p₂ h h' => ?_) fun f hf _ _ => ihfn f hf (he.fn hf).body)
      -- a parameter has no parts, so that the condition itself relates what is made of it
      rcases hmade ((he.fn hf).param hp).head h h' with hrelated | ⟨d, hd, -⟩ | ⟨hnode', -⟩
      · exact hrelated
      · cases hd
      · exact absurd hnode' (hparam p)

end

/-! ## Renamed trees -/

/-- The second tree is the first one with its parameters renamed, up to the identities of nodes made
of others. -/
def Expr.Renames (σ : Param → Param) (d a : Expr) : Prop :=
  a.relabel (fun p => p) = d.relabel σ

section

variable {σ : Param → Param} {d a : Expr}

theorem Expr.renames_param {p : Param} : (Expr.param p).Renames σ a ↔ a = .param (σ p) := by
  constructor
  · intro h
    cases a with
    | param => exact h
    | _ => cases h
  · rintro rfl
    rfl

/-- Lists with the same images are related at every place by having the same image. -/
theorem forall₂_of_map_eq {α β γ : Type} {f : α → γ} {g : β → γ} :
    ∀ {as : List α} {bs : List β}, as.map f = bs.map g →
      List.Forall₂ (fun b a => f a = g b) bs as
  | [], [], _ => .nil
  | _ :: _, _ :: _, h => .cons (List.cons.inj h).1 (forall₂_of_map_eq (List.cons.inj h).2)

/-- A node that is renamed is a node of the same kind over its renamed parts. -/
theorem Expr.Renames.rebuilt (h : d.Renames σ a) (hd : d.param? = none) :
    d.Rebuilt (.of (Renames σ)) a := by
  have hrelabel : a.relabel (fun p => p) = d.relabel σ := h
  cases hf : d.fn? with
  | none =>
    have ha : a.param? = none := by simpa [param?_relabel, hd] using congrArg param? hrelabel
    have hfa : a.fn? = none := by simpa [fn?_relabel, hf] using congrArg fn? hrelabel
    -- both are made anew into one relabelled node, the one over its own parts and the other too
    have hmade := madeOver_relabel (σ := σ) hd hf
    have hmade' := madeOver_relabel (σ := fun p => p) ha hfa
    rw [hrelabel] at hmade'
    refine (hmade.trans hmade'.symm).rebuilt ?_
    exact (forall₂_of_map_eq (hmade'.parts_eq.symm.trans hmade.parts_eq)).imp fun _ _ h =>
      becomes_of.2 h
  | some f =>
    obtain ⟨g, hg, hfg⟩ : ∃ g, a.fn? = some g ∧ g.relabel (fun p => p) = f.relabel σ := by
      simpa [fn?_relabel, hf] using congrArg fn? hrelabel
    have heq : a = d.withFn a.id g := by
      rw [← withFn_withFn hf (i := 0) (g := f.relabel σ), ← relabel_eq_withFn hf, ← hrelabel,
        relabel_eq_withFn hg, withFn_withFn hg, withFn_self hg]
    rw [Lambda.relabel_eq, Lambda.relabel_eq] at hfg
    obtain ⟨-, hparams, hbody⟩ := Lambda.mk.inj hfg
    rw [heq]
    refine rebuilt_withFn hf ⟨(forall₂_of_map_eq hparams).imp fun _ _ h => ?_, becomes_of.2 hbody⟩
    exact Param.becomes_of.2 (renames_param.2 (congrArg _ h))

/-- A renaming that leaves static types alone does so throughout a tree. -/
theorem Expr.Renames.ty_eq (hσ : ∀ y, (σ y).ty = y.ty) (h : d.Renames σ a) : a.ty = d.ty := by
  have params {ps qs : List Param} (h : List.Forall₂ (Param.Becomes (.of (Renames σ))) ps qs) :
      qs.map (·.ty) = ps.map (·.ty) := by
    refine map_eq_map_of_forall₂ (h.flip.imp fun q p h => ?_)
    rw [Expr.param.inj (renames_param.1 (Param.becomes_of.1 h)), hσ]
  induction d using byPart generalizing a with
  | h d _ ihfn =>
    cases hparam : d.param? with
    | some p =>
      obtain rfl := Expr.eq_of_param? hparam
      rw [renames_param.1 h]
      exact hσ p
    | none =>
      cases h.rebuilt hparam with
      | lambda hparams hbody =>
        simp only [ty_lambda, Lambda.functionTy, Lambda.paramTys, Lambda.returnTy, params hparams,
          ihfn _ rfl (becomes_of.1 hbody)]
      | quote hparams hbody =>
        simp only [ty_quote, Lambda.quotedTy, Lambda.paramTys, Lambda.returnTy, params hparams,
          ihfn _ rfl (becomes_of.1 hbody)]
      | _ => rfl

end

/-! ## Nameless forms that are the same -/

/-- The static type of the expressions that have a nameless form. -/
def Nameless.ty : Nameless → Ty
  | .bound ty _ | .free ty _ | .constant ty _ | .node ty _ _ => ty

theorem Param.ty_nameless {bound : List NodeId} {p : Param} : (p.nameless bound).ty = p.ty := by
  rw [nameless]
  split <;> rfl

theorem Expr.ty_nameless {bound : List NodeId} (e : Expr) : (e.nameless bound).ty = e.ty := by
  rcases e.kind?_cases with ⟨p, rfl⟩ | ⟨id, ty, v, rfl⟩ | ⟨k, hk⟩
  · exact Param.ty_nameless
  · rfl
  · rw [nameless_of_kind? hk]
    rfl

section

variable {P : Expr → Prop} {R T S : Expr → Expr → Prop} {Q : List NodeId → List NodeId → Prop}
  {e r r' : Expr} {bound bound' : List NodeId}

/-- Nodes of one kind over parts with the same nameless forms have the same nameless form. -/
theorem Expr.Rebuilt.nameless_eq (h : e.Rebuilt (.of S) r) (hparam : e.param? = none)
    (hpart : ∀ d ∈ e.parts, ∀ d', S d d' → d.nameless bound = d'.nameless bound')
    (hfn : ∀ f f', e.fn? = some f → f.Becomes (.of S) f' → f.paramTys = f'.paramTys ∧
      f.returnTy = f'.returnTy ∧ f.nameless bound = f'.nameless bound') :
    e.nameless bound = r.nameless bound' := by
  have part {d d' : Expr} (hd : d ∈ e.parts) (h : d.Becomes (.of S) d') :
      d.nameless bound = d'.nameless bound' := hpart d hd d' (becomes_of.1 h)
  have list {ds ds' : List Expr} (hds : ∀ d ∈ ds, d ∈ e.parts)
      (h : List.Forall₂ (Becomes (.of S)) ds ds') :
      ds.map (nameless bound) = ds'.map (nameless bound') :=
    map_eq_map_of_forall₂ (forall₂_imp_of_mem h fun d hd _ => part (hds d hd))
  cases h with
  | param => cases hparam
  | constant | default => rfl
  | member ho => rw [nameless, nameless, part (by simp [parts]) ho]
  | unary ha => rw [nameless, nameless, part (by simp [parts]) ha]
  | binary ha hb =>
    rw [nameless, nameless, part (by simp [parts]) ha, part (by simp [parts]) hb]
  | conditional ha hb hc =>
    rw [nameless, nameless, part (by simp [parts]) ha, part (by simp [parts]) hb,
      part (by simp [parts]) hc]
  | @call _ _ _ _ receiver receiver' _ _ hreceiver harguments =>
    have hoption := list (fun d hd => List.mem_append_left _ hd) hreceiver
    have hlist := list (fun d hd => List.mem_append_right _ hd) harguments
    have hsome : receiver.isSome = receiver'.isSome := by
      have hlength := hreceiver.length_eq
      cases receiver <;> cases receiver' <;> simp_all
    simp only [nameless, namelessOption_eq, namelessList_eq, hoption, hlist, hsome]
  | lambda hps hb =>
    obtain ⟨hparams, hreturn, hbody⟩ := hfn _ _ rfl ⟨hps, hb⟩
    rw [nameless, nameless, Lambda.functionTy, Lambda.functionTy, hparams, hreturn, hbody]
  | quote hps hb =>
    obtain ⟨hparams, hreturn, hbody⟩ := hfn _ _ rfl ⟨hps, hb⟩
    rw [nameless, nameless, Lambda.quotedTy, Lambda.quotedTy, hparams, hreturn, hbody]
  | construct hma hmb ha hb =>
    have has := list (fun d hd => List.mem_append_left _ hd) ha
    have hbs := list (fun d hd => List.mem_append_right _ hd) hb
    have keys {as bs : List Assignment} (h : bs.map (·.member) = as.map (·.member)) :
        as.map (·.member.key) = bs.map (·.member.key) := by
      simpa only [List.map_map, Function.comp_def] using congrArg (List.map Member.key) h.symm
    rw [nameless, nameless, Assignment.namelessList_eq, Assignment.namelessList_eq,
      Assignment.namelessList_eq, Assignment.namelessList_eq, has, hbs, keys hma, keys hmb]
  | previous hf =>
    rw [nameless, nameless, namelessOption_eq, namelessOption_eq,
      list (fun _ hd => by simpa [parts] using hd) hf]

/-- In scopes that are related, the two have the same nameless form. Parameters that they are may
be bound on both sides. -/
structure Expr.FormsAlike (Q : List NodeId → List NodeId → Prop) (r r' : Expr) : Prop where
  forms {bound bound' : List NodeId} : Q bound bound' → r.nameless bound = r'.nameless bound'
  binds {p q : Param} : r = .param p → r' = .param q → ∀ {bound bound'}, Q bound bound' →
    Q (p.id :: bound) (q.id :: bound')

/-- Lambdas over parameters and bodies that are formed alike have the same nameless form. -/
theorem Lambda.nameless_eq_of_alike {f f' : Lambda} (h : f.Becomes (.of (Expr.FormsAlike Q)) f')
    (hQ : Q bound bound') : f.paramTys = f'.paramTys ∧ f.returnTy = f'.returnTy ∧
      f.nameless bound = f'.nameless bound' := by
  have params {ps qs : List Param}
      (h : List.Forall₂ (Param.Becomes (.of (Expr.FormsAlike Q))) ps qs) :
      ps.map (·.ty) = qs.map (·.ty) := by
    refine map_eq_map_of_forall₂ (h.imp fun p q h => ?_)
    have hty := congrArg Nameless.ty ((Param.becomes_of.1 h).forms hQ)
    rwa [Expr.ty_nameless, Expr.ty_nameless] at hty
  have binders {ps qs : List Param}
      (h : List.Forall₂ (Param.Becomes (.of (Expr.FormsAlike Q))) ps qs)
      {bound bound' : List NodeId} (hQ : Q bound bound') :
      Q ((ps.map (·.id)).reverse ++ bound) ((qs.map (·.id)).reverse ++ bound') := by
    induction h generalizing bound bound' with
    | nil => exact hQ
    | cons h _ ih =>
      simp only [List.map_cons, List.reverse_cons, List.append_assoc, List.cons_append,
        List.nil_append]
      exact ih ((Param.becomes_of.1 h).binds rfl rfl hQ)
  have hbody : f.nameless bound = f'.nameless bound' := by
    rw [Lambda.nameless_eq, Lambda.nameless_eq]
    exact (Expr.becomes_of.1 h.body).forms (binders h.params hQ)
  have hty := congrArg Nameless.ty hbody
  rw [Lambda.nameless_eq, Lambda.nameless_eq, Expr.ty_nameless, Expr.ty_nameless] at hty
  exact ⟨params h.params, hty, hbody⟩

/-- Nodes of one kind over parts that are formed alike are formed alike. -/
theorem Expr.Rebuilt.formsAlike (h : e.Rebuilt (.of (FormsAlike Q)) r) (hparam : e.param? = none) :
    e.FormsAlike Q r where
  forms hQ := h.nameless_eq hparam (fun _ _ _ h => h.forms hQ) fun _ _ _ h =>
    Lambda.nameless_eq_of_alike h hQ
  binds he := by
    subst he
    cases hparam

end

/-! ## Congruent trees -/

/-- The expressions have the same nameless form, whatever is bound around them. -/
def Expr.Congruent (e e' : Expr) : Prop :=
  ∀ bound, e.nameless bound = e'.nameless bound

section

variable {P : Expr → Prop} {R T : Expr → Expr → Prop} {e r r' : Expr}

/-- Congruent parameters are bound by the same binders. -/
theorem Param.id_eq_of_congruent {p q : Param} (h : (Expr.param p).Congruent (.param q)) :
    p.id = q.id := by
  have hbound := h [p.id]
  by_contra hne
  simp [Expr.nameless, Param.nameless, List.idxOf?_cons, hne] at hbound

/-- Congruent trees are formed alike in every scope. -/
theorem Expr.formsAlike_eq : r.FormsAlike Eq r' ↔ r.Congruent r' := by
  refine ⟨fun h bound => h.forms rfl, fun h => ⟨?_, ?_⟩⟩
  · rintro bound _ rfl
    exact h bound
  · rintro p q rfl rfl bound _ rfl
    rw [Param.id_eq_of_congruent h]

/-- Nodes of one kind over congruent parts are congruent. -/
theorem Expr.Rebuilt.congruent (h : e.Rebuilt (.of Congruent) r) (hparam : e.param? = none) :
    e.Congruent r := by
  refine formsAlike_eq.1 (Rebuilt.formsAlike (h.of fun h => ?_) hparam)
  exact formsAlike_eq.2 (becomes_of.1 h)

/-- What two ways make of a tree is congruent, if what they make of a node is, or is made of its
stand-in, or is a node over what they make of its parts. -/
theorem Expr.congruent_of_made
    (hmade : ∀ {c r r'}, P c → R c r → T c r' → r.Congruent r' ∨
      (∃ d, c.standIn? = some d ∧ R d r ∧ T d r') ∨
      c.param? = none ∧ c.Rebuilt (.of R) r ∧ c.Rebuilt (.of T) r')
    (he : e.All P) (h : R e r) (h' : T e r') : r.Congruent r' :=
  related_of_made (N := (·.param? = none)) (fun _ => nofun)
    (fun hparam hr hs => hs.congruent (hr.param?_eq.trans hparam)) hmade he h h'

theorem Expr.Congruent.refl (e : Expr) : e.Congruent e :=
  fun _ => rfl

theorem Expr.Congruent.symm {a b : Expr} (h : a.Congruent b) : b.Congruent a :=
  fun bound => (h bound).symm

/-- Trees that come from one tree by one renaming are congruent. -/
theorem Expr.Renames.congruent {σ : Param → Param} {d a b : Expr} (ha : d.Renames σ a)
    (hb : d.Renames σ b) : a.Congruent b := by
  refine congruent_of_made (P := fun _ => True) (fun {c r r'} _ h h' => ?_)
    (all_of_forall (fun _ => trivial) d) ha hb
  cases hparam : c.param? with
  | none => exact .inr (.inr ⟨rfl, h.rebuilt hparam, h'.rebuilt hparam⟩)
  | some p =>
    obtain rfl := Expr.eq_of_param? hparam
    obtain rfl := renames_param.1 h
    obtain rfl := renames_param.1 h'
    exact .inl (.refl _)

end

/-! ## Structural equality -/

section

variable {scope : Scope}

/-- Parameters that are bound at one position, or are both free and have one name, correspond to
each other. -/
theorem Scope.relates_of_idxOf? {p q : Param}
    (hposition : scope.lefts.idxOf? p.id = scope.rights.idxOf? q.id)
    (hname : p.id ∈ scope.lefts ∨ p.name = q.name) : scope.relates p q = true := by
  induction scope with
  | nil => simpa [relates, lefts] using hname
  | cons pair scope ih =>
    obtain ⟨l, r⟩ := pair
    simp only [lefts, rights, List.map_cons, List.idxOf?_cons, beq_iff_eq] at hposition
    by_cases hl : l = p.id
    · by_cases hr : r = q.id
      · simp [relates, hl, hr]
      · cases h : List.idxOf? q.id (scope.map (·.2)) <;> simp [hl, hr, h] at hposition
    · by_cases hr : r = q.id
      · cases h : List.idxOf? p.id (scope.map (·.1)) <;> simp [hl, hr, h] at hposition
      · rw [if_neg hl, if_neg hr] at hposition
        have hrest := ih (Option.map_injective (fun _ _ => Nat.succ.inj) hposition)
          (hname.imp_left fun hmem => by simpa [lefts, Ne.symm hl] using hmem)
        have hne : (r == q.id) = false := beq_false_of_ne hr
        simpa [relates, hl, hne] using hrest

/-- Parameters with the same nameless form correspond to each other. -/
theorem Scope.relates_of_nameless {p q : Param}
    (h : p.nameless scope.lefts = q.nameless scope.rights) :
    p.ty = q.ty ∧ scope.relates p q = true := by
  have hsame : (p.nameless scope.lefts).Same (q.nameless scope.rights) := by
    rw [← h, Param.same_nameless_iff]
    exact ⟨rfl, rfl, .inr rfl⟩
  obtain ⟨hty, hposition, hname⟩ := Param.same_nameless_iff.1 hsame
  exact ⟨hty, relates_of_idxOf? hposition hname⟩

theorem Param.nameless_ne_node {bound : List NodeId} {p : Param} {ty : Ty} {k : Expr.Kind}
    {ps : List Nameless} : p.nameless bound ≠ .node ty k ps := by
  rw [nameless]
  split <;> simp

theorem Param.nameless_ne_constant {bound : List NodeId} {p : Param} {ty : Ty} {v : Value} :
    p.nameless bound ≠ .constant ty v := by
  rw [nameless]
  split <;> simp

/-- Expressions with the same nameless form match, if their constants equal themselves. -/
theorem Scope.matches_of_nameless {a b : Expr} (hself : a.SelfEqual)
    (h : a.nameless scope.lefts = b.nameless scope.rights) : scope.Matches a b := by
  induction a using Expr.byPart generalizing b scope with
  | h a ihpart ihfn =>
    suffices hagree : a.ty = b.ty ∧ a.agreesIn scope b = true from matches_iff.2 (.inr hagree)
    refine ⟨by rw [← a.ty_nameless, h, b.ty_nameless], ?_⟩
    rcases a.kind?_cases with ⟨p, rfl⟩ | ⟨id, ty, v, rfl⟩ | ⟨k, hk⟩
    · rcases b.kind?_cases with ⟨q, rfl⟩ | ⟨id', ty', w, rfl⟩ | ⟨l, hl⟩
      · exact (relates_of_nameless h).2
      · exact absurd h Param.nameless_ne_constant
      · rw [Expr.nameless_of_kind? hl] at h
        exact absurd h Param.nameless_ne_node
    · rcases b.kind?_cases with ⟨q, rfl⟩ | ⟨id', ty', w, rfl⟩ | ⟨l, hl⟩
      · exact absurd h.symm Param.nameless_ne_constant
      · obtain ⟨-, rfl⟩ := Nameless.constant.inj h
        exact hself.head v rfl
      · rw [Expr.nameless_of_kind? hl] at h
        cases h
    · rw [Expr.nameless_of_kind? hk] at h
      rcases b.kind?_cases with ⟨q, rfl⟩ | ⟨id', ty', w, rfl⟩ | ⟨l, hl⟩
      · exact absurd h.symm Param.nameless_ne_node
      · cases h
      · rw [Expr.nameless_of_kind? hl] at h
        obtain ⟨hty, rfl, hparts⟩ := Nameless.node.inj h
        have hlength : (a.fn?.toList.map (Lambda.nameless scope.lefts)).length =
            (b.fn?.toList.map (Lambda.nameless scope.rights)).length := by
          have hisSome := Expr.isSome_fn?_eq hk hl
          cases hf : a.fn? <;> cases hg : b.fn? <;> simp_all
        obtain ⟨hfns, hparts⟩ := List.append_inj hparts hlength
        rw [Expr.agreesIn_of_kind? hk hty]
        refine ⟨hl, forall₂_imp_of_mem (forall₂_of_map_eq hparts.symm) fun d hd _ heq =>
          ihpart d hd (hself.part hd) heq.symm, fun f hf g hg => ?_⟩
        rw [Option.mem_def] at hf hg
        have htys := Expr.paramTys_eq_of_ty_eq hf hg hty
        have hparams : f.params.length = g.params.length := by
          simpa [Lambda.paramTys] using congrArg List.length htys
        simp only [hf, hg, Option.toList_some, List.map_cons, List.map_nil, List.cons.injEq,
          and_true, Lambda.nameless_eq] at hfns
        refine Lambda.agreesIn_iff.2 ⟨htys, ihfn f hf (hself.fn hf).body ?_⟩
        rwa [lefts_enter hparams, rights_enter hparams]

/-- Lambdas over the same parameters with congruent bodies are structurally equal, if the constants
equal themselves. -/
theorem Lambda.structurallyEqual_of_congruent {f g : Lambda} (hparams : f.params = g.params)
    (hself : f.body.SelfEqual) (h : f.body.Congruent g.body) : f.structurallyEqual g = true := by
  refine agreesIn_iff.2 ⟨by rw [paramTys, paramTys, hparams], Scope.matches_of_nameless hself ?_⟩
  have hlength : f.params.length = g.params.length := congrArg List.length hparams
  rw [Scope.lefts_enter hlength, Scope.rights_enter hlength, h, binders, binders, hparams]
  rfl

end

end ObjectMapping
