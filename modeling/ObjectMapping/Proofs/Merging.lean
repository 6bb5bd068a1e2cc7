import ObjectMapping.Proofs.Replacing

/-!
# What a merge makes

`Expr.Override` says what it means that an extension is laid over a source, both of them
constructions : which members the result assigns, in which order, and what becomes of the value of
each. A value that only the source has is kept, one that only the extension has falls back where it
asks for a previous value, and where both have one the extension's is taken, with the source's in
the places of its placeholders, unless both are constructions and are merged in turn.

The values are described up to the identities of the nodes made on the way. `Judgement.overriding`
says what becomes of a value of the extension. `Lambda.merge_override` is the main statement.
-/

namespace ObjectMapping

open RunM

/-! ## Placeholders -/

/-- Whether an expression is a placeholder for a previous value. -/
def Expr.isPrevious : Expr → Bool
  | .previous .. => true
  | _ => false

namespace Judgement

/-- Placeholders give way to the previous value, or to their fallback if there is none. -/
def filling (previous : Option Expr) : Judgement where
  enters e := e.isPrevious = false
  puts e e' := e.isPrevious = true ∧ previous = some e'
  stands e := e.isPrevious = true ∧ previous = none ∧ e.standIn?.isSome = true

/-- Placeholders give way to what becomes of the previous value. -/
def overriding (J : Judgement) (previous : Expr) : Judgement where
  enters e := e.isPrevious = false
  puts e e' := e.isPrevious = true ∧ previous.Becomes J e'
  stands _ := False

end Judgement

/-- Filling placeholders does what the judgement says. -/
theorem Visitor.fillingPrevious_follows {previous : Option Expr} {member : Member} {F₀ : Forest}
    (hprevious : ∀ e ∈ previous, F₀.nodes e) :
    (Visitor.fillingPrevious previous member).Follows (fun _ => True) F₀ F₀
      (.filling previous) where
  le := F₀.le_refl
  keeps _ _ := trivial
  judge {F e verdict t t'} hF₀ _ hF _ hrun := by
    cases e with
    | previous id ty fallback =>
      cases previous with
      | some value =>
        obtain ⟨rfl, rfl⟩ := outcome_pure_ok.1 hrun
        exact .intro trivial hF ⟨hF₀.1 _ (hprevious _ rfl), rfl, rfl⟩
      | none =>
        cases fallback with
        | none => simp [Visitor.fillingPrevious] at hrun
        | some d =>
          obtain ⟨rfl, rfl⟩ := outcome_pure_ok.1 hrun
          exact .intro trivial hF ⟨rfl, rfl, rfl⟩
    | _ =>
      obtain ⟨rfl, rfl⟩ := outcome_pure_ok.1 hrun
      exact .intro trivial hF rfl

/-- What filling its placeholders makes of a value. -/
theorem Expr.fillPrevious_becomes {value e : Expr} {previous : Option Expr} {member : Member}
    {F : Forest} {t t' : Trail} (hprevious : ∀ d ∈ previous, F.nodes d) (hvalue : F.nodes value)
    (hF : F.Below t.next) (h : outcome (value.fillPrevious previous member) t = (.ok e, t')) :
    ∃ G, F ≤ G ∧ G.Below t'.next ∧ G.nodes e ∧ value.Becomes (.filling previous) e :=
  ((Visitor.fillingPrevious_follows hprevious).apply F.le_refl hvalue hF trivial h).2

/-! ## Laying one construction over another -/

mutual

/-- The result is the extension laid over the source, where `J` says what becomes of the values of
the source. -/
inductive Expr.Override (J : Judgement) : Expr → Expr → Expr → Prop
  | construct {i j k : NodeId} {sty ty : Ty} {sargs eargs args source extension kept added :
      List Assignment} :
    args.map (·.member) = eargs.map (·.member) →
    List.Forall₂ (Assignment.Override J)
      (source.map fun a => (a, Assignment.find? a.member extension)) kept →
    List.Forall₂ (fun a r => r.member = a.member ∧ a.value.Becomes (.filling none) r.value)
      (extension.filter fun a => (Assignment.find? a.member source).isNone) added →
    (kept ++ added).Pairwise (fun a b => a.member.same b.member = false) →
    Expr.Override J (.construct i sty sargs source) (.construct j ty eargs extension)
      (.construct k ty args (kept ++ added))

/-- What becomes of an assignment of the source, given that of the extension to the same member. -/
inductive Assignment.Override (J : Judgement) : Assignment × Option Assignment → Assignment → Prop
  /-- the extension does not assign the member -/
  | kept {m : Member} {v r : Expr} : v.Becomes J r → Assignment.Override J (⟨m, v⟩, none) ⟨m, r⟩
  /-- both assign constructions -/
  | merged {m : Member} {v r : Expr} {x : Assignment} : v.isConstruct = true →
    x.value.isConstruct = true → Expr.Override J v x.value r →
    Assignment.Override J (⟨m, v⟩, some x) ⟨x.member, r⟩
  /-- both assign the member, and not both of them a construction -/
  | replaced {m : Member} {v r : Expr} {x : Assignment} :
    (v.isConstruct && x.value.isConstruct) = false → x.value.Becomes (J.overriding v) r →
    Assignment.Override J (⟨m, v⟩, some x) ⟨x.member, r⟩

end

theorem Assignment.mem_of_find? {m : Member} {as : List Assignment} {a : Assignment}
    (h : find? m as = some a) : a ∈ as := by
  unfold find? at h
  exact List.mem_of_find?_eq_some h

/-! ## Constructor arguments -/

mutual

/-- The result is the extension laid over the source, and `A` says what becomes of the constructor
arguments, which are the extension's. -/
inductive Expr.Overlaid (J : Judgement) : Judgement → Expr → Expr → Expr → Prop
  | construct {A : Judgement} {i j k : NodeId} {sty ty : Ty}
      {sargs eargs args source extension kept added : List Assignment} :
    args.map (·.member) = eargs.map (·.member) →
    List.Forall₂ (Expr.Becomes A) (eargs.map (·.value)) (args.map (·.value)) →
    List.Forall₂ (Assignment.Overlaid J)
      (source.map fun a => (a, Assignment.find? a.member extension)) kept →
    List.Forall₂ (fun a r => r.member = a.member ∧ a.value.Becomes (.filling none) r.value)
      (extension.filter fun a => (Assignment.find? a.member source).isNone) added →
    (kept ++ added).Pairwise (fun a b => a.member.same b.member = false) →
    Expr.Overlaid J A (.construct i sty sargs source) (.construct j ty eargs extension)
      (.construct k ty args (kept ++ added))

/-- What becomes of an assignment of the source, as `Assignment.Override` has it. Inside another
construction the arguments are values of the extension like all others. -/
inductive Assignment.Overlaid (J : Judgement) : Assignment × Option Assignment → Assignment → Prop
  | kept {m : Member} {v r : Expr} : v.Becomes J r → Assignment.Overlaid J (⟨m, v⟩, none) ⟨m, r⟩
  | merged {m : Member} {v r : Expr} {x : Assignment} : v.isConstruct = true →
    x.value.isConstruct = true → Expr.Overlaid J (J.overriding v) v x.value r →
    Assignment.Overlaid J (⟨m, v⟩, some x) ⟨x.member, r⟩
  | replaced {m : Member} {v r : Expr} {x : Assignment} :
    (v.isConstruct && x.value.isConstruct) = false → x.value.Becomes (J.overriding v) r →
    Assignment.Overlaid J (⟨m, v⟩, some x) ⟨x.member, r⟩

end

theorem Assignment.Overlaid.override_of {J : Judgement} {p : Assignment × Option Assignment}
    {r : Assignment} (h : Assignment.Overlaid J p r)
    (ih : ∀ {A x r}, p.1.value.Overlaid J A x r → p.1.value.Override J x r) :
    Assignment.Override J p r := by
  cases h with
  | kept h => exact .kept h
  | merged hv hx h => exact .merged hv hx (ih h)
  | replaced hne h => exact .replaced hne h

/-- Where the constructor arguments are left open, the extension is laid over the source. -/
theorem Expr.Overlaid.override {J A : Judgement} {s x r : Expr} (h : s.Overlaid J A x r) :
    s.Override J x r := by
  induction s using Expr.byParts generalizing A x r with
  | construct i sty sargs source iha ihb =>
    cases h with | construct hmembers _ hkept hadded hpairs =>
    refine .construct hmembers (forall₂_imp_of_mem hkept fun p hp r h => ?_) hadded hpairs
    obtain ⟨a, ha, rfl⟩ := List.mem_map.1 hp
    exact h.override_of fun h => ihb a ha h
  | _ => cases h

theorem Assignment.Overlaid.override {J : Judgement} {p : Assignment × Option Assignment}
    {r : Assignment} (h : Assignment.Overlaid J p r) : Assignment.Override J p r :=
  h.override_of fun h => h.override

section

variable {P : Expr → Prop} {J A : Judgement} (hconstruct : ∀ i ty as bs, P (.construct i ty as bs))
  (hrebuilt : ∀ {J' : Judgement} {e e' : Expr}, (∀ {p : Param} {d}, ¬ J'.puts (.param p) d) →
    P e → e.Rebuilt J' e' → P e')
  (hsource : ∀ {v r : Expr}, v.All P → v.Becomes J r → r.All P)

include hconstruct hrebuilt hsource

/-- A property that no node loses when its parts become others holds throughout what a merge makes,
if it does throughout both sides. -/
theorem Expr.Overlaid.all (hargs : ∀ {d r : Expr}, d.All P → d.Becomes A r → r.All P)
    {s x r : Expr} (hs : s.All P) (hx : x.All P) (h : s.Overlaid J A x r) : r.All P := by
  have hfilled {d r : Expr} (hd : d.All P) (h : d.Becomes (.filling none) r) : r.All P := by
    refine h.all (fun _ hstands => ?_) (fun _ hputs => ?_) (fun he _ hr => ?_) hd
    · exact hstands.2.2
    · cases hputs.2
    · refine hrebuilt (fun hputs => ?_) he hr
      cases hputs.1
  have hover {v d r : Expr} (hv : v.All P) (hd : d.All P) (h : d.Becomes (J.overriding v) r) :
      r.All P := by
    refine h.all (fun _ hstands => ?_) (fun _ hputs => ?_) (fun he _ hr => ?_) hd
    · exact False.elim hstands
    · exact hsource hv hputs.2
    · refine hrebuilt (fun hputs => ?_) he hr
      cases hputs.1
  induction s using Expr.byParts generalizing A x r with
  | construct i sty sargs source iha ihb =>
    cases h with
    | @construct _ _ j k _ ty _ eargs args _ extension kept added _ hbecomes hkept hadded _ =>
    have hvalue {a : Assignment} (ha : a ∈ source) : a.value.All P :=
      hs.part (List.mem_append_right _ (List.mem_map_of_mem ha))
    have hxvalue {a : Assignment} (ha : a ∈ extension) : a.value.All P :=
      hx.part (List.mem_append_right _ (List.mem_map_of_mem ha))
    refine .mk (hconstruct ..) fun d hd => ?_
    rcases List.mem_append.1 hd with hd | hd
    · obtain ⟨d₀, hd₀, h⟩ := forall₂_mem_right hbecomes hd
      exact hargs (hx.part (List.mem_append_left _ hd₀)) h
    obtain ⟨b, hb, rfl⟩ := List.mem_map.1 hd
    rcases List.mem_append.1 hb with hb | hb
    · obtain ⟨_, hp, h⟩ := forall₂_mem_right hkept hb
      obtain ⟨a, ha, rfl⟩ := List.mem_map.1 hp
      generalize hfind : Assignment.find? a.member extension = o at h
      obtain ⟨m, v⟩ := a
      cases h with
      | kept h => exact hsource (hvalue ha) h
      | merged _ _ h =>
        exact ihb _ ha (hover (hvalue ha)) (hvalue ha) (hxvalue (Assignment.mem_of_find? hfind)) h
      | replaced _ h => exact hover (hvalue ha) (hxvalue (Assignment.mem_of_find? hfind)) h
    · obtain ⟨a, ha, -, h⟩ := forall₂_mem_right hadded hb
      exact hfilled (hxvalue (List.mem_of_mem_filter ha)) h
  | _ => cases h

end

/-! ## Visits to what a merge has made -/

section

variable {J J₁ J₂ : Judgement}

theorem Expr.Rebuilt.isPrevious_eq {e e' : Expr} (h : e.Rebuilt J e') :
    e'.isPrevious = e.isPrevious := by
  cases h <;> rfl

theorem Expr.Rebuilt.eq_of_param {e e' : Expr} {p : Param} (h : e.Rebuilt J e')
    (hp : e'.param? = some p) : e = e' := by
  cases h with
  | param => rfl
  | _ => simp [param?] at hp

/-- Assignments to the same members with related values are related one by one. -/
theorem forall₂_assignments {R : Expr → Expr → Prop} :
    ∀ {as bs : List Assignment}, bs.map (·.member) = as.map (·.member) →
      List.Forall₂ R (as.map (·.value)) (bs.map (·.value)) →
      List.Forall₂ (fun a b => b.member = a.member ∧ R a.value b.value) as bs
  | [], [], _, _ => .nil
  | a :: as, b :: bs, hm, h => by
    obtain ⟨hab, hrest⟩ := List.cons.inj hm
    obtain ⟨hr, h⟩ := List.forall₂_cons.1 h
    exact .cons ⟨hab, hr⟩ (forall₂_assignments hrest h)

/-- Assignments to the same members are to different members on both sides. -/
theorem Assignment.pairwise_of_members {as bs : List Assignment}
    (hmembers : bs.map (·.member) = as.map (·.member))
    (h : as.Pairwise fun a b => a.member.same b.member = false) :
    bs.Pairwise fun a b => a.member.same b.member = false := by
  have hpairs : (as.map (·.member)).Pairwise fun m n => m.same n = false := List.pairwise_map.2 h
  rw [← hmembers] at hpairs
  exact List.pairwise_map.1 hpairs

/-- A visit `J₂` goes on with what `J₁` has made of the values of a merge : of those of the source,
which hold no placeholders, and of those of the extension, which hold no nodes with the property
`hit`. Together they come to `J`. -/
structure Judgement.GoesOn (J₁ J₂ J : Judgement) (hit : Expr → Bool) : Prop where
  source {v e r : Expr} : v.outermost Expr.isPrevious = [] → v.Becomes J₁ e → e.Becomes J₂ r →
    v.Becomes J r
  replaced {x v e r : Expr} : x.outermost hit = [] → v.outermost Expr.isPrevious = [] →
    x.Becomes (J₁.overriding v) e → e.Becomes J₂ r → x.Becomes (J.overriding v) r
  added {x e r : Expr} : x.outermost hit = [] → x.Becomes (.filling none) e → e.Becomes J₂ r →
    x.Becomes (.filling none) r
  enters {v r : Expr} : v.isConstruct = true → v.Becomes J₂ r → v.Rebuilt J₂ r

/-- A visit to what a merge has made goes on with the values and the constructor arguments alone. -/
theorem Expr.Overlaid.comp {hit : Expr → Bool} (hJ : J₁.GoesOn J₂ J hit) {A₁ A : Judgement}
    (hA : ∀ {d d₁ d₂ : Expr}, d.outermost hit = [] → d.Becomes A₁ d₁ → d₁.Becomes J₂ d₂ →
      d.Becomes A d₂) {s x v r : Expr} (hs : s.outermost isPrevious = [])
    (hx : x.outermost hit = []) (h : s.Overlaid J₁ A₁ x v) (hr : v.Becomes J₂ r) :
    s.Overlaid J A x r := by
  induction s using Expr.byParts generalizing A₁ A x v r with
  | construct i sty sargs source iha ihb =>
    cases h with
    | @construct _ _ j k _ ty _ eargs args _ extension kept added hmembers hargs hkept hadded hpw =>
    have hvalue {a : Assignment} (ha : a ∈ source) : a.value.outermost isPrevious = [] :=
      outermost_part hs (List.mem_append_right _ (List.mem_map_of_mem ha))
    have hxvalue {a : Assignment} (ha : a ∈ extension) : a.value.outermost hit = [] :=
      outermost_part hx (List.mem_append_right _ (List.mem_map_of_mem ha))
    cases hJ.enters rfl hr with | @construct _ k' _ _ args' _ bs' hma hmb ha hb =>
    obtain ⟨kept', added', rfl, hkept', hadded'⟩ :=
      forall₂_append_split (forall₂_assignments hmb hb)
    refine .construct (hma.trans hmembers) ?_ ?_ ?_ ?_
    · have hargument {d : Expr} (hd : d ∈ eargs.map (·.value)) : d.outermost hit = [] :=
        outermost_part hx (List.mem_append_left _ hd)
      exact forall₂_comp_of_mem (S := Expr.Becomes J₂)
        (fun d hd _ _ => hA (hargument hd)) hargs ha
    · refine forall₂_comp_of_mem (fun a ha b c hab hbc => ?_) hkept hkept'
      obtain ⟨a, hmem, rfl⟩ := List.mem_map.1 ha
      obtain ⟨m', w⟩ := c
      obtain ⟨rfl, hbc⟩ : m' = b.member ∧ _ := hbc
      generalize hfind : Assignment.find? a.member extension = o at hab ⊢
      cases hab with
      | kept h => exact .kept (hJ.source (hvalue hmem) h hbc)
      | merged hv hxv h =>
        exact .merged hv hxv (ihb _ hmem (fun hd => hJ.replaced hd (hvalue hmem)) (hvalue hmem)
          (hxvalue (Assignment.mem_of_find? hfind)) h hbc)
      | replaced hne h =>
        exact .replaced hne
          (hJ.replaced (hxvalue (Assignment.mem_of_find? hfind)) (hvalue hmem) h hbc)
    · refine forall₂_comp_of_mem (fun a ha b c hab hbc => ?_) hadded hadded'
      exact ⟨hbc.1.trans hab.1, hJ.added (hxvalue (List.mem_of_mem_filter ha)) hab.2 hbc.2⟩
    · exact Assignment.pairwise_of_members hmb hpw
  | _ => cases h

/-! ## The two visits that go on -/

theorem Expr.outermost_never (e : Expr) : e.outermost (fun _ => false) = [] :=
  outermost_eq_nil_of (P := fun _ => True) (fun _ => rfl) (fun _ _ => trivial)
    (fun _ _ => ⟨fun _ _ => trivial, trivial⟩) trivial

/-- A visit goes on with the values of the extension as it does with those of the source, if it
enters whatever was made of their nodes. -/
theorem Judgement.GoesOn.of_enters {hit : Expr → Bool}
    (hsource : ∀ {v e r : Expr}, v.outermost Expr.isPrevious = [] → v.Becomes J₁ e →
      e.Becomes J₂ r → v.Becomes J r)
    (henters : ∀ {J' : Judgement} {e e₁ e₂ : Expr}, hit e = false → e.isPrevious = false →
      e.Rebuilt J' e₁ → e₁.Becomes J₂ e₂ → e₁.Rebuilt J₂ e₂)
    (hconstruct : ∀ {v r : Expr}, v.isConstruct = true → v.Becomes J₂ r → v.Rebuilt J₂ r) :
    J₁.GoesOn J₂ J hit where
  source := hsource
  replaced hx hv h₁ h₂ := by
    refine .comp (fun h h' => ?_) (fun _ => False.elim) (fun hx he hr h => .inr ?_) hx h₁ h₂
    · exact ⟨h.1, hsource hv h.2 h'⟩
    · exact ⟨he, henters hx he hr h⟩
  added hx h₁ h₂ := by
    refine .comp (fun h _ => ?_) (fun _ h => ?_) (fun hx he hr h => .inr ?_) hx h₁ h₂
    · cases h.2
    · exact ⟨h, h.2.2⟩
    · exact ⟨he, henters hx he hr h⟩
  enters := hconstruct

/-- Filling enters what was made of a node that is no placeholder. -/
theorem Expr.Becomes.rebuilt_of_filling {previous : Option Expr} {e r : Expr}
    (he : e.isPrevious = false) (h : e.Becomes (.filling previous) r) :
    e.Rebuilt (.filling previous) r := by
  have not_previous : ¬ e.isPrevious = true := by simp [he]
  cases h with
  | put h => exact absurd h.1 not_previous
  | enter _ h => exact h
  | standIn h => exact absurd h.1 not_previous
  | stay h => exact absurd h.1 not_previous

/-- Filling placeholders leaves what a merge has made as it is, up to identities. -/
theorem Judgement.goesOn_filling (previous : Option Expr) :
    (Judgement.replacing []).GoesOn (.filling previous) (.replacing []) fun _ => false := by
  have enters {J : Judgement} {e e₁ e₂ : Expr} (he : e.isPrevious = false) (hr : e.Rebuilt J e₁)
      (h : e₁.Becomes (.filling previous) e₂) : e₁.Rebuilt (.filling previous) e₂ :=
    h.rebuilt_of_filling (hr.isPrevious_eq.trans he)
  refine .of_enters (fun {v e r} hv h₁ h₂ => ?_) (fun _ => enters) fun {v r} hv h => ?_
  · refine .comp (fun h => ?_) (fun _ => False.elim) (fun he henter hr h => .inr ⟨henter, ?_⟩) hv h₁
      h₂
    · simp [replacing] at h
    · exact enters he hr h
  · refine h.rebuilt_of_filling ?_
    cases v <;> first | rfl | cases hv

/-- What fills the placeholders of a value of the extension overrides the previous value. -/
theorem Expr.Becomes.overriding_of_filling {previous e r : Expr}
    (h : e.Becomes (.filling (some previous)) r) :
    e.Becomes (Judgement.overriding (.replacing []) previous) r := by
  have enters (d : Expr) : (Judgement.replacing []).enters d := by simp [Judgement.replacing]
  refine .comp (fun hput hr => ?_) (fun _ hs => ?_) (fun _ he _ hr => ?_) e.outermost_never h
    (.refl (fun d => .inr (enters d)) r)
  · exact ⟨hput.1, Option.some.inj hput.2 ▸ hr⟩
  · cases hs.2.1
  · cases hr with
    | put h => simp [Judgement.replacing] at h
    | enter _ hr => exact .inr ⟨he, hr⟩
    | standIn h => exact h.elim
    | stay h => exact h.elim

/-- Replacing parameters in what a visit has made that puts nothing in replaces them in the tree
that was visited. -/
theorem Expr.Becomes.replacing_entered {rs : List Replacement}
    (hrs : ∀ r ∈ rs, ∃ p, r.old = .param p) {hit : Expr → Bool} (hputs : ∀ {e e'}, ¬ J.puts e e')
    (hstands : ∀ {e}, hit e = false → ¬ J.stands e) {v e r : Expr} (hhit : v.outermost hit = [])
    (h : v.Becomes J e) (hr : e.Becomes (.replacing rs) r) : v.Becomes (.replacing rs) r := by
  refine .comp (fun h _ => absurd h hputs) (fun hhit h => absurd h (hstands hhit))
    (fun {e e₁ e₂} _ _ hrebuilt h => ?_) hhit h hr
  cases h with
  | put h =>
    obtain ⟨r, hmem, hold, rfl⟩ := h
    obtain ⟨p, hp⟩ := hrs r hmem
    have heq : e = e₁ := hrebuilt.eq_of_param (by rw [hold, hp, param?])
    exact .inl ⟨r, hmem, heq ▸ hold, rfl⟩
  | enter henter h =>
    refine .inr ⟨fun r hmem hold => ?_, h⟩
    obtain ⟨p, hp⟩ := hrs r hmem
    obtain rfl := hold.trans hp
    cases hrebuilt
    exact henter r hmem hold
  | standIn h => exact h.elim
  | stay h => exact h.elim

/-- Replacing parameters replaces them in the values of the source alone, if those of the extension
do not hold them. -/
theorem Judgement.goesOn_replacing {rs : List Replacement} (hrs : ∀ r ∈ rs, ∃ p, r.old = .param p) :
    (Judgement.replacing []).GoesOn (.replacing rs) (.replacing rs) (Replacement.isOld rs) := by
  have eq_of_old {J : Judgement} {e e₁ : Expr} {r : Replacement} (hr : r ∈ rs)
      (hrebuilt : e.Rebuilt J e₁) (h : e₁ = r.old) : e = e₁ := by
    obtain ⟨p, hp⟩ := hrs r hr
    exact hrebuilt.eq_of_param (by rw [h, hp, Expr.param?])
  have not_old {e : Expr} (he : Replacement.isOld rs e = false) {r : Replacement} (hr : r ∈ rs) :
      e ≠ r.old := Expr.ne_of_not_same (Replacement.isOld_eq_false_iff.1 he r hr)
  -- what was made of a node that is not replaced is not replaced
  have enters {J : Judgement} {e e₁ e₂ : Expr} (he : Replacement.isOld rs e = false)
      (hr : e.Rebuilt J e₁) (h : e₁.Becomes (.replacing rs) e₂) :
      e₁.Rebuilt (.replacing rs) e₂ := by
    cases h with
    | put h =>
      obtain ⟨r, hmem, hold, -⟩ := h
      exact absurd (eq_of_old hmem hr hold ▸ hold) (not_old he hmem)
    | enter _ h => exact h
    | standIn h => exact h.elim
    | stay h => exact h.elim
  refine .of_enters (fun {v e r} _ h₁ h₂ => ?_) (fun he _ => enters he) fun {v r} hv h => ?_
  · exact .replacing_entered hrs (by simp [replacing]) (fun _ => False.elim) v.outermost_never h₁ h₂
  · cases h with
    | put h =>
      obtain ⟨r, hmem, rfl, -⟩ := h
      obtain ⟨p, hp⟩ := hrs r hmem
      simp [hp, Expr.isConstruct] at hv
    | enter _ h => exact h
    | standIn h => exact h.elim
    | stay h => exact h.elim

end

/-! ## Merging -/

section

/-- No construction of the forest assigns a member twice. -/
def Forest.AssignsOnce (F : Forest) : Prop :=
  ∀ {i ty as bs}, F.nodes (.construct i ty as bs) →
    bs.Pairwise fun a b => a.member.same b.member = false

variable {F F₀ : Forest} {t t' : Trail}

/-- What is added has the values of the extension, with fallbacks in the places of placeholders. -/
theorem Assignment.outcome_added {source extension added' : List Assignment}
    (hextension : ∀ a ∈ extension, F.nodes a.value) (hF : F.Below t.next)
    (h : outcome (Assignment.added source extension) t = (.ok added', t')) :
    ∃ G, F ≤ G ∧ G.Below t'.next ∧ (∀ a ∈ added', G.nodes a.value) ∧
      List.Forall₂ (fun a r => r.member = a.member ∧ a.value.Becomes (.filling none) r.value)
        (extension.filter fun a => (Assignment.find? a.member source).isNone) added' := by
  induction extension generalizing F t added' with
  | nil =>
    obtain ⟨rfl, rfl⟩ := outcome_pure_ok.1 h
    exact ⟨F, F.le_refl, hF, by simp, .nil⟩
  | cons a rest ih =>
    rw [added] at h
    by_cases hfind : (Assignment.find? a.member source).isSome
    · rw [if_pos hfind] at h
      rw [List.filter_cons_of_neg (by simpa [Option.isSome_iff_ne_none] using hfind)]
      exact ih (fun b hb => hextension b (by simp [hb])) hF h
    · rw [if_neg hfind] at h
      rw [List.filter_cons_of_pos (by simpa using hfind)]
      obtain ⟨value, t₁, hvalue, h⟩ := outcome_bind_ok.1 h
      obtain ⟨rest', t₂, hrest, h⟩ := outcome_bind_ok.1 h
      obtain ⟨rfl, rfl⟩ := outcome_pure_ok.1 h
      obtain ⟨G, hFG, hG, hnode, hbecomes⟩ :=
        Expr.fillPrevious_becomes (by simp) (hextension a (by simp)) hF hvalue
      obtain ⟨H, hGH, hH, hnodes, hall⟩ :=
        ih (fun b hb => hFG.1 _ (hextension b (by simp [hb]))) hG hrest
      refine ⟨H, F.le_trans hFG hGH, hH, ?_, .cons ⟨rfl, hbecomes⟩ hall⟩
      rintro b (_ | ⟨_, hb⟩)
      · exact hGH.1 _ hnode
      · exact hnodes b hb

mutual

/-- What a run makes of an extension over a source, one step after the other : a value of the
extension is laid over that of the source, and the placeholders of what that makes are filled. -/
inductive Expr.Layered : Expr → Expr → Expr → Prop
  | construct {i j k : NodeId} {sty ty : Ty}
      {sargs eargs source extension kept added : List Assignment} :
    List.Forall₂ Assignment.Layered
      (source.map fun a => (a, Assignment.find? a.member extension)) kept →
    List.Forall₂ (fun a r => r.member = a.member ∧ a.value.Becomes (.filling none) r.value)
      (extension.filter fun a => (Assignment.find? a.member source).isNone) added →
    Expr.Layered (.construct i sty sargs source) (.construct j ty eargs extension)
      (.construct k ty eargs (kept ++ added))
  | replaced {s x : Expr} : (s.isConstruct && x.isConstruct) = false → Expr.Layered s x x

/-- What becomes of an assignment of the source, given that of the extension to the same member. -/
inductive Assignment.Layered : Assignment × Option Assignment → Assignment → Prop
  | kept {m : Member} {v : Expr} : Assignment.Layered (⟨m, v⟩, none) ⟨m, v⟩
  | filled {m : Member} {v w r : Expr} {x : Assignment} : Expr.Layered v x.value w →
    w.Becomes (.filling (some v)) r → Assignment.Layered (⟨m, v⟩, some x) ⟨x.member, r⟩

end

/-- Where not both are constructions, the extension's value is taken. -/
theorem Expr.Layered.eq_of_ne {s x v : Expr} (h : s.Layered x v)
    (hne : (s.isConstruct && x.isConstruct) = false) : v = x := by
  cases h with
  | construct => cases hne
  | replaced => rfl

/-- The source's assignments, each under the extension's, have been laid under it one by one. -/
theorem Assignment.outcome_mergeList {source extension kept : List Assignment}
    (ih : ∀ a ∈ source, ∀ {x v : Expr} {F : Forest} {t t' : Trail}, F₀ ≤ F → F₀.nodes x →
      F.Below t.next → outcome (a.value.mergeValue x) t = (.ok v, t') →
        ∃ G, F ≤ G ∧ G.Below t'.next ∧ G.nodes v ∧ a.value.Layered x v)
    (hsource : ∀ a ∈ source, F₀.nodes a.value) (hextension : ∀ a ∈ extension, F₀.nodes a.value)
    (hF₀ : F₀ ≤ F) (hF : F.Below t.next)
    (h : outcome (Assignment.mergeList extension source) t = (.ok kept, t')) :
    ∃ G, F ≤ G ∧ G.Below t'.next ∧ (∀ a ∈ kept, G.nodes a.value) ∧
      List.Forall₂ Assignment.Layered
        (source.map fun a => (a, Assignment.find? a.member extension)) kept := by
  induction source generalizing F t kept with
  | nil =>
    obtain ⟨rfl, rfl⟩ := outcome_pure_ok.1 h
    exact ⟨F, F.le_refl, hF, by simp, .nil⟩
  | cons a rest ihrest =>
    obtain ⟨m, previous⟩ := a
    have hnode := hsource ⟨m, previous⟩ (by simp)
    rw [mergeList] at h
    -- the rest of the list, from a larger forest
    have finish {G : Forest} {t₁ : Trail} {r : Assignment} (hFG : F ≤ G) (hG : G.Below t₁.next)
        (hr : G.nodes r.value)
        (hlayered : Assignment.Layered (⟨m, previous⟩, Assignment.find? m extension) r)
        (h : outcome (do return r :: (← Assignment.mergeList extension rest)) t₁ = (.ok kept, t')) :
        ∃ G, F ≤ G ∧ G.Below t'.next ∧ (∀ a ∈ kept, G.nodes a.value) ∧
          List.Forall₂ Assignment.Layered
            ((⟨m, previous⟩ :: rest).map fun a => (a, Assignment.find? a.member extension))
            kept := by
      obtain ⟨kept', t₂, hrest, h⟩ := outcome_bind_ok.1 h
      obtain ⟨rfl, rfl⟩ := outcome_pure_ok.1 h
      obtain ⟨H, hGH, hH, hnodes, hall⟩ := ihrest (fun b hb => ih b (by simp [hb]))
        (fun b hb => hsource b (by simp [hb])) (F₀.le_trans hF₀ hFG) hG hrest
      refine ⟨H, F.le_trans hFG hGH, hH, ?_, .cons hlayered hall⟩
      rintro b (_ | ⟨_, hb⟩)
      · exact hGH.1 _ hr
      · exact hnodes b hb
    cases hfind : Assignment.find? m extension with
    | none =>
      simp only [hfind] at h
      refine finish F.le_refl hF (r := ⟨m, previous⟩) (hF₀.1 _ hnode) ?_ h
      rw [hfind]
      exact .kept
    | some x =>
      simp only [hfind] at h
      have hx := hextension x (mem_of_find? hfind)
      obtain ⟨value, t₁, hvalue, h⟩ := outcome_bind_ok.1 h
      obtain ⟨filled, t₂, hfilled, h⟩ := outcome_bind_ok.1 h
      obtain ⟨G, hFG, hG, hvalueG, hlayered⟩ := ih ⟨m, previous⟩ (by simp) hF₀ hx hF hvalue
      obtain ⟨H, hGH, hH, hfilledH, hbecomes⟩ := Expr.fillPrevious_becomes
        (by simpa using hFG.1 _ (hF₀.1 _ hnode)) hvalueG hG hfilled
      refine finish (F.le_trans hFG hGH) hH (r := ⟨x.member, filled⟩) hfilledH ?_ h
      rw [hfind]
      exact .filled hlayered hbecomes

/-- A run lays an extension over a source, whatever the two are. -/
theorem Expr.mergeValue_layered {s x v : Expr} (hF : F₀ ≤ F) (hs : F₀.nodes s) (hx : F₀.nodes x)
    (hbelow : F.Below t.next) (h : outcome (s.mergeValue x) t = (.ok v, t')) :
    ∃ G, F ≤ G ∧ G.Below t'.next ∧ G.nodes v ∧ s.Layered x v := by
  induction s using Expr.byParts generalizing x v F t t' with
  | construct i sty sargs source iha ihb =>
    cases x with
    | construct j ty eargs extension =>
      rw [mergeValue] at h
      obtain ⟨kept, t₁, hkept, h⟩ := outcome_bind_ok.1 h
      obtain ⟨added', t₂, hadded, h⟩ := outcome_bind_ok.1 h
      obtain ⟨n, t₃, hn, h⟩ := outcome_bind_ok.1 h
      obtain ⟨rfl, rfl⟩ := outcome_pure_ok.1 h
      obtain ⟨rfl, rfl⟩ := outcome_fresh_ok.1 hn
      have hsnodes {a : Assignment} (ha : a ∈ source) : F₀.nodes a.value :=
        F₀.part hs (List.mem_append_right _ (List.mem_map_of_mem ha))
      have hxnodes {a : Assignment} (ha : a ∈ extension) : F₀.nodes a.value :=
        F₀.part hx (List.mem_append_right _ (List.mem_map_of_mem ha))
      obtain ⟨G, hFG, hG, hkeptG, hlayered⟩ := Assignment.outcome_mergeList
        (fun a ha {x v F t t'} hF hx hbelow h => ihb a ha hF (hsnodes ha) hx hbelow h)
        (fun a ha => hsnodes ha) (fun a ha => hxnodes ha) hF hbelow hkept
      obtain ⟨H, hGH, hH, haddedH, hall⟩ := Assignment.outcome_added
        (fun a ha => hFG.1 _ (hF.1 _ (hxnodes ha))) hG hadded
      have hFH := F.le_trans hFG hGH
      have hparts : ∀ d ∈ (construct t₂.next ty eargs (kept ++ added')).parts, H.nodes d := by
        intro d hd
        rcases List.mem_append.1 hd with hd | hd
        · exact hFH.1 _ (hF.1 _ (F₀.part hx (List.mem_append_left _ hd)))
        · obtain ⟨a, ha, rfl⟩ := List.mem_map.1 hd
          rcases List.mem_append.1 ha with ha | ha
          · exact hGH.1 _ (hkeptG a ha)
          · exact haddedH a ha
      obtain ⟨K, hHK, hK, hnode⟩ := Forest.exists_grow hH hparts (by simp [fn?])
      exact ⟨K, F.le_trans hFH hHK, hK, hnode, .construct hlayered hall⟩
    | _ =>
      obtain ⟨rfl, rfl⟩ := outcome_pure_ok.1 h
      exact ⟨F, F.le_refl, hbelow, hF.1 _ hx, .replaced rfl⟩
  | _ =>
    rw [mergeValue] at h
    · obtain ⟨rfl, rfl⟩ := outcome_pure_ok.1 h
      exact ⟨F, F.le_refl, hbelow, hF.1 _ hx, .replaced rfl⟩
    · simp

/-- What a member is known by. -/
def Assignment.key (a : Assignment) : String × String :=
  (a.member.owner, a.member.name)

theorem Assignment.same_eq_false_iff {a b : Assignment} :
    a.member.same b.member = false ↔ a.key ≠ b.key := by
  simp [← Bool.not_eq_true, key]

theorem Assignment.pairwise_iff {as : List Assignment} :
    (as.Pairwise fun a b => a.member.same b.member = false) ↔ (as.map key).Nodup := by
  simp only [same_eq_false_iff, List.Nodup, List.pairwise_map]

theorem Assignment.key_eq_of_find? {m : Member} {as : List Assignment} {a : Assignment}
    (h : find? m as = some a) : a.key = (m.owner, m.name) := by
  unfold find? at h
  simpa [key] using List.find?_some h

/-- A member that is laid under an extension stays the same member. -/
theorem Assignment.Override.key_eq {extension : List Assignment} {a r : Assignment}
    (h : Assignment.Override J (a, find? a.member extension) r) : r.key = a.key := by
  generalize hfind : find? a.member extension = o at h
  cases h with
  | kept => rfl
  | merged | replaced => exact (key_eq_of_find? hfind :)

/-- What is laid under an extension is assigned to the member that one of the two sides has. -/
theorem Assignment.Override.member_eq {extension : List Assignment} {a r : Assignment}
    (h : Assignment.Override J (a, find? a.member extension) r) :
    ∃ b ∈ a :: extension, r.member = b.member := by
  generalize hfind : find? a.member extension = o at h
  cases h with
  | kept => exact ⟨_, List.mem_cons_self .., rfl⟩
  | merged | replaced => exact ⟨_, List.mem_cons_of_mem _ (mem_of_find? hfind), rfl⟩

/-- What a merge assigns is assigned to the member that one of the two sides has. -/
theorem Assignment.member_eq_of_override {source extension kept added' : List Assignment}
    (hkept : List.Forall₂ (Assignment.Override J)
      (source.map fun a => (a, Assignment.find? a.member extension)) kept)
    (hadded : List.Forall₂
      (fun a r => r.member = a.member ∧ a.value.Becomes (.filling none) r.value)
      (extension.filter fun a => (Assignment.find? a.member source).isNone) added')
    {r : Assignment} (hr : r ∈ kept ++ added') :
    ∃ a ∈ source ++ extension, r.member = a.member := by
  rcases List.mem_append.1 hr with hr | hr
  · obtain ⟨p, hp, hover⟩ := forall₂_mem_right hkept hr
    obtain ⟨a, ha, rfl⟩ := List.mem_map.1 hp
    obtain ⟨b, hb, heq⟩ := hover.member_eq
    rcases List.mem_cons.1 hb with rfl | hb
    · exact ⟨b, List.mem_append_left _ ha, heq⟩
    · exact ⟨b, List.mem_append_right _ hb, heq⟩
  · obtain ⟨a, ha, heq, -⟩ := forall₂_mem_right hadded hr
    exact ⟨a, List.mem_append_right _ (List.mem_of_mem_filter ha), heq⟩

/-- The members of the source and those that the extension alone assigns are different members. -/
theorem Assignment.nodup_keys_append {source extension : List Assignment}
    (hsource : (source.map key).Nodup) (hextension : (extension.map key).Nodup) :
    (source.map key ++
      (extension.filter fun a => (find? a.member source).isNone).map key).Nodup := by
  rw [List.nodup_append]
  refine ⟨hsource, hextension.sublist (List.filter_sublist.map _), fun k hk k' hk' heq => ?_⟩
  obtain ⟨a, ha, rfl⟩ := List.mem_map.1 hk
  obtain ⟨b, hb, rfl⟩ := List.mem_map.1 hk'
  obtain ⟨-, hnone⟩ := List.mem_filter.1 hb
  have hnot : ¬ a.member.same b.member = true := by
    simpa [find?] using List.find?_eq_none.1 (Option.isNone_iff_eq_none.1 hnone) a ha
  exact hnot (by simpa [key] using heq)

/-- The members of what a merge assigns are those of the source and then those that the extension
alone assigns, so that none is assigned twice. -/
theorem Assignment.pairwise_append {source extension kept added' : List Assignment}
    (hsource : source.Pairwise fun a b => a.member.same b.member = false)
    (hextension : extension.Pairwise fun a b => a.member.same b.member = false)
    (hkept : List.Forall₂ (Assignment.Override J)
      (source.map fun a => (a, Assignment.find? a.member extension)) kept)
    (hadded : List.Forall₂
      (fun a r => r.member = a.member ∧ a.value.Becomes (.filling none) r.value)
      (extension.filter fun a => (Assignment.find? a.member source).isNone) added') :
    (kept ++ added').Pairwise fun a b => a.member.same b.member = false := by
  have hkept' : source.map key = kept.map key := by
    rw [List.forall₂_map_left_iff] at hkept
    exact map_eq_map_of_forall₂ (hkept.imp fun a r h => h.key_eq.symm)
  have hadded' : (extension.filter fun a => (find? a.member source).isNone).map key =
      added'.map key :=
    map_eq_map_of_forall₂ (hadded.imp fun a r h => by rw [key, key, h.1])
  rw [pairwise_iff] at *
  rw [List.map_append, ← hkept', ← hadded']
  exact nodup_keys_append hsource hextension

/-- Filling placeholders leaves a source without any as it is, so that what is laid over it is the
extension's, with the values of the source in the places of its placeholders. -/
theorem Expr.Layered.overlaid {s x v : Expr} (hF : F.AssignsOnce) (hs : F.nodes s)
    (hplain : s.outermost isPrevious = []) (hx : F.nodes x) (hsc : s.isConstruct = true)
    (hxc : x.isConstruct = true) (h : s.Layered x v) :
    s.Overlaid (.replacing []) .keeping x v := by
  induction s using Expr.byParts generalizing x v with
  | construct i sty sargs source iha ihb =>
    cases h with
    | replaced hne => simp [hsc, hxc] at hne
    | @construct _ _ _ _ ty _ eargs _ extension kept added' hkept hadded =>
      have hover : List.Forall₂ (Assignment.Overlaid (.replacing []))
          (source.map fun a => (a, Assignment.find? a.member extension)) kept := by
        refine forall₂_imp_of_mem hkept fun p hp r h => ?_
        obtain ⟨a, ha, rfl⟩ := List.mem_map.1 hp
        have hnode : F.nodes a.value :=
          F.part hs (List.mem_append_right _ (List.mem_map_of_mem ha))
        have hvplain : a.value.outermost isPrevious = [] :=
          outermost_part hplain (List.mem_append_right _ (List.mem_map_of_mem ha))
        generalize hfind : Assignment.find? a.member extension = o at h
        cases h with
        | kept => exact .kept (.refl (fun e => .inr (by simp [Judgement.replacing])) _)
        | @filled m v w r b hlayered hbecomes =>
          have hb : F.nodes b.value := F.part hx (List.mem_append_right _
            (List.mem_map_of_mem (Assignment.mem_of_find? hfind)))
          by_cases hboth : (v.isConstruct && b.value.isConstruct) = true
          · obtain ⟨hvc, hbc⟩ := Bool.and_eq_true_iff.1 hboth
            have hover := ihb _ ha hnode hvplain hb hvc hbc hlayered
            refine .merged hvc hbc (hover.comp (Judgement.goesOn_filling _) (fun _ h₁ h₂ => ?_)
              hvplain (Expr.outermost_never _) hbecomes)
            exact (Expr.becomes_keeping.1 h₁ ▸ h₂).overriding_of_filling
          · have hne := Bool.not_eq_true _ ▸ hboth
            exact .replaced hne (hlayered.eq_of_ne hne ▸ hbecomes).overriding_of_filling
      exact .construct rfl (List.forall₂_same.2 fun _ _ => .put rfl) hover hadded
        (Assignment.pairwise_append (hF hs) (hF hx) (hover.imp fun _ _ h => h.override) hadded)
  | _ => simp [isConstruct] at hsc

/-- What a merge makes of a construction without placeholders under another one. -/
theorem Expr.outcome_mergeValue (hF : F.AssignsOnce) {s x v : Expr} (hs : F.nodes s)
    (hplain : s.outermost isPrevious = []) (hx : F.nodes x) (hsc : s.isConstruct = true)
    (hxc : x.isConstruct = true) (hbelow : F.Below t.next)
    (h : outcome (s.mergeValue x) t = (.ok v, t')) :
    ∃ G, F ≤ G ∧ G.Below t'.next ∧ G.nodes v ∧ s.Overlaid (.replacing []) .keeping x v := by
  obtain ⟨G, hFG, hG, hnode, hlayered⟩ := mergeValue_layered F.le_refl hs hx hbelow h
  exact ⟨G, hFG, hG, hnode, hlayered.overlaid hF hs hplain hx hsc hxc⟩

namespace Replacement

theorem mem_ofParams_iff {old new : List Param} {p q : Param} :
    (⟨.param p, .param q⟩ : Replacement) ∈ ofParams old new ↔
      (p, q) ∈ old.zip new ∧ p.id ≠ q.id := by
  simp [ofParams]

theorem mem_ofParams {old new : List Param} {r : Replacement} (h : r ∈ ofParams old new) :
    ∃ p ∈ old, ∃ q ∈ new, r = ⟨.param p, .param q⟩ := by
  obtain ⟨⟨p, q⟩, hpq, rfl⟩ := List.mem_map.1 h
  have hzip := List.of_mem_zip (List.mem_of_mem_filter hpq)
  exact ⟨p, hzip.1, q, hzip.2, rfl⟩

theorem exists_old_of_mem_ofParams {old new : List Param} {r : Replacement}
    (h : r ∈ ofParams old new) : ∃ p, r.old = .param p := by
  obtain ⟨p, -, q, -, rfl⟩ := mem_ofParams h
  exact ⟨p, rfl⟩

/-- A parameter that has a counterpart is renamed, unless the two are the same. -/
theorem exists_mem_ofParams {old new : List Param} (hlen : old.length = new.length) {p : Param}
    (hp : p ∈ old) : ∃ q ∈ new, q.id = p.id ∨ ⟨.param p, .param q⟩ ∈ ofParams old new := by
  obtain ⟨i, hi, rfl⟩ := List.getElem_of_mem hp
  have hmem : (old[i], new[i]) ∈ old.zip new :=
    List.mem_iff_getElem.2 ⟨i, by simpa [← hlen] using hi, List.getElem_zip⟩
  refine ⟨new[i], List.getElem_mem _, ?_⟩
  by_cases hid : new[i].id = old[i].id
  · exact .inl hid
  · exact .inr (mem_ofParams_iff.2 ⟨hmem, Ne.symm hid⟩)

theorem flat_ofParams (old new : List Param) : Flat (ofParams old new) := by
  intro r hr
  obtain ⟨p, -, q, -, rfl⟩ := mem_ofParams hr
  rfl

/-- A tree that holds no old node is not changed by replacements. -/
theorem outermost_isOld {rs : List Replacement} {e : Expr}
    (h : ∀ r ∈ rs, e.outermost r.old.same = []) : e.outermost (isOld rs) = [] := by
  refine Expr.outermost_eq_nil_of (P := fun e => ∀ r ∈ rs, e.outermost r.old.same = [])
    (fun h => ?_) (fun h hd r hr => Expr.outermost_part (h r hr) hd) (fun h hf => ?_) h
  · exact isOld_eq_false_iff.2 fun r hr => (Expr.outermost_eq_nil_iff.1 (h r hr)).1
  · exact ⟨fun p hp r hr => (Expr.outermost_fn (h r hr) hf).1 p hp,
      fun r hr => (Expr.outermost_fn (h r hr) hf).2⟩

end Replacement

/-- The parameters that are renamed, and those that they are renamed to, are in the forest. -/
theorem Replacement.nodes_ofParams {f g : Lambda} {r : Replacement} (hf : F.fns f) (hg : F.fns g)
    (hr : r ∈ ofParams f.params g.params) : F.nodes r.old ∧ F.nodes r.new := by
  obtain ⟨p, hp, q, hq, rfl⟩ := mem_ofParams hr
  exact ⟨F.param hf hp, F.param hg hq⟩

/-- A merge that ends has merged two constructions and has then renamed the parameters of the source
to those of the extension. -/
theorem Lambda.outcome_merge_ok {source extension result : Lambda}
    (h : outcome (source.merge extension) t = (.ok result, t')) :
    source.body.isConstruct = true ∧ extension.body.isConstruct = true ∧
      source.params.length = extension.params.length ∧ result.params = extension.params ∧
        ∃ merged t₁ t₂, outcome (source.body.mergeValue extension.body) t = (.ok merged, t₁) ∧
          outcome (merged.substitute (Replacement.ofParams source.params extension.params)) t₁ =
            (.ok result.body, t₂) ∧ result.id = t₂.next ∧ t'.next = t₂.next + 1 := by
  unfold merge at h
  by_cases hsc : source.body.isConstruct = true
  case neg => simp [hsc, outcome_bind_of_error (outcome_fail _ t)] at h
  by_cases hxc : extension.body.isConstruct = true
  case neg => simp [hsc, hxc, outcome_bind_of_error (outcome_fail _ t)] at h
  by_cases hlen : source.params.length = extension.params.length
  case neg => simp [hsc, hxc, hlen, outcome_bind_of_error (outcome_reject _ t)] at h
  simp only [hsc, hxc, hlen, if_true, ne_eq, not_true, if_false] at h
  obtain ⟨merged, t₁, hmerged, h⟩ := outcome_bind_ok.1 h
  obtain ⟨body, t₂, hbody, h⟩ := outcome_bind_ok.1 h
  obtain ⟨hid, hparamExprs, rfl, hnext⟩ := outcome_ofExprs h
  exact ⟨hsc, hxc, hlen, ((List.map_injective_iff.2 fun _ _ => Expr.param.inj) hparamExprs).symm,
    merged, t₁, t₂, hmerged, hbody, hid, hnext⟩

/-- A merge lays the extension over the source, and then renames the parameters of the source to
those of the extension in all that it has made. -/
theorem Lambda.outcome_merge {source extension result : Lambda} (hs : F.fns source)
    (hx : F.fns extension) (honce : F.AssignsOnce) (hF : F.Below t.next)
    (hplain : source.body.outermost Expr.isPrevious = [])
    (h : outcome (source.merge extension) t = (.ok result, t')) :
    source.params.length = extension.params.length ∧ result.params = extension.params ∧
      ∃ merged, source.body.Overlaid (.replacing []) .keeping extension.body merged ∧
        merged.Becomes (.replacing (Replacement.ofParams source.params extension.params))
          result.body ∧ ∃ G, F ≤ G ∧ G.Below t'.next ∧ G.nodes merged ∧ G.fns result := by
  obtain ⟨hsc, hxc, hlen, hparams, merged, t₁, t₂, hmerged, hbody, hid, hnext⟩ :=
    outcome_merge_ok h
  refine ⟨hlen, hparams, merged, ?_⟩
  obtain ⟨G, hFG, hG, hnode, hover⟩ := Expr.outcome_mergeValue honce (F.body hs) hplain (F.body hx)
    hsc hxc hF hmerged
  obtain ⟨H, hGH, hH, hresult, hbecomes⟩ := Expr.substitute_becomes
    (Replacement.flat_ofParams source.params extension.params)
    (fun r hr => hFG.1 _ (Replacement.nodes_ofParams hs hx hr).1)
    (fun r hr => hFG.1 _ (Replacement.nodes_ofParams hs hx hr).2) hnode hG hbody
  have hFH := F.le_trans hFG hGH
  obtain ⟨K, hHK, hK, hfn⟩ := Forest.exists_growFn (f := result) (hid ▸ hH)
    (fun p hp => hFH.1 _ (F.param hx (hparams ▸ hp))) hresult
  exact ⟨hover, hbecomes, K, F.le_trans hFH hHK, by rwa [hnext, ← hid],
    hHK.1 _ (hGH.1 _ hnode), hfn⟩

/-- A merge lays the extension over the source, with the parameters of the source renamed to those
of the extension, in constructor arguments as well. -/
theorem Lambda.merge_overlaid {source extension result : Lambda} (hs : F.fns source)
    (hx : F.fns extension) (honce : F.AssignsOnce) (hF : F.Below t.next)
    (hplain : source.body.outermost Expr.isPrevious = [])
    (hparams : ∀ p ∈ source.params, (Expr.param p).occursIn extension.body = false)
    (h : outcome (source.merge extension) t = (.ok result, t')) :
    let J : Judgement := .replacing (Replacement.ofParams source.params extension.params)
    result.params = extension.params ∧ source.body.Overlaid J J extension.body result.body := by
  obtain ⟨-, hresult, merged, hover, hbecomes, -⟩ := outcome_merge hs hx honce hF hplain h
  refine ⟨hresult, hover.comp
    (Judgement.goesOn_replacing fun _ => Replacement.exists_old_of_mem_ofParams)
    (fun _ h₁ h₂ => Expr.becomes_keeping.1 h₁ ▸ h₂) hplain ?_ hbecomes⟩
  refine Replacement.outermost_isOld fun r hr => ?_
  obtain ⟨p, hp, q, -, rfl⟩ := Replacement.mem_ofParams hr
  exact Expr.occursIn_eq_false_iff.1 (hparams p hp)

/-- A merge lays the extension over the source, with the parameters of the source renamed to those
of the extension. -/
theorem Lambda.merge_override {source extension result : Lambda} (hs : F.fns source)
    (hx : F.fns extension) (honce : F.AssignsOnce) (hF : F.Below t.next)
    (hplain : source.body.outermost Expr.isPrevious = [])
    (hparams : ∀ p ∈ source.params, (Expr.param p).occursIn extension.body = false)
    (h : outcome (source.merge extension) t = (.ok result, t')) :
    result.params = extension.params ∧
      source.body.Override (.replacing (Replacement.ofParams source.params extension.params))
        extension.body result.body :=
  (merge_overlaid hs hx honce hF hplain hparams h).imp_right Expr.Overlaid.override

/-- A member that is kept, one whose previous value is added to, and one that is added. -/
theorem Lambda.merge_override_three :
    let a : Param := ⟨0, "a", .object "A"⟩
    let n : Expr := .member 1 (.param a) ⟨"A", "n", .int⟩
    let x : Member := ⟨"D", "x", .int⟩
    let y : Member := ⟨"D", "y", .int⟩
    let source : Lambda :=
      ⟨4, [a], .construct 3 (.object "D") [] [⟨x, n⟩, ⟨y, .constant 2 .int (.int 1)⟩]⟩
    let b : Param := ⟨5, "b", .object "A"⟩
    let sum : Expr := .binary 8 .int .add (.previous 6 .int none) (.constant 7 .int (.int 2))
    let extension : Lambda := ⟨11, [b], .construct 10 (.object "E") []
      [⟨⟨"E", "z", .int⟩, .previous 9 .int (some (.constant 7 .int (.int 2)))⟩, ⟨y, sum⟩]⟩
    ∃ result t, outcome (source.merge extension) { next := 12 } = (.ok result, t) ∧
      result.params = extension.params ∧
        source.body.Override (.replacing (Replacement.ofParams source.params extension.params))
          extension.body result.body := by
  intro a n x y source b sum extension
  let F : Forest := .ofLists [.param a, n, .constant 2 .int (.int 1), source.body, .param b,
      .previous 6 .int none, .constant 7 .int (.int 2), sum,
      .previous 9 .int (some (.constant 7 .int (.int 2))), extension.body] [source, extension]
    (by decide) (by decide) (by simp [Expr.parts, source, extension, n, sum])
    (by simp [Expr.fn?, source, extension, n, sum]) (by simp [source, extension]) (by simp)
  obtain ⟨result, t, hrun⟩ :
      ∃ result t, outcome (source.merge extension) { next := 12 } = (.ok result, t) :=
    ⟨_, _, rfl⟩
  refine ⟨result, t, hrun, Lambda.merge_override (F := F) (List.mem_cons_self ..)
    (List.mem_cons_of_mem _ (List.mem_singleton_self _)) ?_ (Forest.below_ofLists (by decide)
    (by decide)) rfl ?_ hrun⟩
  · intro i ty as bs h
    obtain ⟨-, -, -, rfl⟩ | ⟨-, -, -, rfl⟩ : _ ∨ _ := by
      simpa [F, Forest.ofLists, source, extension, n, sum] using h
    · exact List.pairwise_pair.2 rfl
    · exact List.pairwise_pair.2 rfl
  · intro p hp
    obtain rfl := List.mem_singleton.1 hp
    rfl

end

end ObjectMapping
