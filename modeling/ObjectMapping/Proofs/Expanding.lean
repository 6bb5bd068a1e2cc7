import ObjectMapping.Proofs.Making
import ObjectMapping.Proofs.Scoping

/-!
# What a pass makes of mapped objects

A pass over a lambda whose marked calls map one object each puts the guarded body of the mapper in
the place of every call (`ExpanderDesign.expandLambda_becomes`). The transformers are looked up in a
cache by the signature of the operation ; `ExpanderDesign.Caches` is the invariant that makes a
transformer found there as good as one made for the operation itself.
-/

namespace ObjectMapping

open RunM

/-! ## Mapped objects -/

/-- The operation that an expression calls. -/
def Expr.operation? : Expr → Option Operation
  | .call _ _ op _ _ => some op
  | _ => none

/-- An expression is no call, or the call of an operation in use. -/
def Expr.CallsIn (ops : Operation → Prop) (e : Expr) : Prop :=
  ∀ op, e.operation? = some op → ops op

/-- The markers of the operation that an expression calls. -/
def Expr.markers : Expr → List Marker
  | .call _ _ op _ _ => op.markers
  | _ => []

theorem Expr.callsIn_of_none {ops : Operation → Prop} {e : Expr} (h : e.operation? = none) :
    e.CallsIn ops := by
  simp [CallsIn, h]

theorem Expr.markers_of_none {e : Expr} (h : e.operation? = none) : e.markers = [] := by
  cases e with
  | call => cases h
  | _ => rfl

/-- The first argument of a call. -/
def Expr.source? : Expr → Option Expr
  | .call _ _ _ _ arguments => arguments[0]?
  | _ => none

theorem Expr.mem_parts_of_source? {e source : Expr} (h : e.source? = some source) :
    source ∈ e.parts := by
  cases e with
  | call id ty op receiver arguments => exact List.mem_append_right _ (List.mem_of_getElem? h)
  | _ => cases h

/-- The operand of a marked call that says which mapper is inlined. -/
def Expr.operand? : Expr → Option Expr
  | .call _ _ op receiver arguments =>
    match op.markers with
    | [.includeGiven] | [.mapWith] | [.mapAllWith] => arguments[1]?
    | [.map] => receiver
    | _ => none
  | _ => none

theorem Expr.markers_ne_of_operand? {e d : Expr} (h : e.operand? = some d) : e.markers ≠ [] := by
  cases e with
  | call id ty op receiver arguments =>
    intro hmarkers
    rw [markers] at hmarkers
    simp [operand?, hmarkers] at h
  | _ => cases h

theorem Expr.mem_parts_of_operand? {e d : Expr} (h : e.operand? = some d) : d ∈ e.parts := by
  cases e with
  | call id ty op receiver arguments =>
    simp only [operand?] at h
    split at h
    · exact List.mem_append_right _ (List.mem_of_getElem? h)
    · exact List.mem_append_right _ (List.mem_of_getElem? h)
    · exact List.mem_append_right _ (List.mem_of_getElem? h)
    · exact List.mem_append_left _ (by simp [h])
    · cases h
  | _ => cases h

/-- A call that maps the value of the source with a mapper that a constant holds. -/
inductive Mapper.IsCalled (host : Host) (m : Mapper) (source : Expr) : Expr → Prop
  | mapWith {id i : NodeId} {ty cty : Ty} {w : Value} :
    Native.givenMapper host "MapWith" (some w) = .ok m →
      IsCalled host m source (.call id ty .mapWith none [source, .constant i cty w])
  | map {id i : NodeId} {ty cty : Ty} {w : Value} :
    Native.givenMapper host "Map" (some w) = .ok m →
      IsCalled host m source (.call id ty .map (some (.constant i cty w)) [source])

theorem Mapper.IsCalled.source_mem {host : Host} {m : Mapper} {source e : Expr}
    (h : m.IsCalled host source e) : source ∈ e.parts := by
  cases h <;> simp [Expr.parts]

/-- The final expression of a mapper is one of the fragment between the declared types, with no free
parameter but its own, and it binds no parameter that occurs in the source. -/
structure Mapper.Inlinable (m : Mapper) (F : Forest) (source : Expr) : Prop where
  fn : F.fns m.expression
  first : m.expression.body.FirstOrder
  closed {y : Param} : m.expression.body.Free y → y ∈ m.expression.params
  input : m.expression.paramTys = [m.input]
  output : m.expression.returnTy = m.output
  binds {x : Param} : m.expression.body.Binds x → (Expr.param x).occursIn source = false

/-- The body of a mapper over a source, guarded : the default output for the default input. -/
inductive Mapper.Guarded (m : Mapper) (source : Expr) : Expr → Prop
  | mk {i j : NodeId} {ty bty : Ty} {p : Param} {d result body : Expr} :
    m.expression.params = [p] → p.ty = source.ty →
    m.expression.body.Becomes (.replacing [⟨.param p, source⟩]) body →
    d.HasDefault source.ty → result.HasDefault body.ty →
    Guarded m source (.conditional i ty (.binary j bty .equal source d) result body)

/-- The judgement of a pass over mapped objects : marked calls give way to guarded bodies. -/
def Judgement.mapping (F : Forest) (host : Host) : Judgement where
  enters e := e.markers = []
  puts e e' := ∃ (m : Mapper) (source : Expr),
    m.IsCalled host source e ∧ m.Inlinable F source ∧ m.Guarded source e'
  stands _ := False

/-- What inlining a mapper over an object makes : the guarded body. -/
theorem Expr.inlineOver_guarded {F : Forest} {host : Host} {i : NodeId} {ty : Ty} {w : Value}
    {m : Mapper} {context : String} {cx : BuildContext} {source : Expr}
    (hm : Native.givenMapper host context (some w) = .ok m) (hf : F.fns m.expression)
    (hs : F.nodes source) :
    LeadsTo F (source.inlineOver host (.constant i ty w) true cx) fun G e =>
      G.nodes e ∧ m.Guarded source e := by
  refine heldLambda_leadsTo.bind fun {G g} hFG hg => ?_
  obtain rfl := hg.eq_of_givenMapper hm
  refine (Lambda.inline_leadsTo (hFG.2 _ hf) (hFG.1 _ hs)).bind fun {H body} hGH h => ?_
  obtain ⟨hbody, p, hp, hty, hbecomes⟩ := h
  refine (guarding_leadsTo (hGH.1 _ (hFG.1 _ hs)) hbody).imp fun {K e} _ h => ?_
  obtain ⟨he, i, j, bty, d, result, rfl, hd, hresult⟩ := h
  exact ⟨he, .mk hp hty hbecomes hd.2 hresult.2⟩

/-! ## Transformers -/

/-- An operation that is called in a forest. -/
def Forest.Calls (D : Forest) (op : Operation) : Prop :=
  ∃ id ty receiver arguments, D.nodes (.call id ty op receiver arguments)

namespace ExpanderDesign

/-- What is made for an operation : a transformer of its one marker, or none if it has no marker. -/
inductive Makes (design : ExpanderDesign) (op : Operation) : Option SiteTransformer → Prop
  | none : op.markers = [] → Makes design op none
  | some {marker : Marker} {id : NodeId} {expand : SiteExpansion} : op.markers = [marker] →
    marker.transformer? design.custom design.settings = .ok expand →
    Makes design op (some ⟨id, expand⟩)

/-- What is made depends on the markers alone. -/
theorem Makes.of_markers {design : ExpanderDesign} {op op' : Operation}
    {transformer : Option SiteTransformer} (h : design.Makes op transformer)
    (hmarkers : op.markers = op'.markers) : design.Makes op' transformer := by
  cases h with
  | none hop => exact .none (hmarkers ▸ hop)
  | some hop hexpand => exact .some (hmarkers ▸ hop) hexpand

/-- What the cache holds for the signature of an operation in use was made for an operation like
it. -/
def Caches (design : ExpanderDesign) (ops : Operation → Prop) (cache : TransformerCache) : Prop :=
  ∀ {op : Operation} {transformer : Option SiteTransformer}, ops op →
    cache.lookup op.signature = some transformer → design.Makes op transformer

variable {design : ExpanderDesign} {ops : Operation → Prop} {op : Operation}
  {transformer : Option SiteTransformer} {s s' : Trail × TransformerCache}

/-- What a pass keeps : what the runs in it keep of the trail, such as that no identity is given
back, and that what is cached for the operations in use was made for operations like them. -/
def Kept (design : ExpanderDesign) (ops : Operation → Prop) (I : Trail.Invariant)
    (s : Trail × TransformerCache) : Prop :=
  I.holds s.1 ∧ design.Caches ops s.2

theorem caches_nil : design.Caches ops [] := by
  intro op transformer _ h
  cases h

theorem makeTransformer_upholds (I : Trail.Invariant) :
    Upholds I.holds (design.makeTransformer op)
      fun r => ∀ transformer, r = .ok transformer → design.Makes op transformer := by
  unfold makeTransformer
  split
  · rename_i hop
    refine .pure fun transformer h => ?_
    obtain rfl := Except.ok.inj h
    exact .none hop
  · rename_i marker hop
    split
    · rename_i expand hexpand
      refine Upholds.bind (advances_fresh I)
        (fun id _ => .pure fun transformer h => ?_) nofun
      obtain rfl := Except.ok.inj h
      exact .some hop hexpand
    · exact .throw nofun
  · exact .throw nofun

/-- A run inside a pass leaves the cache alone. -/
theorem cache_eq_of_lift {α : Type} {run : RunM α} {r : Except Fault α}
    (h : outcome (liftM run : PassM α) s = (r, s')) : s'.2 = s.2 := by
  obtain ⟨t, cache⟩ := s
  change ((run t).1, ((run t).2, cache)) = _ at h
  rw [← (Prod.mk.inj h).2]

/-- A run inside a pass upholds there what it upholds by itself. -/
theorem Kept.lift {I : Trail.Invariant} {α : Type} {run : RunM α} {Q : Except Fault α → Prop}
    (h : Upholds I.holds run Q) :
    Upholds (design.Kept ops I) (liftM run : PassM α) Q := by
  intro s hs
  obtain ⟨hnext, hQ⟩ := h s.1 hs.1
  have hcache : (outcome (liftM run : PassM α) s).2.2 = s.2 := cache_eq_of_lift rfl
  exact ⟨⟨hnext, hcache ▸ hs.2⟩, hQ⟩

/-- What is cached for an operation in use was made for it. -/
theorem known_upholds {I : Trail.Invariant} (hop : ops op) :
    Upholds (design.Kept ops I) (PassM.known op.signature)
      fun r => (∀ transformer, r = .ok (some transformer) → design.Makes op transformer) ∧
        ∃ known, r = .ok known :=
  fun _ hs => ⟨hs, fun _ h => hs.2 hop (Except.ok.inj h), _, rfl⟩

/-- What was made for an operation in use may be cached. -/
theorem keep_yields {I : Trail.Invariant}
    (hkeys : ∀ {op op' : Operation}, ops op → ops op' → op.signature = op'.signature →
      op.markers = op'.markers)
    (hop : ops op) (hmakes : design.Makes op transformer) :
    Yields (design.Kept ops I) (PassM.keep op.signature transformer) () := by
  refine fun s hs => ⟨⟨hs.1, fun {op' found} hop' hfound => ?_⟩, rfl⟩
  -- an older entry is found first
  replace hfound : (s.2 ++ [(op.signature, transformer)]).lookup op'.signature = some found :=
    hfound
  rw [List.lookup_append] at hfound
  cases hold : s.2.lookup op'.signature with
  | some known =>
    rw [hold] at hfound
    obtain rfl := Option.some.inj hfound
    exact hs.2 hop' hold
  | none =>
    rw [hold, Option.none_or, List.lookup_cons] at hfound
    split at hfound
    · rename_i hsame
      obtain rfl := Option.some.inj hfound
      exact hmakes.of_markers (hkeys hop hop' (beq_iff_eq.1 hsame).symm)
    · cases hfound

/-- The transformer for an operation is one made for it, and the cache stays as it should. -/
theorem transformerOf_upholds {I : Trail.Invariant}
    (hkeys : ∀ {op op' : Operation}, ops op → ops op' → op.signature = op'.signature →
      op.markers = op'.markers)
    (hop : ops op) :
    Upholds (design.Kept ops I) (design.transformerOf op)
      fun r => ∀ transformer, r = .ok transformer → design.Makes op transformer := by
  refine (known_upholds hop).bind (fun known hknown => ?_) nofun
  obtain ⟨hknown, -⟩ := hknown
  cases known with
  | some known =>
    refine .pure fun transformer h => ?_
    obtain rfl := Except.ok.inj h
    exact hknown known rfl
  | none =>
    refine (Kept.lift (makeTransformer_upholds I)).bind (fun transformer hmade => ?_) nofun
    have hmakes := hmade transformer rfl
    refine Upholds.bind (keep_yields hkeys hop hmakes) (fun _ _ => .pure fun transformer' h => ?_)
      nofun
    obtain rfl := Except.ok.inj h
    exact hmakes

/-- An operation without a marker has no transformer. -/
theorem transformerOf_yields {I : Trail.Invariant}
    (hkeys : ∀ {op op' : Operation}, ops op → ops op' → op.signature = op'.signature →
      op.markers = op'.markers)
    (hop : ops op) (hmarkers : op.markers = []) :
    Yields (design.Kept ops I) (design.transformerOf op) none := by
  refine (known_upholds hop).bind (fun known hknown => ?_) fun _ ⟨_, h⟩ => nomatch h
  obtain ⟨hknown, -⟩ := hknown
  cases known with
  | some known =>
    cases hknown known rfl with
    | none => exact .pure rfl
    | some hop => exact absurd (hop.symm.trans hmarkers) (by simp)
  | none =>
    have hmake : design.makeTransformer op = pure none := by
      unfold makeTransformer
      rw [hmarkers]
    rw [hmake]
    refine Upholds.bind (Kept.lift (Yields.pure (a := none))) (fun transformer h => ?_) nofun
    obtain rfl := Except.ok.inj h
    exact Yields.bind (keep_yields hkeys hop (.none hmarkers)) .pure

/-! ## The pass -/

variable {D F : Forest} {host : Host} {cx : BuildContext}

/-- The pass keeps what it should on a call of an operation in use, if the transformer does. -/
theorem judge_keeps {I : Trail.Invariant}
    (hkeys : ∀ {op op' : Operation}, ops op → ops op' → op.signature = op'.signature →
      op.markers = op'.markers)
    {e : Expr} (hops : e.CallsIn ops)
    (hexpand : ∀ {id ty op receiver arguments made}, e = .call id ty op receiver arguments →
      design.Makes op (some made) →
      Keeps I.holds (made.apply host ⟨e, op, receiver, arguments⟩ cx)) :
    Keeps (design.Kept ops I) ((design.visitor host cx).judge e) := by
  cases e with
  | call id ty op receiver arguments =>
    refine (transformerOf_upholds hkeys (hops op rfl)).bind (fun transformer hmakes => ?_)
      fun _ _ => trivial
    cases transformer with
    | none => exact Keeps.pure
    | some made => exact Keeps.bind (Kept.lift (hexpand rfl (hmakes _ rfl))) fun _ => Keeps.pure
  | _ => exact Keeps.pure

/-- The pass enters a node that carries no marker. -/
theorem judge_yields {I : Trail.Invariant}
    (hkeys : ∀ {op op' : Operation}, ops op → ops op' → op.signature = op'.signature →
      op.markers = op'.markers)
    {e : Expr} (hops : e.CallsIn ops) (hmarkers : e.markers = []) :
    Yields (design.Kept ops I) ((design.visitor host cx).judge e) .enter := by
  cases e with
  | call id ty op receiver arguments =>
    exact (transformerOf_yields hkeys (hops op rfl) hmarkers).bind .pure
  | _ => exact .pure

/-- A pass does what the judgement says, if that enters the nodes without a marker and allows what
the transformers put in the place of the others. -/
theorem visitor_follows_of {J : Judgement} (hDF : D ≤ F)
    (hkeys : ∀ {op op' : Operation}, ops op → ops op' → op.signature = op'.signature →
      op.markers = op'.markers)
    (hops : ∀ e, D.nodes e → e.CallsIn ops) (henters : ∀ e, e.markers = [] → J.enters e)
    (hputs : ∀ {e : Expr} {id : NodeId} {ty : Ty} {op : Operation} {receiver : Option Expr}
      {arguments : List Expr} {made : SiteTransformer}, D.nodes e →
      e = .call id ty op receiver arguments → design.Makes op (some made) →
      LeadsTo F (made.apply host ⟨e, op, receiver, arguments⟩ cx) fun G e' =>
        G.nodes e' ∧ J.puts e e') :
    (design.visitor host cx).Follows (fun s => design.Caches ops s.2) D F J where
  le := hDF
  keeps hI h := cache_eq_of_lift h ▸ hI
  judge {G e verdict s s'} hFG he hG hI h := by
    cases e with
    | call id ty op receiver arguments =>
      obtain ⟨transformer, s₁, htransformer, hrest⟩ := outcome_bind_ok.1 h
      have hI₀ : design.Kept ops (.above s.1.next) s := ⟨Nat.le_refl _, hI⟩
      obtain ⟨⟨hnext, hI₁⟩, hmakes⟩ := transformerOf_upholds hkeys (hops _ he op rfl) s hI₀
      rw [htransformer] at hnext hI₁ hmakes
      replace hmakes := hmakes transformer rfl
      cases transformer with
      | none =>
        cases hmakes with | none hmarkers =>
        obtain ⟨rfl, rfl⟩ := outcome_pure_ok.1 hrest
        exact .intro hI₁ (hG.mono hnext) (henters _ hmarkers)
      | some made =>
        obtain ⟨e', s₂, hexpand, hpure⟩ := outcome_bind_ok.1 hrest
        obtain ⟨rfl, rfl⟩ := outcome_pure_ok.1 hpure
        obtain ⟨-, H, hGH, hH, he', hput⟩ := (hputs he rfl hmakes).made hFG (hG.mono hnext) trivial
          (CarriesTrail.outcome_lift hexpand)
        exact ⟨cache_eq_of_lift hexpand ▸ hI₁, H, hGH, hH, he', hput⟩
    | _ =>
      obtain ⟨rfl, rfl⟩ := outcome_pure_ok.1 h
      exact .intro hI hG (henters _ rfl)

/-- What a transformer puts in the place of a call that maps an object. -/
theorem expand_guarded {m : Mapper} {source e : Expr} {receiver : Option Expr}
    {arguments : List Expr} {id : NodeId} {ty : Ty} {made : SiteTransformer}
    (hguard : design.settings.options.nullPropagation = true) (hf : F.fns m.expression)
    (hs : F.nodes source) (he : e = .call id ty op receiver arguments)
    (hcalled : m.IsCalled host source e) (hmakes : design.Makes op (some made)) :
    LeadsTo F (made.apply host ⟨e, op, receiver, arguments⟩ cx) fun G e' =>
      G.nodes e' ∧ m.Guarded source e' := by
  subst he
  cases hcalled with
  | mapWith hm =>
    cases hmakes with | some hmarkers hexpand =>
    obtain rfl := (List.cons.inj hmarkers).1
    obtain rfl := Except.ok.inj hexpand
    rw [hguard]
    exact Expr.inlineOver_guarded hm hf hs
  | map hm =>
    cases hmakes with | some hmarkers hexpand =>
    obtain rfl := (List.cons.inj hmarkers).1
    obtain rfl := Except.ok.inj hexpand
    rw [hguard]
    exact Expr.inlineOver_guarded hm hf hs

/-- A pass over mapped objects does what the judgement says. -/
theorem visitor_follows (hDF : D ≤ F)
    (hkeys : ∀ {op op' : Operation}, D.Calls op → D.Calls op' →
      op.signature = op'.signature → op = op')
    (hguard : design.settings.options.nullPropagation = true)
    (hcalls : ∀ e, D.nodes e → e.markers ≠ [] →
      ∃ (m : Mapper) (source : Expr), m.IsCalled host source e ∧ m.Inlinable F source) :
    (design.visitor host cx).Follows (fun s => design.Caches D.Calls s.2) D F
      (.mapping F host) := by
  refine visitor_follows_of hDF (fun h h' heq => congrArg _ (hkeys h h' heq)) ?_ (fun _ h => h) ?_
  · intro e he op hop
    cases e <;> cases hop
    exact ⟨_, _, _, _, he⟩
  · intro e id ty op receiver arguments made he hcall hmakes
    have hmarked : e.markers ≠ [] := by
      cases hmakes with | some hmarkers => simp [hcall, Expr.markers, hmarkers]
    obtain ⟨m, source, hcalled, hm⟩ := hcalls e he hmarked
    have hs : F.nodes source := hDF.1 _ (D.part he hcalled.source_mem)
    refine (expand_guarded hguard hm.fn hs hcall hcalled hmakes).imp fun _ h => ?_
    exact ⟨h.1, m, source, hcalled, hm, h.2⟩

/-- What a pass over mapped objects makes of a lambda. -/
theorem expandLambda_becomes (hDF : D ≤ F)
    (hkeys : ∀ {op op' : Operation}, D.Calls op → D.Calls op' →
      op.signature = op'.signature → op = op')
    (hguard : design.settings.options.nullPropagation = true)
    (hcalls : ∀ e, D.nodes e → e.markers ≠ [] →
      ∃ (m : Mapper) (source : Expr), m.IsCalled host source e ∧ m.Inlinable F source)
    (hcache : design.Caches D.Calls s.2) {f f' : Lambda} (hf : D.fns f) (hF : F.Below s.1.next)
    (h : outcome (design.expandLambda host f cx) s = (.ok f', s')) :
    f.Becomes (.mapping F host) f' ∧ design.Caches D.Calls s'.2 := by
  obtain ⟨hcache', G, -, -, -, hbecomes⟩ :=
    (visitor_follows hDF hkeys hguard hcalls).walkFn F.le_refl hf hF hcache h
  exact ⟨hbecomes, hcache'⟩

end ExpanderDesign

end ObjectMapping
