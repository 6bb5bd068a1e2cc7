import ObjectMapping.Proofs.Advancing
import ObjectMapping.Proofs.Expanding
import ObjectMapping.Session.Mapper

/-!
# A mapper does not include itself

Filling a reference fails if its expression calls the reference, wherever the pass comes to the
call (`PlannedMapper.fill_fails_of_includes`). The pass comes to every node but those inside another
marked call, whose transformer gets them as they are, and it takes a call for what the cache says of
its key. `PlannedMapper.fill_unvisited` is a mapper that includes itself in both of these ways.
-/

namespace ObjectMapping

open RunM

/-- The identity of the mapper that a value is or refers to. -/
def Value.mapperId? : Value → Option MapperId
  | .mapper m => some m.id
  | .mapperReference ref => some ref.id
  | _ => none

/-- The call of a mapper that a constant holds or refers to. -/
def Expr.Includes (id : MapperId) (e : Expr) : Prop :=
  ∃ i ty v, e.operand? = some (.constant i ty v) ∧ v.mapperId? = some id

/-! ## Transformers -/

section

variable {host : Host} {cx : BuildContext} {n i : NodeId} {ty : Ty} {v : Value} {id : MapperId}

theorem BuildContext.refuseCurrent_fails (hcx : cx.isBuilding id = true) :
    Fails (fun t : Trail => n ≤ t.next) (cx.refuseCurrent id) := by
  rw [refuseCurrent, if_pos hcx]
  exact .throw ⟨_, rfl⟩

/-- The mapper under construction is not given away. -/
theorem Expr.heldLambda_fails (hv : v.mapperId? = some id) (hcx : cx.isBuilding id = true) :
    Fails (fun t : Trail => n ≤ t.next) ((Expr.constant i ty v).heldLambda host cx) := by
  refine (evaluate_constant_upholds host i ty v (.above n)).bind (fun w hw => ?_) fun fault _ =>
    ⟨fault, rfl⟩
  obtain rfl := hw w rfl
  cases w with
  | mapper m =>
    obtain rfl := Option.some.inj hv
    exact (BuildContext.refuseCurrent_fails hcx).first
  | mapperReference ref =>
    obtain rfl := Option.some.inj hv
    exact (BuildContext.refuseCurrent_fails hcx).first
  | _ => cases hv

theorem Expr.inlineOver_fails {source : Expr} {guarded : Bool} (hv : v.mapperId? = some id)
    (hcx : cx.isBuilding id = true) :
    Fails (fun t : Trail => n ≤ t.next)
      (source.inlineOver host (.constant i ty v) guarded cx) :=
  (heldLambda_fails hv hcx).first

theorem Expr.inlineOverItems_fails {source : Expr} {stem : String} (hv : v.mapperId? = some id)
    (hcx : cx.isBuilding id = true) :
    Fails (fun t : Trail => n ≤ t.next)
      (source.inlineOverItems host (.constant i ty v) stem cx) := by
  unfold inlineOverItems
  split
  · exact .throw ⟨_, rfl⟩
  · exact (heldLambda_fails hv hcx).first

/-- The transformer of a call that includes the mapper under construction fails. -/
theorem ExpanderDesign.expand_fails {design : ExpanderDesign} {op : Operation} {e : Expr}
    {receiver : Option Expr} {arguments : List Expr} {made : SiteTransformer}
    (he : e = .call i ty op receiver arguments) (hincludes : e.Includes id)
    (hcx : cx.isBuilding id = true) (hmakes : design.Makes op (some made)) :
    Fails (fun t : Trail => n ≤ t.next)
      (made.apply host ⟨e, op, receiver, arguments⟩ cx) := by
  obtain ⟨j, cty, v, hoperand, hv⟩ := hincludes
  subst he
  cases hmakes with | some hmarkers hexpand =>
  rename_i marker _ expand
  have argument (h : arguments[1]? = some (.constant j cty v)) (e : Expr) :
      CallSite.argument ⟨e, op, receiver, arguments⟩ 1 = pure (.constant j cty v) := by
    rw [CallSite.argument, h]
  have hsource (e : Expr) : Keeps (fun t : Trail => n ≤ t.next)
      (CallSite.argument ⟨e, op, receiver, arguments⟩ 0) :=
        CallSite.argument_advances _ _ (.above n)
  simp only [Expr.operand?, hmarkers] at hoperand
  cases marker with
  | includeGiven | mapWith =>
    obtain rfl := Except.ok.inj hexpand
    refine Fails.next (hsource _) fun source => ?_
    rw [argument hoperand, pure_bind]
    exact Expr.inlineOver_fails hv hcx
  | mapAllWith =>
    obtain rfl := Except.ok.inj hexpand
    refine Fails.next (hsource _) fun source => ?_
    rw [argument hoperand, pure_bind]
    exact Expr.inlineOverItems_fails hv hcx
  | map =>
    obtain rfl := Except.ok.inj hexpand
    subst hoperand
    exact Fails.next (hsource _) fun source => Expr.inlineOver_fails hv hcx
  | includeResolved | custom => cases hoperand

end

/-! ## The pass -/

namespace ExpanderDesign

variable {design : ExpanderDesign} {ops : Operation → Prop} {host : Host} {cx : BuildContext}
  {n : NodeId} {id : MapperId}

/-- The pass fails on a call that includes the mapper under construction. -/
theorem judge_fails
    (hkeys : ∀ {op op' : Operation}, ops op → ops op' → op.signature = op'.signature →
      op.markers = op'.markers)
    {e : Expr} (hops : e.CallsIn ops) (hincludes : e.Includes id)
    (hcx : cx.isBuilding id = true) :
    Fails (design.Kept ops (.above n)) ((design.visitor host cx).judge e) := by
  cases e with
  | call i ty op receiver arguments =>
    refine (transformerOf_upholds hkeys (hops op rfl)).bind (fun transformer hmakes => ?_)
      fun fault _ => ⟨fault, rfl⟩
    replace hmakes := hmakes transformer rfl
    cases transformer with
    | none =>
      cases hmakes with | none hmarkers =>
      obtain ⟨_, _, _, hoperand, -⟩ := hincludes
      simp [Expr.operand?, hmarkers] at hoperand
    | some made => exact Fails.first (Kept.lift (expand_fails rfl hincludes hcx hmakes))
  | _ => obtain ⟨_, _, _, hoperand, -⟩ := hincludes; cases hoperand

/-- The pass over a lambda fails if it comes to a call that includes the mapper under
construction. -/
theorem expandLambda_fails
    (hkeys : ∀ {op op' : Operation}, ops op → ops op' → op.signature = op'.signature →
      op.markers = op'.markers)
    {f : Lambda} (hops : f.All (Expr.CallsIn ops)) {node : Expr}
    (hlies : node.LiesIn (fun e => e.markers = []) f.body) (hnode : node.Includes id)
    (hcx : cx.isBuilding id = true) :
    Fails (design.Kept ops (.above 0)) (design.expandLambda host f cx) := by
  have hlift {α : Type} {run : RunM α} (h : run.Advances) :
      Keeps (design.Kept ops (.above 0)) (liftM run : PassM α) := Kept.lift (h (.above 0))
  have hjudge (e : Expr) (he : e.CallsIn ops) :
      Keeps (design.Kept ops (.above 0)) ((design.visitor host cx).judge e) :=
    judge_keeps hkeys he fun _ _ _ _ => ⟨Nat.zero_le _, trivial⟩
  have hbody : Fails (design.Kept ops (.above 0)) ((design.visitor host cx).apply f.body) :=
    Visitor.apply_fails hlift hjudge (fun e he hmarkers => judge_yields hkeys he hmarkers)
      (judge_fails hkeys (hlies.all hops.body).head hnode hcx) hops.body hlies
  exact Visitor.fails_of_visited (fun hR => Visitor.walkFn_upholds hlift hR)
    (fun d hd => Visitor.apply_keeps hlift hjudge (hops d hd))
    (List.mem_append_right _ (List.mem_singleton_self _)) hbody

end ExpanderDesign

/-! ## Filling a reference -/

/-- Filling a reference fails and fills nothing if no marked call lies above one that includes the
reference, and operations of one key carry the same markers, those in the cache as well. -/
theorem PlannedMapper.fill_fails_of_includes {hooks : Hooks} {reference : PlannedMapper}
    {ops : Operation → Prop} {f : Lambda} {s : Session} {node : Expr}
    (hplain : reference.pipeline.before = [])
    (hkeys : ∀ {op op' : Operation}, ops op → ops op' → op.signature = op'.signature →
      op.markers = op'.markers)
    (hops : f.All (Expr.CallsIn ops))
    (hcache : ∀ expander, s.expanders[reference.pipeline.expander]? = some expander →
      expander.design.Caches ops expander.cache)
    (hlies : node.LiesIn (fun e => e.markers = []) f.body)
    (hnode : node.Includes reference.ref.id) :
    ∃ fault s', outcome (reference.fill hooks f) s = (.error fault, s') ∧ s'.filled = s.filled := by
  let I (s' : Session) : Prop := s'.filled = s.filled ∧
    ∀ expander, s'.expanders[reference.pipeline.expander]? = some expander →
      expander.design.Caches ops expander.cache
  have hlift {α : Type} (run : RunM α) : Keeps I (liftM run : SessionM α) :=
    SessionM.lift_upholds fun s' hs' => ⟨hs', trivial⟩
  have hpass : Fails I (SessionM.expandLambda hooks reference.pipeline.expander f
      (.ofMapper reference.ref.id f)) := by
    refine SessionM.pass_upholds ⟨_, rfl⟩ fun s' expander hs' hfound r t cache hrun => ?_
    have hexpand : Fails (expander.design.Kept ops (.above 0))
        (expander.design.expandLambda (s'.host hooks) f (.ofMapper reference.ref.id f)) :=
      ExpanderDesign.expandLambda_fails hkeys hops hlies hnode
        (by simp [BuildContext.isBuilding, BuildContext.ofMapper])
    obtain ⟨⟨-, hcache'⟩, hfault⟩ := hexpand (s'.trail, expander.cache)
      ⟨Nat.zero_le _, hs'.2 expander hfound⟩
    rw [hrun] at hcache' hfault
    refine ⟨⟨hs'.1, fun expander' hfound' => ?_⟩, hfault⟩
    obtain rfl : { expander with cache } = expander' := by
      simpa [List.getElem?_set, (List.getElem?_eq_some_iff.1 hfound).1] using hfound'
    exact hcache'
  have hbuild : Fails I (BuiltMapper.build hooks reference.ref.id f reference.pipeline) := by
    refine Fails.next (hlift _) fun input => Fails.first ?_
    rw [Pipeline.apply, hplain, List.foldlM_nil, pure_bind]
    exact hpass.first
  have hfill : Fails I (reference.fill hooks f) := by
    unfold fill
    have hrest : Fails I (do
        let input ← liftM f.mappedTy
        if input ≠ reference.ref.input ∨ f.returnTy ≠ reference.ref.output then
          (reject (.declaredTypes input f.returnTy reference.ref.input reference.ref.output) :
            RunM Unit)
        let built ← BuiltMapper.build hooks reference.ref.id f reference.pipeline
        SessionM.fill reference.ref.id built.mapper
        return built : SessionM BuiltMapper) := by
      refine Fails.next (hlift _) fun input => ?_
      split
      · exact Fails.next (hlift _) fun _ => hbuild.first
      · exact hbuild.first
    refine Fails.next (fun s' hs' => ⟨hs', trivial⟩) fun found => ?_
    split
    · exact Fails.next (hlift _) fun _ => hrest
    · exact hrest
  obtain ⟨⟨hfilled, -⟩, fault, hfault⟩ := hfill s ⟨rfl, hcache⟩
  exact ⟨fault, _, Prod.ext hfault rfl, hfilled⟩

/-- A mapper that includes itself in a projection. -/
theorem PlannedMapper.fill_fails_of_includes_projected :
    let a : Ty := .object "A"
    let ref : MapperReference := ⟨1, a, a⟩
    let x : Param := ⟨0, "x", a⟩
    let items : Expr := .constant 1 (.sequence .list a) (.sequence .list [])
    let operand : Expr := .constant 2 (.mapper a a) (.mapperReference ref)
    let g : Lambda := ⟨4, [x], .call 3 a .includeGiven none [.param x, operand]⟩
    let y : Param := ⟨5, "y", a⟩
    let projected : Expr := .call 7 (.sequence .enumerable a) .enumerableSelect none
      [items, .lambda 6 g]
    let f : Lambda := ⟨9, [y], .construct 8 a []
      [⟨⟨"A", "Q", .sequence .enumerable a⟩, projected⟩]⟩
    let hooks : Hooks := ⟨0, fun _ _ => ⟨[], .value .null⟩, fun _ => none⟩
    let s : Session := { Session.start fun _ _ => .error "none" with
      trail := { next := 10, register := { nextMapper := 2, made := [.ref ref] } } }
    ∃ fault s', outcome (PlannedMapper.fill hooks ⟨ref, {}⟩ f) s = (.error fault, s') ∧
      s'.filled = [] := by
  intro a ref x items operand g y projected f hooks s
  let ops (op : Operation) : Prop := op = .enumerableSelect ∨ op = .includeGiven
  have leaf {e : Expr} (hop : e.operation? = none) (h : e.children = []) :
      e.All (Expr.CallsIn ops) := .mk (by simp [Expr.CallsIn, hop]) (by simp [h])
  have hg : g.body.All (Expr.CallsIn ops) := by
    refine .mk (by simp [Expr.CallsIn, Expr.operation?, ops, g]) fun d hd => ?_
    rcases List.mem_pair.1 hd with rfl | rfl <;> exact leaf rfl rfl
  have hprojected : projected.All (Expr.CallsIn ops) := by
    refine .mk (by simp [Expr.CallsIn, Expr.operation?, ops, projected]) fun d hd => ?_
    rcases List.mem_pair.1 hd with rfl | rfl
    · exact leaf rfl rfl
    · refine .mk (by simp [Expr.CallsIn, Expr.operation?]) fun d hd => ?_
      rcases List.mem_pair.1 hd with rfl | rfl
      · exact leaf rfl rfl
      · exact hg
  have hnode : g.body.Includes ref.id := ⟨2, .mapper a a, .mapperReference ref, rfl, rfl⟩
  have hlies : g.body.LiesIn (fun e => e.markers = []) f.body := by
    have hchild : g.body.LiesIn (fun e => e.markers = []) (.lambda 6 g) :=
      .child rfl (by simp [Expr.children, Lambda.children]) .here
    have hfn : g.body.LiesIn (fun e => e.markers = []) projected :=
      .child rfl (by simp [Expr.children, Expr.parts, projected]) hchild
    exact .child rfl (by simp [Expr.children, Expr.parts, f]) hfn
  have hf : f.All (Expr.CallsIn ops) := by
    intro d hd
    rcases List.mem_pair.1 hd with rfl | rfl
    · exact leaf rfl rfl
    · refine .mk (by simp [Expr.CallsIn, Expr.operation?, f]) fun d hd => ?_
      obtain rfl := List.mem_singleton.1 hd
      exact hprojected
  refine fill_fails_of_includes rfl ?_ hf ?_ hlies hnode
  · rintro op op' (rfl | rfl) (rfl | rfl) h <;> first | rfl | exact absurd h (by decide)
  · intro expander h
    obtain rfl : ⟨⟨{}, fun _ _ => .error "none"⟩, []⟩ = expander := by
      simpa [s, Session.start, ExpanderId.shared] using h
    exact ExpanderDesign.caches_nil

/-- A mapper that includes itself where the pass does not come to the call : one call is taken for
an operation of the same key without markers, which is looked up first, and one is the source of
another marked call. -/
theorem PlannedMapper.fill_unvisited :
    let a : Ty := .object "A"
    let ref : MapperReference := ⟨1, a, a⟩
    let p : Param := ⟨0, "p", a⟩
    let identity : Lambda := ⟨1, [p], .param p⟩
    let m : Mapper := ⟨2, a, a, identity, identity⟩
    let x : Param := ⟨2, "x", a⟩
    let twin : Operation := ⟨Operation.includeGiven.signature, [], none⟩
    let operand : Expr := .constant 3 (.mapper a a) (.mapperReference ref)
    let first : Expr := .call 4 a twin none [.param x, .param x]
    let included : Expr := .call 5 a .includeGiven none [.param x, operand]
    let mapped : Expr := .call 6 a .mapWith none [.param x, operand]
    let outer : Expr := .call 8 a .mapWith none [mapped, .constant 7 (.mapper a a) (.mapper m)]
    let f : Lambda := ⟨10, [x], .construct 9 a []
      [⟨⟨"A", "P", a⟩, first⟩, ⟨⟨"A", "Q", a⟩, included⟩, ⟨⟨"A", "R", a⟩, outer⟩]⟩
    let hooks : Hooks := ⟨0, fun _ _ => ⟨[], .value .null⟩, fun _ => none⟩
    let s : Session := { Session.start fun _ _ => .error "none" with
      trail := { next := 11, register := { nextMapper := 3, made := [.ref ref, .mapper m] } } }
    (∀ node, node = included ∨ node = mapped →
      node.LiesIn (fun _ => True) f.body ∧ node.Includes ref.id) ∧
    ∃ built s', outcome (PlannedMapper.fill hooks ⟨ref, {}⟩ f) s = (.ok built, s') ∧
      s'.filled.lookup ref.id = some built.mapper := by
  intro a ref p identity m x twin operand first included mapped outer f hooks s
  have hmapped : mapped.LiesIn (fun _ => True) outer :=
    .child trivial (by simp [Expr.children, Expr.parts, outer]) .here
  refine ⟨?_, _, _, rfl, rfl⟩
  rintro node (rfl | rfl)
  · exact ⟨.child trivial (by simp [Expr.children, Expr.parts, f]) .here, _, _, _, rfl, rfl⟩
  · exact ⟨.child trivial (by simp [Expr.children, Expr.parts, f]) hmapped, _, _, _, rfl, rfl⟩

end ObjectMapping
