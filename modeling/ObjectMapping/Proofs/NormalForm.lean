import ObjectMapping.Proofs.History

/-!
# The pass reaches a normal form

What a built-in transformer splices in is not looked into, so that a final expression is free of
marked calls only if the mappers that it inlines are, and the sources too. In a run whose builds
inline mappers of the run over sources without marked calls, every final expression is free of them,
and another pass leaves it as it is (`Session.Reached.normal`).
-/

namespace ObjectMapping

open RunM

/-- A node that every pass leaves alone. -/
def Expr.Settled (e : Expr) : Prop :=
  e.markers = [] ∧ e.CallsIn Operation.Ordinary

/-! ## What is spliced in -/

section

variable {g : Lambda} {source e e' : Expr} {J : Judgement}

theorem Expr.markers_eq_of_operation? (h : e'.operation? = e.operation?) :
    e'.markers = e.markers := by
  cases e <;> cases e' <;> simp_all [operation?, markers]

theorem Expr.Rebuilt.operation?_eq (h : e.Rebuilt J e') : e'.operation? = e.operation? := by
  cases h <;> rfl

theorem Expr.Settled.rebuilt (h : e.Settled) (hr : e.Rebuilt J e') : e'.Settled := by
  refine ⟨?_, ?_⟩
  · rw [markers_eq_of_operation? hr.operation?_eq]
    exact h.1
  · unfold CallsIn
    rw [hr.operation?_eq]
    exact h.2

theorem Expr.settled_of_none (h : e.operation? = none) : e.Settled :=
  ⟨markers_of_none h, callsIn_of_none h⟩

theorem Operation.IsSelect.settled {op : Operation} {i : NodeId} {ty : Ty} {receiver : Option Expr}
    {arguments : List Expr} (h : op.IsSelect) : (Expr.call i ty op receiver arguments).Settled := by
  have ordinary : op.markers = [] ∧ op.Ordinary := by
    rcases h with rfl | rfl <;> exact ⟨rfl, .inr ⟨rfl, by decide⟩⟩
  refine ⟨ordinary.1, fun _ hop => ?_⟩
  obtain rfl := Option.some.inj hop
  exact ordinary.2

theorem Lambda.InlinedOver.settled (h : g.InlinedOver source e) (hg : g.All Expr.Settled)
    (hs : source.All Expr.Settled) : e.All Expr.Settled := by
  obtain ⟨p, -, -, hbecomes⟩ := h
  refine hbecomes.all (fun _ h => False.elim h) (fun _ hputs => ?_) (fun h _ hr => h.rebuilt hr)
    hg.body
  obtain ⟨r, hr, -, rfl⟩ := hputs
  obtain rfl := List.mem_singleton.1 hr
  exact hs

theorem Expr.IsDefault.settled {ty : Ty} (h : e.IsDefault ty) : e.All Expr.Settled := by
  obtain ⟨i, rfl | rfl⟩ := h <;> exact .mk (settled_of_none rfl) nofun

theorem Lambda.Expansion.settled (h : g.Expansion source e) (hg : g.All Expr.Settled)
    (hs : source.All Expr.Settled) : e.All Expr.Settled := by
  cases h with
  | plain h => exact h.settled hg hs
  | @guarded i j bty d result body h hd hresult =>
    have test : (Expr.binary j bty .equal source d).All Expr.Settled := by
      refine .mk (Expr.settled_of_none rfl) fun c hc => ?_
      rcases List.mem_pair.1 hc with rfl | rfl
      · exact hs
      · exact hd.settled
    refine .mk (Expr.settled_of_none rfl) fun c hc => ?_
    rcases List.mem_cons.1 hc with rfl | hc
    · exact test
    · rcases List.mem_pair.1 hc with rfl | rfl
      · exact hresult.settled
      · exact h.settled hg hs

theorem Expr.settled_of_fn {f : Lambda} (hfn : e.fn? = some f) (hf : f.All Expr.Settled) :
    e.All Expr.Settled := by
  cases e <;> cases hfn <;> exact .mk (settled_of_none rfl) hf

theorem Lambda.Projection.settled (h : g.Projection source e) (hg : g.All Expr.Settled)
    (hs : source.All Expr.Settled) : e.All Expr.Settled := by
  cases h with
  | @mk i kind element op lambda f q hty hparams hinlined hop hfn =>
    have param (p : Param) : (Expr.param p).All Expr.Settled :=
      .mk (Expr.settled_of_none rfl) nofun
    have hf : f.All Expr.Settled := fun c hc => by
      rcases List.mem_append.1 hc with hc | hc
      · obtain ⟨p, -, rfl⟩ := List.mem_map.1 hc
        exact param p
      · obtain rfl := List.mem_singleton.1 hc
        exact hinlined.settled hg (param q)
    refine .mk hop.settled fun c hc => ?_
    rcases List.mem_pair.1 hc with rfl | rfl
    · exact hs
    · exact Expr.settled_of_fn hfn hf

end

/-! ## Passes over settled trees -/

/-- Another pass has nothing to do. -/
theorem ExpanderDesign.expandLambda_yields {design : ExpanderDesign} {host : Host}
    {cx : BuildContext} {f : Lambda} {n : NodeId} (hf : f.All Expr.Settled) :
    Yields (design.Kept Operation.Ordinary (.above n)) (design.expandLambda host f cx) f := by
  classical
  have hv (e : Expr) (he : decide (¬ e.Settled) = false) :
      Yields (design.Kept Operation.Ordinary (.above n)) ((design.visitor host cx).judge e)
        .enter := by
    have he : e.Settled := by simpa using he
    exact judge_yields Operation.Ordinary.markers_eq he.2 he.1
  have unhit {e : Expr} (he : e.All Expr.Settled) :
      e.outermost (fun e => decide (¬ e.Settled)) = [] :=
    Expr.outermost_eq_nil_of (P := fun e => e.All Expr.Settled) (fun h => by simpa using h.head)
      (fun h hd => h.part hd) (fun h hf => ⟨fun _ hp => (h.fn hf).param hp, (h.fn hf).body⟩) he
  have hbody := Visitor.apply_yields_of_walk hv (Visitor.walk_yields hv) (unhit hf.body)
  exact Visitor.walkFn_yields hv hbody fun p hp => by simpa using (hf.param hp).head

/-! ## Runs -/

/-- A value that a call of a run may take its mapper from : a mapper of the run, or a reference. -/
inductive Value.Maps (h : History) : Value → Prop
  | mapper {m : Mapper} : m ∈ h.mappers → Value.Maps h (.mapper m)
  | reference (ref : MapperReference) : Value.Maps h (.mapperReference ref)

/-- A node of a run whose marked calls are built in, do not stand in one another, and take mappers
of the run. -/
structure Expr.Flat (h : History) (e : Expr) : Prop where
  calls : e.CallsIn Operation.Ordinary
  inner : e.markers ≠ [] → ∀ d ∈ e.parts, d.All fun d => d.markers = []
  operand {d : Expr} : e.operand? = some d → ∃ i ty v, d = .constant i ty v ∧ v.Maps h

/-- The resolvers answer only with mappers of the run, and references. -/
def History.Answers (h : History) (host : Host) (resolvers : List Resolver) : Prop :=
  ∀ resolver ∈ resolvers, ∀ (request : MapperRequest) (m : Mapper),
    resolver.Answers host request (.mapper m) → m ∈ h.mappers

theorem History.answers_nil {h : History} {host : Host} : h.Answers host [] := by
  simp [Answers]

/-- Lambdas are built whose marked calls take mappers of the run, over sources without marked
calls. -/
def Admission.flat : Admission := fun h host design f =>
  f.All (Expr.Flat h) ∧ h.Answers host design.settings.resolvers

namespace Session

variable {h : History} {hooks : Hooks} {s : Session} {design : ExpanderDesign} {f : Lambda}

theorem Sound.mem_of_holds (hs : s.Sound h) {v : Value} {g : Lambda} (hv : v.Maps h)
    (hg : v.Holds (s.host hooks) g) : ∃ m ∈ h.mappers, g = m.expression := by
  cases hv with
  | mapper hm =>
    cases hg
    exact ⟨_, hm, rfl⟩
  | reference ref =>
    cases hg with
    | reference hfilled => exact ⟨_, (hs.filled_mem hfilled).1, rfl⟩

/-- Every marked call takes the final expression of a mapper of the run. -/
theorem Sound.mem_of_takes (hs : s.Sound h) {e : Expr} {g : Lambda} {resolvers : List Resolver}
    (he : e.Flat h) (hresolvers : h.Answers (s.host hooks) resolvers)
    (hg : e.Takes (s.host hooks) resolvers g) : ∃ m ∈ h.mappers, g = m.expression := by
  cases hg with
  | held ho hg =>
    obtain ⟨_, _, _, hd, hv⟩ := he.operand ho
    cases hd
    exact hs.mem_of_holds hv hg
  | @found op source resolver handle m _ _ _ hresolver hanswer hm =>
    refine ⟨m, ?_, rfl⟩
    cases handle with
    | mapper m' =>
      obtain rfl := Option.some.inj hm
      exact hresolvers resolver hresolver _ _ hanswer
    | ref ref => exact (hs.filled_mem hm).1

theorem Sound.operable_of_flat (hs : s.Sound h)
    (hf : Admission.flat h (s.host hooks) design f) :
    f.All (design.Operable (s.host hooks) h.lambdas) := by
  refine fun d hd => (hf.1 d hd).imp fun e he => ⟨he.calls, fun ho => ?_, fun hg => ?_⟩
  · obtain ⟨i, ty, v, heq, -⟩ := he.operand ho
    exact ⟨i, ty, v, heq⟩
  · obtain ⟨m, hm, rfl⟩ := hs.mem_of_takes he hf.2 hg
    exact hs.expression hm

/-- What a build makes is settled, if the mappers of the run are. -/
theorem Sound.settled_of_becomes (hs : s.Sound h)
    (hsettled : ∀ m ∈ h.mappers, m.expression.All Expr.Settled)
    (hf : Admission.flat h (s.host hooks) design f) {f' : Lambda}
    (hbecomes : f.Becomes (.expanding (s.host hooks) design.settings.resolvers) f') :
    f'.All Expr.Settled := by
  intro d' hd'
  obtain ⟨d, hd, hd'⟩ := forall₂_mem_right
    (Lambda.children_becomes hbecomes.params hbecomes.body) hd'
  refine hd'.all (fun _ h => False.elim h) (fun {e e'} he hputs => ?_) (fun he henters hr => ?_)
    (hf.1 d hd)
  · obtain ⟨g, source, hsource, htakes, hmade⟩ := hputs
    obtain ⟨m, hm, rfl⟩ := hs.mem_of_takes he.head hf.2 htakes
    have hpart : source ∈ e.parts := Expr.mem_parts_of_source? hsource
    have hmarked : e.markers ≠ [] := by
      rcases hmade with ⟨h, -⟩ | ⟨h, -⟩
      · exact h
      · simp [h]
    have hs : source.All Expr.Settled :=
      ((he.part hpart).and (he.head.inner hmarked source hpart)).imp fun _ h => ⟨h.2, h.1.calls⟩
    rcases hmade with ⟨-, -, h⟩ | ⟨-, h⟩
    · exact h.settled (hsettled m hm) hs
    · exact h.settled (hsettled m hm) hs
  · exact Expr.Settled.rebuilt ⟨henters, he.calls⟩ hr

theorem Reached.settled (hr : s.Reached .flat h) :
    ∀ m ∈ h.mappers, m.expression.All Expr.Settled := by
  induction hr with
  | start => nofun
  | write _ _ _ _ ih => exact ih
  | addExpander _ _ ih => exact ih
  | refer _ _ ih => exact ih
  | failure _ _ _ _ _ ih => exact ih
  | build hr hexpander hf hadmitted hb ih =>
    have hs := hr.sound fun hs hf => hs.operable_of_flat hf
    obtain ⟨⟨-, -, hbecomes⟩, -⟩ := hb.becomes hs hexpander hf (hs.operable_of_flat hadmitted)
    intro m hm
    rcases List.mem_cons.1 hm with rfl | hm
    · exact hs.settled_of_becomes ih hadmitted hbecomes
    · exact ih m hm

/-- The final expression of every mapper that is built has no marked call, and another pass over it
gives back the lambda itself, whatever the expander and the context. -/
theorem Reached.normal (hr : s.Reached .flat h) {m : Mapper} (hm : m ∈ h.mappers) :
    (m.expression.All fun e => e.markers = []) ∧
      ∀ (hooks : Hooks) (cx : BuildContext) (id : ExpanderId), id < s.expanders.length →
        ∃ s', outcome (SessionM.expandLambda hooks id m.expression cx) s =
          (.ok m.expression, s') := by
  have hsettled := hr.settled m hm
  refine ⟨fun d hd => (hsettled d hd).imp fun _ h => h.1, fun hooks cx id hid => ?_⟩
  have hs := hr.sound fun hs hf => hs.operable_of_flat hf
  have hexpander : s.expanders[id]? = some s.expanders[id] := List.getElem?_eq_getElem hid
  have hyields : Yields (s.expanders[id].design.Kept Operation.Ordinary (.above s.trail.next))
      (s.expanders[id].design.expandLambda (s.host hooks) m.expression cx) m.expression :=
    ExpanderDesign.expandLambda_yields hsettled
  have hpass := (hyields (s.trail, s.expanders[id].cache)
    ⟨Nat.le_refl _, hs.caches id _ hexpander⟩).2
  exact ⟨_, outcome_expandLambda hexpander (Prod.ext hpass rfl)⟩

/-- A run that fills a reference with the identity and then builds a mapper that includes it. -/
theorem Reached.normal_included :
    ∃ (h : History) (s : Session) (m : Mapper), s.Reached .flat h ∧ m ∈ h.mappers ∧
      m.given.body.markers = [.includeGiven] ∧ (m.expression.All fun e => e.markers = []) ∧
      ∀ (hooks : Hooks) (cx : BuildContext) (id : ExpanderId), id < s.expanders.length →
        ∃ s', outcome (SessionM.expandLambda hooks id m.expression cx) s =
          (.ok m.expression, s') := by
  let ref : MapperReference := ⟨1, .int, .int⟩
  let x : Param := ⟨0, "x", .int⟩
  let y : Param := ⟨2, "y", .int⟩
  let inner : Lambda := ⟨1, [x], .param x⟩
  let operand : Expr := .constant 3 (.mapper .int .int) (.mapperReference ref)
  let call : Expr := .call 4 .int .includeGiven none [.param y, operand]
  let outer : Lambda := ⟨5, [y], call⟩
  let hooks : Hooks := ⟨0, fun _ _ => ⟨[], .value .null⟩, fun _ => none⟩
  let F : Forest := .ofLists [.param x, .param y, operand, call] [inner, outer] (by decide)
    (by decide) (by simp [Expr.parts, call, operand]) (by simp [Expr.fn?, call, operand])
    (by simp [inner, outer]) (by simp [inner, outer])
  have leaf {h : History} {e : Expr} (hop : e.operation? = none) (hchildren : e.children = []) :
      e.All (Expr.Flat h) := by
    have hmarkers := Expr.markers_of_none hop
    exact .leaf ⟨Expr.callsIn_of_none hop, (absurd hmarkers ·),
      fun hd => absurd hmarkers (Expr.markers_ne_of_operand? hd)⟩ hchildren
  have hcall {h : History} : call.All (Expr.Flat h) := by
    refine .mk ⟨fun op hop => ?_, fun _ d hd => ?_, fun hd => ?_⟩ fun d hd => ?_
    · obtain rfl := Option.some.inj hop
      exact .inl (by decide)
    · rcases List.mem_pair.1 hd with rfl | rfl <;> exact .leaf rfl rfl
    · obtain rfl := Option.some.inj hd
      exact ⟨3, _, _, rfl, .reference ref⟩
    · rcases List.mem_pair.1 hd with rfl | rfl <;> exact leaf rfl rfl
  let m : Mapper := ⟨1, .int, .int, inner, inner⟩
  let included : Mapper := ⟨2, .int, .int, outer, ⟨8, [y], .param y⟩⟩
  let custom : CustomTransformers := fun _ _ => .error "none"
  let register : Register := { nextMapper := 2, made := [.ref ref] }
  let written : Session :=
    { Session.start custom with trail := { next := 6, register := register } }
  let filled : Session := { written with filled := [(1, m)] }
  let cache : TransformerCache :=
    [(Operation.includeGiven.signature, some ⟨6, CallSite.inlineGiven false⟩)]
  let made : Session :=
    { filled with
      trail := { next := 9, register := { nextMapper := 3, made := [.ref ref, .mapper included] } }
      expanders := [⟨⟨{}, custom⟩, cache⟩] }
  have hrefers : outcome (PlannedMapper.make .int .int {}) (.start custom) =
    (.ok ⟨ref, {}⟩, { Session.start custom with trail := { register := register } }) := rfl
  have hfns : ∀ f ∈ [inner, outer] ++ [], F.fns f := by simp [F, Forest.ofLists]
  have hwritten : written.Reached .flat ⟨[inner, outer], [], [ref]⟩ :=
    .write (.refer (.start custom) hrefers) hfns (Forest.below_ofLists (by decide) (by decide))
      (.work (Nat.zero_le _) rfl rfl)
  have hfills : written.Builds ⟨[inner, outer], [], [ref]⟩ hooks 0 inner (.ok ⟨m, {}⟩) filled :=
    .fill (List.mem_singleton_self ref) rfl
  have hfilled : filled.Reached .flat ⟨[inner, inner, outer], [m], [ref]⟩ := by
    have hexpander : written.expanders[0]? = some ⟨⟨{}, custom⟩, []⟩ := rfl
    refine .build hwritten hexpander (by simp) ⟨fun d hd => ?_, History.answers_nil⟩ hfills
    rcases List.mem_pair.1 hd with rfl | rfl <;> exact leaf rfl rfl
  have hmakes : filled.Builds ⟨[inner, inner, outer], [m], [ref]⟩ hooks 0 outer
    (.ok ⟨included, {}⟩) made := .make rfl
  have hmade : made.Reached .flat
      ⟨[included.expression, inner, inner, outer], [included, m], [ref]⟩ := by
    have hexpander : filled.expanders[0]? = some ⟨⟨{}, custom⟩, []⟩ := rfl
    refine .build hfilled hexpander (by simp) ⟨fun d hd => ?_, History.answers_nil⟩ hmakes
    rcases List.mem_pair.1 hd with rfl | rfl
    · exact leaf rfl rfl
    · exact hcall
  exact ⟨_, made, included, hmade, List.mem_cons_self, rfl, hmade.normal List.mem_cons_self⟩

end Session

end ObjectMapping
