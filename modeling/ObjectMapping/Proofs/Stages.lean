import ObjectMapping.Proofs.Querying
import ObjectMapping.Proofs.Staging

/-!
# Queries and their stages

A query over values that is projected through mappers keeps an expression, which is evaluated when
the query is executed. The values can also be taken through the compiled expressions of the mappers,
one stage after the other (`Mapper.inTurn`). `DeferredQuery.execute_chain` is the main statement :
the two come to the same items, or to the same error, in the same order.

The query prepares the code of each stage for itself, so that functions of one mapper that stands
twice in the chain are not equal where the compiled expression makes equal ones
(`DeferredQuery.execute_chain_ne`). The statement is about chains in which a mapper that makes
functions stands once.
-/

namespace ObjectMapping

open RunM

/-! ## Stages in turn -/

namespace Mapper

/-- Runs every stage on all items, in their order, before the next one. -/
def inTurn (run : Mapper → Value → RunM Value) : List Mapper → List Value → RunM (List Value)
  | [], items => pure items
  | m :: ms, items => do inTurn run ms (← items.mapM (run m))

/-- The value of the compiled expression on an item. -/
def runOn (host : Host) (m : Mapper) (v : Value) : RunM Value :=
  m.prepared.call host [v]

/-- Maps the items of a sequence with every mapper in turn. -/
def mapItemsInTurn (host : Host) (ms : List Mapper) (v : Value) : RunM Value :=
  ms.foldlM (fun v m => m.mapItems host v.parts) v

/-- No item that enters a stage is the default value of the input type of its mapper. -/
def NoDefaults (host : Host) : List Mapper → List Value → Trail → Prop
  | [], _, _ => True
  | m :: ms, items, t => (∀ v ∈ items, v.equal (.defaultOf m.input) = false) ∧
    ∀ items' t', outcome (items.mapM (m.runOn host)) t = (.ok items', t') →
      NoDefaults host ms items' t'

end Mapper

/-- A query over values that is projected through mappers. -/
def DeferredQuery.chain (element : Ty) (items : List Value) (ms : List Mapper) :
    RunM DeferredQuery := do
  ms.foldlM mapWith (← ofValues element items)

section

variable {host : Host} {ms : List Mapper} {m : Mapper} {items : List Value} {t : Trail}

theorem Mapper.inTurn_append (run : Mapper → Value → RunM Value) (ms : List Mapper) (m : Mapper)
    (items : List Value) :
    inTurn run (ms ++ [m]) items = inTurn run ms items >>= fun vs => vs.mapM (run m) := by
  induction ms generalizing items with
  | nil => simp [inTurn]
  | cons n ms ih => simp [inTurn, ih]

/-- There are as many items after the stages as before. -/
theorem Mapper.inTurn_ends_length (run : Mapper → Value → RunM Value) (ms : List Mapper)
    (items : List Value) : Ends (inTurn run ms items) fun vs => vs.length = items.length := by
  induction ms generalizing items with
  | nil => exact .pure rfl
  | cons m ms ih =>
    exact (ends_mapM_length _ _).bind fun vs hvs => (ih vs).imp fun ws hws => hws.trans hvs

/-- A mapper runs its compiled expression on a value that is not the default one. -/
theorem Mapper.map_eq_runOn {v : Value} (h : v.equal (.defaultOf m.input) = false) :
    m.map host v = m.runOn host v := by
  simp [map, mapBy, runOn, h]

theorem Mapper.NoDefaults.cons {items' : List Value} {t' : Trail}
    (hdefault : ∀ v ∈ items, v.equal (.defaultOf m.input) = false)
    (hrun : outcome (items.mapM (m.runOn host)) t = (.ok items', t'))
    (hrest : NoDefaults host ms items' t') : NoDefaults host (m :: ms) items t := by
  refine ⟨hdefault, fun _ _ h => ?_⟩
  rw [hrun] at h
  cases h
  exact hrest

/-- Where no default value enters a stage, mapping the items of a sequence is running the stages. -/
theorem Mapper.outcome_mapItemsInTurn (h : NoDefaults host ms items t) (kind : SequenceKind) :
    outcome (Value.parts <$> mapItemsInTurn host ms (.sequence kind items)) t =
      outcome (inTurn (runOn host) ms items) t := by
  induction ms generalizing items kind t with
  | nil => rfl
  | cons m ms ih =>
    obtain ⟨hdefault, hrest⟩ := h
    have hmap : items.mapM (m.map host) = items.mapM (m.runOn host) :=
      mapM_congr_of_mem fun v hv => map_eq_runOn (hdefault v hv)
    have hstage : Value.parts <$> mapItemsInTurn host (m :: ms) (.sequence kind items) =
        items.mapM (m.runOn host) >>= fun vs =>
          Value.parts <$> mapItemsInTurn host ms (.sequence .enumerable vs) := by
      simp [mapItemsInTurn, mapItems, Value.parts, hmap]
    rw [hstage, inTurn]
    rcases hrun : outcome (items.mapM (m.runOn host)) t with ⟨fault | vs, t'⟩
    · rw [outcome_bind_of_error hrun, outcome_bind_of_error hrun]
    · rw [outcome_bind_of_ok hrun, outcome_bind_of_ok hrun]
      exact ih (hrest vs t' hrun) .enumerable

end

/-! ## The expression of a query -/

/-- The expression of a query over values, projected through mappers, the last one first. -/
inductive Expr.Chain (element : Ty) (items : List Value) : List Mapper → Expr → Prop
  | values (id : NodeId) : Chain element items []
    (.constant id (.sequence .queryable element) (.sequence .queryable items))
  | project {ms : List Mapper} {m : Mapper} {source : Expr} (i j : NodeId) :
    Chain element items ms source → Chain element items (m :: ms)
      (.call i (.sequence .queryable m.expression.returnTy) .queryableSelect none
        [source, .quote j m.expression])

section

variable {element : Ty} {items : List Value} {ms : List Mapper} {e : Expr}

theorem Expr.Chain.isQuery (h : e.Chain element items ms) : e.ty.queryItemTy?.isSome = true := by
  cases h <;> rfl

theorem Expr.Chain.hasItems (h : e.Chain element items ms) : e.ty.itemTy?.isSome = true := by
  cases h <;> rfl

namespace DeferredQuery

variable {query : DeferredQuery}

theorem outcome_foldlM_mapWith {ns : List Mapper} (h : query.expression.Chain element items ns)
    (ms : List Mapper) (t : Trail) :
    ∃ query' t', outcome (ms.foldlM mapWith query) t = (.ok query', t') ∧ t.next ≤ t'.next ∧
      query'.expression.Chain element items (ms.reverse ++ ns) := by
  induction ms generalizing ns query t with
  | nil => exact ⟨query, t, rfl, Nat.le_refl _, h⟩
  | cons m ms ih =>
    obtain ⟨query₁, t₁, hwith, hnext, i, j, his⟩ := query.outcome_mapWith m t h.hasItems
    rw [if_pos h.isQuery] at his
    have h₁ : query₁.expression.Chain element items (m :: ns) := his ▸ .project i j h
    obtain ⟨query', t', hrun, hnext', hchain⟩ := ih h₁ t₁
    refine ⟨query', t', ?_, Nat.le_trans hnext hnext', by simpa using hchain⟩
    rw [List.foldlM_cons, outcome_bind_of_ok hwith, hrun]

/-- A query over values can be projected through any mappers. -/
theorem outcome_chain (element : Ty) (items : List Value) (ms : List Mapper) (t : Trail) :
    ∃ query t', outcome (chain element items ms) t = (.ok query, t') ∧ t.next ≤ t'.next ∧
      query.expression.Chain element items ms.reverse := by
  let source : DeferredQuery :=
    ⟨.constant t.next (.sequence .queryable element) (.sequence .queryable items)⟩
  have hsource : source.expression.Chain element items [] := .values t.next
  obtain ⟨query, t', hrun, hnext, hchain⟩ :=
    outcome_foldlM_mapWith hsource ms { t with next := t.next + 1 }
  exact ⟨query, t', hrun, Nat.le_of_succ_le hnext, by simpa using hchain⟩

end DeferredQuery

end

/-! ## The run of a query -/

section

variable {σ : Placement} {C : Expr → Prop} {host : Host} {ρ : Pairing} {s : Site} {element : Ty}
  {items vs : List Value} {ms : List Mapper} {e : Expr} {t : Trail}

/-- The function that a stage calls is one like the compiled expression of the mapper, wherever it
stands if the mapper makes no functions. -/
theorem Mapper.stage_akin {m : Mapper} {quoted : Bool} (hm : C m.expression.body)
    (hs : m.MakesFunctions → σ.rel s ⟨.mapper m.id, []⟩) :
    Function.Akin σ C ⟨m.expression, [], s, quoted⟩ m.prepared where
  lambda := rfl
  code := hm
  captures _ _ := .none
  stands := (Classical.em m.MakesFunctions).imp (fun h => σ.child (hs h) 0) not_not.1

/-- The evaluation of the expression of a query goes in step with its stages, if the places of the
code that makes functions answer to each other. -/
theorem Expr.Chain.evalIn_inTurn (hhost : host.Impartial σ C) (hfills : host.Fills σ C)
    (hσ : σ.Covers C) (hitems : ∀ v ∈ items, v.Matched σ C v)
    (hcode : ∀ m ∈ ms, C m.expression.body) (h : e.Chain element items ms)
    (hstages : ∀ p m, s.Stage ms p m → m.MakesFunctions → σ.rel p ⟨.mapper m.id, []⟩) :
    ObjectMapping.InStep Together ρ (e.evalIn host (Function.call host) [] s)
      (Mapper.inTurn (Mapper.runOn host) ms.reverse items)
      fun _ v vs => ∃ ws, v = .sequence .queryable ws ∧ List.Forall₂ (Value.Matched σ C) ws vs := by
  induction h generalizing s ρ with
  | values id => exact .pure fun _ => ⟨items, rfl, List.forall₂_same.2 hitems⟩
  | @project ms m source i j h ih =>
    -- the last stage is the outermost call, and all stages before it are its source
    have hfn : (Expr.quote j m.expression).fn? = some m.expression := rfl
    obtain ⟨quoted, hvalue⟩ := evalIn_select i _ source (.inr rfl) hfn
    rw [hvalue, List.reverse_cons, Mapper.inTurn_append]
    refine .bind (ih (fun n hn => hcode n (by simp [hn])) fun p n hn => hstages p n (.inr hn))
      fun {_ v vs} _ hv => ?_
    obtain ⟨ws, rfl, hws⟩ := hv
    have hakin : Function.Akin σ C ⟨m.expression, [], s.projection, quoted⟩ m.prepared :=
      Mapper.stage_akin (hcode m (by simp)) (hstages _ m (.inl ⟨rfl, rfl⟩))
    rw [Native.project_sequence, ← bind_pure (vs.mapM (m.runOn host))]
    refine .bind (.mapM_matched (fun hvw => ?_) hws) fun _ hall => .pure fun _ => ⟨_, rfl, hall⟩
    exact Function.call_matched hhost hfills hσ hakin (.cons hvw .nil)

namespace DeferredQuery

/-- What a query yields answers to the items of its stages : it is a queryable sequence of `n`
items, and they are the same but for the places of the functions inside them. -/
structure Answers (σ : Placement) (C : Expr → Prop) (n : Nat) (r : SequenceKind × List Value)
    (vs : List Value) : Prop where
  kind : r.1 = .queryable
  length : r.2.length = n
  items : List.Forall₂ (fun w v => w.Matched σ C v ∧ (w.Over .functionless → w = v)) r.2 vs

/-- A query by the expression of a chain yields what the stages yield, from where it has taken the
identity of its run. -/
theorem execute_endsLike {query : DeferredQuery} (hhost : host.Impartial σ C)
    (hfills : host.Fills σ C) (hσ : σ.Covers C) (hitems : ∀ v ∈ items, v.Matched σ C v)
    (hcode : ∀ m ∈ ms, C m.expression.body) (h : query.expression.Chain element items ms.reverse)
    (hstages : ∀ p m, Site.Stage ⟨.run t.next, []⟩ ms.reverse p m → m.MakesFunctions →
      σ.rel p ⟨.mapper m.id, []⟩) :
    EndsLike (Answers σ C items.length) (outcome (query.execute host) t)
      (outcome (Mapper.inTurn (Mapper.runOn host) ms items) { t with next := t.next + 1 }) := by
  have hrun := h.evalIn_inTurn (ρ := .same) hhost hfills hσ hitems
    (fun m hm => hcode m (List.mem_reverse.1 hm)) hstages
  rw [List.reverse_reverse] at hrun
  have hlength := Mapper.inTurn_ends_length (Mapper.runOn host) ms items
  have hended : EndsLike (fun r vs => r.1 = .queryable ∧ List.Forall₂ (Value.Matched σ C) r.2 vs)
      (outcome (query.execute host) t)
      (outcome (Mapper.inTurn (Mapper.runOn host) ms items) { t with next := t.next + 1 }) := by
    rw [execute, Expr.evaluate, bind_assoc, outcome_bind_of_ok (outcome_fresh t),
      ← bind_pure (Mapper.inTurn (Mapper.runOn host) ms items)]
    refine InStep.endsLike (.bind hrun fun {_ v vs} _ hv => ?_) _
    obtain ⟨ws, rfl, hws⟩ := hv
    exact .pure fun _ => ⟨rfl, hws⟩
  refine hended.imp_of_ends hlength fun r vs h hlen => ?_
  obtain ⟨hkind, hall⟩ := h
  exact ⟨hkind, hall.length_eq.trans hlen, hall.imp fun w v hwv => ⟨hwv, hwv.eq_of_functionless⟩⟩

/-- Executing a query over values that is projected through mappers is running their compiled
expressions on the values, stage after stage. Where no default value enters a stage, it is mapping
the values with every mapper in turn. -/
theorem execute_chain (element : Ty) (items : List Value) (ms : List Mapper) (host : Host)
    (t : Trail) (honce : Mapper.StandOnce ms) (hitems : ∀ v ∈ items, v.Over (.apart ms t.next))
    (hcode : ∀ m ∈ ms, m.expression.body.Over (.apart ms t.next))
    (hfilled : ∀ id m, host.filled id = some m → (Value.mapper m).Over (.apart ms t.next))
    (hhost : ∀ k, t.next ≤ k →
      host.Impartial (.staging ⟨.run k, []⟩ honce) (Expr.Over (.apart ms t.next))) :
    ∃ query t₀, outcome (chain element items ms) t = (.ok query, t₀) ∧
      let t₁ := { t₀ with next := t₀.next + 1 }
      let Alike := Answers (.staging ⟨.run t₀.next, []⟩ honce) (Expr.Over (.apart ms t.next))
        items.length
      EndsLike Alike (outcome (query.execute host) t₀)
        (outcome (Mapper.inTurn (Mapper.runOn host) ms items) t₁) ∧
      (Mapper.NoDefaults host ms items t₁ → ∀ kind,
        EndsLike Alike (outcome (query.execute host) t₀)
          (outcome (Value.parts <$> Mapper.mapItemsInTurn host ms (.sequence kind items)) t₁)) := by
  obtain ⟨query, t₀, hrun, hnext, hchain⟩ := outcome_chain element items ms t
  have hended := execute_endsLike (hhost t₀.next hnext)
    (fun hm => (hfilled _ _ hm).staged honce hnext) (Placement.covers_staging honce hnext)
    (fun v hv => (hitems v hv).staged honce hnext) hcode hchain
    fun p m hp hm => Placement.staging_stage honce hp hm
  refine ⟨query, t₀, hrun, hended, fun hdefault kind => ?_⟩
  rw [Mapper.outcome_mapItemsInTurn hdefault]
  exact hended

/-- A chain with a mapper that stands twice, and one that makes functions. -/
theorem execute_chain_twice :
    let x : Param := ⟨0, "x", .int⟩
    let y : Param := ⟨1, "y", .int⟩
    let doubled : Lambda := ⟨3, [x], .binary 2 .int .add (.param x) (.param x)⟩
    let kept : Lambda := ⟨6, [x], .lambda 4 ⟨5, [y], .param x⟩⟩
    let m : Mapper := ⟨1, .int, .int, doubled, doubled⟩
    let n : Mapper := ⟨2, .int, .function [.int] .int, kept, kept⟩
    let items : List Value := [.int 1, .int 2]
    ∃ (honce : Mapper.StandOnce [m, m, n]) (query : DeferredQuery) (t : Trail),
      outcome (chain .int items [m, m, n]) { next := 7 } = (.ok query, t) ∧
      EndsLike (Answers (.staging ⟨.run t.next, []⟩ honce) (Expr.Over (.apart [m, m, n] 7)) 2)
        (outcome (query.execute (.bare 1)) t)
        (outcome (Value.parts <$> Mapper.mapItemsInTurn (.bare 1) [m, m, n] (.sequence .list items))
          { t with next := t.next + 1 }) := by
  intro x y doubled kept m n items
  have hfirst : m.expression.body.FirstOrder :=
    .node rfl (by simpa [m, doubled, Expr.parts] using .leaf rfl rfl)
  have hm : ¬ m.MakesFunctions := not_not_intro hfirst
  have honce : Mapper.StandOnce [m, m, n] := by
    simp [Mapper.StandOnce, hm, m, n]
  have hitems : ∀ v ∈ items, v.Over (.apart [m, m, n] 7) := fun v hv =>
    Value.over_of_isPlain (by rcases List.mem_pair.1 hv with rfl | rfl <;> rfl)
  have hdoubled {S : Supply} : doubled.body.Over S :=
    .mk (by simp [doubled, Expr.value?])
      (by simpa [doubled, Expr.parts] using Expr.over_param (S := S) x)
      (by simp [doubled, Expr.fn?])
  have hkept {S : Supply} : kept.body.Over S := Expr.over_lambda.2 (Expr.over_param x)
  have hcode : ∀ k ∈ [m, m, n], k.expression.body.Over (.apart [m, m, n] 7) := by
    simp [m, n, hdoubled, hkept]
  have hstage (i j : Int64) (t : Trail) :
      outcome ([Value.int i, .int j].mapM (m.runOn (.bare 1))) t =
        (.ok [.int (i + i), .int (j + j)], t) := rfl
  obtain ⟨query, t, hrun, -, heager⟩ :=
    execute_chain .int items [m, m, n] (.bare 1) { next := 7 } honce
    hitems hcode (by simp [Host.bare]) fun _ _ => Host.bare_impartial _ _ 1
  refine ⟨honce, query, t, hrun, heager ?_ .list⟩
  refine .cons (by decide) (hstage 1 2 _) (.cons (by decide) (hstage 2 4 _) ?_)
  exact ⟨by decide, fun _ _ _ => trivial⟩

/-- Here the mapper `t => new T { F = y => y, P = t }` stands twice, and the code of its two stages
makes functions that are not equal. -/
theorem execute_chain_ne :
    let f : Member := ⟨"T", "F", .function [.int] .int⟩
    let p : Member := ⟨"T", "P", .object "T"⟩
    let x : Param := ⟨0, "t", .object "T"⟩
    let y : Param := ⟨1, "y", .int⟩
    let make : Lambda := ⟨4, [x], .construct 3 (.object "T") []
      [⟨f, .lambda 2 ⟨5, [y], .param y⟩⟩, ⟨p, .param x⟩]⟩
    let compare : Lambda := ⟨9, [x], .binary 8 .bool .equal (.member 6 (.param x) f)
      (.member 10 (.member 7 (.param x) p) f)⟩
    let m : Mapper := ⟨1, .object "T", .object "T", make, make⟩
    let n : Mapper := ⟨2, .object "T", .bool, compare, compare⟩
    let items : List Value := [.object 11 "T" []]
    ∃ query t₀ t₁ t₂,
      outcome (chain (.object "T") items [m, m, n]) { next := 12 } = (.ok query, t₀) ∧
      outcome (query.execute (Host.bare 1)) t₀ = (.ok (.queryable, [.bool false]), t₁) ∧
      outcome (Mapper.inTurn (Mapper.runOn (Host.bare 1)) [m, m, n] items) t₀ =
        (.ok [.bool true], t₂) := by
  intro f p x y make compare m n items
  let source : Expr :=
    .constant 12 (.sequence .queryable (.object "T")) (.sequence .queryable items)
  let made : Expr := .call 14 (.sequence .queryable (.object "T")) .queryableSelect none
    [source, .quote 13 make]
  let remade : Expr := .call 16 (.sequence .queryable (.object "T")) .queryableSelect none
    [made, .quote 15 make]
  let query : DeferredQuery := ⟨.call 18 (.sequence .queryable .bool) .queryableSelect none
    [remade, .quote 17 compare]⟩
  exact ⟨query, { next := 19 }, { next := 22 }, { next := 21 }, rfl, rfl, rfl⟩

end DeferredQuery

end

end ObjectMapping
