import ObjectMapping.Proofs.Advancing
import ObjectMapping.Proofs.Supplies

/-!
# Where functions come from

A program evaluates expressions, prepares and calls functions, runs mappers and operations, and
makes new mappers, and the code that it writes holds values that it has met before. What it has met
is its `Knowledge`, and `Knowledge.Reached` says which knowledge a program comes to.

All code that was ever prepared has a place in one `Layout`, so that a place tells which lambda the
functions from there run (`Layout.lambda_eq`). Evaluation keeps to the layout (`Layout.upkeep`), and
a program never meets a function that does not (`Knowledge.Reached.exists_layout`).
-/

namespace ObjectMapping

open RunM

/-! ## Layouts -/

/-- The code that was prepared under each stamp. -/
structure Layout where
  code : Stamp → Option Code

/-- A layout that has all code of another one. -/
instance : LE Layout where
  le T T' := ∀ s c, T.code s = some c → T'.code s = some c

namespace Layout

variable {T T' : Layout}

/-- No code at all. -/
def empty : Layout where
  code _ := none

/-- Code is prepared under one more stamp. -/
def put (T : Layout) (s : Stamp) (c : Code) : Layout where
  code s' := if s' = s then some c else T.code s'

/-- What stands at a place. -/
def at? (T : Layout) (s : Site) : Option Code :=
  s.path.foldr (fun i c => c.bind (·.children[i]?)) (T.code s.stamp)

/-- Functions of the lambdas that stand at their places, and mappers with the code that was prepared
for them. -/
def supply (T : Layout) : Supply where
  functions f := ∃ c, T.at? f.site = some c ∧ c.made? = some (f.lambda, f.quoted)
  mappers m := ∃ id, T.code (.mapper m.id) = some (.expr (.lambda id m.expression))

theorem le_put {s : Stamp} {c : Code} (h : T.code s = none) : T ≤ T.put s c := by
  intro s' c' hc
  have hne : s' ≠ s := by
    rintro rfl
    simp [h] at hc
  simpa [put, hne] using hc

theorem code_put (T : Layout) (s : Stamp) (c : Code) : (T.put s c).code s = some c :=
  if_pos rfl

theorem code_put_of_ne {s s' : Stamp} (h : s' ≠ s) (c : Code) :
    (T.put s c).code s' = T.code s' :=
  if_neg h

theorem at?_child {c d : Code} {s : Site} {i : Nat} (h : T.at? s = some c)
    (hd : c.children[i]? = some d) : T.at? (s.child i) = some d := by
  change (T.at? s).bind (·.children[i]?) = some d
  rw [h]
  exact hd

theorem at?_mono (h : T ≤ T') {s : Site} {c : Code} (hc : T.at? s = some c) :
    T'.at? s = some c := by
  obtain ⟨stamp, path⟩ := s
  induction path generalizing c with
  | nil => exact h stamp c hc
  | cons i path ih =>
    obtain ⟨d, hd, hchild⟩ := Option.bind_eq_some_iff.1 hc
    exact at?_child (ih hd) hchild

theorem supply_mono (h : T ≤ T') : T.supply ≤ T'.supply :=
  ⟨fun _ ⟨c, hc, hmade⟩ => ⟨c, at?_mono h hc, hmade⟩, fun _ ⟨id, hm⟩ => ⟨id, h _ _ hm⟩⟩

/-- The place of a function tells which lambda it runs. -/
theorem lambda_eq {f g : Function} (hf : T.supply.functions f) (hg : T.supply.functions g)
    (h : f.site = g.site) : g.lambda = f.lambda ∧ g.quoted = f.quoted := by
  obtain ⟨c, hc, hmade⟩ := hf
  obtain ⟨c', hc', hmade'⟩ := hg
  obtain rfl := Option.some.inj (hc.symm.trans ((congrArg T.at? h).trans hc'))
  exact Prod.mk.inj (Option.some.inj (hmade'.symm.trans hmade))

/-- Evaluation of code of the layout, at its place, yields functions of the layout. -/
def upkeep (T : Layout) {host : Host} (hhost : host.Supplied T.supply) : Upkeep host where
  value := Value.Over T.supply
  stands c s := T.at? s = some c ∧ c.All (Expr.Over T.supply)
  plain := Value.over_of_isPlain
  object := Value.over_object
  sequence := Value.over_sequence
  child h hd := ⟨at?_child h.1 hd, h.2.child .part .body (List.mem_of_getElem? hd)⟩
  constant h hv := Expr.Over.value h.2 hv
  function {c _ _ _ _} h hf henv := by
    obtain ⟨e, rfl, hfn⟩ := Code.fn?_of_made? hf
    exact Value.over_function.2 ⟨⟨_, h.1, hf⟩, Expr.Over.body h.2 hfn, henv⟩
  body {f} h := by
    obtain ⟨⟨c, hc, hmade⟩, hbody, henv⟩ := Value.over_function.1 h
    exact ⟨⟨at?_child hc (Code.children_of_made? hmade), hbody⟩, henv⟩
  prepared h := by
    obtain ⟨⟨id, hm⟩, -, hbody⟩ := Value.over_mapper.1 h
    exact Value.over_function.2 ⟨⟨_, hm, rfl⟩, hbody, Env.all_nil⟩
  filled := hhost.filled
  native := hhost.native (Supply.le_refl _)

end Layout

/-! ## Programs -/

/-- What a program has met : values, the mappers that it has made among them. -/
structure Knowledge where
  trail : Trail
  values : List Value

namespace Knowledge

/-- The functions and mappers that the program can put into its code. -/
def supply (K : Knowledge) : Supply :=
  .of K.values

/-- What a program can run. -/
inductive Runs (K : Knowledge) (host : Host) : RunM Value → Prop
  | evaluate {e : Expr} : e.Over K.supply → Runs K host (e.evaluate host)
  | call {f : Function} {args : List Value} : (Value.function f).Over K.supply →
    (∀ v ∈ args, v.Over K.supply) → Runs K host (f.call host args)
  | prepared {m : Mapper} {args : List Value} : (Value.mapper m).Over K.supply →
    (∀ v ∈ args, v.Over K.supply) → Runs K host (m.prepared.call host args)
  | map {m : Mapper} {v : Value} : (Value.mapper m).Over K.supply → v.Over K.supply →
    Runs K host (m.map host v)
  | operation {op : Operation} {args : List Value} : (∀ v ∈ args, v.Over K.supply) →
    Runs K host (op.invoke host args)

/-- The knowledge that a program comes to. It may take identities for other things than its runs, it
may be around different hosts, and it makes mappers of identities that no mapper has yet. -/
inductive Reached : Knowledge → Prop
  | start (t : Trail) : Reached ⟨t, []⟩
  | pass {K : Knowledge} {t : Trail} : Reached K → K.trail.next ≤ t.next →
    Reached { K with trail := t }
  | run {K : Knowledge} {host : Host} {x : RunM Value} {v : Value} {t : Trail} : Reached K →
    host.Supplied K.supply → K.Runs host x → outcome x K.trail = (.ok v, t) →
    Reached ⟨t, v :: K.values⟩
  | prepare {K : Knowledge} {f : Lambda} {g : Function} {t : Trail} : Reached K →
    f.body.Over K.supply → outcome f.prepare K.trail = (.ok g, t) →
    Reached ⟨t, .function g :: K.values⟩
  | mapper {K : Knowledge} {m : Mapper} : Reached K →
    (∀ m', Value.mapper m' ∈ K.values → m'.id ≠ m.id) → m.given.body.Over K.supply →
    m.expression.body.Over K.supply → Reached { K with values := .mapper m :: K.values }

end Knowledge

/-- The layout has the code of all functions and mappers that the program has met, and room for more
code. -/
structure Layout.Holds (T : Layout) (K : Knowledge) : Prop where
  run {n : NodeId} {c : Code} : T.code (.run n) = some c → n < K.trail.next
  mapper {id : MapperId} {c : Code} : T.code (.mapper id) = some c →
    ∃ m, Value.mapper m ∈ K.values ∧ m.id = id
  value : ∀ v ∈ K.values, v.Over T.supply

section

variable {T : Layout} {K : Knowledge} {host : Host}

theorem Layout.Holds.supply_le (h : T.Holds K) : K.supply ≤ T.supply :=
  Supply.of_le h.value

/-- Code is prepared under the next stamp for an evaluation. -/
theorem Layout.Holds.le_put_run (h : T.Holds K) (c : Code) :
    T ≤ T.put (.run K.trail.next) c := by
  refine le_put (Option.eq_none_iff_forall_ne_some.2 fun c' hc' => ?_)
  exact Nat.lt_irrefl _ (h.run hc')

/-- The program goes on with a value of the layout, to which code may have been added under the next
stamp for an evaluation. -/
theorem Layout.Holds.push_run (h : T.Holds K) {c : Code} {v : Value} {t : Trail}
    (hv : v.Over (T.put (.run K.trail.next) c).supply) (ht : K.trail.next < t.next) :
    (T.put (.run K.trail.next) c).Holds ⟨t, v :: K.values⟩ where
  run {n c'} hc' := by
    by_cases hn : n = K.trail.next
    · exact hn ▸ ht
    · rw [code_put_of_ne (by simpa using hn)] at hc'
      exact Nat.lt_trans (h.run hc') ht
  mapper {id c'} hc' := by
    rw [code_put_of_ne (by simp)] at hc'
    obtain ⟨m, hm, hid⟩ := h.mapper hc'
    exact ⟨m, .tail _ hm, hid⟩
  value := List.forall_mem_cons.2
    ⟨hv, fun w hw => (h.value w hw).mono (supply_mono (h.le_put_run c))⟩

theorem Layout.Holds.push (h : T.Holds K) {v : Value} {t : Trail} (hv : v.Over T.supply)
    (ht : K.trail.next ≤ t.next) : T.Holds ⟨t, v :: K.values⟩ where
  run hc := Nat.lt_of_lt_of_le (h.run hc) ht
  mapper hc := by
    obtain ⟨m, hm, hid⟩ := h.mapper hc
    exact ⟨m, .tail _ hm, hid⟩
  value := List.forall_mem_cons.2 ⟨hv, h.value⟩

/-- What a program runs keeps to a layout. -/
theorem Knowledge.Runs.exists_layout (h : T.Holds K) (hhost : host.Supplied K.supply)
    {x : RunM Value} {v : Value} {t : Trail} (hx : K.Runs host x)
    (hrun : outcome x K.trail = (.ok v, t)) : ∃ T' : Layout, T'.Holds ⟨t, v :: K.values⟩ := by
  have hT := h.supply_le
  let U : Upkeep host := T.upkeep (hhost.mono hT)
  have known {vs : List Value} (hvs : ∀ v ∈ vs, v.Over K.supply) : ∀ v ∈ vs, v.Over T.supply :=
    fun v hv => (hvs v hv).mono hT
  have stays (hends : Ends x (Value.Over T.supply)) (hadvances : x.Advances) :
      ∃ T' : Layout, T'.Holds ⟨t, v :: K.values⟩ :=
    ⟨T, h.push ((hends _ trivial).2 v (congrArg Prod.fst hrun)) (hadvances.next_le hrun)⟩
  cases hx with
  | @evaluate e he =>
    obtain ⟨i, t₁, hi, hrun⟩ := outcome_bind_ok.1 hrun
    obtain ⟨rfl, rfl⟩ := outcome_fresh_ok.1 hi
    have hput := Supply.le_trans hT (Layout.supply_mono (h.le_put_run (.expr e)))
    let U : Upkeep host := (T.put (.run K.trail.next) (.expr e)).upkeep (hhost.mono hput)
    have hstands : U.stands (.expr e) ⟨.run K.trail.next, []⟩ := ⟨T.code_put _ _, he.mono hput⟩
    have hends := U.evalIn_ends (U.callWithin_calls host.depth) e hstands Env.all_nil
    have hadvances : RunM.Advances
        (e.evalIn host (Function.callWithin host host.depth) [] ⟨.run K.trail.next, []⟩) :=
      Expr.evalIn_advances (Function.callWithin_advances host host.depth) _ _ e
    exact ⟨_, h.push_run ((hends _ trivial).2 v (congrArg Prod.fst hrun))
      (hadvances.next_le hrun)⟩
  | call hf hargs =>
    exact stays (U.call_ends (hf.mono hT) (known hargs))
      (Function.callWithin_advances host host.depth _ _)
  | prepared hm hargs =>
    exact stays (U.call_ends (U.prepared (hm.mono hT)) (known hargs))
      (Function.callWithin_advances host host.depth _ _)
  | map hm hv =>
    exact stays (Upkeep.mapBy_ends (U.callWithin_calls host.depth) (hm.mono hT) (hv.mono hT))
      (Mapper.mapBy_advances (Function.callWithin_advances host host.depth) _ _)
  | @operation op args hargs =>
    refine stays ?_ ?_
    · unfold Operation.invoke Operation.invokeBy
      split
      · exact Upkeep.run_ends (U.callWithin_calls host.depth) (known hargs) _
      · exact .throw
    · unfold Operation.invoke Operation.invokeBy
      split
      · exact Native.run_advances (Function.callWithin_advances host host.depth) _ _
      · exact advances_fail _

/-- A program meets functions and mappers of one layout only. -/
theorem Knowledge.Reached.exists_layout (h : K.Reached) : ∃ T : Layout, T.Holds K := by
  induction h with
  | start t => exact ⟨.empty, ⟨nofun, nofun, nofun⟩⟩
  | pass _ ht ih =>
    obtain ⟨T, hT⟩ := ih
    exact ⟨T, ⟨fun hc => Nat.lt_of_lt_of_le (hT.run hc) ht, hT.mapper, hT.value⟩⟩
  | run _ hhost hx hrun ih =>
    obtain ⟨T, hT⟩ := ih
    exact hx.exists_layout hT hhost hrun
  | @prepare K f g t _ hbody hrun ih =>
    obtain ⟨T, hT⟩ := ih
    obtain ⟨i, t₁, hi, hpure⟩ := outcome_bind_ok.1 hrun
    obtain ⟨rfl, rfl⟩ := outcome_fresh_ok.1 hi
    obtain ⟨rfl, rfl⟩ := outcome_pure_ok.1 hpure
    have hput := Supply.le_trans hT.supply_le
      (Layout.supply_mono (hT.le_put_run (.expr (.lambda 0 f))))
    refine ⟨_, hT.push_run (c := .expr (.lambda 0 f)) ?_ (Nat.lt_succ_self _)⟩
    exact Value.over_function.2 ⟨⟨_, T.code_put _ _, rfl⟩, hbody.mono hput, Env.all_nil⟩
  | @mapper K m _ hnew hgiven hexpression ih =>
    obtain ⟨T, hT⟩ := ih
    have hnone : T.code (.mapper m.id) = none := by
      refine Option.eq_none_iff_forall_ne_some.2 fun c hc => ?_
      obtain ⟨m', hm', hid⟩ := hT.mapper hc
      exact hnew m' hm' hid
    have hle := Layout.le_put (c := .expr (.lambda 0 m.expression)) hnone
    have hput := Supply.le_trans hT.supply_le (Layout.supply_mono hle)
    refine ⟨T.put (.mapper m.id) (.expr (.lambda 0 m.expression)), ⟨?_, ?_, ?_⟩⟩
    · intro n c hc
      rw [Layout.code_put_of_ne (by simp)] at hc
      exact hT.run hc
    · intro id c hc
      by_cases hid : id = m.id
      · exact ⟨m, .head _, hid.symm⟩
      · rw [Layout.code_put_of_ne (by simpa using hid)] at hc
        obtain ⟨m', hm', hid'⟩ := hT.mapper hc
        exact ⟨m', .tail _ hm', hid'⟩
    · refine List.forall_mem_cons.2 ⟨?_, fun v hv => (hT.value v hv).mono
        (Layout.supply_mono hle)⟩
      exact Value.over_mapper.2 ⟨⟨0, T.code_put _ _⟩, hgiven.mono hput, hexpression.mono hput⟩

/-- Whatever a program has met, it can put into the code that it writes next. -/
theorem Knowledge.Reached.over (h : K.Reached) {v : Value} (hv : v ∈ K.values) :
    v.Over K.supply := by
  obtain ⟨T, hT⟩ := h.exists_layout
  exact (hT.value v hv).of_all fun _ hS => hS v hv

end

end ObjectMapping
