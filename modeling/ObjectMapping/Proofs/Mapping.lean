import ObjectMapping.Proofs.Expanding
import ObjectMapping.Proofs.Replaying

/-!
# Expanded lambdas

A lambda that maps objects with mappers computes the same when a pass has put the guarded bodies of
the mappers in the places of the calls. `ExpanderDesign.call_expandLambda` is the statement, over
all arguments. The guard reads the source once more than the call does and the body reads it as
often as it likes, so that what the source makes must not differ from itself ;
`Function.callSparing` is the run of the lambda in which this is looked after, and
`ExpanderDesign.call_expandLambda_unsteady` is a lambda for which it makes a difference.
-/

namespace ObjectMapping

open RunM

variable {F D : Forest} {n : NodeId} {host : Host}

/-! ## Sparing runs -/

/-- Whether a function is the one that a mapper runs on its input. -/
def Function.isPrepared (f : Function) : Bool :=
  match f.site with
  | ⟨.mapper _, []⟩ => true
  | _ => false

/-- Calls a function as `Function.callWithin` does, but gives up where code with the stamp calls a
mapper on a value that is not steady. -/
def Function.callSparing (host : Host) (own : Stamp) (n : NodeId) : Nat → Caller
  | 0, _, _ => throw .exhausted
  | depth + 1, f, args =>
    if f.site.stamp = own then
      if args.length ≠ f.lambda.params.length then
        reject (.valueCount f.lambda.params.length args.length)
      else
        f.lambda.body.evalIn host (callSparing host own n depth)
          (Binding.ofArgs f.lambda.params args :: f.env) (f.site.child 0)
    else if f.isPrepared && !Value.steadyAll n args then
      throw .exhausted
    else
      f.callWithin host (depth + 1) args

theorem Function.callSparing_succ {own : Stamp} (k : Nat) {f : Function} {vs : List Value}
    (hown : f.site.stamp = own) :
    callSparing host own n (k + 1) f vs = f.run host (callSparing host own n k) vs :=
  if_pos hown

/-- The mapper is called in a sparing run as in any other, on a steady value. -/
theorem Mapper.callSparing_prepared (m : Mapper) (i : NodeId) (k : Nat) {v : Value}
    (hsteady : v.steady n = true) :
    m.prepared.callSparing host (.run i) n (k + 1) [v] =
      m.prepared.callWithin host (k + 1) [v] := by
  simp [Function.callSparing, prepared, Value.steadyAll, hsteady]

theorem Mapper.callSparing_prepared_of_not (m : Mapper) (i : NodeId) (k : Nat) {v : Value}
    (hsteady : v.steady n ≠ true) :
    m.prepared.callSparing host (.run i) n (k + 1) [v] = throw .exhausted := by
  simp [Function.callSparing, prepared, Function.isPrepared, Value.steadyAll, hsteady]

theorem Function.callSparing_unrolls (hhost : host.Respects F n) (hF : F.Known n) (own : Stamp) :
    Caller.Unrolls F n host (· = own) (callSparing host own n) where
  zero _ := rfl
  succ hown := callSparing_succ _ hown
  tracks k := by
    induction k with
    | zero => exact fun _ _ => .exhausted
    | succ k ih =>
      intro W f g vs ws hfg hvs
      by_cases hown : f.site.stamp = own
      · rw [callSparing_succ k hown]
        exact (run_tracks hhost hF ih hfg hvs).succ fun _ => rfl
      · rw [callSparing, if_neg hown]
        split
        · exact .exhausted
        · exact callWithin_tracks hhost hF (k + 1) hfg hvs

/-! ## Calls and guards -/

section

variable {m : Mapper} {source e e' : Expr}

/-- A call that maps an object evaluates the source and maps its value. -/
theorem Mapper.IsCalled.evalIn_eq (h : m.IsCalled host source e) (call : Caller) (env : Env)
    (site : Site) : e.evalIn host call env site = (do
      let v ← source.evalIn host call env ((site.child 1).child 0)
      m.mapBy call v) := by
  cases h with
  | @mapWith _ _ _ _ w hm =>
    have hm' : ofExcept (Native.givenMapper host "MapWith" (some w)) = pure m := by rw [hm]; rfl
    simp only [Expr.evalIn, Expr.evalOption, Expr.evalList, pure_bind, bind_assoc, List.nil_append]
    refine bind_congr fun v => ?_
    simp [Operation.invokeBy, Operation.mapWith, Native.run, hm']
  | @map _ _ _ _ w hm =>
    have hm' : ofExcept (Native.givenMapper host "Map" (some w)) = pure m := by rw [hm]; rfl
    simp only [Expr.evalIn, Expr.evalOption, Expr.evalList, pure_bind, bind_assoc]
    refine bind_congr fun v => ?_
    simp [Operation.invokeBy, Operation.map, Native.run, hm']

/-- A guarded body gives the default output for the default input. -/
theorem Mapper.Guarded.exists_evalIn_eq (h : m.Guarded source e') : ∃ p body,
    m.expression.params = [p] ∧ p.ty = source.ty ∧
      m.expression.body.Becomes (.replacing [⟨.param p, source⟩]) body ∧
      ∀ (host : Host) (call : Caller) (env : Env) (site : Site), e'.evalIn host call env site = (do
        let v ← source.evalIn host call env ((site.child 0).child 0)
        if v.equal (.defaultOf source.ty) then pure (.defaultOf body.ty)
        else body.evalIn host call env (site.child 2)) := by
  cases h with | mk hp hty hbecomes hd hresult =>
  refine ⟨_, _, hp, hty, hbecomes, fun host call env site => ?_⟩
  simp only [Expr.evalIn, hd host call env, hresult host call env, pure_bind, bind_assoc]
  refine bind_congr fun v => ?_
  simp [BinaryOp.apply, RunM.ofExcept, Value.truth]

/-- The parts of a marked call of the fragment are in the fragment. -/
theorem Expr.FirstOrder.part {d : Expr} (h : e.FirstOrder) (hmarked : e.markers ≠ [])
    (hd : d ∈ e.parts) : d.FirstOrder := by
  cases h with
  | node _ hparts => exact hparts d hd
  | select hop =>
    refine absurd ?_ hmarked
    rcases hop with rfl | rfl <;> rfl

theorem Mapper.IsCalled.markers_ne (h : m.IsCalled host source e) : e.markers ≠ [] := by
  cases h <;> simp [Expr.markers, Operation.mapWith, Operation.map]

end

/-! ## No capture -/

/-- A source whose parameters are not bound in an expression is not captured there, if the parameter
it replaces is the only free one. -/
theorem Expr.not_capturedIn {p : Param} {source e : Expr} (he : F.nodes e)
    (hclosed : ∀ y, e.Free y → y ≠ p → ¬ source.Free y)
    (hbinds : ∀ x, e.Binds x → ¬ source.Free x) :
    ¬ source.CapturedIn p e := by
  intro h
  induction h with
  | part hd _ ih =>
    exact ih (F.part he hd) (fun y hy => hclosed y (.part hd hy)) fun x hx => hbinds x (.part hd hx)
  | @body e f hf _ ih =>
    have hfF := F.fn he hf
    refine ih (F.body hfF) (fun y hy hne => ?_) fun x hx => hbinds x (.body hf hx)
    by_cases hbound : ∀ z ∈ f.params, z.id ≠ y.id
    · exact hclosed y (.body hf hbound hy) hne
    · push Not at hbound
      obtain ⟨z, hz, hids⟩ := hbound
      obtain rfl := F.param_eq (F.param hfF hz) (F.free (F.body hfF) hy) hids
      exact hbinds z (.here hf hz)
  | binds hf hx _ _ hfree => exact hbinds _ (.here hf hx) hfree
  | @renames e f q hf _ hsource hne hfree =>
    have hfF := F.fn he hf
    have hq : source.Free q := hsource ▸ .here
    by_cases hbound : ∀ z ∈ f.params, z.id ≠ q.id
    · exact hclosed q (.body hf hbound hfree) hne hq
    · push Not at hbound
      obtain ⟨z, hz, hids⟩ := hbound
      obtain rfl := F.param_eq (F.param hfF hz) (F.free (F.body hfF) hfree) hids
      exact hbinds z (.here hf hz) hq

/-! ## The judgement of the pass -/

section

variable {m : Mapper} {source e e' : Expr} {x x' y : Param} {W : World F n} {env env' : Env}

theorem Judgement.mapping_not_puts_param {y : Param} {e' : Expr} :
    ¬ (Judgement.mapping F host).puts (.param y) e' := by
  rintro ⟨m, source, hcalled, -⟩
  cases hcalled

/-- A parameter stays what it is. -/
theorem Expr.eq_of_becomes_mapping (h : (Expr.param y).Becomes (.mapping F host) e') :
    e' = .param y := by
  cases h with
  | put h => exact absurd h Judgement.mapping_not_puts_param
  | enter _ hr =>
    cases hr
    rfl
  | standIn h => exact h.elim
  | stay h => exact h.elim

theorem Param.eq_of_becomes_mapping (h : x.Becomes (.mapping F host) x') : x' = x :=
  Expr.param.inj (Expr.eq_of_becomes_mapping (Param.becomes_iff.1 h))

/-- The source in a guard or a body tracks the source of the call. -/
theorem Mapper.IsCalled.source_tracks (hhost : host.Respects F n) (hF : F.Known n) {own : Stamp}
    (he : F.nodes e) (hfirst : e.FirstOrder) (hcalled : m.IsCalled host source e) {p : Param}
    (hp : F.nodes (.param p)) (hparams : (Judgement.mapping F host).TracksParams host W env env' e)
    (k : Nat) :
    source.EvalTracks host (Function.callSparing host own n k) (Function.callWithin host)
      (fun s _ => s.stamp = own) W env env' source := by
  have hmem := hcalled.source_mem
  refine Expr.FirstOrder.evalTracks hhost hF (Function.callSparing_unrolls hhost hF own)
    (F.part he hmem) (hfirst.part hcalled.markers_ne hmem) hp k fun y hy call s s' => ?_
  exact hparams (.part hmem hy) (.enter rfl (.param y)) call s s'

/-- A guarded body tracks the call in whose place it stands. -/
theorem Mapper.Guarded.tracks (hhost : host.Respects F n) (hF : F.Known n) {i : NodeId}
    (he : F.nodes e) (hfirst : e.FirstOrder) (hcalled : m.IsCalled host source e)
    (hm : m.Inlinable F source) (hguarded : m.Guarded source e')
    (hparams : (Judgement.mapping F host).TracksParams host W env env' e) (k : Nat) :
    e.EvalTracks host (Function.callSparing host (.run i) n k) (Function.callWithin host)
      (fun s _ => s.stamp = .run i) W env env' e' := by
  intro s s' hs
  obtain ⟨p, body, hp, hty, hbecomes, hvalue⟩ := hguarded.exists_evalIn_eq
  have hpF : F.nodes (.param p) := F.param hm.fn (by simp [hp])
  have hinput : source.ty = m.input := by simpa [Lambda.paramTys, hp, hty] using hm.input
  have houtput : body.ty = m.output := (hbecomes.ty_eq_of_replacing hty).trans hm.output
  have htracks (s₂ : Site) : Tracks W
      (source.evalIn host (Function.callSparing host (.run i) n k) env ((s.child 1).child 0))
      (fun d => source.evalIn host (Function.callWithin host d) env' s₂) Value.Alike :=
    hcalled.source_tracks hhost hF he hfirst hpF hparams k hs
  have hsource : F.nodes source := F.part he hcalled.source_mem
  have hsfirst := hfirst.part hcalled.markers_ne hcalled.source_mem
  have hcap : ¬ source.CapturedIn p m.expression.body := by
    refine Expr.not_capturedIn (F.body hm.fn) (fun y hy hne => ?_) fun x hx hfree => ?_
    · exact absurd (by simpa [hp] using hm.closed hy) hne
    · exact absurd hfree.occursIn (by simp [hm.binds hx])
  simp only [hcalled.evalIn_eq, hvalue, hinput, houtput]
  refine .bind (htracks _).replayable fun {V v w} hV hvw => ?_
  obtain ⟨hvw, hreplay⟩ := hvw
  simp only [mapBy, hvw.equal_eq (Value.alike_defaultOf m.input)]
  split
  · exact .pure fun _ => Value.alike_defaultOf m.output
  · cases k with
    | zero => exact .exhausted
    | succ k =>
      by_cases hsteady : v.steady n = true
      · rw [m.callSparing_prepared i k hsteady, prepared, Function.callWithin_succ,
          Function.run_one hp]
        refine Expr.tracks_of_replacing hhost hF (F.body hm.fn) hm.first hsource hsfirst hcap
          hbecomes (fun s₂ => hreplay hsteady (htracks s₂)) (fun y hy hne => ?_) k trivial
        exact absurd (by simpa [hp] using hm.closed hy) hne
      · rw [m.callSparing_prepared_of_not i k hsteady]
        exact .exhausted

/-- The judgement of a pass over mapped objects is sound for sparing runs of the lambda. -/
theorem Judgement.mapping_sound (hhost : host.Respects F n) (hF : F.Known n) (hDF : D ≤ F)
    (i : NodeId) : (Judgement.mapping F host).Sound D.nodes F n host (· = .run i)
      (Function.callSparing host (.run i) n) where
  node := hDF.1 _
  part := D.part
  body hU hf := D.body (D.fn hU hf)
  stands h := h
  fn {e e' f} hf h := by
    cases h with
    | put h =>
      obtain ⟨m, source, hcalled, -⟩ := h
      cases hcalled <;> simp [Expr.fn?] at hf
    | standIn h => exact h.elim
    | stay h => exact h.elim
    | enter _ hr =>
      cases hr with
      | lambda hps hb | quote hps hb =>
        obtain rfl := Option.some.inj hf
        exact ⟨_, rfl, hps, hb⟩
      | _ => simp [Expr.fn?] at hf
  self hxx' h := by
    rw [Expr.eq_of_becomes_mapping h, Param.eq_of_becomes_mapping hxx']
  outer {e e' f x x' y} hU hf hx hxx' hy hne h v d env site := by
    obtain rfl := Expr.eq_of_becomes_mapping h
    obtain rfl := Param.eq_of_becomes_mapping hxx'
    have hfF := D.fn hU hf
    have hids : x'.id ≠ y.id := fun h =>
      hne (D.param_eq (D.param hfF (by simp [hx])) (D.free (D.body hfF) hy) h).symm
    simp only [Expr.evalIn, Env.lookup_push_of_ne hids]
  puts hU hfirst _ hputs hparams k := by
    obtain ⟨m, source, hcalled, hm, hguarded⟩ := hputs
    exact hguarded.tracks hhost hF (hDF.1 _ hU) hfirst hcalled hm hparams k

end

/-! ## Whole lambdas -/

theorem Lambda.params_eq_of_becomes_mapping {f f' : Lambda} (h : f.Becomes (.mapping F host) f') :
    f'.params = f.params :=
  Param.eq_of_becomes h.params Judgement.mapping_not_puts_param

/-- Calls of the expanded lambda track the sparing calls of the lambda. -/
theorem Lambda.Becomes.callSparing_tracks (hhost : host.Respects F n) (hknown : F.Known n)
    (hDF : D ≤ F) {f f' : Lambda} (hf : D.fns f) (hfirst : f.body.FirstOrder)
    (h : f.Becomes (.mapping F host) f') {W : World F n} {vs ws : List Value}
    (hvs : List.Forall₂ (Value.Alike W) vs ws) (i j : NodeId) (k : Nat) :
    Tracks W (Function.callSparing host (.run i) n k ⟨f, [], ⟨.run i, []⟩, false⟩ vs)
      (fun d => Function.callWithin host d ⟨f', [], ⟨.run j, []⟩, false⟩ ws) Value.Alike := by
  cases k with
  | zero => exact .exhausted
  | succ k =>
    have hown : (Function.mk f [] ⟨.run i, []⟩ false).site.stamp = .run i := rfl
    rw [Function.callSparing_succ k hown]
    refine .succ ?_ fun d => Function.callWithin_succ host d _ ws
    simp only [Function.run, hvs.length_eq, params_eq_of_becomes_mapping h]
    split
    · exact .fail _
    · refine Expr.Becomes.tracks hhost hknown (Function.callSparing_unrolls hhost hknown _)
        (Judgement.mapping_sound hhost hknown hDF i) hfirst (D.body hf) h.body k ?_ rfl
      intro y e' _ hbecomes call s s'
      obtain rfl := Expr.eq_of_becomes_mapping hbecomes
      have henv : Env.Alike W [Binding.ofArgs f.params vs] [Binding.ofArgs f.params ws] :=
        .cons (Binding.ofArgs_alike _ hvs) .nil
      exact Expr.evalIn_param_tracks (henv.lookup y.id) s s'

/-- What a lambda comes to when it runs its calls of mappers, the expanded lambda comes to on the
same arguments, from some depth on, if the run calls no mapper on a value that is not steady. -/
theorem ExpanderDesign.call_expandLambda {design : ExpanderDesign} {cx : BuildContext}
    {f f' : Lambda} {s s' : Trail × TransformerCache} {t t' t₁ : Trail} {i j : NodeId} {k : Nat}
    {args : List Value} {r : Except Fault Value} (hDF : D ≤ F) (hf : D.fns f)
    (hF : F.Below s.1.next)
    (hkeys : ∀ {op op' : Operation}, D.Calls op → D.Calls op' →
      op.signature = op'.signature → op = op')
    (hcache : design.Caches D.Calls s.2)
    (hguard : design.settings.options.nullPropagation = true) (hfirst : f.body.FirstOrder)
    (hcalls : ∀ e, D.nodes e → e.markers ≠ [] →
      ∃ (m : Mapper) (source : Expr), m.IsCalled host source e ∧ m.Inlinable F source)
    (hexpand : outcome (design.expandLambda host f cx) s = (.ok f', s'))
    (hhost : host.Respects F n) (hknown : F.Known n) (hargs : ∀ v ∈ args, v.Known F n)
    (hn : n ≤ t.next) (hn' : n ≤ t'.next)
    (hrun : outcome (Function.callWithin host k ⟨f, [], ⟨.run i, []⟩, false⟩ args) t = (r, t₁))
    (hr : r ≠ .error .exhausted)
    (hsparing :
      outcome (Function.callSparing host (.run i) n k ⟨f, [], ⟨.run i, []⟩, false⟩ args) t =
        outcome (Function.callWithin host k ⟨f, [], ⟨.run i, []⟩, false⟩ args) t) :
    SettlesLike F n (fun d => Function.callWithin host d ⟨f', [], ⟨.run j, []⟩, false⟩ args) t'
      r := by
  obtain ⟨hbecomes, -⟩ := expandLambda_becomes hDF hkeys hguard hcalls hcache hf hF hexpand
  have htracks := hbecomes.callSparing_tracks (W := .start F n) hhost hknown hDF hf hfirst
    (List.forall₂_same.2 hargs) i j k
  exact htracks.settlesLike (World.start_fits hn hn') (hsparing.trans hrun) hr

/-- A lambda that maps its argument with a mapper that adds one. -/
theorem ExpanderDesign.call_expandLambda_int :
    let p : Param := ⟨0, "p", .int⟩
    let g : Lambda := ⟨3, [p], .binary 2 .int .add (.param p) (.constant 1 .int (.int 1))⟩
    let m : Mapper := ⟨1, .int, .int, g, g⟩
    let x : Param := ⟨4, "x", .int⟩
    let operand : Expr := .constant 5 (.mapper .int .int) (.mapper m)
    let f : Lambda := ⟨7, [x], .call 6 .int .mapWith none [.param x, operand]⟩
    let design : ExpanderDesign := ⟨{}, fun _ _ => .error "none"⟩
    ∃ F f' s',
      outcome (design.expandLambda (.bare 0) f (.ofLambda f)) ({ next := 8 }, []) = (.ok f', s') ∧
      SettlesLike F 8
        (fun d => Function.callWithin (.bare 0) d ⟨f', [], ⟨.run 9, []⟩, false⟩ [.int 5])
        { next := 10 } (.ok (.int 6)) := by
  intro p g m x operand f design
  let D : Forest := .ofLists [.param x, operand, f.body] [f] (by decide) (by decide)
    (by simp [Expr.parts, f, operand]) (by simp [Expr.fn?, f, operand]) (by simp [f]) (by simp)
  let F : Forest := .ofLists
    [.param p, .constant 1 .int (.int 1), g.body, .param x, operand, f.body] [g, f] (by decide)
    (by decide) (by simp [Expr.parts, f, g, operand]) (by simp [Expr.fn?, f, g, operand])
    (by simp [f, g]) (by simp)
  obtain ⟨f', s', hexpand⟩ : ∃ f' s', outcome (design.expandLambda (.bare 0) f (.ofLambda f))
    ({ next := 8 }, []) = (.ok f', s') := ⟨_, _, rfl⟩
  have hcalled (op : Operation) (h : D.Calls op) : op = .mapWith := by
    obtain ⟨id, ty, receiver, arguments, h⟩ := h
    have h' : id = 6 ∧ ty = .int ∧ op = .mapWith ∧ receiver = none ∧
        arguments = [.param x, operand] := by
      simpa [D, Forest.ofLists, f, operand] using h
    exact h'.2.2.1
  have unbound {e : Expr} {y : Param} (hparts : e.parts = []) (hfn : e.fn? = none) :
      ¬ e.Binds y := by
    rintro (⟨hf, -⟩ | ⟨hd, -⟩ | ⟨hf, -⟩) <;> simp_all
  have hm : m.Inlinable F (.param x) := by
    refine ⟨by simp [F, Forest.ofLists, m], .node rfl fun d hd => ?_, fun {y} hy => ?_, rfl, rfl,
      fun {y} hy => ?_⟩
    · rcases List.mem_pair.1 hd with rfl | rfl <;> exact .leaf rfl rfl
    · rcases Expr.free_iff.1 hy with h | ⟨d, hd, h⟩ | ⟨g, hg, -⟩
      · cases h
      · rcases List.mem_pair.1 hd with rfl | rfl
        · rw [Expr.free_param.1 h]
          exact List.mem_singleton_self p
        · simpa [Expr.parts, Expr.fn?] using Expr.free_iff.1 h
      · cases hg
    · cases hy with
      | here hf => simp [Expr.fn?, m, g] at hf
      | body hf => simp [Expr.fn?, m, g] at hf
      | part hd h => rcases List.mem_pair.1 hd with rfl | rfl <;> exact (unbound rfl rfl h).elim
  obtain ⟨t₁, hrun⟩ : ∃ t₁, outcome (Function.callWithin (.bare 0) 2 ⟨f, [], ⟨.run 9, []⟩, false⟩
    [.int 5]) { next := 10 } = (.ok (.int 6), t₁) := ⟨_, rfl⟩
  refine ⟨F, f', s', hexpand, call_expandLambda (D := D) ?_ (List.mem_singleton_self f)
    (Forest.below_ofLists (by decide) (by decide))
    (fun h h' _ => (hcalled _ h).trans (hcalled _ h').symm)
    (fun _ h => by simp at h) rfl (.node rfl fun d hd => ?_) (fun e he hmarked => ?_) hexpand
    (Host.bare_respects 0) ?_ ?_ (by decide) (by decide) hrun (by simp) rfl⟩
  · exact ⟨by simp +contextual [D, F, Forest.ofLists], by simp +contextual [D, F, Forest.ofLists]⟩
  · rcases List.mem_pair.1 hd with rfl | rfl <;> exact .leaf rfl rfl
  · have he' : e = .param x ∨ e = operand ∨ e = f.body := by simpa [D, Forest.ofLists] using he
    rcases he' with rfl | rfl | rfl
    · exact absurd rfl hmarked
    · exact absurd rfl hmarked
    · exact ⟨m, .param x, .mapWith rfl, hm⟩
  · intro id ty v h
    have h' : id = 1 ∧ ty = .int ∧ v = .int 1 ∨
        id = 5 ∧ ty = .mapper .int .int ∧ v = .mapper m := by
      simpa [F, Forest.ofLists, f, g, operand] using h
    rcases h' with ⟨-, -, rfl⟩ | ⟨-, -, rfl⟩
    · exact .int 1
    · exact .mapper hm.fn
  · intro v hv
    obtain rfl := List.mem_singleton.1 hv
    exact .int 5

/-- A mapper that compares its input with itself, called on an object that differs from itself field
by field : the call compares one object, the expanded lambda two. -/
theorem ExpanderDesign.call_expandLambda_unsteady :
    let p : Param := ⟨0, "p", .object "T"⟩
    let g : Lambda := ⟨2, [p], .binary 1 .bool .equal (.param p) (.param p)⟩
    let m : Mapper := ⟨1, .object "T", .bool, g, g⟩
    let x : Param := ⟨3, "x", .int⟩
    let nan : Value := .float (.ofBits 0x7ff8000000000000)
    let source : Expr :=
      .construct 5 (.object "T") [] [⟨⟨"T", "F", .float⟩, .constant 4 .float nan⟩]
    let operand : Expr := .constant 6 (.mapper (.object "T") .bool) (.mapper m)
    let f : Lambda := ⟨8, [x], .call 7 .bool .mapWith none [source, operand]⟩
    let design : ExpanderDesign := ⟨{}, fun _ _ => .error "none"⟩
    ∃ f' s',
      outcome (design.expandLambda (.bare 0) f (.ofLambda f)) ({ next := 9 }, []) = (.ok f', s') ∧
      (outcome (Function.callWithin (.bare 0) 2 ⟨f, [], ⟨.run 9, []⟩, false⟩ [.int 0]) s'.1).1 =
        .ok (.bool true) ∧
      (outcome (Function.callWithin (.bare 0) 2 ⟨f', [], ⟨.run 9, []⟩, false⟩ [.int 0]) s'.1).1 =
        .ok (.bool false) :=
  ⟨_, _, rfl, rfl, rfl⟩

end ObjectMapping
