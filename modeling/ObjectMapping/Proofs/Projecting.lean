import ObjectMapping.Proofs.Scoping

/-!
# Mapping the items of a sequence

A call that maps every item of a sequence runs the mapper on each, and gives the default output for
the default input. What is put in its place is a projection through the body of the mapper over a
new parameter, and it has no such exception. `Expr.evalIn_inlineOverItems` is the main statement :
where the body of the mapper itself gives the default output for the default items, the two runs are
one and the same, from the order of the items to the errors and the identities taken.
-/

namespace ObjectMapping

open RunM

/-! ## Making calls -/

section

variable {t t' : Trail}

theorem Expr.outcome_mkCall {op : Operation} {receiver : Option Expr} {arguments : List Expr}
    {ty : Ty} {e : Expr} (h : outcome (mkCall op receiver arguments ty) t = (.ok e, t')) :
    e = .call t.next ty op receiver arguments ∧ t'.next = t.next + 1 := by
  unfold mkCall at h
  by_cases harity : op.signature.arity ≠ arguments.length
  · simp [harity, outcome_bind_of_error (outcome_reject _ t)] at h
  by_cases hreceiver : op.signature.hasReceiver ≠ receiver.isSome
  · simp [harity, hreceiver, outcome_bind_of_error (outcome_reject _ t)] at h
  rw [if_neg harity, if_neg hreceiver] at h
  obtain ⟨i, t₁, hi, hpure⟩ := outcome_bind_ok.1 h
  obtain ⟨rfl, rfl⟩ := outcome_pure_ok.1 hpure
  obtain ⟨rfl, rfl⟩ := outcome_fresh_ok.1 hi
  exact ⟨rfl, rfl⟩

/-- A projection is a call of the Select operation that the type of the source asks for. -/
theorem Expr.outcome_select {source e : Expr} {projection : Lambda}
    (h : outcome (source.select projection) t = (.ok e, t')) :
    ∃ id ty op lambda, e = .call id ty op none [source, lambda] ∧ lambda.fn? = some projection ∧
      op.IsSelect ∧ (op = .queryableSelect ↔ source.ty.queryItemTy?.isSome) := by
  unfold select at h
  by_cases hquery : source.ty.queryItemTy?.isSome
  · rw [if_pos hquery] at h
    obtain ⟨lambda, t₁, hlambda, h⟩ := outcome_bind_ok.1 h
    obtain ⟨i, t₂, -, hpure⟩ := outcome_bind_ok.1 hlambda
    obtain ⟨rfl, rfl⟩ := outcome_pure_ok.1 hpure
    exact ⟨_, _, _, _, (outcome_mkCall h).1, rfl, .inr rfl, by simp [hquery]⟩
  · rw [if_neg hquery] at h
    by_cases hitem : source.ty.itemTy?.isSome
    · rw [if_pos hitem] at h
      obtain ⟨lambda, t₁, hlambda, h⟩ := outcome_bind_ok.1 h
      obtain ⟨i, t₂, -, hpure⟩ := outcome_bind_ok.1 hlambda
      obtain ⟨rfl, rfl⟩ := outcome_pure_ok.1 hpure
      refine ⟨_, _, _, _, (outcome_mkCall h).1, rfl, .inl rfl, ?_⟩
      simp [hquery, Operation.enumerableSelect, Operation.queryableSelect]
    · simp [hitem] at h

end

/-! ## What is put in place of the call -/

/-- A mapper inlined over the items of a sequence is a projection through its body, in which its
parameter has been given a new node. -/
theorem Expr.inlineOverItems_becomes {host : Host} {id : NodeId} {ty : Ty} {v : Value} {m : Mapper}
    {context : String} {cx : BuildContext} {source e : Expr} {stem : String} {F : Forest}
    {t t' : Trail} (hm : Native.givenMapper host context (some v) = .ok m)
    (hf : F.fns m.expression) (hF : F.Below t.next)
    (h : outcome (source.inlineOverItems host (.constant id ty v) stem cx) t = (.ok e, t')) :
    ∃ i ty op lambda f' p q G, e = .call i ty op none [source, lambda] ∧ lambda.fn? = some f' ∧
      op.IsSelect ∧ (op = .queryableSelect ↔ source.ty.queryItemTy?.isSome) ∧ f'.params = [q] ∧
      m.expression.params = [p] ∧ F ≤ G ∧ G.nodes (.param q) ∧ ¬ F.nodes (.param q) ∧
      m.expression.body.Becomes (.replacing [⟨.param p, .param q⟩]) f'.body := by
  unfold inlineOverItems at h
  cases helement : source.ty.itemTy? with
  | none => simp [helement] at h
  | some element =>
    simp only [helement] at h
    obtain ⟨f, t₁, hheld, h⟩ := outcome_bind_ok.1 h
    obtain ⟨n, t₂, hn, h⟩ := outcome_bind_ok.1 h
    obtain ⟨q, t₃, hq, h⟩ := outcome_bind_ok.1 h
    obtain ⟨body, t₄, hbody, h⟩ := outcome_bind_ok.1 h
    obtain ⟨f', t₅, hf', hselect⟩ := outcome_bind_ok.1 h
    obtain ⟨rfl, hnext₁⟩ := outcome_heldLambda hm hheld
    obtain ⟨-, rfl⟩ := outcome_fresh_ok.1 hn
    have hF' : F.Below (t₁.next + 1) := hF.mono (hnext₁ ▸ Nat.le_add_right t.next 2)
    obtain ⟨-, G, hFG, hG, hqG⟩ := Forest.exists_makeParam hF' hq
    obtain ⟨rfl, -⟩ := outcome_makeParam hq
    obtain ⟨p, hp, -, hbecomes, -⟩ := Lambda.inline_becomes (hFG.2 _ hf) hqG hG hbody
    obtain ⟨-, hparams, hf'body, -⟩ := outcome_ofExprs hf'
    obtain ⟨i, ty, op, lambda, rfl, hfn, hop, hquery⟩ := outcome_select hselect
    refine ⟨i, ty, op, lambda, f', p, _, G, rfl, hfn, hop, hquery, ?_, hp, hFG, hqG,
      fun hq => Nat.lt_irrefl _ (hF'.node hq), hf'body ▸ hbecomes⟩
    exact (List.map_injective_iff.2 fun _ _ => Expr.param.inj) hparams.symm

/-! ## Agreement -/

/-- Two lists of items that are mapped alike one by one are mapped alike. -/
theorem mapM_congr_of_mem {α β : Type} {run run' : α → RunM β} :
    ∀ {items : List α}, (∀ item ∈ items, run item = run' item) → items.mapM run = items.mapM run'
  | [], _ => rfl
  | item :: items, h => by
    rw [List.mapM_cons, List.mapM_cons, h item (by simp),
      mapM_congr_of_mem fun x hx => h x (List.mem_cons_of_mem _ hx)]

section

variable {host : Host} {m : Mapper}

/-- A call that maps every item of its first argument. -/
theorem Expr.evalIn_mapAllWith {id i : NodeId} {ty cty : Ty} {w : Value} (source : Expr)
    (hm : Native.givenMapper host "MapAllWith" (some w) = .ok m) (call : Caller) (env : Env)
    (site : Site) :
    (Expr.call id ty .mapAllWith none [source, .constant i cty w]).evalIn host call env site = (do
      let v ← source.evalIn host call env ((site.child 1).child 0)
      let (kind, items) ← ofExcept (Native.givenSequence "MapAllWith" (some v))
      return .sequence (Native.mappedKind kind) (← items.mapM (m.mapBy call))) := by
  have hm' : ofExcept (Native.givenMapper host "MapAllWith" (some w)) = pure m := by rw [hm]; rfl
  simp only [evalIn, evalOption, evalList, pure_bind, bind_assoc, List.nil_append]
  refine bind_congr fun v => ?_
  simp [Operation.invokeBy, Operation.mapAllWith, Native.run, hm']

/-- The kind of sequence that a projection yields is the one that mapping every item yields. -/
theorem Operation.IsSelect.selectKind_eq {op : Operation} {ty element : Ty} {kind : SequenceKind}
    (h : op.IsSelect) (hquery : op = .queryableSelect ↔ ty.queryItemTy?.isSome)
    (hty : ty = .sequence kind element) : op.selectKind = Native.mappedKind kind := by
  subst hty
  rcases h with rfl | rfl <;> cases kind <;>
    simp_all [selectKind, Native.mappedKind, Ty.queryItemTy?, Ty.capabilities, enumerableSelect,
      queryableSelect]

/-- A call of the projection is a call of the mapper on the item. -/
theorem Mapper.callWithin_prepared_eq {F G : Forest} {f' : Lambda} {p q : Param}
    (hf : F.fns m.expression) (hfirst : m.expression.body.FirstOrder)
    (hclosed : ∀ y, m.expression.body.Free y → y ∈ m.expression.params)
    (hp : m.expression.params = [p]) (hparams : f'.params = [q]) (hFG : F ≤ G)
    (hq : G.nodes (.param q)) (hfresh : ¬ F.nodes (.param q))
    (hbecomes : m.expression.body.Becomes (.replacing [⟨.param p, .param q⟩]) f'.body) (d : Nat)
    (env : Env) (site : Site) (quoted : Bool) (item : Value) :
    m.prepared.callWithin host d [item] =
      Function.callWithin host d ⟨f', env, site, quoted⟩ [item] := by
  cases d with
  | zero => rfl
  | succ d =>
    unfold prepared
    rw [Function.callWithin_succ, Function.callWithin_succ, Function.run_one hp,
      Function.run_one hparams]
    have hrenamed : Expr.Renamed (fun _ => False) G (.replacing [⟨.param p, .param q⟩])
        [Binding.ofArgs [p] [item]] (Binding.ofArgs [q] [item] :: env)
        m.expression.body f'.body := by
      refine ⟨hFG.1 _ (F.body hf), hfirst, hbecomes, ?_, fun {y z} hy hz => .inl ?_⟩
      · exact F.not_clashes_of_fresh hfresh (F.body hf)
      · obtain rfl : y = p := by simpa [hp] using hclosed y hy
        rcases Param.becomes_replacing_one.1 hz with ⟨-, hz⟩ | ⟨hne, -⟩
        · obtain rfl := Expr.param.inj hz
          exact ⟨by rw [Env.lookup_push_self, Env.lookup_push_self], by simp [Env.lookup_push_self]⟩
        · exact absurd rfl hne
    exact (hrenamed.refines (Judgement.replacing_one_renames hq) d _ _).eq

/-- Mapping every item of a sequence by a call, and evaluating what is put in its place, are the
same run, if the mapper's own expression gives the default output for the default items. -/
theorem Expr.evalIn_inlineOverItems {F : Forest} {id i : NodeId} {ty cty : Ty} {w : Value}
    {source e : Expr} {stem : String} {cx : BuildContext} {t t' t₀ : Trail} {d : Nat} {env : Env}
    {site : Site} (hm : Native.givenMapper host "MapAllWith" (some w) = .ok m)
    (hf : F.fns m.expression) (hF : F.Below t.next) (hfirst : m.expression.body.FirstOrder)
    (hclosed : ∀ y, m.expression.body.Free y → y ∈ m.expression.params)
    (hrun : outcome (source.inlineOverItems host (.constant i cty w) stem cx) t = (.ok e, t'))
    (hsource : ∀ v t₁, outcome (source.evalIn host (Function.callWithin host d) env
        ((site.child 1).child 0)) t₀ = (.ok v, t₁) →
      ∃ kind element items, source.ty = .sequence kind element ∧ v = .sequence kind items ∧
        ∀ item ∈ items, item.equal (.defaultOf m.input) = true →
          m.prepared.callWithin host d [item] = pure (.defaultOf m.output)) :
    outcome ((Expr.call id ty .mapAllWith none [source, .constant i cty w]).evalIn host
        (Function.callWithin host d) env site) t₀ =
      outcome (e.evalIn host (Function.callWithin host d) env site) t₀ := by
  obtain ⟨j, ety, op, lambda, f', p, q, G, rfl, hfn, hop, hquery, hparams, hp, hFG, hq, hfresh,
    hbecomes⟩ := inlineOverItems_becomes hm hf hF hrun
  obtain ⟨quoted, hvalue⟩ := evalIn_select j ety source hop hfn
  rw [evalIn_mapAllWith source hm, hvalue]
  rcases hout : outcome (source.evalIn host (Function.callWithin host d) env
    ((site.child 1).child 0)) t₀ with ⟨_ | v, t₁⟩
  · rw [outcome_bind_of_error hout, outcome_bind_of_error hout]
  obtain ⟨kind, element, items, hty, rfl, hdefault⟩ := hsource v t₁ hout
  rw [outcome_bind_of_ok hout, outcome_bind_of_ok hout]
  have hitems : items.mapM (m.mapBy (Function.callWithin host d)) = items.mapM fun item =>
      Function.callWithin host d ⟨f', env, ((site.child 1).child 1).child 0, quoted⟩ [item] := by
    refine mapM_congr_of_mem fun item hitem => ?_
    rw [← Mapper.callWithin_prepared_eq hf hfirst hclosed hp hparams hFG hq hfresh hbecomes]
    unfold Mapper.mapBy
    split
    · rename_i hequal
      exact (hdefault item hitem hequal).symm
    · rfl
  simp [Native.project, Native.givenSequence, RunM.ofExcept, hitems, hop.selectKind_eq hquery hty]

/-- Mapping two numbers, none of them the default. -/
theorem Expr.evalIn_inlineOverItems_ints :
    let p : Param := ⟨0, "a", .int⟩
    let f : Lambda := ⟨3, [p], .binary 2 .int .add (.param p) (.constant 1 .int (.int 1))⟩
    let m : Mapper := ⟨1, .int, .int, f, f⟩
    let source : Expr := .constant 4 (.sequence .list .int) (.sequence .list [.int 1, .int 2])
    let operand : Expr := .constant 5 (.mapper m.input m.output) (.mapper m)
    ∃ e t,
      outcome (source.inlineOverItems (.bare 3) operand "map_" ⟨none, none, .int⟩) { next := 6 } =
        (.ok e, t) ∧
      outcome ((Expr.call 5 (.sequence .enumerable .int) .mapAllWith none [source, operand]).evalIn
          (.bare 3) (Function.callWithin (.bare 3) 3) [] ⟨.run 9, []⟩) t =
        outcome (e.evalIn (.bare 3) (Function.callWithin (.bare 3) 3) [] ⟨.run 9, []⟩) t := by
  intro p f m source operand
  let F : Forest := .ofLists [.param p, .constant 1 .int (.int 1), f.body] [f] (by decide)
    (by decide) (by simp [parts, f]) (by simp [fn?, f]) (by simp [f]) (by simp)
  obtain ⟨e, t, hrun⟩ : ∃ e t, outcome (source.inlineOverItems (.bare 3) operand "map_"
    ⟨none, none, .int⟩) { next := 6 } = (.ok e, t) := ⟨_, _, rfl⟩
  refine ⟨e, t, hrun, Expr.evalIn_inlineOverItems (F := F) rfl (List.mem_singleton_self f) ?_ ?_ ?_
    hrun ?_⟩
  · exact Forest.below_ofLists (by decide) (by decide)
  · refine .node rfl fun d hd => ?_
    rcases List.mem_pair.1 hd with rfl | rfl
    · exact .leaf rfl rfl
    · exact .leaf rfl rfl
  · intro y hy
    rcases free_iff.1 hy with h | ⟨d, hd, h⟩ | ⟨g, hg, -⟩
    · cases h
    · rcases List.mem_pair.1 hd with rfl | rfl
      · rw [free_param.1 h]
        exact List.mem_singleton_self p
      · simpa [parts, fn?] using free_iff.1 h
    · cases hg
  · intro v t₁ h
    obtain ⟨rfl, -⟩ := outcome_pure_ok.1 h
    refine ⟨_, _, _, rfl, rfl, fun item hitem heq => ?_⟩
    rcases List.mem_pair.1 hitem with rfl | rfl <;> simp [m, Value.defaultOf, Value.equal] at heq

/-- An item that is null is mapped to the default output by the call, and fails where the call is
inlined. -/
theorem Expr.evalIn_inlineOverItems_null :
    let p : Param := ⟨0, "a", .object "A"⟩
    let f : Lambda := ⟨2, [p], .member 1 (.param p) ⟨"A", "n", .int⟩⟩
    let m : Mapper := ⟨1, .object "A", .int, f, f⟩
    let source : Expr := .constant 3 (.sequence .list (.object "A")) (.sequence .list [.null])
    let operand : Expr := .constant 4 (.mapper m.input m.output) (.mapper m)
    ∃ e t,
      outcome (source.inlineOverItems (.bare 3) operand "map_" ⟨none, none, .int⟩) { next := 5 } =
        (.ok e, t) ∧
      (outcome ((Expr.call 5 (.sequence .enumerable .int) .mapAllWith none [source, operand]).evalIn
        (.bare 3) (Function.call (.bare 3)) [] ⟨.run 9, []⟩) t).1 =
          .ok (.sequence .enumerable [.int 0]) ∧
      (outcome (e.evalIn (.bare 3) (Function.call (.bare 3)) [] ⟨.run 9, []⟩) t).1 =
        .error (.failed (.nullAccess "n")) :=
  ⟨_, _, rfl, rfl, rfl⟩

end

end ObjectMapping
