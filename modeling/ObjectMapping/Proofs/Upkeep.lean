import ObjectMapping.Proofs.Comparing
import ObjectMapping.Proofs.Merging
import ObjectMapping.Proofs.Relating

/-!
# What evaluation keeps of values

Evaluation takes values apart and puts them together, and it makes functions of the code that it
comes to. An `Upkeep` is a property of values that goes through all of this, with what it takes of
the code at each place : a sequence and an object have it if their items and fields do, and a
function has it if its code and its environment allow for it.

What stands at a place is a `Code`, an expression or some that are evaluated one after the other.
`Upkeep.evalIn_ends` and `Upkeep.call_ends` say that evaluation and calls end with values that have
the property.
-/

namespace ObjectMapping

open RunM

/-! ## Code -/

/-- What stands at a place of prepared code. -/
inductive Code where
  | expr (e : Expr)
  | list (es : List Expr)
  | assignments (as : List Assignment)

namespace Code

/-- What stands at the children of a place, in the order of their positions. -/
def children : Code → List Code
  | .expr (.member _ o _) => [.expr o]
  | .expr (.unary _ _ _ a) => [.expr a]
  | .expr (.binary _ _ _ a b) => [.expr a, .expr b]
  | .expr (.conditional _ _ a b c) => [.expr a, .expr b, .expr c]
  | .expr (.call _ _ _ receiver arguments) => [receiver.elim (.list []) .expr, .list arguments]
  | .expr (.lambda _ f) | .expr (.quote _ f) => [.expr f.body]
  | .expr (.construct _ _ as bs) => [.assignments as, .assignments bs]
  | .list (e :: es) => [.expr e, .list es]
  | .assignments (a :: as) => [.expr a.value, .assignments as]
  | _ => []

/-- The lambda that is made a function of, and whether it is a quoted one. -/
def made? : Code → Option (Lambda × Bool)
  | .expr (.lambda _ f) => some (f, false)
  | .expr (.quote _ f) => some (f, true)
  | _ => none

theorem fn?_of_made? {c : Code} {f : Lambda} {quoted : Bool} (h : c.made? = some (f, quoted)) :
    ∃ e, c = .expr e ∧ e.fn? = some f := by
  cases c with
  | expr e =>
    cases e with
    | lambda | quote =>
      cases h
      exact ⟨_, rfl, rfl⟩
    | _ => cases h
  | _ => cases h

theorem children_of_made? {c : Code} {f : Lambda} {quoted : Bool}
    (h : c.made? = some (f, quoted)) : c.children[0]? = some (.expr f.body) := by
  obtain ⟨e, rfl, hf⟩ := fn?_of_made? h
  cases e with
  | lambda | quote =>
    obtain rfl := Option.some.inj hf
    rfl
  | _ => cases hf

/-- All expressions of the code satisfy a condition. -/
def All (P : Expr → Prop) : Code → Prop
  | .expr e => P e
  | .list es => ∀ e ∈ es, P e
  | .assignments as => ∀ a ∈ as, P a.value

/-- A condition that parts and bodies inherit is inherited by what stands at the children. -/
theorem All.child {P : Expr → Prop} (hpart : ∀ {e d : Expr}, P e → d ∈ e.parts → P d)
    (hbody : ∀ {e : Expr} {f : Lambda}, P e → e.fn? = some f → P f.body) {c d : Code}
    (h : c.All P) (hd : d ∈ c.children) : d.All P := by
  cases c with
  | expr e =>
    have part (d : Expr) (hd : d ∈ e.parts) : P d := hpart h hd
    cases e with
    | lambda id f | quote id f =>
      obtain rfl := List.mem_singleton.1 hd
      exact hbody h rfl
    | call id ty op receiver arguments =>
      rcases List.mem_pair.1 hd with rfl | rfl
      · cases receiver with
        | none => simp [All]
        | some r => exact part r (by simp [Expr.parts])
      · exact fun e he => part e (by simp [Expr.parts, he])
    | construct id ty as bs =>
      rcases List.mem_pair.1 hd with rfl | rfl
      · exact fun a ha => part _ (List.mem_append_left _ (List.mem_map_of_mem ha))
      · exact fun b hb => part _ (List.mem_append_right _ (List.mem_map_of_mem hb))
    | member | unary =>
      obtain rfl := List.mem_singleton.1 hd
      exact part _ (by simp [Expr.parts])
    | binary => rcases List.mem_pair.1 hd with rfl | rfl <;> exact part _ (by simp [Expr.parts])
    | conditional =>
      simp only [children, List.mem_cons, List.not_mem_nil, or_false] at hd
      rcases hd with rfl | rfl | rfl <;> exact part _ (by simp [Expr.parts])
    | _ => cases hd
  | list es =>
    cases es with
    | nil => cases hd
    | cons e es =>
      rcases List.mem_pair.1 hd with rfl | rfl
      · exact h e (by simp)
      · exact fun d hd => h d (by simp [hd])
  | assignments as =>
    cases as with
    | nil => cases hd
    | cons a as =>
      rcases List.mem_pair.1 hd with rfl | rfl
      · exact h a (by simp)
      · exact fun b hb => h b (by simp [hb])

end Code

/-! ## Values put together -/

section

variable {P : Value → Prop}

/-- The values in scope have a property. -/
def Env.All (P : Value → Prop) (env : Env) : Prop :=
  ∀ b ∈ env.flatten, P b.value

/-- What a native implementation from outside wants to happen is about values with a property. -/
def Outcome.All (P : Value → Prop) : Outcome → Prop
  | .value v => P v
  | .failure _ => True
  | .call f args => P (.function f) ∧ ∀ v ∈ args, P v

/-- Setting a field to a value with a property. -/
theorem Field.forall_set {name : String} {v : Value} (hv : P v) {fields : List Field}
    (h : ∀ f ∈ fields, P f.value) : ∀ f ∈ set name v fields, P f.value := by
  induction fields with
  | nil => simpa [set] using hv
  | cons g rest ih =>
    have hg := h g (by simp)
    have hrest : ∀ f ∈ rest, P f.value := fun f hf => h f (by simp [hf])
    unfold set
    split
    · exact List.forall_mem_cons.2 ⟨hv, hrest⟩
    · exact List.forall_mem_cons.2 ⟨hg, ih hrest⟩

namespace Env

theorem all_nil : Env.All P [] :=
  fun _ hb => nomatch hb

theorem All.push {env : Env} (henv : env.All P) (params : List Param) {args : List Value}
    (hargs : ∀ v ∈ args, P v) : Env.All P (Binding.ofArgs params args :: env) := by
  intro b hb
  rcases List.mem_append.1 hb with hb | hb
  · simp only [Binding.ofArgs, List.mem_iff_getElem, List.getElem_zipWith] at hb
    obtain ⟨i, hi, rfl⟩ := hb
    exact hargs _ (List.getElem_mem _)
  · exact henv b hb

theorem All.lookup {env : Env} (henv : env.All P) {x : NodeId} {v : Value}
    (h : env.lookup x = some v) : P v := by
  obtain ⟨frame, hframe, h⟩ := List.exists_of_findSome?_eq_some h
  obtain ⟨b, hb, rfl⟩ := Option.map_eq_some_iff.1 h
  exact henv b (List.mem_flatten.2 ⟨frame, hframe, List.mem_of_find?_eq_some hb⟩)

end Env

end

/-! ## What is kept -/

/-- A property of values that evaluation keeps, and what it takes of the code at each place. -/
structure Upkeep (host : Host) where
  value : Value → Prop
  stands : Code → Site → Prop
  plain {v : Value} : v.isPlain = true → value v
  object {id : NodeId} {ty : String} {fs : List Field} :
    value (.object id ty fs) ↔ ∀ f ∈ fs, value f.value
  sequence {kind : SequenceKind} {vs : List Value} :
    value (.sequence kind vs) ↔ ∀ v ∈ vs, value v
  child {c d : Code} {s : Site} {i : Nat} : stands c s → c.children[i]? = some d →
    stands d (s.child i)
  constant {e : Expr} {v : Value} {s : Site} : stands (.expr e) s → e.value? = some v → value v
  function {c : Code} {f : Lambda} {quoted : Bool} {env : Env} {s : Site} : stands c s →
    c.made? = some (f, quoted) → env.All value → value (.function ⟨f, env, s, quoted⟩)
  body {f : Function} : value (.function f) →
    stands (.expr f.lambda.body) (f.site.child 0) ∧ Env.All value f.env
  prepared {m : Mapper} : value (.mapper m) → value (.function m.prepared)
  filled {id : MapperId} {m : Mapper} : host.filled id = some m → value (.mapper m)
  native {name : String} {args : List Value} : (∀ v ∈ args, value v) →
    (host.native name args).outcome.All value

namespace Upkeep

variable {host : Host} (U : Upkeep host) {call : Caller}

/-- Calling a function with the property on values that have it ends with values that have it. -/
def Calls (call : Caller) : Prop :=
  ∀ f args, U.value (.function f) → (∀ v ∈ args, U.value v) → Ends (call f args) U.value

theorem default (ty : Ty) : U.value (.defaultOf ty) :=
  U.plain (Value.isPlain_defaultOf ty)

/-! ## Native implementations -/

section

variable {U} {context : String} {o : Option Value}

theorem givenSequence {given : SequenceKind × List Value} (ho : ∀ v ∈ o, U.value v)
    (h : Native.givenSequence context o = .ok given) : ∀ v ∈ given.2, U.value v := by
  unfold Native.givenSequence at h
  split at h
  · obtain rfl := Except.ok.inj h
    exact U.sequence.1 (ho _ rfl)
  all_goals cases h

theorem givenMapper {m : Mapper} (ho : ∀ v ∈ o, U.value v)
    (h : Native.givenMapper host context o = .ok m) : U.value (.mapper m) := by
  unfold Native.givenMapper at h
  split at h
  · obtain rfl := Except.ok.inj h
    exact ho _ rfl
  · split at h
    · rename_i hfilled
      obtain rfl := Except.ok.inj h
      exact U.filled hfilled
    · cases h
  all_goals cases h

theorem givenFunction {f : Function} (ho : ∀ v ∈ o, U.value v)
    (h : Native.givenFunction context o = .ok f) : U.value (.function f) := by
  unfold Native.givenFunction at h
  split at h
  · obtain rfl := Except.ok.inj h
    exact ho _ rfl
  all_goals cases h

theorem mapBy_ends (hcall : U.Calls call) {m : Mapper} {v : Value} (hm : U.value (.mapper m))
    (hv : U.value v) : Ends (m.mapBy call v) U.value :=
  .ite (fun _ => .pure (U.default _)) fun _ => hcall _ _ (U.prepared hm) (by simpa using hv)

theorem run_ends (hcall : U.Calls call) {args : List Value} (hargs : ∀ v ∈ args, U.value v)
    (native : Native) : Ends (native.run host call args) U.value := by
  have hhead : ∀ v ∈ args.head?, U.value v := fun v hv => hargs v (List.mem_of_head? hv)
  have hsecond : ∀ v ∈ args[1]?, U.value v := fun v hv => hargs v (List.mem_of_getElem? hv)
  have hgetD {o : Option Value} (ho : ∀ v ∈ o, U.value v) : U.value (o.getD .null) := by
    cases o with
    | none => exact U.plain rfl
    | some v => exact ho v rfl
  cases native with
  | select kind =>
    refine (ends_ofExcept fun _ => givenSequence hhead).bind fun given hgiven => ?_
    refine (ends_ofExcept fun _ => givenFunction hsecond).bind fun f hf => ?_
    refine (Gives.mapM fun v hv => hcall _ _ hf (by simpa using hgiven v hv)).bind fun vs hvs => ?_
    exact .pure (U.sequence.2 hvs)
  | convert kind =>
    refine (ends_ofExcept fun _ => givenSequence hhead).bind fun given hgiven => ?_
    exact .pure (U.sequence.2 hgiven)
  | toUpper =>
    simp only [Native.run]
    split
    · exact .pure (U.plain rfl)
    all_goals exact .throw
  | mapWith =>
    refine (ends_ofExcept fun _ => givenMapper hsecond).bind fun m hm => ?_
    exact mapBy_ends hcall hm (hgetD hhead)
  | mapAllWith =>
    refine (ends_ofExcept fun _ => givenMapper hsecond).bind fun m hm => ?_
    refine (ends_ofExcept fun _ => givenSequence hhead).bind fun given hgiven => ?_
    refine (Gives.mapM fun v hv => mapBy_ends hcall hm (hgiven v hv)).bind fun vs hvs => ?_
    exact .pure (U.sequence.2 hvs)
  | map =>
    refine (ends_ofExcept fun _ => givenMapper hhead).bind fun m hm => ?_
    exact mapBy_ends hcall hm (hgetD hsecond)
  | custom name =>
    refine Gives.bind ends_any fun _ _ => ?_
    have hreply : (host.native name args).outcome.All U.value := U.native hargs
    split
    · rename_i v hv
      rw [hv] at hreply
      exact .pure hreply
    · exact .throw
    · rename_i f args' hf
      rw [hf] at hreply
      exact hcall _ _ hreply.1 hreply.2

end

/-! ## Expressions -/

/-- The values of an expression, where it stands and with values in scope that have the property,
have it. -/
def Evaluates (call : Caller) (e : Expr) : Prop :=
  ∀ {env : Env} {s : Site}, U.stands (.expr e) s → env.All U.value →
    Ends (e.evalIn host call env s) U.value

section

variable {U} {env : Env} {s : Site}

theorem evalList_ends {es : List Expr} (h : ∀ e ∈ es, U.Evaluates call e)
    (hs : U.stands (.list es) s) (henv : env.All U.value) :
    Ends (Expr.evalList host call env s es) fun vs => ∀ v ∈ vs, U.value v := by
  induction es generalizing s with
  | nil => exact .pure (by simp)
  | cons e es ih =>
    refine (h e (by simp) (U.child hs rfl) henv).bind fun v hv => ?_
    refine (ih (fun d hd => h d (by simp [hd])) (U.child hs rfl)).bind fun vs hvs => .pure ?_
    exact List.forall_mem_cons.2 ⟨hv, hvs⟩

theorem evalAssignments_ends {as : List Assignment} (h : ∀ a ∈ as, U.Evaluates call a.value)
    (hs : U.stands (.assignments as) s) (henv : env.All U.value) {fields : List Field}
    (hfields : ∀ f ∈ fields, U.value f.value) :
    Ends (Assignment.evalList host call env s fields as) fun fs => ∀ f ∈ fs, U.value f.value := by
  induction as generalizing s fields with
  | nil => exact .pure hfields
  | cons a as ih =>
    obtain ⟨m, e⟩ := a
    refine (h ⟨m, e⟩ (by simp) (U.child hs rfl) henv).bind fun v hv => ?_
    exact ih (fun b hb => h b (by simp [hb])) (U.child hs rfl) (Field.forall_set hv hfields)

/-- The value of a field of a value with the property has it. -/
theorem field {v w : Value} {name : String} (h : U.value v) (hw : v.field name = .ok w) :
    U.value w := by
  cases v with
  | object id typeName fields =>
    simp only [Value.field] at hw
    split at hw
    · rename_i hlookup
      obtain rfl := Except.ok.inj hw
      obtain ⟨f, hf, rfl⟩ := List.mem_map.1 (Field.mem_of_lookup hlookup)
      exact U.object.1 h f hf
    · cases hw
  | _ => cases hw

/-- The values of an expression have the property where it stands. -/
theorem evalIn_ends (hcall : U.Calls call) (e : Expr) : U.Evaluates call e := by
  induction e using Expr.byParts with
  | param p =>
    intro env s _ henv
    simp only [Expr.evalIn]
    split
    · exact .pure (henv.lookup ‹_›)
    · exact .throw
  | constant id ty v => exact fun hs _ => .pure (U.constant hs rfl)
  | default id ty => exact fun _ _ => .pure (U.default ty)
  | lambda id f | quote id f => exact fun hs henv => .pure (U.function hs rfl henv)
  | member id o m ih =>
    intro env s hs henv
    exact (ih (U.child hs rfl) henv).bind fun v hv => ends_ofExcept fun _ => field hv
  | unary id ty op a ih =>
    intro env s hs henv
    refine (ih (U.child hs rfl) henv).bind fun v hv => ends_ofExcept fun _ h => ?_
    exact U.plain (UnaryOp.isPlain_apply h)
  | binary id ty op a b iha ihb =>
    intro env s hs henv
    refine (iha (U.child hs rfl) henv).bind fun v hv => ?_
    have hb : Ends (b.evalIn host call env (s.child 1)) U.value := ihb (U.child hs rfl) henv
    have htruth (x : Except Failure Bool) : Ends (ofExcept x) fun _ => True := ends_any
    split
    · exact (htruth _).bind fun _ _ => .ite (fun _ => hb) fun _ => .pure (U.plain rfl)
    · exact (htruth _).bind fun _ _ => .ite (fun _ => .pure (U.plain rfl)) fun _ => hb
    · refine hb.bind fun w hw => ends_ofExcept fun _ h => ?_
      exact U.plain (BinaryOp.isPlain_apply h)
  | conditional id ty a b c iha ihb ihc =>
    intro env s hs henv
    refine (iha (U.child hs rfl) henv).bind fun v hv => ?_
    exact Gives.bind ends_any fun _ _ => .ite (fun _ => ihb (U.child hs rfl) henv)
      fun _ => ihc (U.child hs rfl) henv
  | call id ty op receiver arguments ihr iha =>
    intro env s hs henv
    have hreceiver : Ends (Expr.evalOption host call env (s.child 0) receiver)
        fun vs => ∀ v ∈ vs, U.value v := by
      cases receiver with
      | none => exact .pure (by simp)
      | some r =>
        exact (ihr r rfl (U.child hs rfl) henv).bind fun v hv => .pure (by simpa using hv)
    refine hreceiver.bind fun vs hvs => ?_
    refine (evalList_ends iha (U.child hs rfl) henv).bind fun ws hws => ?_
    simp only [Operation.invokeBy]
    split
    · refine run_ends hcall (fun v hv => ?_) _
      exact (List.mem_append.1 hv).elim (hvs v) (hws v)
    · exact .throw
  | construct id ty as bs iha ihb =>
    intro env s hs henv
    refine (evalAssignments_ends iha (U.child hs rfl) henv (by simp)).bind fun fs hfs => ?_
    refine (evalAssignments_ends ihb (U.child hs rfl) henv hfs).bind fun gs hgs => ?_
    exact Gives.bind ends_any fun _ _ => .pure (U.object.2 hgs)
  | previous => exact fun _ _ => .throw

end

/-! ## Calls -/

/-- Calls keep the property, however deeply they may be nested. -/
theorem callWithin_calls (d : Nat) : U.Calls (Function.callWithin host d) := by
  induction d with
  | zero => exact fun _ _ _ _ => .throw
  | succ d ih =>
    intro f args hf hargs
    obtain ⟨hbody, henv⟩ := U.body hf
    exact .ite (fun _ => .throw) fun _ => evalIn_ends ih _ hbody (henv.push _ hargs)

/-- A function with the property, called on values that have it, yields values that have it. -/
theorem call_ends {f : Function} {args : List Value} (hf : U.value (.function f))
    (hargs : ∀ v ∈ args, U.value v) : Ends (f.call host args) U.value :=
  U.callWithin_calls host.depth f args hf hargs

end Upkeep

end ObjectMapping
