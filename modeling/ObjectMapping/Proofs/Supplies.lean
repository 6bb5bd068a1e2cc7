import ObjectMapping.Proofs.Matching
import ObjectMapping.Proofs.WellFormed

/-!
# The functions and mappers inside values

A value holds functions and mappers in its items and fields, in what its functions have captured,
and in the constants of its code. It is over a `Supply` if all of them come out of it
(`Value.Over`), and so is an expression with its constants (`Expr.Over`). Native implementations
that come from outside make up neither functions nor mappers (`Host.Supplied`).

A value over a supply of functions that stand at places that answer to themselves is matched with
itself (`Value.Over.matched`).
-/

namespace ObjectMapping

/-- Functions and mappers that values may hold. -/
structure Supply where
  functions : Function → Prop
  mappers : Mapper → Prop

/-- A supply that has all that another one has. -/
instance : LE Supply where
  le S S' := (∀ f, S.functions f → S'.functions f) ∧ ∀ m, S.mappers m → S'.mappers m

/-- All mappers, and no function. -/
def Supply.functionless : Supply where
  functions _ := False
  mappers _ := True

mutual

/-- The functions and mappers inside the constants of the expression are out of the supply. -/
inductive Expr.Over (S : Supply) : Expr → Prop
  | mk {e : Expr} : (∀ v ∈ e.value?, Value.Over S v) → (∀ d ∈ e.parts, Expr.Over S d) →
    (∀ f ∈ e.fn?, Expr.Over S f.body) → Expr.Over S e

/-- The functions and mappers inside the value are out of the supply. -/
inductive Value.Over (S : Supply) : Value → Prop
  | mk {v : Value} : (∀ f, v = .function f → S.functions f) →
    (∀ m, v = .mapper m → S.mappers m) → (∀ w ∈ v.held, Value.Over S w) →
    (∀ f ∈ v.fns, Expr.Over S f.body) → Value.Over S v

end

section

variable {S S' : Supply} {v w : Value} {e d : Expr} {f : Lambda}

namespace Supply

/-- The functions and mappers inside values : those of every supply that the values are over. -/
def of (vs : List Value) : Supply where
  functions f := ∀ S : Supply, (∀ v ∈ vs, v.Over S) → S.functions f
  mappers m := ∀ S : Supply, (∀ v ∈ vs, v.Over S) → S.mappers m

theorem of_le {vs : List Value} (h : ∀ v ∈ vs, v.Over S) : of vs ≤ S :=
  ⟨fun _ hf => hf S h, fun _ hm => hm S h⟩

theorem le_refl (S : Supply) : S ≤ S :=
  ⟨fun _ => id, fun _ => id⟩

theorem le_trans {S'' : Supply} (h : S ≤ S') (h' : S' ≤ S'') : S ≤ S'' :=
  ⟨fun f hf => h'.1 f (h.1 f hf), fun m hm => h'.2 m (h.2 m hm)⟩

end Supply

mutual

theorem Expr.Over.mono (h : S ≤ S') {e : Expr} : e.Over S → e.Over S'
  | .mk hvalue hparts hfn =>
    .mk (fun v hv => (hvalue v hv).mono h) (fun d hd => (hparts d hd).mono h)
      fun f hf => (hfn f hf).mono h

theorem Value.Over.mono (h : S ≤ S') {v : Value} : v.Over S → v.Over S'
  | .mk hfunction hmapper hheld hfns =>
    .mk (fun f hf => h.1 f (hfunction f hf)) (fun m hm => h.2 m (hmapper m hm))
      (fun w hw => (hheld w hw).mono h) fun f hf => (hfns f hf).mono h

end

namespace Expr

theorem over_iff : e.Over S ↔
    (∀ v ∈ e.value?, v.Over S) ∧ (∀ d ∈ e.parts, d.Over S) ∧ ∀ f ∈ e.fn?, f.body.Over S :=
  ⟨fun ⟨hvalue, hparts, hfn⟩ => ⟨hvalue, hparts, hfn⟩,
    fun ⟨hvalue, hparts, hfn⟩ => .mk hvalue hparts hfn⟩

theorem over_param (p : Param) : (Expr.param p).Over S :=
  .mk nofun nofun nofun

theorem over_lambda {id : NodeId} : (Expr.lambda id f).Over S ↔ f.body.Over S := by
  rw [over_iff]
  simp [value?, parts, fn?]

theorem Over.value (h : e.Over S) (hv : e.value? = some v) : v.Over S :=
  (over_iff.1 h).1 v hv

theorem Over.part (h : e.Over S) (hd : d ∈ e.parts) : d.Over S :=
  (over_iff.1 h).2.1 d hd

theorem Over.body (h : e.Over S) (hf : e.fn? = some f) : f.body.Over S :=
  (over_iff.1 h).2.2 f hf

end Expr

namespace Value

theorem over_iff : v.Over S ↔ (∀ f, v = .function f → S.functions f) ∧
    (∀ m, v = .mapper m → S.mappers m) ∧ (∀ w ∈ v.held, w.Over S) ∧
      ∀ f ∈ v.fns, f.body.Over S :=
  ⟨fun ⟨hfunction, hmapper, hheld, hfns⟩ => ⟨hfunction, hmapper, hheld, hfns⟩,
    fun ⟨hfunction, hmapper, hheld, hfns⟩ => .mk hfunction hmapper hheld hfns⟩

end Value

namespace Value

/-- What is over every supply of some values is over what is inside the values. -/
theorem Over.of_all {vs : List Value} (h : v.Over S)
    (hall : ∀ S, (∀ v ∈ vs, v.Over S) → v.Over S) : v.Over (.of vs) := by
  -- the values are inside expressions and these inside values : both have the same property
  refine @Value.Over.rec S
    (fun e _ => (∀ S, (∀ v ∈ vs, v.Over S) → e.Over S) → e.Over (.of vs))
    (fun v _ => (∀ S, (∀ v ∈ vs, v.Over S) → v.Over S) → v.Over (.of vs)) ?expr ?value v h hall
  case expr =>
    intro e _ _ _ hvalue hparts hfn hall
    exact .mk (fun v hv => hvalue v hv fun S h => (hall S h).value hv)
      (fun d hd => hparts d hd fun S h => (hall S h).part hd)
      fun f hf => hfn f hf fun S h => (hall S h).body hf
  case value =>
    intro v _ _ _ _ hheld hfns hall
    exact .mk (fun f hf S h => (over_iff.1 (hall S h)).1 f hf)
      (fun m hm S h => (over_iff.1 (hall S h)).2.1 m hm)
      (fun w hw => hheld w hw fun S h => (over_iff.1 (hall S h)).2.2.1 w hw)
      fun f hf => hfns f hf fun S h => (over_iff.1 (hall S h)).2.2.2 f hf

theorem over_of_isPlain (h : v.isPlain = true) : v.Over S := by
  rw [over_iff]
  cases v <;> cases h <;> simp [held, parts, fns]

@[simp]
theorem over_object {id : NodeId} {typeName : String} {fields : List Field} :
    (Value.object id typeName fields).Over S ↔ ∀ f ∈ fields, f.value.Over S := by
  rw [over_iff]
  simp only [held, parts, fns, List.forall_mem_map]
  simp

@[simp]
theorem over_sequence {kind : SequenceKind} {items : List Value} :
    (Value.sequence kind items).Over S ↔ ∀ v ∈ items, v.Over S := by
  rw [over_iff]
  simp [held, parts, fns]

@[simp]
theorem over_function {f : Function} :
    (Value.function f).Over S ↔ S.functions f ∧ f.lambda.body.Over S ∧ Env.All (Over S) f.env := by
  rw [over_iff]
  simp only [held, fns, Env.All, List.forall_mem_map]
  simp [and_comm]

@[simp]
theorem over_mapper {m : Mapper} :
    (Value.mapper m).Over S ↔ S.mappers m ∧ m.given.body.Over S ∧ m.expression.body.Over S := by
  rw [over_iff]
  simp [held, parts, fns]

/-- A function that is one of the values is inside them. -/
theorem functions_of {f : Function} {vs : List Value} (h : Value.function f ∈ vs) :
    (Supply.of vs).functions f :=
  fun _ hvs => (over_function.1 (hvs _ h)).1

/-- A value over places that answer to themselves is matched with itself. -/
theorem Over.matched {σ : Placement} (hfunctions : ∀ f, S.functions f → σ.rel f.site f.site)
    (hmappers : ∀ m, S.mappers m → σ.rel ⟨.mapper m.id, []⟩ ⟨.mapper m.id, []⟩)
    (h : v.Over S) : v.Matched σ (Expr.Over S) v := by
  induction v using Value.byParts with
  | object i ty fs ih =>
    refine .object i (List.forall₂_same.2 fun ⟨name, w⟩ hf => .mk ?_)
    exact ih ⟨name, w⟩ hf (over_object.1 h _ hf)
  | sequence kind vs ih =>
    exact .sequence (List.forall₂_same.2 fun v hv => ih v hv (over_sequence.1 h v hv))
  | function f ih =>
    obtain ⟨f, env, s, quoted⟩ := f
    obtain ⟨hf, hbody, henv⟩ := over_function.1 h
    have hself : Env.All (fun v => v.Matched σ (Expr.Over S) v) env := fun b hb =>
      have ⟨frame, hframe, hmem⟩ := List.mem_flatten.1 hb
      ih frame hframe b hmem (henv b hb)
    refine .function hbody (fun _ _ => rfl) (fun x v w _ hv hw => ?_) (hfunctions _ hf)
    obtain rfl := Option.some.inj (hv.symm.trans hw)
    exact hself.lookup hv
  | expression f => exact .expression f
  | mapper m => exact .mapper (over_mapper.1 h).2.2 (hmappers m (over_mapper.1 h).1)
  | mapperReference ref => exact .mapperReference ref
  | _ => constructor

/-- A value that holds no function is matched with nothing but itself. -/
theorem Matched.eq_of_functionless {σ : Placement} {C : Expr → Prop} (h : v.Matched σ C w)
    (hv : v.Over .functionless) : v = w := by
  induction v using Value.byParts generalizing w with
  | object i ty fs ih =>
    cases h with | @object _ _ _ gs hfs =>
    have hall : List.Forall₂ Eq fs gs := forall₂_imp_of_mem hfs fun f hf g hfg => by
      cases hfg with | mk hvw => exact congrArg (Field.mk _) (ih _ hf hvw (over_object.1 hv _ hf))
    rw [List.forall₂_eq_eq_eq] at hall
    rw [hall]
  | sequence kind vs ih =>
    cases h with | @sequence _ _ ws hvs =>
    have hall : List.Forall₂ Eq vs ws := forall₂_imp_of_mem hvs fun a ha b hab =>
      ih a ha hab (over_sequence.1 hv a ha)
    rw [List.forall₂_eq_eq_eq] at hall
    rw [hall]
  | function f _ => exact (over_function.1 hv).1.elim
  | _ => cases h; rfl

end Value

/-! ## Native implementations -/

/-- The mappers of filled references are out of the supply, and what native implementations answer
holds no function and no mapper but those, and the ones that they are given. -/
structure Host.Supplied (S : Supply) (host : Host) : Prop where
  filled {id : MapperId} {m : Mapper} : host.filled id = some m → (Value.mapper m).Over S
  native {S' : Supply} {name : String} {args : List Value} : S ≤ S' → (∀ v ∈ args, v.Over S') →
    (host.native name args).outcome.All (Value.Over S')

theorem Host.bare_supplied (S : Supply) (depth : Nat) : (Host.bare depth).Supplied S where
  filled h := nomatch h
  native _ _ := Value.over_of_isPlain rfl

theorem Host.Supplied.mono (h : S ≤ S') {host : Host} (hhost : host.Supplied S) :
    host.Supplied S' where
  filled hm := (hhost.filled hm).mono h
  native h' := hhost.native (Supply.le_trans h h')

end

end ObjectMapping
