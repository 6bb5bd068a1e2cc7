import ObjectMapping.Proofs.Comparing
import ObjectMapping.Proofs.Making
import ObjectMapping.Proofs.Merging
import ObjectMapping.Proofs.Upkeep

/-!
# Well-formed trees and values

A node is formed as its builder would have it if a call has the arguments and the receiver that its
operation takes, a construction gives no member a value twice, and the parameters of a lambda are
pairwise different. A tree is well formed if all of its nodes are, those in the code inside its
constants included. `Expr.mkCall_ends`, `Expr.mkConstruct_ends` and `Lambda.ofExprs_ends` are what
the checks of the builders are for.

Evaluation makes no code, so that the values of well-formed expressions are well formed
(`Host.WellFormed.upkeep`), and so is the mapping expression that an operand holds
(`Expr.heldLambda_ends`).
-/

namespace ObjectMapping

open RunM

/-! ## Well-formed trees -/

/-- What the builders ask of a single node. -/
def Expr.Formed : Expr → Prop
  | .call _ _ op receiver arguments =>
    arguments.length = op.signature.arity ∧ receiver.isSome = op.signature.hasReceiver
  | .construct _ _ arguments assignments =>
    (arguments.map Assignment.key).Nodup ∧ (assignments.map Assignment.key).Nodup
  | .lambda _ f | .quote _ f => (f.params.map (·.id)).Nodup
  | _ => True

/-- The values inside a value, those that its code is closed over included. -/
def Value.held : Value → List Value
  | .function f => f.env.flatten.map (·.value)
  | v => v.parts

/-- The lambdas that a value holds. -/
def Value.fns : Value → List Lambda
  | .function f => [f.lambda]
  | .expression f => [f]
  | .mapper m => [m.given, m.expression]
  | _ => []

mutual

/-- Every node of the tree is formed as its builder would have it, and the values of its constants
hold well-formed trees only. -/
inductive Expr.WellFormed : Expr → Prop
  | mk {e : Expr} : e.Formed → (∀ v ∈ e.value?, Value.WellFormed v) →
    (∀ d ∈ e.parts, Expr.WellFormed d) → (∀ f ∈ e.fn?, Expr.WellFormed f.body) →
    Expr.WellFormed e

/-- The lambdas inside the value are well formed. -/
inductive Value.WellFormed : Value → Prop
  | mk {v : Value} : (∀ w ∈ v.held, Value.WellFormed w) →
    (∀ f ∈ v.fns, (f.params.map (·.id)).Nodup) → (∀ f ∈ v.fns, Expr.WellFormed f.body) →
    Value.WellFormed v

end

/-- The parameters are pairwise different and the body is well formed. -/
def Lambda.WellFormed (f : Lambda) : Prop :=
  (f.params.map (·.id)).Nodup ∧ f.body.WellFormed

/-- The values in scope are well formed. -/
def Env.WellFormed (env : Env) : Prop :=
  ∀ b ∈ env.flatten, b.value.WellFormed

namespace Expr

theorem wellFormed_iff {e : Expr} : e.WellFormed ↔ e.Formed ∧ (∀ v ∈ e.value?, v.WellFormed) ∧
    (∀ d ∈ e.parts, d.WellFormed) ∧ ∀ f ∈ e.fn?, f.body.WellFormed := by
  constructor
  · rintro ⟨hformed, hvalue, hparts, hfn⟩
    exact ⟨hformed, hvalue, hparts, hfn⟩
  · rintro ⟨hformed, hvalue, hparts, hfn⟩
    exact .mk hformed hvalue hparts hfn

theorem WellFormed.part {e d : Expr} (h : e.WellFormed) (hd : d ∈ e.parts) : d.WellFormed :=
  (wellFormed_iff.1 h).2.2.1 d hd

section

variable {id : NodeId} {ty : Ty}

attribute [local simp] Formed value? parts fn?

@[simp]
theorem wellFormed_param (p : Param) : (Expr.param p).WellFormed := by
  rw [wellFormed_iff]
  simp

@[simp]
theorem wellFormed_constant {v : Value} : (Expr.constant id ty v).WellFormed ↔ v.WellFormed := by
  rw [wellFormed_iff]
  simp

@[simp]
theorem wellFormed_default : (Expr.default id ty).WellFormed := by
  rw [wellFormed_iff]
  simp

@[simp]
theorem wellFormed_member {o : Expr} {m : Member} :
    (Expr.member id o m).WellFormed ↔ o.WellFormed := by
  rw [wellFormed_iff]
  simp

@[simp]
theorem wellFormed_unary {op : UnaryOp} {a : Expr} :
    (Expr.unary id ty op a).WellFormed ↔ a.WellFormed := by
  rw [wellFormed_iff]
  simp

@[simp]
theorem wellFormed_binary {op : BinaryOp} {a b : Expr} :
    (Expr.binary id ty op a b).WellFormed ↔ a.WellFormed ∧ b.WellFormed := by
  rw [wellFormed_iff]
  simp

@[simp]
theorem wellFormed_conditional {a b c : Expr} :
    (Expr.conditional id ty a b c).WellFormed ↔ a.WellFormed ∧ b.WellFormed ∧ c.WellFormed := by
  rw [wellFormed_iff]
  simp

@[simp]
theorem wellFormed_call {op : Operation} {receiver : Option Expr} {arguments : List Expr} :
    (Expr.call id ty op receiver arguments).WellFormed ↔
      (arguments.length = op.signature.arity ∧ receiver.isSome = op.signature.hasReceiver) ∧
        (∀ e ∈ receiver, e.WellFormed) ∧ ∀ e ∈ arguments, e.WellFormed := by
  rw [wellFormed_iff]
  simp [or_imp, forall_and]

@[simp]
theorem wellFormed_lambda {f : Lambda} : (Expr.lambda id f).WellFormed ↔ f.WellFormed := by
  rw [wellFormed_iff]
  simp [Lambda.WellFormed]

@[simp]
theorem wellFormed_quote {f : Lambda} : (Expr.quote id f).WellFormed ↔ f.WellFormed := by
  rw [wellFormed_iff]
  simp [Lambda.WellFormed]

@[simp]
theorem wellFormed_construct {arguments assignments : List Assignment} :
    (Expr.construct id ty arguments assignments).WellFormed ↔
      ((arguments.map Assignment.key).Nodup ∧ (assignments.map Assignment.key).Nodup) ∧
        (∀ a ∈ arguments, a.value.WellFormed) ∧ ∀ a ∈ assignments, a.value.WellFormed := by
  rw [wellFormed_iff]
  simp only [Formed, value?, parts, fn?,
    List.forall_mem_append, List.forall_mem_map]
  simp

@[simp]
theorem wellFormed_previous {fallback : Option Expr} :
    (Expr.previous id ty fallback).WellFormed ↔ ∀ e ∈ fallback, e.WellFormed := by
  rw [wellFormed_iff]
  simp

end

theorem WellFormed.fn {e : Expr} {f : Lambda} (h : e.WellFormed) (hf : e.fn? = some f) :
    f.WellFormed := by
  cases e with
  | lambda id g => exact Option.some.inj hf ▸ wellFormed_lambda.1 h
  | quote id g => exact Option.some.inj hf ▸ wellFormed_quote.1 h
  | _ => cases hf

theorem WellFormed.fn_body {e : Expr} {f : Lambda} (h : e.WellFormed) (hf : e.fn? = some f) :
    f.body.WellFormed :=
  (h.fn hf).2

end Expr

/-! ## Well-formed values -/

namespace Value

theorem wellFormed_iff {v : Value} :
    v.WellFormed ↔ (∀ w ∈ v.held, w.WellFormed) ∧ ∀ f ∈ v.fns, f.WellFormed := by
  constructor
  · rintro ⟨hparts, hparams, hbody⟩
    exact ⟨hparts, fun f hf => ⟨hparams f hf, hbody f hf⟩⟩
  · rintro ⟨hparts, hfns⟩
    exact .mk hparts (fun f hf => (hfns f hf).1) fun f hf => (hfns f hf).2

/-- A value that holds neither values nor code is well formed. -/
theorem wellFormed_of_plain {v : Value} (hheld : v.held = []) (hfns : v.fns = []) :
    v.WellFormed :=
  wellFormed_iff.2 (by simp [hheld, hfns])

@[simp]
theorem wellFormed_object {id : NodeId} {typeName : String} {fields : List Field} :
    (Value.object id typeName fields).WellFormed ↔ ∀ f ∈ fields, f.value.WellFormed := by
  rw [wellFormed_iff]
  simp only [held, parts, fns, List.forall_mem_map]
  simp

@[simp]
theorem wellFormed_sequence {kind : SequenceKind} {items : List Value} :
    (Value.sequence kind items).WellFormed ↔ ∀ v ∈ items, v.WellFormed := by
  rw [wellFormed_iff]
  simp [held, parts, fns]

@[simp]
theorem wellFormed_function {f : Function} :
    (Value.function f).WellFormed ↔ f.lambda.WellFormed ∧ Env.WellFormed f.env := by
  rw [wellFormed_iff]
  simp only [held, fns, Env.WellFormed, List.forall_mem_map]
  simp [and_comm]

@[simp]
theorem wellFormed_expression {f : Lambda} :
    (Value.expression f).WellFormed ↔ f.WellFormed := by
  rw [wellFormed_iff]
  simp [held, parts, fns]

@[simp]
theorem wellFormed_mapper {m : Mapper} :
    (Value.mapper m).WellFormed ↔ m.given.WellFormed ∧ m.expression.WellFormed := by
  rw [wellFormed_iff]
  simp [held, parts, fns]

end Value

/-! ## Evaluation -/

/-- What a native implementation from outside wants to happen is well formed. -/
def Outcome.WellFormed : Outcome → Prop
  | .value v => v.WellFormed
  | .failure _ => True
  | .call f args => (Value.function f).WellFormed ∧ ∀ v ∈ args, v.WellFormed

/-- A mapper that is handed out is well formed. -/
def MapperHandle.WellFormed : MapperHandle → Prop
  | .mapper m => (Value.mapper m).WellFormed
  | .ref _ => True

/-- The mappers of filled references are well formed, and natives make well-formed values of
well-formed values. -/
structure Host.WellFormed (host : Host) : Prop where
  filled {id : MapperId} {m : Mapper} : host.filled id = some m → (Value.mapper m).WellFormed
  native {name : String} {args : List Value} : (∀ v ∈ args, v.WellFormed) →
    (host.native name args).outcome.WellFormed

theorem Host.bare_wellFormed (depth : Nat) : (Host.bare depth).WellFormed where
  filled h := nomatch h
  native _ := Value.wellFormed_of_plain rfl rfl

section

variable {host : Host}

/-- Evaluation keeps values well formed, wherever well-formed code stands. -/
def Host.WellFormed.upkeep (hhost : host.WellFormed) : Upkeep host where
  value := Value.WellFormed
  stands c _ := c.All Expr.WellFormed
  plain {v} h := by cases v <;> cases h <;> exact Value.wellFormed_of_plain rfl rfl
  object := Value.wellFormed_object
  sequence := Value.wellFormed_sequence
  child h hd := h.child Expr.WellFormed.part Expr.WellFormed.fn_body (List.mem_of_getElem? hd)
  constant {e v _} h hv := (Expr.wellFormed_iff.1 h).2.1 v hv
  function h hf henv := by
    obtain ⟨e, rfl, hfn⟩ := Code.fn?_of_made? hf
    exact Value.wellFormed_function.2 ⟨Expr.WellFormed.fn h hfn, henv⟩
  body h := ⟨(Value.wellFormed_function.1 h).1.2, (Value.wellFormed_function.1 h).2⟩
  prepared h := Value.wellFormed_function.2 ⟨(Value.wellFormed_mapper.1 h).2, Env.all_nil⟩
  filled := hhost.filled
  native {name args} h := by
    have hreply : (host.native name args).outcome.WellFormed := hhost.native h
    revert hreply
    cases (host.native name args).outcome <;> exact id

/-- The values of well-formed expressions are well formed. -/
theorem Expr.evaluate_ends (hhost : host.WellFormed) {e : Expr} (he : e.WellFormed) :
    Ends (e.evaluate host) Value.WellFormed :=
  Gives.bind ends_any fun _ _ =>
    hhost.upkeep.evalIn_ends (hhost.upkeep.callWithin_calls host.depth) e he Env.all_nil

/-- The mapping expression that a well-formed operand holds is well formed. -/
theorem Expr.heldLambda_ends (hhost : host.WellFormed) {operand : Expr}
    (hoperand : operand.WellFormed) (cx : BuildContext) :
    Ends (operand.heldLambda host cx) Lambda.WellFormed := by
  refine (evaluate_ends hhost hoperand).bind fun v hv => ?_
  split
  · exact Gives.bind ends_any fun _ _ => .pure (Value.wellFormed_mapper.1 hv).2
  · refine Gives.bind ends_any fun _ _ => ?_
    split
    · exact .pure (Value.wellFormed_mapper.1 (hhost.filled ‹_›)).2
    · exact .throw
  · exact .pure (Value.wellFormed_expression.1 hv)
  · exact .pure (Value.wellFormed_function.1 hv).1
  · exact .throw
  · exact .throw

end

end ObjectMapping
