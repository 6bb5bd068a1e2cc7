import ObjectMapping.Proofs.Comparing
import ObjectMapping.Proofs.Expansions
import ObjectMapping.Proofs.Merging

/-!
# Parameters that a tree needs

A tree needs a parameter if a node of it occurs in the tree and no lambda around the node binds it
(`Expr.Needs`). The lambdas that constants hold may count as well : one that is included is put into
the scope that the constant stands in. No visit goes into a constant, though, so that a parameter
that is replaced stays in the lambdas that constants hold, while the lambda that has bound it is
gone or binds another one.

`Expr.Becomes.needs` says in general what a tree needs after a visit, and
`Expr.Becomes.needs_of_replacing` what it needs after a replacement : in the tree itself nothing
that it has not needed before, and in constants nothing else but what has been replaced.
-/

namespace ObjectMapping

/-! ## Needed parameters -/

/-- How far one looks for parameters : in the tree alone, or also in the lambdas that constants
hold. -/
inductive Reach where
  | tree
  | constants

/-- The lambda that a node holds, as its own or, that far, as the value of a constant. -/
def Expr.lambda? : Reach → Expr → Option Lambda
  | _, .lambda _ f | _, .quote _ f | .constants, .constant _ _ (.expression f) => some f
  | _, _ => none

/-- One of the parameters has the identity. -/
def Param.Bind (i : NodeId) (ps : List Param) : Prop :=
  ∃ p ∈ ps, p.id = i

/-- A node of the parameter occurs in the expression, and no lambda around the node binds it. -/
inductive Expr.Needs (reach : Reach) (i : NodeId) : Expr → Prop
  | here {p : Param} : p.id = i → Needs reach i (.param p)
  | part {e d : Expr} : d ∈ e.parts → Needs reach i d → Needs reach i e
  | body {e : Expr} {f : Lambda} : e.lambda? reach = some f → ¬ Param.Bind i f.params →
    Needs reach i f.body → Needs reach i e

/-- The body of the lambda needs the parameter, and the lambda does not bind it. -/
def Lambda.Needs (reach : Reach) (i : NodeId) (f : Lambda) : Prop :=
  ¬ Param.Bind i f.params ∧ f.body.Needs reach i

/-- Every parameter node in the lambda is bound by a lambda around it, also in the lambdas that
constants hold. -/
def Lambda.Closed (f : Lambda) : Prop :=
  ∀ i, ¬ f.Needs .constants i

section

variable {reach : Reach} {i id : NodeId} {ty : Ty} {f : Lambda}

theorem Expr.needs_iff {e : Expr} : e.Needs reach i ↔ (∃ p, e = .param p ∧ p.id = i) ∨
    (∃ d ∈ e.parts, d.Needs reach i) ∨ ∃ f, e.lambda? reach = some f ∧ f.Needs reach i := by
  constructor
  · intro h
    cases h with
    | here hp => exact .inl ⟨_, rfl, hp⟩
    | part hd h => exact .inr (.inl ⟨_, hd, h⟩)
    | body hf hps h => exact .inr (.inr ⟨_, hf, hps, h⟩)
  · rintro (⟨p, rfl, hp⟩ | ⟨d, hd, h⟩ | ⟨f, hf, hps, h⟩)
    · exact .here hp
    · exact .part hd h
    · exact .body hf hps h

@[simp]
theorem Expr.needs_param {p : Param} : (Expr.param p).Needs reach i ↔ p.id = i := by
  rw [needs_iff]
  cases reach <;> simp [parts, lambda?]

/-- A constant needs what the lambda needs that it holds. -/
@[simp]
theorem Expr.needs_constant {v : Value} : (Expr.constant id ty v).Needs reach i ↔
    reach = .constants ∧ ∃ f, v = .expression f ∧ f.Needs reach i := by
  rw [needs_iff]
  cases reach <;> cases v <;> simp [parts, lambda?]

/-- A node of a kind that holds no lambda needs what its parts need. -/
theorem Expr.needs_iff_parts {e : Expr} {k : Kind} (hk : e.kind? = some k) (hf : e.fn? = none) :
    e.Needs reach i ↔ ∃ d ∈ e.parts, d.Needs reach i := by
  rw [needs_iff]
  cases e <;> simp_all [kind?, fn?, lambda?]

/-- A node with a lambda needs what the lambda needs. -/
theorem Expr.needs_of_fn? {e : Expr} (hf : e.fn? = some f) :
    e.Needs reach i ↔ f.Needs reach i := by
  rw [needs_iff]
  cases e <;> cases reach <;> simp_all [fn?, parts, lambda?]

/-- What the tree needs is needed. -/
theorem Expr.Needs.of_reach {e : Expr} (h : e.Needs reach i) : e.Needs .constants i := by
  induction h with
  | here hp => exact .here hp
  | part hd _ ih => exact .part hd ih
  | @body e f hf hps _ ih =>
    refine .body ?_ hps ih
    cases reach with
    | tree => cases e <;> simp_all [lambda?]
    | constants => exact hf

@[simp]
theorem Expr.needs_default : ¬ (Expr.default id ty).Needs reach i := by
  simp [needs_iff_parts (e := .default id ty) rfl rfl, parts]

@[simp]
theorem Expr.needs_binary {op : BinaryOp} {a b : Expr} :
    (Expr.binary id ty op a b).Needs reach i ↔ a.Needs reach i ∨ b.Needs reach i := by
  simp [needs_iff_parts (e := .binary id ty op a b) rfl rfl, parts]

@[simp]
theorem Expr.needs_conditional {a b c : Expr} : (Expr.conditional id ty a b c).Needs reach i ↔
    a.Needs reach i ∨ b.Needs reach i ∨ c.Needs reach i := by
  simp [needs_iff_parts (e := .conditional id ty a b c) rfl rfl, parts]

@[simp]
theorem Expr.needs_call {op : Operation} {receiver : Option Expr} {arguments : List Expr} :
    (Expr.call id ty op receiver arguments).Needs reach i ↔
      (∃ d ∈ receiver, d.Needs reach i) ∨ ∃ d ∈ arguments, d.Needs reach i := by
  simp [needs_iff_parts (e := .call id ty op receiver arguments) rfl rfl, parts, or_and_right,
    exists_or]

@[simp]
theorem Expr.needs_construct {arguments assignments : List Assignment} :
    (Expr.construct id ty arguments assignments).Needs reach i ↔
      (∃ a ∈ arguments, a.value.Needs reach i) ∨ ∃ a ∈ assignments, a.value.Needs reach i := by
  simp [needs_iff_parts (e := .construct id ty arguments assignments) rfl rfl, parts, or_and_right,
    exists_or]

end

/-! ## Visits -/

section

variable {reach : Reach} {J : Judgement} {P : Expr → Prop} {i : NodeId}

/-- Parameters and constants are rebuilt as they are. -/
theorem Expr.Rebuilt.eq_of_kind? {e e' : Expr} (h : e.Rebuilt J e') (he' : e'.kind? = none) :
    e = e' := by
  cases h with
  | param | constant => rfl
  | _ => cases he'

/-- What is needed after a visit was needed before, or it is so because of `Q`, which takes the
place of `R` on the nodes that are entered. -/
theorem Expr.Becomes.needs {R Q : Prop} {e e' : Expr} (h : e.Becomes J e') (he : e.All P)
    (hi : e'.Needs reach i) (hstands : ∀ {e}, J.stands e → e.standIn? ≠ none)
    (henters : ∀ {e}, P e → J.enters e → e.kind? = none → e.Needs reach i → R ∨ Q)
    (hputs : ∀ {e e'}, e.All P → J.puts e e' → e'.Needs reach i → e.Needs .constants i ∧ R ∨ Q)
    (hbinds : ∀ {ps qs}, R → List.Forall₂ (Param.Becomes J) ps qs → Param.Bind i ps →
      Param.Bind i qs) : e.Needs .constants i ∧ R ∨ Q := by
  induction e using Expr.byPart generalizing e' with
  | h e ihpart ihfn =>
    cases h with
    | put h => exact hputs he h hi
    | standIn _ hd h =>
      have hmem := mem_parts_of_standIn? hd
      exact (ihpart _ hmem h (he.part hmem) hi).imp_left (And.imp_left (.part hmem))
    | stay h hd => exact absurd hd (hstands h)
    | enter h hr =>
      by_cases hk : e'.kind? = none
      · obtain rfl := hr.eq_of_kind? hk
        exact (henters he.head h hk hi).imp_left fun hR => ⟨hi.of_reach, hR⟩
      cases hf' : e'.fn? with
      | none =>
        obtain ⟨k, hk⟩ := Option.ne_none_iff_exists'.1 hk
        obtain ⟨d', hd', hi⟩ := (needs_iff_parts hk hf').1 hi
        obtain ⟨d, hd, hbecomes⟩ := forall₂_mem_right hr.parts_becomes hd'
        exact (ihpart d hd hbecomes (he.part hd) hi).imp_left (And.imp_left (.part hd))
      | some f' =>
        obtain ⟨hunbound, hi⟩ := (needs_of_fn? hf').1 hi
        obtain ⟨f, hf, hbecomes⟩ := hr.fn?_becomes hf'
        refine (ihfn f hf hbecomes.body (he.fn hf).body hi).imp_left fun ⟨hi, hR⟩ => ⟨?_, hR⟩
        exact (needs_of_fn? hf).2 ⟨fun hps => hunbound (hbinds hR hbecomes.params hps), hi⟩

/-- What is needed where placeholders have been filled is needed by the value or by the previous
one. -/
theorem Expr.Becomes.needs_of_filling {previous : Option Expr} {e e' : Expr}
    (h : e.Becomes (.filling previous) e') (hi : e'.Needs .constants i) :
    e.Needs .constants i ∨ ∃ d ∈ previous, d.Needs .constants i := by
  refine (h.needs (R := True) (e.all_of_forall fun _ => trivial) hi
    (fun hs => Option.isSome_iff_ne_none.1 hs.2.2) (fun _ _ _ _ => .inl trivial)
    (fun _ hput hi => .inr ⟨_, hput.2, hi⟩) fun _ hps hbind => ?_).imp_left And.left
  rwa [Param.eq_of_becomes hps fun hput => nomatch hput.1]

/-- What is needed where nodes have been replaced was needed before, and is none of them, or it
comes with what is put in. In constants it may also be one of them. -/
theorem Expr.Becomes.needs_of_replacing {F : Forest} {rs : List Replacement} {e e' : Expr}
    (h : e.Becomes (.replacing rs) e') (hold : ∀ r ∈ rs, F.nodes r.old) (he : F.nodes e)
    (hi : e'.Needs reach i) : e.Needs .constants i ∧ (∀ r ∈ rs, r.old.id ≠ i) ∨
      (∃ r ∈ rs, r.new.Needs .constants i) ∨ reach = .constants ∧ ∃ r ∈ rs, r.old.id = i := by
  refine h.needs (F.all he) hi (fun h => h.elim) (fun {d} hd henter hk hi => ?_) ?_ ?_
  · by_cases hreplaced : ∃ r ∈ rs, r.old.id = i
    · refine .inr (.inr ⟨?_, hreplaced⟩)
      obtain ⟨p, rfl⟩ | ⟨j, ty, v, rfl⟩ | ⟨k, hk'⟩ := d.kind?_cases
      · -- the node would have been replaced
        obtain ⟨r, hr, hold'⟩ := hreplaced
        exact absurd (F.node_eq hd (hold r hr) ((needs_param.1 hi).trans hold'.symm)) (henter r hr)
      · exact (needs_constant.1 hi).1
      · exact nomatch hk.symm.trans hk'
    · exact .inl fun r hr hi => hreplaced ⟨r, hr, hi⟩
  · rintro d d' - ⟨r, hr, -, rfl⟩ hi
    exact .inr (.inl ⟨r, hr, hi.of_reach⟩)
  · rintro ps qs hothers hps ⟨p, hp, hi⟩
    obtain ⟨q, hq, ⟨r, hr, hpr, -⟩ | ⟨-, rfl⟩⟩ := forall₂_mem_left hps hp
    · exact absurd (hpr ▸ hi) (hothers r hr)
    · exact ⟨q, hq, hi⟩

end

end ObjectMapping
