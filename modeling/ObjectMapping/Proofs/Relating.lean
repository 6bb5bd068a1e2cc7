import ObjectMapping.Evaluation
import ObjectMapping.Proofs.Forest
import ObjectMapping.Proofs.Lists

/-!
# Values that are related level by level

What evaluation does with values looks at their shape, and at the identities of objects and the
places of functions only where values are compared. `Value.Like` says that two values have the same
shape and related parts. Under a relation that implies it for its own parts, two values have the
same text, operators agree on them where comparisons do, and so do lookups of fields and parameters.
-/

set_option linter.unusedSectionVars false

namespace ObjectMapping

/-! ## Parts of values -/

section

variable {P : Value → Prop} (null : P .null) (bool : ∀ b, P (.bool b)) (int : ∀ i, P (.int i))
  (float : ∀ x, P (.float x)) (string : ∀ s, P (.string s))
  (object : ∀ i ty fs, (∀ f ∈ fs, P f.value) → P (.object i ty fs))
  (sequence : ∀ kind vs, (∀ v ∈ vs, P v) → P (.sequence kind vs))
  (function : ∀ f, (∀ frame ∈ f.env, ∀ b ∈ frame, P b.value) → P (.function f))
  (expression : ∀ f, P (.expression f)) (mapper : ∀ m, P (.mapper m))
  (mapperReference : ∀ r, P (.mapperReference r))

include null bool int float string object sequence function expression mapper mapperReference

mutual

/-- Induction over a value and the values inside it, code apart. -/
@[elab_as_elim]
theorem Value.byParts : ∀ v : Value, P v
  | .null => null
  | .bool b => bool b
  | .int i => int i
  | .float x => float x
  | .string s => string s
  | .object i ty fs => object i ty fs (Field.byPartsList fs)
  | .sequence kind vs => sequence kind vs (Value.byPartsList vs)
  | .function f => function f (Function.byPartsEnv f)
  | .expression f => expression f
  | .mapper m => mapper m
  | .mapperReference r => mapperReference r

theorem Value.byPartsList : ∀ vs : List Value, ∀ v ∈ vs, P v
  | [], _, h => nomatch h
  | v :: vs, _, h => (List.mem_cons.1 h).elim (· ▸ Value.byParts v) (Value.byPartsList vs _)

theorem Field.byPartsList : ∀ fs : List Field, ∀ f ∈ fs, P f.value
  | [], _, h => nomatch h
  | ⟨_, v⟩ :: fs, _, h =>
    (List.mem_cons.1 h).elim (· ▸ Value.byParts v) (Field.byPartsList fs _)

theorem Binding.byPartsList : ∀ bs : List Binding, ∀ b ∈ bs, P b.value
  | [], _, h => nomatch h
  | ⟨_, v⟩ :: bs, _, h =>
    (List.mem_cons.1 h).elim (· ▸ Value.byParts v) (Binding.byPartsList bs _)

theorem Env.byPartsList : ∀ env : List (List Binding), ∀ frame ∈ env, ∀ b ∈ frame, P b.value
  | [], _, h => nomatch h
  | frame :: env, _, h =>
    (List.mem_cons.1 h).elim (· ▸ Binding.byPartsList frame) (Env.byPartsList env _)

theorem Function.byPartsEnv : ∀ f : Function, ∀ frame ∈ f.env, ∀ b ∈ frame, P b.value
  | ⟨_, env, _, _⟩ => Env.byPartsList env

end

end

/-! ## Related parts -/

/-- Fields of the same name with related values. -/
inductive Field.Like (R : Value → Value → Prop) : Field → Field → Prop
  | mk {name : String} {v w : Value} : R v w → Field.Like R ⟨name, v⟩ ⟨name, w⟩

/-- Bindings of the same parameter to related values. -/
inductive Binding.Like (R : Value → Value → Prop) : Binding → Binding → Prop
  | mk {x : NodeId} {v w : Value} : R v w → Binding.Like R ⟨x, v⟩ ⟨x, w⟩

/-- Environments that bind the same parameters to related values. -/
abbrev Env.Like (R : Value → Value → Prop) : Env → Env → Prop :=
  List.Forall₂ (List.Forall₂ (Binding.Like R))

/-- Values of the same shape with related parts, functions of the same code. -/
inductive Value.Like (R : Value → Value → Prop) : Value → Value → Prop
  | null : Value.Like R .null .null
  | bool (b : Bool) : Value.Like R (.bool b) (.bool b)
  | int (i : Int64) : Value.Like R (.int i) (.int i)
  | float (x : Float) : Value.Like R (.float x) (.float x)
  | string (s : String) : Value.Like R (.string s) (.string s)
  | object (i j : NodeId) {ty : String} {fs gs : List Field} :
    List.Forall₂ (Field.Like R) fs gs → Value.Like R (.object i ty fs) (.object j ty gs)
  | sequence {kind : SequenceKind} {vs ws : List Value} : List.Forall₂ R vs ws →
    Value.Like R (.sequence kind vs) (.sequence kind ws)
  | function {f g : Function} : f.lambda = g.lambda → Value.Like R (.function f) (.function g)
  | expression (f : Lambda) : Value.Like R (.expression f) (.expression f)
  | mapper (m : Mapper) : Value.Like R (.mapper m) (.mapper m)
  | mapperReference (ref : MapperReference) :
    Value.Like R (.mapperReference ref) (.mapperReference ref)

section

variable {R : Value → Value → Prop}

/-- Setting a field to related values. -/
theorem Field.Like.set {fs gs : List Field} (h : List.Forall₂ (Field.Like R) fs gs) (name : String)
    {v w : Value} (hv : R v w) :
    List.Forall₂ (Field.Like R) (Field.set name v fs) (Field.set name w gs) := by
  induction h with
  | nil => exact .cons (.mk hv) .nil
  | cons h hrest ih =>
    cases h with | mk h =>
    simp only [Field.set]
    split
    · exact .cons (.mk hv) hrest
    · exact .cons (.mk h) ih

/-- Fields of a name hold related values, or there are none on either side. -/
theorem Field.Like.lookup {fs gs : List Field} (h : List.Forall₂ (Field.Like R) fs gs)
    (name : String) : Option.Rel R (Field.lookup name fs) (Field.lookup name gs) := by
  induction h with
  | nil => exact .none
  | cons h _ ih =>
    cases h with | mk h =>
    simp only [Field.lookup]
    split
    · exact .some h
    · exact ih

theorem Field.Like.covers_eq {fs fs' gs gs' : List Field} (hf : List.Forall₂ (Field.Like R) fs fs')
    (hg : List.Forall₂ (Field.Like R) gs gs') : covers fs gs = covers fs' gs' := by
  have names {fs gs : List Field} (h : List.Forall₂ (Field.Like R) fs gs) :
      fs.map (·.name) = gs.map (·.name) :=
    map_eq_map_of_forall₂ (h.imp fun _ _ h => by cases h; rfl)
  have covers_eq (fs gs : List Field) : covers fs gs =
      (gs.map (·.name)).all fun x => (fs.map (·.name)).any (· == x) := by
    simp [covers, List.all_map, List.any_map, Function.comp_def]
  rw [covers_eq, covers_eq, names hf, names hg]

/-- A parameter is bound to related values, or unbound on both sides. -/
theorem Env.Like.lookup {env env' : Env} (h : env.Like R env') (x : NodeId) :
    Option.Rel R (env.lookup x) (env'.lookup x) := by
  have find {frame frame' : List Binding} (h : List.Forall₂ (Binding.Like R) frame frame') :
      Option.Rel R ((frame.find? (·.param == x)).map (·.value))
        ((frame'.find? (·.param == x)).map (·.value)) := by
    induction h with
    | nil => exact .none
    | cons h _ ih =>
      cases h with | mk h =>
      simp only [List.find?_cons]
      split
      · exact .some h
      · exact ih
  unfold Env.lookup
  induction h with
  | nil => exact .none
  | @cons frame frame' _ _ h _ ih =>
    have hfind := find h
    rw [List.findSome?_cons, List.findSome?_cons]
    generalize (frame.find? (·.param == x)).map (·.value) = o at hfind ⊢
    generalize (frame'.find? (·.param == x)).map (·.value) = o' at hfind ⊢
    cases hfind with
    | none => exact ih
    | some h => exact .some h

theorem Binding.ofArgs_like (params : List Param) {vs ws : List Value} (h : List.Forall₂ R vs ws) :
    List.Forall₂ (Binding.Like R) (ofArgs params vs) (ofArgs params ws) := by
  induction h generalizing params with
  | nil => simp [ofArgs]
  | cons h _ ih =>
    cases params with
    | nil => exact .nil
    | cons p params => exact .cons (.mk h) (ih params)

/-! ## Texts and comparisons -/

/-- Related values have the same text. -/
theorem Value.Like.text_eq (hR : ∀ {v w}, R v w → v.Like R w) {v w : Value} (h : R v w) :
    v.text = w.text := by
  induction v using Value.byParts generalizing w with
  | object i ty fs ih =>
    have texts {fs gs : List Field} (ih : ∀ f ∈ fs, ∀ {w}, R f.value w → f.value.text = w.text)
        (h : List.Forall₂ (Field.Like R) fs gs) : Field.texts fs = Field.texts gs := by
      induction h with
      | nil => rfl
      | cons h _ ihrest =>
        cases h with | @mk name v w h =>
        rw [Field.texts, Field.texts, ih ⟨name, v⟩ (by simp) h,
          ihrest fun f hf => ih f (by simp [hf])]
    cases hR h with | object _ _ hfs =>
    rw [text, text, texts ih hfs, isEmpty_eq_of_forall₂ hfs]
  | sequence kind vs ih =>
    have texts {vs ws : List Value} (ih : ∀ v ∈ vs, ∀ {w}, R v w → v.text = w.text)
        (h : List.Forall₂ R vs ws) : Value.texts vs = Value.texts ws := by
      induction h with
      | nil => rfl
      | cons h _ ihrest =>
        rw [Value.texts, Value.texts, ih _ (by simp) h, ihrest fun v hv => ih v (by simp [hv])]
    cases hR h with | sequence hvs =>
    rw [text, text, texts ih hvs]
  | function f ih =>
    cases hR h with | @function f g hfg =>
    obtain ⟨f, env, s, quoted⟩ := f
    obtain ⟨g, env', s', quoted'⟩ := g
    obtain rfl : f = g := hfg
    rfl
  | _ =>
    cases hR h
    rfl

/-- Contents compare alike if the values in them do. -/
theorem Field.Like.allIn_eq {fs fs' gs gs' : List Field}
    (ih : ∀ f ∈ fs, ∀ {a' b b' : Value}, R f.value a' → R b b' → f.value.equal b = a'.equal b')
    (hf : List.Forall₂ (Field.Like R) fs fs') (hg : List.Forall₂ (Field.Like R) gs gs')
    (seen : List String) : Field.allIn seen fs gs = Field.allIn seen fs' gs' := by
  induction hf generalizing seen with
  | nil => rfl
  | cons h _ ihrest =>
    cases h with | @mk name v v' h =>
    simp only [Field.allIn, ihrest fun f hf => ih f (by simp [hf])]
    have hlookup := Field.Like.lookup hg name
    generalize Field.lookup name gs = o, Field.lookup name gs' = o' at hlookup
    cases hlookup with
    | none => rfl
    | some hbb => simp only [ih ⟨name, v⟩ (by simp) h hbb]

theorem Value.Like.equalList_eq {vs vs' ws ws' : List Value}
    (ih : ∀ v ∈ vs, ∀ {a' b b' : Value}, R v a' → R b b' → v.equal b = a'.equal b')
    (hv : List.Forall₂ R vs vs') (hw : List.Forall₂ R ws ws') :
    Value.equalList vs ws = Value.equalList vs' ws' := by
  induction hv generalizing ws ws' with
  | nil => cases hw <;> rfl
  | cons h _ ihrest =>
    cases hw with
    | nil => rfl
    | cons h' hw =>
      simp only [Value.equalList, ih _ (by simp) h h', ihrest (fun v hv => ih v (by simp [hv])) hw]

/-! ## Operators -/

/-- Results that agree : related values, or the same failure. -/
inductive Agree {α β : Type} (R : α → β → Prop) : Except Failure α → Except Failure β → Prop
  | ok {a : α} {b : β} : R a b → Agree R (.ok a) (.ok b)
  | error (e : Failure) : Agree R (.error e) (.error e)

/-- A result that does not depend on the run agrees with itself. -/
theorem Agree.of_eq {α : Type} {R : α → α → Prop} {x y : Except Failure α} (h : y = x)
    (hR : ∀ a, x = .ok a → R a a) : Agree R x y := by
  subst h
  cases y with
  | ok a => exact .ok (hR a rfl)
  | error e => exact .error e


namespace Value.Like

variable (hR : ∀ {v w}, R v w → v.Like R w) {a a' b b' v w : Value}

include hR

theorem field (h : R v w) (name : String) : Agree R (v.field name) (w.field name) := by
  cases hR h with
  | object _ _ hfs =>
    have hlookup := Field.Like.lookup hfs name
    rename_i fs gs
    simp only [Value.field]
    generalize Field.lookup name fs = o, Field.lookup name gs = o' at hlookup
    cases hlookup with
    | none => exact .error _
    | some h => exact .ok h
  | _ => exact .error _

theorem truth_eq (h : R v w) (context : String) : v.truth context = w.truth context := by
  cases hR h <;> rfl

theorem appendedText_eq (h : R v w) : v.appendedText = w.appendedText := by
  have htext := text_eq hR h
  cases hR h <;> first | rfl | exact htext

theorem order_eq (ha : R a a') (hb : R b b') (op : BinaryOp) : a.order op b = a'.order op b' := by
  cases hR ha <;> cases hR hb <;> rfl

theorem add_eq (ha : R a a') (hb : R b b') : a.add b = a'.add b' := by
  have hta := appendedText_eq hR ha
  have htb := appendedText_eq hR hb
  cases hR ha <;> cases hR hb <;> first | rfl | simp only [Value.add, hta, htb]

theorem subtract_eq (ha : R a a') (hb : R b b') : a.subtract b = a'.subtract b' := by
  cases hR ha <;> cases hR hb <;> rfl

theorem multiply_eq (ha : R a a') (hb : R b b') : a.multiply b = a'.multiply b' := by
  cases hR ha <;> cases hR hb <;> rfl

theorem unary_eq (op : UnaryOp) (h : R v w) : op.apply v = op.apply w := by
  cases op <;> cases hR h <;> rfl

/-- Operators agree on related values if the values compare alike. -/
theorem binary_eq (op : BinaryOp) (ha : R a a') (hb : R b b') (hequal : a.equal b = a'.equal b') :
    op.apply a b = op.apply a' b' := by
  simp only [BinaryOp.apply, hequal, order_eq hR ha hb, add_eq hR ha hb, subtract_eq hR ha hb,
    multiply_eq hR ha hb, truth_eq hR ha, truth_eq hR hb]

end Value.Like

/-! ## Plain values -/

/-- Values without parts. -/
def Value.isPlain : Value → Bool
  | .null | .bool _ | .int _ | .float _ | .string _ => true
  | _ => false

theorem Value.isPlain_defaultOf (ty : Ty) : (Value.defaultOf ty).isPlain = true := by
  cases ty <;> rfl

theorem UnaryOp.isPlain_apply {op : UnaryOp} {v w : Value} (h : op.apply v = .ok w) :
    w.isPlain = true := by
  cases op <;> cases v <;> cases h <;> rfl

theorem BinaryOp.isPlain_apply {op : BinaryOp} {a b c : Value} (h : op.apply a b = .ok c) :
    c.isPlain = true := by
  -- every operator but the arithmetic ones yields a truth value
  have test {α : Type} {x : Except Failure α} {f : α → Bool}
      (h : (x >>= fun r => pure (.bool (f r))) = Except.ok c) : c.isPlain = true := by
    cases x <;> cases h
    rfl
  have arithmetic (h : a.add b = .ok c ∨ a.subtract b = .ok c ∨ a.multiply b = .ok c) :
      c.isPlain = true := by
    rcases h with h | h | h <;> cases a <;> cases b <;> cases h <;> rfl
  cases op with
  | equal | notEqual =>
    cases h
    rfl
  | add => exact arithmetic (.inl h)
  | subtract => exact arithmetic (.inr (.inl h))
  | multiply => exact arithmetic (.inr (.inr h))
  | less | lessOrEqual | greater | greaterOrEqual => exact test h
  | and | or =>
    unfold apply at h
    generalize a.truth _ = x at h
    cases x with
    | error => cases h
    | ok => exact test h

end

end ObjectMapping
