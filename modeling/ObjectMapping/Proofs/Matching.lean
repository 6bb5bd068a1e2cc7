import ObjectMapping.Proofs.Pairing
import ObjectMapping.Proofs.Scoping
import ObjectMapping.Proofs.Upkeep

/-!
# Values that no code tells apart

A function is a lambda, an environment and a place of prepared code. Evaluation compares places and
looks up what the lambda captures, and it sees nothing else of a function. `Value.Matched` relates
values that are the same but for that : the places answer to each other one to one (`Placement`),
and the environments agree on the captured parameters, whatever else they bind.

Matched values compare alike (`Value.Matched.equal_eq`), so operators agree on them. Where all
places answer to themselves, matched values are the same but for bindings that functions do not
capture (`Value.Indiscernible`).
-/

namespace ObjectMapping

/-! ## Places -/

/-- Which place of prepared code of one run answers to which of another, one to one. The places
below answer to each other in turn. -/
structure Placement where
  rel : Site → Site → Prop
  left_eq {s s' r : Site} : rel s r → rel s' r → s = s'
  right_eq {s r r' : Site} : rel s r → rel s r' → r = r'
  child {s r : Site} : rel s r → ∀ i, rel (s.child i) (r.child i)

namespace Placement

/-- All places answer to themselves. -/
def same : Placement where
  rel := Eq
  left_eq h h' := h.trans h'.symm
  right_eq h h' := h.symm.trans h'
  child h i := congrArg (·.child i) h

theorem same_rel (s : Site) : same.rel s s :=
  rfl

/-- Places are the same on the one side exactly if they are on the other. -/
theorem beq_eq (σ : Placement) {s s' r r' : Site} (h : σ.rel s r) (h' : σ.rel s' r') :
    (s == s') = (r == r') := by
  rw [Bool.eq_iff_iff, beq_iff_eq, beq_iff_eq]
  exact ⟨fun heq => σ.right_eq h (heq ▸ h'), fun heq => σ.left_eq h (heq ▸ h')⟩

end Placement

/-! ## Matched values -/

/-- The parameter is free in the body of the lambda, which does not bind it. -/
def Lambda.Captures (f : Lambda) (x : Param) : Prop :=
  (∀ y ∈ f.params, y.id ≠ x.id) ∧ f.body.Free x

/-- Values that are the same but for the places of functions, which answer to each other, and for
the bindings that functions do not capture. The code that they run is in `C`. -/
inductive Value.Matched (σ : Placement) (C : Expr → Prop) : Value → Value → Prop
  | null : Value.Matched σ C .null .null
  | bool (b : Bool) : Value.Matched σ C (.bool b) (.bool b)
  | int (i : Int64) : Value.Matched σ C (.int i) (.int i)
  | float (x : Float) : Value.Matched σ C (.float x) (.float x)
  | string (s : String) : Value.Matched σ C (.string s) (.string s)
  | object (i : NodeId) {ty : String} {fs gs : List Field} :
    List.Forall₂ (Field.Like (Value.Matched σ C)) fs gs →
    Value.Matched σ C (.object i ty fs) (.object i ty gs)
  | sequence {kind : SequenceKind} {vs ws : List Value} :
    List.Forall₂ (Value.Matched σ C) vs ws →
    Value.Matched σ C (.sequence kind vs) (.sequence kind ws)
  | function {f : Lambda} {env env' : Env} {s s' : Site} {quoted : Bool} : C f.body →
    (∀ x, f.Captures x → (env.lookup x.id).isSome = (env'.lookup x.id).isSome) →
    (∀ x v w, f.Captures x → env.lookup x.id = some v → env'.lookup x.id = some w →
      Value.Matched σ C v w) → σ.rel s s' →
    Value.Matched σ C (.function ⟨f, env, s, quoted⟩) (.function ⟨f, env', s', quoted⟩)
  | expression (f : Lambda) : Value.Matched σ C (.expression f) (.expression f)
  | mapper {m : Mapper} : C m.expression.body →
    σ.rel ⟨.mapper m.id, []⟩ ⟨.mapper m.id, []⟩ → Value.Matched σ C (.mapper m) (.mapper m)
  | mapperReference (ref : MapperReference) :
    Value.Matched σ C (.mapperReference ref) (.mapperReference ref)

/-- Environments that bind what the lambda captures to matched values. -/
def Lambda.CapturesAlike (σ : Placement) (C : Expr → Prop) (f : Lambda) (env env' : Env) : Prop :=
  ∀ x, f.Captures x → Option.Rel (Value.Matched σ C) (env.lookup x.id) (env'.lookup x.id)

section

variable {σ : Placement} {C : Expr → Prop} {f : Lambda} {env env' : Env} {s s' : Site}
  {quoted : Bool}

theorem Value.Matched.of_captures (hC : C f.body) (henv : f.CapturesAlike σ C env env')
    (hs : σ.rel s s') :
    (Value.function ⟨f, env, s, quoted⟩).Matched σ C (.function ⟨f, env', s', quoted⟩) := by
  refine .function hC (fun x hx => ?_) (fun x v w hx hv hw => ?_) hs
  · have hlookup := henv x hx
    generalize env.lookup x.id = o, env'.lookup x.id = o' at hlookup
    cases hlookup <;> rfl
  · have hlookup := henv x hx
    rw [hv, hw] at hlookup
    cases hlookup with | some h => exact h

theorem Value.Matched.captures
    (h : (Value.function ⟨f, env, s, quoted⟩).Matched σ C (.function ⟨f, env', s', quoted⟩)) :
    f.CapturesAlike σ C env env' := by
  cases h with | function _ hsome henv _ =>
  intro x hx
  have hsome := hsome x hx
  cases hv : env.lookup x.id with
  | none =>
    cases hw : env'.lookup x.id with
    | none => exact .none
    | some w => simp [hv, hw] at hsome
  | some v =>
    cases hw : env'.lookup x.id with
    | none => simp [hv, hw] at hsome
    | some w => exact .some (henv x v w hx hv hw)

end

section

variable {σ : Placement} {C : Expr → Prop} {v w a a' b b' : Value}

theorem Value.Matched.like (h : v.Matched σ C w) : v.Like (Value.Matched σ C) w := by
  cases h with
  | object i hfs => exact .object i i hfs
  | sequence h => exact .sequence h
  | function => exact .function rfl
  | _ => constructor

/-- A value without parts is matched with itself. -/
theorem Value.Matched.of_isPlain (h : v.isPlain = true) : v.Matched σ C v := by
  cases v <;> cases h <;> constructor

/-- Matched values compare alike. -/
theorem Value.Matched.equal_eq (ha : a.Matched σ C a') (hb : b.Matched σ C b') :
    a.equal b = a'.equal b' := by
  induction a using Value.byParts generalizing a' b b' with
  | object i ty fs ih =>
    cases ha with | object _ hfs =>
    cases hb with
    | object j hgs =>
      simp only [equal, Field.Like.allIn_eq ih hfs hgs, Field.Like.covers_eq hfs hgs,
        Field.Like.covers_eq hgs hfs]
    | _ => rfl
  | sequence kind vs ih =>
    cases ha with | sequence hvs =>
    cases hb with
    | sequence hws =>
      simp only [equal, Value.Like.equalList_eq ih hvs hws, hvs.length_eq, hws.length_eq]
    | _ => rfl
  | function f _ =>
    cases ha with | function _ _ _ hsite =>
    cases hb with
    | function _ _ _ hsite' => simp only [equal, σ.beq_eq hsite hsite']
    | _ => rfl
  | _ =>
    cases ha
    cases hb <;> rfl

theorem UnaryOp.apply_matched (op : UnaryOp) (h : v.Matched σ C w) :
    Agree (Value.Matched σ C) (op.apply v) (op.apply w) :=
  .of_eq (Value.Like.unary_eq Value.Matched.like op h).symm
    fun _ hc => .of_isPlain (isPlain_apply hc)

theorem BinaryOp.apply_matched (op : BinaryOp) (ha : a.Matched σ C a') (hb : b.Matched σ C b') :
    Agree (Value.Matched σ C) (op.apply a b) (op.apply a' b') :=
  .of_eq (Value.Like.binary_eq Value.Matched.like op ha hb (ha.equal_eq hb)).symm
    fun _ hc => .of_isPlain (isPlain_apply hc)

/-- Values that are the same but for the bindings that functions do not capture. -/
abbrev Value.Indiscernible (v w : Value) : Prop :=
  v.Matched .same (fun _ => True) w

theorem Value.Indiscernible.refl (v : Value) : v.Indiscernible v := by
  induction v using Value.byParts with
  | object i ty fs ih =>
    exact .object i (List.forall₂_same.2 fun ⟨name, w⟩ hf => .mk (ih ⟨name, w⟩ hf))
  | sequence kind vs ih => exact .sequence (List.forall₂_same.2 ih)
  | function f ih =>
    obtain ⟨f, env, s, quoted⟩ := f
    refine .function trivial (fun _ _ => rfl) (fun x v w _ hv hw => ?_) (Placement.same_rel _)
    have henv : Env.All (fun v => v.Indiscernible v) env := fun b hb =>
      have ⟨frame, hframe, hb⟩ := List.mem_flatten.1 hb
      ih frame hframe b hb
    obtain rfl := Option.some.inj (hv.symm.trans hw)
    exact henv.lookup hv
  | expression f => exact .expression f
  | mapper m => exact .mapper trivial (Placement.same_rel _)
  | mapperReference ref => exact .mapperReference ref
  | _ => constructor

end

end ObjectMapping
