import ObjectMapping.Expansion

/-!
# Following a run

A run threads a state and may fail ; `outcome` is what it comes to from a state. `outcome_bind_ok`
takes a run that ends with a result apart at its first step, and `outcome_bind_of_ok` and
`outcome_bind_of_error` put one together again. `CarriesTrail` is what the state of a run and the
state of a pass have in common : a trail, which is all that a run inside a pass changes.
-/

namespace ObjectMapping

/-- A computation that threads a state and may fail. -/
abbrev Steps (σ : Type) := ExceptT Fault (StateM σ)

/-- What a computation comes to from a state : a result or a fault, and the state it leaves. -/
def outcome {σ α : Type} (x : Steps σ α) (s : σ) : Except Fault α × σ :=
  x s

/-- A run that is evaluated to success has a result. -/
theorem exists_ok_of_isOk {ε α : Type} : ∀ {r : Except ε α}, r.isOk = true → ∃ a, r = .ok a
  | .ok a, _ => ⟨a, rfl⟩

section

variable {σ α β : Type} {s s' s₁ : σ}

@[simp]
theorem outcome_pure (a : α) (s : σ) : outcome (pure a) s = (.ok a, s) :=
  rfl

/-- A run that is evaluated to success ends with a result. -/
theorem outcome_of_isOk {x : Steps σ α} (h : (outcome x s).1.isOk = true) :
    ∃ a s', outcome x s = (.ok a, s') := by
  obtain ⟨a, ha⟩ := exists_ok_of_isOk h
  exact ⟨a, _, Prod.ext ha rfl⟩

/-- A step that ends hands its result and its state to the next one. -/
theorem outcome_bind_of_ok {x : Steps σ α} {f : α → Steps σ β} {a : α}
    (h : outcome x s = (.ok a, s₁)) : outcome (x >>= f) s = outcome (f a) s₁ := by
  change (match outcome x s with | (r, s₁) => (ExceptT.bindCont f r) s₁) = _
  rw [h]
  rfl

/-- A step that fails ends the run. -/
theorem outcome_bind_of_error {x : Steps σ α} {f : α → Steps σ β} {e : Fault}
    (h : outcome x s = (.error e, s₁)) : outcome (x >>= f) s = (.error e, s₁) := by
  change (match outcome x s with | (r, s₁) => (ExceptT.bindCont f r) s₁) = _
  rw [h]
  rfl

/-- A run of two steps ends with a result exactly if both do. -/
theorem outcome_bind_ok {x : Steps σ α} {f : α → Steps σ β} {b : β} :
    outcome (x >>= f) s = (.ok b, s') ↔
      ∃ a s₁, outcome x s = (.ok a, s₁) ∧ outcome (f a) s₁ = (.ok b, s') := by
  rcases h : outcome x s with ⟨_ | a, s₁⟩
  · simp [outcome_bind_of_error h]
  · rw [outcome_bind_of_ok h]
    constructor
    · exact fun hf => ⟨a, s₁, rfl, hf⟩
    · rintro ⟨a', s₁', heq, hf⟩
      obtain ⟨rfl, rfl⟩ : a = a' ∧ s₁ = s₁' := by simpa using heq
      exact hf

theorem outcome_pure_ok {a b : α} : outcome (pure a) s = (.ok b, s') ↔ a = b ∧ s = s' := by
  simp

end

namespace RunM

variable {α : Type} {t t' : Trail}

@[simp]
theorem outcome_fresh (t : Trail) : outcome fresh t = (.ok t.next, { t with next := t.next + 1 }) :=
  rfl

theorem outcome_fresh_ok {n : NodeId} :
    outcome fresh t = (.ok n, t') ↔ n = t.next ∧ t' = { t with next := t.next + 1 } := by
  rw [outcome_fresh, Prod.mk.injEq, Except.ok.injEq, eq_comm, @eq_comm _ _ t']

@[simp]
theorem outcome_fail (e : Failure) (t : Trail) :
    outcome (fail e : RunM α) t = (.error (.failed e), t) :=
  rfl

@[simp]
theorem outcome_reject (e : ArgumentFault) (t : Trail) :
    outcome (reject e : RunM α) t = (.error (.failed (.argument e)), t) :=
  rfl

end RunM

/-- A host that knows no mappers and no natives. -/
def Host.bare (depth : Nat) : Host :=
  ⟨depth, fun _ => none, fun _ _ => ⟨[], .value .null⟩, fun _ => none⟩

/-! ## Runs inside a pass -/

/-- A state that carries a trail, which is the part of it that a run inside changes. -/
class CarriesTrail (σ : Type) [MonadLiftT RunM (Steps σ)] where
  trail : σ → Trail
  outcome_lift {α : Type} {run : RunM α} {s s' : σ} {a : α} :
    outcome (liftM run : Steps σ α) s = (.ok a, s') → outcome run (trail s) = (.ok a, trail s')
  outcome_lift_of_ok {α : Type} {run : RunM α} {s : σ} {a : α} :
    outcome run (trail s) = (.ok a, trail s) → outcome (liftM run : Steps σ α) s = (.ok a, s)

instance : CarriesTrail Trail where
  trail := id
  outcome_lift h := h
  outcome_lift_of_ok h := h

instance : CarriesTrail (Trail × TransformerCache) where
  trail := Prod.fst
  outcome_lift {_ run s s' _} h := by
    obtain ⟨t, cache⟩ := s
    change ((run t).1, ((run t).2, cache)) = _ at h
    obtain ⟨hr, rfl⟩ := Prod.mk.inj h
    exact Prod.ext hr rfl
  outcome_lift_of_ok {_ run s _} h := by
    obtain ⟨t, cache⟩ := s
    change ((outcome run t).1, ((outcome run t).2, cache)) = _
    rw [h]

end ObjectMapping
