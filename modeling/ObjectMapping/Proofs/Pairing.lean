import ObjectMapping.Proofs.Likeness
import ObjectMapping.Proofs.Upholding
import ObjectMapping.Inlining

/-!
# Runs side by side

Two runs of the same code that start from different trails take different identities. A `Pairing`
keeps account of which identity of the one run answers to which of the other, one to one. `InStep`
says that two runs come to paired results or to paired faults, whatever else has been paired before,
and `InStep.bind` puts two such pairs of runs together.

A comparison of identities comes out the same on both sides (`Pairing.eq_iff`), which is why runs in
step take the same decisions. Faults may differ in the names of parameters that were generated from
an identity, and in nothing else (`Fault.Paired`). What two runs write to their logs is the same
(`Abreast`).
-/

namespace ObjectMapping

open RunM

/-! ## Pairings -/

/-- Which identity of one run answers to which identity of another, one to one. -/
structure Pairing where
  rel : NodeId → NodeId → Prop
  left_eq {i i' j : NodeId} : rel i j → rel i' j → i = i'
  right_eq {i j j' : NodeId} : rel i j → rel i j' → j = j'

namespace Pairing

variable {ρ τ υ : Pairing} {i i' j j' n : NodeId}

/-- A pairing that has all pairs of another one. -/
instance : LE Pairing where
  le ρ τ := ∀ i j, ρ.rel i j → τ.rel i j

theorem le_refl (ρ : Pairing) : ρ ≤ ρ :=
  fun _ _ => id

theorem le_trans (h : ρ ≤ τ) (h' : τ ≤ υ) : ρ ≤ υ :=
  fun i j hij => h' i j (h i j hij)

/-- Identities are the same on the one side exactly if they are on the other. -/
theorem eq_iff (h : ρ.rel i j) (h' : ρ.rel i' j') : i = i' ↔ j = j' :=
  ⟨fun heq => ρ.right_eq h (heq ▸ h'), fun heq => ρ.left_eq h (heq ▸ h')⟩

theorem beq_eq (h : ρ.rel i j) (h' : ρ.rel i' j') : (i == i') = (j == j') := by
  rw [Bool.eq_iff_iff, beq_iff_eq, beq_iff_eq, eq_iff h h']

/-- The identities below `n` answer to themselves. -/
def below (n : NodeId) : Pairing where
  rel i j := i = j ∧ i < n
  left_eq h h' := h.1.trans h'.1.symm
  right_eq h h' := h.1.symm.trans h'.1

/-- All identities answer to themselves. -/
def same : Pairing where
  rel := Eq
  left_eq h h' := h.trans h'.symm
  right_eq h h' := h.symm.trans h'

theorem rel_of_below (h : below n ≤ ρ) (hi : i < n) : ρ.rel i i :=
  h i i ⟨rfl, hi⟩

/-- The pairing with one more pair. -/
def push (ρ : Pairing) (i j : NodeId) (hi : ∀ k, ¬ ρ.rel i k) (hj : ∀ k, ¬ ρ.rel k j) :
    Pairing where
  rel a b := ρ.rel a b ∨ a = i ∧ b = j
  left_eq := by
    rintro a a' b (h | h) (h' | h')
    · exact ρ.left_eq h h'
    · exact absurd (h'.2 ▸ h) (hj _)
    · exact absurd (h.2 ▸ h') (hj _)
    · exact h.1.trans h'.1.symm
  right_eq := by
    rintro a b b' (h | h) (h' | h')
    · exact ρ.right_eq h h'
    · exact absurd (h'.1 ▸ h) (hi _)
    · exact absurd (h.1 ▸ h') (hi _)
    · exact h.2.trans h'.2.symm

/-- Names are the same, or they were generated from paired identities. -/
inductive Named (ρ : Pairing) : String → String → Prop
  | same (name : String) : Named ρ name name
  | generated {i j : NodeId} (stem : String) : ρ.rel i j →
    Named ρ (stem ++ Expr.uniqueName i) (stem ++ Expr.uniqueName j)

theorem Named.mono (h : ρ ≤ τ) {name name' : String} (hname : ρ.Named name name') :
    τ.Named name name' := by
  cases hname with
  | same => exact .same _
  | generated stem hij => exact .generated stem (h _ _ hij)

end Pairing

/-! ## Faults -/

/-- Faults are the same but for generated names. -/
inductive Fault.Paired (ρ : Pairing) : Fault → Fault → Prop
  | same (fault : Fault) : Fault.Paired ρ fault fault
  | parameterLost {name name' : String} : ρ.Named name name' →
    Fault.Paired ρ (.failed (.parameterLost name)) (.failed (.parameterLost name'))
  | parameterTwice {name name' : String} : ρ.Named name name' →
    Fault.Paired ρ (.failed (.argument (.parameterTwice name)))
      (.failed (.argument (.parameterTwice name')))
  | inlinedType {text source source' : String} {ty sourceTy : Ty} : ρ.Named source source' →
    Fault.Paired ρ (.failed (.argument (.inlinedType text ty source sourceTy)))
      (.failed (.argument (.inlinedType text ty source' sourceTy)))

/-- Both runs have ended with related results, or both have failed with paired faults. -/
inductive Ended {α β : Type} (R : α → β → Prop) (ρ : Pairing) :
    Except Fault α → Except Fault β → Prop
  | ok {a : α} {b : β} : R a b → Ended R ρ (.ok a) (.ok b)
  | error {e e' : Fault} : e.Paired ρ e' → Ended R ρ (.error e) (.error e')

theorem Ended.imp {α β : Type} {R Q : α → β → Prop} {ρ : Pairing} {r : Except Fault α}
    {r' : Except Fault β} (h : Ended R ρ r r') (hRQ : ∀ a b, R a b → Q a b) : Ended Q ρ r r' := by
  cases h with
  | ok hab => exact .ok (hRQ _ _ hab)
  | error he => exact .error he

/-! ## Runs in step -/

/-- Wherever two runs start from states that go with a pairing that has all pairs of `ρ`, they end
with states that go with a larger one, and with results that `R` relates or with paired faults. -/
structure InStep {σ σ' α β : Type} (S : Pairing → σ → σ' → Prop) (ρ : Pairing) (x : Steps σ α)
    (y : Steps σ' β) (R : Pairing → α → β → Prop) : Prop where
  ended {τ : Pairing} {s : σ} {s' : σ'} : ρ ≤ τ → S τ s s' →
    ∃ υ, τ ≤ υ ∧ S υ (outcome x s).2 (outcome y s').2 ∧
      Ended (R υ) υ (outcome x s).1 (outcome y s').1

namespace InStep

variable {σ σ' α β γ δ : Type} {S : Pairing → σ → σ' → Prop} {ρ τ : Pairing} {x x' : Steps σ α}
  {y y' : Steps σ' β} {R Q : Pairing → α → β → Prop} {P : Pairing → γ → δ → Prop}

theorem mono (h : InStep S ρ x y R) (hρτ : ρ ≤ τ) : InStep S τ x y R :=
  ⟨fun hτ => h.ended (Pairing.le_trans hρτ hτ)⟩

theorem imp (h : InStep S ρ x y R) (hRQ : ∀ {υ a b}, ρ ≤ υ → R υ a b → Q υ a b) :
    InStep S ρ x y Q := by
  refine ⟨fun {τ s s'} hτ hs => ?_⟩
  obtain ⟨υ, hυ, hs', hended⟩ := h.ended hτ hs
  exact ⟨υ, hυ, hs', hended.imp fun _ _ => hRQ (Pairing.le_trans hτ hυ)⟩

theorem pure {a : α} {b : β} (h : ∀ {υ}, ρ ≤ υ → R υ a b) :
    InStep S ρ (Pure.pure a) (Pure.pure b) R :=
  ⟨fun {τ _ _} hτ hs => ⟨τ, τ.le_refl, hs, .ok (h hτ)⟩⟩

theorem throw {e e' : Fault} (h : ∀ {υ}, ρ ≤ υ → e.Paired υ e') :
    InStep S ρ (MonadExcept.throw e : Steps σ α) (MonadExcept.throw e' : Steps σ' β) R :=
  ⟨fun {τ _ _} hτ hs => ⟨τ, τ.le_refl, hs, .error (h hτ)⟩⟩

theorem bind {f : α → Steps σ γ} {g : β → Steps σ' δ} (hxy : InStep S ρ x y R)
    (hfg : ∀ {υ a b}, ρ ≤ υ → R υ a b → InStep S υ (f a) (g b) P) :
    InStep S ρ (x >>= f) (y >>= g) P := by
  refine ⟨fun {τ s s'} hτ hs => ?_⟩
  obtain ⟨υ, hυ, hs₁, hended⟩ := hxy.ended hτ hs
  rcases hx : outcome x s with ⟨r, s₁⟩
  rcases hy : outcome y s' with ⟨r', s₁'⟩
  rw [hx, hy] at hs₁ hended
  cases hended with
  | error he =>
    rw [outcome_bind_of_error hx, outcome_bind_of_error hy]
    exact ⟨υ, hυ, hs₁, .error he⟩
  | ok hab =>
    rw [outcome_bind_of_ok hx, outcome_bind_of_ok hy]
    obtain ⟨φ, hφ, hended⟩ := (hfg (Pairing.le_trans hτ hυ) hab).ended υ.le_refl hs₁
    exact ⟨φ, Pairing.le_trans hυ hφ, hended⟩

theorem ite {c c' : Prop} [Decidable c] [Decidable c'] (hc : c ↔ c') (hx : c → InStep S ρ x y R)
    (hy : ¬ c → InStep S ρ x' y' R) :
    InStep S ρ (if c then x else x') (if c' then y else y') R := by
  by_cases h : c
  · rw [if_pos h, if_pos (hc.1 h)]
    exact hx h
  · rw [if_neg h, if_neg (mt hc.2 h)]
    exact hy h

/-- What comes after a failure does not matter. -/
theorem stop {e e' : Fault} {f : γ → Steps σ α} {g : δ → Steps σ' β}
    (h : ∀ {υ}, ρ ≤ υ → e.Paired υ e') :
    InStep S ρ (MonadExcept.throw e >>= f) (MonadExcept.throw e' >>= g) R :=
  bind (R := fun _ _ _ => False) (throw h) fun _ h => h.elim

/-- Runs that only yield their results leave the states as they are. -/
theorem of_yields {a : α} {b : β} (hx : ∀ {I : σ → Prop}, Yields I x a)
    (hy : ∀ {I : σ' → Prop}, Yields I y b) (h : ∀ {υ}, ρ ≤ υ → R υ a b) : InStep S ρ x y R := by
  refine ⟨fun {τ s s'} hτ hs => ?_⟩
  obtain ⟨hs₁, ha⟩ := hx (I := (· = s)) s rfl
  obtain ⟨hs₁', hb⟩ := hy (I := (· = s')) s' rfl
  rw [hs₁, hs₁', ha, hb]
  exact ⟨τ, τ.le_refl, hs, .ok (h hτ)⟩

theorem mapM {f : γ → Steps σ α} {g : δ → Steps σ' β}
    (hR : ∀ {υ φ a b}, υ ≤ φ → R υ a b → R φ a b)
    {N : γ → δ → Prop} (hfg : ∀ c d, N c d → InStep S ρ (f c) (g d) R) {cs : List γ}
    {ds : List δ} (h : List.Forall₂ N cs ds) :
    InStep S ρ (cs.mapM f) (ds.mapM g) fun υ => List.Forall₂ (R υ) := by
  induction h with
  | nil => exact pure fun _ => .nil
  | cons h hrest ih =>
    simp only [List.mapM_cons]
    refine bind (hfg _ _ h) fun hυ hab => ?_
    refine bind (ih.mono hυ) fun hφ hall => ?_
    exact pure fun hψ => .cons (hR (Pairing.le_trans hφ hψ) hab) (hall.imp fun _ _ => hR hψ)

end InStep

theorem RunM.inStep_fail {α β : Type} {S : Pairing → Trail → Trail → Prop} {ρ : Pairing}
    {R : Pairing → α → β → Prop} (e : Failure) : InStep S ρ (fail e) (fail e) R :=
  .throw fun _ => .same _

theorem RunM.inStep_ofExcept {α β : Type} {S : Pairing → Trail → Trail → Prop} {ρ : Pairing}
    {R : Pairing → α → β → Prop} {x : Except Failure α} {y : Except Failure β}
    (h : ∀ {υ}, ρ ≤ υ → Agree (R υ) x y) : InStep S ρ (ofExcept x) (ofExcept y) R := by
  cases x with
  | ok a =>
    cases y with
    | ok b =>
      refine .pure fun hυ => ?_
      cases h hυ
      assumption
    | error => cases h ρ.le_refl
  | error e =>
    cases h ρ.le_refl
    exact inStep_fail e

/-! ## Trails side by side -/

/-- The paired identities have been taken, and both runs have written the same lines since their
logs were `log` and `log'`. -/
structure Abreast (log log' : List String) (ρ : Pairing) (t t' : Trail) : Prop where
  next {i j : NodeId} : ρ.rel i j → i < t.next ∧ j < t'.next
  log : ∃ lines, t.log = log ++ lines ∧ t'.log = log' ++ lines

section

variable {log log' : List String} {ρ : Pairing}

/-- Trails that have taken the identities below `n` are abreast. -/
theorem abreast_below {n : NodeId} {t t' : Trail} (ht : n ≤ t.next) (ht' : n ≤ t'.next) :
    Abreast t.log t'.log (.below n) t t' := by
  refine ⟨fun {i j} h => ?_, [], by simp⟩
  obtain ⟨rfl, hi⟩ := h
  exact ⟨Nat.lt_of_lt_of_le hi ht, Nat.lt_of_lt_of_le hi ht'⟩

/-- The identities that both runs take next are paired, and were not paired before. -/
theorem Abreast.fresh_apart (ρ : Pairing) :
    InStep (Abreast log log') ρ fresh fresh fun υ i j =>
      υ.rel i j ∧ (∀ k, ¬ ρ.rel i k) ∧ ∀ k, ¬ ρ.rel k j := by
  refine ⟨fun {τ t t'} hτ ht => ?_⟩
  have hi (k : NodeId) : ¬ τ.rel t.next k := fun h => Nat.lt_irrefl _ (ht.next h).1
  have hj (k : NodeId) : ¬ τ.rel k t'.next := fun h => Nat.lt_irrefl _ (ht.next h).2
  refine ⟨τ.push t.next t'.next hi hj, fun _ _ => .inl, ⟨fun {i j} h => ?_, ht.log⟩,
    .ok ⟨.inr ⟨rfl, rfl⟩, fun k h => hi k (hτ _ _ h), fun k h => hj k (hτ _ _ h)⟩⟩
  rcases h with h | ⟨rfl, rfl⟩
  · exact ⟨Nat.lt_succ_of_lt (ht.next h).1, Nat.lt_succ_of_lt (ht.next h).2⟩
  · exact ⟨Nat.lt_succ_self _, Nat.lt_succ_self _⟩

theorem Abreast.fresh (ρ : Pairing) :
    InStep (Abreast log log') ρ fresh fresh fun υ i j => υ.rel i j :=
  (fresh_apart ρ).imp fun _ h => h.1

theorem Abreast.note (line : String) :
    InStep (Abreast log log') ρ (note line) (note line) fun _ _ _ => True := by
  refine ⟨fun {τ t t'} _ ht => ?_⟩
  obtain ⟨lines, hlog, hlog'⟩ := ht.log
  refine ⟨τ, τ.le_refl, ⟨ht.next, lines ++ [line], ?_, ?_⟩, .ok trivial⟩
  · change t.log ++ [line] = _
    rw [hlog, List.append_assoc]
  · change t'.log ++ [line] = _
    rw [hlog', List.append_assoc]

theorem Abreast.notes (lines : List String) :
    InStep (Abreast log log') ρ (lines.forM RunM.note) (lines.forM RunM.note)
      fun _ _ _ => True := by
  induction lines generalizing ρ with
  | nil => exact .pure fun _ => trivial
  | cons line lines ih =>
    rw [List.forM_eq_forM, List.forM_cons]
    exact .bind (Abreast.note line) fun _ _ => ih

end

/-! ## Passes side by side -/

/-- How the states of two runs go with a pairing, if runs inside them that go in step on trails go
in step on the states. -/
structure Coupling (σ σ' : Type) [MonadLiftT RunM (Steps σ)] [MonadLiftT RunM (Steps σ')] where
  trails : Pairing → Trail → Trail → Prop
  states : Pairing → σ → σ' → Prop
  fresh (ρ : Pairing) : InStep trails ρ fresh fresh fun υ i j => υ.rel i j
  lift {α β : Type} {ρ : Pairing} {x : RunM α} {y : RunM β} {R : Pairing → α → β → Prop} :
    InStep trails ρ x y R → InStep states ρ (liftM x) (liftM y) R

/-- Trails that are abreast. -/
def Coupling.abreast (log log' : List String) : Coupling Trail Trail where
  trails := Abreast log log'
  states := Abreast log log'
  fresh := Abreast.fresh
  lift h := h

end ObjectMapping
