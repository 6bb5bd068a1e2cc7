import ObjectMapping.Evaluation
import ObjectMapping.Proofs.Remaking

/-!
# Runs that come to the same

`RunM.Refines` says that a run comes to what another one comes to, from whatever trail both start,
unless the other one ends in a fault that is left out of account. With no such fault the two runs
are one and the same (`RunM.Refines.eq`). `Expr.Rebuilt.refines` proves it of a node that is rebuilt
over parts of which it holds.
-/

namespace ObjectMapping

open RunM

namespace RunM

/-- The second run comes to what the first one comes to, unless that is a fault of `E`. -/
def Refines (E : Fault → Prop) {α : Type} (x y : RunM α) : Prop :=
  ∀ t, outcome y t = outcome x t ∨ ∃ e t', outcome x t = (.error e, t') ∧ E e

namespace Refines

variable {E : Fault → Prop} {α β : Type} {x y : RunM α}

theorem refl (x : RunM α) : Refines E x x :=
  fun _ => .inl rfl

theorem of_fault {e : Fault} (he : E e) : Refines E (throw e) y :=
  fun t => .inr ⟨e, t, rfl, he⟩

/-- Runs of which one refines the other with no fault left out are the same. -/
theorem eq (h : Refines (fun _ => False) x y) : x = y :=
  funext fun t => ((h t).resolve_right fun ⟨_, _, _, he⟩ => he).symm

/-- A result is come to again. -/
theorem ok (h : Refines E x y) {a : α} {t t' : Trail} (hx : outcome x t = (.ok a, t')) :
    outcome y t = (.ok a, t') := by
  rcases h t with h | ⟨e, t', he, -⟩
  · rw [h, hx]
  · rw [he] at hx
    cases hx

theorem bind {f g : α → RunM β} (hx : Refines E x y) (hf : ∀ a, Refines E (f a) (g a)) :
    Refines E (x >>= f) (y >>= g) := by
  intro t
  rcases hx t with h | ⟨e, t', h, he⟩
  · rcases hxt : outcome x t with ⟨e | a, t'⟩
    · exact .inl ((outcome_bind_of_error (h.trans hxt)).trans (outcome_bind_of_error hxt).symm)
    · rw [outcome_bind_of_ok hxt, outcome_bind_of_ok (h.trans hxt)]
      exact hf a t'
  · exact .inr ⟨e, t', outcome_bind_of_error h, he⟩

theorem ite {c : Prop} [Decidable c] {x' y' : RunM α} (h : Refines E x y) (h' : Refines E x' y') :
    Refines E (if c then x else x') (if c then y else y') := by
  split
  · exact h
  · exact h'

theorem mapM {f g : α → RunM β} (h : ∀ a, Refines E (f a) (g a)) :
    ∀ as : List α, Refines E (as.mapM f) (as.mapM g)
  | [] => refl _
  | a :: as => by
    rw [List.mapM_cons, List.mapM_cons]
    exact (h a).bind fun _ => (mapM h as).bind fun _ => refl _

end Refines

end RunM

/-! ## Expressions -/

section

variable {E : Fault → Prop} {host : Host} {call : Caller} {env env' : Env} {e e' : Expr}

/-- The evaluation of the second expression refines that of the first one, at whatever places. -/
def Expr.Refines (E : Fault → Prop) (host : Host) (call : Caller) (env env' : Env) (e e' : Expr) :
    Prop :=
  ∀ site site', RunM.Refines E (e.evalIn host call env site) (e'.evalIn host call env' site')

theorem Expr.evalList_refines {es es' : List Expr}
    (h : List.Forall₂ (Expr.Refines E host call env env') es es') (site site' : Site) :
    RunM.Refines E (evalList host call env site es) (evalList host call env' site' es') := by
  induction h generalizing site site' with
  | nil => exact .refl _
  | cons he _ ih => exact (he _ _).bind fun _ => (ih _ _).bind fun _ => .refl _

theorem Expr.evalOption_refines {o o' : Option Expr}
    (h : List.Forall₂ (Expr.Refines E host call env env') o.toList o'.toList) (site site' : Site) :
    RunM.Refines E (evalOption host call env site o) (evalOption host call env' site' o') := by
  cases o <;> cases o' <;> cases h
  · exact .refl _
  · rename_i he _
    exact (he _ _).bind fun _ => .refl _

theorem Assignment.evalList_refines {as as' : List Assignment}
    (hmembers : as'.map (·.member) = as.map (·.member))
    (h : List.Forall₂ (Expr.Refines E host call env env') (as.map (·.value)) (as'.map (·.value)))
    (site site' : Site) (fields : List Field) :
    RunM.Refines E (evalList host call env site fields as)
      (evalList host call env' site' fields as') := by
  induction as generalizing as' site site' fields with
  | nil =>
    obtain rfl : as' = [] := by simpa using hmembers
    exact .refl _
  | cons a as ih =>
    obtain ⟨m, e⟩ := a
    rcases as' with _ | ⟨⟨m', e'⟩, as'⟩
    · simp at hmembers
    · obtain ⟨rfl, hrest⟩ : m' = m ∧ as'.map (·.member) = as.map (·.member) := by
        simpa using hmembers
      cases h with
      | cons he h => exact (he _ _).bind fun _ => ih hrest h _ _ _

/-- A node that holds no lambda and is rebuilt has its value again if what becomes of its parts has,
and if it does so itself should it be a parameter. -/
theorem Expr.Rebuilt.refines {J : Judgement} (h : e.Rebuilt J e') (hfn : e.fn? = none)
    (hparam : ∀ y, e = .param y → e.Refines E host call env env' e)
    (hparts : ∀ d ∈ e.parts, ∀ d', d.Becomes J d' → d.Refines E host call env env' d') :
    e.Refines E host call env env' e' := by
  intro site site'
  have list {cs cs' : List Expr} (hcs : ∀ c ∈ cs, c ∈ e.parts)
      (h : List.Forall₂ (Expr.Becomes J) cs cs') :
      List.Forall₂ (Expr.Refines E host call env env') cs cs' :=
    forall₂_imp_of_mem h fun c hc c' => hparts c (hcs c hc) c'
  cases h with
  | param y => exact hparam y rfl site site'
  | constant id ty v => exact .refl _
  | default id ty => exact .refl _
  | member ho => exact (hparts _ (by simp [parts]) _ ho _ _).bind fun _ => .refl _
  | unary ha => exact (hparts _ (by simp [parts]) _ ha _ _).bind fun _ => .refl _
  | binary ha hb =>
    have hb := hparts _ (by simp [parts]) _ hb (site.child 1) (site'.child 1)
    refine (hparts _ (by simp [parts]) _ ha _ _).bind fun v => ?_
    split
    · exact (RunM.Refines.refl _).bind fun _ => .ite hb (.refl _)
    · exact (RunM.Refines.refl _).bind fun _ => .ite (.refl _) hb
    · exact hb.bind fun _ => .refl _
  | conditional ha hb hc =>
    refine (hparts _ (by simp [parts]) _ ha _ _).bind fun v => ?_
    refine (RunM.Refines.refl _).bind fun _ => .ite ?_ ?_
    · exact hparts _ (by simp [parts]) _ hb _ _
    · exact hparts _ (by simp [parts]) _ hc _ _
  | call hr ha =>
    refine (evalOption_refines (list (by simp +contextual [parts]) hr) _ _).bind fun _ => ?_
    exact (evalList_refines (list (by simp +contextual [parts]) ha) _ _).bind fun _ => .refl _
  | lambda | quote => simp [fn?] at hfn
  | construct hma hmb ha hb =>
    refine (Assignment.evalList_refines hma (list (by simp +contextual [parts]) ha) _ _ _).bind
      fun _ => ?_
    exact (Assignment.evalList_refines hmb (list (by simp +contextual [parts]) hb) _ _ _).bind
      fun _ => .refl _
  | previous h => exact .refl _

end

end ObjectMapping
