import ObjectMapping.Proofs.Forest
import ObjectMapping.Proofs.Lists
import ObjectMapping.Proofs.Run
import ObjectMapping.Proofs.Walking

/-!
# What a visitor makes of a tree

A visitor is described by a `Judgement` : which nodes it enters, what it puts in the place of others
and which it gives up for their stand-ins. `Expr.Becomes` is the relation between a tree and what
comes out of such a visit. It leaves the identities of the nodes made on the way open, and says all
else about them. `Visitor.Follows.apply` and `Visitor.Follows.walkFn` are the two main statements :
a visit that ends has made what the judgement says, within a forest that holds the old one.

A visit is a run that makes nodes over those that are there. `Leads` says so of a run, wherever it
starts, and `Leads.bind` puts two runs together, so that the visit to a node follows from the visits
to its parts.
-/

namespace ObjectMapping

/-! ## The relation -/

/-- What a visitor may decide on a node. -/
structure Judgement where
  enters : Expr → Prop
  puts : Expr → Expr → Prop
  stands : Expr → Prop

/-- The expression that stays in place of a node when the node gives way. -/
def Expr.standIn? : Expr → Option Expr
  | .conditional _ _ _ _ ifFalse => some ifFalse
  | .previous _ _ fallback => fallback
  | _ => none

/-- What becomes of a parameter of a lambda. -/
def Param.Becomes (J : Judgement) (p q : Param) : Prop :=
  J.puts (.param p) (.param q) ∨ (J.enters (.param p) ∨ J.stands (.param p)) ∧ q = p

mutual

/-- What becomes of an expression. -/
inductive Expr.Becomes (J : Judgement) : Expr → Expr → Prop
  | put {e e' : Expr} : J.puts e e' → Expr.Becomes J e e'
  | enter {e e' : Expr} : J.enters e → Expr.Rebuilt J e e' → Expr.Becomes J e e'
  | standIn {e d e' : Expr} : J.stands e → e.standIn? = some d → Expr.Becomes J d e' →
    Expr.Becomes J e e'
  | stay {e : Expr} : J.stands e → e.standIn? = none → Expr.Becomes J e e

/-- What becomes of an expression that is entered : a node of the same kind. -/
inductive Expr.Rebuilt (J : Judgement) : Expr → Expr → Prop
  | param (p : Param) : Expr.Rebuilt J (.param p) (.param p)
  | constant (id : NodeId) (ty : Ty) (v : Value) :
    Expr.Rebuilt J (.constant id ty v) (.constant id ty v)
  | default (id : NodeId) (ty : Ty) : Expr.Rebuilt J (.default id ty) (.default id ty)
  | member {id id' : NodeId} {m : Member} {o o' : Expr} : Expr.Becomes J o o' →
    Expr.Rebuilt J (.member id o m) (.member id' o' m)
  | unary {id id' : NodeId} {ty : Ty} {op : UnaryOp} {a a' : Expr} : Expr.Becomes J a a' →
    Expr.Rebuilt J (.unary id ty op a) (.unary id' ty op a')
  | binary {id id' : NodeId} {ty : Ty} {op : BinaryOp} {a a' b b' : Expr} :
    Expr.Becomes J a a' → Expr.Becomes J b b' →
    Expr.Rebuilt J (.binary id ty op a b) (.binary id' ty op a' b')
  | conditional {id id' : NodeId} {ty : Ty} {a a' b b' c c' : Expr} :
    Expr.Becomes J a a' → Expr.Becomes J b b' → Expr.Becomes J c c' →
    Expr.Rebuilt J (.conditional id ty a b c) (.conditional id' ty a' b' c')
  | call {id id' : NodeId} {ty : Ty} {op : Operation} {receiver receiver' : Option Expr}
      {arguments arguments' : List Expr} :
    List.Forall₂ (Expr.Becomes J) receiver.toList receiver'.toList →
    List.Forall₂ (Expr.Becomes J) arguments arguments' →
    Expr.Rebuilt J (.call id ty op receiver arguments) (.call id' ty op receiver' arguments')
  | lambda {id id' : NodeId} {f f' : Lambda} :
    List.Forall₂ (Param.Becomes J) f.params f'.params → Expr.Becomes J f.body f'.body →
    Expr.Rebuilt J (.lambda id f) (.lambda id' f')
  | quote {id id' : NodeId} {f f' : Lambda} :
    List.Forall₂ (Param.Becomes J) f.params f'.params → Expr.Becomes J f.body f'.body →
    Expr.Rebuilt J (.quote id f) (.quote id' f')
  | construct {id id' : NodeId} {ty : Ty} {as as' bs bs' : List Assignment} :
    as'.map (·.member) = as.map (·.member) → bs'.map (·.member) = bs.map (·.member) →
    List.Forall₂ (Expr.Becomes J) (as.map (·.value)) (as'.map (·.value)) →
    List.Forall₂ (Expr.Becomes J) (bs.map (·.value)) (bs'.map (·.value)) →
    Expr.Rebuilt J (.construct id ty as bs) (.construct id' ty as' bs')
  | previous {id id' : NodeId} {ty : Ty} {fallback fallback' : Option Expr} :
    List.Forall₂ (Expr.Becomes J) fallback.toList fallback'.toList →
    Expr.Rebuilt J (.previous id ty fallback) (.previous id' ty fallback')

end

/-- What becomes of a lambda. -/
structure Lambda.Becomes (J : Judgement) (f f' : Lambda) : Prop where
  params : List.Forall₂ (Param.Becomes J) f.params f'.params
  body : Expr.Becomes J f.body f'.body

/-- A parameter of a lambda becomes a parameter as the node that it is does. -/
theorem Param.becomes_iff {J : Judgement} {p q : Param} :
    p.Becomes J q ↔ (Expr.param p).Becomes J (.param q) := by
  constructor
  · rintro (h | ⟨h | h, rfl⟩)
    · exact .put h
    · exact .enter h (.param _)
    · exact .stay h rfl
  · intro h
    cases h with
    | put h => exact .inl h
    | enter h hr => cases hr; exact .inr ⟨.inl h, rfl⟩
    | standIn _ hd => cases hd
    | stay h => exact .inr ⟨.inr h, rfl⟩

/-- A node is rebuilt if it is made anew over what becomes of its parts. -/
theorem Expr.MadeOver.rebuilt {J : Judgement} {i : NodeId} {e e' : Expr} {ds : List Expr}
    (h : e.MadeOver i ds e') (hds : List.Forall₂ (Expr.Becomes J) e.parts ds) :
    e.Rebuilt J e' := by
  cases h with
  | param p => exact .param p
  | constant id ty v => exact .constant id ty v
  | default id ty => exact .default id ty
  | member =>
    obtain ⟨ho, -⟩ := List.forall₂_cons.1 hds
    exact .member ho
  | unary =>
    obtain ⟨ha, -⟩ := List.forall₂_cons.1 hds
    exact .unary ha
  | binary =>
    obtain ⟨ha, hds⟩ := List.forall₂_cons.1 hds
    obtain ⟨hb, -⟩ := List.forall₂_cons.1 hds
    exact .binary ha hb
  | conditional =>
    obtain ⟨ha, hds⟩ := List.forall₂_cons.1 hds
    obtain ⟨hb, hds⟩ := List.forall₂_cons.1 hds
    obtain ⟨hc, -⟩ := List.forall₂_cons.1 hds
    exact .conditional ha hb hc
  | call hr _ =>
    obtain ⟨hreceiver, harguments⟩ := (forall₂_append_iff hr.symm).1 hds
    exact .call hreceiver harguments
  | construct hma hmb =>
    have hlength := congrArg List.length hma
    obtain ⟨ha, hb⟩ := (forall₂_append_iff (by simpa using hlength.symm)).1 hds
    exact .construct hma hmb ha hb
  | previous => exact .previous hds

/-- A node is rebuilt if it is made anew over what becomes of its lambda. -/
theorem Expr.rebuilt_withFn {J : Judgement} {i : NodeId} {e : Expr} {f f' : Lambda}
    (hfn : e.fn? = some f) (h : f.Becomes J f') : e.Rebuilt J (e.withFn i f') := by
  cases e with
  | lambda =>
    cases hfn
    exact .lambda h.params h.body
  | quote =>
    cases hfn
    exact .quote h.params h.body
  | _ => cases hfn

/-- A node that is rebuilt and holds no lambda is made anew over other parts. -/
theorem Expr.Rebuilt.madeOver {J : Judgement} {e e' : Expr} (h : e.Rebuilt J e')
    (hfn : e.fn? = none) : e.MadeOver e'.id e'.parts e' := by
  cases h with
  | lambda | quote => cases hfn
  | call hr ha => exact .call hr.length_eq.symm ha.length_eq.symm
  | construct hma hmb => exact .construct hma hmb
  | previous hd => exact .previous hd.length_eq.symm
  | _ => constructor

/-- A node that is rebuilt and holds a lambda holds what becomes of it. -/
theorem Expr.Rebuilt.withFn {J : Judgement} {e e' : Expr} {f : Lambda} (h : e.Rebuilt J e')
    (hfn : e.fn? = some f) : ∃ i f', f.Becomes J f' ∧ e' = e.withFn i f' := by
  cases h with
  | lambda hparams hbody | quote hparams hbody =>
    cases hfn
    exact ⟨_, _, ⟨hparams, hbody⟩, rfl⟩
  | _ => cases hfn

theorem Expr.Rebuilt.param?_eq {J : Judgement} {e e' : Expr} (h : e.Rebuilt J e') :
    e'.param? = e.param? := by
  cases h <;> rfl

/-- A node is rebuilt as it is if its parts and its lambda may stay what they are. -/
theorem Expr.rebuilt_self {J : Judgement} {e : Expr} (hparts : ∀ d ∈ e.parts, d.Becomes J d)
    (hfn : ∀ f, e.fn? = some f → f.Becomes J f) : e.Rebuilt J e := by
  cases hf : e.fn? with
  | none => exact (MadeOver.self hf).rebuilt (List.forall₂_same.2 hparts)
  | some f =>
    have hrebuilt := rebuilt_withFn (i := e.id) hf (hfn f hf)
    rwa [withFn_self hf] at hrebuilt

/-- A judgement that enters a node or puts it in its own place wherever it is asked leaves a tree as
it is. -/
theorem Expr.Becomes.refl {J : Judgement} (hJ : ∀ e, J.puts e e ∨ J.enters e) (e : Expr) :
    e.Becomes J e := by
  induction e using Expr.byPart with
  | h e ihpart ihfn =>
    refine (hJ e).elim .put fun he => .enter he (rebuilt_self ihpart fun f hf => ⟨?_, ihfn f hf⟩)
    exact List.forall₂_same.2 fun p _ => (hJ (.param p)).imp_right fun h => ⟨.inl h, rfl⟩

/-- The judgement that every node stays in its own place. -/
def Judgement.keeping : Judgement where
  enters _ := False
  puts e e' := e' = e
  stands _ := False

theorem Expr.becomes_keeping {e e' : Expr} : e.Becomes .keeping e' ↔ e' = e := by
  constructor
  · intro h
    cases h with
    | put h => exact h
    | enter h => exact h.elim
    | standIn h => exact h.elim
    | stay h => exact h.elim
  · rintro rfl
    exact .put rfl

/-- A node over its own parts is rebuilt as it is. -/
theorem Expr.rebuilt_keeping (e : Expr) : e.Rebuilt .keeping e :=
  rebuilt_self (fun _ _ => .put rfl) fun _ _ =>
    ⟨List.forall₂_same.2 fun _ _ => .inl rfl, .put rfl⟩

/-- The stand-in of a node is one of its parts. -/
theorem Expr.mem_parts_of_standIn? {e d : Expr} (h : e.standIn? = some d) : d ∈ e.parts := by
  cases e with
  | conditional =>
    obtain rfl := Option.some.inj h
    simp [parts]
  | previous =>
    obtain rfl := h
    simp [parts]
  | _ => simp [standIn?] at h

/-! ## Visits -/

section

variable {m : Type → Type} [Monad m] [MonadLiftT RunM m] {v : Visitor m} {e d : Expr}

theorem Expr.walkStandIn_of_some (h : e.standIn? = some d) : e.walkStandIn v = v.apply d := by
  cases e with
  | conditional | previous =>
    cases h
    rfl
  | _ => cases h

theorem Expr.walkStandIn_of_none (h : e.standIn? = none) : e.walkStandIn v = pure e := by
  cases e with
  | conditional => cases h
  | previous =>
    cases h
    rfl
  | _ => rfl

end

/-- Whether a verdict on `e` is one of the judgement's, and what is put in is in the forest. -/
def Judgement.Allows (J : Judgement) (F : Forest) (e : Expr) : Verdict → Prop
  | .enter => J.enters e
  | .put e' => F.nodes e' ∧ J.puts e e'
  | .standIn => J.stands e

section

variable {σ : Type} [MonadLiftT RunM (Steps σ)] [CarriesTrail σ]

/-- What a run that ended in `s` has made : a larger forest below the next identity, where `P`. -/
def Made (I : σ → Prop) (F : Forest) (s : σ) (P : Forest → Prop) : Prop :=
  I s ∧ ∃ G, F ≤ G ∧ G.Below (CarriesTrail.trail s).next ∧ P G

theorem Made.intro {I : σ → Prop} {F : Forest} {s : σ} {P : Forest → Prop} (hI : I s)
    (hF : F.Below (CarriesTrail.trail s).next) (h : P F) : Made I F s P :=
  ⟨hI, F, F.le_refl, hF, h⟩

/-- The visitor decides as the judgement says on every node of `D`, however the forest has grown
from `F₀`, as long as the invariant `I` holds of the state, and it keeps the invariant. -/
structure Visitor.Follows (v : Visitor (Steps σ)) (I : σ → Prop) (D F₀ : Forest)
    (J : Judgement) : Prop where
  le : D ≤ F₀
  keeps {α : Type} {run : RunM α} {s s' : σ} {a : α} :
    I s → outcome (liftM run : Steps σ α) s = (.ok a, s') → I s'
  judge {F : Forest} {e : Expr} {verdict : Verdict} {s s' : σ} :
    F₀ ≤ F → D.nodes e → F.Below (CarriesTrail.trail s).next → I s →
    outcome (v.judge e) s = (.ok verdict, s') → Made I F s' fun G => J.Allows G e verdict

/-- Wherever the run starts over a forest that holds `F`, it makes a forest where `P` of the forest
and the result. -/
structure Leads {α : Type} (I : σ → Prop) (F : Forest) (run : Steps σ α)
    (P : Forest → α → Prop) : Prop where
  made {G : Forest} {s s' : σ} {a : α} : F ≤ G → G.Below (CarriesTrail.trail s).next → I s →
    outcome run s = (.ok a, s') → Made I G s' fun H => P H a

/-- A run makes of `e` something in relation `R` to it, wherever it starts. -/
def Remakes (I : σ → Prop) (D F₀ : Forest) (run : Steps σ Expr) (e : Expr) (R : Expr → Prop) :
    Prop :=
  D.nodes e → Leads I F₀ run fun G e' => G.nodes e' ∧ R e'

namespace Leads

variable {α β : Type} {I : σ → Prop} {F G : Forest} {run : Steps σ α} {P Q : Forest → α → Prop}

theorem pure {a : α} (h : ∀ {G}, F ≤ G → P G a) : Leads I F (Pure.pure a : Steps σ α) P := by
  refine ⟨fun {G s s' b} hFG hG hI hrun => ?_⟩
  obtain ⟨rfl, rfl⟩ := outcome_pure_ok.1 hrun
  exact .intro hI hG (h hFG)

theorem of_le (hFG : F ≤ G) (h : Leads I F run P) : Leads I G run P :=
  ⟨fun hGH => h.made (F.le_trans hFG hGH)⟩

theorem imp (h : Leads I F run P) (hPQ : ∀ {G a}, F ≤ G → P G a → Q G a) : Leads I F run Q := by
  refine ⟨fun {G s s' a} hFG hG hI hrun => ?_⟩
  obtain ⟨hI', H, hGH, hH, hP⟩ := h.made hFG hG hI hrun
  exact ⟨hI', H, hGH, hH, hPQ (F.le_trans hFG hGH) hP⟩

/-- The second step starts over what the first one has made. -/
theorem bind {f : α → Steps σ β} {R : Forest → β → Prop} (hrun : Leads I F run P)
    (hf : ∀ {G a}, F ≤ G → P G a → Leads I G (f a) R) : Leads I F (run >>= f) R := by
  refine ⟨fun {G s s' b} hFG hG hI h => ?_⟩
  obtain ⟨a, s₁, hfirst, hsecond⟩ := outcome_bind_ok.1 h
  obtain ⟨hI₁, H, hGH, hH, hP⟩ := hrun.made hFG hG hI hfirst
  obtain ⟨hI', K, hHK, hK, hR⟩ := (hf (F.le_trans hFG hGH) hP).made H.le_refl hH hI₁ hsecond
  exact ⟨hI', K, G.le_trans hGH hHK, hK, hR⟩

end Leads

namespace Visitor.Follows

variable {v : Visitor (Steps σ)} {I : σ → Prop} {D F F₀ : Forest} {J : Judgement}

theorem le_of_le (hv : v.Follows I D F₀ J) (h : F₀ ≤ F) : D ≤ F :=
  D.le_trans hv.le h

/-- A node that is left alone is in the forest already. -/
theorem remakes_pure (hv : v.Follows I D F₀ J) {e : Expr} {R : Expr → Prop} (hR : R e) :
    Remakes (σ := σ) I D F₀ (pure e) e R :=
  fun he => .pure fun hF => ⟨(hv.le_of_le hF).1 _ he, hR⟩

/-- A visit to a node makes what the judgement says, if the visits to its parts and to its stand-in
do. -/
theorem visit (hv : v.Follows I D F₀ J) {e : Expr} {parts standIn : Steps σ Expr}
    (hparts : Remakes I D F₀ parts e (e.Rebuilt J))
    (hstand : J.stands e → Remakes I D F₀ standIn e (e.Becomes J)) :
    Remakes I D F₀ (v.visit e (fun _ => parts) (fun _ => standIn)) e (e.Becomes J) := by
  intro he
  have hjudge : Leads I F₀ (v.judge e) fun G verdict => J.Allows G e verdict :=
    ⟨fun hF hbelow hI hrun => hv.judge hF he hbelow hI hrun⟩
  refine hjudge.bind fun {G verdict} hG hallowed => ?_
  cases verdict with
  | enter => exact ((hparts he).of_le hG).imp fun _ h => ⟨h.1, .enter hallowed h.2⟩
  | put d => exact .pure fun hGH => ⟨hGH.1 _ hallowed.1, .put hallowed.2⟩
  | standIn => exact (hstand hallowed he).of_le hG

/-- A node that is kept, or made anew over parts in the forest, is in a larger one. -/
theorem keepOrRemake (hv : v.Follows I D F₀ J) {same : Bool} {e : Expr} {make : NodeId → Expr}
    {R : Expr → Prop} (he : F.nodes e) (hsame : same = true → R e)
    (hid : same = false → ∀ i, (make i).id = i) (hparts : ∀ i, ∀ p ∈ (make i).parts, F.nodes p)
    (hfn : ∀ i f, (make i).fn? = some f → F.fns f) (hR : ∀ i, R (make i)) :
    Leads I F (Expr.keepOrRemake same e make : Steps σ Expr)
      fun G e' => G.nodes e' ∧ R e' := by
  cases same with
  | true => exact .pure fun hFG => ⟨hFG.1 _ he, hsame rfl⟩
  | false =>
    replace hid := hid rfl
    refine ⟨fun {G s s' e'} hFG hG hI h => ?_⟩
    obtain ⟨i, s₁, hfresh, hpure⟩ := outcome_bind_ok.1 h
    obtain ⟨rfl, rfl⟩ := outcome_pure_ok.1 hpure
    obtain ⟨rfl, htrail⟩ := RunM.outcome_fresh_ok.1 (CarriesTrail.outcome_lift hfresh)
    obtain ⟨H, hGH, hH, he'⟩ := Forest.exists_grow (e := make (CarriesTrail.trail s).next)
      (by rwa [hid]) (fun p hp => hFG.1 _ (hparts _ p hp)) fun f hf => hFG.2 _ (hfn _ f hf)
    rw [hid] at hH
    exact ⟨hv.keeps hI hfresh, H, hGH, by rwa [htrail], he', hR _⟩

end Visitor.Follows

/-! ## Lists -/

/-- Nodes that are the same at every place are equal. -/
theorem Forest.eq_of_sameAll {F : Forest} :
    ∀ {as bs : List Expr}, as.length = bs.length → (∀ e ∈ as, F.nodes e) → (∀ e ∈ bs, F.nodes e) →
      Expr.sameAll as bs = true → as = bs
  | [], [], _, _, _, _ => rfl
  | a :: as, b :: bs, hlen, has, hbs, h => by
    simp only [Expr.sameAll, List.zip_cons_cons, List.all_cons, Bool.and_eq_true] at h
    have hab := F.eq_of_same (has a (by simp)) (hbs b (by simp)) h.1
    rw [hab, Forest.eq_of_sameAll (by simpa using hlen) (fun e he => has e (by simp [he]))
      (fun e he => hbs e (by simp [he])) h.2]

variable {v : Visitor (Steps σ)} {I : σ → Prop} {D F₀ : Forest} {J : Judgement}

/-- The visit to every expression of a list makes what the judgement says. -/
theorem Visitor.Follows.walkList {es : List Expr}
    (h : ∀ e ∈ es, Remakes I D F₀ (v.apply e) e (e.Becomes J)) (hes : ∀ e ∈ es, D.nodes e) :
    Leads I F₀ (Expr.walkList v es) fun G es' =>
      (∀ e ∈ es', G.nodes e) ∧ List.Forall₂ (Expr.Becomes J) es es' := by
  induction es with
  | nil => exact .pure fun _ => ⟨by simp, .nil⟩
  | cons e es ih =>
    have hrest := ih (fun d hd => h d (by simp [hd])) fun d hd => hes d (by simp [hd])
    refine (h e (by simp) (hes e (by simp))).bind fun {G e'} hG he' => ?_
    refine (hrest.of_le hG).bind fun {H es'} hGH hes' => .pure fun hHK => ⟨?_, .cons he'.2 hes'.2⟩
    intro d hd
    rcases List.mem_cons.1 hd with rfl | hd
    · exact hHK.1 _ (hGH.1 _ he'.1)
    · exact hHK.1 _ (hes'.1 d hd)

/-! ## Lambdas -/

/-- Making sure that parameters stayed parameters leaves the trail alone. -/
theorem outcome_requireParams {ps : List Param} {es : List Expr} {t t' : Trail} {u : Unit}
    (h : outcome (Param.requireParams ps es) t = (.ok u, t')) : t' = t := by
  induction ps generalizing es with
  | nil => exact (outcome_pure_ok.1 h).2.symm
  | cons p ps ih =>
    cases es with
    | nil => exact (outcome_pure_ok.1 h).2.symm
    | cons e es =>
      rw [Param.requireParams] at h
      split at h
      · simp [outcome_bind_of_error (RunM.outcome_fail _ t)] at h
      · exact ih h

/-- Expressions that are taken as parameters are parameters, no two of them the same. -/
theorem outcome_paramsOf {seen ps : List Param} {es : List Expr} {t t' : Trail}
    (h : outcome (Lambda.paramsOf seen es) t = (.ok ps, t')) :
    t' = t ∧ es = ps.map .param := by
  induction es generalizing seen ps with
  | nil =>
    obtain ⟨rfl, rfl⟩ := outcome_pure_ok.1 h
    exact ⟨rfl, rfl⟩
  | cons e es ih =>
    cases e with
    | param p =>
      simp only [Lambda.paramsOf, Expr.param?] at h
      split at h
      · simp [outcome_bind_of_error (RunM.outcome_reject _ t)] at h
      · obtain ⟨qs, t₁, hqs, hpure⟩ := outcome_bind_ok.1 h
        obtain ⟨rfl, rfl⟩ := outcome_pure_ok.1 hpure
        obtain ⟨rfl, rfl⟩ := ih hqs
        exact ⟨rfl, rfl⟩
    | _ => simp [Lambda.paramsOf, Expr.param?] at h

/-- A lambda is made with the next identity, over parameters. -/
theorem outcome_ofExprs {es : List Expr} {b : Expr} {f : Lambda} {t t' : Trail}
    (h : outcome (Lambda.ofExprs es b) t = (.ok f, t')) :
    f.id = t.next ∧ es = f.paramExprs ∧ f.body = b ∧ t'.next = t.next + 1 := by
  obtain ⟨ps, t₁, hps, h⟩ := outcome_bind_ok.1 h
  obtain ⟨i, t₂, hi, h⟩ := outcome_bind_ok.1 h
  obtain ⟨rfl, rfl⟩ := outcome_pure_ok.1 h
  obtain ⟨rfl, rfl⟩ := outcome_paramsOf hps
  obtain ⟨rfl, rfl⟩ := RunM.outcome_fresh_ok.1 hi
  exact ⟨rfl, rfl, rfl, rfl⟩

/-- Parameters that are what the visit made of the old ones have become them. -/
theorem forall₂_param_becomes {ps qs : List Param}
    (h : List.Forall₂ (Expr.Becomes J) (ps.map .param) (qs.map .param)) :
    List.Forall₂ (Param.Becomes J) ps qs := by
  rw [List.forall₂_map_left_iff, List.forall₂_map_right_iff] at h
  exact h.imp fun _ _ => Param.becomes_iff.2

/-- A run inside that leaves the trail alone makes nothing. -/
theorem Visitor.Follows.lift (hv : v.Follows I D F₀ J) {F : Forest} {α : Type} {run : RunM α}
    (h : ∀ {t t' a}, outcome run t = (.ok a, t') → t' = t) :
    Leads I F (liftM run : Steps σ α) fun _ _ => True := by
  refine ⟨fun {G s s' a} _ hG hI hrun => ?_⟩
  exact .intro (hv.keeps hI hrun) (by rwa [h (CarriesTrail.outcome_lift hrun)]) trivial

/-- A lambda that is made over parameters and a body in the forest is in a larger one. -/
theorem Visitor.Follows.ofExprs (hv : v.Follows I D F₀ J) {F : Forest} {es : List Expr} {b : Expr}
    (hes : ∀ e ∈ es, F.nodes e) (hb : F.nodes b) :
    Leads I F (liftM (Lambda.ofExprs es b) : Steps σ Lambda) fun G f =>
      G.fns f ∧ es = f.params.map .param ∧ f.body = b := by
  refine ⟨fun {G s s' f} hFG hG hI hrun => ?_⟩
  obtain ⟨hid, rfl, rfl, hnext⟩ := outcome_ofExprs (CarriesTrail.outcome_lift hrun)
  obtain ⟨H, hGH, hH, hf⟩ := Forest.exists_growFn (f := f) (hid ▸ hG)
    (fun p hp => hFG.1 _ (hes _ (List.mem_map_of_mem hp))) (hFG.1 _ hb)
  exact ⟨hv.keeps hI hrun, H, hGH, by rwa [hnext, ← hid], hf, rfl, rfl⟩

/-- The visit to the parameters and the body of a lambda makes what the judgement says. -/
theorem Visitor.Follows.walkFn_of_body (hv : v.Follows I D F₀ J) {f : Lambda}
    (hbody : Remakes I D F₀ (v.apply f.body) f.body (f.body.Becomes J)) (hf : D.fns f) :
    Leads I F₀ (f.walk v) fun G f' => G.fns f' ∧ f.Becomes J f' := by
  have hparams : ∀ e ∈ f.paramExprs, Remakes I D F₀ (v.apply e) e (e.Becomes J) :=
    List.forall_mem_map.2 fun p _ =>
      hv.visit (hv.remakes_pure (.param p)) fun hs => hv.remakes_pure (.stay hs rfl)
  have hnodes : ∀ e ∈ f.paramExprs, D.nodes e := List.forall_mem_map.2 fun _ => D.param hf
  rw [Lambda.walk_eq]
  refine (walkList hparams hnodes).bind fun {G es} hG hes => ?_
  refine (hv.lift outcome_requireParams).bind fun {G' _} hGG' _ => ?_
  have hG' := F₀.le_trans hG hGG'
  refine ((hbody (D.body hf)).of_le hG').bind fun {H b'} hH hb' => ?_
  have hDH := hv.le_of_le (F₀.le_trans hG' hH)
  have hesH : ∀ e ∈ es, H.nodes e := fun e he => (G.le_trans hGG' hH).1 _ (hes.1 e he)
  split
  · rename_i hsame
    rw [Bool.and_eq_true] at hsame
    obtain rfl : es = f.paramExprs := H.eq_of_sameAll hes.2.length_eq.symm hesH
      (fun e he => hDH.1 _ (hnodes e he)) hsame.1
    obtain rfl := H.eq_of_same hb'.1 (hDH.1 _ (D.body hf)) hsame.2
    exact .pure fun hHK => ⟨hHK.2 _ (hDH.2 _ hf), forall₂_param_becomes hes.2, hb'.2⟩
  · refine (hv.ofExprs hesH hb'.1).imp fun {K f'} _ h => ?_
    obtain ⟨hf', hparams', hbody'⟩ := h
    refine ⟨hf', ?_, ?_⟩
    · exact forall₂_param_becomes (hparams' ▸ hes.2)
    · exact hbody' ▸ hb'.2

/-! ## Trees -/

/-- The visit to the parts of a node makes what the judgement says. -/
theorem Visitor.Follows.walk_of_parts (hv : v.Follows I D F₀ J) {e : Expr} (hfn : e.fn? = none)
    (hparts : ∀ d ∈ e.parts, Remakes I D F₀ (v.apply d) d (d.Becomes J)) :
    Remakes I D F₀ (e.walk v) e (e.Rebuilt J) := by
  intro he
  rw [Expr.walk_of_parts hfn]
  refine (walkList hparts fun _ => D.part he).bind fun {G ds} hG h => ?_
  obtain ⟨hds, hbecomes⟩ := h
  have hDG := hv.le_of_le hG
  have hmade (i : NodeId) := Expr.madeOver_withParts i hfn hbecomes.length_eq.symm
  refine hv.keepOrRemake (hDG.1 _ he) (fun hsame => ?_) (fun hsame i => (hmade i).id_eq hsame)
    (fun i d hd => hds d ((hmade i).parts_eq ▸ hd))
    (fun i f hf => nomatch (hmade i).fn?_eq.symm.trans hf) fun i => (hmade i).rebuilt hbecomes
  obtain rfl := G.eq_of_sameAll hbecomes.length_eq.symm hds
    (fun d hd => hDG.1 _ (D.part he hd)) hsame
  exact (Expr.MadeOver.self hfn).rebuilt hbecomes

/-- The visit to the lambda of a node makes what the judgement says. -/
theorem Visitor.Follows.walk_of_fn (hv : v.Follows I D F₀ J) {e : Expr} {f : Lambda}
    (hfn : e.fn? = some f) (hbody : Remakes I D F₀ (v.apply f.body) f.body (f.body.Becomes J)) :
    Remakes I D F₀ (e.walk v) e (e.Rebuilt J) := by
  intro he
  have hf : D.fns f := D.fn he hfn
  rw [Expr.walk_of_fn hfn]
  refine (hv.walkFn_of_body hbody hf).bind fun {G f'} hG h => ?_
  obtain ⟨hf', hbecomes⟩ := h
  have hDG := hv.le_of_le hG
  refine hv.keepOrRemake (hDG.1 _ he) (fun hsame => ?_) (fun _ _ => Expr.id_withFn hfn)
    (fun i d hd => ?_) (fun i g hg => ?_) fun i => Expr.rebuilt_withFn hfn hbecomes
  · obtain rfl := G.fn_eq hf' (hDG.2 _ hf) (by simpa [Lambda.same] using hsame)
    have hrebuilt := Expr.rebuilt_withFn (i := e.id) hfn hbecomes
    rwa [Expr.withFn_self hfn] at hrebuilt
  · rw [Expr.parts_of_fn? (Expr.fn?_withFn hfn)] at hd
    cases hd
  · rw [Expr.fn?_withFn hfn] at hg
    exact Option.some.inj hg ▸ hf'

/-- The visit to the parts of a node makes what the judgement says, and so does the visit to its
stand-in where the node gives way. -/
theorem Visitor.Follows.walk (hv : v.Follows I D F₀ J) (e : Expr) :
    Remakes I D F₀ (e.walk v) e (e.Rebuilt J) ∧
      (J.stands e → Remakes I D F₀ (e.walkStandIn v) e (e.Becomes J)) := by
  induction e using Expr.byPart with
  | h e ihpart ihfn =>
    have hpart : ∀ d ∈ e.parts, Remakes I D F₀ (v.apply d) d (d.Becomes J) :=
      fun d hd => hv.visit (ihpart d hd).1 (ihpart d hd).2
    constructor
    · cases hfn : e.fn? with
      | none => exact hv.walk_of_parts hfn hpart
      | some f => exact hv.walk_of_fn hfn (hv.visit (ihfn f hfn).1 (ihfn f hfn).2)
    · intro hs he
      cases hd : e.standIn? with
      | none =>
        rw [Expr.walkStandIn_of_none hd]
        exact hv.remakes_pure (.stay hs hd) he
      | some d =>
        have hmem := Expr.mem_parts_of_standIn? hd
        rw [Expr.walkStandIn_of_some hd]
        exact (hpart d hmem (D.part he hmem)).imp fun _ h => ⟨h.1, .standIn hs hd h.2⟩

theorem Visitor.Follows.remakes (hv : v.Follows I D F₀ J) (e : Expr) :
    Remakes I D F₀ (v.apply e) e (e.Becomes J) :=
  hv.visit (hv.walk e).1 (hv.walk e).2

/-- A visit to an expression makes what the judgement says. -/
theorem Visitor.Follows.apply (hv : v.Follows I D F₀ J) {e e' : Expr} {F : Forest} {s s' : σ}
    (hF₀ : F₀ ≤ F) (he : D.nodes e) (hF : F.Below (CarriesTrail.trail s).next) (hI : I s)
    (hrun : outcome (v.apply e) s = (.ok e', s')) :
    Made I F s' fun G => G.nodes e' ∧ e.Becomes J e' :=
  (hv.remakes e he).made hF₀ hF hI hrun

/-- A visit to a lambda makes what the judgement says. -/
theorem Visitor.Follows.walkFn (hv : v.Follows I D F₀ J) {f f' : Lambda} {F : Forest} {s s' : σ}
    (hF₀ : F₀ ≤ F) (hf : D.fns f) (hF : F.Below (CarriesTrail.trail s).next) (hI : I s)
    (hrun : outcome (f.walk v) s = (.ok f', s')) :
    Made I F s' fun G => G.fns f' ∧ f.Becomes J f' :=
  (hv.walkFn_of_body (hv.remakes f.body) hf).made hF₀ hF hI hrun

end

end ObjectMapping
