import ObjectMapping.Proofs.Inside
import ObjectMapping.Session

/-!
# What a run leaves as it is

A run may end with a result or with a fault, and its state is kept either way. `Upholds` says of a
run that it leaves an invariant of the state true however it ends, and what it may come to.
`Keeps` is the invariant alone, `Fails` says that there is no result, `Yields` names the result, and
a run of `RunM` is said to advance if it does nothing to the trail but take identities of nodes and
write to the log.

`Visitor.apply_keeps` and `Visitor.apply_fails` are the two statements about visits : a visit keeps
what its judgements keep, and it fails if it comes to a node on which the visitor fails. Nothing is
assumed of the tree here, and nothing is said of what the visit makes.
-/

namespace ObjectMapping

open RunM

/-! ## Invariants of a run -/

section

variable {σ α β : Type} {I : σ → Prop}

/-- Wherever the run starts with `I`, it ends with `I`, and `Q` of its result or fault. -/
def Upholds (I : σ → Prop) (run : Steps σ α) (Q : Except Fault α → Prop) : Prop :=
  ∀ s, I s → I (outcome run s).2 ∧ Q (outcome run s).1

/-- Wherever the run starts with `I`, it ends with `I`. -/
abbrev Keeps (I : σ → Prop) (run : Steps σ α) : Prop :=
  Upholds I run fun _ => True

/-- Wherever the run starts with `I`, it ends with `I` and a fault. -/
abbrev Fails (I : σ → Prop) (run : Steps σ α) : Prop :=
  Upholds I run fun r => ∃ fault, r = .error fault

/-- Wherever the run starts with `I`, it ends with `I` and the result. -/
abbrev Yields (I : σ → Prop) (run : Steps σ α) (a : α) : Prop :=
  Upholds I run fun r => r = .ok a

namespace Upholds

variable {run : Steps σ α} {P Q : Except Fault α → Prop} {R : Except Fault β → Prop}

theorem imp (h : Upholds I run P) (hPQ : ∀ r, P r → Q r) : Upholds I run Q :=
  fun s hs => ⟨(h s hs).1, hPQ _ (h s hs).2⟩

theorem keeps (h : Upholds I run P) : Keeps I run :=
  h.imp fun _ _ => trivial

theorem and (hP : Upholds I run P) (hQ : Upholds I run Q) : Upholds I run fun r => P r ∧ Q r :=
  fun s hs => ⟨(hP s hs).1, (hP s hs).2, (hQ s hs).2⟩

theorem pure {a : α} (h : P (.ok a)) : Upholds I (Pure.pure a : Steps σ α) P :=
  fun _ hs => ⟨hs, h⟩

theorem throw {e : Fault} (h : P (.error e)) : Upholds I (MonadExcept.throw e : Steps σ α) P :=
  fun _ hs => ⟨hs, h⟩

/-- A fault of the first step ends the run. -/
theorem bind {f : α → Steps σ β} (hrun : Upholds I run P)
    (hf : ∀ a, P (.ok a) → Upholds I (f a) R) (hfault : ∀ e, P (.error e) → R (.error e)) :
    Upholds I (run >>= f) R := by
  intro s hs
  obtain ⟨hI, hP⟩ := hrun s hs
  rcases h : outcome run s with ⟨e | a, s₁⟩ <;> rw [h] at hI hP
  · rw [outcome_bind_of_error h]
    exact ⟨hI, hfault e hP⟩
  · rw [outcome_bind_of_ok h]
    exact hf a hP s₁ hI

end Upholds

theorem Keeps.bind {run : Steps σ α} {f : α → Steps σ β} (hrun : Keeps I run)
    (hf : ∀ a, Keeps I (f a)) : Keeps I (run >>= f) :=
  Upholds.bind hrun (fun a _ => hf a) fun _ _ => trivial

theorem Keeps.pure {a : α} : Keeps I (Pure.pure a : Steps σ α) :=
  Upholds.pure trivial

theorem Keeps.ite {c : Prop} [Decidable c] {x y : Steps σ α} (hx : Keeps I x) (hy : Keeps I y) :
    Keeps I (if c then x else y) := by
  split
  · exact hx
  · exact hy

theorem Fails.first {run : Steps σ α} {f : α → Steps σ β} (hrun : Fails I run) :
    Fails I (run >>= f) :=
  Upholds.bind hrun (fun a h => by obtain ⟨_, h⟩ := h; cases h) fun e _ => ⟨e, rfl⟩

theorem Fails.next {run : Steps σ α} {f : α → Steps σ β} (hrun : Keeps I run)
    (hf : ∀ a, Fails I (f a)) : Fails I (run >>= f) :=
  Upholds.bind hrun (fun a _ => hf a) fun e _ => ⟨e, rfl⟩

/-- A run whose first step is known to yield a result goes on with it. -/
theorem Yields.next {run : Steps σ α} {f : α → Steps σ β} {a : α} {Q : Except Fault β → Prop}
    (hrun : Yields I run a) (hf : Upholds I (f a) Q) : Upholds I (run >>= f) Q :=
  Upholds.bind hrun (fun a' h => by obtain rfl := Except.ok.inj h; exact hf) nofun

theorem Yields.bind {run : Steps σ α} {f : α → Steps σ β} {a : α} {b : β} (hrun : Yields I run a)
    (hf : Yields I (f a) b) : Yields I (run >>= f) b :=
  hrun.next hf

theorem Yields.pure {a : α} : Yields I (Pure.pure a : Steps σ α) a :=
  Upholds.pure rfl

theorem Keeps.mapM {f : α → Steps σ β} :
    ∀ {as : List α}, (∀ a ∈ as, Keeps I (f a)) → Keeps I (as.mapM f)
  | [], _ => .pure
  | a :: as, h => by
    rw [List.mapM_cons]
    exact (h a (by simp)).bind fun _ =>
      (Keeps.mapM fun b hb => h b (by simp [hb])).bind fun _ => .pure

/-! ## What a run ends with -/

/-- Wherever the run starts with `I`, it ends with `I`, and a result that it ends with has `Q`. -/
abbrev Gives (I : σ → Prop) (run : Steps σ α) (Q : α → Prop) : Prop :=
  Upholds I run fun r => ∀ a, r = .ok a → Q a

/-- A result that the run ends with, wherever it starts, has `Q`. -/
abbrev Ends (run : Steps σ α) (Q : α → Prop) : Prop :=
  Gives (fun _ => True) run Q

namespace Gives

variable {run : Steps σ α} {P Q : α → Prop} {R : β → Prop}

theorem imp (h : Gives I run P) (hPQ : ∀ a, P a → Q a) : Gives I run Q :=
  Upholds.imp h fun _ hr a ha => hPQ a (hr a ha)

theorem pure {a : α} (h : Q a) : Gives I (Pure.pure a : Steps σ α) Q :=
  Upholds.pure fun _ ha => Except.ok.inj ha ▸ h

theorem throw {e : Fault} : Gives I (MonadExcept.throw e : Steps σ α) Q :=
  Upholds.throw nofun

theorem bind {f : α → Steps σ β} (hrun : Gives I run P) (hf : ∀ a, P a → Gives I (f a) R) :
    Gives I (run >>= f) R :=
  Upholds.bind hrun (fun a ha => hf a (ha a rfl)) fun _ _ => nofun

/-- What comes after a failure does not matter. -/
theorem stop {e : Fault} {f : α → Steps σ β} : Gives I (MonadExcept.throw e >>= f) R :=
  bind (P := fun _ => False) .throw fun _ h => h.elim

theorem ite {c : Prop} [Decidable c] {x y : Steps σ α} (hx : c → Gives I x Q)
    (hy : ¬ c → Gives I y Q) : Gives I (if c then x else y) Q := by
  split
  · exact hx ‹_›
  · exact hy ‹_›

theorem mapM {f : α → Steps σ β} :
    ∀ {as : List α}, (∀ a ∈ as, Gives I (f a) R) → Gives I (as.mapM f) fun bs => ∀ b ∈ bs, R b
  | [], _ => .pure (by simp)
  | a :: as, h => by
    rw [List.mapM_cons]
    refine (h a (by simp)).bind fun b hb => ?_
    refine (Gives.mapM fun d hd => h d (by simp [hd])).bind fun bs hbs => .pure ?_
    exact List.forall_mem_cons.2 ⟨hb, hbs⟩

end Gives

/-- A run ends with nothing but results that have the property, wherever it starts. -/
theorem ends_iff {run : Steps σ α} {Q : α → Prop} :
    Ends run Q ↔ ∀ {s s' a}, outcome run s = (.ok a, s') → Q a := by
  constructor
  · intro h s s' a hrun
    exact (h s trivial).2 a (by rw [hrun])
  · intro h s _
    exact ⟨trivial, fun a ha => h (Prod.ext ha rfl)⟩

theorem ends_any {run : Steps σ α} : Ends run fun _ => True :=
  fun _ _ => ⟨trivial, fun _ _ => trivial⟩

theorem ends_mapM_length (f : α → Steps σ β) (as : List α) :
    Ends (as.mapM f) fun bs => bs.length = as.length := by
  induction as with
  | nil => exact .pure rfl
  | cons a as ih =>
    rw [List.mapM_cons]
    refine Gives.bind ends_any fun b _ => ih.bind fun bs hbs => .pure ?_
    rw [List.length_cons, List.length_cons, hbs]

theorem ends_ofExcept {x : Except Failure α} {Q : α → Prop} (h : ∀ a, x = .ok a → Q a) :
    Ends (ofExcept x) Q := by
  cases x with
  | ok a => exact .pure (h a rfl)
  | error e => exact .throw

/-- Wherever the run starts with `I`, it ends with `I` and with a result, which has `Q`. -/
abbrev Reaches (I : σ → Prop) (run : Steps σ α) (Q : α → Prop) : Prop :=
  Upholds I run fun r => ∃ a, r = .ok a ∧ Q a

namespace Reaches

variable {run : Steps σ α} {P Q : α → Prop} {R : β → Prop}

theorem imp (h : Reaches I run P) (hPQ : ∀ a, P a → Q a) : Reaches I run Q :=
  Upholds.imp h fun _ ⟨a, ha, hP⟩ => ⟨a, ha, hPQ a hP⟩

theorem pure {a : α} (h : Q a) : Reaches I (Pure.pure a : Steps σ α) Q :=
  Upholds.pure ⟨a, rfl, h⟩

theorem bind {f : α → Steps σ β} (hrun : Reaches I run P)
    (hf : ∀ a, P a → Reaches I (f a) R) : Reaches I (run >>= f) R := by
  refine Upholds.bind hrun (fun a ⟨a', ha, hP⟩ => ?_) nofun
  obtain rfl := Except.ok.inj ha
  exact hf a hP

theorem exists_outcome (h : Reaches I run Q) {s : σ} (hs : I s) :
    ∃ a s', outcome run s = (.ok a, s') ∧ I s' ∧ Q a := by
  obtain ⟨hI, a, ha, hQ⟩ := h s hs
  exact ⟨a, _, Prod.ext ha rfl, hI, hQ⟩

end Reaches

theorem Yields.reaches {run : Steps σ α} {a : α} {Q : α → Prop} (h : Yields I run a) (hQ : Q a) :
    Reaches I run Q :=
  Upholds.imp h fun _ hr => ⟨a, hr, hQ⟩

/-- Wherever the run starts with `I`, it ends with `I`, and with a fault of `E` if the condition
holds, with a result if not. -/
def FailsIff (I : σ → Prop) (run : Steps σ α) (E : Fault → Prop) (B : Prop) : Prop :=
  Upholds I run fun r => (B → ∃ e, r = .error e ∧ E e) ∧ (¬ B → ∃ a, r = .ok a)

namespace FailsIff

variable {run : Steps σ α} {E : Fault → Prop} {B B' : Prop}

theorem congr (h : FailsIff I run E B) (hB : B ↔ B') : FailsIff I run E B' := by
  rwa [← propext hB]

theorem of_reaches {Q : α → Prop} (h : Reaches I run Q) : FailsIff I run E False :=
  Upholds.imp h fun _ ⟨a, ha, _⟩ => ⟨False.elim, fun _ => ⟨a, ha⟩⟩

theorem pure {a : α} : FailsIff I (Pure.pure a : Steps σ α) E False :=
  of_reaches (.pure (Q := fun _ => True) trivial)

theorem throw {e : Fault} (he : E e) : FailsIff I (MonadExcept.throw e : Steps σ α) E True :=
  Upholds.throw ⟨fun _ => ⟨e, rfl, he⟩, fun h => absurd trivial h⟩

/-- What comes after a failure does not matter. -/
theorem stop {e : Fault} {f : α → Steps σ β} (he : E e) :
    FailsIff I (MonadExcept.throw e >>= f) E True :=
  Upholds.bind (throw he) (fun _ h => nomatch h.1 trivial) fun _ h =>
    ⟨fun _ => (h.1 trivial).imp fun _ h => ⟨congrArg _ (Except.error.inj h.1), h.2⟩,
      fun h => absurd trivial h⟩

/-- The second step decides if the first one does not fail, on what that one gives. -/
theorem bind_of_gives {f : α → Steps σ β} {P : α → Prop} (hrun : FailsIff I run E B)
    (hgives : Gives I run P) (hf : ¬ B → ∀ a, P a → FailsIff I (f a) E B') :
    FailsIff I (run >>= f) E (B ∨ B') := by
  refine Upholds.bind (hrun.and hgives) (fun a ha => ?_) fun e he => ?_
  · have hB : ¬ B := fun hB => by
      obtain ⟨_, he, -⟩ := ha.1.1 hB
      cases he
    exact (hf hB a (ha.2 a rfl)).imp fun r hr =>
      ⟨fun h => hr.1 (h.resolve_left hB), fun h => hr.2 fun hB' => h (.inr hB')⟩
  · have hB : B := by
      by_contra hB
      obtain ⟨a, ha⟩ := he.1.2 hB
      cases ha
    obtain ⟨e', he', hE⟩ := he.1.1 hB
    exact ⟨fun _ => ⟨e', congrArg _ (Except.error.inj he'), hE⟩, fun h => absurd (.inl hB) h⟩

theorem next {f : α → Steps σ β} (hrun : FailsIff I run E B)
    (hf : ¬ B → ∀ a, FailsIff I (f a) E B') : FailsIff I (run >>= f) E (B ∨ B') :=
  hrun.bind_of_gives (P := fun _ => True) (hrun.imp fun _ _ _ _ => trivial) fun hB a _ => hf hB a

theorem bind {f : α → Steps σ β} (hrun : FailsIff I run E B)
    (hf : ∀ a, FailsIff I (f a) E B') : FailsIff I (run >>= f) E (B ∨ B') :=
  hrun.next fun _ => hf

theorem reaches (h : FailsIff I run E B) (hB : ¬ B) : Reaches I run fun _ => True :=
  Upholds.imp h fun _ hr => (hr.2 hB).imp fun _ ha => ⟨ha, trivial⟩

end FailsIff

end

/-! ## Visits -/

section

variable {σ α β : Type} {I : σ → Prop} {R : Expr → Except Fault Expr → Prop}

/-- If a run ends with a result, the visits to the nodes did, and came to what `R` says. -/
def Visited (R : Expr → Except Fault Expr → Prop) (ds : List Expr) (r : Except Fault α) : Prop :=
  ∀ a, r = .ok a → ∀ d ∈ ds, ∃ d', R d (.ok d')

theorem visited_error {ds : List Expr} {e : Fault} : Visited R ds (.error e : Except Fault α) :=
  fun _ h => nomatch h

theorem Upholds.visited_nil {run : Steps σ α} (h : Keeps I run) : Upholds I run (Visited R []) :=
  h.imp fun _ _ _ _ _ hd => absurd hd List.not_mem_nil

/-- What comes after the last visit has to keep the invariant, no more. -/
theorem Upholds.visited_last {run : Steps σ α} {f : α → Steps σ β} {ds : List Expr}
    (hrun : Upholds I run (Visited R ds)) (hf : ∀ a, Keeps I (f a)) :
    Upholds I (run >>= f) (Visited R ds) :=
  hrun.bind (fun a hvisited => (hf a).imp fun _ _ _ _ => hvisited a rfl) fun _ _ => visited_error

theorem Upholds.visited_bind {run : Steps σ α} {f : α → Steps σ β} {ds ds' : List Expr}
    (hrun : Upholds I run (Visited R ds)) (hf : ∀ a, Upholds I (f a) (Visited R ds')) :
    Upholds I (run >>= f) (Visited R (ds ++ ds')) := by
  refine hrun.bind (fun a hvisited => (hf a).imp fun r hr b hb d hd => ?_)
    fun _ _ => visited_error
  exact (List.mem_append.1 hd).elim (hvisited a rfl d) (hr b hb d)

variable [MonadLiftT RunM (Steps σ)] {v : Visitor (Steps σ)}

theorem Upholds.visited_apply {e : Expr} (h : Upholds I (v.apply e) (R e)) :
    Upholds I (v.apply e) (Visited R [e]) :=
  h.imp fun r hr e' he' d hd => ⟨e', by rw [List.mem_singleton.1 hd, ← he']; exact hr⟩

theorem Visitor.walkList_upholds {es : List Expr} (h : ∀ e ∈ es, Upholds I (v.apply e) (R e)) :
    Upholds I (Expr.walkList v es) (Visited R es) := by
  induction es with
  | nil => exact .visited_nil .pure
  | cons e es ih =>
    change Upholds I _ (Visited R ([e] ++ es))
    refine (h e (by simp)).visited_apply.visited_bind fun e' => ?_
    exact (ih fun d hd => h d (by simp [hd])).visited_last fun _ => .pure

/-- The visits to a list make as many nodes as it has. -/
theorem Visitor.walkList_gives {P : Expr → Prop} {es : List Expr}
    (h : ∀ e ∈ es, Gives I (v.apply e) P) :
    Gives I (Expr.walkList v es) fun es' => es'.length = es.length ∧ ∀ e ∈ es', P e := by
  induction es with
  | nil => exact .pure (by simp)
  | cons e es ih =>
    refine (h e (by simp)).bind fun e' he' => ?_
    refine (ih fun d hd => h d (by simp [hd])).bind fun es' hes' => .pure ?_
    exact ⟨by simp [hes'.1], List.forall_mem_cons.2 ⟨he', hes'.2⟩⟩

end

/-! ## Runs that advance -/

/-- What stays true of a trail when the identity of a node is taken and when a line is written. -/
structure Trail.Invariant where
  holds : Trail → Prop
  fresh {t : Trail} : holds t → holds { t with next := t.next + 1 }
  noted {t : Trail} (line : String) : holds t → holds (t.noted line)

/-- What was made below the next identity stays below it. -/
def Trail.Invariant.above (n : NodeId) : Trail.Invariant where
  holds t := n ≤ t.next
  fresh := Nat.le_succ_of_le
  noted _ h := h

/-- A way in which trails go on. Nodes are made and lines are written on any such way. -/
structure Trail.Course where
  goes : Trail → Trail → Prop
  refl (t : Trail) : goes t t
  trans {t u v : Trail} : goes t u → goes u v → goes t v
  fresh (t : Trail) : goes t { t with next := t.next + 1 }
  noted (t : Trail) (line : String) : goes t (t.noted line)

namespace Trail.Course

/-- No identity is given back, and none is given twice. -/
def growing : Trail.Course where
  goes := Trail.Grows
  refl := .refl
  trans := .trans
  fresh _ := .work (Nat.le_succ _) rfl rfl
  noted _ _ := .work (Nat.le_refl _) rfl rfl

/-- No mapper and no reference takes an identity. -/
def sparing : Trail.Course where
  goes t u := u.register.nextMapper = t.register.nextMapper
  refl _ := rfl
  trans h h' := h'.trans h
  fresh _ := rfl
  noted _ _ := rfl

/-- What has come of a trail goes on coming of it. -/
def ahead (C : Trail.Course) (start : Trail) : Trail.Invariant where
  holds := C.goes start
  fresh h := C.trans h (C.fresh _)
  noted line h := C.trans h (C.noted _ line)

end Trail.Course

/-- Whether the run ends with a result or not, it does nothing to the trail but take identities of
nodes and write to the log. -/
abbrev RunM.Advances {α : Type} (run : RunM α) : Prop :=
  ∀ I : Trail.Invariant, Keeps I.holds run

section

variable {α β : Type}

theorem RunM.Advances.next_le {run : RunM α} (h : run.Advances) {t t' : Trail}
    {r : Except Fault α} (hrun : outcome run t = (r, t')) : t.next ≤ t'.next := by
  have := (h (.above t.next) t (Nat.le_refl _)).1
  rwa [hrun] at this

theorem RunM.advances_fresh : fresh.Advances :=
  fun I _ ht => ⟨I.fresh ht, trivial⟩

theorem RunM.advances_fail (e : Failure) : (fail e : RunM α).Advances :=
  fun _ => .throw trivial

theorem RunM.advances_reject (e : ArgumentFault) : (reject e : RunM α).Advances :=
  fun _ => .throw trivial

theorem RunM.advances_note (line : String) : (note line).Advances :=
  fun I _ ht => ⟨I.noted line ht, trivial⟩

theorem RunM.advances_notes (lines : List String) : (lines.forM note : RunM Unit).Advances := by
  intro I
  induction lines with
  | nil => exact .pure
  | cons line lines ih => exact (advances_note line I).bind fun _ => ih

theorem RunM.advances_ofExcept : ∀ x : Except Failure α, (ofExcept x).Advances
  | .ok _ => fun _ => .pure
  | .error e => advances_fail e

/-- A new node takes an identity and gives none back. -/
theorem RunM.advances_make (make : NodeId → β) :
    (do return make (← fresh) : RunM β).Advances :=
  fun I => (advances_fresh I).bind fun _ => .pure

theorem RunM.advances_requireParams (ps : List Param) (es : List Expr) :
    (Param.requireParams ps es).Advances := by
  intro I
  induction ps generalizing es with
  | nil => exact .pure
  | cons p ps ih =>
    cases es with
    | nil => exact .pure
    | cons e es =>
      rw [Param.requireParams]
      split
      · exact (advances_fail _ I).bind fun _ => ih es
      · exact ih es

theorem RunM.advances_paramsOf (seen : List Param) (es : List Expr) :
    (Lambda.paramsOf seen es).Advances := by
  intro I
  induction es generalizing seen with
  | nil => exact .pure
  | cons e es ih =>
    rw [Lambda.paramsOf]
    split
    · exact advances_reject _ I
    · split
      · exact (advances_reject _ I).bind fun _ => (ih _).bind fun _ => .pure
      · exact (ih _).bind fun _ => .pure

theorem RunM.advances_ofExprs (params : List Expr) (body : Expr) :
    (Lambda.ofExprs params body).Advances :=
  fun I => (advances_paramsOf _ _ I).bind fun _ => (advances_fresh I).bind fun _ => .pure

end

/-! ## Trees -/

section

variable {σ : Type} {I : σ → Prop} {R : Expr → Except Fault Expr → Prop}
  [MonadLiftT RunM (Steps σ)] {v : Visitor (Steps σ)}

/-- The visit to the parameters and the body of a lambda ends only if the visits to them do. -/
theorem Visitor.walkFn_upholds
    (hlift : ∀ {α : Type} {run : RunM α}, run.Advances → Keeps I (liftM run : Steps σ α))
    {f : Lambda} (h : ∀ d ∈ f.children, Upholds I (v.apply d) (R d)) :
    Upholds I (f.walk v) (Visited R f.children) := by
  obtain ⟨hparams, hbody⟩ := List.forall_mem_append.1 h
  rw [Lambda.walk_eq]
  refine (Visitor.walkList_upholds hparams).visited_bind fun es => ?_
  refine Upholds.bind (hlift (advances_requireParams f.params es)) (fun _ _ => ?_)
    fun _ _ => visited_error
  refine (hbody f.body (by simp)).visited_apply.visited_last fun b' => ?_
  exact .ite .pure (hlift (advances_ofExprs _ _))

/-- The visit to the parts of a node ends only if the visits to them do. -/
theorem Visitor.walk_upholds
    (hlift : ∀ {α : Type} {run : RunM α}, run.Advances → Keeps I (liftM run : Steps σ α))
    {e : Expr} (h : ∀ d ∈ e.children, Upholds I (v.apply d) (R d)) :
    Upholds I (e.walk v) (Visited R e.children) := by
  have keepOrRemake {c : Bool} {make : NodeId → Expr} :
      Keeps I (Expr.keepOrRemake c e make : Steps σ Expr) :=
    .ite .pure ((hlift advances_fresh).bind fun _ => .pure)
  cases hf : e.fn? with
  | none =>
    rw [Expr.children_of_parts hf] at h ⊢
    rw [Expr.walk_of_parts hf]
    exact (Visitor.walkList_upholds h).visited_last fun _ => keepOrRemake
  | some f =>
    rw [Expr.children_of_fn? hf] at h ⊢
    rw [Expr.walk_of_fn hf]
    exact (Visitor.walkFn_upholds hlift h).visited_last fun _ => keepOrRemake

/-- The visit to the stand-in of a node keeps what the visits to its parts keep. -/
theorem Visitor.walkStandIn_keeps {e : Expr} (h : ∀ d ∈ e.children, Keeps I (v.apply d)) :
    Keeps I (e.walkStandIn v) := by
  cases hd : e.standIn? with
  | none =>
    rw [Expr.walkStandIn_of_none hd]
    exact .pure
  | some d =>
    rw [Expr.walkStandIn_of_some hd]
    exact h d (Expr.mem_children.2 (.inl (Expr.mem_parts_of_standIn? hd)))

/-- A visit keeps what the judgements on the nodes keep. -/
theorem Visitor.apply_keeps {P : Expr → Prop}
    (hlift : ∀ {α : Type} {run : RunM α}, run.Advances → Keeps I (liftM run : Steps σ α))
    (hjudge : ∀ e, P e → Keeps I (v.judge e)) {e : Expr} (he : e.All P) : Keeps I (v.apply e) := by
  induction he with
  | @mk e hP _ ih =>
    refine (hjudge e hP).bind fun verdict => ?_
    cases verdict with
    | enter => exact (Visitor.walk_upholds hlift ih).keeps
    | put d => exact .pure
    | standIn => exact Visitor.walkStandIn_keeps ih

/-- A run that visits nodes fails if the visit to one of them does. -/
theorem Visitor.fails_of_visited {α : Type} {run : Steps σ α} {ds : List Expr}
    (hrun : ∀ {R : Expr → Except Fault Expr → Prop},
      (∀ d ∈ ds, Upholds I (v.apply d) (R d)) → Upholds I run (Visited R ds))
    (hkeeps : ∀ d ∈ ds, Keeps I (v.apply d)) {d : Expr} (hd : d ∈ ds)
    (hfail : Fails I (v.apply d)) : Fails I run := by
  have hvisit (c : Expr) (hc : c ∈ ds) :
      Upholds I (v.apply c) fun r => c = d → ∃ fault, r = .error fault := by
    by_cases heq : c = d
    · subst heq
      exact hfail.imp fun _ h _ => h
    · exact (hkeeps c hc).imp fun _ _ h => absurd h heq
  refine (hrun hvisit).imp fun r hr => ?_
  cases r with
  | error fault => exact ⟨fault, rfl⟩
  | ok a =>
    obtain ⟨_, h⟩ := hr a rfl d hd
    exact nomatch h rfl

/-- A visit fails if it comes to a node on which the visitor fails, by way of nodes that it
enters. -/
theorem Visitor.apply_fails {P Q : Expr → Prop}
    (hlift : ∀ {α : Type} {run : RunM α}, run.Advances → Keeps I (liftM run : Steps σ α))
    (hjudge : ∀ e, P e → Keeps I (v.judge e))
    (henter : ∀ e, P e → Q e → Yields I (v.judge e) .enter)
    {node : Expr} (hfail : Fails I (v.judge node)) {e : Expr} (he : e.All P)
    (hlies : node.LiesIn Q e) : Fails I (v.apply e) := by
  induction hlies with
  | here => exact hfail.first
  | @child e d hQ hd _ ih =>
    refine Upholds.bind (henter e he.head hQ) (fun verdict hverdict => ?_) nofun
    obtain rfl := Except.ok.inj hverdict
    exact Visitor.fails_of_visited (fun hR => Visitor.walk_upholds hlift hR)
      (fun c hc => Visitor.apply_keeps hlift hjudge (he.child hc)) hd (ih (he.child hd))

end

/-! ## Sessions -/

section

variable {α : Type} {I : Session → Prop} {Q : Except Fault α → Prop}

/-- A run inside a session upholds what it upholds for its trail. -/
theorem SessionM.lift_upholds {run : RunM α}
    (h : ∀ s, I s → I { s with trail := (outcome run s.trail).2 } ∧ Q (outcome run s.trail).1) :
    Upholds I (liftM run : SessionM α) Q :=
  h

variable {hooks : Hooks} {id : ExpanderId} {run : ExpanderDesign → Host → PassM α} {s : Session}

theorem SessionM.outcome_pass_of_none (h : s.expanders[id]? = none) :
    outcome (SessionM.pass hooks id run) s = (.error .exhausted, s) := by
  simp only [SessionM.pass, outcome, h]

/-- A pass is a run of the expander in the session, with its cache. -/
theorem SessionM.outcome_pass {expander : Expander} (h : s.expanders[id]? = some expander)
    {r : Except Fault α} {t : Trail} {cache : TransformerCache}
    (hrun : outcome (run expander.design (s.host hooks)) (s.trail, expander.cache) =
      (r, t, cache)) :
    outcome (SessionM.pass hooks id run) s =
      (r, { s with trail := t, expanders := s.expanders.set id { expander with cache } }) := by
  unfold outcome at hrun
  simp only [SessionM.pass, outcome, h, hrun]

/-- A pass upholds what it upholds for the trail and the cache of its expander. -/
theorem SessionM.pass_upholds (hmissing : Q (.error .exhausted))
    (h : ∀ s expander, I s → s.expanders[id]? = some expander → ∀ r t cache,
      outcome (run expander.design (s.host hooks)) (s.trail, expander.cache) = (r, t, cache) →
      I { s with trail := t, expanders := s.expanders.set id { expander with cache } } ∧ Q r) :
    Upholds I (SessionM.pass hooks id run) Q := by
  intro s hs
  cases hfound : s.expanders[id]? with
  | none =>
    rw [outcome_pass_of_none hfound]
    exact ⟨hs, hmissing⟩
  | some expander =>
    rw [outcome_pass hfound rfl]
    exact h s expander hs hfound _ _ _ rfl

end

end ObjectMapping
