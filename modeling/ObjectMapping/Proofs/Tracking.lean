import ObjectMapping.Proofs.Likeness
import ObjectMapping.Proofs.Scoping

/-!
# Runs that track each other

Two runs of the same code on alike values make alike objects, call for call. `Tracks` says so of a
run and a family of runs, which need not nest its calls as deeply : wherever the first run ends, the
others end alike from some depth on. `Expr.evalIn_tracks` proves it of an expression that is
evaluated in alike environments, and `Function.callWithin_tracks` of the call of alike functions.

The native implementations that come from outside must not look at identities (`Host.Respects`).
-/

set_option linter.unusedSectionVars false

namespace ObjectMapping

open RunM

variable {F : Forest} {n : NodeId}

/-! ## Worlds along two runs -/

namespace World

/-- The objects of the world have been made when the two runs have come to these trails. -/
structure Fits (W : World F n) (t t' : Trail) : Prop where
  fst_le : n ≤ t.next
  snd_le : n ≤ t'.next
  heap {i : NodeId} {c : String × List Field} : W.heap i = some c → i < t.next
  origin {j i : NodeId} : W.origin j = some i → i < t.next ∧ j < t'.next

/-- The world has grown by what the second run has made between two trails. -/
structure Grows (W V : World F n) (t t' : Trail) : Prop where
  le : W ≤ V
  next_le : t.next ≤ t'.next
  origin {j i : NodeId} : j < t.next → V.origin j = some i → W.origin j = some i

variable {U V W : World F n} {t t' t₁ t₁' t₂' : Trail}

theorem Grows.refl (W : World F n) (t : Trail) : W.Grows W t t :=
  ⟨W.le_refl, Nat.le_refl _, fun _ h => h⟩

theorem Grows.trans (h : U.Grows V t' t₁') (h' : V.Grows W t₁' t₂') : U.Grows W t' t₂' :=
  ⟨World.le_trans h.le h'.le, Nat.le_trans h.next_le h'.next_le,
    fun hj ho => h.origin hj (h'.origin (Nat.lt_of_lt_of_le hj h.next_le) ho)⟩

theorem Fits.mono (h : W.Fits t t') (hle : t.next ≤ t₁.next) (hle' : t'.next ≤ t₁'.next) :
    W.Fits t₁ t₁' :=
  ⟨Nat.le_trans h.fst_le hle, Nat.le_trans h.snd_le hle',
    fun hi => Nat.lt_of_lt_of_le (h.heap hi) hle,
    fun hj => ⟨Nat.lt_of_lt_of_le (h.origin hj).1 hle, Nat.lt_of_lt_of_le (h.origin hj).2 hle'⟩⟩

theorem start_fits (h : n ≤ t.next) (h' : n ≤ t'.next) : (start F n).Fits t t' := by
  refine ⟨h, h', fun hi => (nomatch hi), fun {j i} hj => ?_⟩
  rw [start_origin] at hj
  split at hj
  · obtain rfl := Option.some.inj hj
    exact ⟨Nat.lt_of_lt_of_le ‹_› h, Nat.lt_of_lt_of_le ‹_› h'⟩
  · cases hj

/-- The world with one more object, that both runs make now. -/
def push (W : World F n) (hfits : W.Fits t t') (ty : String) (fs : List Field) : World F n where
  heap i := if i = t.next then some (ty, fs) else W.heap i
  origin j := if j = t'.next then some t.next else W.origin j
  shared {j} h := by
    rw [if_neg (Nat.ne_of_lt (Nat.lt_of_lt_of_le h hfits.snd_le))]
    exact W.shared h
  own {j i} h hn := by
    split at h
    · obtain rfl := Option.some.inj h
      subst j
      exact absurd hn (not_or.2 ⟨Nat.not_lt.2 hfits.snd_le, Nat.not_lt.2 hfits.fst_le⟩)
    · exact W.own h hn
  steady {j k i} hj hk := by
    split at hj
    · obtain rfl := Option.some.inj hj
      split at hk
      · subst j k
        exact .inl rfl
      · exact absurd (hfits.origin hk).1 (Nat.lt_irrefl _)
    · have hi := Nat.ne_of_lt (hfits.origin hj).1
      split at hk
      · exact absurd (Option.some.inj hk).symm hi
      · rw [if_neg hi]
        exact W.steady hj hk

theorem push_fits (hfits : W.Fits t t') (ty : String) (fs : List Field)
    (hnext : t₁.next = t.next + 1) (hnext' : t₁'.next = t'.next + 1) :
    (W.push hfits ty fs).Fits t₁ t₁' := by
  have hlt : t.next < t₁.next := hnext ▸ Nat.lt_succ_self _
  have hlt' : t'.next < t₁'.next := hnext' ▸ Nat.lt_succ_self _
  have hmono := hfits.mono (Nat.le_of_lt hlt) (Nat.le_of_lt hlt')
  refine ⟨hmono.fst_le, hmono.snd_le, fun {i c} hi => ?_, fun {j i} hj => ?_⟩
  · change (if i = t.next then _ else _) = _ at hi
    split at hi
    · subst i
      exact hlt
    · exact hmono.heap hi
  · change (if j = t'.next then _ else _) = _ at hj
    split at hj
    · obtain rfl := Option.some.inj hj
      subst j
      exact ⟨hlt, hlt'⟩
    · exact hmono.origin hj

theorem grows_push (hfits : W.Fits t t') (ty : String) (fs : List Field)
    (hnext : t'.next ≤ t₁'.next) : W.Grows (W.push hfits ty fs) t' t₁' where
  le := ⟨fun hj => (if_neg (Nat.ne_of_lt (hfits.origin hj).2)).trans hj,
    fun hi => (if_neg (Nat.ne_of_lt (hfits.heap hi))).trans hi⟩
  next_le := hnext
  origin hj h := (if_neg (Nat.ne_of_lt hj)).symm.trans h

end World

/-! ## Tracking -/

/-- From some depth on, the runs of a family come to one and the same. -/
def Settles {β : Type} (y : Nat → RunM β) (t : Trail) (r : Except Fault β) (t' : Trail) : Prop :=
  ∃ N, ∀ d ≥ N, outcome (y d) t = (r, t')

section

variable {α β γ δ : Type} {W V : World F n} {x : RunM α} {y : Nat → RunM β}
  {R : World F n → α → β → Prop} {S : World F n → γ → δ → Prop}

/-- Where the first run ends, the second runs end alike from some depth on, in every world from `W`
on that fits the trails they start from. -/
structure Tracks (W : World F n) (x : RunM α) (y : Nat → RunM β)
    (R : World F n → α → β → Prop) : Prop where
  ok {V : World F n} {t t' t₁ : Trail} {a : α} : W ≤ V → V.Fits t t' →
    outcome x t = (.ok a, t₁) →
      ∃ b t₁' U, Settles y t' (.ok b) t₁' ∧ V.Grows U t' t₁' ∧ U.Fits t₁ t₁' ∧ R U a b
  failed {V : World F n} {t t' t₁ : Trail} {e : Failure} : W ≤ V → V.Fits t t' →
    outcome x t = (.error (.failed e), t₁) → ∃ t₁', Settles y t' (.error (.failed e)) t₁'

namespace Tracks

theorem mono (h : Tracks W x y R) (hWV : W ≤ V) : Tracks V x y R :=
  ⟨fun hV => h.ok (World.le_trans hWV hV), fun hV => h.failed (World.le_trans hWV hV)⟩

theorem pure {a : α} {b : β} (h : ∀ {V}, W ≤ V → R V a b) :
    Tracks W (Pure.pure a) (fun _ => Pure.pure b) R where
  ok {V t t' _ _} hV hfits hx := by
    obtain ⟨rfl, rfl⟩ := outcome_pure_ok.1 hx
    exact ⟨b, t', V, ⟨0, fun _ _ => rfl⟩, .refl V t', hfits, h hV⟩
  failed _ _ hx := nomatch congrArg Prod.fst hx

theorem fail (e : Failure) : Tracks W (RunM.fail e : RunM α) (fun _ => RunM.fail e) R where
  ok _ _ hx := nomatch congrArg Prod.fst hx
  failed {_ t t' t₁ e'} _ _ hx := by
    obtain ⟨h, -⟩ : e = e' ∧ t = t₁ := by simpa using hx
    exact ⟨t', 0, fun _ _ => by rw [outcome_fail, h]⟩

/-- A run that gives up is tracked by any. -/
theorem exhausted : Tracks W (throw .exhausted : RunM α) y R :=
  ⟨fun _ _ hx => (nomatch congrArg Prod.fst hx), fun _ _ hx => nomatch congrArg Prod.fst hx⟩

theorem ofExcept {x : Except Failure α} {y : Except Failure β}
    (h : ∀ {V}, W ≤ V → Agree (R V) x y) :
    Tracks W (RunM.ofExcept x) (fun _ => RunM.ofExcept y) R := by
  cases x with
  | ok a =>
    cases h W.le_refl with | @ok _ b hab =>
    refine pure fun hV => ?_
    cases h hV
    assumption
  | error e =>
    cases h W.le_refl
    exact fail e

theorem bind {f : α → RunM γ} {g : Nat → β → RunM δ} (hx : Tracks W x y R)
    (hf : ∀ {V a b}, W ≤ V → R V a b → Tracks V (f a) (g · b) S) :
    Tracks W (x >>= f) (fun d => y d >>= g d) S := by
  constructor
  · intro V t t' t₂ c hV hfits hrun
    obtain ⟨a, t₁, hxa, hfa⟩ := outcome_bind_ok.1 hrun
    obtain ⟨b, t₁', U, ⟨N, hy⟩, hgrows, hfits₁, hab⟩ := hx.ok hV hfits hxa
    obtain ⟨c', t₂', U', ⟨M, hg⟩, hgrows', hfits₂, hc⟩ :=
      (hf (World.le_trans hV hgrows.le) hab).ok U.le_refl hfits₁ hfa
    refine ⟨c', t₂', U', ⟨max N M, fun d hd => ?_⟩, hgrows.trans hgrows', hfits₂, hc⟩
    rw [outcome_bind_of_ok (hy d (by omega)), hg d (by omega)]
  · intro V t t' t₂ e hV hfits hrun
    rcases hxa : outcome x t with ⟨_ | a, t₁⟩
    · rw [outcome_bind_of_error hxa] at hrun
      obtain ⟨hfault, rfl⟩ := Prod.mk.inj hrun
      obtain rfl := Except.error.inj hfault
      obtain ⟨t₁', N, hy⟩ := hx.failed hV hfits hxa
      exact ⟨t₁', N, fun d hd => outcome_bind_of_error (hy d hd)⟩
    · rw [outcome_bind_of_ok hxa] at hrun
      obtain ⟨b, t₁', U, ⟨N, hy⟩, hgrows, hfits₁, hab⟩ := hx.ok hV hfits hxa
      obtain ⟨t₂', M, hg⟩ := (hf (World.le_trans hV hgrows.le) hab).failed U.le_refl hfits₁ hrun
      refine ⟨t₂', max N M, fun d hd => ?_⟩
      rw [outcome_bind_of_ok (hy d (by omega)), hg d (by omega)]

/-- Second runs that nest calls one deeper come to the same. -/
theorem succ {y' : Nat → RunM β} (h : Tracks W x y R) (hy : ∀ d, y' (d + 1) = y d) :
    Tracks W x y' R := by
  have settles {t t' : Trail} {r : Except Fault β} (h : Settles y t r t') : Settles y' t r t' := by
    obtain ⟨N, h⟩ := h
    refine ⟨N + 1, fun d hd => ?_⟩
    obtain ⟨d, rfl⟩ : ∃ k, d = k + 1 := ⟨d - 1, by omega⟩
    rw [hy, h d (by omega)]
  constructor
  · intro V t t' t₁ a hV hfits hx
    obtain ⟨b, t₁', U, hy, hrest⟩ := h.ok hV hfits hx
    exact ⟨b, t₁', U, settles hy, hrest⟩
  · intro V t t' t₁ e hV hfits hx
    obtain ⟨t₁', hy⟩ := h.failed hV hfits hx
    exact ⟨t₁', settles hy⟩

/-- The truth value that is needed of alike values is the same. -/
theorem truth {v w : Value} (h : v.Alike W w) (context : String) :
    Tracks W (RunM.ofExcept (v.truth context)) (fun _ => RunM.ofExcept (w.truth context))
      fun _ a b => b = a := by
  rw [h.truth_eq]
  refine ofExcept fun _ => ?_
  cases v.truth context with
  | ok => exact .ok rfl
  | error => exact .error _

/-- Runs over alike values, one after the other. -/
theorem mapM {f : Value → RunM Value} {g : Nat → Value → RunM Value} {vs ws : List Value}
    (hf : ∀ {V v w}, W ≤ V → v.Alike V w → Tracks V (f v) (g · w) Value.Alike)
    (h : List.Forall₂ (Value.Alike W) vs ws) :
    Tracks W (vs.mapM f) (fun d => ws.mapM (g d)) fun V => List.Forall₂ (Value.Alike V) := by
  induction h with
  | nil => exact pure fun _ => .nil
  | cons h _ ih =>
    simp only [List.mapM_cons]
    refine bind (hf W.le_refl h) fun hV hv => ?_
    refine bind (ih.mono hV) fun hV' hvs => ?_
    exact pure fun hV'' => .cons (hv.mono (World.le_trans hV' hV''))
      (hvs.imp fun _ _ h => h.mono hV'')

/-- Both runs make an object with alike fields. -/
theorem object {fs gs : List Field} (ty : String) (h : List.Forall₂ (Field.Alike W) fs gs) :
    Tracks W (do return .object (← fresh) ty fs) (fun _ => do return .object (← fresh) ty gs)
      Value.Alike := by
  refine ⟨fun {V t t' _ _} hV hfits hx => ?_, fun _ _ hx => nomatch congrArg Prod.fst hx⟩
  rw [outcome_bind_of_ok (outcome_fresh t)] at hx
  obtain ⟨rfl, rfl⟩ := outcome_pure_ok.1 hx
  have hgrows : V.Grows (V.push hfits ty fs) t' { t' with next := t'.next + 1 } :=
    World.grows_push hfits ty fs (Nat.le_succ _)
  refine ⟨.object t'.next ty gs, _, V.push hfits ty fs,
    ⟨0, fun _ _ => outcome_bind_of_ok (outcome_fresh t')⟩, hgrows,
    World.push_fits hfits ty fs rfl rfl, ?_⟩
  refine .object (if_pos rfl) (fun _ => if_pos rfl) (h.imp fun _ _ h => ?_)
  exact h.mono (World.le_trans hV hgrows.le)

/-- What is written to the log makes no difference. -/
theorem notes (lines lines' : List String) :
    Tracks W (lines.forM note) (fun _ => lines'.forM note) fun _ _ _ => True := by
  have outcome_notes (lines : List String) (t : Trail) :
      outcome (lines.forM note) t = (.ok (), { t with log := t.log ++ lines }) := by
    induction lines generalizing t with
    | nil => simp
    | cons line lines ih =>
      have hline : outcome (note line) t = (.ok (), { t with log := t.log ++ [line] }) := rfl
      rw [List.forM_eq_forM, List.forM_cons, outcome_bind_of_ok hline, ← List.forM_eq_forM, ih]
      simp
  refine ⟨fun {V t t' _ _} _ hfits hx => ?_, fun _ _ hx => ?_⟩
  · obtain ⟨-, rfl⟩ := Prod.mk.inj ((outcome_notes lines t).symm.trans hx)
    exact ⟨(), _, V, ⟨0, fun _ _ => outcome_notes lines' t'⟩,
      ⟨V.le_refl, Nat.le_refl _, fun _ h => h⟩, hfits.mono (Nat.le_refl _) (Nat.le_refl _), trivial⟩
  · rw [outcome_notes] at hx
    cases hx

end Tracks

/-- The runs of a family come, from some depth on, to what a run has come to : the same failure, or
a value that is alike. -/
inductive SettlesLike (F : Forest) (n : NodeId) (y : Nat → RunM Value) (t' : Trail) :
    Except Fault Value → Prop
  | value {v w : Value} {t₁' : Trail} (W : World F n) : v.Alike W w → Settles y t' (.ok w) t₁' →
    SettlesLike F n y t' (.ok v)
  | failure {e : Failure} {t₁' : Trail} : Settles y t' (.error (.failed e)) t₁' →
    SettlesLike F n y t' (.error (.failed e))

theorem Tracks.settlesLike {x : RunM Value} {y : Nat → RunM Value} {t t' t₁ : Trail}
    {r : Except Fault Value} (h : Tracks W x y Value.Alike) (hfits : W.Fits t t')
    (hx : outcome x t = (r, t₁)) (hr : r ≠ .error .exhausted) : SettlesLike F n y t' r := by
  rcases r with (e | _) | v
  · obtain ⟨t₁', hy⟩ := h.failed W.le_refl hfits hx
    exact .failure hy
  · exact absurd rfl hr
  · obtain ⟨w, t₁', V, hy, -, -, hvw⟩ := h.ok W.le_refl hfits hx
    exact .value V hvw hy

end

/-! ## Native implementations -/

/-- Alike outcomes of native implementations from outside. -/
inductive Outcome.Alike (W : World F n) : Outcome → Outcome → Prop
  | value {v w : Value} : v.Alike W w → Outcome.Alike W (.value v) (.value w)
  | failure (e : Failure) : Outcome.Alike W (.failure e) (.failure e)
  | call {f g : Function} {vs ws : List Value} : f.Alike W g → List.Forall₂ (Value.Alike W) vs ws →
    Outcome.Alike W (.call f vs) (.call g ws)

/-- The code that a host knows is in the forest, and its native implementations are functions of the
values they are given, whatever the identities of objects in them. -/
structure Host.Respects (host : Host) (F : Forest) (n : NodeId) : Prop where
  filled {id : MapperId} {m : Mapper} : host.filled id = some m → F.fns m.expression
  native {W : World F n} {vs ws : List Value} (name : String) :
    List.Forall₂ (Value.Alike W) vs ws →
      Outcome.Alike W (host.native name vs).outcome (host.native name ws).outcome

theorem Host.bare_respects (depth : Nat) : (Host.bare depth).Respects F n where
  filled h := absurd h (Option.some_ne_none _).symm
  native _ _ := .value .null

/-- A family of callers does with alike functions on alike arguments what a caller does. -/
def Caller.Tracks (F : Forest) (n : NodeId) (call : Caller) (call' : Nat → Caller) : Prop :=
  ∀ {W : World F n} {f g : Function} {vs ws : List Value}, f.Alike W g →
    List.Forall₂ (Value.Alike W) vs ws →
      ObjectMapping.Tracks W (call f vs) (fun d => call' d g ws) Value.Alike

section

variable {host : Host} {call : Caller} {call' : Nat → Caller} {W : World F n} {vs ws : List Value}

namespace Native

theorem givenSequence_alike (context : String) {o o' : Option Value}
    (h : Option.Rel (Value.Alike W) o o') :
    Agree (fun p q : SequenceKind × List Value => p.1 = q.1 ∧ List.Forall₂ (Value.Alike W) p.2 q.2)
      (givenSequence context o) (givenSequence context o') := by
  cases h with
  | none => exact .error _
  | some h =>
    cases h with
    | sequence h => exact .ok ⟨rfl, h⟩
    | _ => exact .error _

theorem givenFunction_alike (context : String) {o o' : Option Value}
    (h : Option.Rel (Value.Alike W) o o') :
    Agree (Function.Alike W) (givenFunction context o) (givenFunction context o') := by
  cases h with
  | none => exact .error _
  | some h =>
    cases h with
    | function hf henv => exact .ok (.function hf henv)
    | _ => exact .error _

/-- Both runs are given the same mapper. -/
theorem givenMapper_alike (hhost : host.Respects F n) (context : String) {o o' : Option Value}
    (h : Option.Rel (Value.Alike W) o o') :
    Agree (fun m m' => m' = m ∧ F.fns m.expression) (givenMapper host context o)
      (givenMapper host context o') := by
  cases h with
  | none => exact .error _
  | some h =>
    cases h with
    | mapper hm => exact .ok ⟨rfl, hm⟩
    | mapperReference ref =>
      simp only [givenMapper]
      split
      · rename_i m hm
        exact .ok ⟨rfl, hhost.filled hm⟩
      · exact .error _
    | _ => exact .error _

end Native

section

variable {γ δ : Type} {S : World F n → γ → δ → Prop} {o o' : Option Value}

/-- Both runs are given alike sequences, of the same kind, and go on with their items. -/
theorem Tracks.bind_givenSequence {f : SequenceKind × List Value → RunM γ}
    {g : Nat → SequenceKind × List Value → RunM δ} (context : String)
    (h : ∀ {V : World F n}, W ≤ V → Option.Rel (Value.Alike V) o o')
    (hf : ∀ {V kind items items'}, W ≤ V → List.Forall₂ (Value.Alike V) items items' →
      Tracks V (f (kind, items)) (fun d => g d (kind, items')) S) :
    Tracks W (RunM.ofExcept (Native.givenSequence context o) >>= f)
      (fun d => RunM.ofExcept (Native.givenSequence context o') >>= g d) S := by
  refine .bind (.ofExcept fun hV => Native.givenSequence_alike context (h hV))
    fun {V a b} hV hab => ?_
  obtain ⟨kind, items⟩ := a
  obtain ⟨kind', items'⟩ := b
  obtain ⟨rfl, hitems⟩ := hab
  exact hf hV hitems

/-- Both runs are given the same mapper and go on with it. -/
theorem Tracks.bind_givenMapper (hhost : host.Respects F n) {f : Mapper → RunM γ}
    {g : Nat → Mapper → RunM δ} (context : String)
    (h : ∀ {V : World F n}, W ≤ V → Option.Rel (Value.Alike V) o o')
    (hf : ∀ {V m}, W ≤ V → F.fns m.expression → Tracks V (f m) (fun d => g d m) S) :
    Tracks W (RunM.ofExcept (Native.givenMapper host context o) >>= f)
      (fun d => RunM.ofExcept (Native.givenMapper host context o') >>= g d) S := by
  refine .bind (.ofExcept fun hV => Native.givenMapper_alike hhost context (h hV))
    fun {V m m'} hV hm => ?_
  obtain ⟨rfl, hm⟩ := hm
  exact hf hV hm

end

theorem Mapper.mapBy_tracks (hcall : Caller.Tracks F n call call') {m : Mapper}
    (hm : F.fns m.expression) {v w : Value} (h : v.Alike W w) :
    Tracks W (m.mapBy call v) (fun d => m.mapBy (call' d) w) Value.Alike := by
  simp only [mapBy, h.equal_eq (Value.alike_defaultOf m.input)]
  split
  · exact Tracks.pure fun _ => Value.alike_defaultOf m.output
  · exact hcall (.function hm .nil) (.cons h .nil)

theorem Native.run_tracks (hhost : host.Respects F n) (hcall : Caller.Tracks F n call call')
    (native : Native) (h : List.Forall₂ (Value.Alike W) vs ws) :
    Tracks W (native.run host call vs) (fun d => native.run host (call' d) ws) Value.Alike := by
  have hargs : ∀ {V : World F n}, W ≤ V → ∀ i, Option.Rel (Value.Alike V) vs[i]? ws[i]? :=
    fun hV i => getElem?_rel_of_forall₂ (h.imp fun _ _ h => h.mono hV) i
  have hhead : ∀ {V : World F n}, W ≤ V → Option.Rel (Value.Alike V) vs.head? ws.head? :=
    fun hV => by simpa only [List.head?_eq_getElem?] using hargs hV 0
  have hitem {o o' : Option Value} (h : ∀ {V : World F n}, W ≤ V → Option.Rel (Value.Alike V) o o')
      {V : World F n} (hV : W ≤ V) : (o.getD .null).Alike V (o'.getD .null) := by
    have hrel := h hV
    clear h
    cases hrel with
    | none => exact .null
    | some h => exact h
  cases native with
  | select kind =>
    refine .bind_givenSequence _ hhead fun {V _ _ _} hV hitems => ?_
    refine .bind (.ofExcept fun hV' => givenFunction_alike _ (hargs (World.le_trans hV hV') 1))
      fun {V' f g} hV' hfg => ?_
    refine .bind (.mapM (fun hV'' hv => hcall (hfg.mono hV'') (.cons hv .nil))
      (hitems.imp fun _ _ h => h.mono hV')) fun _ hall => ?_
    exact .pure fun hV'' => .sequence (hall.imp fun _ _ h => h.mono hV'')
  | convert kind =>
    refine .bind_givenSequence _ hhead fun _ hitems => ?_
    exact .pure fun hV' => .sequence (hitems.imp fun _ _ h => h.mono hV')
  | toUpper =>
    have hrel := hhead W.le_refl
    simp only [run]
    generalize vs.head? = o, ws.head? = o' at hrel
    cases hrel with
    | none => exact .fail _
    | some h =>
      cases h with
      | string s => exact .pure fun _ => .string _
      | _ => exact .fail _
  | mapWith =>
    refine .bind_givenMapper hhost _ (fun hV => hargs hV 1) fun hV hm => ?_
    exact Mapper.mapBy_tracks hcall hm (hitem hhead hV)
  | mapAllWith =>
    refine .bind_givenMapper hhost _ (fun hV => hargs hV 1) fun {V _} hV hm => ?_
    refine .bind_givenSequence _ (fun hV' => hhead (World.le_trans hV hV')) fun _ hitems => ?_
    refine .bind (.mapM (fun _ hv => Mapper.mapBy_tracks hcall hm hv) hitems) fun _ hall => ?_
    exact .pure fun hV'' => .sequence (hall.imp fun _ _ h => h.mono hV'')
  | map =>
    refine .bind_givenMapper hhost _ hhead fun hV hm => ?_
    exact Mapper.mapBy_tracks hcall hm (hitem (fun hV => hargs hV 1) hV)
  | custom name =>
    refine .bind (.notes _ _) fun {V _ _} hV _ => ?_
    have hreply := hhost.native name (h.imp fun _ _ h => h.mono hV)
    generalize (host.native name vs).outcome = o, (host.native name ws).outcome = o' at hreply
    cases hreply with
    | value hv => exact .pure fun hV' => hv.mono hV'
    | failure e => exact .fail e
    | call hfg hvs => exact hcall hfg hvs

theorem Operation.invokeBy_tracks (hhost : host.Respects F n)
    (hcall : Caller.Tracks F n call call') (operation : Operation)
    (h : List.Forall₂ (Value.Alike W) vs ws) :
    Tracks W (operation.invokeBy host call vs) (fun d => operation.invokeBy host (call' d) ws)
      Value.Alike := by
  unfold invokeBy
  split
  · exact Native.run_tracks hhost hcall _ h
  · exact Tracks.fail _

end

/-! ## Expressions -/

/-- Evaluations of two expressions at related places track each other. -/
def Expr.EvalTracks (host : Host) (call : Caller) (call' : Nat → Caller) (S : Site → Site → Prop)
    (W : World F n) (env env' : Env) (e e' : Expr) : Prop :=
  ∀ ⦃s s' : Site⦄, S s s' →
    Tracks W (e.evalIn host call env s) (fun d => e'.evalIn host (call' d) env' s') Value.Alike

/-- The constants of the code hold objects made before and code of the forest alone. -/
def Forest.Known (F : Forest) (n : NodeId) : Prop :=
  ∀ {id : NodeId} {ty : Ty} {v : Value}, F.nodes (.constant id ty v) → v.Known F n

theorem Value.Known.alike {v : Value} (h : v.Known F n) (W : World F n) : v.Alike W v :=
  h.mono (World.start_le W)

section

variable {host : Host} {call : Caller} {call' : Nat → Caller} {S : Site → Site → Prop}
  {W : World F n} {env env' : Env} {s s' : Site}
  (hS : ∀ {s s' : Site} (i : Nat), S s s' → S (s.child i) (s'.child i))

include hS

theorem Expr.evalList_tracks {es es' : List Expr}
    (h : List.Forall₂ (EvalTracks host call call' S W env env') es es') (hs : S s s') :
    Tracks W (evalList host call env s es) (fun d => evalList host (call' d) env' s' es')
      fun V => List.Forall₂ (Value.Alike V) := by
  induction h generalizing s s' with
  | nil => exact .pure fun _ => .nil
  | cons he _ ih =>
    refine .bind (he (hS 0 hs)) fun hV hv => ?_
    refine .bind ((ih (hS 1 hs)).mono hV) fun hV' hvs => ?_
    exact .pure fun hV'' => .cons (hv.mono (World.le_trans hV' hV''))
      (hvs.imp fun _ _ h => h.mono hV'')

theorem Expr.evalOption_tracks {o o' : Option Expr}
    (h : List.Forall₂ (EvalTracks host call call' S W env env') o.toList o'.toList) (hs : S s s') :
    Tracks W (evalOption host call env s o) (fun d => evalOption host (call' d) env' s' o')
      fun V => List.Forall₂ (Value.Alike V) := by
  cases o <;> cases o' <;> cases h
  · exact .pure fun _ => .nil
  · rename_i he _
    refine .bind (he hs) fun _ hv => .pure fun hV' => .cons (hv.mono hV') .nil

theorem Assignment.evalList_tracks {as as' : List Assignment}
    (hmembers : as'.map (·.member) = as.map (·.member))
    (h : List.Forall₂ (Expr.EvalTracks host call call' S W env env') (as.map (·.value))
      (as'.map (·.value)))
    {fs gs : List Field} (hfs : List.Forall₂ (Field.Alike W) fs gs) (hs : S s s') :
    Tracks W (evalList host call env s fs as) (fun d => evalList host (call' d) env' s' gs as')
      fun V => List.Forall₂ (Field.Alike V) := by
  induction as generalizing as' W s s' fs gs with
  | nil =>
    obtain rfl : as' = [] := by simpa using hmembers
    exact .pure fun hV => hfs.imp fun _ _ h => h.mono hV
  | cons a as ih =>
    obtain ⟨m, e⟩ := a
    rcases as' with _ | ⟨⟨m', e'⟩, as'⟩
    · simp at hmembers
    · obtain ⟨rfl, hrest⟩ : m' = m ∧ as'.map (·.member) = as.map (·.member) := by
        simpa using hmembers
      cases h with
      | cons he h =>
        refine .bind (he (hS 0 hs)) fun hV hv => ?_
        refine ih hrest (h.imp fun _ _ h _ _ hs => (h hs).mono hV) ?_ (hS 1 hs)
        exact Field.Alike.set (hfs.imp fun _ _ h => h.mono hV) _ hv

/-- A node that is made anew over other parts is tracked if its parts are, whatever kind of node it
is. Parameters and lambdas apart, which look at the bindings in scope. -/
theorem Expr.Rebuilt.tracks {J : Judgement} {e e' : Expr} (hhost : host.Respects F n)
    (hcall : Caller.Tracks F n call call') (h : e.Rebuilt J e') (hparam : e.param? = none)
    (hfn : e.fn? = none) (hknown : ∀ {id ty v}, e = .constant id ty v → v.Known F n)
    (hparts : ∀ c ∈ e.parts, ∀ c', c.Becomes J c' → c.EvalTracks host call call' S W env env' c') :
    e.EvalTracks host call call' S W env env' e' := by
  intro s s' hs
  have list {cs cs' : List Expr} (hcs : ∀ c ∈ cs, c ∈ e.parts)
      (h : List.Forall₂ (Expr.Becomes J) cs cs') :
      List.Forall₂ (EvalTracks host call call' S W env env') cs cs' :=
    forall₂_imp_of_mem h fun c hc c' h => hparts c (hcs c hc) c' h
  cases h with
  | param | lambda | quote => simp [param?, fn?] at hparam hfn
  | constant id ty v => exact .pure fun {V} _ => (hknown rfl).alike V
  | default id ty => exact .pure fun _ => Value.alike_defaultOf ty
  | member ho =>
    refine .bind (hparts _ (by simp [parts]) _ ho (hS 0 hs)) fun _ hv => ?_
    exact .ofExcept fun hV' => (hv.mono hV').field _
  | unary ha =>
    refine .bind (hparts _ (by simp [parts]) _ ha (hS 0 hs)) fun _ hv => ?_
    exact .ofExcept fun hV' => UnaryOp.apply_alike _ (hv.mono hV')
  | @binary _ _ _ op _ _ _ _ ha hb =>
    have hb := hparts _ (by simp [parts]) _ hb (hS 1 hs)
    refine .bind (hparts _ (by simp [parts]) _ ha (hS 0 hs)) fun {V v w} hV hv => ?_
    cases op with
    | and =>
      refine .bind (.truth hv _) fun hV' hab => ?_
      subst hab
      split
      · exact hb.mono (World.le_trans hV hV')
      · exact .pure fun _ => .bool _
    | or =>
      refine .bind (.truth hv _) fun hV' hab => ?_
      subst hab
      split
      · exact .pure fun _ => .bool _
      · exact hb.mono (World.le_trans hV hV')
    | _ =>
      refine .bind (hb.mono hV) fun hV' hw => ?_
      exact .ofExcept fun hV'' =>
        BinaryOp.apply_alike _ (hv.mono (World.le_trans hV' hV'')) (hw.mono hV'')
  | conditional ha hb hc =>
    have hb := hparts _ (by simp [parts]) _ hb (hS 1 hs)
    have hc := hparts _ (by simp [parts]) _ hc (hS 2 hs)
    refine .bind (hparts _ (by simp [parts]) _ ha (hS 0 hs)) fun {V v w} hV hv => ?_
    refine .bind (.truth hv _) fun hV' hab => ?_
    subst hab
    split
    · exact hb.mono (World.le_trans hV hV')
    · exact hc.mono (World.le_trans hV hV')
  | call hr ha =>
    refine .bind (evalOption_tracks hS (list (by simp +contextual [parts]) hr) (hS 0 hs))
      fun hV hvs => ?_
    refine .bind ((evalList_tracks hS (list (by simp +contextual [parts]) ha) (hS 1 hs)).mono hV)
      fun hV' hws => ?_
    refine Operation.invokeBy_tracks hhost hcall _ (List.rel_append ?_ hws)
    exact hvs.imp fun _ _ h => h.mono hV'
  | construct hma hmb ha hb =>
    have hbs := list (by simp +contextual [parts]) hb
    refine .bind (Assignment.evalList_tracks hS hma (list (by simp +contextual [parts]) ha) .nil
      (hS 0 hs)) fun hV hfs => ?_
    refine .bind (Assignment.evalList_tracks hS hmb (hbs.imp fun _ _ h _ _ hs => (h hs).mono hV) hfs
      (hS 1 hs)) fun hV' hfs' => ?_
    exact .object _ hfs'
  | previous => exact .fail _

end

section

variable {host : Host} {call : Caller} {call' : Nat → Caller} {W : World F n} {env env' : Env}

theorem Expr.evalIn_param_tracks {x : Param} (h : Option.Rel (Value.Alike W) (env.lookup x.id)
    (env'.lookup x.id)) (site site' : Site) :
    Tracks W ((Expr.param x).evalIn host call env site)
      (fun d => (Expr.param x).evalIn host (call' d) env' site') Value.Alike := by
  simp only [evalIn]
  generalize env.lookup x.id = o, env'.lookup x.id = o' at h
  cases h with
  | none => exact .fail _
  | some h => exact .pure fun hV => h.mono hV

/-- The evaluations of one expression in alike environments track each other. -/
theorem Expr.evalIn_tracks (hhost : host.Respects F n) (hF : F.Known n)
    (hcall : Caller.Tracks F n call call') {e : Expr} (he : F.nodes e) (henv : env.Alike W env') :
    e.EvalTracks host call call' Eq W env env' e := by
  induction e using Expr.byPart with
  | h e ih =>
    intro s s' hs
    subst hs
    cases hfn : e.fn? with
    | some f =>
      obtain ⟨quoted, hvalue⟩ := evalIn_of_fn? hfn
      simp only [hvalue]
      exact .pure fun hV => .function (F.fn he hfn) (henv.mono hV)
    | none =>
      cases hparam : e.param? with
      | some x =>
        obtain rfl := Expr.eq_of_param? hparam
        exact evalIn_param_tracks (henv.lookup x.id) s s
      | none =>
        refine (rebuilt_keeping _).tracks (fun _ h => h ▸ rfl) hhost hcall hparam hfn ?_ ?_ rfl
        · rintro id ty v rfl
          exact hF he
        · intro c hc c' hbecomes
          obtain rfl := becomes_keeping.1 hbecomes
          exact ih c' hc (F.part he hc)

/-- Running the code of a function is tracked by running that of an alike function, with callers
that track the callers of the first one. -/
theorem Function.run_tracks (hhost : host.Respects F n) (hF : F.Known n)
    (hcall : Caller.Tracks F n call call') {f g : Function} {vs ws : List Value}
    (hfg : f.Alike W g) (hvs : List.Forall₂ (Value.Alike W) vs ws) :
    Tracks W (f.run host call vs) (fun d => g.run host (call' d) ws) Value.Alike := by
  cases hfg with | @function f env env' site quoted hf henv =>
  simp only [run, hvs.length_eq]
  split
  · exact .fail _
  · refine Expr.evalIn_tracks hhost hF hcall (F.body hf) ?_ rfl
    exact .cons (Binding.ofArgs_alike _ hvs) henv

/-- The calls of alike functions on alike arguments track each other. -/
theorem Function.callWithin_tracks (hhost : host.Respects F n) (hF : F.Known n) (k : Nat) :
    Caller.Tracks F n (callWithin host k) (callWithin host) := by
  induction k with
  | zero => exact fun _ _ => .exhausted
  | succ k ih => exact fun hfg hvs => (run_tracks hhost hF ih hfg hvs).succ fun _ => rfl

/-- The calls of alike functions on alike arguments come to alike results at one and the same
depth. -/
theorem Function.callWithin_tracks_within (hhost : host.Respects F n) (hF : F.Known n) (k : Nat) :
    Caller.Tracks F n (callWithin host k) fun _ => callWithin host k := by
  induction k with
  | zero => exact fun _ _ => .exhausted
  | succ k ih => exact fun hfg hvs => run_tracks hhost hF ih hfg hvs

end

end ObjectMapping
