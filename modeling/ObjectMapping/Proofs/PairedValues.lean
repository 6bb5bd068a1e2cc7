import ObjectMapping.Proofs.Pairing
import ObjectMapping.Proofs.Scoping

/-!
# Evaluations side by side

An expression that is evaluated in two runs makes objects of different identities, and functions
that come from preparations with different stamps. `Value.Paired` relates values that are equal up
to a pairing of these, and `Expr.evalIn_inStep` says that two evaluations of one expression go in
step, from whatever trails they start.

The code is that of a forest, whose constants were made before both runs (`Forest.Early`), and the
native implementations that come from outside must not look at identities (`Host.Oblivious`).
-/

namespace ObjectMapping

open RunM

/-! ## Paired values -/

/-- Stamps of paired evaluations, or of one mapper. -/
inductive Stamp.Paired (ρ : Pairing) : Stamp → Stamp → Prop
  | run {i j : NodeId} : ρ.rel i j → Stamp.Paired ρ (.run i) (.run j)
  | mapper (id : MapperId) : Stamp.Paired ρ (.mapper id) (.mapper id)

/-- The same place in paired preparations of code. -/
structure Site.Paired (ρ : Pairing) (s s' : Site) : Prop where
  stamp : s.stamp.Paired ρ s'.stamp
  path : s.path = s'.path

/-- Values that are equal but for the identities of objects and of preparations, which are paired.
The code that they hold is that of the forest. -/
inductive Value.Paired (F : Forest) (ρ : Pairing) : Value → Value → Prop
  | null : Value.Paired F ρ .null .null
  | bool (b : Bool) : Value.Paired F ρ (.bool b) (.bool b)
  | int (i : Int64) : Value.Paired F ρ (.int i) (.int i)
  | float (x : Float) : Value.Paired F ρ (.float x) (.float x)
  | string (s : String) : Value.Paired F ρ (.string s) (.string s)
  | object {i j : NodeId} {ty : String} {fs gs : List Field} : ρ.rel i j →
    List.Forall₂ (Field.Like (Value.Paired F ρ)) fs gs →
    Value.Paired F ρ (.object i ty fs) (.object j ty gs)
  | sequence {kind : SequenceKind} {vs ws : List Value} :
    List.Forall₂ (Value.Paired F ρ) vs ws →
    Value.Paired F ρ (.sequence kind vs) (.sequence kind ws)
  | function {f : Lambda} {env env' : Env} {s s' : Site} {quoted : Bool} : F.fns f →
    List.Forall₂ (List.Forall₂ (Binding.Like (Value.Paired F ρ))) env env' → s.Paired ρ s' →
    Value.Paired F ρ (.function ⟨f, env, s, quoted⟩) (.function ⟨f, env', s', quoted⟩)
  | expression {f : Lambda} : F.fns f → Value.Paired F ρ (.expression f) (.expression f)
  | mapper {m : Mapper} : F.fns m.expression → Value.Paired F ρ (.mapper m) (.mapper m)
  | mapperReference (ref : MapperReference) :
    Value.Paired F ρ (.mapperReference ref) (.mapperReference ref)

/-- Functions that run the same code, from paired preparations, on paired values. -/
def Function.Paired (F : Forest) (ρ : Pairing) (f g : Function) : Prop :=
  Value.Paired F ρ (.function f) (.function g)

/-- The constants of the code hold objects and functions made before `n`, and code of the forest
alone. -/
def Forest.Early (F : Forest) (n : NodeId) : Prop :=
  ∀ {id : NodeId} {ty : Ty} {v : Value}, F.nodes (.constant id ty v) → v.Paired F (.below n) v

section

variable {F : Forest} {ρ τ : Pairing}

theorem Stamp.Paired.mono (h : ρ ≤ τ) {a b : Stamp} (hab : a.Paired ρ b) : a.Paired τ b := by
  cases hab with
  | run hij => exact .run (h _ _ hij)
  | mapper => exact .mapper _

/-- Stamps are the same on the one side exactly if they are on the other. -/
theorem Stamp.Paired.eq_iff {a a' b b' : Stamp} (ha : a.Paired ρ a') (hb : b.Paired ρ b') :
    a = b ↔ a' = b' := by
  cases ha <;> cases hb
  · rw [run.injEq, run.injEq]
    exact ρ.eq_iff ‹_› ‹_›
  all_goals simp

theorem Site.Paired.mono (h : ρ ≤ τ) {s s' : Site} (hs : s.Paired ρ s') : s.Paired τ s' :=
  ⟨hs.stamp.mono h, hs.path⟩

theorem Site.Paired.child {s s' : Site} (hs : s.Paired ρ s') (i : Nat) :
    (s.child i).Paired ρ (s'.child i) :=
  ⟨hs.stamp, congrArg (i :: ·) hs.path⟩

/-- Places are the same on the one side exactly if they are on the other. -/
theorem Site.Paired.beq_eq {s s' r r' : Site} (hs : s.Paired ρ s') (hr : r.Paired ρ r') :
    (s == r) = (s' == r') := by
  have eq_iff (s r : Site) : s = r ↔ s.stamp = r.stamp ∧ s.path = r.path := by
    cases s
    cases r
    exact Site.mk.injEq .. ▸ Iff.rfl
  rw [Bool.eq_iff_iff, beq_iff_eq, beq_iff_eq, eq_iff, eq_iff, hs.stamp.eq_iff hr.stamp, hs.path,
    hr.path]

/-- Values that are paired stay paired. -/
theorem Value.Paired.mono (hρτ : ρ ≤ τ) {v w : Value} (h : v.Paired F ρ w) : v.Paired F τ w := by
  induction v using Value.byParts generalizing w with
  | object i ty fs ih =>
    cases h with | object hid hfields =>
    refine .object (hρτ _ _ hid) (forall₂_imp_of_mem hfields fun f hf g hfg => ?_)
    cases hfg with | mk h => exact .mk (ih _ hf h)
  | sequence kind vs ih =>
    cases h with | sequence h => exact .sequence (forall₂_imp_of_mem h fun v hv w h => ih v hv h)
  | function f ih =>
    cases h with | function hf henv hsite =>
    refine .function hf (forall₂_imp_of_mem henv fun frame hframe frame' h => ?_) (hsite.mono hρτ)
    refine forall₂_imp_of_mem h fun b hb b' h => ?_
    cases h with | mk h => exact .mk (ih _ hframe _ hb h)
  | expression f => cases h with | expression h => exact .expression h
  | mapper m => cases h with | mapper h => exact .mapper h
  | _ =>
    cases h
    constructor

theorem Value.Paired.mono_list (hρτ : ρ ≤ τ) {vs ws : List Value}
    (h : List.Forall₂ (Value.Paired F ρ) vs ws) : List.Forall₂ (Value.Paired F τ) vs ws :=
  h.imp fun _ _ => mono hρτ

theorem Field.Like.mono (hρτ : ρ ≤ τ) {fs gs : List Field}
    (h : List.Forall₂ (Field.Like (Value.Paired F ρ)) fs gs) :
    List.Forall₂ (Field.Like (Value.Paired F τ)) fs gs := by
  refine h.imp fun _ _ h => ?_
  cases h with | mk h => exact .mk (h.mono hρτ)

theorem Env.Like.mono (hρτ : ρ ≤ τ) {env env' : Env} (h : env.Like (Value.Paired F ρ) env') :
    env.Like (Value.Paired F τ) env' := by
  refine h.imp fun _ _ h => h.imp fun _ _ h => ?_
  cases h with | mk h => exact .mk (h.mono hρτ)

theorem Value.Paired.like {v w : Value} (h : v.Paired F ρ w) : v.Like (Value.Paired F ρ) w := by
  cases h with
  | object _ hfs => exact .object _ _ hfs
  | sequence h => exact .sequence h
  | function => exact .function rfl
  | _ => constructor

/-- A value without parts is paired with itself. -/
theorem Value.Paired.of_isPlain {v : Value} (h : v.isPlain = true) : v.Paired F ρ v := by
  cases v <;> cases h <;> constructor

/-- Paired values compare alike. -/
theorem Value.Paired.equal_eq {a a' b b' : Value} (ha : a.Paired F ρ a') (hb : b.Paired F ρ b') :
    a.equal b = a'.equal b' := by
  induction a using Value.byParts generalizing a' b b' with
  | object i ty fs ih =>
    cases ha with | object hid hfs =>
    cases hb with
    | object hid' hgs =>
      simp only [equal, ρ.beq_eq hid hid', Field.Like.allIn_eq ih hfs hgs,
        Field.Like.covers_eq hfs hgs, Field.Like.covers_eq hgs hfs]
    | _ => rfl
  | sequence kind vs ih =>
    cases ha with | sequence hvs =>
    cases hb with
    | sequence hws =>
      simp only [equal, Value.Like.equalList_eq ih hvs hws, hvs.length_eq, hws.length_eq]
    | _ => rfl
  | function f ih =>
    cases ha with | function _ _ hsite =>
    cases hb with
    | function _ _ hsite' => simp only [equal, hsite.beq_eq hsite']
    | _ => rfl
  | _ =>
    cases ha
    cases hb <;> rfl

theorem UnaryOp.apply_paired {v w : Value} (op : UnaryOp) (h : v.Paired F ρ w) :
    Agree (Value.Paired F ρ) (op.apply v) (op.apply w) :=
  .of_eq (Value.Like.unary_eq Value.Paired.like op h).symm
    fun _ hc => .of_isPlain (isPlain_apply hc)

theorem BinaryOp.apply_paired {a a' b b' : Value} (op : BinaryOp) (ha : a.Paired F ρ a')
    (hb : b.Paired F ρ b') : Agree (Value.Paired F ρ) (op.apply a b) (op.apply a' b') :=
  .of_eq (Value.Like.binary_eq Value.Paired.like op ha hb (ha.equal_eq hb)).symm
    fun _ hc => .of_isPlain (isPlain_apply hc)

end

/-! ## Native implementations -/

/-- Paired outcomes of native implementations from outside. -/
inductive Outcome.Paired (F : Forest) (ρ : Pairing) : Outcome → Outcome → Prop
  | value {v w : Value} : v.Paired F ρ w → Outcome.Paired F ρ (.value v) (.value w)
  | failure (e : Failure) : Outcome.Paired F ρ (.failure e) (.failure e)
  | call {f g : Function} {vs ws : List Value} : f.Paired F ρ g →
    List.Forall₂ (Value.Paired F ρ) vs ws → Outcome.Paired F ρ (.call f vs) (.call g ws)

/-- The code that a host knows is in the forest, and its native implementations write and do the
same whatever the identities in the values that they are given. -/
structure Host.Oblivious (host : Host) (F : Forest) (n : NodeId) : Prop where
  filled {id : MapperId} {m : Mapper} : host.filled id = some m → F.fns m.expression
  native {ρ : Pairing} {vs ws : List Value} (name : String) : .below n ≤ ρ →
    List.Forall₂ (Value.Paired F ρ) vs ws →
      (host.native name vs).lines = (host.native name ws).lines ∧
        Outcome.Paired F ρ (host.native name vs).outcome (host.native name ws).outcome

theorem Host.bare_oblivious {F : Forest} {n : NodeId} (depth : Nat) :
    (Host.bare depth).Oblivious F n where
  filled h := absurd h (Option.some_ne_none _).symm
  native _ _ _ := ⟨rfl, .value .null⟩

/-- Calls of paired functions on paired values go in step. -/
def Caller.InStep (F : Forest) (n : NodeId) (log log' : List String) (call : Caller) : Prop :=
  ∀ {ρ : Pairing} {f g : Function} {vs ws : List Value}, .below n ≤ ρ → f.Paired F ρ g →
    List.Forall₂ (Value.Paired F ρ) vs ws →
      ObjectMapping.InStep (Abreast log log') ρ (call f vs) (call g ws) (Value.Paired F)

section

variable {F : Forest} {n : NodeId} {log log' : List String} {host : Host} {call : Caller}
  {ρ : Pairing} {vs ws : List Value}

namespace Native

theorem givenSequence_paired (context : String) {o o' : Option Value}
    (h : Option.Rel (Value.Paired F ρ) o o') :
    Agree (fun p q : SequenceKind × List Value =>
      p.1 = q.1 ∧ List.Forall₂ (Value.Paired F ρ) p.2 q.2)
      (givenSequence context o) (givenSequence context o') := by
  cases h with
  | none => exact .error _
  | some h =>
    cases h with
    | sequence h => exact .ok ⟨rfl, h⟩
    | _ => exact .error _

theorem givenFunction_paired (context : String) {o o' : Option Value}
    (h : Option.Rel (Value.Paired F ρ) o o') :
    Agree (Function.Paired F ρ) (givenFunction context o) (givenFunction context o') := by
  cases h with
  | none => exact .error _
  | some h =>
    cases h with
    | function hf henv hsite => exact .ok (.function hf henv hsite)
    | _ => exact .error _

/-- Both runs are given the same mapper. -/
theorem givenMapper_paired (hhost : host.Oblivious F n) (context : String) {o o' : Option Value}
    (h : Option.Rel (Value.Paired F ρ) o o') :
    Agree (fun m m' => m = m' ∧ F.fns m.expression) (givenMapper host context o)
      (givenMapper host context o') := by
  cases h with
  | none => exact .error _
  | some h =>
    cases h with
    | mapper hm => exact .ok ⟨rfl, hm⟩
    | mapperReference ref =>
      simp only [givenMapper]
      split
      · rename_i m hm
        exact .ok ⟨rfl, hhost.filled hm⟩
      · exact .error _
    | _ => exact .error _

end Native

section

variable {γ δ : Type} {Q : Pairing → γ → δ → Prop} {o o' : Option Value}

/-- Both runs are given paired sequences, of the same kind, and go on with their items. -/
theorem InStep.bind_givenSequence {f : SequenceKind × List Value → RunM γ}
    {g : SequenceKind × List Value → RunM δ} (context : String)
    (h : ∀ {τ}, ρ ≤ τ → Option.Rel (Value.Paired F τ) o o')
    (hf : ∀ {τ kind items items'}, ρ ≤ τ → List.Forall₂ (Value.Paired F τ) items items' →
      InStep (Abreast log log') τ (f (kind, items)) (g (kind, items')) Q) :
    InStep (Abreast log log') ρ (RunM.ofExcept (Native.givenSequence context o) >>= f)
      (RunM.ofExcept (Native.givenSequence context o') >>= g) Q := by
  refine .bind (inStep_ofExcept fun hτ => Native.givenSequence_paired context (h hτ))
    fun {τ a b} hτ hab => ?_
  obtain ⟨kind, items⟩ := a
  obtain ⟨kind', items'⟩ := b
  obtain ⟨rfl, hitems⟩ := hab
  exact hf hτ hitems

/-- Both runs are given the same mapper and go on with it. -/
theorem InStep.bind_givenMapper (hhost : host.Oblivious F n) {f : Mapper → RunM γ}
    {g : Mapper → RunM δ} (context : String)
    (h : ∀ {τ}, ρ ≤ τ → Option.Rel (Value.Paired F τ) o o')
    (hf : ∀ {τ m}, ρ ≤ τ → F.fns m.expression → InStep (Abreast log log') τ (f m) (g m) Q) :
    InStep (Abreast log log') ρ (RunM.ofExcept (Native.givenMapper host context o) >>= f)
      (RunM.ofExcept (Native.givenMapper host context o') >>= g) Q := by
  refine .bind (inStep_ofExcept fun hτ => Native.givenMapper_paired hhost context (h hτ))
    fun {τ m m'} hτ hm => ?_
  obtain ⟨rfl, hm⟩ := hm
  exact hf hτ hm

end

/-- Runs over paired values, one after the other. -/
theorem InStep.mapM_paired {f g : Value → RunM Value}
    (hfg : ∀ {v w}, v.Paired F ρ w → InStep (Abreast log log') ρ (f v) (g w) (Value.Paired F))
    (h : List.Forall₂ (Value.Paired F ρ) vs ws) :
    InStep (Abreast log log') ρ (vs.mapM f) (ws.mapM g) fun τ => List.Forall₂ (Value.Paired F τ) :=
  .mapM (fun hτ h => h.mono hτ) (fun _ _ h => hfg h) h

theorem Mapper.mapBy_inStep (hcall : call.InStep F n log log') (hρ : .below n ≤ ρ) {m : Mapper}
    (hm : F.fns m.expression) {v w : Value} (h : v.Paired F ρ w) :
    InStep (Abreast log log') ρ (m.mapBy call v) (m.mapBy call w) (Value.Paired F) := by
  have hdefault (ty : Ty) : (Value.defaultOf ty).Paired F ρ (.defaultOf ty) :=
    .of_isPlain (Value.isPlain_defaultOf ty)
  simp only [mapBy, h.equal_eq (hdefault m.input)]
  split
  · exact .pure fun hτ => (hdefault m.output).mono hτ
  · exact hcall hρ (.function hm .nil ⟨.mapper _, rfl⟩) (.cons h .nil)

theorem Native.run_inStep (hhost : host.Oblivious F n) (hcall : call.InStep F n log log')
    (hρ : .below n ≤ ρ) (native : Native) (h : List.Forall₂ (Value.Paired F ρ) vs ws) :
    InStep (Abreast log log') ρ (native.run host call vs) (native.run host call ws)
      (Value.Paired F) := by
  have hargs : ∀ {τ}, ρ ≤ τ → ∀ i, Option.Rel (Value.Paired F τ) vs[i]? ws[i]? :=
    fun hτ i => getElem?_rel_of_forall₂ (Value.Paired.mono_list hτ h) i
  have hhead : ∀ {τ}, ρ ≤ τ → Option.Rel (Value.Paired F τ) vs.head? ws.head? :=
    fun hτ => by simpa only [List.head?_eq_getElem?] using hargs hτ 0
  have hitem {o o' : Option Value} (h : ∀ {τ}, ρ ≤ τ → Option.Rel (Value.Paired F τ) o o')
      {τ : Pairing} (hτ : ρ ≤ τ) : (o.getD .null).Paired F τ (o'.getD .null) := by
    have hrel := h hτ
    clear h
    cases hrel with
    | none => exact .null
    | some h => exact h
  cases native with
  | select kind =>
    refine .bind_givenSequence _ hhead fun {τ _ _ _} hτ hitems => ?_
    refine .bind
      (inStep_ofExcept fun hυ => givenFunction_paired _ (hargs (Pairing.le_trans hτ hυ) 1))
      fun {υ f g} hυ hfg => ?_
    have hρυ := Pairing.le_trans hρ (Pairing.le_trans hτ hυ)
    refine .bind (.mapM_paired (fun hv => hcall hρυ hfg (.cons hv .nil))
      (Value.Paired.mono_list hυ hitems)) fun _ hall => ?_
    exact .pure fun hφ => .sequence (Value.Paired.mono_list hφ hall)
  | convert kind =>
    refine .bind_givenSequence _ hhead fun _ hitems => ?_
    exact .pure fun hυ => .sequence (Value.Paired.mono_list hυ hitems)
  | toUpper =>
    have hrel := hhead ρ.le_refl
    simp only [run]
    generalize vs.head? = o, ws.head? = o' at hrel
    cases hrel with
    | none => exact inStep_fail _
    | some h =>
      cases h with
      | string s => exact .pure fun _ => .string _
      | _ => exact inStep_fail _
  | mapWith =>
    refine .bind_givenMapper hhost _ (fun hτ => hargs hτ 1) fun hτ hm => ?_
    exact Mapper.mapBy_inStep hcall (Pairing.le_trans hρ hτ) hm (hitem hhead hτ)
  | mapAllWith =>
    refine .bind_givenMapper hhost _ (fun hτ => hargs hτ 1) fun {τ _} hτ hm => ?_
    refine .bind_givenSequence _ (fun hυ => hhead (Pairing.le_trans hτ hυ)) fun hυ hitems => ?_
    have hρυ := Pairing.le_trans hρ (Pairing.le_trans hτ hυ)
    refine .bind (.mapM_paired (fun hv => Mapper.mapBy_inStep hcall hρυ hm hv) hitems)
      fun _ hall => ?_
    exact .pure fun hφ => .sequence (Value.Paired.mono_list hφ hall)
  | map =>
    refine .bind_givenMapper hhost _ hhead fun hτ hm => ?_
    exact Mapper.mapBy_inStep hcall (Pairing.le_trans hρ hτ) hm (hitem (fun hτ => hargs hτ 1) hτ)
  | custom name =>
    obtain ⟨hlines, -⟩ := hhost.native name hρ h
    simp only [run, hlines]
    refine .bind (Abreast.notes _) fun {τ _ _} hτ _ => ?_
    obtain ⟨-, hreply⟩ :=
      hhost.native name (Pairing.le_trans hρ hτ) (Value.Paired.mono_list hτ h)
    generalize (host.native name vs).outcome = o, (host.native name ws).outcome = o' at hreply
    cases hreply with
    | value hv => exact .pure fun hυ => hv.mono hυ
    | failure e => exact inStep_fail e
    | call hfg hvs => exact hcall (Pairing.le_trans hρ hτ) hfg hvs

theorem Operation.invokeBy_inStep (hhost : host.Oblivious F n) (hcall : call.InStep F n log log')
    (hρ : .below n ≤ ρ) (operation : Operation) (h : List.Forall₂ (Value.Paired F ρ) vs ws) :
    InStep (Abreast log log') ρ (operation.invokeBy host call vs) (operation.invokeBy host call ws)
      (Value.Paired F) := by
  unfold invokeBy
  split
  · exact Native.run_inStep hhost hcall hρ _ h
  · exact inStep_fail _

/-! ## Expressions -/

/-- The evaluations of an expression, with the same parameters bound to paired values and at the
same place of paired preparations, go in step. -/
def Expr.InStep (F : Forest) (n : NodeId) (log log' : List String) (host : Host) (call : Caller)
    (e : Expr) : Prop :=
  ∀ {ρ : Pairing} {env env' : Env} {s s' : Site}, .below n ≤ ρ →
    env.Like (Value.Paired F ρ) env' → s.Paired ρ s' → ObjectMapping.InStep (Abreast log log') ρ
      (e.evalIn host call env s) (e.evalIn host call env' s') (Value.Paired F)

section

variable {env env' : Env} {s s' : Site}

theorem Expr.evalList_inStep {es : List Expr} (h : ∀ e ∈ es, e.InStep F n log log' host call)
    (hρ : .below n ≤ ρ) (henv : env.Like (Value.Paired F ρ) env') (hs : s.Paired ρ s') :
    ObjectMapping.InStep (Abreast log log') ρ (evalList host call env s es)
      (evalList host call env' s' es) fun τ => List.Forall₂ (Value.Paired F τ) := by
  induction es generalizing ρ s s' with
  | nil => exact .pure fun _ => .nil
  | cons e es ih =>
    refine .bind (h e (by simp) hρ henv (hs.child 0)) fun {τ _ _} hτ hv => ?_
    refine .bind (ih (fun d hd => h d (by simp [hd])) (Pairing.le_trans hρ hτ) (henv.mono hτ)
      ((hs.child 1).mono hτ)) fun hυ hvs => ?_
    exact .pure fun hφ =>
      .cons (hv.mono (Pairing.le_trans hυ hφ)) (Value.Paired.mono_list hφ hvs)

theorem Expr.evalOption_inStep {o : Option Expr} (h : ∀ e ∈ o, e.InStep F n log log' host call)
    (hρ : .below n ≤ ρ) (henv : env.Like (Value.Paired F ρ) env') (hs : s.Paired ρ s') :
    ObjectMapping.InStep (Abreast log log') ρ (evalOption host call env s o)
      (evalOption host call env' s' o) fun τ => List.Forall₂ (Value.Paired F τ) := by
  cases o with
  | none => exact .pure fun _ => .nil
  | some e => exact .bind (h e rfl hρ henv hs) fun _ hv => .pure fun hυ => .cons (hv.mono hυ) .nil

theorem Assignment.evalList_inStep {as : List Assignment}
    (h : ∀ a ∈ as, a.value.InStep F n log log' host call) (hρ : .below n ≤ ρ)
    (henv : env.Like (Value.Paired F ρ) env') (hs : s.Paired ρ s') {fs gs : List Field}
    (hfs : List.Forall₂ (Field.Like (Value.Paired F ρ)) fs gs) :
    ObjectMapping.InStep (Abreast log log') ρ (evalList host call env s fs as)
      (evalList host call env' s' gs as)
      fun τ => List.Forall₂ (Field.Like (Value.Paired F τ)) := by
  induction as generalizing ρ s s' fs gs with
  | nil => exact .pure fun hτ => Field.Like.mono hτ hfs
  | cons a as ih =>
    obtain ⟨m, e⟩ := a
    refine .bind (h ⟨m, e⟩ (by simp) hρ henv (hs.child 0)) fun {τ _ _} hτ hv => ?_
    exact ih (fun b hb => h b (by simp [hb])) (Pairing.le_trans hρ hτ) (henv.mono hτ)
      ((hs.child 1).mono hτ) (Field.Like.set (Field.Like.mono hτ hfs) _ hv)

/-- The truth value that is needed of paired values is the same. -/
theorem InStep.truth {v w : Value} (h : v.Paired F ρ w) (context : String) :
    InStep (Abreast log log') ρ (RunM.ofExcept (v.truth context))
      (RunM.ofExcept (w.truth context)) fun _ a b => a = b := by
  rw [Value.Like.truth_eq Value.Paired.like h]
  refine inStep_ofExcept fun _ => ?_
  cases w.truth context with
  | ok => exact .ok rfl
  | error => exact .error _

/-- The evaluations of an expression of the forest go in step. -/
theorem Expr.evalIn_inStep (hhost : host.Oblivious F n) (hF : F.Early n)
    (hcall : call.InStep F n log log') {e : Expr} (he : F.nodes e) :
    e.InStep F n log log' host call := by
  induction e using Expr.byParts with
  | param p =>
    intro ρ env env' s s' _ henv _
    have hlookup := henv.lookup p.id
    simp only [evalIn]
    generalize env.lookup p.id = o, env'.lookup p.id = o' at hlookup
    cases hlookup with
    | none => exact inStep_fail _
    | some h => exact .pure fun hτ => h.mono hτ
  | constant id ty v =>
    exact fun hρ _ _ => .pure fun hτ => (hF he).mono (Pairing.le_trans hρ hτ)
  | default id ty => exact fun _ _ _ => .pure fun _ => .of_isPlain (Value.isPlain_defaultOf ty)
  | member id o m ih =>
    intro ρ env env' s s' hρ henv hs
    refine .bind (ih (F.part he (by simp [parts])) hρ henv (hs.child 0)) fun _ hv => ?_
    exact inStep_ofExcept fun hυ => Value.Like.field Value.Paired.like (hv.mono hυ) _
  | unary id ty op a ih =>
    intro ρ env env' s s' hρ henv hs
    refine .bind (ih (F.part he (by simp [parts])) hρ henv (hs.child 0)) fun _ hv => ?_
    exact inStep_ofExcept fun hυ => UnaryOp.apply_paired op (hv.mono hυ)
  | binary id ty op a b iha ihb =>
    intro ρ env env' s s' hρ henv hs
    have hb {τ : Pairing} (hτ : ρ ≤ τ) := ihb (F.part he (by simp [parts]))
      (Pairing.le_trans hρ hτ) (henv.mono hτ) ((hs.child 1).mono hτ)
    refine .bind (iha (F.part he (by simp [parts])) hρ henv (hs.child 0)) fun {τ _ _} hτ hv => ?_
    cases op with
    | and =>
      refine .bind (.truth hv _) fun hυ hab => ?_
      subst hab
      exact .ite Iff.rfl (fun _ => hb (Pairing.le_trans hτ hυ)) fun _ => .pure fun _ => .bool _
    | or =>
      refine .bind (.truth hv _) fun hυ hab => ?_
      subst hab
      exact .ite Iff.rfl (fun _ => .pure fun _ => .bool _) fun _ => hb (Pairing.le_trans hτ hυ)
    | _ =>
      refine .bind (hb hτ) fun hυ hw => ?_
      exact inStep_ofExcept fun hφ =>
        BinaryOp.apply_paired _ (hv.mono (Pairing.le_trans hυ hφ)) (hw.mono hφ)
  | conditional id ty a b c iha ihb ihc =>
    intro ρ env env' s s' hρ henv hs
    refine .bind (iha (F.part he (by simp [parts])) hρ henv (hs.child 0)) fun {τ _ _} hτ hv => ?_
    refine .bind (.truth hv _) fun {υ _ _} hυ hab => ?_
    subst hab
    have hρυ := Pairing.le_trans hτ hυ
    refine .ite Iff.rfl (fun _ => ?_) fun _ => ?_
    · exact ihb (F.part he (by simp [parts])) (Pairing.le_trans hρ hρυ) (henv.mono hρυ)
        ((hs.child 1).mono hρυ)
    · exact ihc (F.part he (by simp [parts])) (Pairing.le_trans hρ hρυ) (henv.mono hρυ)
        ((hs.child 2).mono hρυ)
  | call id ty op receiver arguments ihr iha =>
    intro ρ env env' s s' hρ henv hs
    have hr : ∀ d ∈ receiver, d.InStep F n log log' host call := fun d hd =>
      ihr d hd (F.part he (by simp_all [parts]))
    have ha : ∀ d ∈ arguments, d.InStep F n log log' host call := fun d hd =>
      iha d hd (F.part he (by simp_all [parts]))
    refine .bind (evalOption_inStep hr hρ henv (hs.child 0)) fun {τ _ _} hτ hvs => ?_
    refine .bind (evalList_inStep ha (Pairing.le_trans hρ hτ) (henv.mono hτ) ((hs.child 1).mono hτ))
      fun {υ _ _} hυ hws => ?_
    exact Operation.invokeBy_inStep hhost hcall (Pairing.le_trans hρ (Pairing.le_trans hτ hυ)) op
      (List.rel_append (Value.Paired.mono_list hυ hvs) hws)
  | lambda id f | quote id f =>
    exact fun _ henv hs => .pure fun hτ => .function (F.fn he rfl) (henv.mono hτ) (hs.mono hτ)
  | construct id ty as bs iha ihb =>
    intro ρ env env' s s' hρ henv hs
    have ha : ∀ a ∈ as, a.value.InStep F n log log' host call := fun a ha =>
      iha a ha (F.part he (List.mem_append_left _ (List.mem_map_of_mem ha)))
    have hb : ∀ b ∈ bs, b.value.InStep F n log log' host call := fun b hb =>
      ihb b hb (F.part he (List.mem_append_right _ (List.mem_map_of_mem hb)))
    refine .bind (Assignment.evalList_inStep ha hρ henv (hs.child 0) .nil) fun {τ _ _} hτ hfs => ?_
    refine .bind (Assignment.evalList_inStep hb (Pairing.le_trans hρ hτ) (henv.mono hτ)
      ((hs.child 1).mono hτ) hfs) fun {υ _ _} _ hgs => ?_
    refine .bind (Abreast.fresh υ) fun hφ hid => ?_
    exact .pure fun hψ => .object (hψ _ _ hid) (Field.Like.mono (Pairing.le_trans hφ hψ) hgs)
  | previous => exact fun _ _ _ => inStep_fail _

end

/-- Calls of paired functions on paired values go in step, however deeply calls may be nested. -/
theorem Function.callWithin_inStep (hhost : host.Oblivious F n) (hF : F.Early n) (k : Nat) :
    Caller.InStep F n log log' (callWithin host k) := by
  induction k with
  | zero => exact fun _ _ _ => .throw fun _ => .same _
  | succ k ih =>
    intro ρ f g vs ws hρ hfg hvs
    cases hfg with | @function f env env' site site' quoted hf henv hs =>
    simp only [callWithin, hvs.length_eq]
    refine .ite Iff.rfl (fun _ => inStep_fail _) fun _ => ?_
    exact Expr.evalIn_inStep hhost hF ih (F.body hf) hρ
      (.cons (Binding.ofArgs_like _ hvs) henv) (hs.child 0)

/-- Evaluations of an expression go in step, from whatever trails they start. -/
theorem Expr.evaluate_inStep (hhost : host.Oblivious F n) (hF : F.Early n) {e : Expr}
    (he : F.nodes e) (hρ : .below n ≤ ρ) :
    ObjectMapping.InStep (Abreast log log') ρ (e.evaluate host) (e.evaluate host)
      (Value.Paired F) :=
  .bind (Abreast.fresh ρ) fun hτ hid =>
    evalIn_inStep hhost hF (Function.callWithin_inStep hhost hF host.depth) he
      (Pairing.le_trans hρ hτ) .nil ⟨.run hid, rfl⟩

/-- Both runs are given the same mapping expression by an operand. -/
theorem Expr.heldLambda_inStep (hhost : host.Oblivious F n) (hF : F.Early n) {e : Expr}
    (he : F.nodes e) (hρ : .below n ≤ ρ) (cx : BuildContext) :
    ObjectMapping.InStep (Abreast log log') ρ (e.heldLambda host cx) (e.heldLambda host cx)
      fun _ f g => f = g ∧ F.fns f := by
  have refuse (ρ : Pairing) (id : MapperId) : ObjectMapping.InStep (Abreast log log') ρ
      (cx.refuseCurrent id) (cx.refuseCurrent id) fun _ _ _ => True :=
    .ite Iff.rfl (fun _ => inStep_fail _) fun _ => .pure fun _ => trivial
  refine .bind (evaluate_inStep hhost hF he hρ) fun {τ v w} _ hvw => ?_
  cases hvw with
  | mapper hm => exact .bind (refuse τ _) fun _ _ => .pure fun _ => ⟨rfl, hm⟩
  | mapperReference ref =>
    refine .bind (refuse τ _) fun _ _ => ?_
    cases hfilled : host.filled ref.id with
    | none => exact inStep_fail _
    | some m => exact .pure fun _ => ⟨rfl, hhost.filled hfilled⟩
  | expression hf => exact .pure fun _ => ⟨rfl, hf⟩
  | function hf => exact .pure fun _ => ⟨rfl, hf⟩
  | null => exact inStep_fail _
  | _ => exact inStep_fail _

end

end ObjectMapping
