import ObjectMapping.Proofs.Forest
import ObjectMapping.Proofs.Lists
import ObjectMapping.Tree.Equality

/-!
# Comparing part by part

The comparison of two trees goes down both at once. At a node that is neither a parameter nor a
constant it asks whether the nodes are of one kind (`Expr.Kind`) and goes on with their parts, and
with the lambdas that they hold, in the scope that these enter (`Expr.agreesIn_of_kind?`). Objects
are compared by what a lookup finds in them (`Value.equal_object`).

The comparison finds the binder of a parameter by its node. `Expr.BindsAnew` says of a tree that no
lambda in it binds a node again that is bound around it, so that a node has one binder at most.
-/

namespace ObjectMapping

/-! ## Kinds of nodes -/

/-- What tells a node from others of its static type, its parts apart : neither parameters nor
constants are of a kind. -/
inductive Expr.Kind where
  | default
  /-- by the type that declares the member and the name of the member -/
  | member (owner name : String)
  | unary (op : UnaryOp)
  | binary (op : BinaryOp)
  | conditional
  | call (signature : Signature) (hasReceiver : Bool)
  | lambda
  | quote
  /-- by the members that are set, as `Expr.Kind.member` knows them -/
  | construct (arguments assignments : List (String × String))
  | previous
  deriving DecidableEq

/-- What a member is known by. -/
def Member.key (m : Member) : String × String :=
  (m.owner, m.name)

theorem Member.key_eq_iff {m n : Member} : m.key = n.key ↔ m.same n = true := by
  simp [key, same]

/-- The kind of a node. -/
def Expr.kind? : Expr → Option Kind
  | .param _ | .constant .. => none
  | .default .. => some .default
  | .member _ _ m => some (.member m.owner m.name)
  | .unary _ _ op _ => some (.unary op)
  | .binary _ _ op .. => some (.binary op)
  | .conditional .. => some .conditional
  | .call _ _ operation receiver _ => some (.call operation.signature receiver.isSome)
  | .lambda .. => some .lambda
  | .quote .. => some .quote
  | .construct _ _ arguments assignments =>
    some (.construct (arguments.map (·.member.key)) (assignments.map (·.member.key)))
  | .previous .. => some .previous

/-- An expression has no kind exactly if it is a parameter or a constant. -/
theorem Expr.kind?_cases (e : Expr) :
    (∃ p, e = .param p) ∨ (∃ id ty v, e = .constant id ty v) ∨ ∃ k, e.kind? = some k := by
  cases e <;> simp [kind?]

/-- Nodes of one kind both hold a lambda or both hold none. -/
theorem Expr.isSome_fn?_eq {a b : Expr} {k : Kind} (ha : a.kind? = some k) (hb : b.kind? = some k) :
    a.fn?.isSome = b.fn?.isSome := by
  have isSome_fn? (e : Expr) : e.fn?.isSome ↔ e.kind? = some .lambda ∨ e.kind? = some .quote := by
    cases e <;> simp [fn?, kind?]
  rw [Bool.eq_iff_iff, isSome_fn?, isSome_fn?, ha, hb]

/-- Lambdas that nodes of one type hold take parameters of the same types. -/
theorem Expr.paramTys_eq_of_ty_eq {a b : Expr} {f g : Lambda} (hf : a.fn? = some f)
    (hg : b.fn? = some g) (hty : a.ty = b.ty) : f.paramTys = g.paramTys := by
  cases a <;> cases hf <;> cases b <;> cases hg <;>
    simp_all [Lambda.functionTy, Lambda.quotedTy]

/-! ## Expressions -/

namespace Scope

/-- The parameters bound on the left, the innermost first. -/
def lefts (scope : Scope) : List NodeId :=
  scope.map (·.1)

/-- The parameters bound on the right, the innermost first. -/
def rights (scope : Scope) : List NodeId :=
  scope.map (·.2)

/-- Two expressions are compared in a scope. -/
def Matches (scope : Scope) (a b : Expr) : Prop :=
  scope.admits a b (a.agreesIn scope b) = true

theorem matches_iff {scope : Scope} {a b : Expr} :
    scope.Matches a b ↔
      (scope = [] ∧ a.id = b.id) ∨ (a.ty = b.ty ∧ a.agreesIn scope b = true) := by
  simp [Matches, admits, Expr.same]

end Scope

variable {scope : Scope}

theorem Expr.agreeOption_iff {a b : Option Expr} :
    Expr.agreeOption scope a b = true ↔ List.Forall₂ scope.Matches a.toList b.toList := by
  cases a <;> cases b <;> simp [agreeOption, Scope.Matches]

theorem Expr.agreeList_iff {as bs : List Expr} :
    Expr.agreeList scope as bs = true ↔ List.Forall₂ scope.Matches as bs := by
  induction as generalizing bs with
  | nil => cases bs <;> simp [agreeList]
  | cons a as ih =>
    cases bs with
    | nil => simp [agreeList]
    | cons b bs => simp [agreeList, ih, Scope.Matches]

theorem Assignment.agreeList_iff {as bs : List Assignment} :
    Assignment.agreeList scope as bs = true ↔
      as.map (·.member.key) = bs.map (·.member.key) ∧
        List.Forall₂ scope.Matches (as.map (·.value)) (bs.map (·.value)) := by
  induction as generalizing bs with
  | nil => cases bs <;> simp [agreeList]
  | cons a as ih =>
    cases bs with
    | nil => cases a; simp [agreeList]
    | cons b bs =>
      cases a; cases b
      simp only [agreeList, ih, Scope.Matches, Bool.and_eq_true, ← Member.key_eq_iff, List.map_cons,
        List.cons.injEq, List.forall₂_cons]
      tauto

theorem Lambda.agreesIn_iff {f g : Lambda} :
    f.agreesIn scope g = true ↔
      f.paramTys = g.paramTys ∧ (scope.enter f.params g.params).Matches f.body g.body := by
  cases f; cases g
  simp [agreesIn, paramTys, Scope.Matches]

/-- Nodes of one static type, the first of which has a kind, agree if they are of the same kind,
their parts match and the lambdas that they hold agree. -/
theorem Expr.agreesIn_of_kind? {a b : Expr} {k : Kind} (ha : a.kind? = some k)
    (hty : a.ty = b.ty) :
    a.agreesIn scope b = true ↔
      b.kind? = some k ∧ List.Forall₂ scope.Matches a.parts b.parts ∧
        ∀ f ∈ a.fn?, ∀ g ∈ b.fn?, f.agreesIn scope g = true := by
  cases a with
  | param | constant => cases ha
  | default => cases ha; cases b <;> simp [agreesIn, kind?, parts, fn?]
  | member | unary | binary | conditional =>
    cases ha
    cases b <;> simp [agreesIn, kind?, parts, fn?, Scope.Matches]
    all_goals tauto
  | call id ty op r as =>
    cases ha
    cases b with
    | call id' ty' op' r' as' =>
      cases r <;> cases r' <;>
        simp [agreesIn, kind?, parts, fn?, agreeOption_iff, agreeList_iff, and_assoc,
          @eq_comm _ op.signature]
    | _ => simp [agreesIn, kind?]
  | lambda | quote => cases ha; cases b <;> simp [agreesIn, kind?, parts, fn?]
  | construct id ty as bs =>
    cases ha
    cases b with
    | construct id' ty' as' bs' =>
      obtain rfl : ty = ty' := hty
      have length_eq {cs ds : List Assignment}
          (h : ds.map (·.member.key) = cs.map (·.member.key)) : cs.length = ds.length := by
        simpa using congrArg List.length h.symm
      simp only [agreesIn, kind?, parts, fn?, Assignment.agreeList_iff, Bool.and_eq_true,
        beq_iff_eq, Option.some.injEq, Kind.construct.injEq]
      constructor
      · rintro ⟨⟨⟨-, hkeys, has⟩, -⟩, hkeys', hbs⟩
        exact ⟨⟨hkeys.symm, hkeys'.symm⟩, List.rel_append has hbs, by simp⟩
      · rintro ⟨⟨hkeys, hkeys'⟩, hall, -⟩
        obtain ⟨has, hbs⟩ := (forall₂_append_iff (by simpa using length_eq hkeys)).1 hall
        exact ⟨⟨⟨⟨trivial, length_eq hkeys⟩, hkeys.symm, has⟩, length_eq hkeys'⟩, hkeys'.symm, hbs⟩
    | _ => simp [agreesIn, kind?]
  | previous => cases ha; cases b <;> simp [agreesIn, kind?, parts, fn?, agreeOption_iff]

/-! ## Values -/

/-- The values that a value is made of. -/
def Value.parts : Value → List Value
  | .object _ _ fs => fs.map (·.value)
  | .sequence _ vs => vs
  | _ => []

namespace Field

theorem mem_of_lookup {name : String} {v : Value} :
    ∀ {fs : List Field}, lookup name fs = some v → v ∈ fs.map (·.value)
  | f :: fs, h => by
    rw [lookup] at h
    split at h
    · exact List.mem_cons.2 (.inl (Option.some.inj h).symm)
    · exact List.mem_cons.2 (.inr (mem_of_lookup h))

theorem lookup_isSome_iff {name : String} :
    ∀ {fs : List Field}, (lookup name fs).isSome ↔ name ∈ fs.map (·.name)
  | [] => by simp [lookup]
  | f :: fs => by
    rw [lookup, List.map_cons, List.mem_cons, ← lookup_isSome_iff]
    by_cases h : f.name = name
    · simp [h]
    · simp [h, Ne.symm h]

theorem covers_iff {fs gs : List Field} :
    covers fs gs = true ↔ ∀ name, (lookup name gs).isSome → (lookup name fs).isSome := by
  simp [covers, lookup_isSome_iff]

theorem allIn_cons {seen : List String} {name : String} {v : Value} {fs gs : List Field} :
    allIn seen (⟨name, v⟩ :: fs) gs = true ↔
      (name ∉ seen → ∃ w, lookup name gs = some w ∧ v.equal w = true) ∧
        allIn (name :: seen) fs gs = true := by
  simp only [allIn]
  cases lookup name gs <;> simp [imp_iff_not_or]

/-- A field is in sight if its name is none of those seen. -/
theorem allIn_iff {seen : List String} {fs gs : List Field} :
    allIn seen fs gs = true ↔ ∀ name ∉ seen, ∀ v, lookup name fs = some v →
      ∃ w, lookup name gs = some w ∧ v.equal w = true := by
  induction fs generalizing seen with
  | nil => simp [allIn, lookup]
  | cons f fs ih =>
    obtain ⟨n, v⟩ := f
    rw [allIn_cons, ih]
    constructor
    · rintro ⟨hv, hrest⟩ name hname w hw
      rw [lookup] at hw
      split at hw
      · rename_i heq
        obtain rfl : n = name := heq
        obtain rfl := Option.some.inj hw
        exact hv hname
      · rename_i hne
        exact hrest name (by simpa [hname] using Ne.symm hne) w hw
    · intro h
      refine ⟨fun hn => h n hn v (by simp [lookup]), fun name hname w hw => ?_⟩
      obtain ⟨hne, hname⟩ := not_or.1 (mt List.mem_cons.2 hname)
      exact h name hname w (by rwa [lookup, if_neg (Ne.symm hne)])

end Field

/-- Objects that are not one and the same are equal if they are of one type and a lookup finds equal
values in both. -/
theorem Value.equal_object {i j : NodeId} {s t : String} {fs gs : List Field} :
    (Value.object i s fs).equal (.object j t gs) = true ↔ i = j ∨ s = t ∧
      ∀ name, Option.Rel (fun v w => v.equal w = true) (Field.lookup name fs)
        (Field.lookup name gs) := by
  simp only [equal, Bool.or_eq_true, Bool.and_eq_true, beq_iff_eq, Field.covers_iff,
    Field.allIn_iff, and_assoc]
  refine or_congr_right (and_congr_right fun _ => ⟨?_, ?_⟩)
  · rintro ⟨hgs, hfs, hall⟩ name
    have hgs := hgs name
    have hall := hall name List.not_mem_nil
    generalize Field.lookup name fs = o, Field.lookup name gs = o' at hgs hall
    cases o with
    | none => cases o' with
      | none => exact .none
      | some w => simp at hgs
    | some v =>
      obtain ⟨w, rfl, hvw⟩ := hall v rfl
      exact .some hvw
  · intro h
    have isSome_eq (name : String) :
        (Field.lookup name fs).isSome = (Field.lookup name gs).isSome := by
      have h := h name
      generalize Field.lookup name fs = o, Field.lookup name gs = o' at h ⊢
      cases h <;> rfl
    refine ⟨fun name hname => isSome_eq name ▸ hname, fun name hname => isSome_eq name ▸ hname,
      fun name _ v hv => ?_⟩
    have h := hv ▸ h name
    generalize Field.lookup name gs = o at h
    cases h with | some h => exact ⟨_, rfl, h⟩

theorem Value.equalList_iff {vs ws : List Value} :
    Value.equalList vs ws = true ↔ List.Forall₂ (fun v w => v.equal w = true) vs ws := by
  induction vs generalizing ws with
  | nil => cases ws <;> simp [equalList]
  | cons v vs ih => cases ws <;> simp [equalList, ih]

theorem Value.equal_sequence {j k : SequenceKind} {vs ws : List Value} :
    (Value.sequence j vs).equal (.sequence k ws) = true ↔
      j = k ∧ List.Forall₂ (fun v w => v.equal w = true) vs ws := by
  simp only [equal, Bool.and_eq_true, beq_iff_eq, equalList_iff, and_assoc]
  exact ⟨fun ⟨hk, _, h⟩ => ⟨hk, h⟩, fun ⟨hk, h⟩ => ⟨hk, h.length_eq, h⟩⟩

/-! ## Binding anew -/

/-- The value that a node holds. -/
def Expr.value? : Expr → Option Value
  | .constant _ _ v => some v
  | _ => none

/-- The parameters bound inside a lambda, the innermost first, where `bound` are bound outside. -/
def Lambda.binders (bound : List NodeId) (f : Lambda) : List NodeId :=
  (f.params.map (·.id)).reverse ++ bound

mutual

/-- No lambda of the expression binds a node twice, or one that is bound around it, where `bound`
are bound around the expression. What a constant holds is bound by nothing around the constant. -/
inductive Expr.BindsAnew : List NodeId → Expr → Prop
  | mk {bound : List NodeId} {e : Expr} : (∀ d ∈ e.parts, Expr.BindsAnew bound d) →
      (∀ f ∈ e.fn?, Lambda.BindsAnew bound f) → (∀ v ∈ e.value?, Value.BindsAnew v) →
      Expr.BindsAnew bound e

/-- Neither the lambda nor one inside it binds a node twice, or one that is bound around it. -/
inductive Lambda.BindsAnew : List NodeId → Lambda → Prop
  | mk {bound : List NodeId} {f : Lambda} : (f.binders bound).Nodup →
      Expr.BindsAnew (f.binders bound) f.body → Lambda.BindsAnew bound f

/-- No lambda that a comparison of the value comes to binds a node twice, or one that is bound
around it. -/
inductive Value.BindsAnew : Value → Prop
  | mk {v : Value} : (∀ f, v = .expression f → Lambda.BindsAnew [] f) →
      (∀ w ∈ v.parts, Value.BindsAnew w) → Value.BindsAnew v

end

section

variable {bound : List NodeId}

theorem Expr.BindsAnew.part {e d : Expr} (h : e.BindsAnew bound) (hd : d ∈ e.parts) :
    d.BindsAnew bound := by
  cases h with | mk hparts _ _ => exact hparts d hd

theorem Expr.BindsAnew.fn {e : Expr} {f : Lambda} (h : e.BindsAnew bound) (hf : e.fn? = some f) :
    f.BindsAnew bound := by
  cases h with | mk _ hfn _ => exact hfn f hf

theorem Expr.BindsAnew.value {e : Expr} {v : Value} (h : e.BindsAnew bound)
    (hv : e.value? = some v) : v.BindsAnew := by
  cases h with | mk _ _ hvalue => exact hvalue v hv

theorem Value.BindsAnew.fn {f : Lambda} (h : (Value.expression f).BindsAnew) : f.BindsAnew [] := by
  cases h with | mk hfn _ => exact hfn f rfl

theorem Value.BindsAnew.part {v w : Value} (h : v.BindsAnew) (hw : w ∈ v.parts) : w.BindsAnew := by
  cases h with | mk _ hparts => exact hparts w hw

theorem Lambda.BindsAnew.nodup {f : Lambda} (h : f.BindsAnew bound) : (f.binders bound).Nodup := by
  cases h with | mk hnodup _ => exact hnodup

theorem Lambda.BindsAnew.body {f : Lambda} (h : f.BindsAnew bound) :
    f.body.BindsAnew (f.binders bound) := by
  cases h with | mk _ hbody => exact hbody

end

/-! ## Scopes -/

namespace Scope

/-- Inside two lambdas with equally many parameters the parameters of each are bound. -/
theorem lefts_enter {f g : Lambda} (h : f.params.length = g.params.length) :
    (scope.enter f.params g.params).lefts = f.binders scope.lefts := by
  have hzip : (f.params.zip g.params).map (·.1) = f.params :=
    List.map_fst_zip (Nat.le_of_eq h)
  conv_rhs => rw [Lambda.binders, ← hzip]
  simp [lefts, enter, Function.comp_def]

theorem rights_enter {f g : Lambda} (h : f.params.length = g.params.length) :
    (scope.enter f.params g.params).rights = g.binders scope.rights := by
  have hzip : (f.params.zip g.params).map (·.2) = g.params :=
    List.map_snd_zip (Nat.le_of_eq h.symm)
  conv_rhs => rw [Lambda.binders, ← hzip]
  simp [rights, enter, Function.comp_def]

/-- Of two scopes that differ by a pair, the larger one sees the pair first. -/
theorem relates_cons {scope : Scope} {l r : NodeId} (hr : r ∉ scope.rights) {p q : Param} :
    relates ((l, r) :: scope) p q = true ↔
      if l = p.id then r = q.id else r ≠ q.id ∧ scope.relates p q = true := by
  by_cases hl : l = p.id
  · simp [relates, hl]
  · cases hfind : scope.find? (·.1 == p.id) with
    | none => simp [relates, hl, hfind, and_assoc]
    | some pair =>
      have hne : pair.2 = q.id → r ≠ q.id := by
        rintro heq rfl
        exact hr (heq ▸ List.mem_map_of_mem (List.mem_of_find?_eq_some hfind))
      simpa [relates, hl, hfind] using hne

/-- A parameter corresponds to another one if both are bound at one position, or both are free and
have one name. -/
theorem relates_iff {scope : Scope} (h : scope.rights.Nodup) {p q : Param} :
    scope.relates p q = true ↔ scope.lefts.idxOf? p.id = scope.rights.idxOf? q.id ∧
      (p.id ∈ scope.lefts ∨ p.name = q.name) := by
  induction scope with
  | nil => simp [relates, lefts, rights]
  | cons pair scope ih =>
    obtain ⟨l, r⟩ := pair
    obtain ⟨hr, h⟩ := List.nodup_cons.1 h
    have ih := ih h
    rw [relates_cons hr, ih]
    simp only [lefts, rights, List.map_cons, List.idxOf?_cons, List.mem_cons, beq_iff_eq]
    have hzero (o : Option Nat) : some 0 ≠ o.map (· + 1) := by cases o <;> simp
    have hsucc (o o' : Option Nat) : o.map (· + 1) = o'.map (· + 1) ↔ o = o' :=
      (Option.map_injective (fun _ _ => Nat.succ.inj)).eq_iff
    by_cases hl : l = p.id
    · by_cases hq : r = q.id
      · simp [hl, hq]
      · simp [hl, hq, hzero]
    · by_cases hq : r = q.id
      · simp [hl, hq, (hzero _).symm]
      · simp [hl, Ne.symm hl, hq, hsucc]

end Scope

end ObjectMapping
