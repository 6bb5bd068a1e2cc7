import ObjectMapping.Proofs.Relating

/-!
# Values of two runs that are alike

When an expression is evaluated twice, the objects it makes are made twice, with different
identities. A `World` keeps account of this for two runs : what the objects of the first run hold,
and which of them an object of the second run stands for. Several objects may stand for one, if it
equals itself field by field. `Value.Alike` relates the values of the two runs that are equal up to
this, and `Value.Alike.equal_eq` is the reason for the rule about self-equality : alike values
compare alike, although an object always equals itself.

Objects with identities below `n` were made before both runs and are shared by them. The code that
functions and mappers run is that of a forest.
-/

set_option linter.unusedSectionVars false

namespace ObjectMapping

/-! ## Worlds -/

/-- What the objects of the first run hold, and which object of the first run an object of the
second run stands for. -/
structure World (F : Forest) (n : NodeId) where
  heap : NodeId → Option (String × List Field)
  origin : NodeId → Option NodeId
  shared {j : NodeId} : j < n → origin j = some j
  own {j i : NodeId} : origin j = some i → j < n ∨ i < n → j = i
  steady {j k i : NodeId} : origin j = some i → origin k = some i →
    j = k ∨ ∃ ty fs, heap i = some (ty, fs) ∧ Field.allIn [] fs fs = true

variable {F : Forest} {n : NodeId}

namespace World

/-- The world before anything is made. -/
def start (F : Forest) (n : NodeId) : World F n where
  heap _ := none
  origin j := if j < n then some j else none
  shared h := if_pos h
  own h _ := by
    split at h
    · exact Option.some.inj h
    · cases h
  steady h h' := by
    split at h <;> split at h' <;> simp_all

/-- A world that has all that another one has. -/
instance : LE (World F n) where
  le W V := (∀ {j i}, W.origin j = some i → V.origin j = some i) ∧
    ∀ {i c}, W.heap i = some c → V.heap i = some c

theorem le_refl (W : World F n) : W ≤ W :=
  ⟨fun h => h, fun h => h⟩

theorem le_trans {U V W : World F n} (h : U ≤ V) (h' : V ≤ W) : U ≤ W :=
  ⟨fun hj => h'.1 (h.1 hj), fun hi => h'.2 (h.2 hi)⟩

theorem start_origin (j : NodeId) :
    (start F n).origin j = if j < n then some j else none :=
  rfl

theorem start_le (W : World F n) : start F n ≤ W := by
  constructor
  · intro j i h
    rw [start_origin] at h
    split at h
    · obtain rfl := Option.some.inj h
      exact W.shared ‹_›
    · cases h
  · intro i c h
    cases h

end World

/-! ## Alike values -/

mutual

/-- Values that are equal but for the identities of the objects made in the two runs. -/
inductive Value.Alike (W : World F n) : Value → Value → Prop
  | null : Value.Alike W .null .null
  | bool (b : Bool) : Value.Alike W (.bool b) (.bool b)
  | int (i : Int64) : Value.Alike W (.int i) (.int i)
  | float (x : Float) : Value.Alike W (.float x) (.float x)
  | string (s : String) : Value.Alike W (.string s) (.string s)
  | object {i j : NodeId} {ty : String} {fs gs : List Field} : W.origin j = some i →
    (n ≤ i → W.heap i = some (ty, fs)) → List.Forall₂ (Field.Alike W) fs gs →
    Value.Alike W (.object i ty fs) (.object j ty gs)
  | sequence {kind : SequenceKind} {vs ws : List Value} : List.Forall₂ (Value.Alike W) vs ws →
    Value.Alike W (.sequence kind vs) (.sequence kind ws)
  | function {f : Lambda} {env env' : Env} {site : Site} {quoted : Bool} : F.fns f →
    List.Forall₂ (List.Forall₂ (Binding.Alike W)) env env' →
    Value.Alike W (.function ⟨f, env, site, quoted⟩) (.function ⟨f, env', site, quoted⟩)
  | expression (f : Lambda) : Value.Alike W (.expression f) (.expression f)
  | mapper {m : Mapper} : F.fns m.expression → Value.Alike W (.mapper m) (.mapper m)
  | mapperReference (ref : MapperReference) :
    Value.Alike W (.mapperReference ref) (.mapperReference ref)

/-- Fields of the same name with alike values. -/
inductive Field.Alike (W : World F n) : Field → Field → Prop
  | mk {name : String} {v w : Value} : Value.Alike W v w → Field.Alike W ⟨name, v⟩ ⟨name, w⟩

/-- Bindings of the same parameter to alike values. -/
inductive Binding.Alike (W : World F n) : Binding → Binding → Prop
  | mk {x : NodeId} {v w : Value} : Value.Alike W v w → Binding.Alike W ⟨x, v⟩ ⟨x, w⟩

end

/-- Environments that bind the same parameters to alike values. -/
abbrev Env.Alike (W : World F n) : Env → Env → Prop :=
  List.Forall₂ (List.Forall₂ (Binding.Alike W))

/-- Functions that run the same code on alike values. -/
def Function.Alike (W : World F n) (f g : Function) : Prop :=
  Value.Alike W (.function f) (.function g)

/-- A value that holds objects made before and code of the forest alone. -/
def Value.Known (F : Forest) (n : NodeId) (v : Value) : Prop :=
  v.Alike (World.start F n) v

section

variable {W V : World F n}

/-- Values that are alike stay alike. -/
theorem Value.Alike.mono (hWV : W ≤ V) {v w : Value} (h : v.Alike W w) : v.Alike V w := by
  induction v using Value.byParts generalizing w with
  | object i ty fs ih =>
    cases h with | object horigin hheap hfields =>
    refine .object (hWV.1 horigin) (fun hi => hWV.2 (hheap hi)) ?_
    refine forall₂_imp_of_mem hfields fun f hf g hfg => ?_
    cases hfg with | mk h => exact .mk (ih _ hf h)
  | sequence kind vs ih =>
    cases h with | sequence h => exact .sequence (forall₂_imp_of_mem h fun v hv w h => ih v hv h)
  | function f ih =>
    cases h with | function hf henv =>
    refine .function hf (forall₂_imp_of_mem henv fun frame hframe frame' h => ?_)
    refine forall₂_imp_of_mem h fun b hb b' h => ?_
    cases h with | mk h => exact .mk (ih _ hframe _ hb h)
  | mapper m => cases h with | mapper h => exact .mapper h
  | _ =>
    cases h
    constructor

theorem Field.Alike.mono (hWV : W ≤ V) {f g : Field} (h : f.Alike W g) : f.Alike V g := by
  cases h with | mk h => exact .mk (h.mono hWV)

theorem Env.Alike.mono (hWV : W ≤ V) {env env' : Env} (h : env.Alike W env') :
    env.Alike V env' := by
  refine h.imp fun _ _ h => h.imp fun _ _ h => ?_
  cases h with | mk h => exact .mk (h.mono hWV)

theorem Field.alike_iff {f g : Field} : f.Alike W g ↔ f.Like (Value.Alike W) g := by
  constructor <;> rintro ⟨h⟩ <;> exact .mk h

theorem Binding.alike_iff {b c : Binding} : b.Alike W c ↔ b.Like (Value.Alike W) c := by
  constructor <;> rintro ⟨h⟩ <;> exact .mk h

theorem Field.Alike.like {fs gs : List Field} (h : List.Forall₂ (Field.Alike W) fs gs) :
    List.Forall₂ (Field.Like (Value.Alike W)) fs gs :=
  h.imp fun _ _ => alike_iff.1

/-- Values that are alike have the same shape and alike parts. -/
theorem Value.Alike.like {v w : Value} (h : v.Alike W w) : v.Like (Value.Alike W) w := by
  cases h with
  | object _ _ hfs => exact .object _ _ (Field.Alike.like hfs)
  | sequence h => exact .sequence h
  | function => exact .function rfl
  | _ => constructor

/-- Setting a field to alike values. -/
theorem Field.Alike.set {fs gs : List Field} (h : List.Forall₂ (Field.Alike W) fs gs)
    (name : String) {v w : Value} (hv : v.Alike W w) :
    List.Forall₂ (Field.Alike W) (Field.set name v fs) (Field.set name w gs) :=
  (Field.Like.set (Field.Alike.like h) name hv).imp fun _ _ => alike_iff.2

/-- A parameter is bound to alike values, or unbound on both sides. -/
theorem Env.Alike.lookup {env env' : Env} (h : env.Alike W env') (x : NodeId) :
    Option.Rel (Value.Alike W) (env.lookup x) (env'.lookup x) :=
  Env.Like.lookup (h.imp fun _ _ h => h.imp fun _ _ => Binding.alike_iff.1) x

theorem Binding.ofArgs_alike (params : List Param) {vs ws : List Value}
    (h : List.Forall₂ (Value.Alike W) vs ws) :
    List.Forall₂ (Binding.Alike W) (ofArgs params vs) (ofArgs params ws) :=
  (ofArgs_like params h).imp fun _ _ => alike_iff.2

/-! ## Comparing -/

theorem Field.covers_self (fs : List Field) : covers fs fs = true := by
  simp only [covers, List.all_eq_true, List.any_eq_true]
  exact fun f hf => ⟨f, hf, by simp⟩

/-- Alike values compare alike : two objects that stand for one and are not the same are equal field
by field. -/
theorem Value.Alike.equal_eq {a a' b b' : Value} (ha : a.Alike W a') (hb : b.Alike W b') :
    a'.equal b' = a.equal b := by
  induction a using Value.byParts generalizing a' b b' with
  | object i ty fs ih =>
    cases ha with | @object _ i' _ _ fs' horigin hheap hfs =>
    cases hb with
    | @object j j' u gs gs' horigin' hheap' hgs =>
      have hcontent : Field.allIn [] fs' gs' = Field.allIn [] fs gs :=
        (Field.Like.allIn_eq (fun f hf _ _ _ ha hb => (ih f hf ha hb).symm) (Field.Alike.like hfs)
          (Field.Alike.like hgs) []).symm
      have hcovers {fs fs' gs gs' : List Field} (hf : List.Forall₂ (Field.Alike W) fs fs')
          (hg : List.Forall₂ (Field.Alike W) gs gs') : Field.covers fs' gs' = Field.covers fs gs :=
        (Field.Like.covers_eq (Field.Alike.like hf) (Field.Alike.like hg)).symm
      simp only [equal, hcontent, hcovers hfs hgs, hcovers hgs hfs]
      by_cases hij : i = j
      · subst hij
        rcases W.steady horigin horigin' with rfl | ⟨ty', cs, hcs, hsteady⟩
        · simp
        · by_cases hi : i < n
          · obtain rfl := W.own horigin (.inr hi)
            obtain rfl := W.own horigin' (.inr hi)
            simp
          · have hi := Nat.le_of_not_lt hi
            have hsame := (hheap hi).symm.trans (hheap' hi)
            obtain ⟨rfl, rfl⟩ : ty = u ∧ fs = gs := by simpa using hsame
            obtain ⟨-, rfl⟩ : ty' = ty ∧ cs = fs := by simpa [hheap hi, eq_comm] using hcs
            simp [hsteady, Field.covers_self]
      · have hij' : i' ≠ j' := by
          rintro rfl
          exact hij (Option.some.inj (horigin.symm.trans horigin'))
        rw [beq_eq_false_iff_ne.2 hij, beq_eq_false_iff_ne.2 hij']
    | _ => rfl
  | sequence kind vs ih =>
    cases ha with | sequence hvs =>
    cases hb with
    | sequence hws =>
      have hlist := Value.Like.equalList_eq (fun v hv _ _ _ ha hb => (ih v hv ha hb).symm) hvs hws
      simp only [equal, hlist, hvs.length_eq, hws.length_eq]
    | _ => rfl
  | _ =>
    cases ha
    cases hb <;> rfl

/-! ## Operators -/

theorem Value.Alike.field {v w : Value} (h : v.Alike W w) (name : String) :
    Agree (Value.Alike W) (v.field name) (w.field name) :=
  Value.Like.field Value.Alike.like h name

theorem Value.Alike.truth_eq {v w : Value} (h : v.Alike W w) (context : String) :
    w.truth context = v.truth context :=
  (Value.Like.truth_eq Value.Alike.like h context).symm

/-- A value without parts is alike itself. -/
theorem Value.Alike.of_isPlain {v : Value} (h : v.isPlain = true) : v.Alike W v := by
  cases v <;> cases h <;> constructor

theorem Value.alike_defaultOf (ty : Ty) : (Value.defaultOf ty).Alike W (.defaultOf ty) :=
  .of_isPlain (isPlain_defaultOf ty)

theorem UnaryOp.apply_alike {v w : Value} (op : UnaryOp) (h : v.Alike W w) :
    Agree (Value.Alike W) (op.apply v) (op.apply w) :=
  .of_eq (Value.Like.unary_eq Value.Alike.like op h).symm fun _ hc => .of_isPlain (isPlain_apply hc)

theorem BinaryOp.apply_alike {a a' b b' : Value} (op : BinaryOp) (ha : a.Alike W a')
    (hb : b.Alike W b') : Agree (Value.Alike W) (op.apply a b) (op.apply a' b') :=
  .of_eq (Value.Like.binary_eq Value.Alike.like op ha hb (ha.equal_eq hb).symm).symm
    fun _ hc => .of_isPlain (isPlain_apply hc)

end

end ObjectMapping
