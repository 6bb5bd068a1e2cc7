import Mathlib.Data.List.Nodup
import ObjectMapping.Tree

/-!
# Forests

A node is known by its identity, so the trees of a run share their nodes : `Forest` is the set of
the nodes and lambdas made so far. Within it an identity belongs to one node, and the parts of a
node belong to it as well. New nodes take identities that no node has yet (`Forest.Below`), which
is why a forest can grow by a node without confusing two of them (`Forest.grow`).

`Expr.byParts` is induction over an expression, outside constants, and `Expr.byPart` is the same
without a case for every kind of node.
-/

set_option linter.unusedSectionVars false

namespace ObjectMapping

/-! ## Parts -/

/-- The expressions that a node is made of, those inside its lambda apart. -/
def Expr.parts : Expr → List Expr
  | .param _ | .constant .. | .default .. => []
  | .member _ object _ => [object]
  | .unary _ _ _ operand => [operand]
  | .binary _ _ _ left right => [left, right]
  | .conditional _ _ test ifTrue ifFalse => [test, ifTrue, ifFalse]
  | .call _ _ _ receiver arguments => receiver.toList ++ arguments
  | .lambda .. | .quote .. => []
  | .construct _ _ arguments assignments =>
    arguments.map (·.value) ++ assignments.map (·.value)
  | .previous _ _ fallback => fallback.toList

/-- The lambda that a node holds. -/
def Expr.fn? : Expr → Option Lambda
  | .lambda _ f | .quote _ f => some f
  | _ => none

/-- A node that holds a lambda has no parts. -/
theorem Expr.parts_of_fn? {e : Expr} {f : Lambda} (h : e.fn? = some f) : e.parts = [] := by
  cases e <;> cases h <;> rfl

theorem Expr.eq_of_param? {e : Expr} {p : Param} (h : e.param? = some p) : e = .param p := by
  cases e <;> cases h
  rfl

section

variable {P : Expr → Prop} (param : ∀ p, P (.param p))
  (constant : ∀ id ty v, P (.constant id ty v)) (default : ∀ id ty, P (.default id ty))
  (member : ∀ id o m, P o → P (.member id o m))
  (unary : ∀ id ty op a, P a → P (.unary id ty op a))
  (binary : ∀ id ty op a b, P a → P b → P (.binary id ty op a b))
  (conditional : ∀ id ty a b c, P a → P b → P c → P (.conditional id ty a b c))
  (call : ∀ id ty op receiver arguments, (∀ e ∈ receiver, P e) → (∀ e ∈ arguments, P e) →
    P (.call id ty op receiver arguments))
  (lambda : ∀ id f, P f.body → P (.lambda id f)) (quote : ∀ id f, P f.body → P (.quote id f))
  (construct : ∀ id ty arguments assignments, (∀ a ∈ arguments, P a.value) →
    (∀ a ∈ assignments, P a.value) → P (.construct id ty arguments assignments))
  (previous : ∀ id ty fallback, (∀ e ∈ fallback, P e) → P (.previous id ty fallback))

include param constant default member unary binary conditional call lambda quote construct previous

mutual

/-- Induction over an expression and the expressions inside it, constants apart. -/
@[elab_as_elim]
theorem Expr.byParts : ∀ e : Expr, P e
  | .param p => param p
  | .constant id ty v => constant id ty v
  | .default id ty => default id ty
  | .member id o m => member id o m (Expr.byParts o)
  | .unary id ty op a => unary id ty op a (Expr.byParts a)
  | .binary id ty op a b => binary id ty op a b (Expr.byParts a) (Expr.byParts b)
  | .conditional id ty a b c =>
    conditional id ty a b c (Expr.byParts a) (Expr.byParts b) (Expr.byParts c)
  | .call id ty op receiver arguments =>
    call id ty op receiver arguments (Expr.byPartsOption receiver) (Expr.byPartsList arguments)
  | .lambda id f => lambda id f (Lambda.byParts f)
  | .quote id f => quote id f (Lambda.byParts f)
  | .construct id ty arguments assignments =>
    construct id ty arguments assignments (Assignment.byPartsList arguments)
      (Assignment.byPartsList assignments)
  | .previous id ty fallback => previous id ty fallback (Expr.byPartsOption fallback)

theorem Expr.byPartsOption : ∀ o : Option Expr, ∀ e ∈ o, P e
  | none, _, h => nomatch h
  | some e, _, h => Option.mem_some_iff.1 h ▸ Expr.byParts e

theorem Expr.byPartsList : ∀ es : List Expr, ∀ e ∈ es, P e
  | [], _, h => nomatch h
  | e :: es, _, h => (List.mem_cons.1 h).elim (· ▸ Expr.byParts e) (Expr.byPartsList es _)

theorem Assignment.byPartsList : ∀ as : List Assignment, ∀ a ∈ as, P a.value
  | [], _, h => nomatch h
  | ⟨_, e⟩ :: as, _, h =>
    (List.mem_cons.1 h).elim (· ▸ Expr.byParts e) (Assignment.byPartsList as _)

theorem Lambda.byParts : ∀ f : Lambda, P f.body
  | ⟨_, _, e⟩ => Expr.byParts e

end

end

/-- Induction over an expression by its parts and the lambda that it holds, whatever kind of node it
is. -/
theorem Expr.byPart {P : Expr → Prop}
    (h : ∀ e : Expr, (∀ d ∈ e.parts, P d) → (∀ f, e.fn? = some f → P f.body) → P e) (e : Expr) :
    P e := by
  induction e using Expr.byParts with
  | param | constant | default => exact h _ (by simp [parts]) (by simp [fn?])
  | member id o m ih => exact h _ (by simpa [parts] using ih) (by simp [fn?])
  | unary id ty op a ih => exact h _ (by simpa [parts] using ih) (by simp [fn?])
  | binary id ty op a b iha ihb => exact h _ (by simpa [parts] using ⟨iha, ihb⟩) (by simp [fn?])
  | conditional id ty a b c iha ihb ihc =>
    exact h _ (by simpa [parts] using ⟨iha, ihb, ihc⟩) (by simp [fn?])
  | call id ty op receiver arguments ihr iha =>
    refine h _ (fun d hd => ?_) (by simp [fn?])
    rcases List.mem_append.1 hd with hd | hd
    · exact ihr d (by simpa using hd)
    · exact iha d hd
  | lambda id f ih | quote id f ih =>
    refine h _ (by simp [parts]) fun g hg => ?_
    obtain rfl := Option.some.inj hg
    exact ih
  | construct id ty as bs iha ihb =>
    refine h _ (fun d hd => ?_) (by simp [fn?])
    rcases List.mem_append.1 hd with hd | hd
    · exact List.forall_mem_map.2 iha d hd
    · exact List.forall_mem_map.2 ihb d hd
  | previous id ty fallback ih =>
    exact h _ (fun d hd => ih d (by simpa [parts] using hd)) (by simp [fn?])

/-! ## Forests -/

/-- The nodes and lambdas made so far, in which an identity belongs to one of them and which hold
the parts of what they hold. -/
structure Forest where
  nodes : Expr → Prop
  fns : Lambda → Prop
  node_eq {a b : Expr} : nodes a → nodes b → a.id = b.id → a = b
  fn_eq {f g : Lambda} : fns f → fns g → f.id = g.id → f = g
  part {e p : Expr} : nodes e → p ∈ e.parts → nodes p
  fn {e : Expr} {f : Lambda} : nodes e → e.fn? = some f → fns f
  param {f : Lambda} {p : Param} : fns f → p ∈ f.params → nodes (.param p)
  body {f : Lambda} : fns f → nodes f.body

namespace Forest

/-- Every identity in the forest is taken from the ones below `n`. -/
structure Below (F : Forest) (n : NodeId) : Prop where
  node {e : Expr} : F.nodes e → e.id < n
  fn {f : Lambda} : F.fns f → f.id < n

theorem Below.mono {F : Forest} {m n : NodeId} (h : F.Below m) (hmn : m ≤ n) : F.Below n :=
  ⟨fun he => Nat.lt_of_lt_of_le (h.node he) hmn, fun hf => Nat.lt_of_lt_of_le (h.fn hf) hmn⟩

/-- A forest holds all that another one holds. -/
instance : LE Forest where
  le F G := (∀ e, F.nodes e → G.nodes e) ∧ ∀ f, F.fns f → G.fns f

theorem le_refl (F : Forest) : F ≤ F :=
  ⟨fun _ => id, fun _ => id⟩

theorem le_trans {F G H : Forest} (h : F ≤ G) (h' : G ≤ H) : F ≤ H :=
  ⟨fun e he => h'.1 e (h.1 e he), fun f hf => h'.2 f (h.2 f hf)⟩

theorem Below.of_le {F G : Forest} {n : NodeId} (h : G.Below n) (hFG : F ≤ G) : F.Below n :=
  ⟨fun he => h.node (hFG.1 _ he), fun hf => h.fn (hFG.2 _ hf)⟩

/-- The forest with one more node, whose identity no node has yet. -/
def grow (F : Forest) (e : Expr) (hid : ∀ a, F.nodes a → a.id ≠ e.id)
    (hparts : ∀ p ∈ e.parts, F.nodes p) (hfn : ∀ f, e.fn? = some f → F.fns f) : Forest where
  nodes a := F.nodes a ∨ a = e
  fns := F.fns
  node_eq := by
    rintro a b (ha | rfl) (hb | rfl) h
    · exact F.node_eq ha hb h
    · exact absurd h (hid a ha)
    · exact absurd h.symm (hid b hb)
    · rfl
  fn_eq := F.fn_eq
  part := by
    rintro a p (ha | rfl) hp
    · exact .inl (F.part ha hp)
    · exact .inl (hparts p hp)
  fn := by
    rintro a f (ha | rfl) hf
    · exact F.fn ha hf
    · exact hfn f hf
  param hf hp := .inl (F.param hf hp)
  body hf := .inl (F.body hf)

/-- The forest with one more lambda, whose identity no lambda has yet. -/
def growFn (F : Forest) (f : Lambda) (hid : ∀ g, F.fns g → g.id ≠ f.id)
    (hparams : ∀ p ∈ f.params, F.nodes (.param p)) (hbody : F.nodes f.body) : Forest where
  nodes := F.nodes
  fns g := F.fns g ∨ g = f
  node_eq := F.node_eq
  fn_eq := by
    rintro g h (hg | rfl) (hh | rfl) heq
    · exact F.fn_eq hg hh heq
    · exact absurd heq (hid g hg)
    · exact absurd heq.symm (hid h hh)
    · rfl
  part := F.part
  fn he hf := .inl (F.fn he hf)
  param := by
    rintro g p (hg | rfl) hp
    · exact F.param hg hp
    · exact hparams p hp
  body := by
    rintro g (hg | rfl)
    · exact F.body hg
    · exact hbody

/-- A forest has room for a node with the first identity that is not taken. -/
theorem exists_grow {F : Forest} {e : Expr} (hF : F.Below e.id)
    (hparts : ∀ p ∈ e.parts, F.nodes p) (hfn : ∀ f, e.fn? = some f → F.fns f) :
    ∃ G, F ≤ G ∧ G.Below (e.id + 1) ∧ G.nodes e := by
  refine ⟨F.grow e (fun a ha => Nat.ne_of_lt (hF.node ha)) hparts hfn, ⟨fun _ => .inl, fun _ => id⟩,
    ⟨?_, fun hf => Nat.lt_succ_of_lt (hF.fn hf)⟩, .inr rfl⟩
  rintro a (ha | rfl)
  · exact Nat.lt_succ_of_lt (hF.node ha)
  · exact Nat.lt_succ_self _

/-- A forest has room for a lambda with the first identity that is not taken. -/
theorem exists_growFn {F : Forest} {f : Lambda} (hF : F.Below f.id)
    (hparams : ∀ p ∈ f.params, F.nodes (.param p)) (hbody : F.nodes f.body) :
    ∃ G, F ≤ G ∧ G.Below (f.id + 1) ∧ G.fns f := by
  refine ⟨F.growFn f (fun g hg => Nat.ne_of_lt (hF.fn hg)) hparams hbody,
    ⟨fun _ => id, fun _ => .inl⟩, ⟨fun he => Nat.lt_succ_of_lt (hF.node he), ?_⟩, .inr rfl⟩
  rintro g (hg | rfl)
  · exact Nat.lt_succ_of_lt (hF.fn hg)
  · exact Nat.lt_succ_self _

/-- Nodes are the same exactly if they are equal. -/
theorem eq_of_same {F : Forest} {a b : Expr} (ha : F.nodes a) (hb : F.nodes b)
    (h : a.same b = true) : a = b :=
  F.node_eq ha hb (by simpa [Expr.same] using h)

/-- The forest of nodes and lambdas that are listed. -/
def ofLists (es : List Expr) (fs : List Lambda) (hes : (es.map Expr.id).Nodup)
    (hfs : (fs.map Lambda.id).Nodup) (hpart : ∀ e ∈ es, ∀ d ∈ e.parts, d ∈ es)
    (hfn : ∀ e ∈ es, ∀ f, e.fn? = some f → f ∈ fs)
    (hparam : ∀ f ∈ fs, ∀ p ∈ f.params, .param p ∈ es)
    (hbody : ∀ f ∈ fs, f.body ∈ es) : Forest where
  nodes := (· ∈ es)
  fns := (· ∈ fs)
  node_eq ha hb h := List.inj_on_of_nodup_map hes ha hb h
  fn_eq hf hg h := List.inj_on_of_nodup_map hfs hf hg h
  part he := hpart _ he _
  fn he := hfn _ he _
  param hf := hparam _ hf _
  body := hbody _

theorem below_ofLists {es : List Expr} {fs : List Lambda} {hes hfs hpart hfn hparam hbody}
    {n : NodeId} (hn : ∀ i ∈ es.map Expr.id, i < n) (hn' : ∀ i ∈ fs.map Lambda.id, i < n) :
    (ofLists es fs hes hfs hpart hfn hparam hbody).Below n :=
  ⟨fun he => hn _ (List.mem_map_of_mem he), fun hf => hn' _ (List.mem_map_of_mem hf)⟩

end Forest

end ObjectMapping
