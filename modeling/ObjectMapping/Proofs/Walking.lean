import ObjectMapping.Proofs.Forest
import ObjectMapping.Tree.Traversal

/-!
# Visits, part by part

The visit to a node goes through its parts from left to right, or through the lambda that it holds,
and makes the node anew over what has come out if any of it is another node. `Expr.withParts` is a
node over other parts and `Expr.withFn` over another lambda. `Expr.walk_of_parts` and
`Expr.walk_of_fn` say this for every kind of node at once, and `Lambda.walk_eq` says it of a lambda,
so that what holds of all visits is shown for the parts of a node, whatever kind of node it is.

`Expr.MadeOver` is the relation between a node and the one that is made anew over other parts. It
has a case for each kind of node, so that what such a node keeps is read off by cases.
-/

namespace ObjectMapping

/-! ## Nodes over other parts -/

/-- The assignments with other values. -/
def Assignment.withValues (as : List Assignment) (ds : List Expr) : List Assignment :=
  List.zipWith (fun a d => ⟨a.member, d⟩) as ds

/-- The node over other parts. A node without parts stays what it is. -/
def Expr.withParts (i : NodeId) : Expr → List Expr → Expr
  | .member _ _ m, [o] => .member i o m
  | .unary _ ty op _, [a] => .unary i ty op a
  | .binary _ ty op _ _, [a, b] => .binary i ty op a b
  | .conditional _ ty _ _ _, [a, b, c] => .conditional i ty a b c
  | .call _ ty op none _, arguments => .call i ty op none arguments
  | .call _ ty op (some _) _, r :: arguments => .call i ty op (some r) arguments
  | .construct _ ty as bs, ds =>
    .construct i ty (Assignment.withValues as ds) (Assignment.withValues bs (ds.drop as.length))
  | .previous _ ty fallback, ds => .previous i ty (fallback.bind fun _ => ds.head?)
  | e, _ => e

/-- The node over another lambda. -/
def Expr.withFn (i : NodeId) (f : Lambda) : Expr → Expr
  | .lambda .. => .lambda i f
  | .quote .. => .quote i f
  | e => e

namespace Assignment

variable {as : List Assignment} {ds : List Expr}

theorem withValues_cons (a : Assignment) (d : Expr) :
    withValues (a :: as) (d :: ds) = ⟨a.member, d⟩ :: withValues as ds :=
  rfl

theorem withValues_append (h : ds.length = as.length) (ds' : List Expr) :
    withValues as (ds ++ ds') = withValues as ds := by
  induction as generalizing ds with
  | nil => rfl
  | cons a as ih =>
    cases ds with
    | nil => cases h
    | cons d ds => rw [List.cons_append, withValues_cons, withValues_cons, ih (Nat.succ.inj h)]

theorem map_value_withValues (h : ds.length = as.length) :
    (withValues as ds).map (·.value) = ds := by
  induction as generalizing ds with
  | nil => exact (List.eq_nil_of_length_eq_zero h).symm
  | cons a as ih =>
    cases ds with
    | nil => cases h
    | cons d ds => rw [withValues_cons, List.map_cons, ih (Nat.succ.inj h)]

theorem map_member_withValues (h : ds.length = as.length) :
    (withValues as ds).map (·.member) = as.map (·.member) := by
  induction as generalizing ds with
  | nil => rfl
  | cons a as ih =>
    cases ds with
    | nil => cases h
    | cons d ds => rw [withValues_cons, List.map_cons, List.map_cons, ih (Nat.succ.inj h)]

/-- Assignments to the same members are known by their values. -/
theorem withValues_eq {bs : List Assignment} (h : bs.map (·.member) = as.map (·.member)) :
    withValues as (bs.map (·.value)) = bs := by
  induction as generalizing bs with
  | nil => exact (List.map_eq_nil_iff.1 h).symm
  | cons a as ih =>
    cases bs with
    | nil => cases h
    | cons b bs =>
      obtain ⟨m, d⟩ := b
      obtain ⟨rfl, hmembers⟩ : m = a.member ∧ _ := List.cons.inj h
      rw [List.map_cons, withValues_cons, ih hmembers]

theorem sameAll_eq (as bs : List Assignment) :
    sameAll as bs = Expr.sameAll (as.map (·.value)) (bs.map (·.value)) := by
  simp [sameAll, Expr.sameAll, List.zip_map, List.all_map, Function.comp_def]

end Assignment

/-- The last node is the first one, which holds no lambda, made anew over the parts. -/
inductive Expr.MadeOver (i : NodeId) : Expr → List Expr → Expr → Prop
  | param (p : Param) : MadeOver i (.param p) [] (.param p)
  | constant (id : NodeId) (ty : Ty) (v : Value) :
    MadeOver i (.constant id ty v) [] (.constant id ty v)
  | default (id : NodeId) (ty : Ty) : MadeOver i (.default id ty) [] (.default id ty)
  | member {id : NodeId} {m : Member} {o o' : Expr} :
    MadeOver i (.member id o m) [o'] (.member i o' m)
  | unary {id : NodeId} {ty : Ty} {op : UnaryOp} {a a' : Expr} :
    MadeOver i (.unary id ty op a) [a'] (.unary i ty op a')
  | binary {id : NodeId} {ty : Ty} {op : BinaryOp} {a b a' b' : Expr} :
    MadeOver i (.binary id ty op a b) [a', b'] (.binary i ty op a' b')
  | conditional {id : NodeId} {ty : Ty} {a b c a' b' c' : Expr} :
    MadeOver i (.conditional id ty a b c) [a', b', c'] (.conditional i ty a' b' c')
  | call {id : NodeId} {ty : Ty} {op : Operation} {r r' : Option Expr} {as as' : List Expr} :
    r'.toList.length = r.toList.length → as'.length = as.length →
    MadeOver i (.call id ty op r as) (r'.toList ++ as') (.call i ty op r' as')
  | construct {id : NodeId} {ty : Ty} {as as' bs bs' : List Assignment} :
    as'.map (·.member) = as.map (·.member) → bs'.map (·.member) = bs.map (·.member) →
    MadeOver i (.construct id ty as bs) (as'.map (·.value) ++ bs'.map (·.value))
      (.construct i ty as' bs')
  | previous {id : NodeId} {ty : Ty} {d d' : Option Expr} :
    d'.toList.length = d.toList.length →
    MadeOver i (.previous id ty d) d'.toList (.previous i ty d')

namespace Expr

variable {i : NodeId} {e e' : Expr} {ds : List Expr}

theorem sameAll_append {as bs as' bs' : List Expr} (h : as.length = as'.length) :
    sameAll (as ++ bs) (as' ++ bs') = (sameAll as as' && sameAll bs bs') := by
  rw [sameAll, List.zip_append h, List.all_append]
  rfl

theorem madeOver_withParts (i : NodeId) (hfn : e.fn? = none) (h : ds.length = e.parts.length) :
    MadeOver i e ds (e.withParts i ds) := by
  have nil (h : ds.length = 0) : ds = [] := List.eq_nil_of_length_eq_zero h
  cases e with
  | lambda | quote => cases hfn
  | param | constant | default =>
    obtain rfl := nil h
    constructor
  | member | unary =>
    obtain ⟨a, rfl⟩ := List.length_eq_one_iff.1 h
    constructor
  | binary =>
    obtain ⟨a, b, rfl⟩ := List.length_eq_two.1 h
    exact .binary
  | conditional =>
    obtain ⟨a, b, c, rfl⟩ := List.length_eq_three.1 h
    exact .conditional
  | call id ty op receiver arguments =>
    cases receiver with
    | none => exact @MadeOver.call i id ty op none none arguments ds rfl h
    | some r =>
      obtain ⟨d, ds, rfl⟩ := List.exists_cons_of_length_eq_add_one h
      exact @MadeOver.call i id ty op (some r) (some d) arguments ds rfl (Nat.succ.inj h)
  | construct id ty as bs =>
    have hlength : ds.length = as.length + bs.length := by simpa [parts] using h
    obtain ⟨ds₁, ds₂, rfl, h₁⟩ : ∃ ds₁ ds₂, ds = ds₁ ++ ds₂ ∧ ds₁.length = as.length :=
      ⟨ds.take as.length, ds.drop as.length, by simp, by simp; omega⟩
    have h₂ : ds₂.length = bs.length := by
      rw [List.length_append] at hlength
      omega
    rw [withParts, ← h₁, List.drop_left, Assignment.withValues_append h₁]
    have hmade := @MadeOver.construct i id ty _ _ _ _ (Assignment.map_member_withValues h₁)
      (Assignment.map_member_withValues h₂)
    rwa [Assignment.map_value_withValues h₁, Assignment.map_value_withValues h₂] at hmade
  | previous id ty fallback =>
    cases fallback with
    | none =>
      obtain rfl := nil h
      exact @MadeOver.previous i id ty none none rfl
    | some d =>
      obtain ⟨a, rfl⟩ := List.length_eq_one_iff.1 h
      exact @MadeOver.previous i id ty (some d) (some a) rfl

namespace MadeOver

theorem self (hfn : e.fn? = none) : MadeOver e.id e e.parts e := by
  cases e with
  | lambda | quote => cases hfn
  | call => exact .call rfl rfl
  | construct => exact .construct rfl rfl
  | previous => exact .previous rfl
  | _ => constructor

theorem parts_eq (h : MadeOver i e ds e') : e'.parts = ds := by
  cases h <;> rfl

theorem fn?_eq (h : MadeOver i e ds e') : e'.fn? = none := by
  cases h <;> rfl

/-- There is one node that is made anew over the parts. -/
theorem eq_withParts (h : MadeOver i e ds e') : e' = e.withParts i ds := by
  cases h with
  | @call _ _ _ r r' _ _ hr =>
    cases r <;> cases r' <;> simp_all [withParts]
  | @construct _ _ as as' _ _ hma hmb =>
    have hlength : (as'.map (·.value)).length = as.length := by
      simpa using congrArg List.length hma
    rw [withParts, Assignment.withValues_append hlength, ← hlength, List.drop_left,
      Assignment.withValues_eq hma, Assignment.withValues_eq hmb]
  | @previous _ _ d d' hd =>
    cases d <;> cases d' <;> simp_all [withParts]
  | _ => rfl

/-- The node is the one made anew over its own parts, after it has been made anew. -/
theorem symm (h : MadeOver i e ds e') : MadeOver e.id e' e.parts e := by
  cases h with
  | call hr ha => exact .call hr.symm ha.symm
  | construct hma hmb => exact .construct hma.symm hmb.symm
  | previous hd => exact .previous hd.symm
  | _ => constructor

theorem trans {j : NodeId} {ds' : List Expr} {e'' : Expr} (h : MadeOver i e ds e')
    (h' : MadeOver j e' ds' e'') : MadeOver j e ds' e'' := by
  cases h with
  | call hr ha =>
    cases h' with | call hr' ha' =>
    exact .call (hr'.trans hr) (ha'.trans ha)
  | construct hma hmb =>
    cases h' with | construct hma' hmb' =>
    exact .construct (hma'.trans hma) (hmb'.trans hmb)
  | previous hd =>
    cases h' with | previous hd' =>
    exact .previous (hd'.trans hd)
  | _ =>
    cases h'
    constructor

/-- A node of which a part has changed takes the identity that it is given. -/
theorem id_eq (h : MadeOver i e ds e') (hsame : sameAll ds e.parts = false) : e'.id = i := by
  cases h with
  | param | constant | default => cases hsame
  | _ => rfl

end MadeOver

section

variable {f g : Lambda}

theorem withFn_self (h : e.fn? = some f) : e.withFn e.id f = e := by
  cases e <;> cases h <;> rfl

theorem withFn_withFn (h : e.fn? = some f) {i j : NodeId} {g g' : Lambda} :
    (e.withFn i g).withFn j g' = e.withFn j g' := by
  cases e <;> cases h <;> rfl

theorem fn?_withFn (h : e.fn? = some f) : (e.withFn i g).fn? = some g := by
  cases e <;> cases h <;> rfl

theorem id_withFn (h : e.fn? = some f) : (e.withFn i g).id = i := by
  cases e <;> cases h <;> rfl

end

end Expr

/-! ## Visits -/

section

variable {m : Type → Type} [Monad m] [MonadLiftT RunM m] {v : Visitor m}

/-- The node itself if nothing has changed, else a new one. -/
def Expr.keepOrRemake (same : Bool) (e : Expr) (make : NodeId → Expr) : m Expr :=
  if same then return e else Expr.remake make

theorem Expr.walkList_cons (e : Expr) (es : List Expr) :
    Expr.walkList v (e :: es) = do return (← v.apply e) :: (← Expr.walkList v es) :=
  rfl

theorem Param.walkList_eq (ps : List Param) :
    Param.walkList v ps = Expr.walkList v (ps.map .param) := by
  induction ps with
  | nil => rfl
  | cons p ps ih =>
    rw [Param.walkList, ih]
    rfl

/-- The visit to a lambda goes through its parameters, and then to its body. -/
theorem Lambda.walk_eq (f : Lambda) : f.walk v = (do
    let es ← Expr.walkList v f.paramExprs
    (Param.requireParams f.params es : RunM Unit)
    let b ← v.apply f.body
    if Expr.sameAll es f.paramExprs && b.same f.body then return f
    (Lambda.ofExprs es b : RunM Lambda)) := by
  obtain ⟨i, ps, b⟩ := f
  rw [Lambda.walk, Param.walkList_eq]
  rfl

variable [LawfulMonad m]

theorem Expr.walkList_append (es ds : List Expr) :
    Expr.walkList v (es ++ ds) =
      do return (← Expr.walkList v es) ++ (← Expr.walkList v ds) := by
  induction es with
  | nil => simp [Expr.walkList]
  | cons e es ih => simp [Expr.walkList_cons, ih]

/-- What follows the visit to a list only matters on lists of its length. -/
theorem Expr.walkList_bind_congr {α : Type} {es : List Expr} {f g : List Expr → m α}
    (h : ∀ ds, ds.length = es.length → f ds = g ds) :
    Expr.walkList v es >>= f = Expr.walkList v es >>= g := by
  induction es generalizing f g with
  | nil => simp [Expr.walkList, h []]
  | cons e es ih =>
    simp only [Expr.walkList_cons, bind_assoc, pure_bind]
    exact bind_congr fun e' => ih fun ds hds => h (e' :: ds) (by simp [hds])

theorem Assignment.walkList_eq (as : List Assignment) :
    Assignment.walkList v as =
      do return Assignment.withValues as (← Expr.walkList v (as.map (·.value))) := by
  induction as with
  | nil => simp [Assignment.walkList, Expr.walkList, Assignment.withValues]
  | cons a as ih =>
    obtain ⟨m, e⟩ := a
    simp [Assignment.walkList, Expr.walkList_cons, ih, Assignment.withValues_cons, Visitor.apply]

/-- The visit to a node without a lambda goes through its parts. -/
theorem Expr.walk_of_parts {e : Expr} (h : e.fn? = none) : e.walk v = (do
    let ds ← Expr.walkList v e.parts
    Expr.keepOrRemake (Expr.sameAll ds e.parts) e (e.withParts · ds)) := by
  have cons (a b : Expr) (as bs : List Expr) :
      sameAll (a :: as) (b :: bs) = (a.same b && sameAll as bs) := rfl
  have nil (as : List Expr) : sameAll [] as = true := rfl
  cases e with
  | lambda | quote => cases h
  | param | constant | default => simp [walk, parts, walkList, nil, keepOrRemake]
  | member | unary | binary | conditional =>
    simp [walk, parts, walkList, withParts, cons, nil, keepOrRemake, Bool.and_assoc]
  | call id ty op receiver arguments =>
    cases receiver with
    | none =>
      simp only [walk, walkOption, pure_bind]
      rfl
    | some r =>
      simp [walk, walkOption, parts, withParts, sameOption, walkList_cons, Visitor.apply, cons,
        keepOrRemake]
  | construct id ty as bs =>
    simp only [walk, Assignment.walkList_eq, parts, walkList_append, bind_assoc, pure_bind]
    refine walkList_bind_congr fun as' has => walkList_bind_congr fun bs' hbs => ?_
    rw [List.length_map] at has hbs
    rw [sameAll_append (by simpa using has), Assignment.sameAll_eq, Assignment.sameAll_eq,
      Assignment.map_value_withValues has, Assignment.map_value_withValues hbs]
    simp only [withParts, Assignment.withValues_append has, ← has, List.drop_left]
    rfl
  | previous id ty fallback =>
    cases fallback with
    | none => simp [walk, walkOption, parts, walkList, sameOption, nil, keepOrRemake]
    | some d =>
      simp only [walk, walkOption, parts, Option.toList, walkList, cons, nil, Bool.and_true,
        bind_assoc, pure_bind]
      rfl

omit [LawfulMonad m] in
/-- The visit to a node with a lambda goes to that. -/
theorem Expr.walk_of_fn {e : Expr} {f : Lambda} (h : e.fn? = some f) : e.walk v = (do
    let f' ← f.walk v
    Expr.keepOrRemake (f'.same f) e (e.withFn · f')) := by
  cases e with
  | lambda | quote =>
    obtain rfl := Option.some.inj h
    rfl
  | _ => cases h

end

end ObjectMapping
