import ObjectMapping.Tree

/-!
# Structural equality

Two expressions are structurally equal when they have the same shape, the same static types and
equal leaves, up to the choice of the parameter nodes that their lambdas bind. A free parameter is
compared by name. Values are compared by content: objects without regard to the order of fields,
functions by the code they run, unevaluated lambdas structurally, mappers by identity. A float that
is not a number differs from itself, but one and the same object, and one and the same expression
outside all lambdas, always equals itself.
-/

namespace ObjectMapping

/-- The parameters bound at the same time on the left and on the right, the innermost first. -/
abbrev Scope := List (NodeId × NodeId)

namespace Scope

/-- Whether a parameter on the left corresponds to a parameter on the right: both are bound by
corresponding lambdas, or both are free and have the same name. -/
def relates (scope : Scope) (p q : Param) : Bool :=
  match scope.find? (·.1 == p.id) with
  | some (_, right) => right == q.id
  | none => !scope.any (·.2 == q.id) && p.name == q.name

/-- The scope inside two lambdas with these parameters. -/
def enter (scope : Scope) (ps qs : List Param) : Scope :=
  ((ps.zip qs).map fun (p, q) => (p.id, q.id)).reverse ++ scope

/-- Whether two expressions are equal in the scope, given whether their parts agree. Outside all
lambdas one and the same node is equal to itself whatever it holds; its parts are then not compared,
nor are those of expressions whose types differ. -/
@[macro_inline]
def admits (scope : Scope) (a b : Expr) (agree : Bool) : Bool :=
  (scope.isEmpty && a.same b) || (a.ty == b.ty && agree)

end Scope

/-- Whether every name of the second fields is a name of the first. -/
def Field.covers (fs gs : List Field) : Bool :=
  gs.all fun g => fs.any (·.name == g.name)

mutual

/-- Whether two expressions have the same shape and equal parts. -/
def Expr.agreesIn (scope : Scope) : Expr → Expr → Bool
  | .param p, .param q => scope.relates p q
  | .constant _ _ v, .constant _ _ w => v.equal w
  | .default .., .default .. => true
  | .member _ a m, .member _ b n => m.same n && scope.admits a b (a.agreesIn scope b)
  | .unary _ _ op a, .unary _ _ op' b => op == op' && scope.admits a b (a.agreesIn scope b)
  | .binary _ _ op a b, .binary _ _ op' a' b' =>
    op == op' && scope.admits a a' (a.agreesIn scope a') && scope.admits b b' (b.agreesIn scope b')
  | .conditional _ _ a b c, .conditional _ _ a' b' c' =>
    scope.admits a a' (a.agreesIn scope a') && scope.admits b b' (b.agreesIn scope b') &&
      scope.admits c c' (c.agreesIn scope c')
  | .call _ _ operation receiver arguments, .call _ _ operation' receiver' arguments' =>
    operation.signature == operation'.signature && Expr.agreeOption scope receiver receiver' &&
      Expr.agreeList scope arguments arguments'
  | .lambda _ f, .lambda _ g => f.agreesIn scope g
  | .quote _ f, .quote _ g => f.agreesIn scope g
  | .construct _ ty arguments assignments, .construct _ ty' arguments' assignments' =>
    ty == ty' && arguments.length == arguments'.length &&
      Assignment.agreeList scope arguments arguments' &&
      assignments.length == assignments'.length &&
      Assignment.agreeList scope assignments assignments'
  | .previous _ _ fallback, .previous _ _ fallback' => Expr.agreeOption scope fallback fallback'
  | _, _ => false
termination_by structural a => a

/-- Whether both expressions are absent, or present and equal in the scope. -/
def Expr.agreeOption (scope : Scope) : Option Expr → Option Expr → Bool
  | none, none => true
  | some a, some b => scope.admits a b (a.agreesIn scope b)
  | _, _ => false
termination_by structural a => a

/-- Whether the expressions at every place are equal in the scope. -/
def Expr.agreeList (scope : Scope) : List Expr → List Expr → Bool
  | [], [] => true
  | a :: as, b :: bs => scope.admits a b (a.agreesIn scope b) && Expr.agreeList scope as bs
  | _, _ => false
termination_by structural a => a

/-- Whether the assignments at every place set the same member to equal values. -/
def Assignment.agreeList (scope : Scope) : List Assignment → List Assignment → Bool
  | [], [] => true
  | ⟨m, a⟩ :: as, ⟨n, b⟩ :: bs =>
    m.same n && scope.admits a b (a.agreesIn scope b) && Assignment.agreeList scope as bs
  | _, _ => false
termination_by structural a => a

/-- Whether two lambdas take parameters of the same types and have equal bodies when their
parameters correspond. -/
def Lambda.agreesIn (scope : Scope) : Lambda → Lambda → Bool
  | ⟨_, ps, a⟩, ⟨_, qs, b⟩ =>
    ps.map (·.ty) == qs.map (·.ty) &&
      (scope.enter ps qs).admits a b (a.agreesIn (scope.enter ps qs) b)
termination_by structural a => a

/-- Equality of values. -/
def Value.equal : Value → Value → Bool
  | .null, .null => true
  | .bool a, .bool b => a == b
  | .int a, .int b => a == b
  | .float a, .float b => a == b
  | .string a, .string b => a == b
  | .object i s fs, .object j t gs =>
    i == j || (s == t && Field.covers fs gs && Field.covers gs fs && Field.allIn [] fs gs)
  | .sequence j xs, .sequence k ys =>
    j == k && xs.length == ys.length && Value.equalList xs ys
  | .function f, .function g => f.site == g.site
  | .expression f, .expression g => f.agreesIn [] g
  | .mapper m, .mapper n => m.id == n.id
  | .mapperReference r, .mapperReference r' => r.id == r'.id
  | _, _ => false
termination_by structural a => a

/-- Whether the values at every place are equal. -/
def Value.equalList : List Value → List Value → Bool
  | [], [] => true
  | v :: vs, w :: ws => v.equal w && Value.equalList vs ws
  | _, _ => false
termination_by structural a => a

/-- Whether the second fields have every first one, under its name and with an equal value. A field
under one of the names `seen` before is out of sight, as it is for a lookup. -/
def Field.allIn : List String → List Field → List Field → Bool
  | _, [], _ => true
  | seen, ⟨name, v⟩ :: fs, gs =>
    (seen.contains name ||
      match Field.lookup name gs with
      | some w => v.equal w
      | none => false) && Field.allIn (name :: seen) fs gs
termination_by structural _ a => a

end

/-- Structural equality of expressions. -/
def Expr.structurallyEqual (a b : Expr) : Bool :=
  Scope.admits [] a b (a.agreesIn [] b)

/-- Structural equality of lambdas. -/
def Lambda.structurallyEqual (f g : Lambda) : Bool :=
  f.agreesIn [] g

end ObjectMapping
