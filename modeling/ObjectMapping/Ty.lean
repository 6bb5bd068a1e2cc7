/-!
# Types of mapped data

A `Ty` describes the values an expression yields: scalars, objects known by name, sequences of three
kinds, functions, unevaluated functions and mappers. Types are compared by structure. What a
sequence type can be used as is its list of capabilities: a queryable sequence is also enumerable.

A `Member` is a field of an object type, known by its declaring type and its name alone.
-/

namespace ObjectMapping

/-! ## Types -/

/-- How the items of a sequence are obtained. -/
inductive SequenceKind where
  /-- enumerated in memory, one item after the other -/
  | enumerable
  /-- held in memory as a list -/
  | list
  /-- a deferred query -/
  | queryable
  deriving DecidableEq

/-- The type of an expression and of the values it yields. -/
inductive Ty where
  | bool
  | int
  | float
  | string
  | object (name : String)
  | sequence (kind : SequenceKind) (element : Ty)
  | function (params : List Ty) (result : Ty)
  /-- a function that is passed on unevaluated -/
  | quoted (params : List Ty) (result : Ty)
  | mapper (input output : Ty)
  deriving Inhabited

namespace Ty

mutual

/-- Whether two types are built alike. -/
def beq : Ty → Ty → Bool
  | .bool, .bool => true
  | .int, .int => true
  | .float, .float => true
  | .string, .string => true
  | .object m, .object n => m == n
  | .sequence j s, .sequence k t => j == k && s.beq t
  | .function ps r, .function qs s => beqList ps qs && r.beq s
  | .quoted ps r, .quoted qs s => beqList ps qs && r.beq s
  | .mapper i o, .mapper i' o' => i.beq i' && o.beq o'
  | _, _ => false

/-- Whether two lists of types have types built alike at every place. -/
def beqList : List Ty → List Ty → Bool
  | [], [] => true
  | s :: ss, t :: ts => s.beq t && beqList ss ts
  | _, _ => false

end

mutual

/-- Types built alike are equal. -/
theorem beq_iff : ∀ s t : Ty, s.beq t = true ↔ s = t
  | .bool, t => by cases t <;> simp [beq]
  | .int, t => by cases t <;> simp [beq]
  | .float, t => by cases t <;> simp [beq]
  | .string, t => by cases t <;> simp [beq]
  | .object m, t => by cases t <;> simp [beq]
  | .sequence _ s, t => by
    cases t with
    | sequence _ t => simp [beq, beq_iff s t]
    | _ => simp [beq]
  | .function ps r, t => by
    cases t with
    | function qs s => simp [beq, beqList_iff ps qs, beq_iff r s]
    | _ => simp [beq]
  | .quoted ps r, t => by
    cases t with
    | quoted qs s => simp [beq, beqList_iff ps qs, beq_iff r s]
    | _ => simp [beq]
  | .mapper i o, t => by
    cases t with
    | mapper i' o' => simp [beq, beq_iff i i', beq_iff o o']
    | _ => simp [beq]

/-- Lists of types built alike are equal. -/
theorem beqList_iff : ∀ ss ts : List Ty, beqList ss ts = true ↔ ss = ts
  | [], ts => by cases ts <;> simp [beqList]
  | s :: ss, ts => by
    cases ts with
    | nil => simp [beqList]
    | cons t ts => simp [beqList, beq_iff s t, beqList_iff ss ts]

end

instance : DecidableEq Ty := fun s t => decidable_of_iff _ (beq_iff s t)

end Ty

/-! ## What a type can be used as -/

/-- A way to treat the values of a type, with the type of the items. -/
inductive Capability where
  | enumerable (element : Ty)
  | queryable (element : Ty)
  deriving DecidableEq

namespace Ty

/-- Value types have a default that is not null. -/
def isValueType : Ty → Bool
  | .bool | .int | .float => true
  | _ => false

/-- What the values of the type can be treated as, the most capable form first. -/
def capabilities : Ty → List Capability
  | .sequence .queryable element => [.queryable element, .enumerable element]
  | .sequence _ element => [.enumerable element]
  | _ => []

/-- The type of the items, if the values can be queried. -/
def queryItemTy? (ty : Ty) : Option Ty :=
  ty.capabilities.findSome? fun
    | .queryable element => some element
    | .enumerable _ => none

/-- The type of the items, if the values can be enumerated. -/
def itemTy? (ty : Ty) : Option Ty :=
  ty.capabilities.findSome? fun
    | .enumerable element => some element
    | .queryable _ => none

/-- The kind of a sequence type. -/
def kind? : Ty → Option SequenceKind
  | .sequence kind _ => some kind
  | _ => none

/-- Exactly the sequence types can be enumerated, over their items. -/
theorem itemTy?_eq_some_iff {ty element : Ty} :
    ty.itemTy? = some element ↔ ∃ kind, ty = .sequence kind element := by
  cases ty with
  | sequence kind t => cases kind <;> simp [itemTy?, capabilities]
  | _ => simp [itemTy?, capabilities]

/-! ## Text -/

mutual

/-- The text of a type. -/
def text : Ty → String
  | .bool => "bool"
  | .int => "int"
  | .float => "float"
  | .string => "string"
  | .object name => name
  | .sequence .enumerable element => "IEnumerable<" ++ element.text ++ ">"
  | .sequence .list element => "List<" ++ element.text ++ ">"
  | .sequence .queryable element => "IQueryable<" ++ element.text ++ ">"
  | .function params result => "Func<" ++ textList params ++ result.text ++ ">"
  | .quoted params result => "Expression<Func<" ++ textList params ++ result.text ++ ">>"
  | .mapper input output => "IMapper<" ++ input.text ++ ", " ++ output.text ++ ">"

/-- The texts of types, each followed by a comma. -/
def textList : List Ty → String
  | [] => ""
  | ty :: rest => ty.text ++ ", " ++ textList rest

end

end Ty

/-! ## Members -/

/-- A field of an object type, with the type of its values. -/
structure Member where
  owner : String
  name : String
  ty : Ty

namespace Member

/-- Whether two members are the same one: declared by the same type under the same name. The type
of the values plays no part. -/
def same (a b : Member) : Bool :=
  a.owner == b.owner && a.name == b.name

/-- The text of a member. -/
def text (m : Member) : String :=
  m.owner ++ "." ++ m.name

@[simp]
theorem same_iff {a b : Member} :
    a.same b = true ↔ a.owner = b.owner ∧ a.name = b.name := by
  simp [same]

end Member

end ObjectMapping
