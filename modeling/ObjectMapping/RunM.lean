import ObjectMapping.Failure
import ObjectMapping.Tree

/-!
# Runs

A run takes fresh identities for the nodes and objects that it makes and collects the lines that
custom hooks write to its log. It ends with a result, with an error, or because calls were nested
too deeply. Identities and log lines stay taken and written when a run fails.

Hooks may do more than that in a run : they may make mappers and references of their own, each under
an identity that is taken for it, and keep something from one call to the next. `Trail.Grows` is
what comes of a trail when all identities are taken in that way.
-/

namespace ObjectMapping

/-! ## Trails -/

/-- A mapper, or a reference to one. -/
inductive MapperHandle where
  | mapper (m : Mapper)
  | ref (ref : MapperReference)

/-- The identity of the next mapper or reference, those made so far, and what hooks keep. -/
structure Register where
  nextMapper : MapperId := 1
  /-- the references, and the mappers that fill none -/
  made : List MapperHandle := []
  /-- what is kept, by the identity that it is kept under -/
  memory : List (NodeId × Value) := []

/-- An identity that no node has yet, the lines written so far, and the register. -/
structure Trail where
  next : Nat := 0
  log : List String := []
  register : Register := {}

namespace Trail

/-- One more line is written. -/
def noted (t : Trail) (line : String) : Trail :=
  { t with log := t.log ++ [line] }

/-- The identity of a mapper or reference is taken. -/
def taken (t : Trail) : Trail :=
  { t with register.nextMapper := t.register.nextMapper + 1 }

/-- A mapper or reference is put down as made. -/
def entered (t : Trail) (handle : MapperHandle) : Trail :=
  { t with register.made := t.register.made ++ [handle] }

/-- What comes of a trail in runs that give no identity back and give none twice. What is made while
a mapper is built is put down before the mapper. -/
inductive Grows : Trail → Trail → Prop
  /-- nodes are made, lines written and things kept -/
  | work {t u : Trail} : t.next ≤ u.next → u.register.nextMapper = t.register.nextMapper →
    u.register.made = t.register.made → Grows t u
  /-- a reference is made -/
  | refer {t : Trail} (input output : Ty) :
    Grows t (t.taken.entered (.ref ⟨t.register.nextMapper, input, output⟩))
  /-- a mapper is built anew -/
  | build {t u : Trail} {m : Mapper} : m.id = t.register.nextMapper → Grows t.taken u →
    Grows t (u.entered (.mapper m))
  /-- a mapper cannot be built -/
  | attempt {t u : Trail} : Grows t.taken u → Grows t u
  | trans {t u v : Trail} : Grows t u → Grows u v → Grows t v

theorem Grows.refl (t : Trail) : t.Grows t :=
  .work (Nat.le_refl _) rfl rfl

theorem Grows.next_le {t u : Trail} (h : t.Grows u) : t.next ≤ u.next := by
  induction h with
  | work hnext _ _ => exact hnext
  | refer => exact Nat.le_refl _
  | build _ _ ih | attempt _ ih => exact ih
  | trans _ _ ih ih' => exact Nat.le_trans ih ih'

theorem Grows.nextMapper_le {t u : Trail} (h : t.Grows u) :
    t.register.nextMapper ≤ u.register.nextMapper := by
  induction h with
  | work _ hnext _ => exact Nat.le_of_eq hnext.symm
  | refer => exact Nat.le_succ _
  | build _ _ ih | attempt _ ih => exact Nat.le_of_succ_le ih
  | trans _ _ ih ih' => exact Nat.le_trans ih ih'

end Trail

/-! ## Runs -/

/-- Why a run has no result. -/
inductive Fault where
  /-- the run failed -/
  | failed (error : Failure)
  /-- calls were nested more deeply than allowed -/
  | exhausted
  deriving DecidableEq

/-- A run that may fail. -/
abbrev RunM := ExceptT Fault (StateM Trail)

namespace RunM

/-- Fails. -/
def fail {α : Type} (error : Failure) : RunM α :=
  throw (.failed error)

/-- Fails for an unacceptable argument. -/
def reject {α : Type} (fault : ArgumentFault) : RunM α :=
  fail (.argument fault)

/-- Takes an identity that nothing has yet. -/
def fresh : RunM Nat :=
  modifyGet fun trail => (trail.next, { trail with next := trail.next + 1 })

/-- Writes a line to the log. -/
def note (line : String) : RunM Unit :=
  modify (·.noted line)

/-- Takes the identity of a mapper or reference. -/
def takeMapperId : RunM MapperId :=
  modifyGet fun trail => (trail.register.nextMapper, trail.taken)

/-- Puts a mapper or reference down as made. -/
def enter (handle : MapperHandle) : RunM Unit :=
  modify (·.entered handle)

/-- What was kept last under an identity. -/
def kept (id : NodeId) : RunM (Option Value) := do
  return (← get).register.memory.lookup id

/-- Keeps something under an identity. -/
def keep (id : NodeId) (v : Value) : RunM Unit :=
  modify fun trail =>
    { trail with register.memory := (id, v) :: trail.register.memory }

end RunM

end ObjectMapping
