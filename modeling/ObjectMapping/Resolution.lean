import ObjectMapping.Evaluation

/-!
# Finding mappers by type

An include that does not name its mapper asks resolvers for one. `MapperTable` knows mappers and
references by the pair of types they map between; `Resolver` is anything that may answer a request.
-/

namespace ObjectMapping

open RunM

/-! ## Mappers and references -/

namespace MapperHandle

/-- The identity of a mapper or reference. -/
def id : MapperHandle → MapperId
  | .mapper m => m.id
  | .ref r => r.id

/-- The type that is mapped from. -/
def input : MapperHandle → Ty
  | .mapper m => m.input
  | .ref r => r.input

/-- The type that is mapped to. -/
def output : MapperHandle → Ty
  | .mapper m => m.output
  | .ref r => r.output

/-- The mapper itself; a reference must be filled. -/
def mapper? (host : Host) : MapperHandle → Option Mapper
  | .mapper m => some m
  | .ref r => host.filled r.id

end MapperHandle

/-! ## Tables of mappers -/

/-- Mappers and references, at most one for each pair of types. -/
structure MapperTable where
  entries : List MapperHandle := []

namespace MapperTable

/-- The entry for a pair of types. -/
def get? (table : MapperTable) (input output : Ty) : Option MapperHandle :=
  table.entries.find? fun entry => entry.input == input && entry.output == output

/-- Enters a mapper or reference, in place of any entry for the same pair of types. -/
def enter (table : MapperTable) (handle : MapperHandle) : MapperTable :=
  ⟨handle :: table.entries.filter fun entry =>
    !(entry.input == handle.input && entry.output == handle.output)⟩

/-- How many pairs of types have an entry. -/
def size (table : MapperTable) : Nat :=
  table.entries.length

end MapperTable

/-! ## Resolvers -/

/-- What a resolver is asked for: a mapper between two types, needed by a call of an operation. -/
structure MapperRequest where
  operation : Operation
  input : Ty
  output : Ty

/-- Anything that may know a mapper. It cannot fail, and it may write to the log, keep things, and
make mappers and references before it answers. -/
structure Resolver where
  ask : Host → MapperRequest → StateM Trail (Option MapperHandle)
  grows (host : Host) (request : MapperRequest) (t : Trail) : t.Grows (ask host request t).2

namespace Resolver

/-- Asks a table. -/
def ofTable (table : MapperTable) : Resolver where
  ask _ request := pure (table.get? request.input request.output)
  grows _ _ t := .refl t

/-- Answers every request with whatever goes by a name at that time, and writes the request to the
log under a title. -/
def named (title : String) (name : Option String) : Resolver where
  ask host request := do
    modify (·.noted (title ++ ": " ++ request.operation.signature.text ++ " " ++
      request.input.text ++ " -> " ++ request.output.text))
    return name.bind host.directory
  grows _ _ _ := .work (Nat.le_refl _) rfl rfl

/-- The answer of the first resolver that knows a mapper. -/
def askAll (host : Host) (request : MapperRequest) : List Resolver → RunM (Option MapperHandle)
  | [] => pure none
  | resolver :: rest => do
    match ← resolver.ask host request with
    | some handle => return some handle
    | none => askAll host request rest

end Resolver

end ObjectMapping
