import ObjectMapping.Evaluation

/-!
# Ready-made native implementations

Natives that are of use in many operations, to be supplied to a session under their names.
-/

namespace ObjectMapping.Stock

/-- The ready-made natives: `first`, `count` and `list` give the first value, the number of values
and the list of them; `trace` writes the values to the log and gives the first; `apply` calls the
first, a function, on the rest. -/
def native (name : String) (args : List Value) : Reply :=
  match name with
  | "first" => { outcome := .value (args.head?.getD .null) }
  | "count" => { outcome := .value (.int (Int64.ofNat args.length)) }
  | "list" => { outcome := .value (.sequence .list args) }
  | "trace" =>
    { lines := ["trace " ++ " | ".intercalate (args.map Value.text)]
      outcome := .value (args.head?.getD .null) }
  | "apply" =>
    match args with
    | .function f :: rest => { outcome := .call f rest }
    | _ => { outcome := .failure (.nullAccess name) }
  | _ => { outcome := .failure (.nullAccess name) }

end ObjectMapping.Stock
