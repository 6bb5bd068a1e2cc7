import ObjectMapping.Tree.Traversal

/-!
# Substitution

`Expr.substitute` puts new nodes in place of old ones, which are found by identity: nodes that
merely look alike are left alone. The parts of a new node are replaced in turn, so that replacements
compose when one new node holds another old node.

For that to end, no old node may come up again below its own new node, directly or by way of other
replacements. `Replacement.check` refuses such lists before any tree is looked at. Replacements can
then be nested at most as deeply as the list is long, which is the bound that
`Visitor.replacing` is run with.
-/

namespace ObjectMapping

open RunM

/-- A node and what is to stand in its place. -/
structure Replacement where
  old : Expr
  new : Expr

namespace Replacement

/-- The new node for an old one, by the first replacement of that node. -/
def find? (replacements : List Replacement) (e : Expr) : Option Expr :=
  (replacements.find? (·.old.same e)).map (·.new)

/-- Whether a node is to be replaced. -/
def isOld (replacements : List Replacement) (e : Expr) : Bool :=
  replacements.any (·.old.same e)

/-! ## Which replacements lead to which -/

/-- The positions of the replacements that a replacement leads to: those whose old nodes are met on
the way down from the parts of its new node, in the order they are first met. -/
def leadsTo (replacements : List Replacement) (r : Replacement) : List Nat :=
  ((r.new.outermostBelow (isOld replacements)).filterMap fun e =>
    replacements.findIdx? (·.old.same e)).eraseDups

/-- Follows the replacements from position `i` on, where `path` is the way that led there and `done`
holds the positions that lead to no cycle. The result is what is done afterwards, or the position
that the way came back to. A way without repetition is no longer than the list. -/
def explore (next : Nat → List Nat) : Nat → List Nat → List Nat → Nat → Except Nat (List Nat)
  | 0, _, _, i => .error i
  | fuel + 1, path, done, i =>
    if done.contains i then .ok done
    else if path.contains i then .error i
    else do
      let done ← (next i).foldlM (explore next fuel (i :: path)) done
      return i :: done

/-- The position of a replacement that leads back to itself. -/
def cyclic? (replacements : List Replacement) : Option Nat :=
  let next i := (replacements[i]?.map (leadsTo replacements)).getD []
  let steps := replacements.length + 1
  match (List.range replacements.length).foldlM (explore next steps []) [] with
  | .ok _ => none
  | .error i => some i

/-- Refuses replacements of which one would replace a node by itself, or leads back to itself. -/
def check (replacements : List Replacement) : RunM Unit := do
  if let some r := replacements.find? (fun r => r.old.same r.new) then
    reject (.replacedByItself r.old.text)
  if let some r := (cyclic? replacements).bind (replacements[·]?) then
    reject (.occursInReplacement r.old.text)

end Replacement

/-- Replaces nodes, with replacements nested at most so deeply. -/
def Visitor.replacing (replacements : List Replacement) : Nat → Visitor RunM
  | 0 => ⟨fun e => do
      if Replacement.isOld replacements e then throw .exhausted
      return .enter⟩
  | depth + 1 => ⟨fun e =>
      match Replacement.find? replacements e with
      | some new => do return .put (← new.walk (Visitor.replacing replacements depth))
      | none => pure .enter⟩

/-- Replaces nodes of an expression. -/
def Expr.substitute (e : Expr) (replacements : List Replacement) : RunM Expr := do
  Replacement.check replacements
  (Visitor.replacing replacements replacements.length).apply e

/-- Replaces nodes of a lambda, parameters included. -/
def Lambda.substitute (f : Lambda) (replacements : List Replacement) : RunM Lambda := do
  Replacement.check replacements
  f.walk (Visitor.replacing replacements replacements.length)

/-- Whether a node occurs in an expression. -/
def Expr.occursIn (node tree : Expr) : Bool :=
  !(tree.outermost node.same).isEmpty

end ObjectMapping
