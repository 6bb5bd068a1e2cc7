import ObjectMapping.Tree.Traversal

/-!
# Ready-made visitors
-/

namespace ObjectMapping.Stock

/-- Changes nothing. -/
def identity : Visitor RunM where
  judge _ := pure .enter

/-- Puts an expression in place of every parameter of a name. -/
def replacingNamed (name : String) (replacement : Expr) : Visitor RunM where
  judge
    | .param p => pure (if p.name = name then .put replacement else .enter)
    | _ => pure .enter

/-- Puts a new constant, greater by one, in place of every integer constant. -/
def incrementing : Visitor RunM where
  judge
    | .constant _ _ (.int i) => .put <$> Expr.mkInt (i + 1)
    | _ => pure .enter

/-- Puts the false branch in place of every choice. -/
def droppingGuards : Visitor RunM where
  judge
    | .conditional .. => pure .standIn
    | _ => pure .enter

end ObjectMapping.Stock
