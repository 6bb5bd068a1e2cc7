import ObjectMapping.Tree.Equality
import ObjectMapping.Tree.Node
import ObjectMapping.Text.Uppercase

/-!
# Evaluation

`Expr.evaluate` gives the value of an expression with nothing in scope, `Function.call` the value of
a function on arguments, `Mapper.map` what a mapper makes of a value. An expression is evaluated by
recursion on its parts; a lambda becomes a function closed over the bindings in scope. Only a call
of a function goes back into other code, so calls are counted and a `Host` says how deeply they may
be nested. It also knows the mappers of filled references and the native implementations that come
from outside.

Every expression is prepared before it runs, once for each evaluation and once for each mapper. Two
functions are equal if they come from the same place of the same prepared code.
-/

namespace ObjectMapping

open RunM

/-! ## What evaluation depends on -/

/-- What a native implementation from outside wants to happen. -/
inductive Outcome where
  | value (v : Value)
  | failure (error : Failure)
  /-- the call of a function on arguments -/
  | call (f : Function) (args : List Value)

/-- What a native implementation from outside answers: lines for the log, and an outcome. -/
structure Reply where
  lines : List String := []
  outcome : Outcome

/-- What evaluation and expansion find around them. -/
structure Host where
  /-- how deeply calls may be nested -/
  depth : Nat
  /-- the mapper of a filled reference -/
  filled : MapperId → Option Mapper
  /-- a native implementation from outside, by name -/
  native : String → List Value → Reply
  /-- a mapper or reference that goes by a name -/
  directory : String → Option MapperHandle

/-- Gives the value, or fails. -/
def RunM.ofExcept {α : Type} : Except Failure α → RunM α
  | .ok a => pure a
  | .error e => fail e

/-! ## Operators on values -/

namespace Value

/-- The value of a field. -/
def field (name : String) : Value → Except Failure Value
  | .object _ typeName fields =>
    match Field.lookup name fields with
    | some v => .ok v
    | none => .error (.noSuchField typeName name)
  | .null => .error (.nullAccess name)
  | v => .error (.wrongKind name "object" v.kindName)

/-- The order of two numbers or texts. Texts are ordered by code points. -/
def order (op : BinaryOp) : Value → Value → Except Failure Ordering
  | .int a, .int b => .ok (compare a b)
  | .float a, .float b =>
    if a < b then .ok .lt
    else if a > b then .ok .gt
    else if a == b then .ok .eq
    else .error (.wrongKind op.symbol "comparable" "NaN")
  | .string a, .string b => .ok (compare a b)
  | a, _ => .error (.wrongKind op.symbol "comparable" a.kindName)

/-- The text of a value when it is appended to another. Null adds nothing. -/
def appendedText : Value → String
  | .null => ""
  | .string s => s
  | v => v.text

/-- The sum of two numbers; a text on either side makes it a concatenation. -/
def add : Value → Value → Except Failure Value
  | .int a, .int b => .ok (.int (a + b))
  | .float a, .float b => .ok (.float (a + b))
  | .string a, b => .ok (.string (a ++ b.appendedText))
  | a, .string b => .ok (.string (a.appendedText ++ b))
  | a, _ => .error (.wrongKind "+" "number or string" a.kindName)

/-- The difference of two numbers. -/
def subtract : Value → Value → Except Failure Value
  | .int a, .int b => .ok (.int (a - b))
  | .float a, .float b => .ok (.float (a - b))
  | a, _ => .error (.wrongKind "-" "number" a.kindName)

/-- The product of two numbers. -/
def multiply : Value → Value → Except Failure Value
  | .int a, .int b => .ok (.int (a * b))
  | .float a, .float b => .ok (.float (a * b))
  | a, _ => .error (.wrongKind "*" "number" a.kindName)

/-- The truth value that is needed in a context. -/
def truth (context : String) : Value → Except Failure Bool
  | .bool b => .ok b
  | v => .error (.wrongKind context "bool" v.kindName)

end Value

/-- An operator applied to an operand. -/
def UnaryOp.apply : UnaryOp → Value → Except Failure Value
  | .not, .bool b => .ok (.bool !b)
  | .negate, .int i => .ok (.int (-i))
  | .negate, .float x => .ok (.float (-x))
  | _, v => .error (.wrongKind "unary operator" "bool or number" v.kindName)

/-- An operator applied to two operands, both of which have a value already. -/
def BinaryOp.apply (op : BinaryOp) (a b : Value) : Except Failure Value :=
  match op with
  | .equal => .ok (.bool (a.equal b))
  | .notEqual => .ok (.bool !(a.equal b))
  | .less => return .bool (← a.order op b).isLT
  | .lessOrEqual => return .bool (← a.order op b).isLE
  | .greater => return .bool (← a.order op b).isGT
  | .greaterOrEqual => return .bool (← a.order op b).isGE
  | .add => a.add b
  | .subtract => a.subtract b
  | .multiply => a.multiply b
  | .and => return .bool ((← a.truth op.symbol) && (← b.truth op.symbol))
  | .or => return .bool ((← a.truth op.symbol) || (← b.truth op.symbol))

/-! ## Native implementations -/

/-- How a function is called from within an evaluation. -/
abbrev Caller := Function → List Value → RunM Value

namespace Mapper

/-- The prepared expression of a mapper. -/
def prepared (m : Mapper) : Function :=
  ⟨m.expression, [], ⟨.mapper m.id, []⟩, false⟩

/-- What a mapper makes of a value: the default output for the default input, else the value of its
expression. -/
def mapBy (call : Caller) (m : Mapper) (input : Value) : RunM Value :=
  if input.equal (.defaultOf m.input) then
    pure (.defaultOf m.output)
  else
    call m.prepared [input]

end Mapper

namespace Native

/-- The sequence that an argument is. -/
def givenSequence (context : String) :
    Option Value → Except Failure (SequenceKind × List Value)
  | some (.sequence kind items) => .ok (kind, items)
  | some .null | none => .error (.nullAccess context)
  | some v => .error (.wrongKind context "sequence" v.kindName)

/-- The mapper that an argument is, or refers to. -/
def givenMapper (host : Host) (context : String) : Option Value → Except Failure Mapper
  | some (.mapper m) => .ok m
  | some (.mapperReference ref) =>
    match host.filled ref.id with
    | some m => .ok m
    | none => .error .absentMapper
  | some .null | none => .error .absentMapper
  | some v => .error (.wrongKind context "mapper" v.kindName)

/-- The function that an argument is. -/
def givenFunction (context : String) : Option Value → Except Failure Function
  | some (.function f) => .ok f
  | none => .error (.nullAccess context)
  | some v => .error (.wrongKind context "function" v.kindName)

/-- The kind of sequence that mapping every item yields. -/
def mappedKind : SequenceKind → SequenceKind
  | .queryable => .queryable
  | _ => .enumerable

/-- Runs a native implementation on values, the receiver first. -/
def run (host : Host) (call : Caller) (args : List Value) : Native → RunM Value
  | .select kind => do
    let (_, items) ← ofExcept (givenSequence "Select" args.head?)
    let projection ← ofExcept (givenFunction "Select" args[1]?)
    return .sequence kind (← items.mapM fun item => call projection [item])
  | .convert kind => do
    let (_, items) ← ofExcept (givenSequence "conversion" args.head?)
    return .sequence kind items
  | .toUpper =>
    match args.head? with
    | some (.string s) => pure (.string (Text.upperCase s))
    | some .null | none => fail (.nullAccess "ToUpper")
    | some v => fail (.wrongKind "ToUpper" "string" v.kindName)
  | .mapWith => do
    let m ← ofExcept (givenMapper host "MapWith" args[1]?)
    m.mapBy call (args.head?.getD .null)
  | .mapAllWith => do
    let m ← ofExcept (givenMapper host "MapAllWith" args[1]?)
    let (kind, items) ← ofExcept (givenSequence "MapAllWith" args.head?)
    return .sequence (mappedKind kind) (← items.mapM (m.mapBy call))
  | .map => do
    let m ← ofExcept (givenMapper host "Map" args.head?)
    m.mapBy call (args[1]?.getD .null)
  | .custom name => do
    let reply := host.native name args
    reply.lines.forM note
    match reply.outcome with
    | .value v => return v
    | .failure e => fail e
    | .call f args => call f args

end Native

/-- Runs the native implementation of an operation. -/
def Operation.invokeBy (host : Host) (call : Caller) (operation : Operation)
    (args : List Value) : RunM Value :=
  match operation.native with
  | some native => native.run host call args
  | none => fail (.placeholderCalled operation.signature)

/-! ## Expressions -/

mutual

/-- The value of an expression at a place of prepared code, with bindings in scope. -/
def Expr.evalIn (host : Host) (call : Caller) (env : Env) (site : Site) : Expr → RunM Value
  | .param p =>
    match env.lookup p.id with
    | some v => pure v
    | none => fail (.unboundParam p.name)
  | .constant _ _ v => pure v
  | .default _ ty => pure (.defaultOf ty)
  | .member _ object field => do
    let v ← object.evalIn host call env (site.child 0)
    ofExcept (v.field field.name)
  | .unary _ _ op operand => do
    let v ← operand.evalIn host call env (site.child 0)
    ofExcept (op.apply v)
  | .binary _ _ op left right => do
    let v ← left.evalIn host call env (site.child 0)
    match op with
    | .and =>
      if ← ofExcept (v.truth op.symbol) then right.evalIn host call env (site.child 1)
      else return .bool false
    | .or =>
      if ← ofExcept (v.truth op.symbol) then return .bool true
      else right.evalIn host call env (site.child 1)
    | _ =>
      let w ← right.evalIn host call env (site.child 1)
      ofExcept (op.apply v w)
  | .conditional _ _ test ifTrue ifFalse => do
    let v ← test.evalIn host call env (site.child 0)
    if ← ofExcept (v.truth "conditional") then ifTrue.evalIn host call env (site.child 1)
    else ifFalse.evalIn host call env (site.child 2)
  | .call _ _ operation receiver arguments => do
    let vs ← Expr.evalOption host call env (site.child 0) receiver
    let ws ← Expr.evalList host call env (site.child 1) arguments
    operation.invokeBy host call (vs ++ ws)
  | .lambda _ f => pure (.function ⟨f, env, site, false⟩)
  | .quote _ f => pure (.function ⟨f, env, site, true⟩)
  | .construct _ ty arguments assignments => do
    let fields ← Assignment.evalList host call env (site.child 0) [] arguments
    let fields ← Assignment.evalList host call env (site.child 1) fields assignments
    return .object (← fresh) ty.text fields
  | .previous .. => fail .previousValueEvaluated

/-- The value of an expression that may be absent, as a list. -/
def Expr.evalOption (host : Host) (call : Caller) (env : Env) (site : Site) :
    Option Expr → RunM (List Value)
  | none => pure []
  | some e => do return [← e.evalIn host call env site]

/-- The values of expressions, from left to right. -/
def Expr.evalList (host : Host) (call : Caller) (env : Env) (site : Site) :
    List Expr → RunM (List Value)
  | [] => pure []
  | e :: rest => do
    let v ← e.evalIn host call env (site.child 0)
    return v :: (← Expr.evalList host call env (site.child 1) rest)

/-- Sets fields to the values of assignments, from left to right. -/
def Assignment.evalList (host : Host) (call : Caller) (env : Env) (site : Site)
    (fields : List Field) : List Assignment → RunM (List Field)
  | [] => pure fields
  | ⟨member, value⟩ :: rest => do
    let v ← value.evalIn host call env (site.child 0)
    Assignment.evalList host call env (site.child 1) (Field.set member.name v fields) rest

end

/-! ## Calls -/

/-- The bindings of parameters to arguments. -/
def Binding.ofArgs (params : List Param) (args : List Value) : List Binding :=
  params.zipWith (fun p v => ⟨p.id, v⟩) args

/-- Calls a function, with calls nested at most so deeply. -/
def Function.callWithin (host : Host) : Nat → Function → List Value → RunM Value
  | 0, _, _ => throw .exhausted
  | depth + 1, f, args =>
    if args.length ≠ f.lambda.params.length then
      reject (.valueCount f.lambda.params.length args.length)
    else
      f.lambda.body.evalIn host (callWithin host depth)
        (Binding.ofArgs f.lambda.params args :: f.env) (f.site.child 0)

/-- Calls a function on arguments. -/
def Function.call (host : Host) (f : Function) (args : List Value) : RunM Value :=
  f.callWithin host host.depth args

/-- The value of an expression with nothing in scope. -/
def Expr.evaluate (host : Host) (e : Expr) : RunM Value := do
  e.evalIn host (Function.call host) [] ⟨.run (← fresh), []⟩

/-- A lambda prepared to be called, with nothing in scope. -/
def Lambda.prepare (f : Lambda) : RunM Function := do
  return ⟨f, [], ⟨.run (← fresh), []⟩, false⟩

/-- Runs the native implementation of an operation on values, the receiver first. -/
def Operation.invoke (host : Host) (operation : Operation) (args : List Value) : RunM Value :=
  operation.invokeBy host (Function.call host) args

/-- What a mapper makes of a value. -/
def Mapper.map (host : Host) (m : Mapper) (input : Value) : RunM Value :=
  m.mapBy (Function.call host) input

/-- What a mapper makes of the items of a sequence, which it yields in the same order. -/
def Mapper.mapItems (host : Host) (m : Mapper) (items : List Value) : RunM Value := do
  return .sequence .enumerable (← items.mapM (m.map host))

end ObjectMapping
