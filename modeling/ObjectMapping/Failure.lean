import ObjectMapping.Operation

/-!
# What can go wrong

`Failure` lists the causes of failure with what is needed to tell them, `Failure.message` words
them, and `Failure.kind` sorts them into the few classes that a caller tells apart.
-/

namespace ObjectMapping

/-! ## Causes -/

/-- One of the two expressions of a merge. -/
inductive MergeSide where
  | source
  | extension
  deriving DecidableEq

/-- What is wrong with an argument. Expressions appear by their text. -/
inductive ArgumentFault where
  /-- a construction assigns a member twice -/
  | assignedTwice (member : String)
  /-- a construction gives a constructor argument twice -/
  | givenTwice (member : String)
  /-- a call has the wrong number of arguments -/
  | argumentCount (operation : Signature) (given : Nat)
  /-- a call has a receiver that it must not have, or lacks one -/
  | receiverPresence (operation : Signature)
  /-- a call site lacks an argument that its transformer reads -/
  | missingArgument (operation : Signature) (index : Nat)
  /-- a call site lacks the receiver that its transformer reads -/
  | missingReceiver
  /-- a lambda is given something else as a parameter -/
  | notParameter (expression : String)
  /-- a lambda is given a parameter twice -/
  | parameterTwice (name : String)
  /-- an expression of this type is neither a mapper nor a mapping expression -/
  | notMapper (ty : Ty)
  /-- an expression of this type is not a sequence -/
  | notSequence (ty : Ty)
  /-- an expression of this type is not a query -/
  | notQueryable (ty : Ty)
  /-- a function is called with the wrong number of values -/
  | valueCount (expected given : Nat)
  /-- a node would be replaced by itself -/
  | replacedByItself (node : String)
  /-- a node would come up again inside its own replacement -/
  | occursInReplacement (node : String)
  /-- a mapping expression that is inlined takes more or less than one parameter -/
  | inlinedParameterCount (lambda : String) (count : Nat)
  /-- a mapping expression is inlined over a source of another type -/
  | inlinedType (lambda : String) (input : Ty) (source : String) (sourceTy : Ty)
  /-- the expressions of a merge take different numbers of parameters -/
  | mergedParameterCount (extension source : Nat)
  /-- the expression of a mapper takes more or less than one parameter -/
  | mapperParameterCount (count : Nat)
  /-- the expression given to a reference maps between other types than declared -/
  | declaredTypes (input output declaredInput declaredOutput : Ty)
  deriving DecidableEq

/-- Why an operation of the library failed. -/
inductive Failure where
  /-- an argument is not acceptable -/
  | argument (fault : ArgumentFault)
  /-- an expression to be merged is not a construction -/
  | notConstruction (side : MergeSide)
  /-- no resolver knows a mapper for a call -/
  | noMapperFound (call : String)
  /-- a placeholder for an previous value has neither a value to stand for nor a fallback -/
  | previousValueMissing (member : String)
  /-- a placeholder for an previous value is evaluated -/
  | previousValueEvaluated
  /-- a mapper is null, or a reference whose expression has not been supplied -/
  | absentMapper
  /-- a mapper would be inlined into itself -/
  | selfInclusion
  /-- a call-site transformer cannot be made -/
  | transformerNotMade (transformer : String) (operation : Signature) (cause : String)
  /-- an operation carries several markers -/
  | multipleMarkers (operation : Signature)
  /-- no projection is known for a collection of this type -/
  | notProjectable (ty : Ty)
  /-- a reference was given its expression before -/
  | alreadyFilled
  /-- a placeholder operation is called -/
  | placeholderCalled (operation : Signature)
  /-- a lambda parameter became something else -/
  | parameterLost (name : String)
  /-- null was used where an object is needed -/
  | nullAccess (context : String)
  /-- a value of the wrong kind was used -/
  | wrongKind (context expected found : String)
  /-- an object lacks a field -/
  | noSuchField (typeName field : String)
  /-- a parameter has no value in scope -/
  | unboundParam (name : String)
  /-- a configuration is malformed, or a custom transformer rejects its input -/
  | configuration (message : String)
  /-- a file cannot be read -/
  | unreadable (message : String)
  deriving DecidableEq

/-! ## Wording -/

/-- The text of a side of a merge. -/
def MergeSide.text : MergeSide → String
  | .source => "source"
  | .extension => "extension"

/-- A count in a message. -/
def countText (n : Nat) : String :=
  String.ofList (Nat.toDigits 10 n)

namespace ArgumentFault

/-- The name of the argument at fault. -/
def argumentName : ArgumentFault → String
  | .assignedTwice _ => "assignments"
  | .givenTwice _ => "constructor"
  | .argumentCount .. | .missingArgument .. => "arguments"
  | .receiverPresence _ | .missingReceiver => "receiver"
  | .notParameter _ | .parameterTwice _ => "parameters"
  | .notMapper _ | .inlinedParameterCount .. | .inlinedType .. => "mapper"
  | .notSequence _ => "source"
  | .notQueryable _ | .mapperParameterCount _ | .declaredTypes .. => "expression"
  | .valueCount .. => "args"
  | .replacedByItself _ | .occursInReplacement _ => "replacements"
  | .mergedParameterCount .. => "extension"

/-- What is wrong with the argument, in words. -/
def message : ArgumentFault → String
  | .assignedTwice member => "member `" ++ member ++ "` is assigned more than once"
  | .givenTwice member => "constructor argument `" ++ member ++ "` is given more than once"
  | .argumentCount operation given =>
    "`" ++ operation.text ++ "` takes " ++ countText operation.arity ++ " arguments, " ++
      countText given ++ " given"
  | .receiverPresence operation => "receiver presence does not match `" ++ operation.text ++ "`"
  | .missingArgument operation index =>
    "`" ++ operation.text ++ "` is missing argument " ++ countText index
  | .missingReceiver => "`Map` is called without a mapper"
  | .notParameter expression => "`" ++ expression ++ "` is not a parameter"
  | .parameterTwice name => "parameter `" ++ name ++ "` is declared twice"
  | .notMapper ty => "`" ++ ty.text ++ "` is not a mapper or a mapping expression"
  | .notSequence ty => "`" ++ ty.text ++ "` is not a sequence"
  | .notQueryable ty => "`" ++ ty.text ++ "` is not queryable"
  | .valueCount expected given =>
    "expected " ++ countText expected ++ " arguments, " ++ countText given ++ " given"
  | .replacedByItself node => "`" ++ node ++ "` would be replaced by itself"
  | .occursInReplacement node => "`" ++ node ++ "` occurs in its own replacement"
  | .inlinedParameterCount lambda count =>
    "a mapping expression takes one parameter, `" ++ lambda ++ "` takes " ++ countText count
  | .inlinedType lambda input source sourceTy =>
    "`" ++ lambda ++ "` maps " ++ input.text ++ ", the source `" ++ source ++ "` is " ++
      sourceTy.text
  | .mergedParameterCount extension source =>
    "takes " ++ countText extension ++ " parameters, the source takes " ++ countText source
  | .mapperParameterCount count =>
    "a mapper expression takes one parameter, not " ++ countText count
  | .declaredTypes input output declaredInput declaredOutput =>
    "maps " ++ input.text ++ " -> " ++ output.text ++ ", the reference is declared " ++
      declaredInput.text ++ " -> " ++ declaredOutput.text

end ArgumentFault

namespace Failure

/-- The error in words. -/
def message : Failure → String
  | .argument fault => "Invalid argument `" ++ fault.argumentName ++ "`: " ++ fault.message
  | .notConstruction side =>
    "The " ++ side.text ++ " expression does not have a construction body"
  | .noMapperFound call => "Unable to resolve the mapper for the expression `" ++ call ++ "`"
  | .previousValueMissing member =>
    "Original value requested for `" ++ member ++
      "` with no fallback and no corresponding source assignment"
  | .previousValueEvaluated =>
    "Original value can only be used inside an expression given to merge"
  | .absentMapper => "The mapper is null"
  | .selfInclusion => "Recursive mapper inclusion is not allowed"
  | .transformerNotMade transformer operation _ =>
    "Failed to instantiate transformer `" ++ transformer ++ "` declared on `" ++
      operation.text ++ "`"
  | .multipleMarkers operation =>
    "Multiple transformer markers on one operation is unsupported: `" ++ operation.text ++ "`"
  | .notProjectable ty =>
    "Cannot find a projection for collection type `" ++ ty.text ++ "`"
  | .alreadyFilled => "An expression is already present"
  | .placeholderCalled operation =>
    "`" ++ operation.text ++
      "` should only be used in mapping expressions, or its transformer has not been applied"
  | .parameterLost name =>
    "Lambda parameter `" ++ name ++ "` was rewritten to a non-parameter expression"
  | .nullAccess context => "Null reference while evaluating `" ++ context ++ "`"
  | .wrongKind context expected found =>
    "Type mismatch in `" ++ context ++ "`: expected " ++ expected ++ ", found " ++ found
  | .noSuchField typeName field =>
    "Object of type `" ++ typeName ++ "` has no field `" ++ field ++ "`"
  | .unboundParam name => "Parameter `" ++ name ++ "` is not bound in this scope"
  | .configuration message => "Configuration error: " ++ message
  | .unreadable message => "IO error: " ++ message

end Failure

/-! ## Classes of errors -/

/-- A coarse class of errors. -/
inductive FailureClass where
  | badArgument
  | badState
  | unsupported
  | configuration
  deriving DecidableEq

/-- The class of an error. -/
def Failure.kind : Failure → FailureClass
  | .argument _ | .notConstruction _ => .badArgument
  | .notProjectable _ => .unsupported
  | .configuration _ | .unreadable _ => .configuration
  | _ => .badState

end ObjectMapping
