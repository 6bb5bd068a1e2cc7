import ObjectMapping.Ty

/-!
# Operations

An operation is what a call expression calls. It is known by its signature; it may have a native
implementation, which evaluation runs, and it may carry markers, each of which names a call-site
transformer that expands calls to it. An operation without a native implementation is a placeholder
that only exists to be expanded away.

Markers and natives are names here. What the built-in ones do is defined with the expansion of call
sites and with evaluation; a custom one is supplied from outside under its name.
-/

namespace ObjectMapping

/-! ## Signatures, markers and natives -/

/-- The signature by which an operation is known. The arity does not count the receiver. -/
structure Signature where
  owner : String
  name : String
  arity : Nat
  hasReceiver : Bool
  deriving DecidableEq

/-- The text of a signature. -/
def Signature.text (signature : Signature) : String :=
  signature.owner ++ "." ++ signature.name ++ "/" ++
    String.ofList (Nat.toDigits 10 signature.arity)

/-- Names the call-site transformer that expands calls to an operation. -/
inductive Marker where
  /-- inlines the mapper that is the second argument -/
  | includeGiven
  /-- inlines the mapper that the resolvers find -/
  | includeResolved
  /-- inlines the mapper that is the second argument, guarded against the default input -/
  | mapWith
  /-- inlines the mapper that is the second argument into a projection -/
  | mapAllWith
  /-- inlines the mapper that is the receiver, guarded against the default input -/
  | map
  /-- a transformer supplied from outside -/
  | custom (name : String)
  deriving DecidableEq

/-- The name of a marker's transformer. -/
def Marker.name : Marker → String
  | .includeGiven => "IncludeTransformer"
  | .includeResolved => "IncludeResolvedTransformer"
  | .mapWith => "MapWithObjectTransformer"
  | .mapAllWith => "MapWithCollectionTransformer"
  | .map => "MapTransformer"
  | .custom name => name

/-- Names the native implementation of an operation. -/
inductive Native where
  /-- projects the items of the first argument through the second, into a sequence of this kind -/
  | select (kind : SequenceKind)
  /-- gives the items of the first argument as a sequence of this kind -/
  | convert (kind : SequenceKind)
  /-- gives the receiver in upper case -/
  | toUpper
  /-- maps the first argument with the mapper that is the second -/
  | mapWith
  /-- maps every item of the first argument with the mapper that is the second -/
  | mapAllWith
  /-- maps the first argument with the mapper that is the receiver -/
  | map
  /-- an implementation supplied from outside -/
  | custom (name : String)
  deriving DecidableEq

/-- What a call expression calls. -/
structure Operation where
  signature : Signature
  markers : List Marker
  native : Option Native
  deriving DecidableEq

namespace Operation

/-- A placeholder has no native implementation. -/
def isPlaceholder (operation : Operation) : Bool :=
  operation.native.isNone

/-! ## The built-in operations -/

/-- Projects a sequence in memory. -/
def enumerableSelect : Operation :=
  ⟨⟨"Enumerable", "Select", 2, false⟩, [], some (.select .enumerable)⟩

/-- Projects a query, by a quoted projection. -/
def queryableSelect : Operation :=
  ⟨⟨"Queryable", "Select", 2, false⟩, [], some (.select .queryable)⟩

/-- Collects a sequence into a list. -/
def toList : Operation :=
  ⟨⟨"Enumerable", "ToList", 1, false⟩, [], some (.convert .list)⟩

/-- Views a sequence as an enumerable one. -/
def asEnumerable : Operation :=
  ⟨⟨"Enumerable", "AsEnumerable", 1, false⟩, [], some (.convert .enumerable)⟩

/-- Views a sequence as a query. -/
def asQueryable : Operation :=
  ⟨⟨"Queryable", "AsQueryable", 1, false⟩, [], some (.convert .queryable)⟩

/-- Puts the receiver into upper case. -/
def toUpper : Operation :=
  ⟨⟨"String", "ToUpper", 0, true⟩, [], some .toUpper⟩

/-- Inlines a mapper or a mapping expression without a null guard. -/
def includeGiven : Operation :=
  ⟨⟨"Mapper", "Include", 2, false⟩, [.includeGiven], none⟩

/-- Inlines the mapper that the configured resolvers find. -/
def includeResolved : Operation :=
  ⟨⟨"Mapper", "Include", 1, false⟩, [.includeResolved], none⟩

/-- Maps one object. -/
def mapWith : Operation :=
  ⟨⟨"MapWith", "MapWith", 2, false⟩, [.mapWith], some .mapWith⟩

/-- Maps every item of a sequence. -/
def mapAllWith : Operation :=
  ⟨⟨"MapWith", "MapAllWith", 2, false⟩, [.mapAllWith], some .mapAllWith⟩

/-- Maps one object with the mapper that is the receiver. -/
def map : Operation :=
  ⟨⟨"IMapper", "Map", 1, true⟩, [.map], some .map⟩

end Operation

end ObjectMapping
