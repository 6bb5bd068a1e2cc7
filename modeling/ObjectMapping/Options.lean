/-!
# Options

How call sites are expanded.
-/

namespace ObjectMapping

/-- Options of the expansion of call sites. -/
structure Options where
  /-- whether an inlined object mapping is guarded against the default input -/
  nullPropagation : Bool := true
  /-- what the names of generated projection parameters start with -/
  parameterStem : String := "map_"
  deriving DecidableEq

end ObjectMapping
