import ObjectMapping.Configuration.Json
import ObjectMapping.Configuration.Yaml
import ObjectMapping.Failure
import ObjectMapping.Options

/-!
# Configuration

The options in a configuration file. A file is JSON unless its name ends in `.yaml` or `.yml`. Each
structure is a record of its fields, in JSON also the list of their values in order; a field that is
left out has its default, a field of another name is skipped, and no field may be given twice.
-/

namespace ObjectMapping

open ObjectMapping.Configuration (Document Format)

/-- The configuration of mapping. -/
structure Configuration where
  options : Options := {}
  deriving DecidableEq

/-! ## Reading documents -/

/-- The options in a document. -/
def Options.ofDocument? (format : Format) (document : Document) : Option Options := do
  let defaults : Options := {}
  match ← document.fields? format ["nullPropagation", "projectionParameterPrefix"] with
  | [flag, stem] =>
    let nullPropagation ← Document.readOr defaults.nullPropagation Document.flag? flag
    let parameterStem ← Document.readOr defaults.parameterStem Document.text? stem
    return ⟨nullPropagation, parameterStem⟩
  | _ => none

namespace Configuration

/-- The configuration in a document. -/
def ofDocument? (format : Format) (document : Document) : Option Configuration := do
  match ← document.fields? format ["rewriteOptions"] with
  | [options] => return ⟨← Document.readOr {} (Options.ofDocument? format) options⟩
  | _ => none

/-! ## Files -/

/-- What comes after the last point in a file name that does not start with that point. -/
def extension? (fileName : String) : Option String :=
  let cs := fileName.toList.reverse
  let extension := cs.takeWhile (· != '.')
  match cs.drop extension.length with
  | '.' :: _ :: _ => some (String.ofList extension.reverse)
  | _ => none

/-- The notation in a file of that name. The case of letters matters. -/
def formatOf (fileName : String) : Format :=
  if extension? fileName ∈ [some "yaml", some "yml"] then .yaml else .json

/-- The document in a text. -/
def document? (format : Format) (text : String) : Option Document :=
  match format with
  | .json => Document.ofJson? text
  | .yaml => Document.ofYaml? text

/-- Reads a configuration file, given its content if there is such a file. -/
def load (fileName : String) (content : Option String) : Except Failure Configuration :=
  match content with
  | none => .error (.unreadable "no such file")
  | some text =>
    let format := formatOf fileName
    match (document? format text).bind (ofDocument? format) with
    | some config => .ok config
    | none => .error (.configuration "malformed configuration")

/-- The configuration as JSON, with two spaces for each level. -/
def toJson (config : Configuration) : String :=
  "\x7b\n  \"rewriteOptions\": \x7b\n    \"nullPropagation\": " ++
    (if config.options.nullPropagation then "true" else "false") ++
    ",\n    \"projectionParameterPrefix\": " ++
    Configuration.Json.string config.options.parameterStem ++ "\n  \x7d\n\x7d"

end Configuration

end ObjectMapping
