import HiveQuery.Compiler
import HiveQuery.Text.Blank
import HiveQuery.Yaml.Document
/-!
# Configuration

The settings of the compiler and of its log. They come from a YAML text in which every part may be
missing, and single settings are overridden from the environment of the process.
-/

namespace HiveQuery

/-- The settings of the log, as they are written. -/
structure LogSettings where
  /-- A level, or a list of levels for parts of the program. -/
  level : String := "info"
  format : String := "pretty"
  output : String := "stdout"
  /-- The directory of the log files. -/
  directory : String := "./logs"

structure Configuration where
  compiler : CompilerSettings := {}
  logging : LogSettings := {}

/-- The values that the environment sets, each of them possibly none. -/
structure Overrides where
  rowNumberColumn : Option String := none
  byPosition : Option String := none
  logLevel : Option String := none
  logFormat : Option String := none
  logOutput : Option String := none
  logDirectory : Option String := none

inductive ConfigurationError where
  /-- The text cannot be had. -/
  | unreadable
  /-- The text is not a configuration. -/
  | malformed
  | invalid (error : SettingError)

/-! ## Documents -/

namespace CompilerSettings

def ofYaml? (y : Yaml) : Option CompilerSettings := do
  let fields ← y.fields?
  let rowNumberColumn ← Yaml.withDefault fields "row_number_column" "rn" Yaml.text?
  let byPosition ← Yaml.withDefault fields "allow_positional_fallback" false Yaml.bool?
  return { rowNumberColumn, byPosition }

def ofJson? (json : Json) : Option CompilerSettings := do
  guard json.isObject
  let rowNumberColumn ← json.withDefault "row_number_column" "rn" Json.string?
  let byPosition ← json.withDefault "allow_positional_fallback" false Json.bool?
  return { rowNumberColumn, byPosition }

def toJson (s : CompilerSettings) : Json :=
  .obj [("row_number_column", .str s.rowNumberColumn),
    ("allow_positional_fallback", .bool s.byPosition)]

end CompilerSettings

namespace LogSettings

def ofYaml? (y : Yaml) : Option LogSettings := do
  let fields ← y.fields?
  let level ← Yaml.withDefault fields "level" "info" Yaml.text?
  let format ← Yaml.withDefault fields "format" "pretty" Yaml.text?
  let output ← Yaml.withDefault fields "output" "stdout" Yaml.text?
  let directory ← Yaml.withDefault fields "directory" "./logs" Yaml.text?
  return { level, format, output, directory }

def ofJson? (json : Json) : Option LogSettings := do
  guard json.isObject
  let level ← json.withDefault "level" "info" Json.string?
  let format ← json.withDefault "format" "pretty" Json.string?
  let output ← json.withDefault "output" "stdout" Json.string?
  let directory ← json.withDefault "directory" "./logs" Json.string?
  return { level, format, output, directory }

def toJson (s : LogSettings) : Json :=
  .obj [("level", .str s.level), ("format", .str s.format), ("output", .str s.output),
    ("directory", .str s.directory)]

end LogSettings

namespace Configuration

def ofYaml? (y : Yaml) : Option Configuration := do
  let fields ← y.fields?
  let compiler ← Yaml.withDefault fields "translator" {} CompilerSettings.ofYaml?
  let logging ← Yaml.withDefault fields "logging" {} LogSettings.ofYaml?
  return { compiler, logging }

def toJson (c : Configuration) : Json :=
  .obj [("translator", c.compiler.toJson), ("logging", c.logging.toJson)]

/-! ## Loading -/

/-- A truth value of the environment, in any of the usual words. -/
def readFlag (text : String) : Except SettingError Bool :=
  let word := (Text.trim text).map Char.toLower
  if ["1", "true", "yes", "on"].contains word then .ok true
  else if ["0", "false", "no", "off"].contains word then .ok false
  else .error (.positionalFallback word)

/-- The configuration with the values of the environment. -/
def override (c : Configuration) (o : Overrides) : Except SettingError Configuration := do
  let byPosition ←
    match o.byPosition with
    | none => pure c.compiler.byPosition
    | some text => readFlag text
  return {
    compiler := {
      rowNumberColumn := o.rowNumberColumn.getD c.compiler.rowNumberColumn
      byPosition }
    logging := {
      level := o.logLevel.getD c.logging.level
      format := o.logFormat.getD c.logging.format
      output := o.logOutput.getD c.logging.output
      directory := o.logDirectory.getD c.logging.directory } }

/-- The configuration that a text and the environment give. A blank text sets nothing. -/
def ofText (o : Overrides) (text : String) : Except ConfigurationError Configuration := do
  let written ←
    if Text.isBlankText text then pure {}
    else
      match (Yaml.parse? text).bind ofYaml? with
      | none => .error .malformed
      | some c => pure c
  let c ← (written.override o).mapError .invalid
  c.compiler.check.mapError .invalid
  return c

/-- The configuration of a file, given by its bytes if the file exists. They have to be UTF-8. -/
def ofFile (o : Overrides) (bytes : Option ByteArray) : Except ConfigurationError Configuration :=
  match bytes.bind String.fromUTF8? with
  | none => .error .unreadable
  | some text => ofText o text

end Configuration

end HiveQuery
