import HiveQuery.Configuration
import HiveQuery.Text.Alphanumeric
/-!
# The log

Starting the log: its settings are read, the directory of its files is made, and then it becomes
active unless one is active already. What a start leaves in the working directory is part of the
state, also when the start fails afterwards.
-/

namespace HiveQuery

inductive LogFormat where
  | pretty
  | json
  | compact
  deriving DecidableEq

def LogFormat.read (text : String) : Except SettingError LogFormat :=
  match text with
  | "pretty" => .ok .pretty
  | "json" => .ok .json
  | "compact" => .ok .compact
  | _ => .error (.logFormat text)

inductive LogOutput where
  | stdout
  /-- Daily files in the directory of the log. -/
  | file
  | both
  deriving DecidableEq

def LogOutput.read (text : String) : Except SettingError LogOutput :=
  match text with
  | "stdout" => .ok .stdout
  | "file" => .ok .file
  | "both" => .ok .both
  | _ => .error (.logOutput text)

namespace LogLevel

/-- The words for a level. -/
def words : List String :=
  ["off", "error", "warn", "info", "debug", "trace"]

/-- A level is a word, in letters of either case, or a number up to five. -/
def isLevel (cs : List Char) : Bool :=
  let digits := if cs.head? == some '+' then cs.drop 1 else cs
  words.contains (String.ofList (cs.map Char.toLower))
    || (!digits.isEmpty && digits.all Char.isDigit && Json.Reader.digitsValue digits ≤ 5)

/-- The name of a part of the program begins with a letter, a digit or one of three signs. -/
def startsName (c : Char) : Bool :=
  ['-', ':', '_'].contains c || Text.isAlphanumeric c

/-- What follows a span in a directive: nothing, or an equals sign and a level. -/
def afterSpan? : List Char → Option (Option (List Char))
  | [] => some none
  | '=' :: level => some (some level)
  | _ => none

/-- What follows the name in a directive: nothing, an equals sign and a level, or a span in brackets
and then the same. The outer `none` is a malformed directive, the inner one a missing level. -/
def afterName? : List Char → Option (Option (List Char))
  | [] => some none
  | '=' :: level => some (some level)
  | _ :: span =>
    match span.dropWhile (· != ']') with
    | [] => none
    | _ :: rest => afterSpan? rest

/-- Check a directive of the level setting `text`. A directive is a level, or the name of a part of the
program, a span or both, perhaps with an equals sign and a level behind it; without a level it takes
all. Blanks may stand around a directive, but not where they touch the level. -/
def checkDirective (text : String) (cs : List Char) : Except SettingError Unit :=
  let body := Text.trimStart cs
  let trimmed := Text.trimEnd body
  if trimmed.head?.all fun c => c != '[' && !startsName c then .error (.logDirective text)
  else
    let isName (c : Char) : Bool := c != '=' && c != '['
    match afterName? (trimmed.dropWhile isName) with
    | none => .error (.logDirective text)
    | some none => .ok ()
    | some (some level) =>
      let touched := body.length < cs.length || trimmed.length < body.length
      if !touched && (level.isEmpty || isLevel level) then .ok () else .error (.logLevel text)

/-- Check a list of directives, divided by commas. Empty ones are passed over. -/
def check (text : String) : Except SettingError Unit :=
  ((text.toList.splitOn ',').filter (!·.isEmpty)).forM (checkDirective text)

end LogLevel

/-- The output that the settings ask for, once all of them are read. -/
def LogSettings.check (settings : LogSettings) : Except SettingError LogOutput := do
  let _ ← LogFormat.read settings.format
  let output ← LogOutput.read settings.output
  LogLevel.check settings.level
  return output

/-! ## The working directory -/

/-- A place in the tree of directories. -/
inductive Place where
  /-- In or below the working directory, by the names that lead to it. -/
  | within (names : List String)
  /-- By the names that lead to it from the root. -/
  | absolute (names : List String)
  /-- Above the working directory. -/
  | above

/-- The place one level up. The root is above itself. -/
def Place.parent : Place → Place
  | within [] => above
  | within names => within names.dropLast
  | absolute names => absolute names.dropLast
  | above => above

/-- The null device, which is no directory. -/
def nullDevice : List String := ["dev", "null"]

/-- What the log has made so far. -/
structure LogState where
  active : Bool := false
  /-- The directories below the working directory. -/
  made : List (List String) := []
  /-- The directories among them that hold a log file. -/
  logs : List (List String) := []

namespace LogState

/-- Make a directory, unless it is there. -/
def make (s : LogState) (names : List String) : LogState :=
  if s.made.contains names then s else { s with made := s.made ++ [names] }

/-- Make the directories of a way through the tree, from a place on. Nothing can be made at or below
the null device. -/
def makeAlong? (s : LogState) (place : Place) : List String → Option (LogState × Place)
  | [] => some (s, place)
  | name :: names =>
    if name == "" || name == "." then s.makeAlong? place names
    else if name == ".." then s.makeAlong? place.parent names
    else
      match place with
      | .within path => (s.make (path ++ [name])).makeAlong? (.within (path ++ [name])) names
      | .absolute path =>
        if path ++ [name] == nullDevice then none
        else s.makeAlong? (.absolute (path ++ [name])) names
      | .above => s.makeAlong? .above names

/-- Make the directory of the log, and the log file of the day in it. -/
def makeLog? (s : LogState) (directory : String) : Option LogState := do
  let names := (directory.toList.splitOn '/').map String.ofList
  let start := if directory.toList.head? == some '/' then Place.absolute [] else .within []
  match ← s.makeAlong? start names with
  | (s, .within path) => return if s.logs.contains path then s else { s with logs := s.logs ++ [path] }
  | (s, _) => return s

/-- The number of entries of a directory in the working directory. -/
def entryCount (s : LogState) (name : String) : Nat :=
  let directories := s.made.filter fun path => path.length == 2 && path.head? == some name
  directories.length + (if s.logs.contains [name] then 1 else 0)

/-- The directories of the working directory with the number of their entries, by name. -/
def directories (s : LogState) : List (String × Nat) :=
  let names := s.made.filterMap fun
    | [name] => some name
    | _ => none
  (names.map fun name => (name, s.entryCount name)).mergeSort fun a b => !(b.1 < a.1)

/-- Become active, unless a log is active already. -/
def activate (s : LogState) : Except ConfigurationError Unit × LogState :=
  if s.active then (.error (.invalid .logActive), s) else (.ok (), { s with active := true })

/-- Start the log. The settings are checked first, then the files are made, and last it fails if a
log is active. -/
def start (s : LogState) (settings : LogSettings) : Except ConfigurationError Unit × LogState :=
  match settings.check with
  | .error e => (.error (.invalid e), s)
  | .ok .stdout => s.activate
  | .ok _ =>
    match s.makeLog? settings.directory with
    | none => (.error .unreadable, s)
    | some s => s.activate

end LogState

end HiveQuery
