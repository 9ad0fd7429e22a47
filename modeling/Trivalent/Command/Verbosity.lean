import Trivalent.Journal
import Trivalent.Pattern.Reader

/-!
# Verbosity

Which events a command shows. Each `-v` adds a level of detail, and a log specification from the
environment has the last word.

A specification is a list of directives with commas between them. A directive is a level, which
replaces the one from the command line, or `start=level`, which holds for the targets that start
in that way. A start without a level stands for all detail. After a slash the specification may
have a pattern that shown events have to match. A directive or a pattern that cannot be read is
left out, and so is a specification with two slashes.
-/

namespace Trivalent

namespace Level

/-- A level by its name in lower case; `off` is no level at all. -/
def threshold? : String → Option (Option Level)
  | "off" => some none
  | "error" => some (some error)
  | "warn" => some (some warn)
  | "info" => some (some info)
  | "debug" => some (some debug)
  | "trace" => some (some trace)
  | _ => none

/-- A level by its name in upper or lower case. -/
def readThreshold? (text : List Char) : Option (Option Level) :=
  threshold? (String.ofList (text.map Char.toLower))

end Level

namespace Filter

/-- The level that a number of `-v` flags asks for. -/
def ofVerbosity : Nat → Filter
  | 0 => { base := some .warn }
  | 1 => { base := some .info }
  | 2 => { base := some .debug }
  | _ => { base := some .trace }

/-- Sets the level for targets that start in a given way. -/
def override (f : Filter) (start : String) (level : Option Level) : Filter :=
  { f with overrides := (start, level) :: f.overrides.filter (·.1 != start) }

/-- Follows one directive. -/
def follow (f : Filter) (directive : List Char) : Filter :=
  match Text.pieces '=' directive with
  | [[]] => f
  | [word] =>
    match Level.readThreshold? word with
    | some level => { f with base := level }
    | none => f.override (String.ofList word) (some .trace)
  | [start, word] =>
    match Text.trim word with
    | [] => f.override (String.ofList start) (some .trace)
    | word =>
      match Level.readThreshold? word with
      | some level => f.override (String.ofList start) level
      | none => f
  | _ => f

/-- Follows a list of directives. -/
def followAll (f : Filter) (directives : List Char) : Filter :=
  ((Text.pieces ',' directives).map Text.trim).foldl follow f

/-- Follows a whole specification. -/
def followSpec (f : Filter) (spec : String) : Filter :=
  match Text.pieces '/' spec.toList with
  | [directives] => f.followAll directives
  | [directives, pattern] => { f.followAll directives with pattern := Pattern.read? pattern }
  | _ => f

end Filter

end Trivalent
