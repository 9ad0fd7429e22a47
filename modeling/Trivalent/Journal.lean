import Trivalent.Pattern
import Trivalent.Value

/-!
# The journal

Parsing and running report what they do as events. A journal keeps those that its filter lets
through, in the order in which they happened.

* `Level` -- how much detail an event is, from `error` to `trace`;
* `Event` -- the four things that are reported, with their level, the place they come from
  (`Event.target`) and their wording (`Event.message`);
* `Filter` -- a base level, and levels of their own for targets that start in a given way; the
  longest such start decides. A pattern, if there is one, has to occur in the wording as well;
* `Journal.note` -- keeps an event or drops it.
-/

namespace Trivalent

/-! ## 1. Levels and events -/

/-- A level of detail. -/
inductive Level where
  | error
  | warn
  | info
  | debug
  | trace
  deriving DecidableEq, Repr

namespace Level

/-- Every level, the most severe first. -/
def all : List Level := [error, warn, info, debug, trace]

/-- More detail has a higher rank. -/
def rank : Level → Nat
  | error => 1
  | warn => 2
  | info => 3
  | debug => 4
  | trace => 5

/-- The written form of a level. -/
def name : Level → String
  | error => "ERROR"
  | warn => "WARN"
  | info => "INFO"
  | debug => "DEBUG"
  | trace => "TRACE"

end Level

/-- Something that happened while a program was parsed or run. -/
inductive Event where
  /-- A frame was reduced. -/
  | reduced (result : Symbol) (children frame : List Symbol)
  /-- The symbols that are left after a reduction and all that it set off. -/
  | remaining (symbols : List Symbol)
  /-- A declaration bound the other occurrences of its name. -/
  | bound (name : String) (symbol : Symbol) (occurrences : Nat)
  /-- A variable received a value. -/
  | assigned (name : String) (value : Value)
  deriving DecidableEq, Repr

namespace Event

/-- The level of detail of an event. -/
def level : Event → Level
  | reduced _ _ _ => .debug
  | remaining _ => .trace
  | bound _ _ _ => .debug
  | assigned _ _ => .info

/-- The part of the program an event comes from. -/
def target : Event → String
  | reduced _ _ _ => "lej::interpreter::parser::reducer"
  | remaining _ => "lej::interpreter::parser::reducer"
  | bound _ _ _ => "lej::interpreter::parser::resolver"
  | assigned _ _ => "lej::interpreter::evaluator::core"

/-- What happened, in words. -/
def message : Event → String
  | reduced result children frame =>
    result.name ++ " -> " ++ Symbol.joinNames children ++ " :: " ++ Symbol.joinNames frame
  | remaining symbols => "live: " ++ Symbol.joinNames symbols
  | bound name symbol occurrences =>
    "bound '" ++ name ++ "' as " ++ symbol.name ++ ", " ++ toString occurrences
      ++ " occurrence(s) rewritten"
  | assigned name value => name ++ " assigned " ++ value.text

/-- An event as one line of a log. -/
def text (e : Event) : String := e.level.name ++ " " ++ e.target ++ ": " ++ e.message

end Event

/-! ## 2. Filters -/

/-- Which events are kept. A level lets through what is at most as detailed; no level at all lets
nothing through. -/
structure Filter where
  /-- The level for targets without one of their own. -/
  base : Option Level := some .warn
  /-- Levels for targets that start with the given text. -/
  overrides : List (String × Option Level) := []
  /-- What has to occur in the wording of an event. -/
  pattern : Option Pattern := none
  deriving DecidableEq, Repr

namespace Filter

/-- Whether a target starts with the given text. -/
def covers (start target : String) : Bool := start.toList.isPrefixOf target.toList

/-- The level with the longest start that fits the target. -/
def override? (target : String) : List (String × Option Level) → Option (String × Option Level)
  | [] => none
  | (start, level) :: rest =>
    if covers start target then
      match override? target rest with
      | some (longer, other) =>
        if start.utf8ByteSize < longer.utf8ByteSize then some (longer, other)
        else some (start, level)
      | none => some (start, level)
    else override? target rest

/-- The level that holds for a target. -/
def levelFor (f : Filter) (target : String) : Option Level :=
  match override? target f.overrides with
  | some (_, level) => level
  | none => f.base

/-- Whether an event is let through. -/
def admits (f : Filter) (e : Event) : Bool :=
  match f.levelFor e.target with
  | some level => e.level.rank ≤ level.rank && f.pattern.all (·.occursIn e.message)
  | none => false

end Filter

/-! ## 3. The journal -/

/-- The events kept so far. -/
structure Journal where
  filter : Filter := {}
  events : Array Event := #[]
  deriving DecidableEq, Repr

namespace Journal

/-- Keeps an event if the filter lets it through. -/
def note (j : Journal) (e : Event) : Journal :=
  if j.filter.admits e then { j with events := j.events.push e } else j

end Journal

end Trivalent
