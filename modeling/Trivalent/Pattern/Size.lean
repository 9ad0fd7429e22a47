import Trivalent.Pattern
import Trivalent.Pattern.Needles
import Trivalent.Pattern.States

/-!
# The size of a pattern

A pattern must not be too large. Its size is that of the automata which look for an occurrence from
the front and from the back. A pattern that stands for a few literals is searched for without an
automaton and has no size.

* `Pattern.backwards` -- the pattern as it is read from the back;
* `Pattern.tally` -- the states for a pattern; a counted repetition takes them anew each time;
* `Pattern.fits` -- whether a pattern can be searched for.
-/

namespace Trivalent

namespace Pattern

/-! ## 1. Some properties -/

/-- Whether the pattern describes no text because a set in it has no members. -/
def isVoid : Pattern → Bool
  | empty => false
  | literal _ => false
  | one set _ => set.isEmpty
  | edge _ => false
  | group _ p => p.isVoid
  | seq p q => p.isVoid || q.isVoid
  | either p q => p.isVoid || q.isVoid
  | repeated p _ _ _ => p.isVoid

/-- Whether no text of the pattern is empty. -/
def takesText : Pattern → Bool
  | empty => false
  | literal _ => true
  | one _ _ => true
  | edge _ => false
  | group _ p => p.takesText
  | seq p q => p.takesText || q.takesText
  | either p q => p.takesText && q.takesText
  | repeated p min _ _ => min != 0 && p.takesText

/-- Whether every occurrence lies at the end of the text where the automaton starts. -/
def isAnchored (direction : Direction) : Pattern → Bool
  | edge .textStart => direction == .front
  | edge .textEnd => direction == .back
  | group _ p => p.isAnchored direction
  | seq p q =>
    match direction with
    | .front => p.isAnchored direction || p.isZeroWidth && q.isAnchored direction
    | .back => q.isAnchored direction || p.isAnchored direction && q.isZeroWidth
  | either p q => p.isAnchored direction && q.isAnchored direction
  | repeated p min _ _ => min != 0 && p.isAnchored direction
  | _ => false

/-- One pattern before what may follow it. -/
def before (p : Pattern) : Option Pattern → Pattern
  | some later => seq p later
  | none => p

/-- The pattern with its sequences in the opposite order, before `later`. -/
def backwardsBefore (later : Option Pattern) : Pattern → Pattern
  | seq p q => q.backwardsBefore (some (p.backwardsBefore later))
  | either p q => (either (p.backwardsBefore none) (q.backwardsBefore none)).before later
  | group number p => (group number (p.backwardsBefore none)).before later
  | repeated p min max short => (repeated (p.backwardsBefore none) min max short).before later
  | p => p.before later

/-- The pattern with its sequences in the opposite order. -/
def backwards (p : Pattern) : Pattern := p.backwardsBefore none

/-! ## 2. States -/

/-- The place of a pattern in a choice. -/
inductive Place where
  /-- The pattern is not what is left of a choice. -/
  | whole
  /-- The pattern is what comes after the first branch of a choice. -/
  | second
  /-- The pattern is what comes after some more branches. -/
  | later
  deriving DecidableEq, Repr

/-- Counts what a branch adds to a choice: a way to it and, once there are two branches, the states
where the choice begins and ends. -/
def Place.join : Place → Tally → Tally
  | whole, t => t
  | second, t => (t.addWays 2).addStates 2
  | later, t => t.addWays 1

/-- The literals of a choice between literals. -/
def literals? (p : Pattern) : Option (List (List Char)) := p.branches.mapM literal?

/-- Counts the states for a repetition, where `copy` counts those for what is repeated and `simple`
says that this never is the empty text. -/
def repetitionTally (copy : Tally → Tally) (min : Nat) (max : Option Nat) (simple : Bool)
    (t : Tally) : Tally :=
  match min, max with
  | 0, some 1 => ((copy (t.addStates 1)).addStates 1).addWays 2
  | 0, none =>
    if simple then (copy (t.addStates 1)).addWays 2 else ((copy t).addStates 3).addWays 4
  | min, none => ((Tally.addCopies copy min t).addStates 1).addWays 2
  | min, some max =>
    if min = max then Tally.addCopies copy min t
    else
      let t := if min = 0 then t.addStates 1 else Tally.addCopies copy min t
      Tally.addCopies (fun t => (copy (t.addStates 1)).addWays 2) (max - min) (t.addStates 1)

/-- Counts the states for a pattern that is read from the given direction, in which its sequences
are to be in order. -/
def tally (direction : Direction) (place : Place) : Pattern → Tally → Tally
  | either p q, t =>
    match place with
    | .whole =>
      match (either p q).literals? with
      | some literals => trieTally direction literals t
      | none => q.tally direction .second (p.tally direction .whole t)
    | place => q.tally direction .later (place.join (p.tally direction .whole t))
  | seq p q, t =>
    match place with
    | .whole => q.tally direction .whole (p.tally direction .whole t)
    | place => place.join (q.tally direction .whole (p.tally direction .whole t))
  | group _ p, t =>
    place.join (match direction with
      | .front => (p.tally direction .whole (t.addStates 1)).addStates 1
      | .back => p.tally direction .whole t)
  | repeated p min max _, t =>
    place.join
      (repetitionTally (fun t => p.tally direction .whole t) min max (p.takesText && !p.isVoid) t)
  | empty, t => place.join (t.addStates 1)
  | edge _, t => place.join (t.addStates 1)
  | literal chars, t => place.join (t.addStates (chars.foldl (fun n c => n + c.utf8Size) 0))
  | one set _, t => place.join (set.tally direction t)

/-- Counts the states of the automaton that looks for a pattern: what steps over the text before an
occurrence, the marks around an occurrence, which are set from the front only, and the last
state. -/
def automatonTally (p : Pattern) (direction : Direction) : Tally :=
  let start : Tally :=
    if p.isAnchored direction then Tally.addStates {} 1
    else ((Tally.addStates {} 3).addRanges 1).addWays 2
  match direction with
  | .front => (p.tally direction .whole (start.addStates 1)).addStates 2
  | .back => (p.backwards.tally direction .whole start).addStates 1

/-- Whether a pattern can be searched for. -/
def fits (p : Pattern) : Bool :=
  (p.automatonTally .back).fits && (p.automatonTally .front).fits || p.isLiteralSearch

end Pattern

end Trivalent
