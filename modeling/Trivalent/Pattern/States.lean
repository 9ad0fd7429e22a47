import Std.Data.HashMap
import Trivalent.Pattern.Bytes

/-!
# The states of an automaton

Automata read texts in UTF-8 byte by byte, from the front or from the back. How large they are is
known from counting their states, without building them. Each state takes 32 bytes, a state that
tells several bytes apart takes 8 more for each range of bytes, and a state that goes on in several
ways takes 4 more for each way. States are numbered in the order in which they are made.

States for the characters of a set are shared where all that is read after them, from the front, or
before them, from the back, is alike. What is known of earlier states is kept in a table with a
fixed number of slots. A new state takes the slot that its hash value gives, and what was there
before is forgotten. So the number of states depends on their numbers.

* `Tally` -- the number of states so far, and their bytes;
* `Slots` -- the table of known states;
* `CharSet.tally` -- the states for one character of a set;
* `trieTally` -- the states for a choice between literals, which share what they begin with.
-/

namespace Trivalent

/-! ## 1. Counting -/

/-- The end of the text at which an automaton starts. -/
inductive Direction where
  | front
  | back
  deriving DecidableEq, Repr

/-- The number of states so far, and their bytes. -/
structure Tally where
  states : Nat := 0
  bytes : Nat := 0
  deriving DecidableEq, Repr

namespace Tally

/-- The most bytes that an automaton may take. -/
def maxBytes : Nat := 10485760

/-- Whether the states take no more bytes than an automaton may take. -/
def fits (t : Tally) : Bool := t.bytes ≤ maxBytes

/-- Some more states. -/
def addStates (t : Tally) (count : Nat) : Tally where
  states := t.states + count
  bytes := t.bytes + 32 * count

/-- Some more ranges in a state that tells ranges apart. -/
def addRanges (t : Tally) (count : Nat) : Tally := { t with bytes := t.bytes + 8 * count }

/-- Some more ways to go on from a state. -/
def addWays (t : Tally) (count : Nat) : Tally := { t with bytes := t.bytes + 4 * count }

/-- Counts the same states several times, until they are too large together. -/
def addCopies (copy : Tally → Tally) : Nat → Tally → Tally
  | 0, t => t
  | count + 1, t => if t.fits then addCopies copy count (copy t) else t

end Tally

/-! ## 2. Known states -/

/-- A table of states by what they read. Each slot holds one of them. -/
abbrev Slots (α : Type) := Std.HashMap Nat (α × Nat)

namespace Slots

/-- The state in a slot, if it reads what is asked for. -/
def find? {α : Type} [DecidableEq α] (slots : Slots α) (slot : Nat) (key : α) : Option Nat :=
  match slots[slot]? with
  | some (known, state) => if known = key then some state else none
  | none => none

/-- The hash value before anything is mixed in. -/
def hashStart : UInt64 := 14695981039346656037

/-- Mixes a number into a hash value. -/
def mix (hash : UInt64) (value : Nat) : UInt64 := (hash ^^^ value.toUInt64) * 1099511628211

end Slots

/-! ## 3. Sets, from the front -/

/-- A way on from a state: a range of bytes, and the number of the state behind it. -/
structure Link where
  range : Nat × Nat
  target : Nat
  deriving DecidableEq, Repr

/-- A state that is not finished: its links from the last to the first, and the range of the next
one, of which the target is not known yet. -/
structure OpenState where
  links : List Link := []
  waiting : Option (Nat × Nat) := none
  deriving DecidableEq, Repr

/-- The links of a state once the target of the waiting one is known. -/
def OpenState.close (state : OpenState) (target : Nat) : List Link :=
  match state.waiting with
  | some range => ⟨range, target⟩ :: state.links
  | none => state.links

/-- The states for sequences of byte ranges that come in increasing order. -/
structure FrontStates where
  /-- The states that are not finished, each behind the one that follows it in the list. -/
  opened : List OpenState := [{}]
  known : Slots (List Link) := {}
  tally : Tally
  deriving Repr

namespace FrontStates

/-- The number of slots. -/
def slotCount : Nat := 10000

/-- The slot for a state with the given links. -/
def slotOf (links : List Link) : Nat :=
  let hash := links.foldr (fun link hash =>
    Slots.mix (Slots.mix (Slots.mix hash link.range.1) link.range.2) link.target) Slots.hashStart
  hash.toNat % slotCount

/-- The state with the given links, which is a new one unless it is known. -/
def state (states : FrontStates) (links : List Link) : Nat × FrontStates :=
  let slot := slotOf links
  match states.known.find? slot links with
  | some state => (state, states)
  | none =>
    let state := states.tally.states
    (state, { states with
      known := states.known.insert slot (links, state)
      tally := (states.tally.addStates 1).addRanges links.length })

/-- Finishes a number of states, the last of which goes on to `target`; in the state before them
only the link that waits is finished. -/
def finish (target : Nat) : Nat → FrontStates → FrontStates
  | count, states =>
    match count, states.opened with
    | _, [] => states
    | 0, state :: others => { states with opened := { links := state.close target } :: others }
    | count + 1, state :: others =>
      let (number, states) := states.state (state.close target)
      finish number count { states with opened := others }

/-- Adds a sequence; the last of its bytes leads to `target`. -/
def add (target : Nat) (states : FrontStates) (sequence : List (Nat × Nat)) : FrontStates :=
  let shared := (states.opened.reverse.zip sequence).takeWhile fun (state, range) =>
    state.waiting == some range
  let states := finish target (states.opened.length - (shared.length + 1)) states
  match sequence.drop shared.length, states.opened with
  | range :: ranges, state :: others =>
    let opened := ranges.foldl (fun opened range => { waiting := some range } :: opened)
      ({ state with waiting := some range } :: others)
    { states with opened }
  | _, _ => states

/-- Counts the states for a list of sequences. -/
def tallyAll (t : Tally) (sequences : List (List (Nat × Nat))) : Tally :=
  let target := t.states
  let states := sequences.foldl (add target) { tally := t.addStates 1 }
  let states := finish target (states.opened.length - 1) states
  match states.opened with
  | root :: _ => (states.state root.links).2.tally
  | [] => states.tally

end FrontStates

/-! ## 4. Sets, from the back -/

/-- What a state reads from the back: a range of bytes, before it goes on to a state. -/
structure BackKey where
  target : Nat
  range : Nat × Nat
  deriving DecidableEq, Repr

/-- The states for sequences of byte ranges that are read from their ends. -/
structure BackStates where
  known : Slots BackKey := {}
  tally : Tally
  deriving Repr

namespace BackStates

/-- The number of slots. -/
def slotCount : Nat := 1000

/-- The slot for a state. -/
def slotOf (key : BackKey) : Nat :=
  let hash := Slots.mix (Slots.mix (Slots.mix Slots.hashStart key.target) key.range.1) key.range.2
  hash.toNat % slotCount

/-- The state that reads a range before it goes on, which is a new one unless it is known. -/
def state (states : BackStates) (target : Nat) (range : Nat × Nat) : Nat × BackStates :=
  let key : BackKey := ⟨target, range⟩
  let slot := slotOf key
  match states.known.find? slot key with
  | some state => (state, states)
  | none =>
    let state := states.tally.states
    (state, { known := states.known.insert slot (key, state), tally := states.tally.addStates 1 })

/-- Adds a sequence; `target` comes after its first byte. -/
def add (target : Nat) (states : BackStates) (sequence : List (Nat × Nat)) : BackStates :=
  let (_, states) := sequence.foldl (fun (target, states) range => states.state target range)
    (target, states)
  { states with tally := states.tally.addWays 1 }

/-- Counts the states for a list of sequences. -/
def tallyAll (t : Tally) (sequences : List (List (Nat × Nat))) : Tally :=
  (sequences.foldl (add (t.states + 1)) { tally := t.addStates 2 }).tally

end BackStates

/-- Counts the states for one character of a set. -/
def CharSet.tally (direction : Direction) (set : CharSet) (t : Tally) : Tally :=
  if set.isAscii then (t.addStates 2).addRanges set.ranges.length
  else
    match direction with
    | .front => FrontStates.tallyAll t set.byteSequences
    | .back => BackStates.tallyAll t set.byteSequences

/-! ## 5. Choices between literals -/

/-- Words that are read in parallel, cut where one of them ends. -/
def cutAtEnds : List (List Nat) → List (List (List Nat)) :=
  List.foldr (fun word chunks =>
    match word, chunks with
    | [], chunks => [] :: chunks
    | word, [] => [[word]]
    | word, chunk :: chunks => (word :: chunk) :: chunks) [[]]

/-- Counts the states for the first bytes of words that are read in parallel, and gives the words
behind each of these bytes that is not the last of its words. -/
def trieState (words : List (List Nat)) (t : Tally) : Tally × List (List (List Nat)) :=
  let ended := words.takeWhile List.isEmpty
  let chunks := cutAtEnds (ended.take 1 ++ words.drop ended.length)
  let branching := chunks.map fun chunk => (chunk, (chunk.filterMap List.head?).eraseDups)
  let t := branching.foldl (fun t (_, firsts) =>
    match firsts.length with
    | 0 => t
    | 1 => (t.addStates 1).addWays 1
    | count => ((t.addStates 1).addRanges count).addWays 1) t
  let behind := branching.flatMap fun (chunk, firsts) => firsts.map fun first =>
    chunk.filterMap fun
      | b :: rest => if b = first then some rest else none
      | [] => none
  ((t.addStates 1).addWays (chunks.length - 1), behind.filter (!·.all List.isEmpty))

/-- Counts the states for several sets of words that are still to be read. A round takes a byte off
some word, so the number of bytes bounds their number. -/
def triesTally : Nat → List (List (List Nat)) → Tally → Tally
  | 0, _, t => t
  | _, [], t => t
  | fuel + 1, words :: pending, t =>
    let (t, behind) := trieState words t
    triesTally fuel (behind ++ pending) t

/-- Counts the states for a choice between literals. -/
def trieTally (direction : Direction) (literals : List (List Char)) (t : Tally) : Tally :=
  let words := literals.map fun chars =>
    match direction with
    | .front => textBytes chars
    | .back => (textBytes chars).reverse
  triesTally (words.foldl (fun count word => count + word.length) 1) [words] (t.addStates 1)

end Trivalent
