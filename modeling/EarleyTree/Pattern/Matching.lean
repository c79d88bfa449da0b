import EarleyTree.Pattern.Regex

/-!
Leftmost matches, found by advancing all prioritised alternatives together over the text.
-/
namespace EarleyTree.Pattern

/-- A piece of what is left to match: an expression, or another round of an unbounded repetition
that has completed one. -/
inductive Frame
  | once (r : Regex)
  | again (greedy : Bool) (r : Regex)
  deriving DecidableEq, Repr

abbrev Task := List Frame

def Frame.places : Frame → Nat
  | once r => r.places
  | again _ r => r.places + 1

def Task.places (task : Task) : Nat := task.foldl (fun n f => n + f.places) 1

/-- The ways to go on without reading a character, the preferred one first. -/
def Frame.expand (before after : Option Char) (rest : Task) : Frame → List Task
  | once .empty => [rest]
  | once (.set _) => []
  | once (.test b) => if b.holds before after then [rest] else []
  | once (.cat a b) => [once a :: once b :: rest]
  | once (.alt a b) => [once a :: rest, once b :: rest]
  | once (.rep 0 (some 0) _ _) => [rest]
  | once (.rep 0 (some (n + 1)) greedy r) =>
    let more := once r :: once (.rep 0 (some n) greedy r) :: rest
    if greedy then [more, rest] else [rest, more]
  | once (.rep 0 none greedy r) =>
    let more := once r :: again greedy r :: rest
    if greedy then [more, rest] else [rest, more]
  | once (.rep 1 none greedy r) => [once r :: again greedy r :: rest]
  | once (.rep (n + 1) max greedy r) => [once r :: once (.rep n (max.map (· - 1)) greedy r) :: rest]
  | again greedy r =>
    let more := once r :: again greedy r :: rest
    if greedy then [more, rest] else [rest, more]

/-- The alternatives that wait for a character, in order of preference; those below a complete match
are dropped. -/
structure Front where
  threads : List (CharSet × Task)
  accepts : Bool
  deriving Repr

/-- Expands the pending tasks depth first. A task met before at the same place adds nothing. -/
def Front.expand (before after : Option Char) : Nat → List Task → List Task → Front
  | 0, _, _ => ⟨[], false⟩
  | _ + 1, [], _ => ⟨[], false⟩
  | _ + 1, [] :: _, _ => ⟨[], true⟩
  | fuel + 1, (frame :: rest) :: pending, visited =>
    if visited.contains (frame :: rest) then Front.expand before after fuel pending visited
    else
      match frame with
      | .once (.set s) =>
        let front := Front.expand before after fuel pending ((frame :: rest) :: visited)
        { front with threads := (s, rest) :: front.threads }
      | _ =>
        Front.expand before after fuel (frame.expand before after rest ++ pending)
          ((frame :: rest) :: visited)

def Front.ofTasks (before after : Option Char) (tasks : List Task) : Front :=
  Front.expand before after (tasks.foldl (fun n t => n + 2 * t.places + 1) 1) tasks []

def Front.step (front : Front) (c : Char) : List Task :=
  front.threads.filterMap fun (s, rest) => if s.contains c then some rest else none

/-- The end of the preferred match, as a byte offset. -/
def Front.run (front : Front) (text : List Char) (offset : Nat) (best : Option Nat) : Option Nat :=
  let best := if front.accepts then some offset else best
  match text with
  | [] => best
  | c :: rest =>
    match front.step c with
    | [] => best
    | tasks => (Front.ofTasks (some c) rest.head? tasks).run rest (offset + c.utf8Size) best

namespace Regex

def matchAt (r : Regex) (before : Option Char) (text : List Char) (offset : Nat) : Option Nat :=
  (Front.ofTasks before text.head? [[.once r]]).run text offset none

def findFrom (r : Regex) (before : Option Char) (text : List Char) (offset : Nat) :
    Option (Nat × Nat) :=
  match r.matchAt before text offset with
  | some stop => some (offset, stop)
  | none =>
    match text with
    | [] => none
    | c :: rest => if r.anchored then none else r.findFrom (some c) rest (offset + c.utf8Size)

/-- Start and end of the leftmost match, as byte offsets. -/
def find? (r : Regex) (text : List Char) : Option (Nat × Nat) := r.findFrom none text 0

end Regex

end EarleyTree.Pattern
