import CyclicBuffer.Ring.Basic

/-!
# Answers

What a session answers to a command: the result of the command itself, how the ring that it is
about stands afterwards, and what was reported on the way. A command that called a stream also
tells of the calls, and each call of the answers to the commands performed in it.
-/

namespace CyclicBuffer

/-- The counts and flags of a ring. -/
structure Inspection where
  capacity : Nat
  overwriting : Bool
  length : Nat
  spare : Nat
  isEmpty : Bool
  isFull : Bool
deriving DecidableEq, Repr, Inhabited

def Ring.inspect (r : Ring) : Inspection :=
  ⟨r.capacity, r.overwriting, r.length, r.spare, r.isEmpty, r.isFull⟩

inductive Value where
  | unit
  | number (n : Nat)
  | flag (b : Bool)
  | bytes (data : Bytes)
  | text (s : String)
  | inspection (i : Inspection)
deriving DecidableEq, Repr, Inhabited

/-- What a stream is offered by a call: places to write to, or bytes. -/
inductive Offer where
  | room (length : Nat)
  | bytes (data : Bytes)
deriving DecidableEq, Repr, Inhabited

/-- A call of a stream, with the answers to the commands performed in it. -/
structure Call (α : Type) where
  offer : Offer
  nested : List α
deriving Repr

/-- The result of a command. -/
inductive Reaction (α : Type) where
  | noRing
  | noTask
  /-- A command done at once; one that takes into a destination also shows that. -/
  | done (result : Except Failure Value) (destination : Option Bytes)
  /-- A transfer that is over; `polls` counts the polls of a run. -/
  | settled (result : Except Failure Value) (calls : List (Call α)) (polls : Option Nat)
  /-- A transfer that has to wait, and whether it has been woken meanwhile. -/
  | pending (woken : Bool) (calls : List (Call α)) (polls : Option Nat)

structure Answer where
  reaction : Reaction Answer
  /-- How the ring stands, if there is one. -/
  standing : Option Occupancy
  /-- What the command itself reported; the commands performed in it answer for themselves. -/
  events : List Event

end CyclicBuffer
