import CyclicBuffer.Error

/-!
# Events

What a buffer reports while it works: a trace of every reservation and its commit, a note of what
was discarded, cleared or built, and a warning for every transfer that moved fewer bytes than it
was asked to.
-/

namespace CyclicBuffer

inductive Level where
  | trace
  | debug
  | warn
deriving DecidableEq, Repr, Inhabited

/-- What a transfer with a stream is for. -/
inductive Purpose where
  /-- Put up to so many bytes; the end of the source ends the transfer early. -/
  | fill
  /-- Put so many bytes; the end of the source is an error. -/
  | fillExactly
  /-- Take so many bytes. -/
  | send
deriving DecidableEq, Repr, Inhabited

def Purpose.direction : Purpose → Direction
  | .fill | .fillExactly => .put
  | .send => .take

inductive Event where
  /-- The oldest bytes were dropped to make room for a put. -/
  | discarded (deficit : Nat)
  | reserved (direction : Direction) (offset count : Nat)
  | committed (direction : Direction) (held transferred : Nat)
  | built (capacity : Nat) (overwriting : Bool) (preloaded : Nat)
  | cleared
  | drained (length : Nat)
  /-- The stream of a transfer failed. -/
  | interrupted (direction : Direction) (transferred : Nat) (error : StreamError)
  /-- A sink took nothing of what it was offered. -/
  | sinkStopped (transferred : Nat)
  /-- A source ended before an exact put was complete. -/
  | sourceEnded (expected transferred : Nat)
  /-- A token stopped a transfer. -/
  | cancelled (purpose : Purpose) (expected transferred : Nat)
deriving DecidableEq, Repr

instance : Inhabited Event := ⟨.cleared⟩

namespace Event

def level : Event → Level
  | .reserved .. | .committed .. => .trace
  | .discarded .. | .built .. | .cleared | .drained .. => .debug
  | .interrupted .. | .sinkStopped .. | .sourceEnded .. | .cancelled .. => .warn

def message : Event → String
  | .discarded .. => "discarding oldest bytes to make room"
  | .reserved direction .. => "allocated " ++ direction.text ++ " reservation"
  | .committed direction .. => "published " ++ direction.text ++ " reservation"
  | .built .. => "created ring buffer"
  | .cleared => "reset ring buffer"
  | .drained .. => "drained ring buffer"
  | .interrupted .put .. => "put interrupted by source error"
  | .interrupted .take .. => "take interrupted by destination error"
  | .sinkStopped .. => "destination stopped accepting data"
  | .sourceEnded .. => "source ended before exact put completed"
  | .cancelled .fill .. => "put cancelled"
  | .cancelled .fillExactly .. => "exact put cancelled"
  | .cancelled .send .. => "take cancelled"

/-- What an event records beside its message. -/
inductive Detail where
  | count (n : Nat)
  | flag (b : Bool)
  | text (s : String)
deriving DecidableEq, Repr, Inhabited

/-- The details of an event with their names. -/
def details : Event → List (String × Detail)
  | .discarded deficit => [("deficit", .count deficit)]
  | .reserved _ offset count => [("offset", .count offset), ("count", .count count)]
  | .committed _ held transferred =>
    [("reserved", .count held), ("transferred", .count transferred)]
  | .built capacity overwriting preloaded =>
    [("capacity", .count capacity), ("allow_overwrite", .flag overwriting),
      ("preloaded", .count preloaded)]
  | .cleared => []
  | .drained length => [("len", .count length)]
  | .interrupted _ transferred error =>
    [("transferred", .count transferred), ("error", .text error.text)]
  | .sinkStopped transferred => [("transferred", .count transferred)]
  | .sourceEnded expected transferred | .cancelled _ expected transferred =>
    [("expected", .count expected), ("transferred", .count transferred)]

end Event

end CyclicBuffer
