import CyclicBuffer.Ring.Blueprint
import CyclicBuffer.Ring.Operation
import CyclicBuffer.Transfer

/-!
# Commands and stream scripts

A session is told what to do by commands. Each names a ring, and its action is done at once, or
runs a transfer with a stream, or looks after a task. A task is a transfer that can be suspended:
it is spawned, polled until it is ready, or dropped.

The stream of a transfer follows a script of `Turn`s. Every call of the stream takes turns off the
script until one of them decides what the call answers. A turn can also perform commands, so that
operations run while the transfer is under way.
-/

namespace CyclicBuffer

/-- An action that is done at once. -/
inductive Errand where
  /-- Builds a ring under the name of the command, in place of one that has that name. -/
  | create (blueprint : Blueprint)
  | operate (operation : Operation)
  /-- Asks for the counts and flags of the ring. -/
  | inspect
  /-- Asks for the state of the ring, a part a line. -/
  | describe
  /-- Drops a task; what it has moved is committed. -/
  | drop (task : Nat)
  /-- Asks whether a task was woken since its last poll began. -/
  | isWoken (task : Nat)
  | isCancelled (token : Nat)
deriving DecidableEq, Repr

mutual

inductive Action where
  | errand (e : Errand)
  /-- Runs a transfer to its end. -/
  | transfer (request : Request) (stream : List Turn)
  /-- Makes a task of a transfer, which does not start yet. A task of the same name is dropped. -/
  | spawn (task : Nat) (request : Request) (stream : List Turn) (token : Nat)
  /-- Lets a task go on until it is ready or has to wait. -/
  | poll (task : Nat)
  /-- Polls a task again and again, as long as it has to wait and has been woken. -/
  | run (task : Nat)
  /-- Cancels a token, which wakes those who wait for it, if the library of tokens does so. -/
  | cancel (token : Nat)

inductive Command where
  | on (ring : Nat) (action : Action)

/-- A turn of a stream. -/
inductive Turn where
  /-- Perform commands, then go on to the next turn in the same call. -/
  | perform (commands : List Command)
  /-- Move the data, or as much of it as was offered; the rest stays for the next call. -/
  | deliver (data : Bytes)
  /-- Report so many bytes as moved, or as many as were offered, and write nothing. -/
  | accept (count : Nat)
  /-- Report so many bytes as moved, however many were offered, and write nothing. -/
  | claim (count : Nat)
  /-- Write the data and report so many bytes as moved, whatever was written. No more is written or
  reported than was offered, and a byte is reported at least. A sink writes nothing. -/
  | spill (data : Bytes) (count : Nat)
  | fail (error : StreamError)
  | raise (text : String)
  /-- Make the caller wait, and wake it at once if so told. A caller that cannot wait is refused. -/
  | suspend (wake : Bool)

end

end CyclicBuffer
