import CyclicBuffer.Outline
import CyclicBuffer.Session.Answer
import CyclicBuffer.Session.Command

/-!
# Sessions: rings, tasks and tokens

A session keeps every ring that was ever built, and a table of names for those in use: a task goes
on with its ring even if the name is given to another. Beside them it keeps the tasks that wait or
have not started, the cancels of tokens, and a journal of all events with the ring that each is
about.

What a token tells is not for the session to say. It comes from a library of `Tokens`, which is
asked whether a token is cancelled, polled by those that wait for the cancel, and wakes them. A
session works with any such library.
-/

namespace CyclicBuffer

/-- A transfer with its stream. It has a grant once it has started. -/
structure Transfer where
  /-- The name of the ring when the transfer was asked for. -/
  name : Nat
  /-- The ring itself, by its place among all rings. -/
  ring : Nat
  request : Request
  stream : List Turn
  grant : Option Grant

/-- A library of tokens. What it tells of a token depends on how often that has been cancelled. -/
structure Tokens where
  /-- Whether a token is said to be cancelled after so many cancels. -/
  isCancelled (cancels : Nat) : Bool
  /-- Whether somebody who waits for the cancel is told of it by a poll after so many cancels,
  having polled so often before. -/
  isReady (cancels polls : Nat) : Bool
  /-- Whether a cancel after so many others wakes somebody who waits and has polled so often. -/
  wakes (cancels polls : Nat) : Bool

/-- A transfer that can be suspended. -/
structure Task where
  transfer : Transfer
  token : Nat
  woken : Bool
  /-- How often the task has polled for the cancel in the call that made it wait. -/
  awaits : Option Nat

/-- A cancel of the token wakes a task that waits for it, if the library does so. -/
def Task.wake (token : Nat) (wakes : Nat → Bool) (task : Task) : Task :=
  { task with woken := task.woken || (task.token == token && task.awaits.any wakes) }

structure Session where
  tokens : Tokens
  /-- All rings that were ever built. -/
  rings : Array Ring := #[]
  /-- The rings in use, by name. -/
  names : List (Nat × Nat) := []
  tasks : List (Nat × Task) := []
  /-- The tokens in the order in which they were cancelled, the last one first. -/
  cancelled : List Nat := []
  journal : List (Nat × Event) := []

namespace Session

/-! ## Tables -/

/-- The ring of a name, by its place. -/
def place? (s : Session) (name : Nat) : Option Nat := s.names.lookup name

/-- The ring at a place; a place without one has a ring without cells. -/
def ring (s : Session) (place : Nat) : Ring := s.rings.getD place default

/-- How the ring of a name stands. -/
def standing? (s : Session) (name : Nat) : Option Occupancy :=
  (s.place? name).map fun place => (s.ring place).occupancy

def task? (s : Session) (id : Nat) : Option Task := s.tasks.lookup id

def removeTask (s : Session) (id : Nat) : Session :=
  { s with tasks := s.tasks.filter fun entry => entry.1 != id }

/-- Writes events about a ring into the journal. -/
def note (s : Session) (place : Nat) (events : List Event) : Session :=
  { s with journal := s.journal ++ events.map fun e => (place, e) }

/-- Changes a ring and notes what it reported. -/
def update (s : Session) (place : Nat) (ring : Ring) (events : List Event) : Session :=
  { s with rings := s.rings.setIfInBounds place ring }.note place events

/-- A source writes data to what its transfer offers it. A sink writes nothing. -/
def receive (s : Session) (place : Nat) (g : Grant) (data : Bytes) : Session :=
  match g.direction with
  | .put => s.update place ((s.ring place).receive g data) []
  | .take => s

/-- Gives a new ring a name. -/
def addRing (s : Session) (name : Nat) (ring : Ring) (events : List Event) : Session :=
  { s with
    rings := s.rings.push ring
    names := (name, s.rings.size) :: s.names.filter fun entry => entry.1 != name
  }.note s.rings.size events

/-! ## Tokens -/

/-- How often a token has been cancelled. -/
def cancels (s : Session) (token : Nat) : Nat := s.cancelled.count token

def isCancelled (s : Session) (token : Nat) : Bool := s.tokens.isCancelled (s.cancels token)

/-- Whether a poll tells somebody who waits for the token, after so many polls, of a cancel. -/
def isReady (s : Session) (token polls : Nat) : Bool := s.tokens.isReady (s.cancels token) polls

/-- Whether a cancel of the token wakes somebody who waits for it after so many polls. -/
def wakes (s : Session) (token polls : Nat) : Bool := s.tokens.wakes (s.cancels token) polls

/-! ## Tasks -/

/-- Lets a transfer go: what it has moved is committed. -/
def abandon (s : Session) (t : Transfer) : Except Fault (Session × List Event) :=
  match t.grant with
  | none => .ok (s, [])
  | some g =>
    ((s.ring t.ring).commit g).map fun (ring, events) => (s.update t.ring ring events, events)

/-- Takes a task out of the table, if it is there, and lets it go. -/
def dropTask (s : Session) (id : Nat) : Except Fault (Session × List Event) :=
  match s.task? id with
  | none => .ok (s, [])
  | some task => (s.removeTask id).abandon task.transfer

/-- Puts a task into the table; one of the same name is let go. -/
def addTask (s : Session) (id : Nat) (task : Task) : Except Fault (Session × List Event) :=
  (s.dropTask id).map fun (s, events) => ({ s with tasks := (id, task) :: s.tasks }, events)

/-- Cancels a token, which wakes the tasks that the library wakes. -/
def cancel (s : Session) (token : Nat) : Session :=
  { s with
    cancelled := token :: s.cancelled
    tasks := s.tasks.map fun entry => (entry.1, entry.2.wake token (s.wakes token)) }

/-! ## Errands -/

/-- The name of the ring that an errand is about: that of the task where there is one. -/
def subject (s : Session) (name : Nat) : Errand → Nat
  | .drop id | .isWoken id => ((s.task? id).map fun task => task.transfer.name).getD name
  | _ => name

/-- What an errand leads to. -/
structure Effect where
  session : Session
  reaction : Reaction Answer
  events : List Event := []

/-- The value of an operation, and the destination that it shows. -/
def shown (operation : Operation) (result : Except Failure Operation.Value) :
    Reaction Answer :=
  match operation with
  | .takeInto destination _ =>
    match result with
    | .ok (.bytes filled) => .done (.ok .unit) (some filled)
    | .ok _ => .done (.ok .unit) (some destination)
    | .error f => .done (.error f) (some destination)
  | _ =>
    .done (result.map fun
      | .unit => .unit
      | .byte b => .number b.toNat
      | .bytes data => .bytes data) none

/-- Does an errand that is about the ring of a name. -/
def onRing (s : Session) (name : Nat) (act : Nat → Ring → Effect) : Effect :=
  match s.place? name with
  | none => ⟨s, .noRing, []⟩
  | some place => act place (s.ring place)

def errand (s : Session) (name : Nat) : Errand → Effect
  | .create blueprint =>
    match blueprint.build with
    | (.error f, events) => ⟨s, .done (.error f) none, events⟩
    | (.ok ring, events) => ⟨s.addRing name ring events, .done (.ok .unit) none, events⟩
  | .operate operation =>
    s.onRing name fun place ring =>
      let outcome := ring.apply operation
      ⟨s.update place outcome.ring outcome.events, shown operation outcome.result,
        outcome.events⟩
  | .inspect =>
    s.onRing name fun _ ring => ⟨s, .done (.ok (.inspection ring.inspect)) none, []⟩
  | .describe =>
    s.onRing name fun _ ring => ⟨s, .done (.ok (.text ring.outline.indented)) none, []⟩
  | .drop id =>
    match s.dropTask id with
    | .error f => ⟨s, .done (.error (.fault f)) none, []⟩
    | .ok (s', events) => ⟨s', .done (.ok (.flag (s.task? id).isSome)) none, events⟩
  | .isWoken id =>
    match s.task? id with
    | none => ⟨s, .noTask, []⟩
    | some task => ⟨s, .done (.ok (.flag task.woken)) none, []⟩
  | .isCancelled token => ⟨s, .done (.ok (.flag (s.isCancelled token))) none, []⟩

/-- Makes a task of a transfer with the ring of a name. -/
def spawn (s : Session) (name id : Nat) (request : Request) (stream : List Turn) (token : Nat) :
    Effect :=
  s.onRing name fun place _ =>
    match s.addTask id ⟨⟨name, place, request, stream, none⟩, token, false, none⟩ with
    | .error f => ⟨s, .done (.error (.fault f)) none, []⟩
    | .ok (s', events) => ⟨s', .done (.ok .unit) none, events⟩

end Session

end CyclicBuffer
