import CyclicBuffer.Event
import CyclicBuffer.Occupancy
import CyclicBuffer.Storage

/-!
# Rings: circular byte buffers

A `Ring` is an occupancy together with the storage that it describes. Its readable bytes, oldest
first, are its `contents`. Bytes are put behind them and taken from their front.

More than one byte is moved in three phases: reserve a region, copy it chunk by chunk, commit what
was copied. The operations of this module run all three at once; a transfer with a stream stretches
them out (see `Transfer`). Every operation yields an `Outcome`: its result, the ring afterwards, and
the events that it reported. An operation that is refused leaves the ring as it was and reports
nothing.
-/

namespace CyclicBuffer

/-- A circular byte buffer of fixed capacity. -/
structure Ring where
  occupancy : Occupancy
  storage : Storage
deriving DecidableEq, Repr, Inhabited

/-- What an operation on a ring comes to. -/
structure Outcome (α : Type) where
  result : Except Failure α
  ring : Ring
  events : List Event := []

namespace Outcome

/-- The operation failed and left the ring at that. -/
def fail {α : Type} (ring : Ring) (f : Failure) : Outcome α := ⟨.error f, ring, []⟩

/-- The operation was refused. -/
def refuse {α : Type} (ring : Ring) (e : Error) : Outcome α := fail ring (.error e)

def map {α β : Type} (f : α → β) (o : Outcome α) : Outcome β :=
  ⟨o.result.map f, o.ring, o.events⟩

end Outcome

namespace Ring

/-- A ring with nothing in it; all its cells hold zero. -/
def vacant (capacity : Nat) (overwriting : Bool) : Ring :=
  ⟨.vacant capacity overwriting, .zeros capacity⟩

def capacity (r : Ring) : Nat := r.storage.size

def length (r : Ring) : Nat := r.occupancy.length

def spare (r : Ring) : Nat := r.occupancy.spare

def overwriting (r : Ring) : Bool := r.occupancy.overwriting

def isEmpty (r : Ring) : Bool := r.length == 0

def isFull (r : Ring) : Bool := r.spare == 0

/-- The readable bytes, oldest first. -/
def contents (r : Ring) : Bytes := r.storage.readRegion r.occupancy.readable

/-! ## Reserving and committing -/

/-- What a granted reservation reports of the bytes that it discarded. -/
def discards (r : Ring) (direction : Direction) (count : Nat) : List Event :=
  match direction with
  | .put => if r.occupancy.deficit count = 0 then [] else [.discarded (r.occupancy.deficit count)]
  | .take => []

/-- Reserves `count` bytes of a direction. -/
def reserve (r : Ring) (direction : Direction) (count : Nat) :
    Except Error (Grant × Ring × List Event) :=
  (r.occupancy.reserve direction count).map fun (region, occupancy) =>
    (⟨direction, region, 0⟩, { r with occupancy },
      r.discards direction count ++ [.reserved direction region.offset count])

/-- Publishes what a grant has moved and frees its direction. -/
def commit (r : Ring) (g : Grant) : Except Fault (Ring × List Event) :=
  (r.occupancy.commit g.direction g.moved).map fun occupancy =>
    ({ r with occupancy }, [.committed g.direction g.region.count g.moved])

/-! ## Chunk by chunk -/

/-- Copies the next bytes at hand to a chunk. -/
def copyIn (chunk : Span) : Storage × Bytes → Storage × Bytes
  | (storage, data) =>
    (storage.write chunk.offset (data.take chunk.length), data.drop chunk.length)

/-- Copies a chunk behind the bytes at hand. -/
def copyOut (chunk : Span) : Storage × Bytes → Storage × Bytes
  | (storage, data) => (storage, data ++ storage.readSpan chunk)

/-- Reserves `count` bytes of a direction, works their region off chunk by chunk and commits what
was moved. The value is the bytes at hand in the end. -/
def moveAll (r : Ring) (direction : Direction) (count : Nat)
    (work : Span → Storage × Bytes → Storage × Bytes) (data : Bytes) : Outcome Bytes :=
  match r.reserve direction count with
  | .error e => .refuse r e
  | .ok (grant, reserved, opening) =>
    let (moved, grant, storage, data) :=
      grant.workOff r.capacity work grant.remaining (reserved.storage, data)
    let worked := { reserved with storage }
    match worked.commit grant with
    | .error f => ⟨.error (.fault f), worked, opening⟩
    | .ok (committed, closing) =>
      ⟨(moved.map fun _ => data).mapError .fault, committed, opening ++ closing⟩

/-! ## Operations -/

/-- Of data that is longer than the whole buffer an overwriting ring keeps only the end, as if
each byte had been put in turn. -/
def trim (r : Ring) (data : Bytes) : Bytes :=
  if r.capacity < data.length && r.overwriting then data.drop (data.length - r.capacity) else data

/-- Appends all of the data. -/
def put (r : Ring) (data : Bytes) : Outcome Unit :=
  let kept := r.trim data
  (r.moveAll .put kept.length copyIn kept).map fun _ => ()

/-- Appends one byte. -/
def putByte (r : Ring) (byte : UInt8) : Outcome Unit :=
  match r.occupancy.putOne with
  | .error e => .refuse r e
  | .ok (cell, occupancy) => ⟨.ok (), ⟨occupancy, r.storage.set cell byte⟩, []⟩

/-- Removes the oldest `count` bytes. -/
def take (r : Ring) (count : Nat) : Outcome Bytes :=
  r.moveAll .take count copyOut []

/-- Removes the oldest `count` bytes into the start of a destination, which must have as many
places. The value is the destination afterwards. -/
def takeInto (r : Ring) (destination : Bytes) (count : Nat) : Outcome Bytes :=
  if destination.length < count then
    .refuse r (.invalidArgument "destination too small for requested output")
  else (r.take count).map (· ++ destination.drop count)

/-- The longest list of bytes that can be asked for. -/
def maxSize : Nat := 0x7fffffffffffffff

/-- Removes the oldest `count` bytes into a list of its own, for which there must be room before
anything else is looked at. -/
def takeList (r : Ring) (count : Nat) : Outcome Bytes :=
  if maxSize < count then .fail r (.fault .tooLarge) else r.take count

/-- Removes the oldest byte. -/
def takeByte (r : Ring) : Outcome UInt8 :=
  match r.occupancy.takeOne with
  | .error e => .refuse r e
  | .ok (cell, occupancy) => ⟨.ok (r.storage.get cell), { r with occupancy }, []⟩

/-- Discards the oldest `count` bytes. -/
def skip (r : Ring) (count : Nat) : Outcome Unit :=
  match r.occupancy.skip count with
  | .error e => .refuse r e
  | .ok occupancy => ⟨.ok (), { r with occupancy }, []⟩

/-- Discards everything and clears the cells. -/
def reset (r : Ring) : Outcome Unit :=
  match r.occupancy.reset with
  | .error e => .refuse r e
  | .ok occupancy => ⟨.ok (), ⟨occupancy, r.storage.clear⟩, [.cleared]⟩

/-- Removes everything and clears the cells. -/
def drain (r : Ring) : Outcome Bytes :=
  match r.occupancy.reset with
  | .error e => .refuse r e
  | .ok occupancy => ⟨.ok r.contents, ⟨occupancy, r.storage.clear⟩, [.drained r.length]⟩

end Ring

end CyclicBuffer
