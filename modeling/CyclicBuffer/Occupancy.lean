import CyclicBuffer.Error
import CyclicBuffer.Storage

/-!
# Occupancy: which cells are in use

An `Occupancy` says where the readable bytes of a buffer lie (`length` cells from `head` on) and
where the next byte goes (`tail`). A put that is under way holds `count` cells from `tail` on, a
take that is under way holds the first `count` readable cells. While a direction is reserved its
cursor does not move, so a reserved region stays valid until it is committed.

A transfer that has reserved a region works on it through a `Grant`, which counts the bytes moved
so far. It is offered to a stream chunk by chunk; a chunk is what is left of the region, up to the
last cell of the buffer.

Nothing here touches a byte; every operation is a decision about numbers of cells.
-/

namespace CyclicBuffer

structure Occupancy where
  capacity : Nat
  /-- The cell of the oldest readable byte. -/
  head : Nat
  /-- The cell after the newest readable byte. -/
  tail : Nat
  /-- The number of readable bytes. -/
  length : Nat
  /-- Whether a put may discard the oldest bytes. -/
  overwriting : Bool
  /-- The region of the put under way. -/
  putting : Option Region
  /-- The region of the take under way. -/
  taking : Option Region
deriving DecidableEq, Repr, Inhabited

namespace Occupancy

/-- Nothing readable and nothing under way. -/
def vacant (capacity : Nat) (overwriting : Bool) : Occupancy :=
  ⟨capacity, 0, 0, 0, overwriting, none, none⟩

/-- The number of bytes that fit without discarding any. -/
def spare (o : Occupancy) : Nat := o.capacity - o.length

/-- The number of bytes that have to go before `count` more fit. -/
def deficit (o : Occupancy) (count : Nat) : Nat := o.length + count - o.capacity

/-- Where the readable bytes lie. -/
def readable (o : Occupancy) : Region := ⟨o.head, o.length⟩

/-- Forgets the oldest `count` bytes. -/
def discard (o : Occupancy) (count : Nat) : Occupancy :=
  { o with head := cellAfter o.capacity o.head count, length := o.length - count }

/-! ## Puts -/

/-- The region of `count` cells after the newest byte, now held by a put. -/
def holdPut (o : Occupancy) (count : Nat) : Region × Occupancy :=
  let region := ⟨o.tail, count⟩
  (region, { o with putting := some region })

/-- Reserves room for `count` bytes. Where there is too little, an overwriting buffer with no take
under way discards its oldest bytes at once, so that a take reserved later cannot see the region
that is being written. -/
def reservePut (o : Occupancy) (count : Nat) : Except Error (Region × Occupancy) :=
  if o.putting.isSome then .error (.operationInProgress .put)
  else if o.capacity < count then .error (.capacityExceeded count o.capacity)
  else if o.deficit count = 0 then .ok (o.holdPut count)
  else if o.overwriting && o.taking.isNone then .ok ((o.discard (o.deficit count)).holdPut count)
  else .error (.insufficientCapacity count o.spare)

/-- Makes the first `moved` bytes of the put under way readable and ends it. -/
def commitPut (o : Occupancy) (moved : Nat) : Except Fault Occupancy :=
  match o.putting with
  | none => .error (.neverReserved .put)
  | some region =>
    .ok { o with
      tail := region.cell o.capacity moved
      length := o.length + moved
      putting := none }

/-- The cell after the newest byte, now in use. -/
def append (o : Occupancy) : Nat × Occupancy :=
  (o.tail, { o with tail := cellAfter o.capacity o.tail 1, length := o.length + 1 })

/-- Makes room for one byte; returns the cell that it goes to. -/
def putOne (o : Occupancy) : Except Error (Nat × Occupancy) :=
  if o.putting.isSome then .error (.operationInProgress .put)
  else if o.length ≠ o.capacity then .ok o.append
  else if !o.overwriting then .error (.capacityExceeded 1 o.capacity)
  else if o.taking.isSome then .error (.insufficientCapacity 1 0)
  else .ok (o.discard 1).append

/-! ## Takes -/

/-- Checks that the oldest `count` bytes can be taken. -/
def checkTake (o : Occupancy) (count : Nat) : Except Error Unit :=
  if o.taking.isSome then .error (.operationInProgress .take)
  else if o.length < count then .error (.insufficientContent count o.length)
  else .ok ()

/-- Reserves the oldest `count` bytes. -/
def reserveTake (o : Occupancy) (count : Nat) : Except Error (Region × Occupancy) :=
  (o.checkTake count).map fun _ =>
    let region := ⟨o.head, count⟩
    (region, { o with taking := some region })

/-- Frees the cells of the first `moved` bytes of the take under way and ends it. -/
def commitTake (o : Occupancy) (moved : Nat) : Except Fault Occupancy :=
  match o.taking with
  | none => .error (.neverReserved .take)
  | some region =>
    .ok { o with
      head := region.cell o.capacity moved
      length := o.length - moved
      taking := none }

/-- Removes the oldest byte; returns the cell that it lies in. -/
def takeOne (o : Occupancy) : Except Error (Nat × Occupancy) :=
  (o.checkTake 1).map fun _ => (o.head, o.discard 1)

/-- Discards the oldest `count` bytes unread. -/
def skip (o : Occupancy) (count : Nat) : Except Error Occupancy :=
  (o.checkTake count).map fun _ => o.discard count

/-! ## Both directions -/

/-- Forgets everything, unless a transfer is under way. -/
def reset (o : Occupancy) : Except Error Occupancy :=
  if o.putting.isSome then .error (.operationInProgress .put)
  else if o.taking.isSome then .error (.operationInProgress .take)
  else .ok (vacant o.capacity o.overwriting)

def reserve (o : Occupancy) : Direction → Nat → Except Error (Region × Occupancy)
  | .put => o.reservePut
  | .take => o.reserveTake

def commit (o : Occupancy) : Direction → Nat → Except Fault Occupancy
  | .put => o.commitPut
  | .take => o.commitTake

end Occupancy

/-! ## Grants -/

/-- The region of one transfer, and how much of it has been moved. -/
structure Grant where
  direction : Direction
  region : Region
  moved : Nat
deriving DecidableEq, Repr, Inhabited

namespace Grant

/-- The number of bytes still to move. -/
def remaining (g : Grant) : Nat := g.region.count - g.moved

/-- What is left of the region. -/
def rest (capacity : Nat) (g : Grant) : Region := g.region.dropFirst capacity g.moved

/-- The cells offered next. -/
def chunk (capacity : Nat) (g : Grant) : Span := ((g.rest capacity).spans capacity).1

/-- Counts `count` more bytes as moved; there must be as many left. -/
def advance (g : Grant) (count : Nat) : Except Fault Grant :=
  if g.remaining < count then .error .pastEnd else .ok { g with moved := g.moved + count }

/-- Works a grant off: handles the chunk offered next, counts all of it as moved and goes on, until
no byte is left. A pass moves one byte at least, so as many passes are enough as there are bytes. -/
def workOff {σ : Type} (capacity : Nat) (work : Span → σ → σ) :
    Nat → Grant → σ → Except Fault Unit × Grant × σ
  | 0, g, state => (.ok (), g, state)
  | passes + 1, g, state =>
    if g.remaining = 0 then (.ok (), g, state)
    else
      let chunk := g.chunk capacity
      let state := work chunk state
      match g.advance chunk.length with
      | .error f => (.error f, g, state)
      | .ok next => workOff capacity work passes next state

end Grant

end CyclicBuffer
