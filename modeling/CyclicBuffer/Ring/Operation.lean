import CyclicBuffer.Ring.Basic

/-!
# Operations and primitive steps as data

The eight operations that a ring carries out by itself, without a stream, and the smallest steps
that it takes, each on its own: reserving and committing without copying, single bytes, and direct
access to the cells. Whole operations are made of these.
-/

namespace CyclicBuffer

/-! ## Operations -/

inductive Operation where
  | put (data : Bytes)
  | putByte (byte : UInt8)
  | takeInto (destination : Bytes) (count : Nat)
  | takeList (count : Nat)
  | takeByte
  | skip (count : Nat)
  | reset
  | drain
deriving DecidableEq, Repr

namespace Operation

/-- What an operation answers. For `takeInto` it is the destination afterwards. -/
inductive Value where
  | unit
  | byte (b : UInt8)
  | bytes (data : Bytes)
deriving DecidableEq, Repr, Inhabited

end Operation

def Ring.apply (r : Ring) : Operation → Outcome Operation.Value
  | .put data => (r.put data).map fun _ => .unit
  | .putByte byte => (r.putByte byte).map fun _ => .unit
  | .takeInto destination count => (r.takeInto destination count).map .bytes
  | .takeList count => (r.takeList count).map .bytes
  | .takeByte => r.takeByte.map .byte
  | .skip count => (r.skip count).map fun _ => .unit
  | .reset => r.reset.map fun _ => .unit
  | .drain => r.drain.map .bytes

/-! ## Primitive steps -/

inductive Primitive where
  | reserve (direction : Direction) (count : Nat)
  | commit (direction : Direction) (moved : Nat)
  | skip (count : Nat)
  /-- Forgets all bytes and leaves the cells alone. -/
  | forget
  | putByte (byte : UInt8)
  | takeByte
  /-- Zeroes all cells. -/
  | clear
  /-- Writes bytes to consecutive cells. -/
  | store (cell : Nat) (data : Bytes)
deriving DecidableEq, Repr

namespace Primitive

/-- What a primitive step answers. -/
inductive Value where
  | unit
  | region (r : Region)
  | byte (b : UInt8)
deriving DecidableEq, Repr, Inhabited

end Primitive

/-- Takes a primitive step. Of the events only discarding is reported at this level. -/
def Ring.step (r : Ring) : Primitive → Outcome Primitive.Value
  | .reserve direction count =>
    match r.occupancy.reserve direction count with
    | .error e => .refuse r e
    | .ok (region, occupancy) =>
      ⟨.ok (.region region), { r with occupancy }, r.discards direction count⟩
  | .commit direction moved =>
    match r.occupancy.commit direction moved with
    | .error f => .fail r (.fault f)
    | .ok occupancy => ⟨.ok .unit, { r with occupancy }, []⟩
  | .skip count => (r.skip count).map fun _ => .unit
  | .forget =>
    match r.occupancy.reset with
    | .error e => .refuse r e
    | .ok occupancy => ⟨.ok .unit, { r with occupancy }, []⟩
  | .putByte byte => (r.putByte byte).map fun _ => .unit
  | .takeByte => r.takeByte.map .byte
  | .clear => ⟨.ok .unit, { r with storage := r.storage.clear }, []⟩
  | .store cell data => ⟨.ok .unit, { r with storage := r.storage.write cell data }, []⟩

/-- Takes primitive steps one after another. A step that fails does not stop the others. -/
def Ring.steps (r : Ring) : List Primitive → List (Outcome Primitive.Value)
  | [] => []
  | p :: ps =>
    let outcome := r.step p
    outcome :: outcome.ring.steps ps

end CyclicBuffer
