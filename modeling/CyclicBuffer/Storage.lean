/-!
# Storage: the cells of a buffer

A storage is a fixed number of cells with one byte each. It knows nothing of which cells are in
use: taken bytes stay where they are until something is written over them or all cells are
cleared.

The cells are numbered `0 .. capacity - 1` and the last one is followed by the first. A `Region` is
a run of cells on that circle; a `Span` is a run that does not pass the last cell. `Region.spans`
cuts a region where it passes the last cell, so it needs at most two spans.
-/

namespace CyclicBuffer

/-! ## Regions and spans -/

/-- A run of consecutive cells that stays below the capacity. -/
structure Span where
  offset : Nat
  length : Nat
deriving DecidableEq, Repr, Inhabited

/-- A run of `count` cells that starts at `offset` and goes on at cell zero after the last one. -/
structure Region where
  offset : Nat
  count : Nat
deriving DecidableEq, Repr, Inhabited

/-- The cell `steps` after `cell` on a circle of `capacity` cells. -/
def cellAfter (capacity cell steps : Nat) : Nat := (cell + steps) % capacity

namespace Region

/-- The `i`-th cell of the region. -/
def cell (capacity : Nat) (r : Region) (i : Nat) : Nat := cellAfter capacity r.offset i

/-- The region up to the last cell, then what is left of it from cell zero on. The second span is
empty unless the region passes the last cell. -/
def spans (capacity : Nat) (r : Region) : Span × Span :=
  let first := min r.count (capacity - r.offset)
  (⟨r.offset, first⟩, ⟨0, r.count - first⟩)

/-- The region without its first `moved` cells. -/
def dropFirst (capacity : Nat) (r : Region) (moved : Nat) : Region :=
  ⟨r.cell capacity moved, r.count - moved⟩

end Region

/-! ## Cells -/

/-- Bytes in the order in which they are moved. -/
abbrev Bytes := List UInt8

/-- A fixed number of cells. -/
structure Storage where
  cells : Array UInt8
deriving DecidableEq, Repr, Inhabited

namespace Storage

/-- Cells that all hold zero. -/
def zeros (size : Nat) : Storage := ⟨Array.replicate size 0⟩

def size (s : Storage) : Nat := s.cells.size

/-- The byte of a cell; a cell that does not exist reads as zero. -/
def get (s : Storage) (cell : Nat) : UInt8 := s.cells.getD cell 0

/-- Writes one byte; writing to a cell that does not exist changes nothing. -/
def set (s : Storage) (cell : Nat) (byte : UInt8) : Storage := ⟨s.cells.setIfInBounds cell byte⟩

/-- The bytes of `length` cells from `offset` on. -/
def read (s : Storage) (offset length : Nat) : Bytes :=
  (s.cells.extract offset (offset + length)).toList

/-- Writes the bytes to consecutive cells from `offset` on. -/
def write (s : Storage) (offset : Nat) : Bytes → Storage
  | [] => s
  | b :: bs => (s.set offset b).write (offset + 1) bs

def clear (s : Storage) : Storage := zeros s.size

def toList (s : Storage) : Bytes := s.cells.toList

def readSpan (s : Storage) (p : Span) : Bytes := s.read p.offset p.length

/-- The bytes of a region in order, read span by span. -/
def readRegion (s : Storage) (r : Region) : Bytes :=
  let (first, second) := r.spans s.size
  s.readSpan first ++ s.readSpan second

/-- Fills a region with as many bytes as it has cells, span by span. -/
def writeRegion (s : Storage) (r : Region) (data : Bytes) : Storage :=
  let (first, second) := r.spans s.size
  (s.write first.offset (data.take first.length)).write second.offset (data.drop first.length)

end Storage

end CyclicBuffer
