import CyclicBuffer.Ring.Blueprint
import CyclicBuffer.Text.Outline
import CyclicBuffer.Text.Quoted

/-!
# Outlines of errors and rings

Every error, cause and direction has a name of its own; an error is shown as its name with its
parts. A ring shows its occupancy and leaves its cells out; a blueprint shows all that it holds.
-/

namespace CyclicBuffer

open Text (Outline quoted)

/-! ## Errors -/

def Direction.name : Direction → String
  | .put => "Put"
  | .take => "Take"

def Cause.name : Cause → String
  | .notFound => "NotFound"
  | .permissionDenied => "PermissionDenied"
  | .connectionRefused => "ConnectionRefused"
  | .connectionReset => "ConnectionReset"
  | .connectionAborted => "ConnectionAborted"
  | .notConnected => "NotConnected"
  | .addrInUse => "AddrInUse"
  | .addrNotAvailable => "AddrNotAvailable"
  | .brokenPipe => "BrokenPipe"
  | .alreadyExists => "AlreadyExists"
  | .wouldBlock => "WouldBlock"
  | .invalidInput => "InvalidInput"
  | .invalidData => "InvalidData"
  | .timedOut => "TimedOut"
  | .writeZero => "WriteZero"
  | .interrupted => "Interrupted"
  | .unsupported => "Unsupported"
  | .unexpectedEof => "UnexpectedEof"
  | .outOfMemory => "OutOfMemory"
  | .other => "Other"
  | .hostUnreachable => "HostUnreachable"
  | .networkUnreachable => "NetworkUnreachable"
  | .networkDown => "NetworkDown"
  | .notADirectory => "NotADirectory"
  | .isADirectory => "IsADirectory"
  | .directoryNotEmpty => "DirectoryNotEmpty"
  | .readOnlyFilesystem => "ReadOnlyFilesystem"
  | .filesystemLoop => "FilesystemLoop"
  | .staleNetworkFileHandle => "StaleNetworkFileHandle"
  | .storageFull => "StorageFull"
  | .notSeekable => "NotSeekable"
  | .quotaExceeded => "QuotaExceeded"
  | .fileTooLarge => "FileTooLarge"
  | .resourceBusy => "ResourceBusy"
  | .executableFileBusy => "ExecutableFileBusy"
  | .deadlock => "Deadlock"
  | .crossesDevices => "CrossesDevices"
  | .tooManyLinks => "TooManyLinks"
  | .invalidFilename => "InvalidFilename"
  | .argumentListTooLong => "ArgumentListTooLong"
  | .inProgress => "InProgress"
  | .uncategorized => "Uncategorized"

def Error.name : Error → String
  | .invalidArgument .. => "InvalidArgument"
  | .capacityExceeded .. => "CapacityExceeded"
  | .insufficientCapacity .. => "InsufficientCapacity"
  | .insufficientContent .. => "InsufficientContent"
  | .operationInProgress .. => "OperationInProgress"
  | .unexpectedEndOfInput .. => "UnexpectedEndOfInput"
  | .cancelled .. => "Cancelled"
  | .stream .. => "Io"

mutual

def Error.outline : Error → Outline
  | .invalidArgument reason => .wrapped "InvalidArgument" (.word (quoted reason))
  | .capacityExceeded requested capacity =>
    .record "CapacityExceeded"
      [("requested", .number requested), ("capacity", .number capacity)] false
  | .insufficientCapacity requested spare =>
    .record "InsufficientCapacity"
      [("requested", .number requested), ("spare", .number spare)] false
  | .insufficientContent requested available =>
    .record "InsufficientContent"
      [("requested", .number requested), ("available", .number available)] false
  | .operationInProgress direction => .wrapped "OperationInProgress" (.word direction.name)
  | .unexpectedEndOfInput expected transferred =>
    .record "UnexpectedEndOfInput"
      [("expected", .number expected), ("transferred", .number transferred)] false
  | .cancelled transferred => .record "Cancelled" [("transferred", .number transferred)] false
  | .stream e => .wrapped "Io" e.outline

def StreamError.outline : StreamError → Outline
  | .bare c => .wrapped "Kind" (.word c.name)
  | .message c text =>
    .record "Custom" [("kind", .word c.name), ("error", .word (quoted text))] false
  | .carrying c e => .record "Custom" [("kind", .word c.name), ("error", e.outline)] false

end

/-! ## Rings -/

def Region.outline (r : Region) : Outline :=
  .record "Reservation" [("offset", .number r.offset), ("count", .number r.count)] false

/-- A direction of a ring is idle or holds a region. -/
def Region.slotOutline : Option Region → Outline
  | none => .word "Idle"
  | some r => .wrapped "Reserved" r.outline

def Occupancy.outline (o : Occupancy) : Outline :=
  .record "Cursors"
    [("capacity", .number o.capacity), ("head", .number o.head), ("tail", .number o.tail),
      ("len", .number o.length), ("allow_overwrite", .flag o.overwriting),
      ("put", Region.slotOutline o.putting), ("take", Region.slotOutline o.taking)] false

/-- The outline of a ring of the given occupancy. -/
def Occupancy.ringOutline (o : Occupancy) : Outline :=
  .record "ConcurrentRingBuffer" [("state", o.outline)] true

def Ring.outline (r : Ring) : Outline := r.occupancy.ringOutline

def Blueprint.outline (b : Blueprint) : Outline :=
  .record "Builder"
    [("capacity", .number b.capacity), ("allow_overwrite", .flag b.overwriting),
      ("contents",
        .optional (b.contents.map fun data => .list (data.map fun byte => .number byte.toNat)))]
    false

end CyclicBuffer
