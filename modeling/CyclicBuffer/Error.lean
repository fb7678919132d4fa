/-!
# Errors

`Error` says why a buffer operation was refused or cut short, `StreamError` why a byte stream
failed. Each can hold the other: a transfer fails with the error of its stream, and a buffer error
can be handed on through an interface that only knows stream errors. The conversions never nest:
a stream error that passes through a buffer error comes back as it was.

A `Fault` is no answer to a request but a broken rule of use, and ends the operation that meets it.
-/

namespace CyclicBuffer

/-- The two ways in which bytes move. -/
inductive Direction where
  | put
  | take
deriving DecidableEq, Repr, Inhabited

/-- The kind of a stream failure. -/
inductive Cause where
  | notFound
  | permissionDenied
  | connectionRefused
  | connectionReset
  | connectionAborted
  | notConnected
  | addrInUse
  | addrNotAvailable
  | brokenPipe
  | alreadyExists
  | wouldBlock
  | invalidInput
  | invalidData
  | timedOut
  | writeZero
  | interrupted
  | unsupported
  | unexpectedEof
  | outOfMemory
  | other
  | hostUnreachable
  | networkUnreachable
  | networkDown
  | notADirectory
  | isADirectory
  | directoryNotEmpty
  | readOnlyFilesystem
  | filesystemLoop
  | staleNetworkFileHandle
  | storageFull
  | notSeekable
  | quotaExceeded
  | fileTooLarge
  | resourceBusy
  | executableFileBusy
  | deadlock
  | crossesDevices
  | tooManyLinks
  | invalidFilename
  | argumentListTooLong
  | inProgress
  | uncategorized
deriving DecidableEq, Repr, Inhabited

mutual

/-- Why a buffer operation was refused or cut short. Only the last three can arise after bytes
have moved. -/
inductive Error where
  | invalidArgument (reason : String)
  | capacityExceeded (requested capacity : Nat)
  | insufficientCapacity (requested spare : Nat)
  | insufficientContent (requested available : Nat)
  | operationInProgress (direction : Direction)
  | unexpectedEndOfInput (expected transferred : Nat)
  | cancelled (transferred : Nat)
  | stream (error : StreamError)
deriving DecidableEq, Repr

/-- Why a byte stream failed: a bare cause, a cause with a message of its own, or a cause that
carries a buffer error. -/
inductive StreamError where
  | bare (cause : Cause)
  | message (cause : Cause) (text : String)
  | carrying (cause : Cause) (error : Error)
deriving DecidableEq, Repr

end

instance : Inhabited Error := ⟨.cancelled 0⟩

instance : Inhabited StreamError := ⟨.bare .other⟩

/-- A broken rule of use. -/
inductive Fault where
  /-- A stream reported more bytes than were left to move. -/
  | pastEnd
  /-- A commit in a direction that holds no reservation. -/
  | neverReserved (direction : Direction)
  /-- A size that no memory can have. -/
  | tooLarge
  /-- A stream gave up with a text of its own. -/
  | raised (text : String)
deriving DecidableEq, Repr, Inhabited

/-- How an operation can fail. -/
inductive Failure where
  | error (e : Error)
  | fault (f : Fault)
deriving DecidableEq, Repr, Inhabited

/-! ## Counts and causes -/

/-- The number of bytes moved before the error, as far as the error records it. -/
def Error.transferred : Error → Nat
  | .unexpectedEndOfInput _ transferred => transferred
  | .cancelled transferred => transferred
  | _ => 0

def StreamError.cause : StreamError → Cause
  | .bare c => c
  | .message c _ => c
  | .carrying c _ => c

/-- The cause under which an error is handed on as a stream error. -/
def Error.cause : Error → Cause
  | .invalidArgument _ => .invalidInput
  | .capacityExceeded _ _ => .invalidInput
  | .insufficientCapacity _ _ => .wouldBlock
  | .insufficientContent _ _ => .wouldBlock
  | .operationInProgress _ => .wouldBlock
  | .unexpectedEndOfInput _ _ => .unexpectedEof
  | .cancelled _ => .other
  | .stream e => e.cause

/-! ## Conversions -/

/-- An error handed on as a stream error: the stream error that it holds, or else one that carries
it. -/
def Error.toStreamError : Error → StreamError
  | .stream e => e
  | e => .carrying e.cause e

/-- The buffer error that a stream error carries. -/
def StreamError.carried? : StreamError → Option Error
  | .carrying _ e => some e
  | _ => none

/-! ## Texts -/

def Direction.text : Direction → String
  | .put => "put"
  | .take => "take"

def Cause.text : Cause → String
  | .notFound => "entity not found"
  | .permissionDenied => "permission denied"
  | .connectionRefused => "connection refused"
  | .connectionReset => "connection reset"
  | .connectionAborted => "connection aborted"
  | .notConnected => "not connected"
  | .addrInUse => "address in use"
  | .addrNotAvailable => "address not available"
  | .brokenPipe => "broken pipe"
  | .alreadyExists => "entity already exists"
  | .wouldBlock => "operation would block"
  | .invalidInput => "invalid input parameter"
  | .invalidData => "invalid data"
  | .timedOut => "timed out"
  | .writeZero => "write zero"
  | .interrupted => "operation interrupted"
  | .unsupported => "unsupported"
  | .unexpectedEof => "unexpected end of file"
  | .outOfMemory => "out of memory"
  | .other => "other error"
  | .hostUnreachable => "host unreachable"
  | .networkUnreachable => "network unreachable"
  | .networkDown => "network down"
  | .notADirectory => "not a directory"
  | .isADirectory => "is a directory"
  | .directoryNotEmpty => "directory not empty"
  | .readOnlyFilesystem => "read-only filesystem or storage medium"
  | .filesystemLoop => "filesystem loop or indirection limit (e.g. symlink loop)"
  | .staleNetworkFileHandle => "stale network file handle"
  | .storageFull => "no storage space"
  | .notSeekable => "seek on unseekable file"
  | .quotaExceeded => "quota exceeded"
  | .fileTooLarge => "file too large"
  | .resourceBusy => "resource busy"
  | .executableFileBusy => "executable file busy"
  | .deadlock => "deadlock"
  | .crossesDevices => "cross-device link or rename"
  | .tooManyLinks => "too many links"
  | .invalidFilename => "invalid filename"
  | .argumentListTooLong => "argument list too long"
  | .inProgress => "in progress"
  | .uncategorized => "uncategorized error"

/-- A number between two grave accents, the way in which messages show counts. -/
def ticked (n : Nat) : String := "\x60" ++ toString n ++ "\x60"

mutual

/-- The text of an error. An error that holds a stream error has the text of that. -/
def Error.text : Error → String
  | .invalidArgument reason => "invalid argument: " ++ reason
  | .capacityExceeded requested capacity =>
    "request of " ++ ticked requested ++ " bytes exceeds buffer capacity of " ++ ticked capacity
  | .insufficientCapacity requested spare =>
    "insufficient capacity: requested " ++ ticked requested ++ " bytes with " ++ ticked spare
      ++ " spare"
  | .insufficientContent requested available =>
    "insufficient content: requested " ++ ticked requested ++ " bytes with " ++ ticked available
      ++ " available"
  | .operationInProgress direction =>
    "a " ++ direction.text ++ " operation is already in progress"
  | .unexpectedEndOfInput expected transferred =>
    "unexpected end of input: expected " ++ ticked expected ++ " bytes, read "
      ++ ticked transferred
  | .cancelled transferred =>
    "operation cancelled after transferring " ++ ticked transferred ++ " bytes"
  | .stream e => e.text

/-- The text of a stream error: its own message, that of the error it carries, or else the text of
its cause. -/
def StreamError.text : StreamError → String
  | .bare c => c.text
  | .message _ text => text
  | .carrying _ e => e.text

end

mutual

/-- The text of the error behind an error. Only a stream error can have one, and the one it would
name is the one behind what it carries. -/
def Error.source? : Error → Option String
  | .stream e => e.source?
  | _ => none

def StreamError.source? : StreamError → Option String
  | .carrying _ e => e.source?
  | _ => none

end

def Fault.text : Fault → String
  | .pastEnd => "attempted to advance past end of reservation"
  | .neverReserved direction =>
    "internal error: entered unreachable code: published a " ++ direction.text
      ++ " that was never reserved"
  | .tooLarge => "capacity overflow"
  | .raised text => text

end CyclicBuffer
