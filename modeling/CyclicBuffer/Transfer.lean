import CyclicBuffer.Ring.Basic

/-!
# Transfers between a ring and a byte stream

A `Request` asks to fill a ring from a source or to send bytes of it to a sink. Once its region is
reserved, the transfer calls the stream again and again, each time offering the next chunk of its
grant, and takes in a `Reply`. It leaves this loop when nothing is left to move, when the stream
ends or fails, when a token cancels it, or when a rule is broken; an `Ending` says which.

Whatever the ending, the bytes moved so far are committed. A `Verdict` says what the transfer
answers and which warnings it reports before and after that commit. There are two families of
transfers. Those of `Blocking` run to their end by themselves; an exact fill is a fill whose count
is looked at afterwards. Those of `Polled` can wait and be cancelled; their fills tell three
outcomes apart, and a send that was left early takes from the bytes still left that it was
cancelled.
-/

namespace CyclicBuffer

/-- What a transfer is asked to do. -/
structure Request where
  purpose : Purpose
  count : Nat
deriving DecidableEq, Repr, Inhabited

/-- What a stream answers to a call. -/
inductive Reply where
  /-- So many bytes were moved; none means that the stream is at its end. -/
  | moved (count : Nat)
  | failed (error : StreamError)
  | raised (text : String)
deriving DecidableEq, Repr, Inhabited

/-- Where a transfer left its loop. -/
inductive Ending where
  /-- No byte was left to move. -/
  | complete
  /-- The stream moved nothing more. -/
  | exhausted
  | failed (error : StreamError)
  /-- A token was cancelled. Only polled transfers have one. -/
  | cancelled
  | fault (f : Fault)
deriving DecidableEq, Repr, Inhabited

/-- What a transfer answers, and what it reports around its commit. -/
structure Verdict (α : Type) where
  before : List Event
  after : List Event
  result : Except Failure α

namespace Verdict

def map {α β : Type} (f : α → β) (v : Verdict α) : Verdict β :=
  ⟨v.before, v.after, v.result.map f⟩

/-- Goes on with the value after the commit. -/
def andThen {α β : Type} (v : Verdict α) (next : α → List Event × Except Failure β) :
    Verdict β :=
  match v.result with
  | .error f => ⟨v.before, v.after, .error f⟩
  | .ok value => ⟨v.before, v.after ++ (next value).1, (next value).2⟩

end Verdict

/-! ## Blocking transfers -/

/-- What a blocking loop makes of a reply: the grant with what was moved, and the ending if there is
one. A stream that was interrupted is simply called again. -/
def Grant.hear (g : Grant) : Reply → Grant × Option Ending
  | .moved 0 => (g, some .exhausted)
  | .moved count =>
    match g.advance count with
    | .error f => (g, some (.fault f))
    | .ok g' => (g', none)
  | .failed e => (g, if e.cause = .interrupted then none else some (.failed e))
  | .raised text => (g, some (.fault (.raised text)))

namespace Blocking

/-- Fills until the source ends. The value is the number of bytes stored. -/
def fill (moved : Nat) : Ending → Verdict Nat
  | .failed e => ⟨[.interrupted .put moved e], [], .error (.error (.stream e))⟩
  | .fault f => ⟨[], [], .error (.fault f)⟩
  | .complete | .exhausted | .cancelled => ⟨[], [], .ok moved⟩

/-- Fills, and then looks at how many bytes were stored. -/
def fillExactly (count moved : Nat) (ending : Ending) : Verdict Unit :=
  (fill moved ending).andThen fun stored =>
    if stored < count then
      ([.sourceEnded count stored], .error (.error (.unexpectedEndOfInput count stored)))
    else ([], .ok ())

def send (moved : Nat) : Ending → Verdict Unit
  | .exhausted => ⟨[.sinkStopped moved], [], .error (.error (.stream (.bare .writeZero)))⟩
  | .failed e => ⟨[.interrupted .take moved e], [], .error (.error (.stream e))⟩
  | .fault f => ⟨[], [], .error (.fault f)⟩
  | .complete | .cancelled => ⟨[], [], .ok ()⟩

/-- The verdict on a request. Only a fill has a value. -/
def verdict (request : Request) (g : Grant) (ending : Ending) : Verdict (Option Nat) :=
  match request.purpose with
  | .fill => (fill g.moved ending).map some
  | .fillExactly => (fillExactly request.count g.moved ending).map fun _ => none
  | .send => (send g.moved ending).map fun _ => none

end Blocking

/-! ## Polled transfers -/

/-- What a polled loop makes of a reply, if the token was not cancelled first. -/
def Grant.heed (g : Grant) : Reply → Grant × Option Ending
  | .moved 0 => (g, some .exhausted)
  | .moved count =>
    match g.advance count with
    | .error f => (g, some (.fault f))
    | .ok g' => (g', none)
  | .failed e => (g, if e.cause = .interrupted then none else some (.failed e))
  | .raised text => (g, some (.fault (.raised text)))

namespace Polled

/-- How a polled fill comes to its end without a failure. -/
inductive Fill where
  | complete
  | endOfInput
  | cancelled
deriving DecidableEq, Repr

/-- The outcome that both fills share, and what is reported with it. -/
def outcome (moved : Nat) : Ending → List Event × Except Failure Fill
  | .complete => ([], .ok .complete)
  | .exhausted => ([], .ok .endOfInput)
  | .cancelled => ([], .ok .cancelled)
  | .failed e => ([.interrupted .put moved e], .error (.error (.stream e)))
  | .fault f => ([], .error (.fault f))

/-- Fills until the source ends or the token is cancelled. The value is the number of bytes
stored. -/
def fill (count moved : Nat) (ending : Ending) : Verdict Nat :=
  match outcome moved ending with
  | (events, .error f) => ⟨events, [], .error f⟩
  | (events, .ok .cancelled) => ⟨events ++ [.cancelled .fill count moved], [], .ok moved⟩
  | (events, .ok _) => ⟨events, [], .ok moved⟩

def fillExactly (count moved : Nat) (ending : Ending) : Verdict Unit :=
  match outcome moved ending with
  | (events, .error f) => ⟨events, [], .error f⟩
  | (events, .ok .complete) => ⟨events, [], .ok ()⟩
  | (events, .ok .endOfInput) =>
    ⟨events, [.sourceEnded count moved], .error (.error (.unexpectedEndOfInput count moved))⟩
  | (events, .ok .cancelled) =>
    ⟨events, [.cancelled .fillExactly count moved], .error (.error (.cancelled moved))⟩

/-- A send that leaves its loop with bytes left to move has been cancelled. -/
def send (count : Nat) (g : Grant) : Ending → Verdict Unit
  | .exhausted => ⟨[.sinkStopped g.moved], [], .error (.error (.stream (.bare .writeZero)))⟩
  | .failed e => ⟨[.interrupted .take g.moved e], [], .error (.error (.stream e))⟩
  | .fault f => ⟨[], [], .error (.fault f)⟩
  | .complete | .cancelled =>
    if 0 < g.remaining then
      ⟨[], [.cancelled .send count g.moved], .error (.error (.cancelled g.moved))⟩
    else ⟨[], [], .ok ()⟩

/-- The verdict on a request. Only a fill has a value. -/
def verdict (request : Request) (g : Grant) (ending : Ending) : Verdict (Option Nat) :=
  match request.purpose with
  | .fill => (fill request.count g.moved ending).map some
  | .fillExactly => (fillExactly request.count g.moved ending).map fun _ => none
  | .send => (send request.count g ending).map fun _ => none

end Polled

/-! ## Rings under transfers -/

namespace Ring

/-- The bytes in the cells offered next. -/
def offered (r : Ring) (g : Grant) : Bytes := r.storage.readSpan (g.chunk r.capacity)

/-- The length of the chunk offered next. -/
def room (r : Ring) (g : Grant) : Nat := (g.chunk r.capacity).length

/-- A source writes bytes to the start of the chunk offered next. -/
def receive (r : Ring) (g : Grant) (data : Bytes) : Ring :=
  { r with storage := r.storage.write (g.chunk r.capacity).offset data }

/-- Commits what a transfer moved and gives its verdict. -/
def settle (r : Ring) (g : Grant) (verdict : Verdict (Option Nat)) : Outcome (Option Nat) :=
  match r.commit g with
  | .error f => ⟨.error (.fault f), r, verdict.before⟩
  | .ok (ring, events) => ⟨verdict.result, ring, verdict.before ++ events ++ verdict.after⟩

end Ring

end CyclicBuffer
