import CyclicBuffer.Session.Basic

/-!
# The session machine

A transfer calls its stream, the stream may perform commands, and these may run transfers in turn.
The machine that carries this out has a focus, which is either a list of commands or a transfer,
and a stack of the transfers whose streams are performing the commands in focus. It moves by small
steps: `Machine.step` does one command, starts one transfer, begins one call of a stream, or takes
one turn in it. It stops when all commands are done and no transfer is left.
-/

namespace CyclicBuffer

/-- The poll of a task. While it lasts the task is not in the table. -/
structure Polling where
  task : Nat
  token : Nat
  woken : Bool
  /-- How often the task has polled for the cancel in the call under way, or in the one that made it
  wait. -/
  awaits : Option Nat
  /-- The number of polls so far, the present one included. -/
  polls : Nat
  /-- Whether the task is polled again if it has been woken. -/
  again : Bool
deriving DecidableEq, Repr

/-- A transfer on its way, with the commands that wait for it. -/
structure Passage where
  transfer : Transfer
  /-- The poll that drives it; without one it runs to its end. -/
  polling : Option Polling
  /-- The calls of the stream that are over. -/
  calls : List (Call Answer)
  /-- The call under way. -/
  current : Option (Call Answer)
  events : List Event
  todo : List Command
  done : List Answer

inductive Focus where
  /-- Commands to do, and the answers to those done before. -/
  | commands (todo : List Command) (done : List Answer)
  | transfer (p : Passage)

structure Machine where
  session : Session
  focus : Focus
  /-- The transfers whose streams are performing commands, innermost first. -/
  suspended : List Passage

/-- The most polls of one run. -/
def maxPolls : Nat := 1000

/-! ## Passages -/

namespace Passage

/-- The commands performed in the call under way are done. -/
def resume (p : Passage) (answers : List Answer) : Passage :=
  { p with current := p.current.map fun call => { call with nested := answers } }

/-- The call under way is over. -/
def closeCall (p : Passage) : Passage :=
  { p with calls := p.calls ++ p.current.toList, current := none }

/-- A call has answered, so nobody waits for the cancel any longer. -/
def endRace (p : Passage) : Passage :=
  { p with polling := p.polling.map fun q => { q with awaits := none } }

/-- A cancel of the token wakes the task that is being polled, if the library does so. -/
def wake (token : Nat) (wakes : Nat → Bool) (p : Passage) : Passage :=
  { p with polling := p.polling.map fun q =>
      { q with woken := q.woken || (q.token == token && q.awaits.any wakes) } }

/-- The number of polls as an answer shows it: only a run does. -/
def shownPolls (p : Passage) : Option Nat :=
  p.polling.bind fun q => if q.again then some q.polls else none

/-- The stream of the transfer from now on. -/
def withStream (p : Passage) (stream : List Turn) : Passage :=
  { p with transfer := { p.transfer with stream } }

def withGrant (p : Passage) (g : Grant) : Passage :=
  { p with transfer := { p.transfer with grant := some g } }

end Passage

/-! ## Loops -/

/-- What a transfer does between two calls of its stream. -/
inductive Decision where
  | leave (ending : Ending)
  /-- It begins a call, under this poll if it is polled. -/
  | call (polling : Option Polling)

namespace Polling

/-- One poll of a call that runs a race with the cancel. The cancel is looked for first, and the
stream is called only if there is none. From then on the task waits for the cancel. -/
def race (s : Session) (q : Polling) (polls : Nat) : Decision :=
  if s.isReady q.token polls then .leave .cancelled
  else .call (some { q with awaits := some (polls + 1) })

/-- A polled loop goes on: with the race that it was in when it had to wait, or else with a new one,
as long as bytes are left and the token is not cancelled. -/
def next (s : Session) (q : Polling) (g : Grant) : Decision :=
  match q.awaits with
  | some polls => q.race s polls
  | none =>
    if 0 < g.remaining then
      if s.isCancelled q.token then .leave .cancelled else q.race s 0
    else .leave .complete

end Polling

namespace Passage

/-- A loop goes on. A blocking one calls its stream as long as bytes are left. -/
def next (p : Passage) (s : Session) (g : Grant) : Decision :=
  match p.polling with
  | none => if 0 < g.remaining then .call none else .leave .complete
  | some q => q.next s g

/-- What the loop makes of a reply. -/
def hear (p : Passage) (g : Grant) (reply : Reply) : Grant × Option Ending :=
  match p.polling with
  | none => g.hear reply
  | some _ => g.heed reply

/-- What the transfer comes to where its loop was left. -/
def verdict (p : Passage) (g : Grant) (ending : Ending) : Verdict (Option Nat) :=
  match p.polling with
  | none => Blocking.verdict p.transfer.request g ending
  | some _ => Polled.verdict p.transfer.request g ending

end Passage

namespace Machine

/-- The machine at the start of a list of commands, with a library of tokens. -/
def load (tokens : Tokens) (commands : List Command) : Machine :=
  ⟨{ tokens }, .commands commands [], []⟩

/-- The machine at work on a transfer. -/
def drive (m : Machine) (p : Passage) : Machine := { m with focus := .transfer p }

/-- Adds an answer about the ring of a name and goes on with the commands. -/
def answer (m : Machine) (name : Nat) (reaction : Reaction Answer) (events : List Event)
    (todo : List Command) (done : List Answer) : Machine :=
  { m with
    focus := .commands todo (done ++ [⟨reaction, m.session.standing? name, events⟩]) }

/-! ## Transfers -/

/-- The answer of a passage, which ends it. -/
def close (m : Machine) (p : Passage) (result : Except Failure Value) (events : List Event) :
    Machine :=
  m.answer p.transfer.name (.settled result p.calls p.shownPolls) (p.events ++ events) p.todo
    p.done

/-- Reserves what the transfer asks for. A transfer that gets nothing is over at once. -/
def start (m : Machine) (p : Passage) : Machine :=
  let t := p.transfer
  match (m.session.ring t.ring).reserve t.request.purpose.direction t.request.count with
  | .error e => m.close p (.error (.error e)) []
  | .ok (grant, ring, events) =>
    { m with session := m.session.update t.ring ring events }.drive
      { p.withGrant grant with events := p.events ++ events }

/-- Ends a transfer: commits what it has moved and answers. -/
def settle (m : Machine) (p : Passage) (g : Grant) (ending : Ending) : Machine :=
  let t := p.transfer
  let outcome := (m.session.ring t.ring).settle g (p.verdict g ending)
  { m with session := m.session.update t.ring outcome.ring outcome.events }.close p
    (outcome.result.map fun
      | none => .unit
      | some n => .number n)
    outcome.events

/-- Between two calls: ends the transfer if its loop is left, and begins a call of its stream
otherwise. -/
def offer (m : Machine) (p : Passage) (g : Grant) : Machine :=
  match p.next m.session g with
  | .leave ending => m.settle p g ending
  | .call polling =>
    let ring := m.session.ring p.transfer.ring
    let offer :=
      match g.direction with
      | .put => .room (ring.room g)
      | .take => .bytes (ring.offered g)
    m.drive { p with polling, current := some ⟨offer, []⟩ }

/-- Takes in what a call answered. -/
def hear (m : Machine) (p : Passage) (g : Grant) (reply : Reply) : Machine :=
  match p.hear g reply with
  | (g, none) => m.drive (p.closeCall.endRace.withGrant g)
  | (g, some ending) => m.settle p.closeCall g ending

/-- A task has to wait. It is polled again if it is to run on and has been woken; otherwise it goes
into the table. -/
def wait (m : Machine) (p : Passage) (q : Polling) : Machine :=
  let p := p.closeCall
  if q.again && q.woken && q.polls < maxPolls then
    m.drive { p with polling := some { q with woken := false, polls := q.polls + 1 } }
  else
    match m.session.addTask q.task ⟨p.transfer, q.token, q.woken, q.awaits⟩ with
    | .error f => m.close p (.error (.fault f)) []
    | .ok (session, events) =>
      { m with session }.answer p.transfer.name (.pending q.woken p.calls p.shownPolls)
        (p.events ++ events) p.todo p.done

/-- A source delivers data: as much as there is room for is written and moved, the rest stays. -/
def deliver (m : Machine) (p : Passage) (g : Grant) (data : Bytes) (stream : List Turn) :
    Machine :=
  let moved := min data.length ((m.session.ring p.transfer.ring).room g)
  let rest := data.drop moved
  { m with session := m.session.receive p.transfer.ring g (data.take moved) }.hear
    (p.withStream (if rest.isEmpty then stream else .deliver rest :: stream)) g (.moved moved)

/-- Takes one turn in the call under way. A stream without turns is at its end if it is a source,
and takes all it is offered if it is a sink. -/
def turn (m : Machine) (p : Passage) (g : Grant) : Machine :=
  let room := (m.session.ring p.transfer.ring).room g
  match p.transfer.stream with
  | [] =>
    match g.direction with
    | .put => m.hear p g (.moved 0)
    | .take => m.hear p g (.moved room)
  | .perform commands :: stream =>
    let p := p.withStream stream
    let answers := ((p.current.map fun call => call.nested)).getD []
    { m with focus := .commands commands answers, suspended := p :: m.suspended }
  | .deliver data :: stream => m.deliver p g data stream
  | .accept count :: stream => m.hear (p.withStream stream) g (.moved (min count room))
  | .claim count :: stream => m.hear (p.withStream stream) g (.moved count)
  | .spill data count :: stream =>
    { m with session := m.session.receive p.transfer.ring g (data.take room) }.hear
      (p.withStream stream) g (.moved (min (max 1 count) room))
  | .fail e :: stream => m.hear (p.withStream stream) g (.failed e)
  | .raise text :: stream => m.hear (p.withStream stream) g (.raised text)
  | .suspend wake :: stream =>
    let p := p.withStream stream
    match p.polling with
    | none => m.hear p g (.failed (.bare .wouldBlock))
    | some q => m.wait p { q with woken := q.woken || wake }

/-! ## Commands -/

/-- Polls a task, or answers that there is none. -/
def poll (m : Machine) (name id : Nat) (again : Bool) (todo : List Command)
    (done : List Answer) : Machine :=
  match m.session.task? id with
  | none => m.answer name .noTask [] todo done
  | some task =>
    { m with session := m.session.removeTask id }.drive
      ⟨task.transfer, some ⟨id, task.token, false, task.awaits, 1, again⟩, [], none, [], todo, done⟩

/-- Goes on as an effect of the session says. -/
def apply (m : Machine) (name : Nat) (effect : Session.Effect) (todo : List Command)
    (done : List Answer) : Machine :=
  { m with session := effect.session }.answer name effect.reaction effect.events todo done

/-- Does one command. -/
def obey (m : Machine) (name : Nat) (action : Action) (todo : List Command)
    (done : List Answer) : Machine :=
  match action with
  | .errand e => m.apply (m.session.subject name e) (m.session.errand name e) todo done
  | .transfer request stream =>
    match m.session.place? name with
    | none => m.answer name .noRing [] todo done
    | some place => m.drive ⟨⟨name, place, request, stream, none⟩, none, [], none, [], todo, done⟩
  | .spawn id request stream token =>
    m.apply name (m.session.spawn name id request stream token) todo done
  | .poll id => m.poll name id false todo done
  | .run id => m.poll name id true todo done
  | .cancel token =>
    { m with
      session := m.session.cancel token
      suspended := m.suspended.map (Passage.wake token (m.session.wakes token)) }.answer name
        (.done (.ok .unit) none) [] todo done

/-! ## Steps -/

/-- One step, unless the machine has come to its end. -/
def step (m : Machine) : Option Machine :=
  match m.focus with
  | .commands [] done =>
    match m.suspended with
    | [] => none
    | p :: suspended => some { m with focus := .transfer (p.resume done), suspended }
  | .commands (.on name action :: todo) done => some (m.obey name action todo done)
  | .transfer p =>
    match p.transfer.grant with
    | none => some (m.start p)
    | some g => if p.current.isSome then some (m.turn p g) else some (m.offer p g)

/-- The answers to the commands that the machine has done, once it has come to its end. -/
def answers (m : Machine) : List Answer :=
  match m.focus with
  | .commands _ done => done
  | .transfer p => p.done

end Machine

end CyclicBuffer
