import CyclicBuffer.Proofs.Apart
import CyclicBuffer.Proofs.Nesting
import CyclicBuffer.Proofs.Steady

/-!
# Commands that cross a transfer

While a transfer is under way, others may put and take in the opposite direction: in the calls of
its stream, or between its polls. Such a command crosses the transfer (`Crossing.Crosses`). It can
be an operation, a whole transfer, or have to do with a task that does the like.

Where a session is compared with the session as it would be without the transfer
(`Session.Apart`), commands that cross it go on side by side: their answers differ in nothing but
the reservation that the ring shows (`Answer.freed`), and the sessions stay apart by the same
transfer (`Crossing.performs`).
-/

namespace CyclicBuffer

/-! ## Answers without a reservation -/

mutual

/-- The answer as it would be if the ring did not hold a reservation of this direction. -/
def Answer.freed (d : Direction) : Answer → Answer
  | ⟨reaction, standing, events⟩ =>
    ⟨reactionFreed d reaction, standing.map fun o => o.freed d, events⟩

def reactionFreed (d : Direction) : Reaction Answer → Reaction Answer
  | .noRing => .noRing
  | .noTask => .noTask
  | .done result destination => .done result destination
  | .settled result calls polls => .settled result (callsFreed d calls) polls
  | .pending woken calls polls => .pending woken (callsFreed d calls) polls

def callsFreed (d : Direction) : List (Call Answer) → List (Call Answer)
  | [] => []
  | ⟨offer, nested⟩ :: calls => ⟨offer, answersFreed d nested⟩ :: callsFreed d calls

def answersFreed (d : Direction) : List Answer → List Answer
  | [] => []
  | a :: as => a.freed d :: answersFreed d as

end

theorem answersFreed_eq (d : Direction) (as : List Answer) :
    answersFreed d as = as.map (Answer.freed d) := by
  induction as with
  | nil => rfl
  | cons a as ih => rw [answersFreed, ih, List.map_cons]

def Call.freed (d : Direction) (call : Call Answer) : Call Answer :=
  { call with nested := call.nested.map (Answer.freed d) }

theorem callsFreed_eq (d : Direction) (calls : List (Call Answer)) :
    callsFreed d calls = calls.map (Call.freed d) := by
  induction calls with
  | nil => rfl
  | cons call calls ih =>
    obtain ⟨offer, nested⟩ := call
    rw [callsFreed, ih, List.map_cons, answersFreed_eq]
    rfl

/-! ## What crosses a transfer -/

/-- The task that a transfer is made, and how it is started: its token may be cancelled, under some
names, before its first poll. -/
structure Handle where
  task : Nat
  token : Nat
  early : List Nat
  /-- The name that its first poll is given. -/
  name : Nat
  /-- Whether its first poll is one of a run. -/
  again : Bool

/-- A transfer that others cross. -/
structure Crossing where
  /-- The name of its ring. -/
  name : Nat
  /-- The ring itself, by its place among all rings. -/
  place : Nat
  request : Request
  /-- A transfer that is polled is made a task. -/
  polled : Option Handle
  /-- The tasks of those that cross it. -/
  ids : List Nat
  apart : ∀ handle, polled = some handle → handle.task ∉ ids

namespace Crossing

def direction (c : Crossing) : Direction := c.request.purpose.direction

def task (c : Crossing) : Option Nat := c.polled.map fun handle => handle.task

def token (c : Crossing) : Option Nat := c.polled.map fun handle => handle.token

theorem task_not_mem (c : Crossing) {id : Nat} (h : c.task = some id) : id ∉ c.ids := by
  obtain ⟨handle, hpolled, rfl⟩ := Option.map_eq_some_iff.1 h
  exact c.apart handle hpolled

mutual

/-- A command that crosses a transfer: an operation or a transfer in the opposite direction of its
ring, or one that looks after a task which is such a transfer. It does not cancel the token of the
transfer. -/
inductive Crosses (c : Crossing) : Command → Prop
  | operate {operation : Operation} (h : operation.direction? = some c.direction.other) :
      Crosses c (.on c.name (.errand (.operate operation)))
  | transfer {request : Request} {stream : List Turn}
      (hd : request.purpose.direction = c.direction.other) (hs : ∀ turn ∈ stream, c.Admits turn) :
      Crosses c (.on c.name (.transfer request stream))
  | spawn {id token : Nat} {request : Request} {stream : List Turn} (hid : id ∈ c.ids)
      (hd : request.purpose.direction = c.direction.other) (hs : ∀ turn ∈ stream, c.Admits turn)
      (ht : c.token ≠ some token) : Crosses c (.on c.name (.spawn id request stream token))
  | poll {id : Nat} (hid : id ∈ c.ids) : Crosses c (.on c.name (.poll id))
  | run {id : Nat} (hid : id ∈ c.ids) : Crosses c (.on c.name (.run id))
  | drop {id : Nat} (hid : id ∈ c.ids) : Crosses c (.on c.name (.errand (.drop id)))
  | cancel {token : Nat} (ht : c.token ≠ some token) : Crosses c (.on c.name (.cancel token))

/-- A turn that performs nothing but commands that cross. -/
inductive Admits (c : Crossing) : Turn → Prop
  | perform {commands : List Command} (h : ∀ cmd ∈ commands, c.Crosses cmd) :
      Admits c (.perform commands)
  | deliver (data : Bytes) : Admits c (.deliver data)
  | accept (count : Nat) : Admits c (.accept count)
  | claim (count : Nat) : Admits c (.claim count)
  | spill (data : Bytes) (count : Nat) : Admits c (.spill data count)
  | fail (e : StreamError) : Admits c (.fail e)
  | raise (text : String) : Admits c (.raise text)
  | suspend (wake : Bool) : Admits c (.suspend wake)

end

end Crossing

/-- A transfer in the opposite direction of the same ring. -/
structure Transfer.Crosses (c : Crossing) (t : Transfer) : Prop where
  name : t.name = c.name
  ring : t.ring = c.place
  direction : t.request.purpose.direction = c.direction.other
  stream : ∀ turn ∈ t.stream, c.Admits turn

structure Task.Crosses (c : Crossing) (task : Task) : Prop where
  transfer : task.transfer.Crosses c
  token : c.token ≠ some task.token

structure Passage.Crosses (c : Crossing) (p : Passage) : Prop where
  transfer : p.transfer.Crosses c
  task : ∀ q, p.polling = some q → q.task ∈ c.ids
  token : ∀ q, p.polling = some q → c.token ≠ some q.token
  todo : ∀ cmd ∈ p.todo, c.Crosses cmd

def Focus.Crosses (c : Crossing) : Focus → Prop
  | .commands todo _ => ∀ cmd ∈ todo, c.Crosses cmd
  | .transfer p => p.Crosses c

/-- All that the machine is about to do crosses the transfer. -/
structure Machine.Crosses (c : Crossing) (m : Machine) : Prop where
  focus : m.focus.Crosses c
  suspended : ∀ p ∈ m.suspended, p.Crosses c

/-! ## Sessions with and without the transfer -/

/-- What a session has of a transfer that is under way. -/
structure Stake where
  /-- The library that its token belongs to. -/
  library : Tokens
  hold : Hold
  /-- The task as which it waits. -/
  task : Option Task
  /-- How often its token has been cancelled. -/
  cancels : Nat
  /-- How often its token was cancelled before the transfer began. -/
  early : Nat

/-- Two sessions that agree in all that matters to the commands that cross a transfer, except for
the ring. -/
structure Session.Near (c : Crossing) (k : Stake) (s s' : Session) : Prop where
  named : s.place? c.name = some c.place
  named' : s'.place? c.name = some c.place
  known : c.place < s.rings.size
  known' : c.place < s'.rings.size
  tasks : ∀ id ∈ c.ids, s'.task? id = s.task? id
  crossing : ∀ id ∈ c.ids, ∀ task, s.task? id = some task → task.Crosses c
  library : s.tokens = k.library
  library' : s'.tokens = k.library
  tokens : ∀ token, c.token ≠ some token → s'.cancels token = s.cancels token
  own : ∀ id, c.task = some id → s.task? id = k.task
  absent : ∀ id, c.task = some id → s'.task? id = none
  waits : ∀ task, k.task = some task → c.token = some task.token
  cancels : ∀ token, c.token = some token → s.cancels token = k.cancels
  early : ∀ token, c.token = some token → s'.cancels token = k.early

/-- A session in which the transfer is under way, and the session as it is without it. -/
structure Session.Apart (c : Crossing) (k : Stake) (s s' : Session) : Prop where
  near : s.Near c k s'
  direction : k.hold.direction = c.direction
  ring : Ring.Apart k.hold (s.ring c.place) (s'.ring c.place)

theorem Task.wake_of_ne {task : Task} {token : Nat} (h : task.token ≠ token)
    (wakes : Nat → Bool) : task.wake token wakes = task := by
  have hne : (task.token == token) = false := by simpa using h
  simp [wake, hne]

/-- A transfer holds what it was granted. -/
theorem Custody.holds {s : Session} {ts : List Transfer} {t : Transfer} {g : Grant}
    (h : Custody s ts) (ht : t ∈ ts) (hg : t.grant = some g) :
    g.direction = t.request.purpose.direction ∧
      (s.ring t.ring).occupancy.held g.direction = some g.region ∧ g.moved ≤ g.region.count := by
  have hfits := h.fits t ht
  obtain ⟨before, after, rfl⟩ := List.append_of_mem ht
  exact ⟨hfits.direction g hg, (h.perm List.perm_middle).custody.held_eq hg, hfits.moved_le g hg⟩

namespace Session

variable {c : Crossing} {k : Stake} {s s' : Session}

theorem Apart.standing (h : s.Apart c k s') :
    s'.standing? c.name = (s.standing? c.name).map fun o => o.freed c.direction := by
  simp only [standing?, h.near.named, h.near.named', Option.map_some, h.ring.occupancy,
    h.direction]

theorem Near.update (h : s.Near c k s') (ring ring' : Ring) (events events' : List Event) :
    (s.update c.place ring events).Near c k (s'.update c.place ring' events') :=
  { h with
    known := by
      rw [size_update]
      exact h.known
    known' := by
      rw [size_update]
      exact h.known' }

/-- Both sessions do the same to their rings. -/
theorem Apart.update (h : s.Apart c k s') {ring ring' : Ring} (hr : Ring.Apart k.hold ring ring')
    (events events' : List Event) :
    (s.update c.place ring events).Apart c k (s'.update c.place ring' events') := by
  refine ⟨h.near.update .., h.direction, ?_⟩
  rw [ring_update_self _ h.near.known, ring_update_self _ h.near.known']
  exact hr

/-! ## Tables -/

theorem task?_removeTask_self (s : Session) (id : Nat) : (s.removeTask id).task? id = none := by
  refine List.lookup_eq_none_iff.2 fun entry he => ?_
  have hne : entry.1 ≠ id := by simpa using (List.mem_filter.1 he).2
  simpa using hne.symm

theorem task?_removeTask_ne (s : Session) {id other : Nat} (h : other ≠ id) :
    (s.removeTask id).task? other = s.task? other :=
  lookup_filter_ne s.tasks h

theorem task?_cons (s : Session) (id : Nat) (task : Task) (other : Nat) :
    ({ s with tasks := (id, task) :: s.tasks } : Session).task? other
      = if other = id then some task else s.task? other := by
  simp only [task?, List.lookup_cons]
  by_cases h : other = id
  · simp [h]
  · have hne : (other == id) = false := by simpa using h
    rw [if_neg h, hne]

theorem task?_cancel (s : Session) (token id : Nat) :
    (s.cancel token).task? id = (s.task? id).map (Task.wake token (s.wakes token)) :=
  lookup_map (Task.wake token (s.wakes token)) s.tasks id

theorem cancels_cancel_self (s : Session) (token : Nat) :
    (s.cancel token).cancels token = s.cancels token + 1 := List.count_cons_self

theorem cancels_cancel_of_ne (s : Session) {token other : Nat} (h : other ≠ token) :
    (s.cancel token).cancels other = s.cancels other := List.count_cons_of_ne (Ne.symm h)

theorem Near.library_eq (h : s.Near c k s') : s'.tokens = s.tokens :=
  h.library'.trans h.library.symm

/-- Of every other token the library tells the same in both sessions. -/
theorem Near.wakes (h : s.Near c k s') {token : Nat} (ht : c.token ≠ some token) :
    s'.wakes token = s.wakes token := by
  funext polls
  rw [Session.wakes, Session.wakes, h.library_eq, h.tokens token ht]

theorem Near.isCancelled (h : s.Near c k s') {token : Nat} (ht : c.token ≠ some token) :
    s'.isCancelled token = s.isCancelled token := by
  rw [Session.isCancelled, Session.isCancelled, h.library_eq, h.tokens token ht]

theorem Near.isReady (h : s.Near c k s') {token : Nat} (ht : c.token ≠ some token) (polls : Nat) :
    s'.isReady token polls = s.isReady token polls := by
  rw [Session.isReady, Session.isReady, h.library_eq, h.tokens token ht]

theorem Apart.removeTask (h : s.Apart c k s') {id : Nat} (hid : id ∈ c.ids) :
    (s.removeTask id).Apart c k (s'.removeTask id) := by
  have hnear := h.near
  have hne {own : Nat} (hown : c.task = some own) : own ≠ id := by
    rintro rfl
    exact c.task_not_mem hown hid
  refine ⟨{ hnear with tasks := ?_, crossing := ?_, own := ?_, absent := ?_ }, h.direction, h.ring⟩
  · intro other hother
    by_cases he : other = id
    · rw [he, task?_removeTask_self, task?_removeTask_self]
    · rw [task?_removeTask_ne _ he, task?_removeTask_ne _ he, hnear.tasks other hother]
  · intro other hother task ht
    by_cases he : other = id
    · rw [he, task?_removeTask_self] at ht
      cases ht
    · rw [task?_removeTask_ne _ he] at ht
      exact hnear.crossing other hother task ht
  · intro own hown
    rw [task?_removeTask_ne _ (hne hown), hnear.own own hown]
  · intro own hown
    rw [task?_removeTask_ne _ (hne hown), hnear.absent own hown]

/-- A task that crosses goes into both tables. -/
theorem Apart.enter (h : s.Apart c k s') {id : Nat} (hid : id ∈ c.ids) {task : Task}
    (ht : task.Crosses c) :
    ({ s with tasks := (id, task) :: s.tasks } : Session).Apart c k
      { s' with tasks := (id, task) :: s'.tasks } := by
  have hnear := h.near
  have hne {own : Nat} (hown : c.task = some own) : own ≠ id := by
    rintro rfl
    exact c.task_not_mem hown hid
  refine ⟨{ hnear with tasks := ?_, crossing := ?_, own := ?_, absent := ?_ }, h.direction, h.ring⟩
  · intro other hother
    rw [task?_cons, task?_cons, hnear.tasks other hother]
  · intro other hother task' ht'
    rw [task?_cons] at ht'
    split at ht'
    · cases ht'
      exact ht
    · exact hnear.crossing other hother task' ht'
  · intro own hown
    rw [task?_cons, if_neg (hne hown), hnear.own own hown]
  · intro own hown
    rw [task?_cons, if_neg (hne hown), hnear.absent own hown]

/-- A token that is not the transfer's is cancelled in both sessions. -/
theorem Apart.cancel (h : s.Apart c k s') {token : Nat} (ht : c.token ≠ some token) :
    (s.cancel token).Apart c k (s'.cancel token) := by
  have hnear := h.near
  have hne {own : Nat} (hown : c.token = some own) : own ≠ token := by
    rintro rfl
    exact ht hown
  refine ⟨{ hnear with
    tasks := ?_, crossing := ?_, tokens := ?_, own := ?_, absent := ?_, cancels := ?_,
    early := ?_ }, h.direction, h.ring⟩
  · intro id hid
    rw [task?_cancel, task?_cancel, hnear.tasks id hid, hnear.wakes ht]
  · intro id hid task ht'
    rw [task?_cancel] at ht'
    obtain ⟨task₀, ht₀, rfl⟩ := Option.map_eq_some_iff.1 ht'
    have hcross := hnear.crossing id hid task₀ ht₀
    exact ⟨hcross.transfer, hcross.token⟩
  · intro other hother
    by_cases he : other = token
    · rw [he, cancels_cancel_self, cancels_cancel_self, hnear.tokens token ht]
    · rw [cancels_cancel_of_ne _ he, cancels_cancel_of_ne _ he, hnear.tokens other hother]
  · intro id hid
    rw [task?_cancel, hnear.own id hid]
    cases hk : k.task with
    | none => rfl
    | some task => rw [Option.map_some, Task.wake_of_ne (hne (hnear.waits task hk))]
  · intro id hid
    rw [task?_cancel, hnear.absent id hid]
    rfl
  · intro own hown
    rw [cancels_cancel_of_ne _ (hne hown), hnear.cancels own hown]
  · intro own hown
    rw [cancels_cancel_of_ne _ (hne hown), hnear.early own hown]

/-! ## Tasks that come and go -/

/-- A transfer that crosses is let go alike. -/
theorem Apart.abandon (h : s.Apart c k s') {ts : List Transfer} (hc : Custody s ts) {t : Transfer}
    (ht : t ∈ ts) (hcross : t.Crosses c) :
    ∃ s₁ s₁' events, s.abandon t = .ok (s₁, events) ∧ s'.abandon t = .ok (s₁', events) ∧
      s₁.Apart c k s₁' := by
  unfold Session.abandon
  cases hg : t.grant with
  | none => exact ⟨s, s', [], rfl, rfl, h⟩
  | some g =>
    obtain ⟨hd, hheld, hm⟩ := hc.holds ht hg
    rw [hcross.ring] at hheld
    rw [hcross.direction, ← h.direction] at hd
    obtain ⟨r₁, events, hcommit⟩ := Ring.commit_of_held hheld
    have hcommit' := h.ring.commit_eq hd
    rw [hcommit] at hcommit'
    simp only [hcross.ring, hcommit, hcommit', Except.map]
    exact ⟨_, _, _, rfl, rfl, h.update (h.ring.commit hd hheld hm hcommit) ..⟩

/-- A task that crosses is dropped alike. -/
theorem Apart.dropTask (h : s.Apart c k s') {ts : List Transfer} (hc : Custody s (ts ++ s.waiting))
    {id : Nat} (hid : id ∈ c.ids) :
    ∃ s₁ s₁' events, s.dropTask id = .ok (s₁, events) ∧ s'.dropTask id = .ok (s₁', events) ∧
      s₁.Apart c k s₁' := by
  unfold Session.dropTask
  rw [h.near.tasks id hid]
  cases ht : s.task? id with
  | none => exact ⟨s, s', [], rfl, rfl, h⟩
  | some task =>
    exact (h.removeTask hid).abandon (hc.removeTask ht).custody (List.mem_cons_self ..)
      (h.near.crossing id hid task ht).transfer

/-- A task that crosses takes the place of another alike. -/
theorem Apart.addTask (h : s.Apart c k s') {ts : List Transfer} (hc : Custody s (ts ++ s.waiting))
    {id : Nat} (hid : id ∈ c.ids) {task : Task} (ht : task.Crosses c) :
    ∃ s₁ s₁' events, s.addTask id task = .ok (s₁, events) ∧
      s'.addTask id task = .ok (s₁', events) ∧ s₁.Apart c k s₁' := by
  obtain ⟨s₁, s₁', events, hdrop, hdrop', h₁⟩ := h.dropTask hc hid
  unfold Session.addTask
  rw [hdrop, hdrop']
  exact ⟨_, _, events, rfl, rfl, h₁.enter hid ht⟩

end Session

end CyclicBuffer
