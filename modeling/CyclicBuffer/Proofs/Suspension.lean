import CyclicBuffer.Proofs.Nesting
import CyclicBuffer.Proofs.Cancellation

/-!
# Transfers that can be suspended

A transfer that is polled until it is ready does what a blocking one does at one go with the stream
that never makes it wait. The call that makes the transfer wait counts for nothing: its next poll
goes on with the race that it was in, and makes the same offer again. Where both leave their loops,
the two families come to the same verdict, each in its own way (`Pairing.Twin.verdict_eq`). So as
long as no cancel is heard of, nothing sets the two apart (`polled_equals_whole`).
-/

namespace CyclicBuffer

/-! ## Scripts that suspend -/

/-- Whether a turn makes its caller wait. -/
def Turn.suspends : Turn → Bool
  | .suspend _ => true
  | _ => false

/-- The script without the turns that make its caller wait. -/
def unsuspended (stream : List Turn) : List Turn := stream.filter fun turn => !turn.suspends

/-- How often a script makes its caller wait. -/
def suspensions (stream : List Turn) : Nat := stream.countP Turn.suspends

/-- What a stream was offered by the calls that an answer tells of, except for the call that made
its caller wait. -/
def Answer.offers (a : Answer) : List Offer :=
  match a.reaction with
  | .settled _ calls _ => calls.map (·.offer)
  | .pending _ calls _ => calls.dropLast.map (·.offer)
  | _ => []

namespace Passage

variable {p q : Passage} {d : Direction} {room : Nat} {stream : List Turn}

/-- Every other turn is taken alike. -/
theorem respond_unsuspended (hp : p.transfer.stream = unsuspended q.transfer.stream)
    (hq : q.polling.isSome) {response : Response} (h : q.respond d room = (response, stream))
    (hw : ∀ k, response ≠ .wait k) :
    p.respond d room = (response, unsuspended stream) ∧
      suspensions stream = suspensions q.transfer.stream := by
  unfold respond at h ⊢
  cases hs : q.transfer.stream with
  | nil =>
    rw [hs] at h hp
    rw [hp]
    cases d <;> cases h <;> exact ⟨rfl, rfl⟩
  | cons turn rest =>
    rw [hs] at h hp
    cases turn with
    | suspend wake =>
      obtain ⟨k, hk⟩ := Option.isSome_iff_exists.1 hq
      simp only [hk] at h
      cases h
      exact absurd rfl (hw _)
    | deliver data =>
      -- the rest of the data goes back onto both scripts
      have hcons : unsuspended (.deliver data :: rest) = .deliver data :: unsuspended rest := rfl
      rw [hp, hcons]
      by_cases hrest : (data.drop (min data.length room)).isEmpty = true
      all_goals
        simp only [hrest] at h ⊢
        cases d <;> cases h <;> exact ⟨rfl, rfl⟩
    | spill data count =>
      rw [hp]
      cases d <;> cases h <;> exact ⟨rfl, rfl⟩
    | _ =>
      rw [hp]
      cases h
      exact ⟨rfl, rfl⟩

/-- No turn makes a script suspend more often. -/
theorem suspensions_respond {response : Response} (h : p.respond d room = (response, stream)) :
    suspensions stream ≤ suspensions p.transfer.stream := by
  unfold respond at h
  cases hs : p.transfer.stream with
  | nil =>
    rw [hs] at h
    cases d <;> cases h <;> exact Nat.le_refl _
  | cons turn rest =>
    have htail : suspensions rest ≤ suspensions (turn :: rest) := by
      rw [suspensions, suspensions, List.countP_cons]
      exact Nat.le_add_right ..
    rw [hs] at h
    cases turn with
    | deliver data =>
      by_cases hrest : (data.drop (min data.length room)).isEmpty = true
      · simp only [hrest] at h
        cases d <;> cases h <;> exact htail
      · simp only [hrest] at h
        cases d <;> cases h <;> exact Nat.le_refl _
    | spill data count => cases d <;> cases h <;> exact htail
    | suspend wake =>
      cases hq : p.polling with
      | none =>
        simp only [hq] at h
        cases h
        exact htail
      | some q =>
        simp only [hq] at h
        cases h
        exact htail
    | _ =>
      cases h
      exact htail

/-- How a transfer stands when the command that drove it is answered: it is over, or it waits in the
table for its next poll, and its script makes it wait less often from then on. -/
inductive Stands (p : Passage) (answer : Answer) (s : Session) : Prop
  | settled {result : Except Failure Value} {calls : List (Call Answer)} {polls : Option Nat}
      (reaction : answer.reaction = .settled result calls polls)
  | waits {id : Nat} {task : Task} {woken : Bool} {calls : List (Call Answer)}
      {polls : Option Nat} (polled : p.polling.map (·.task) = some id)
      (reaction : answer.reaction = .pending woken calls polls) (waiting : s.task? id = some task)
      (same : task.transfer.ring = p.transfer.ring ∧ task.transfer.request = p.transfer.request)
      (fewer : suspensions task.transfer.stream < suspensions p.transfer.stream)

/-- A transfer that has gone on stands as it would have. -/
theorem Stands.of_later {p₁ : Passage} {answer : Answer} {s : Session} (h : p₁.Stands answer s)
    (hpolled : p₁.polling.map (·.task) = p.polling.map (·.task))
    (hsame : p₁.transfer.ring = p.transfer.ring ∧ p₁.transfer.request = p.transfer.request)
    (hscript : suspensions p₁.transfer.stream ≤ suspensions p.transfer.stream) :
    p.Stands answer s := by
  cases h with
  | settled reaction => exact .settled reaction
  | waits polled reaction waiting same fewer =>
    exact .waits (hpolled ▸ polled) reaction waiting
      ⟨same.1.trans hsame.1, same.2.trans hsame.2⟩ (Nat.lt_of_lt_of_le fewer hscript)

end Passage

/-! ## Waiting and going on -/

theorem Session.removeTask_of_task? {s : Session} {id : Nat} (h : s.task? id = none)
    (task : Task) : ({ s with tasks := (id, task) :: s.tasks } : Session).removeTask id = s := by
  have hkeep : s.tasks.filter (fun entry => entry.1 != id) = s.tasks := by
    rw [List.filter_eq_self]
    intro entry he
    have hne : entry.1 ≠ id := fun heq =>
      Session.not_mem_of_task? h (heq ▸ List.mem_map_of_mem he)
    simpa using hne
  simp [Session.removeTask, hkeep]

/-- A task that goes into the table is found there. -/
theorem Session.task?_addTask {s s' : Session} {id : Nat} {task : Task} {events : List Event}
    (h : s.addTask id task = .ok (s', events)) : s'.task? id = some task := by
  unfold addTask at h
  cases hd : s.dropTask id with
  | error f =>
    rw [hd] at h
    cases h
  | ok dropped =>
    rw [hd] at h
    cases h
    exact List.lookup_cons_self

/-! ## Cancels that are not heard of -/

/-- Nobody is told of a cancel of the token. -/
def Session.Unheard (s : Session) (token : Nat) : Prop :=
  s.isCancelled token = false ∧ ∀ polls, s.isReady token polls = false

theorem Session.unheard {s : Session} (h : s.tokens.Silent) {token : Nat}
    (ht : token ∉ s.cancelled) : s.Unheard token := by
  have hcancels : s.cancels token = 0 := List.count_eq_zero_of_not_mem ht
  exact ⟨by rw [isCancelled, hcancels, h.isCancelled],
    fun polls => by rw [isReady, hcancels, h.isReady]⟩

/-- Where no cancel is heard of, a polled loop with bytes left to move begins a call, whether it
goes on with a race or not. -/
theorem Passage.next_unheard {p : Passage} {q : Polling} {s : Session} {g : Grant}
    (hq : p.polling = some q) (hu : s.Unheard q.token) (hmore : g.remaining ≠ 0) :
    p.next s g = .call (some { q with awaits := some (q.awaits.getD 0 + 1) }) := by
  simp only [next, hq, Polling.next]
  cases ha : q.awaits with
  | some polls => simp [Polling.race, hu.2]
  | none => simp [Polling.race, hu.1, hu.2, Nat.pos_of_ne_zero hmore]

namespace Machine

variable {s : Session}

/-- A task that is not polled again goes into the table. -/
theorem wait_once (m : Machine) (p : Passage) {q : Polling}
    (honce : (q.again && q.woken && q.polls < maxPolls) = false)
    (hfree : m.session.task? q.task = none) :
    m.wait p q = ⟨{ m.session with
        tasks := (q.task, ⟨p.transfer, q.token, q.woken, q.awaits⟩) :: m.session.tasks },
      .commands p.todo (p.done ++ [⟨.pending q.woken (p.calls ++ p.current.toList) p.shownPolls,
        m.session.standing? p.transfer.name, p.events⟩]), m.suspended⟩ := by
  simp only [wait, honce, Bool.false_eq_true, if_false, Session.addTask, Session.dropTask,
    Passage.closeCall, hfree, Except.map, answer, List.append_nil]
  rfl

theorem offer_begins {m : Machine} {p : Passage} {g : Grant} {polling : Option Polling}
    (h : p.next m.session g = .call polling) :
    m.offer p g = m.drive
      { p with polling, current := some ⟨(m.session.ring p.transfer.ring).offer g, []⟩ } := by
  unfold offer
  rw [h]
  rfl

/-- The next poll takes a task out of the table. -/
theorem poll_takes {id name : Nat} {task : Task} {todo : List Command} {done : List Answer}
    {frames : List Passage} (hfree : s.task? id = none) :
    (⟨{ s with tasks := (id, task) :: s.tasks }, .commands (.on name (.poll id) :: todo) done,
        frames⟩ : Machine).step
      = some ⟨s, .transfer (task.polled id false todo done), frames⟩ := by
  have htask : ({ s with tasks := (id, task) :: s.tasks } : Session).task? id = some task :=
    List.lookup_cons_self
  simp only [step, obey, poll, htask, Session.removeTask_of_task? hfree, drive]
  rfl

/-- The next poll takes a task out of the table and begins a call if bytes are left to move and no
cancel of its token is heard of. -/
theorem poll_calls {id name : Nat} {task : Task} {g : Grant} {todo : List Command}
    {done : List Answer} {frames : List Passage} (hfree : s.task? id = none)
    (hg : task.transfer.grant = some g) (hmore : g.remaining ≠ 0) (hu : s.Unheard task.token) :
    (⟨{ s with tasks := (id, task) :: s.tasks }, .commands (.on name (.poll id) :: todo) done,
        frames⟩ : Machine).Reaches
      ⟨s, .transfer ⟨task.transfer,
        some ⟨id, task.token, false, some (task.awaits.getD 0 + 1), 1, false⟩, [],
        some ⟨(s.ring task.transfer.ring).offer g, []⟩, [], todo, done⟩, frames⟩ := by
  refine (Reaches.refl.step (poll_takes hfree)).step ?_
  have hoffer := offer_begins (m := ⟨s, .transfer (task.polled id false todo done), frames⟩)
    (Passage.next_unheard (p := task.polled id false todo done) rfl hu hmore)
  simp only [step, Task.polled, hg, Option.isSome_none, Bool.false_eq_true, if_false] at hoffer ⊢
  exact congrArg some hoffer

end Machine

/-! ## Twins -/

/-- What a transfer that runs to its end and a task that is polled until it is ready are asked to
do: the task with its token and the ring that the polls name, the commands after both, and the
answers before each. -/
structure Pairing where
  task : Nat
  token : Nat
  name : Nat
  todo : List Command
  done : List Answer
  done' : List Answer

namespace Pairing

/-- A transfer that runs to its end and the same transfer in a poll, after polls in which it had to
wait. They have a script, and have had the same offers and reported the same. -/
structure Twin (c : Pairing) (past : List Answer) (p q : Passage) : Prop where
  transfer : p.transfer = { q.transfer with stream := unsuspended q.transfer.stream }
  whole : p.polling = none
  polled : ∃ woken awaits polls,
    q.polling = some ⟨c.task, c.token, woken, awaits, polls, false⟩ ∧
      (awaits.isSome → ∃ g, q.transfer.grant = some g ∧ g.remaining ≠ 0)
  offer : p.current.map (·.offer) = q.current.map (·.offer)
  offers : p.calls.map (·.offer) = past.flatMap Answer.offers ++ q.calls.map (·.offer)
  events : p.events = past.flatMap (·.events) ++ q.events
  todo : p.todo = c.todo
  done : p.done = c.done
  waited : ∀ a ∈ past, ∃ woken calls, a.reaction = .pending woken calls none
  done' : q.done = c.done' ++ past
  /-- Enough polls are left. -/
  polls : ∃ left, suspensions q.transfer.stream ≤ left ∧
    q.todo = List.replicate left (.on c.name (.poll c.task)) ++ c.todo

/-- The transfer and the task are over, with the same result. -/
structure Over (c : Pairing) (m n : Machine) : Prop where
  session : n.session = m.session
  suspended : n.suspended = m.suspended
  answers : ∃ result calls calls' standing events events' past left,
    m.focus = .commands c.todo (c.done ++ [⟨.settled result calls none, standing, events⟩]) ∧
    n.focus = .commands (List.replicate left (.on c.name (.poll c.task)) ++ c.todo)
      (c.done' ++ past ++ [⟨.settled result calls' none, standing, events'⟩]) ∧
    (∀ a ∈ past, ∃ woken calls, a.reaction = .pending woken calls none) ∧
    calls.map (·.offer) = past.flatMap Answer.offers ++ calls'.map (·.offer) ∧
    events = past.flatMap (·.events) ++ events'

/-- The transfer and the task are at the same place of their scripts, or over. -/
inductive Abreast (c : Pairing) (m n : Machine) : Prop
  | under_way {past : List Answer} {p q : Passage} (whole : m.focus = .transfer p)
      (polled : n = ⟨m.session, .transfer q, m.suspended⟩) (twin : c.Twin past p q)
  | ended (h : c.Over m n)

variable {c : Pairing} {m : Machine} {past : List Answer} {p q : Passage} {g : Grant}

theorem Twin.grant (h : c.Twin past p q) : p.transfer.grant = q.transfer.grant := by
  rw [h.transfer]

theorem Twin.ring (h : c.Twin past p q) : p.transfer.ring = q.transfer.ring := by
  rw [h.transfer]

theorem Twin.request (h : c.Twin past p q) : p.transfer.request = q.transfer.request := by
  rw [h.transfer]

theorem Twin.isSome_current (h : c.Twin past p q) : p.current.isSome = q.current.isSome := by
  simpa using congrArg Option.isSome h.offer

theorem Twin.withGrant (h : c.Twin past p q) (ha : ∀ k, q.polling = some k → k.awaits = none)
    (g : Grant) : c.Twin past (p.withGrant g) (q.withGrant g) := by
  obtain ⟨woken, awaits, polls, hq, -⟩ := h.polled
  have hnone : awaits = none := ha _ hq
  exact { h with
    transfer := by simp only [Passage.withGrant, h.transfer]
    polled := ⟨woken, awaits, polls, hq, by simp [hnone]⟩ }

theorem Twin.withStream (h : c.Twin past p q) {stream : List Turn}
    (hs : suspensions stream = suspensions q.transfer.stream) :
    c.Twin past (p.withStream (unsuspended stream)) (q.withStream stream) :=
  { h with
    transfer := by simp only [Passage.withStream, h.transfer]
    polls := hs ▸ h.polls }

theorem Twin.closeCall (h : c.Twin past p q) : c.Twin past p.closeCall q.closeCall := by
  refine { h with offer := rfl, offers := ?_ }
  have hcall : p.current.toList.map (·.offer) = q.current.toList.map (·.offer) := by
    simpa only [Option.toList_map] using congrArg Option.toList h.offer
  simp only [Passage.closeCall, List.map_append, h.offers, hcall, List.append_assoc]

theorem Twin.endRace (h : c.Twin past p q) : c.Twin past p.endRace q.endRace := by
  obtain ⟨woken, awaits, polls, hq, -⟩ := h.polled
  exact { h with
    whole := by simp only [Passage.endRace, h.whole, Option.map_none]
    polled := ⟨woken, none, polls, by simp only [Passage.endRace, hq, Option.map_some], by simp⟩ }

theorem Twin.report (h : c.Twin past p q) (events : List Event) :
    c.Twin past { p with events := p.events ++ events } { q with events := q.events ++ events } :=
  { h with events := by simp only [h.events, List.append_assoc] }

theorem Twin.resume (h : c.Twin past p q) (answers answers' : List Answer) :
    c.Twin past (p.resume answers) (q.resume answers') := by
  refine { h with offer := ?_ }
  have hoffer := h.offer
  simp only [Passage.resume, Option.map_map]
  exact hoffer

theorem Twin.wake (h : c.Twin past p q) (token : Nat) (wakes : Nat → Bool) :
    c.Twin past (p.wake token wakes) (q.wake token wakes) := by
  obtain ⟨woken, awaits, polls, hq, hmore⟩ := h.polled
  exact { h with
    whole := by simp only [Passage.wake, h.whole, Option.map_none]
    polled := ⟨woken || (c.token == token && awaits.any wakes), awaits, polls,
      by simp only [Passage.wake, hq, Option.map_some], hmore⟩ }

theorem Twin.wakeAll (h : c.Twin past p q) (cancels : List (Nat × (Nat → Bool))) :
    c.Twin past (p.wakeAll cancels) (q.wakeAll cancels) := by
  induction cancels generalizing p q with
  | nil => exact h
  | cons cancel cancels ih => exact ih (h.wake cancel.1 cancel.2)

/-- **The two families come to the same verdict** where both can have left their loops: the exact
fill that looks at the count afterwards and the one that tells three outcomes apart, and the send
that ends when nothing is left and the one that takes from what is left that it was cancelled. -/
theorem Twin.verdict_eq (h : c.Twin past p q) {ending : Ending}
    (hcount : g.region.count = p.transfer.request.count) (hm : g.moved ≤ g.region.count)
    (hl : p.Leaves g ending) : q.verdict g ending = p.verdict g ending := by
  have hl' : q.Leaves g ending := by
    cases ending with
    | cancelled => simp [Passage.Leaves, h.whole] at hl
    | _ => exact hl
  rw [Passage.verdict_eq hcount hm hl, Passage.verdict_eq (h.request ▸ hcount) hm hl', h.request]

/-! ## Steps abreast -/

theorem Twin.close (h : c.Twin past p q) (m : Machine) (result : Except Failure Value)
    (events : List Event) : c.Over (m.close p result events) (m.close q result events) := by
  obtain ⟨woken, awaits, polls, hq, -⟩ := h.polled
  obtain ⟨left, -, htodo⟩ := h.polls
  have hp' : p.shownPolls = none := by simp [Passage.shownPolls, h.whole]
  have hq' : q.shownPolls = none := by simp [Passage.shownPolls, hq]
  have hname : p.transfer.name = q.transfer.name := by rw [h.transfer]
  refine ⟨rfl, rfl, result, p.calls, q.calls, m.session.standing? q.transfer.name,
    p.events ++ events, q.events ++ events, past, left, ?_, ?_, h.waited, h.offers, ?_⟩
  · simp only [Machine.close, Machine.answer, hp', h.todo, h.done, hname]
  · simp only [Machine.close, Machine.answer, hq', htodo, h.done']
  · simp only [h.events, List.append_assoc]

theorem Twin.settle (h : c.Twin past p q) (m : Machine) (g : Grant) {ending : Ending}
    (hv : q.verdict g ending = p.verdict g ending) :
    c.Over (m.settle p g ending) (m.settle q g ending) := by
  unfold Machine.settle
  simp only [h.ring, hv]
  exact h.close _ _ _

theorem Twin.drive (h : c.Twin past p q) (m : Machine) : c.Abreast (m.drive p) (m.drive q) :=
  .under_way rfl rfl h

theorem Twin.start (h : c.Twin past p q) (hg : q.transfer.grant = none) (m : Machine) :
    c.Abreast (m.start p) (m.start q) := by
  have hidle : ∀ k, q.polling = some k → k.awaits = none := by
    obtain ⟨woken, awaits, polls, hq, hmore⟩ := h.polled
    rintro k hk
    obtain rfl := Option.some.inj (hq.symm.trans hk)
    by_contra hsome
    obtain ⟨g, hg', -⟩ := hmore (Option.isSome_iff_ne_none.2 hsome)
    cases hg.symm.trans hg'
  unfold Machine.start
  simp only [h.ring, h.request]
  split
  · exact .ended (h.close ..)
  · exact ((h.withGrant hidle _).report _).drive _

/-- Both begin a call, or both are complete. -/
theorem Twin.offer_abreast (h : c.Twin past p q) (m : Machine) (hg : q.transfer.grant = some g)
    (hcount : g.region.count = p.transfer.request.count) (hm : g.moved ≤ g.region.count)
    (hu : m.session.Unheard c.token) : c.Abreast (m.offer p g) (m.offer q g) := by
  obtain ⟨woken, awaits, polls, hq, hsome⟩ := h.polled
  by_cases hmore : g.remaining = 0
  · have hnone : awaits = none := by
      by_contra hne
      obtain ⟨g', hg', hmore'⟩ := hsome (Option.isSome_iff_ne_none.2 hne)
      cases hg.symm.trans hg'
      exact hmore' hmore
    have hp' : p.next m.session g = .leave .complete := by
      simp [Passage.next, h.whole, hmore]
    have hq' : q.next m.session g = .leave .complete := by
      simp [Passage.next, hq, Polling.next, hnone, hmore]
    unfold Machine.offer
    rw [hp', hq']
    exact .ended (h.settle m g (h.verdict_eq hcount hm hmore))
  · have hp' : p.next m.session g = .call none := by
      simp [Passage.next, h.whole, Nat.pos_of_ne_zero hmore]
    rw [Machine.offer_begins hp', Machine.offer_begins (Passage.next_unheard hq hu hmore), h.ring]
    exact .under_way rfl rfl
      { h with
        whole := rfl
        offer := rfl
        polled := ⟨woken, _, polls, rfl, fun _ => ⟨g, hg, hmore⟩⟩ }

theorem Twin.hear (h : c.Twin past p q) (m : Machine) {g : Grant}
    (hcount : g.region.count = p.transfer.request.count) (hm : g.moved ≤ g.region.count)
    (hmore : g.remaining ≠ 0) (reply : Reply) :
    c.Abreast (m.hear p g reply) (m.hear q g reply) := by
  rw [Machine.hear_eq, Machine.hear_eq]
  cases hh : g.hear reply with
  | mk g' ending? =>
    cases ending? with
    | none =>
      have hidle : ∀ k, q.closeCall.endRace.polling = some k → k.awaits = none := by
        intro k hk
        obtain ⟨k₀, -, rfl⟩ := Option.map_eq_some_iff.1 hk
        rfl
      exact (h.closeCall.endRace.withGrant hidle _).drive _
    | some ending =>
      obtain ⟨rfl, -⟩ := Machine.hear_ending hh
      exact .ended (h.closeCall.settle m g'
        (h.closeCall.verdict_eq hcount hm (Machine.hear_leaves hh hmore)))

/-- A call is answered alike. -/
theorem Twin.turn (h : c.Twin past p q) (m : Machine) {g : Grant}
    (hcount : g.region.count = p.transfer.request.count) (hm : g.moved ≤ g.region.count)
    (hmore : g.remaining ≠ 0) {written : Bytes} {reply : Reply} {stream : List Turn}
    (hr : q.respond g.direction ((m.session.ring q.transfer.ring).room g)
      = (.answer written reply, stream)) : c.Abreast (m.turn p g) (m.turn q g) := by
  obtain ⟨_, _, _, hq, -⟩ := h.polled
  obtain ⟨hr', hs⟩ := Passage.respond_unsuspended (by rw [h.transfer]) (by simp [hq]) hr (by simp)
  rw [Machine.turn_eq, Machine.turn_eq, hr, h.ring, hr']
  exact (h.withStream hs).hear _ hcount hm hmore reply

/-- Commands are performed alike. -/
theorem Twin.perform (h : c.Twin past p q) (m : Machine) (g : Grant) {commands : List Command}
    {stream : List Turn}
    (hr : q.respond g.direction ((m.session.ring q.transfer.ring).room g)
      = (.perform commands, stream)) :
    ∃ session frames p' q', (m.turn p g).Reaches ⟨session, .transfer p', frames⟩ ∧
      (m.turn q g).Reaches ⟨session, .transfer q', frames⟩ ∧ c.Twin past p' q' := by
  obtain ⟨_, _, _, hq, -⟩ := h.polled
  obtain ⟨hr', hs⟩ := Passage.respond_unsuspended (by rw [h.transfer]) (by simp [hq]) hr (by simp)
  obtain ⟨session, answers, cancels, hperforms⟩ := Machine.performs m.session commands
  rw [Machine.turn_eq, Machine.turn_eq, hr, h.ring, hr']
  refine ⟨session, m.suspended.map (Passage.wakeAll cancels), _, _, (hperforms _ _).step rfl,
    (hperforms _ _).step rfl, ((h.withStream hs).wakeAll cancels).resume _ _⟩

/-- A call that makes its caller wait leads back to the same offer in the next poll. -/
theorem Twin.wait (h : c.Twin past p q) (m : Machine) (hg : q.transfer.grant = some g)
    (hcur : q.current.isSome) (hmore : g.remaining ≠ 0)
    (hoffer : p.current.map (·.offer) = some ((m.session.ring q.transfer.ring).offer g))
    (hfree : m.session.task? c.task = none) (hu : m.session.Unheard c.token)
    {k : Polling} {stream : List Turn}
    (hr : q.respond g.direction ((m.session.ring q.transfer.ring).room g) = (.wait k, stream)) :
    ∃ past' q', (m.turn q g).Reaches ⟨m.session, .transfer q', m.suspended⟩ ∧
      c.Twin past' p q' := by
  obtain ⟨woken, awaits, polls, hq, -⟩ := h.polled
  obtain ⟨wake, k₀, hstream, hk₀, rfl⟩ := Passage.respond_suspended hr
  obtain rfl := Option.some.inj (hq.symm.trans hk₀)
  obtain ⟨left, hleft, htodo⟩ := h.polls
  have hcount : suspensions (.suspend wake :: stream) = suspensions stream + 1 :=
    List.countP_cons_of_pos rfl
  rw [hstream, hcount] at hleft
  obtain ⟨left, rfl⟩ : ∃ l, left = l + 1 := ⟨left - 1, by omega⟩
  obtain ⟨call, hcall⟩ := Option.isSome_iff_exists.1 hcur
  have hshown : (q.withStream stream).shownPolls = none := by
    simp [Passage.withStream, Passage.shownPolls, hq]
  have hwait : m.turn q g = ⟨{ m.session with
        tasks := (c.task, ⟨(q.withStream stream).transfer, c.token, woken || wake, awaits⟩)
          :: m.session.tasks },
      .commands (.on c.name (.poll c.task) ::
          (List.replicate left (.on c.name (.poll c.task)) ++ c.todo))
        (c.done' ++ (past ++ [⟨.pending (woken || wake) (q.calls ++ q.current.toList) none,
          m.session.standing? q.transfer.name, q.events⟩])), m.suspended⟩ := by
    rw [Machine.turn_eq, hr]
    refine (m.wait_once (q.withStream stream) rfl hfree).trans ?_
    rw [hshown, ← List.append_assoc, ← h.done']
    exact congrArg (fun todo => (⟨_, .commands todo _, _⟩ : Machine)) htodo
  rw [hwait]
  refine ⟨past ++ [⟨.pending (woken || wake) (q.calls ++ q.current.toList) none,
    m.session.standing? q.transfer.name, q.events⟩], _, Machine.poll_calls hfree hg hmore hu, ?_⟩
  refine ⟨?_, h.whole, ⟨false, _, 1, rfl, fun _ => ⟨g, hg, hmore⟩⟩, hoffer, ?_, ?_, h.todo, h.done,
    ?_, rfl, left, Nat.le_of_succ_le_succ hleft, rfl⟩
  · simp only [h.transfer, Passage.withStream, hstream]
    rfl
  · simp [h.offers, Answer.offers, hcall]
  · simp [h.events]
  · intro a ha
    rcases List.mem_append.1 ha with ha | ha
    · exact h.waited a ha
    · obtain rfl := List.mem_singleton.1 ha
      exact ⟨_, _, rfl⟩

end Pairing

namespace Machine

variable {m m' : Machine} {p : Passage}

theorem Reaches.weight_le (h : m.Reaches m') : m'.weight ≤ m.weight := by
  induction h with
  | refl => exact Nat.le_refl _
  | step _ hs ih => exact Nat.le_trans (Nat.le_of_lt (step_weight hs)) ih

/-- A transfer comes to its answer, or to that of its poll. -/
theorem concludes (hf : m.focus = .transfer p) :
    ∃ m' answer, m.Reaches m' ∧ m'.focus = .commands p.todo (p.done ++ [answer]) ∧
      m'.suspended.length = m.suspended.length ∧ p.Stands answer m'.session := by
  induction hw : m.weight using Nat.strongRecOn generalizing m p with
  | _ w ih =>
    -- it has answered, or it goes on with less left to do
    have hends {m' : Machine} {answer : Answer} (hs : m.step = some m')
        (hf' : m'.focus = .commands p.todo (p.done ++ [answer]))
        (hsus : m'.suspended = m.suspended) (hstands : p.Stands answer m'.session) :
        ∃ m' answer, m.Reaches m' ∧ m'.focus = .commands p.todo (p.done ++ [answer]) ∧
          m'.suspended.length = m.suspended.length ∧ p.Stands answer m'.session :=
      ⟨m', answer, Reaches.refl.step hs, hf', congrArg List.length hsus, hstands⟩
    have hgoes {m₀ m₁ : Machine} {p₁ : Passage} (hs : m.step = some m₀) (hr : m₀.Reaches m₁)
        (hf₁ : m₁.focus = .transfer p₁) (hkeeps : p₁.todo = p.todo ∧ p₁.done = p.done)
        (hsus : m₁.suspended.length = m.suspended.length)
        (hpolled : p₁.polling.map (·.task) = p.polling.map (·.task))
        (hsame : p₁.transfer.ring = p.transfer.ring ∧ p₁.transfer.request = p.transfer.request)
        (hscript : suspensions p₁.transfer.stream ≤ suspensions p.transfer.stream) :
        ∃ m' answer, m.Reaches m' ∧ m'.focus = .commands p.todo (p.done ++ [answer]) ∧
          m'.suspended.length = m.suspended.length ∧ p.Stands answer m'.session := by
      have hlt : m₁.weight < w := hw ▸ Nat.lt_of_le_of_lt hr.weight_le (step_weight hs)
      obtain ⟨m', answer, hr', hf', hsus', hstands⟩ := ih _ hlt hf₁ rfl
      exact ⟨m', answer, (hr.trans hr').head hs, by rw [hf', hkeeps.1, hkeeps.2],
        hsus'.trans hsus, hstands.of_later hpolled hsame hscript⟩
    cases hg : p.transfer.grant with
    | none =>
      have hs := step_iff.2 (.start hf hg)
      cases hr : (m.session.ring p.transfer.ring).reserve p.transfer.request.purpose.direction
          p.transfer.request.count with
      | error e =>
        simp only [start, hr] at hs
        exact hends hs rfl rfl (.settled rfl)
      | ok granted =>
        simp only [start, hr] at hs
        exact hgoes hs .refl rfl ⟨rfl, rfl⟩ rfl rfl ⟨rfl, rfl⟩ (Nat.le_refl _)
    | some g =>
      by_cases hcur : p.current.isSome
      · have hs := step_iff.2 (.turn hf hg hcur)
        rw [turn_eq] at hs
        cases hr : p.respond g.direction ((m.session.ring p.transfer.ring).room g) with
        | mk response stream =>
          have hscript := Passage.suspensions_respond hr
          rw [hr] at hs
          cases response with
          | answer written reply =>
            cases hh : g.hear reply with
            | mk g' ending? =>
              cases ending? with
              | none =>
                simp only [hear_eq, hh] at hs
                refine hgoes hs .refl rfl ⟨rfl, rfl⟩ rfl ?_ ⟨rfl, rfl⟩ hscript
                simp only [Passage.withGrant, Passage.endRace, Passage.closeCall,
                  Passage.withStream, Option.map_map]
                rfl
              | some ending =>
                simp only [hear_eq, hh] at hs
                exact hends hs rfl rfl (.settled rfl)
          | perform commands =>
            obtain ⟨session, answers, cancels, hperforms⟩ := performs m.session commands
            have hgone := hgoes hs ((hperforms _ _).step rfl) rfl
            rw [Passage.wakeAll_eq] at hgone
            refine hgone ⟨rfl, rfl⟩ (List.length_map ..) ?_ ⟨rfl, rfl⟩ hscript
            simp only [Passage.resume, Passage.withStream, Option.map_map]
            rfl
          | wait k =>
            obtain ⟨wake, q, hstream, hq, rfl⟩ := Passage.respond_suspended hr
            have hfewer : suspensions stream < suspensions p.transfer.stream := by
              rw [hstream, show suspensions (.suspend wake :: stream) = suspensions stream + 1
                from List.countP_cons_of_pos rfl]
              exact Nat.lt_succ_self _
            simp only [wait] at hs
            split at hs
            · exact hgoes hs .refl rfl ⟨rfl, rfl⟩ rfl (by rw [hq]; rfl) ⟨rfl, rfl⟩ hscript
            · split at hs
              · exact hends hs rfl rfl (.settled rfl)
              · rename_i hadd
                exact hends hs rfl rfl (.waits (by rw [hq]; rfl) rfl
                  (Session.task?_addTask hadd) ⟨rfl, rfl⟩ hfewer)
      · have hs := step_iff.2 (.offer hf hg (Option.not_isSome_iff_eq_none.1 hcur))
        cases hn : p.next m.session g with
        | call polling =>
          rw [offer_begins hn] at hs
          refine hgoes hs .refl rfl ⟨rfl, rfl⟩ rfl ?_ ⟨rfl, rfl⟩ (Nat.le_refl _)
          rcases Passage.next_call hn with ⟨hp, rfl, -⟩ | ⟨q, hp, rfl, -⟩ <;> rw [hp] <;> rfl
        | leave ending =>
          simp only [offer, hn] at hs
          exact hends hs rfl rfl (.settled rfl)

end Machine

namespace Pairing

variable {c : Pairing} {m n : Machine} {past : List Answer} {p q : Passage} {g : Grant}

/-- From one machine to another nobody uses the name of the task, and its token is not cancelled. -/
def Undisturbed (c : Pairing) (m m' : Machine) : Prop :=
  ∀ k, m.Reaches k → k.Reaches m' →
    k.session.task? c.task = none ∧ c.token ∉ k.session.cancelled

/-- While nothing disturbs them, twins get on, and the one that is polled uses something up. -/
theorem Abreast.advance (hm : m.Sound) (hf : m.focus = .transfer p) (h : c.Twin past p q)
    (hfree : m.session.task? c.task = none) (hu : m.session.Unheard c.token) :
    ∃ m' n₀ n', m.Reaches m' ∧
      (⟨m.session, .transfer q, m.suspended⟩ : Machine).step = some n₀ ∧ n₀.Reaches n' ∧
      c.Abreast m' n' := by
  have hstep {m' : Machine} (hs : m.Steps m') : m.Reaches m' :=
    Machine.Reaches.refl.step (Machine.step_iff.2 hs)
  cases hg : q.transfer.grant with
  | none =>
    have hg' : p.transfer.grant = none := h.grant.trans hg
    exact ⟨m.start p, m.start q, _, hstep (.start hf hg'), Machine.step_iff.2 (.start rfl hg),
      .refl, h.start hg m⟩
  | some g =>
    have hg' : p.transfer.grant = some g := h.grant.trans hg
    have hfits := (hm.orderly.works hf).custody.fits _ (List.mem_cons_self ..)
    have hcount := hfits.count g hg'
    have hmoved := hfits.moved_le g hg'
    by_cases hcur : q.current.isSome
    · have hcur' : p.current.isSome := h.isSome_current.trans hcur
      obtain ⟨hmore, hoffer⟩ := (hm.steady.focus p hf).in_call hg' hcur'
      have hs := hstep (.turn hf hg' hcur')
      have hs' : (⟨m.session, .transfer q, m.suspended⟩ : Machine).step = some (m.turn q g) :=
        Machine.step_iff.2 (.turn rfl hg hcur)
      cases hr : q.respond g.direction ((m.session.ring q.transfer.ring).room g) with
      | mk response stream =>
        cases response with
        | answer written reply => exact ⟨_, _, _, hs, hs', .refl, h.turn m hcount hmoved hmore hr⟩
        | perform commands =>
          obtain ⟨session, frames, p', q', hr, hr', htwin⟩ := h.perform m g hr
          exact ⟨_, _, _, hs.trans hr, hs', hr', .under_way rfl rfl htwin⟩
        | wait k =>
          obtain ⟨past', q', hreaches, htwin⟩ :=
            h.wait m hg hcur hmore (h.ring ▸ hoffer) hfree hu hr
          exact ⟨m, _, _, .refl, hs', hreaches, .under_way hf rfl htwin⟩
    · have hcur' : ¬p.current.isSome := by rwa [h.isSome_current]
      rw [Option.not_isSome_iff_eq_none] at hcur hcur'
      exact ⟨m.offer p g, m.offer q g, _, hstep (.offer hf hg' hcur'),
        Machine.step_iff.2 (.offer rfl hg hcur), .refl, h.offer_abreast m hg hcount hmoved hu⟩

/-- Twins end alike. -/
theorem Abreast.ends (h : c.Abreast m n) (hm : m.Sound) (hsilent : m.session.tokens.Silent) :
    ∃ m' answer, m.Reaches m' ∧
    m'.focus = .commands c.todo (c.done ++ [answer]) ∧
    (c.Undisturbed m m' → ∃ n', n.Reaches n' ∧ c.Over m' n') := by
  induction hw : n.weight using Nat.strongRecOn generalizing m n with
  | _ w ih =>
    cases h with
    | ended h =>
      obtain ⟨result, calls, _, standing, events, _, _, _, hf, _⟩ := h.answers
      exact ⟨m, _, .refl, hf, fun _ => ⟨n, .refl, h⟩⟩
    | @under_way past p q hf hn htwin =>
      subst hn
      by_cases hcalm : m.session.task? c.task = none ∧ c.token ∉ m.session.cancelled
      · obtain ⟨m₁, n₀, n₁, hr, hs, hr', h₁⟩ :=
          Abreast.advance hm hf htwin hcalm.1 (Session.unheard hsilent hcalm.2)
        have hlt : n₁.weight < w :=
          hw ▸ Nat.lt_of_le_of_lt hr'.weight_le (Machine.step_weight hs)
        obtain ⟨_, hpasses⟩ := hr.passes 0
        obtain ⟨m', answer, hrm, hf', hover⟩ :=
          ih _ hlt h₁ (hm.reaches hr) (hpasses.roams.cancelled.1 ▸ hsilent) rfl
        refine ⟨m', answer, hr.trans hrm, hf', fun hquiet => ?_⟩
        obtain ⟨n', hrn, hover⟩ := hover fun k hk hk' => hquiet k (hr.trans hk) hk'
        exact ⟨n', (hr'.trans hrn).head hs, hover⟩
      · obtain ⟨m', answer, hr, hf', -⟩ := Machine.concludes hf
        rw [htwin.todo, htwin.done] at hf'
        exact ⟨m', answer, hr, hf', fun hquiet => absurd (hquiet m .refl hr) hcalm⟩

theorem twin_start (task token other name place : Nat) (request : Request) (stream : List Turn)
    (todo : List Command) (done : List Answer) {left : Nat} (hleft : suspensions stream ≤ left)
    (standing : Option Occupancy) :
    Twin ⟨task, token, other, todo, done, done ++ [⟨.done (.ok .unit) none, standing, []⟩]⟩ []
      ⟨⟨name, place, request, unsuspended stream, none⟩, none, [], none, [], todo, done⟩
      ⟨⟨name, place, request, stream, none⟩, some ⟨task, token, false, none, 1, false⟩, [], none,
        [], List.replicate left (.on other (.poll task)) ++ todo,
        done ++ [⟨.done (.ok .unit) none, standing, []⟩]⟩ :=
  ⟨rfl, rfl, ⟨false, none, 1, rfl, by simp⟩, rfl, rfl, rfl, rfl, rfl, by simp, by simp, left, hleft,
    rfl⟩

end Pairing

namespace Machine

variable {m m' : Machine}

/-- A task that is spawned under a name that nobody uses starts at its first poll. -/
theorem spawn_polls (s : Session) (frames : List Passage) {name place task : Nat}
    (hfree : s.task? task = none) (hname : s.place? name = some place) (request : Request)
    (stream : List Turn) (token other : Nat) (todo : List Command) (done : List Answer) :
    (⟨s, .commands (.on name (.spawn task request stream token) :: .on other (.poll task) :: todo)
        done, frames⟩ : Machine).Reaches
      ⟨s, .transfer ⟨⟨name, place, request, stream, none⟩,
        some ⟨task, token, false, none, 1, false⟩, [], none, [], todo,
        done ++ [⟨.done (.ok .unit) none, s.standing? name, []⟩]⟩, frames⟩ := by
  have htask : ({ s with tasks := (task, ⟨⟨name, place, request, stream, none⟩, token, false, none⟩)
      :: s.tasks } : Session).task? task
        = some ⟨⟨name, place, request, stream, none⟩, token, false, none⟩ :=
    List.lookup_cons_self
  have hspawn : (⟨s, .commands (.on name (.spawn task request stream token) ::
      .on other (.poll task) :: todo) done, frames⟩ : Machine).step
        = some ⟨{ s with tasks := (task, ⟨⟨name, place, request, stream, none⟩, token, false, none⟩)
            :: s.tasks }, .commands (.on other (.poll task) :: todo)
          (done ++ [⟨.done (.ok .unit) none, s.standing? name, []⟩]), frames⟩ := by
    simp only [step, obey, Session.spawn, Session.onRing, hname, Session.addTask,
      Session.dropTask, hfree, Except.map, apply, answer]
    rfl
  refine (Reaches.refl.step hspawn).step ?_
  simp only [step, obey, poll, htask, Session.removeTask_of_task? hfree, drive]

/-- **A polled transfer equals the whole one.** Wherever commands and unruly sources have led, let a
transfer be asked for on a ring, with a stream that never makes it wait, and on the other hand be
made a task with a stream that may, and be polled as long as it has to wait. As long as nobody else
uses the name of the task or cancels its token, the task ends with the same result on the same
session: rings, journal, and all. Its polls together have offered the stream the same, if the calls
that made it wait are left out, and have reported the same. -/
theorem polled_equals_whole {tokens : Tokens} {commands : List Command} {origin : Nat}
    {before : List Mark} (hsilent : tokens.Silent)
    (h : (load tokens commands).Roams origin before m)
    {name place : Nat} {request : Request} {stream : List Turn} {todo : List Command}
    {done : List Answer}
    (hf : m.focus = .commands (.on name (.transfer request (unsuspended stream)) :: todo) done)
    (hname : m.session.place? name = some place) (task token other : Nat) {polls : Nat}
    (hpolls : suspensions stream < polls) :
    ∃ m' answer, m.Reaches m' ∧ m'.focus = .commands todo (done ++ [answer]) ∧
      ((∀ k, m.Reaches k → k.Reaches m' →
          k.session.task? task = none ∧ token ∉ k.session.cancelled) →
        ∃ n' result calls calls' events spawned past left,
          (⟨m.session, .commands (.on name (.spawn task request stream token) ::
            (List.replicate polls (.on other (.poll task)) ++ todo)) done, m.suspended⟩ :
              Machine).Reaches n' ∧
          n'.session = m'.session ∧ n'.suspended = m'.suspended ∧
          answer.reaction = .settled result calls none ∧
          n'.focus = .commands (List.replicate left (.on other (.poll task)) ++ todo)
            (done ++ [spawned] ++ past ++
              [⟨.settled result calls' none, answer.standing, events⟩]) ∧
          (∀ a ∈ past, ∃ woken calls, a.reaction = .pending woken calls none) ∧
          calls.map (·.offer) = past.flatMap Answer.offers ++ calls'.map (·.offer) ∧
          answer.events = past.flatMap (·.events) ++ events) := by
  obtain ⟨left, rfl⟩ : ∃ l, polls = l + 1 := ⟨polls - 1, by omega⟩
  have hs : m.step = some (m.drive
      ⟨⟨name, place, request, unsuspended stream, none⟩, none, [], none, [], todo, done⟩) := by
    simp only [step, hf, obey, hname]
  obtain ⟨m', answer, hr, hf', hover⟩ :=
    ((Pairing.twin_start task token other name place request stream todo done
      (Nat.le_of_lt_succ hpolls) (m.session.standing? name)).drive m).ends (h.sound_load.step hs)
      (h.cancelled.1 ▸ hsilent)
  refine ⟨m', answer, hr.head hs, hf', fun hquiet => ?_⟩
  obtain ⟨n', hrn, hsession, hsuspended, result, calls, calls', standing, events, events', past,
    left', hm', hn', hwaited, hoffers, hevents⟩ := hover fun k hk hk' => hquiet k (hk.head hs) hk'
  obtain rfl : answer = ⟨.settled result calls none, standing, events⟩ := by
    simpa using hf'.symm.trans hm'
  have hspawn := spawn_polls m.session m.suspended (hquiet m .refl (hr.head hs)).1 hname request
    stream token other (List.replicate left (.on other (.poll task)) ++ todo) done
  exact ⟨n', result, calls, calls', events', _, past, left', hspawn.trans hrn, hsession, hsuspended,
    rfl, hn', hwaited, hoffers, hevents⟩

/-- A source that makes its caller wait between two bytes. -/
def pausingSource : List Turn := [.deliver [7], .suspend true, .deliver [8]]

def wholeFill : List Command :=
  [.on 0 (.errand (.create ⟨4, false, none⟩)),
    .on 0 (.transfer ⟨.fill, 3⟩ (unsuspended pausingSource))]

/-- Both answer with the two bytes that they have stored, after the same three offers and with the
same events. -/
theorem polled_equals_whole_pausingSource :
    ∃ (m' n' : Machine) (standing : Option Occupancy) (calls calls' : List (Call Answer))
        (events : List Event) (spawned : Answer) (past : List Answer) (left : Nat),
      ((load .plain wholeFill).after 1).Reaches m' ∧
      m'.focus = .commands [] (((load .plain wholeFill).after 1).answers ++
        [⟨.settled (.ok (.number 2)) calls none, standing,
          [.reserved .put 0 3, .committed .put 3 2]⟩]) ∧
      calls.map (·.offer) = [.room 3, .room 2, .room 1] ∧
      (⟨((load .plain wholeFill).after 1).session, .commands [
        .on 0 (.spawn 1 ⟨.fill, 3⟩ pausingSource 5), .on 0 (.poll 1), .on 0 (.poll 1)]
          ((load .plain wholeFill).after 1).answers, []⟩ : Machine).Reaches n' ∧
      n'.session = m'.session ∧
      n'.focus = .commands (List.replicate left (.on 0 (.poll 1)))
        (((load .plain wholeFill).after 1).answers ++ [spawned] ++ past ++
          [⟨.settled (.ok (.number 2)) calls' none, standing, events⟩]) ∧
      past.flatMap Answer.offers ++ calls'.map (·.offer) = [.room 3, .room 2, .room 1] ∧
      past.flatMap (·.events) ++ events = [.reserved .put 0 3, .committed .put 3 2] := by
  have hpolls : suspensions pausingSource < 2 := by decide
  obtain ⟨m', answer, hr, hf, hequal⟩ :=
    polled_equals_whole Tokens.silent_plain (passes_after (load .plain wholeFill) 0 1).roams rfl rfl
      1 5 0 hpolls
  have hend : (((load .plain wholeFill).after 1).after 8).step.isNone := by decide +kernel
  have hquiet : ∀ i ≤ 8, (((load .plain wholeFill).after 1).after i).session.tasks.isEmpty ∧
      (((load .plain wholeFill).after 1).after i).session.cancelled.isEmpty := by
    decide +kernel
  have hbusy : ∀ i < 8, (((load .plain wholeFill).after 1).after i).answers.length = 1 := by
    decide +kernel
  have hrun {k : Machine} (hk : ((load .plain wholeFill).after 1).Reaches k) :=
    hk.exists_after (Option.isNone_iff_eq_none.1 hend)
  obtain ⟨n', result, calls, calls', events, spawned, past, left, hn, hsession, -, hreaction, hf',
    -, hoffers, hevents⟩ := hequal fun k hk _ => by
      obtain ⟨i, hi, rfl⟩ := hrun hk
      obtain ⟨htasks, hcancelled⟩ := hquiet i hi
      rw [Session.task?, List.isEmpty_iff.1 htasks, List.isEmpty_iff.1 hcancelled]
      exact ⟨rfl, List.not_mem_nil⟩
  -- the run has come to its end, so the answer is the one it ends with
  obtain ⟨i, hi, rfl⟩ := hrun hr
  have hlength : (((load .plain wholeFill).after 1).after i).answers.length = 2 :=
    congrArg List.length (answers_eq hf)
  obtain rfl : i = 8 := by
    by_contra hne
    have := hbusy i (by omega)
    omega
  have hlast : (((load .plain wholeFill).after 1).after 8).answers.getLast?
      = some ⟨.settled (.ok (.number 2)) [⟨.room 3, []⟩, ⟨.room 2, []⟩, ⟨.room 1, []⟩] none, _,
        [.reserved .put 0 3, .committed .put 3 2]⟩ := rfl
  obtain rfl := Option.some.inj (hlast.symm.trans (getLast?_answers hf))
  cases hreaction
  exact ⟨_, n', _, _, calls', events, spawned, past, left, hr, hf, rfl, hn, hsession,
    hf'.trans (congrArg (Focus.commands · _) (List.append_nil _)), hoffers.symm, hevents.symm⟩

end Machine

end CyclicBuffer
