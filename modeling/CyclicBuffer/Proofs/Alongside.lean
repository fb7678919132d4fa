import CyclicBuffer.Proofs.Crossing
import CyclicBuffer.Proofs.Suspension

/-!
# Side by side

A machine that performs commands which cross a transfer, beside one that performs the same commands
on a session without that transfer. Their steps go side by side (`Beside.step`), so what the
commands answer does not depend on the transfer (`Crossing.performs`).
-/

namespace CyclicBuffer

/-! ## Machines side by side -/

def Passage.freed (d : Direction) (p : Passage) : Passage :=
  { p with
    calls := p.calls.map (Call.freed d)
    current := p.current.map (Call.freed d)
    done := p.done.map (Answer.freed d) }

def Focus.freed (d : Direction) : Focus → Focus
  | .commands todo done => .commands todo (done.map (Answer.freed d))
  | .transfer p => .transfer (p.freed d)

/-- The machine on another session, whose rings do not hold a reservation of this direction. -/
def Machine.freed (m : Machine) (d : Direction) (s' : Session) : Machine :=
  ⟨s', m.focus.freed d, m.suspended.map (Passage.freed d)⟩

namespace Crossing

/-- A machine does nothing but what crosses a transfer, and another one does the same on a session
without that transfer. -/
structure Beside (c : Crossing) (k : Stake) (m n : Machine) : Prop where
  eq : n = m.freed c.direction n.session
  session : m.session.Apart c k n.session
  crosses : m.Crosses c

/-- The grant of a transfer that crosses, as its ring has it. -/
structure Granted (c : Crossing) (s : Session) (g : Grant) : Prop where
  direction : g.direction = c.direction.other
  held : (s.ring c.place).occupancy.held g.direction = some g.region
  moved_le : g.moved ≤ g.region.count

variable {c : Crossing} {k : Stake} {m : Machine} {s' : Session} {p : Passage} {g : Grant}
  {todo : List Command} {done : List Answer}

/-! ## Passages that cross -/

end Crossing

namespace Passage

variable {c : Crossing} {p : Passage}

theorem Crosses.polling (h : p.Crosses c) {p' : Passage} (ht : p'.transfer = p.transfer)
    (htodo : p'.todo = p.todo)
    (hq : ∀ q', p'.polling = some q' → ∃ q, p.polling = some q ∧ q'.task = q.task ∧
      q'.token = q.token) : p'.Crosses c := by
  refine ⟨ht ▸ h.transfer, fun q' hq' => ?_, fun q' hq' => ?_, htodo ▸ h.todo⟩
  · obtain ⟨q, hq, htask, -⟩ := hq q' hq'
    exact htask ▸ h.task q hq
  · obtain ⟨q, hq, -, htoken⟩ := hq q' hq'
    exact htoken ▸ h.token q hq

theorem Crosses.wake (h : p.Crosses c) (token : Nat) (wakes : Nat → Bool) :
    (p.wake token wakes).Crosses c := by
  refine h.polling rfl rfl fun q' hq' => ?_
  obtain ⟨q, hq, rfl⟩ := Option.map_eq_some_iff.1 hq'
  exact ⟨q, hq, rfl, rfl⟩

theorem Crosses.endRace (h : p.Crosses c) : p.endRace.Crosses c := by
  refine h.polling rfl rfl fun q' hq' => ?_
  obtain ⟨q, hq, rfl⟩ := Option.map_eq_some_iff.1 hq'
  exact ⟨q, hq, rfl, rfl⟩

theorem Crosses.withGrant (h : p.Crosses c) (g : Grant) : (p.withGrant g).Crosses c :=
  ⟨⟨h.transfer.name, h.transfer.ring, h.transfer.direction, h.transfer.stream⟩, h.task, h.token,
    h.todo⟩

/-- A passage that begins a call still crosses. -/
theorem Crosses.next (h : p.Crosses c) {s : Session} {g : Grant} {polling : Option Polling}
    (hn : p.next s g = .call polling) {current : Option (Call Answer)} :
    ({ p with polling, current } : Passage).Crosses c := by
  refine h.polling rfl rfl fun q' hq' => ?_
  obtain rfl : polling = some q' := hq'
  rcases Passage.next_call hn with ⟨-, hnone, -⟩ | ⟨q, hq, heq, -⟩
  · cases hnone
  · cases heq
    exact ⟨q, hq, rfl, rfl⟩

end Passage

namespace Crossing

variable {c : Crossing} {k : Stake} {m : Machine} {s' : Session} {p : Passage} {g : Grant}
  {todo : List Command} {done : List Answer}

theorem beside_answer (hs : m.session.Apart c k s') (hsus : ∀ p ∈ m.suspended, p.Crosses c)
    (htodo : ∀ cmd ∈ todo, c.Crosses cmd) {name : Nat} (hname : name = c.name)
    (reaction : Reaction Answer) (events : List Event) (done : List Answer) :
    c.Beside k (m.answer name reaction events todo done)
      ((m.freed c.direction s').answer name (reactionFreed c.direction reaction) events todo
        (done.map (Answer.freed c.direction))) := by
  refine ⟨?_, hs, htodo, hsus⟩
  subst hname
  simp only [Machine.answer, Machine.freed, Focus.freed, List.map_append, List.map_cons,
    List.map_nil, Answer.freed, hs.standing]

theorem beside_drive (hs : m.session.Apart c k s') (hsus : ∀ p ∈ m.suspended, p.Crosses c)
    (hp : p.Crosses c) :
    c.Beside k (m.drive p) ((m.freed c.direction s').drive (p.freed c.direction)) :=
  ⟨rfl, hs, hp, hsus⟩

theorem beside_close (hs : m.session.Apart c k s') (hsus : ∀ p ∈ m.suspended, p.Crosses c)
    (hp : p.Crosses c) (result : Except Failure Value) (events : List Event) :
    c.Beside k (m.close p result events)
      ((m.freed c.direction s').close (p.freed c.direction) result events) := by
  have h := beside_answer hs hsus hp.todo hp.transfer.name
    (.settled result p.calls p.shownPolls) (p.events ++ events) p.done
  rw [reactionFreed, callsFreed_eq] at h
  exact h

theorem beside_start (hs : m.session.Apart c k s') (hsus : ∀ p ∈ m.suspended, p.Crosses c)
    (hp : p.Crosses c) :
    c.Beside k (m.start p) ((m.freed c.direction s').start (p.freed c.direction)) := by
  have hreserve := hs.ring.reserve_eq p.transfer.request.count
  have hd := hp.transfer.direction
  rw [← hs.direction] at hd
  unfold Machine.start
  simp only [Machine.freed, Passage.freed, hp.transfer.ring, hd]
  rw [hreserve]
  cases hr : (m.session.ring c.place).reserve k.hold.direction.other p.transfer.request.count with
  | error e => exact beside_close hs hsus hp _ _
  | ok granted =>
    have hs₁ := hs.update (hs.ring.reserve hr) granted.2.2 granted.2.2
    exact beside_drive (m := { m with session := _ }) hs₁ hsus
      ⟨⟨hp.transfer.name, hp.transfer.ring, hp.transfer.direction, hp.transfer.stream⟩, hp.task,
        hp.token, hp.todo⟩

theorem beside_settle (hs : m.session.Apart c k s') (hsus : ∀ p ∈ m.suspended, p.Crosses c)
    (hp : p.Crosses c) (hg : c.Granted m.session g) (ending : Ending) :
    c.Beside k (m.settle p g ending)
      ((m.freed c.direction s').settle (p.freed c.direction) g ending) := by
  obtain ⟨hresult, hevents, hring⟩ := hs.ring.settle (hs.direction ▸ hg.direction) hg.held
    hg.moved_le (p.verdict g ending)
  have hverdict : (p.freed c.direction).verdict g ending = p.verdict g ending := rfl
  unfold Machine.settle
  rw [hverdict]
  simp only [Machine.freed, Passage.freed, hp.transfer.ring]
  rw [hresult, hevents]
  exact beside_close (m := { m with session := _ }) (hs.update hring _ _) hsus hp _ _

/-- Both sessions tell the same of the token of a transfer that crosses. -/
theorem next_freed {s s' : Session} (hs : s.Apart c k s') (hp : p.Crosses c) :
    (p.freed c.direction).next s' g = p.next s g := by
  have hpolling : (p.freed c.direction).polling = p.polling := rfl
  unfold Passage.next
  rw [hpolling]
  cases hq : p.polling with
  | none => rfl
  | some q =>
    simp only [Polling.next, Polling.race, hs.near.isCancelled (hp.token q hq),
      hs.near.isReady (hp.token q hq)]

theorem beside_offer (hs : m.session.Apart c k s') (hsus : ∀ p ∈ m.suspended, p.Crosses c)
    (hp : p.Crosses c) (hg : c.Granted m.session g) :
    c.Beside k (m.offer p g) ((m.freed c.direction s').offer (p.freed c.direction) g) := by
  have hnext := next_freed (g := g) hs hp
  cases hn : p.next m.session g with
  | leave ending =>
    have hn' : (p.freed c.direction).next (m.freed c.direction s').session g = .leave ending :=
      hnext.trans hn
    simp only [Machine.offer, hn, hn']
    exact beside_settle hs hsus hp hg ending
  | call polling =>
    have hn' : (p.freed c.direction).next (m.freed c.direction s').session g = .call polling :=
      hnext.trans hn
    have hoffer := hs.ring.offer_eq (hs.direction ▸ hg.direction) hg.held hg.moved_le
    have hring : (p.freed c.direction).transfer.ring = c.place := hp.transfer.ring
    have hsession : (m.freed c.direction s').session = s' := rfl
    rw [Machine.offer_begins hn, Machine.offer_begins hn', hring, hsession, hoffer,
      hp.transfer.ring]
    exact beside_drive hs hsus (hp.next hn)

theorem freed_closeCall (p : Passage) (d : Direction) :
    (p.freed d).closeCall = p.closeCall.freed d := by
  simp only [Passage.freed, Passage.closeCall, List.map_append, Option.map_none,
    Option.toList_map]

theorem crosses_closeCall (hp : p.Crosses c) : p.closeCall.Crosses c :=
  ⟨hp.transfer, hp.task, hp.token, hp.todo⟩

theorem beside_hear (hs : m.session.Apart c k s') (hsus : ∀ p ∈ m.suspended, p.Crosses c)
    (hp : p.Crosses c) (hg : c.Granted m.session g) (reply : Reply) :
    c.Beside k (m.hear p g reply)
      ((m.freed c.direction s').hear (p.freed c.direction) g reply) := by
  rw [Machine.hear_eq, Machine.hear_eq, freed_closeCall]
  rcases Machine.hear_cases hg.moved_le reply with ⟨ending, heq, -⟩ | ⟨count, -, heq⟩
  · rw [heq]
    exact beside_settle hs hsus (crosses_closeCall hp) hg ending
  · rw [heq]
    exact beside_drive hs hsus ((crosses_closeCall hp).endRace.withGrant _)

theorem beside_wait (hs : m.session.Apart c k s') (hsus : ∀ p ∈ m.suspended, p.Crosses c)
    (hp : p.Crosses c) {ts : List Transfer} (hc : Custody m.session (ts ++ m.session.waiting))
    {q : Polling} (hid : q.task ∈ c.ids) (htoken : c.token ≠ some q.token) :
    c.Beside k (m.wait p q) ((m.freed c.direction s').wait (p.freed c.direction) q) := by
  have hcross : (⟨p.transfer, q.token, q.woken, q.awaits⟩ : Task).Crosses c := ⟨hp.transfer, htoken⟩
  obtain ⟨s₁, s₁', events, hadd, hadd', h₁⟩ := hs.addTask hc hid hcross
  have hsession : (m.freed c.direction s').session = s' := rfl
  have htransfer : (p.closeCall.freed c.direction).transfer = p.transfer := rfl
  have htransfer' : p.closeCall.transfer = p.transfer := rfl
  unfold Machine.wait
  simp only [freed_closeCall, hsession, htransfer, htransfer', hadd, hadd']
  split
  · refine beside_drive hs hsus ⟨hp.transfer, ?_, ?_, hp.todo⟩
    · intro q' hq'
      cases hq'
      exact hid
    · intro q' hq'
      cases hq'
      exact htoken
  · have h := beside_answer (m := { m with session := s₁ }) h₁ hsus hp.todo hp.transfer.name
      (.pending q.woken p.closeCall.calls p.shownPolls) (p.events ++ events) p.done
    rw [reactionFreed, callsFreed_eq] at h
    exact h

/-- What is left of a script that crosses is one, and so are the commands that it performs. -/
theorem admits_respond {d : Direction} {room : Nat} {response : Passage.Response}
    {stream : List Turn} (hs : ∀ turn ∈ p.transfer.stream, c.Admits turn)
    (h : p.respond d room = (response, stream)) :
    (∀ turn ∈ stream, c.Admits turn) ∧
      ∀ commands, response = .perform commands → ∀ cmd ∈ commands, c.Crosses cmd := by
  unfold Passage.respond at h
  cases hstream : p.transfer.stream with
  | nil =>
    rw [hstream] at h
    cases d <;> cases h <;> exact ⟨by simp, by simp⟩
  | cons turn rest =>
    rw [hstream] at h hs
    obtain ⟨hturn, hrest⟩ := List.forall_mem_cons.1 hs
    cases turn with
    | perform commands =>
      cases h
      cases hturn with
      | perform hcommands => exact ⟨hrest, fun _ he => by cases he; exact hcommands⟩
    | deliver data =>
      have hleft : ∀ turn ∈ (if (data.drop (min data.length room)).isEmpty then rest
          else .deliver (data.drop (min data.length room)) :: rest), c.Admits turn := by
        split
        · exact hrest
        · exact List.forall_mem_cons.2 ⟨.deliver _, hrest⟩
      cases d <;> cases h <;> exact ⟨hleft, by simp⟩
    | spill data count => cases d <;> cases h <;> exact ⟨hrest, by simp⟩
    | suspend wake =>
      cases hq : p.polling with
      | none =>
        simp only [hq] at h
        cases h
        exact ⟨hrest, by simp⟩
      | some q =>
        simp only [hq] at h
        cases h
        exact ⟨hrest, by simp⟩
    | _ =>
      cases h
      exact ⟨hrest, by simp⟩

theorem crosses_withStream (hp : p.Crosses c) {stream : List Turn}
    (hs : ∀ turn ∈ stream, c.Admits turn) : (p.withStream stream).Crosses c :=
  ⟨⟨hp.transfer.name, hp.transfer.ring, hp.transfer.direction, hs⟩, hp.task, hp.token, hp.todo⟩

theorem Granted.update {s : Session} (h : c.Granted s g) (hknown : c.place < s.rings.size)
    (ring : Ring) (hring : ring.occupancy = (s.ring c.place).occupancy) (events : List Event) :
    c.Granted (s.update c.place ring events) g := by
  refine ⟨h.direction, ?_, h.moved_le⟩
  rw [Session.ring_update_self _ hknown, hring]
  exact h.held

theorem beside_turn (hs : m.session.Apart c k s') (hsus : ∀ p ∈ m.suspended, p.Crosses c)
    (hp : p.Crosses c) (hg : c.Granted m.session g) {ts : List Transfer}
    (hc : Custody m.session (ts ++ m.session.waiting)) :
    c.Beside k (m.turn p g) ((m.freed c.direction s').turn (p.freed c.direction) g) := by
  have hring : (p.freed c.direction).transfer.ring = c.place := hp.transfer.ring
  have hsession : (m.freed c.direction s').session = s' := rfl
  have hrespond room : (p.freed c.direction).respond g.direction room
      = p.respond g.direction room := rfl
  rw [Machine.turn_eq, Machine.turn_eq, hring, hsession, hrespond, hs.ring.room_eq,
    hp.transfer.ring]
  cases hr : p.respond g.direction ((m.session.ring c.place).room g) with
  | mk response stream =>
    obtain ⟨hstream, hcommands⟩ := admits_respond hp.transfer.stream hr
    have hp' := crosses_withStream hp hstream
    cases response with
    | answer written reply =>
      have hreceive := hs.ring.receive (hs.direction ▸ hg.direction) hg.held hg.moved_le
        (Passage.respond_accepts hr)
      have hg' : c.Granted
          (m.session.update c.place ((m.session.ring c.place).receive g written) []) g :=
        hg.update hs.near.known ((m.session.ring c.place).receive g written) rfl []
      exact beside_hear (m := { m with session := _ }) (hs.update hreceive [] []) hsus hp' hg' reply
    | perform commands =>
      refine ⟨?_, hs, hcommands commands rfl, List.forall_mem_cons.2 ⟨hp', hsus⟩⟩
      have hnested : ((p.freed c.direction).current.map fun call => call.nested).getD []
          = ((p.current.map fun call => call.nested).getD []).map (Answer.freed c.direction) := by
        cases hcur : p.current with
        | none => simp [Passage.freed, hcur]
        | some call => simp [Passage.freed, hcur, Call.freed]
      simp only [hnested]
      rfl
    | wait q =>
      obtain ⟨wake, q₀, -, hq₀, rfl⟩ := Passage.respond_suspended hr
      exact beside_wait hs hsus hp' hc (q := { q₀ with woken := q₀.woken || wake })
        (hp.task q₀ hq₀) (hp.token q₀ hq₀)

/-! ## Commands -/

theorem beside_poll (hs : m.session.Apart c k s') (hsus : ∀ p ∈ m.suspended, p.Crosses c)
    (htodo : ∀ cmd ∈ todo, c.Crosses cmd) {id : Nat} (hid : id ∈ c.ids) (again : Bool) :
    c.Beside k (m.poll c.name id again todo done)
      ((m.freed c.direction s').poll c.name id again todo
        (done.map (Answer.freed c.direction))) := by
  have htask : (m.freed c.direction s').session.task? id = m.session.task? id :=
    hs.near.tasks id hid
  unfold Machine.poll
  rw [htask]
  cases ht : m.session.task? id with
  | none => exact beside_answer hs hsus htodo rfl .noTask [] done
  | some task =>
    have hcross := hs.near.crossing id hid task ht
    refine beside_drive (m := { m with session := _ }) (hs.removeTask hid) hsus
      ⟨hcross.transfer, ?_, ?_, htodo⟩
    · intro q hq
      cases hq
      exact hid
    · intro q hq
      cases hq
      exact hcross.token

theorem shown_freed (d : Direction) (operation : Operation)
    (result : Except Failure Operation.Value) :
    reactionFreed d (Session.shown operation result) = Session.shown operation result := by
  unfold Session.shown
  split
  · split <;> rfl
  · rfl

theorem beside_obey (hs : m.session.Apart c k s') (hsus : ∀ p ∈ m.suspended, p.Crosses c)
    (htodo : ∀ cmd ∈ todo, c.Crosses cmd) {ts : List Transfer}
    (hc : Custody m.session (ts ++ m.session.waiting)) {name : Nat} {action : Action}
    (hcmd : c.Crosses (.on name action)) :
    c.Beside k (m.obey name action todo done)
      ((m.freed c.direction s').obey name action todo (done.map (Answer.freed c.direction))) := by
  have hsession : (m.freed c.direction s').session = s' := rfl
  cases hcmd with
  | @operate operation hop =>
    obtain ⟨hresult, hevents, hring⟩ := hs.ring.apply (hs.direction ▸ hop)
    simp only [Machine.obey, Machine.apply, Session.errand, Session.onRing, hsession,
      hs.near.named, hs.near.named', hresult, hevents]
    have h := beside_answer (m := { m with session := _ })
      (hs.update hring ((m.session.ring c.place).apply operation).events
        ((m.session.ring c.place).apply operation).events) hsus htodo rfl
      (Session.shown operation ((m.session.ring c.place).apply operation).result)
      ((m.session.ring c.place).apply operation).events done
    rw [shown_freed] at h
    exact h
  | transfer hd hstream =>
    simp only [Machine.obey, hsession, hs.near.named, hs.near.named']
    exact beside_drive hs hsus ⟨⟨rfl, rfl, hd, hstream⟩, by simp, by simp, htodo⟩
  | @spawn id token request stream hid hd hstream ht =>
    have hcross :
        (⟨⟨c.name, c.place, request, stream, none⟩, token, false, none⟩ : Task).Crosses c :=
      ⟨⟨rfl, rfl, hd, hstream⟩, ht⟩
    obtain ⟨s₁, s₁', events, hadd, hadd', h₁⟩ := hs.addTask hc hid hcross
    simp only [Machine.obey, Machine.apply, Session.spawn, Session.onRing, hsession,
      hs.near.named, hs.near.named', hadd, hadd']
    exact beside_answer (m := { m with session := s₁ }) h₁ hsus htodo rfl (.done (.ok .unit) none)
      events done
  | poll hid => exact beside_poll hs hsus htodo hid false
  | run hid => exact beside_poll hs hsus htodo hid true
  | @drop id hid =>
    obtain ⟨s₁, s₁', events, hdrop, hdrop', h₁⟩ := hs.dropTask hc hid
    have htask : s'.task? id = m.session.task? id := hs.near.tasks id hid
    have hsubject : m.session.subject c.name (.drop id) = c.name := by
      cases ht : m.session.task? id with
      | none => simp only [Session.subject, ht, Option.map_none, Option.getD_none]
      | some task =>
        simp only [Session.subject, ht, Option.map_some, Option.getD_some]
        exact (hs.near.crossing id hid task ht).transfer.name
    have hsubject' : s'.subject c.name (.drop id) = c.name := by
      simp only [Session.subject, htask] at hsubject ⊢
      exact hsubject
    simp only [Machine.obey, Machine.apply, hsession, hsubject, hsubject', Session.errand, hdrop,
      hdrop', htask]
    exact beside_answer (m := { m with session := s₁ }) h₁ hsus htodo rfl
      (.done (.ok (.flag (m.session.task? id).isSome)) none) events done
  | @cancel token ht =>
    have hwoken : ∀ p ∈ m.suspended.map (Passage.wake token (m.session.wakes token)),
        p.Crosses c := by
      intro p hp
      obtain ⟨q, hq, rfl⟩ := List.mem_map.1 hp
      exact (hsus q hq).wake token _
    have hfrozen : (m.suspended.map (Passage.freed c.direction)).map
        (Passage.wake token (m.session.wakes token))
          = (m.suspended.map (Passage.wake token (m.session.wakes token))).map
              (Passage.freed c.direction) := by
      rw [List.map_map, List.map_map]
      rfl
    simp only [Machine.obey, Machine.freed, hs.near.wakes ht, hfrozen]
    exact beside_answer
      (m := { m with
        session := m.session.cancel token
        suspended := m.suspended.map (Passage.wake token (m.session.wakes token)) })
      (hs.cancel ht) hwoken htodo rfl (.done (.ok .unit) none) [] done

/-! ## Steps -/

theorem crosses_resume {answers : List Answer} (hp : p.Crosses c) : (p.resume answers).Crosses c :=
  ⟨hp.transfer, hp.task, hp.token, hp.todo⟩

theorem freed_resume (p : Passage) (answers : List Answer) (d : Direction) :
    (p.freed d).resume (answers.map (Answer.freed d)) = (p.resume answers).freed d := by
  simp only [Passage.freed, Passage.resume, Option.map_map]
  rfl

variable {n M : Machine} {m' : Machine} {before : List Answer} {after : List Command}
  {frames : List Passage}

/-- What a machine has under way is what the machine that does the same above others has. -/
theorem custody_of_above (h : m.Above before after frames M) (hM : M.Sound) :
    ∃ ts, Custody m.session (m.focus.transfers ++ (ts ++ m.session.waiting)) := by
  have hcustody := hM.orderly.custody
  cases h with
  | outermost h =>
    have hfocus : (m.focus.amid before after).transfers = m.focus.transfers := by
      cases m.focus <;> rfl
    exact ⟨frames.map fun p => p.transfer, hfocus ▸ hcustody⟩
  | within top last h => exact ⟨_, hcustody⟩

/-- The other machine does the same step. -/
theorem Beside.step (h : c.Beside k m n) {ts : List Transfer}
    (hc : Custody m.session (m.focus.transfers ++ (ts ++ m.session.waiting)))
    (hs : m.step = some m') :
    ∃ n', n.step = some n' ∧ c.Beside k m' n' := by
  have heq := h.eq
  generalize n.session = s' at heq
  obtain rfl := heq
  have hsession : m.session.Apart c k s' := h.session
  obtain ⟨hfocus, hsuspended⟩ := h.crosses
  have hgranted {p : Passage} {g : Grant} (hf : m.focus = .transfer p) (hp : p.Crosses c)
      (hg : p.transfer.grant = some g) : c.Granted m.session g := by
    rw [hf] at hc
    obtain ⟨hd, hheld, hm⟩ := hc.holds (List.mem_cons_self ..) hg
    rw [hp.transfer.ring] at hheld
    exact ⟨hd.trans hp.transfer.direction, hheld, hm⟩
  cases Machine.step_iff.1 hs with
  | @resume p rest done hf hsus =>
    rw [hsus] at hsuspended
    obtain ⟨hp, hrest⟩ := List.forall_mem_cons.1 hsuspended
    have hf' : (m.freed c.direction s').focus
        = .commands [] (done.map (Answer.freed c.direction)) := by
      simp only [Machine.freed, hf, Focus.freed]
    have hsus' : (m.freed c.direction s').suspended
        = p.freed c.direction :: rest.map (Passage.freed c.direction) := by
      simp only [Machine.freed, hsus, List.map_cons]
    refine ⟨_, Machine.step_iff.2 (.resume hf' hsus'), ?_, hsession, crosses_resume hp, hrest⟩
    rw [freed_resume]
    rfl
  | @obey name action todo done hf =>
    rw [hf] at hfocus hc
    obtain ⟨hcmd, htodo⟩ := List.forall_mem_cons.1 hfocus
    refine ⟨_, Machine.step_iff.2 (.obey ?_), beside_obey hsession hsuspended htodo hc hcmd⟩
    simp only [Machine.freed, hf, Focus.freed]
  | @start p hf hg =>
    rw [hf] at hfocus
    refine ⟨_, Machine.step_iff.2 (.start (p := p.freed c.direction) ?_ hg),
      beside_start hsession hsuspended hfocus⟩
    simp only [Machine.freed, hf, Focus.freed]
  | @turn p g hf hg hcall =>
    rw [hf] at hfocus
    have hgr := hgranted hf hfocus hg
    have hc' : Custody m.session ((p.transfer :: ts) ++ m.session.waiting) := by
      rw [hf] at hc
      exact hc
    refine ⟨_, Machine.step_iff.2 (.turn (p := p.freed c.direction) ?_ hg ?_),
      beside_turn hsession hsuspended hfocus hgr hc'⟩
    · simp only [Machine.freed, hf, Focus.freed]
    · simpa [Passage.freed] using hcall
  | @offer p g hf hg hidle =>
    rw [hf] at hfocus
    refine ⟨_, Machine.step_iff.2 (.offer (p := p.freed c.direction) ?_ hg ?_),
      beside_offer hsession hsuspended hfocus (hgranted hf hfocus hg)⟩
    · simp only [Machine.freed, hf, Focus.freed]
    · simp [Passage.freed, hidle]

theorem Beside.cancels (h : c.Beside k m n) : n.cancels = m.cancels := by
  have hnear := h.session.near
  have hcrosses := h.crosses
  rw [h.eq]
  unfold Machine.cancels
  rcases hf : m.focus with ⟨_ | ⟨⟨name, action⟩, todo⟩, done⟩ | p
  · simp only [Machine.freed, hf, Focus.freed]
  · cases action with
    | cancel token =>
      have hfocus := hcrosses.focus
      rw [hf] at hfocus
      cases hfocus _ (List.mem_cons_self ..) with
      | cancel hne => simp only [Machine.freed, hf, Focus.freed, hnear.wakes hne]
    | _ => simp only [Machine.freed, hf, Focus.freed]
  · simp only [Machine.freed, hf, Focus.freed]

/-- What crosses does not cancel the token of the transfer. -/
theorem cancels_other (h : m.Crosses c) : ∀ cancel ∈ m.cancels, c.token ≠ some cancel.1 := by
  have hfocus := h.focus
  intro cancel ht
  unfold Machine.cancels at ht
  split at ht
  · rename_i hf
    rw [hf] at hfocus
    obtain rfl := List.mem_singleton.1 ht
    cases hfocus _ (List.mem_cons_self ..) with
    | cancel hne => exact hne
  · cases ht

/-- Machines stay side by side, each above its own others. -/
theorem Beside.reaches (h : c.Beside k m n) (hM : M.Sound) (habove : m.Above before after frames M)
    (hr : m.Reaches m') :
    ∃ cancels n' M', (∀ cancel ∈ cancels, c.token ≠ some cancel.1) ∧ c.Beside k m' n' ∧
      M.Reaches M' ∧ m'.Above before after (frames.map (Passage.wakeAll cancels)) M' ∧
      ∀ before after frames N, n.Above before after frames N → ∃ N', N.Reaches N' ∧
        n'.Above before after (frames.map (Passage.wakeAll cancels)) N' := by
  induction hr with
  | refl =>
    refine ⟨[], n, M, by simp, h, .refl, by rwa [Passage.wakeAll_nil], fun _ _ _ N hN => ?_⟩
    exact ⟨N, .refl, by rwa [Passage.wakeAll_nil]⟩
  | @step m₁ m₂ _ hs ih =>
    obtain ⟨cancels, n₁, M₁, hcancels, h₁, hr₁, habove₁, hreplays⟩ := ih
    obtain ⟨ts, hc⟩ := custody_of_above habove₁ (hM.reaches hr₁)
    obtain ⟨n₂, hs', h₂⟩ := h₁.step hc hs
    obtain ⟨M₂, hS, habove₂⟩ := habove₁.step hs
    rw [Passage.wakeAll_append] at habove₂
    refine ⟨cancels ++ m₁.cancels, n₂, M₂, ?_, h₂, hr₁.step hS, habove₂, ?_⟩
    · exact List.forall_mem_append.2 ⟨hcancels, cancels_other h₁.crosses⟩
    · intro before after frames N hN
      obtain ⟨N₁, hR, hN₁⟩ := hreplays before after frames N hN
      obtain ⟨N₂, hS', hN₂⟩ := hN₁.step hs'
      rw [Passage.wakeAll_append, h₁.cancels] at hN₂
      exact ⟨N₂, hR.step hS', hN₂⟩

/-! ## Commands and their answers -/

end Crossing

/-- Performing these commands on a session gives these answers and leads to another session,
wherever they are performed. -/
def Session.Does (s : Session) (exchanges : List (Command × Answer)) (s' : Session) : Prop :=
  ∃ cancels, ∀ after before frames,
    (⟨s, .commands (exchanges.map Prod.fst ++ after) before, frames⟩ : Machine).Reaches
      ⟨s', .commands after (before ++ exchanges.map Prod.snd),
        frames.map (Passage.wakeAll cancels)⟩

theorem Session.Does.refl (s : Session) : s.Does [] s :=
  ⟨[], fun after before frames => by simpa using Machine.Reaches.refl⟩

theorem Session.Does.append {s s₁ s₂ : Session} {exchanges exchanges' : List (Command × Answer)}
    (h : s.Does exchanges s₁) (h' : s₁.Does exchanges' s₂) :
    s.Does (exchanges ++ exchanges') s₂ := by
  obtain ⟨cancels, h⟩ := h
  obtain ⟨cancels', h'⟩ := h'
  refine ⟨cancels ++ cancels', fun after before frames => ?_⟩
  have hfirst := h (exchanges'.map Prod.fst ++ after) before frames
  have hsecond := h' after (before ++ exchanges.map Prod.snd)
    (frames.map (Passage.wakeAll cancels))
  simp only [List.map_append, List.append_assoc, Passage.wakeAll_append] at hfirst hsecond ⊢
  exact hfirst.trans hsecond

namespace Machine

/-- A command comes to one answer. -/
theorem answers_command {m : Machine} {cmd : Command} {todo : List Command} {done : List Answer}
    (hf : m.focus = .commands (cmd :: todo) done) :
    ∃ m' answer, m.Reaches m' ∧ m'.focus = .commands todo (done ++ [answer]) ∧
      m'.suspended.length = m.suspended.length := by
  obtain ⟨name, action⟩ := cmd
  have hs := step_iff.2 (.obey hf)
  have hdrive {m₁ : Machine} {p : Passage} (hs : m.step = some m₁) (hf₁ : m₁.focus = .transfer p)
      (htodo : p.todo = todo) (hdone : p.done = done) (hsus : m₁.suspended = m.suspended) :
      ∃ m' answer, m.Reaches m' ∧ m'.focus = .commands todo (done ++ [answer]) ∧
        m'.suspended.length = m.suspended.length := by
    obtain ⟨m', answer, hr, hf', hlength, -⟩ := concludes hf₁
    exact ⟨m', answer, hr.head hs, by rw [hf', htodo, hdone], hsus ▸ hlength⟩
  have hpoll id again (hs : m.step = some (m.poll name id again todo done)) :
      ∃ m' answer, m.Reaches m' ∧ m'.focus = .commands todo (done ++ [answer]) ∧
        m'.suspended.length = m.suspended.length := by
    unfold poll at hs
    split at hs
    · exact ⟨_, _, Reaches.refl.step hs, rfl, rfl⟩
    · exact hdrive hs rfl rfl rfl rfl
  cases action with
  | errand e => exact ⟨_, _, Reaches.refl.step hs, rfl, rfl⟩
  | spawn id request stream token => exact ⟨_, _, Reaches.refl.step hs, rfl, rfl⟩
  | transfer request stream =>
    simp only [obey] at hs
    split at hs
    · exact ⟨_, _, Reaches.refl.step hs, rfl, rfl⟩
    · exact hdrive hs rfl rfl rfl rfl
  | poll id => exact hpoll id false hs
  | run id => exact hpoll id true hs
  | cancel token => exact ⟨_, _, Reaches.refl.step hs, rfl, List.length_map ..⟩

end Machine

namespace Crossing

variable {c : Crossing} {k : Stake} {M : Machine} {s' : Session}

/-- **A command that crosses a transfer does the same without it.** Its answer differs in nothing
but the reservation that the ring shows, and the sessions stay apart by the same transfer. It wakes
others, but not the task that the transfer is. -/
theorem performs (hM : M.Sound) {cmd : Command} {todo : List Command} {done : List Answer}
    (hf : M.focus = .commands (cmd :: todo) done) (hcmd : c.Crosses cmd)
    (hs : M.session.Apart c k s') :
    ∃ s₁ s₁' a cancels, (∀ cancel ∈ cancels, c.token ≠ some cancel.1) ∧
      M.Reaches ⟨s₁, .commands todo (done ++ [a]), M.suspended.map (Passage.wakeAll cancels)⟩ ∧
      s'.Does [(cmd, a.freed c.direction)] s₁' ∧ s₁.Apart c k s₁' := by
  obtain ⟨m, a, hr, hm, hsus⟩ := Machine.answers_command
    (m := ⟨M.session, .commands [cmd] [], []⟩) rfl
  have hsus : m.suspended = [] := List.length_eq_zero_iff.1 hsus
  have habove : Machine.Above done todo M.suspended ⟨M.session, .commands [cmd] [], []⟩ M := by
    obtain ⟨session, focus, suspended⟩ := M
    obtain rfl : focus = .commands (cmd :: todo) done := hf
    have h : Machine.Above done todo suspended ⟨session, .commands [cmd] [], []⟩ _ :=
      .outermost rfl
    simpa [Machine.onto, Focus.amid] using h
  have hbeside : c.Beside k ⟨M.session, .commands [cmd] [], []⟩ ⟨s', .commands [cmd] [], []⟩ :=
    ⟨rfl, hs, by simpa [Focus.Crosses] using hcmd, by simp⟩
  obtain ⟨cancels, n, M', hcancels, hn, hR, habove', hreplays⟩ := hbeside.reaches hM habove hr
  obtain ⟨session, focus, suspended⟩ := m
  obtain rfl : focus = .commands [] [a] := hm
  obtain rfl : suspended = [] := hsus
  have houter {before : List Answer} {after : List Command} {frames : List Passage} {s : Session}
      {answer : Answer} {N : Machine}
      (h : Machine.Above before after frames ⟨s, .commands [] [answer], []⟩ N) :
      N = ⟨s, .commands after (before ++ [answer]), frames⟩ := by
    cases h with
    | outermost _ => rfl
    | within top last h => simp at h
  obtain rfl := houter habove'
  have hn' := hn.eq
  refine ⟨session, n.session, a, cancels, hcancels, hR, ⟨cancels, fun after before frames => ?_⟩,
    hn.session⟩
  obtain ⟨N, hN, habove''⟩ := hreplays before after frames _ (.outermost rfl)
  rw [hn'] at habove''
  obtain rfl := houter habove''
  simpa [Machine.onto, Focus.amid] using hN

end Crossing

end CyclicBuffer
