import CyclicBuffer.Proofs.Calls

/-!
# Transfers end after few calls

A transfer of `n` bytes begins no more than `n` calls, besides one for each interruption and one for
each wait, and each of them is offered some bytes of those that are left (`reachable_calls`). The
bound is tight: whatever number of interruptions and waits there are, a stream that then moves a
byte in each call reaches it (`spends_slowed`). And every transfer comes to its end, a task with
enough polls (`polls_settle`).
-/

namespace CyclicBuffer

variable {m m' m₁ : Machine} {p : Passage} {g : Grant} {place : Nat} {d : Direction}
  {marks : List Mark}

namespace Machine

/-! ## Every transfer ends -/

/-- A task that has to wait is over after as many more polls as its stream can make it wait. -/
theorem polls_settle {id name : Nat} {todo : List Command} {k : Nat} (hf : m.focus = .transfer p)
    (hpolled : p.polling.map (·.task) = some id)
    (htodo : p.todo = List.replicate k (.on name (.poll id)) ++ todo)
    (hk : suspensions p.transfer.stream ≤ k) :
    ∃ m' left past answer, m.Reaches m' ∧
      m'.focus = .commands (List.replicate left (.on name (.poll id)) ++ todo)
        (p.done ++ past ++ [answer]) ∧
      (∀ a ∈ past, ∃ woken calls polls, a.reaction = .pending woken calls polls) ∧
      ∃ result calls polls, answer.reaction = .settled result calls polls := by
  induction k generalizing m p with
  | zero =>
    obtain ⟨m', answer, hr, hf', -, hstands⟩ := concludes hf
    cases hstands with
    | settled reaction =>
      exact ⟨m', 0, [], answer, hr, by simpa [htodo] using hf', by simp, _, _, _, reaction⟩
    | waits _ _ _ _ fewer => exact absurd fewer (by omega)
  | succ k ih =>
    obtain ⟨m', answer, hr, hf', -, hstands⟩ := concludes hf
    cases hstands with
    | settled reaction =>
      exact ⟨m', k + 1, [], answer, hr, by simpa [htodo] using hf', by simp, _, _, _, reaction⟩
    | @waits id' task woken calls polls polled reaction waiting _ fewer =>
      obtain rfl : id = id' := Option.some.inj (hpolled.symm.trans polled)
      -- the next poll takes the task up again
      rw [htodo, List.replicate_succ, List.cons_append] at hf'
      have hs : m'.step = some ({ m' with session := m'.session.removeTask id }.drive
          (task.polled id false (List.replicate k (Command.on name (.poll id)) ++ todo)
            (p.done ++ [answer]))) := by
        simp only [step, hf', obey, poll, waiting]
        rfl
      have hleft : suspensions task.transfer.stream ≤ k := by omega
      obtain ⟨m'', left, past, last, hr', hf'', hpast, hlast⟩ :=
        ih (m := { m' with session := m'.session.removeTask id }.drive (task.polled ..)) rfl rfl rfl
          hleft
      refine ⟨m'', left, answer :: past, last, hr.trans (hr'.head hs), ?_, ?_, hlast⟩
      · simpa [Task.polled] using hf''
      · intro a ha
        rcases List.mem_cons.1 ha with rfl | ha
        · exact ⟨_, _, _, reaction⟩
        · exact hpast a ha

/-! ## As many calls as can be -/

/-- A run in which the transfer of a direction is not over, with the calls that begin, the
interruptions and the waits. -/
def Spends (place : Nat) (d : Direction) (m : Machine) (calls interruptions waits : Nat)
    (m' : Machine) : Prop :=
  ∃ marks, m.Passes place marks m' ∧ (∀ mark ∈ marks, ¬ mark.Ends d) ∧
    callsOf d marks = calls ∧ interruptionsOf d marks = interruptions ∧ waitsOf d marks = waits

section Spends
variable {calls calls' interruptions interruptions' waits waits' : Nat}

theorem Spends.refl : m.Spends place d 0 0 0 m :=
  ⟨[], .refl, by simp, rfl, rfl, rfl⟩

theorem Spends.trans (h : m.Spends place d calls interruptions waits m₁)
    (h' : m₁.Spends place d calls' interruptions' waits' m') :
    m.Spends place d (calls + calls') (interruptions + interruptions') (waits + waits') m' := by
  obtain ⟨marks, hps, hlive, rfl, rfl, rfl⟩ := h
  obtain ⟨more, hps', hlive', rfl, rfl, rfl⟩ := h'
  exact ⟨marks ++ more, hps.trans hps', List.forall_mem_append.2 ⟨hlive, hlive'⟩,
    callsOf_append .., interruptionsOf_append .., waitsOf_append ..⟩

/-- A step that leaves these marks. -/
theorem spends_step (hs : m.step = some m') (hmarks : m.marks place = marks)
    (hlive : ∀ mark ∈ marks, ¬ mark.Ends d) :
    m.Spends place d (callsOf d marks) (interruptionsOf d marks) (waitsOf d marks) m' := by
  subst hmarks
  exact ⟨m.marks place, Passes.refl.step hs, hlive, rfl, rfl, rfl⟩

/-- A poll takes up a task that waits. -/
theorem spends_poll {s : Session} {id name : Nat} {task : Task} {todo : List Command}
    {done : List Answer} {frames : List Passage} (hfree : s.task? id = none) :
    (⟨{ s with tasks := (id, task) :: s.tasks }, .commands (.on name (.poll id) :: todo) done,
        frames⟩ : Machine).Spends place d 0 0 0
      ⟨s, .transfer (task.polled id false todo done), frames⟩ := by
  have hquiet : (⟨{ s with tasks := (id, task) :: s.tasks },
      .commands (.on name (.poll id) :: todo) done, frames⟩ : Machine).marks place = [] := rfl
  exact spends_step (poll_takes hfree) hquiet (by simp)

end Spends

end Machine

/-- A stream that is interrupted so often, makes its caller wait so often, and then moves a byte in
each call. -/
def slowStream (interruptions waits count : Nat) : List Turn :=
  List.replicate interruptions (.fail (.bare .interrupted)) ++
    (List.replicate waits (.suspend false) ++ List.replicate count (.claim 1))

/-- A transfer that has yet to start, with such a stream and as many polls more as it has to wait
times. -/
def Passage.slowed (p : Passage) (id name interruptions waits : Nat) : Passage :=
  { p with
    transfer := { p.transfer with
      stream := slowStream interruptions waits p.transfer.request.count }
    current := none
    todo := List.replicate waits (.on name (.poll id)) ++ p.todo }

/-- A transfer that has so many polls to come, with these turns of its stream. -/
structure Passage.Slow (id token name place : Nat) (g : Grant) (turns : List Turn) (polls : Nat)
    (todo : List Command) (p : Passage) : Prop where
  ring : p.transfer.ring = place
  grant : p.transfer.grant = some g
  stream : p.transfer.stream = turns
  polling : ∀ q ∈ p.polling, q.task = id ∧ q.token = token ∧ q.again = false
  polled : polls ≠ 0 → p.polling.isSome
  todo : p.todo = List.replicate polls (.on name (.poll id)) ++ todo

section Slow
variable {s : Session} {frames : List Passage} {id token name polls : Nat} {todo : List Command}
  {turns : List Turn}

/-- The next call begins. -/
theorem Passage.Slow.offer (h : p.Slow id token name place g turns polls todo)
    (frames : List Passage) (hidle : p.current = none) (hcalm : s.Unheard token)
    (hmore : g.remaining ≠ 0) :
    ∃ p' : Passage, p'.Slow id token name place g turns polls todo ∧ p'.current.isSome ∧
      (⟨s, .transfer p, frames⟩ : Machine).Spends place g.direction 1 0 0
        ⟨s, .transfer p', frames⟩ := by
  obtain rfl := h.ring
  obtain ⟨polling, hn, hpolling⟩ : ∃ polling, p.next s g = .call polling ∧
      ∀ q ∈ polling, q.task = id ∧ q.token = token ∧ q.again = false := by
    cases hq : p.polling with
    | none => exact ⟨none, by simp [Passage.next, hq, Nat.pos_of_ne_zero hmore], by simp⟩
    | some q =>
      obtain ⟨rfl, rfl, hagain⟩ := h.polling q hq
      refine ⟨_, Passage.next_unheard hq hcalm hmore, ?_⟩
      rintro _ ⟨⟩
      exact ⟨rfl, rfl, hagain⟩
  have hs := Machine.step_iff.2 (.offer (m := ⟨s, .transfer p, frames⟩) rfl h.grant hidle)
  rw [Machine.offer_begins hn] at hs
  have hmarks : (⟨s, .transfer p, frames⟩ : Machine).marks p.transfer.ring
      = [.offered g.direction ((s.ring p.transfer.ring).offer g)] := by
    simp only [Machine.marks, Passage.marks, Passage.parks?, h.grant, hidle, hn, marksAt,
      Option.isSome_none, Bool.false_eq_true, if_false, if_true, List.append_nil]
  have hpolled : polls ≠ 0 → polling.isSome := fun hne => by
    rcases Passage.next_call hn with ⟨hnone, -, -⟩ | ⟨q, -, rfl, -⟩
    · simpa [hnone] using h.polled hne
    · rfl
  refine ⟨{ p with polling, current := some ⟨(s.ring p.transfer.ring).offer g, []⟩ },
    ⟨rfl, h.grant, h.stream, hpolling, hpolled, h.todo⟩, rfl, ?_⟩
  have hspends := Machine.spends_step (d := g.direction) hs hmarks (by simp [Mark.Ends])
  simpa [callsOf, interruptionsOf, waitsOf, Mark.calls, Mark.interrupts, Mark.waits,
    Machine.drive] using hspends

/-- A call is answered and leaves something to move, and the next one begins. -/
theorem Passage.Slow.answer {turn : Turn} {reply : Reply} {g' : Grant} {interruptions : Nat}
    (h : p.Slow id token name place g (turn :: turns) polls todo) (hcur : p.current.isSome)
    (hcalm : s.Unheard token)
    (hr : p.respond g.direction ((s.ring place).room g) = (.answer [] reply, turns))
    (hh : g.hear reply = (g', none)) (hmore : g'.remaining ≠ 0)
    (hi : ∀ offer, interruptionsOf g.direction [.replied g.direction offer [] reply]
      = interruptions) :
    ∃ p' : Passage, p'.Slow id token name place g' turns polls todo ∧ p'.current.isSome ∧
      (⟨s, .transfer p, frames⟩ : Machine).Spends place g.direction 1 interruptions 0
        ⟨s, .transfer p', frames⟩ := by
  obtain rfl := h.ring
  have hs := Machine.step_iff.2 (.turn (m := ⟨s, .transfer p, frames⟩) rfl h.grant hcur)
  have hmarks : (⟨s, .transfer p, frames⟩ : Machine).marks p.transfer.ring
      = [.replied g.direction ((s.ring p.transfer.ring).offer g) [] reply] := by
    simp only [Machine.marks, Passage.marks, Passage.parks?, h.grant, hcur, hr, marksAt,
      Ring.answered, hh, if_true, List.append_nil]
  rw [Machine.turn_eq, hr] at hs
  simp only [Ring.receive_nil, Session.update_ring, Machine.hear_eq, hh] at hs
  have hslow : ((p.withStream turns).closeCall.endRace.withGrant g').Slow id token name
      p.transfer.ring g' turns polls todo := by
    refine ⟨rfl, rfl, rfl, ?_, fun hne => ?_, h.todo⟩
    · intro q hq
      obtain ⟨q', hq', rfl⟩ := Option.map_eq_some_iff.1 hq
      exact h.polling q' hq'
    · simpa [Passage.endRace, Passage.withGrant, Passage.closeCall, Passage.withStream] using
        h.polled hne
  obtain ⟨p', hslow', hcur', hnext⟩ := hslow.offer frames rfl hcalm hmore
  refine ⟨p', hslow', hcur', ?_⟩
  have hdirection : g'.direction = g.direction := by
    have hbefore := (g.before_hear reply).direction
    rwa [hh] at hbefore
  rw [hdirection] at hnext
  have hanswered := Machine.spends_step (d := g.direction) hs hmarks (by simp [Mark.Ends])
  have hspends := hanswered.trans hnext
  rw [hi] at hspends
  simpa [callsOf, waitsOf, Mark.calls, Mark.waits] using hspends

/-- A task that is polled goes on with the turns that its stream has left. -/
theorem Task.slow_polled (task : Task) (hg : task.transfer.grant = some g)
    (id name polls : Nat) (todo : List Command) (done : List Answer) :
    (task.polled id false (List.replicate polls (.on name (.poll id)) ++ todo) done).Slow id
      task.token name task.transfer.ring g task.transfer.stream polls todo := by
  refine ⟨rfl, hg, rfl, ?_, fun _ => rfl, rfl⟩
  rintro q ⟨⟩
  exact ⟨rfl, rfl, rfl⟩

/-- A call makes its caller wait, and with the next poll another one begins. -/
theorem Passage.Slow.wait
    (h : p.Slow id token name place g (.suspend false :: turns) (polls + 1) todo)
    (hcur : p.current.isSome) (hfree : s.task? id = none) (hcalm : s.Unheard token)
    (hmore : g.remaining ≠ 0) :
    ∃ p' : Passage, p'.Slow id token name place g turns polls todo ∧ p'.current.isSome ∧
      (⟨s, .transfer p, frames⟩ : Machine).Spends place g.direction 1 0 1
        ⟨s, .transfer p', frames⟩ := by
  obtain rfl := h.ring
  obtain ⟨q, hq⟩ := Option.isSome_iff_exists.1 (h.polled (Nat.succ_ne_zero _))
  obtain ⟨rfl, rfl, hagain⟩ := h.polling q hq
  have hr : p.respond g.direction ((s.ring p.transfer.ring).room g) = (.wait q, turns) := by
    simp [Passage.respond, h.stream, hq]
  have hmarks : (⟨s, .transfer p, frames⟩ : Machine).marks p.transfer.ring
      = [.waited g.direction] := by
    simp only [Machine.marks, Passage.marks, Passage.parks?, h.grant, hcur, hr, marksAt, hagain,
      Bool.false_and, Session.dropped, hfree, Bool.false_eq_true, if_false, if_true,
      List.append_nil]
  have hs := Machine.step_iff.2 (.turn (m := ⟨s, .transfer p, frames⟩) rfl h.grant hcur)
  rw [Machine.turn_eq, hr] at hs
  dsimp only at hs
  rw [Machine.wait_once _ _ (by simp [hagain]) hfree] at hs
  have htodo : (p.withStream turns).todo
      = .on name (.poll q.task) :: (List.replicate polls (.on name (.poll q.task)) ++ todo) :=
    h.todo
  simp only [htodo] at hs
  generalize (p.withStream turns).done ++ _ = done at hs
  -- the task is in the table until the next poll
  have hwaits := Machine.spends_step (d := g.direction) hs hmarks (by simp [Mark.Ends])
  have hslow := Task.slow_polled ⟨(p.withStream turns).transfer, q.token, q.woken, q.awaits⟩ h.grant
    q.task name polls todo done
  obtain ⟨p', hslow', hcur', hnext⟩ := hslow.offer frames rfl hcalm hmore
  refine ⟨p', hslow', hcur', ?_⟩
  have hspends := (hwaits.trans (Machine.spends_poll hfree)).trans hnext
  simpa [callsOf, interruptionsOf, waitsOf, Mark.calls, Mark.interrupts, Mark.waits] using hspends

/-- A byte in each call, until the last one is being moved. -/
theorem Passage.Slow.moves {left : Nat}
    (h : p.Slow id token name place g (slowStream 0 0 (left + 1)) 0 todo) (hcur : p.current.isSome)
    (hcalm : s.Unheard token) (hleft : g.remaining = left + 1) :
    ∃ m', (⟨s, .transfer p, frames⟩ : Machine).Spends place g.direction left 0 0 m' := by
  induction left generalizing p g with
  | zero => exact ⟨_, .refl⟩
  | succ left ih =>
    have hle : 1 ≤ g.remaining := by omega
    have hh : g.hear (.moved 1) = ({ g with moved := g.moved + 1 }, none) := by
      simp only [Grant.hear, g.advance_of_le hle]
    have hfewer : Grant.remaining { g with moved := g.moved + 1 } = left + 1 := by
      simp only [Grant.remaining] at hleft ⊢
      omega
    have hslow : p.Slow id token name place g (.claim 1 :: slowStream 0 0 (left + 1)) 0 todo := h
    have hr : p.respond g.direction ((s.ring place).room g)
        = (.answer [] (.moved 1), slowStream 0 0 (left + 1)) := by
      simp only [Passage.respond, hslow.stream]
    obtain ⟨p', hslow', hcur', hnext⟩ := hslow.answer hcur hcalm hr hh (by omega) fun _ => rfl
    obtain ⟨m', hspends⟩ := ih hslow' hcur' hfewer
    exact ⟨m', by simpa [Nat.add_comm] using hnext.trans hspends⟩

/-- As many waits, and then a byte in each call. -/
theorem Passage.Slow.waits {waits left : Nat}
    (h : p.Slow id token name place g (slowStream 0 waits (left + 1)) waits todo)
    (hcur : p.current.isSome) (hfree : s.task? id = none) (hcalm : s.Unheard token)
    (hleft : g.remaining = left + 1) :
    ∃ m', (⟨s, .transfer p, frames⟩ : Machine).Spends place g.direction (waits + left) 0 waits
      m' := by
  induction waits generalizing p with
  | zero =>
    obtain ⟨m', hspends⟩ := h.moves hcur hcalm hleft
    exact ⟨m', by rwa [Nat.zero_add]⟩
  | succ waits ih =>
    have hslow : p.Slow id token name place g (.suspend false :: slowStream 0 waits (left + 1))
        (waits + 1) todo := h
    obtain ⟨p', hslow', hcur', hnext⟩ := hslow.wait hcur hfree hcalm (by omega)
    obtain ⟨m', hspends⟩ := ih hslow' hcur'
    refine ⟨m', ?_⟩
    have hall := hnext.trans hspends
    rwa [← Nat.add_assoc, Nat.add_comm 1 waits, Nat.zero_add] at hall

/-- As many interruptions, as many waits, and then a byte in each call. -/
theorem Passage.Slow.interruptions {interruptions waits left : Nat}
    (h : p.Slow id token name place g (slowStream interruptions waits (left + 1)) waits todo)
    (hcur : p.current.isSome) (hfree : s.task? id = none) (hcalm : s.Unheard token)
    (hleft : g.remaining = left + 1) :
    ∃ m', (⟨s, .transfer p, frames⟩ : Machine).Spends place g.direction
      (interruptions + (waits + left)) interruptions waits m' := by
  induction interruptions generalizing p with
  | zero =>
    obtain ⟨m', hspends⟩ := h.waits hcur hfree hcalm hleft
    exact ⟨m', by rwa [Nat.zero_add]⟩
  | succ interruptions ih =>
    have hslow : p.Slow id token name place g
        (.fail (.bare .interrupted) :: slowStream interruptions waits (left + 1)) waits todo := h
    have hr : p.respond g.direction ((s.ring place).room g)
        = (.answer [] (.failed (.bare .interrupted)),
          slowStream interruptions waits (left + 1)) := by
      simp only [Passage.respond, hslow.stream]
    have hone (offer : Offer) : interruptionsOf g.direction
        [.replied g.direction offer [] (.failed (.bare .interrupted))] = 1 := by
      simp [interruptionsOf, Mark.interrupts, StreamError.cause]
    obtain ⟨p', hslow', hcur', hnext⟩ := hslow.answer hcur hcalm hr rfl (by omega) hone
    obtain ⟨m', hspends⟩ := ih hslow' hcur'
    refine ⟨m', ?_⟩
    have hall := hnext.trans hspends
    rwa [← Nat.add_assoc, Nat.add_comm 1 interruptions, Nat.zero_add] at hall

/-- A call for each byte, for each interruption and for each wait. -/
theorem Passage.Slow.spends {interruptions waits count : Nat}
    (h : p.Slow id token name place g (slowStream interruptions waits count) waits todo)
    (s : Session) (frames : List Passage) (hidle : p.current = none)
    (hfree : s.task? id = none) (hcalm : s.Unheard token)
    (hremaining : g.remaining = count) (hcount : count ≠ 0) :
    ∃ m', (⟨s, .transfer p, frames⟩ : Machine).Spends place g.direction
      (count + interruptions + waits) interruptions waits m' := by
  obtain ⟨left, rfl⟩ := Nat.exists_eq_succ_of_ne_zero hcount
  obtain ⟨p', hslow, hcur, hfirst⟩ := h.offer frames hidle hcalm (hremaining ▸ hcount)
  obtain ⟨m', hspends⟩ := hslow.interruptions hcur hfree hcalm hremaining
  have hcalls : 1 + (interruptions + (waits + left)) = left.succ + interruptions + waits := by
    omega
  have hall := hfirst.trans hspends
  rw [hcalls, Nat.zero_add, Nat.zero_add] at hall
  exact ⟨m', hall⟩

end Slow

namespace Machine

/-- With such a stream a transfer begins as many calls as can be. -/
theorem spends_slowed {id token name interruptions waits : Nat} {ring : Ring} {events : List Event}
    (hm : (m.session.ring p.transfer.ring).Sound) (hnew : p.transfer.grant = none)
    (hr : (m.session.ring p.transfer.ring).reserve p.transfer.request.purpose.direction
      p.transfer.request.count = .ok (g, ring, events))
    (hcount : p.transfer.request.count ≠ 0) (hfree : m.session.task? id = none)
    (hcalm : m.session.Unheard token)
    (hpolling : ∀ q ∈ p.polling, q.task = id ∧ q.token = token ∧ q.again = false)
    (hpolled : waits ≠ 0 → p.polling.isSome) :
    ∃ m₁ m₂, (m.drive (p.slowed id name interruptions waits)).step = some m₁ ∧
      m₁.Spends p.transfer.ring p.transfer.request.purpose.direction
        (p.transfer.request.count + interruptions + waits) interruptions waits m₂ := by
  obtain ⟨region, o, hro, rfl, -, -⟩ := Ring.reserve_ok hr
  have hs : (m.drive (p.slowed id name interruptions waits)).step
      = some ((m.drive (p.slowed id name interruptions waits)).start
        (p.slowed id name interruptions waits)) :=
    step_iff.2 (.start rfl hnew)
  simp only [start, Passage.slowed, drive, hr] at hs
  have hslow : Passage.Slow id token name p.transfer.ring
      ⟨p.transfer.request.purpose.direction, region, 0⟩
      (slowStream interruptions waits p.transfer.request.count) waits p.todo
      { (p.slowed id name interruptions waits).withGrant
          ⟨p.transfer.request.purpose.direction, region, 0⟩ with events := p.events ++ events } :=
    ⟨rfl, rfl, rfl, hpolling, hpolled, rfl⟩
  obtain ⟨m₂, hspends⟩ := hslow.spends (m.session.update p.transfer.ring ring events) m.suspended
    rfl hfree hcalm (hm.coherent.reserve_held hro).2.2 hcount
  exact ⟨_, m₂, hs, hspends⟩

/-- **A transfer ends after few calls, and none of them is offered nothing.** Whatever its stream
reports, and whatever else it writes or has done while it is called: a transfer of `n` bytes that
gets its reservation begins at most `n` calls, and one more for each that is interrupted and each
that makes the caller wait; it begins none if `n` is zero. A stream that moves a byte in each call
makes it begin as many, however often it is interrupted and has to wait before. Each call is offered
some bytes, no more than are left to move, in cells that do not pass the last one. A transfer that
gets no reservation begins no call. The transfer comes to its answer, a task with as many more polls
as its stream can make it wait. -/
theorem reachable_calls {tokens : Tokens} {commands : List Command} {origin : Nat}
    {before : List Mark} (h : (load tokens commands).Wanders origin before m)
    (hf : m.focus = .transfer p)
    (hnew : p.transfer.grant = none) :
    let place := p.transfer.ring
    let d := p.transfer.request.purpose.direction
    let n := p.transfer.request.count
    ∃ m₁, m.step = some m₁ ∧ callsOf d (m.marks place) = 0 ∧
      (∀ e, (m.session.ring place).reserve d n = .error e →
        ∃ answer calls polls, m₁.focus = .commands p.todo (p.done ++ [answer]) ∧
          answer.reaction = .settled (.error (.error e)) calls polls) ∧
      (∀ g ring events, (m.session.ring place).reserve d n = .ok (g, ring, events) →
        (∀ marks m₂ m₃, m₁.Wanders place marks m₂ → (∀ mark ∈ marks, ¬ mark.Ends d) →
          m₂.step = some m₃ →
          (∀ offer, .offered d offer ∈ m₂.marks place → ∃ g₂, m₂.grants place d = [g₂] ∧
            g₂.remaining = n - reportedOf d marks ∧ (m₂.session.ring place).Offers g₂ offer) ∧
          let all := marks ++ m₂.marks place
          callsOf d all ≤ n + interruptionsOf d all + waitsOf d all ∧
            (n = 0 → callsOf d all = 0)) ∧
        ∀ id token name interruptions waits, n ≠ 0 →
          m.session.task? id = none → m.session.Unheard token →
          (∀ q ∈ p.polling, q.task = id ∧ q.token = token ∧ q.again = false) →
          (waits ≠ 0 → p.polling.isSome) →
          ∃ m₁ m₂, (m.drive (p.slowed id name interruptions waits)).step = some m₁ ∧
            m₁.Spends place d (n + interruptions + waits) interruptions waits m₂) ∧
      (p.polling = none → ∃ m' answer, m.Reaches m' ∧
        m'.focus = .commands p.todo (p.done ++ [answer]) ∧
        ∃ result calls polls, answer.reaction = .settled result calls polls) ∧
      ∀ id name k todo, p.polling.map (·.task) = some id →
        p.todo = List.replicate k (.on name (.poll id)) ++ todo →
        suspensions p.transfer.stream ≤ k →
        ∃ m' left past answer, m.Reaches m' ∧
          m'.focus = .commands (List.replicate left (.on name (.poll id)) ++ todo)
            (p.done ++ past ++ [answer]) ∧
          (∀ a ∈ past, ∃ woken calls polls, a.reaction = .pending woken calls polls) ∧
          ∃ result calls polls, answer.reaction = .settled result calls polls := by
  have hm := h.sound (sound_load tokens commands)
  have hs : m.step = some (m.start p) := step_iff.2 (.start hf hnew)
  dsimp only
  refine ⟨m.start p, hs, ?_, ?_, ?_, ?_, ?_⟩
  · exact callsOf_eq_zero.2 (not_offered_of_new hf hnew)
  · intro e hr
    simp only [start, hr]
    exact ⟨_, _, _, rfl, rfl⟩
  · intro g ring events hr
    obtain ⟨hp₀, hp, -, hg, -⟩ := hm.starts hf hnew rfl rfl hr hs
    have hsound := hm.orderly.custody.sound hp₀
    refine ⟨?_, fun id token name interruptions waits hcount hfree hcalm hpolling hpolled =>
      spends_slowed hsound hnew hr hcount hfree hcalm hpolling hpolled⟩
    intro marks m₂ m₃ hwanders hlive hs₂
    have hremaining := Ring.reserve_remaining hr
    obtain ⟨region, -, -, rfl, -, -⟩ := Ring.reserve_ok hr
    have hm₁ := hm.step hs
    have hm₂ := hwanders.sound hm₁
    have hg₂ := hwanders.counts hm₁ hp hg hlive
    refine ⟨fun offer hmem => ⟨_, hg₂, ?_, hm₂.offers hg₂ hmem⟩, ?_⟩
    · rw [← hremaining]
      simp only [Grant.remaining, Nat.sub_zero, Nat.zero_add]
    · have hafter := hwanders.calls_after hm₁ hp hg hlive hs₂
      rw [hremaining] at hafter
      exact hafter
  · intro hwhole
    obtain ⟨m', answer, hr, hf', -, hstands⟩ := concludes hf
    cases hstands with
    | settled reaction => exact ⟨m', answer, hr, hf', _, _, _, reaction⟩
    | waits polled => simp [hwhole] at polled
  · intro id name k todo hpolled htodo hk
    exact polls_settle hf hpolled htodo hk

/-- A source moves a byte in each of three calls, and between them a call is interrupted and one has
to wait. -/
def haltingFill : List Command :=
  [.on 0 (.errand (.create ⟨4, false, none⟩)),
    .on 0 (.spawn 1 ⟨.fill, 3⟩
      [.claim 1, .fail (.bare .interrupted), .suspend true, .claim 1, .claim 1] 5),
    .on 0 (.poll 1), .on 0 (.poll 1)]

/-- As many calls begin as can be, and with a slower source more. -/
theorem reachable_calls_haltingFill :
    let marks := ((load .plain haltingFill).after 4).chronicle 0 12
    callsOf .put marks = 3 + interruptionsOf .put marks + waitsOf .put marks ∧
      interruptionsOf .put marks = 1 ∧ waitsOf .put marks = 1 ∧
      ∃ m' answer, ((load .plain haltingFill).after 3).Reaches m' ∧ answer ∈ m'.answers ∧
        (∃ result calls polls, answer.reaction = .settled result calls polls) ∧
        ∃ m₁ m₂ : Machine, m₁.Spends 0 .put (3 + 7 + 9) 7 9 m₂ := by
  obtain ⟨m₁, hs, -, -, hgranted, -, hends⟩ :=
    reachable_calls (passes_after (load .plain haltingFill) 0 3).wanders rfl rfl
  obtain rfl : (load .plain haltingFill).after 4 = m₁ := Option.some.inj (Eq.trans rfl hs)
  obtain ⟨hcalls, hslow⟩ := hgranted _ _ _ rfl
  obtain ⟨-, hbound, -⟩ := hcalls _ _ ((load .plain haltingFill).after 16)
    (passes_after ((load .plain haltingFill).after 4) 0 11).wanders (by decide +kernel) rfl
  obtain ⟨m₁, m₂, -, hspends⟩ := hslow 1 5 0 7 9 (by decide) rfl
    (Session.unheard Tokens.silent_plain List.not_mem_nil) (by rintro q ⟨⟩; exact ⟨rfl, rfl, rfl⟩)
    fun _ => rfl
  obtain ⟨m', left, past, answer, hr, hf, -, hanswer⟩ := hends 1 0 1 [] rfl rfl (by decide)
  refine ⟨Nat.le_antisymm hbound (by decide +kernel), by decide +kernel, by decide +kernel, m',
    answer, hr, ?_, hanswer, m₁, m₂, hspends⟩
  simp [answers, hf]

end Machine

end CyclicBuffer
