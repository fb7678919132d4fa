import CyclicBuffer.Proofs.Stake

/-!
# A transfer without those that cross it

A transfer that others cross works on what it holds of its ring. What it is offered, what it writes
and how it ends depends on that hold alone, on its own script, and on its token. So the transfer can
be replayed on another session with a script that performs nothing but what cancels its token: it
answers the same, and has the same stake in the end (`Under.ends`).
-/

namespace CyclicBuffer

/-! ## The transfer on its way -/

/-- The transfer that others cross, once it has started. -/
structure Transfer.Mine (c : Crossing) (k : Stake) (t : Transfer) (g : Grant) : Prop where
  name : t.name = c.name
  ring : t.ring = c.place
  request : t.request = c.request
  stream : ∀ cmd ∈ performed t.stream, c.Crosses cmd ∨ c.Cancels cmd
  grant : t.grant = some g
  direction : g.direction = k.hold.direction
  region : g.region = k.hold.region
  moved_le : g.moved ≤ g.region.count

theorem Transfer.Mine.alone {c : Crossing} {k : Stake} {t : Transfer} {g : Grant}
    (h : t.Mine c k g) : (t.alone c).Mine c (k.alone c) g := by
  refine { h with stream := fun cmd hcmd => ?_ }
  rw [Transfer.alone, Crossing.performed_alone] at hcmd
  exact h.stream cmd (List.mem_filter.1 hcmd).1

structure Passage.Drives (c : Crossing) (k : Stake) (p : Passage) (g : Grant) : Prop where
  transfer : p.transfer.Mine c k g
  polling : (p.polling.map fun q => (q.task, q.token))
    = c.polled.map fun handle => (handle.task, handle.token)
  idle : k.task = none

/-- The answers to the commands performed so far. -/
def Passage.nested (p : Passage) : List Answer :=
  (p.calls ++ p.current.toList).flatMap fun call => call.nested

/-- The passage of the same transfer with a script without commands that cross it. -/
structure Passage.Replays (c : Crossing) (p q : Passage) : Prop where
  transfer : q.transfer = p.transfer.alone c
  polling : q.polling = p.polling
  calls : q.calls.map Call.alone = p.calls.map Call.alone
  current : q.current.map Call.alone = p.current.map Call.alone
  events : q.events = p.events

namespace Passage

variable {c : Crossing} {k k' : Stake} {p q : Passage} {g : Grant}

theorem Replays.drives (h : p.Replays c q) (hp : p.Drives c k g) : q.Drives c (k.alone c) g :=
  ⟨h.transfer ▸ hp.transfer.alone, h.polling ▸ hp.polling, by simp [Stake.alone, hp.idle]⟩

theorem Drives.keeps (h : p.Drives c k g) (hk : k.Keeps k') (hidle : k'.task = none) :
    p.Drives c k' g :=
  ⟨{ h.transfer with
      direction := h.transfer.direction.trans hk.direction.symm
      region := h.transfer.region.trans hk.region.symm }, h.polling, hidle⟩

/-- A poll of the transfer has its token. -/
theorem Drives.token (h : p.Drives c k g) {q : Polling} (hq : p.polling = some q) :
    c.task = some q.task ∧ c.token = some q.token := by
  have hpolling := h.polling
  rw [hq] at hpolling
  obtain ⟨handle, hhandle, heq⟩ := Option.map_eq_some_iff.1 hpolling.symm
  obtain ⟨htask, htoken⟩ := Prod.mk.inj heq
  exact ⟨Option.map_eq_some_iff.2 ⟨handle, hhandle, htask⟩,
    Option.map_eq_some_iff.2 ⟨handle, hhandle, htoken⟩⟩

/-! ## Responses -/

/-- The response of a script without the commands that cross the transfer. -/
def Response.alone (c : Crossing) : Response → Response
  | .perform commands => .perform (commands.filter c.owns)
  | response => response

/-- Both scripts respond alike. -/
theorem Replays.respond (h : p.Replays c q) (d : Direction) (room : Nat) :
    q.respond d room = ((p.respond d room).1.alone c, c.alone (p.respond d room).2) := by
  have hstream : q.transfer.stream = c.alone p.transfer.stream := by rw [h.transfer]; rfl
  have hpolling := h.polling
  unfold Passage.respond
  rw [hstream, hpolling]
  cases p.transfer.stream with
  | nil => cases d <;> rfl
  | cons turn rest =>
    cases turn with
    | deliver data =>
      have hcons : c.alone (.deliver data :: rest) = .deliver data :: c.alone rest := rfl
      rw [hcons]
      by_cases hrest : (data.drop (min data.length room)).isEmpty = true
      all_goals
        simp only [hrest]
        cases d <;> rfl
    | spill data count =>
      have hcons : c.alone (.spill data count :: rest) = .spill data count :: c.alone rest := rfl
      rw [hcons]
      cases d <;> rfl
    | suspend wake =>
      have hcons : c.alone (.suspend wake :: rest) = .suspend wake :: c.alone rest := rfl
      rw [hcons]
      cases p.polling <;> rfl
    | _ => rfl

/-- The commands that a response performs come off the script. -/
theorem performed_respond {d : Direction} {room : Nat} {response : Response} {stream : List Turn}
    (h : p.respond d room = (response, stream)) :
    performed p.transfer.stream
      = (match response with
          | .perform commands => commands
          | _ => []) ++ performed stream := by
  unfold Passage.respond at h
  cases hstream : p.transfer.stream with
  | nil =>
    rw [hstream] at h
    cases d <;> cases h <;> rfl
  | cons turn rest =>
    rw [hstream] at h
    cases turn with
    | deliver data =>
      by_cases hrest : (data.drop (min data.length room)).isEmpty = true
      all_goals
        simp only [hrest] at h
        cases d <;> cases h <;> rfl
    | spill data count => cases d <;> cases h <;> rfl
    | suspend wake =>
      cases hq : p.polling <;> simp only [hq] at h <;> cases h <;> rfl
    | _ =>
      cases h
      rfl

theorem Drives.withStream (h : p.Drives c k g) {stream : List Turn}
    (hs : ∀ cmd ∈ performed stream, cmd ∈ performed p.transfer.stream) :
    (p.withStream stream).Drives c k g :=
  ⟨{ h.transfer with stream := fun cmd hcmd => h.transfer.stream cmd (hs cmd hcmd) }, h.polling,
    h.idle⟩

theorem Replays.withStream (h : p.Replays c q) (stream : List Turn) :
    (p.withStream stream).Replays c (q.withStream (c.alone stream)) :=
  { h with transfer := by simp only [Passage.withStream, h.transfer]; rfl }

theorem Replays.closeCall (h : p.Replays c q) : p.closeCall.Replays c q.closeCall := by
  refine { h with calls := ?_, current := rfl }
  have hcurrent : q.current.toList.map Call.alone = p.current.toList.map Call.alone := by
    simpa only [Option.toList_map] using congrArg Option.toList h.current
  simp only [Passage.closeCall, List.map_append, h.calls, hcurrent]

theorem Replays.withGrant (h : p.Replays c q) (g : Grant) :
    (p.withGrant g).Replays c (q.withGrant g) :=
  { h with transfer := by simp only [Passage.withGrant, h.transfer]; rfl }

theorem Replays.endRace (h : p.Replays c q) : p.endRace.Replays c q.endRace :=
  { h with polling := by simp only [Passage.endRace, h.polling] }

theorem Replays.verdict_eq (h : p.Replays c q) (g : Grant) (ending : Ending) :
    q.verdict g ending = p.verdict g ending := by
  unfold verdict
  rw [h.polling, h.transfer]
  rfl

theorem Drives.endRace (h : p.Drives c k g) : p.endRace.Drives c k g := by
  refine ⟨h.transfer, ?_, h.idle⟩
  rw [← h.polling]
  simp only [Passage.endRace, Option.map_map]
  rfl

/-- A call of the transfer begins under its own poll. -/
theorem Drives.next (h : p.Drives c k g) {s : Session} {polling : Option Polling}
    (hn : p.next s g = .call polling) {current : Option (Call Answer)} :
    ({ p with polling, current } : Passage).Drives c k g := by
  refine ⟨h.transfer, ?_, h.idle⟩
  rw [← h.polling]
  rcases next_call hn with ⟨hp, rfl, -⟩ | ⟨q, hp, rfl, -⟩ <;> rw [hp] <;> rfl

theorem nested_closeCall (p : Passage) : p.closeCall.nested = p.nested := by
  simp [Passage.nested, Passage.closeCall]

end Passage

/-! ## Own steps -/

namespace Crossing

/-- What the transfer answers when it is over. -/
def closing (p : Passage) (g : Grant) (ending : Ending) (standing : Option Occupancy) : Answer :=
  let verdict := p.verdict g ending
  ⟨.settled
      (verdict.result.map fun
        | none => .unit
        | some n => .number n)
      p.calls p.shownPolls,
    standing,
    p.events ++ (verdict.before ++ [.committed g.direction g.region.count g.moved]
      ++ verdict.after)⟩

/-- What the transfer answers when it has to wait. -/
def waiting (p : Passage) (q : Polling) (standing : Option Occupancy) : Answer :=
  ⟨.pending q.woken (p.calls ++ p.current.toList) p.shownPolls, standing, p.events⟩

variable {c : Crossing} {k : Stake} {m : Machine} {s' : Session} {p q : Passage} {g : Grant}

theorem shownPolls_replays (h : p.Replays c q) : q.shownPolls = p.shownPolls := by
  unfold Passage.shownPolls
  rw [h.polling]

theorem closing_replays (h : p.Replays c q) (g : Grant) (ending : Ending)
    (standing standing' : Option Occupancy) :
    (closing q g ending standing').alone = (closing p g ending standing).alone := by
  simp only [closing, Answer.alone, h.calls, shownPolls_replays h, h.events, h.verdict_eq]

theorem waiting_replays (h : p.Replays c q) (polling : Polling)
    (standing standing' : Option Occupancy) :
    (waiting q polling standing').alone = (waiting p polling standing).alone := by
  have hcalls := h.closeCall.calls
  simp only [Passage.closeCall] at hcalls
  simp only [waiting, Answer.alone, hcalls, shownPolls_replays h, h.events]

/-- Of its token the transfer is told the same wherever its stake is the same. -/
theorem next_replays (hs : m.session.Apart c k s') (hp : p.Drives c k g) (hq : p.Replays c q)
    {b b' : Session} (hb : b.Apart c (k.alone c) b') : q.next b g = p.next m.session g := by
  have hlibrary : b.tokens = m.session.tokens := hb.near.library.trans hs.near.library.symm
  unfold Passage.next
  rw [hq.polling]
  cases hpolling : p.polling with
  | none => rfl
  | some polling =>
    have htoken := (hp.token hpolling).2
    have hcancels : b.cancels polling.token = m.session.cancels polling.token :=
      (hb.near.cancels _ htoken).trans (hs.near.cancels _ htoken).symm
    have hcancelled : b.isCancelled polling.token = m.session.isCancelled polling.token := by
      simp only [Session.isCancelled, hlibrary, hcancels]
    have hready : b.isReady polling.token = m.session.isReady polling.token := by
      funext polls
      simp only [Session.isReady, hlibrary, hcancels]
    have hrace : polling.race b = polling.race m.session := by
      funext polls
      rw [Polling.race, Polling.race, hready]
    change polling.next b g = polling.next m.session g
    simp only [Polling.next, hrace, hcancelled]

theorem room_own (hs : m.session.Apart c k s') (hp : p.Drives c k g) :
    (m.session.ring p.transfer.ring).room g = (g.chunk k.hold.capacity).length := by
  rw [hp.transfer.ring]
  exact hs.ring.room_own g

theorem offer_own (hs : m.session.Apart c k s') (hp : p.Drives c k g) :
    (m.session.ring p.transfer.ring).offer g = k.hold.offer g := by
  rw [hp.transfer.ring]
  exact hs.ring.offer_own hp.transfer.direction hp.transfer.region hp.transfer.moved_le

/-- The transfer settles by its own grant. -/
theorem settle_own (hs : m.session.Apart c k s') (hp : p.Drives c k g) (ending : Ending) :
    ∃ s₁ standing, m.settle p g ending
        = ⟨s₁, .commands p.todo (p.done ++ [closing p g ending standing]), m.suspended⟩ ∧
      s₁.Stands c k (some g) s' := by
  have hheld : (m.session.ring c.place).occupancy.held g.direction = some g.region := by
    rw [hp.transfer.direction, hp.transfer.region]
    exact hs.ring.held
  obtain ⟨r₁, events, hc⟩ := Ring.commit_of_held hheld
  obtain ⟨o, -, -, rfl⟩ := Ring.commit_ok hc
  let verdict := p.verdict g ending
  let reported := verdict.before ++ [.committed g.direction g.region.count g.moved] ++ verdict.after
  let s₁ := m.session.update c.place r₁ reported
  have hring : s₁.ring c.place = r₁ := Session.ring_update_self _ hs.near.known ..
  refine ⟨s₁, s₁.standing? c.name, ?_,
    .ended (hs.near.change ..) hs.ring (hp.transfer.direction.trans hs.direction) (hring ▸ hc)⟩
  simp only [Machine.settle, hp.transfer.ring, Ring.settle, hc, Machine.close, Machine.answer,
    hp.transfer.name]
  rfl

/-- A transfer that is not polled again goes into the table. -/
theorem wait_own (hs : m.session.Apart c k s') (hp : p.Drives c k g) {polling : Polling}
    (htask : c.task = some polling.task) (htoken : c.token = some polling.token)
    (honce : (polling.again && polling.woken && polling.polls < maxPolls) = false) :
    ∃ s₁ standing, m.wait p polling
        = ⟨s₁, .commands p.todo (p.done ++ [waiting p polling standing]), m.suspended⟩ ∧
      s₁.Apart c { k with task := some ⟨p.transfer, polling.token, polling.woken, polling.awaits⟩ }
        s' := by
  have hfree : m.session.task? polling.task = none := (hs.near.own _ htask).trans hp.idle
  exact ⟨_, _, m.wait_once p honce hfree, hs.near.enter htask htoken, hs.direction, hs.ring⟩

/-! ## Own moves -/

/-- The transfer is in focus and on its way, on a session that is known without it as well. -/
structure Under (c : Crossing) (k : Stake) (s' : Session) (m : Machine) (p : Passage) (g : Grant) :
    Prop where
  sound : m.Sound
  focus : m.focus = .transfer p
  session : m.session.Apart c k s'
  drives : p.Drives c k g

/-- The transfer makes a move in which these commands are performed; on any session on which it is
replayed it moves alike. -/
structure Moves (c : Crossing) (k : Stake) (s' : Session) (m : Machine) (p : Passage) (k₁ : Stake)
    (s₁' : Session) (m₁ : Machine) (p₁ : Passage) (g₁ : Grant)
    (exchanges : List (Command × Answer)) : Prop where
  steps : ∃ m₀, m.step = some m₀ ∧ m₀.Reaches m₁
  under : c.Under k₁ s₁' m₁ p₁ g₁
  todo : p₁.todo = p.todo
  done : p₁.done = p.done
  nested : p₁.nested = p.nested ++ exchanges.map Prod.snd
  spent : performed p.transfer.stream = exchanges.map Prod.fst ++ performed p₁.transfer.stream
  does : s'.Does (c.crossed exchanges) s₁'
  keeps : k.Keeps k₁
  replays : ∀ b b' q frames, p.Replays c q → b.Apart c (k.alone c) b' → ∃ b₁ q₁ frames₁,
    (⟨b, .transfer q, frames⟩ : Machine).Reaches ⟨b₁, .transfer q₁, frames₁⟩ ∧
    q₁.todo = q.todo ∧ q₁.done = q.done ∧ p₁.Replays c q₁ ∧ b₁.Apart c (k₁.alone c) b'

/-- The transfer waits as a task, with these commands left in its script. -/
def Waits (c : Crossing) (k : Stake) (script : List Command) : Prop :=
  ∃ task g, k.task = some task ∧ task.transfer.Mine c k g ∧ performed task.transfer.stream = script

/-- The transfer has answered after these commands were performed in its calls; on any session on
which it is replayed it answers alike. -/
structure Ends (c : Crossing) (k : Stake) (s' : Session) (m : Machine) (p : Passage) (k₁ : Stake)
    (s₁' : Session) (m₁ : Machine) (e : Option Grant) (a : Answer)
    (exchanges : List (Command × Answer)) (script : List Command) : Prop where
  reaches : m.Reaches m₁
  focus : m₁.focus = .commands p.todo (p.done ++ [a])
  nested : a.nested = p.nested ++ exchanges.map Prod.snd
  spent : performed p.transfer.stream = exchanges.map Prod.fst ++ script
  waits : e = none → c.Waits k₁ script
  does : s'.Does (c.crossed exchanges) s₁'
  stands : m₁.session.Stands c k₁ e s₁'
  keeps : k.Keeps k₁
  replays : ∀ b b' q frames, p.Replays c q → b.Apart c (k.alone c) b' → ∃ b₁ a' frames₁,
    (⟨b, .transfer q, frames⟩ : Machine).Reaches
      ⟨b₁, .commands q.todo (q.done ++ [a']), frames₁⟩ ∧
    a'.alone = a.alone ∧ b₁.Stands c (k₁.alone c) e b'

variable {k₁ k₂ : Stake} {s₁' s₂' : Session} {m₁ m₂ : Machine} {p₁ : Passage} {g₁ : Grant}
  {e : Option Grant} {a : Answer} {exchanges exchanges' : List (Command × Answer)}
  {script : List Command}

theorem Moves.reaches (h : c.Moves k s' m p k₁ s₁' m₁ p₁ g₁ exchanges) : m.Reaches m₁ := by
  obtain ⟨m₀, hs, hr⟩ := h.steps
  exact hr.head hs

theorem Moves.ends (h : c.Moves k s' m p k₁ s₁' m₁ p₁ g₁ exchanges)
    (h' : c.Ends k₁ s₁' m₁ p₁ k₂ s₂' m₂ e a exchanges' script) :
    c.Ends k s' m p k₂ s₂' m₂ e a (exchanges ++ exchanges') script := by
  refine ⟨h.reaches.trans h'.reaches, ?_, ?_, ?_, h'.waits, ?_, h'.stands, h.keeps.trans h'.keeps,
    ?_⟩
  · rw [h'.focus, h.todo, h.done]
  · rw [h'.nested, h.nested, List.append_assoc, List.map_append]
  · rw [h.spent, h'.spent, List.map_append, List.append_assoc]
  · rw [crossed_append]
    exact h.does.append h'.does
  · intro b b' q frames hq hb
    obtain ⟨b₁, q₁, frames₁, hr₁, htodo, hdone, hq₁, hb₁⟩ := h.replays b b' q frames hq hb
    obtain ⟨b₂, a', frames₂, hr₂, ha, hb₂⟩ := h'.replays b₁ b' q₁ frames₁ hq₁ hb₁
    rw [htodo, hdone] at hr₂
    exact ⟨b₂, a', frames₂, hr₁.trans hr₂, ha, hb₂⟩

/-- A step in which nothing is performed. -/
theorem Under.moves (h : c.Under k s' m p g) {s₁ : Session}
    (hs : m.step = some ⟨s₁, .transfer p₁, m.suspended⟩) (hs₁ : s₁.Apart c k₁ s')
    (hp₁ : p₁.Drives c k₁ g₁) (htodo : p₁.todo = p.todo) (hdone : p₁.done = p.done)
    (hnested : p₁.nested = p.nested)
    (hspent : performed p.transfer.stream = performed p₁.transfer.stream) (hkeeps : k.Keeps k₁)
    (hreplays : ∀ b b' q frames, p.Replays c q → b.Apart c (k.alone c) b' → ∃ b₁ q₁,
      (⟨b, .transfer q, frames⟩ : Machine).step = some ⟨b₁, .transfer q₁, frames⟩ ∧
      q₁.todo = q.todo ∧ q₁.done = q.done ∧ p₁.Replays c q₁ ∧ b₁.Apart c (k₁.alone c) b') :
    c.Moves k s' m p k₁ s' ⟨s₁, .transfer p₁, m.suspended⟩ p₁ g₁ [] := by
  refine ⟨⟨_, hs, .refl⟩, ⟨h.sound.step hs, rfl, hs₁, hp₁⟩, htodo, hdone, ?_, hspent, .refl s',
    hkeeps, ?_⟩
  · rw [hnested, List.map_nil, List.append_nil]
  · intro b b' q frames hq hb
    obtain ⟨b₁, q₁, hstep, hq₁⟩ := hreplays b b' q frames hq hb
    exact ⟨b₁, q₁, frames, Machine.Reaches.refl.step hstep, hq₁⟩

/-- The transfer makes a move, or it has answered. -/
def Next (c : Crossing) (k : Stake) (s' : Session) (m : Machine) (p : Passage) : Prop :=
  (∃ k₁ s₁' m₁ p₁ g₁ exchanges, c.Moves k s' m p k₁ s₁' m₁ p₁ g₁ exchanges) ∨
    ∃ k₁ s₁' m₁ e a exchanges script, c.Ends k s' m p k₁ s₁' m₁ e a exchanges script

/-- A step that settles the transfer. -/
theorem next_of_settle {n : Machine} {ending : Ending}
    (hs : m.step = some (n.settle p₁ g₁ ending)) (hs₁ : n.session.Apart c k₁ s')
    (hp₁ : p₁.Drives c k₁ g₁) (hcur : p₁.current = none) (htodo : p₁.todo = p.todo)
    (hdone : p₁.done = p.done) (hnested : p₁.nested = p.nested) (hkeeps : k.Keeps k₁)
    (hreplays : ∀ b b' q frames, p.Replays c q → b.Apart c (k.alone c) b' →
      ∃ (n' : Machine) (q₁ : Passage),
      (⟨b, .transfer q, frames⟩ : Machine).step = some (n'.settle q₁ g₁ ending) ∧
      q₁.todo = q.todo ∧ q₁.done = q.done ∧ p₁.Replays c q₁ ∧
      n'.session.Apart c (k₁.alone c) b') :
    c.Next k s' m p := by
  obtain ⟨s₁, standing, hsettle, hstands⟩ := settle_own hs₁ hp₁ ending
  rw [hsettle] at hs
  refine .inr ⟨k₁, s', _, some g₁, closing p₁ g₁ ending standing, [], performed p.transfer.stream,
    .step .refl hs, ?_, ?_, rfl, by simp, .refl s', hstands, hkeeps, ?_⟩
  · rw [htodo, hdone]
  · rw [← hnested, List.map_nil, List.append_nil]
    simp [closing, Answer.nested, Reaction.calls, Passage.nested, hcur]
  · intro b b' q frames hq hb
    obtain ⟨n', q₁, hstep, htodo', hdone', hq₁, hb₁⟩ := hreplays b b' q frames hq hb
    obtain ⟨b₁, standing', hsettle', hstands'⟩ := settle_own hb₁ (hq₁.drives hp₁) ending
    rw [hsettle', htodo', hdone'] at hstep
    exact ⟨b₁, _, _, Machine.Reaches.refl.step hstep, closing_replays hq₁ .., hstands'⟩

theorem Under.offer (h : c.Under k s' m p g) (hcur : p.current = none) : c.Next k s' m p := by
  have hs := Machine.step_iff.2 (.offer h.focus h.drives.transfer.grant hcur)
  have hreplay b b' q frames (hq : p.Replays c q) (hb : b.Apart c (k.alone c) b') :
      (⟨b, .transfer q, frames⟩ : Machine).step
        = some ((⟨b, .transfer q, frames⟩ : Machine).offer q g) := by
    refine Machine.step_iff.2 (.offer rfl (hq.drives h.drives).transfer.grant ?_)
    simpa [hcur] using hq.current
  cases hn : p.next m.session g with
  | call polling =>
    rw [Machine.offer_begins hn, offer_own h.session h.drives] at hs
    refine .inl ⟨k, s', _, _, g, [], h.moves hs h.session (h.drives.next hn) rfl rfl ?_ rfl
      (.refl k) ?_⟩
    · simp [Passage.nested, hcur]
    · intro b b' q frames hq hb
      have hstep := hreplay b b' q frames hq hb
      have hn' := (next_replays h.session h.drives hq hb).trans hn
      rw [Machine.offer_begins hn', offer_own hb (hq.drives h.drives)] at hstep
      exact ⟨b, _, hstep, rfl, rfl, { hq with polling := rfl, current := rfl }, hb⟩
  | leave ending =>
    simp only [Machine.offer, hn] at hs
    refine next_of_settle hs h.session h.drives hcur rfl rfl rfl (.refl k) ?_
    intro b b' q frames hq hb
    have hstep := hreplay b b' q frames hq hb
    have hn' := (next_replays h.session h.drives hq hb).trans hn
    simp only [Machine.offer, hn'] at hstep
    exact ⟨_, q, hstep, rfl, rfl, hq, hb⟩

/-! ### Turns -/

theorem Under.respond (h : c.Under k s' m p g) (hcur : p.current.isSome) :
    m.step = some (m.turn p g) ∧ ∀ b b' q frames, p.Replays c q → b.Apart c (k.alone c) b' →
      (⟨b, .transfer q, frames⟩ : Machine).step
          = some ((⟨b, .transfer q, frames⟩ : Machine).turn q g) ∧
        (b.ring q.transfer.ring).room g = (m.session.ring p.transfer.ring).room g := by
  refine ⟨Machine.step_iff.2 (.turn h.focus h.drives.transfer.grant hcur),
    fun b b' q frames hq hb =>
      ⟨Machine.step_iff.2 (.turn rfl (hq.drives h.drives).transfer.grant ?_), ?_⟩⟩
  · have hsome := congrArg Option.isSome hq.current
    simpa only [Option.isSome_map, hcur] using hsome
  · rw [room_own h.session h.drives,
      room_own (m := ⟨b, .transfer q, frames⟩) hb (hq.drives h.drives)]
    rfl

/-- The stream writes to what the transfer holds, and its call is answered. -/
theorem turn_own (hs : m.session.Apart c k s') (hp : p.Drives c k g) {written : Bytes}
    {reply : Reply} {stream : List Turn}
    (hr : p.respond g.direction ((m.session.ring p.transfer.ring).room g)
      = (.answer written reply, stream)) :
    ∃ s₁, m.turn p g = (⟨s₁, m.focus, m.suspended⟩ : Machine).hear (p.withStream stream) g reply ∧
      s₁.Apart c { k with hold := k.hold.receive g written } s' := by
  have haccepts := Passage.respond_accepts hr
  rw [Machine.turn_eq, hr]
  rw [hp.transfer.ring] at haccepts ⊢
  exact ⟨_, rfl,
    hs.receive hp.transfer.direction hp.transfer.region hp.transfer.moved_le haccepts⟩

/-- The stream answers its call. -/
theorem Under.answer (h : c.Under k s' m p g) (hcur : p.current.isSome) {written : Bytes}
    {reply : Reply} {stream : List Turn}
    (hr : p.respond g.direction ((m.session.ring p.transfer.ring).room g)
      = (.answer written reply, stream)) : c.Next k s' m p := by
  obtain ⟨hs, hreplay⟩ := h.respond hcur
  have hspent : performed p.transfer.stream = performed stream := Passage.performed_respond hr
  have hkeeps : k.Keeps { k with hold := k.hold.receive g written } :=
    ⟨rfl, Hold.fresh_receive .., rfl⟩
  have hdrives : (p.withStream stream).Drives c { k with hold := k.hold.receive g written } g :=
    (h.drives.withStream fun cmd hcmd => hspent ▸ hcmd).keeps hkeeps h.drives.idle
  obtain ⟨s₁, hturn, hs₁⟩ := turn_own h.session h.drives hr
  have hreplay₁ b b' q frames (hq : p.Replays c q) (hb : b.Apart c (k.alone c) b') :
      ∃ b₁, (⟨b, .transfer q, frames⟩ : Machine).step
          = some ((⟨b₁, .transfer q, frames⟩ : Machine).hear (q.withStream (c.alone stream)) g
              reply) ∧
        b₁.Apart c (({ k with hold := k.hold.receive g written } : Stake).alone c) b' := by
    obtain ⟨hstep, hroom⟩ := hreplay b b' q frames hq hb
    have hr' : q.respond g.direction ((b.ring q.transfer.ring).room g)
        = (.answer written reply, c.alone stream) := by
      rw [hroom, hq.respond, hr]
      rfl
    obtain ⟨b₁, hturn', hb₁⟩ :=
      turn_own (m := ⟨b, .transfer q, frames⟩) hb (hq.drives h.drives) hr'
    exact ⟨b₁, hstep.trans (congrArg some hturn'), hb₁⟩
  rw [hturn] at hs
  simp only [Machine.hear_eq] at hs hreplay₁
  rcases Machine.hear_cases h.drives.transfer.moved_le reply with
    ⟨ending, heq, -⟩ | ⟨count, hle, heq⟩
  · simp only [heq] at hs hreplay₁
    refine next_of_settle hs hs₁ ?_ rfl rfl rfl ?_ hkeeps ?_
    · exact ⟨hdrives.transfer, hdrives.polling, hdrives.idle⟩
    · exact Passage.nested_closeCall (p.withStream stream)
    · intro b b' q frames hq hb
      obtain ⟨b₁, hstep, hb₁⟩ := hreplay₁ b b' q frames hq hb
      exact ⟨_, _, hstep, rfl, rfl, (hq.withStream stream).closeCall, hb₁⟩
  · simp only [heq] at hs hreplay₁
    refine .inl ⟨_, s', _, _, { g with moved := g.moved + count }, [],
      h.moves hs hs₁ ?_ rfl rfl ?_ hspent hkeeps ?_⟩
    · exact ⟨{ hdrives.transfer with grant := rfl, moved_le := hle }, hdrives.endRace.polling,
        hdrives.idle⟩
    · exact Passage.nested_closeCall (p.withStream stream)
    · intro b b' q frames hq hb
      obtain ⟨b₁, hstep, hb₁⟩ := hreplay₁ b b' q frames hq hb
      exact ⟨b₁, _, hstep, rfl, rfl, (hq.withStream stream).closeCall.endRace.withGrant _, hb₁⟩

/-- The stream makes its caller wait. -/
theorem Under.wait (h : c.Under k s' m p g) (hcur : p.current.isSome) {polling : Polling}
    {stream : List Turn}
    (hr : p.respond g.direction ((m.session.ring p.transfer.ring).room g)
      = (.wait polling, stream)) : c.Next k s' m p := by
  obtain ⟨hs, hreplay⟩ := h.respond hcur
  have hspent : performed p.transfer.stream = performed stream := Passage.performed_respond hr
  have hdrives : (p.withStream stream).Drives c k g :=
    h.drives.withStream fun cmd hcmd => hspent ▸ hcmd
  obtain ⟨wake, q₀, -, hq₀, hpolling⟩ := Passage.respond_suspended hr
  obtain ⟨htask, htoken⟩ := h.drives.token hq₀
  rw [show q₀.task = polling.task by rw [hpolling]] at htask
  rw [show q₀.token = polling.token by rw [hpolling]] at htoken
  have hreplay₁ b b' q frames (hq : p.Replays c q) (hb : b.Apart c (k.alone c) b') :
      (⟨b, .transfer q, frames⟩ : Machine).step
        = some ((⟨b, .transfer q, frames⟩ : Machine).wait (q.withStream (c.alone stream))
            polling) := by
    obtain ⟨hstep, hroom⟩ := hreplay b b' q frames hq hb
    rw [Machine.turn_eq, hroom, hq.respond, hr] at hstep
    exact hstep
  have hs : m.step = some (m.wait (p.withStream stream) polling) := by
    rw [hs, Machine.turn_eq, hr]
  cases honce : polling.again && polling.woken && polling.polls < maxPolls with
  | true =>
    simp only [Machine.wait, honce, if_true] at hs hreplay₁
    refine .inl ⟨k, s', _, _, g, [], h.moves hs h.session ?_ rfl rfl ?_ hspent (.refl k) ?_⟩
    · refine ⟨hdrives.transfer, ?_, hdrives.idle⟩
      rw [← h.drives.polling, hq₀, hpolling]
      rfl
    · exact Passage.nested_closeCall (p.withStream stream)
    · intro b b' q frames hq hb
      exact ⟨b, _, hreplay₁ b b' q frames hq hb, rfl, rfl,
        { (hq.withStream stream).closeCall with polling := rfl }, hb⟩
  | false =>
    obtain ⟨s₁, standing, hwait, hs₁⟩ := wait_own h.session hdrives htask htoken honce
    rw [hwait] at hs
    refine .inr ⟨_, s', _, none, waiting (p.withStream stream) polling standing, [],
      performed stream, .step .refl hs, rfl, ?_, hspent, fun _ => ⟨_, g, rfl, ?_, rfl⟩, .refl s',
      .live hs₁, ⟨rfl, rfl, rfl⟩, ?_⟩
    · rw [List.map_nil, List.append_nil]
      rfl
    · exact { hdrives.transfer with }
    · intro b b' q frames hq hb
      have hq₁ := hq.withStream stream
      obtain ⟨b₁, standing', hwait', hb₁⟩ :=
        wait_own (m := ⟨b, .transfer q, frames⟩) hb (hq₁.drives hdrives) htask htoken honce
      have hstep := hreplay₁ b b' q frames hq hb
      rw [hwait'] at hstep
      refine ⟨b₁, _, frames, .step .refl hstep, waiting_replays hq₁ .., .live ?_⟩
      rw [hq₁.transfer] at hb₁
      exact hb₁

/-! ### Commands in a call -/

theorem wakeAll_other {cancels : List (Nat × (Nat → Bool))}
    (ht : ∀ cancel ∈ cancels, c.token ≠ some cancel.1)
    (hp : ∀ polling, p.polling = some polling → c.token = some polling.token) :
    p.wakeAll cancels = p := by
  rw [Passage.wakeAll_eq]
  cases hq : p.polling with
  | none =>
    rw [Option.map_none, ← hq]
  | some polling =>
    have hnot : (cancels.any fun cancel =>
        polling.token == cancel.1 && polling.awaits.any cancel.2) = false := by
      refine List.any_eq_false.2 fun cancel hcancel => ?_
      have hne : polling.token ≠ cancel.1 := fun he =>
        ht cancel hcancel (he ▸ hp polling hq)
      simp [hne]
    simp only [Option.map_some, hnot, Bool.or_false]
    rw [← hq]

/-- A token is cancelled in one step. -/
theorem step_cancel {name token : Nat} {todo : List Command} {done : List Answer}
    (hf : m.focus = .commands (.on name (.cancel token) :: todo) done) :
    m.step = some ⟨m.session.cancel token, .commands todo
      (done ++ [.acknowledged ((m.session.cancel token).standing? name)]),
      m.suspended.map (Passage.wake token (m.session.wakes token))⟩ :=
  Machine.step_iff.2 (.obey hf)

/-- The commands of a turn are performed one by one. Those that cancel the token of the transfer are
what is left of them where it is replayed, and wake it there as they do here. -/
theorem performs_turn {commands : List Command} {done : List Answer} {frames : List Passage}
    (hm : m.Sound) (hf : m.focus = .commands commands done) (hsus : m.suspended = p :: frames)
    (hp : ∀ polling, p.polling = some polling → c.token = some polling.token)
    (hcommands : ∀ cmd ∈ commands, c.Crosses cmd ∨ c.Cancels cmd)
    (hs : m.session.Apart c k s') (hidle : k.task = none) :
    ∃ k₁ s₁ s₁' answers cancels frames₁, answers.length = commands.length ∧
      m.Reaches ⟨s₁, .commands [] (done ++ answers), p.wakeAll cancels :: frames₁⟩ ∧
      s'.Does (c.crossed (commands.zip answers)) s₁' ∧ s₁.Apart c k₁ s₁' ∧ k.Keeps k₁ ∧
      k₁.task = none ∧
      ∀ b b' done' q frames', b.Apart c (k.alone c) b' → ∃ b₁ answers' frames₁',
        (⟨b, .commands (commands.filter c.owns) done', q :: frames'⟩ : Machine).Reaches
          ⟨b₁, .commands [] (done' ++ answers'), q.wakeAll cancels :: frames₁'⟩ ∧
        b₁.Apart c (k₁.alone c) b' := by
  induction commands generalizing m k s' done p frames with
  | nil =>
    refine ⟨k, m.session, s', [], [], frames, rfl, ?_, .refl s', hs, .refl k, hidle,
      fun b b' done' q frames' hb => ⟨b, [], frames', ?_, hb⟩⟩
    · obtain ⟨session, focus, suspended⟩ := m
      obtain rfl : focus = .commands [] done := hf
      obtain rfl : suspended = p :: frames := hsus
      rw [List.append_nil]
      exact .refl
    · rw [List.append_nil]
      exact .refl
  | cons cmd commands ih =>
    obtain ⟨hcmd, hrest⟩ := List.forall_mem_cons.1 hcommands
    rcases hcmd with hcross | hcancel
    · obtain ⟨s₁, s₁', a, cancels, hcancels, hr, hdoes, hs₁⟩ := performs hm hf hcross hs
      rw [hsus, List.map_cons, wakeAll_other hcancels hp] at hr
      obtain ⟨k₂, s₂, s₂', answers, cancels₂, frames₂, hlength, hr₂, hdoes₂, hs₂, hkeeps, hidle₂,
        hreplays⟩ := ih (hm.reaches hr) rfl rfl hp hrest hs₁ hidle
      refine ⟨k₂, s₂, s₂', a :: answers, cancels₂, frames₂, congrArg (· + 1) hlength, ?_, ?_, hs₂,
        hkeeps, hidle₂, ?_⟩
      · rw [List.append_assoc] at hr₂
        exact hr.trans hr₂
      · rw [List.zip_cons_cons, ← List.singleton_append, crossed_append,
          (crossed_of_crosses hcross a).1]
        exact hdoes.append hdoes₂
      · rw [List.filter_cons_of_neg (by simp [hcross.owns])]
        exact hreplays
    · obtain ⟨name, token, htoken, rfl⟩ := id hcancel
      have hs₁ : (m.session.cancel token).Apart c (k.cancel token) s' :=
        ⟨hs.near.cancel htoken, hs.direction, hs.ring⟩
      have hstep := step_cancel hf
      rw [hsus, hs.near.wakes_own htoken] at hstep
      have hwoken : ∀ polling, (p.wake token k.wakes).polling = some polling →
          c.token = some polling.token := by
        intro polling hpolling
        obtain ⟨polling', hpolling', rfl⟩ := Option.map_eq_some_iff.1 hpolling
        exact hp polling' hpolling'
      obtain ⟨k₂, s₂, s₂', answers, cancels₂, frames₂, hlength, hr₂, hdoes₂, hs₂, hkeeps, hidle₂,
        hreplays⟩ := ih (hm.step hstep) rfl rfl hwoken hrest hs₁ (by simp [Stake.cancel, hidle])
      refine ⟨k₂, s₂, s₂', _ :: answers, (token, k.wakes) :: cancels₂, frames₂,
        congrArg (· + 1) hlength, (List.append_assoc .. ▸ hr₂).head hstep, ?_, hs₂,
        ⟨hkeeps.library, hkeeps.fresh, hkeeps.early⟩, hidle₂, ?_⟩
      · rw [List.zip_cons_cons, ← List.singleton_append, crossed_append,
          (crossed_of_owns hcancel.owns _).1]
        exact hdoes₂
      · intro b b' done' q frames' hb
        rw [List.filter_cons_of_pos hcancel.owns]
        have hb₁ : (b.cancel token).Apart c ((k.cancel token).alone c) b' := by
          rw [Stake.alone_cancel]
          exact ⟨hb.near.cancel htoken, hb.direction, hb.ring⟩
        obtain ⟨b₂, answers', frames₂', hr', hb₂⟩ := hreplays _ b'
          (done' ++ [.acknowledged ((b.cancel token).standing? name)]) (q.wake token k.wakes)
          (frames'.map (Passage.wake token k.wakes)) hb₁
        rw [List.append_assoc] at hr'
        have hstep' := step_cancel (m := ⟨b, .commands (.on name (.cancel token) ::
          commands.filter c.owns) done', q :: frames'⟩) rfl
        rw [hb.near.wakes_own htoken] at hstep'
        exact ⟨b₂, _, frames₂', hr'.head hstep', hb₂⟩

theorem Under.perform (h : c.Under k s' m p g) (hcur : p.current.isSome)
    {commands : List Command} {stream : List Turn}
    (hr : p.respond g.direction ((m.session.ring p.transfer.ring).room g)
      = (.perform commands, stream)) : c.Next k s' m p := by
  obtain ⟨hs, hreplay⟩ := h.respond hcur
  have hspent : performed p.transfer.stream = commands ++ performed stream :=
    Passage.performed_respond hr
  have hstream := h.drives.transfer.stream
  rw [hspent] at hstream
  obtain ⟨call, hcall⟩ := Option.isSome_iff_exists.1 hcur
  have hs : m.step = some ⟨m.session, .commands commands call.nested,
      p.withStream stream :: m.suspended⟩ := by
    rw [hs, Machine.turn_eq, hr, hcall]
    rfl
  obtain ⟨k₁, s₁, s₁', answers, cancels, frames₁, hlength, hr₁, hdoes, hs₁, hkeeps, hidle,
      hreplays⟩ :=
    performs_turn (h.sound.step hs) rfl rfl (fun polling hq => (h.drives.token hq).2)
      (List.forall_mem_append.1 hstream).1 h.session h.drives.idle
  have hmove : Machine.Reaches ⟨m.session, .commands commands call.nested,
      p.withStream stream :: m.suspended⟩
        ⟨s₁, .transfer (((p.withStream stream).wakeAll cancels).resume (call.nested ++ answers)),
          frames₁⟩ :=
    hr₁.step (Machine.step_iff.2 (.resume rfl rfl))
  have hdrives : (p.withStream stream).Drives c k₁ g :=
    (h.drives.withStream fun cmd hcmd => hspent ▸ List.mem_append_right commands hcmd).keeps hkeeps
      hidle
  rw [Passage.wakeAll_eq] at hmove
  refine .inl ⟨k₁, s₁', _, _, g, commands.zip answers, ⟨_, hs, hmove⟩,
    ⟨(h.sound.step hs).reaches hmove, rfl, hs₁, ⟨hdrives.transfer, ?_, hidle⟩⟩, rfl, rfl, ?_, ?_,
    hdoes, hkeeps, ?_⟩
  · rw [← h.drives.polling]
    simp only [Passage.resume, Option.map_map]
    rfl
  · rw [List.map_snd_zip (Nat.le_of_eq hlength)]
    simp [Passage.nested, Passage.resume, Passage.withStream, hcall]
  · rw [List.map_fst_zip (Nat.le_of_eq hlength.symm)]
    exact hspent
  · intro b b' q frames hq hb
    obtain ⟨call', hcall', hoffer⟩ :
        ∃ call', q.current = some call' ∧ call'.alone = call.alone := by
      have hcurrent := hq.current
      rw [hcall] at hcurrent
      exact Option.map_eq_some_iff.1 hcurrent
    obtain ⟨hstep, hroom⟩ := hreplay b b' q frames hq hb
    have hstep : (⟨b, .transfer q, frames⟩ : Machine).step
        = some ⟨b, .commands (commands.filter c.owns) call'.nested,
          q.withStream (c.alone stream) :: frames⟩ := by
      rw [hstep, Machine.turn_eq, hroom, hq.respond, hr, hcall']
      rfl
    obtain ⟨b₁, answers', frames₁', hr', hb₁⟩ :=
      hreplays b b' call'.nested (q.withStream (c.alone stream)) frames hb
    have hmove' := (hr'.step (Machine.step_iff.2 (.resume rfl rfl))).head hstep
    rw [Passage.wakeAll_eq] at hmove'
    refine ⟨b₁, _, frames₁', hmove', rfl, rfl, ?_, hb₁⟩
    have hq₁ := hq.withStream stream
    refine { hq₁ with polling := ?_, current := ?_ }
    · simp only [Passage.resume, hq₁.polling]
    · simp only [Passage.resume, Option.map_map]
      exact hq₁.current

/-- Every step of the transfer is part of a move or of its end. -/
theorem Under.next (h : c.Under k s' m p g) : c.Next k s' m p := by
  cases hcur : p.current with
  | none => exact h.offer hcur
  | some call =>
    have hsome : p.current.isSome := by simp [hcur]
    cases hr : p.respond g.direction ((m.session.ring p.transfer.ring).room g) with
    | mk response stream =>
      cases response with
      | answer written reply => exact h.answer hsome hr
      | perform commands => exact h.perform hsome hr
      | wait polling => exact h.wait hsome hr

/-- **A transfer is replayed without those that cross it.** It comes to an answer, whatever is
performed in its calls. What crosses it can be done without it, and on any session on which its
stake is the same it answers the same without them. -/
theorem Under.ends (h : c.Under k s' m p g) : ∃ k₁ s₁' m₁ e a exchanges script,
    c.Ends k s' m p k₁ s₁' m₁ e a exchanges script := by
  induction hw : m.weight using Nat.strongRecOn generalizing k s' m p g with
  | _ w ih =>
    rcases h.next with ⟨k₁, s₁', m₁, p₁, g₁, exchanges, hmoves⟩ | hends
    · obtain ⟨m₀, hs, hr⟩ := hmoves.steps
      have hlt : m₁.weight < w := hw ▸ Nat.lt_of_le_of_lt hr.weight_le (Machine.step_weight hs)
      obtain ⟨k₂, s₂', m₂, e, a, exchanges', script, hends⟩ := ih _ hlt hmoves.under rfl
      exact ⟨k₂, s₂', m₂, e, a, exchanges ++ exchanges', script, hmoves.ends hends⟩
    · exact hends

end Crossing

end CyclicBuffer
