import CyclicBuffer.Proofs.Exits
import CyclicBuffer.Proofs.Unruly

/-!
# Cancellation

What a cancelled token does to the transfers under it, given any library of tokens that keeps to its
three laws: whoever waits has been woken (`Roams.alert`). A call that is under way goes on as if
nothing had happened, and what it answers counts; but no other call begins. A loop looks for the
cancel in two places. Before a new race it asks the token; in a race that had to wait it polls for
the cancel first. In either place a cancelled transfer commits what it has moved and is over, as a
success if that is all it was to move (`reachable_heeds`).
-/

namespace CyclicBuffer

open Occupancy

/-! ## Transfers that are stopped -/

/-- The answer of a transfer that a token stops. -/
def Request.stopped (r : Request) (g : Grant) : Except Failure Value :=
  match r.purpose with
  | .fill => .ok (.number g.moved)
  | .fillExactly | .send =>
    if g.remaining = 0 then .ok .unit else .error (.error (.cancelled g.moved))

/-- A ring makes public what a grant has moved, and the direction is free. -/
structure Ring.Publishes (r : Ring) (g : Grant) (r' : Ring) : Prop where
  free : r'.occupancy.held g.direction = none
  storage : r'.storage = r.storage
  length : match g.direction with
    | .put => r'.length = r.length + g.moved
    | .take => r'.length + g.moved = r.length

theorem Ring.Sound.publishes {r r' : Ring} {g : Grant} {events : List Event} (hs : r.Sound)
    (hheld : r.occupancy.held g.direction = some g.region) (hm : g.moved ≤ g.region.count)
    (hc : r.commit g = .ok (r', events)) : r.Publishes g r' := by
  obtain ⟨o, ho, rfl, -⟩ := Ring.commit_ok hc
  refine ⟨(commit_held ho).2, rfl, ?_⟩
  cases hd : g.direction with
  | put =>
    rw [hd] at ho
    obtain ⟨region, -, rfl⟩ := commitPut_ok.1 ho
    rfl
  | take =>
    rw [hd] at ho hheld
    obtain ⟨region, -, rfl⟩ := commitTake_ok.1 ho
    have hcount := (hs.coherent.taking _ hheld).2
    show r.occupancy.length - g.moved + g.moved = r.occupancy.length
    omega

/-- Where a cancelled transfer leaves its loop. -/
def Grant.halt (g : Grant) : Ending := if g.remaining = 0 then .complete else .cancelled

theorem Request.verdict_halt (r : Request) (g : Grant) :
    (r.verdict g.moved g.halt).result.map Value.ofCount = r.stopped g := by
  unfold Grant.halt Request.verdict Request.stopped
  by_cases h : g.remaining = 0 <;> cases r.purpose <;> simp [h, Except.map, Value.ofCount]

namespace Machine

variable {m m' : Machine} {p : Passage} {g : Grant}

/-- A machine in which a transfer is just over: what its grant has moved is public on the ring that
it left behind, and it has answered with these calls of its stream. -/
structure Finishes (m' : Machine) (r : Ring) (p : Passage) (g : Grant)
    (result : Except Failure Value) (calls : List (Call Answer)) : Prop where
  publishes : r.Publishes g (m'.session.ring p.transfer.ring)
  answer : ∃ polls standing events, m'.focus = .commands p.todo (p.done ++
      [⟨.settled result calls polls, standing, events⟩]) ∧
    .committed g.direction g.region.count g.moved ∈ events

theorem Works.settle_finishes (h : m.Works p) (hg : p.transfer.grant = some g) {ending : Ending}
    (hl : p.Leaves g ending) :
    (m.settle p g ending).Finishes (m.session.ring p.transfer.ring) p g
      ((p.transfer.request.verdict g.moved ending).result.map Value.ofCount) p.calls := by
  have hfits := h.custody.fits _ (List.mem_cons_self ..)
  have hheld := h.custody.held_eq hg
  obtain ⟨ring', events, hc⟩ := Ring.commit_of_held hheld
  obtain ⟨o, ho, -, hevents⟩ := Ring.commit_ok hc
  have hpublishes := (h.custody.sound hfits.known).publishes hheld (hfits.moved_le g hg) hc
  unfold Machine.settle Ring.settle
  simp only [hc]
  refine ⟨?_, _, _, _, by rw [← h.verdict_eq hg hl]; rfl, ?_⟩
  · show Ring.Publishes _ g ((m.session.update p.transfer.ring ring' _).ring p.transfer.ring)
    rw [Session.ring_update_self _ hfits.known]
    exact hpublishes
  · simp [hevents]

end Machine

/-! ## Other tokens cancelled -/

namespace Session

theorem abandon_withCancelled (s : Session) (t : Transfer) (tokens : List Nat) :
    ({ s with cancelled := tokens } : Session).abandon t
      = (s.abandon t).map fun (s', events) => ({ s' with cancelled := tokens }, events) := by
  unfold abandon
  cases t.grant with
  | none => rfl
  | some g =>
    have hring : ({ s with cancelled := tokens } : Session).ring t.ring = s.ring t.ring := rfl
    simp only [hring]
    cases (s.ring t.ring).commit g <;> rfl

theorem addTask_withCancelled (s : Session) (id : Nat) (task : Task) (tokens : List Nat) :
    ({ s with cancelled := tokens } : Session).addTask id task
      = (s.addTask id task).map fun (s', events) => ({ s' with cancelled := tokens }, events) := by
  have htask : ({ s with cancelled := tokens } : Session).task? id = s.task? id := rfl
  unfold addTask dropTask
  rw [htask]
  cases s.task? id with
  | none => rfl
  | some old =>
    have hold := (s.removeTask id).abandon_withCancelled old.transfer tokens
    have hremove : ({ s with cancelled := tokens } : Session).removeTask id
      = { s.removeTask id with cancelled := tokens } := rfl
    simp only [hremove, hold]
    cases (s.removeTask id).abandon old.transfer <;> rfl

end Session

/-- A task at the start of a poll. -/
def Task.polled (task : Task) (id : Nat) (again : Bool) (todo : List Command)
    (done : List Answer) : Passage :=
  ⟨task.transfer, some ⟨id, task.token, false, task.awaits, 1, again⟩, [], none, [], todo, done⟩

/-- A later state of a transfer that is still in the same call. -/
structure Passage.SameCall (p p' : Passage) : Prop where
  ring : p'.transfer.ring = p.transfer.ring
  request : p'.transfer.request = p.transfer.request
  grant : p'.transfer.grant = p.transfer.grant
  calls : p'.calls = p.calls
  offer : p'.current.map (·.offer) = p.current.map (·.offer)
  token : p'.polling.map (·.token) = p.polling.map (·.token)
  woken : (∃ q, p.polling = some q ∧ q.woken = true) → ∃ q, p'.polling = some q ∧ q.woken = true

theorem Passage.SameCall.refl (p : Passage) : p.SameCall p :=
  ⟨rfl, rfl, rfl, rfl, rfl, rfl, id⟩

theorem Passage.SameCall.wake (p : Passage) (token : Nat) (wakes : Nat → Bool) :
    p.SameCall (p.wake token wakes) := by
  refine ⟨rfl, rfl, rfl, rfl, rfl, ?_, ?_⟩
  · simp only [Passage.wake, Option.map_map]
    rfl
  · rintro ⟨q, hq, hw⟩
    exact ⟨_, by simp only [Passage.wake, hq, Option.map_some]; rfl, by simp [hw]⟩

namespace Machine

variable {m m' : Machine} {p : Passage} {g : Grant} {place : Nat} {marks : List Mark}

/-! ## Cancelled for good -/

theorem start_within (m : Machine) (p : Passage) :
    m.session.Within (m.start p).session := by
  unfold start
  dsimp only
  split
  · exact .refl _
  · exact ⟨rfl, rfl, fun _ he => .inl he⟩

theorem offer_within (m : Machine) (p : Passage) (g : Grant) :
    m.session.Within (m.offer p g).session := by
  unfold offer
  split
  · exact ⟨rfl, rfl, fun _ he => .inl he⟩
  · exact .refl _

/-- A turn cancels no token, and puts only a transfer into the table that has to wait. -/
theorem turn_within (m : Machine) (p : Passage) (g : Grant) :
    ((m.turn p g).session.tokens = m.session.tokens ∧
      (m.turn p g).session.cancelled = m.session.cancelled) ∧
    ∀ entry ∈ (m.turn p g).session.tasks, entry ∈ m.session.tasks ∨ ∃ q stream,
      p.respond g.direction ((m.session.ring p.transfer.ring).room g) = (.wait q, stream) ∧
      entry.2 = ⟨(p.withStream stream).transfer, q.token, q.woken, q.awaits⟩ := by
  rw [turn_eq]
  split
  · rw [hear_eq]
    split <;> exact ⟨⟨rfl, rfl⟩, fun _ he => .inl he⟩
  · exact ⟨⟨rfl, rfl⟩, fun _ he => .inl he⟩
  · rename_i q stream hr
    unfold wait
    dsimp only
    split
    · exact ⟨⟨rfl, rfl⟩, fun _ he => .inl he⟩
    · split
      · exact ⟨⟨rfl, rfl⟩, fun _ he => .inl he⟩
      · rename_i hadd
        obtain ⟨hc, htasks⟩ := Session.addTask_within hadd
        refine ⟨hc, fun entry he => ?_⟩
        rcases htasks entry he with rfl | he
        · exact .inr ⟨q, stream, hr, rfl⟩
        · exact .inl he

/-- Only one command cancels a token, and no command starts a task. -/
theorem obey_within (m : Machine) (name : Nat) {action : Action} (todo : List Command)
    (done : List Answer) (h : ∀ token, action ≠ .cancel token) :
    m.session.Within (m.obey name action todo done).session := by
  have hpoll id again : m.session.Within (m.poll name id again todo done).session := by
    unfold poll
    split
    · exact .refl _
    · exact ⟨rfl, rfl, fun entry he => .inl (List.mem_filter.1 he).1⟩
  cases action with
  | errand e => exact m.session.errand_within name e
  | spawn id request stream other => exact m.session.spawn_within name id request stream other
  | cancel token => exact absurd rfl (h token)
  | transfer request stream =>
    unfold obey
    dsimp only
    split <;> exact .refl _
  | poll id => exact hpoll id false
  | run id => exact hpoll id true

/-- The library of tokens stays the same, and so do the tokens that have been cancelled, unless the
step cancels another. -/
theorem step_cancelled (hs : m.step = some m') : m'.session.tokens = m.session.tokens ∧
    (m'.session.cancelled = m.session.cancelled ∨ ∃ name token todo done,
      m.focus = .commands (.on name (.cancel token) :: todo) done ∧
      m'.session.cancelled = token :: m.session.cancelled) := by
  have hkeep (h : m'.session.tokens = m.session.tokens ∧
      m'.session.cancelled = m.session.cancelled) :
      m'.session.tokens = m.session.tokens ∧
        (m'.session.cancelled = m.session.cancelled ∨ ∃ name token todo done,
          m.focus = .commands (.on name (.cancel token) :: todo) done ∧
          m'.session.cancelled = token :: m.session.cancelled) :=
    ⟨h.1, .inl h.2⟩
  cases step_iff.1 hs with
  | resume hf hsus => exact hkeep ⟨rfl, rfl⟩
  | @obey name action todo done hf =>
    by_cases hcancel : ∃ token, action = .cancel token
    · obtain ⟨token, rfl⟩ := hcancel
      exact ⟨rfl, .inr ⟨name, token, todo, done, hf, rfl⟩⟩
    · have hw := m.obey_within name todo done fun token he => hcancel ⟨token, he⟩
      exact hkeep ⟨hw.tokens, hw.cancelled⟩
  | @start p hf hg => exact hkeep ⟨(m.start_within p).tokens, (m.start_within p).cancelled⟩
  | @turn p g hf hg hcall => exact hkeep (m.turn_within p g).1
  | @offer p g hf hg hidle =>
    exact hkeep ⟨(m.offer_within p g).tokens, (m.offer_within p g).cancelled⟩

theorem step_cancelled_subset (hs : m.step = some m') :
    m.session.cancelled ⊆ m'.session.cancelled := by
  rcases (step_cancelled hs).2 with he | ⟨-, token, -, -, -, he⟩
  · exact he ▸ List.Subset.refl _
  · exact he ▸ List.subset_cons_self ..

theorem Roams.cancelled (h : m.Roams place marks m') : m'.session.tokens = m.session.tokens ∧
    m.session.cancelled ⊆ m'.session.cancelled := by
  induction h with
  | refl => exact ⟨rfl, List.Subset.refl _⟩
  | stir _ hstir ih =>
    cases hstir with
    | step hs =>
      exact ⟨(step_cancelled hs).1.trans ih.1, List.Subset.trans ih.2 (step_cancelled_subset hs)⟩
    | scribble hw =>
      cases hw
      exact ih

/-! ## Where a cancel is looked for -/

/-- The transfer is polled under a token that has been cancelled. -/
def Cancelled (m : Machine) (p : Passage) : Prop :=
  ∃ q, p.polling = some q ∧ q.token ∈ m.session.cancelled

/-- Whoever asks or polls is told of every token that has been cancelled. -/
def Told (m : Machine) : Prop :=
  ∀ token ∈ m.session.cancelled,
    m.session.isCancelled token = true ∧ ∀ polls, m.session.isReady token polls = true

theorem told_of (hp : m.session.tokens.Permanent) (h : m.session.tokens.Prompt) : m.Told :=
  fun _ ht => Tokens.told hp h (List.count_pos_iff.2 ht)

/-- Before a new race the token is asked, if bytes are left to move. -/
theorem Told.next_asks (ht : m.Told) {q : Polling} (hq : p.polling = some q)
    (hc : q.token ∈ m.session.cancelled) (ha : q.awaits = none) :
    p.next m.session g = .leave g.halt := by
  simp only [Passage.next, hq, Polling.next, ha, (ht _ hc).1, if_true, Grant.halt]
  split <;> simp_all [Nat.pos_iff_ne_zero]

/-- In a race that had to wait the cancel is polled for first. -/
theorem Told.next_polls (ht : m.Told) {q : Polling} (hq : p.polling = some q)
    (hc : q.token ∈ m.session.cancelled) {polls : Nat} (ha : q.awaits = some polls) :
    p.next m.session g = .leave .cancelled := by
  simp only [Passage.next, hq, Polling.next, ha, Polling.race, (ht _ hc).2 polls, if_true]

theorem Told.next_eq (ht : m.Told) (hst : p.Steady m.session) (hc : m.Cancelled p)
    (hg : p.transfer.grant = some g) : p.next m.session g = .leave g.halt := by
  obtain ⟨q, hq, hc⟩ := hc
  cases ha : q.awaits with
  | none => exact ht.next_asks hq hc ha
  | some polls =>
    obtain ⟨-, g', hg', hmore⟩ := hst.polled q polls hq ha
    cases hg.symm.trans hg'
    rw [ht.next_polls hq hc ha, Grant.halt, if_neg hmore]

/-- A cancelled transfer is over the next time that it would call its stream. -/
theorem Sound.stops (hm : m.Sound) (ht : m.Told) (hf : m.focus = .transfer p)
    (hc : m.Cancelled p) (hg : p.transfer.grant = some g) (hcur : p.current = none) :
    ∃ m', m.step = some m' ∧ m'.Finishes (m.session.ring p.transfer.ring) p g
      (p.transfer.request.stopped g) p.calls := by
  have hst := hm.steady.focus p hf
  have hnext := ht.next_eq hst hc hg
  have hs := step_iff.2 (.offer hf hg hcur)
  simp only [Machine.offer, hnext] at hs
  have hend := (hm.orderly.works hf).settle_finishes hg (hst.leaves hg hnext)
  rw [Request.verdict_halt] at hend
  exact ⟨_, hs, hend⟩

/-! ## No new call -/

/-- Where a step leaves the others as they are and the transfer in focus is between two calls, all
calls are from before. -/
theorem call_earlier_of_idle {p' : Passage} (hp' : p' ∈ m'.passages) (hcall : p'.current.isSome)
    (hsus : m'.suspended = m.suspended)
    (hfocus : ∀ p, m'.focus = .transfer p → p.current = none) :
    ∃ p ∈ m.passages, p.SameCall p' := by
  rcases List.mem_append.1 hp' with h | h
  · cases hf : m'.focus with
    | commands todo done => simp [hf] at h
    | transfer p =>
      obtain rfl : p' = p := by simpa [hf] using h
      rw [hfocus _ hf] at hcall
      cases hcall
  · exact ⟨p', List.mem_append_right _ (hsus ▸ h), .refl p'⟩

theorem call_earlier_obey {name : Nat} {action : Action} {todo : List Command}
    {done : List Answer} {p' : Passage} (hp' : p' ∈ (m.obey name action todo done).passages)
    (hcall : p'.current.isSome) : ∃ p ∈ m.passages, p.SameCall p' := by
  have hpoll id again (hp' : p' ∈ (m.poll name id again todo done).passages) :
      ∃ p ∈ m.passages, p.SameCall p' := by
    unfold poll at hp'
    split at hp'
    · exact call_earlier_of_idle hp' hcall rfl (by rintro _ ⟨⟩)
    · exact call_earlier_of_idle hp' hcall rfl (by rintro _ ⟨⟩; rfl)
  cases action with
  | errand e => exact call_earlier_of_idle hp' hcall rfl (by rintro _ ⟨⟩)
  | spawn id request stream token => exact call_earlier_of_idle hp' hcall rfl (by rintro _ ⟨⟩)
  | transfer request stream =>
    simp only [obey] at hp'
    split at hp'
    · exact call_earlier_of_idle hp' hcall rfl (by rintro _ ⟨⟩)
    · exact call_earlier_of_idle hp' hcall rfl (by rintro _ ⟨⟩; rfl)
  | poll id => exact hpoll id false hp'
  | run id => exact hpoll id true hp'
  | cancel token =>
    have hwoken : p' ∈ m.suspended.map (Passage.wake token (m.session.wakes token)) := hp'
    obtain ⟨p, hp, rfl⟩ := List.mem_map.1 hwoken
    exact ⟨p, List.mem_append_right _ hp, .wake p token _⟩

theorem call_earlier_turn (hf : m.focus = .transfer p) {p' : Passage}
    (hp' : p' ∈ (m.turn p g).passages) (hcall : p'.current.isSome) :
    ∃ p ∈ m.passages, p.SameCall p' := by
  rw [turn_eq] at hp'
  split at hp'
  · rw [hear_eq] at hp'
    split at hp'
    · exact call_earlier_of_idle hp' hcall rfl (by rintro _ ⟨⟩; rfl)
    · exact call_earlier_of_idle hp' hcall rfl (by rintro _ ⟨⟩)
  · rcases List.mem_cons.1 hp' with rfl | h
    · exact ⟨p, by simp [passages, hf], ⟨rfl, rfl, rfl, rfl, rfl, rfl, id⟩⟩
    · exact ⟨p', List.mem_append_right _ h, .refl p'⟩
  · unfold wait at hp'
    dsimp only at hp'
    split at hp'
    · exact call_earlier_of_idle hp' hcall rfl (by rintro _ ⟨⟩; rfl)
    · split at hp' <;> exact call_earlier_of_idle hp' hcall rfl (by rintro _ ⟨⟩)

/-- A cancelled transfer that is in a call after a step was in it before. -/
theorem Sound.call_earlier (hm : m.Sound) (ht : m.Told) (hs : m.step = some m') {p' : Passage}
    (hp' : p' ∈ m'.passages) (hcall : p'.current.isSome) (hc : m.Cancelled p') :
    ∃ p ∈ m.passages, p.SameCall p' := by
  cases step_iff.1 hs with
  | @resume p rest done hf hsus =>
    rcases List.mem_cons.1 hp' with rfl | h
    · refine ⟨p, List.mem_append_right _ (by simp [hsus]), rfl, rfl, rfl, rfl, ?_, rfl, id⟩
      simp only [Passage.resume, Option.map_map]
      rfl
    · exact ⟨p', List.mem_append_right _ (hsus ▸ List.mem_cons_of_mem _ h), .refl p'⟩
  | obey hf => exact call_earlier_obey hp' hcall
  | @start p hf hg =>
    have hidle := (hm.steady.focus p hf).idle hg
    unfold Machine.start at hp'
    dsimp only at hp'
    split at hp'
    · exact call_earlier_of_idle hp' hcall rfl (by rintro _ ⟨⟩)
    · refine call_earlier_of_idle hp' hcall rfl ?_
      rintro _ ⟨⟩
      exact hidle
  | turn hf hg hcur => exact call_earlier_turn hf hp' hcall
  | @offer p g hf hg hidle =>
    unfold Machine.offer at hp'
    split at hp'
    · exact call_earlier_of_idle hp' hcall rfl (by rintro _ ⟨⟩)
    · -- only here does a call begin, and the token of the transfer is not cancelled
      rename_i polling hnext
      rcases List.mem_cons.1 hp' with rfl | h
      · obtain ⟨q, hq, hc⟩ := hc
        obtain rfl : polling = some q := hq
        rcases Passage.next_call hnext with ⟨-, hnone, -⟩ | ⟨q₀, -, heq, -, hready⟩
        · cases hnone
        · cases heq
          cases ((ht _ hc).2 _).symm.trans hready
      · exact ⟨p', List.mem_append_right _ h, .refl p'⟩

/-! ## Whoever waits is woken -/

/-- Whoever waits under a token that has been cancelled has been woken. -/
structure Alert (m : Machine) : Prop where
  calls : ∀ p ∈ m.passages, ∀ q, p.polling = some q → p.current.isSome →
    q.token ∈ m.session.cancelled → q.woken = true
  tasks : ∀ entry ∈ m.session.tasks, entry.2.transfer.grant.isSome →
    entry.2.token ∈ m.session.cancelled → entry.2.woken = true

/-- The first cancel of a token wakes whoever has polled for it. -/
theorem wakes_first (hw : m.session.tokens.Waking) {token polls : Nat}
    (hnew : token ∉ m.session.cancelled) (h : 0 < polls) :
    m.session.wakes token polls = true := by
  unfold Session.wakes Session.cancels
  rw [List.count_eq_zero_of_not_mem hnew]
  exact hw polls h

/-- A call that is under way when its token is cancelled is in a race. -/
theorem Alert.calls_step (h : m.Alert) (hm : m.Sound) (ht : m.Told)
    (hw : m.session.tokens.Waking) (hs : m.step = some m') {p' : Passage}
    (hp' : p' ∈ m'.passages) {q' : Polling} (hq' : p'.polling = some q')
    (hcall : p'.current.isSome) (hc : q'.token ∈ m'.session.cancelled) : q'.woken = true := by
  by_cases hold : q'.token ∈ m.session.cancelled
  · obtain ⟨p, hp, hsame⟩ := hm.call_earlier ht hs hp' hcall ⟨q', hq', hold⟩
    have htoken := hsame.token
    rw [hq', Option.map_some, eq_comm, Option.map_eq_some_iff] at htoken
    obtain ⟨q, hq, htoken⟩ := htoken
    have hcur : p.current.isSome := by
      have hsome := congrArg Option.isSome hsame.offer
      simpa [hcall] using hsome.symm
    obtain ⟨q₁, hq₁, hwoken⟩ := hsame.woken ⟨q, hq, h.calls p hp q hq hcur (htoken ▸ hold)⟩
    exact Option.some.inj (hq'.symm.trans hq₁) ▸ hwoken
  · -- the step cancels the token, and the call waits for that
    rcases (step_cancelled hs).2 with he | ⟨name, token, todo, done, hf, he⟩
    · exact absurd (he ▸ hc) hold
    · obtain rfl := Option.some.inj ((step_iff.2 (.obey hf)).symm.trans hs)
      have htoken : q'.token = token := by simpa [he, hold] using hc
      have hwoken : p' ∈ m.suspended.map (Passage.wake token (m.session.wakes token)) := hp'
      obtain ⟨p, hp, rfl⟩ := List.mem_map.1 hwoken
      obtain ⟨q, hq, rfl⟩ := Option.map_eq_some_iff.1 hq'
      obtain rfl : q.token = token := htoken
      obtain ⟨hcur, hst⟩ := hm.steady.suspended p hp
      obtain ⟨polls, hpolls⟩ := Option.isSome_iff_exists.1 (hst.awaits q hq hcur)
      have hfirst := wakes_first hw hold (hst.polled q polls hq hpolls).1
      simp [hpolls, hfirst]

/-- A task that waits when its token is cancelled is in a race. -/
theorem Alert.tasks_step (h : m.Alert) (hm : m.Sound) (hw : m.session.tokens.Waking)
    (hs : m.step = some m') : ∀ entry ∈ m'.session.tasks, entry.2.transfer.grant.isSome →
      entry.2.token ∈ m'.session.cancelled → entry.2.woken = true := by
  have hwithin (hw : m.session.Within m'.session) : ∀ entry ∈ m'.session.tasks,
      entry.2.transfer.grant.isSome → entry.2.token ∈ m'.session.cancelled →
        entry.2.woken = true := by
    intro entry he hstarted hc
    rcases hw.tasks entry he with he | ⟨hidle, -⟩
    · exact h.tasks entry he hstarted (hw.cancelled ▸ hc)
    · simp [hidle] at hstarted
  cases step_iff.1 hs with
  | resume hf hsus => exact h.tasks
  | @obey name action todo done hf =>
    by_cases hcancel : ∃ token, action = .cancel token
    · obtain ⟨token, rfl⟩ := hcancel
      intro entry' he' hstarted hc
      obtain ⟨entry, he, rfl⟩ := List.mem_map.1 he'
      by_cases hold : entry.2.token ∈ m.session.cancelled
      · simp [Task.wake, h.tasks entry he hstarted hold]
      · obtain rfl : entry.2.token = token := (List.mem_cons.1 hc).resolve_right hold
        have hst := hm.steady.tasks entry he
        obtain ⟨polls, hpolls⟩ := Option.isSome_iff_exists.1 (hst.awaits.trans hstarted)
        have hfirst := wakes_first hw hold (hst.polled polls hpolls)
        simp [Task.wake, hpolls, hfirst]
    · exact hwithin (m.obey_within name todo done fun token he => hcancel ⟨token, he⟩)
  | @start p hf hg => exact hwithin (m.start_within p)
  | @turn p g hf hg hcall =>
    obtain ⟨⟨-, hcancelled⟩, htasks⟩ := m.turn_within p g
    intro entry he hstarted hc
    rw [hcancelled] at hc
    rcases htasks entry he with he | ⟨q, stream, hr, heq⟩
    · exact h.tasks entry he hstarted hc
    · obtain ⟨q₀, hq₀, htoken, hwoken⟩ := Passage.respond_wait hr
      rw [heq] at hc ⊢
      exact hwoken (h.calls p (focus_passages hf) q₀ hq₀ hcall (htoken ▸ hc))
  | @offer p g hf hg hidle => exact hwithin (m.offer_within p g)

/-- Whoever waits under a cancelled token has been woken, at every moment. -/
theorem Roams.alert {tokens : Tokens} {commands : List Command} (hp : tokens.Permanent)
    (hprompt : tokens.Prompt) (hw : tokens.Waking)
    (h : (load tokens commands).Roams place marks m) : m.Told ∧ m.Alert := by
  have htold {marks : List Mark} {m : Machine} (h : (load tokens commands).Roams place marks m) :
      m.Told := told_of (h.cancelled.1 ▸ hp) (h.cancelled.1 ▸ hprompt)
  refine ⟨htold h, ?_⟩
  induction h with
  | refl => exact ⟨by simp [load, passages], by simp [load]⟩
  | @stir past more m₁ m₂ h₁ hstir ih =>
    have hm₁ := h₁.sound_load
    have hw₁ : m₁.session.tokens.Waking := h₁.cancelled.1 ▸ hw
    cases hstir with
    | step hs =>
      exact ⟨fun p hp q hq hcall hc => ih.calls_step hm₁ (htold h₁) hw₁ hs hp hq hcall hc,
        ih.tasks_step hm₁ hw₁ hs⟩
    | scribble hscribble =>
      cases hscribble
      exact ⟨ih.calls, ih.tasks⟩

/-! ## Calls under way -/

/-- The machine with other tokens cancelled. -/
def withCancelled (m : Machine) (tokens : List Nat) : Machine :=
  { m with session := { m.session with cancelled := tokens } }

theorem hear_withCancelled (m : Machine) (p : Passage) (g : Grant) (reply : Reply)
    (tokens : List Nat) :
    (m.withCancelled tokens).hear p g reply = (m.hear p g reply).withCancelled tokens := by
  rw [hear_eq, hear_eq]
  split <;> rfl

theorem wait_withCancelled (m : Machine) (p : Passage) (q : Polling) (tokens : List Nat) :
    (m.withCancelled tokens).wait p q = (m.wait p q).withCancelled tokens := by
  have hadd := m.session.addTask_withCancelled q.task ⟨p.transfer, q.token, q.woken, q.awaits⟩
    tokens
  unfold wait
  dsimp only [Passage.closeCall, withCancelled]
  rw [hadd]
  split
  · rfl
  · cases m.session.addTask q.task ⟨p.transfer, q.token, q.woken, q.awaits⟩ <;> rfl

/-- What a call that is under way comes to does not depend on what is cancelled. -/
theorem step_withCancelled (hf : m.focus = .transfer p) (hg : p.transfer.grant = some g)
    (hcur : p.current.isSome) (tokens : List Nat) :
    (m.withCancelled tokens).step = m.step.map (·.withCancelled tokens) := by
  have hf' : (m.withCancelled tokens).focus = .transfer p := hf
  have hring : (m.withCancelled tokens).session.ring p.transfer.ring
    = m.session.ring p.transfer.ring := rfl
  rw [step_iff.2 (.turn hf hg hcur), step_iff.2 (.turn hf' hg hcur), Option.map_some, turn_eq,
    turn_eq, hring]
  congr 1
  split
  · exact hear_withCancelled { m with session := m.session.update _ _ [] } ..
  · rfl
  · exact wait_withCancelled ..

/-- A reply that ends a transfer does so whether it is cancelled or not. -/
theorem Sound.reply_ends (hm : m.Sound) (hf : m.focus = .transfer p)
    (hg : p.transfer.grant = some g) (hcur : p.current.isSome) {written : Bytes} {reply : Reply}
    {stream : List Turn}
    (hr : p.respond g.direction ((m.session.ring p.transfer.ring).room g)
      = (.answer written reply, stream)) {g' : Grant} {ending : Ending}
    (hh : g.hear reply = (g', some ending)) :
    ∃ m', m.step = some m' ∧
      m'.Finishes ((m.session.ring p.transfer.ring).receive g written) p g'
        ((p.transfer.request.verdict g'.moved ending).result.map Value.ofCount)
        (p.calls ++ p.current.toList) := by
  have hworks := hm.orderly.works hf
  have hknown := (hworks.custody.fits _ (List.mem_cons_self ..)).known
  obtain ⟨hmore, -⟩ := (hm.steady.focus p hf).in_call hg hcur
  obtain ⟨rfl, -⟩ := hear_ending hh
  have hreceive := ((hworks.receive g' written rfl).1.withStream stream).1
  have hclosed : Works _ (p.withStream stream).closeCall :=
    ⟨hreceive.custody, hreceive.calm.closeCall, hreceive.suspended⟩
  have hend := hclosed.settle_finishes hg (hear_leaves hh hmore)
  rw [show Session.ring _ (p.withStream stream).closeCall.transfer.ring
    = (m.session.ring p.transfer.ring).receive g' written from
      Session.ring_update_self _ hknown ..] at hend
  have hs := step_iff.2 (.turn hf hg hcur)
  simp only [turn_eq, hr, hear_eq, hh] at hs
  exact ⟨_, hs, hend.publishes, hend.answer⟩

/-- A reply that does not end a cancelled transfer is the last one. -/
theorem Sound.reply_stops (hm : m.Sound) (ht : m.Told) (hf : m.focus = .transfer p)
    (hc : m.Cancelled p) (hg : p.transfer.grant = some g) (hcur : p.current.isSome)
    {written : Bytes} {reply : Reply} {stream : List Turn}
    (hr : p.respond g.direction ((m.session.ring p.transfer.ring).room g)
      = (.answer written reply, stream)) {g' : Grant} (hh : g.hear reply = (g', none)) :
    ∃ m' m'', m.step = some m' ∧ m'.step = some m'' ∧
      m''.Finishes ((m.session.ring p.transfer.ring).receive g written) p g'
        (p.transfer.request.stopped g') (p.calls ++ p.current.toList) := by
  have hknown := ((hm.orderly.works hf).custody.fits _ (List.mem_cons_self ..)).known
  have hring : (m.session.update p.transfer.ring
      ((m.session.ring p.transfer.ring).receive g written) []).ring p.transfer.ring
        = (m.session.ring p.transfer.ring).receive g written :=
    Session.ring_update_self _ hknown ..
  have hs := step_iff.2 (.turn hf hg hcur)
  simp only [turn_eq, hr, hear_eq, hh] at hs
  obtain ⟨q, hq, hc⟩ := hc
  have hq' : ((p.withStream stream).closeCall.endRace.withGrant g').polling
      = some { q with awaits := none } := congrArg (Option.map _) hq
  obtain ⟨m'', hs'', hend⟩ := (hm.step hs).stops ht rfl ⟨_, hq', hc⟩ rfl rfl
  exact ⟨_, m'', hs, hs'', hring ▸ hend.publishes, hend.answer⟩

/-- A cancelled transfer that has to wait is woken. If it is not polled again at once, where it is
over, it goes into the table. -/
theorem Sound.wait_stops (hm : m.Sound) (ht : m.Told) (ha : m.Alert) (hf : m.focus = .transfer p)
    (hc : m.Cancelled p) (hg : p.transfer.grant = some g) (hcur : p.current.isSome) {q : Polling}
    {stream : List Turn}
    (hr : p.respond g.direction ((m.session.ring p.transfer.ring).room g) = (.wait q, stream)) :
    ∃ m', m.step = some m' ∧
      ((∃ m'', m'.step = some m'' ∧
        m''.Finishes (m.session.ring p.transfer.ring) p g (p.transfer.request.stopped g)
          (p.calls ++ p.current.toList)) ∨
      ((∃ polls standing events, m'.focus = .commands p.todo (p.done ++
          [⟨.pending true (p.calls ++ p.current.toList) polls, standing, events⟩])) ∧
        m'.session.task? q.task
          = some ⟨(p.withStream stream).transfer, q.token, true, q.awaits⟩)) := by
  obtain ⟨wake, q₀, -, hq₀, rfl⟩ := Passage.respond_suspended hr
  obtain ⟨q₁, hq₁, hc⟩ := hc
  obtain rfl : q₁ = q₀ := Option.some.inj (hq₁.symm.trans hq₀)
  have hw : q₁.woken = true := ha.calls p (focus_passages hf) q₁ hq₁ hcur hc
  have hs := step_iff.2 (.turn hf hg hcur)
  simp only [turn_eq, hr] at hs
  refine ⟨_, hs, ?_⟩
  have hm' := hm.step hs
  by_cases hagain : (q₁.again && (q₁.woken || wake) && decide (q₁.polls < maxPolls)) = true
  · left
    unfold Machine.wait at hm' ⊢
    simp only [hagain, if_true] at hm' ⊢
    obtain ⟨m'', hs'', hend⟩ := hm'.stops ht rfl ⟨_, rfl, hc⟩ hg rfl
    exact ⟨m'', hs'', hend.publishes, hend.answer⟩
  · right
    have hcustody : Custody m.session ((p.transfer :: m.suspended.map fun p => p.transfer)
        ++ m.session.waiting) := (hm.orderly.works hf).custody
    obtain ⟨s', events, hok, -, -⟩ := hcustody.dropTask (w := True) q₁.task
    unfold Machine.wait
    dsimp only
    rw [if_neg hagain]
    simp only [Session.addTask, Passage.closeCall, hok, hw, Bool.true_or]
    exact ⟨⟨_, _, _, rfl⟩, List.lookup_cons_self⟩

/-- A cancelled transfer that has not started is refused for want of a region before anything
else, and is over at once if it gets one. -/
theorem Sound.unstarted_stops (hm : m.Sound) (ht : m.Told) (hf : m.focus = .transfer p)
    (hc : m.Cancelled p) (hg : p.transfer.grant = none) :
    ∃ m', m.step = some m' ∧
      (∀ e, (m.session.ring p.transfer.ring).reserve p.transfer.request.purpose.direction
          p.transfer.request.count = .error e →
        m'.session = m.session ∧ ∃ polls standing, m'.focus = .commands p.todo
          (p.done ++ [⟨.settled (.error (.error e)) p.calls polls, standing, p.events⟩])) ∧
      ∀ g ring events, (m.session.ring p.transfer.ring).reserve
          p.transfer.request.purpose.direction p.transfer.request.count = .ok (g, ring, events) →
        g.moved = 0 ∧ g.remaining = p.transfer.request.count ∧ ∃ m'', m'.step = some m'' ∧
          m''.Finishes ring p g (p.transfer.request.stopped g) p.calls := by
  have hworks := hm.orderly.works hf
  have hknown := (hworks.custody.fits _ (List.mem_cons_self ..)).known
  have hcur := (hm.steady.focus p hf).idle hg
  have hs := step_iff.2 (.start hf hg)
  refine ⟨_, hs, ?_, ?_⟩
  · intro e he
    unfold Machine.start
    simp only [he]
    exact ⟨rfl, _, _, by rw [Machine.close, answer, List.append_nil]⟩
  · intro g ring events hr
    refine ⟨(Ring.reserve_grant hr).2.2, Ring.reserve_remaining hr, ?_⟩
    have hm' := hm.step hs
    unfold Machine.start at hm' ⊢
    simp only [hr] at hm' ⊢
    obtain ⟨m'', hs'', hend⟩ := hm'.stops ht rfl hc rfl hcur
    have hring : (m.session.update p.transfer.ring ring events).ring p.transfer.ring = ring :=
      Session.ring_update_self _ hknown ..
    exact ⟨m'', hs'', hring ▸ hend.publishes, hend.answer⟩

/-- A task that waits under a cancelled token has been woken and is over at its next poll, in which
its stream is not called. -/
theorem Sound.poll_stops (hm : m.Sound) (ht : m.Told) (ha : m.Alert) {id : Nat} {task : Task}
    (hid : m.session.task? id = some task) (hc : task.token ∈ m.session.cancelled)
    (hg : task.transfer.grant = some g) :
    task.woken = true ∧ g.remaining ≠ 0 ∧
      ∀ name action todo done, m.focus = .commands (.on name action :: todo) done →
        action = .poll id ∨ action = .run id → ∃ m' m'' again, m.step = some m' ∧
          m'.step = some m'' ∧
          m''.Finishes (m.session.ring task.transfer.ring) (task.polled id again todo done) g
            (task.transfer.request.stopped g) [] := by
  have hmem := Session.mem_tasks hid
  refine ⟨ha.tasks _ hmem (by simp [hg]) hc, (hm.steady.tasks _ hmem).more g hg, ?_⟩
  intro name action todo done hf haction
  have hpoll (again : Bool) (hs : m.step = some (m.poll name id again todo done)) :
      ∃ m' m'' again, m.step = some m' ∧ m'.step = some m'' ∧
        m''.Finishes (m.session.ring task.transfer.ring) (task.polled id again todo done) g
          (task.transfer.request.stopped g) [] := by
    have hdrive : m.poll name id again todo done
        = { m with session := m.session.removeTask id }.drive
            (task.polled id again todo done) := by
      simp only [Machine.poll, hid, Task.polled]
    have hm' := hm.step hs
    rw [hdrive] at hm' hs
    obtain ⟨m'', hs'', hend⟩ := hm'.stops ht rfl ⟨_, rfl, hc⟩ hg rfl
    exact ⟨_, m'', again, hs, hs'', hend⟩
  rcases haction with rfl | rfl
  · exact hpoll false (step_iff.2 (.obey hf))
  · exact hpoll true (step_iff.2 (.obey hf))

/-! ## The law of cancellation -/

/-- What a machine does about the tokens that have been cancelled in it. -/
structure Heeds (m : Machine) : Prop where
  /-- From the cancel on, whoever asks or polls is told of it. -/
  lasting : ∀ token ∈ m.session.cancelled, ∀ place marks m', m.Roams place marks m' →
    m'.session.isCancelled token = true ∧ ∀ polls, m'.session.isReady token polls = true
  /-- No cancelled transfer begins a call of its stream. -/
  no_call : ∀ m', m.step = some m' → ∀ p' ∈ m'.passages, p'.current.isSome →
    m.Cancelled p' → ∃ p ∈ m.passages, p.SameCall p'
  /-- A cancelled transfer that has not started still asks for its region. If it is refused, that is
  its answer; if not, it is over with its next step. -/
  unstarted : ∀ p, m.focus = .transfer p → m.Cancelled p → p.transfer.grant = none →
    ∃ m', m.step = some m' ∧
      (∀ e, (m.session.ring p.transfer.ring).reserve p.transfer.request.purpose.direction
          p.transfer.request.count = .error e →
        m'.session = m.session ∧ ∃ polls standing, m'.focus = .commands p.todo
          (p.done ++ [⟨.settled (.error (.error e)) p.calls polls, standing, p.events⟩])) ∧
      ∀ g ring events, (m.session.ring p.transfer.ring).reserve
          p.transfer.request.purpose.direction p.transfer.request.count = .ok (g, ring, events) →
        g.moved = 0 ∧ g.remaining = p.transfer.request.count ∧ ∃ m'', m'.step = some m'' ∧
          m''.Finishes ring p g (p.transfer.request.stopped g) p.calls
  /-- Between two calls a cancelled transfer is over with its next step. Before a new race it asks
  its token, if it has bytes left to move. -/
  asks : ∀ p g q, m.focus = .transfer p → p.polling = some q →
    q.token ∈ m.session.cancelled → p.transfer.grant = some g → p.current = none →
    q.awaits = none → p.next m.session g = .leave g.halt ∧ ∃ m', m.step = some m' ∧
      m'.Finishes (m.session.ring p.transfer.ring) p g (p.transfer.request.stopped g) p.calls
  /-- In a race that had to wait it polls for the cancel before it would call its stream. -/
  races : ∀ p g q polls, m.focus = .transfer p → p.polling = some q →
    q.token ∈ m.session.cancelled → p.transfer.grant = some g → p.current = none →
    q.awaits = some polls → g.remaining ≠ 0 ∧ p.next m.session g = .leave .cancelled ∧
      ∃ m', m.step = some m' ∧
        m'.Finishes (m.session.ring p.transfer.ring) p g (p.transfer.request.stopped g) p.calls
  /-- A call that is under way goes on as if other tokens were cancelled, or none. -/
  under_way : ∀ p g tokens, m.focus = .transfer p → p.transfer.grant = some g →
    p.current.isSome → (m.withCancelled tokens).step = m.step.map (·.withCancelled tokens)
  /-- What the call answers counts. If it does not end the transfer, the next step does. -/
  answered : ∀ p g written reply stream, m.focus = .transfer p → m.Cancelled p →
    p.transfer.grant = some g → p.current.isSome →
    p.respond g.direction ((m.session.ring p.transfer.ring).room g)
      = (.answer written reply, stream) →
    (∀ g' ending, g.hear reply = (g', some ending) → ∃ m', m.step = some m' ∧
      m'.Finishes ((m.session.ring p.transfer.ring).receive g written) p g'
        ((p.transfer.request.verdict g'.moved ending).result.map Value.ofCount)
        (p.calls ++ p.current.toList)) ∧
    ∀ g', g.hear reply = (g', none) → ∃ m' m'', m.step = some m' ∧ m'.step = some m'' ∧
      m''.Finishes ((m.session.ring p.transfer.ring).receive g written) p g'
        (p.transfer.request.stopped g') (p.calls ++ p.current.toList)
  /-- If the call makes the transfer wait, it has been woken: a run polls it again at once, and then
  it is over; any other poll leaves it in the table. -/
  waits : ∀ p g q stream, m.focus = .transfer p → m.Cancelled p →
    p.transfer.grant = some g → p.current.isSome →
    p.respond g.direction ((m.session.ring p.transfer.ring).room g) = (.wait q, stream) →
    ∃ m', m.step = some m' ∧
      ((∃ m'', m'.step = some m'' ∧
        m''.Finishes (m.session.ring p.transfer.ring) p g (p.transfer.request.stopped g)
          (p.calls ++ p.current.toList)) ∨
      ((∃ polls standing events, m'.focus = .commands p.todo (p.done ++
          [⟨.pending true (p.calls ++ p.current.toList) polls, standing, events⟩])) ∧
        m'.session.task? q.task
          = some ⟨(p.withStream stream).transfer, q.token, true, q.awaits⟩))
  /-- A cancelled task that waits has been woken, and its next poll ends it without a call. -/
  polled : ∀ id task g, m.session.task? id = some task →
    task.token ∈ m.session.cancelled → task.transfer.grant = some g →
    task.woken = true ∧ g.remaining ≠ 0 ∧
      ∀ name action todo done, m.focus = .commands (.on name action :: todo) done →
        action = .poll id ∨ action = .run id → ∃ m' m'' again, m.step = some m' ∧
          m'.step = some m'' ∧
          m''.Finishes (m.session.ring task.transfer.ring) (task.polled id again todo done) g
            (task.transfer.request.stopped g) []

/-- **The law of cancellation.** With every library of tokens whose cancels are permanent, told at
once and wake whoever has polled: wherever commands and unruly sources have led, whichever tokens
are cancelled and wherever their transfers are, these are woken, begin no call any more, let the
call that is under way have its say, and end at their next poll with the bytes that they have moved:
a fill with their number, the others as cancelled, and with success if none were left to move. -/
theorem reachable_heeds {tokens : Tokens} {commands : List Command}
    (hpermanent : tokens.Permanent) (hprompt : tokens.Prompt) (hwaking : tokens.Waking)
    (h : (load tokens commands).Roams place marks m) : m.Heeds := by
  have hm := h.sound_load
  obtain ⟨ht, ha⟩ := h.alert hpermanent hprompt hwaking
  constructor
  case lasting =>
    intro token hc place' marks' m' hr
    have hlibrary : m'.session.tokens = tokens := hr.cancelled.1.trans h.cancelled.1
    exact told_of (hlibrary ▸ hpermanent) (hlibrary ▸ hprompt) token (hr.cancelled.2 hc)
  case no_call => exact fun _ hs _ hp hcall hc => hm.call_earlier ht hs hp hcall hc
  case unstarted => exact fun _ hf hc hg => hm.unstarted_stops ht hf hc hg
  case asks =>
    exact fun _ _ q hf hq hc hg hcur hask =>
      ⟨ht.next_asks hq hc hask, hm.stops ht hf ⟨q, hq, hc⟩ hg hcur⟩
  case races =>
    intro p g q polls hf hq hc hg hcur hrace
    obtain ⟨-, g', hg', hmore⟩ := (hm.steady.focus p hf).polled q polls hq hrace
    cases hg.symm.trans hg'
    exact ⟨hmore, ht.next_polls hq hc hrace, hm.stops ht hf ⟨q, hq, hc⟩ hg hcur⟩
  case under_way => exact fun _ _ tokens hf hg hcur => step_withCancelled hf hg hcur tokens
  case answered =>
    exact fun _ _ _ _ _ hf hc hg hcur hr =>
      ⟨fun _ _ hh => hm.reply_ends hf hg hcur hr hh,
        fun _ hh => hm.reply_stops ht hf hc hg hcur hr hh⟩
  case waits => exact fun _ _ _ _ hf hc hg hcur hr => hm.wait_stops ht ha hf hc hg hcur hr
  case polled => exact fun _ _ _ hid hc hg => hm.poll_stops ht ha hid hc hg

/-- A source delivers a byte, then cancels its own transfer in a call in which it makes it wait. -/
def cancelledFill : List Command :=
  [.on 0 (.errand (.create ⟨4, false, none⟩)),
    .on 0 (.spawn 1 ⟨.fillExactly, 3⟩
      [.deliver [7], .perform [.on 0 (.cancel 5)], .suspend false] 5),
    .on 0 (.poll 1), .on 0 (.poll 1)]

theorem reachable_heeds_cancelledFill :
    (∃ task, ((load .plain cancelledFill).after 11).session.task? 1 = some task ∧
      task.woken = true) ∧
    ∃ m' m'', ((load .plain cancelledFill).after 11).step = some m' ∧ m'.step = some m'' ∧
      (m''.session.ring 0).length = 1 ∧ ∃ done polls standing events,
        m''.focus = .commands [] (done ++
          [⟨.settled (.error (.error (.cancelled 1))) [] polls, standing, events⟩]) := by
  obtain ⟨hwoken, -, hpolled⟩ :=
    (reachable_heeds Tokens.permanent_plain Tokens.prompt_plain Tokens.waking_plain
      (passes_after (load .plain cancelledFill) 0 11).roams).polled 1 _ ⟨.put, ⟨0, 3⟩, 1⟩ rfl
        (by decide) rfl
  obtain ⟨m', m'', again, hs, hs', hend⟩ := hpolled 0 (.poll 1) [] _ rfl (.inl rfl)
  obtain ⟨polls, standing, events, hfocus, -⟩ := hend.answer
  exact ⟨⟨_, rfl, hwoken⟩, m', m'', hs, hs', hend.publishes.length, _, polls, standing, events,
    hfocus⟩

end Machine

end CyclicBuffer
