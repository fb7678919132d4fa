import CyclicBuffer.Proofs.Cancellation
import CyclicBuffer.Proofs.Unruly

/-!
# Refusals

Most errors mean that nothing has happened: the rings are as they were, a destination is what it
was, and no stream has been called. Only three kinds of error are late, and those are answered by
transfers alone, after they have got their reservation and committed what they moved
(`Machine.reachable_refuses`).
-/

namespace CyclicBuffer

open Occupancy

/-- The errors that can arise after bytes have moved. -/
def Error.Late : Error → Prop
  | .unexpectedEndOfInput _ _ | .cancelled _ | .stream _ => True
  | _ => False

/-- The destination of an errand that has one. -/
def Errand.destination? : Errand → Option Bytes
  | .operate (.takeInto destination _) => some destination
  | _ => none

/-! ## Rings -/

theorem Occupancy.reserve_refused {o : Occupancy} {d : Direction} {count : Nat} {e : Error}
    (h : o.reserve d count = .error e) : ¬ e.Late := by
  cases d with
  | put =>
    simp only [reserve, reservePut] at h
    repeat' split at h
    all_goals cases h
    all_goals exact id
  | take =>
    simp only [reserve, reserveTake, checkTake] at h
    repeat' split at h
    all_goals cases h
    all_goals exact id

theorem Queue.apply_error {q q' : Queue} {operation : Operation} {e : Error}
    (h : q.apply operation = (.error (.error e), q')) : ¬ e.Late := by
  cases operation
  all_goals
    simp only [apply, put, putByte, remove, empty, refuse, accept] at h
    repeat' split at h
    all_goals cases h
    all_goals exact id

namespace Ring

variable {r r' : Ring}

theorem occupancy_error {d : Direction} {count : Nat} {e : Error}
    (h : r.reserve d count = .error e) : r.occupancy.reserve d count = .error e := by
  unfold Ring.reserve at h
  cases hr : r.occupancy.reserve d count <;> rw [hr] at h <;> cases h
  rfl

theorem reserve_error {d : Direction} {count : Nat} {e : Error}
    (h : r.reserve d count = .error e) : ¬ e.Late :=
  reserve_refused (occupancy_error h)

/-- Whole bytes are moved, or nothing is done. -/
theorem Sound.moveWhole_refused (h : r.Sound) {α : Type} {d : Direction} {count : Nat}
    {work : Region → Storage → α × Storage} {f : Failure}
    (hr : (r.moveWhole d count work).result = .error f) : r.moveWhole d count work = .fail r f := by
  cases hro : r.occupancy.reserve d count with
  | error e =>
    rw [moveWhole_of_error hro] at hr ⊢
    cases hr
    rfl
  | ok v =>
    obtain ⟨opening, hok⟩ := reserve_of_ok hro
    obtain ⟨r'', closing, -, heq⟩ := h.moveWhole_ok work hok
    rw [heq] at hr
    cases hr

theorem map_refused {α β : Type} {f : Failure} {o : Outcome α} (change : α → β)
    (h : o.result = .error f → o = .fail r f) (hr : (o.map change).result = .error f) :
    o.map change = .fail r f := by
  obtain ⟨result, ring, events⟩ := o
  cases result with
  | error f' =>
    cases hr
    rw [h rfl]
    rfl
  | ok v => cases hr

/-- An operation that fails leaves the ring as it was, to the last cell, and reports nothing. -/
theorem Sound.apply_failed (h : r.Sound) {operation : Operation} {f : Failure}
    (hr : (r.apply operation).result = .error f) : r.apply operation = .fail r f := by
  have htake count (hf : (r.take count).result = .error f) : r.take count = .fail r f :=
    h.take_whole count ▸ h.moveWhole_refused (h.take_whole count ▸ hf)
  cases operation with
  | put data =>
    exact map_refused _ (fun hf => h.put_whole data ▸ h.moveWhole_refused (h.put_whole data ▸ hf))
      hr
  | putByte byte =>
    refine map_refused _ (fun hf => ?_) hr
    unfold putByte at hf ⊢
    split at hf <;> cases hf
    rfl
  | takeInto destination count =>
    refine map_refused _ (fun hf => ?_) hr
    unfold takeInto at hf ⊢
    split at hf <;> rename_i hshort
    · cases hf
      rw [if_pos hshort, Outcome.refuse]
    · rw [if_neg hshort]
      exact map_refused _ (htake count) hf
  | takeList count =>
    refine map_refused _ (fun hf => ?_) hr
    unfold takeList at hf ⊢
    split at hf <;> rename_i hlarge
    · cases hf
      rw [if_pos hlarge]
    · rw [if_neg hlarge]
      exact htake count hf
  | takeByte =>
    refine map_refused _ (fun hf => ?_) hr
    unfold takeByte at hf ⊢
    split at hf <;> cases hf
    rfl
  | skip count =>
    refine map_refused _ (fun hf => ?_) hr
    unfold skip at hf ⊢
    split at hf <;> cases hf
    rfl
  | reset =>
    refine map_refused _ (fun hf => ?_) hr
    unfold reset at hf ⊢
    split at hf <;> cases hf
    rfl
  | drain =>
    refine map_refused _ (fun hf => ?_) hr
    unfold drain at hf ⊢
    split at hf <;> cases hf
    rfl

theorem Sound.apply_error (h : r.Sound) {operation : Operation} {e : Error}
    (hr : (r.apply operation).result = .error (.error e)) : ¬ e.Late := by
  have hseen := h.seen_apply operation
  rw [Outcome.seen, hr] at hseen
  exact Queue.apply_error hseen.symm

end Ring

theorem Blueprint.build_error {b : Blueprint} {e : Error} {events : List Event}
    (h : b.build = (.error (.error e), events)) : ¬ e.Late := by
  unfold build at h
  split at h
  · cases h
    exact id
  rename_i hc
  split at h
  · cases h
  cases hb : b.contents with
  | none =>
    simp only [hb] at h
    cases h
  | some data =>
    simp only [hb] at h
    have hs := Ring.sound_vacant (Nat.one_le_iff_ne_zero.2 hc) b.overwriting
    split at h
    · rename_i hput
      cases h
      have hr : ((Ring.vacant b.capacity b.overwriting).apply (.put data)).result
          = .error (.error e) := by
        simp only [Ring.apply, Outcome.map, hput]
        rfl
      exact hs.apply_error hr
    · cases h

/-! ## Commands done at once -/

/-- A refused command leaves a session as it was, and shows the destination as it was. -/
structure Session.Effect.Refuses (effect : Session.Effect) (s : Session) (e : Error)
    (destination : Option Bytes) (given : Option Bytes) : Prop where
  early : ¬ e.Late
  session : effect.session = s
  destination : destination = given

section
variable {s : Session} {ts : List Transfer} {e : Error} {destination : Option Bytes}

/-- An operation shows its failure, and the destination as it was. -/
theorem Session.shown_error {operation : Operation} {result : Except Failure Operation.Value}
    (h : shown operation result = .done (.error (.error e)) destination) :
    result = .error (.error e) ∧ destination = (Errand.operate operation).destination? := by
  unfold shown at h
  split at h
  · split at h <;> cases h
    exact ⟨rfl, rfl⟩
  · rename_i hinto
    cases result with
    | error f =>
      cases h
      refine ⟨rfl, ?_⟩
      cases operation <;> first | rfl | exact absurd rfl (hinto _ _)
    | ok v => cases h

theorem Custody.errand_refused (h : Custody s ts) {name : Nat} {errand : Errand}
    (hr : (s.errand name errand).reaction = .done (.error (.error e)) destination) :
    (s.errand name errand).Refuses s e destination errand.destination? := by
  cases errand with
  | create blueprint =>
    simp only [Session.errand] at hr ⊢
    split at hr <;> rename_i hb
    · cases hr
      exact ⟨Blueprint.build_error hb, rfl, rfl⟩
    · cases hr
  | operate operation =>
    simp only [Session.errand, Session.onRing] at hr ⊢
    split at hr <;> rename_i hp
    · cases hr
    · rename_i place
      obtain ⟨hresult, hdestination⟩ := Session.shown_error hr
      have hs := h.sound (h.named _ (Session.mem_of_place? hp))
      refine ⟨hs.apply_error hresult, ?_, hdestination⟩
      dsimp only at hresult ⊢
      rw [hs.apply_failed hresult]
      exact s.update_ring place
  | drop id =>
    simp only [Session.errand] at hr
    split at hr <;> cases hr
  | isWoken id =>
    simp only [Session.errand] at hr
    split at hr <;> cases hr
  | isCancelled token => cases hr
  | _ =>
    simp only [Session.errand, Session.onRing] at hr
    split at hr <;> cases hr

end

/-! ## Transfers -/

/-- A transfer that got its reservation fails with a late error, if it is not a fault. -/
theorem Request.verdict_late {r : Request} {moved : Nat} {ending : Ending} {e : Error}
    (h : (r.verdict moved ending).result.map Value.ofCount = .error (.error e)) : e.Late := by
  unfold verdict at h
  cases ending with
  | fault f => cases h
  | failed e' =>
    cases h
    trivial
  | _ =>
    cases hp : r.purpose <;> simp only [hp] at h <;> cases h
    all_goals trivial

namespace Machine

variable {m m' m₀ : Machine} {p : Passage} {result : Except Failure Value}
  {calls : List (Call Answer)}

/-- The transfer in focus is over with the next step, and has answered with these calls of its
stream. -/
structure Returns (m : Machine) (p : Passage) (result : Except Failure Value)
    (calls : List (Call Answer)) (m' : Machine) : Prop where
  focus : m.focus = .transfer p
  step : m.step = some m'
  suspended : m'.suspended = m.suspended
  answer : ∃ polls standing events, m'.focus = .commands p.todo (p.done ++
    [⟨.settled result calls polls, standing, events⟩])

/-- A transfer that did not get its reservation is over at once. -/
structure Refused (m : Machine) (p : Passage) (result : Except Failure Value)
    (calls : List (Call Answer)) (m' : Machine) : Prop where
  grant : p.transfer.grant = none
  error : ∃ e, (m.session.ring p.transfer.ring).reserve p.transfer.request.purpose.direction
    p.transfer.request.count = .error e ∧ result = .error (.error e)
  calls : calls = p.calls
  session : m'.session = m.session

/-- A transfer that got its reservation is over when that is published. What its stream wrote in
the last call, if it was in one, is in the cells by then. -/
structure Published (m : Machine) (p : Passage) (result : Except Failure Value)
    (calls : List (Call Answer)) (m' : Machine) (g : Grant) : Prop where
  grant : p.transfer.grant = some g
  verdict : ∃ ending, result = (p.transfer.request.verdict g.moved ending).result.map Value.ofCount
  finishes : ∃ written,
    m'.Finishes ((m.session.ring p.transfer.ring).receive g written) p g result calls

/-- What a finished transfer has answered is what it returns. -/
theorem Returns.published (h : m.Returns p result calls m') {g : Grant}
    (hg : p.transfer.grant = some g) {written : Bytes} {ending : Ending}
    {calls' : List (Call Answer)}
    (hf : m'.Finishes ((m.session.ring p.transfer.ring).receive g written) p g
      ((p.transfer.request.verdict g.moved ending).result.map Value.ofCount) calls') :
    m.Published p result calls m' g := by
  obtain ⟨_, _, _, hfocus⟩ := h.answer
  obtain ⟨_, _, _, hfocus', -⟩ := hf.answer
  rw [hfocus] at hfocus'
  obtain ⟨rfl, rfl⟩ : result = _ ∧ calls = calls' := by
    simp only [Focus.commands.injEq, true_and, List.append_cancel_left_eq, List.cons.injEq,
      Answer.mk.injEq, Reaction.settled.injEq, and_true] at hfocus'
    exact ⟨hfocus'.1.1, hfocus'.1.2.1⟩
  exact ⟨hg, ⟨ending, rfl⟩, written, hf⟩

/-- A transfer that is made to wait has not answered. -/
theorem Works.wait_ne_settled (h : m.Works p) (q : Polling) (stream : List Turn)
    {todo : List Command} {done : List Answer} {polls : Option Nat}
    {standing : Option Occupancy} {events : List Event} :
    (m.wait (p.withStream stream) q).focus ≠ .commands todo (done ++
      [⟨.settled result calls polls, standing, events⟩]) := by
  intro hf
  have hcustody := (h.withStream stream).1.custody
  have hc : Custody m.session
      ((⟨(p.withStream stream).closeCall.transfer, q.token, q.woken, q.awaits⟩ : Task).transfer ::
        (m.suspended.map (fun p => p.transfer) ++ m.session.waiting)) := hcustody
  obtain ⟨s', events', hok, -⟩ := hc.addTask (w := True) q.task
  unfold Machine.wait at hf
  dsimp only at hf
  rw [hok] at hf
  split at hf
  · cases hf
  · simp only [answer, Focus.commands.injEq] at hf
    have hlast := congrArg List.getLast? hf.2
    simp at hlast

/-- A transfer returns because it was refused, or else with its reservation published. -/
theorem Sound.returns (hm : m.Sound) (h : m.Returns p result calls m') :
    m.Refused p result calls m' ∨ ∃ g, m.Published p result calls m' g := by
  obtain ⟨hf, hs, hsus, polls, standing, events, hanswer⟩ := h
  have h : m.Returns p result calls m' := ⟨hf, hs, hsus, polls, standing, events, hanswer⟩
  have hworks := hm.orderly.works hf
  cases hg : p.transfer.grant with
  | none =>
    left
    have hstart := step_iff.2 (.start hf hg)
    obtain rfl := Option.some.inj (hstart.symm.trans hs)
    unfold start at hanswer ⊢
    dsimp only at hanswer ⊢
    split at hanswer
    · rename_i e hr
      simp only [close, answer, Focus.commands.injEq, true_and, List.append_cancel_left_eq,
        List.cons.injEq, Answer.mk.injEq, Reaction.settled.injEq, and_true] at hanswer
      exact ⟨hg, ⟨e, hr, hanswer.1.1.symm⟩, hanswer.1.2.1.symm, rfl⟩
    · cases hanswer
  | some g =>
    right
    refine ⟨g, ?_⟩
    by_cases hcur : p.current.isSome
    · have hturn := step_iff.2 (.turn hf hg hcur)
      cases hr : p.respond g.direction ((m.session.ring p.transfer.ring).room g) with
      | mk response stream =>
        cases response with
        | answer written reply =>
          cases hh : g.hear reply with
          | mk g' ending? =>
            cases ending? with
            | none =>
              simp only [turn_eq, hr, hear_eq, hh] at hturn
              obtain rfl := Option.some.inj (hturn.symm.trans hs)
              cases hanswer
            | some ending =>
              obtain ⟨rfl, -⟩ := hear_ending hh
              obtain ⟨m₁, hs₁, hend⟩ := hm.reply_ends hf hg hcur hr hh
              obtain rfl := Option.some.inj (hs₁.symm.trans hs)
              exact h.published hg hend
        | perform commands =>
          simp only [turn_eq, hr] at hturn
          obtain rfl := Option.some.inj (hturn.symm.trans hs)
          simp at hsus
        | wait q =>
          simp only [turn_eq, hr] at hturn
          obtain rfl := Option.some.inj (hturn.symm.trans hs)
          exact absurd hanswer (hworks.wait_ne_settled q stream)
    · have hidle := Option.not_isSome_iff_eq_none.1 hcur
      have hoffer := step_iff.2 (.offer hf hg hidle)
      cases hn : p.next m.session g with
      | call polling =>
        simp only [offer, hn] at hoffer
        obtain rfl := Option.some.inj (hoffer.symm.trans hs)
        cases hanswer
      | leave ending =>
        simp only [offer, hn] at hoffer
        obtain rfl := Option.some.inj (hoffer.symm.trans hs)
        have hend := hworks.settle_finishes hg ((hm.steady.focus p hf).leaves hg hn)
        rw [← Ring.receive_nil (m.session.ring p.transfer.ring) g] at hend
        exact h.published hg hend

/-! ## Transfers just asked for -/

/-- The command that asks for a transfer, or polls its task, was the last step; it touched no ring
and called no stream. -/
structure Asks (m₀ : Machine) (p : Passage) (m : Machine) : Prop where
  step : m₀.step = some m
  command : ∃ name action, m₀.focus = .commands (.on name action :: p.todo) p.done ∧
    ((∃ request stream, action = .transfer request stream) ∨
      ∃ id, action = .poll id ∨ action = .run id)
  rings : m.session.rings = m₀.session.rings
  suspended : m.suspended = m₀.suspended
  calls : p.calls = []

theorem asks_obey {name : Nat} {action : Action} {todo : List Command} {done : List Answer}
    (hf : m₀.focus = .commands (.on name action :: todo) done)
    (hp : (m₀.obey name action todo done).focus = .transfer p) :
    m₀.Asks p (m₀.obey name action todo done) := by
  have hs := step_iff.2 (.obey hf)
  have hpoll id again (hp : (m₀.poll name id again todo done).focus = .transfer p)
      (hs : m₀.step = some (m₀.poll name id again todo done))
      (haction : action = .poll id ∨ action = .run id) :
      m₀.Asks p (m₀.poll name id again todo done) := by
    unfold poll at hp hs ⊢
    split at hp <;> rename_i htask
    · cases hp
    · cases hp
      rw [htask] at hs
      exact ⟨hs, ⟨name, _, hf, .inr ⟨id, haction⟩⟩, rfl, rfl, rfl⟩
  cases action with
  | transfer request stream =>
    unfold obey at hp hs ⊢
    dsimp only at hp hs ⊢
    split at hp <;> rename_i hplace
    · cases hp
    · cases hp
      rw [hplace] at hs
      exact ⟨hs, ⟨name, _, hf, .inl ⟨_, _, rfl⟩⟩, rfl, rfl, rfl⟩
  | poll id => exact hpoll id false hp hs (.inl rfl)
  | run id => exact hpoll id true hp hs (.inr rfl)
  | _ => cases hp

/-- A transfer in focus that has not started was asked for in the step before. -/
theorem Sound.asks (hm : m₀.Sound) (hs : m₀.step = some m) (hf : m.focus = .transfer p)
    (hg : p.transfer.grant = none) : m₀.Asks p m := by
  cases step_iff.1 hs with
  | @resume q rest done hf₀ hsus =>
    cases hf
    obtain ⟨hcur, hsteady⟩ := hm.steady.suspended q (by simp [hsus])
    obtain ⟨call, hcall⟩ := Option.isSome_iff_exists.1 hcur
    obtain ⟨g, hg', -⟩ := hsteady.offer call hcall
    cases hg'.symm.trans hg
  | obey hf₀ => exact asks_obey hf₀ hf
  | start hf₀ hg₀ =>
    unfold start at hf
    dsimp only at hf
    split at hf <;> cases hf
    cases hg
  | turn hf₀ hg₀ hcall =>
    rw [turn_eq] at hf
    split at hf
    · unfold hear at hf
      split at hf <;> cases hf
      cases hg
    · cases hf
    · unfold wait at hf
      dsimp only at hf
      split at hf
      · cases hf
        cases hg₀.symm.trans hg
      · split at hf <;> cases hf
  | offer hf₀ hg₀ hidle =>
    unfold offer at hf
    split at hf <;> cases hf
    cases hg₀.symm.trans hg

theorem Roams.asks {tokens : Tokens} {commands : List Command} {place : Nat} {past : List Mark}
    (h : (load tokens commands).Roams place past m) (hf : m.focus = .transfer p)
    (hg : p.transfer.grant = none) :
    ∃ m₀ before, (load tokens commands).Roams place before m₀ ∧ m₀.Asks p m := by
  cases h with
  | refl => cases hf
  | stir h hstir =>
    cases hstir with
    | step hs => exact ⟨_, _, h, h.sound_load.asks hs hf hg⟩
    | scribble hw =>
      -- only a source whose transfer has started is called
      obtain ⟨hf', hg', -, -, -⟩ := hw
      cases hf'.symm.trans hf
      cases hg'.symm.trans hg

/-! ## All commands -/

/-- A command answers with an error at once only if it is an errand that is refused. -/
theorem Sound.obey_refused (hm : m.Sound) {name : Nat} {action : Action} {todo : List Command}
    {done : List Answer} (hf : m.focus = .commands (.on name action :: todo) done)
    (hs : m.step = some m') {e : Error} {destination : Option Bytes}
    {standing : Option Occupancy} {events : List Event}
    (ha : m'.focus = .commands todo
      (done ++ [⟨.done (.error (.error e)) destination, standing, events⟩])) :
    ∃ errand, action = .errand errand ∧ ¬ e.Late ∧ m'.session = m.session ∧
      destination = errand.destination? := by
  obtain rfl := Option.some.inj ((step_iff.2 (.obey hf)).symm.trans hs)
  have hpoll id again : (m.poll name id again todo done).focus ≠ .commands todo
      (done ++ [⟨.done (.error (.error e)) destination, standing, events⟩]) := by
    unfold poll
    split
    · simp [answer]
    · intro hf
      cases hf
  cases action with
  | errand errand =>
    have hreaction : (m.session.errand name errand).reaction
        = .done (.error (.error e)) destination := by
      simp only [obey, apply, answer, Focus.commands.injEq, true_and, List.append_cancel_left_eq,
        List.cons.injEq, Answer.mk.injEq, and_true] at ha
      exact ha.1
    obtain ⟨hearly, hsession, hdestination⟩ := hm.orderly.custody.errand_refused hreaction
    exact ⟨errand, rfl, hearly, hsession, hdestination⟩
  | transfer request stream =>
    unfold obey at ha
    dsimp only at ha
    split at ha
    · simp [answer] at ha
    · cases ha
  | spawn id request stream token =>
    simp only [obey, apply, answer, Session.spawn, Session.onRing, Focus.commands.injEq, true_and,
      List.append_cancel_left_eq, List.cons.injEq, Answer.mk.injEq, and_true] at ha
    obtain ⟨hreaction, -⟩ := ha
    split at hreaction
    · cases hreaction
    · split at hreaction <;> cases hreaction
  | poll id => exact absurd ha (hpoll id false)
  | run id => exact absurd ha (hpoll id true)
  | cancel token => simp [obey, answer] at ha

/-- **Refused operations change nothing.** Wherever commands and unruly sources have led, with or
without transfers under way: a command that answers at once with an error leaves the whole session,
with all rings and tasks, as it was, and shows its destination as it was given. A transfer, polled
or not, that answers with an error that is not late got no reservation; since the command that asked
for it no ring has changed, and its stream was never called. Late errors come from transfers alone
whose reservation was granted and has been published. -/
theorem reachable_refuses {tokens : Tokens} {commands : List Command} {m m' : Machine} {place : Nat}
    {past : List Mark} (h : (load tokens commands).Roams place past m) (hs : m.step = some m') :
    (∀ name action todo done e destination standing events,
      m.focus = .commands (.on name action :: todo) done →
      m'.focus = .commands todo
        (done ++ [⟨.done (.error (.error e)) destination, standing, events⟩]) →
      ¬ e.Late ∧ m'.session = m.session ∧
        ∃ errand, action = .errand errand ∧ destination = errand.destination?) ∧
    ∀ p e calls, m.Returns p (.error (.error e)) calls m' →
      (¬ e.Late → calls = [] ∧ m'.session = m.session ∧
        ∃ m₀ before, (load tokens commands).Roams place before m₀ ∧ m₀.Asks p m ∧
          m'.session.rings = m₀.session.rings) ∧
      (e.Late → ∃ g, m.Published p (.error (.error e)) calls m' g) := by
  refine ⟨?_, ?_⟩
  · intro name action todo done e destination standing events hf ha
    obtain ⟨errand, haction, hearly, hsession, hdestination⟩ :=
      h.sound_load.obey_refused hf hs ha
    exact ⟨hearly, hsession, errand, haction, hdestination⟩
  · intro p e calls hreturns
    rcases h.sound_load.returns hreturns with
      ⟨hg, ⟨e', hr, he⟩, hcalls, hsession⟩ | ⟨g, hpublished⟩
    · obtain rfl : e = e' := by simpa using he
      refine ⟨fun _ => ?_, fun hlate => absurd hlate (Ring.reserve_error hr)⟩
      obtain ⟨m₀, before, h₀, hasks⟩ := h.asks hreturns.focus hg
      exact ⟨hcalls.trans hasks.calls, hsession, m₀, before, h₀, hasks,
        by rw [hsession, hasks.rings]⟩
    · refine ⟨fun hearly => ?_, fun _ => ⟨g, hpublished⟩⟩
      obtain ⟨ending, hverdict⟩ := hpublished.verdict
      exact absurd (Request.verdict_late hverdict.symm) hearly

/-- A sink, while it is called, has a second take asked for, and a put that is too large. -/
def greedySink : List Command :=
  [.on 0 (.errand (.create ⟨4, false, none⟩)), .on 0 (.errand (.operate (.put [1, 2, 3]))),
    .on 0 (.transfer ⟨.send, 2⟩ [.perform [.on 0 (.errand (.operate (.takeInto [9, 9] 1))),
      .on 0 (.transfer ⟨.fill, 5⟩ [.deliver [7]])], .accept 2])]

theorem reachable_refuses_greedySink :
    (∃ standing events, ((load .plain greedySink).after 7).answers =
      [⟨.done (.error (.error (.operationInProgress .take))) (some [9, 9]), standing, events⟩] ∧
      ((load .plain greedySink).after 7).session = ((load .plain greedySink).after 6).session) ∧
    ∃ m₀ : Machine, m₀.step = some ((load .plain greedySink).after 8) ∧
      ((load .plain greedySink).after 9).session.rings = m₀.session.rings := by
  obtain ⟨hdone, -⟩ := reachable_refuses (passes_after (load .plain greedySink) 0 6).roams rfl
  obtain ⟨-, hover⟩ := reachable_refuses (passes_after (load .plain greedySink) 0 8).roams rfl
  refine ⟨⟨_, _, rfl, (hdone 0 _ _ [] _ _ _ _ rfl rfl).2.1⟩, ?_⟩
  obtain ⟨-, -, m₀, -, -, hasks, hrings⟩ :=
    (hover _ (.capacityExceeded 5 4) [] ⟨rfl, rfl, rfl, _, _, _, rfl⟩).1 id
  exact ⟨m₀, hasks.step, hrings⟩

end Machine

end CyclicBuffer
