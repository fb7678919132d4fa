import CyclicBuffer.Proofs.Journal
import CyclicBuffer.Proofs.Unruly

/-!
# The trace

The journal of a session, step by step. Each step notes what it does to one ring, behind all that
was noted before (`Sound.step_traces`). So each commit comes behind its reservation, and with it
the length of the ring changes by what it publishes; a transfer that returns with less than it
reserved has said so in one warning of its own, but for a fill whose source ended; and what is
refused leaves no event (`reachable_traced`).
-/

namespace CyclicBuffer

namespace Machine

variable {m m' : Machine} {p : Passage} {g : Grant} {ending : Ending} {events : List Event}

/-! ## Transfers that settle -/

/-- The transfer in focus settles with the next step: it commits what it has moved, between the
warnings of its verdict, and answers with these events as its own. -/
structure Settles (m : Machine) (p : Passage) (g : Grant) (ending : Ending) (events : List Event)
    (m' : Machine) : Prop where
  focus : m.focus = .transfer p
  grant : p.transfer.grant = some g
  suspended : m'.suspended = m.suspended
  commit : (m.session.ring p.transfer.ring).commit g = .ok (m'.session.ring p.transfer.ring, events)
  complete : ending = .complete ↔ g.remaining = 0
  exhausted : ending = .exhausted ↔ ∃ offer written,
    .replied g.direction offer written (.moved 0) ∈ m.marks p.transfer.ring
  journal : m'.session.journal = m.session.journal
    ++ ((p.transfer.request.verdict g.moved ending).noted events).map fun e => (p.transfer.ring, e)
  answer : ∃ calls polls standing, m'.focus = .commands p.todo (p.done ++
    [⟨.settled ((p.transfer.request.verdict g.moved ending).result.map Value.ofCount) calls polls,
      standing, p.events ++ (p.transfer.request.verdict g.moved ending).noted events⟩])

/-- What a transfer that settles leaves behind. -/
theorem Works.settle_leaves (h : m.Works p) (hg : p.transfer.grant = some g)
    (hl : p.Leaves g ending) {ring : Ring}
    (hc : (m.session.ring p.transfer.ring).commit g = .ok (ring, events)) :
    let verdict := p.transfer.request.verdict g.moved ending
    (m.settle p g ending).session.ring p.transfer.ring = ring ∧
    (m.settle p g ending).session.journal
      = m.session.journal ++ (verdict.noted events).map (fun e => (p.transfer.ring, e)) ∧
    ∃ standing, (m.settle p g ending).focus = .commands p.todo (p.done ++
      [⟨.settled (verdict.result.map Value.ofCount) p.calls p.shownPolls, standing,
        p.events ++ verdict.noted events⟩]) := by
  have hknown := (h.custody.fits _ (List.mem_cons_self ..)).known
  simp only [Machine.settle, Ring.settle_ok hc, h.verdict_eq hg hl]
  exact ⟨Session.ring_update_self _ hknown .., rfl, _, rfl⟩

/-- A transfer settles between two calls if it is complete or cancelled. -/
theorem Sound.settles_between (hm : m.Sound) (hf : m.focus = .transfer p)
    (hg : p.transfer.grant = some g) (hidle : p.current = none)
    (hn : p.next m.session g = .leave ending) :
    ∃ events, m.Settles p g ending events (m.offer p g) := by
  have hworks := hm.orderly.works hf
  have hst := hm.steady.focus p hf
  obtain ⟨ring, events, hc⟩ := Ring.commit_of_held (hworks.custody.held_eq hg)
  obtain ⟨hring, hjournal, standing, hfocus⟩ := hworks.settle_leaves hg (hst.leaves hg hn) hc
  have hoffer : m.offer p g = m.settle p g ending := by simp only [offer, hn]
  obtain ⟨hcomplete, hne⟩ : (ending = .complete ↔ g.remaining = 0) ∧ ending ≠ .exhausted := by
    rcases hst.next_leave hg hn with ⟨rfl, hnone⟩ | ⟨rfl, hmore, -⟩
    · simp [hnone]
    · simp [hmore]
  have hmarks : m.marks p.transfer.ring
      = [(m.session.ring p.transfer.ring).finished g (some ending)] := by
    simp [marks, hf, Passage.marks, Passage.parks?, hg, hidle, hn, marksAt]
  rw [hoffer]
  refine ⟨events, hf, hg, rfl, hring.symm ▸ hc, hcomplete, ?_, hjournal, p.calls, _, standing,
    hfocus⟩
  -- no call is answered between two calls
  rw [hmarks]
  refine ⟨fun he => absurd he hne, ?_⟩
  rintro ⟨offer, written, hmem⟩
  exact absurd (List.mem_singleton.1 hmem).symm (Ring.finished_ne_replied _ _ _ _ _ _ _)

/-- A transfer settles with a reply that ends it. -/
theorem Sound.settles_replied (hm : m.Sound) (hf : m.focus = .transfer p)
    (hg : p.transfer.grant = some g) (hcall : p.current.isSome) {written : Bytes} {reply : Reply}
    {stream : List Turn}
    (hr : p.respond g.direction ((m.session.ring p.transfer.ring).room g)
      = (.answer written reply, stream)) (hh : g.hear reply = (g, some ending)) :
    ∃ events, m.Settles p g ending events (m.turn p g) := by
  have hworks := hm.orderly.works hf
  have hstream := (hworks.withStream stream).1
  have hclosed : m.Works (p.withStream stream).closeCall :=
    ⟨hstream.custody, hstream.calm.closeCall, hstream.suspended⟩
  obtain ⟨hmore, -⟩ := (hm.steady.focus p hf).in_call hg hcall
  obtain ⟨-, hne⟩ := hear_ending hh
  obtain rfl := Passage.respond_ends hr hh
  obtain ⟨ring, events, hc⟩ := Ring.commit_of_held (hworks.custody.held_eq hg)
  obtain ⟨hring, hjournal, standing, hfocus⟩ :=
    hclosed.settle_leaves hg (hear_leaves hh hmore) hc
  have hturn : m.turn p g = m.settle (p.withStream stream).closeCall g ending := by
    simp only [turn_eq, hr, Ring.receive_nil, Session.update_ring, hear_eq, hh]
  have hmarks : m.marks p.transfer.ring
      = [.replied g.direction ((m.session.ring p.transfer.ring).offer g) [] reply,
        (m.session.ring p.transfer.ring).finished g (some ending)] := by
    simp [marks, hf, Passage.marks, Passage.parks?, hg, hcall, hr, marksAt, Ring.answered, hh]
  rw [hturn]
  refine ⟨events, hf, hg, rfl, hring.symm ▸ hc, by simp [hne, hmore], ?_, hjournal, _, _, standing,
    hfocus⟩
  rw [hmarks, hear_exhausted hh]
  constructor
  · rintro rfl
    exact ⟨_, _, List.mem_cons_self ..⟩
  · rintro ⟨offer, written, hmem⟩
    rcases List.mem_cons.1 hmem with he | hmem
    · cases he
      rfl
    · exact absurd (List.mem_singleton.1 hmem).symm (Ring.finished_ne_replied _ _ _ _ _ _ _)

/-- A transfer that returns when it settles returns with the verdict. -/
theorem Settles.answers (h : m.Settles p g ending events m') {q : Passage}
    {result : Except Failure Value} {calls : List (Call Answer)}
    (hr : m.Returns q result calls m') :
    q = p ∧ result = (p.transfer.request.verdict g.moved ending).result.map Value.ofCount ∧
      ∃ polls standing, m'.focus = .commands p.todo (p.done ++ [⟨.settled result calls polls,
        standing, p.events ++ (p.transfer.request.verdict g.moved ending).noted events⟩]) := by
  obtain rfl : q = p := by
    cases hr.focus.symm.trans h.focus
    rfl
  obtain ⟨calls', polls, standing, hfocus⟩ := h.answer
  obtain ⟨_, _, _, hfocus'⟩ := hr.answer
  have hsame := hfocus.symm.trans hfocus'
  simp only [Focus.commands.injEq, true_and, List.append_cancel_left_eq, List.cons.injEq,
    Answer.mk.injEq, Reaction.settled.injEq, and_true] at hsame
  obtain ⟨⟨rfl, rfl, rfl⟩, -⟩ := hsame
  exact ⟨rfl, rfl, _, _, hfocus⟩

/-! ## What a step notes -/

/-- A command notes what it does to one ring. -/
theorem obey_adds (h : Custody m.session m.back) (name : Nat) (action : Action)
    (todo : List Command) (done : List Answer) :
    ∃ place events, m.session.Adds place events (m.obey name action todo done).session := by
  have hnothing {s : Session} (hs : s.journal = m.session.journal) :
      ∃ place events, m.session.Adds place events s := ⟨0, [], Session.adds_nothing hs⟩
  have hpoll id again : ∃ place events,
      m.session.Adds place events (m.poll name id again todo done).session := by
    unfold poll
    split <;> exact hnothing rfl
  cases action with
  | errand e => exact Session.errand_adds h name e
  | transfer request stream =>
    unfold obey
    dsimp only
    split <;> exact hnothing rfl
  | spawn id request stream token => exact Session.spawn_adds h name id request stream token
  | poll id => exact hpoll id false
  | run id => exact hpoll id true
  | cancel token => exact hnothing rfl

/-- A transfer that is made to wait may let a task go, whose name it takes. -/
theorem Works.wait_adds (h : m.Works p) (q : Polling) :
    ∃ place events, m.session.Adds place events (m.wait p q).session := by
  have hcustody : Custody m.session
      ((p.transfer :: m.suspended.map fun p => p.transfer) ++ m.session.waiting) := h.custody
  unfold Machine.wait
  dsimp only
  split
  · exact ⟨0, [], Session.adds_nothing rfl⟩
  · split
    · exact ⟨0, [], Session.adds_nothing rfl⟩
    · rename_i hadd
      obtain ⟨place, hadds⟩ := Session.addTask_adds hcustody hadd
      exact ⟨place, _, hadds⟩

/-- In each step the transfer in focus settles, or no transfer that has started returns and what is
noted is no verdict. -/
theorem Sound.step_notes (hm : m.Sound) (hs : m.step = some m') :
    (∃ p g ending events, m.Settles p g ending events m') ∨
      (∀ p result calls, m.Returns p result calls m' → p.transfer.grant = none) ∧
        ∃ place events, m.session.Adds place events m'.session := by
  have hnothing : ∃ place events, m.session.Adds place events m.session :=
    ⟨0, [], Session.adds_nothing rfl⟩
  cases step_iff.1 hs with
  | resume hf hsus =>
    refine .inr ⟨fun q result calls hr => ?_, hnothing⟩
    cases hr.focus.symm.trans hf
  | obey hf =>
    refine .inr ⟨fun q result calls hr => ?_, obey_adds ?_ ..⟩
    · cases hr.focus.symm.trans hf
    · have hcustody := hm.orderly.custody
      simpa only [transfers, hf, Focus.transfers, List.nil_append] using hcustody
  | @start p hf hg =>
    refine .inr ⟨fun q result calls hr => ?_, ?_⟩
    · cases hr.focus.symm.trans hf
      exact hg
    · have hknown := ((hm.orderly.works hf).custody.fits _ (List.mem_cons_self ..)).known
      unfold start
      dsimp only
      split
      · exact hnothing
      · rename_i hr
        exact ⟨_, _, Session.adds_update hknown (.reserve hr)⟩
  | @turn p g hf hg hcall =>
    have hworks := hm.orderly.works hf
    cases hr : p.respond g.direction ((m.session.ring p.transfer.ring).room g) with
    | mk response stream =>
      cases response with
      | answer written reply =>
        cases hh : g.hear reply with
        | mk g' ending? =>
          cases ending? with
          | some ending =>
            obtain ⟨rfl, -⟩ := hear_ending hh
            obtain ⟨events, hsettles⟩ := hm.settles_replied hf hg hcall hr hh
            exact .inl ⟨p, g', ending, events, hsettles⟩
          | none =>
            refine .inr ⟨fun q result calls hret => ?_, ?_⟩
            · obtain ⟨_, _, _, hanswer⟩ := hret.answer
              simp only [turn_eq, hr, hear_eq, hh] at hanswer
              cases hanswer
            · simp only [turn_eq, hr, hear_eq, hh]
              exact ⟨0, [], Session.adds_nothing (List.append_nil _)⟩
      | perform commands =>
        refine .inr ⟨fun q result calls hret => ?_, ?_⟩
        · have hsus := hret.suspended
          simp [turn_eq, hr] at hsus
        · simp only [turn_eq, hr]
          exact hnothing
      | wait polling =>
        refine .inr ⟨fun q result calls hret => ?_, ?_⟩
        · obtain ⟨_, _, _, hanswer⟩ := hret.answer
          simp only [turn_eq, hr] at hanswer
          exact absurd hanswer (hworks.wait_ne_settled polling stream)
        · simp only [turn_eq, hr]
          exact (hworks.withStream stream).1.wait_adds polling
  | @offer p g hf hg hidle =>
    cases hn : p.next m.session g with
    | leave ending =>
      obtain ⟨events, hsettles⟩ := hm.settles_between hf hg hidle hn
      exact .inl ⟨p, g, ending, events, hsettles⟩
    | call polling =>
      refine .inr ⟨fun q result calls hret => ?_, ?_⟩
      · obtain ⟨_, _, _, hanswer⟩ := hret.answer
        simp only [offer, hn] at hanswer
        cases hanswer
      · simp only [offer, hn]
        exact hnothing

/-- A command that fails at once leaves the session as it was, and reports nothing. -/
theorem Sound.obey_failed (hm : m.Sound) {name : Nat} {action : Action} {todo : List Command}
    {done : List Answer} (hf : m.focus = .commands (.on name action :: todo) done)
    (hs : m.step = some m') {f : Failure} {destination : Option Bytes}
    {standing : Option Occupancy} {own : List Event}
    (ha : m'.focus = .commands todo
      (done ++ [⟨.done (.error f) destination, standing, own⟩])) :
    m'.session = m.session ∧ own = [] := by
  obtain rfl := Option.some.inj ((step_iff.2 (.obey hf)).symm.trans hs)
  have hpoll id again : (m.poll name id again todo done).focus ≠ .commands todo
      (done ++ [⟨.done (.error f) destination, standing, own⟩]) := by
    unfold poll
    split
    · simp [answer]
    · intro hf
      cases hf
  cases action with
  | errand errand =>
    simp only [obey, apply, answer, Focus.commands.injEq, true_and, List.append_cancel_left_eq,
      List.cons.injEq, Answer.mk.injEq, and_true] at ha
    obtain ⟨hsession, hevents⟩ := Session.errand_failed hm.orderly.custody ha.1
    exact ⟨hsession, ha.2.2.symm.trans hevents⟩
  | transfer request stream =>
    unfold obey at ha
    dsimp only at ha
    split at ha
    · simp [answer] at ha
    · cases ha
  | spawn id request stream token =>
    simp only [obey, apply, answer, Focus.commands.injEq, true_and, List.append_cancel_left_eq,
      List.cons.injEq, Answer.mk.injEq, and_true] at ha
    obtain ⟨hsession, hevents⟩ := Session.spawn_failed ha.1
    exact ⟨hsession, ha.2.2.symm.trans hevents⟩
  | poll id => exact absurd ha (hpoll id false)
  | run id => exact absurd ha (hpoll id true)
  | cancel token => simp [obey, answer] at ha

end Machine

/-! ## Events of a transfer on its way -/

/-- A transfer that is on its way has not warned, and has reported nothing before it has started. -/
structure Passage.Plain (p : Passage) : Prop where
  quiet : warnings p.events = []
  fresh : p.transfer.grant = none → p.events = []

theorem Passage.Plain.same {p p' : Passage} (h : p.Plain) (he : p'.events = p.events)
    (hg : p'.transfer.grant = none → p.transfer.grant = none) : p'.Plain :=
  ⟨he ▸ h.quiet, fun hnone => he.trans (h.fresh (hg hnone))⟩

theorem Passage.plain_nil {p : Passage} (h : p.events = []) : p.Plain :=
  ⟨by rw [h]; rfl, fun _ => h⟩

namespace Machine

structure Plain (m : Machine) : Prop where
  focus : ∀ p, m.focus = .transfer p → p.Plain
  suspended : ∀ p ∈ m.suspended, p.Plain

variable {m m' : Machine} {p : Passage} {g : Grant} {origin : Nat} {marks : List Mark}

theorem plain_load (tokens : Tokens) (commands : List Command) : (load tokens commands).Plain :=
  ⟨by rintro _ ⟨⟩, by simp [load]⟩

theorem Plain.obey (h : m.Plain) (name : Nat) (action : Action) (todo : List Command)
    (done : List Answer) : (m.obey name action todo done).Plain := by
  have hfresh {s : Session} {t : Transfer} {polling : Option Polling} :
      ({ m with session := s }.drive ⟨t, polling, [], none, [], todo, done⟩).Plain := by
    refine ⟨?_, h.suspended⟩
    rintro _ ⟨⟩
    exact Passage.plain_nil rfl
  have hpoll id again : (m.poll name id again todo done).Plain := by
    unfold poll
    split
    · exact ⟨by rintro _ ⟨⟩, h.suspended⟩
    · exact hfresh
  cases action with
  | transfer request stream =>
    unfold Machine.obey
    dsimp only
    split
    · exact ⟨by rintro _ ⟨⟩, h.suspended⟩
    · exact hfresh
  | poll id => exact hpoll id false
  | run id => exact hpoll id true
  | cancel token =>
    refine ⟨by rintro _ ⟨⟩, fun q hq => ?_⟩
    obtain ⟨q', hq', rfl⟩ := List.mem_map.1 hq
    exact (h.suspended q' hq').same rfl id
  | _ => exact ⟨by rintro _ ⟨⟩, h.suspended⟩

theorem Plain.hear (h : m.Plain) (hp : p.Plain) (g : Grant) (reply : Reply) :
    (m.hear p g reply).Plain := by
  unfold Machine.hear
  split
  · refine ⟨?_, h.suspended⟩
    rintro _ ⟨⟩
    exact hp.same rfl (by simp [Passage.withGrant])
  · exact ⟨by rintro _ ⟨⟩, h.suspended⟩

/-- All steps keep transfers plain. -/
theorem Plain.step (h : m.Plain) (hs : m.step = some m') : m'.Plain := by
  cases step_iff.1 hs with
  | @resume p rest done hf hsus =>
    refine ⟨?_, fun q hq => h.suspended q (by simp [hsus, show q ∈ rest from hq])⟩
    rintro _ ⟨⟩
    exact (h.suspended p (by simp [hsus])).same rfl id
  | obey hf => exact h.obey ..
  | @start p hf hg =>
    unfold start
    dsimp only
    split
    · exact ⟨by rintro _ ⟨⟩, h.suspended⟩
    · rename_i hr
      refine ⟨?_, h.suspended⟩
      rintro _ ⟨⟩
      refine ⟨?_, by simp [Passage.withGrant]⟩
      rw [warnings_append, (h.focus p hf).quiet, Ring.warnings_reserve hr]
      rfl
  | @turn p g hf hg hcall =>
    have hp := h.focus p hf
    rw [turn_eq]
    split
    · refine Plain.hear ⟨?_, ?_⟩ ?_ g _
      · exact h.focus
      · exact h.suspended
      · exact hp.same rfl id
    · refine ⟨by rintro _ ⟨⟩, List.forall_mem_cons.2 ⟨hp.same rfl id, h.suspended⟩⟩
    · unfold wait
      dsimp only
      split
      · refine ⟨?_, h.suspended⟩
        rintro _ ⟨⟩
        exact hp.same rfl id
      · split <;> exact ⟨by rintro _ ⟨⟩, h.suspended⟩
  | @offer p g hf hg hidle =>
    unfold offer
    split
    · exact ⟨by rintro _ ⟨⟩, h.suspended⟩
    · refine ⟨?_, h.suspended⟩
      rintro _ ⟨⟩
      exact (h.focus p hf).same rfl id

theorem Roams.plain (h : m.Roams origin marks m') (hm : m.Plain) : m'.Plain := by
  induction h with
  | refl => exact hm
  | stir _ hstir ih =>
    cases hstir with
    | step hs => exact ih.step hs
    | scribble hw =>
      cases hw
      exact ⟨ih.focus, ih.suspended⟩

/-! ## What is reported -/

/-- With the next step a fill hears from its source that it is at its end. -/
def RunsDry (m : Machine) (p : Passage) : Prop :=
  p.transfer.request.purpose = .fill ∧
    ∃ offer written, .replied .put offer written (.moved 0) ∈ m.marks p.transfer.ring

/-- A transfer that returns has its commit among the events, with the number of bytes that it has
published. If that is less than it reserved, one of them is a warning that says so, unless it is a
fill whose source ran dry. The transfer answers with these warnings and no others. -/
structure Reported (m : Machine) (p : Passage) (g : Grant) (published : Nat)
    (events own : List Event) : Prop where
  committed : .committed g.direction g.region.count published ∈ events
  published_le : published ≤ g.region.count
  short : published < g.region.count → ¬ m.RunsDry p →
    ∃ w, warnings events = [w] ∧ w.details.lookup "transferred" = some (.count published)
  silent : published = g.region.count ∨ m.RunsDry p → warnings events = []
  own : warnings own = warnings events

/-- What a step notes of the ring at a place. -/
structure Traces (m : Machine) (place : Nat) (events : List Event) (m' : Machine) : Prop where
  /-- It comes behind all that was noted before. -/
  journal : m'.session.journal = m.session.journal ++ events.map fun e => (place, e)
  /-- A commit changes the length of the ring by what it publishes. -/
  lengths : Accounts (m.session.ring place).length events (m'.session.ring place).length
  /-- A transfer that had started and returns without a fault is reported. -/
  returns : ∀ p result calls g, m.Returns p result calls m' → p.transfer.grant = some g →
    (∀ f, result ≠ .error (.fault f)) →
    p.transfer.ring = place ∧ ∃ polls standing own,
      m'.focus = .commands p.todo (p.done ++ [⟨.settled result calls polls, standing, own⟩]) ∧
      m.Reported p g ((m.session.ring place).published (m'.session.ring place) g.direction)
        events own
  /-- Nothing else warns. -/
  quiet : warnings events ≠ [] → ∃ p result calls g, m.Returns p result calls m' ∧
    p.transfer.grant = some g ∧ ∀ f, result ≠ .error (.fault f)
  /-- A command that fails at once leaves no event. -/
  failed : ∀ name action todo done f destination standing own,
    m.focus = .commands (.on name action :: todo) done →
    m'.focus = .commands todo (done ++ [⟨.done (.error f) destination, standing, own⟩]) →
    events = [] ∧ own = []
  /-- Neither does a transfer that returns without its reservation. -/
  refused : ∀ p result calls, m.Returns p result calls m' → p.transfer.grant = none →
    events = [] ∧ ∃ e polls standing, result = .error (.error e) ∧
      m'.focus = .commands p.todo (p.done ++ [⟨.settled result calls polls, standing, []⟩])

/-- A transfer that settles without a fault is reported. -/
theorem Sound.reported (hm : m.Sound) (hplain : m.Plain) {ending : Ending} {events : List Event}
    (h : m.Settles p g ending events m') (hfault : ∀ f, ending ≠ .fault f) :
    m.Reported p g ((m.session.ring p.transfer.ring).published
        (m'.session.ring p.transfer.ring) g.direction)
      ((p.transfer.request.verdict g.moved ending).noted events)
      (p.events ++ (p.transfer.request.verdict g.moved ending).noted events) := by
  have hworks := hm.orderly.works h.focus
  have hfits := hworks.custody.fits _ (List.mem_cons_self ..)
  have hle := hfits.moved_le g h.grant
  have hpublishes := (hworks.custody.sound hfits.known).publishes (hworks.custody.held_eq h.grant)
    hle h.commit
  have hwarnings := Ring.warnings_noted h.commit (p.transfer.request.verdict g.moved ending)
  have hdry : m.RunsDry p ↔ ending = .exhausted ∧ p.transfer.request.purpose = .fill := by
    rw [h.exhausted, hfits.direction g h.grant, RunsDry, and_comm]
    refine and_congr_left fun hfill => ?_
    rw [hfill]
    rfl
  have hcomplete : ending = .complete ↔ g.moved = g.region.count := by
    rw [h.complete, Grant.remaining]
    omega
  obtain ⟨hsilent, hshort⟩ := p.transfer.request.warnings_verdict g.moved hfault
  rw [hpublishes.published_eq]
  refine ⟨?_, hle, fun hlt hnot => ?_, fun hover => ?_, ?_⟩
  · obtain ⟨_, -, -, hevents⟩ := Ring.commit_ok h.commit
    simp [Verdict.noted, hevents]
  · rw [hwarnings]
    refine hshort ?_
    rw [hcomplete, ← hdry]
    rintro (heq | hruns)
    · omega
    · exact hnot hruns
  · rw [hwarnings]
    exact hsilent (by rwa [hcomplete, ← hdry])
  · rw [warnings_append, (hplain.focus p h.focus).quiet, List.nil_append]

theorem map_note_eq_nil {events : List Event} {place : Nat}
    (hjournal : m'.session.journal = m.session.journal ++ events.map fun e => (place, e))
    (hsession : m'.session = m.session) : events = [] := by
  rw [hsession] at hjournal
  simpa using hjournal

/-- A transfer that is refused has reported nothing. -/
theorem Sound.refused_silent (hm : m.Sound) (hplain : m.Plain) {result : Except Failure Value}
    {calls : List (Call Answer)} (hr : m.Returns p result calls m')
    (hnone : p.transfer.grant = none) :
    m'.session = m.session ∧ ∃ e polls standing, result = .error (.error e) ∧
      m'.focus = .commands p.todo (p.done ++ [⟨.settled result calls polls, standing, []⟩]) := by
  rcases hm.returns hr with hrefused | ⟨g, hpublished⟩
  · obtain ⟨e, herror, rfl⟩ := hrefused.error
    obtain rfl := hrefused.calls
    obtain rfl := Option.some.inj ((step_iff.2 (.start hr.focus hnone)).symm.trans hr.step)
    have hfresh := (hplain.focus p hr.focus).fresh hnone
    refine ⟨hrefused.session, e, p.shownPolls, m.session.standing? p.transfer.name, rfl, ?_⟩
    simp only [start, herror, close, answer, hfresh, List.append_nil]
  · cases hnone.symm.trans hpublished.grant

/-- Every step is traced. -/
theorem Sound.step_traces (hm : m.Sound) (hplain : m.Plain) (hs : m.step = some m') :
    ∃ place events, m.Traces place events m' := by
  have hfailed {place : Nat} {events : List Event}
      (hjournal : m'.session.journal = m.session.journal ++ events.map fun e => (place, e)) :
      ∀ name action todo done f destination standing own,
        m.focus = .commands (.on name action :: todo) done →
        m'.focus = .commands todo (done ++ [⟨.done (.error f) destination, standing, own⟩]) →
        events = [] ∧ own = [] := by
    intro name action todo done f destination standing own hf ha
    obtain ⟨hsession, hown⟩ := hm.obey_failed hf hs ha
    exact ⟨map_note_eq_nil hjournal hsession, hown⟩
  have hrefused {place : Nat} {events : List Event}
      (hjournal : m'.session.journal = m.session.journal ++ events.map fun e => (place, e)) :
      ∀ p result calls, m.Returns p result calls m' → p.transfer.grant = none →
        events = [] ∧ ∃ e polls standing, result = .error (.error e) ∧
          m'.focus =
            .commands p.todo (p.done ++ [⟨.settled result calls polls, standing, []⟩]) := by
    intro p result calls hr hnone
    obtain ⟨hsession, hanswer⟩ := hm.refused_silent hplain hr hnone
    exact ⟨map_note_eq_nil hjournal hsession, hanswer⟩
  rcases hm.step_notes hs with ⟨p, g, ending, events, hsettles⟩ | ⟨hidle, place, events, hadds⟩
  · have hworks := hm.orderly.works hsettles.focus
    have hfits := hworks.custody.fits _ (List.mem_cons_self ..)
    obtain ⟨calls, polls, standing, hanswer⟩ := hsettles.answer
    refine ⟨p.transfer.ring, _, hsettles.journal, ?_, ?_, ?_, hfailed hsettles.journal,
      hrefused hsettles.journal⟩
    · exact (hworks.custody.sound hfits.known).accounts_commit
        (hworks.custody.held_eq hsettles.grant) (hfits.moved_le g hsettles.grant) hsettles.commit
        (p.transfer.request.verdict_level g.moved ending)
    · intro q result calls' g' hr hg' hnot
      obtain ⟨rfl, rfl, polls', standing', hanswer'⟩ := hsettles.answers hr
      obtain rfl : g' = g := Option.some.inj (hg'.symm.trans hsettles.grant)
      have hfault f (he : ending = .fault f) : False :=
        hnot f ((q.transfer.request.verdict_fault_iff g'.moved ending f).2 he)
      exact ⟨rfl, polls', standing', _, hanswer', hm.reported hplain hsettles hfault⟩
    · intro hwarns
      have hfault f (he : ending = .fault f) : False := by
        subst he
        exact hwarns (Ring.warnings_noted hsettles.commit _)
      refine ⟨p, _, calls, g, ⟨hsettles.focus, hs, hsettles.suspended, polls, standing, _, hanswer⟩,
        hsettles.grant, fun f he => hfault f ?_⟩
      exact (p.transfer.request.verdict_fault_iff g.moved ending f).1 he
  · refine ⟨place, events, hadds.journal, hadds.notes.accounts, ?_, ?_, hfailed hadds.journal,
      hrefused hadds.journal⟩
    · intro p result calls g hr hg
      cases (hidle p result calls hr).symm.trans hg
    · exact fun hwarns => absurd hadds.notes.quiet hwarns

/-- What a journal holds was noted by a step, where it stands. -/
theorem Roams.noted {tokens : Tokens} {commands : List Command}
    (h : (load tokens commands).Roams origin marks m) :
    ∀ entry ∈ m.session.journal, ∃ m₁ m₂ place events past rest,
      (load tokens commands).Roams origin past m₁ ∧ m₁.step = some m₂ ∧ m₁.Traces place events m₂ ∧
      entry ∈ events.map (fun e => (place, e)) ∧
      m.session.journal = m₂.session.journal ++ rest := by
  induction h with
  | refl => exact fun entry he => absurd he List.not_mem_nil
  | @stir past more m₁ m₂ hroams hstir ih =>
    intro entry he
    cases hstir with
    | step hs =>
      have hplain := hroams.plain (plain_load tokens commands)
      obtain ⟨place, events, htraces⟩ := hroams.sound_load.step_traces hplain hs
      have hjournal := htraces.journal
      rw [hjournal] at he
      rcases List.mem_append.1 he with hold | hnew
      · obtain ⟨m₃, m₄, place', events', past', rest, h₃, hs₃, ht₃, hmem, hrest⟩ := ih entry hold
        refine ⟨m₃, m₄, place', events', past', rest ++ events.map (fun e => (place, e)), h₃, hs₃,
          ht₃, hmem, ?_⟩
        rw [hjournal, hrest, List.append_assoc]
      · exact ⟨m₁, m₂, place, events, past, [], hroams, hs, htraces, hnew,
          (List.append_nil _).symm⟩
    | scribble hw =>
      cases hw
      have hsame : ∀ (s : Session) q r, (s.update q r []).journal = s.journal :=
        fun s q r => List.append_nil s.journal
      rw [hsame] at he ⊢
      exact ih entry he

/-- **The trace is an account.** Wherever commands and unruly sources have led, in each direction of
each ring reservations and commits take turns, beginning with a reservation, and a commit repeats
what was reserved and counts no more than that; only a transfer under way still has its commit to
come. Every step notes its events behind all others, and every event of the journal was noted by
such a step. With a commit the length of the ring changes by what was published, beside what was
discarded to make room. A transfer that had its reservation and returns without a fault warns once,
with the number of bytes that it published, if these are fewer than it reserved and it is no fill
whose source was at its end; nothing else warns. What is refused leaves no event. -/
theorem reachable_traced {tokens : Tokens} {commands : List Command}
    (h : (load tokens commands).Roams origin marks m) :
    (∀ place d, Ledger d (m.session.ledger place d) (m.grants place d) ∧
      (m.grants place d).length ≤ 1) ∧
    (∀ m', m.step = some m' → ∃ place events, m.Traces place events m') ∧
    ∀ entry ∈ m.session.journal, ∃ m₁ m₂ place events past rest,
      (load tokens commands).Roams origin past m₁ ∧ m₁.step = some m₂ ∧ m₁.Traces place events m₂ ∧
      entry ∈ events.map (fun e => (place, e)) ∧
      m.session.journal = m₂.session.journal ++ rest := by
  have hm := h.sound_load
  refine ⟨fun place d => ⟨hm.orderly.ledger place d, hm.orderly.custody.length_grants place d⟩,
    fun m' hs => ?_, h.noted⟩
  exact hm.step_traces (h.plain (plain_load tokens commands)) hs

/-- A sink takes one of two bytes and fails. -/
def failingSink : List Command :=
  [.on 0 (.errand (.create ⟨4, false, none⟩)), .on 0 (.errand (.operate (.put [1, 2, 3]))),
    .on 0 (.transfer ⟨.send, 2⟩ [.accept 1, .fail (.bare .brokenPipe)])]

theorem reachable_traced_failingSink :
    Ledger .take (((load .plain failingSink).after 7).session.ledger 0 .take) [⟨.take, ⟨0, 2⟩, 1⟩] ∧
    ∃ place events w, ((load .plain failingSink).after 8).session.journal
        = ((load .plain failingSink).after 7).session.journal ++ events.map (fun e => (place, e)) ∧
      warnings events = [w] ∧ w.details.lookup "transferred" = some (.count 1) := by
  obtain ⟨hledger, hsteps, -⟩ := reachable_traced (passes_after (load .plain failingSink) 0 7).roams
  obtain ⟨place, events, htraces⟩ := hsteps ((load .plain failingSink).after 8) rfl
  obtain ⟨rfl, _, _, _, -, hreported⟩ := htraces.returns _
    (.error (.error (.stream (.bare .brokenPipe)))) _ ⟨.take, ⟨0, 2⟩, 1⟩
    ⟨rfl, rfl, rfl, _, _, _, rfl⟩ rfl (by simp)
  obtain ⟨w, hw, hcount⟩ := hreported.short (by decide +kernel) fun hdry => by cases hdry.1
  exact ⟨(hledger 0 .take).1, _, events, w, htraces.journal, hw, hcount⟩

end Machine

end CyclicBuffer
