import CyclicBuffer.Proofs.Replay
import CyclicBuffer.Proofs.Unruly
import Mathlib.Control.Monad.Basic

/-!
# Work in opposite directions, one after the other

While a transfer is under way on a ring that does not overwrite, others put and take in the opposite
direction, in the calls of its stream or between its polls. All of them could as well be done first,
in the same order, and the transfer afterwards (`reachable_serialises`).

The transfer is asked for and polled by commands of its own (`Crossing.opening`); a schedule goes on
with further polls and with commands that cross it. Each command of the schedule comes to its answer
(`Crossing.advances`), until the transfer is over (`Crossing.lasts`).
-/

namespace CyclicBuffer

/-! ## The opening -/

namespace Handle

/-- Makes a task of a transfer. -/
def spawn (h : Handle) (name : Nat) (request : Request) (stream : List Turn) : Command :=
  .on name (.spawn h.task request stream h.token)

/-- Cancels the token before the task is polled. -/
def cancels (h : Handle) : List Command := h.early.map fun name => .on name (.cancel h.token)

/-- The first poll. -/
def poll (h : Handle) : Command := .on h.name (.goOn h.task h.again)

end Handle

namespace Crossing

/-- The commands before the transfer is started: those that make it a task. -/
def overture (c : Crossing) (stream : List Turn) : List Command :=
  match c.polled with
  | none => []
  | some handle => handle.spawn c.name c.request stream :: handle.cancels

/-- The command that starts the transfer. -/
def entrance (c : Crossing) (stream : List Turn) : Command :=
  match c.polled with
  | none => .on c.name (.transfer c.request stream)
  | some handle => handle.poll

/-- The commands that set the transfer going. -/
def opening (c : Crossing) (stream : List Turn) : List Command :=
  c.overture stream ++ [c.entrance stream]

/-- The transfer before it has started. -/
def asked (c : Crossing) (stream : List Turn) (todo : List Command) (done : List Answer) :
    Passage :=
  ⟨⟨c.name, c.place, c.request, stream, none⟩,
    c.polled.map fun handle => ⟨handle.task, handle.token, false, none, 1, handle.again⟩,
    [], none, [], todo, done⟩

/-- The transfer once it has started. -/
def begun (c : Crossing) (stream : List Turn) (g : Grant) (todo : List Command)
    (done : List Answer) : Passage :=
  { (c.asked stream todo done).withGrant g with
    events := [.reserved c.direction g.region.offset c.request.count] }

/-- How often the token of the transfer is cancelled before its first poll. -/
def early (c : Crossing) : Nat := ((c.polled.map fun handle => handle.early)).elim 0 List.length

/-- The stake of the transfer once it has started. -/
def stake (c : Crossing) (tokens : Tokens) (hold : Hold) (early : Nat) : Stake :=
  ⟨tokens, hold, none, early + c.early, early⟩

end Crossing

/-- The task that the transfer is made. -/
def Crossing.unstarted (c : Crossing) (stream : List Turn) (handle : Handle) : Task :=
  ⟨⟨c.name, c.place, c.request, stream, none⟩, handle.token, false, none⟩

/-- A session on which the transfer can be asked for. -/
structure Session.Ready (c : Crossing) (tokens : Tokens) (early : Nat) (s : Session) : Prop where
  tokens : s.tokens = tokens
  named : s.place? c.name = some c.place
  known : c.place < s.rings.size
  crossing : ∀ id ∈ c.ids, ∀ task, s.task? id = some task → task.Crosses c
  absent : ∀ id, c.task = some id → s.task? id = none
  early : ∀ token, c.token = some token → s.cancels token = early

/-- The ring grants the transfer this region, and then the transfer has this hold. -/
structure Ring.Grants (c : Crossing) (g : Grant) (hold : Hold) (r : Ring) : Prop where
  direction : hold.direction = c.direction
  grant : g = ⟨c.direction, hold.region, 0⟩
  count : hold.region.count = c.request.count
  fresh : hold.fresh = hold
  reserve : ∃ ring, r.reserve c.direction c.request.count
      = .ok (g, ring, [.reserved c.direction g.region.offset c.request.count]) ∧
    Ring.Apart hold ring r

namespace Ring

variable {c : Crossing} {r r' ring : Ring} {g : Grant}

theorem Sound.grants (h : r.Sound) (hsteady : r.occupancy.overwriting = false)
    {events : List Event}
    (hr : r.reserve c.direction c.request.count = .ok (g, ring, events)) :
    r.Grants c g (r.share g) := by
  obtain ⟨hapart, hg, hcount, rfl⟩ := h.apart hsteady hr
  have hshare : (r.share g).direction = g.direction ∧ (r.share g).region = g.region ∧
      (r.share g).fresh = r.share g := by
    unfold share
    cases g.direction <;> exact ⟨rfl, rfl, rfl⟩
  obtain ⟨hd, hregion, hfresh⟩ := hshare
  exact ⟨hd.trans (congrArg Grant.direction hg), hregion ▸ hg, hregion ▸ hcount, hfresh, ring, hr,
    hapart⟩

/-- Whatever was done beside the transfer, the ring without it would grant it the same region. -/
theorem Apart.grants {k k' : Stake} (h : Apart k'.hold ring r') (hk : k.Keeps k')
    (hg : r.Grants c g k.hold) : r'.Grants c g k.hold := by
  obtain ⟨ring', hr, hapart⟩ := h.again
  rw [hk.direction, hk.region, hg.direction, hg.count] at hr
  rw [hk.fresh, hg.fresh] at hapart
  refine ⟨hg.direction, hg.grant, hg.count, hg.fresh, ring', ?_, hapart⟩
  rw [hr, hg.grant]

end Ring

namespace Crossing

variable {c : Crossing} {k : Stake} {s s' : Session} {tokens : Tokens} {early : Nat} {hold : Hold}

theorem ready_near (h : s.Ready c tokens early) (hold : Hold) :
    s.Near c ⟨tokens, hold, none, early, early⟩ s :=
  ⟨h.named, h.named, h.known, h.known, fun _ _ => rfl, h.crossing, h.tokens, h.tokens,
    fun _ _ => rfl, h.absent, h.absent, by simp, h.early, h.early⟩

theorem near_ready (h : s.Near c k s') : s'.Ready c k.library k.early :=
  ⟨h.library', h.named', h.known',
    fun id hid task ht => h.crossing id hid task (h.tasks id hid ▸ ht), h.absent, h.early⟩

/-- A task that waits is polled. -/
theorem step_poll {m : Machine} {name id : Nat} {again : Bool} {todo : List Command}
    {done : List Answer} (hf : m.focus = .commands (.on name (.goOn id again) :: todo) done)
    {task : Task} (ht : m.session.task? id = some task) :
    m.step = some ⟨m.session.removeTask id, .transfer (task.polled id again todo done),
      m.suspended⟩ := by
  refine (Machine.step_iff.2 (.obey hf)).trans ?_
  cases again <;> simp only [Action.goOn, Bool.false_eq_true, if_false, if_true, Machine.obey,
    Machine.poll, ht] <;> rfl

/-- The token of a task that does not wait for it yet is cancelled a number of times. -/
theorem cancels_early {task : Task} (hidle : task.awaits = none)
    (ht : c.token = some task.token) (names : List Nat) {cancels : Nat}
    (h : s.Near c ⟨tokens, hold, some task, cancels, early⟩ s') (todo : List Command)
    (done : List Answer) (frames : List Passage) :
    ∃ s₁ answers frames₁,
      (⟨s, .commands ((names.map fun name => .on name (.cancel task.token)) ++ todo) done, frames⟩ :
          Machine).Reaches ⟨s₁, .commands todo (done ++ answers), frames₁⟩ ∧
        s₁.Near c ⟨tokens, hold, some task, cancels + names.length, early⟩ s' ∧
        s₁.rings = s.rings ∧
        answers.map Answer.alone = names.map fun _ => Answer.acknowledged none := by
  induction names generalizing s cancels done frames with
  | nil =>
    refine ⟨s, [], frames, ?_, ?_, rfl, rfl⟩
    · rw [List.append_nil]
      exact .refl
    · simpa using h
  | cons name names ih =>
    have hwake (wakes : Nat → Bool) : task.wake task.token wakes = task := by
      simp only [Task.wake, hidle, Option.any_none, Bool.and_false, Bool.or_false]
      rw [← hidle]
    have h₁ : (s.cancel task.token).Near c ⟨tokens, hold, some task, cancels + 1, early⟩ s' := by
      have hcancel := h.cancel ht
      simpa only [Stake.cancel, Option.map_some, hwake] using hcancel
    obtain ⟨s₁, answers, frames₁, hr, hs₁, hrings, halone⟩ :=
      ih h₁ (done ++ [.acknowledged ((s.cancel task.token).standing? name)])
        (frames.map (Passage.wake task.token (s.wakes task.token)))
    refine ⟨s₁, _ :: answers, frames₁, (List.append_assoc .. ▸ hr).head (step_cancel rfl), ?_,
      hrings, ?_⟩
    · rw [List.length_cons, Nat.add_comm names.length, ← Nat.add_assoc]
      exact hs₁
    · rw [List.map_cons, List.map_cons, halone]
      rfl

/-- The transfer is granted its region. -/
theorem starts {g : Grant} {s₁ : Session} (hs : s₁.Near c k s)
    (hring : s₁.ring c.place = s.ring c.place) (hg : (s.ring c.place).Grants c g k.hold)
    (stream : List Turn) (todo : List Command) (done : List Answer) (frames : List Passage) :
    ∃ s₂, (⟨s₁, .transfer (c.asked stream todo done), frames⟩ : Machine).step
        = some ⟨s₂, .transfer (c.begun stream g todo done), frames⟩ ∧ s₂.Apart c k s := by
  obtain ⟨ring, hr, hhold⟩ := hg.reserve
  have hstep : (⟨s₁, .transfer (c.asked stream todo done), frames⟩ : Machine).step
      = some ((⟨s₁, .transfer (c.asked stream todo done), frames⟩ : Machine).start
        (c.asked stream todo done)) := Machine.step_iff.2 (.start rfl rfl)
  have hr₁ : (s₁.ring (c.asked stream todo done).transfer.ring).reserve
      (c.asked stream todo done).transfer.request.purpose.direction
      (c.asked stream todo done).transfer.request.count
        = .ok (g, ring, [.reserved c.direction g.region.offset c.request.count]) := by
    rw [← hr, ← hring]
    rfl
  simp only [Machine.start, hr₁] at hstep
  refine ⟨_, hstep, hs.change .., hg.direction, ?_⟩
  have hring₂ := Session.ring_update_self s₁ hs.known ring
    [.reserved c.direction g.region.offset c.request.count]
  exact hring₂.symm ▸ hhold

theorem owns_opening (c : Crossing) (stream : List Turn) :
    ∀ cmd ∈ c.opening stream, c.owns cmd = true := by
  unfold opening overture entrance
  cases hpolled : c.polled with
  | none => simp [owns, direction]
  | some handle =>
    have htask : c.task = some handle.task := by simp [task, hpolled]
    have htoken : c.token = some handle.token := by simp [token, hpolled]
    simp only [Handle.cancels, List.mem_append, List.mem_cons, List.mem_map]
    rintro _ ((rfl | ⟨name, -, rfl⟩) | rfl | h)
    · simp [Handle.spawn, owns, htask]
    · simp [owns, htoken]
    · exact owns_goOn _ _ htask
    · cases h

/-- Nothing but the script sets two openings apart. -/
theorem length_overture (c : Crossing) (stream stream' : List Turn) :
    (c.overture stream').length = (c.overture stream).length := by
  unfold overture
  cases c.polled <;> rfl

/-- The transfer is asked for. -/
theorem asks (hs : s.Ready c tokens early) (hold : Hold) (stream : List Turn) (todo : List Command)
    (done : List Answer) (frames : List Passage) :
    ∃ s₁ answers frames₁,
      (⟨s, .commands (c.opening stream ++ todo) done, frames⟩ : Machine).Reaches
          ⟨s₁, .transfer (c.asked stream todo (done ++ answers)), frames₁⟩ ∧
        answers.map Answer.alone = (c.overture stream).map (fun _ => Answer.acknowledged none) ∧
        s₁.Near c (c.stake tokens hold early) s ∧ s₁.rings = s.rings := by
  unfold opening overture entrance
  rw [List.append_assoc]
  cases hpolled : c.polled with
  | none =>
    have hstake : c.stake tokens hold early = ⟨tokens, hold, none, early, early⟩ := by
      simp [stake, Crossing.early, hpolled]
    refine ⟨s, [], frames, .step .refl ?_, rfl, hstake ▸ ready_near hs hold, rfl⟩
    refine (Machine.step_iff.2 (.obey rfl)).trans ?_
    simp only [Machine.obey, hs.named, asked, hpolled, List.append_nil]
    rfl
  | some handle =>
    have htask : c.task = some handle.task := by simp [task, hpolled]
    have htoken : c.token = some (c.unstarted stream handle).token := by
      simp [token, hpolled, unstarted]
    have hspawn : (⟨s, .commands (handle.spawn c.name c.request stream :: handle.cancels ++
        ([handle.poll] ++ todo)) done, frames⟩ : Machine).step
          = some ⟨{ s with tasks := (handle.task, c.unstarted stream handle) :: s.tasks },
            .commands (handle.cancels ++ ([handle.poll] ++ todo))
              (done ++ [.acknowledged (s.standing? c.name)]), frames⟩ := by
      refine (Machine.step_iff.2 (.obey rfl)).trans ?_
      simp only [Machine.obey, Session.spawn, Session.onRing, hs.named, Session.addTask,
        Session.dropTask, hs.absent _ htask, Except.map, Machine.apply, Machine.answer]
      rfl
    obtain ⟨s₁, answers, frames₁, hr, hs₁, hrings, halone⟩ :=
      cancels_early rfl htoken handle.early ((ready_near hs hold).enter htask htoken)
        ([handle.poll] ++ todo) (done ++ [.acknowledged (s.standing? c.name)]) frames
    refine ⟨s₁.removeTask handle.task, .acknowledged (s.standing? c.name) :: answers, frames₁,
      (hr.head hspawn).step ?_, ?_, ?_, hrings⟩
    · refine (step_poll rfl (hs₁.own _ htask)).trans ?_
      simp only [Task.polled, unstarted, asked, hpolled, Option.map_some, List.append_assoc]
      rfl
    · rw [List.map_cons, List.map_cons, halone, Handle.cancels, List.map_map]
      rfl
    · have hremoved := hs₁.removeTask htask
      simpa [stake, Crossing.early, hpolled] using hremoved

/-- The opening goes the same wherever the transfer gets its region. -/
theorem opens {g : Grant} (hs : s.Ready c tokens early) (hg : (s.ring c.place).Grants c g hold)
    (stream : List Turn) (todo : List Command) (done : List Answer) (frames : List Passage) :
    ∃ s₁ answers frames₁,
      (⟨s, .commands (c.opening stream ++ todo) done, frames⟩ : Machine).Reaches
          ⟨s₁, .transfer (c.begun stream g todo (done ++ answers)), frames₁⟩ ∧
        answers.map Answer.alone = (c.overture stream).map (fun _ => Answer.acknowledged none) ∧
        s₁.Apart c (c.stake tokens hold early) s := by
  obtain ⟨s₁, answers, frames₁, hr, halone, hs₁, hrings⟩ := asks hs hold stream todo done frames
  have hring : s₁.ring c.place = s.ring c.place := by simp only [Session.ring, hrings]
  obtain ⟨s₂, hstart, hs₂⟩ := starts hs₁ hring hg stream todo (done ++ answers) frames₁
  exact ⟨s₂, answers, frames₁, hr.step hstart, halone, hs₂⟩

/-! ## The schedule -/

/-- The machine has answered one command of a schedule; where the transfer is replayed, it goes the
same if it is one of the transfer's own. -/
structure Advances (c : Crossing) (k : Stake) (s' : Session) (m : Machine) (script : List Command)
    (cmd : Command) (todo : List Command) (done : List Answer) (k₁ : Stake) (s₁' : Session)
    (e₁ : Option Grant) (m₁ : Machine) (a : Answer) (exchanges : List (Command × Answer))
    (script₁ : List Command) : Prop where
  reaches : m.Reaches m₁
  focus : m₁.focus = .commands todo (done ++ [a])
  exchanged : ∀ rest,
    c.exchanges script ((cmd, a) :: rest) = exchanges ++ c.exchanges script₁ rest
  waits : e₁ = none → c.Waits k₁ script₁
  does : s'.Does (c.crossed exchanges) s₁'
  stands : m₁.session.Stands c k₁ e₁ s₁'
  keeps : k.Keeps k₁
  replays : ∀ b b' todo' done' frames, b.Apart c (k.alone c) b' → ∃ b₁ replies frames₁,
    (⟨b, .commands ([cmd].filter c.owns ++ todo') done', frames⟩ : Machine).Reaches
      ⟨b₁, .commands todo' (done' ++ replies), frames₁⟩ ∧
    replies.map Answer.alone = (c.owned [(cmd, a)]).map Answer.alone ∧
    b₁.Stands c (k₁.alone c) e₁ b'

/-- The machine has gone through these commands of a schedule; where the transfer is replayed, those
of its own go the same. -/
structure Lasts (c : Crossing) (k : Stake) (s' : Session) (e : Option Grant) (m : Machine)
    (script todo : List Command) (done : List Answer) (k₁ : Stake) (s₁' : Session)
    (e₁ : Option Grant) (m₁ : Machine) (life : List Command) (answers : List Answer) : Prop where
  length : answers.length = life.length
  reaches : m.Reaches m₁
  focus : m₁.focus = .commands todo (done ++ answers)
  does : s'.Does (c.crossed (c.exchanges script (life.zip answers))) s₁'
  stands : m₁.session.Stands c k₁ e₁ s₁'
  keeps : k.Keeps k₁
  replays : ∀ b b' todo' done' frames, b.Stands c (k.alone c) e b' → ∃ b₁ replies frames₁,
    (⟨b, .commands (life.filter c.owns ++ todo') done', frames⟩ : Machine).Reaches
      ⟨b₁, .commands todo' (done' ++ replies), frames₁⟩ ∧
    replies.map Answer.alone = (c.owned (life.zip answers)).map Answer.alone ∧
    b₁.Stands c (k₁.alone c) e₁ b'

variable {k₁ k₂ : Stake} {s₁' s₂' : Session} {e e₁ e₂ : Option Grant} {m m₁ m₂ : Machine}
  {script script₁ todo life : List Command} {done answers : List Answer} {cmd : Command}
  {a : Answer} {exchanges : List (Command × Answer)}

theorem Lasts.refl (hf : m.focus = .commands todo done) (hs : m.session.Stands c k e s') :
    c.Lasts k s' e m script todo done k s' e m [] [] := by
  refine ⟨rfl, .refl, by rw [hf, List.append_nil], .refl s', hs, .refl k, ?_⟩
  intro b b' todo' done' frames hb
  exact ⟨b, [], frames, by simpa using Machine.Reaches.refl, rfl, hb⟩

/-- One more command before those of a schedule. -/
theorem Advances.lasts
    (h : c.Advances k s' m script cmd (life ++ todo) done k₁ s₁' e₁ m₁ a exchanges script₁)
    (h' : c.Lasts k₁ s₁' e₁ m₁ script₁ todo (done ++ [a]) k₂ s₂' e₂ m₂ life answers) :
    c.Lasts k s' none m script todo done k₂ s₂' e₂ m₂ (cmd :: life) (a :: answers) := by
  refine ⟨congrArg (· + 1) h'.length, h.reaches.trans h'.reaches, ?_, ?_, h'.stands,
    h.keeps.trans h'.keeps, ?_⟩
  · rw [h'.focus, List.append_assoc]
    rfl
  · rw [List.zip_cons_cons, h.exchanged, crossed_append]
    exact h.does.append h'.does
  · rintro b b' todo' done' frames ⟨hb⟩
    obtain ⟨b₁, replies, frames₁, hr₁, halone, hb₁⟩ :=
      h.replays b b' (life.filter c.owns ++ todo') done' frames hb
    obtain ⟨b₂, replies', frames₂, hr₂, halone', hb₂⟩ :=
      h'.replays b₁ b' todo' (done' ++ replies) frames₁ hb₁
    have hfilter : (cmd :: life).filter c.owns ++ todo'
        = [cmd].filter c.owns ++ (life.filter c.owns ++ todo') := by
      rw [← List.singleton_append, List.filter_append, List.append_assoc]
    refine ⟨b₂, replies ++ replies', frames₂, ?_, ?_, hb₂⟩
    · rw [hfilter, ← List.append_assoc done']
      exact hr₁.trans hr₂
    · rw [List.zip_cons_cons, ← List.singleton_append, owned_append, List.map_append,
        List.map_append, halone, halone']

/-- A command that crosses the transfer is left out where the transfer is replayed. -/
theorem crosses_advances (hm : m.Sound) (hf : m.focus = .commands (cmd :: todo) done)
    (hcross : c.Crosses cmd) (hs : m.session.Apart c k s') (hw : c.Waits k script) :
    ∃ s₁' m₁ a, c.Advances k s' m script cmd todo done k s₁' none m₁ a [(cmd, a)] script := by
  obtain ⟨s₁, s₁', a, tokens, -, hr, hdoes, hs₁⟩ := performs hm hf hcross hs
  obtain ⟨hcrossed, howned⟩ := crossed_of_crosses hcross a
  refine ⟨s₁', _, a, hr, rfl, fun rest => ?_, fun _ => hw, hcrossed ▸ hdoes, .live hs₁, .refl k, ?_⟩
  · simp [exchanges, hcross.owns]
  · intro b b' todo' done' frames hb
    refine ⟨b, [], frames, ?_, ?_, .live hb⟩
    · simpa [hcross.owns] using Machine.Reaches.refl
    · rw [howned]

/-- A command of the transfer answers the same where the transfer is replayed. -/
theorem Advances.of_owns (howns : c.owns cmd = true) (hr : m.Reaches m₁)
    (hf : m₁.focus = .commands todo (done ++ [a])) (hnested : a.nested = exchanges.map Prod.snd)
    (hspent : script = exchanges.map Prod.fst ++ script₁) (hw : e₁ = none → c.Waits k₁ script₁)
    (hdoes : s'.Does (c.crossed exchanges) s₁') (hs : m₁.session.Stands c k₁ e₁ s₁')
    (hkeeps : k.Keeps k₁)
    (hreplays : ∀ b b' todo' done' frames, b.Apart c (k.alone c) b' → ∃ b₁ a' frames₁,
      (⟨b, .commands (cmd :: todo') done', frames⟩ : Machine).Reaches
        ⟨b₁, .commands todo' (done' ++ [a']), frames₁⟩ ∧
      a'.alone = a.alone ∧ b₁.Stands c (k₁.alone c) e₁ b') :
    c.Advances k s' m script cmd todo done k₁ s₁' e₁ m₁ a exchanges script₁ := by
  refine ⟨hr, hf, exchanges_of_owns howns hnested hspent, hw, hdoes, hs, hkeeps, ?_⟩
  intro b b' todo' done' frames hb
  obtain ⟨b₁, a', frames₁, hr', halone, hb₁⟩ := hreplays b b' todo' done' frames hb
  rw [List.filter_cons_of_pos howns]
  refine ⟨b₁, [a'], frames₁, hr', ?_, hb₁⟩
  rw [(crossed_of_owns howns a).2, List.map_singleton, List.map_singleton, halone]

/-- The token of the transfer is cancelled while it waits. -/
theorem cancels_advances {name token : Nat} (htoken : c.token = some token)
    (hf : m.focus = .commands (.on name (.cancel token) :: todo) done)
    (hs : m.session.Apart c k s') (hw : c.Waits k script) :
    ∃ k₁ m₁ a, c.Advances k s' m script (.on name (.cancel token)) todo done k₁ s' none m₁ a []
      script := by
  obtain ⟨task, g, htask, hmine, hscript⟩ := hw
  have hs₁ : (m.session.cancel token).Apart c (k.cancel token) s' :=
    ⟨hs.near.cancel htoken, hs.direction, hs.ring⟩
  have hw₁ : c.Waits (k.cancel token) script :=
    ⟨task.wake token k.wakes, g, congrArg (Option.map (Task.wake token k.wakes)) htask,
      { hmine with }, hscript⟩
  have howns : c.owns (.on name (.cancel token)) = true :=
    Cancels.owns ⟨name, token, htoken, rfl⟩
  refine ⟨_, _, .acknowledged ((m.session.cancel token).standing? name),
    .of_owns howns (.step .refl (step_cancel hf)) rfl rfl rfl (fun _ => hw₁) (.refl s') (.live hs₁)
      ⟨rfl, rfl, rfl⟩ ?_⟩
  intro b b' todo' done' frames hb
  have hb₁ : (b.cancel token).Apart c ((k.cancel token).alone c) b' := by
    rw [Stake.alone_cancel]
    exact ⟨hb.near.cancel htoken, hb.direction, hb.ring⟩
  exact ⟨_, _, _, .step .refl (step_cancel rfl), rfl, .live hb₁⟩

/-- A transfer that waits is dropped in one step. -/
theorem step_drop {task : Task} {g : Grant} (hs : m.session.Apart c k s')
    (htask : k.task = some task) (hmine : task.transfer.Mine c k g) {name id : Nat}
    (hid : c.task = some id)
    (hf : m.focus = .commands (.on name (.errand (.drop id)) :: todo) done) :
    ∃ s₁ standing, m.step = some ⟨s₁, .commands todo (done ++ [⟨.done (.ok (.flag true)) none,
          standing, [.committed g.direction g.region.count g.moved]⟩]), m.suspended⟩ ∧
      s₁.Stands c { k with task := none } (some g) s' := by
  have hheld : (m.session.ring c.place).occupancy.held g.direction = some g.region := by
    rw [hmine.direction, hmine.region]
    exact hs.ring.held
  obtain ⟨ring, events, hc⟩ := Ring.commit_of_held hheld
  obtain ⟨o, -, -, rfl⟩ := Ring.commit_ok hc
  let events : List Event := [.committed g.direction g.region.count g.moved]
  let s₁ := (m.session.removeTask id).update c.place ring events
  have hnear := (hs.near.removeTask hid).change ring events
  have hring : s₁.ring c.place = ring :=
    Session.ring_update_self _ (hs.near.removeTask hid).known ..
  have hfound : m.session.task? id = some task := (hs.near.own _ hid).trans htask
  have hcommit : ((m.session.removeTask id).ring c.place).commit g = .ok (ring, events) := hc
  have hdrop : m.session.dropTask id = .ok (s₁, events) := by
    simp only [Session.dropTask, hfound, Session.abandon, hmine.grant, hmine.ring, hcommit,
      Except.map]
    rfl
  refine ⟨s₁, s₁.standing? c.name, (Machine.step_iff.2 (.obey hf)).trans ?_,
    .ended hnear hs.ring (hmine.direction.trans hs.direction) (hring ▸ hc)⟩
  simp only [Machine.obey, Machine.apply, Session.subject, Session.errand, hdrop, hfound,
    Option.map_some, Option.getD_some, hmine.name]
  rfl

theorem drops_advances {name id : Nat} (hid : c.task = some id)
    (hf : m.focus = .commands (.on name (.errand (.drop id)) :: todo) done)
    (hs : m.session.Apart c k s') (hw : c.Waits k script) :
    ∃ k₁ e₁ m₁ a, c.Advances k s' m script (.on name (.errand (.drop id))) todo done k₁ s' e₁ m₁ a
      [] script := by
  obtain ⟨task, g, htask, hmine, -⟩ := hw
  obtain ⟨s₁, standing, hstep, hs₁⟩ := step_drop hs htask hmine hid hf
  refine ⟨_, some g, _, _, .of_owns (owns_drop name hid) (.step .refl hstep) rfl rfl rfl (by simp)
    (.refl s') hs₁ ⟨rfl, rfl, rfl⟩ ?_⟩
  intro b b' todo' done' frames hb
  obtain ⟨b₁, standing', hstep', hb₁⟩ :=
    step_drop (m := ⟨b, .commands (.on name (.errand (.drop id)) :: todo') done', frames⟩)
      hb (congrArg (Option.map (Task.alone c)) htask) hmine.alone hid rfl
  exact ⟨b₁, _, frames, .step .refl hstep', rfl, hb₁⟩

/-- The transfer is polled, and answers. -/
theorem polls_advances {name id : Nat} {again : Bool} (hm : m.Sound) (hid : c.task = some id)
    (hf : m.focus = .commands (.on name (.goOn id again) :: todo) done)
    (hs : m.session.Apart c k s') (hw : c.Waits k script) :
    ∃ k₁ s₁' e₁ m₁ a exchanges script₁, c.Advances k s' m script (.on name (.goOn id again)) todo
      done k₁ s₁' e₁ m₁ a exchanges script₁ := by
  obtain ⟨task, g, htask, hmine, hscript⟩ := hw
  have htoken := hs.near.waits task htask
  obtain ⟨handle, hpolled, rfl⟩ := Option.map_eq_some_iff.1 hid
  have hhandle : handle.token = task.token := by
    simpa [token, hpolled] using htoken
  have hstep := step_poll hf ((hs.near.own _ hid).trans htask)
  have hunder : c.Under { k with task := none } s' ⟨m.session.removeTask handle.task,
      .transfer (task.polled handle.task again todo done), m.suspended⟩
      (task.polled handle.task again todo done) g := by
    refine ⟨hm.step hstep, rfl, ⟨hs.near.removeTask hid, hs.direction, hs.ring⟩,
      { hmine with }, ?_, rfl⟩
    simp [Task.polled, hpolled, hhandle]
  obtain ⟨k₁, s₁', m₁, e₁, a, exchanges, script₁, h⟩ := hunder.ends
  refine ⟨k₁, s₁', e₁, m₁, a, exchanges, script₁, .of_owns (owns_goOn name again hid)
    (h.reaches.head hstep) h.focus h.nested (hscript ▸ h.spent) h.waits h.does h.stands
    ⟨h.keeps.library, h.keeps.fresh, h.keeps.early⟩ ?_⟩
  intro b b' todo' done' frames hb
  have hstep' := step_poll (m := ⟨b, .commands (.on name (.goOn handle.task again) :: todo') done',
    frames⟩) rfl ((hb.near.own _ hid).trans (congrArg (Option.map (Task.alone c)) htask))
  obtain ⟨b₁, a', frames₁, hr', halone, hb₁⟩ :=
    h.replays (b.removeTask handle.task) b' ((task.alone c).polled handle.task again todo' done')
      frames ⟨rfl, rfl, rfl, rfl, rfl⟩ ⟨hb.near.removeTask hid, hb.direction, hb.ring⟩
  exact ⟨b₁, a', frames₁, hr'.head hstep', halone, hb₁⟩

/-- Every command of a schedule comes to its answer. -/
theorem advances (hm : m.Sound) (hf : m.focus = .commands (cmd :: todo) done)
    (hcmd : c.Crosses cmd ∨ c.Attends cmd) (hs : m.session.Apart c k s') (hw : c.Waits k script) :
    ∃ k₁ s₁' e₁ m₁ a exchanges script₁,
      c.Advances k s' m script cmd todo done k₁ s₁' e₁ m₁ a exchanges script₁ := by
  rcases hcmd with hcross | ⟨name, again, hid⟩ | ⟨name, hid⟩ | ⟨name, token, htoken, rfl⟩
  · obtain ⟨s₁', m₁, a, h⟩ := crosses_advances hm hf hcross hs hw
    exact ⟨_, s₁', none, m₁, a, _, _, h⟩
  · exact polls_advances hm hid hf hs hw
  · obtain ⟨k₁, e₁, m₁, a, h⟩ := drops_advances hid hf hs hw
    exact ⟨k₁, _, e₁, m₁, a, _, _, h⟩
  · obtain ⟨k₁, m₁, a, h⟩ := cancels_advances htoken hf hs hw
    exact ⟨k₁, _, none, m₁, a, _, _, h⟩

/-- A schedule goes on until the transfer is over, or until it is done. -/
theorem lasts {schedule : List Command} (hm : m.Sound)
    (hf : m.focus = .commands (schedule ++ todo) done)
    (hschedule : ∀ cmd ∈ schedule, c.Crosses cmd ∨ c.Attends cmd)
    (hs : m.session.Stands c k e s') (hw : e = none → c.Waits k script) :
    ∃ life rest answers k₁ s₁' e₁ m₁, schedule = life ++ rest ∧ (rest = [] ∨ e₁.isSome) ∧
      c.Lasts k s' e m script (rest ++ todo) done k₁ s₁' e₁ m₁ life answers := by
  induction schedule generalizing m done k s' e script with
  | nil => exact ⟨[], [], [], k, s', e, m, rfl, .inl rfl, .refl hf hs⟩
  | cons cmd schedule ih =>
    cases hs with
    | @ended _ _ g ring events near h hd hc =>
      exact ⟨[], cmd :: schedule, [], k, s', some g, m, rfl, .inr rfl,
        .refl hf (.ended near h hd hc)⟩
    | live hs =>
      obtain ⟨hcmd, hrest⟩ := List.forall_mem_cons.1 hschedule
      have hf : m.focus = .commands (cmd :: (schedule ++ todo)) done := hf
      obtain ⟨k₁, s₁', e₁, m₁, a, exchanges, script₁, h⟩ := advances hm hf hcmd hs (hw rfl)
      obtain ⟨life, rest, answers, k₂, s₂', e₂, m₂, rfl, hover, h'⟩ :=
        ih (hm.reaches h.reaches) h.focus hrest h.stands h.waits
      rw [List.append_assoc] at h
      exact ⟨cmd :: life, rest, a :: answers, k₂, s₂', e₂, m₂, rfl, hover, h.lasts h'⟩

/-! ## One after the other -/

theorem nested_of_alone {standing : Option Occupancy} (h : a.alone = .acknowledged standing) :
    a.nested = [] := by
  have hreaction := congrArg Answer.reaction h
  unfold Answer.alone at hreaction
  cases hr : a.reaction with
  | settled result calls polls => simp [hr, Answer.acknowledged] at hreaction
  | pending woken calls polls => simp [hr, Answer.acknowledged] at hreaction
  | _ => simp [Answer.nested, hr, Reaction.calls]

/-- Nothing is performed before the transfer starts. -/
theorem exchanges_overture {commands : List Command} (howns : ∀ cmd ∈ commands, c.owns cmd = true)
    (halone : answers.map Answer.alone = commands.map fun _ => Answer.acknowledged none)
    (script : List Command) (rest : List (Command × Answer)) :
    c.exchanges script (commands.zip answers ++ rest) = c.exchanges script rest ∧
      c.owned (commands.zip answers ++ rest) = answers ++ c.owned rest := by
  induction commands generalizing answers with
  | nil =>
    obtain rfl : answers = [] := by simpa using halone
    exact ⟨rfl, rfl⟩
  | cons cmd commands ih =>
    cases answers with
    | nil => simp at halone
    | cons a answers =>
      obtain ⟨hcmd, hcommands⟩ := List.forall_mem_cons.1 howns
      obtain ⟨ha, halone⟩ := List.cons.inj halone
      obtain ⟨hexchanges, howned⟩ := ih hcommands halone
      have hnested : a.nested = ([] : List (Command × Answer)).map Prod.snd := nested_of_alone ha
      rw [List.zip_cons_cons, List.cons_append]
      constructor
      · exact (exchanges_of_owns hcmd hnested rfl _).trans hexchanges
      · rw [owned_cons hcmd, howned, List.cons_append]

/-- The transfer is asked for and comes to its first answer. -/
theorem enters {g : Grant} {stream : List Turn} (hm : m.Sound)
    (hf : m.focus = .commands (c.opening stream ++ todo) done)
    (hready : m.session.Ready c tokens early) (hg : (m.session.ring c.place).Grants c g hold)
    (hstream : ∀ cmd ∈ performed stream, c.Crosses cmd ∨ c.Cancels cmd) :
    ∃ k₁ s₁' m₁ e₁ opened a exchanges script₁, m.Reaches m₁ ∧
      m₁.focus = .commands todo (done ++ opened ++ [a]) ∧
      opened.map Answer.alone = (c.overture stream).map (fun _ => Answer.acknowledged none) ∧
      a.nested = exchanges.map Prod.snd ∧ performed stream = exchanges.map Prod.fst ++ script₁ ∧
      (e₁ = none → c.Waits k₁ script₁) ∧ m.session.Does (c.crossed exchanges) s₁' ∧
      m₁.session.Stands c k₁ e₁ s₁' ∧ (c.stake tokens hold early).Keeps k₁ ∧
      ∀ b' todo' done' frames, b'.Ready c tokens early → (b'.ring c.place).Grants c g hold →
        ∃ b₁ opened' a' frames₁,
          (⟨b', .commands (c.opening (c.alone stream) ++ todo') done', frames⟩ : Machine).Reaches
            ⟨b₁, .commands todo' (done' ++ opened' ++ [a']), frames₁⟩ ∧
          opened'.map Answer.alone = opened.map Answer.alone ∧ a'.alone = a.alone ∧
          b₁.Stands c (k₁.alone c) e₁ b' := by
  obtain ⟨session, focus, suspended⟩ := m
  obtain rfl : focus = .commands (c.opening stream ++ todo) done := hf
  obtain ⟨s₁, opened, frames₁, hr, hopened, hs₁⟩ := opens hready hg stream todo done suspended
  have hunder : c.Under (c.stake tokens hold early) session
      ⟨s₁, .transfer (c.begun stream g todo (done ++ opened)), frames₁⟩
      (c.begun stream g todo (done ++ opened)) g := by
    refine ⟨hm.reaches hr, rfl, hs₁, ⟨rfl, rfl, rfl, hstream, rfl, ?_, ?_, ?_⟩, ?_, rfl⟩
    · rw [hg.grant]
      exact hg.direction.symm
    · rw [hg.grant]
      rfl
    · rw [hg.grant]
      exact Nat.zero_le _
    · simp only [begun, asked, Passage.withGrant, Option.map_map]
      rfl
  obtain ⟨k₁, s₁', m₁, e₁, a, exchanges, script₁, h⟩ := hunder.ends
  refine ⟨k₁, s₁', m₁, e₁, opened, a, exchanges, script₁, hr.trans h.reaches, h.focus, hopened,
    h.nested, h.spent, h.waits, h.does, h.stands, h.keeps, ?_⟩
  intro b' todo' done' frames hready' hg'
  obtain ⟨b, opened', frames', hr', hopened', hb⟩ :=
    opens hready' hg' (c.alone stream) todo' done' frames
  obtain ⟨b₁, a', frames₁', hr₁', halone, hb₁⟩ :=
    h.replays b b' (c.begun (c.alone stream) g todo' (done' ++ opened')) frames'
      ⟨rfl, rfl, rfl, rfl, rfl⟩ hb
  refine ⟨b₁, opened', a', frames₁', hr'.trans hr₁', ?_, halone, hb₁⟩
  rw [hopened', hopened, List.map_const', List.map_const', length_overture]

/-- The transfer is asked for and a schedule goes on until it is over. -/
theorem overlaps {g : Grant} {stream : List Turn} {schedule : List Command} (hm : m.Sound)
    (hf : m.focus = .commands (c.opening stream ++ (schedule ++ todo)) done)
    (hready : m.session.Ready c tokens early) (hg : (m.session.ring c.place).Grants c g hold)
    (hstream : ∀ cmd ∈ performed stream, c.Crosses cmd ∨ c.Cancels cmd)
    (hschedule : ∀ cmd ∈ schedule, c.Crosses cmd ∨ c.Attends cmd) :
    ∃ life rest answers k₁ s₁' e₁ m₁, schedule = life ++ rest ∧ (rest = [] ∨ e₁.isSome) ∧
      answers.length = (c.opening stream ++ life).length ∧ m.Reaches m₁ ∧
      m₁.focus = .commands (rest ++ todo) (done ++ answers) ∧
      m.session.Does
        (c.crossed (c.exchanges (performed stream) ((c.opening stream ++ life).zip answers))) s₁' ∧
      m₁.session.Stands c k₁ e₁ s₁' ∧ (c.stake tokens hold early).Keeps k₁ ∧
      ∀ b' todo' done' frames, b'.Ready c tokens early → (b'.ring c.place).Grants c g hold →
        ∃ b₁ replies frames₁,
          (⟨b', .commands (c.opening (c.alone stream) ++ (life.filter c.owns ++ todo')) done',
              frames⟩ : Machine).Reaches ⟨b₁, .commands todo' (done' ++ replies), frames₁⟩ ∧
          replies.map Answer.alone
            = (c.owned ((c.opening stream ++ life).zip answers)).map Answer.alone ∧
          b₁.Stands c (k₁.alone c) e₁ b' := by
  obtain ⟨k₁, s₁', m₁, e₁, opened, a, exchanges, script₁, hr, hf₁, hopened, hnested, hspent, hwaits,
    hdoes, hs₁, hkeeps, hreplays⟩ := enters hm hf hready hg hstream
  obtain ⟨life, rest, answers, k₂, s₂', e₂, m₂, hlife, hover, h⟩ :=
    lasts (hm.reaches hr) hf₁ hschedule hs₁ hwaits
  have howns := List.forall_mem_append.1 (c.owns_opening stream)
  have hlength : opened.length = (c.overture stream).length := by
    simpa using congrArg List.length hopened
  have hzip : (c.opening stream ++ life).zip (opened ++ a :: answers)
      = (c.overture stream).zip opened ++ (c.entrance stream, a) :: life.zip answers := by
    rw [opening, List.append_assoc, List.zip_append hlength.symm]
    rfl
  obtain ⟨hexchanges, howned⟩ := exchanges_overture howns.1 hopened (performed stream)
    ((c.entrance stream, a) :: life.zip answers)
  have hentrance : c.owns (c.entrance stream) = true := howns.2 _ (List.mem_singleton.2 rfl)
  rw [exchanges_of_owns hentrance hnested hspent] at hexchanges
  rw [owned_cons hentrance] at howned
  refine ⟨life, rest, opened ++ a :: answers, k₂, s₂', e₂, m₂, hlife, hover, ?_, hr.trans h.reaches,
    ?_, ?_, h.stands, hkeeps.trans h.keeps, ?_⟩
  · simp only [opening, List.length_append, List.length_cons, List.length_nil, hlength, h.length]
    omega
  · rw [h.focus]
    simp only [List.append_assoc, List.singleton_append]
  · rw [hzip, hexchanges, crossed_append]
    exact hdoes.append h.does
  · intro b' todo' done' frames hready' hg'
    obtain ⟨b₁, opened', a', frames₁, hr₁, hopened', halone, hb₁⟩ :=
      hreplays b' (life.filter c.owns ++ todo') done' frames hready' hg'
    obtain ⟨b₂, replies, frames₂, hr₂, hreplies, hb₂⟩ :=
      h.replays b₁ b' todo' (done' ++ opened' ++ [a']) frames₁ hb₁
    refine ⟨b₂, opened' ++ ([a'] ++ replies), frames₂, ?_, ?_, hb₂⟩
    · simp only [← List.append_assoc]
      simp only [List.append_assoc (c.opening (c.alone stream))]
      exact hr₁.trans hr₂
    · rw [hzip, howned]
      simp only [List.map_append, List.map_cons, List.cons_append, List.nil_append, hopened',
        halone, hreplies]

end Crossing

/-! ## The theorem -/

/-- What an answer tells of its own command: the result, unless it has to wait, and what its stream
was offered. -/
def Answer.told (a : Answer) : Option (Except Failure Value) × List Offer :=
  (match a.reaction with
    | .done result _ | .settled result _ _ => some result
    | _ => none, a.reaction.calls.map Call.offer)

theorem told_alone : Answer.told ∘ Answer.alone = Answer.told := by
  funext a
  obtain ⟨reaction, standing, events⟩ := a
  cases reaction <;> simp [Answer.told, Answer.alone, Reaction.calls, Call.alone]

namespace Machine

variable {m : Machine} {c : Crossing} {stream : List Turn} {schedule todo : List Command}
  {done : List Answer}

/-- **Work in opposite directions is serialisable.** Wherever commands and unruly sources have led,
let a transfer be asked for on a ring that does not overwrite and grants it its region; it may run
to its end at once or be made a task, and its source may write more than it reports. Commands that
cross it are performed in the calls of its stream and between its polls. Its token may be cancelled
anywhere, and it may be dropped while it waits. The schedule goes on until it is done or the
transfer is over. Then the commands that crossed it can as well be performed first, in the same
order, and the transfer afterwards, with the stream and the schedule that are left without them.
Each of these commands answers the same, but that the ring does not show the reservation of the
transfer; the transfer answers the same, offers its stream the same and reports the same; and the
ring is the same in the end. -/
theorem reachable_serialises {tokens : Tokens} {commands : List Command} {place : Nat}
    {past : List Mark} (h : (load tokens commands).Roams place past m)
    (hname : m.session.place? c.name = some c.place)
    (hsteady : (m.session.ring c.place).occupancy.overwriting = false)
    (hgranted : ∃ granted,
      (m.session.ring c.place).reserve c.direction c.request.count = .ok granted)
    (hown : ∀ id, c.task = some id → m.session.task? id = none)
    (hothers : ∀ id ∈ c.ids, ∀ task, m.session.task? id = some task → task.Crosses c)
    (hstream : ∀ cmd ∈ performed stream, c.Crosses cmd ∨ c.Cancels cmd)
    (hschedule : ∀ cmd ∈ schedule, c.Crosses cmd ∨ c.Attends cmd)
    (hf : m.focus = .commands (c.opening stream ++ (schedule ++ todo)) done) :
    ∃ life rest answers exchanges m' replies n', schedule = life ++ rest ∧
      answers.length = (c.opening stream ++ life).length ∧
      m.Reaches m' ∧ m'.focus = .commands (rest ++ todo) (done ++ answers) ∧
      (rest = [] ∨ (m'.session.ring c.place).occupancy.held c.direction = none) ∧
      exchanges = c.exchanges (performed stream) ((c.opening stream ++ life).zip answers) ∧
      (⟨m.session, .commands ((c.crossed exchanges).map Prod.fst ++
          (c.opening (c.alone stream) ++ (life.filter c.owns ++ (rest ++ todo)))) done,
        m.suspended⟩ : Machine).Reaches n' ∧
      n'.focus = .commands (rest ++ todo)
        (done ++ (c.crossed exchanges).map Prod.snd ++ replies) ∧
      replies.map Answer.alone
        = (c.owned ((c.opening stream ++ life).zip answers)).map Answer.alone ∧
      n'.session.ring c.place = m'.session.ring c.place := by
  have hm := h.sound_load
  have hknown : c.place < m.session.rings.size :=
    hm.orderly.custody.named _ (Session.mem_of_place? hname)
  obtain ⟨⟨g, ring, events⟩, hr⟩ := hgranted
  have hgrants := (hm.orderly.custody.sound hknown).grants hsteady hr
  have hready : m.session.Ready c m.session.tokens ((c.token.map m.session.cancels).getD 0) :=
    ⟨rfl, hname, hknown, hothers, hown, fun token ht => by simp [ht]⟩
  obtain ⟨life, rest, answers, k₁, s₁', e₁, m₁, hlife, hover, hlength, hreach, hfocus, hdoes,
    hstands, hkeeps, hreplays⟩ := Crossing.overlaps hm hf hready hgrants hstream hschedule
  -- the others first, and then the transfer
  obtain ⟨cancels, hdoes⟩ := hdoes
  obtain ⟨ring₁, hapart⟩ := hstands.ring
  have hready₁ := Crossing.near_ready hstands.near
  rw [hkeeps.library, hkeeps.early] at hready₁
  obtain ⟨b₁, replies, frames₁, hr₁, halone, hb₁⟩ :=
    hreplays s₁' (rest ++ todo) _ _ hready₁ (hapart.grants hkeeps hgrants)
  refine ⟨life, rest, answers, _, m₁, replies, _, hlife, hlength, hreach, hfocus, ?_, rfl,
    (hdoes _ _ _).trans hr₁, rfl, halone, hstands.unique hb₁ rfl⟩
  exact hover.imp_right hstands.idle

/-- A fill that is polled and cancelled while it waits, and a send that crosses it. -/
def crossedFill : Crossing := ⟨0, 0, ⟨.fill, 3⟩, some ⟨1, 5, [], 0, false⟩, [2], by simp⟩

/-- A source in whose calls a byte is taken, and more bytes are asked for than there are. -/
def crossedSource : List Turn :=
  [.perform [.on 0 (.errand (.operate .takeByte)), .on 0 (.errand (.operate (.skip 5)))],
    .spill [7, 8] 1, .suspend false, .deliver [9]]

def crossedSchedule : List Command :=
  [.on 0 (.transfer ⟨.send, 1⟩ []), .on 0 (.cancel 5), .on 0 (.poll 1)]

def crossedCommands : List Command :=
  [.on 0 (.errand (.create ⟨6, false, none⟩)), .on 0 (.errand (.operate (.put [1, 2, 3])))] ++
    (crossedFill.opening crossedSource ++ (crossedSchedule ++ []))

/-- The byte is taken, the bytes asked for are not there, and the next byte is sent: the same
happens before the fill. This reports the byte that it stored, whatever else its source wrote. -/
theorem reachable_serialises_crossedFill :
    let m := (load .plain crossedCommands).after 2
    ∃ (crossed : List (Command × Answer)) (replies : List Answer) (n' : Machine),
      (⟨m.session, .commands (crossed.map Prod.fst ++
          (crossedFill.opening (crossedFill.alone crossedSource) ++
            crossedSchedule.filter crossedFill.owns)) m.answers, []⟩ : Machine).Reaches n' ∧
      n'.answers = m.answers ++ crossed.map Prod.snd ++ replies ∧
      crossed.map (fun e => e.2.told) = [(some (.ok (.number 1)), []),
        (some (.error (.error (.insufficientContent 5 2))), []), (some (.ok .unit), [.bytes [2]])] ∧
      replies.map Answer.told = [(some (.ok .unit), []), (none, [.room 3, .room 2]),
        (some (.ok .unit), []), (some (.ok (.number 1)), [])] ∧
      n'.session.ring 0 = (m.after 19).session.ring 0 := by
  have htasks : ((load .plain crossedCommands).after 2).session.tasks = [] := rfl
  have hnone id : ((load .plain crossedCommands).after 2).session.task? id = none := by
    rw [Session.task?, htasks]
    rfl
  have hstream : ∀ cmd ∈ performed crossedSource, crossedFill.Crosses cmd ∨
      crossedFill.Cancels cmd := by
    have htake : crossedFill.Crosses (.on 0 (.errand (.operate .takeByte))) := .operate rfl
    have hskip : crossedFill.Crosses (.on 0 (.errand (.operate (.skip 5)))) := .operate rfl
    simp [performed, crossedSource, htake, hskip]
  have hschedule : ∀ cmd ∈ crossedSchedule, crossedFill.Crosses cmd ∨
      crossedFill.Attends cmd := by
    have hsend : crossedFill.Crosses (.on 0 (.transfer ⟨.send, 1⟩ [])) := .transfer rfl (by simp)
    have hcancel : crossedFill.Attends (.on 0 (.cancel 5)) := .cancel ⟨0, 5, rfl, rfl⟩
    have hpoll : crossedFill.Attends (.on 0 (.poll 1)) := .poll 0 false rfl
    simp [crossedSchedule, hsend, hcancel, hpoll]
  have hfocus : ((load .plain crossedCommands).after 2).focus
      = .commands (crossedFill.opening crossedSource ++ (crossedSchedule ++ []))
        ((load .plain crossedCommands).after 2).answers := rfl
  obtain ⟨life, rest, answers, _, m', replies, n', hlife, hlength, hm', hf', hover, rfl, hn', hfn,
      halone, hring⟩ :=
    reachable_serialises (passes_after (load .plain crossedCommands) 0 2).roams rfl rfl ⟨_, rfl⟩
      (fun id _ => hnone id) (fun id _ task ht => by simp [hnone] at ht) hstream hschedule hfocus
  obtain ⟨i, hi, rfl⟩ := hm'.exists_after (n := 19) rfl
  have hanswers := answers_eq hf'
  -- the fill is over with the last command of the schedule, and not before
  have hlast : ∀ i < 19, (((load .plain crossedCommands).after 2).after i).answers.length < 7 ∧
      (4 ≤ (((load .plain crossedCommands).after 2).after i).answers.length →
        ((((load .plain crossedCommands).after 2).after i).session.ring 0).occupancy.held .put
          ≠ none) := by decide +kernel
  have hdone : ((load .plain crossedCommands).after 2).answers.length = 2 := rfl
  have hopening : (crossedFill.opening crossedSource).length = 2 := rfl
  have hcount : life.length + rest.length = 3 := by
    rw [← List.length_append, ← hlife]
    rfl
  have hsum := (congrArg List.length hanswers).trans List.length_append
  rw [List.length_append, hopening] at hlength
  obtain rfl : i = 19 := by
    by_contra hne
    obtain ⟨hlt, hheld⟩ := hlast i (by omega)
    have hrest := hover.resolve_right (hheld (by omega))
    rw [hrest, List.length_nil] at hcount
    omega
  have hall : (((load .plain crossedCommands).after 2).after 19).answers.length = 7 := by
    decide +kernel
  obtain rfl : rest = [] := List.eq_nil_of_length_eq_zero (by omega)
  obtain rfl : crossedSchedule = life := hlife.trans (List.append_nil life)
  obtain rfl : (((load .plain crossedCommands).after 2).after 19).answers.drop 2 = answers :=
    (congrArg (List.drop 2) hanswers).trans (List.drop_left' hdone)
  refine ⟨_, replies, n', hn', answers_eq hfn, by decide +kernel, ?_, hring⟩
  have htold := congrArg (List.map Answer.told) halone
  rw [List.map_map, List.map_map, told_alone] at htold
  rw [htold]
  decide +kernel

end Machine

end CyclicBuffer
