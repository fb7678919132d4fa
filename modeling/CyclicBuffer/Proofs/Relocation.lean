import CyclicBuffer.Proofs.Unruly

/-!
# Places of rings

A session keeps its rings in an array, and a transfer knows its ring by the place. Nothing else
depends on these places: if the rings of a machine are put at other places, together with all that
refers to them, it makes the same steps (`Moved.step`), leaves the same marks on each of its rings
(`Moved.marks_eq`), and gives the same answers, with unruly sources too (`Moved.roams`,
`Moved.roams_back`).
-/

namespace CyclicBuffer

variable {ρ : Nat → Nat}

/-! ## Other places -/

/-- The transfer with its ring at another place. -/
def Transfer.move (ρ : Nat → Nat) (t : Transfer) : Transfer := { t with ring := ρ t.ring }

def Task.move (ρ : Nat → Nat) (task : Task) : Task :=
  { task with transfer := task.transfer.move ρ }

def Passage.move (ρ : Nat → Nat) (p : Passage) : Passage :=
  { p with transfer := p.transfer.move ρ }

def Focus.move (ρ : Nat → Nat) : Focus → Focus
  | .commands todo done => .commands todo done
  | .transfer p => .transfer (p.move ρ)

namespace Session

/-- A session with its rings at other places. The rings that it builds from now on come at the end,
like those of the other session. -/
structure Moved (ρ : Nat → Nat) (s s' : Session) : Prop where
  tokens : s'.tokens = s.tokens
  injective : Function.Injective ρ
  within : ∀ place < s.rings.size, ρ place < s'.rings.size
  beyond : ∀ n, ρ (s.rings.size + n) = s'.rings.size + n
  rings : ∀ place, s'.ring (ρ place) = s.ring place
  names : ∀ name, s'.place? name = (s.place? name).map ρ
  tasks : s'.tasks = s.tasks.map fun entry => (entry.1, entry.2.move ρ)
  cancelled : s'.cancelled = s.cancelled
  journal : s'.journal.map Prod.snd = s.journal.map Prod.snd

/-- What a session goes on with, or why it cannot. -/
inductive MovedResult (ρ : Nat → Nat) :
    Except Fault (Session × List Event) → Except Fault (Session × List Event) → Prop
  | error (f : Fault) : MovedResult ρ (.error f) (.error f)
  | ok {s s' : Session} (h : s.Moved ρ s') (events : List Event) :
      MovedResult ρ (.ok (s, events)) (.ok (s', events))

/-- What an errand leads to. -/
structure Effect.Moved (ρ : Nat → Nat) (e e' : Effect) : Prop where
  session : e.session.Moved ρ e'.session
  reaction : e'.reaction = e.reaction
  events : e'.events = e.events

namespace Moved

variable {s s' : Session}

theorem known_iff (h : s.Moved ρ s') (place : Nat) :
    ρ place < s'.rings.size ↔ place < s.rings.size := by
  constructor
  · intro hlt
    by_contra hge
    have hfar := h.beyond (place - s.rings.size)
    rw [Nat.add_sub_cancel' (Nat.le_of_not_lt hge)] at hfar
    omega
  · exact h.within place

theorem standing (h : s.Moved ρ s') (name : Nat) : s'.standing? name = s.standing? name := by
  simp only [standing?, h.names, Option.map_map]
  exact Option.map_congr fun place _ => congrArg Ring.occupancy (h.rings place)

theorem isCancelled_eq (h : s.Moved ρ s') (token : Nat) :
    s'.isCancelled token = s.isCancelled token := by
  simp only [isCancelled, cancels, h.tokens, h.cancelled]

theorem isReady_eq (h : s.Moved ρ s') (token polls : Nat) :
    s'.isReady token polls = s.isReady token polls := by
  simp only [isReady, cancels, h.tokens, h.cancelled]

theorem wakes_eq (h : s.Moved ρ s') (token : Nat) : s'.wakes token = s.wakes token := by
  funext polls
  simp only [wakes, cancels, h.tokens, h.cancelled]

theorem task_eq (h : s.Moved ρ s') (id : Nat) : s'.task? id = (s.task? id).map (Task.move ρ) := by
  rw [task?, h.tasks]
  exact lookup_map (Task.move ρ) s.tasks id

theorem update (h : s.Moved ρ s') (place : Nat) (ring : Ring) (events : List Event) :
    (s.update place ring events).Moved ρ (s'.update (ρ place) ring events) := by
  refine ⟨h.tokens, h.injective, ?_, ?_, ?_, h.names, h.tasks, h.cancelled, ?_⟩
  · simpa using h.within
  · simpa using h.beyond
  · intro q
    simp only [ring_update, h.rings, h.known_iff, h.injective.eq_iff]
  · simp [Session.update, note, h.journal]

theorem addRing (h : s.Moved ρ s') (name : Nat) (ring : Ring) (events : List Event) :
    (s.addRing name ring events).Moved ρ (s'.addRing name ring events) := by
  have hnext : ρ s.rings.size = s'.rings.size := h.beyond 0
  have hsize (s : Session) : (s.addRing name ring events).rings.size = s.rings.size + 1 :=
    Array.size_push ..
  refine ⟨h.tokens, h.injective, ?_, ?_, ?_, ?_, h.tasks, h.cancelled, ?_⟩
  · intro place hp
    rw [hsize] at hp ⊢
    by_cases hlast : place = s.rings.size
    · rw [hlast, hnext]
      exact Nat.lt_succ_self _
    · exact Nat.lt_succ_of_lt (h.within place (by omega))
  · intro n
    rw [hsize, hsize, Nat.add_assoc, h.beyond, Nat.add_assoc]
  · intro place
    simp only [ring_addRing, h.rings, ← hnext, h.injective.eq_iff]
  · intro other
    rw [place?_addRing, place?_addRing, h.names, ← hnext]
    split <;> rfl
  · simp [Session.addRing, note, h.journal]

theorem removeTask (h : s.Moved ρ s') (id : Nat) :
    (s.removeTask id).Moved ρ (s'.removeTask id) := by
  refine { h with tasks := ?_ }
  simp only [Session.removeTask, h.tasks, List.filter_map]
  rfl

theorem cancel (h : s.Moved ρ s') (token : Nat) : (s.cancel token).Moved ρ (s'.cancel token) := by
  refine { h with tasks := ?_, cancelled := congrArg (token :: ·) h.cancelled }
  simp only [Session.cancel, h.tasks, h.wakes_eq, List.map_map]
  rfl

/-- A table with one more task. -/
theorem enter (h : s.Moved ρ s') (id : Nat) (task : Task) :
    Moved ρ { s with tasks := (id, task) :: s.tasks }
      { s' with tasks := (id, task.move ρ) :: s'.tasks } :=
  { h with tasks := by rw [h.tasks, List.map_cons] }

/-! ### What a session does -/

theorem abandon (h : s.Moved ρ s') (t : Transfer) :
    MovedResult ρ (s.abandon t) (s'.abandon (t.move ρ)) := by
  unfold Session.abandon
  cases hg : t.grant with
  | none =>
    simp only [Transfer.move, hg]
    exact .ok h []
  | some g =>
    simp only [Transfer.move, hg, h.rings]
    cases (s.ring t.ring).commit g with
    | error f => exact .error f
    | ok committed => exact .ok (h.update ..) _

theorem dropTask (h : s.Moved ρ s') (id : Nat) :
    MovedResult ρ (s.dropTask id) (s'.dropTask id) := by
  unfold Session.dropTask
  rw [h.task_eq]
  cases s.task? id with
  | none => exact .ok h []
  | some task => exact (h.removeTask id).abandon task.transfer

theorem addTask (h : s.Moved ρ s') (id : Nat) (task : Task) :
    MovedResult ρ (s.addTask id task) (s'.addTask id (task.move ρ)) := by
  unfold Session.addTask
  have hdrop := h.dropTask id
  revert hdrop
  generalize s.dropTask id = dropped, s'.dropTask id = dropped'
  rintro (f | ⟨hdropped, events⟩)
  · exact .error f
  · exact .ok (hdropped.enter id task) events

theorem subject_eq (h : s.Moved ρ s') (name : Nat) (e : Errand) :
    s'.subject name e = s.subject name e := by
  cases e with
  | drop id => simp only [Session.subject, h.task_eq, Option.map_map, Task.move, Transfer.move,
      Function.comp_def]
  | isWoken id => simp only [Session.subject, h.task_eq, Option.map_map, Task.move, Transfer.move,
      Function.comp_def]
  | _ => rfl

theorem onRing (h : s.Moved ρ s') (name : Nat) {act act' : Nat → Ring → Effect}
    (hact : ∀ place, (act place (s.ring place)).Moved ρ (act' (ρ place) (s.ring place))) :
    (s.onRing name act).Moved ρ (s'.onRing name act') := by
  unfold Session.onRing
  rw [h.names]
  cases s.place? name with
  | none => exact ⟨h, rfl, rfl⟩
  | some place =>
    simp only [Option.map_some, h.rings]
    exact hact place

theorem errand (h : s.Moved ρ s') (name : Nat) (e : Errand) :
    (s.errand name e).Moved ρ (s'.errand name e) := by
  cases e with
  | create blueprint =>
    simp only [Session.errand]
    split
    · exact ⟨h, rfl, rfl⟩
    · exact ⟨h.addRing .., rfl, rfl⟩
  | operate operation =>
    simp only [Session.errand]
    exact h.onRing name fun place => ⟨h.update .., rfl, rfl⟩
  | inspect =>
    simp only [Session.errand]
    exact h.onRing name fun place => ⟨h, rfl, rfl⟩
  | describe =>
    simp only [Session.errand]
    exact h.onRing name fun place => ⟨h, rfl, rfl⟩
  | drop id =>
    have hdrop := h.dropTask id
    simp only [Session.errand, h.task_eq, Option.isSome_map]
    revert hdrop
    generalize s.dropTask id = dropped, s'.dropTask id = dropped'
    rintro (f | ⟨hdropped, events⟩)
    · exact ⟨h, rfl, rfl⟩
    · exact ⟨hdropped, rfl, rfl⟩
  | isWoken id =>
    simp only [Session.errand, h.task_eq]
    cases s.task? id with
    | none => exact ⟨h, rfl, rfl⟩
    | some task => exact ⟨h, rfl, rfl⟩
  | isCancelled token =>
    simp only [Session.errand, h.isCancelled_eq]
    exact ⟨h, rfl, rfl⟩

theorem spawn (h : s.Moved ρ s') (name id : Nat) (request : Request) (stream : List Turn)
    (token : Nat) :
    (s.spawn name id request stream token).Moved ρ (s'.spawn name id request stream token) := by
  refine h.onRing name fun place => ?_
  have hadd := h.addTask id ⟨⟨name, place, request, stream, none⟩, token, false, none⟩
  simp only [Task.move, Transfer.move] at hadd
  revert hadd
  generalize s.addTask .. = added, s'.addTask .. = added'
  rintro (f | ⟨hadded, events⟩)
  · exact ⟨h, rfl, rfl⟩
  · exact ⟨hadded, rfl, rfl⟩

/-! ### Marks -/

theorem marksAt_eq (h : s.Moved ρ s') (origin place : Nat) (marks : List Mark) :
    marksAt (ρ origin) marks (ρ place) = marksAt origin marks place := by
  simp only [marksAt, h.injective.eq_iff]

theorem dropped_eq (h : s.Moved ρ s') (id place : Nat) :
    s'.dropped id (ρ place) = s.dropped id place := by
  simp only [Session.dropped, h.task_eq]
  cases s.task? id with
  | none => rfl
  | some task =>
    simp only [Option.map_some, Session.parted, Task.move, Transfer.move, h.rings, h.marksAt_eq]

theorem marks_eq (h : s.Moved ρ s') (name place : Nat) (action : Action) :
    s'.marks name (ρ place) action = s.marks name place action := by
  have hnamed : s'.place? name = some (ρ place) ↔ s.place? name = some place := by
    rw [h.names, Option.map_eq_some_iff]
    constructor
    · rintro ⟨q, hq, he⟩
      rw [hq, h.injective he]
    · intro hq
      exact ⟨place, hq, rfl⟩
  unfold Session.marks
  split
  · simp only [hnamed, h.rings]
  · exact h.dropped_eq ..
  · simp only [h.names, Option.isSome_map, h.dropped_eq]
  · rfl

end Moved

end Session

namespace Machine

/-- A machine with the rings of its session at other places. -/
structure Moved (ρ : Nat → Nat) (m n : Machine) : Prop where
  session : m.session.Moved ρ n.session
  focus : n.focus = m.focus.move ρ
  suspended : n.suspended = m.suspended.map (Passage.move ρ)

namespace Moved

variable {m n : Machine} {p : Passage} {g : Grant}

theorem drive (h : m.Moved ρ n) (p : Passage) : (m.drive p).Moved ρ (n.drive (p.move ρ)) :=
  ⟨h.session, rfl, h.suspended⟩

theorem withSession (h : m.Moved ρ n) {s s' : Session} (hs : s.Moved ρ s') :
    Moved ρ { m with session := s } { n with session := s' } :=
  ⟨hs, h.focus, h.suspended⟩

theorem update (h : m.Moved ρ n) (place : Nat) (ring : Ring) (events : List Event) :
    Moved ρ { m with session := m.session.update place ring events }
      { n with session := n.session.update (ρ place) ring events } :=
  h.withSession (h.session.update place ring events)

theorem answer (h : m.Moved ρ n) (name : Nat) (reaction : Reaction Answer) (events : List Event)
    (todo : List Command) (done : List Answer) :
    (m.answer name reaction events todo done).Moved ρ
      (n.answer name reaction events todo done) := by
  refine ⟨h.session, ?_, h.suspended⟩
  simp only [Machine.answer, Focus.move, h.session.standing]

theorem close (h : m.Moved ρ n) (p : Passage) (result : Except Failure Value)
    (events : List Event) : (m.close p result events).Moved ρ (n.close (p.move ρ) result events) :=
  h.answer ..

theorem start (h : m.Moved ρ n) (p : Passage) : (m.start p).Moved ρ (n.start (p.move ρ)) := by
  unfold Machine.start
  simp only [Passage.move, Transfer.move, h.session.rings]
  split
  · exact h.close p _ _
  · exact (h.update ..).drive _

theorem settle (h : m.Moved ρ n) (p : Passage) (g : Grant) (ending : Ending) :
    (m.settle p g ending).Moved ρ (n.settle (p.move ρ) g ending) := by
  unfold Machine.settle
  simp only [Passage.move, Transfer.move, h.session.rings]
  exact (h.update ..).close p _ _

theorem next_eq (h : m.Moved ρ n) (p : Passage) (g : Grant) :
    (p.move ρ).next n.session g = p.next m.session g := by
  simp only [Passage.next, Passage.move, Polling.next, Polling.race, h.session.isCancelled_eq,
    h.session.isReady_eq]

theorem offer (h : m.Moved ρ n) (p : Passage) (g : Grant) :
    (m.offer p g).Moved ρ (n.offer (p.move ρ) g) := by
  unfold Machine.offer
  rw [h.next_eq]
  split
  · exact h.settle p g _
  · simp only [Passage.move, Transfer.move, h.session.rings]
    exact h.drive _

theorem hear (h : m.Moved ρ n) (p : Passage) (g : Grant) (reply : Reply) :
    (m.hear p g reply).Moved ρ (n.hear (p.move ρ) g reply) := by
  rw [hear_eq, hear_eq]
  split
  · exact h.drive _
  · exact h.settle p.closeCall _ _

theorem wait (h : m.Moved ρ n) (p : Passage) (q : Polling) :
    (m.wait p q).Moved ρ (n.wait (p.move ρ) q) := by
  unfold Machine.wait
  dsimp only
  split
  · exact h.drive _
  · have hadd := h.session.addTask q.task ⟨p.transfer, q.token, q.woken, q.awaits⟩
    simp only [Task.move] at hadd
    simp only [Passage.closeCall, Passage.move]
    revert hadd
    generalize m.session.addTask .. = added, n.session.addTask .. = added'
    rintro (f | ⟨hadded, events⟩)
    · exact h.close p.closeCall _ _
    · exact (h.withSession hadded).answer ..

theorem respond_eq (p : Passage) (d : Direction) (room : Nat) :
    (p.move ρ).respond d room = p.respond d room := rfl

theorem turn (h : m.Moved ρ n) (p : Passage) (g : Grant) :
    (m.turn p g).Moved ρ (n.turn (p.move ρ) g) := by
  rw [turn_eq, turn_eq, respond_eq]
  simp only [Passage.move, Transfer.move, h.session.rings]
  cases p.respond g.direction ((m.session.ring p.transfer.ring).room g) with
  | mk response stream =>
    cases response with
    | answer written reply => exact (h.update ..).hear (p.withStream stream) g reply
    | perform commands =>
      refine ⟨h.session, rfl, ?_⟩
      simp only [h.suspended, List.map_cons]
      rfl
    | wait q => exact h.wait (p.withStream stream) q

theorem poll (h : m.Moved ρ n) (name id : Nat) (again : Bool) (todo : List Command)
    (done : List Answer) :
    (m.poll name id again todo done).Moved ρ (n.poll name id again todo done) := by
  unfold Machine.poll
  rw [h.session.task_eq]
  cases m.session.task? id with
  | none => exact h.answer ..
  | some task => exact (h.withSession (h.session.removeTask id)).drive _

theorem obey (h : m.Moved ρ n) (name : Nat) (action : Action) (todo : List Command)
    (done : List Answer) :
    (m.obey name action todo done).Moved ρ (n.obey name action todo done) := by
  have happly {e e' : Session.Effect} (he : e.Moved ρ e') (name : Nat) :
      (m.apply name e todo done).Moved ρ (n.apply name e' todo done) := by
    unfold Machine.apply
    rw [he.reaction, he.events]
    exact (h.withSession he.session).answer ..
  cases action with
  | errand e =>
    simp only [Machine.obey, h.session.subject_eq]
    exact happly (h.session.errand name e) _
  | transfer request stream =>
    simp only [Machine.obey, h.session.names]
    cases m.session.place? name with
    | none => exact h.answer ..
    | some place => exact h.drive _
  | spawn id request stream token => exact happly (h.session.spawn ..) name
  | poll id => exact h.poll ..
  | run id => exact h.poll ..
  | cancel token =>
    have hwoken : n.suspended.map (Passage.wake token (n.session.wakes token))
        = (m.suspended.map (Passage.wake token (m.session.wakes token))).map
          (Passage.move ρ) := by
      simp only [h.suspended, h.session.wakes_eq, List.map_map]
      rfl
    have hcancel : Moved ρ
        ⟨m.session.cancel token, m.focus,
          m.suspended.map (Passage.wake token (m.session.wakes token))⟩
        ⟨n.session.cancel token, n.focus,
          n.suspended.map (Passage.wake token (n.session.wakes token))⟩ :=
      ⟨h.session.cancel token, h.focus, hwoken⟩
    exact hcancel.answer ..

/-- Both machines make the same steps. -/
theorem step (h : m.Moved ρ n) : (m.step = none ∧ n.step = none) ∨
    ∃ m' n', m.step = some m' ∧ n.step = some n' ∧ m'.Moved ρ n' := by
  unfold Machine.step
  rw [h.focus]
  cases hf : m.focus with
  | commands todo done =>
    cases todo with
    | nil =>
      rw [h.suspended]
      cases hs : m.suspended with
      | nil => exact .inl ⟨rfl, rfl⟩
      | cons p rest => exact .inr ⟨_, _, rfl, rfl, h.session, rfl, rfl⟩
    | cons command todo =>
      cases command with
      | on name action => exact .inr ⟨_, _, rfl, rfl, h.obey name action todo done⟩
  | transfer p =>
    refine .inr ?_
    simp only [Focus.move]
    cases hg : p.transfer.grant with
    | none => exact ⟨_, _, rfl, by simp only [Passage.move, Transfer.move, hg], h.start p⟩
    | some g =>
      by_cases hcur : p.current.isSome
      · refine ⟨_, _, if_pos hcur, ?_, h.turn p g⟩
        simp only [Passage.move, Transfer.move, hg, hcur, if_true]
      · refine ⟨_, _, if_neg hcur, ?_, h.offer p g⟩
        simp only [Passage.move, Transfer.move, hg, hcur]
        rfl

/-! ### What is seen -/

/-- What has been answered so far. -/
theorem answers_eq (h : m.Moved ρ n) : n.answers = m.answers := by
  unfold Machine.answers
  rw [h.focus]
  cases m.focus <;> rfl

/-- The next step leaves the same marks on each ring. -/
theorem marks_eq (h : m.Moved ρ n) (place : Nat) : n.marks (ρ place) = m.marks place := by
  unfold Machine.marks
  rw [h.focus]
  cases m.focus with
  | commands todo done =>
    cases todo with
    | nil => rfl
    | cons command todo =>
      cases command with
      | on name action => exact h.session.marks_eq name place action
  | transfer p =>
    have hparks (r : Ring) : (p.move ρ).parks? r = p.parks? r := rfl
    have hmarks (r : Ring) : (p.move ρ).marks r n.session = p.marks r m.session := by
      simp only [Passage.marks, h.next_eq]
      rfl
    have hring : n.session.ring (p.move ρ).transfer.ring = m.session.ring p.transfer.ring :=
      h.session.rings _
    simp only [Focus.move, hring, hparks, hmarks, h.session.dropped_eq]
    rw [show (p.move ρ).transfer.ring = ρ p.transfer.ring from rfl, h.session.marksAt_eq]

/-! ### Runs -/

/-- What one machine does, the other does too. -/
theorem stirs (h : m.Moved ρ n) {place : Nat} {marks : List Mark} {m' : Machine}
    (hm : m.Stirs place marks m') : ∃ n', n.Stirs (ρ place) marks n' ∧ m'.Moved ρ n' := by
  cases hm with
  | step hs =>
    obtain ⟨hnone, -⟩ | ⟨m₁, n', hm₁, hn, hmoved⟩ := h.step
    · cases hnone.symm.trans hs
    · cases hm₁.symm.trans hs
      exact ⟨n', h.marks_eq place ▸ .step hn, hmoved⟩
  | scribble hw =>
    cases hw with
    | @write p g data hf hg hput hcall hfits =>
      have hring : n.session.ring (ρ p.transfer.ring) = m.session.ring p.transfer.ring :=
        h.session.rings _
      have hfocus : n.focus = .transfer (p.move ρ) := by rw [h.focus, hf]; rfl
      have hw : n.Scribbles (ρ place) _ _ :=
        .write hfocus hg hput hcall (hring.symm ▸ hfits)
      rw [show (p.move ρ).transfer.ring = ρ p.transfer.ring from rfl, hring,
        h.session.marksAt_eq] at hw
      exact ⟨_, .scribble hw, h.update ..⟩

theorem roams (h : m.Moved ρ n) {place : Nat} {marks : List Mark} {m' : Machine}
    (hm : m.Roams place marks m') : ∃ n', n.Roams (ρ place) marks n' ∧ m'.Moved ρ n' := by
  induction hm with
  | refl => exact ⟨n, .refl, h⟩
  | stir _ hstir ih =>
    obtain ⟨n₁, hn₁, hmoved⟩ := ih
    obtain ⟨n', hn', hmoved'⟩ := hmoved.stirs hstir
    exact ⟨n', hn₁.stir hn', hmoved'⟩

/-- And the other way round. -/
theorem stirs_back (h : m.Moved ρ n) {place : Nat} {marks : List Mark} {n' : Machine}
    (hn : n.Stirs (ρ place) marks n') : ∃ m', m.Stirs place marks m' ∧ m'.Moved ρ n' := by
  cases hn with
  | step hs =>
    obtain ⟨-, hnone⟩ | ⟨m', n₁, hm, hn₁, hmoved⟩ := h.step
    · cases hnone.symm.trans hs
    · cases hn₁.symm.trans hs
      exact ⟨m', (h.marks_eq place).symm ▸ .step hm, hmoved⟩
  | scribble hw =>
    cases hw with
    | @write q g data hf hg hput hcall hfits =>
      have hfocus := h.focus
      rw [hf] at hfocus
      cases hm : m.focus with
      | commands todo done =>
        rw [hm] at hfocus
        cases hfocus
      | transfer p =>
        rw [hm] at hfocus
        cases hfocus
        have hring : n.session.ring (p.move ρ).transfer.ring = m.session.ring p.transfer.ring :=
          h.session.rings _
        have hw : m.Scribbles place _ _ := .write hm hg hput hcall (hring ▸ hfits)
        rw [hring, show (p.move ρ).transfer.ring = ρ p.transfer.ring from rfl,
          h.session.marksAt_eq]
        exact ⟨_, .scribble hw, h.update ..⟩

theorem roams_back (h : m.Moved ρ n) {place : Nat} {marks : List Mark} {n' : Machine}
    (hn : n.Roams (ρ place) marks n') : ∃ m', m.Roams place marks m' ∧ m'.Moved ρ n' := by
  induction hn with
  | refl => exact ⟨m, .refl, h⟩
  | stir _ hstir ih =>
    obtain ⟨m₁, hm₁, hmoved⟩ := ih
    obtain ⟨m', hm', hmoved'⟩ := hmoved.stirs_back hstir
    exact ⟨m', hm₁.stir hm', hmoved'⟩

end Moved

end Machine

end CyclicBuffer
