import CyclicBuffer.Proofs.Chronicle
import CyclicBuffer.Proofs.Handover

/-!
# Steps and their marks

What one step of a session machine can do (`Machine.step_iff`), what a stream answers in its next
turn (`Machine.turn_eq`), and the marks that the step leaves in the chronicle of each ring
(`Machine.marks`).
-/

namespace CyclicBuffer

/-! ## Responses -/

/-- What a stream does in its next turn. -/
inductive Passage.Response where
  /-- It writes bytes and answers the call. -/
  | answer (written : Bytes) (reply : Reply)
  | perform (commands : List Command)
  /-- It makes its caller wait. -/
  | wait (polling : Polling)

/-- The response of the stream to a call that offers so much room, and its turns from then on. -/
def Passage.respond (p : Passage) (d : Direction) (room : Nat) : Response × List Turn :=
  match p.transfer.stream with
  | [] =>
    match d with
    | .put => (.answer [] (.moved 0), [])
    | .take => (.answer [] (.moved room), [])
  | .perform commands :: stream => (.perform commands, stream)
  | .deliver data :: stream =>
    let moved := min data.length room
    let rest := data.drop moved
    let stream := if rest.isEmpty then stream else .deliver rest :: stream
    match d with
    | .put => (.answer (data.take moved) (.moved moved), stream)
    | .take => (.answer [] (.moved moved), stream)
  | .accept count :: stream => (.answer [] (.moved (min count room)), stream)
  | .claim count :: stream => (.answer [] (.moved count), stream)
  | .spill data count :: stream =>
    match d with
    | .put => (.answer (data.take room) (.moved (min (max 1 count) room)), stream)
    | .take => (.answer [] (.moved (min (max 1 count) room)), stream)
  | .fail e :: stream => (.answer [] (.failed e), stream)
  | .raise text :: stream => (.answer [] (.raised text), stream)
  | .suspend wake :: stream =>
    match p.polling with
    | none => (.answer [] (.failed (.bare .wouldBlock)), stream)
    | some q => (.wait { q with woken := q.woken || wake }, stream)

@[simp] theorem Ring.receive_nil (r : Ring) (g : Grant) : r.receive g [] = r := rfl

@[simp] theorem Session.update_ring (s : Session) (place : Nat) :
    s.update place (s.ring place) [] = s := by
  have hrings : s.rings.setIfInBounds place (s.ring place) = s.rings := by
    by_cases hp : place < s.rings.size
    · simp [Session.ring, Array.getD_eq_getD_getElem?, Array.setIfInBounds, hp]
    · exact Array.setIfInBounds_eq_of_size_le (by omega)
  simp [update, note, hrings]

theorem Passage.withStream_nil {p : Passage} (h : p.transfer.stream = []) :
    p.withStream [] = p := by
  obtain ⟨⟨name, ring, request, stream, grant⟩, polling, calls, current, events, todo, done⟩ := p
  obtain rfl : stream = [] := h
  rfl

namespace Machine

/-- What a step can do. -/
inductive Steps (m : Machine) : Machine → Prop
  | resume {p : Passage} {rest : List Passage} {done : List Answer}
      (focus : m.focus = .commands [] done) (suspended : m.suspended = p :: rest) :
      Steps m { m with focus := .transfer (p.resume done), suspended := rest }
  | obey {name : Nat} {action : Action} {todo : List Command} {done : List Answer}
      (focus : m.focus = .commands (.on name action :: todo) done) :
      Steps m (m.obey name action todo done)
  | start {p : Passage} (focus : m.focus = .transfer p) (grant : p.transfer.grant = none) :
      Steps m (m.start p)
  | turn {p : Passage} {g : Grant} (focus : m.focus = .transfer p)
      (grant : p.transfer.grant = some g) (call : p.current.isSome) : Steps m (m.turn p g)
  | offer {p : Passage} {g : Grant} (focus : m.focus = .transfer p)
      (grant : p.transfer.grant = some g) (idle : p.current = none) : Steps m (m.offer p g)

theorem step_iff {m m' : Machine} : m.step = some m' ↔ m.Steps m' := by
  constructor
  · intro h
    unfold step at h
    split at h
    · split at h
      · cases h
      · cases h
        exact .resume ‹_› ‹_›
    · cases h
      exact .obey ‹_›
    · split at h
      · cases h
        exact .start ‹_› ‹_›
      · split at h <;> cases h
        · exact .turn ‹_› ‹_› ‹_›
        · exact .offer ‹_› ‹_› (Option.not_isSome_iff_eq_none.1 ‹_›)
  · rintro (⟨hf, hsus⟩ | hf | ⟨hf, hg⟩ | ⟨hf, hg, hcall⟩ | ⟨hf, hg, hidle⟩)
    · simp only [step, hf, hsus]
    · simp only [step, hf]
    · simp only [step, hf, hg]
    · simp only [step, hf, hg, hcall, if_true]
    · simp only [step, hf, hg, hidle, Option.isSome_none, Bool.false_eq_true, if_false]

/-- The next turn goes as the stream responds. -/
theorem turn_eq (m : Machine) (p : Passage) (g : Grant) :
    m.turn p g =
      match p.respond g.direction ((m.session.ring p.transfer.ring).room g) with
      | (.answer written reply, stream) =>
        { m with
          session := m.session.update p.transfer.ring
            ((m.session.ring p.transfer.ring).receive g written) [] }.hear
          (p.withStream stream) g reply
      | (.perform commands, stream) =>
        { m with
          focus := .commands commands ((p.current.map fun call => call.nested).getD [])
          suspended := p.withStream stream :: m.suspended }
      | (.wait q, stream) => m.wait (p.withStream stream) q := by
  unfold turn deliver Session.receive Passage.respond
  cases hs : p.transfer.stream with
  | nil => cases g.direction <;> simp [p.withStream_nil hs]
  | cons turn stream =>
    cases turn with
    | deliver data => cases g.direction <;> simp [Passage.withStream]
    | spill data count => cases g.direction <;> simp [Passage.withStream]
    | suspend wake => cases hp : p.polling <;> simp [Passage.withStream, hp]
    | _ => simp [Passage.withStream]

end Machine

/-- A source writes no more than it is offered, and a sink writes nothing. -/
theorem Passage.respond_accepts {p : Passage} {r : Ring} {g : Grant} {written : Bytes}
    {reply : Reply} {stream : List Turn}
    (h : p.respond g.direction (r.room g) = (.answer written reply, stream)) :
    r.Accepts g written := by
  unfold respond at h
  split at h
  · split at h <;> cases h <;> exact ⟨Nat.zero_le _, fun _ => rfl⟩
  · cases h
  · split at h <;> rename_i hd <;> cases h
    · refine ⟨?_, fun ht => by rw [hd] at ht; cases ht⟩
      rw [List.length_take]
      omega
    · exact ⟨Nat.zero_le _, fun _ => rfl⟩
  · cases h
    exact ⟨Nat.zero_le _, fun _ => rfl⟩
  · cases h
    exact ⟨Nat.zero_le _, fun _ => rfl⟩
  · split at h <;> rename_i hd <;> cases h
    · refine ⟨?_, fun ht => by rw [hd] at ht; cases ht⟩
      rw [List.length_take]
      omega
    · exact ⟨Nat.zero_le _, fun _ => rfl⟩
  · cases h
    exact ⟨Nat.zero_le _, fun _ => rfl⟩
  · cases h
    exact ⟨Nat.zero_le _, fun _ => rfl⟩
  · split at h <;> cases h
    exact ⟨Nat.zero_le _, fun _ => rfl⟩

/-- Only a caller that can be polled is made to wait. -/
theorem Passage.respond_suspended {p : Passage} {d : Direction} {room : Nat} {q : Polling}
    {stream : List Turn} (h : p.respond d room = (.wait q, stream)) :
    ∃ wake q₀, p.transfer.stream = .suspend wake :: stream ∧ p.polling = some q₀ ∧
      q = { q₀ with woken := q₀.woken || wake } := by
  unfold respond at h
  split at h
  · split at h <;> cases h
  · cases h
  · split at h <;> cases h
  · cases h
  · cases h
  · split at h <;> cases h
  · cases h
  · cases h
  · rename_i wake _ hs
    split at h
    · cases h
    · rename_i q₀ hq₀
      cases h
      exact ⟨wake, q₀, hs, hq₀, rfl⟩

/-- Whoever is made to wait stays woken. -/
theorem Passage.respond_wait {p : Passage} {d : Direction} {room : Nat} {q : Polling}
    {stream : List Turn} (h : p.respond d room = (.wait q, stream)) :
    ∃ q₀, p.polling = some q₀ ∧ q.token = q₀.token ∧ (q₀.woken = true → q.woken = true) := by
  obtain ⟨wake, q₀, -, hq₀, rfl⟩ := respond_suspended h
  exact ⟨q₀, hq₀, rfl, fun hw => by simp [hw]⟩

/-! ## Marks of a step -/

/-- The marks of a call that is answered. The answer may end the transfer. -/
def Ring.answered (r : Ring) (g : Grant) (written : Bytes) (reply : Reply) : List Mark :=
  .replied g.direction (r.offer g) written reply ::
    match g.hear reply with
    | (_, none) => []
    | (g', some ending) => [(r.receive g written).finished g' (some ending)]

/-- What the next step of a transfer does to its ring. -/
def Passage.marks (p : Passage) (r : Ring) (s : Session) : List Mark :=
  let d := p.transfer.request.purpose.direction
  let count := p.transfer.request.count
  match p.transfer.grant with
  | none =>
    match r.reserve d count with
    | .error _ => []
    | .ok _ => [r.begun d count]
  | some g =>
    if p.current.isSome then
      match p.respond g.direction (r.room g) with
      | (.answer written reply, _) => r.answered g written reply
      | (.perform _, _) => []
      | (.wait _, _) => [.waited g.direction]
    else
      match p.next s g with
      | .leave ending => [r.finished g (some ending)]
      | .call _ => [.offered g.direction (r.offer g)]

/-- The task under whose name a passage goes into the table with its next step. -/
def Passage.parks? (p : Passage) (r : Ring) : Option Nat :=
  match p.transfer.grant with
  | none => none
  | some g =>
    if p.current.isSome then
      match p.respond g.direction (r.room g) with
      | (.wait q, _) =>
        if q.again && q.woken && q.polls < maxPolls then none else some q.task
      | _ => none
    else none

/-- The marks of one ring among all. -/
def marksAt (place : Nat) (marks : List Mark) (q : Nat) : List Mark :=
  if place = q then marks else []

namespace Session

/-- The mark of a transfer that is let go, if it has started. -/
def parted (s : Session) (t : Transfer) : Nat → List Mark :=
  marksAt t.ring (t.grant.toList.map fun g => (s.ring t.ring).finished g none)

/-- The mark of a task that is let go. -/
def dropped (s : Session) (id place : Nat) : List Mark :=
  match s.task? id with
  | none => []
  | some task => s.parted task.transfer place

/-- What an action that is done at once does to a ring. -/
def marks (s : Session) (name place : Nat) : Action → List Mark
  | .errand (.operate operation) =>
    if s.place? name = some place then [(s.ring place).operated operation] else []
  | .errand (.drop id) => s.dropped id place
  | .spawn id _ _ _ => if (s.place? name).isSome then s.dropped id place else []
  | _ => []

end Session

/-- What the next step does to the ring at a place. -/
def Machine.marks (m : Machine) (place : Nat) : List Mark :=
  match m.focus with
  | .commands [] _ => []
  | .commands (.on name action :: _) _ => m.session.marks name place action
  | .transfer p =>
    let ring := m.session.ring p.transfer.ring
    marksAt p.transfer.ring (p.marks ring m.session) place ++
      match p.parks? ring with
      | none => []
      | some id => m.session.dropped id place

end CyclicBuffer
