import CyclicBuffer.Session.Machine

/-!
# Runs

Every step of the machine uses something up: a command, a turn of a script, a byte still to be
moved, or one of the few phases between them. `Machine.weight` counts these, and `step_weight` says
that a step makes it smaller. So the machine comes to its end, whatever its scripts say, and a run
lets it step until it stops. What a list of commands answers is what the machine has answered at the
end of its run.
-/

namespace CyclicBuffer

/-! ## Scripts -/

mutual

def Action.weight : Action → Nat
  | .errand _ => 1
  | .transfer request stream => 2 * request.count + turnsWeight stream + 4
  | .spawn _ request stream _ => 2 * request.count + turnsWeight stream + 2
  | .poll _ => 3
  | .run _ => 3
  | .cancel _ => 1

def Command.weight : Command → Nat
  | .on _ action => action.weight

def commandsWeight : List Command → Nat
  | [] => 0
  | c :: cs => c.weight + commandsWeight cs

def Turn.weight : Turn → Nat
  | .perform commands => commandsWeight commands + 2
  | _ => 2

def turnsWeight : List Turn → Nat
  | [] => 0
  | t :: ts => t.weight + turnsWeight ts

end

/-! ## Transfers and machines -/

/-- A transfer that has started still has bytes to move; one that has not, all that it asks for. -/
def Transfer.weight (t : Transfer) : Nat :=
  turnsWeight t.stream +
    match t.grant with
    | none => 2 * t.request.count + 1
    | some g => 2 * g.remaining

def Passage.weight (p : Passage) : Nat :=
  p.transfer.weight + (if p.current.isSome then 1 else 2) + commandsWeight p.todo + 1

def Focus.weight : Focus → Nat
  | .commands todo _ => commandsWeight todo + 1
  | .transfer p => p.weight

def tasksWeight : List (Nat × Task) → Nat
  | [] => 0
  | (_, task) :: tasks => task.transfer.weight + tasksWeight tasks

def passagesWeight : List Passage → Nat
  | [] => 0
  | p :: ps => p.weight + passagesWeight ps

def Machine.weight (m : Machine) : Nat :=
  m.focus.weight + passagesWeight m.suspended + tasksWeight m.session.tasks

/-! ## Tables -/

theorem tasksWeight_filter (f : Nat × Task → Bool) (tasks : List (Nat × Task)) :
    tasksWeight (tasks.filter f) ≤ tasksWeight tasks := by
  induction tasks with
  | nil => simp [tasksWeight]
  | cons entry tasks ih =>
    obtain ⟨id, task⟩ := entry
    simp only [List.filter_cons]
    split <;> simp only [tasksWeight] <;> omega

/-- Taking a task out of the table takes its weight out. -/
theorem tasksWeight_remove {tasks : List (Nat × Task)} {id : Nat} {task : Task}
    (h : tasks.lookup id = some task) :
    task.transfer.weight + tasksWeight (tasks.filter fun entry => entry.1 != id)
      ≤ tasksWeight tasks := by
  induction tasks with
  | nil => simp at h
  | cons entry tasks ih =>
    obtain ⟨id', task'⟩ := entry
    rw [List.lookup_cons] at h
    by_cases hid : id == id'
    · simp only [hid, Option.some.injEq] at h
      have : id = id' := by simpa using hid
      subst this h
      have := tasksWeight_filter (fun entry => entry.1 != id) tasks
      simpa [tasksWeight] using this
    · simp only [Bool.not_eq_true] at hid
      simp only [hid] at h
      have := ih h
      simp only [List.filter_cons]
      split <;> simp only [tasksWeight] <;> omega

theorem tasksWeight_map_wake (token : Nat) (wakes : Nat → Bool) (tasks : List (Nat × Task)) :
    tasksWeight (tasks.map fun entry => (entry.1, entry.2.wake token wakes))
      = tasksWeight tasks := by
  induction tasks with
  | nil => rfl
  | cons entry tasks ih =>
    rw [List.map_cons]
    show (entry.2.wake token wakes).transfer.weight + _ = _
    rw [ih]
    rfl

theorem passagesWeight_map_wake (token : Nat) (wakes : Nat → Bool) (ps : List Passage) :
    passagesWeight (ps.map (Passage.wake token wakes)) = passagesWeight ps := by
  induction ps with
  | nil => rfl
  | cons p ps ih => simp only [List.map_cons, passagesWeight, ih, Passage.weight, Passage.wake]

/-! ## Sessions -/

namespace Session

@[simp] theorem tasks_update (s : Session) (place : Nat) (ring : Ring) (events : List Event) :
    (s.update place ring events).tasks = s.tasks := rfl

@[simp] theorem tasks_receive (s : Session) (place : Nat) (g : Grant) (data : Bytes) :
    (s.receive place g data).tasks = s.tasks := by
  unfold receive
  split <;> rfl

theorem tasks_abandon {s s' : Session} {t : Transfer} {events : List Event}
    (h : s.abandon t = .ok (s', events)) : s'.tasks = s.tasks := by
  unfold abandon at h
  split at h
  · simp only [Except.ok.injEq, Prod.mk.injEq] at h
    rw [← h.1]
  · rename_i g _
    cases hc : (s.ring t.ring).commit g with
    | error f => simp [hc, Except.map] at h
    | ok v =>
      obtain ⟨ring, es⟩ := v
      simp only [hc, Except.map, Except.ok.injEq, Prod.mk.injEq] at h
      rw [← h.1]
      rfl

theorem tasksWeight_dropTask {s s' : Session} {id : Nat} {events : List Event}
    (h : s.dropTask id = .ok (s', events)) : tasksWeight s'.tasks ≤ tasksWeight s.tasks := by
  unfold dropTask at h
  split at h
  · simp only [Except.ok.injEq, Prod.mk.injEq] at h
    obtain ⟨rfl, -⟩ := h
    exact Nat.le_refl _
  · rw [tasks_abandon h]
    exact tasksWeight_filter _ _

theorem tasksWeight_addTask {s s' : Session} {id : Nat} {task : Task} {events : List Event}
    (h : s.addTask id task = .ok (s', events)) :
    tasksWeight s'.tasks ≤ task.transfer.weight + tasksWeight s.tasks := by
  unfold addTask at h
  cases hd : s.dropTask id with
  | error f => simp [hd, Except.map] at h
  | ok v =>
    obtain ⟨dropped, es⟩ := v
    have hle := tasksWeight_dropTask hd
    simp only [hd, Except.map, Except.ok.injEq, Prod.mk.injEq] at h
    rw [← h.1]
    simp only [tasksWeight]
    omega

theorem tasksWeight_errand (s : Session) (name : Nat) (e : Errand) :
    tasksWeight (s.errand name e).session.tasks ≤ tasksWeight s.tasks := by
  cases e with
  | create blueprint =>
    simp only [errand]
    split <;> exact Nat.le_refl _
  | operate operation =>
    simp only [errand, onRing]
    split <;> exact Nat.le_refl _
  | inspect =>
    simp only [errand, onRing]
    split <;> exact Nat.le_refl _
  | describe =>
    simp only [errand, onRing]
    split <;> exact Nat.le_refl _
  | drop id =>
    simp only [errand]
    split
    · exact Nat.le_refl _
    · rename_i h
      exact tasksWeight_dropTask h
  | isWoken id =>
    simp only [errand]
    split <;> exact Nat.le_refl _
  | isCancelled token => exact Nat.le_refl _

theorem tasksWeight_spawn (s : Session) (name id : Nat) (request : Request) (stream : List Turn)
    (token : Nat) :
    tasksWeight (s.spawn name id request stream token).session.tasks
      ≤ 2 * request.count + turnsWeight stream + 1 + tasksWeight s.tasks := by
  simp only [spawn, onRing]
  split
  · simp only; omega
  · split
    · simp only; omega
    · rename_i h
      have := tasksWeight_addTask h
      simp only [Transfer.weight] at this
      simp only
      omega

end Session

/-! ## Replies -/

/-- Both families of loops make the same of a reply. -/
theorem Grant.heed_eq (g : Grant) (reply : Reply) : g.heed reply = g.hear reply := by
  cases reply with
  | moved count => cases count <;> rfl
  | failed e => rfl
  | raised text => rfl

@[simp] theorem Passage.hear_eq (p : Passage) (g : Grant) (reply : Reply) :
    p.hear g reply = g.hear reply := by
  unfold hear
  split
  · rfl
  · exact g.heed_eq reply

/-- A reply that keeps the transfer going moves what it says, which is at least one byte. -/
theorem Grant.hear_none {g g' : Grant} {reply : Reply} (h : g.hear reply = (g', none)) :
    g'.remaining ≤ g.remaining ∧
      ∀ count, reply = .moved count → 1 ≤ count ∧ g'.remaining + count ≤ g.remaining := by
  cases reply with
  | moved count =>
    cases count with
    | zero => simp [hear] at h
    | succ n =>
      simp only [hear, advance] at h
      by_cases hlt : g.remaining < n + 1
      · simp [hlt] at h
      · simp only [hlt, if_false, Prod.mk.injEq, and_true] at h
        subst h
        simp only [remaining] at hlt ⊢
        refine ⟨by omega, fun count hc => ?_⟩
        cases hc
        omega
  | failed e =>
    simp only [hear, Prod.mk.injEq] at h
    rw [h.1]
    exact ⟨Nat.le_refl _, by simp⟩
  | raised text => simp [hear] at h

theorem Machine.hear_eq (m : Machine) (p : Passage) (g : Grant) (reply : Reply) :
    m.hear p g reply = match g.hear reply with
      | (g, none) => m.drive (p.closeCall.endRace.withGrant g)
      | (g, some ending) => m.settle p.closeCall g ending := by
  cases h : g.hear reply with
  | mk g' ending => cases ending <;> simp only [hear, p.hear_eq, h]

/-- A grant is for as many bytes as were asked for, of which none has been moved. -/
theorem Ring.reserve_grant {r r' : Ring} {direction : Direction} {count : Nat} {g : Grant}
    {events : List Event} (h : r.reserve direction count = .ok (g, r', events)) :
    g.direction = direction ∧ g.region.count = count ∧ g.moved = 0 := by
  unfold Ring.reserve at h
  cases direction with
  | put =>
    simp only [Occupancy.reserve, Occupancy.reservePut] at h
    split at h
    · simp [Except.map] at h
    split at h
    · simp [Except.map] at h
    split at h
    · simp only [Except.map, Occupancy.holdPut, Except.ok.injEq, Prod.mk.injEq] at h
      rw [← h.1]
      exact ⟨rfl, rfl, rfl⟩
    split at h
    · simp only [Except.map, Occupancy.holdPut, Except.ok.injEq, Prod.mk.injEq] at h
      rw [← h.1]
      exact ⟨rfl, rfl, rfl⟩
    · simp [Except.map] at h
  | take =>
    simp only [Occupancy.reserve, Occupancy.reserveTake] at h
    cases hc : r.occupancy.checkTake count with
    | error e => simp [hc, Except.map] at h
    | ok u =>
      simp only [hc, Except.map, Except.ok.injEq, Prod.mk.injEq] at h
      rw [← h.1]
      exact ⟨rfl, rfl, rfl⟩

theorem Ring.reserve_remaining {r r' : Ring} {direction : Direction} {count : Nat} {g : Grant}
    {events : List Event} (h : r.reserve direction count = .ok (g, r', events)) :
    g.remaining = count := by
  obtain ⟨-, hcount, hmoved⟩ := Ring.reserve_grant h
  rw [Grant.remaining, hcount, hmoved, Nat.sub_zero]

/-! ## Steps -/

namespace Machine

/-- What a machine weighs beside its focus. -/
def backWeight (m : Machine) : Nat := passagesWeight m.suspended + tasksWeight m.session.tasks

theorem weight_answer (m : Machine) (name : Nat) (reaction : Reaction Answer)
    (events : List Event) (todo : List Command) (done : List Answer) :
    (m.answer name reaction events todo done).weight
      = commandsWeight todo + 1 + m.backWeight := by
  simp only [answer, weight, Focus.weight, backWeight]
  omega

theorem weight_close (m : Machine) (p : Passage) (result : Except Failure Value)
    (events : List Event) :
    (m.close p result events).weight = commandsWeight p.todo + 1 + m.backWeight :=
  m.weight_answer ..

theorem weight_settle (m : Machine) (p : Passage) (g : Grant) (ending : Ending) :
    (m.settle p g ending).weight = commandsWeight p.todo + 1 + m.backWeight :=
  weight_answer ..

theorem weight_drive (m : Machine) (p : Passage) :
    (m.drive p).weight = p.weight + m.backWeight := by
  simp only [drive, weight, Focus.weight, backWeight]
  omega

theorem weight_start (m : Machine) (p : Passage) (h : p.transfer.grant = none) :
    (m.start p).weight < p.weight + m.backWeight := by
  simp only [start]
  split
  · rw [weight_close]
    simp only [Passage.weight]
    split <;> omega
  · rename_i g ring events hr
    rw [weight_drive]
    have := Ring.reserve_remaining hr
    cases hc : p.current.isSome <;>
      simp only [backWeight, Session.tasks_update, Passage.weight, Passage.withGrant,
        Transfer.weight, h, hc, Bool.false_eq_true, if_false, if_true] <;>
      omega

theorem weight_offer (m : Machine) (p : Passage) (g : Grant) (hc : p.current.isSome = false) :
    (m.offer p g).weight < p.weight + m.backWeight := by
  simp only [offer]
  split
  · rw [weight_settle]
    simp only [Passage.weight, hc, Bool.false_eq_true, if_false]
    omega
  · rw [weight_drive]
    simp only [Passage.weight, hc, Bool.false_eq_true, if_false, Option.isSome_some, if_true]
    omega

/-- Hearing a reply uses up the call, a turn, or the bytes that were moved. -/
theorem weight_hear (m : Machine) (p : Passage) (g : Grant) (reply : Reply) (turns : Nat)
    (hmoved : ∀ count, reply = .moved count →
      turnsWeight p.transfer.stream ≤ turns ∧ 1 ≤ count ∨
        turnsWeight p.transfer.stream + 2 ≤ turns ∨ count = 0)
    (hother : (∀ count, reply ≠ .moved count) → turnsWeight p.transfer.stream + 2 ≤ turns) :
    (m.hear p g reply).weight
      < turns + 2 * g.remaining + commandsWeight p.todo + 2 + m.backWeight := by
  rw [hear_eq]
  split
  · rename_i g' h
    obtain ⟨hle, hcount⟩ := Grant.hear_none h
    rw [weight_drive]
    simp only [Passage.weight, Passage.withGrant, Passage.closeCall, Passage.endRace,
      Transfer.weight, Option.isSome_none, Bool.false_eq_true, if_false]
    cases reply with
    | moved count =>
      obtain ⟨h1, h2⟩ := hcount count rfl
      rcases hmoved count rfl with h | h | h <;> omega
    | failed e =>
      have := hother (by simp)
      omega
    | raised text =>
      have := hother (by simp)
      omega
  · rw [weight_settle]
    simp only [Passage.closeCall]
    omega

/-- Hearing a reply that used up a turn. -/
theorem weight_hear_turn (m : Machine) (p : Passage) (g : Grant) (reply : Reply)
    (stream : List Turn) :
    (m.hear (p.withStream stream) g reply).weight
      < 2 + turnsWeight stream + 2 * g.remaining + commandsWeight p.todo + 2 + m.backWeight := by
  have h : turnsWeight (p.withStream stream).transfer.stream + 2 ≤ 2 + turnsWeight stream := by
    simp only [Passage.withStream]
    omega
  exact m.weight_hear (p.withStream stream) g reply _ (fun _ _ => .inr (.inl h)) fun _ => h

theorem weight_wait (m : Machine) (p : Passage) (q : Polling) (turns : Nat) (g : Grant)
    (hg : p.transfer.grant = some g) (ht : turnsWeight p.transfer.stream + 2 ≤ turns) :
    (m.wait p q).weight < turns + 2 * g.remaining + commandsWeight p.todo + 2 + m.backWeight := by
  simp only [wait]
  split
  · rw [weight_drive]
    simp only [Passage.weight, Passage.closeCall, Transfer.weight, hg, Option.isSome_none,
      Bool.false_eq_true, if_false]
    omega
  · split
    · rw [weight_close]
      simp only [Passage.closeCall]
      omega
    · rename_i h
      have := Session.tasksWeight_addTask h
      rw [weight_answer]
      simp only [Passage.closeCall, Transfer.weight, hg, backWeight] at this ⊢
      omega

/-- What a source writes weighs nothing. -/
theorem backWeight_receive (m : Machine) (place : Nat) (g : Grant) (data : Bytes) :
    Machine.backWeight { m with session := m.session.receive place g data } = m.backWeight := by
  simp only [backWeight, Session.tasks_receive]

theorem weight_deliver (m : Machine) (p : Passage) (g : Grant) (data : Bytes)
    (stream : List Turn) :
    (m.deliver p g data stream).weight
      < turnsWeight stream + 2 + 2 * g.remaining + commandsWeight p.todo + 2 + m.backWeight := by
  simp only [deliver]
  rw [← m.backWeight_receive]
  apply weight_hear
  · intro count hc
    cases hc
    simp only [Passage.withStream]
    split
    · exact .inr (.inl (Nat.le_refl _))
    · simp only [turnsWeight, Turn.weight]
      omega
  · intro h
    exact absurd rfl (h _)

theorem weight_turn (m : Machine) (p : Passage) (g : Grant) (hg : p.transfer.grant = some g)
    (hc : p.current.isSome = true) : (m.turn p g).weight < p.weight + m.backWeight := by
  have hp : p.weight
      = turnsWeight p.transfer.stream + 2 * g.remaining + commandsWeight p.todo + 2 := by
    simp only [Passage.weight, Transfer.weight, hg, hc, if_true]
    omega
  rw [hp]
  simp only [turn]
  split
  · have hmoved (count : Nat) : (m.hear p g (.moved count)).weight
        < turnsWeight p.transfer.stream + 2 * g.remaining + commandsWeight p.todo + 2
          + m.backWeight := by
      refine m.weight_hear p g _ _ ?_ fun h => absurd rfl (h count)
      intro n hn
      cases n with
      | zero => exact .inr (.inr rfl)
      | succ n => exact .inl ⟨Nat.le_refl _, Nat.succ_pos n⟩
    split
    · exact hmoved 0
    · exact hmoved _
  · rename_i commands stream hs
    simp only [weight, Focus.weight, passagesWeight, Passage.weight, Passage.withStream,
      Transfer.weight, hg, hc, if_true, hs, turnsWeight, Turn.weight, backWeight]
    omega
  · rename_i data stream hs
    rw [hs]
    have := weight_deliver m p g data stream
    simp only [turnsWeight, Turn.weight]
    omega
  all_goals
    rename_i stream hs
    simp only [hs, turnsWeight, Turn.weight]
    try exact m.weight_hear_turn p g _ stream
  · rw [← m.backWeight_receive]
    exact weight_hear_turn ..
  split
  · exact m.weight_hear_turn p g _ stream
  · exact m.weight_wait _ _ _ g hg (by simp only [Passage.withStream]; omega)

theorem weight_obey (m : Machine) (name : Nat) (action : Action) (todo : List Command)
    (done : List Answer) :
    (m.obey name action todo done).weight
      < action.weight + commandsWeight todo + 1 + m.backWeight := by
  have happly (name : Nat) (effect : Session.Effect) (extra : Nat)
      (h : tasksWeight effect.session.tasks ≤ extra + tasksWeight m.session.tasks) :
      (m.apply name effect todo done).weight
        ≤ extra + commandsWeight todo + 1 + m.backWeight := by
    simp only [apply, weight_answer, backWeight]
    omega
  have hpoll (id : Nat) (again : Bool) :
      (m.poll name id again todo done).weight < 3 + commandsWeight todo + 1 + m.backWeight := by
    simp only [poll]
    split
    · rw [weight_answer]
      omega
    · rename_i task h
      have := tasksWeight_remove h
      rw [weight_drive]
      simp only [backWeight, Session.removeTask, Passage.weight, Option.isSome_none,
        Bool.false_eq_true, if_false]
      omega
  cases action with
  | errand e =>
    have := m.session.tasksWeight_errand name e
    have := happly (m.session.subject name e) _ 0 (by rw [Nat.zero_add]; exact this)
    simp only [obey, Action.weight]
    omega
  | transfer request stream =>
    simp only [obey, Action.weight]
    split
    · rw [weight_answer]
      omega
    · rw [weight_drive]
      simp only [Passage.weight, Transfer.weight, Option.isSome_none, Bool.false_eq_true, if_false]
      omega
  | spawn id request stream token =>
    have := happly name _ _ (m.session.tasksWeight_spawn name id request stream token)
    simp only [obey, Action.weight]
    omega
  | poll id => exact hpoll id false
  | run id => exact hpoll id true
  | cancel token =>
    simp only [obey, Action.weight, weight_answer, backWeight, Session.cancel,
      tasksWeight_map_wake, passagesWeight_map_wake]
    omega

/-- Every step uses something up. -/
theorem step_weight {m m' : Machine} (h : m.step = some m') : m'.weight < m.weight := by
  unfold step at h
  split at h
  · rename_i done hf
    split at h
    · cases h
    · rename_i p suspended hs
      cases h
      simp only [weight, hf, hs, Focus.weight, passagesWeight, commandsWeight, Passage.weight,
        Passage.resume, Option.isSome_map]
      omega
  · rename_i name action todo done hf
    cases h
    have := m.weight_obey name action todo done
    simp only [weight, hf, Focus.weight, commandsWeight, Command.weight, backWeight] at this ⊢
    omega
  · rename_i p hf
    have hw : m.weight = p.weight + m.backWeight := by
      simp only [weight, hf, Focus.weight, backWeight]
      omega
    rw [hw]
    split at h
    · rename_i hg
      cases h
      exact m.weight_start p hg
    · rename_i g hg
      split at h
      · rename_i hc
        cases h
        exact m.weight_turn p g hg hc
      · rename_i hc
        cases h
        exact m.weight_offer p g (by simpa using hc)

end Machine

/-! ## Runs -/

/-- Steps until the machine stops. -/
def Machine.run (m : Machine) : Machine :=
  match _h : m.step with
  | none => m
  | some m' => m'.run
termination_by m.weight
decreasing_by exact Machine.step_weight ‹_›

/-- A run ends where no step is left. -/
theorem Machine.step_run (m : Machine) : m.run.step = none := by
  rw [run]
  split
  · assumption
  · rename_i m' _
    exact m'.step_run
termination_by m.weight
decreasing_by exact Machine.step_weight ‹_›

/-- Performs commands in an empty session, with a library of tokens. -/
def perform (tokens : Tokens) (commands : List Command) : List Answer :=
  (Machine.load tokens commands).run.answers

end CyclicBuffer
