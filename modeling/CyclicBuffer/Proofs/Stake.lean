import CyclicBuffer.Proofs.Alongside

/-!
# The stake of a transfer that others cross

What belongs to such a transfer: the commands that ask for it, let it go on, drop it or cancel its
token (`Crossing.owns`), what an answer tells of it (`Answer.alone`), and its stake in a session,
which nothing but its own commands and steps change. All that is performed while it is under way, in
its calls and in between, can be told from its answers (`Crossing.exchanges`).
-/

namespace CyclicBuffer

/-! ## Commands of the transfer -/

/-- The commands that a stream performs, in order. -/
def performed (stream : List Turn) : List Command :=
  stream.flatMap fun
    | .perform commands => commands
    | _ => []

/-- Polls a task once, or again and again as long as it has been woken. -/
def Action.goOn (task : Nat) (again : Bool) : Action := if again then .run task else .poll task

namespace Crossing

/-- Whether a command has to do with the transfer itself: it asks for it, lets it go on, drops it,
or cancels its token. -/
def owns (c : Crossing) : Command → Bool
  | .on _ (.transfer request _) => request.purpose.direction == c.direction
  | .on _ (.spawn id _ _ _) | .on _ (.poll id) | .on _ (.run id) | .on _ (.errand (.drop id)) =>
    c.task == some id
  | .on _ (.cancel token) => c.token == some token
  | .on _ (.errand _) => false

/-- The command cancels the token of the transfer. -/
def Cancels (c : Crossing) (cmd : Command) : Prop :=
  ∃ name token, c.token = some token ∧ cmd = .on name (.cancel token)

/-- The command lets the transfer go on, drops it, or cancels its token. -/
inductive Attends (c : Crossing) : Command → Prop
  | poll (name : Nat) {id : Nat} (again : Bool) (h : c.task = some id) :
      Attends c (.on name (.goOn id again))
  | drop (name : Nat) {id : Nat} (h : c.task = some id) : Attends c (.on name (.errand (.drop id)))
  | cancel {cmd : Command} (h : c.Cancels cmd) : Attends c cmd

/-- The script without the commands that cross the transfer. -/
def alone (c : Crossing) (stream : List Turn) : List Turn :=
  stream.map fun
    | .perform commands => .perform (commands.filter c.owns)
    | turn => turn

variable {c : Crossing} {cmd : Command}

theorem Crosses.owns (h : c.Crosses cmd) : c.owns cmd = false := by
  have htask {id : Nat} (hid : id ∈ c.ids) : (c.task == some id) = false := by
    simpa using fun he => c.task_not_mem he hid
  cases h with
  | operate _ => rfl
  | transfer hd _ => simp [Crossing.owns, hd]
  | spawn hid _ _ _ => exact htask hid
  | poll hid => exact htask hid
  | run hid => exact htask hid
  | drop hid => exact htask hid
  | cancel ht => simpa [Crossing.owns] using ht

theorem Cancels.owns (h : c.Cancels cmd) : c.owns cmd = true := by
  obtain ⟨name, token, ht, rfl⟩ := h
  simp [Crossing.owns, ht]

theorem owns_goOn (name : Nat) {id : Nat} (again : Bool) (h : c.task = some id) :
    c.owns (.on name (.goOn id again)) = true := by
  cases again <;> simp [Action.goOn, Crossing.owns, h]

theorem owns_drop (name : Nat) {id : Nat} (h : c.task = some id) :
    c.owns (.on name (.errand (.drop id))) = true := by
  simp [Crossing.owns, h]

theorem performed_alone (stream : List Turn) :
    performed (c.alone stream) = (performed stream).filter c.owns := by
  unfold performed alone
  rw [List.flatMap_map, List.filter_flatMap]
  congr 1
  funext turn
  cases turn <;> rfl

end Crossing

/-! ## What the transfer answers -/

/-- The answers to the commands performed in the calls that an answer tells of. -/
def Answer.nested (a : Answer) : List Answer := a.reaction.calls.flatMap fun call => call.nested

def Call.alone (call : Call Answer) : Call Answer := { call with nested := [] }

/-- What an answer tells of its own command: neither what was performed in its calls nor how the
ring stands. -/
def Answer.alone (a : Answer) : Answer :=
  ⟨match a.reaction with
    | .settled result calls polls => .settled result (calls.map Call.alone) polls
    | .pending woken calls polls => .pending woken (calls.map Call.alone) polls
    | reaction => reaction, none, a.events⟩

/-- What a command answers that is simply done. -/
def Answer.acknowledged (standing : Option Occupancy) : Answer :=
  ⟨.done (.ok .unit) none, standing, []⟩

namespace Crossing

/-- All commands that are performed with their answers, in the order in which they are done. Those
of the script are performed in calls of the transfer, and answered there. -/
def exchanges (c : Crossing) : List Command → List (Command × Answer) → List (Command × Answer)
  | _, [] => []
  | script, (cmd, a) :: rest =>
    if c.owns cmd then
      script.zip a.nested ++ c.exchanges (script.drop a.nested.length) rest
    else (cmd, a) :: c.exchanges script rest

/-- Those that cross the transfer, with their answers as they are without it. -/
def crossed (c : Crossing) (exchanges : List (Command × Answer)) : List (Command × Answer) :=
  (exchanges.filter fun e => !c.owns e.1).map fun e => (e.1, e.2.freed c.direction)

/-- What the transfer itself answers. -/
def owned (c : Crossing) (exchanges : List (Command × Answer)) : List Answer :=
  (exchanges.filter fun e => c.owns e.1).map Prod.snd

variable {c : Crossing}

theorem crossed_append (exchanges exchanges' : List (Command × Answer)) :
    c.crossed (exchanges ++ exchanges') = c.crossed exchanges ++ c.crossed exchanges' := by
  simp only [crossed, List.filter_append, List.map_append]

theorem owned_append (exchanges exchanges' : List (Command × Answer)) :
    c.owned (exchanges ++ exchanges') = c.owned exchanges ++ c.owned exchanges' := by
  simp only [owned, List.filter_append, List.map_append]

theorem crossed_of_owns {cmd : Command} (h : c.owns cmd = true) (a : Answer) :
    c.crossed [(cmd, a)] = [] ∧ c.owned [(cmd, a)] = [a] := by
  simp [crossed, owned, h]

theorem owned_cons {cmd : Command} (h : c.owns cmd = true) (a : Answer)
    (rest : List (Command × Answer)) : c.owned ((cmd, a) :: rest) = a :: c.owned rest := by
  simp [owned, h]

theorem crossed_of_crosses {cmd : Command} (h : c.Crosses cmd) (a : Answer) :
    c.crossed [(cmd, a)] = [(cmd, a.freed c.direction)] ∧ c.owned [(cmd, a)] = [] := by
  simp [crossed, owned, h.owns]

/-- The commands performed in the calls of an answer come off the script. -/
theorem exchanges_of_owns {cmd : Command} (h : c.owns cmd = true) {a : Answer}
    {exchanges : List (Command × Answer)} (ha : a.nested = exchanges.map Prod.snd)
    {script left : List Command} (hscript : script = exchanges.map Prod.fst ++ left)
    (rest : List (Command × Answer)) :
    c.exchanges script ((cmd, a) :: rest) = exchanges ++ c.exchanges left rest := by
  have hlength : (exchanges.map Prod.fst).length = (exchanges.map Prod.snd).length := by simp
  have hzip : script.zip (exchanges.map Prod.snd) = exchanges := by
    rw [hscript, ← List.append_nil (exchanges.map Prod.snd), List.zip_append hlength,
      ← List.zip_of_prod rfl rfl, List.zip_nil_right, List.append_nil]
  have hdrop : script.drop (exchanges.map Prod.snd).length = left := by
    rw [hscript, ← hlength, List.drop_left]
  rw [Crossing.exchanges, if_pos h, ha, hzip, hdrop]

end Crossing

/-! ## The stake of the transfer -/

def Transfer.alone (c : Crossing) (t : Transfer) : Transfer := { t with stream := c.alone t.stream }

def Task.alone (c : Crossing) (task : Task) : Task :=
  { task with transfer := task.transfer.alone c }

namespace Stake

/-- The same stake of the transfer with a script without commands that cross it. -/
def alone (c : Crossing) (k : Stake) : Stake := { k with task := k.task.map (Task.alone c) }

/-- Whether the next cancel of its token wakes the transfer after so many polls. -/
def wakes (k : Stake) (polls : Nat) : Bool := k.library.wakes k.cancels polls

def cancel (k : Stake) (token : Nat) : Stake :=
  { k with task := k.task.map (Task.wake token k.wakes), cancels := k.cancels + 1 }

theorem alone_cancel (c : Crossing) (k : Stake) (token : Nat) :
    (k.cancel token).alone c = (k.alone c).cancel token := by
  simp only [alone, cancel, Option.map_map]
  rfl

/-- What a stake keeps as long as the transfer is under way. -/
structure Keeps (k k' : Stake) : Prop where
  library : k'.library = k.library
  fresh : k'.hold.fresh = k.hold.fresh
  early : k'.early = k.early

theorem Keeps.refl (k : Stake) : k.Keeps k := ⟨rfl, rfl, rfl⟩

theorem Keeps.trans {k k' k'' : Stake} (h : k.Keeps k') (h' : k'.Keeps k'') : k.Keeps k'' :=
  ⟨h'.library.trans h.library, h'.fresh.trans h.fresh, h'.early.trans h.early⟩

theorem Keeps.direction {k k' : Stake} (h : k.Keeps k') : k'.hold.direction = k.hold.direction := by
  have hd (hold : Hold) : hold.fresh.direction = hold.direction := by cases hold <;> rfl
  rw [← hd, h.fresh, hd]

theorem Keeps.region {k k' : Stake} (h : k.Keeps k') : k'.hold.region = k.hold.region := by
  have hr (hold : Hold) : hold.fresh.region = hold.region := by cases hold <;> rfl
  rw [← hr, h.fresh, hr]

end Stake

namespace Session

variable {c : Crossing} {k : Stake} {s s' : Session} {id token : Nat}

/-- The transfer goes into the table as a task. -/
theorem Near.enter (h : s.Near c k s') (hid : c.task = some id) {task : Task}
    (ht : c.token = some task.token) :
    ({ s with tasks := (id, task) :: s.tasks } : Session).Near c { k with task := some task }
      s' := by
  have hne {other : Nat} (hother : other ∈ c.ids) : other ≠ id := by
    rintro rfl
    exact c.task_not_mem hid hother
  refine { h with tasks := ?_, crossing := ?_, own := ?_, waits := ?_ }
  · intro other hother
    rw [task?_cons, if_neg (hne hother), h.tasks other hother]
  · intro other hother task' ht'
    rw [task?_cons, if_neg (hne hother)] at ht'
    exact h.crossing other hother task' ht'
  · intro own hown
    obtain rfl := Option.some.inj (hid.symm.trans hown)
    rw [task?_cons, if_pos rfl]
  · rintro _ ⟨⟩
    exact ht

/-- The transfer is taken out of the table. -/
theorem Near.removeTask (h : s.Near c k s') (hid : c.task = some id) :
    (s.removeTask id).Near c { k with task := none } s' := by
  have hne {other : Nat} (hother : other ∈ c.ids) : other ≠ id := by
    rintro rfl
    exact c.task_not_mem hid hother
  refine { h with tasks := ?_, crossing := ?_, own := ?_, waits := by simp }
  · intro other hother
    rw [task?_removeTask_ne _ (hne hother), h.tasks other hother]
  · intro other hother task ht
    rw [task?_removeTask_ne _ (hne hother)] at ht
    exact h.crossing other hother task ht
  · intro own hown
    obtain rfl := Option.some.inj (hid.symm.trans hown)
    exact task?_removeTask_self ..

theorem Near.wakes_own (h : s.Near c k s') (ht : c.token = some token) :
    s.wakes token = k.wakes := by
  funext polls
  rw [Session.wakes, h.library, h.cancels token ht, Stake.wakes]

/-- The token of the transfer is cancelled. -/
theorem Near.cancel (h : s.Near c k s') (ht : c.token = some token) :
    (s.cancel token).Near c (k.cancel token) s' := by
  refine { h with
    tasks := ?_, crossing := ?_, tokens := ?_, own := ?_, waits := ?_, cancels := ?_ }
  · intro other hother
    rw [task?_cancel, h.tasks other hother]
    cases htask : s.task? other with
    | none => rfl
    | some task =>
      have hne : task.token ≠ token := fun he =>
        (h.crossing other hother task htask).token (he ▸ ht)
      rw [Option.map_some, Task.wake_of_ne hne]
  · intro other hother task' ht'
    rw [task?_cancel] at ht'
    obtain ⟨task, htask, rfl⟩ := Option.map_eq_some_iff.1 ht'
    have hcross := h.crossing other hother task htask
    exact ⟨hcross.transfer, hcross.token⟩
  · intro other hother
    have hne : other ≠ token := by
      rintro rfl
      exact hother ht
    rw [cancels_cancel_of_ne _ hne, h.tokens other hother]
  · intro own hown
    rw [task?_cancel, h.own own hown, h.wakes_own ht]
    rfl
  · intro task htask
    obtain ⟨task', htask', rfl⟩ := Option.map_eq_some_iff.1 htask
    exact h.waits task' htask'
  · intro own hown
    obtain rfl := Option.some.inj (ht.symm.trans hown)
    rw [cancels_cancel_self, h.cancels _ ht]
    rfl

/-- The transfer changes its ring. -/
theorem Near.change (h : s.Near c k s') (ring : Ring) (events : List Event) :
    (s.update c.place ring events).Near c k s' :=
  { h with
    known := by
      rw [size_update]
      exact h.known }

/-- What a transfer writes is its own. -/
theorem Apart.receive (h : s.Apart c k s') {g : Grant} (hd : g.direction = k.hold.direction)
    (hg : g.region = k.hold.region) (hm : g.moved ≤ g.region.count) {written : Bytes}
    (ha : (s.ring c.place).Accepts g written) :
    (s.update c.place ((s.ring c.place).receive g written) []).Apart c
      { k with hold := k.hold.receive g written } s' := by
  have hnear := h.near.change ((s.ring c.place).receive g written) []
  refine ⟨{ hnear with }, (Hold.direction_receive ..).trans h.direction, ?_⟩
  rw [ring_update_self _ h.near.known]
  exact h.ring.receive_own hd hg hm ha

/-- How a session stands to the session without the transfer: it is under way, or it is over and has
committed what its grant says. -/
inductive Stands (c : Crossing) (k : Stake) : Option Grant → Session → Session → Prop
  | live {s s' : Session} (h : s.Apart c k s') : Stands c k none s s'
  | ended {s s' : Session} {g : Grant} {ring : Ring} {events : List Event} (near : s.Near c k s')
      (h : Ring.Apart k.hold ring (s'.ring c.place)) (hd : g.direction = c.direction)
      (hc : ring.commit g = .ok (s.ring c.place, events)) : Stands c k (some g) s s'

theorem Stands.near {e : Option Grant} (h : Stands c k e s s') : s.Near c k s' := by
  cases h with
  | live h => exact h.near
  | ended near _ _ _ => exact near

theorem Stands.ring {e : Option Grant} (h : Stands c k e s s') :
    ∃ ring, Ring.Apart k.hold ring (s'.ring c.place) := by
  cases h with
  | live h => exact ⟨_, h.ring⟩
  | ended _ h _ _ => exact ⟨_, h⟩

/-- Once the transfer is over its direction is free. -/
theorem Stands.idle {e : Option Grant} (h : Stands c k e s s') (he : e.isSome) :
    (s.ring c.place).occupancy.held c.direction = none := by
  cases h with
  | live _ => cases he
  | ended _ _ hd hc =>
    obtain ⟨o, ho, hring, -⟩ := Ring.commit_ok hc
    rw [hring, ← hd]
    exact (Occupancy.commit_held ho).2

/-- The hold tells the ring from what it is without the transfer. -/
theorem Stands.unique {k' : Stake} {e : Option Grant} {s₁ : Session} (h : Stands c k e s s')
    (h' : Stands c k' e s₁ s') (hk : k'.hold = k.hold) : s₁.ring c.place = s.ring c.place := by
  cases h with
  | live h =>
    cases h' with
    | live h' => exact h.ring.unique (hk ▸ h'.ring)
  | ended _ h _ hc =>
    cases h' with
    | ended _ h' _ hc' =>
      rw [hk] at h'
      rw [h.unique h', hc] at hc'
      exact (Prod.mk.inj (Except.ok.inj hc')).1.symm

end Session

end CyclicBuffer
