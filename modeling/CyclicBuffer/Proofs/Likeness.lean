import CyclicBuffer.Proofs.Refusal
import CyclicBuffer.Proofs.Supply
import Mathlib.Data.List.Forall2

/-!
# What can be seen of a ring

A ring answers as a queue does, transfers with streams included: `Queue.place` says what an order
comes to on the bytes alone. The head, the cells that hold nothing readable and the division of a
stream into calls have no part in it. So two rings that show the same queue cannot be told apart by
any orders, however each of them is given (`Machine.reachable_alike`), and bytes that are gone never
come back.
-/

namespace CyclicBuffer

open Occupancy

/-! ## Orders on queues -/

/-- What is asked of a ring: an operation, or a transfer whose stream has a fixed supply. -/
inductive Order where
  | operation (operation : Operation)
  | transfer (request : Request) (supply : Supply)

/-- The result of an answer, and the destination that it shows. -/
def Reaction.outcome {α : Type} : Reaction α → Option (Except Failure Value × Option Bytes)
  | .done result destination => some (result, destination)
  | .settled result _ _ => some (result, none)
  | _ => none

/-- What can be seen of an order that was carried out. -/
structure Observation where
  outcome : Option (Except Failure Value × Option Bytes)
  /-- What a sink was given. -/
  delivered : Bytes
  standing : Inspection

namespace Queue

/-- Why a transfer gets no reservation. -/
def refusal (q : Queue) (d : Direction) (count : Nat) : Option Error :=
  match d with
  | .put =>
    if q.putting then some (.operationInProgress .put)
    else if q.capacity < count then some (.capacityExceeded count q.capacity)
    else if q.content.length + count ≤ q.capacity then none
    else if q.overwriting && !q.taking then none
    else some (.insufficientCapacity count q.spare)
  | .take =>
    if q.taking then some (.operationInProgress .take)
    else if q.content.length < count then
      some (.insufficientContent count q.content.length)
    else none

/-- What stays readable when a transfer gets its reservation. -/
def opened (q : Queue) (d : Direction) (count : Nat) : Bytes :=
  match d with
  | .put => q.content.drop (q.content.length + count - q.capacity)
  | .take => q.content

/-- The bytes that a transfer moves in all. -/
def traffic (q : Queue) (request : Request) (supply : Supply) : Bytes :=
  supply.share request.purpose.direction (q.opened request.purpose.direction request.count) default
    (supply.moved request.count)

/-- A transfer that gets its reservation, from its start to its end. -/
def afterTransfer (q : Queue) (request : Request) (supply : Supply) : Queue :=
  { q with
    content := request.purpose.direction.moves
      (q.opened request.purpose.direction request.count) (q.traffic request supply) }

/-- Carries out an order. -/
def place (q : Queue) : Order → Observation × Queue
  | .operation operation =>
    let (result, q') := q.apply operation
    (⟨(Session.shown operation result).outcome, [], q'.inspect⟩, q')
  | .transfer request supply =>
    match q.refusal request.purpose.direction request.count with
    | some e => (⟨some (.error (.error e), none), [], q.inspect⟩, q)
    | none =>
      let result :=
        (request.verdict (supply.moved request.count) (supply.ending request.count)).result
      let q' := q.afterTransfer request supply
      (⟨some (result.map Value.ofCount, none),
        match request.purpose.direction with
        | .put => []
        | .take => q.traffic request supply,
        q'.inspect⟩, q')

variable {q : Queue} {request : Request}

theorem place_refused (supply : Supply) {e : Error}
    (h : q.refusal request.purpose.direction request.count = some e) :
    q.place (.transfer request supply) = (⟨some (.error (.error e), none), [], q.inspect⟩, q) := by
  simp only [place, h]

theorem place_granted (supply : Supply)
    (h : q.refusal request.purpose.direction request.count = none) :
    q.place (.transfer request supply) = (⟨some ((request.verdict (supply.moved request.count)
        (supply.ending request.count)).result.map Value.ofCount, none),
      match request.purpose.direction with
      | .put => []
      | .take => q.traffic request supply,
      (q.afterTransfer request supply).inspect⟩, q.afterTransfer request supply) := by
  simp only [place, h]

/-- What is seen of the counts is how the queue stands afterwards. -/
theorem place_standing (q : Queue) (order : Order) :
    (q.place order).1.standing = (q.place order).2.inspect := by
  cases order with
  | operation operation => rfl
  | transfer request supply =>
    simp only [place]
    split <;> rfl

/-- Carries out orders one after the other. -/
def placeAll (q : Queue) : List Order → List Observation × Queue
  | [] => ([], q)
  | order :: orders =>
    let (observation, q') := q.place order
    let (observations, q'') := q'.placeAll orders
    (observation :: observations, q'')

end Queue

/-! ## Reservations -/

namespace Ring

variable {r r' : Ring}

/-- A queue refuses what its ring does. -/
theorem Sound.refusal_eq (h : r.Sound) (d : Direction) (count : Nat) :
    r.queue.refusal d count = match r.occupancy.reserve d count with
      | .error e => some e
      | .ok _ => none := by
  have hlen := h.content_length
  cases d with
  | put =>
    have hfits : (r.queue.content.length + count ≤ r.queue.capacity)
        = (r.occupancy.deficit count = 0) := propext h.deficit_eq_zero.symm
    have hdrops : (r.queue.overwriting && !r.queue.taking)
        = (r.occupancy.overwriting && r.occupancy.taking.isNone) := by
      simp [queue]
    have hspare : r.queue.spare = r.occupancy.spare := by
      rw [Queue.spare, hlen]
      rfl
    simp only [Queue.refusal, Occupancy.reserve, reservePut, hfits, hdrops, hspare]
    by_cases hp : r.occupancy.putting.isSome
    · simp [queue, hp]
    by_cases hc : r.occupancy.capacity < count
    · simp [queue, hp, hc]
    by_cases hd : r.occupancy.deficit count = 0
    · simp [queue, hp, hc, hd]
    by_cases ho : (r.occupancy.overwriting && r.occupancy.taking.isNone) = true
    · simp [queue, hp, hc, hd, ho]
    · simp [queue, hp, hc, hd, ho]
  | take =>
    simp only [Queue.refusal, Occupancy.reserve, reserveTake, checkTake, hlen]
    by_cases ht : r.occupancy.taking.isSome
    · simp [queue, ht, Except.map]
    by_cases hc : r.occupancy.length < count
    · simp [queue, ht, hc, Except.map]
    · simp [queue, ht, hc, Except.map]

theorem Sound.refused (h : r.Sound) {d : Direction} {count : Nat} {e : Error}
    (hr : r.reserve d count = .error e) : r.queue.refusal d count = some e := by
  rw [h.refusal_eq, occupancy_error hr]

theorem Sound.opened (h : r.Sound) {d : Direction} {count : Nat} {g : Grant}
    {events : List Event} (hr : r.reserve d count = .ok (g, r', events)) :
    r.queue.refusal d count = none ∧ r'.contents = r.queue.opened d count := by
  obtain ⟨region, o, hro, -, -, -⟩ := reserve_ok hr
  refine ⟨by rw [h.refusal_eq, hro], ?_⟩
  cases d with
  | put =>
    rw [h.contents_reservePut hr, Queue.opened, h.content_length]
    rfl
  | take => exact h.contents_reserveTake hr

/-- A ring with the same terms and holdings shows a queue that differs in its content alone. -/
theorem queue_eq (ht : r'.occupancy.terms = r.occupancy.terms)
    (hh : ∀ d, r'.occupancy.held d = r.occupancy.held d) :
    r'.queue = { r.queue with content := r'.contents } := by
  obtain ⟨hcap, hover⟩ := Prod.mk.inj ht
  have hput : r'.occupancy.putting = r.occupancy.putting := hh .put
  have htake : r'.occupancy.taking = r.occupancy.taking := hh .take
  simp only [queue, hcap, hover, hput, htake]

end Ring

/-! ## Jobs -/

/-- A way to have an order carried out. -/
inductive Job where
  | operation (operation : Operation)
  | whole (request : Request) (stream : List Turn)
  /-- A task that is spawned and then polled, or run. -/
  | task (id token : Nat) (request : Request) (stream : List Turn) (again : Bool)

namespace Job

def commands (name : Nat) : Job → List Command
  | .operation o => [.on name (.errand (.operate o))]
  | .whole request stream => [.on name (.transfer request stream)]
  | .task id token request stream again =>
    [.on name (.spawn id request stream token), .on name (if again then .run id else .poll id)]

/-- The order that a job has carried out. -/
inductive Places : Job → Order → Prop
  | operation (o : Operation) : Places (.operation o) (.operation o)
  | whole {request : Request} {stream : List Turn} {supply : Supply}
      (supplies : Supplies request.purpose.direction stream supply) :
      Places (.whole request stream) (.transfer request supply)
  | task (id token : Nat) {request : Request} {stream : List Turn} {supply : Supply} (again : Bool)
      (supplies : Supplies request.purpose.direction stream supply) :
      Places (.task id token request stream again) (.transfer request supply)

/-- A task has a name that nobody uses, and no cancel of its token is heard of. -/
def Free (s : Session) : Job → Prop
  | .task id token _ _ _ => s.task? id = none ∧ s.Unheard token
  | _ => True

theorem Free.of_tables {s s' : Session} {job : Job} (h : job.Free s) (ht : s.SameTables s') :
    job.Free s' := by
  cases job with
  | task id token request stream again =>
    refine ⟨?_, ht.unheard h.2⟩
    rw [Session.task?, ht.tasks]
    exact h.1
  | _ => trivial

end Job

namespace Machine

variable {m m₁ m₂ m' : Machine} {p : Passage} {name place : Nat} {todo : List Command}
  {done : List Answer}

/-- A job is carried out on the ring at a place. -/
structure Performs (name place : Nat) (m : Machine) (job : Job) (observation : Observation)
    (m' : Machine) : Prop where
  suspended : m'.suspended = m.suspended
  passes : ∃ marks, m.Passes place marks m' ∧ carriedOf .take marks = observation.delivered
  answers : ∃ todo done before last,
    m.focus = .commands (job.commands name ++ todo) done ∧
    m'.focus = .commands todo (done ++ before ++ [last]) ∧
    before.length + 1 = (job.commands name).length ∧
    last.reaction.outcome = observation.outcome
  standing : (m'.session.ring place).inspect = observation.standing

/-- Jobs are carried out one after the other. -/
inductive Logs (name place : Nat) : Machine → List Job → List Observation → Machine → Prop
  | nil {m : Machine} : Logs name place m [] [] m
  | cons {m m₁ m' : Machine} {job : Job} {jobs : List Job} {observation : Observation}
      {observations : List Observation} (first : Performs name place m job observation m₁)
      (rest : Logs name place m₁ jobs observations m') :
      Logs name place m (job :: jobs) (observation :: observations) m'

/-- A transfer that is just asked for: it has been answered, and the ring shows what the order
leaves of the queue. -/
structure Fulfils (m : Machine) (p : Passage) (supply : Supply) (m' : Machine) : Prop where
  suspended : m'.suspended = m.suspended
  tables : m.session.SameTables m'.session
  passes : ∃ marks, m.Passes p.transfer.ring marks m' ∧ carriedOf .take marks =
    ((m.session.ring p.transfer.ring).queue.place (.transfer p.transfer.request supply)).1.delivered
  answer : ∃ result calls standing events, m'.focus = .commands p.todo (p.done ++
      [⟨.settled result calls p.shownPolls, standing, events⟩]) ∧ some (result, none)
    = ((m.session.ring p.transfer.ring).queue.place (.transfer p.transfer.request supply)).1.outcome
  queue : (m'.session.ring p.transfer.ring).queue
    = ((m.session.ring p.transfer.ring).queue.place (.transfer p.transfer.request supply)).2

/-- A transfer has just got its reservation. -/
structure Granted (m : Machine) (p : Passage) (g : Grant) (ring : Ring) (m₁ : Machine)
    (p₁ : Passage) : Prop where
  step : m.step = some m₁
  focus : m₁.focus = .transfer p₁
  grant : p₁.transfer.grant = some g
  place : p₁.transfer.ring = p.transfer.ring
  request : p₁.transfer.request = p.transfer.request
  stream : p₁.transfer.stream = p.transfer.stream
  polling : p₁.polling = p.polling
  current : p₁.current = p.current
  todo : p₁.todo = p.todo
  done : p₁.done = p.done
  suspended : m₁.suspended = m.suspended
  tables : m.session.SameTables m₁.session
  ring : m₁.session.ring p.transfer.ring = ring
  marks : m.marks p.transfer.ring = [(m.session.ring p.transfer.ring).begun
    p.transfer.request.purpose.direction p.transfer.request.count]

variable {g : Grant} {ring : Ring} {events : List Event} {p₁ : Passage}

theorem Sound.granted (hm : m.Sound) (hf : m.focus = .transfer p) (hg : p.transfer.grant = none)
    (hr : (m.session.ring p.transfer.ring).reserve p.transfer.request.purpose.direction
      p.transfer.request.count = .ok (g, ring, events)) : ∃ m₁ p₁, m.Granted p g ring m₁ p₁ := by
  have hknown := ((hm.orderly.works hf).custody.fits _ (List.mem_cons_self ..)).known
  have hstep := step_iff.2 (.start hf hg)
  simp only [start, hr] at hstep
  refine ⟨_, _, hstep, rfl, rfl, rfl, rfl, rfl, rfl, rfl, rfl, rfl, rfl, ⟨rfl, rfl, rfl, rfl⟩, ?_,
    ?_⟩
  · exact Session.ring_update_self _ hknown ..
  · simp [marks, hf, Passage.marks, Passage.parks?, hg, hr, marksAt]

theorem Granted.between (h : m.Granted p g ring m₁ p₁) (hm : m.Sound) (hidle : p.current = none)
    (hlive : p.Live m.session)
    (hr : (m.session.ring p.transfer.ring).reserve p.transfer.request.purpose.direction
      p.transfer.request.count = .ok (g, ring, events))
    (hs : (m.session.ring p.transfer.ring).Sound) :
    m₁.Between p₁ p.transfer.request.purpose.direction g [] := by
  refine ⟨hm.step h.step, h.focus, h.grant, h.current.trans hidle, ?_, ?_⟩
  · intro q hq
    obtain ⟨hawaits, hunheard⟩ := hlive q (h.polling.symm.trans hq)
    exact ⟨hawaits, h.tables.unheard hunheard⟩
  · rw [h.place, h.ring]
    exact hs.carries_reserve hr

/-- A transfer that is refused leaves the queue as its order does. -/
theorem Sound.fulfils_refused (hm : m.Sound) (hf : m.focus = .transfer p)
    (hg : p.transfer.grant = none) {e : Error}
    (hr : (m.session.ring p.transfer.ring).reserve p.transfer.request.purpose.direction
      p.transfer.request.count = .error e) (supply : Supply) : ∃ m', m.Fulfils p supply m' := by
  have hknown := ((hm.orderly.works hf).custody.fits _ (List.mem_cons_self ..)).known
  have hs := hm.orderly.custody.sound hknown
  have hplace := Queue.place_refused supply (hs.refused hr)
  have hmarks : m.marks p.transfer.ring = [] := by
    simp [marks, hf, Passage.marks, Passage.parks?, hg, hr, marksAt]
  have hstep := step_iff.2 (.start hf hg)
  simp only [start, hr] at hstep
  refine ⟨m.close p (.error (.error e)) [], rfl, ⟨rfl, rfl, rfl, rfl⟩,
    ⟨_, Passes.refl.step hstep, ?_⟩, ?_, ?_⟩
  · rw [hmarks, hplace]
    rfl
  · rw [hplace]
    exact ⟨_, _, _, _, rfl, rfl⟩
  · rw [hplace]
    rfl

/-- A transfer that is granted its region leaves of the queue what its order does. -/
theorem Sound.fulfils_granted (hm : m.Sound) (hf : m.focus = .transfer p)
    (hg : p.transfer.grant = none) (hidle : p.current = none) (hlive : p.Live m.session)
    {supply : Supply}
    (hsupply : Supplies p.transfer.request.purpose.direction p.transfer.stream supply)
    (hr : (m.session.ring p.transfer.ring).reserve p.transfer.request.purpose.direction
      p.transfer.request.count = .ok (g, ring, events)) : ∃ m', m.Fulfils p supply m' := by
  have hknown := ((hm.orderly.works hf).custody.fits _ (List.mem_cons_self ..)).known
  have hs := hm.orderly.custody.sound hknown
  obtain ⟨hnone, hopened⟩ := hs.opened hr
  have hplace := Queue.place_granted supply hnone
  obtain ⟨region, o, hro, hgrant, hring, -⟩ := Ring.reserve_ok hr
  have hmoved : g.moved = 0 := by rw [hgrant]
  have hremaining : g.remaining = p.transfer.request.count := Ring.reserve_remaining hr
  obtain ⟨m₁, p₁, h₁⟩ := hm.granted hf hg hr
  obtain ⟨m', marks, hpasses, hserves, hshare, hother, -⟩ :=
    (h₁.between hm hidle hlive hr hs).served (h₁.stream ▸ hsupply)
  rw [h₁.place, h₁.ring, hremaining] at hshare
  rw [List.nil_append, hremaining, hmoved, Nat.zero_add] at hserves
  rw [h₁.place] at hpasses
  have hall := hpasses.head h₁.step
  have hbegun e : carriedOf e (m.marks p.transfer.ring ++ marks) = carriedOf e marks := by
    rw [carriedOf_append, h₁.marks]
    unfold Ring.begun
    cases p.transfer.request.purpose.direction <;> rfl
  have htraffic : carriedOf p.transfer.request.purpose.direction marks
      = (m.session.ring p.transfer.ring).queue.traffic p.transfer.request supply := by
    rw [hshare, hopened, Queue.traffic]
    unfold Supply.share
    cases p.transfer.request.purpose.direction
    · rfl
    · simp only [hmoved]
      rfl
  refine ⟨m', hserves.suspended.trans h₁.suspended, h₁.tables.trans hserves.tables,
    ⟨_, hall, ?_⟩, ?_, ?_⟩
  · rw [hbegun, hplace]
    cases hd : p.transfer.request.purpose.direction with
    | put => exact hother .take (by simp [hd])
    | take => rw [← htraffic, hd]
  · obtain ⟨calls, standing, events', hfocus⟩ := hserves.answer
    rw [hplace]
    refine ⟨_, calls, standing, events', ?_, rfl⟩
    rw [hfocus, h₁.todo, h₁.done, h₁.request, Passage.shownPolls, h₁.polling]
    rfl
  · have hcontents := hserves.contents
    have hfree := hserves.free
    have hothers := hserves.other
    rw [h₁.place, h₁.ring] at hcontents hothers
    rw [h₁.place] at hfree
    obtain ⟨-, hdeeds⟩ := hall.deeds hm hknown
    have hterms := (hdeeds.leads hs (hm.orderly.custody.keeps _)).1.terms hs
    rw [Ring.queue_eq hterms, hcontents, hopened, htraffic, hplace]
    · rfl
    · intro e
      by_cases he : e = p.transfer.request.purpose.direction
      · rw [he, hfree, (hs.coherent.reserve_held hro).1]
      · rw [hothers e he, hring]
        exact (hs.coherent.reserve_leaves hro he).held

/-- A transfer does to a ring what its order does to the queue. -/
theorem Sound.fulfils (hm : m.Sound) (hf : m.focus = .transfer p) (hg : p.transfer.grant = none)
    (hidle : p.current = none) (hlive : p.Live m.session) {supply : Supply}
    (hsupply : Supplies p.transfer.request.purpose.direction p.transfer.stream supply) :
    ∃ m', m.Fulfils p supply m' := by
  cases hr : (m.session.ring p.transfer.ring).reserve p.transfer.request.purpose.direction
      p.transfer.request.count with
  | error e => exact hm.fulfils_refused hf hg hr supply
  | ok granted => exact hm.fulfils_granted hf hg hidle hlive hsupply hr

/-! ## Runs of jobs -/

/-- A command that is obeyed moves no bytes of a transfer. -/
theorem carriedOf_obey (hf : m.focus = .commands todo done) (d : Direction) :
    carriedOf d (m.marks place) = [] := by
  have hdropped id : carriedOf d (m.session.dropped id place) = [] := by
    unfold Session.dropped
    split
    · rfl
    · rename_i task _
      unfold Session.parted marksAt
      split
      · cases task.transfer.grant with
        | none => rfl
        | some g =>
          simp only [Option.toList_some, List.map_singleton]
          unfold Ring.finished
          split <;> rfl
      · rfl
  unfold marks
  rw [hf]
  split
  · rfl
  · unfold Session.marks
    split
    · split
      · unfold Ring.operated
        split <;> rfl
      · rfl
    · exact hdropped _
    · split
      · exact hdropped _
      · rfl
    · rfl
  · cases ‹Focus.commands todo done = _›

theorem Fulfils.goes_on {supply : Supply} (h : m.Fulfils p supply m') :
    ∃ done', m'.focus = .commands p.todo done' := by
  obtain ⟨_, _, _, _, hfocus, -⟩ := h.answer
  exact ⟨_, hfocus⟩

/-- A job that has its transfer fulfilled is carried out. -/
theorem Fulfils.performs {m₀ : Machine} {supply : Supply} {job : Job} {before : List Answer}
    {marks : List Mark} (h : m₀.Fulfils p supply m') (hm : m.Sound)
    (hknown : place < m.session.rings.size) (hplace : p.transfer.ring = place)
    (hpasses : m.Passes place marks m₀) (hnone : ∀ d, carriedOf d marks = [])
    (hsuspended : m₀.suspended = m.suspended)
    (hring : m₀.session.ring place = m.session.ring place)
    (hf : m.focus = .commands (job.commands name ++ p.todo) done) (hdone : p.done = done ++ before)
    (hlength : before.length + 1 = (job.commands name).length) :
    m.Performs name place job
      ((m.session.ring place).queue.place (.transfer p.transfer.request supply)).1 m' := by
  subst hplace
  obtain ⟨marks', hpasses', hdelivered⟩ := h.passes
  obtain ⟨result, calls, standing, events, hfocus, houtcome⟩ := h.answer
  have hqueue := h.queue
  rw [hring] at hdelivered houtcome hqueue
  have hall := hpasses.trans hpasses'
  have hknown' := (hall.deeds hm hknown).1
  have hs' := (hm.reaches hall.reaches).orderly.custody.sound hknown'
  refine ⟨h.suspended.trans hsuspended, ⟨_, hall, ?_⟩,
    ⟨p.todo, done, before, ⟨.settled result calls p.shownPolls, standing, events⟩, hf,
      hdone ▸ hfocus, hlength, houtcome⟩, ?_⟩
  · rw [carriedOf_append, hnone, List.nil_append, hdelivered]
  · rw [hs'.inspect_eq, hqueue, Queue.place_standing]

theorem obey_operate (m : Machine) (hp : m.session.place? name = some place) (o : Operation) :
    m.obey name (.errand (.operate o)) todo done =
      let outcome := (m.session.ring place).apply o
      ({ m with session := m.session.update place outcome.ring outcome.events } : Machine).answer
        name (Session.shown o outcome.result) outcome.events todo done := by
  simp only [obey, apply, Session.errand, Session.onRing, hp, Session.subject]

/-- A task that is spawned under a free name starts with its first poll. -/
theorem spawn_passes {id token : Nat} {request : Request} {stream : List Turn} {again : Bool}
    (hf : m.focus = .commands (.on name (.spawn id request stream token) ::
      .on name (if again then .run id else .poll id) :: todo) done)
    (hp : m.session.place? name = some place) (hfree : m.session.task? id = none) (q : Nat) :
    ∃ marks, m.Passes q marks ⟨m.session, .transfer ⟨⟨name, place, request, stream, none⟩,
        some ⟨id, token, false, none, 1, again⟩, [], none, [], todo,
        done ++ [⟨.done (.ok .unit) none, m.session.standing? name, []⟩]⟩, m.suspended⟩ ∧
      ∀ d, carriedOf d marks = [] := by
  let task : Task := ⟨⟨name, place, request, stream, none⟩, token, false, none⟩
  have htask : ({ m.session with tasks := (id, task) :: m.session.tasks } : Session).task? id
      = some task := List.lookup_cons_self
  have hspawn : m.step = some { m with
      session := { m.session with tasks := (id, task) :: m.session.tasks }
      focus := .commands (.on name (if again then .run id else .poll id) :: todo)
        (done ++ [⟨.done (.ok .unit) none, m.session.standing? name, []⟩]) } := by
    simp only [step, hf, obey, Session.spawn, Session.onRing, hp, Session.addTask,
      Session.dropTask, hfree, Except.map, apply, answer]
    rfl
  refine ⟨_, (Passes.refl.step hspawn).step ?_, ?_⟩
  · cases again <;>
      simp [step, obey, poll, htask, Session.removeTask_of_task? hfree, drive, task]
  · intro d
    rw [List.nil_append, carriedOf_append, carriedOf_obey hf, List.nil_append]
    exact carriedOf_obey rfl d

/-- A job that is free carries out its order. -/
theorem Sound.performs (hm : m.Sound) (hp : m.session.place? name = some place) {job : Job}
    {order : Order} (hf : m.focus = .commands (job.commands name ++ todo) done)
    (hplaces : job.Places order) (hfree : job.Free m.session) :
    ∃ m', m.Performs name place job ((m.session.ring place).queue.place order).1 m' ∧
      m.session.SameTables m'.session ∧ (∃ done', m'.focus = .commands todo done') ∧
      (m'.session.ring place).queue = ((m.session.ring place).queue.place order).2 := by
  have hknown := hm.orderly.custody.named _ (Session.mem_of_place? hp)
  have hs := hm.orderly.custody.sound hknown
  cases hplaces with
  | operation o =>
    have hstep : m.step = some _ := step_iff.2 (.obey hf)
    rw [m.obey_operate hp] at hstep
    have hseen := hs.seen_apply o
    have hafter := Session.ring_update_self m.session hknown
      ((m.session.ring place).apply o).ring ((m.session.ring place).apply o).events
    have hqueue : ((m.session.update place ((m.session.ring place).apply o).ring
        ((m.session.ring place).apply o).events).ring place).queue
          = ((m.session.ring place).queue.apply o).2 := by
      rw [hafter, ← hseen]
      rfl
    have hsound := (Ring.leads_apply hs o).sound hs
    refine ⟨Machine.answer ⟨m.session.update place _ _, m.focus, m.suspended⟩ name _ _ todo done,
      ⟨rfl, ⟨_, Passes.refl.step hstep, carriedOf_obey hf _⟩,
        ⟨todo, done, [], _, hf, by rw [List.append_nil]; rfl, rfl, ?_⟩, ?_⟩,
      Session.sameTables_update .., ⟨_, rfl⟩, hqueue⟩
    · simp only [Queue.place, ← hseen]
      rfl
    · rw [← hafter] at hsound
      exact hsound.inspect_eq.trans (congrArg Queue.inspect hqueue)
  | @whole request stream supply supplies =>
    have hstep := step_iff.2 (.obey hf)
    simp only [obey, hp] at hstep
    obtain ⟨m', h⟩ := (hm.step hstep).fulfils rfl rfl rfl (by rintro q ⟨⟩) supplies
    exact ⟨m', h.performs hm hknown rfl (Passes.refl.step hstep) (carriedOf_obey hf) rfl rfl hf
      (List.append_nil _).symm rfl, h.tables, h.goes_on, h.queue⟩
  | @task id token request stream supply again supplies =>
    obtain ⟨marks, hpasses, hnone⟩ := spawn_passes hf hp hfree.1 place
    obtain ⟨m', h⟩ := (hm.reaches hpasses.reaches).fulfils rfl rfl rfl
      (by rintro q ⟨⟩; exact ⟨rfl, hfree.2⟩) supplies
    exact ⟨m', h.performs hm hknown rfl hpasses hnone rfl rfl hf
      rfl rfl, h.tables, h.goes_on, h.queue⟩

/-- Free jobs carry out their orders, one after the other. -/
theorem Sound.logs {jobs : List Job} {orders : List Order}
    (hplaces : List.Forall₂ Job.Places jobs orders) (hm : m.Sound)
    (hp : m.session.place? name = some place)
    (hf : m.focus = .commands (jobs.flatMap (Job.commands name) ++ todo) done)
    (hfree : ∀ job ∈ jobs, job.Free m.session) :
    ∃ m', m.Logs name place jobs ((m.session.ring place).queue.placeAll orders).1 m' ∧
      (m'.session.ring place).queue = ((m.session.ring place).queue.placeAll orders).2 := by
  induction hplaces generalizing m done with
  | nil => exact ⟨m, .nil, rfl⟩
  | @cons job order jobs orders hfirst _ ih =>
    rw [List.flatMap_cons, List.append_assoc] at hf
    obtain ⟨m₁, hperforms, htables, ⟨done₁, hf₁⟩, hqueue⟩ :=
      hm.performs hp hf hfirst (hfree job (List.mem_cons_self ..))
    obtain ⟨marks, hpasses, -⟩ := hperforms.passes
    have hp₁ : m₁.session.place? name = some place := by
      rw [Session.place?, htables.names]
      exact hp
    have hfree₁ : ∀ job ∈ jobs, job.Free m₁.session :=
      fun job hjob => (hfree job (List.mem_cons_of_mem _ hjob)).of_tables htables
    obtain ⟨m', hlogs, hqueue'⟩ := ih (hm.reaches hpasses.reaches) hp₁ hf₁ hfree₁
    rw [hqueue] at hlogs hqueue'
    exact ⟨m', .cons hperforms hlogs, hqueue'⟩

/-- **All that can be seen of a ring are its bytes.** Take two rings at which nothing is under way,
with the same capacity and terms and the same readable bytes, wherever these lie and whatever the
other cells hold. Let the same orders be carried out on both, operations and transfers, each
transfer at once or as a task, and each stream dividing its supply as it likes. Then the results,
errors, destinations, the bytes delivered to sinks, and the counts and flags after each order are
the same on both rings, and so are the bytes that are left. -/
theorem reachable_alike {tokens : Tokens} {commands₁ commands₂ : List Command}
    {name₁ name₂ place₁ place₂ : Nat} {todo₁ todo₂ : List Command} {done₁ done₂ : List Answer}
    {jobs₁ jobs₂ : List Job} {orders : List Order} {origin₁ origin₂ : Nat}
    {before₁ before₂ : List Mark} (h₁ : (load tokens commands₁).Roams origin₁ before₁ m₁)
    (h₂ : (load tokens commands₂).Roams origin₂ before₂ m₂)
    (hp₁ : m₁.session.place? name₁ = some place₁) (hp₂ : m₂.session.place? name₂ = some place₂)
    (hidle₁ : ∀ d, (m₁.session.ring place₁).occupancy.held d = none)
    (hidle₂ : ∀ d, (m₂.session.ring place₂).occupancy.held d = none)
    (hcapacity : (m₁.session.ring place₁).capacity = (m₂.session.ring place₂).capacity)
    (hoverwriting : (m₁.session.ring place₁).overwriting = (m₂.session.ring place₂).overwriting)
    (hcontents : (m₁.session.ring place₁).contents = (m₂.session.ring place₂).contents)
    (hf₁ : m₁.focus = .commands (jobs₁.flatMap (Job.commands name₁) ++ todo₁) done₁)
    (hf₂ : m₂.focus = .commands (jobs₂.flatMap (Job.commands name₂) ++ todo₂) done₂)
    (hjobs₁ : List.Forall₂ Job.Places jobs₁ orders)
    (hjobs₂ : List.Forall₂ Job.Places jobs₂ orders)
    (hfree₁ : ∀ job ∈ jobs₁, job.Free m₁.session) (hfree₂ : ∀ job ∈ jobs₂, job.Free m₂.session) :
    ∃ m₁' m₂' log, m₁.Logs name₁ place₁ jobs₁ log m₁' ∧ m₂.Logs name₂ place₂ jobs₂ log m₂' ∧
      (m₁'.session.ring place₁).contents = (m₂'.session.ring place₂).contents := by
  have hm₁ := h₁.sound_load
  have hm₂ := h₂.sound_load
  have hqueue : (m₁.session.ring place₁).queue = (m₂.session.ring place₂).queue := by
    have hs₁ := hm₁.orderly.custody.sound
      (hm₁.orderly.custody.named _ (Session.mem_of_place? hp₁))
    have hs₂ := hm₂.orderly.custody.sound
      (hm₂.orderly.custody.named _ (Session.mem_of_place? hp₂))
    rw [hs₁.capacity_eq, hs₂.capacity_eq] at hcapacity
    simp only [Ring.queue, Queue.mk.injEq]
    refine ⟨hcapacity, hoverwriting, hcontents, ?_, ?_⟩
    · rw [show Occupancy.putting _ = none from hidle₁ .put,
        show Occupancy.putting _ = none from hidle₂ .put]
    · rw [show Occupancy.taking _ = none from hidle₁ .take,
        show Occupancy.taking _ = none from hidle₂ .take]
  obtain ⟨m₁', hlogs₁, hqueue₁⟩ := hm₁.logs hjobs₁ hp₁ hf₁ hfree₁
  obtain ⟨m₂', hlogs₂, hqueue₂⟩ := hm₂.logs hjobs₂ hp₂ hf₂ hfree₂
  rw [hqueue] at hlogs₁ hqueue₁
  exact ⟨m₁', m₂', _, hlogs₁, hlogs₂, congrArg Queue.content (hqueue₁.trans hqueue₂.symm)⟩

/-- Two bytes were put and skipped before the only one that is readable, so that what is put behind
it passes the last cell. -/
def aheadJobs : List Job :=
  [.whole ⟨.fill, 3⟩ [.deliver [5, 6, 7]],
    .task 1 0 ⟨.send, 4⟩ [.accept 1, .deliver [0, 0], .accept 0] false]

/-- The same with other pieces, and the other way to ask for the transfers. -/
def plainJobs : List Job :=
  [.task 3 0 ⟨.fill, 3⟩ [.deliver [5], .deliver [6, 7]] true,
    .whole ⟨.send, 4⟩ [.deliver [0], .deliver [0, 0], .deliver []]]

def aheadRing : List Command :=
  [.on 0 (.errand (.create ⟨4, false, none⟩)), .on 0 (.errand (.operate (.put [9, 8, 1]))),
    .on 0 (.errand (.operate (.skip 2)))] ++ aheadJobs.flatMap (Job.commands 0)

def plainRing : List Command :=
  [.on 2 (.errand (.create ⟨4, false, none⟩)), .on 2 (.errand (.operate (.putByte 1)))]
    ++ plainJobs.flatMap (Job.commands 2)

theorem reachable_alike_ahead : ∃ m₁' m₂' log,
    ((load .plain aheadRing).after 3).Logs 0 0 aheadJobs log m₁' ∧
      ((load .plain plainRing).after 2).Logs 2 0 plainJobs log m₂' ∧
      (m₁'.session.ring 0).contents = (m₂'.session.ring 0).contents := by
  have hidle₁ d : (((load .plain aheadRing).after 3).session.ring 0).occupancy.held d = none := by
    cases d <;> rfl
  have hidle₂ d : (((load .plain plainRing).after 2).session.ring 0).occupancy.held d = none := by
    cases d <;> rfl
  have horders₁ : List.Forall₂ Job.Places aheadJobs
      [.transfer ⟨.fill, 3⟩ ⟨[5, 6, 7], some 3, .dry⟩, .transfer ⟨.send, 4⟩ ⟨[], some 3, .dry⟩] :=
    .cons (.whole (.piece (by decide) (.used_up rfl)))
      (.cons (.task 1 0 false (.gulp rfl (by decide) (.inl rfl)
        (.piece (by decide) (.decline [])))) .nil)
  have horders₂ : List.Forall₂ Job.Places plainJobs
      [.transfer ⟨.fill, 3⟩ ⟨[5, 6, 7], some 3, .dry⟩, .transfer ⟨.send, 4⟩ ⟨[], some 3, .dry⟩] :=
    .cons (.task 3 0 true (.piece (by decide) (.piece (by decide) (.used_up rfl))))
      (.cons (.whole (.piece (by decide) (.piece (by decide) (.stop [])))) .nil)
  have hf₁ : ((load .plain aheadRing).after 3).focus
      = .commands (aheadJobs.flatMap (Job.commands 0) ++ []) _ := rfl
  have hf₂ : ((load .plain plainRing).after 2).focus
      = .commands (plainJobs.flatMap (Job.commands 2) ++ []) _ := rfl
  have hfree₁ : ∀ job ∈ aheadJobs, job.Free ((load .plain aheadRing).after 3).session := by
    simpa [aheadJobs, Job.Free] using ⟨rfl, Session.unheard Tokens.silent_plain List.not_mem_nil⟩
  have hfree₂ : ∀ job ∈ plainJobs, job.Free ((load .plain plainRing).after 2).session := by
    simpa [plainJobs, Job.Free] using ⟨rfl, Session.unheard Tokens.silent_plain List.not_mem_nil⟩
  exact reachable_alike (passes_after _ 0 3).roams (passes_after _ 0 2).roams rfl rfl hidle₁ hidle₂
    rfl rfl rfl hf₁ hf₂ horders₁ horders₂ hfree₁ hfree₂

end Machine

end CyclicBuffer
