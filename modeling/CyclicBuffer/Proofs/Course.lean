import CyclicBuffer.Proofs.Steps

/-!
# Courses

What a session machine does to each of its rings, told as a chronicle. `Machine.marks` gives the
marks that the next step leaves in the chronicle of a ring, and `step_course` says that they are
true: they lead from the ring and its grants before the step to the ring and its grants after it.
For this a machine must be `Steady`: every call under way was offered what its transfer would be
offered now, and every transfer that waits for a cancel has bytes left to move.
-/

namespace CyclicBuffer

open Function (update)

/-! ## Courses of rings -/

/-- What happened to every ring is what its marks tell, no ring is gone, and none is larger than
memory. -/
structure Course (marks : Nat → List Mark) (s : Session) (ts : List Transfer) (s' : Session)
    (ts' : List Transfer) : Prop where
  size : s.rings.size ≤ s'.rings.size
  bounded : ∀ place, (s.ring place).capacity ≤ Ring.maxSize →
    (s'.ring place).capacity ≤ Ring.maxSize
  deeds : ∀ place < s.rings.size, Deeds (s.ring place) (grantsOf ts place) (marks place)
    (s'.ring place) (grantsOf ts' place)

section
variable {s s₁ s₂ : Session} {t t' : Transfer} {ts ts₁ ts₂ : List Transfer}
  {marks marks' : Nat → List Mark} {g g' : Grant}

theorem Custody.keeps (h : Custody s ts) (place : Nat) :
    (s.ring place).Keeps (grantsOf ts place) := by
  have hof d g (hg : g ∈ grantsOf ts place d) :
      ∃ t ∈ ts, t.grant = some g ∧ g.direction = d := by
    obtain ⟨t, ht, hm⟩ := List.mem_flatMap.1 hg
    refine ⟨t, ht, ?_⟩
    unfold Transfer.grants at hm
    split at hm
    · simpa [List.mem_filter] using hm
    · simp at hm
  refine ⟨h.held place, ?_, ?_⟩
  · intro d g hg
    obtain ⟨_, _, _, hd⟩ := hof d g hg
    exact hd
  · intro d g hg
    obtain ⟨t, ht, htg, _⟩ := hof d g hg
    exact (h.fits t ht).moved_le g htg

theorem Course.congr (h : Course marks s ts s₁ ts₁) (hm : ∀ place, marks' place = marks place) :
    Course marks' s ts s₁ ts₁ :=
  ⟨h.size, h.bounded, fun place hp => hm place ▸ h.deeds place hp⟩

/-- The transfers may be described anew as long as their grants stay. -/
theorem Course.regroup {ts' ts₁' : List Transfer} (h : Course marks s ts s₁ ts₁)
    (hg : ∀ place d, grantsOf ts place d = grantsOf ts' place d)
    (hg₁ : ∀ place d, grantsOf ts₁ place d = grantsOf ts₁' place d) :
    Course marks s ts' s₁ ts₁' := by
  refine ⟨h.size, h.bounded, fun place hp => ?_⟩
  rw [← funext (hg place), ← funext (hg₁ place)]
  exact h.deeds place hp

/-- Nothing happened to any ring. -/
theorem Course.still (hs : s₁.rings = s.rings)
    (hg : ∀ place d, grantsOf ts₁ place d = grantsOf ts place d) :
    Course (fun _ => []) s ts s₁ ts₁ := by
  have hring (place : Nat) : s₁.ring place = s.ring place := by
    rw [Session.ring, hs, Session.ring]
  refine ⟨Nat.le_of_eq (congrArg Array.size hs.symm), fun place hb => hring place ▸ hb,
    fun place _ => ?_⟩
  rw [hring, funext (hg place)]
  exact .nil

/-- Something happened to one ring. -/
theorem Course.at {place : Nat} {ring : Ring} {events : List Event} {ms : List Mark}
    (hother : ∀ q d, q ≠ place → grantsOf ts₁ q d = grantsOf ts q d)
    (hsize : ring.capacity = (s.ring place).capacity)
    (hd : Deeds (s.ring place) (grantsOf ts place) ms ring (grantsOf ts₁ place)) :
    Course (marksAt place ms) s ts (s.update place ring events) ts₁ := by
  refine ⟨Nat.le_of_eq (Session.size_update ..).symm, fun q hb => ?_, fun q hq => ?_⟩
  · rw [s.capacity_update hsize]
    exact hb
  by_cases he : q = place
  · subst he
    rw [marksAt, if_pos rfl, s.ring_update_self hq]
    exact hd
  · rw [marksAt, if_neg (Ne.symm he), s.ring_update_ne he, funext fun d => hother q d he]
    exact .nil

/-- A mark was left on one ring, but nothing changed. -/
theorem Course.mark {place : Nat} {ms : List Mark}
    (hd : Deeds (s.ring place) (grantsOf ts place) ms (s.ring place) (grantsOf ts place)) :
    Course (marksAt place ms) s ts s ts := by
  have h : Course (marksAt place ms) s ts (s.update place (s.ring place) []) ts :=
    .at (fun _ _ _ => rfl) rfl hd
  rwa [s.update_ring] at h

theorem Course.trans (h : Course marks s ts s₁ ts₁) (h' : Course marks' s₁ ts₁ s₂ ts₂) :
    Course (fun place => marks place ++ marks' place) s ts s₂ ts₂ :=
  ⟨Nat.le_trans h.size h'.size, fun place hb => h'.bounded place (h.bounded place hb),
    fun place hp => (h.deeds place hp).append (h'.deeds place (Nat.lt_of_lt_of_le hp h.size))⟩

/-! ## Grants of the transfer in focus -/

/-- A transfer whose direction nobody else holds goes on with another grant. -/
theorem grantsOf_replace (hr : t'.ring = t.ring) (hg : t'.grant = some g')
    (hd : ∀ g, t.grant = some g → g.direction = g'.direction)
    (halone : grantsOf ts t.ring g'.direction = []) :
    grantsOf (t' :: ts) t.ring = update (grantsOf (t :: ts) t.ring) g'.direction [g'] := by
  funext e
  have hself : t'.grants t.ring g'.direction = [g'] := hr ▸ Transfer.grants_self hg
  by_cases he : e = g'.direction
  · subst he
    rw [Function.update_self, grantsOf_cons, hself, halone]
    rfl
  · have hnone : t.grants t.ring e = [] := by
      cases htg : t.grant with
      | none => exact Transfer.grants_idle htg
      | some g => exact Transfer.grants_of_direction_ne htg (hd g htg ▸ Ne.symm he)
    rw [Function.update_of_ne he, grantsOf_cons, grantsOf_cons, hnone,
      Transfer.grants_of_direction_ne hg (Ne.symm he)]

/-- A transfer whose direction nobody else holds is gone. -/
theorem grantsOf_remove (hg : t.grant = some g) (halone : grantsOf ts t.ring g.direction = []) :
    grantsOf ts t.ring = update (grantsOf (t :: ts) t.ring) g.direction [] := by
  funext e
  by_cases he : e = g.direction
  · rw [he, Function.update_self, halone]
  · rw [Function.update_of_ne he, grantsOf_cons, Transfer.grants_of_direction_ne hg (Ne.symm he),
      List.nil_append]

theorem grantsOf_other {place q : Nat} (hr : t.ring = place) (hr' : t'.ring = place)
    (hq : q ≠ place) (d : Direction) : grantsOf (t' :: ts) q d = grantsOf (t :: ts) q d := by
  rw [grantsOf_cons, grantsOf_cons, Transfer.grants_of_ring_ne (hr' ▸ Ne.symm hq),
    Transfer.grants_of_ring_ne (hr ▸ Ne.symm hq)]

theorem grantsOf_tail {q : Nat} (hq : q ≠ t.ring) (d : Direction) :
    grantsOf ts q d = grantsOf (t :: ts) q d := by
  rw [grantsOf_cons, Transfer.grants_of_ring_ne (Ne.symm hq), List.nil_append]

theorem Custody.grants_self (h : Custody s (t :: ts)) (hg : t.grant = some g) :
    grantsOf (t :: ts) t.ring g.direction = [g] := by
  rw [grantsOf_cons, Transfer.grants_self hg, h.grants_alone hg]
  rfl

/-! ## Courses of transfers -/

/-- A transfer is granted its region. -/
theorem Custody.course_begin (h : Custody s (t :: ts)) (hg : t.grant = none) {count : Nat}
    {ring : Ring} {events : List Event}
    (hr : (s.ring t.ring).reserve t.request.purpose.direction count = .ok (g, ring, events))
    (ht' : t'.ring = t.ring) (hg' : t'.grant = some g) :
    Course (marksAt t.ring [(s.ring t.ring).begun t.request.purpose.direction count]) s (t :: ts)
      (s.update t.ring ring events) (t' :: ts) := by
  have hknown := (h.fits t (List.mem_cons_self ..)).known
  obtain ⟨region, o, hro, hgrant, -, -⟩ := Ring.reserve_ok hr
  have hdir : g.direction = t.request.purpose.direction := by rw [hgrant]
  have hidle := h.grants_of_held ((h.sound hknown).coherent.reserve_held hro).1
  have halone : grantsOf ts t.ring g.direction = [] := by
    rw [hdir]
    rwa [grantsOf_cons, Transfer.grants_idle hg] at hidle
  refine Course.at (fun q d hq => grantsOf_other rfl ht' hq d) (Ring.leads_reserve hr).capacity ?_
  rw [grantsOf_replace ht' hg' (by simp [hg]) halone, hdir]
  exact (Deed.begin hidle hr).single

/-- A call is answered. -/
theorem Custody.course_reply (h : Custody s (t :: ts)) (hg : t.grant = some g)
    (hmore : g.remaining ≠ 0) {written : Bytes} (hw : (s.ring t.ring).Accepts g written)
    (reply : Reply) {u : Transfer} (ht' : u.ring = t.ring)
    (hg' : u.grant = some (g.hear reply).1) :
    Course (marksAt t.ring [.replied g.direction ((s.ring t.ring).offer g) written reply]) s
      (t :: ts) (s.update t.ring ((s.ring t.ring).receive g written) []) (u :: ts) := by
  have hdir := (g.before_hear reply).direction
  refine Course.at (fun q d hq => grantsOf_other rfl ht' hq d) (Storage.size_write ..) ?_
  rw [grantsOf_replace ht' hg' (fun g₁ hg₁ => by cases hg.symm.trans hg₁; exact hdir.symm)
    (hdir ▸ h.grants_alone hg), hdir]
  exact (Deed.reply (h.grants_self hg) hmore hw reply).single

/-- A transfer commits what it has moved, and is gone. -/
theorem Custody.course_finish (h : Custody s (t :: ts)) (hg : t.grant = some g) {ring : Ring}
    {events reported : List Event} (hc : (s.ring t.ring).commit g = .ok (ring, events))
    {ending : Option Ending} (he : ending = some .complete ↔ g.remaining = 0) :
    Course (marksAt t.ring [(s.ring t.ring).finished g ending]) s (t :: ts)
      (s.update t.ring ring reported) ts := by
  obtain ⟨o, -, hring, -⟩ := Ring.commit_ok hc
  refine Course.at (fun q d hq => grantsOf_tail hq d) (by rw [hring]; rfl) ?_
  rw [grantsOf_remove hg (h.grants_alone hg)]
  exact (Deed.finish (h.grants_self hg) hc he).single

/-- A transfer that is let go commits what it has moved. -/
theorem Custody.course_abandon (h : Custody s (t :: ts))
    (hmore : ∀ g, t.grant = some g → g.remaining ≠ 0) {events : List Event}
    (hok : s.abandon t = .ok (s₁, events)) : Course (s.parted t) s (t :: ts) s₁ ts := by
  unfold Session.abandon at hok
  cases hg : t.grant with
  | none =>
    rw [hg] at hok
    cases hok
    refine (Course.still rfl ?_).congr ?_
    · intro place d
      rw [grantsOf_cons, Transfer.grants_idle hg, List.nil_append]
    · intro place
      simp [Session.parted, marksAt, hg]
  | some g =>
    obtain ⟨ring, events', hc, -⟩ := h.finish (w := True) hg
    simp only [hg, hc] at hok
    cases hok
    simp only [Session.parted, hg, Option.toList_some, List.map_singleton]
    exact h.course_finish hg hc (by simpa using hmore g hg)

/-- All tasks that have started have bytes left to move. -/
def Session.Unfinished (s : Session) : Prop :=
  ∀ entry ∈ s.tasks, ∀ g, entry.2.transfer.grant = some g → g.remaining ≠ 0

theorem Session.mem_tasks {s : Session} {id : Nat} {task : Task} (h : s.task? id = some task) :
    (id, task) ∈ s.tasks := by
  obtain ⟨before, after, heq, -⟩ := List.lookup_eq_some_iff.1 h
  rw [heq]
  simp

theorem Custody.course_dropTask (h : Custody s (ts ++ s.waiting)) (hu : s.Unfinished) {id : Nat}
    {events : List Event} (hok : s.dropTask id = .ok (s₁, events)) :
    Course (s.dropped id) s (ts ++ s.waiting) s₁ (ts ++ s₁.waiting) := by
  unfold Session.dropTask at hok
  cases ht : s.task? id with
  | none =>
    rw [ht] at hok
    cases hok
    refine (Course.still rfl fun _ _ => rfl).congr ?_
    intro place
    simp [Session.dropped, ht]
  | some task =>
    simp only [ht] at hok
    have hquiet := h.removeTask ht
    have hwaiting : s₁.waiting = (s.removeTask id).waiting := by
      rw [Session.waiting, Session.tasks_abandon hok, Session.waiting]
    have hcourse := hquiet.custody.course_abandon (hu _ (Session.mem_tasks ht)) hok
    rw [hwaiting]
    have hall := hcourse.regroup hquiet.grants fun _ _ => rfl
    refine ⟨hall.size, hall.bounded, fun place hp => ?_⟩
    simp only [Session.dropped, ht]
    exact hall.deeds place hp

/-- A transfer goes into the table, where a task of the same name is let go. -/
theorem Custody.course_addTask {task : Task}
    (h : Custody s (task.transfer :: (ts ++ s.waiting))) (hu : s.Unfinished) {id : Nat}
    {events : List Event} (hok : s.addTask id task = .ok (s₁, events)) :
    Course (s.dropped id) s (task.transfer :: (ts ++ s.waiting)) s₁ (ts ++ s₁.waiting) := by
  have h' : Custody s ((task.transfer :: ts) ++ s.waiting) := h
  obtain ⟨s₂, events₂, hok₂, -, hshift⟩ := h'.dropTask (w := True) id
  simp only [Session.addTask, hok₂] at hok
  cases hok
  have hcourse := h'.course_dropTask hu hok₂
  have hperm : (task.transfer :: ts ++ s₂.waiting).Perm
      (ts ++ ({ s₂ with tasks := (id, task) :: s₂.tasks } : Session).waiting) :=
    List.perm_middle.symm
  have hall := hcourse.regroup (fun _ _ => rfl)
    fun place d => ((hshift.custody.perm hperm).grants place d).symm
  exact ⟨hall.size, hall.bounded, hall.deeds⟩

end

/-! ## Steady machines -/

/-- A call that is under way was offered what it would be offered now. If it is polled, it waits for
the cancel, and only a transfer with bytes left to move does so. -/
structure Passage.Steady (s : Session) (p : Passage) : Prop where
  offer : ∀ call, p.current = some call → ∃ g, p.transfer.grant = some g ∧ g.remaining ≠ 0 ∧
    call.offer = (s.ring p.transfer.ring).offer g
  awaits : ∀ q, p.polling = some q → p.current.isSome → q.awaits.isSome
  polled : ∀ q polls, p.polling = some q → q.awaits = some polls → 0 < polls ∧
    ∃ g, p.transfer.grant = some g ∧ g.remaining ≠ 0

namespace Passage

/-- A transfer that is in a call has bytes left to move, and its offer is the present one. -/
theorem Steady.in_call {s : Session} {p : Passage} {g : Grant} (h : p.Steady s)
    (hg : p.transfer.grant = some g) (hcall : p.current.isSome) : g.remaining ≠ 0 ∧
      p.current.map (·.offer) = some ((s.ring p.transfer.ring).offer g) := by
  obtain ⟨call, hcurrent⟩ := Option.isSome_iff_exists.1 hcall
  obtain ⟨g', hg', hmore, ho⟩ := h.offer call hcurrent
  cases hg.symm.trans hg'
  exact ⟨hmore, by rw [hcurrent, Option.map_some, ho]⟩

/-- A transfer that has not started is in no call. -/
theorem Steady.idle {s : Session} {p : Passage} (h : p.Steady s)
    (hg : p.transfer.grant = none) : p.current = none := by
  by_contra hcall
  obtain ⟨call, hcall⟩ := Option.ne_none_iff_exists'.1 hcall
  obtain ⟨g, hg', -⟩ := h.offer call hcall
  cases hg.symm.trans hg'

/-- A transfer that has not started waits for no cancel. -/
theorem Steady.awaits_none {s : Session} {p : Passage} (h : p.Steady s)
    (hg : p.transfer.grant = none) : ∀ q, p.polling = some q → q.awaits = none := by
  intro q hq
  by_contra ha
  obtain ⟨polls, ha⟩ := Option.ne_none_iff_exists'.1 ha
  obtain ⟨-, g, hg', -⟩ := h.polled q polls hq ha
  cases hg.symm.trans hg'

end Passage

/-- A task that has started has bytes left to move and waits for the cancel; no other task does. -/
structure Task.Steady (task : Task) : Prop where
  more : ∀ g, task.transfer.grant = some g → g.remaining ≠ 0
  awaits : task.awaits.isSome = task.transfer.grant.isSome
  polled : ∀ polls, task.awaits = some polls → 0 < polls

structure Machine.Steady (m : Machine) : Prop where
  focus : ∀ p, m.focus = .transfer p → p.Steady m.session
  suspended : ∀ p ∈ m.suspended, p.current.isSome ∧ p.Steady m.session
  tasks : ∀ entry ∈ m.session.tasks, entry.2.Steady

theorem Machine.Steady.unfinished {m : Machine} (h : m.Steady) : m.session.Unfinished :=
  fun entry he => (h.tasks entry he).more

/-- A loop is left as complete only if no byte is left, and as cancelled only if some are. -/
theorem Passage.Steady.next_leave {s : Session} {p : Passage} {g : Grant} {ending : Ending}
    (h : p.Steady s) (hg : p.transfer.grant = some g) (hn : p.next s g = .leave ending) :
    (ending = .complete ∧ g.remaining = 0) ∨
    (ending = .cancelled ∧ g.remaining ≠ 0 ∧ p.polling.isSome) := by
  rcases Passage.next_leave hn with ⟨he, hnone, -⟩ | ⟨he, q, hq, hmore, -⟩
  · exact .inl ⟨he, hnone⟩
  · refine .inr ⟨he, ?_, by simp [hq]⟩
    cases ha : q.awaits with
    | none => exact hmore ha
    | some polls =>
      obtain ⟨-, g', hg', hmore'⟩ := h.polled q polls hq ha
      cases hg.symm.trans hg'
      exact hmore'

theorem Passage.Steady.leaves {s : Session} {p : Passage} {g : Grant} {ending : Ending}
    (h : p.Steady s) (hg : p.transfer.grant = some g) (hn : p.next s g = .leave ending) :
    p.Leaves g ending := by
  rcases h.next_leave hg hn with ⟨rfl, hnone⟩ | ⟨rfl, hmore⟩
  · exact hnone
  · exact hmore

/-- A call begins only where bytes are left to move. -/
theorem Passage.Steady.next_call {s : Session} {p : Passage} {g : Grant}
    {polling : Option Polling} (h : p.Steady s) (hg : p.transfer.grant = some g)
    (hn : p.next s g = .call polling) : g.remaining ≠ 0 := by
  rcases Passage.next_call hn with ⟨-, -, hmore⟩ | ⟨q, hq, -, hmore, -⟩
  · exact hmore
  · cases ha : q.awaits with
    | none => exact (hmore ha).1
    | some polls =>
      obtain ⟨-, g', hg', hmore'⟩ := h.polled q polls hq ha
      cases hg.symm.trans hg'
      exact hmore'

namespace Machine

variable {m m' : Machine} {p : Passage} {g : Grant}

/-! ## The course of a step -/

theorem start_course (h : m.Works p) (hg : p.transfer.grant = none) :
    Course (marksAt p.transfer.ring (p.marks (m.session.ring p.transfer.ring) m.session))
      m.session (p.transfer :: m.back) (m.start p).session (m.start p).transfers := by
  unfold start Passage.marks
  simp only [hg]
  cases hr : (m.session.ring p.transfer.ring).reserve p.transfer.request.purpose.direction
      p.transfer.request.count with
  | error e =>
    have hquiet := h.custody.forget hg
    exact (Course.still rfl hquiet.grants).congr fun _ => ite_self _
  | ok granted => exact h.custody.course_begin hg hr rfl rfl

theorem settle_course (h : Custody m.session (p.transfer :: m.back))
    (hg : p.transfer.grant = some g) {ending : Ending}
    (he : ending = .complete ↔ g.remaining = 0) :
    Course (marksAt p.transfer.ring
        [(m.session.ring p.transfer.ring).finished g (some ending)])
      m.session (p.transfer :: m.back) (m.settle p g ending).session
      (m.settle p g ending).transfers := by
  obtain ⟨ring, events, hc, -⟩ := h.finish (w := True) hg
  unfold settle Ring.settle
  simp only [hc]
  exact h.course_finish hg hc (by simpa using he)

theorem offer_course (h : m.Works p) (hst : p.Steady m.session) (hg : p.transfer.grant = some g)
    (hcur : p.current = none) :
    Course (marksAt p.transfer.ring (p.marks (m.session.ring p.transfer.ring) m.session))
      m.session (p.transfer :: m.back) (m.offer p g).session (m.offer p g).transfers := by
  unfold offer Passage.marks
  simp only [hg, hcur, Option.isSome_none, Bool.false_eq_true, if_false]
  cases hn : p.next m.session g with
  | leave ending =>
    refine settle_course h.custody hg ?_
    rcases hst.next_leave hg hn with ⟨rfl, hnone⟩ | ⟨rfl, hmore, -⟩ <;> simp [*]
  | call polling =>
    exact Course.mark (Deed.offer (h.custody.grants_self hg) (hst.next_call hg hn)).single

/-- A reply that ends a transfer leaves its grant as it is, and does not complete it. -/
theorem hear_ending {reply : Reply} {g' : Grant} {ending : Ending}
    (h : g.hear reply = (g', some ending)) : g' = g ∧ ending ≠ .complete := by
  unfold Grant.hear at h
  split at h
  · cases h
    simp
  · split at h <;> cases h
    simp
  · simp only [Prod.mk.injEq] at h
    obtain ⟨rfl, h⟩ := h
    split at h <;> cases h
    simp
  · cases h
    simp

/-- A stream is exhausted when it moves nothing. -/
theorem hear_exhausted {reply : Reply} {g' : Grant} {ending : Ending}
    (h : g.hear reply = (g', some ending)) : ending = .exhausted ↔ reply = .moved 0 := by
  unfold Grant.hear at h
  split at h
  · cases h
    simp
  · rename_i count hne
    split at h <;> cases h
    simpa using hne
  · simp only [Prod.mk.injEq] at h
    obtain ⟨-, h⟩ := h
    split at h <;> cases h
    simp
  · cases h
    simp

theorem hear_course (h : m.Works p) (hg : p.transfer.grant = some g) (hmore : g.remaining ≠ 0)
    {written : Bytes} (hw : (m.session.ring p.transfer.ring).Accepts g written) (reply : Reply)
    (stream : List Turn) {m₁ : Machine}
    (hm₁ : m₁ = { m with
      session := m.session.update p.transfer.ring
        ((m.session.ring p.transfer.ring).receive g written) [] }) :
    Course (marksAt p.transfer.ring
        ((m.session.ring p.transfer.ring).answered g written reply))
      m.session (p.transfer :: m.back) (m₁.hear (p.withStream stream) g reply).session
      (m₁.hear (p.withStream stream) g reply).transfers := by
  have hworks := (h.receive g written rfl).1
  rw [← hm₁] at hworks
  have hsession : m.session.update p.transfer.ring
      ((m.session.ring p.transfer.ring).receive g written) [] = m₁.session := by rw [hm₁]
  have hback : m₁.back = m.back := by
    rw [hm₁]
    rfl
  rw [← hback]
  rw [hear_eq, Ring.answered]
  cases hh : g.hear reply with
  | mk g' ending? =>
    have hstay := h.custody.course_reply hg hmore hw reply
      (u := { p.transfer with stream, grant := some g' }) rfl (by rw [hh])
    rw [hsession, ← hback] at hstay
    cases ending? with
    | none => exact hstay
    | some ending =>
      obtain ⟨rfl, hne⟩ := hear_ending hh
      have hwith := (hworks.withStream stream).1
      have hending : ending = .complete ↔ g'.remaining = 0 := by simp [hne, hmore]
      have hend := settle_course (p := (p.withStream stream).closeCall) hwith.custody hg hending
      have hknown := (h.custody.fits _ (List.mem_cons_self ..)).known
      have hring : m₁.session.ring p.transfer.ring
          = (m.session.ring p.transfer.ring).receive g' written := by
        rw [← hsession]
        exact Session.ring_update_self _ hknown ..
      have htransfer : (p.withStream stream).closeCall.transfer
          = { p.transfer with stream, grant := some g' } := by
        rw [← hg]
        rfl
      rw [htransfer, hring] at hend
      refine (hstay.trans hend).congr ?_
      intro place
      simp only [marksAt]
      split <;> rfl

/-- What happens to the rings when a task has to wait: a task of its name may be let go. -/
theorem wait_course (h : m.Works p) (hu : m.session.Unfinished) (hg : p.transfer.grant = some g)
    (hmore : g.remaining ≠ 0) (q : Polling) :
    Course (fun place => marksAt p.transfer.ring [.waited g.direction] place ++
        if q.again && q.woken && q.polls < maxPolls then []
        else m.session.dropped q.task place)
      m.session (p.transfer :: m.back) (m.wait p q).session (m.wait p q).transfers := by
  have hwait : Course (marksAt p.transfer.ring [.waited g.direction]) m.session
      (p.transfer :: m.back) m.session (p.transfer :: m.back) :=
    Course.mark (Deed.wait (h.custody.grants_self hg) hmore).single
  unfold wait
  dsimp only
  split
  · exact hwait.congr fun place => List.append_nil _
  · have hc : Custody m.session ((⟨p.transfer, q.token, q.woken, q.awaits⟩ : Task).transfer ::
        (m.suspended.map (fun p => p.transfer) ++ m.session.waiting)) := h.custody
    obtain ⟨s', events, hok, -⟩ := hc.addTask (w := True) q.task
    have hok' : m.session.addTask q.task ⟨p.closeCall.transfer, q.token, q.woken, q.awaits⟩
      = .ok (s', events) := hok
    rw [hok']
    exact hwait.trans (hc.course_addTask hu hok)

theorem turn_course (h : m.Works p) (hu : m.session.Unfinished) (hg : p.transfer.grant = some g)
    (hmore : g.remaining ≠ 0) (hcur : p.current.isSome) :
    Course (fun place =>
        marksAt p.transfer.ring
            (p.marks (m.session.ring p.transfer.ring) m.session) place ++
          match p.parks? (m.session.ring p.transfer.ring) with
          | none => []
          | some id => m.session.dropped id place)
      m.session (p.transfer :: m.back) (m.turn p g).session (m.turn p g).transfers := by
  rw [turn_eq]
  unfold Passage.marks Passage.parks?
  simp only [hg, hcur, if_true]
  cases hr : p.respond g.direction ((m.session.ring p.transfer.ring).room g) with
  | mk response stream =>
    have hstream : ∀ place d, grantsOf ((p.withStream stream).transfer :: m.back) place d
        = grantsOf (p.transfer :: m.back) place d := fun _ _ => rfl
    cases response with
    | answer written reply =>
      exact (hear_course h hg hmore (Passage.respond_accepts hr) reply stream rfl).congr
        fun _ => List.append_nil _
    | perform commands =>
      refine (Course.still rfl hstream).congr ?_
      intro place
      simp [marksAt]
    | wait q =>
      have hwait := wait_course (h.withStream stream).1 hu hg hmore q
      refine (hwait.regroup hstream fun _ _ => rfl).congr fun place => ?_
      by_cases hagain : (q.again && q.woken && q.polls < maxPolls) = true
      · simp only [hagain, if_true]
        rfl
      · simp only [hagain, Bool.false_eq_true, if_false]
        rfl

end Machine

section
variable {s s₁ : Session} {ts : List Transfer}

theorem Custody.course_errand (h : Custody s (ts ++ s.waiting)) (hu : s.Unfinished) (name : Nat)
    (e : Errand) :
    Course (fun place => s.marks name place (.errand e)) s (ts ++ s.waiting)
      (s.errand name e).session (ts ++ (s.errand name e).session.waiting) := by
  have hstill : Course (fun _ => []) s (ts ++ s.waiting) s (ts ++ s.waiting) :=
    Course.still rfl fun _ _ => rfl
  cases e with
  | create blueprint =>
    simp only [Session.errand]
    split
    · exact hstill
    · rename_i ring events hb
      refine ⟨by simp [Session.addRing, Session.note], fun place hle => ?_, fun place hp => ?_⟩
      · rw [s.ring_addRing]
        split
        · exact Ring.capacity_build hb
        · exact hle
      · rw [s.ring_addRing, if_neg (Nat.ne_of_lt hp)]
        exact .nil
  | operate operation =>
    simp only [Session.errand, Session.onRing, Session.marks]
    cases hname : s.place? name with
    | none => exact hstill
    | some place =>
      have hat : Course (marksAt place [(s.ring place).operated operation]) s (ts ++ s.waiting)
          (s.update place ((s.ring place).apply operation).ring
            ((s.ring place).apply operation).events) (ts ++ s.waiting) :=
        .at (fun _ _ _ => rfl)
          (Ring.leads_apply (h.sound (h.named _ (Session.mem_of_place? hname))) operation).capacity
          (Deed.operate operation).single
      refine hat.congr ?_
      intro q
      simp only [marksAt, Option.some.injEq]
      split
      · rename_i he
        rw [he]
      · rfl
  | drop id =>
    obtain ⟨s', events, hok, -, -⟩ := h.dropTask (w := True) id
    simp only [Session.errand, hok]
    exact h.course_dropTask hu hok
  | isWoken id =>
    simp only [Session.errand]
    split <;> exact hstill
  | isCancelled token => exact hstill
  | _ =>
    simp only [Session.errand, Session.onRing]
    split <;> exact hstill

theorem Custody.course_spawn (h : Custody s (ts ++ s.waiting)) (hu : s.Unfinished)
    (name id : Nat) (request : Request) (stream : List Turn) (token : Nat) :
    Course (fun place => s.marks name place (.spawn id request stream token)) s (ts ++ s.waiting)
      (s.spawn name id request stream token).session
      (ts ++ (s.spawn name id request stream token).session.waiting) := by
  simp only [Session.spawn, Session.onRing, Session.marks]
  cases hname : s.place? name with
  | none => exact Course.still rfl fun _ _ => rfl
  | some place =>
    have hjoin : Quiet s (ts ++ s.waiting) s
        ((⟨name, place, request, stream, none⟩ : Transfer) :: (ts ++ s.waiting)) :=
      h.join rfl (h.named _ (Session.mem_of_place? hname))
    have hc : Custody s
        ((⟨⟨name, place, request, stream, none⟩, token, false, none⟩ : Task).transfer
          :: (ts ++ s.waiting)) := hjoin.custody
    obtain ⟨s', events, hok, -⟩ := hc.addTask (w := True) id
    simp only [hok, Option.isSome_some, if_true]
    exact (hc.course_addTask hu hok).regroup hjoin.grants fun _ _ => rfl

end

namespace Machine

variable {m m' : Machine} {p : Passage} {g : Grant}

theorem poll_course (h : Custody m.session m.back) (name id : Nat) (again : Bool)
    (todo : List Command) (done : List Answer) :
    Course (fun _ => []) m.session m.back (m.poll name id again todo done).session
      (m.poll name id again todo done).transfers := by
  unfold poll
  split
  · exact Course.still rfl fun _ _ => rfl
  · rename_i task ht
    exact Course.still rfl (h.removeTask ht).grants

theorem obey_course (h : Custody m.session m.back) (hu : m.session.Unfinished) (name : Nat)
    (action : Action) (todo : List Command) (done : List Answer) :
    Course (fun place => m.session.marks name place action) m.session m.back
      (m.obey name action todo done).session (m.obey name action todo done).transfers := by
  have hstill : Course (fun _ => []) m.session m.back m.session m.back :=
    Course.still rfl fun _ _ => rfl
  cases action with
  | errand e => exact h.course_errand hu name e
  | transfer request stream =>
    unfold obey
    dsimp only
    split
    · exact hstill
    · rename_i place hname
      refine Course.still rfl ?_
      exact (h.join (t := ⟨name, place, request, stream, none⟩) rfl
        (h.named _ (Session.mem_of_place? hname))).grants
  | spawn id request stream token => exact h.course_spawn hu name id request stream token
  | poll id => exact poll_course h name id false todo done
  | run id => exact poll_course h name id true todo done
  | cancel token =>
    refine Course.still rfl fun place d => ?_
    simp only [obey, transfers, back, answer, Focus.transfers, Session.waiting, Session.cancel,
      List.map_map, List.nil_append]
    rfl

theorem Orderly.works (ho : m.Orderly) (hf : m.focus = .transfer p) : m.Works p := by
  have hc := ho.custody
  have hcalm := ho.calm.focus
  simp only [transfers, hf, Focus.transfers, List.singleton_append] at hc
  rw [hf] at hcalm
  exact ⟨hc, hcalm, ho.calm.suspended⟩

/-- A step leaves its marks on each ring. -/
theorem step_course (ho : m.Orderly) (hst : m.Steady) (hs : m.step = some m') :
    Course m.marks m.session m.transfers m'.session m'.transfers := by
  have hc := ho.custody
  unfold transfers at hc ⊢
  unfold marks
  cases step_iff.1 hs with
  | resume hf hsus =>
    rw [hf]
    refine Course.still rfl fun place d => ?_
    simp only [back, hsus]
    rfl
  | obey hf =>
    rw [hf] at hc ⊢
    exact obey_course hc hst.unfinished ..
  | start hf hg =>
    rw [hf]
    refine (start_course (ho.works hf) hg).congr fun place => ?_
    simp [Passage.parks?, hg]
  | @turn p g hf hg hcall =>
    obtain ⟨hmore, -⟩ := (hst.focus p hf).in_call hg hcall
    rw [hf]
    exact turn_course (ho.works hf) hst.unfinished hg hmore hcall
  | @offer p g hf hg hidle =>
    rw [hf]
    refine (offer_course (ho.works hf) (hst.focus p hf) hg hidle).congr fun place => ?_
    simp [Passage.parks?, hg, hidle]

end Machine

end CyclicBuffer
