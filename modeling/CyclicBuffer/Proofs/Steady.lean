import CyclicBuffer.Proofs.Course

/-!
# Calls under way

Steps keep a machine steady (`Steady.step`): what a call was offered stays what its transfer would
be offered now, however long the call lasts and whatever else is done meanwhile. So every machine
that a list of commands leads to is steady, and its steps leave a chronicle on every ring
(`Passes.deeds`).
-/

namespace CyclicBuffer

/-! ## Offers stay -/

theorem Ring.not_begins_finished (r : Ring) (g : Grant) (ending : Option Ending) (d : Direction) :
    ¬ (r.finished g ending).Begins d := by
  unfold finished
  split <;> exact id

theorem Session.not_begins_dropped (s : Session) (id place : Nat) (d : Direction) :
    ∀ mark ∈ s.dropped id place, ¬ mark.Begins d := by
  intro mark hm
  unfold dropped at hm
  split at hm
  · cases hm
  · unfold parted marksAt at hm
    split at hm
    · obtain ⟨g, -, rfl⟩ := List.mem_map.1 hm
      exact Ring.not_begins_finished _ _ _ d
    · cases hm

/-- The step of a transfer that has started begins no other. -/
theorem Passage.not_begins_marks {p : Passage} {g : Grant} (hg : p.transfer.grant = some g)
    (r : Ring) (s : Session) (d : Direction) :
    ∀ mark ∈ p.marks r s, ¬ mark.Begins d := by
  intro mark hm
  simp only [marks, hg] at hm
  split at hm
  · split at hm
    · rcases List.mem_cons.1 hm with rfl | hm
      · exact id
      · split at hm
        · cases hm
        · rw [List.mem_singleton.1 hm]
          exact Ring.not_begins_finished _ _ _ d
    · cases hm
    · rw [List.mem_singleton.1 hm]
      exact id
  · split at hm
    · rw [List.mem_singleton.1 hm]
      exact Ring.not_begins_finished _ _ _ d
    · rw [List.mem_singleton.1 hm]
      exact id

namespace Machine

variable {m m' : Machine} {p : Passage} {g : Grant}

/-- In one step transfers begin or end, but not both. -/
theorem marks_apart (m : Machine) (place : Nat) (d : Direction) :
    (∀ mark ∈ m.marks place, ¬ mark.Begins d) ∨ ∀ mark ∈ m.marks place, ¬ mark.Ends d := by
  unfold marks
  split
  · exact .inl (by simp)
  · refine .inl ?_
    unfold Session.marks
    split
    · split
      · intro mark hm
        rw [List.mem_singleton.1 hm]
        unfold Ring.operated
        split <;> exact id
      · simp
    · exact Session.not_begins_dropped _ _ _ d
    · split
      · exact Session.not_begins_dropped _ _ _ d
      · simp
    · simp
  · rename_i p _
    cases hg : p.transfer.grant with
    | none =>
      refine .inr ?_
      intro mark hm
      simp only [Passage.marks, Passage.parks?, hg, List.append_nil, marksAt] at hm
      split at hm
      · split at hm
        · cases hm
        · rw [List.mem_singleton.1 hm]
          unfold Ring.begun
          split <;> exact id
      · cases hm
    | some g =>
      refine .inl ?_
      intro mark hm
      rcases List.mem_append.1 hm with hm | hm
      · unfold marksAt at hm
        split at hm
        · exact Passage.not_begins_marks hg _ _ d mark hm
        · cases hm
      · split at hm
        · cases hm
        · exact Session.not_begins_dropped _ _ _ d mark hm

/-- A step leaves the offer of a transfer as it is, unless it is a step of that transfer. -/
theorem offer_step (ho : m.Orderly) (hst : m.Steady) (hs : m.step = some m') {place : Nat}
    (hp : place < m.session.rings.size) {d : Direction} (hg : m.grants place d = [g])
    (hg' : m'.grants place d = [g]) :
    (m'.session.ring place).offer g = (m.session.ring place).offer g := by
  have hds := (step_course ho hst hs).deeds place hp
  refine hds.offer_eq (ho.custody.sound hp) (ho.custody.keeps place) hg hg' ?_
  rcases m.marks_apart place d with hb | he
  · rcases hds.lives hb with hidle | hlive
    · simp [grants, hidle] at hg'
    · exact hlive
  · exact he

end Machine

/-- A transfer that has started holds its direction alone. -/
theorem Custody.grants_of_mem {s : Session} {t : Transfer} {ts : List Transfer} {g : Grant}
    (h : Custody s ts) (ht : t ∈ ts) (hg : t.grant = some g) :
    grantsOf ts t.ring g.direction = [g] := by
  obtain ⟨before, after, rfl⟩ := List.append_of_mem ht
  have hquiet := h.perm List.perm_middle
  rw [← hquiet.grants]
  exact hquiet.custody.grants_self hg

/-! ## Steady steps -/

/-- A passage after a step: its call is still under way, and it waits as it did. -/
structure Passage.Follows (p p' : Passage) : Prop where
  ring : p'.transfer.ring = p.transfer.ring
  grant : p'.transfer.grant = p.transfer.grant
  offer : p'.current.map Call.offer = p.current.map Call.offer
  awaits : p'.polling.map Polling.awaits = p.polling.map Polling.awaits

namespace Passage

variable {s s' : Session} {p p' : Passage}

theorem Follows.refl (p : Passage) : p.Follows p := ⟨rfl, rfl, rfl, rfl⟩

theorem Follows.isSome (h : p.Follows p') : p'.current.isSome = p.current.isSome := by
  simpa using congrArg Option.isSome h.offer

theorem Follows.exists_awaits (h : p.Follows p') {q' : Polling} (hq' : p'.polling = some q') :
    ∃ q, p.polling = some q ∧ q'.awaits = q.awaits := by
  have hmap := h.awaits
  rw [hq', Option.map_some, eq_comm, Option.map_eq_some_iff] at hmap
  obtain ⟨q, hq, heq⟩ := hmap
  exact ⟨q, hq, heq.symm⟩

theorem Follows.steady (h : p.Follows p') (hp : p.Steady s)
    (hoffer : ∀ g, p.transfer.grant = some g →
      (s'.ring p.transfer.ring).offer g = (s.ring p.transfer.ring).offer g) : p'.Steady s' := by
  refine ⟨fun call hcall => ?_, fun q' hq' hcur => ?_, fun q' polls hq' ha => ?_⟩
  · have hmap := h.offer
    rw [hcall, Option.map_some, eq_comm, Option.map_eq_some_iff] at hmap
    obtain ⟨call₀, hcall₀, heq⟩ := hmap
    obtain ⟨g, hg, hmore, ho⟩ := hp.offer call₀ hcall₀
    exact ⟨g, h.grant.trans hg, hmore, by rw [h.ring, hoffer g hg, ← ho, heq]⟩
  · obtain ⟨q, hq, heq⟩ := h.exists_awaits hq'
    exact heq ▸ hp.awaits q hq (h.isSome ▸ hcur)
  · obtain ⟨q, hq, heq⟩ := h.exists_awaits hq'
    exact h.grant ▸ hp.polled q polls hq (heq ▸ ha)

/-- A passage is steady that is in no call and waits for nothing. -/
theorem steady_of_idle (h : p.current = none)
    (ha : ∀ q, p.polling = some q → q.awaits = none) : p.Steady s :=
  ⟨by simp [h], by simp [h], fun q polls hq hsome => by simp [ha q hq] at hsome⟩

theorem Follows.withStream (p : Passage) (stream : List Turn) : p.Follows (p.withStream stream) :=
  ⟨rfl, rfl, rfl, rfl⟩

theorem Follows.resume (p : Passage) (answers : List Answer) : p.Follows (p.resume answers) := by
  refine ⟨rfl, rfl, ?_, rfl⟩
  simp only [Passage.resume, Option.map_map]
  rfl

theorem Follows.wake (p : Passage) (token : Nat) (wakes : Nat → Bool) :
    p.Follows (p.wake token wakes) := by
  refine ⟨rfl, rfl, rfl, ?_⟩
  simp only [Passage.wake, Option.map_map]
  rfl

end Passage

theorem Task.Steady.idle {task : Task} (h : task.transfer.grant = none)
    (ha : task.awaits = none) : task.Steady :=
  ⟨by simp [h], by simp [h, ha], by simp [ha]⟩

theorem Task.Steady.wake {task : Task} (h : task.Steady) (token : Nat) (wakes : Nat → Bool) :
    (task.wake token wakes).Steady :=
  ⟨h.more, h.awaits, h.polled⟩

/-- A session with the same tokens cancelled, in which no new task has started. -/
structure Session.Within (s s' : Session) : Prop where
  tokens : s'.tokens = s.tokens
  cancelled : s'.cancelled = s.cancelled
  tasks : ∀ entry ∈ s'.tasks,
    entry ∈ s.tasks ∨ (entry.2.transfer.grant = none ∧ entry.2.awaits = none)

namespace Session

variable {s s' : Session}

theorem Within.refl (s : Session) : s.Within s := ⟨rfl, rfl, fun _ he => .inl he⟩

theorem cancelled_abandon {t : Transfer} {events : List Event}
    (h : s.abandon t = .ok (s', events)) :
    s'.tokens = s.tokens ∧ s'.cancelled = s.cancelled := by
  unfold abandon at h
  split at h
  · cases h
    exact ⟨rfl, rfl⟩
  · cases hc : (s.ring t.ring).commit _ with
    | error f =>
      rw [hc] at h
      cases h
    | ok committed =>
      rw [hc] at h
      cases h
      exact ⟨rfl, rfl⟩

theorem dropTask_within {id : Nat} {events : List Event} (h : s.dropTask id = .ok (s', events)) :
    s.Within s' ∧ ∀ entry ∈ s'.tasks, entry ∈ s.tasks := by
  have hsub : ∀ entry ∈ s'.tasks, entry ∈ s.tasks := by
    unfold dropTask at h
    split at h
    · cases h
      exact fun _ he => he
    · rw [tasks_abandon h]
      exact fun _ he => (List.mem_filter.1 he).1
  refine ⟨?_, hsub⟩
  unfold dropTask at h
  split at h
  · cases h
    exact .refl s
  · obtain ⟨ht, hc⟩ := cancelled_abandon h
    exact ⟨ht, hc, fun entry he => .inl (hsub entry he)⟩

theorem addTask_within {id : Nat} {task : Task} {events : List Event}
    (h : s.addTask id task = .ok (s', events)) :
    (s'.tokens = s.tokens ∧ s'.cancelled = s.cancelled) ∧
      ∀ entry ∈ s'.tasks, entry = (id, task) ∨ entry ∈ s.tasks := by
  unfold addTask at h
  cases hd : s.dropTask id with
  | error f =>
    rw [hd] at h
    cases h
  | ok dropped =>
    rw [hd] at h
    cases h
    obtain ⟨hw, ht⟩ := dropTask_within hd
    refine ⟨⟨hw.tokens, hw.cancelled⟩, ?_⟩
    rintro entry (_ | ⟨_, he⟩)
    · exact .inl rfl
    · exact .inr (ht entry he)

theorem errand_within (s : Session) (name : Nat) (e : Errand) :
    s.Within (s.errand name e).session := by
  cases e with
  | create blueprint =>
    simp only [errand]
    split
    · exact .refl s
    · exact ⟨rfl, rfl, fun _ he => .inl he⟩
  | operate operation =>
    simp only [errand, onRing]
    split
    · exact .refl s
    · exact ⟨rfl, rfl, fun _ he => .inl he⟩
  | drop id =>
    simp only [errand]
    split
    · exact .refl s
    · rename_i hd
      exact (dropTask_within hd).1
  | isWoken id =>
    simp only [errand]
    split <;> exact .refl s
  | isCancelled token => exact .refl s
  | _ =>
    simp only [errand, onRing]
    split <;> exact .refl s

theorem spawn_within (s : Session) (name id : Nat) (request : Request) (stream : List Turn)
    (token : Nat) : s.Within (s.spawn name id request stream token).session := by
  unfold spawn onRing
  split
  · exact .refl s
  · dsimp only
    split
    · exact .refl s
    · rename_i ha
      obtain ⟨⟨hk, hc⟩, ht⟩ := addTask_within ha
      refine ⟨hk, hc, fun entry he => ?_⟩
      rcases ht entry he with rfl | he
      · exact .inr ⟨rfl, rfl⟩
      · exact .inl he

end Session

namespace Machine

variable {m m' : Machine} {p p' : Passage} {g : Grant}

/-- A passage that follows another is steady after a step. -/
theorem Steady.follows (h : m.Steady) (ho : m.Orderly) (hs : m.step = some m')
    (hp : p.transfer ∈ m.transfers) (hp' : p'.transfer ∈ m'.transfers) (hf : p.Follows p')
    (hsteady : p.Steady m.session) : p'.Steady m'.session := by
  refine hf.steady hsteady fun g hg => ?_
  have hmem := (ho.step hs).custody.grants_of_mem hp' (hf.grant.trans hg)
  rw [hf.ring] at hmem
  exact offer_step ho h hs (ho.custody.fits _ hp).known (ho.custody.grants_of_mem hp hg) hmem

/-- A step keeps a machine steady if it leaves nobody unsteady. -/
theorem Steady.goes_on (h : m.Steady) (ho : m.Orderly) (hs : m.step = some m')
    (ht : ∀ entry ∈ m'.session.tasks, entry ∈ m.session.tasks ∨ entry.2.Steady)
    (hsus : m'.suspended = m.suspended)
    (hfocus : ∀ p, m'.focus = .transfer p → p.Steady m'.session) : m'.Steady := by
  refine ⟨hfocus, ?_, fun entry he => ?_⟩
  · rw [hsus]
    intro p hp
    obtain ⟨hcur, hsteady⟩ := h.suspended p hp
    have hmem : p.transfer ∈ m.suspended.map (fun p => p.transfer) := List.mem_map_of_mem hp
    refine ⟨hcur, h.follows ho hs ?_ ?_ (.refl p) hsteady⟩
    · simp [transfers, back, hmem]
    · simp only [transfers, back, hsus, List.mem_append]
      exact .inr (.inl hmem)
  · exact (ht entry he).elim (h.tasks entry) id

theorem Steady.within (h : m.Steady) (ho : m.Orderly) (hs : m.step = some m')
    (hw : m.session.Within m'.session) (hsus : m'.suspended = m.suspended)
    (hfocus : ∀ p, m'.focus = .transfer p → p.Steady m'.session) : m'.Steady :=
  h.goes_on ho hs (fun entry he => (hw.tasks entry he).imp_right fun ⟨hg, ha⟩ => .idle hg ha) hsus
    hfocus

/-- A task that is polled goes on from where it was. -/
theorem Steady.polled (h : m.Steady) {id : Nat} {task : Task}
    (ht : m.session.task? id = some task) {s : Session} {again : Bool} {todo : List Command}
    {done : List Answer} :
    (⟨task.transfer, some ⟨id, task.token, false, task.awaits, 1, again⟩, [], none, [], todo,
      done⟩ : Passage).Steady s := by
  have htask := h.tasks _ (Session.mem_tasks ht)
  refine ⟨by simp, by simp, ?_⟩
  rintro q polls ⟨⟩ ha
  have hawaits : task.awaits = some polls := ha
  have hstarted := htask.awaits
  rw [hawaits, Option.isSome_some, eq_comm, Option.isSome_iff_exists] at hstarted
  obtain ⟨g, hg⟩ := hstarted
  exact ⟨htask.polled polls hawaits, g, hg, htask.more g hg⟩

theorem Steady.obey (h : m.Steady) (ho : m.Orderly) {name : Nat} {action : Action}
    {todo : List Command} {done : List Answer}
    (hf : m.focus = .commands (.on name action :: todo) done)
    (hs : m.step = some m') (hm : m' = m.obey name action todo done) : m'.Steady := by
  have hpoll id again (hm : m' = m.poll name id again todo done) : m'.Steady := by
    unfold poll at hm
    split at hm <;> subst hm
    · exact h.within ho hs (.refl _) rfl (by rintro _ ⟨⟩)
    · rename_i ht
      refine h.within ho hs ⟨rfl, rfl, fun entry he => .inl (List.mem_filter.1 he).1⟩ rfl ?_
      rintro _ ⟨⟩
      exact h.polled ht
  cases action with
  | errand e =>
    subst hm
    exact h.within ho hs (m.session.errand_within name e) rfl (by rintro _ ⟨⟩)
  | transfer request stream =>
    simp only [Machine.obey] at hm
    split at hm <;> subst hm
    · exact h.within ho hs (.refl _) rfl (by rintro _ ⟨⟩)
    · refine h.within ho hs (.refl _) rfl ?_
      rintro _ ⟨⟩
      exact Passage.steady_of_idle rfl (by simp)
  | spawn id request stream token =>
    subst hm
    exact h.within ho hs (m.session.spawn_within name id request stream token) rfl
      (by rintro _ ⟨⟩)
  | poll id => exact hpoll id false hm
  | run id => exact hpoll id true hm
  | cancel token =>
    subst hm
    refine ⟨by rintro _ ⟨⟩, ?_, ?_⟩
    · intro p' hp'
      obtain ⟨p, hp, rfl⟩ := List.mem_map.1 hp'
      obtain ⟨hcur, hsteady⟩ := h.suspended p hp
      have hmem : p.transfer ∈ m.suspended.map (fun p => p.transfer) := List.mem_map_of_mem hp
      refine ⟨hcur, h.follows ho hs ?_ ?_ (.wake p token _) hsteady⟩
      · simp [transfers, back, hmem]
      · have hmem' : (p.wake token (m.session.wakes token)).transfer
            ∈ (m.suspended.map (Passage.wake token (m.session.wakes token))).map
                (fun p => p.transfer) := List.mem_map_of_mem hp'
        simp only [transfers, back, List.mem_append]
        exact .inr (.inl hmem')
    · intro entry he
      obtain ⟨waiting, hw, rfl⟩ := List.mem_map.1 he
      exact (h.tasks waiting hw).wake token _

/-- A reply leaves a steady machine, whether it ends the transfer or not. -/
theorem Steady.hear (h : m.Steady) (ho : m.Orderly) (hs : m.step = some m') {m₁ : Machine}
    (ht : m₁.session.tasks = m.session.tasks) (hsus : m₁.suspended = m.suspended) {reply : Reply}
    (hm : m' = m₁.hear p g reply) : m'.Steady := by
  have htasks : ∀ entry ∈ m₁.session.tasks, entry ∈ m.session.tasks := ht ▸ fun _ he => he
  rw [hear_eq] at hm
  split at hm <;> subst hm
  · refine h.goes_on ho hs (fun entry he => .inl (htasks entry he)) hsus ?_
    rintro _ ⟨⟩
    refine Passage.steady_of_idle rfl fun q hq => ?_
    obtain ⟨q', -, rfl⟩ := Option.map_eq_some_iff.1 hq
    rfl
  · exact h.goes_on ho hs (fun entry he => .inl (htasks entry he)) hsus (by rintro _ ⟨⟩)

theorem Steady.turn (h : m.Steady) (ho : m.Orderly) (hf : m.focus = .transfer p)
    (hg : p.transfer.grant = some g) (hcur : p.current.isSome) (hs : m.step = some m')
    (hm : m' = m.turn p g) : m'.Steady := by
  have hsteady := h.focus p hf
  rw [turn_eq] at hm
  split at hm
  · refine h.hear ho hs ?_ ?_ hm <;> rfl
  · rename_i commands stream _
    subst hm
    refine ⟨by rintro _ ⟨⟩, List.forall_mem_cons.2 ⟨⟨hcur, ?_⟩, ?_⟩, h.tasks⟩
    · refine h.follows ho hs (p := p) ?_ ?_ (.withStream p stream) hsteady
      · simp [transfers, hf, Focus.transfers]
      · simp [transfers, back]
    · exact h.suspended
  · rename_i q stream hr
    obtain ⟨wake, q₀, -, hq₀, rfl⟩ := Passage.respond_suspended hr
    obtain ⟨hmore, -⟩ := hsteady.in_call hg hcur
    have hawaits := hsteady.awaits q₀ hq₀ hcur
    unfold wait at hm
    dsimp only at hm
    split at hm
    · subst hm
      refine h.within ho hs (.refl _) rfl ?_
      rintro _ ⟨⟩
      refine ⟨by simp [Passage.closeCall], by simp [Passage.closeCall], ?_⟩
      rintro q polls ⟨⟩ ha
      exact ⟨(hsteady.polled q₀ polls hq₀ ha).1, g, hg, hmore⟩
    · split at hm <;> subst hm
      · exact h.within ho hs (.refl _) rfl (by rintro _ ⟨⟩)
      · rename_i hadd
        refine h.goes_on ho hs (fun entry he => ?_) rfl (by rintro _ ⟨⟩)
        rcases (Session.addTask_within hadd).2 entry he with rfl | he
        · refine .inr ⟨?_, ?_, fun polls ha => (hsteady.polled q₀ polls hq₀ ha).1⟩
          · rintro g' hg'
            cases hg.symm.trans hg'
            exact hmore
          · exact hawaits.trans (congrArg Option.isSome hg).symm
        · exact .inl he

/-- All steps keep a machine steady. -/
theorem Steady.step (h : m.Steady) (ho : m.Orderly) (hs : m.step = some m') : m'.Steady := by
  cases step_iff.1 hs with
  | @resume p rest done hf hsus =>
    have hmem : p ∈ m.suspended := by simp [hsus]
    refine ⟨?_, fun p' hp' => h.suspended p' (by simp [hsus, show p' ∈ rest from hp']), h.tasks⟩
    rintro _ ⟨⟩
    refine h.follows ho hs ?_ ?_ (.resume p done) (h.suspended p hmem).2
    · simp [transfers, back, hsus]
    · simp [transfers, Focus.transfers]
  | obey hf => exact h.obey ho hf hs rfl
  | @start p hf hg =>
    have hsteady := h.focus p hf
    generalize hm : m.start p = m' at hs ⊢
    unfold Machine.start at hm
    dsimp only at hm
    split at hm <;> subst hm
    · exact h.within ho hs (.refl _) rfl (by rintro _ ⟨⟩)
    · refine h.goes_on ho hs (fun _ he => .inl he) rfl ?_
      rintro _ ⟨⟩
      exact Passage.steady_of_idle (hsteady.idle hg) (hsteady.awaits_none hg)
  | turn hf hg hcall => exact h.turn ho hf hg hcall hs rfl
  | @offer p g hf hg hidle =>
    have hsteady := h.focus p hf
    generalize hm : m.offer p g = m' at hs ⊢
    unfold Machine.offer at hm
    split at hm <;> subst hm
    · exact h.goes_on ho hs (fun _ he => .inl he) rfl (by rintro _ ⟨⟩)
    · rename_i polling hn
      have hmore := hsteady.next_call hg hn
      refine h.within ho hs (.refl _) rfl ?_
      rintro _ ⟨⟩
      refine ⟨?_, fun q hq _ => ?_, fun q polls hq ha => ?_⟩
      · rintro call ⟨⟩
        exact ⟨g, hg, hmore, rfl⟩
      · rcases Passage.next_call hn with ⟨-, rfl, -⟩ | ⟨q₀, -, rfl, -⟩ <;> cases hq
        rfl
      · rcases Passage.next_call hn with ⟨-, rfl, -⟩ | ⟨q₀, -, rfl, -⟩ <;> cases hq
        cases ha
        exact ⟨Nat.succ_pos _, g, hg, hmore⟩

theorem steady_load (tokens : Tokens) (commands : List Command) : (load tokens commands).Steady :=
  ⟨by rintro _ ⟨⟩, by simp [load], by simp [load]⟩

/-! ## Passages of time -/

/-- Steps lead from one machine to another and leave these marks on the ring at a place. -/
inductive Passes (place : Nat) (m : Machine) : List Mark → Machine → Prop
  | refl : Passes place m [] m
  | step {marks : List Mark} {m₁ m₂ : Machine} :
      Passes place m marks m₁ → m₁.step = some m₂ → Passes place m (marks ++ m₁.marks place) m₂

variable {place : Nat} {marks : List Mark}

theorem Passes.reaches (h : m.Passes place marks m') : m.Reaches m' := by
  induction h with
  | refl => exact .refl
  | step _ hs ih => exact ih.step hs

theorem Reaches.passes (h : m.Reaches m') (place : Nat) : ∃ marks, m.Passes place marks m' := by
  induction h with
  | refl => exact ⟨[], .refl⟩
  | step _ hs ih =>
    obtain ⟨marks, hp⟩ := ih
    exact ⟨_, hp.step hs⟩

theorem Passes.trans {m₁ m₂ : Machine} {more : List Mark} (h : m.Passes place marks m₁)
    (h' : m₁.Passes place more m₂) : m.Passes place (marks ++ more) m₂ := by
  induction h' with
  | refl => rwa [List.append_nil]
  | step _ hs ih =>
    rw [← List.append_assoc]
    exact ih.step hs

theorem Passes.head {m₁ m₂ : Machine} (hs : m.step = some m₁) (h : m₁.Passes place marks m₂) :
    m.Passes place (m.marks place ++ marks) m₂ :=
  (Passes.refl.step hs).trans h

/-- The marks that the next steps leave on a ring. -/
def chronicle (m : Machine) (place : Nat) : Nat → List Mark
  | 0 => []
  | n + 1 =>
    match m.step with
    | none => []
    | some m' => m.marks place ++ m'.chronicle place n

theorem passes_after (m : Machine) (place n : Nat) :
    m.Passes place (m.chronicle place n) (m.after n) := by
  induction n generalizing m with
  | zero => exact .refl
  | succ n ih =>
    simp only [chronicle, after]
    cases hs : m.step with
    | none => exact .refl
    | some m' => exact (ih m').head hs

theorem after_succ {n : Nat} (h : (m.after n).step = some m') : m.after (n + 1) = m' := by
  induction n generalizing m with
  | zero =>
    simp only [after] at h ⊢
    rw [h]
  | succ n ih =>
    rw [after] at h ⊢
    cases hs : m.step with
    | none => simp [hs] at h
    | some m₁ =>
      simp only [hs] at h ⊢
      exact ih h

theorem answers_eq {todo : List Command} {done : List Answer} (h : m.focus = .commands todo done) :
    m.answers = done := by
  rw [answers, h]

theorem getLast?_answers {todo : List Command} {done : List Answer} {answer : Answer}
    (h : m.focus = .commands todo (done ++ [answer])) : m.answers.getLast? = some answer := by
  rw [answers_eq h, List.getLast?_concat]

/-- A run that has come to its end has passed all machines that can be reached. -/
theorem Reaches.exists_after (h : m.Reaches m') {n : Nat} (hend : (m.after n).step = none) :
    ∃ i ≤ n, m' = m.after i := by
  induction h with
  | refl => exact ⟨0, Nat.zero_le n, rfl⟩
  | step _ hs ih =>
    obtain ⟨i, hi, rfl⟩ := ih
    have hne : i ≠ n := by
      rintro rfl
      cases hend.symm.trans hs
    exact ⟨i + 1, by omega, (after_succ hs).symm⟩

theorem Reaches.trans {m₁ m₂ : Machine} (h : m.Reaches m₁) (h' : m₁.Reaches m₂) :
    m.Reaches m₂ := by
  induction h' with
  | refl => exact h
  | step _ hs ih => exact ih.step hs

/-- A machine whose live transfers are in order: each holds what it was granted, and each that is
in a call or waits has bytes left to move. -/
structure Sound (m : Machine) : Prop where
  orderly : m.Orderly
  steady : m.Steady

theorem sound_load (tokens : Tokens) (commands : List Command) : (load tokens commands).Sound :=
  ⟨orderly_load tokens commands, steady_load tokens commands⟩

theorem Sound.step (h : m.Sound) (hs : m.step = some m') : m'.Sound :=
  ⟨h.orderly.step hs, h.steady.step h.orderly hs⟩

theorem Sound.reaches (h : m.Sound) (hr : m.Reaches m') : m'.Sound := by
  induction hr with
  | refl => exact h
  | step _ hs ih => exact ih.step hs

/-- The steps of a machine leave true marks on each of its rings. -/
theorem Passes.deeds (h : m.Passes place marks m') (hm : m.Sound)
    (hp : place < m.session.rings.size) :
    place < m'.session.rings.size ∧
      Deeds (m.session.ring place) (m.grants place) marks (m'.session.ring place)
        (m'.grants place) := by
  induction h with
  | refl => exact ⟨hp, .nil⟩
  | step hps hs ih =>
    have hm₁ := hm.reaches hps.reaches
    have hcourse := step_course hm₁.orderly hm₁.steady hs
    exact ⟨Nat.lt_of_lt_of_le ih.1 hcourse.size, ih.2.append (hcourse.deeds place ih.1)⟩

end Machine

end CyclicBuffer
