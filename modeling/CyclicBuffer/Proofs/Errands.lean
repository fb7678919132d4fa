import CyclicBuffer.Proofs.Custody
import CyclicBuffer.Proofs.Queue

/-!
# Errands and tasks

What errands do to custody, and what they answer. A task that is dropped, or makes place for another
of its name, gives back what its transfer holds; one that has not started gives back nothing. No
errand answers that a direction was never reserved, since none commits what is not held.
-/

namespace CyclicBuffer

/-! ## Faults -/

/-- The fault of a reaction, if it ended with one. -/
def Reaction.fault {α : Type} : Reaction α → Option Fault
  | .done (.error (.fault f)) _ | .settled (.error (.fault f)) _ _ => some f
  | _ => none

/-- The calls of the stream of which a reaction tells. -/
def Reaction.calls {α : Type} : Reaction α → List (Call α)
  | .settled _ calls _ | .pending _ calls _ => calls
  | _ => []

/-- An answer tells of a fault: its own, or that of an answer in one of its calls. -/
inductive Answer.Tells (f : Fault) : Answer → Prop
  | own {a : Answer} (h : a.reaction.fault = some f) : Tells f a
  | nested {a b : Answer} {call : Call Answer} (hc : call ∈ a.reaction.calls)
      (hb : b ∈ call.nested) (h : Tells f b) : Tells f a

/-- An answer that tells of no commit without a reservation, at any depth. -/
def Answer.Calm (a : Answer) : Prop := ∀ d, ¬ a.Tells (.neverReserved d)

/-- A reaction that makes a calm answer. -/
structure Reaction.Calm (r : Reaction Answer) : Prop where
  fault : ∀ d, r.fault ≠ some (.neverReserved d)
  calls : ∀ call ∈ r.calls, ∀ a ∈ call.nested, a.Calm

theorem Reaction.Calm.answer {r : Reaction Answer} (h : r.Calm) (standing : Option Occupancy)
    (events : List Event) : (⟨r, standing, events⟩ : Answer).Calm := by
  intro d ht
  cases ht with
  | own hf => exact h.fault d hf
  | nested hc hb ht => exact h.calls _ hc _ hb d ht

/-- What is done at once is calm unless it is that very fault. -/
theorem Reaction.calm_done {result : Except Failure Value} {destination : Option Bytes}
    (h : ∀ d, result ≠ .error (.fault (.neverReserved d))) :
    (Reaction.done result destination : Reaction Answer).Calm := by
  refine ⟨?_, by simp [calls]⟩
  intro d hf
  unfold fault at hf
  split at hf
  · rename_i heq
    cases hf
    cases heq
    exact h d rfl
  · rename_i heq
    cases heq
  · cases hf

theorem Queue.apply_fault {q q' : Queue} {operation : Operation} {f : Fault}
    (h : q.apply operation = (.error (.fault f), q')) : f = .tooLarge := by
  cases operation
  all_goals
    simp only [apply, put, putByte, remove, empty, refuse, accept] at h
    repeat' split at h
    all_goals cases h
  rfl

theorem Ring.Sound.apply_fault {r : Ring} (h : r.Sound) {operation : Operation} {f : Fault}
    (hr : (r.apply operation).result = .error (.fault f)) : f = .tooLarge := by
  have hseen := h.seen_apply operation
  rw [Outcome.seen, hr] at hseen
  exact Queue.apply_fault hseen.symm

theorem Blueprint.build_fault {b : Blueprint} {f : Fault} {events : List Event}
    (h : b.build = (.error (.fault f), events)) : f = .tooLarge := by
  unfold build at h
  split at h
  · cases h
  rename_i hc
  split at h
  · cases h
    rfl
  cases hb : b.contents with
  | none =>
    simp only [hb] at h
    cases h
  | some data =>
    simp only [hb] at h
    have hs := Ring.sound_vacant (Nat.one_le_iff_ne_zero.2 hc) b.overwriting
    split at h
    · rename_i hput
      cases h
      have hr : ((Ring.vacant b.capacity b.overwriting).apply (.put data)).result
          = .error (.fault f) := by
        simp only [Ring.apply, Outcome.map, hput]
        rfl
      exact hs.apply_fault hr
    · cases h

/-! ## Tables of tasks -/

namespace Session

theorem tasks_perm {s : Session} {id : Nat} {task : Task} (h : s.task? id = some task)
    (hn : (s.tasks.map Prod.fst).Nodup) :
    s.tasks.Perm ((id, task) :: (s.removeTask id).tasks) := by
  obtain ⟨before, after, heq, hbefore⟩ := List.lookup_eq_some_iff.1 h
  have hn' := hn
  rw [heq, List.map_append, List.map_cons] at hn'
  have hafter : ∀ entry ∈ after, entry.1 ≠ id := by
    intro entry he hid
    have := (List.nodup_append.1 hn').2.1
    exact (List.nodup_cons.1 this).1 (List.mem_map.2 ⟨entry, he, hid⟩)
  have hrest : (s.removeTask id).tasks = before ++ after := by
    simp only [removeTask, heq, List.filter_append, List.filter_cons, bne_self_eq_false]
    congr 1
    · refine List.filter_eq_self.2 ?_
      intro entry he
      have hne := hbefore entry he
      simp only [bne_iff_ne, ne_eq] at hne ⊢
      exact fun hid => hne hid.symm
    · refine List.filter_eq_self.2 ?_
      intro entry he
      simpa using hafter entry he
  rw [hrest, heq]
  exact List.perm_middle

theorem waiting_perm {s : Session} {id : Nat} {task : Task} (h : s.task? id = some task)
    (hn : (s.tasks.map Prod.fst).Nodup) :
    s.waiting.Perm (task.transfer :: (s.removeTask id).waiting) :=
  (tasks_perm h hn).map fun entry : Nat × Task => entry.2.transfer

theorem nodup_removeTask {s : Session} (hn : (s.tasks.map Prod.fst).Nodup) (id : Nat) :
    ((s.removeTask id).tasks.map Prod.fst).Nodup :=
  hn.sublist (List.filter_sublist.map _)

theorem not_mem_removeTask (s : Session) (id : Nat) :
    id ∉ (s.removeTask id).tasks.map Prod.fst := by
  simp [removeTask]

theorem not_mem_of_task? {s : Session} {id : Nat} (h : s.task? id = none) :
    id ∉ s.tasks.map Prod.fst := by
  intro hm
  obtain ⟨entry, he, rfl⟩ := List.mem_map.1 hm
  have := List.lookup_eq_none_iff.1 h entry he
  simp at this

end Session

/-! ## Tasks that come and go -/

section
variable {w : Prop} {s : Session} {t : Transfer} {ts : List Transfer}

/-- A transfer that is let go gives back what it holds. -/
theorem Custody.abandon (h : Custody s (t :: ts)) :
    ∃ s' events, s.abandon t = .ok (s', events) ∧ Shift w s (t :: ts) s' ts := by
  unfold Session.abandon
  cases ht : t.grant with
  | none => exact ⟨s, [], rfl, (h.forget ht).shift⟩
  | some g =>
    obtain ⟨ring, events, hc, hshift⟩ := h.finish (w := w) ht
    simp only [hc]
    exact ⟨_, events, rfl, hshift events fun _ => rfl⟩

/-- A task that is taken out of the table brings its transfer. -/
theorem Custody.removeTask (h : Custody s (ts ++ s.waiting)) {id : Nat} {task : Task}
    (ht : s.task? id = some task) :
    Quiet s (ts ++ s.waiting) (s.removeTask id)
      (task.transfer :: (ts ++ (s.removeTask id).waiting)) := by
  have hperm : (ts ++ s.waiting).Perm (task.transfer :: (ts ++ (s.removeTask id).waiting)) :=
    ((Session.waiting_perm ht h.ids).append_left ts).trans List.perm_middle
  have hquiet := h.perm hperm
  exact hquiet.trans (hquiet.custody.session rfl rfl rfl (Session.nodup_removeTask h.ids id))

/-- A task that is dropped gives back what it holds, and is gone. -/
theorem Custody.dropTask (h : Custody s (ts ++ s.waiting)) (id : Nat) :
    ∃ s' events, s.dropTask id = .ok (s', events) ∧ id ∉ s'.tasks.map Prod.fst ∧
      Shift w s (ts ++ s.waiting) s' (ts ++ s'.waiting) := by
  unfold Session.dropTask
  cases ht : s.task? id with
  | none =>
    exact ⟨s, [], rfl, Session.not_mem_of_task? ht, (h.perm (.refl _)).shift⟩
  | some task =>
    have hquiet := h.removeTask ht
    obtain ⟨s', events, hok, hshift⟩ := hquiet.custody.abandon (w := w)
    have htasks := Session.tasks_abandon hok
    refine ⟨s', events, hok, ?_, ?_⟩
    · rw [htasks]
      exact s.not_mem_removeTask id
    · have hwaiting : s'.waiting = (s.removeTask id).waiting := by
        rw [Session.waiting, htasks, Session.waiting]
      rw [hwaiting]
      exact hquiet.trans_shift hshift

/-- A transfer goes into the table, and a task of the same name gives back what it holds. -/
theorem Custody.addTask {task : Task} (h : Custody s (task.transfer :: (ts ++ s.waiting)))
    (id : Nat) : ∃ s' events, s.addTask id task = .ok (s', events) ∧
      Shift w s (task.transfer :: (ts ++ s.waiting)) s' (ts ++ s'.waiting) := by
  have h' : Custody s ((task.transfer :: ts) ++ s.waiting) := h
  obtain ⟨s', events, hok, hnew, hshift⟩ := h'.dropTask (w := w) id
  have hquiet : Quiet s' (task.transfer :: ts ++ s'.waiting)
      { s' with tasks := (id, task) :: s'.tasks } (task.transfer :: ts ++ s'.waiting) :=
    hshift.custody.session rfl rfl rfl (List.nodup_cons.2 ⟨hnew, hshift.custody.ids⟩)
  have hperm : (task.transfer :: ts ++ s'.waiting).Perm
      (ts ++ ({ s' with tasks := (id, task) :: s'.tasks } : Session).waiting) :=
    List.perm_middle.symm
  refine ⟨{ s' with tasks := (id, task) :: s'.tasks }, events, ?_,
    (hshift.trans_quiet hquiet).trans_quiet (hquiet.custody.perm hperm)⟩
  simp only [Session.addTask, hok]
  rfl

/-! ## Errands -/

/-- The errands that can put and take by themselves. -/
def Errand.Whole : Errand → Prop
  | .create _ | .operate _ => True
  | _ => False

/-- An effect that keeps custody, with a calm reaction. -/
structure Session.Effect.Proper (w : Prop) (s : Session) (ts : List Transfer) (e : Effect) :
    Prop where
  shift : Shift w s (ts ++ s.waiting) e.session (ts ++ e.session.waiting)
  calm : e.reaction.Calm

/-- Looking at a session changes nothing. -/
theorem Custody.look (h : Custody s (ts ++ s.waiting)) {reaction : Reaction Answer}
    (hr : reaction.Calm) (events : List Event) :
    (⟨s, reaction, events⟩ : Session.Effect).Proper w s ts :=
  ⟨(h.perm (.refl _)).shift, hr⟩

theorem calm_noRing : (Reaction.noRing : Reaction Answer).Calm :=
  ⟨by simp [Reaction.fault], by simp [Reaction.calls]⟩

theorem calm_noTask : (Reaction.noTask : Reaction Answer).Calm :=
  ⟨by simp [Reaction.fault], by simp [Reaction.calls]⟩

theorem Custody.onRing (h : Custody s (ts ++ s.waiting)) {name : Nat}
    {act : Nat → Ring → Session.Effect}
    (ha : ∀ place < s.rings.size, (act place (s.ring place)).Proper w s ts) :
    (s.onRing name act).Proper w s ts := by
  unfold Session.onRing
  split
  · exact h.look calm_noRing []
  · rename_i place hp
    exact ha place (h.named _ (Session.mem_of_place? hp))

/-- An operation is shown without a fault that it does not have. -/
theorem calm_shown {operation : Operation} {result : Except Failure Operation.Value}
    (h : ∀ f, result = .error (.fault f) → f = .tooLarge) :
    (Session.shown operation result).Calm := by
  have herror f (hr : result = .error f) : ∀ d, f ≠ .fault (.neverReserved d) := by
    intro d hf
    subst hf
    cases h _ hr
  unfold Session.shown
  split
  · split
    · exact Reaction.calm_done (by simp)
    · exact Reaction.calm_done (by simp)
    · exact Reaction.calm_done fun d hd => herror _ rfl d (by simpa using hd)
  · refine Reaction.calm_done ?_
    cases result with
    | error f => exact fun d hd => herror f rfl d (by simpa [Except.map] using hd)
    | ok v => simp [Except.map]

theorem Custody.errand (h : Custody s (ts ++ s.waiting)) (name : Nat) (e : Errand) :
    (s.errand name e).Proper e.Whole s ts := by
  cases e with
  | create blueprint =>
    simp only [Session.errand]
    split
    · rename_i f events hb
      refine h.look (Reaction.calm_done ?_) events
      rintro d ⟨⟩
      cases Blueprint.build_fault hb
    · rename_i ring events hb
      exact ⟨h.addRing trivial hb name, Reaction.calm_done (by simp)⟩
  | operate operation =>
    simp only [Session.errand]
    refine h.onRing ?_
    intro place hp
    exact ⟨h.operate trivial hp operation, calm_shown fun f => (h.sound hp).apply_fault⟩
  | inspect =>
    simp only [Session.errand]
    refine h.onRing ?_
    intro place _
    exact h.look (Reaction.calm_done (by simp)) []
  | describe =>
    simp only [Session.errand]
    refine h.onRing ?_
    intro place _
    exact h.look (Reaction.calm_done (by simp)) []
  | drop id =>
    obtain ⟨s', events, hok, -, hshift⟩ := h.dropTask (w := False) id
    simp only [Session.errand, hok]
    exact ⟨hshift, Reaction.calm_done (by simp)⟩
  | isWoken id =>
    simp only [Session.errand]
    split
    · exact h.look calm_noTask []
    · exact h.look (Reaction.calm_done (by simp)) []
  | isCancelled token => exact h.look (Reaction.calm_done (by simp)) []

theorem Custody.spawn (h : Custody s (ts ++ s.waiting)) (name id : Nat) (request : Request)
    (stream : List Turn) (token : Nat) :
    (s.spawn name id request stream token).Proper w s ts := by
  refine h.onRing ?_
  intro place hp
  have hjoin : Quiet s (ts ++ s.waiting) s
      ((⟨name, place, request, stream, none⟩ : Transfer) :: (ts ++ s.waiting)) := h.join rfl hp
  have hc : Custody s ((⟨⟨name, place, request, stream, none⟩, token, false, none⟩ : Task).transfer
      :: (ts ++ s.waiting)) := hjoin.custody
  obtain ⟨s', events, hok, hshift⟩ := hc.addTask (w := w) id
  simp only [hok]
  exact ⟨hjoin.trans_shift hshift, Reaction.calm_done (by simp)⟩

end

end CyclicBuffer
