import CyclicBuffer.Proofs.Steps

/-!
# Commands within a call

The commands that a stream performs in one of its calls run as they would on their own. They do not
see the transfers whose streams are performing them, nor what was answered before them; all that
they can do to those transfers is to wake them by a cancelled token. So what they lead to, and whom
they wake, is the same wherever they are performed (`Above.reaches`, `Machine.performs`).
-/

namespace CyclicBuffer

/-! ## Machines above others -/

/-- A passage with answers before those that it has, and commands after those that wait for it. -/
def Passage.amid (before : List Answer) (after : List Command) (p : Passage) : Passage :=
  { p with done := before ++ p.done, todo := p.todo ++ after }

@[simp] theorem Passage.amid_nil (p : Passage) : p.amid [] [] = p := by
  simp [amid]

def Focus.amid (before : List Answer) (after : List Command) : Focus → Focus
  | .commands todo done => .commands (todo ++ after) (before ++ done)
  | .transfer p => .transfer (p.amid before after)

namespace Machine

/-- The same focus among other answers and commands, and above other transfers. -/
def onto (m : Machine) (before : List Answer) (after : List Command) (frames : List Passage) :
    Machine :=
  ⟨m.session, m.focus.amid before after, frames⟩

/-- A machine that does what `m` does, above some frames: the answers before and the commands after
are those of the list that the commands of `m` are part of. -/
inductive Above (before : List Answer) (after : List Command) (frames : List Passage)
    (m : Machine) : Machine → Prop
  | outermost (h : m.suspended = []) : Above before after frames m (m.onto before after frames)
  | within (top : List Passage) (last : Passage) (h : m.suspended = top ++ [last]) :
      Above before after frames m
        ⟨m.session, m.focus, top ++ last.amid before after :: frames⟩

theorem onto_nil (m : Machine) (frames : List Passage) :
    m.onto [] [] frames = ⟨m.session, m.focus, frames⟩ := by
  cases hf : m.focus <;> simp [onto, Focus.amid, hf]

section
variable (m : Machine) (p : Passage) (g : Grant) (before : List Answer) (after : List Command)
  (frames : List Passage)

theorem answer_onto (name : Nat) (reaction : Reaction Answer) (events : List Event)
    (todo : List Command) (done : List Answer) :
    (m.onto before after frames).answer name reaction events (todo ++ after) (before ++ done)
      = (m.answer name reaction events todo done).onto before after frames := by
  simp only [answer, onto, Focus.amid, List.append_assoc]

theorem close_onto (result : Except Failure Value) (events : List Event) :
    (m.onto before after frames).close (p.amid before after) result events
      = (m.close p result events).onto before after frames :=
  m.answer_onto before after frames ..

theorem start_onto : (m.onto before after frames).start (p.amid before after)
    = (m.start p).onto before after frames := by
  have hsession : (m.onto before after frames).session = m.session := rfl
  unfold start
  simp only [hsession, Passage.amid]
  split
  · exact m.close_onto p before after frames _ _
  · rfl

theorem settle_onto (ending : Ending) :
    (m.onto before after frames).settle (p.amid before after) g ending
    = (m.settle p g ending).onto before after frames :=
  close_onto { m with session := m.session.update .. } p before after frames _ _

theorem offer_onto : (m.onto before after frames).offer (p.amid before after) g
    = (m.offer p g).onto before after frames := by
  have hnext : (p.amid before after).next (m.onto before after frames).session g
      = p.next m.session g := rfl
  unfold offer
  rw [hnext]
  split
  · exact m.settle_onto p g before after frames _
  · rfl

theorem hear_onto (reply : Reply) : (m.onto before after frames).hear (p.amid before after) g reply
    = (m.hear p g reply).onto before after frames := by
  rw [hear_eq, hear_eq]
  split
  · rfl
  · exact m.settle_onto p.closeCall _ before after frames _

theorem wait_onto (q : Polling) : (m.onto before after frames).wait (p.amid before after) q
    = (m.wait p q).onto before after frames := by
  have hadd : (m.onto before after frames).session.addTask q.task
      ⟨(p.amid before after).closeCall.transfer, q.token, q.woken, q.awaits⟩
        = m.session.addTask q.task ⟨p.closeCall.transfer, q.token, q.woken, q.awaits⟩ := rfl
  unfold wait
  dsimp only
  rw [hadd]
  split
  · rfl
  · cases m.session.addTask q.task ⟨p.closeCall.transfer, q.token, q.woken, q.awaits⟩ with
    | error f => exact m.close_onto p.closeCall before after frames _ _
    | ok added => exact answer_onto { m with session := added.1 } before after frames ..

theorem poll_onto (name id : Nat) (again : Bool) (todo : List Command) (done : List Answer) :
    (m.onto before after frames).poll name id again (todo ++ after) (before ++ done)
      = (m.poll name id again todo done).onto before after frames := by
  have hsession : (m.onto before after frames).session = m.session := rfl
  unfold poll
  simp only [hsession]
  split
  · exact m.answer_onto before after frames ..
  · rfl

/-- Only the frames are woken by a command that cancels a token. -/
theorem obey_onto (name : Nat) (action : Action) (todo : List Command) (done : List Answer) :
    (m.onto before after frames).obey name action (todo ++ after) (before ++ done)
      = (m.obey name action todo done).onto before after
          (match action with
            | .cancel token => frames.map (Passage.wake token (m.session.wakes token))
            | _ => frames) := by
  have hsession : (m.onto before after frames).session = m.session := rfl
  cases action with
  | errand e => exact answer_onto { m with session := _ } before after frames ..
  | spawn id request stream token =>
    exact answer_onto { m with session := _ } before after frames ..
  | transfer request stream =>
    unfold obey
    simp only [hsession]
    split
    · exact m.answer_onto before after frames ..
    · rfl
  | poll id => exact m.poll_onto before after frames ..
  | run id => exact m.poll_onto before after frames ..
  | cancel token => exact answer_onto { m with session := _ } before _ ..

end

/-! ## Steps above others -/

/-- The tokens that the next step cancels, each with what decides who is woken by it. -/
def cancels (m : Machine) : List (Nat × (Nat → Bool)) :=
  match m.focus with
  | .commands (.on _ (.cancel token) :: _) _ => [(token, m.session.wakes token)]
  | _ => []

end Machine

/-- Wakes the task that is being polled for each of the cancels that does so. -/
def Passage.wakeAll (cancels : List (Nat × (Nat → Bool))) (p : Passage) : Passage :=
  cancels.foldl (fun p cancel => p.wake cancel.1 cancel.2) p

@[simp] theorem Passage.wakeAll_nil (frames : List Passage) :
    frames.map (Passage.wakeAll []) = frames :=
  List.map_id frames

theorem Passage.wakeAll_eq (cancels : List (Nat × (Nat → Bool))) (p : Passage) :
    p.wakeAll cancels = { p with
      polling := p.polling.map fun q =>
        { q with woken := q.woken || cancels.any fun cancel =>
            q.token == cancel.1 && q.awaits.any cancel.2 } } := by
  induction cancels generalizing p with
  | nil => simp [wakeAll]
  | cons cancel cancels ih =>
    refine (ih (p.wake cancel.1 cancel.2)).trans ?_
    simp only [wake, Option.map_map]
    congr 2
    funext q
    simp only [Function.comp_apply, List.any_cons, Bool.or_assoc]

theorem Passage.wakeAll_append (cancels cancels' : List (Nat × (Nat → Bool)))
    (frames : List Passage) :
    (frames.map (Passage.wakeAll cancels)).map (Passage.wakeAll cancels')
      = frames.map (Passage.wakeAll (cancels ++ cancels')) := by
  rw [List.map_map]
  exact List.map_congr_left fun p _ => (List.foldl_append ..).symm

namespace Machine

variable {m m' n : Machine} {p : Passage} {g : Grant} {before : List Answer}
  {after : List Command} {frames : List Passage}

theorem suspended_start (m : Machine) (p : Passage) : (m.start p).suspended = m.suspended := by
  unfold start
  dsimp only
  split <;> rfl

theorem suspended_offer (m : Machine) (p : Passage) (g : Grant) :
    (m.offer p g).suspended = m.suspended := by
  unfold offer
  split <;> rfl

theorem suspended_hear (m : Machine) (p : Passage) (g : Grant) (reply : Reply) :
    (m.hear p g reply).suspended = m.suspended := by
  rw [hear_eq]
  split <;> rfl

theorem suspended_wait (m : Machine) (p : Passage) (q : Polling) :
    (m.wait p q).suspended = m.suspended := by
  unfold wait
  dsimp only
  split
  · rfl
  · split <;> rfl

theorem suspended_poll (m : Machine) (name id : Nat) (again : Bool) (todo : List Command)
    (done : List Answer) : (m.poll name id again todo done).suspended = m.suspended := by
  unfold poll
  split <;> rfl

theorem suspended_obey (m : Machine) (name : Nat) (action : Action) (todo : List Command)
    (done : List Answer) (h : ∀ token, action ≠ .cancel token) :
    (m.obey name action todo done).suspended = m.suspended := by
  cases action with
  | errand e => rfl
  | spawn id request stream token => rfl
  | transfer request stream =>
    unfold obey
    dsimp only
    split <;> rfl
  | poll id => exact m.suspended_poll ..
  | run id => exact m.suspended_poll ..
  | cancel token => exact absurd rfl (h token)

/-- A step that leaves the stack of transfers as it is. -/
theorem Above.stay (h : Above before after frames m n) (hsus : m'.suspended = m.suspended)
    (hstep : ∀ b a fs, (m.onto b a fs).step = some (m'.onto b a fs)) :
    ∃ n', n.step = some n' ∧ Above before after frames m' n' := by
  cases h with
  | outermost h => exact ⟨_, hstep _ _ _, .outermost (hsus.trans h)⟩
  | within top last h =>
    have hs := hstep [] [] (top ++ last.amid before after :: frames)
    rw [onto_nil, onto_nil] at hs
    exact ⟨_, hs, .within top last (hsus.trans h)⟩

theorem focus_onto (hf : m.focus = .transfer p) (before : List Answer) (after : List Command)
    (frames : List Passage) :
    (m.onto before after frames).focus = .transfer (p.amid before after) := by
  simp only [onto, hf, Focus.amid]

theorem Above.turn (h : Above before after frames m n) (hf : m.focus = .transfer p)
    (hg : p.transfer.grant = some g) (hcur : p.current.isSome) :
    ∃ n', n.step = some n' ∧ Above before after frames (m.turn p g) n' := by
  have honto b a fs : (m.onto b a fs).step = some ((m.onto b a fs).turn (p.amid b a) g) :=
    step_iff.2 (.turn (focus_onto hf b a fs) hg hcur)
  simp only [turn_eq] at honto ⊢
  have hrespond b a fs : (p.amid b a).respond g.direction
      (((m.onto b a fs).session.ring (p.amid b a).transfer.ring).room g)
        = p.respond g.direction ((m.session.ring p.transfer.ring).room g) := rfl
  simp only [hrespond] at honto
  split
  · rename_i written reply stream hr
    simp only [hr] at honto
    refine h.stay (suspended_hear ..) fun b a fs => (honto b a fs).trans (congrArg some ?_)
    exact hear_onto { m with session := _ } (p.withStream stream) g b a fs reply
  · -- the transfer goes onto the stack
    rename_i commands stream hr
    simp only [hr] at honto
    cases h with
    | outermost h => exact ⟨_, honto _ _ _, .within [] (p.withStream stream) (by rw [h]; rfl)⟩
    | within top last h =>
      have hs := honto [] [] (top ++ last.amid before after :: frames)
      rw [onto_nil, Passage.amid_nil] at hs
      exact ⟨_, hs, .within (p.withStream stream :: top) last (by rw [h]; rfl)⟩
  · rename_i q stream hr
    simp only [hr] at honto
    refine h.stay (suspended_wait ..) fun b a fs => (honto b a fs).trans (congrArg some ?_)
    exact wait_onto m (p.withStream stream) b a fs q

/-- A command that cancels a token wakes the frames, and no other command touches them. -/
theorem Above.obey (h : Above before after frames m n) {name : Nat} {action : Action}
    {todo : List Command} {done : List Answer}
    (hf : m.focus = .commands (.on name action :: todo) done) :
    ∃ n', n.step = some n' ∧ Above before after (frames.map (Passage.wakeAll m.cancels))
      (m.obey name action todo done) n' := by
  have honto b a fs : (m.onto b a fs).step
      = some ((m.onto b a fs).obey name action (todo ++ a) (b ++ done)) :=
    step_iff.2 (.obey (by simp only [onto, hf, Focus.amid, List.cons_append]))
  simp only [obey_onto] at honto
  by_cases hcancel : ∃ token, action = .cancel token
  · obtain ⟨token, rfl⟩ := hcancel
    have hcancels : m.cancels = [(token, m.session.wakes token)] := by simp only [cancels, hf]
    rw [hcancels]
    cases h with
    | outermost h => exact ⟨_, honto _ _ _, .outermost (by simp [Machine.obey, answer, h])⟩
    | within top last h =>
      have hs := honto [] [] (top ++ last.amid before after :: frames)
      rw [onto_nil, onto_nil] at hs
      refine ⟨_, hs, ?_⟩
      have hwithin : Above before after
          (frames.map (Passage.wakeAll [(token, m.session.wakes token)]))
          (m.obey name (.cancel token) todo done) _ :=
        .within (top.map (Passage.wake token (m.session.wakes token)))
          (last.wake token (m.session.wakes token))
          (by simp [Machine.obey, answer, h])
      simp only [List.map_append, List.map_cons]
      exact hwithin
  · have hne token : action ≠ .cancel token := fun he => hcancel ⟨token, he⟩
    have hcancels : m.cancels = [] := by
      simp only [cancels, hf]
      split <;> simp_all
    rw [hcancels, Passage.wakeAll_nil]
    refine h.stay (m.suspended_obey name action todo done hne) fun b a fs => ?_
    rw [honto]
    cases action <;> simp_all

/-- **Commands run the same wherever they are performed.** A machine above others does the same
step. -/
theorem Above.step (h : Above before after frames m n) (hs : m.step = some m') :
    ∃ n', n.step = some n' ∧ Above before after (frames.map (Passage.wakeAll m.cancels)) m' n' := by
  cases step_iff.1 hs with
  | @resume p rest done hf hsus =>
    have hcancels : m.cancels = [] := by simp only [cancels, hf]
    rw [hcancels, Passage.wakeAll_nil]
    cases h with
    | outermost h => simp [h] at hsus
    | within top last h =>
      cases top with
      | nil =>
        obtain ⟨rfl, rfl⟩ : p = last ∧ rest = [] := by simpa [hsus] using h
        exact ⟨_, by simp only [Machine.step, hf, List.nil_append]; rfl, .outermost rfl⟩
      | cons q top =>
        obtain ⟨rfl, rfl⟩ : p = q ∧ rest = top ++ [last] := by simpa [hsus] using h
        exact ⟨_, by simp only [Machine.step, hf, List.cons_append], .within top last rfl⟩
  | obey hf => exact h.obey hf
  | @start p hf hg =>
    have hcancels : m.cancels = [] := by simp only [cancels, hf]
    rw [hcancels, Passage.wakeAll_nil]
    refine h.stay (m.suspended_start p) fun b a fs => ?_
    rw [← start_onto]
    exact step_iff.2 (.start (focus_onto hf b a fs) hg)
  | turn hf hg hcall =>
    have hcancels : m.cancels = [] := by simp only [cancels, hf]
    rw [hcancels, Passage.wakeAll_nil]
    exact h.turn hf hg hcall
  | @offer p g hf hg hidle =>
    have hcancels : m.cancels = [] := by simp only [cancels, hf]
    rw [hcancels, Passage.wakeAll_nil]
    refine h.stay (m.suspended_offer p g) fun b a fs => ?_
    rw [← offer_onto]
    exact step_iff.2 (.offer (focus_onto hf b a fs) hg hidle)

/-- What a machine comes to, and the cancels on the way, are the same above whatever others. -/
theorem Reaches.above (h : m.Reaches m') :
    ∃ cancels, ∀ before after frames n, Above before after frames m n →
      ∃ n', n.Reaches n' ∧ Above before after (frames.map (Passage.wakeAll cancels)) m' n' := by
  induction h with
  | refl => exact ⟨[], fun _ _ _ n h => ⟨n, .refl, by rwa [Passage.wakeAll_nil]⟩⟩
  | @step m₁ m₂ _ hs ih =>
    obtain ⟨cancels, ih⟩ := ih
    refine ⟨cancels ++ m₁.cancels, fun before after frames n h => ?_⟩
    obtain ⟨n₁, hr, h₁⟩ := ih before after frames n h
    obtain ⟨n₂, hs', h₂⟩ := h₁.step hs
    exact ⟨n₂, hr.step hs', by rwa [Passage.wakeAll_append] at h₂⟩

/-- A machine that has come to its end has done all its commands. -/
theorem focus_of_step (h : m.step = none) :
    (∃ done, m.focus = .commands [] done) ∧ m.suspended = [] := by
  unfold Machine.step at h
  split at h
  · rename_i done hf
    split at h
    · rename_i hsus
      exact ⟨⟨done, hf⟩, hsus⟩
    · cases h
  · cases h
  · split at h
    · cases h
    · split at h <;> cases h

/-- Performs commands on a session: the session afterwards and the answers do not depend on who
performs them, and neither do the cancels. -/
theorem performs (session : Session) (commands : List Command) :
    ∃ session' answers cancels, ∀ before frames,
      (⟨session, .commands commands before, frames⟩ : Machine).Reaches
        ⟨session', .commands [] (before ++ answers), frames.map (Passage.wakeAll cancels)⟩ := by
  obtain ⟨m, hm, hend⟩ : ∃ m, (⟨session, .commands commands [], []⟩ : Machine).Reaches m ∧
      m.step = none :=
    ⟨_, reaches_run _, step_run _⟩
  obtain ⟨⟨done, hf⟩, hsus⟩ := focus_of_step hend
  obtain ⟨cancels, habove⟩ := hm.above
  refine ⟨m.session, done, cancels, fun before frames => ?_⟩
  obtain ⟨n, hr, hn⟩ := habove before [] frames _ (.outermost rfl)
  simp only [onto, Focus.amid, List.append_nil] at hr
  cases hn with
  | outermost h => simpa only [onto, hf, Focus.amid, List.nil_append] using hr
  | within top last h => simp [hsus] at h

end Machine

end CyclicBuffer
