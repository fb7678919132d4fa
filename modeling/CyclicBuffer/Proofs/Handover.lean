import CyclicBuffer.Proofs.Errands
import CyclicBuffer.Proofs.Tokens
import CyclicBuffer.Session.Run

/-!
# Handing over regions

A session machine keeps custody of all regions, whatever the streams of its transfers do: the live
transfers are the one in focus, those whose streams are performing commands, and those of the tasks.
`step_goes` says so of one step, and `Reaches.orderly` of all machines that a list of commands leads
to. So a direction of a ring is held by exactly one live transfer or by none, and each transfer that
began is committed once, on its way out and with its own count.
-/

namespace CyclicBuffer

/-! ## Live transfers -/

def Focus.transfers : Focus → List Transfer
  | .commands _ _ => []
  | .transfer p => [p.transfer]

namespace Machine

/-- The transfers that are not in focus. -/
def back (m : Machine) : List Transfer :=
  m.suspended.map (fun p => p.transfer) ++ m.session.waiting

/-- The live transfers. -/
def transfers (m : Machine) : List Transfer := m.focus.transfers ++ m.back

/-- The grants of a direction of a ring. -/
def grants (m : Machine) (place : Nat) (d : Direction) : List Grant :=
  grantsOf m.transfers place d

end Machine

/-! ## Calm machines -/

/-- All answers that a passage keeps are calm. -/
structure Passage.Calm (p : Passage) : Prop where
  done : ∀ a ∈ p.done, a.Calm
  calls : ∀ call ∈ p.calls, ∀ a ∈ call.nested, a.Calm
  current : ∀ call, p.current = some call → ∀ a ∈ call.nested, a.Calm

def Focus.Calm : Focus → Prop
  | .commands _ done => ∀ a ∈ done, a.Calm
  | .transfer p => p.Calm

structure Machine.Calm (m : Machine) : Prop where
  focus : m.focus.Calm
  suspended : ∀ p ∈ m.suspended, p.Calm

theorem Passage.Calm.closeCall {p : Passage} (h : p.Calm) : p.closeCall.Calm := by
  refine ⟨h.done, ?_, by simp [Passage.closeCall]⟩
  intro call hc
  rcases List.mem_append.1 hc with hc | hc
  · exact h.calls call hc
  · exact h.current call (by simpa using hc)

theorem Passage.Calm.wake {p : Passage} (h : p.Calm) (token : Nat) (wakes : Nat → Bool) :
    (p.wake token wakes).Calm :=
  ⟨h.done, h.calls, h.current⟩

theorem Passage.Calm.resume {p : Passage} (h : p.Calm) {answers : List Answer}
    (ha : ∀ a ∈ answers, a.Calm) : (p.resume answers).Calm := by
  refine ⟨h.done, h.calls, ?_⟩
  intro call hc
  obtain ⟨call', -, rfl⟩ := Option.map_eq_some_iff.1 hc
  exact ha

/-! ## What comes of a machine -/

/-- A machine that comes of a session with its live transfers: custody is kept, what happened is
booked, and all answers are calm. -/
structure Machine.Goes (w : Prop) (s : Session) (ts : List Transfer) (m : Machine) : Prop where
  shift : Shift w s ts m.session m.transfers
  calm : m.Calm

/-- A machine at work on a transfer. -/
structure Machine.Works (m : Machine) (p : Passage) : Prop where
  custody : Custody m.session (p.transfer :: m.back)
  calm : p.Calm
  suspended : ∀ q ∈ m.suspended, q.Calm

/-- The actions that can put and take by themselves. -/
def Action.Whole : Action → Prop
  | .errand e => e.Whole
  | _ => False

namespace Machine

variable {w : Prop} {s s₁ : Session} {ts ts₁ : List Transfer} {m m' : Machine} {p : Passage}
  {g : Grant}

theorem Goes.of_quiet (h : Goes w s₁ ts₁ m) (hq : Quiet s ts s₁ ts₁) : Goes w s ts m :=
  ⟨hq.trans_shift h.shift, h.calm⟩

theorem answer_goes (h : Shift w s ts m.session m.back) (hs : ∀ q ∈ m.suspended, q.Calm)
    {reaction : Reaction Answer} (hr : reaction.Calm) {done : List Answer}
    (hd : ∀ a ∈ done, a.Calm) (name : Nat) (events : List Event) (todo : List Command) :
    (m.answer name reaction events todo done).Goes w s ts := by
  refine ⟨h, ?_, hs⟩
  intro a ha
  rcases List.mem_append.1 ha with ha | ha
  · exact hd a ha
  · rw [List.mem_singleton.1 ha]
    exact hr.answer _ _

theorem drive_goes (h : Shift w s ts m.session (p.transfer :: m.back)) (hp : p.Calm)
    (hs : ∀ q ∈ m.suspended, q.Calm) : (m.drive p).Goes w s ts :=
  ⟨h, hp, hs⟩

theorem close_goes (h : Shift w s ts m.session m.back) (hp : p.Calm)
    (hs : ∀ q ∈ m.suspended, q.Calm) {result : Except Failure Value}
    (hr : ∀ d, result ≠ .error (.fault (.neverReserved d))) (events : List Event) :
    (m.close p result events).Goes w s ts := by
  have hcalm : (Reaction.settled result p.calls p.shownPolls).Calm := by
    refine ⟨?_, hp.calls⟩
    intro d hf
    unfold Reaction.fault at hf
    split at hf
    · rename_i heq
      cases heq
    · rename_i heq
      cases hf
      cases heq
      exact hr d rfl
    · cases hf
  exact answer_goes h hs hcalm hp.done ..

/-! ## Transfers -/

theorem Works.start (h : m.Works p) (hg : p.transfer.grant = none) :
    (m.start p).Goes w m.session (p.transfer :: m.back) := by
  unfold Machine.start
  dsimp only
  split
  · exact close_goes (h.custody.forget hg).shift h.calm h.suspended (by simp) _
  · rename_i g ring events hr
    exact drive_goes (h.custody.begin hg hr) ⟨h.calm.done, h.calm.calls, h.calm.current⟩
      h.suspended

theorem Works.settle (h : m.Works p) (hg : p.transfer.grant = some g) {ending : Ending}
    (he : ∀ d, ending ≠ .fault (.neverReserved d)) :
    (m.settle p g ending).Goes w m.session (p.transfer :: m.back) := by
  obtain ⟨ring, events, hc, hshift⟩ := h.custody.finish (w := w) hg
  have hentries := Ring.entries_settle p ending hc
  have hring := (hentries .put).1
  have hresult := (hentries .put).2.1
  unfold Machine.settle
  dsimp only
  rw [hring, hresult]
  have hshift' := hshift _ fun d => (hentries d).2.2
  refine close_goes (m := { m with session := _ }) hshift' h.calm h.suspended ?_ _
  intro d hf
  cases hv : (p.verdict g ending).result with
  | ok v => simp [hv, Except.map] at hf
  | error f =>
    simp only [hv, Except.map, Except.error.injEq] at hf
    subst hf
    exact he d (Passage.verdict_fault hv)

/-- A reply ends the transfer, but never as a commit without a reservation, or counts what was
moved. -/
theorem hear_cases (hm : g.moved ≤ g.region.count) (reply : Reply) :
    (∃ ending, g.hear reply = (g, some ending) ∧ ∀ d, ending ≠ .fault (.neverReserved d)) ∨
      ∃ count, g.moved + count ≤ g.region.count ∧
        g.hear reply = ({ g with moved := g.moved + count }, none) := by
  cases reply with
  | moved count =>
    by_cases h0 : count = 0
    · subst h0
      exact .inl ⟨_, rfl, by simp⟩
    · have hcount : count = (count - 1) + 1 := by omega
      rw [hcount]
      unfold Grant.hear Grant.advance
      by_cases hr : g.remaining < count - 1 + 1
      · simp only [if_pos hr]
        exact .inl ⟨_, rfl, by simp⟩
      · simp only [if_neg hr]
        refine .inr ⟨_, ?_, rfl⟩
        simp only [Grant.remaining] at hr
        omega
  | failed e =>
    unfold Grant.hear
    by_cases hi : e.cause = .interrupted
    · simp only [if_pos hi]
      exact .inr ⟨0, hm, rfl⟩
    · simp only [if_neg hi]
      exact .inl ⟨_, rfl, by simp⟩
  | raised text => exact .inl ⟨_, rfl, by simp⟩

theorem Works.moved_le (h : m.Works p) (hg : p.transfer.grant = some g) :
    g.moved ≤ g.region.count :=
  (h.custody.fits _ (List.mem_cons_self ..)).moved_le g hg

theorem Works.hear (h : m.Works p) (hg : p.transfer.grant = some g) (reply : Reply) :
    (m.hear p g reply).Goes w m.session (p.transfer :: m.back) := by
  have hclosed : m.Works p.closeCall := ⟨h.custody, h.calm.closeCall, h.suspended⟩
  rw [hear_eq]
  rcases hear_cases (h.moved_le hg) reply with ⟨ending, heq, he⟩ | ⟨count, hle, heq⟩
  · rw [heq]
    exact hclosed.settle hg he
  · rw [heq]
    have hc := hclosed.calm
    exact drive_goes (h.custody.move hg hle) ⟨hc.done, hc.calls, hc.current⟩ h.suspended

theorem Works.offer (h : m.Works p) (hg : p.transfer.grant = some g) :
    (m.offer p g).Goes w m.session (p.transfer :: m.back) := by
  unfold Machine.offer
  split
  · rename_i ending hleave
    refine h.settle hg fun d he => ?_
    rcases Passage.next_leave hleave with ⟨rfl, -⟩ | ⟨rfl, -⟩ <;> cases he
  · refine drive_goes (h.custody.perm (.refl _)).shift ⟨h.calm.done, h.calm.calls, ?_⟩ h.suspended
    intro call hc
    cases hc
    simp

/-- The stream of a transfer does not matter to custody. -/
theorem Works.withStream (h : m.Works p) (stream : List Turn) :
    m.Works (p.withStream stream) ∧ Quiet m.session (p.transfer :: m.back) m.session
      ((p.withStream stream).transfer :: m.back) := by
  have hq : Quiet m.session (p.transfer :: m.back) m.session
      ((p.withStream stream).transfer :: m.back) := h.custody.relabel rfl rfl rfl
  exact ⟨⟨hq.custody, ⟨h.calm.done, h.calm.calls, h.calm.current⟩, h.suspended⟩, hq⟩

theorem Works.hear_withStream (h : m.Works p) (hg : p.transfer.grant = some g)
    (stream : List Turn) (reply : Reply) :
    (m.hear (p.withStream stream) g reply).Goes w m.session (p.transfer :: m.back) := by
  obtain ⟨hstream, hq⟩ := h.withStream stream
  exact (hstream.hear hg reply).of_quiet hq

theorem Works.wait (h : m.Works p) (q : Polling) :
    (m.wait p q).Goes w m.session (p.transfer :: m.back) := by
  have hcalm := h.calm.closeCall
  unfold Machine.wait
  dsimp only
  split
  · exact drive_goes (h.custody.perm (.refl _)).shift ⟨hcalm.done, hcalm.calls, hcalm.current⟩
      h.suspended
  · have hc : Custody m.session ((⟨p.transfer, q.token, q.woken, q.awaits⟩ : Task).transfer ::
        (m.suspended.map (fun p => p.transfer) ++ m.session.waiting)) := h.custody
    obtain ⟨s', events, hok, hshift⟩ := hc.addTask (w := w) q.task
    have hok' : m.session.addTask q.task ⟨p.closeCall.transfer, q.token, q.woken, q.awaits⟩
      = .ok (s', events) := hok
    rw [hok']
    have hr : (Reaction.pending q.woken p.closeCall.calls p.closeCall.shownPolls).Calm :=
      ⟨by simp [Reaction.fault], hcalm.calls⟩
    exact answer_goes (m := { m with session := s' }) hshift h.suspended hr hcalm.done ..

/-- What a source writes does not matter to custody. -/
theorem Works.receive (h : m.Works p) (g : Grant) (data : Bytes) {ring : Ring}
    (hr : ring = (m.session.ring p.transfer.ring).receive g data) :
    Works { m with session := m.session.update p.transfer.ring ring [] } p ∧
    Quiet m.session (p.transfer :: m.back) (m.session.update p.transfer.ring ring [])
      (p.transfer :: m.back) := by
  have hknown := (h.custody.fits _ (List.mem_cons_self ..)).known
  have hq := h.custody.receive hknown g data
  rw [hr]
  exact ⟨⟨hq.custody, h.calm, h.suspended⟩, hq⟩

/-- A stream that writes and answers. -/
theorem Works.answered (h : m.Works p) (hg : p.transfer.grant = some g) (data : Bytes)
    (stream : List Turn) (reply : Reply) :
    (({ m with session := m.session.receive p.transfer.ring g data } : Machine).hear
      (p.withStream stream) g reply).Goes w m.session (p.transfer :: m.back) := by
  unfold Session.receive
  split
  · exact ((h.receive g data rfl).1.hear_withStream hg ..).of_quiet (h.receive g data rfl).2
  · exact h.hear_withStream hg ..

/-- A stream that performs commands waits for them with its transfer. -/
theorem Works.perform (h : m.Works p) (commands : List Command) :
    Goes w m.session (p.transfer :: m.back)
      { m with
        focus := .commands commands ((p.current.map fun call => call.nested).getD [])
        suspended := p :: m.suspended } := by
  refine ⟨(h.custody.perm (.refl _)).shift, ?_, List.forall_mem_cons.2 ⟨h.calm, h.suspended⟩⟩
  intro a ha
  cases hc : p.current with
  | none => simp [hc] at ha
  | some call =>
    refine h.calm.current call hc a ?_
    simpa [hc] using ha

theorem Works.turn (h : m.Works p) (hg : p.transfer.grant = some g) :
    (m.turn p g).Goes w m.session (p.transfer :: m.back) := by
  unfold Machine.turn
  dsimp only
  split
  · split
    · exact h.hear hg _
    · exact h.hear hg _
  · rename_i commands stream _
    obtain ⟨hstream, hq⟩ := h.withStream stream
    exact (hstream.perform commands).of_quiet hq
  · exact h.answered hg ..
  · exact h.hear_withStream hg ..
  · exact h.hear_withStream hg ..
  · exact h.answered hg ..
  · exact h.hear_withStream hg ..
  · exact h.hear_withStream hg ..
  · rename_i wake stream _
    split
    · exact h.hear_withStream hg ..
    · obtain ⟨hstream, hq⟩ := h.withStream stream
      exact (hstream.wait _).of_quiet hq

/-! ## Commands -/

variable {todo : List Command} {done : List Answer}

theorem apply_goes {effect : Session.Effect}
    (h : effect.Proper w m.session (m.suspended.map fun p => p.transfer))
    (hs : ∀ q ∈ m.suspended, q.Calm) (hd : ∀ a ∈ done, a.Calm) (name : Nat) :
    (m.apply name effect todo done).Goes w m.session m.back :=
  answer_goes (m := { m with session := effect.session }) h.shift hs h.calm hd ..

theorem poll_goes (h : Custody m.session m.back) (hs : ∀ q ∈ m.suspended, q.Calm)
    (hd : ∀ a ∈ done, a.Calm) (name id : Nat) (again : Bool) :
    (m.poll name id again todo done).Goes w m.session m.back := by
  unfold poll
  split
  · exact answer_goes (h.perm (.refl _)).shift hs calm_noTask hd ..
  · rename_i task ht
    refine drive_goes (h.removeTask ht).shift ⟨hd, by simp, by simp⟩ hs

theorem obey_goes (h : Custody m.session m.back) (hs : ∀ q ∈ m.suspended, q.Calm)
    (hd : ∀ a ∈ done, a.Calm) (name : Nat) (action : Action) :
    (m.obey name action todo done).Goes action.Whole m.session m.back := by
  cases action with
  | errand e => exact apply_goes (h.errand name e) hs hd _
  | transfer request stream =>
    unfold obey
    dsimp only
    split
    · exact answer_goes (h.perm (.refl _)).shift hs calm_noRing hd ..
    · rename_i place hp
      have hknown := h.named _ (Session.mem_of_place? hp)
      exact drive_goes (h.join rfl hknown).shift ⟨hd, by simp, by simp⟩ hs
  | spawn id request stream token =>
    exact apply_goes (h.spawn name id request stream token) hs hd _
  | poll id => exact poll_goes h hs hd ..
  | run id => exact poll_goes h hs hd ..
  | cancel token =>
    -- tasks and transfers are woken, and stay what they are otherwise
    have hids : ((m.session.cancel token).tasks.map Prod.fst) = m.session.tasks.map Prod.fst := by
      simp [Session.cancel, Function.comp_def]
    have hquiet : Quiet m.session m.back (m.session.cancel token) m.back :=
      h.session rfl rfl rfl (hids ▸ h.ids)
    have hback : back { m with
        session := m.session.cancel token
        suspended := m.suspended.map (Passage.wake token (m.session.wakes token)) } = m.back := by
      simp only [back, Session.waiting, Session.cancel, List.map_map]
      rfl
    have hcalm : ∀ q ∈ m.suspended.map (Passage.wake token (m.session.wakes token)), q.Calm := by
      intro q hq
      obtain ⟨q', hq', rfl⟩ := List.mem_map.1 hq
      exact (hs q' hq').wake token _
    refine answer_goes ?_ hcalm (Reaction.calm_done (by simp)) hd ..
    rw [hback]
    exact hquiet.shift

/-! ## Steps -/

/-- The next command can put and take by itself. -/
def Whole (m : Machine) : Prop :=
  match m.focus with
  | .commands (.on _ action :: _) _ => action.Whole
  | _ => False

/-- Every step keeps custody and calm, and what it does is booked. -/
theorem step_goes (h : Custody m.session m.transfers) (hc : m.Calm) (hs : m.step = some m') :
    m'.Goes m.Whole m.session m.transfers := by
  have hfocus := hc.focus
  unfold step at hs
  unfold transfers at h ⊢
  split at hs
  · rename_i done hf
    rw [hf] at h hfocus ⊢
    split at hs
    · cases hs
    · rename_i p suspended hsus
      cases hs
      have hrest := hc.suspended
      rw [hsus] at hrest
      obtain ⟨hp, hothers⟩ := List.forall_mem_cons.1 hrest
      have hback : m.back
          = p.transfer :: (suspended.map (fun p => p.transfer) ++ m.session.waiting) := by
        simp [back, hsus]
      refine ⟨?_, hp.resume hfocus, hothers⟩
      rw [hback] at h ⊢
      exact (h.perm (.refl _)).shift
  · rename_i name action todo done hf
    rw [hf] at h hfocus ⊢
    cases hs
    have hwhole : m.Whole = action.Whole := by simp only [Whole, hf]
    rw [hwhole]
    exact obey_goes h hc.suspended hfocus name action
  · rename_i p hf
    rw [hf] at h hfocus ⊢
    have hworks : m.Works p := ⟨h, hfocus, hc.suspended⟩
    split at hs
    · rename_i hg
      cases hs
      exact hworks.start hg
    · rename_i g hg
      split at hs
      · cases hs
        exact hworks.turn hg
      · cases hs
        exact hworks.offer hg

/-! ## Runs -/

/-- Steps lead from one machine to another. -/
inductive Reaches (m : Machine) : Machine → Prop
  | refl : Reaches m m
  | step {m₁ m₂ : Machine} : Reaches m m₁ → m₁.step = some m₂ → Reaches m m₂

theorem Reaches.head {m₁ m₂ : Machine} (hs : m.step = some m₁) (h : m₁.Reaches m₂) :
    m.Reaches m₂ := by
  induction h with
  | refl => exact Reaches.refl.step hs
  | step _ hs' ih => exact ih.step hs'

theorem reaches_run (m : Machine) : m.Reaches m.run := by
  rw [run]
  split
  · exact .refl
  · rename_i m' hs
    exact (reaches_run m').head hs
termination_by m.weight
decreasing_by exact step_weight ‹_›

/-- Custody, calm, and a ledger for each direction of each ring. -/
structure Orderly (m : Machine) : Prop where
  custody : Custody m.session m.transfers
  calm : m.Calm
  ledger : ∀ place d, Ledger d (m.session.ledger place d) (m.grants place d)

theorem orderly_load (tokens : Tokens) (commands : List Command) :
    (load tokens commands).Orderly := by
  refine ⟨⟨?_, ?_, ?_, ?_, ?_⟩, ⟨?_, ?_⟩, ?_⟩
  · intro place hp
    exact absurd hp (Nat.not_lt_zero _)
  · simp [load]
  · simp [load]
  · simp [load, transfers, back, Focus.transfers, Session.waiting]
  · intro place d
    cases d <;> rfl
  · simp [load, Focus.Calm]
  · simp [load]
  · intro place d
    exact Ledger.nil d

theorem Orderly.step (h : m.Orderly) (hs : m.step = some m') : m'.Orderly := by
  have hgoes := step_goes h.custody h.calm hs
  refine ⟨hgoes.shift.custody, hgoes.calm, ?_⟩
  intro place d
  obtain ⟨new, hnew, hbooked⟩ := hgoes.shift.booked place d
  rw [hnew]
  exact (h.ledger place d).booked hbooked

theorem Reaches.orderly {tokens : Tokens} {commands : List Command}
    (h : (load tokens commands).Reaches m) : m.Orderly := by
  induction h with
  | refl => exact orderly_load tokens commands
  | step _ hs ih => exact ih.step hs

theorem Calm.answers (h : m.Calm) : ∀ a ∈ m.answers, a.Calm := by
  have hfocus := h.focus
  unfold Machine.answers
  cases hf : m.focus with
  | commands todo done =>
    rw [hf] at hfocus
    exact hfocus
  | transfer p =>
    rw [hf] at hfocus
    exact hfocus.done

/-- As many steps as asked for, or as there are. -/
def after (m : Machine) : Nat → Machine
  | 0 => m
  | n + 1 =>
    match m.step with
    | none => m
    | some m' => m'.after n

theorem reaches_after (m : Machine) (n : Nat) : m.Reaches (m.after n) := by
  induction n generalizing m with
  | zero => exact .refl
  | succ n ih =>
    unfold after
    split
    · exact .refl
    · exact (ih _).head ‹_›

end Machine

end CyclicBuffer
