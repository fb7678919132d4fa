import CyclicBuffer.Proofs.Steady

/-!
# Transfers on their way

A transfer in a session, from the step that grants its region (`Sound.starts`) to the step that ends
it. In between the direction is held by its grant alone, each of its calls is offered what its grant
says (`Sound.offer_eq`), and whoever holds the direction before and after a step does so for the
same request (`Sound.same_request_step`).
-/

namespace CyclicBuffer

namespace Machine

/-- The transfers that are under way, with what they have to answer. -/
def passages (m : Machine) : List Passage :=
  (match m.focus with
    | .commands _ _ => []
    | .transfer p => [p]) ++ m.suspended

variable {m m' : Machine} {p : Passage} {g : Grant} {place : Nat} {d : Direction}
  {marks : List Mark}

theorem mem_transfers (h : p ∈ m.passages) : p.transfer ∈ m.transfers := by
  unfold passages at h
  unfold transfers back
  rcases List.mem_append.1 h with h | h
  · cases hf : m.focus with
    | commands todo done => simp [hf] at h
    | transfer q =>
      simp only [hf, List.mem_singleton] at h
      simp [Focus.transfers, h]
  · have hmem : p.transfer ∈ m.suspended.map (fun p => p.transfer) := List.mem_map_of_mem h
    simp [hmem]

theorem focus_passages (hf : m.focus = .transfer p) : p ∈ m.passages := by
  simp [passages, hf]

theorem focus_mem (hf : m.focus = .transfer p) : p.transfer ∈ m.transfers :=
  mem_transfers (focus_passages hf)

theorem Sound.passage (hm : m.Sound) (h : p ∈ m.passages) : p.Steady m.session := by
  unfold passages at h
  rcases List.mem_append.1 h with h | h
  · cases hf : m.focus with
    | commands todo done => simp [hf] at h
    | transfer q =>
      simp only [hf, List.mem_singleton] at h
      exact hm.steady.focus p (h ▸ hf)
  · exact (hm.steady.suspended p h).2

/-- The grant of a direction is that of the transfer that holds it. -/
theorem Sound.grant_eq (hm : m.Sound) {t : Transfer} (ht : t ∈ m.transfers)
    (hh : t.holds place d) (hg : m.grants place d = [g]) :
    t.ring = place ∧ t.grant = some g ∧ g.direction = d := by
  simp only [Transfer.holds, Bool.and_eq_true, beq_iff_eq, Option.any_eq_true] at hh
  obtain ⟨rfl, g', hg', rfl⟩ := hh
  have hmem := hm.orderly.custody.grants_of_mem ht hg'
  obtain rfl : g = g' := by simpa [grants, hmem, eq_comm] using hg
  exact ⟨rfl, hg', rfl⟩

/-- One transfer alone holds a direction. -/
theorem holder_unique (hg : m.grants place d = [g]) {t t' : Transfer}
    (ht : t ∈ m.transfers) (hh : t.holds place d) (ht' : t' ∈ m.transfers)
    (hh' : t'.holds place d) : t = t' := by
  obtain ⟨u, hu, -⟩ := grantsOf_eq_singleton.1 hg
  have hmem : t ∈ holders m.transfers place d := List.mem_filter.2 ⟨ht, hh⟩
  have hmem' : t' ∈ holders m.transfers place d := List.mem_filter.2 ⟨ht', hh'⟩
  rw [hu, List.mem_singleton] at hmem hmem'
  rw [hmem, hmem']

/-! ## The beginning -/

/-- A transfer that is granted its region holds its direction alone. -/
theorem Sound.starts (hm : m.Sound) (hf : m.focus = .transfer p) (hg : p.transfer.grant = none)
    {count : Nat} (hcount : p.transfer.request.count = count)
    (hd : p.transfer.request.purpose.direction = d) {ring : Ring} {events : List Event}
    (hr : (m.session.ring p.transfer.ring).reserve d count = .ok (g, ring, events))
    (hs : m.step = some m') :
    p.transfer.ring < m.session.rings.size ∧ p.transfer.ring < m'.session.rings.size ∧
      m'.session.ring p.transfer.ring = ring ∧ m'.grants p.transfer.ring d = [g] ∧
      ∃ t ∈ m'.transfers, t.holds p.transfer.ring d ∧ t.request = p.transfer.request := by
  subst hcount hd
  have hknown := (hm.orderly.custody.fits _ (focus_mem hf)).known
  have hsize := (step_course hm.orderly hm.steady hs).size
  have hm' := hm.step hs
  obtain rfl := Option.some.inj ((step_iff.2 (.start hf hg)).symm.trans hs)
  unfold Machine.start at hm' hsize ⊢
  simp only [hr] at hm' hsize ⊢
  obtain ⟨_, _, -, hgrant, -, -⟩ := Ring.reserve_ok hr
  refine ⟨hknown, Nat.lt_of_lt_of_le hknown hsize, Session.ring_update_self _ hknown .., ?_,
    (p.withGrant g).transfer, List.mem_cons_self .., ?_, rfl⟩
  · have hall := hm'.orderly.custody.grants_of_mem (g := g) (List.mem_cons_self ..) rfl
    rw [hgrant] at hall ⊢
    exact hall
  · simp [Transfer.holds, Passage.withGrant, hgrant]

/-! ## On the way -/

/-- A call that is under way was offered what the grant of its transfer says, however long it
lasts. -/
theorem Sound.offer_eq (hm : m.Sound) (hp : p ∈ m.passages) (hh : p.transfer.holds place d)
    {call : Call Answer} (hcall : p.current = some call) :
    ∃ g, m.grants place d = [g] ∧ call.offer = (m.session.ring place).offer g ∧
      g.remaining ≠ 0 := by
  simp only [Transfer.holds, Bool.and_eq_true, beq_iff_eq, Option.any_eq_true] at hh
  obtain ⟨rfl, g, hg, rfl⟩ := hh
  obtain ⟨g', hg', hmore, ho⟩ := (hm.passage hp).offer call hcall
  cases hg.symm.trans hg'
  exact ⟨g, hm.orderly.custody.grants_of_mem (mem_transfers hp) hg, ho, hmore⟩

/-! ## One transfer from step to step -/

/-- Where a transfer that has started comes from: it had started before the step, or it was granted
its region in the step. -/
inductive Stems (m : Machine) (t' : Transfer) : Prop
  | started {t : Transfer} (mem : t ∈ m.transfers) (grant : t.grant.isSome)
      (ring : t.ring = t'.ring) (request : t.request = t'.request)
  | granted {p : Passage} {g : Grant} {ring : Ring} {events : List Event}
      (focus : m.focus = .transfer p) (place : p.transfer.ring = t'.ring)
      (request : p.transfer.request = t'.request)
      (h : (m.session.ring p.transfer.ring).reserve p.transfer.request.purpose.direction
        p.transfer.request.count = .ok (g, ring, events))

theorem Stems.of_mem {t : Transfer} (ht : t ∈ m.transfers) (hg : t.grant.isSome) : m.Stems t :=
  .started ht hg rfl rfl

theorem mem_back_of_task {entry : Nat × Task} (h : entry ∈ m.session.tasks) :
    entry.2.transfer ∈ m.transfers :=
  List.mem_append_right _ (List.mem_append_right _ (List.mem_map.2 ⟨entry, h, rfl⟩))

theorem mem_back_of_suspended (h : p ∈ m.suspended) : p.transfer ∈ m.transfers :=
  List.mem_append_right _ (List.mem_append_left _ (List.mem_map.2 ⟨p, h, rfl⟩))

/-- What is not in focus comes from before the step, if no task has started in it. -/
theorem stems_back (hsus : ∀ p' ∈ m'.suspended, ∃ p ∈ m.suspended, p.transfer = p'.transfer)
    (htasks : ∀ entry' ∈ m'.session.tasks, entry'.2.transfer.grant = none ∨
      ∃ entry ∈ m.session.tasks, entry.2.transfer = entry'.2.transfer) :
    ∀ t' ∈ m'.back, t'.grant.isSome → m.Stems t' := by
  intro t' ht' hg
  rcases List.mem_append.1 ht' with ht' | ht'
  · obtain ⟨p', hp', rfl⟩ := List.mem_map.1 ht'
    obtain ⟨p, hp, heq⟩ := hsus p' hp'
    exact heq ▸ .of_mem (mem_back_of_suspended hp) (heq ▸ hg)
  · obtain ⟨entry', he', rfl⟩ := List.mem_map.1 ht'
    rcases htasks entry' he' with hnone | ⟨entry, he, heq⟩
    · simp [hnone] at hg
    · exact heq ▸ .of_mem (mem_back_of_task he) (heq ▸ hg)

theorem stems_within (hsus : m'.suspended = m.suspended) (hw : m.session.Within m'.session) :
    ∀ t' ∈ m'.back, t'.grant.isSome → m.Stems t' := by
  refine stems_back (fun p' hp' => ⟨p', hsus ▸ hp', rfl⟩) fun entry' he' => ?_
  rcases hw.tasks entry' he' with he | ⟨hnone, -⟩
  · exact .inr ⟨entry', he, rfl⟩
  · exact .inl hnone

theorem stems_obey {name : Nat} {action : Action} {todo : List Command} {done : List Answer} :
    ∀ t' ∈ (m.obey name action todo done).transfers, t'.grant.isSome → m.Stems t' := by
  have hpoll id again : ∀ t' ∈ (m.poll name id again todo done).transfers, t'.grant.isSome →
      m.Stems t' := by
    unfold poll
    split
    · exact stems_within rfl (.refl _)
    · rename_i task ht
      intro t' ht' hg
      rcases List.mem_cons.1 ht' with rfl | ht'
      · exact .of_mem (mem_back_of_task (Session.mem_tasks ht)) hg
      · have hback : t' ∈ ({ m with session := m.session.removeTask id } : Machine).back := ht'
        refine stems_within ?_ ?_ t' hback hg
        · rfl
        · exact ⟨rfl, rfl, fun entry he => .inl (List.mem_filter.1 he).1⟩
  cases action with
  | errand e => exact stems_within rfl (m.session.errand_within name e)
  | transfer request stream =>
    unfold obey
    dsimp only
    split
    · exact stems_within rfl (.refl _)
    · intro t' ht' hg
      rcases List.mem_cons.1 ht' with rfl | ht'
      · simp at hg
      · exact stems_within rfl (.refl _) t' ht' hg
  | spawn id request stream token =>
    exact stems_within rfl (m.session.spawn_within name id request stream token)
  | poll id => exact hpoll id false
  | run id => exact hpoll id true
  | cancel token =>
    refine stems_back (m := m) ?_ ?_
    · intro p' hp'
      obtain ⟨p, hp, rfl⟩ := List.mem_map.1 hp'
      exact ⟨p, hp, rfl⟩
    · intro entry' he'
      obtain ⟨entry, he, rfl⟩ := List.mem_map.1 he'
      exact .inr ⟨entry, he, rfl⟩

/-- The transfer in focus goes on, or is over; nothing else changes but its ring. -/
theorem stems_focus (hf : m.focus = .transfer p) (hg : p.transfer.grant.isSome)
    (hsus : m'.suspended = m.suspended) (ht : m'.session.tasks = m.session.tasks)
    (hfocus : ∀ t' ∈ m'.focus.transfers, t'.ring = p.transfer.ring ∧
      t'.request = p.transfer.request) :
    ∀ t' ∈ m'.transfers, t'.grant.isSome → m.Stems t' := by
  intro t' ht' hg'
  rcases List.mem_append.1 ht' with ht' | ht'
  · obtain ⟨hr, hq⟩ := hfocus t' ht'
    exact .started (focus_mem hf) hg hr.symm hq.symm
  · exact stems_back (fun p' hp' => ⟨p', hsus ▸ hp', rfl⟩)
      (fun entry' he' => .inr ⟨entry', ht ▸ he', rfl⟩) t' ht' hg'

theorem stems_hear (hf : m.focus = .transfer p) (hg : p.transfer.grant.isSome) {m₁ : Machine}
    {p₁ : Passage} (hr : p₁.transfer.ring = p.transfer.ring)
    (hq : p₁.transfer.request = p.transfer.request) (hsus : m₁.suspended = m.suspended)
    (ht : m₁.session.tasks = m.session.tasks) (g : Grant) (reply : Reply) :
    ∀ t' ∈ (m₁.hear p₁ g reply).transfers, t'.grant.isSome → m.Stems t' := by
  rw [hear_eq]
  split
  · refine stems_focus hf hg hsus ht fun t' ht' => ?_
    rw [List.mem_singleton.1 ht']
    exact ⟨hr, hq⟩
  · exact stems_focus hf hg hsus ht fun t' ht' => absurd ht' List.not_mem_nil

theorem stems_turn (hf : m.focus = .transfer p) (hg : p.transfer.grant = some g) :
    ∀ t' ∈ (m.turn p g).transfers, t'.grant.isSome → m.Stems t' := by
  have hsome : p.transfer.grant.isSome := by simp [hg]
  rw [turn_eq]
  split
  · rename_i written reply stream _
    refine stems_hear hf hsome ?_ ?_ ?_ ?_ g reply <;> rfl
  · rename_i commands stream _
    intro t' ht' hg'
    rcases List.mem_append.1 ht' with ht' | ht'
    · cases ht'
    rcases List.mem_append.1 ht' with ht' | ht'
    · rcases List.mem_cons.1 ht' with rfl | ht'
      · exact .started (t := p.transfer) (focus_mem hf) hsome rfl rfl
      · exact .of_mem (List.mem_append_right _ (List.mem_append_left _ ht')) hg'
    · exact .of_mem (List.mem_append_right _ (List.mem_append_right _ ht')) hg'
  · rename_i q stream _
    unfold wait
    dsimp only
    split
    · refine stems_focus hf hsome rfl rfl fun t' ht' => ?_
      rw [List.mem_singleton.1 ht']
      exact ⟨rfl, rfl⟩
    · split
      · exact stems_focus hf hsome rfl rfl fun t' ht' => absurd ht' List.not_mem_nil
      · rename_i hadd
        obtain ⟨-, htasks⟩ := Session.addTask_within hadd
        intro t' ht' hg'
        rcases List.mem_append.1 ht' with ht' | ht'
        · cases ht'
        rcases List.mem_append.1 ht' with ht' | ht'
        · exact .of_mem (List.mem_append_right _ (List.mem_append_left _ ht')) hg'
        · obtain ⟨entry, he, rfl⟩ := List.mem_map.1 ht'
          rcases htasks entry he with rfl | he
          · exact .started (t := p.transfer) (focus_mem hf) hsome rfl rfl
          · exact .of_mem (mem_back_of_task he) hg'

/-- Every transfer that has started after a step stems from before it. -/
theorem Stems.of_step (hs : m.step = some m') :
    ∀ t' ∈ m'.transfers, t'.grant.isSome → m.Stems t' := by
  cases step_iff.1 hs with
  | @resume p rest done hf hsus =>
    intro t' ht' hg'
    rcases List.mem_cons.1 ht' with rfl | ht'
    · exact .of_mem (mem_back_of_suspended (p := p) (by simp [hsus])) hg'
    · have hback : t' ∈ ({ m with suspended := rest } : Machine).back := ht'
      refine stems_back ?_ ?_ t' hback hg'
      · exact fun p' hp' => ⟨p', by simp [hsus, show p' ∈ rest from hp'], rfl⟩
      · exact fun entry' he' => .inr ⟨entry', he', rfl⟩
  | obey hf => exact stems_obey
  | start hf hg =>
    unfold start
    dsimp only
    split
    · exact stems_within rfl (.refl _)
    · rename_i hr
      intro t' ht' hg'
      rcases List.mem_cons.1 ht' with rfl | ht'
      · exact .granted hf rfl rfl hr
      · exact .of_mem (List.mem_append_right _ ht') hg'
  | turn hf hg hcall => exact stems_turn hf hg
  | offer hf hg hidle =>
    have hsome := Option.isSome_of_eq_some hg
    unfold offer
    split
    · exact stems_focus hf hsome rfl rfl fun t' ht' => absurd ht' List.not_mem_nil
    · refine stems_focus hf hsome rfl rfl fun t' ht' => ?_
      rw [List.mem_singleton.1 ht']
      exact ⟨rfl, rfl⟩

/-- A direction that is held before and after a step is held for the same request. -/
theorem Sound.same_request_step (hm : m.Sound) (hs : m.step = some m')
    (hg : m.grants place d = [g]) {t : Transfer} (ht : t ∈ m.transfers) (hh : t.holds place d)
    {t' : Transfer} (ht' : t' ∈ m'.transfers) (hh' : t'.holds place d) :
    t'.request = t.request := by
  have hcustody := hm.orderly.custody
  obtain ⟨hring', g', hg', hd'⟩ : t'.ring = place ∧ ∃ g, t'.grant = some g ∧ g.direction = d := by
    simpa [Transfer.holds, Option.any_eq_true] using hh'
  have hpurpose' : t'.request.purpose.direction = d :=
    (((hm.step hs).orderly.custody.fits t' ht').direction g' hg').symm.trans hd'
  cases Stems.of_step hs t' ht' (by simp [hg']) with
  | @started u hu hug hring hrequest =>
    obtain ⟨gu, hgu⟩ := Option.isSome_iff_exists.1 hug
    have hdu : gu.direction = d := by
      rw [(hcustody.fits u hu).direction gu hgu, hrequest, hpurpose']
    have hholds : u.holds place d := by simp [Transfer.holds, hring, hring', hgu, hdu]
    rw [← hrequest, holder_unique hg hu hholds ht hh]
  | granted focus hplace hrequest h =>
    -- the direction was idle, but somebody held it
    rw [hrequest, hpurpose', hplace, hring'] at h
    obtain ⟨_, _, hro, -, -, -⟩ := Ring.reserve_ok h
    have hknown : place < m.session.rings.size :=
      hring' ▸ hplace ▸ (hcustody.fits _ (focus_mem focus)).known
    have hidle := ((hcustody.sound hknown).coherent.reserve_held hro).1
    have hgrants : grantsOf m.transfers place d = [] := hcustody.grants_of_held hidle
    rw [grants, hgrants] at hg
    cases hg

end Machine

end CyclicBuffer
