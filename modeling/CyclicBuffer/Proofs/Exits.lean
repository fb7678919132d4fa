import CyclicBuffer.Proofs.Transit

/-!
# Ways out

How a transfer in a session ends: it has concluded, between two calls or with a reply, and answers
with its verdict, or it was let go (`Sound.exits`). In each case one commit of its grant is the last
thing that happens to its ring in that step, so what it has moved is what it leaves behind
(`Exits.commits`).
-/

namespace CyclicBuffer

open Occupancy

/-! ## Conclusions -/

/-- How a transfer comes to its end by itself, between two calls or with a reply; the marks before
its commit, and the ring that it commits to. -/
inductive Passage.Concludes (p : Passage) (r : Ring) (g : Grant) (s : Session) :
    List Mark → Ring → Ending → Prop
  | between {ending : Ending} (idle : p.current = none) (left : p.next s g = .leave ending) :
      Concludes p r g s [] r ending
  | reply {written : Bytes} {reply : Reply} {stream : List Turn} {ending : Ending}
      (called : p.current.isSome)
      (response : p.respond g.direction (r.room g) = (.answer written reply, stream))
      (heard : g.hear reply = (g, some ending)) :
      Concludes p r g s [.replied g.direction (r.offer g) written reply]
        (r.receive g written) ending

/-- The value that a transfer answers with. -/
def Value.ofCount : Option Nat → Value
  | none => .unit
  | some n => .number n

namespace Machine

variable {m m' : Machine} {p : Passage} {g : Grant} {place : Nat} {d : Direction}
  {marks : List Mark}

/-- A transfer that concludes answers with its verdict. -/
structure Answers (m : Machine) (p : Passage) (g : Grant) (ending : Ending) (m' : Machine) :
    Prop where
  suspended : m'.suspended = m.suspended
  focus : ∃ calls standing events, m'.focus = .commands p.todo (p.done ++
    [⟨.settled ((p.transfer.request.verdict g.moved ending).result.map Value.ofCount) calls
      p.shownPolls, standing, events⟩])

/-- The ways in which a transfer ends in a step. -/
inductive Exits (m : Machine) (place : Nat) (d : Direction) (g : Grant) (m' : Machine) : Prop
  /-- It has concluded, and answers with its verdict. -/
  | concluded {p : Passage} {before : List Mark} {ring ring' : Ring} {ending : Ending}
      {events : List Event} (focus : m.focus = .transfer p) (holds : p.transfer.ring = place)
      (grant : p.transfer.grant = some g)
      (concludes : p.Concludes (m.session.ring place) g m.session before ring ending)
      (commit : ring.commit g = .ok (ring', events)) (after : m'.session.ring place = ring')
      (marks : m.marks place = before ++ [ring.finished g (some ending)])
      (answers : m.Answers p g ending m')
  /-- It was a task that was let go. -/
  | dropped {before : List Mark} {ring' : Ring} {events : List Event}
      (waits : ∀ mark ∈ before, ∃ e, mark = .waited e) (more : g.remaining ≠ 0)
      (commit : (m.session.ring place).commit g = .ok (ring', events))
      (after : m'.session.ring place = ring')
      (marks : m.marks place = before ++ [(m.session.ring place).finished g none])
      (other : ∀ p, m.focus = .transfer p → ¬ p.transfer.holds place d)

/-- Where a transfer that holds its grant can have left its loop, its verdict is in the table. -/
theorem Works.verdict_eq (h : m.Works p) (hg : p.transfer.grant = some g) {ending : Ending}
    (hl : p.Leaves g ending) :
    p.verdict g ending = p.transfer.request.verdict g.moved ending := by
  have hfits := h.custody.fits _ (List.mem_cons_self ..)
  exact Passage.verdict_eq (hfits.count g hg) (hfits.moved_le g hg) hl

/-- A transfer that ends by itself commits and answers. -/
theorem Works.settle_answers (h : m.Works p) (hg : p.transfer.grant = some g) {ring' : Ring}
    {events : List Event}
    (hc : (m.session.ring p.transfer.ring).commit g = .ok (ring', events)) {ending : Ending}
    (hl : p.Leaves g ending) :
    (m.settle p g ending).session.ring p.transfer.ring = ring' ∧
      m.Answers p g ending (m.settle p g ending) := by
  have hknown := (h.custody.fits _ (List.mem_cons_self ..)).known
  unfold Machine.settle Ring.settle
  simp only [hc]
  exact ⟨Session.ring_update_self _ hknown .., rfl, p.calls, _, _,
    by rw [← h.verdict_eq hg hl]; rfl⟩

/-- A reply that ends a call under way leaves the loop where bytes are left to move. -/
theorem hear_leaves {p : Passage} {reply : Reply} {g' : Grant} {ending : Ending}
    (h : g.hear reply = (g', some ending)) (hmore : g.remaining ≠ 0) : p.Leaves g ending := by
  unfold Grant.hear at h
  split at h
  · cases h
    exact hmore
  · split at h <;> cases h
    exact trivial
  · simp only [Prod.mk.injEq] at h
    obtain ⟨-, h⟩ := h
    split at h <;> cases h
    exact trivial
  · cases h
    exact trivial

end Machine

/-! ## Transfers that are let go -/

/-- Only the transfer of a direction that is over ends it. -/
theorem Ring.ends_finished {r : Ring} {g : Grant} {ending : Option Ending} {d : Direction} :
    (r.finished g ending).Ends d ↔ g.direction = d := by
  unfold finished
  split <;> simp [Mark.Ends, *]

/-- The end of a transfer is no call of its stream. -/
theorem Ring.finished_ne_replied (r : Ring) (g : Grant) (ending : Option Ending) (d : Direction)
    (offer : Offer) (written : Bytes) (reply : Reply) :
    r.finished g ending ≠ .replied d offer written reply := by
  unfold finished
  split <;> simp

/-- A task that is let go commits its grant. -/
theorem Session.dropTask_commits {s s' : Session} {id place : Nat} {events : List Event}
    {mark : Mark} (hm : mark ∈ s.dropped id place) (hok : s.dropTask id = .ok (s', events))
    (hp : place < s.rings.size) :
    ∃ task g ring' events', s.task? id = some task ∧ task.transfer.ring = place ∧
      task.transfer.grant = some g ∧ mark = (s.ring place).finished g none ∧
      s.dropped id place = [(s.ring place).finished g none] ∧
      (s.ring place).commit g = .ok (ring', events') ∧ s'.ring place = ring' := by
  unfold dropped at hm ⊢
  unfold dropTask at hok
  cases ht : s.task? id with
  | none => simp [ht] at hm
  | some task =>
    simp only [ht] at hm hok ⊢
    unfold parted marksAt at hm ⊢
    split at hm
    · rename_i hplace
      subst hplace
      cases hg : task.transfer.grant with
      | none => simp [hg] at hm
      | some g =>
        have hmark : mark = (s.ring task.transfer.ring).finished g none := by
          simpa [hg] using hm
        simp only [abandon, hg] at hok
        have hring : (s.removeTask id).ring task.transfer.ring = s.ring task.transfer.ring := rfl
        rw [hring] at hok
        cases hc : (s.ring task.transfer.ring).commit g with
        | error f =>
          rw [hc] at hok
          cases hok
        | ok committed =>
          rw [hc] at hok
          cases hok
          refine ⟨task, g, committed.1, committed.2, rfl, rfl, hg, hmark, by simp, hc, ?_⟩
          exact Session.ring_update_self (s.removeTask id) hp ..
    · cases hm

namespace Machine

variable {m m' : Machine} {p : Passage} {g : Grant} {place : Nat} {d : Direction}

/-- A task that is let go in a step ends the transfer that it holds. -/
theorem Sound.exits_dropped (hm : m.Sound) (hg : m.grants place d = [g]) {id : Nat}
    {s' : Session} {events : List Event} (hok : m.session.dropTask id = .ok (s', events))
    (hp : place < m.session.rings.size) {mark : Mark}
    (hmem : mark ∈ m.session.dropped id place) (he : mark.Ends d) (before : List Mark)
    (hbefore : ∀ mark ∈ before, ∃ e, mark = .waited e)
    (hmarks : m.marks place = before ++ m.session.dropped id place)
    (hring : m'.session.ring place = s'.ring place) : m.Exits place d g m' := by
  obtain ⟨task, g', ring', events', ht, rfl, hg', rfl, hdropped, hc, hring'⟩ :=
    Session.dropTask_commits hmem hok hp
  obtain rfl := Ring.ends_finished.1 he
  have hentry := Session.mem_tasks ht
  have hback : task.transfer ∈ m.back := by
    refine List.mem_append_right _ (List.mem_map.2 ⟨(id, task), hentry, rfl⟩)
  have hholds : task.transfer.holds task.transfer.ring g'.direction := by
    simp [Transfer.holds, hg']
  obtain ⟨-, hg'', -⟩ := hm.grant_eq (List.mem_append_right _ hback) hholds hg
  obtain rfl : g = g' := by simpa [hg''] using hg'
  refine .dropped hbefore ((hm.steady.tasks _ hentry).more g hg') hc (hring.trans hring')
    (hdropped ▸ hmarks) ?_
  -- no other transfer holds the direction of the task
  intro p hf hp
  obtain ⟨hr, hpg, -⟩ := hm.grant_eq (focus_mem hf) hp hg
  have halone := (hm.orderly.works hf).custody.grants_alone hpg
  rw [hr, grantsOf, List.flatMap_eq_nil_iff] at halone
  have hnone := halone _ hback
  rw [Transfer.grants_self hg'] at hnone
  cases hnone

/-! ## Every way out -/

/-- A reply ends the transfer in focus. -/
theorem Sound.exits_replied (hm : m.Sound) (hf : m.focus = .transfer p)
    (hg : p.transfer.grant = some g) (hcall : p.current.isSome) (hs : m.step = some m')
    {written : Bytes} {reply : Reply} {stream : List Turn}
    (hr : p.respond g.direction ((m.session.ring p.transfer.ring).room g)
      = (.answer written reply, stream))
    {ending : Ending} (hh : g.hear reply = (g, some ending)) : m.Exits p.transfer.ring d g m' := by
  have hworks := hm.orderly.works hf
  have hcustody := hworks.custody
  have hknown := (hcustody.fits _ (List.mem_cons_self ..)).known
  obtain ⟨hmore, -⟩ := (hm.steady.focus p hf).in_call hg hcall
  obtain ⟨ring', events, hc⟩ := Ring.commit_of_held
    (r := (m.session.ring p.transfer.ring).receive g written) (hcustody.held_eq hg)
  have hring : (m.session.update p.transfer.ring
      ((m.session.ring p.transfer.ring).receive g written) []).ring p.transfer.ring
        = (m.session.ring p.transfer.ring).receive g written :=
    Session.ring_update_self _ hknown ..
  have hreceive := ((hworks.receive g written rfl).1.withStream stream).1
  have hclosed : Works _ (p.withStream stream).closeCall :=
    ⟨hreceive.custody, hreceive.calm.closeCall, hreceive.suspended⟩
  obtain ⟨hafter, hanswers⟩ := hclosed.settle_answers hg (hring ▸ hc) (hear_leaves hh hmore)
  have hstep := step_iff.2 (.turn hf hg hcall)
  simp only [turn_eq, hr, hear_eq, hh] at hstep
  obtain rfl := Option.some.inj (hstep.symm.trans hs)
  refine .concluded hf rfl hg (.reply hcall hr hh) hc hafter ?_
    ⟨hanswers.suspended, hanswers.focus⟩
  simp only [marks, hf, Passage.marks, Passage.parks?, hg, hcall, hr, if_true, marksAt,
    Ring.answered, hh, List.append_nil]
  rfl

/-- The transfer in focus ends with its step. -/
theorem Sound.exits_concluded (hm : m.Sound) (hf : m.focus = .transfer p)
    (hg : p.transfer.grant = some g) (hs : m.step = some m') {mark : Mark}
    (hmem : mark ∈ p.marks (m.session.ring p.transfer.ring) m.session)
    (he : mark.Ends d) : m.Exits p.transfer.ring d g m' := by
  simp only [Passage.marks, hg] at hmem
  split at hmem
  · rename_i hcall
    split at hmem
    · rename_i written reply stream hr
      rcases List.mem_cons.1 hmem with rfl | hend
      · cases he
      split at hend
      · cases hend
      · rename_i g' ending hh
        obtain ⟨rfl, -⟩ := hear_ending hh
        exact hm.exits_replied hf hg hcall hs hr hh
    · cases hmem
    · rw [List.mem_singleton.1 hmem] at he
      cases he
  · rename_i hcall
    have hidle := Option.not_isSome_iff_eq_none.1 hcall
    split at hmem
    · rename_i ending hleft
      have hworks := hm.orderly.works hf
      obtain ⟨ring', events, hc⟩ := Ring.commit_of_held (hworks.custody.held_eq hg)
      obtain ⟨hafter, hanswers⟩ :=
        hworks.settle_answers hg hc ((hm.steady.focus p hf).leaves hg hleft)
      have hstep := step_iff.2 (.offer hf hg hidle)
      simp only [offer, hleft] at hstep
      obtain rfl := Option.some.inj (hstep.symm.trans hs)
      refine .concluded hf rfl hg (.between hidle hleft) hc hafter ?_ hanswers
      simp [marks, hf, Passage.marks, Passage.parks?, hg, hidle, hleft, marksAt]
    · rw [List.mem_singleton.1 hmem] at he
      cases he

/-- A step of a transfer ends no other. -/
theorem marks_ends {r : Ring} {s : Session} {mark : Mark} (hmem : mark ∈ p.marks r s)
    (he : mark.Ends d) : ∃ g, p.transfer.grant = some g ∧ g.direction = d := by
  unfold Passage.marks at hmem
  dsimp only at hmem
  split at hmem
  · split at hmem
    · cases hmem
    · rw [List.mem_singleton.1 hmem] at he
      unfold Ring.begun at he
      split at he <;> cases he
  · rename_i g hg
    refine ⟨g, hg, ?_⟩
    split at hmem
    · split at hmem
      · rcases List.mem_cons.1 hmem with rfl | hend
        · cases he
        · split at hend
          · cases hend
          · rename_i hh
            obtain ⟨rfl, -⟩ := hear_ending hh
            rw [List.mem_singleton.1 hend] at he
            exact Ring.ends_finished.1 he
      · cases hmem
      · rw [List.mem_singleton.1 hmem] at he
        cases he
    · split at hmem <;> rw [List.mem_singleton.1 hmem] at he
      · exact Ring.ends_finished.1 he
      · cases he

/-- A passage that goes into the table makes room for itself there. -/
theorem step_parks (hf : m.focus = .transfer p) {id : Nat}
    (hid : p.parks? (m.session.ring p.transfer.ring) = some id) (hs : m.step = some m')
    {s' : Session} {events : List Event} (hok : m.session.dropTask id = .ok (s', events)) :
    (∃ g, p.transfer.grant = some g ∧
      p.marks (m.session.ring p.transfer.ring) m.session = [.waited g.direction]) ∧
      m'.session.rings = s'.rings := by
  unfold Passage.parks? at hid
  cases hg : p.transfer.grant with
  | none => simp [hg] at hid
  | some g =>
    simp only [hg] at hid
    split at hid
    · rename_i hcur
      split at hid
      · rename_i q stream hr
        split at hid
        · cases hid
        · rename_i hagain
          cases hid
          refine ⟨⟨g, rfl, ?_⟩, ?_⟩
          · simp only [Passage.marks, hg, hcur, if_true, hr]
          · obtain rfl := Option.some.inj ((step_iff.2 (.turn hf hg hcur)).symm.trans hs)
            simp only [turn_eq, hr, wait, hagain, Bool.false_eq_true, if_false, Session.addTask,
              hok]
            rfl
      · cases hid
    · cases hid

/-- A command that ends a transfer drops its task, or takes the name of the task. -/
theorem Sound.exits_obeyed (hm : m.Sound) {name : Nat} {action : Action} {todo : List Command}
    {done : List Answer} (hf : m.focus = .commands (.on name action :: todo) done)
    (hs : m.step = some m') (hp : place < m.session.rings.size) (hg : m.grants place d = [g])
    {mark : Mark} (hmem : mark ∈ m.session.marks name place action) (he : mark.Ends d) :
    m.Exits place d g m' := by
  have hmarks : m.marks place = m.session.marks name place action := by simp only [marks, hf]
  have hcustody := hm.orderly.custody
  simp only [transfers, hf, Focus.transfers, List.nil_append] at hcustody
  obtain rfl := Option.some.inj ((step_iff.2 (.obey hf)).symm.trans hs)
  unfold Session.marks at hmem
  split at hmem
  · split at hmem
    · rw [List.mem_singleton.1 hmem] at he
      unfold Ring.operated at he
      split at he <;> cases he
    · cases hmem
  · rename_i id
    obtain ⟨s', events, hok, -, -⟩ := hcustody.dropTask (w := True) id
    refine hm.exits_dropped hg hok hp hmem he [] (by simp) hmarks ?_
    simp only [obey, Session.errand, hok]
    rfl
  · rename_i id request stream token
    cases hname : m.session.place? name with
    | none => simp [hname] at hmem
    | some q =>
      simp only [hname, Option.isSome_some, if_true] at hmem
      obtain ⟨s', events, hok, -, -⟩ := hcustody.dropTask (w := True) id
      refine hm.exits_dropped hg hok hp hmem he [] (by simp) ?_ ?_
      · simp only [hmarks, Session.marks, hname, Option.isSome_some, if_true, List.nil_append]
      · simp only [obey, Session.spawn, Session.onRing, hname, Session.addTask, hok]
        rfl
  · cases hmem

/-- A passage that goes into the table ends the transfer of a task that has its name. -/
theorem Sound.exits_parked (hm : m.Sound) (hf : m.focus = .transfer p) {id : Nat}
    (hid : p.parks? (m.session.ring p.transfer.ring) = some id) (hs : m.step = some m')
    (hp : place < m.session.rings.size) (hg : m.grants place d = [g]) {mark : Mark}
    (hmem : mark ∈ m.session.dropped id place) (he : mark.Ends d) : m.Exits place d g m' := by
  have hcustody : Custody m.session
      ((p.transfer :: m.suspended.map fun p => p.transfer) ++ m.session.waiting) :=
    (hm.orderly.works hf).custody
  obtain ⟨s', events, hok, -, -⟩ := hcustody.dropTask (w := True) id
  obtain ⟨⟨g', -, hwaited⟩, hrings⟩ := step_parks hf hid hs hok
  refine hm.exits_dropped hg hok hp hmem he
    (marksAt p.transfer.ring [.waited g'.direction] place) ?_ ?_ ?_
  · intro mark hm
    unfold marksAt at hm
    split at hm
    · exact ⟨_, List.mem_singleton.1 hm⟩
    · cases hm
  · simp only [marks, hf, hid, hwaited]
  · simp only [Session.ring, hrings]

/-- **Every way out.** A transfer that ends in a step has concluded by itself or was let go. -/
theorem Sound.exits (hm : m.Sound) (hs : m.step = some m') (hp : place < m.session.rings.size)
    (hg : m.grants place d = [g]) (hg' : m'.grants place d = []) : m.Exits place d g m' := by
  have hcourse := (step_course hm.orderly hm.steady hs).deeds place hp
  obtain ⟨mark, hmem, he⟩ : ∃ mark ∈ m.marks place, mark.Ends d := by
    by_contra hno
    obtain ⟨g', hlive, -⟩ :=
      hcourse.goes_on hg fun mark hmem he => hno ⟨mark, hmem, he⟩
    have hnil : grantsOf m'.transfers place d = [] := hg'
    simp [hnil] at hlive
  unfold marks at hmem
  split at hmem
  · cases hmem
  · rename_i hf
    exact hm.exits_obeyed hf hs hp hg hmem he
  · rename_i p hf
    rcases List.mem_append.1 hmem with hown | hother
    · -- the mark is of the transfer in focus, which holds the direction
      unfold marksAt at hown
      split at hown
      · rename_i hplace
        subst hplace
        obtain ⟨g', hpg, hd⟩ := marks_ends hown he
        have hholds : p.transfer.holds p.transfer.ring d := by simp [Transfer.holds, hpg, hd]
        obtain ⟨-, hpg', -⟩ := hm.grant_eq (focus_mem hf) hholds hg
        exact hm.exits_concluded hf hpg' hs hown he
      · cases hown
    · split at hother
      · cases hother
      · rename_i id hid
        exact hm.exits_parked hf hid hs hp hg hother he

end Machine

/-! ## What is left behind -/

/-- A stream that writes something and counts it goes on. -/
theorem Passage.respond_ends {p : Passage} {r : Ring} {g g' : Grant} {written : Bytes}
    {reply : Reply} {stream : List Turn} {ending : Ending}
    (h : p.respond g.direction (r.room g) = (.answer written reply, stream))
    (hh : g.hear reply = (g', some ending)) : written = [] := by
  unfold respond at h
  split at h
  · split at h <;> cases h <;> rfl
  · cases h
  · rename_i data _ _
    split at h <;> cases h
    · by_contra hne
      have hle : min data.length (r.room g) ≤ g.remaining :=
        Nat.le_trans (Nat.min_le_right ..) (r.room_le g)
      obtain ⟨n, hn⟩ : ∃ n, min data.length (r.room g) = n + 1 :=
        Nat.exists_eq_succ_of_ne_zero fun hzero => hne (by rw [hzero, List.take_zero])
      rw [hn] at hh hle
      simp only [Grant.hear, g.advance_of_le hle] at hh
      cases hh
    · rfl
  · cases h
    rfl
  · cases h
    rfl
  · rename_i data count _ _
    split at h <;> cases h
    · -- a byte is counted at least, if there is room for one
      by_contra hne
      have hroom : r.room g ≠ 0 := fun hzero => hne (by rw [hzero, List.take_zero])
      have hle : min (max 1 count) (r.room g) ≤ g.remaining :=
        Nat.le_trans (Nat.min_le_right ..) (r.room_le g)
      obtain ⟨n, hn⟩ : ∃ n, min (max 1 count) (r.room g) = n + 1 :=
        Nat.exists_eq_succ_of_ne_zero (by omega)
      rw [hn] at hh hle
      simp only [Grant.hear, g.advance_of_le hle] at hh
      cases hh
    · rfl
  · cases h
    rfl
  · cases h
    rfl
  · split at h <;> cases h
    rfl

/-- What a stream writes with a reply that counts nothing does not matter. -/
theorem Ring.Carries.receive_none {r : Ring} {d : Direction} {g : Grant} {bytes written : Bytes}
    (hc : r.Carries d ⟨g, bytes⟩) (hs : r.Sound) (hw : r.Accepts g written) :
    (r.receive g written).Carries d ⟨g, bytes⟩ ∧
      (r.receive g written).contents = r.contents := by
  have hdir : g.direction = d := hc.direction
  cases d with
  | put =>
    have hnone := hc.receive hs hw.1 (Nat.zero_le _)
    rw [List.take_zero, List.append_nil] at hnone
    exact ⟨hnone, hs.contents_receive hc.held hw.1 hc.moved_le⟩
  | take =>
    rw [hw.2 hdir]
    exact ⟨hc, rfl⟩

/-- The contents when a direction has moved bytes. -/
def Direction.moves (d : Direction) (contents bytes : Bytes) : Bytes :=
  match d with
  | .put => contents ++ bytes
  | .take => contents.drop bytes.length

theorem Ring.Carries.moves {r r' : Ring} {d : Direction} {g : Grant} {bytes : Bytes}
    {events : List Event} (hc : r.Carries d ⟨g, bytes⟩) (hs : r.Sound)
    (hok : r.commit g = .ok (r', events)) :
    r'.occupancy.held d = none ∧ r'.contents = d.moves r.contents bytes := by
  have hlen := hc.length_bytes hs
  have hcontents := hc.contents_commit hs hok
  have hdir : g.direction = d := hc.direction
  constructor
  · obtain ⟨o, ho, rfl, -⟩ := Ring.commit_ok hok
    exact hdir ▸ (commit_held ho).2
  · cases d with
    | put => exact hcontents
    | take => exact hcontents.trans (congrArg (r.contents.drop ·) hlen.symm)

namespace Machine

variable {m m' : Machine} {g : Grant} {place : Nat} {d : Direction} {bytes : Bytes}

/-- The step that ends a transfer commits its grant to the ring as it was, in whichever way it
ends. -/
theorem Exits.commit_eq (h : m.Exits place d g m') :
    ∃ events, (m.session.ring place).commit g = .ok (m'.session.ring place, events) := by
  cases h with
  | dropped waits more commit after marks other => exact ⟨_, after ▸ commit⟩
  | concluded focus holds grant concludes commit after marks answers =>
    cases concludes with
    | between idle left => exact ⟨_, after ▸ commit⟩
    | reply called response heard =>
      obtain rfl := Passage.respond_ends response heard
      rw [Ring.receive_nil] at commit
      exact ⟨_, after ▸ commit⟩

/-- A transfer leaves the ring with what it has moved, in whichever way it ends. -/
theorem Exits.commits (h : m.Exits place d g m') (hm : m.Sound)
    (hp : place < m.session.rings.size) (hc : (m.session.ring place).Carries d ⟨g, bytes⟩) :
    (m'.session.ring place).occupancy.held d = none ∧
      (m'.session.ring place).contents = d.moves (m.session.ring place).contents bytes := by
  obtain ⟨events, commit⟩ := h.commit_eq
  exact hc.moves (hm.orderly.custody.sound hp) commit

/-- A transfer that has concluded answers with its verdict: it is complete if nothing was left to
move, and exhausted if its last call moved nothing. -/
theorem Exits.verdict (h : m.Exits place d g m') (hm : m.Sound) {p : Passage}
    (hf : m.focus = .transfer p) (hh : p.transfer.holds place d) :
    ∃ ending calls polls standing events,
      m'.focus = .commands p.todo (p.done ++
        [⟨.settled ((p.transfer.request.verdict g.moved ending).result.map Value.ofCount) calls
          polls, standing, events⟩]) ∧
      (ending = .complete ↔ g.remaining = 0) ∧
      (ending = .exhausted ↔
        ∃ offer written, .replied g.direction offer written (.moved 0) ∈ m.marks place) := by
  cases h with
  | dropped waits more commit after marks other => exact absurd hh (other p hf)
  | concluded focus holds grant concludes commit after marks answers =>
    cases hf.symm.trans focus
    obtain ⟨calls, standing, events, hfocus⟩ := answers.focus
    refine ⟨_, calls, _, standing, events, hfocus, ?_⟩
    have hfinished (r : Ring) (e : Option Ending) offer written :
        Mark.replied g.direction offer written (.moved 0) ≠ r.finished g e :=
      (r.finished_ne_replied g e _ offer written _).symm
    rw [marks]
    cases concludes with
    | between idle left =>
      simp only [List.nil_append, List.mem_singleton, hfinished, exists_false, iff_false]
      rcases (hm.steady.focus p hf).next_leave grant left with ⟨rfl, hnone⟩ | ⟨rfl, hmore, -⟩ <;>
        simp [*]
    | @reply _ reply _ _ called response heard =>
      obtain ⟨hmore, -⟩ := (hm.steady.focus p hf).in_call grant called
      obtain ⟨-, hne⟩ := hear_ending heard
      refine ⟨by simp [hne, hmore], ?_⟩
      simp only [List.singleton_append, List.mem_cons, hfinished, List.not_mem_nil, or_false,
        hear_exhausted heard]
      constructor
      · rintro rfl
        exact ⟨_, _, rfl⟩
      · rintro ⟨_, _, heq⟩
        cases heq
        rfl

end Machine

end CyclicBuffer
