import CyclicBuffer.Proofs.Containment
import CyclicBuffer.Proofs.Coverage

/-!
# Reports that are believed

A machine keeps `Covers` with every step of a transfer and everything that is done beside it
(`Roams.covers`). What carries the induction is that the answer to a call closes it
(`Sound.closes`): whenever a stream reports, an offer has been made since the last bytes were
counted (`Roams.open`).
-/

namespace CyclicBuffer

open Occupancy

/-! ## Calls that are closed -/

/-- Between two calls no call is answered. -/
theorem Passage.marks_idle {p : Passage} {r : Ring} {s : Session} {d : Direction} {mark : Mark}
    (hidle : p.current = none) (h : mark ∈ p.marks r s) : ¬ mark.Replies d := by
  intro hd
  obtain ⟨g, written, reply, hg, -, hmarks, -⟩ := Passage.marks_replies h hd
  simp only [marks, hg, hidle, Option.isSome_none, Bool.false_eq_true, if_false, Ring.answered]
    at hmarks
  split at hmarks
  · have hhead := (List.cons.inj hmarks).1
    unfold Ring.finished at hhead
    split at hhead <;> cases hhead
  · cases hmarks

namespace Machine

variable {m m' : Machine} {p : Passage} {g : Grant} {place : Nat} {d : Direction}
  {marks : List Mark}

/-- If the focus is in no call, only suspended transfers are. -/
theorem calling_of_idle (h : ∀ q, m.focus = .transfer q → q.current = none) (place : Nat)
    (d : Direction) : m.calling place d = m.suspended.countP (Passage.calling place d) := by
  cases hf : m.focus with
  | commands todo done => exact calling_of_commands hf place d
  | transfer q =>
    have hnot : q.calling place d = false := by
      simp [Passage.calling, h q hf]
    rw [calling_of_transfer hf, hnot]
    exact Nat.zero_add _

theorem calling_hear (m : Machine) (p : Passage) (g : Grant) (reply : Reply) (place : Nat)
    (d : Direction) :
    (m.hear p g reply).calling place d = m.suspended.countP (Passage.calling place d) := by
  have hidle q (hf : (m.hear p g reply).focus = .transfer q) : q.current = none := by
    unfold hear at hf
    split at hf
    · cases hf
      rfl
    · cases hf
  rw [calling_of_idle hidle, suspended_hear]

theorem calling_wait (m : Machine) (p : Passage) (q : Polling) (place : Nat) (d : Direction) :
    (m.wait p q).calling place d = m.suspended.countP (Passage.calling place d) := by
  have hidle p' (hf : (m.wait p q).focus = .transfer p') : p'.current = none := by
    unfold wait at hf
    dsimp only at hf
    split at hf
    · cases hf
      rfl
    · split at hf <;> cases hf
  rw [calling_of_idle hidle, suspended_wait]

/-- Commands begin no call and close none. -/
theorem calling_obey_eq {name : Nat} {action : Action} {todo : List Command} {done : List Answer}
    (hf : m.focus = .commands (.on name action :: todo) done) (place : Nat) (d : Direction) :
    (m.obey name action todo done).calling place d = m.calling place d := by
  have hidle q (hq : (m.obey name action todo done).focus = .transfer q) : q.current = none := by
    have hpoll id again (hq : (m.poll name id again todo done).focus = .transfer q) :
        q.current = none := by
      unfold poll at hq
      split at hq <;> cases hq
      rfl
    cases action with
    | errand e => cases hq
    | transfer request stream =>
      unfold obey at hq
      dsimp only at hq
      split at hq <;> cases hq
      rfl
    | spawn id request stream token => cases hq
    | poll id => exact hpoll id false hq
    | run id => exact hpoll id true hq
    | cancel token => cases hq
  rw [calling_of_idle hidle, calling_of_commands hf]
  by_cases hcancel : ∃ token, action = .cancel token
  · obtain ⟨token, rfl⟩ := hcancel
    exact countP_wake token _ m.suspended place d
  · rw [m.suspended_obey name action todo done fun token he => hcancel ⟨token, he⟩]

/-- A report that can be counted leaves its own mark and no other. -/
theorem marks_moved {written : Bytes} {count : Nat} {stream : List Turn}
    (hf : m.focus = .transfer p) (hg : p.transfer.grant = some g) (hcall : p.current.isSome)
    (hrespond : p.respond g.direction ((m.session.ring p.transfer.ring).room g)
      = (.answer written (.moved count), stream))
    (hpos : 0 < count) (hle : count ≤ g.remaining) :
    m.marks p.transfer.ring = [.replied g.direction
      ((m.session.ring p.transfer.ring).offer g) written (.moved count)] := by
  simp only [marks, hf, Passage.marks, Passage.parks?, hg, hcall, hrespond, marksAt, if_true,
    List.append_nil, Ring.answered, Grant.hear_count hpos hle]

/-- A step of a transfer that answers a call of a stream is a turn in that call. -/
theorem calling_of_replies (hf : m.focus = .transfer p) {mark : Mark}
    (h : mark ∈ m.marks place) (hd : mark.Replies d) : p.calling place d = true := by
  simp only [marks, hf] at h
  rcases List.mem_append.1 h with hown | hother
  · unfold marksAt at hown
    split at hown
    · rename_i hplace
      obtain ⟨g, _, _, hg, hdirection, -⟩ := Passage.marks_replies hown hd
      have hcall : p.current.isSome := by
        by_contra hidle
        exact Passage.marks_idle (Option.not_isSome_iff_eq_none.1 hidle) hown hd
      simp [Passage.calling, Transfer.holds, hplace, hg, hdirection, hcall]
    · cases hown
  · split at hother
    · cases hother
    · exact absurd hd (Session.dropped_silent hother)

/-- Commands answer no call. -/
theorem silent_of_commands {todo : List Command} {done : List Answer}
    (hf : m.focus = .commands todo done) {mark : Mark} (h : mark ∈ m.marks place) :
    ¬ mark.Replies d := by
  unfold marks at h
  rw [hf] at h
  cases todo with
  | nil => cases h
  | cons command todo =>
    obtain ⟨name, action⟩ := command
    exact Session.marks_silent h

/-- One machine has no more calls of a stream under way than another, and fewer if the next step of
that one answers a call. -/
structure Closes (m : Machine) (place : Nat) (d : Direction) (m' : Machine) : Prop where
  le : m'.calling place d ≤ m.calling place d
  lt : ∀ mark ∈ m.marks place, mark.Replies d → m'.calling place d < m.calling place d

/-- The focus is in no call any more, and the calls of suspended transfers stay as they are. -/
theorem closes_of_left (hf : m.focus = .transfer p)
    (hkept : m'.calling place d = m.suspended.countP (Passage.calling place d)) :
    m.Closes place d m' := by
  constructor
  · rw [hkept, calling_of_transfer hf]
    exact Nat.le_add_left ..
  · intro mark hmem hmark
    rw [hkept, calling_of_transfer hf, if_pos (calling_of_replies hf hmem hmark)]
    omega

/-- What answers no call and begins none. -/
theorem closes_of_silent (hkept : m'.calling place d = m.calling place d)
    (hsilent : ∀ mark ∈ m.marks place, ¬ mark.Replies d) : m.Closes place d m' where
  le := Nat.le_of_eq hkept
  lt mark hmem hmark := absurd hmark (hsilent mark hmem)

theorem closes_turn (hf : m.focus = .transfer p) (hg : p.transfer.grant = some g)
    (hcall : p.current.isSome) : m.Closes place d (m.turn p g) := by
  cases hr : p.respond g.direction ((m.session.ring p.transfer.ring).room g) with
  | mk response stream =>
    cases response with
    | answer written reply =>
      refine closes_of_left hf ?_
      simp only [turn_eq, hr]
      exact calling_hear ..
    | wait q =>
      refine closes_of_left hf ?_
      simp only [turn_eq, hr]
      exact calling_wait ..
    | perform commands =>
      refine closes_of_silent ?_ ?_
      · rw [calling_of_transfer hf, turn_eq, hr, calling_of_commands rfl, List.countP_cons,
          Nat.add_comm]
        rfl
      · intro mark hmem
        simp [marks, hf, Passage.marks, Passage.parks?, hg, hcall, hr, marksAt] at hmem

theorem closes_offer (hf : m.focus = .transfer p) (hg : p.transfer.grant = some g)
    (hidle : p.current = none) (hnone : ∀ offer, .offered d offer ∉ m.marks place) :
    m.Closes place d (m.offer p g) := by
  cases hn : p.next m.session g with
  | leave ending =>
    refine closes_of_left hf ?_
    have hover : m.offer p g = m.settle p g ending := by simp only [offer, hn]
    rw [hover]
    exact calling_of_commands rfl place d
  | call polling =>
    -- the call that begins is one of another stream
    have hother : p.transfer.holds place d = false := by
      refine Bool.eq_false_iff.2 fun hholds => ?_
      obtain ⟨rfl, rfl⟩ : p.transfer.ring = place ∧ g.direction = d := by
        simpa [Transfer.holds, hg] using hholds
      refine hnone ((m.session.ring p.transfer.ring).offer g) ?_
      simp [marks, hf, Passage.marks, Passage.parks?, hg, hidle, hn, marksAt]
    have hnot : Passage.calling place d
        { p with polling, current := some ⟨(m.session.ring p.transfer.ring).offer g, []⟩ }
          = false := by
      simp [Passage.calling, hother]
    refine closes_of_left hf ?_
    rw [offer_begins hn, calling_of_transfer rfl, hnot]
    exact Nat.zero_add _

/-- Unless a call begins, there are no more under way than before, and fewer if one is answered. -/
theorem Sound.closes (hm : m.Sound) (hs : m.step = some m')
    (hnone : ∀ offer, .offered d offer ∉ m.marks place) : m.Closes place d m' := by
  cases step_iff.1 hs with
  | @resume p rest done hf hsus =>
    refine closes_of_silent ?_ fun mark hmem => silent_of_commands hf hmem
    have hresume : (p.resume done).calling place d = p.calling place d := by
      simp [Passage.calling, Passage.resume]
    rw [calling_of_commands hf, calling_of_transfer rfl, hsus, List.countP_cons, hresume]
    exact Nat.add_comm ..
  | obey hf =>
    exact closes_of_silent (calling_obey_eq hf place d) fun mark hmem => silent_of_commands hf hmem
  | @start p hf hg =>
    have hidle : p.current = none := (hm.steady.focus p hf).idle hg
    have hfocus q (hq : (m.start p).focus = .transfer q) : q.current = none := by
      unfold start at hq
      dsimp only at hq
      split at hq <;> cases hq
      exact hidle
    refine closes_of_left hf ?_
    rw [calling_of_idle hfocus, suspended_start]
  | turn hf hg hcall => exact closes_turn hf hg hcall
  | offer hf hg hidle => exact closes_offer hf hg hidle hnone

/-! ## Runs -/

/-- What a source writes without an answer begins no call and reports nothing. -/
theorem Scribbles.mute (h : m.Scribbles place marks m') (d : Direction) :
    (∀ offer, .offered d offer ∉ marks) ∧ reportedOf d marks = 0 ∧ excessOf d marks = 0 := by
  cases h
  unfold marksAt
  split
  · simp [Ring.scribbled, reportedOf, excessOf, Mark.reported, Mark.excess]
  · exact ⟨fun _ => List.not_mem_nil, rfl, rfl⟩

/-- While a call is under way, the next byte to be counted is one that its stream was offered. -/
theorem Roams.open (h : m.Roams place marks m') (hm : m.Sound) (hp : place < m.session.rings.size)
    (hg : m.grants place d = [g]) (hlive : ∀ mark ∈ marks, ¬ mark.Ends d)
    (hidle : m.calling place d = 0) (hcall : 0 < m'.calling place d) : Open d marks := by
  induction h with
  | refl => omega
  | @stir past more m₁ m₂ hroams hstir ih =>
    rw [List.forall_mem_append] at hlive
    cases hstir with
    | scribble hw =>
      obtain ⟨-, hsame⟩ := hw.same place d
      exact (ih hlive.1 (hsame ▸ hcall)).beside (hw.mute d).2.1
    | step hs =>
      by_cases hoffer : ∃ offer, .offered d offer ∈ m₁.marks place
      · obtain ⟨offer, hmem⟩ := hoffer
        obtain ⟨_, _, -, hbegins⟩ := marks_offered hmem
        rw [hbegins.marks_eq]
        exact Open.offered d past offer
      · obtain ⟨hle, hlt⟩ : m₁.Closes place d m₂ :=
          (hroams.sound hm).closes hs fun offer hmem => hoffer ⟨offer, hmem⟩
        have hone := calling_le_one (hroams.counts hm hp hg hlive.1)
        refine (ih hlive.1 (by omega)).beside (reportedOf_eq_zero fun mark hmem hmark => ?_)
        have hfewer := hlt mark hmem hmark
        omega

end Machine

/-! ## What is offered and what is counted -/

/-- What a call is offered when `moved` bytes of a region have been counted: the cells that come
next, up to the end of the buffer. A sink is offered the bytes that were there when the region was
granted. -/
structure Presents (granted : Ring) (d : Direction) (region : Region) (moved : Nat)
    (offer : Offer) : Prop where
  size : offer.size = reach (granted.capacity - region.offset) region.count moved
  chunk : offer.size = ((⟨d, region, moved⟩ : Grant).chunk granted.capacity).length
  bytes : ∀ data, offer = .bytes data → data = (granted.contents.drop moved).take offer.size

/-- The `i`-th byte of a region was in a buffer that was passed to the stream, which was the `i`-th
cell of the region there too. A sink was passed the byte itself. -/
def Shown (granted : Ring) (d : Direction) (region : Region) (marks : List Mark) (i : Nat) : Prop :=
  ∃ moved offer j, (moved, offer) ∈ offersOf d 0 marks ∧ j < offer.size ∧ moved + j = i ∧
    offer.size = ((⟨d, region, moved⟩ : Grant).chunk granted.capacity).length ∧
    ((⟨d, region, moved⟩ : Grant).chunk granted.capacity).offset + j
      = region.cell granted.capacity i ∧
    ∀ data, offer = .bytes data → data[j]? = granted.contents[i]?

namespace Machine

variable {m m' : Machine} {g : Grant} {place moved : Nat} {d : Direction} {region : Region}
  {marks : List Mark}

/-- A transfer that goes on holds its region and has counted what was reported. -/
theorem Roams.holds (h : m.Roams place marks m') (hm : m.Sound)
    (hp : place < m.session.rings.size) (hg : m.grants place d = [⟨d, region, 0⟩])
    (hlive : ∀ mark ∈ marks, ¬ mark.Ends d) :
    m'.grants place d = [⟨d, region, reportedOf d marks⟩] ∧
      (m'.session.ring place).Sound ∧ (m'.session.ring place).occupancy.held d = some region ∧
      reportedOf d marks ≤ region.count := by
  have hm' := h.sound hm
  have hk := hm'.orderly.custody.keeps place
  have hg' : m'.grants place d = [⟨d, region, reportedOf d marks⟩] := by
    rw [h.counts hm hp hg hlive, Nat.zero_add]
  have hheld : (m'.session.ring place).occupancy.held d = some region := hk.held_eq hg'
  exact ⟨hg', hm'.orderly.custody.sound (h.deeds hm hp).1, hheld, hk.fits hg' region hheld⟩

/-- What the next call is offered ends with the region or at the end of the buffer. -/
theorem Roams.room_eq (h : m.Roams place marks m') (hm : m.Sound)
    (hp : place < m.session.rings.size) (hg : m.grants place d = [⟨d, region, 0⟩])
    (hlive : ∀ mark ∈ marks, ¬ mark.Ends d) :
    (m'.session.ring place).room ⟨d, region, reportedOf d marks⟩
      = reach ((m.session.ring place).capacity - region.offset) region.count
        (reportedOf d marks) := by
  obtain ⟨-, hs, hheld, hle⟩ := h.holds hm hp hg hlive
  rw [← h.capacity hm hp]
  exact hs.room_eq hheld hle

/-- A take goes on with the bytes that it was granted, and others only come behind them. -/
theorem Roams.contents_take (h : m.Roams place marks m') (hm : m.Sound)
    (hp : place < m.session.rings.size) (hg : m.grants place .take = [g])
    (hlive : ∀ mark ∈ marks, ¬ mark.Ends .take) :
    (m'.session.ring place).contents = (m.session.ring place).contents ++ enteredOf marks := by
  obtain ⟨-, hds⟩ := h.deeds hm hp
  have hs := hm.orderly.custody.sound hp
  have hk := hm.orderly.custody.keeps place
  have hconserves := hds.conserves hs hk
  rwa [hds.left_eq_nil hs hk hg hlive, List.nil_append] at hconserves

/-- A call that begins after a transfer was granted its region is offered what comes next. -/
theorem Roams.presents_next (h : m.Roams place marks m') (hm : m.Sound)
    (hp : place < m.session.rings.size) (hg : m.grants place d = [⟨d, region, 0⟩])
    (hlive : ∀ mark ∈ marks, ¬ mark.Ends d) {offer : Offer}
    (hoffer : .offered d offer ∈ m'.marks place) :
    Presents (m.session.ring place) d region (reportedOf d marks) offer := by
  obtain ⟨hg', hs, hheld, hle⟩ := h.holds hm hp hg hlive
  have hoffers := (h.sound hm).offers hg' hoffer
  refine ⟨?_, ?_, ?_⟩
  · exact hoffers.chunk.trans (h.room_eq hm hp hg hlive)
  · rw [← h.capacity hm hp]
    exact hoffers.chunk
  · rintro data rfl
    have heq := hoffers.eq
    have hsize : data.length = (m'.session.ring place).room ⟨d, region, reportedOf d marks⟩ :=
      hoffers.chunk
    cases d with
    | put => cases heq
    | take =>
      cases heq
      have hroom := (m'.session.ring place).room_le ⟨.take, region, reportedOf .take marks⟩
      have hcount : region.count ≤ (m.session.ring place).contents.length := by
        rw [(hm.orderly.custody.sound hp).length_contents]
        exact ((hm.orderly.custody.sound hp).coherent.taking _
          ((hm.orderly.custody.keeps place).held_eq hg)).2
      have hoffered : (m'.session.ring place).offered ⟨.take, region, reportedOf .take marks⟩
          = ((m'.session.ring place).contents.drop (reportedOf .take marks)).take
            ((m'.session.ring place).room ⟨.take, region, reportedOf .take marks⟩) :=
        hs.offered_take (g := ⟨.take, region, reportedOf .take marks⟩) hheld hle
      simp only [Grant.remaining] at hroom
      rw [← hsize] at hroom hoffered
      rw [h.contents_take hm hp hg hlive, List.drop_append_of_le_length (by omega),
        List.take_append_of_le_length (by rw [List.length_drop]; omega)] at hoffered
      exact hoffered

theorem Roams.presents (h : m.Roams place marks m') (hm : m.Sound)
    (hp : place < m.session.rings.size) (hg : m.grants place d = [⟨d, region, 0⟩])
    (hlive : ∀ mark ∈ marks, ¬ mark.Ends d) {offer : Offer}
    (hoffer : (moved, offer) ∈ offersOf d 0 marks) :
    Presents (m.session.ring place) d region moved offer := by
  induction h with
  | refl => cases hoffer
  | @stir past more m₁ m₂ hroams hstir ih =>
    rw [List.forall_mem_append] at hlive
    rw [offersOf_append, Nat.zero_add] at hoffer
    rcases List.mem_append.1 hoffer with hold | hnew
    · exact ih hlive.1 hold
    cases hstir with
    | scribble hw =>
      rw [offersOf_eq_nil (hw.mute d).1] at hnew
      cases hnew
    | step hs =>
      by_cases hbegins : ∃ next, .offered d next ∈ m₁.marks place
      · obtain ⟨next, hnext⟩ := hbegins
        obtain ⟨_, _, -, hb⟩ := marks_offered hnext
        obtain ⟨rfl, rfl⟩ : moved = reportedOf d past ∧ offer = next := by
          rw [hb.marks_eq] at hnew
          simpa [offersOf, Mark.offering] using hnew
        exact hroams.presents_next hm hp hg hlive.1 hnext
      · rw [offersOf_eq_nil fun next hnext => hbegins ⟨next, hnext⟩] at hnew
        cases hnew

/-- A reply that keeps the transfer going is counted as a call reports that was offered the next
bytes. -/
theorem Roams.covers_reply (h : m.Roams place marks m') (hm : m.Sound)
    (hp : place < m.session.rings.size) (hg : m.grants place d = [⟨d, region, 0⟩])
    (hidle : m.calling place d = 0) (hlive : ∀ mark ∈ marks, ¬ mark.Ends d)
    (hcovers : Covers ((m.session.ring place).capacity - region.offset) d marks)
    (hcall : 0 < m'.calling place d) {reply : Reply}
    (hgoes : ((⟨d, region, reportedOf d marks⟩ : Grant).hear reply).2 = none) (written : Bytes) :
    Covers ((m.session.ring place).capacity - region.offset) d
      (marks ++ [.replied d ((m'.session.ring place).offer ⟨d, region, reportedOf d marks⟩) written
        reply]) := by
  cases reply with
  | moved count =>
    obtain ⟨hg', hs, hheld, -⟩ := h.holds hm hp hg hlive
    have hopen := h.open hm hp hg hlive hidle hcall
    have hcount : count ≤ region.count - reportedOf d marks := Grant.le_of_hear_count hgoes
    have hmore : (⟨d, region, reportedOf d marks⟩ : Grant).remaining ≠ 0 := by
      intro hzero
      have hcalls := (h.sound hm).calling_le hg'
      omega
    refine hcovers.reply hopen (fun k offer hmem => ?_) ?_ written hcount
    · exact (h.presents hm hp hg hlive hmem).size
    · exact (hs.offers hheld hmore).chunk.trans (h.room_eq hm hp hg hlive)
  | failed e =>
    exact hcovers.beside (by simp) (by simp [reportedOf, Mark.reported])
      (by simp [excessOf, Mark.excess])
  | raised text => cases hgoes

/-- What is counted while a transfer goes on is what was offered, but for the first bytes behind the
end of the buffer. -/
theorem Roams.covers (h : m.Roams place marks m') (hm : m.Sound)
    (hp : place < m.session.rings.size) (hg : m.grants place d = [⟨d, region, 0⟩])
    (hidle : m.calling place d = 0) (hlive : ∀ mark ∈ marks, ¬ mark.Ends d) :
    Covers ((m.session.ring place).capacity - region.offset) d marks := by
  induction h with
  | refl => exact covers_nil ..
  | @stir past more m₁ m₂ hroams hstir ih =>
    rw [List.forall_mem_append] at hlive
    have hcovers := ih hlive.1
    have hm₁ := hroams.sound hm
    obtain ⟨hg₁, -⟩ := hroams.holds hm hp hg hlive.1
    cases hstir with
    | scribble hw =>
      obtain ⟨hnone, hreported, hexcess⟩ := hw.mute d
      exact hcovers.beside hnone hreported hexcess
    | step hs =>
      by_cases hbegins : ∃ next, .offered d next ∈ m₁.marks place
      · obtain ⟨next, hnext⟩ := hbegins
        obtain ⟨_, _, -, hb⟩ := marks_offered hnext
        rw [hb.marks_eq]
        exact hcovers.offer (hroams.presents_next hm hp hg hlive.1 hnext).size
      have hnone next (hnext : .offered d next ∈ m₁.marks place) : False := hbegins ⟨next, hnext⟩
      rcases (Stirs.step hs).replies hm₁ hg₁ hlive.2 with hquiet | ⟨written, reply, hmarks, hgoes⟩
      · exact hcovers.beside hnone (reportedOf_eq_zero hquiet) (excessOf_eq_zero hquiet)
      · have hcloses : m₁.Closes place d m₂ := hm₁.closes hs hnone
        have hcall : 0 < m₁.calling place d :=
          Nat.zero_lt_of_lt (hcloses.lt (.replied d _ written reply)
            (by rw [hmarks]; exact List.mem_singleton_self _) rfl)
        rw [hmarks]
        exact hroams.covers_reply hm hp hg hidle hlive.1 hcovers hcall hgoes written

theorem Roams.shown_iff (h : m.Roams place marks m') (hm : m.Sound)
    (hp : place < m.session.rings.size) (hg : m.grants place d = [⟨d, region, 0⟩])
    (hlive : ∀ mark ∈ marks, ¬ mark.Ends d) {i : Nat} :
    Shown (m.session.ring place) d region marks i ↔ Covered d marks i := by
  constructor
  · rintro ⟨moved, offer, j, hmem, hj, rfl, -⟩
    exact ⟨moved, offer, hmem, by omega, by omega⟩
  · rintro ⟨moved, offer, hmem, hle, hlt⟩
    obtain ⟨-, hchunk, hbytes⟩ := h.presents hm hp hg hlive hmem
    obtain ⟨j, rfl⟩ := Nat.exists_eq_add_of_le hle
    have hj : j < offer.size := by omega
    refine ⟨moved, offer, j, hmem, hj, rfl, hchunk, ?_, ?_⟩
    · exact (Ring.chunk_cell (g := ⟨d, region, moved⟩) (by omega)).1
    · intro data hdata
      rw [hbytes data hdata, List.getElem?_take_of_lt hj, List.getElem?_drop]

/-! ## Transfers -/

/-- What is counted of a transfer that holds a region of a ring, whatever its stream does: the ring
was `granted` when the region had been granted, and these marks have been left on it since then. -/
structure Believes (m : Machine) (place : Nat) (d : Direction) (region : Region) (granted : Ring)
    (marks : List Mark) : Prop where
  counted : m.grants place d = [⟨d, region, reportedOf d marks⟩] ∧
    reportedOf d marks ≤ region.count
  /-- Of the bytes that are counted those were passed to the stream that do not belong to the
  excess, which begins with the first cell of the buffer. -/
  shown : ∀ i < reportedOf d marks, Shown granted d region marks i ↔
    i < granted.capacity - region.offset ∨
      granted.capacity - region.offset + excessOf d marks ≤ i
  excess : excessOf d marks ≠ 0 →
    granted.capacity - region.offset + excessOf d marks ≤ reportedOf d marks
  /-- A report of no more than is left is counted, also if the stream was offered less. Then it was
  offered the bytes up to the end of the buffer. -/
  believed : ∀ p written count stream, m.focus = .transfer p → p.transfer.holds place d →
    p.current.isSome →
    p.respond d ((m.session.ring place).room ⟨d, region, reportedOf d marks⟩)
      = (.answer written (.moved count), stream) →
    0 < count → count ≤ region.count - reportedOf d marks →
    ∃ m', m.step = some m' ∧ m'.grants place d = [⟨d, region, reportedOf d marks + count⟩] ∧
      ((m.session.ring place).room ⟨d, region, reportedOf d marks⟩ < count →
        reportedOf d marks + (m.session.ring place).room ⟨d, region, reportedOf d marks⟩
          = granted.capacity - region.offset)
  /-- A report of more than is left breaks a rule and ends the transfer. -/
  stopped : ∀ p written count stream, m.focus = .transfer p → p.transfer.holds place d →
    p.current.isSome →
    p.respond d ((m.session.ring place).room ⟨d, region, reportedOf d marks⟩)
      = (.answer written (.moved count), stream) →
    region.count - reportedOf d marks < count →
    ∃ m' calls polls standing events, m.step = some m' ∧ m'.grants place d = [] ∧
      m'.focus = .commands p.todo
        (p.done ++ [⟨.settled (.error (.fault .pastEnd)) calls polls, standing, events⟩])
  /-- When the transfer is over, however it ends, the bytes that are counted are published or
  released, and no others. Those that are released are the ones that were granted. -/
  commits : ∀ m', m.step = some m' → m'.grants place d = [] →
    (m'.session.ring place).contents = d.moves (m.session.ring place).contents
      ((m'.session.ring place).storage.around region.offset (reportedOf d marks)) ∧
    (d = .take → granted.contents <+: (m.session.ring place).contents)

/-- A transfer that is granted its region has not called its stream. -/
theorem Sound.starts_idle {p : Passage} {ring : Ring} {events : List Event} {count : Nat}
    (hm : m.Sound) (hf : m.focus = .transfer p) (hnew : p.transfer.grant = none)
    (hr : (m.session.ring p.transfer.ring).reserve d count = .ok (g, ring, events))
    (hs : m.step = some m') : m'.calling p.transfer.ring d = 0 := by
  have hknown := (hm.orderly.custody.fits _ (focus_mem hf)).known
  obtain ⟨_, _, hro, -, -, -⟩ := Ring.reserve_ok hr
  have hfree := ((hm.orderly.custody.sound hknown).coherent.reserve_held hro).1
  have hgrants : grantsOf m.transfers p.transfer.ring d = [] := by
    have hheld := (hm.orderly.custody.keeps p.transfer.ring).held d
    rw [hfree] at hheld
    exact List.map_eq_nil_iff.1 hheld
  have hbefore := m.calling_le_holders p.transfer.ring d
  rw [grantsOf_eq_nil.1 hgrants] at hbefore
  have hafter : m'.calling p.transfer.ring d ≤ m.calling p.transfer.ring d :=
    (hm.closes hs (not_offered_of_new hf hnew)).le
  exact Nat.le_zero.1 (Nat.le_trans hafter hbefore)

/-- **Reports are believed up to what is left, not to what was offered.** Let a transfer be granted
a region, wherever commands and unruly sources have led. Until it is over, whatever its stream
writes and reports and whatever else is done, it has counted what was reported, which is no more
than was granted. The bytes that are counted were passed to the stream before, in the cells where
they belong, but for those that a call reported in excess of what it was offered. Such a call was
offered the bytes up to the end of the buffer, and the excess lies behind it. A report of more than
is left is not counted and ends the transfer; and at the end what is counted is published or
released. -/
theorem reachable_believes {tokens : Tokens} {commands : List Command} {origin : Nat}
    {before : List Mark} {m₀ m₁ m₂ : Machine} {p : Passage} {ring : Ring} {events : List Event}
    (h₀ : (load tokens commands).Roams origin before m₀) (hf : m₀.focus = .transfer p)
    (hnew : p.transfer.grant = none) (hd : p.transfer.request.purpose.direction = d)
    (hr : (m₀.session.ring p.transfer.ring).reserve d p.transfer.request.count
      = .ok (g, ring, events))
    (hs : m₀.step = some m₁) (hroams : m₁.Roams p.transfer.ring marks m₂)
    (hlive : ∀ mark ∈ marks, ¬ mark.Ends d) :
    g.region.count = p.transfer.request.count ∧
      m₂.Believes p.transfer.ring d g.region ring marks := by
  have hm₀ := h₀.sound_load
  have hm₁ := hm₀.step hs
  have hm₂ := hroams.sound hm₁
  obtain ⟨-, hp₁, hring, hg, -⟩ := hm₀.starts hf hnew rfl hd hr hs
  have hidle := hm₀.starts_idle hf hnew hr hs
  have hcount := (Ring.reserve_grant hr).2.1
  obtain ⟨region, -, -, hgrant, -, -⟩ := Ring.reserve_ok hr
  subst hgrant hring
  have hcovers := hroams.covers hm₁ hp₁ hg hidle hlive
  obtain ⟨hcounts, hs₂, hheld, hle⟩ := hroams.holds hm₁ hp₁ hg hlive
  have hp₂ := (hroams.deeds hm₁ hp₁).1
  have hroom := hroams.room_eq hm₁ hp₁ hg hlive
  have hgrant {q : Passage} (hfq : m₂.focus = .transfer q)
      (hholds : q.transfer.holds p.transfer.ring d) :
      q.transfer.ring = p.transfer.ring ∧
        q.transfer.grant = some ⟨d, region, reportedOf d marks⟩ := by
    obtain ⟨hq, hgq, -⟩ := hm₂.grant_eq (focus_mem hfq) hholds hcounts
    exact ⟨hq, hgq⟩
  refine ⟨hcount, ⟨hcounts, hle⟩, ?shown, ?excess, ?believed, ?stopped, ?commits⟩
  case shown =>
    intro i hi
    rw [hroams.shown_iff hm₁ hp₁ hg hlive]
    exact ⟨hcovers.offered i, hcovers.counted i hi⟩
  case excess =>
    intro hexcess
    refine hcovers.late (Nat.le_of_not_lt fun hlt => ?_)
    exact hexcess (hcovers.early hlt).1
  case believed =>
    intro q written count stream hfq hholds hcall hrespond hpos hfits
    obtain ⟨hq, hgq⟩ := hgrant hfq hholds
    have hstep := step_iff.2 (.turn hfq hgq hcall)
    have hmarks := marks_moved hfq hgq hcall (hq.symm ▸ hrespond) hpos hfits
    rw [hq] at hmarks
    refine ⟨_, hstep, ?_, ?_⟩
    · rw [(Stirs.step hstep).counts hm₂ hp₂ hcounts (by simp [hmarks, Mark.Ends]), hmarks]
      simp [reportedOf, Mark.reported]
    · intro hlt
      simp only [reach] at hroom
      dsimp only at hfits hlt ⊢
      split at hroom
      · omega
      · omega
  case stopped =>
    intro q written count stream hfq hholds hcall hrespond hlt
    obtain ⟨hq, hgq⟩ := hgrant hfq hholds
    rw [← hq] at hrespond ⊢
    obtain ⟨m₃, hs₃, hover, hend⟩ := hm₂.overclaim hfq hgq hcall hrespond hlt
    obtain ⟨polls, standing, events, hfocus, -⟩ := hend.answer
    exact ⟨m₃, _, polls, standing, events, hs₃, hover, hfocus⟩
  case commits =>
    intro m₃ hs₃ hover
    obtain ⟨events, hc⟩ := (hm₂.exits hs₃ hp₂ hcounts hover).commit_eq
    obtain ⟨_, -, hring₃, -⟩ := Ring.commit_ok hc
    have hstorage : (m₃.session.ring p.transfer.ring).storage
        = (m₂.session.ring p.transfer.ring).storage := by rw [hring₃]
    rw [hstorage]
    refine ⟨hs₂.contents_commit hheld hle hc, ?_⟩
    rintro rfl
    rw [hroams.contents_take hm₁ hp₁ hg hlive]
    exact List.prefix_append ..

/-- A source of three bytes claims two in its first call, which offers it the last cell of the
buffer, and writes the third where it belongs. -/
def claimingFill : List Command :=
  [.on 0 (.errand (.create ⟨4, false, none⟩)), .on 0 (.errand (.operate (.put [1, 2, 3]))),
    .on 0 (.errand (.operate (.skip 2))), .on 0 (.transfer ⟨.fill, 3⟩ [.claim 2, .deliver [9]])]

theorem reachable_believes_claimingFill :
    ((load .plain claimingFill).after 9).grants 0 .put = [⟨.put, ⟨3, 3⟩, 3⟩] ∧
      (∀ i < 3, Shown (((load .plain claimingFill).after 5).session.ring 0) .put ⟨3, 3⟩
        (((load .plain claimingFill).after 5).chronicle 0 4) i ↔ i ≠ 1) ∧
      (((load .plain claimingFill).after 10).session.ring 0).contents = [3] ++ [0, 1, 9] := by
  have hsteps : ((load .plain claimingFill).after 5).Roams 0
      (((load .plain claimingFill).after 5).chronicle 0 4) ((load .plain claimingFill).after 9) :=
    (passes_after _ 0 4).roams
  have hbelieves : ((load .plain claimingFill).after 9).Believes 0 .put ⟨3, 3⟩
      (((load .plain claimingFill).after 5).session.ring 0)
      (((load .plain claimingFill).after 5).chronicle 0 4) :=
    (reachable_believes (passes_after (load .plain claimingFill) 0 4).roams rfl rfl rfl rfl rfl
      hsteps (by decide +kernel)).2
  have hcount : reportedOf .put (((load .plain claimingFill).after 5).chronicle 0 4) = 3 := by
    decide +kernel
  have hexcess : excessOf .put (((load .plain claimingFill).after 5).chronicle 0 4) = 1 := by
    decide +kernel
  have hcapacity : (((load .plain claimingFill).after 5).session.ring 0).capacity = 4 := by
    decide +kernel
  obtain ⟨hcontents, -⟩ := hbelieves.commits ((load .plain claimingFill).after 10) rfl rfl
  refine ⟨hbelieves.counted.1, fun i hi => ?_, hcontents⟩
  have hshown := hbelieves.shown i (hcount.symm ▸ hi)
  rw [hexcess, hcapacity] at hshown
  refine hshown.trans ?_
  dsimp only
  omega

/-- A source claims all the three bytes of its region in one call, which offers it the last cell of
the buffer. The two others are published as they lie there. -/
theorem skippingFill_publishes_unoffered :
    let commands : List Command :=
      [.on 0 (.errand (.create ⟨4, false, none⟩)), .on 0 (.errand (.operate (.put [1, 2, 3]))),
        .on 0 (.errand (.operate (.skip 2))), .on 0 (.transfer ⟨.fill, 3⟩ [.claim 3])]
    let m := (load .plain commands).after 8
    offersOf .put 0 ((load .plain commands).chronicle 0 8) = [(0, .room 1)] ∧
      (m.session.ring 0).contents = [3, 0, 1, 2] ∧ m.grants 0 .put = [] := by
  decide +kernel

end Machine

end CyclicBuffer
