import CyclicBuffer.Proofs.Reports
import CyclicBuffer.Proofs.Suspension

/-!
# How often a stream is called

A transfer has no counter: it calls its stream until nothing is left to move. What bounds the number
of its calls is what they answer. A call that keeps the transfer going has counted a byte at least,
or was interrupted, or made its caller wait; and a call that is under way has a byte left to move
(`Sound.calling_le`). So the calls are at most as many as the bytes asked for, the interruptions and
the waits together, whatever the stream reports (`Wanders.calls_bounded`).

`Wanders` is a run in which sources may write without an answer; only steps leave marks.
-/

namespace CyclicBuffer

open Occupancy

/-! ## Counting marks -/

namespace Mark

/-- A call of the stream of a direction begins. -/
def calls (d : Direction) : Mark → Bool
  | .offered e _ => e == d
  | _ => false

/-- A call of the stream of a direction is interrupted. -/
def interrupts (d : Direction) : Mark → Bool
  | .replied e _ _ (.failed error) => e == d && error.cause == .interrupted
  | _ => false

/-- A call of the stream of a direction makes its caller wait. -/
def waits (d : Direction) : Mark → Bool
  | .waited e => e == d
  | _ => false

end Mark

/-- The number of calls that begin. -/
def callsOf (d : Direction) (marks : List Mark) : Nat := marks.countP (Mark.calls d)

def interruptionsOf (d : Direction) (marks : List Mark) : Nat := marks.countP (Mark.interrupts d)

def waitsOf (d : Direction) (marks : List Mark) : Nat := marks.countP (Mark.waits d)

/-- The number of bytes that a stream can move in a call. -/
def Offer.size : Offer → Nat
  | .room length => length
  | .bytes data => data.length

section
variable {d : Direction} {marks more : List Mark}

theorem callsOf_append (d : Direction) (marks more : List Mark) :
    callsOf d (marks ++ more) = callsOf d marks + callsOf d more :=
  List.countP_append

theorem interruptionsOf_append (d : Direction) (marks more : List Mark) :
    interruptionsOf d (marks ++ more) = interruptionsOf d marks + interruptionsOf d more :=
  List.countP_append

theorem waitsOf_append (d : Direction) (marks more : List Mark) :
    waitsOf d (marks ++ more) = waitsOf d marks + waitsOf d more :=
  List.countP_append

theorem callsOf_eq_zero : callsOf d marks = 0 ↔ ∀ offer, .offered d offer ∉ marks := by
  rw [callsOf, List.countP_eq_zero]
  constructor
  · intro h offer hmem
    exact h _ hmem (by simp [Mark.calls])
  · intro h mark hmem hcalls
    cases mark with
    | offered e offer =>
      obtain rfl : e = d := by simpa [Mark.calls] using hcalls
      exact h offer hmem
    | _ => cases hcalls

end

/-- The step of a transfer that begins a call does nothing else. -/
theorem Passage.marks_offered {p : Passage} {r : Ring} {s : Session} {d : Direction}
    {offer : Offer} (h : .offered d offer ∈ p.marks r s) :
    ∃ g, p.transfer.grant = some g ∧ g.direction = d ∧ p.current = none ∧
      (∃ polling, p.next s g = .call polling) ∧ offer = r.offer g ∧
      p.marks r s = [.offered d offer] ∧ p.parks? r = none := by
  have hfinished (r : Ring) (g : Grant) (ending : Option Ending) :
      .offered d offer ∉ [r.finished g ending] := by
    rw [List.mem_singleton]
    unfold Ring.finished
    split <;> simp
  cases hg : p.transfer.grant with
  | none =>
    simp only [marks, hg] at h
    split at h
    · cases h
    · have he := List.mem_singleton.1 h
      unfold Ring.begun at he
      split at he <;> cases he
  | some g =>
    simp only [marks, parks?, hg] at h ⊢
    by_cases hcur : p.current.isSome
    · simp only [hcur, if_true] at h
      split at h
      · rcases List.mem_cons.1 h with he | h
        · cases he
        · split at h
          · cases h
          · exact absurd h (hfinished _ _ _)
      · cases h
      · cases List.mem_singleton.1 h
    · simp only [hcur, Bool.false_eq_true, if_false] at h ⊢
      split at h
      · exact absurd h (hfinished _ _ _)
      · rename_i hn
        cases List.mem_singleton.1 h
        simp [Option.not_isSome_iff_eq_none.1 hcur, hn]

/-! ## Calls under way -/

/-- The stream of a passage that holds a direction of a ring is in a call. -/
def Passage.calling (place : Nat) (d : Direction) (p : Passage) : Bool :=
  p.transfer.holds place d && p.current.isSome

namespace Machine

/-- The number of calls of the stream of a direction that are under way. -/
def calling (m : Machine) (place : Nat) (d : Direction) : Nat :=
  m.passages.countP (Passage.calling place d)

variable {m m' : Machine} {p : Passage} {g : Grant} {place : Nat} {d : Direction}
  {marks : List Mark}

theorem le_calling (m : Machine) (place : Nat) (d : Direction) :
    m.suspended.countP (Passage.calling place d) ≤ m.calling place d := by
  rw [calling, passages, List.countP_append]
  exact Nat.le_add_left ..

theorem calling_of_commands {todo : List Command} {done : List Answer}
    (hf : m.focus = .commands todo done) (place : Nat) (d : Direction) :
    m.calling place d = m.suspended.countP (Passage.calling place d) := by
  simp only [calling, passages, hf, List.nil_append]

theorem calling_of_transfer (hf : m.focus = .transfer p) (place : Nat) (d : Direction) :
    m.calling place d = (if p.calling place d then 1 else 0)
      + m.suspended.countP (Passage.calling place d) := by
  simp only [calling, passages, hf, List.singleton_append, List.countP_cons]
  exact Nat.add_comm ..

/-- Whoever is in a call of the stream of a direction holds it. -/
theorem calling_le_holders (m : Machine) (place : Nat) (d : Direction) :
    m.calling place d ≤ (holders m.transfers place d).length := by
  have hall : m.transfers.countP (fun t => t.holds place d)
      = (holders m.transfers place d).length := List.countP_eq_length_filter
  have hpart : m.transfers = m.passages.map (·.transfer) ++ m.session.waiting := by
    unfold transfers back passages
    cases m.focus <;> simp [Focus.transfers]
  have hholders : (m.passages.map (·.transfer)).countP (fun t => t.holds place d)
      ≤ (holders m.transfers place d).length := by
    rw [← hall, hpart, List.countP_append]
    exact Nat.le_add_right ..
  rw [List.countP_map] at hholders
  refine Nat.le_trans (List.countP_mono_left ?_) hholders
  intro q _ hq
  simp only [Passage.calling, Bool.and_eq_true] at hq
  exact hq.1

/-- A direction has one call under way at most. -/
theorem calling_le_one (hg : m.grants place d = [g]) : m.calling place d ≤ 1 := by
  obtain ⟨t, ht, -⟩ := grantsOf_eq_singleton.1 hg
  have hle := m.calling_le_holders place d
  rwa [ht] at hle

/-- There is a call under way only while bytes are left to move. -/
theorem Sound.calling_le (hm : m.Sound) (hg : m.grants place d = [g]) :
    m.calling place d ≤ g.remaining := by
  have hone := calling_le_one hg
  by_cases hidle : m.calling place d = 0
  · omega
  · obtain ⟨q, hmem, hq⟩ := List.countP_pos_iff.1 (Nat.pos_of_ne_zero hidle)
    simp only [Passage.calling, Bool.and_eq_true] at hq
    obtain ⟨call, hcall⟩ := Option.isSome_iff_exists.1 hq.2
    obtain ⟨g', hg', -, hmore⟩ := hm.offer_eq hmem hq.1 hcall
    obtain rfl : g' = g := by simpa [hg'] using hg
    omega

/-! ## What a step adds -/

/-- A command begins no call of a stream. -/
theorem callsOf_marks_action (s : Session) (name : Nat) (action : Action) :
    callsOf d (s.marks name place action) = 0 := by
  rw [callsOf_eq_zero]
  intro offer hmem
  rcases Session.mem_marks hmem with ⟨_, _, he⟩ | ⟨_, _, _, he⟩
  · cases he
  · cases he

/-- The next step of a transfer begins a call of its stream, and does nothing else. -/
structure BeginsCall (m : Machine) (place : Nat) (d : Direction) (offer : Offer) (p : Passage)
    (g : Grant) : Prop where
  ring : p.transfer.ring = place
  grant : p.transfer.grant = some g
  direction : g.direction = d
  idle : p.current = none
  calls : ∃ polling, p.next m.session g = .call polling
  offer_eq : offer = (m.session.ring place).offer g
  marks_eq : m.marks place = [.offered d offer]

theorem marks_offered {offer : Offer} (h : .offered d offer ∈ m.marks place) :
    ∃ p g, m.focus = .transfer p ∧ m.BeginsCall place d offer p g := by
  unfold marks at h
  split at h
  · cases h
  · exact absurd h (callsOf_eq_zero.1 (callsOf_marks_action ..) offer)
  · rename_i p hf
    rcases List.mem_append.1 h with hown | hother
    · unfold marksAt at hown
      split at hown
      · rename_i hplace
        subst hplace
        obtain ⟨g, hg, hd, hcur, hcalls, hoffer, hmarks, hparks⟩ := Passage.marks_offered hown
        refine ⟨p, g, hf, rfl, hg, hd, hcur, hcalls, hoffer, ?_⟩
        simp only [marks, hf, marksAt, hmarks, hparks, if_true, List.append_nil]
      · cases hown
    · split at hother
      · cases hother
      · obtain ⟨_, _, _, he⟩ := Session.mem_dropped hother
        cases he

/-- If a call begins, it is one of the transfer in focus. -/
theorem offered_of_transfer {offer : Offer} (hf : m.focus = .transfer p)
    (h : .offered d offer ∈ m.marks place) : ∃ g, m.BeginsCall place d offer p g := by
  obtain ⟨q, g, hq, hbegins⟩ := marks_offered h
  obtain rfl : p = q := Focus.transfer.inj (hf.symm.trans hq)
  exact ⟨g, hbegins⟩

theorem not_offered_of_commands {todo : List Command} {done : List Answer}
    (hf : m.focus = .commands todo done) (offer : Offer) : .offered d offer ∉ m.marks place := by
  intro h
  obtain ⟨q, _, hq, -⟩ := marks_offered h
  cases hf.symm.trans hq

/-- A transfer reserves its bytes before it calls its stream. -/
theorem not_offered_of_new (hf : m.focus = .transfer p) (hnew : p.transfer.grant = none)
    (offer : Offer) : .offered d offer ∉ m.marks place := by
  intro h
  obtain ⟨g, hbegins⟩ := offered_of_transfer hf h
  cases hnew.symm.trans hbegins.grant

theorem countP_wake (token : Nat) (wakes : Nat → Bool) (frames : List Passage) (place : Nat)
    (d : Direction) : (frames.map (Passage.wake token wakes)).countP (Passage.calling place d)
      = frames.countP (Passage.calling place d) := by
  rw [List.countP_map]
  rfl

/-- Commands leave the calls under way as they are. -/
theorem calling_obey {name : Nat} {action : Action} {todo : List Command} {done : List Answer}
    (hf : m.focus = .commands (.on name action :: todo) done) (place : Nat) (d : Direction) :
    m.calling place d ≤ (m.obey name action todo done).calling place d := by
  rw [calling_of_commands hf]
  by_cases hcancel : ∃ token, action = .cancel token
  · obtain ⟨token, rfl⟩ := hcancel
    refine Nat.le_trans (Nat.le_of_eq ?_) (le_calling ..)
    exact (countP_wake token _ m.suspended place d).symm
  · have hsus := m.suspended_obey name action todo done fun token he => hcancel ⟨token, he⟩
    rw [← hsus]
    exact le_calling ..

/-- A call that has been answered has counted a byte, or was interrupted, if it keeps its transfer
going. -/
theorem one_le_of_reply {g : Grant} {reply : Reply} (h : (g.hear reply).2 = none) (d : Direction)
    (offer : Offer) (written : Bytes) :
    1 ≤ reportedOf d [.replied d offer written reply]
      + interruptionsOf d [.replied d offer written reply] := by
  cases reply with
  | moved count =>
    cases count with
    | zero => cases h
    | succ n =>
      rw [reportedOf_cons]
      simp only [Mark.reported, if_true]
      omega
  | failed e =>
    have hcause : e.cause = .interrupted := by
      by_contra hne
      simp [Grant.hear, hne] at h
    simp [interruptionsOf, Mark.interrupts, hcause]
  | raised text => cases h

/-- A turn in a call that is under way: the call goes on, or it has counted a byte, or was
interrupted, or makes its caller wait. -/
theorem calls_turn (hf : m.focus = .transfer p) (hg : p.transfer.grant = some g)
    (hcur : p.current.isSome) (hs : m.step = some m')
    (hlive : ∀ mark ∈ m.marks place, ¬ mark.Ends d) :
    m.calling place d ≤ reportedOf d (m.marks place) + interruptionsOf d (m.marks place)
      + waitsOf d (m.marks place) + m'.calling place d := by
  obtain rfl := Option.some.inj ((step_iff.2 (.turn hf hg hcur)).symm.trans hs)
  have hrest : m.suspended.countP (Passage.calling place d) ≤ (m.turn p g).calling place d := by
    refine Nat.le_trans ?_ (le_calling ..)
    rw [turn_eq]
    split
    · rw [suspended_hear]
    · rw [List.countP_cons]
      exact Nat.le_add_right ..
    · rw [suspended_wait]
  rw [calling_of_transfer hf]
  by_cases hholds : p.transfer.holds place d
  · -- the call is one of the stream of this direction
    obtain ⟨hplace, hdirection⟩ : p.transfer.ring = place ∧ g.direction = d := by
      simpa [Transfer.holds, hg] using hholds
    subst hplace hdirection
    have hone : (if p.calling p.transfer.ring g.direction then 1 else 0) ≤ 1 := by
      split <;> omega
    cases hr : p.respond g.direction ((m.session.ring p.transfer.ring).room g) with
    | mk response stream =>
      cases response with
      | answer written reply =>
        have hmarks : m.marks p.transfer.ring
            = (m.session.ring p.transfer.ring).answered g written reply := by
          simp only [marks, hf, Passage.marks, Passage.parks?, hg, hcur, hr, marksAt, if_true,
            List.append_nil]
        have hnone : (g.hear reply).2 = none := by
          cases hh : g.hear reply with
          | mk g' ending? =>
            cases ending? with
            | none => rfl
            | some ending =>
              obtain ⟨rfl, -⟩ := hear_ending hh
              have hmem : ((m.session.ring p.transfer.ring).receive g' written).finished g'
                  (some ending) ∈ m.marks p.transfer.ring := by
                rw [hmarks, Ring.answered, hh]
                exact List.mem_cons_of_mem _ (List.mem_singleton_self _)
              exact absurd (Ring.ends_finished.2 rfl) (hlive _ hmem)
        have hreply := one_le_of_reply hnone g.direction
          ((m.session.ring p.transfer.ring).offer g) written
        have hsingle : (m.session.ring p.transfer.ring).answered g written reply
            = [.replied g.direction ((m.session.ring p.transfer.ring).offer g) written reply] := by
          unfold Ring.answered
          split
          · rfl
          · rename_i hh
            rw [hh] at hnone
            cases hnone
        rw [hmarks, hsingle]
        omega
      | perform commands =>
        have hstays : m.calling p.transfer.ring g.direction
            = (m.turn p g).calling p.transfer.ring g.direction := by
          rw [calling_of_transfer hf, turn_eq, hr, calling_of_commands rfl, List.countP_cons,
            Nat.add_comm]
          rfl
        rw [calling_of_transfer hf] at hstays
        omega
      | wait q =>
        have hwaits : 0 < waitsOf g.direction (m.marks p.transfer.ring) := by
          refine List.countP_pos_iff.2 ⟨.waited g.direction, ?_, by simp [Mark.waits]⟩
          simp only [marks, hf, Passage.marks, hg, hcur, hr, marksAt, if_true]
          exact List.mem_append_left _ (List.mem_singleton_self _)
        omega
  · have hidle : p.calling place d = false := by
      simp [Passage.calling, hholds]
    rw [hidle]
    simp only [Bool.false_eq_true, if_false]
    omega

/-- Between two calls: the next one begins and is under way then, or the transfer is over. -/
theorem calls_offer (hf : m.focus = .transfer p) (hg : p.transfer.grant = some g)
    (hidle : p.current = none) (hs : m.step = some m') :
    callsOf d (m.marks place) + m.calling place d ≤ m'.calling place d := by
  obtain rfl := Option.some.inj ((step_iff.2 (.offer hf hg hidle)).symm.trans hs)
  have hnot : p.calling place d = false := by
    simp [Passage.calling, hidle]
  have hbefore : m.calling place d = m.suspended.countP (Passage.calling place d) := by
    rw [calling_of_transfer hf, hnot]
    exact Nat.zero_add _
  by_cases hmem : ∃ offer, .offered d offer ∈ m.marks place
  · obtain ⟨offer, hmem⟩ := hmem
    obtain ⟨g', hbegins⟩ := offered_of_transfer hf hmem
    obtain rfl : g = g' := Option.some.inj (hg.symm.trans hbegins.grant)
    have hone : callsOf d (m.marks place) = 1 := by
      rw [hbegins.marks_eq]
      simp [callsOf, Mark.calls]
    obtain ⟨polling, hn⟩ := hbegins.calls
    have hcalling : Passage.calling place d
        { p with polling, current := some ⟨(m.session.ring p.transfer.ring).offer g, []⟩ }
          = true := by
      simp [Passage.calling, Transfer.holds, hg, hbegins.ring, hbegins.direction]
    rw [hone, hbefore, offer_begins hn, calling_of_transfer rfl, hcalling, if_pos rfl]
    exact Nat.le_refl _
  · rw [callsOf_eq_zero.2 fun offer h => hmem ⟨offer, h⟩, hbefore, Nat.zero_add,
      ← m.suspended_offer p g]
    exact le_calling ..

/-- A step pays for the call that it begins: with bytes, with an interruption or with a wait once
the call is answered, and until then with the call that is under way. -/
theorem calls_step (hs : m.step = some m')
    (hlive : ∀ mark ∈ m.marks place, ¬ mark.Ends d) :
    callsOf d (m.marks place) + m.calling place d ≤ reportedOf d (m.marks place)
      + interruptionsOf d (m.marks place) + waitsOf d (m.marks place) + m'.calling place d := by
  cases step_iff.1 hs with
  | @resume p rest done hf hsus =>
    have hresume : (p.resume done).calling place d = p.calling place d := by
      simp [Passage.calling, Passage.resume]
    have hkeeps : m.calling place d
        = Machine.calling { m with focus := .transfer (p.resume done), suspended := rest }
          place d := by
      rw [calling_of_commands hf, calling_of_transfer rfl, hsus, List.countP_cons, hresume]
      exact Nat.add_comm ..
    rw [callsOf_eq_zero.2 (not_offered_of_commands hf), hkeeps]
    omega
  | obey hf =>
    have hkeeps := calling_obey hf place d
    rw [callsOf_eq_zero.2 (not_offered_of_commands hf)]
    omega
  | @start p hf hg =>
    have hidle : p.calling place d = false := by
      simp [Passage.calling, Transfer.holds, hg]
    have hkeeps : m.calling place d ≤ (m.start p).calling place d := by
      rw [calling_of_transfer hf, hidle, ← m.suspended_start p]
      simpa using le_calling (m.start p) place d
    rw [callsOf_eq_zero.2 (not_offered_of_new hf hg)]
    omega
  | @turn p g hf hg hcur =>
    have hturn := calls_turn hf hg hcur hs hlive
    have hnone : callsOf d (m.marks place) = 0 := by
      rw [callsOf_eq_zero]
      intro offer hmem
      obtain ⟨_, hbegins⟩ := offered_of_transfer hf hmem
      rw [hbegins.idle] at hcur
      cases hcur
    omega
  | @offer p g hf hg hidle =>
    have hoffer : callsOf d (m.marks place) + m.calling place d
        ≤ (m.offer p g).calling place d := calls_offer hf hg hidle hs
    omega

/-! ## Runs -/

/-- A machine makes steps, which leave these marks on the ring at a place, and in between its
sources may write without an answer. -/
inductive Wanders (place : Nat) (m : Machine) : List Mark → Machine → Prop
  | refl : Wanders place m [] m
  | step {marks : List Mark} {m₁ m₂ : Machine} :
      Wanders place m marks m₁ → m₁.step = some m₂ → Wanders place m (marks ++ m₁.marks place) m₂
  | scribble {marks more : List Mark} {m₁ m₂ : Machine} {q : Nat} :
      Wanders place m marks m₁ → m₁.Scribbles q more m₂ → Wanders place m marks m₂

/-- Steps alone are one way to wander. -/
theorem Passes.wanders (h : m.Passes place marks m') : m.Wanders place marks m' := by
  induction h with
  | refl => exact .refl
  | step _ hs ih => exact ih.step hs

theorem Wanders.sound (h : m.Wanders place marks m') (hm : m.Sound) : m'.Sound := by
  induction h with
  | refl => exact hm
  | step _ hs ih => exact ih.step hs
  | scribble _ hw ih => exact ⟨hw.orderly ih, hw.steady ih⟩

/-- A scribble moves nothing and begins no call. -/
theorem Scribbles.same {q : Nat} (h : m.Scribbles q marks m') (place : Nat) (d : Direction) :
    m'.grants place d = m.grants place d ∧ m'.calling place d = m.calling place d := by
  cases h
  exact ⟨rfl, rfl⟩

theorem Scribbles.size {q : Nat} (h : m.Scribbles q marks m') :
    m'.session.rings.size = m.session.rings.size := by
  cases h
  exact Array.size_setIfInBounds

theorem Wanders.known (h : m.Wanders place marks m') (hm : m.Sound)
    (hp : place < m.session.rings.size) : place < m'.session.rings.size := by
  induction h with
  | refl => exact hp
  | step hwanders hs ih => exact ((Stirs.step hs).deeds (hwanders.sound hm) ih).1
  | scribble _ hw ih => exact hw.size ▸ ih

/-- A transfer that is not over has moved what its stream has reported, and no more than it was
granted. -/
theorem Wanders.counts (h : m.Wanders place marks m') (hm : m.Sound)
    (hp : place < m.session.rings.size) (hg : m.grants place d = [g])
    (hlive : ∀ mark ∈ marks, ¬ mark.Ends d) :
    m'.grants place d = [{ g with moved := g.moved + reportedOf d marks }] := by
  induction h with
  | refl => exact hg
  | step hwanders hs ih =>
    rw [List.forall_mem_append] at hlive
    rw [(Stirs.step hs).counts (hwanders.sound hm) (hwanders.known hm hp) (ih hlive.1) hlive.2,
      reportedOf_append, Nat.add_assoc]
  | scribble _ hw ih => rw [(hw.same place d).1, ih hlive]

/-- Every call that has begun is paid for, or under way. -/
theorem Wanders.calls_le (h : m.Wanders place marks m')
    (hlive : ∀ mark ∈ marks, ¬ mark.Ends d) :
    callsOf d marks + m.calling place d
      ≤ reportedOf d marks + interruptionsOf d marks + waitsOf d marks + m'.calling place d := by
  induction h with
  | refl => exact Nat.add_le_add_right (Nat.zero_le _) _
  | step _ hs ih =>
    rw [List.forall_mem_append] at hlive
    have hbefore := ih hlive.1
    have hstep := calls_step hs hlive.2
    simp only [callsOf_append, reportedOf_append, interruptionsOf_append, waitsOf_append]
    omega
  | scribble _ hw ih =>
    rw [(hw.same place d).2]
    exact ih hlive

/-- Besides those that are paid for, a transfer has begun as many calls as it has bytes left to
move. -/
theorem Wanders.calls_bounded (h : m.Wanders place marks m') (hm : m.Sound)
    (hp : place < m.session.rings.size) (hg : m.grants place d = [g])
    (hlive : ∀ mark ∈ marks, ¬ mark.Ends d) :
    callsOf d marks ≤ g.remaining + interruptionsOf d marks + waitsOf d marks := by
  have hm' := h.sound hm
  have hg' := h.counts hm hp hg hlive
  have hpaid := h.calls_le hlive
  have hopen := hm'.calling_le hg'
  have hmem : { g with moved := g.moved + reportedOf d marks } ∈ m'.grants place d := by
    rw [hg']
    exact List.mem_singleton_self _
  have hmoved : g.moved + reportedOf d marks ≤ g.region.count :=
    (hm'.orderly.custody.keeps place).moved_le d _ hmem
  simp only [Grant.remaining] at hopen ⊢
  omega

end Machine

/-! ## What is offered -/

/-- What a stream is offered: a straight run of cells of the buffer, not empty, and no longer than
what is left to move. -/
structure Ring.Offers (r : Ring) (g : Grant) (offer : Offer) : Prop where
  eq : offer = r.offer g
  chunk : offer.size = (g.chunk r.capacity).length
  pos : 0 < offer.size
  le : offer.size ≤ g.remaining
  inside : (g.chunk r.capacity).offset + offer.size ≤ r.storage.size

theorem Ring.Sound.offers {r : Ring} {g : Grant} {d : Direction} (hs : r.Sound)
    (hheld : r.occupancy.held d = some g.region) (hmore : g.remaining ≠ 0) :
    r.Offers g (r.offer g) := by
  have hcell : (g.chunk r.capacity).offset < r.capacity := cellAfter_lt (hs.offset_lt hheld) g.moved
  have hchunk : r.room g = min g.remaining (r.capacity - (g.chunk r.capacity).offset) := rfl
  have hinside : (g.chunk r.capacity).offset + r.room g ≤ r.storage.size := by
    show _ ≤ r.capacity
    omega
  have hroom : (r.offer g).size = r.room g := by
    unfold offer
    cases g.direction with
    | put => rfl
    | take =>
      show (r.storage.read (g.chunk r.capacity).offset (r.room g)).length = _
      rw [Storage.read_eq _ hinside, Storage.length_around]
  exact ⟨rfl, hroom, hroom ▸ hs.room_pos hmore hheld, hroom ▸ r.room_le g, hroom ▸ hinside⟩

namespace Machine

variable {m m₁ m₂ : Machine} {g : Grant} {place : Nat} {d : Direction} {marks : List Mark}

/-- A call that begins is offered what its transfer has left to move. -/
theorem Sound.offers (hm : m.Sound) (hg : m.grants place d = [g]) {offer : Offer}
    (h : .offered d offer ∈ m.marks place) : (m.session.ring place).Offers g offer := by
  obtain ⟨p, g', hf, hbegins⟩ := marks_offered h
  have hholds : p.transfer.holds place d := by
    simp [Transfer.holds, hbegins.ring, hbegins.grant, hbegins.direction]
  obtain rfl : g = g' := by
    obtain ⟨-, hgrant, -⟩ := hm.grant_eq (focus_mem hf) hholds hg
    exact Option.some.inj (hgrant.symm.trans hbegins.grant)
  obtain ⟨polling, hn⟩ := hbegins.calls
  have hmore := (hm.steady.focus p hf).next_call hbegins.grant hn
  have hp : place < m.session.rings.size :=
    hbegins.ring ▸ (hm.orderly.custody.fits _ (focus_mem hf)).known
  rw [hbegins.offer_eq]
  exact (hm.orderly.custody.sound hp).offers ((hm.orderly.custody.keeps place).held_eq hg) hmore

/-- A transfer that has nothing to move calls nobody. -/
theorem Wanders.no_calls (h : m.Wanders place marks m₁) (hm : m.Sound)
    (hp : place < m.session.rings.size) (hg : m.grants place d = [g])
    (hlive : ∀ mark ∈ marks, ¬ mark.Ends d) (hnone : g.remaining = 0) : callsOf d marks = 0 := by
  induction h with
  | refl => rfl
  | step hwanders hs ih =>
    rw [List.forall_mem_append] at hlive
    rw [callsOf_append, ih hlive.1, Nat.zero_add, callsOf_eq_zero]
    intro offer hmem
    have hoffers := (hwanders.sound hm).offers (hwanders.counts hm hp hg hlive.1) hmem
    have hpos := hoffers.pos
    have hle := hoffers.le
    simp only [Grant.remaining] at hle hnone
    omega
  | scribble _ _ ih => exact ih hlive

/-- The calls are as few after the next step, which may end the transfer. -/
theorem Wanders.calls_after (h : m.Wanders place marks m₁) (hm : m.Sound)
    (hp : place < m.session.rings.size) (hg : m.grants place d = [g])
    (hlive : ∀ mark ∈ marks, ¬ mark.Ends d) (hs : m₁.step = some m₂) :
    let all := marks ++ m₁.marks place
    callsOf d all ≤ g.remaining + interruptionsOf d all + waitsOf d all ∧
      (g.remaining = 0 → callsOf d all = 0) := by
  by_cases hend : ∃ mark ∈ m₁.marks place, mark.Ends d
  · -- a step that ends the transfer begins no call
    have hnone : callsOf d (m₁.marks place) = 0 := by
      rw [callsOf_eq_zero]
      intro offer hmem
      obtain ⟨mark, hmark, hends⟩ := hend
      obtain ⟨_, _, -, hbegins⟩ := marks_offered hmem
      rw [hbegins.marks_eq, List.mem_singleton] at hmark
      subst hmark
      exact hends
    have hbound := h.calls_bounded hm hp hg hlive
    simp only [callsOf_append, hnone, interruptionsOf_append, waitsOf_append]
    exact ⟨by omega, fun hzero => h.no_calls hm hp hg hlive hzero⟩
  · have hall : ∀ mark ∈ marks ++ m₁.marks place, ¬ mark.Ends d :=
      List.forall_mem_append.2 ⟨hlive, fun mark hmem hmark => hend ⟨mark, hmem, hmark⟩⟩
    have hnext := h.step hs
    exact ⟨hnext.calls_bounded hm hp hg hall, fun hzero => hnext.no_calls hm hp hg hall hzero⟩

end Machine

end CyclicBuffer
