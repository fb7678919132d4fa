import CyclicBuffer.Proofs.Bytewise
import CyclicBuffer.Proofs.Trace

/-!
# Displaced bytes

An overwriting ring makes room for a put by dropping its oldest bytes. What a step displaces for a
put is told by its marks, and what is reported of it stands in the journal. Both are compared step
by step (`Sound.step_discards`) and then over whole runs (`reachable_displaces`): of every put that
reserves its room the journal has the number of bytes, if there are any, and nothing else is entered
there as discarded. A single byte that is put into a full ring displaces one byte, and the journal
does not know of it.
-/

namespace CyclicBuffer

open Occupancy

/-! ## Discards in the journal -/

/-- How many bytes an event says were discarded. -/
def Event.discard? : Event → Option Nat
  | .discarded deficit => some deficit
  | _ => none

/-- What events say was discarded, in order. -/
def discardsOf (events : List Event) : List Nat := events.filterMap Event.discard?

/-- What is reported of a number of bytes that have to go. -/
def reportOf (deficit : Nat) : List Nat := if deficit = 0 then [] else [deficit]

theorem discardsOf_append (events more : List Event) :
    discardsOf (events ++ more) = discardsOf events ++ discardsOf more :=
  List.filterMap_append ..

theorem sum_reportOf (deficit : Nat) : (reportOf deficit).sum = deficit := by
  unfold reportOf
  by_cases hd : deficit = 0
  · rw [if_pos hd, hd]
    rfl
  · rw [if_neg hd, List.sum_singleton]

/-- Warnings discard nothing. -/
theorem discardsOf_eq_nil_of_warn {events : List Event} (h : ∀ e ∈ events, e.level = .warn) :
    discardsOf events = [] := by
  refine List.filterMap_eq_nil_iff.2 fun e he => ?_
  have hlevel := h e he
  cases e with
  | discarded deficit => cases hlevel
  | _ => rfl

namespace Ring

variable {r r' : Ring} {g : Grant} {events : List Event}

/-- A reservation reports what a put has to discard, if it has to. -/
theorem discardsOf_reserve {d : Direction} {count : Nat}
    (h : r.reserve d count = .ok (g, r', events)) :
    discardsOf events = if d = .put then reportOf (r.occupancy.deficit count) else [] := by
  obtain ⟨region, o, -, -, -, rfl⟩ := reserve_ok h
  rw [discardsOf_append]
  cases d with
  | put =>
    rw [if_pos rfl]
    unfold discards reportOf
    dsimp only
    by_cases hd : r.occupancy.deficit count = 0
    · rw [if_pos hd, if_pos hd]
      rfl
    · rw [if_neg hd, if_neg hd]
      rfl
  | take => rfl

theorem discardsOf_commit (h : r.commit g = .ok (r', events)) : discardsOf events = [] := by
  obtain ⟨_, -, -, rfl⟩ := commit_ok h
  rfl

theorem discardsOf_settle (r : Ring) (p : Passage) (g : Grant) (ending : Ending) :
    discardsOf (r.settle g (p.verdict g ending)).events = [] := by
  obtain ⟨ending', hverdict, -⟩ := p.exists_verdict g ending
  rw [hverdict]
  have hlevel := p.transfer.request.verdict_level g.moved ending'
  rw [List.forall_mem_append] at hlevel
  cases hc : r.commit g with
  | error f =>
    simp only [settle, hc]
    exact discardsOf_eq_nil_of_warn hlevel.1
  | ok committed =>
    obtain ⟨ring, events⟩ := committed
    rw [settle_ok hc]
    simp only [Verdict.noted, discardsOf_append, discardsOf_commit hc,
      discardsOf_eq_nil_of_warn hlevel.1, discardsOf_eq_nil_of_warn hlevel.2, List.append_nil]

/-- A whole operation reports what its reservation does. -/
theorem discardsOf_moveWhole {α : Type} {d : Direction} {count : Nat}
    (h : r.reserve d count = .ok (g, r', events)) (work : Region → Storage → α × Storage) :
    discardsOf (r.moveWhole d count work).events = discardsOf events := by
  unfold moveWhole
  rw [h]
  dsimp only
  split
  · rfl
  · rename_i hc
    rw [discardsOf_append, discardsOf_commit hc, List.append_nil]

/-- Taking discards nothing. -/
theorem Sound.discardsOf_take (h : r.Sound) (count : Nat) :
    discardsOf (r.take count).events = [] := by
  cases hr : r.reserve .take count with
  | error e =>
    rw [take_of_reserve_error (occupancy_error hr)]
    rfl
  | ok v =>
    obtain ⟨g, r', events⟩ := v
    rw [h.take_whole, discardsOf_moveWhole hr, discardsOf_reserve hr]
    rfl

/-- A put drops the oldest bytes, as many as it reports. -/
theorem Sound.discardsOf_put (h : r.Sound) (data : Bytes) :
    discardsOf (r.apply (.put data)).events
      = reportOf (r.operated (.put data)).left.length := by
  have hevents : (r.apply (.put data)).events = (r.put data).events := rfl
  rw [hevents]
  cases hr : r.reserve .put (r.trim data).length with
  | error e =>
    have hresult : (r.apply (.put data)).result = .error (.error e) := by
      rw [apply, put_of_reserve_error (occupancy_error hr)]
      rfl
    rw [put_of_reserve_error (occupancy_error hr), operated, hresult]
    rfl
  | ok v =>
    obtain ⟨g, r', events⟩ := v
    rw [h.put_whole, discardsOf_moveWhole hr, discardsOf_reserve hr, if_pos rfl]
    obtain ⟨region, o, hro, -, -, -⟩ := reserve_ok hr
    obtain ⟨-, hcount, -, -, -⟩ := h.coherent.reservePut_ok hro
    have hresult : (r.apply (.put data)).result = .ok .unit := by
      simp only [apply, Outcome.map, (h.contents_put_granted hr).1]
      rfl
    rw [operated, hresult]
    have hkept := h.trim_eq data
    have hdeficit := h.coherent.deficit_le hcount
    simp only [Mark.left, Queue.removed, Queue.published, ← hkept, List.length_take,
      h.content_length]
    congr 1
    simp only [deficit, queue] at hdeficit ⊢
    omega

/-- The bytes that a reservation drops are those that are missing as room. -/
theorem Sound.length_begun (h : r.Sound) {count : Nat}
    (hr : r.reserve .put count = .ok (g, r', events)) :
    (leftOf [r.begun .put count]).length = r.occupancy.deficit count := by
  obtain ⟨region, o, hro, -, -, -⟩ := reserve_ok hr
  obtain ⟨-, hcount, -, -, -⟩ := h.coherent.reservePut_ok hro
  have hdeficit := h.coherent.deficit_le hcount
  simp only [leftOf, List.flatMap_singleton, begun, Mark.left, List.length_take,
    h.length_contents]
  omega

/-- No other operation reports that anything was discarded. -/
theorem Sound.discardsOf_apply (h : r.Sound) {operation : Operation}
    (hother : ∀ data, operation ≠ .put data) : discardsOf (r.apply operation).events = [] := by
  cases operation with
  | put data => exact absurd rfl (hother data)
  | putByte byte =>
    simp only [apply, putByte, Outcome.map]
    split <;> rfl
  | takeInto destination count =>
    simp only [apply, takeInto, Outcome.map]
    split
    · rfl
    · exact h.discardsOf_take count
  | takeList count =>
    simp only [apply, takeList, Outcome.map]
    split
    · rfl
    · exact h.discardsOf_take count
  | takeByte =>
    simp only [apply, takeByte, Outcome.map]
    split <;> rfl
  | skip count =>
    simp only [apply, skip, Outcome.map]
    split <;> rfl
  | reset =>
    simp only [apply, reset, Outcome.map]
    split <;> rfl
  | drain =>
    simp only [apply, drain, Outcome.map]
    split <;> rfl

/-- A single byte displaces one from a full ring that overwrites, and none otherwise. -/
theorem Sound.displaced_putByte (h : r.Sound) (byte : UInt8) :
    (r.operated (.putByte byte)).left.length
      = if r.isFull ∧ r.overwriting ∧ r.occupancy.putting = none ∧ r.occupancy.taking = none
        then 1 else 0 := by
  have hpos := h.coherent.head_lt
  have hle := h.coherent.length_le
  have hfull : r.isFull = true ↔ r.occupancy.length = r.occupancy.capacity := by
    simp only [isFull, spare, Occupancy.spare, beq_iff_eq]
    omega
  simp only [hfull]
  by_cases ha : r.occupancy.Admits 1
  · have hresult : (r.apply (.putByte byte)).result = .ok .unit := by
      simp only [apply, Outcome.map, h.putByte_ok byte ha]
      rfl
    obtain ⟨hp, hroom⟩ := ha
    rw [operated, hresult]
    simp only [Mark.left, Queue.removed, Queue.published, List.length_take, h.content_length,
      List.length_singleton]
    simp only [deficit, queue] at hroom ⊢
    by_cases hl : r.occupancy.length = r.occupancy.capacity
    · obtain ⟨hover, ht⟩ := hroom.resolve_left (by omega)
      rw [if_pos ⟨hl, hover, hp, ht⟩]
      omega
    · rw [if_neg fun hall => hl hall.1]
      omega
  · obtain ⟨e, he⟩ := h.putByte_error byte ha
    have hresult : (r.apply (.putByte byte)).result = .error (.error e) := by
      simp only [apply, Outcome.map, he]
      rfl
    rw [operated, hresult, if_neg]
    · rfl
    · rintro ⟨-, hover, hp, ht⟩
      exact ha ⟨hp, .inr ⟨hover, ht⟩⟩

end Ring

/-- What is built reports no discard: it starts empty. -/
theorem Blueprint.discardsOf_build {b : Blueprint} {r : Ring} {events : List Event}
    (h : b.build = (.ok r, events)) : discardsOf events = [] := by
  unfold build at h
  split at h
  · cases h
  rename_i hc
  split at h
  · cases h
  cases hb : b.contents with
  | none =>
    simp only [hb] at h
    cases h
    rfl
  | some data =>
    simp only [hb] at h
    split at h <;> cases h
    have hs := Ring.sound_vacant (Nat.one_le_iff_ne_zero.2 hc) b.overwriting
    have hput : discardsOf ((Ring.vacant b.capacity b.overwriting).put data).events = _ :=
      hs.discardsOf_put data
    have hempty : ((Ring.vacant b.capacity b.overwriting).operated (.put data)).left = [] := by
      have hcontents : (Ring.vacant b.capacity b.overwriting).queue.content = [] :=
        List.length_eq_zero_iff.1 hs.length_contents
      unfold Ring.operated
      split
      · rfl
      · simp only [Mark.left, Queue.removed, hcontents, List.take_nil]
    rw [discardsOf_append, hput, hempty]
    rfl

/-! ## Sessions -/

namespace Session

variable {s s' : Session} {place : Nat} {events : List Event}

/-- What the journal says was discarded from the ring at a place, in order. -/
def discards (s : Session) (place : Nat) : List Nat :=
  s.journal.filterMap fun entry => if entry.1 = place then entry.2.discard? else none

theorem discards_note (s : Session) (q : Nat) (events : List Event) (place : Nat) :
    (s.note q events).discards place
      = s.discards place ++ if q = place then discardsOf events else [] := by
  simp only [discards, note, List.filterMap_append, List.filterMap_map]
  congr 1
  by_cases hq : q = place
  · rw [if_pos hq]
    simp only [Function.comp_def, if_pos hq]
    rfl
  · rw [if_neg hq]
    simp [hq]

theorem discards_update (s : Session) (q : Nat) (ring : Ring) (events : List Event)
    (place : Nat) : (s.update q ring events).discards place
      = s.discards place ++ if q = place then discardsOf events else [] :=
  discards_note { s with rings := s.rings.setIfInBounds q ring } q events place

/-- What reports no discard leaves the account as it is. -/
theorem discards_update_of_nil (h : discardsOf events = []) (q : Nat) (ring : Ring) (place : Nat) :
    (s.update q ring events).discards place = s.discards place := by
  rw [discards_update, h, ite_self, List.append_nil]

theorem discards_abandon {t : Transfer} (h : s.abandon t = .ok (s', events)) (place : Nat) :
    s'.discards place = s.discards place := by
  unfold abandon at h
  split at h
  · cases h
    rfl
  · rename_i g hg
    cases hc : (s.ring t.ring).commit g with
    | error f =>
      rw [hc] at h
      cases h
    | ok committed =>
      rw [hc] at h
      cases h
      exact discards_update_of_nil (Ring.discardsOf_commit hc) ..

theorem discards_dropTask {id : Nat} (h : s.dropTask id = .ok (s', events)) (place : Nat) :
    s'.discards place = s.discards place := by
  unfold dropTask at h
  split at h
  · cases h
    rfl
  · exact discards_abandon (s := s.removeTask id) h place

theorem discards_addTask {id : Nat} {task : Task} (h : s.addTask id task = .ok (s', events))
    (place : Nat) : s'.discards place = s.discards place := by
  unfold addTask at h
  cases hd : s.dropTask id with
  | error f =>
    rw [hd] at h
    cases h
  | ok dropped =>
    rw [hd] at h
    cases h
    exact discards_dropTask hd place

theorem discards_spawn (s : Session) (name id : Nat) (request : Request) (stream : List Turn)
    (token place : Nat) :
    (s.spawn name id request stream token).session.discards place = s.discards place := by
  unfold spawn onRing
  split
  · rfl
  · dsimp only
    split
    · rfl
    · exact discards_addTask ‹_› place

/-- Of the errands only operations report what they discard. -/
theorem discards_errand {e : Errand} (h : ∀ operation, e ≠ .operate operation) (s : Session)
    (name place : Nat) : (s.errand name e).session.discards place = s.discards place := by
  cases e with
  | operate operation => exact absurd rfl (h operation)
  | create blueprint =>
    simp only [errand]
    split
    · rfl
    · rename_i ring events hb
      refine (discards_note _ s.rings.size events place).trans ?_
      rw [Blueprint.discardsOf_build hb, ite_self, List.append_nil]
      rfl
  | drop id =>
    simp only [errand]
    split
    · rfl
    · exact discards_dropTask ‹_› place
  | isWoken id =>
    simp only [errand]
    split <;> rfl
  | isCancelled token => rfl
  | _ =>
    simp only [errand, onRing]
    split <;> rfl

end Session

namespace Machine

variable {m m' : Machine} {p : Passage} {g : Grant} {place : Nat} {past : List Machine}

/-! ## Steps -/

/-- The next step is a put, or reserves the room for one. -/
def puts (m : Machine) : Bool :=
  match m.focus with
  | .commands (.on _ (.errand (.operate (.put _))) :: _) _ => true
  | .commands (.on _ (.errand (.operate (.putByte _))) :: _) _ => true
  | .commands .. => false
  | .transfer p => p.transfer.grant.isNone && p.transfer.request.purpose.direction == .put

/-- The next step puts a single byte. -/
def putsByte (m : Machine) : Bool :=
  match m.focus with
  | .commands (.on _ (.errand (.operate (.putByte _))) :: _) _ => true
  | _ => false

/-- The unread bytes that a put removes with the next step from the ring at a place. -/
def displaced (m : Machine) (place : Nat) : Bytes :=
  if m.puts then leftOf (m.marks place) else []

theorem discards_settle (m : Machine) (p : Passage) (g : Grant) (ending : Ending) (place : Nat) :
    (m.settle p g ending).session.discards place = m.session.discards place :=
  Session.discards_update_of_nil (Ring.discardsOf_settle ..) ..

theorem discards_hear (m : Machine) (p : Passage) (g : Grant) (reply : Reply) (place : Nat) :
    (m.hear p g reply).session.discards place = m.session.discards place := by
  unfold hear
  split
  · rfl
  · exact m.discards_settle ..

theorem discards_wait (m : Machine) (p : Passage) (q : Polling) (place : Nat) :
    (m.wait p q).session.discards place = m.session.discards place := by
  unfold wait
  dsimp only
  split
  · rfl
  · split
    · rfl
    · exact Session.discards_addTask ‹_› place

theorem discards_turn (m : Machine) (p : Passage) (g : Grant) (place : Nat) :
    (m.turn p g).session.discards place = m.session.discards place := by
  rw [turn_eq]
  split
  · rw [discards_hear]
    exact Session.discards_update_of_nil rfl ..
  · rfl
  · exact m.discards_wait ..

theorem discards_offer (m : Machine) (p : Passage) (g : Grant) (place : Nat) :
    (m.offer p g).session.discards place = m.session.discards place := by
  unfold offer
  split
  · exact m.discards_settle ..
  · rfl

theorem discards_poll (m : Machine) (name id : Nat) (again : Bool) (todo : List Command)
    (done : List Answer) (place : Nat) :
    (m.poll name id again todo done).session.discards place = m.session.discards place := by
  unfold poll
  split <;> rfl

/-- What the journal gets to know of the bytes that are displaced with the next step: of a single
byte nothing, of other puts the number. -/
def traced (m : Machine) (place : Nat) : List Nat :=
  if m.putsByte then [] else reportOf (m.displaced place).length

/-- Where nothing is displaced, there is nothing to tell. -/
theorem traced_of_nil (h : m.displaced place = []) : m.traced place = [] := by
  rw [traced, h]
  exact ite_self _

theorem traced_of_not_puts (h : m.puts = false) (place : Nat) : m.traced place = [] := by
  refine traced_of_nil ?_
  rw [displaced, h]
  rfl

theorem traced_of_unmarked (h : leftOf (m.marks place) = []) : m.traced place = [] := by
  refine traced_of_nil ?_
  rw [displaced, h]
  exact ite_self _

/-- What a command that is an operation leaves in the journal. -/
theorem Sound.obey_discards (hm : m.Sound) {name : Nat} {operation : Operation}
    {todo : List Command} {done : List Answer}
    (hf : m.focus = .commands (.on name (.errand (.operate operation)) :: todo) done)
    (place : Nat) : (m.session.errand name (.operate operation)).session.discards place
      = m.session.discards place ++ m.traced place := by
  have hmarks : m.marks place = m.session.marks name place (.errand (.operate operation)) := by
    simp only [marks, hf]
  simp only [Session.errand, Session.onRing]
  cases hp : m.session.place? name with
  | none =>
    have hnone : leftOf (m.marks place) = [] := by
      rw [hmarks]
      simp [Session.marks, hp, leftOf]
    rw [traced_of_unmarked hnone, List.append_nil]
  | some q =>
    dsimp only
    rw [Session.discards_update]
    congr 1
    have hs := hm.orderly.custody.sound
      (hm.orderly.custody.named _ (Session.mem_of_place? hp))
    by_cases hq : q = place
    · subst hq
      have hleft : leftOf (m.marks q) = ((m.session.ring q).operated operation).left := by
        rw [hmarks]
        simp [Session.marks, hp, leftOf]
      rw [if_pos rfl, traced, displaced, hleft]
      cases operation with
      | put data =>
        rw [hs.discardsOf_put]
        simp only [putsByte, puts, hf]
        rfl
      | putByte byte =>
        rw [hs.discardsOf_apply (by simp)]
        simp only [putsByte, hf]
        rfl
      | _ =>
        rw [hs.discardsOf_apply (by simp)]
        simp only [putsByte, puts, hf]
        rfl
    · have hnone : leftOf (m.marks place) = [] := by
        rw [hmarks]
        simp [Session.marks, hp, hq, leftOf]
      rw [if_neg hq, traced_of_unmarked hnone]

/-- A transfer that starts leaves in the journal what its reservation displaces. -/
theorem Sound.start_discards (hm : m.Sound) (hf : m.focus = .transfer p)
    (hg : p.transfer.grant = none) (place : Nat) :
    (m.start p).session.discards place = m.session.discards place ++ m.traced place := by
  have hbyte : m.putsByte = false := by simp only [putsByte, hf]
  have hputs : m.puts = true ↔ p.transfer.request.purpose.direction = .put := by
    simp only [puts, hf, hg, Option.isNone_none, Bool.true_and, beq_iff_eq]
  unfold start
  dsimp only
  split
  · -- what is refused displaces nothing
    rename_i e hr
    have hnone : leftOf (m.marks place) = [] := by
      simp [marks, hf, Passage.marks, Passage.parks?, hg, hr, marksAt, leftOf]
    rw [traced_of_unmarked hnone]
    exact (List.append_nil _).symm
  · rename_i g ring events hr
    have hmarks : m.marks place = marksAt p.transfer.ring
        [(m.session.ring p.transfer.ring).begun p.transfer.request.purpose.direction
          p.transfer.request.count] place := by
      simp [marks, hf, Passage.marks, Passage.parks?, hg, hr]
    refine (Session.discards_update m.session p.transfer.ring ring events place).trans ?_
    congr 1
    by_cases hq : p.transfer.ring = place
    · have hfits := (hm.orderly.works hf).custody.fits _ (List.mem_cons_self ..)
      have hs := (hm.orderly.works hf).custody.sound hfits.known
      rw [marksAt, if_pos hq] at hmarks
      rw [if_pos hq, Ring.discardsOf_reserve hr]
      by_cases hd : p.transfer.request.purpose.direction = .put
      · rw [if_pos hd, traced, hbyte, if_neg Bool.false_ne_true, displaced, if_pos (hputs.2 hd),
          hmarks]
        rw [hd] at hr ⊢
        rw [hs.length_begun hr]
      · rw [if_neg hd, traced_of_not_puts (Bool.eq_false_iff.2 fun h => hd (hputs.1 h))]
    · have hnone : leftOf (m.marks place) = [] := by
        rw [hmarks, marksAt, if_neg hq]
        rfl
      rw [if_neg hq, traced_of_unmarked hnone]

/-- Every step leaves in the journal what it displaces, but for single bytes. -/
theorem Sound.step_discards (hm : m.Sound) (hs : m.step = some m') (place : Nat) :
    m'.session.discards place = m.session.discards place ++ m.traced place := by
  have hsilent (hputs : m.puts = false)
      (hsame : m'.session.discards place = m.session.discards place) :
      m'.session.discards place = m.session.discards place ++ m.traced place := by
    rw [traced_of_not_puts hputs, List.append_nil, hsame]
  cases step_iff.1 hs with
  | resume hf hsus => exact hsilent (by simp only [puts, hf]) rfl
  | @obey name action todo done hf =>
    cases action with
    | errand e =>
      by_cases ho : ∃ operation, e = .operate operation
      · obtain ⟨operation, rfl⟩ := ho
        exact hm.obey_discards hf place
      · have hother operation : e ≠ .operate operation := fun he => ho ⟨operation, he⟩
        refine hsilent ?_ (Session.discards_errand hother ..)
        cases e with
        | operate operation => exact absurd rfl (hother operation)
        | _ => simp only [puts, hf]
    | transfer request stream =>
      refine hsilent (by simp only [puts, hf]) ?_
      unfold obey
      dsimp only
      split <;> rfl
    | spawn id request stream token =>
      exact hsilent (by simp only [puts, hf]) (Session.discards_spawn ..)
    | poll id => exact hsilent (by simp only [puts, hf]) (m.discards_poll ..)
    | run id => exact hsilent (by simp only [puts, hf]) (m.discards_poll ..)
    | cancel token => exact hsilent (by simp only [puts, hf]) rfl
  | start hf hg => exact hm.start_discards hf hg place
  | turn hf hg hcall => exact hsilent (by simp [puts, hf, hg]) (m.discards_turn ..)
  | offer hf hg hidle => exact hsilent (by simp [puts, hf, hg]) (m.discards_offer ..)

/-! ## Runs -/

/-- A machine goes on, by its own steps from the machines on the list, and by what its sources write
without an answer. -/
inductive Visits (m : Machine) : List Machine → Machine → Prop
  | refl : Visits m [] m
  | step {past : List Machine} {m₁ m₂ : Machine} :
      Visits m past m₁ → m₁.step = some m₂ → Visits m (past ++ [m₁]) m₂
  | scribble {past : List Machine} {m₁ m₂ : Machine} {place : Nat} {marks : List Mark} :
      Visits m past m₁ → m₁.Scribbles place marks m₂ → Visits m past m₂

theorem Visits.sound (h : m.Visits past m') (hm : m.Sound) : m'.Sound := by
  induction h with
  | refl => exact hm
  | step _ hs ih => exact ih.step hs
  | scribble _ hw ih => exact ⟨hw.orderly ih, hw.steady ih⟩

theorem Visits.discards (h : m.Visits past m') (hm : m.Sound) (place : Nat) :
    m'.session.discards place
      = m.session.discards place ++ past.flatMap fun k => k.traced place := by
  induction h with
  | refl => exact (List.append_nil _).symm
  | @step past m₁ m₂ hv hs ih =>
    rw [(hv.sound hm).step_discards hs, ih, List.append_assoc, List.flatMap_append,
      List.flatMap_singleton]
  | scribble _ hw ih =>
    cases hw
    exact (Session.discards_update_of_nil rfl ..).trans ih

/-- The bytes that puts removed to make room are those that the journal tells of and those that made
room for single bytes. -/
theorem sum_traced (past : List Machine) (place : Nat) :
    (past.map fun k => (k.displaced place).length).sum
      = (past.flatMap fun k => k.traced place).sum
        + ((past.filter putsByte).map fun k => (k.displaced place).length).sum := by
  induction past with
  | nil => rfl
  | cons k past ih =>
    rw [List.map_cons, List.sum_cons, List.flatMap_cons, List.sum_append, ih, traced]
    cases hb : k.putsByte with
    | true =>
      rw [List.filter_cons_of_pos hb, List.map_cons, List.sum_cons, if_pos rfl, List.sum_nil]
      omega
    | false =>
      rw [List.filter_cons_of_neg (by simp [hb]), if_neg Bool.false_ne_true, sum_reportOf]
      omega

theorem Visits.head {m₁ : Machine} (h : m₁.Visits past m') (hs : m.step = some m₁) :
    m.Visits (m :: past) m' := by
  induction h with
  | refl => exact Visits.refl.step hs
  | step _ hs' ih => exact ih.step hs'
  | scribble _ hw ih => exact ih.scribble hw

/-- The machines from which as many steps lead on as asked for, or as there are. -/
def path (m : Machine) : Nat → List Machine
  | 0 => []
  | n + 1 =>
    match m.step with
    | none => []
    | some m' => m :: m'.path n

theorem visits_after (m : Machine) (n : Nat) : m.Visits (m.path n) (m.after n) := by
  induction n generalizing m with
  | zero => exact .refl
  | succ n ih =>
    simp only [path, after]
    cases hs : m.step with
    | none => exact .refl
    | some m' => exact (ih m').head hs

/-- What a put displaces is the beginning of the contents: what the ring contains afterwards, behind
it, is what it contained before and what the put has published. -/
theorem Sound.displaced_conserves (hm : m.Sound) (hs : m.step = some m')
    (hp : place < m.session.rings.size) (hputs : m.puts = true) :
    m.displaced place ++ (m'.session.ring place).contents
      = (m.session.ring place).contents ++ enteredOf (m.marks place) := by
  obtain ⟨-, hdeeds⟩ := (Stirs.step hs).deeds hm hp
  rw [displaced, if_pos hputs]
  exact hdeeds.conserves (hm.orderly.custody.sound hp) (hm.orderly.custody.keeps place)

/-- **What puts displace.** Along every run, whatever else happens in between and also where sources
write what they do not report, the unread bytes that puts have removed from a ring to make room are
as many as the journal says were discarded from it, and those besides that single bytes have
displaced. Step by step: what a put displaces is the beginning of the contents. If it displaces
anything, the journal gets one entry with the number of bytes, but nothing if it is a single byte
that is put; and no other step ever enters a discard. A single byte displaces one byte just if the
ring is full, overwrites, and has no transfer under way. -/
theorem reachable_displaces {tokens : Tokens} {commands : List Command}
    (h : (load tokens commands).Visits past m) (place : Nat) :
    (past.map fun k => (k.displaced place).length).sum
      = (m.session.discards place).sum
        + ((past.filter putsByte).map fun k => (k.displaced place).length).sum ∧
    ∀ m', m.step = some m' →
      (m.puts = true → place < m.session.rings.size →
        m.displaced place ++ (m'.session.ring place).contents
          = (m.session.ring place).contents ++ enteredOf (m.marks place)) ∧
      m'.session.discards place = m.session.discards place ++
        (if m.putsByte = true ∨ m.displaced place = [] then []
          else [(m.displaced place).length]) ∧
      ∀ name byte todo done,
        m.focus = .commands (.on name (.errand (.operate (.putByte byte))) :: todo) done →
        m.session.place? name = some place →
        let r := m.session.ring place
        (m.displaced place).length
          = if r.isFull ∧ r.overwriting ∧ r.occupancy.putting = none ∧ r.occupancy.taking = none
            then 1 else 0 := by
  have hload := sound_load tokens commands
  have hm := h.sound hload
  constructor
  · have hdiscards : m.session.discards place = past.flatMap fun k => k.traced place :=
      h.discards hload place
    rw [hdiscards]
    exact sum_traced past place
  · intro m' hs
    refine ⟨fun hputs hp => hm.displaced_conserves hs hp hputs, ?_, ?_⟩
    · rw [hm.step_discards hs]
      congr 1
      unfold traced reportOf
      cases m.putsByte <;> simp
    · intro name byte todo done hf hplace
      have hsound := hm.orderly.custody.sound
        (hm.orderly.custody.named _ (Session.mem_of_place? hplace))
      have hleft : m.displaced place
          = ((m.session.ring place).operated (.putByte byte)).left := by
        simp [displaced, puts, marks, hf, Session.marks, hplace, leftOf]
      rw [hleft]
      exact hsound.displaced_putByte byte

/-- A ring of two cells is filled, and then one byte, two from a source and a single one are put. -/
def crowdedPuts : List Command :=
  [.on 0 (.errand (.create ⟨2, true, none⟩)), .on 0 (.errand (.operate (.put [1, 2]))),
    .on 0 (.errand (.operate (.put [3]))), .on 0 (.transfer ⟨.fill, 2⟩ [.deliver [4, 5]]),
    .on 0 (.errand (.operate (.putByte 6)))]

theorem reachable_displaces_crowdedPuts :
    (((load .plain crowdedPuts).path 11).map fun k => (k.displaced 0).length).sum = 4 ∧
      ((load .plain crowdedPuts).after 11).session.discards 0 = [1, 2] := by
  obtain ⟨hsum, -⟩ := reachable_displaces (visits_after (load .plain crowdedPuts) 11) 0
  refine ⟨hsum.trans ?_, ?_⟩
  · decide +kernel
  · decide +kernel

/-- Single bytes are put into a ring of one cell. -/
def singleBytes : List Command :=
  [.on 0 (.errand (.create ⟨1, true, none⟩)), .on 0 (.errand (.operate (.putByte 1))),
    .on 0 (.errand (.operate (.putByte 2)))]

/-- The second one displaces the first, which nobody has read, and the journal does not say so. -/
theorem singleBytes_untraced : ∃ past m, (load .plain singleBytes).Visits past m ∧
    (past.map fun k => (k.displaced 0).length).sum = 1 ∧ m.session.discards 0 = [] :=
  ⟨_, _, visits_after (load .plain singleBytes) 3, by decide +kernel, by decide +kernel⟩

end Machine

end CyclicBuffer
