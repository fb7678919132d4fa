import CyclicBuffer.Proofs.Likeness

/-!
# Slices and streams

Bytes are put from a list or from a source, and taken into a list or given to a sink. An operation
copies its whole region at once; a transfer moves it in as many calls as its stream likes, chunk by
chunk and interrupted or not. Where the stream has all the bytes, or takes them all, nothing of that
is left to see: the answer, the bytes and the ring afterwards are the same, to the last cell
(`Machine.reachable_agrees`).
-/

namespace CyclicBuffer

open Occupancy

/-- A source ends when it has no bytes left. -/
theorem Supplies.total_eq {turns : List Turn} {s : Supply} (h : Supplies .put turns s) :
    s.total = some s.bytes.length := by
  induction h with
  | used_up source => rfl
  | endless sink => cases sink
  | stop turns => rfl
  | decline turns => rfl
  | fail final turns => rfl
  | retry interrupted more ih => exact ih
  | piece some more ih => simp only [Supply.after, ih, Option.map_some, List.length_append]
  | gulp sink some fixed more ih => cases sink

/-- A stream that has enough bytes, or takes enough, lets a transfer move all that it asks for. -/
theorem Supply.moved_eq {s : Supply} {count : Nat}
    (h : ∀ total, s.total = some total → count ≤ total) : s.moved count = count := by
  unfold moved
  split
  · rfl
  · rename_i total ht
    exact Nat.min_eq_left (h total ht)

/-! ## Whole operations -/

namespace Ring

variable {r r' r'' : Ring} {g : Grant} {events opening : List Event}

theorem trim_of_fits {data : Bytes} (h : data.length ≤ r.capacity ∨ r.overwriting = false) :
    r.trim data = data := by
  unfold trim
  rcases h with h | h
  · simp [Nat.not_lt.2 h]
  · simp [h]

/-- A put that gets its region fills it around from its start and commits all of it. -/
theorem Sound.put_eq_filled (h : r.Sound) {data : Bytes} (hkept : r.trim data = data)
    (hr : r.reserve .put data.length = .ok (g, r', opening))
    (hc : (r'.filled g data).commit { g with moved := g.moved + data.length }
      = .ok (r'', events)) :
    (r.put data).result = .ok () ∧ (r.put data).ring = r'' := by
  obtain ⟨r₁, closing, hcommit, heq⟩ :=
    h.moveWhole_ok (fun region storage => ((), storage.writeRegion region data)) hr
  obtain ⟨region, o, hro, rfl, rfl, -⟩ := reserve_ok hr
  obtain ⟨-, hfits, -, rfl, -⟩ := h.coherent.reservePut_ok hro
  have htail : r.occupancy.tail < r.storage.size := by
    rw [h.size_eq]
    exact h.coherent.tail_lt
  have hwhole : (⟨o, r.storage.writeRegion ⟨r.occupancy.tail, data.length⟩ data⟩ : Ring)
      = filled ⟨o, r.storage⟩ ⟨.put, ⟨r.occupancy.tail, data.length⟩, 0⟩ data := by
    have hcell : Region.cell (capacity ⟨o, r.storage⟩) ⟨r.occupancy.tail, data.length⟩ 0
        = r.occupancy.tail := cellAfter_zero htail
    rw [filled, hcell, r.storage.writeRegion_eq htail (by rw [h.size_eq]; exact hfits)]
  rw [Nat.zero_add] at hc
  dsimp only at hcommit
  rw [hwhole, hc] at hcommit
  cases hcommit
  rw [h.put_whole, hkept, heq]
  exact ⟨rfl, rfl⟩

/-- A take that gets its region reads it and commits all of it. -/
theorem Sound.take_eq_commit (h : r.Sound) {count : Nat}
    (hr : r.reserve .take count = .ok (g, r', opening))
    (hc : r'.commit { g with moved := g.moved + count } = .ok (r'', events)) :
    (r.take count).result = .ok (r.contents.take count) ∧ (r.take count).ring = r'' := by
  refine ⟨(h.contents_take_granted hr).1, ?_⟩
  obtain ⟨r₁, closing, hcommit, heq⟩ :=
    h.moveWhole_ok (fun region storage => (storage.readRegion region, storage)) hr
  obtain ⟨region, o, -, rfl, rfl, -⟩ := reserve_ok hr
  rw [Nat.zero_add] at hc
  dsimp only at hcommit
  rw [hc] at hcommit
  cases hcommit
  rw [h.take_whole, heq]

/-- Into which list bytes are taken makes no difference, where the list is long enough. -/
theorem takeInto_eq {destination : Bytes} {count : Nat} (hroom : count ≤ destination.length)
    (hsize : count ≤ maxSize) :
    (r.takeInto destination count).result
        = (r.takeList count).result.map (· ++ destination.drop count) ∧
      (r.takeInto destination count).ring = (r.takeList count).ring := by
  rw [takeInto, takeList, if_neg (Nat.not_lt.2 hroom), if_neg (Nat.not_lt.2 hsize)]
  exact ⟨rfl, rfl⟩

end Ring

/-! ## Transfers -/

namespace Machine

variable {m m' : Machine} {name place count : Nat} {purpose : Purpose} {stream : List Turn}
  {todo : List Command} {done : List Answer} {supply : Supply} {events : List Event} {ring : Ring}
  {g : Grant}

/-- A transfer that is asked for next comes to its end. It answers with this result, has handed
these bytes to its sink, and leaves its ring like this. -/
structure CarriesOut (m : Machine) (place : Nat) (todo : List Command) (done : List Answer)
    (result : Except Failure Value) (delivered : Bytes) (ring : Ring) (m' : Machine) : Prop where
  passes : ∃ marks, m.Passes place marks m' ∧ carriedOf .take marks = delivered
  suspended : m'.suspended = m.suspended
  tables : m.session.SameTables m'.session
  answer : ∃ calls standing events, m'.focus = .commands todo (done ++
    [⟨.settled result calls none, standing, events⟩])
  ring : m'.session.ring place = ring

/-- The step that finds the ring of a transfer. -/
theorem obey_transfer (hp : m.session.place? name = some place)
    (hf : m.focus = .commands (.on name (.transfer ⟨purpose, count⟩ stream) :: todo) done) :
    m.step = some (m.drive
      ⟨⟨name, place, ⟨purpose, count⟩, stream, none⟩, none, [], none, [], todo, done⟩) := by
  have hstep := step_iff.2 (.obey hf)
  simp only [obey, hp] at hstep
  exact hstep

/-- A transfer that gets no region answers why, and leaves everything as it was. -/
theorem carriesOut_refused (hp : m.session.place? name = some place)
    (hf : m.focus = .commands (.on name (.transfer ⟨purpose, count⟩ stream) :: todo) done)
    {e : Error} (hr : (m.session.ring place).reserve purpose.direction count = .error e) :
    ∃ m', m.CarriesOut place todo done (.error (.error e)) [] (m.session.ring place) m' := by
  have hobey := obey_transfer hp hf
  have hstart := step_iff.2 (.start (m := m.drive
    ⟨⟨name, place, ⟨purpose, count⟩, stream, none⟩, none, [], none, [], todo, done⟩) rfl rfl)
  simp only [start, drive, hr] at hstart
  refine ⟨_, ⟨_, (Passes.refl.step hobey).step hstart, ?_⟩, rfl, ⟨rfl, rfl, rfl, rfl⟩,
    ⟨_, _, _, rfl⟩, rfl⟩
  rw [List.nil_append, carriedOf_append, carriedOf_obey hf]
  simp [marks, drive, Passage.marks, Passage.parks?, hr, marksAt, carriedOf]

/-- A transfer that gets its region moves all of it, in however many calls, and commits it once. -/
theorem Sound.carriesOut_granted (hm : m.Sound) (hp : m.session.place? name = some place)
    (hf : m.focus = .commands (.on name (.transfer ⟨purpose, count⟩ stream) :: todo) done)
    (hsupply : Supplies purpose.direction stream supply)
    (henough : ∀ total, supply.total = some total → count ≤ total)
    (hr : (m.session.ring place).reserve purpose.direction count = .ok (g, ring, events)) :
    ∃ (m' : Machine) (closing : List Event),
      (ring.filled g (supply.written purpose.direction count)).commit
        { g with moved := g.moved + count } = .ok (m'.session.ring place, closing) ∧
      m.CarriesOut place todo done
        ((Request.verdict ⟨purpose, count⟩ count .complete).result.map Value.ofCount)
        (match purpose.direction with
          | .put => []
          | .take => ring.contents.take count)
        (m'.session.ring place) m' := by
  have hobey := obey_transfer hp hf
  have hknown := hm.orderly.custody.named _ (Session.mem_of_place? hp)
  have hs := hm.orderly.custody.sound hknown
  obtain ⟨m₁, p₁, h₁⟩ := (hm.step hobey).granted rfl rfl hr
  obtain ⟨_, _, -, hgrant, -, -⟩ := Ring.reserve_ok hr
  have hmoved : g.moved = 0 := by rw [hgrant]
  have hremaining : g.remaining = count := Ring.reserve_remaining hr
  obtain ⟨m', marks, hpasses, hserves, hshare, hother, closing, hcommit⟩ :=
    (h₁.between (hm.step hobey) rfl (by rintro q ⟨⟩) hr hs).served (s := supply)
      (by rw [h₁.stream]; exact hsupply)
  have hplace : p₁.transfer.ring = place := h₁.place
  have hring : m₁.session.ring place = ring := h₁.ring
  have hall : supply.moved g.remaining = count := by rw [hremaining, Supply.moved_eq henough]
  have hending : supply.ending g.remaining = .complete := if_pos (hall.trans hremaining.symm)
  simp only [hplace, hring, hall] at hcommit hshare hpasses
  refine ⟨m', closing, hcommit, ⟨_, (hpasses.head h₁.step).head hobey, ?_⟩,
    hserves.suspended.trans h₁.suspended, ?_, ?_, rfl⟩
  · rw [carriedOf_append, carriedOf_append, carriedOf_obey hf, h₁.marks, List.nil_append]
    have hbegun e : carriedOf e [(m.session.ring place).begun purpose.direction count] = [] := by
      unfold Ring.begun
      cases purpose.direction <;> rfl
    refine (congrArg (· ++ carriedOf .take marks) (hbegun .take)).trans ?_
    rw [List.nil_append]
    cases hd : purpose.direction with
    | put => exact hother .take (by simp [hd])
    | take =>
      rw [hd] at hshare
      rw [hshare, Supply.share, hmoved, List.drop_zero]
  · exact Session.SameTables.trans ⟨rfl, rfl, rfl, rfl⟩ (h₁.tables.trans hserves.tables)
  · obtain ⟨calls, standing, events', hfocus⟩ := hserves.answer
    rw [hmoved, hall, Nat.zero_add, hending, h₁.request, h₁.todo, h₁.done, Passage.shownPolls,
      h₁.polling] at hfocus
    exact ⟨calls, standing, events', hfocus⟩

/-- A source that has all the data puts it as the operation does. -/
theorem Sound.put_agrees (hm : m.Sound) (hp : m.session.place? name = some place) {data : Bytes}
    (hpurpose : purpose.direction = .put)
    (hf : m.focus = .commands (.on name (.transfer ⟨purpose, data.length⟩ stream) :: todo) done)
    (hsupply : Supplies .put stream supply) (hdata : data <+: supply.bytes)
    (hfits : data.length ≤ (m.session.ring place).capacity ∨
      (m.session.ring place).overwriting = false) :
    ∃ m', m.CarriesOut place todo done
      (((m.session.ring place).put data).result.map fun _ =>
        if purpose = .fill then .number data.length else .unit)
      [] ((m.session.ring place).put data).ring m' := by
  have hs := hm.orderly.custody.sound
    (hm.orderly.custody.named _ (Session.mem_of_place? hp))
  have hkept := Ring.trim_of_fits hfits
  cases hr : (m.session.ring place).reserve .put data.length with
  | error e =>
    have hput : (m.session.ring place).put data = .refuse (m.session.ring place) e :=
      Ring.put_of_reserve_error (by rw [hkept]; exact Ring.occupancy_error hr)
    rw [hput]
    exact carriesOut_refused hp hf (by rw [hpurpose]; exact hr)
  | ok v =>
    obtain ⟨g, ring, events⟩ := v
    have henough : ∀ total, supply.total = some total → data.length ≤ total := by
      intro total ht
      cases hsupply.total_eq.symm.trans ht
      exact hdata.length_le
    obtain ⟨m', closing, hcommit, hout⟩ := hm.carriesOut_granted hp hf
      (by rw [hpurpose]; exact hsupply) henough (by rw [hpurpose]; exact hr)
    have hwritten : supply.written purpose.direction data.length = data := by
      rw [hpurpose]
      exact (List.prefix_iff_eq_take.1 hdata).symm
    rw [hwritten] at hcommit
    obtain ⟨hres, hring⟩ := hs.put_eq_filled hkept hr hcommit
    rw [hres, hring]
    refine ⟨m', ?_⟩
    cases purpose with
    | fill => exact hout
    | fillExactly => exact hout
    | send => cases hpurpose

/-- A sink that takes enough is given what the operation takes. -/
theorem Sound.take_agrees (hm : m.Sound) (hp : m.session.place? name = some place)
    (hf : m.focus = .commands (.on name (.transfer ⟨.send, count⟩ stream) :: todo) done)
    (hsupply : Supplies .take stream supply)
    (henough : ∀ total, supply.total = some total → count ≤ total) :
    ∃ m', m.CarriesOut place todo done
      (((m.session.ring place).take count).result.map fun _ => .unit)
      (((m.session.ring place).take count).result.toOption.getD [])
      ((m.session.ring place).take count).ring m' := by
  have hs := hm.orderly.custody.sound
    (hm.orderly.custody.named _ (Session.mem_of_place? hp))
  cases hr : (m.session.ring place).reserve .take count with
  | error e =>
    have htake : (m.session.ring place).take count = .refuse (m.session.ring place) e :=
      Ring.take_of_reserve_error (Ring.occupancy_error hr)
    rw [htake]
    exact carriesOut_refused hp hf hr
  | ok v =>
    obtain ⟨g, ring, events⟩ := v
    obtain ⟨m', closing, hcommit, hout⟩ := hm.carriesOut_granted hp hf hsupply henough hr
    obtain ⟨hres, hring⟩ := hs.take_eq_commit hr hcommit
    rw [hres, hring]
    rw [show ring.contents = (m.session.ring place).contents from hs.contents_reserveTake hr]
      at hout
    exact ⟨m', hout⟩

/-- **A stream is as good as a list.** Whatever was done before and is under way, let bytes be put
from a source that has them all, be it with or without a count as the answer, and be the data no
longer than the ring or the ring one that does not overwrite. The transfer succeeds exactly where
the operation on the whole data does, fails with the same error otherwise, and leaves the ring with
the same counts and cells. In the same way it makes no difference whether bytes are taken into a
list, into a destination that is long enough, or by a sink that takes them all: the result, the
bytes and the ring are the same. Into how many calls a stream divides the bytes, and how often it is
interrupted between them, does not matter. -/
theorem reachable_agrees {tokens : Tokens} {commands : List Command} {origin : Nat}
    {before : List Mark} (h : (load tokens commands).Roams origin before m)
    (hp : m.session.place? name = some place) :
    (∀ (purpose : Purpose) (data : Bytes) (stream : List Turn) (supply : Supply)
        (todo : List Command) (done : List Answer), purpose.direction = .put →
      m.focus = .commands (.on name (.transfer ⟨purpose, data.length⟩ stream) :: todo) done →
      Supplies .put stream supply → data <+: supply.bytes →
      data.length ≤ (m.session.ring place).capacity ∨ (m.session.ring place).overwriting = false →
      ∃ m', m.CarriesOut place todo done
        (((m.session.ring place).put data).result.map fun _ =>
          if purpose = .fill then .number data.length else .unit)
        [] ((m.session.ring place).put data).ring m') ∧
    (∀ (count : Nat) (stream : List Turn) (supply : Supply) (todo : List Command)
        (done : List Answer), count ≤ Ring.maxSize →
      m.focus = .commands (.on name (.transfer ⟨.send, count⟩ stream) :: todo) done →
      Supplies .take stream supply → (∀ total, supply.total = some total → count ≤ total) →
      let taken := (m.session.ring place).takeList count
      (∀ destination : Bytes, count ≤ destination.length →
        ((m.session.ring place).takeInto destination count).result
            = taken.result.map (· ++ destination.drop count) ∧
          ((m.session.ring place).takeInto destination count).ring = taken.ring) ∧
      ∃ m', m.CarriesOut place todo done (taken.result.map fun _ => .unit)
        (taken.result.toOption.getD []) taken.ring m') := by
  have hm := h.sound_load
  constructor
  · intro purpose data stream supply todo done hpurpose hf hsupply hdata hfits
    exact hm.put_agrees hp hpurpose hf hsupply hdata hfits
  · intro count stream supply todo done hsize hf hsupply henough
    have htake : (m.session.ring place).takeList count = (m.session.ring place).take count :=
      if_neg (Nat.not_lt.2 hsize)
    refine ⟨fun destination hroom => Ring.takeInto_eq hroom hsize, ?_⟩
    rw [htake]
    exact hm.take_agrees hp hf hsupply henough

/-- While a take waits for its sink, three bytes are put from a source that hands out two pieces and
is interrupted between them; they pass the last cell. Later a sink takes all four by ones and
twos. -/
def brokenPieces : List Command :=
  [.on 0 (.errand (.create ⟨4, false, some [9, 8, 1]⟩)), .on 0 (.errand (.operate (.skip 2))),
    .on 0 (.spawn 1 ⟨.send, 1⟩ [.suspend false] 0), .on 0 (.poll 1),
    .on 0 (.transfer ⟨.fill, 3⟩ [.deliver [5], .fail (.bare .interrupted), .deliver [6, 7, 8]]),
    .on 0 (.errand (.drop 1)),
    .on 0 (.transfer ⟨.send, 4⟩ [.accept 1, .fail (.bare .interrupted), .accept 2])]

theorem reachable_agrees_brokenPieces :
    (∃ m', ((load .plain brokenPieces).after 7).CarriesOut 0 (brokenPieces.drop 5)
      ((load .plain brokenPieces).after 7).answers (.ok (.number 3)) []
      ((((load .plain brokenPieces).after 7).session.ring 0).put [5, 6, 7]).ring m') ∧
    ∃ m', ((load .plain brokenPieces).after 17).CarriesOut 0 []
      ((load .plain brokenPieces).after 17).answers (.ok .unit) [1, 5, 6, 7]
      ((((load .plain brokenPieces).after 17).session.ring 0).takeList 4).ring m' := by
  have hname (n : Nat) (h : ((load .plain brokenPieces).after n).session.names = [(0, 0)]) :
      ((load .plain brokenPieces).after n).session.place? 0 = some 0 := by
    rw [Session.place?, h]
    rfl
  obtain ⟨hputs, -⟩ :=
    reachable_agrees (passes_after (load .plain brokenPieces) 0 7).roams (hname 7 rfl)
  obtain ⟨-, htakes⟩ :=
    reachable_agrees (passes_after (load .plain brokenPieces) 0 17).roams (hname 17 rfl)
  have hput := hputs .fill [5, 6, 7] _ ⟨[5, 6, 7, 8], some 4, .dry⟩ _ _ rfl rfl
    (.piece (by decide) (.retry rfl (.piece (by decide) (.used_up rfl)))) ⟨[8], rfl⟩
    (.inl (by decide))
  have hsink : Supplies .take
      [.accept 1, .fail (.bare .interrupted), .accept 2] ⟨[], none, .dry⟩ :=
    .gulp rfl (by decide) (.inr rfl)
      (.retry rfl (.gulp rfl (by decide) (.inr rfl) (.endless rfl)))
  have htake := htakes 4 _ ⟨[], none, .dry⟩ [] _ (by decide) rfl hsink (fun total ht => by cases ht)
  exact ⟨hput, htake.2⟩

end Machine

end CyclicBuffer
