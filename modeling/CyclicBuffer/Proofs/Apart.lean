import CyclicBuffer.Proofs.Steps

/-!
# Rings with and without a reservation

On a ring that never overwrites, what one direction holds does not matter to the other. `Ring.Apart`
compares a ring on which a transfer is under way with the ring as it would be without that transfer.
Whatever is done in the other direction is answered alike by both rings and leaves them apart by the
same transfer (`Apart.reserve`, `Apart.commit`, `Apart.apply`), and what the transfer itself is
offered is a matter of its own part alone (`Apart.offer_own`). So the transfer can as well begin
after the others are done (`Apart.again`).
-/

namespace CyclicBuffer

open Occupancy

/-- The opposite direction. -/
def Direction.other : Direction → Direction
  | .put => .take
  | .take => .put

/-- The direction in which an operation moves bytes; those that clear the ring move none. -/
def Operation.direction? : Operation → Option Direction
  | .put _ | .putByte _ => some .put
  | .takeInto _ _ | .takeList _ | .takeByte | .skip _ => some .take
  | .reset | .drain => none

@[simp] theorem Direction.other_ne (d : Direction) : d.other ≠ d := by
  cases d <;> simp [other]

/-! ## Occupancies -/

namespace Occupancy

/-- The occupancy without the reservation of a direction. -/
def freed (o : Occupancy) : Direction → Occupancy
  | .put => { o with putting := none }
  | .take => { o with taking := none }

variable {o : Occupancy} {d : Direction}

theorem Coherent.freed (h : o.Coherent) (d : Direction) : (o.freed d).Coherent := by
  cases d with
  | put => exact ⟨h.head_lt, h.length_le, h.tail_eq, by simp [Occupancy.freed], h.taking⟩
  | take => exact ⟨h.head_lt, h.length_le, h.tail_eq, h.putting, by simp [Occupancy.freed]⟩

theorem freed_of_none (h : o.held d = none) : o.freed d = o := by
  obtain ⟨capacity, head, tail, length, overwriting, putting, taking⟩ := o
  cases d with
  | put =>
    obtain rfl : putting = none := h
    rfl
  | take =>
    obtain rfl : taking = none := h
    rfl

/-- What is reserved and held again is what was there. -/
theorem eq_of_freed {o' : Occupancy} (hheld : o'.held d = o.held d)
    (hfreed : o'.freed d = o.freed d) : o' = o := by
  obtain ⟨capacity, head, tail, length, overwriting, putting, taking⟩ := o
  obtain ⟨capacity', head', tail', length', overwriting', putting', taking'⟩ := o'
  cases d <;> simp_all [held, freed]

theorem checkTake_freed (o : Occupancy) (count : Nat) :
    (o.freed .put).checkTake count = o.checkTake count := rfl

/-- Without overwriting a reservation does not ask for the other direction. -/
theorem reserve_freed (h : o.overwriting = false) (d : Direction) (count : Nat) :
    (o.freed d).reserve d.other count
      = (o.reserve d.other count).map fun (region, o') => (region, o'.freed d) := by
  cases d with
  | put =>
    simp only [Direction.other, reserve, reserveTake, checkTake_freed]
    cases o.checkTake count <;> rfl
  | take =>
    obtain ⟨capacity, head, tail, length, overwriting, putting, taking⟩ := o
    obtain rfl : overwriting = false := h
    simp only [Direction.other, reserve, reservePut, freed, deficit, spare, Bool.false_and,
      Bool.false_eq_true, if_false]
    split
    · rfl
    split
    · rfl
    split <;> rfl

theorem commit_freed (o : Occupancy) (d : Direction) (moved : Nat) :
    (o.freed d).commit d.other moved
      = (o.commit d.other moved).map fun o' => o'.freed d := by
  cases d with
  | put =>
    simp only [Direction.other, commit, commitTake, freed]
    split <;> rfl
  | take =>
    simp only [Direction.other, commit, commitPut, freed]
    split <;> rfl

theorem putOne_freed (h : o.overwriting = false) :
    (o.freed .take).putOne = o.putOne.map fun (cell, o') => (cell, o'.freed .take) := by
  obtain ⟨capacity, head, tail, length, overwriting, putting, taking⟩ := o
  obtain rfl : overwriting = false := h
  simp only [putOne, freed, Bool.not_false, if_true]
  split
  · rfl
  split <;> rfl

theorem takeOne_freed (o : Occupancy) :
    (o.freed .put).takeOne = o.takeOne.map fun (cell, o') => (cell, o'.freed .put) := by
  simp only [takeOne, checkTake_freed]
  cases o.checkTake 1 <;> rfl

theorem skip_freed (o : Occupancy) (count : Nat) :
    (o.freed .put).skip count = (o.skip count).map fun o' => o'.freed .put := by
  simp only [skip, checkTake_freed]
  cases o.checkTake count <;> rfl

end Occupancy

/-! ## Queues -/

namespace Queue

/-- The queue as it shows itself without a transfer of this direction. -/
def freed (q : Queue) : Direction → Queue
  | .put => { q with putting := false }
  | .take => { q with taking := false }

theorem remove_freed (q : Queue) (count : Nat) (shown : Bytes → Operation.Value) :
    (q.freed .put).remove count shown
      = ((q.remove count shown).1, (q.remove count shown).2.freed .put) := by
  by_cases ht : q.taking = true
  · simp [remove, freed, refuse, ht]
  by_cases hc : q.content.length < count
  · simp [remove, freed, refuse, ht, hc]
  · simp [remove, freed, accept, ht, hc]

/-- Without overwriting an operation does not ask for the other direction. -/
theorem apply_freed {q : Queue} (h : q.overwriting = false) {d : Direction} {operation : Operation}
    (hop : operation.direction? = some d.other) :
    (q.freed d).apply operation = ((q.apply operation).1, (q.apply operation).2.freed d) := by
  cases d with
  | put =>
    cases operation with
    | takeInto destination count =>
      simp only [apply]
      split
      · rfl
      · exact q.remove_freed count _
    | takeList count =>
      simp only [apply]
      split
      · rfl
      · exact q.remove_freed count _
    | takeByte => exact q.remove_freed 1 fun bytes => .byte (bytes.headD 0)
    | skip count => exact q.remove_freed count fun _ => .unit
    | _ => cases hop
  | take =>
    cases operation with
    | put data =>
      simp only [apply, put, kept, freed, h]
      by_cases hp : q.putting = true
      · simp [refuse, hp, h]
      by_cases hc : q.capacity < data.length
      · simp [refuse, hp, hc, h]
      by_cases hf : q.content.length + data.length ≤ q.capacity
      · simp [accept, hp, hc, hf, h]
      · simp [refuse, hp, hc, hf, h, spare]
    | putByte byte =>
      simp only [apply, putByte, freed, h]
      by_cases hp : q.putting = true
      · simp [refuse, hp, h]
      by_cases hc : q.content.length < q.capacity
      · simp [accept, hp, hc, h]
      · simp [refuse, hp, hc, h]
    | _ => cases hop

end Queue

/-! ## Rings -/

/-- What a transfer has of its ring while it is under way. A put has the cells, since nobody else
writes; `origin` are the cells as they were when it began. A take has the bytes of its region. -/
inductive Hold where
  | put (region : Region) (cells origin : Storage)
  | take (region : Region) (capacity : Nat) (bytes : Bytes)

namespace Hold

def direction : Hold → Direction
  | put .. => .put
  | take .. => .take

def region : Hold → Region
  | put region _ _ | take region _ _ => region

/-- The same hold before anything was moved. -/
def fresh : Hold → Hold
  | put region _ origin => put region origin origin
  | take region capacity bytes => take region capacity bytes

def capacity : Hold → Nat
  | put _ cells _ => cells.size
  | take _ capacity _ => capacity

/-- What the transfer is offered next. -/
def offer (k : Hold) (g : Grant) : Offer :=
  match k with
  | put .. => .room (g.chunk k.capacity).length
  | take _ _ bytes => .bytes ((bytes.drop g.moved).take (g.chunk k.capacity).length)

/-- A source writes where it is offered room. -/
def receive (k : Hold) (g : Grant) (written : Bytes) : Hold :=
  match k with
  | put region cells origin => put region (cells.write (g.chunk cells.size).offset written) origin
  | take region capacity bytes => take region capacity bytes

@[simp] theorem direction_receive (k : Hold) (g : Grant) (written : Bytes) :
    (k.receive g written).direction = k.direction := by
  cases k <;> rfl

@[simp] theorem fresh_receive (k : Hold) (g : Grant) (written : Bytes) :
    (k.receive g written).fresh = k.fresh := by
  cases k <;> rfl

/-- What the transfer has of a ring, beside the same ring without the transfer. -/
def Of (r r' : Ring) : Hold → Prop
  | put _ cells origin => r.storage = cells ∧ r'.storage = origin ∧ origin.size = cells.size
  | take region capacity bytes =>
    r.storage.size = capacity ∧ r'.storage = r.storage ∧ r.contents.take region.count = bytes

end Hold

namespace Ring

/-- A ring on which a transfer is under way, and the ring as it is without that transfer. -/
structure Apart (k : Hold) (r r' : Ring) : Prop where
  sound : r.Sound
  steady : r.occupancy.overwriting = false
  held : r.occupancy.held k.direction = some k.region
  occupancy : r'.occupancy = r.occupancy.freed k.direction
  contents : r'.contents = r.contents
  hold : k.Of r r'

variable {k : Hold} {r r' r₁ : Ring} {g : Grant} {events : List Event}

/-- An operation that takes writes no cell. -/
theorem storage_of_take (r : Ring) {operation : Operation}
    (hop : operation.direction? = some .take) :
    (r.apply operation).ring.storage = r.storage := by
  cases operation with
  | takeInto destination count =>
    simp only [apply, takeInto]
    split
    · rfl
    · exact r.storage_take count
  | takeList count =>
    simp only [apply, takeList]
    split
    · rfl
    · exact r.storage_take count
  | takeByte =>
    simp only [apply, takeByte]
    split <;> rfl
  | skip count =>
    simp only [apply, skip]
    split <;> rfl
  | _ => cases hop

namespace Apart

theorem size (h : Apart k r r') : r'.storage.size = r.storage.size := by
  have hhold := h.hold
  cases k with
  | put region cells origin =>
    obtain ⟨rfl, rfl, hsize⟩ := hhold
    exact hsize
  | take region capacity bytes => rw [hhold.2.1]

theorem sound' (h : Apart k r r') : r'.Sound := by
  refine ⟨h.occupancy ▸ h.sound.coherent.freed _, ?_⟩
  rw [h.size, h.occupancy, h.sound.size_eq]
  cases k.direction <;> rfl

/-- A transfer that is under way is told from the ring without it by its hold. -/
theorem unique (h : Apart k r r') (h₁ : Apart k r₁ r') : r₁ = r := by
  have hoccupancy : r₁.occupancy = r.occupancy :=
    eq_of_freed (h₁.held.trans h.held.symm) (h₁.occupancy.symm.trans h.occupancy)
  have hstorage : r₁.storage = r.storage := by
    have hhold := h.hold
    have hhold₁ := h₁.hold
    cases k with
    | put region cells origin => exact hhold₁.1.trans hhold.1.symm
    | take region capacity bytes => exact hhold₁.2.1.symm.trans hhold.2.1
  cases r
  cases r₁
  simp_all

/-! ## The other direction -/

theorem reserve_eq (h : Apart k r r') (count : Nat) :
    r'.reserve k.direction.other count
      = (r.reserve k.direction.other count).map fun (g, r₁, events) =>
          (g, ⟨r₁.occupancy.freed k.direction, r'.storage⟩, events) := by
  have hdiscards : r'.discards k.direction.other count = r.discards k.direction.other count := by
    unfold discards
    rw [h.occupancy]
    cases k.direction <;> rfl
  unfold Ring.reserve
  rw [h.occupancy, reserve_freed h.steady, hdiscards]
  cases r.occupancy.reserve k.direction.other count <;> rfl

theorem commit_eq (h : Apart k r r') (hg : g.direction = k.direction.other) :
    r'.commit g = (r.commit g).map fun (r₁, events) =>
      (⟨r₁.occupancy.freed k.direction, r'.storage⟩, events) := by
  unfold Ring.commit
  rw [h.occupancy, hg, commit_freed]
  cases r.occupancy.commit k.direction.other g.moved <;> rfl

/-- What is done in the other direction leaves the transfer what it has. -/
theorem leaves (h : Apart k r r') (hs : r₁.Sound)
    (hterms : r₁.occupancy.terms = r.occupancy.terms)
    (hl : r.occupancy.Leaves r₁.occupancy k.direction) {storage : Storage}
    (hcontents : Ring.contents ⟨r₁.occupancy.freed k.direction, storage⟩ = r₁.contents)
    (hhold : k.Of r₁ ⟨r₁.occupancy.freed k.direction, storage⟩) :
    Apart k r₁ ⟨r₁.occupancy.freed k.direction, storage⟩ :=
  ⟨hs, (congrArg Prod.snd hterms).trans h.steady, hl.held.trans h.held, rfl, hcontents, hhold⟩

theorem reserve (h : Apart k r r') {count : Nat}
    (hr : r.reserve k.direction.other count = .ok (g, r₁, events)) :
    Apart k r₁ ⟨r₁.occupancy.freed k.direction, r'.storage⟩ := by
  have hr' := h.reserve_eq count
  rw [hr] at hr'
  have hs₁ := (leads_reserve hr).sound h.sound
  have hhold := h.hold
  obtain ⟨region, o, hro, rfl, hr₁, -⟩ := reserve_ok hr
  have hterms : r₁.occupancy.terms = r.occupancy.terms := by
    rw [hr₁]
    exact h.sound.coherent.reserve_terms hro
  have hl : r.occupancy.Leaves r₁.occupancy k.direction := by
    rw [hr₁]
    exact h.sound.coherent.reserve_leaves hro k.direction.other_ne.symm
  cases k with
  | put region cells origin =>
    refine h.leaves hs₁ hterms hl ?_ ?_
    · rw [h.sound'.contents_reserveTake hr', h.sound.contents_reserveTake hr, h.contents]
    · rw [hr₁]
      exact hhold
  | take region capacity bytes =>
    -- without overwriting nothing is discarded
    have hfits : r.occupancy.deficit count = 0 := by
      obtain ⟨-, -, hfits | ⟨hover, -⟩, -⟩ := h.sound.coherent.reservePut_ok hro
      · exact hfits
      · exact absurd (hover.symm.trans h.steady) (by simp)
    have hcontents : r₁.contents = r.contents := by
      rw [h.sound.contents_reservePut hr, hfits, List.drop_zero]
    have hdeficit : r'.occupancy.deficit count = r.occupancy.deficit count := by
      rw [h.occupancy]
      rfl
    refine h.leaves hs₁ hterms hl ?_ ⟨?_, ?_, ?_⟩
    · rw [h.sound'.contents_reservePut hr', hdeficit, hfits, List.drop_zero, h.contents, hcontents]
    · rw [hr₁]
      exact hhold.1
    · rw [hr₁]
      exact hhold.2.1
    · rw [hcontents]
      exact hhold.2.2

theorem commit (h : Apart k r r') (hg : g.direction = k.direction.other)
    (hheld : r.occupancy.held g.direction = some g.region) (hm : g.moved ≤ g.region.count)
    (hc : r.commit g = .ok (r₁, events)) :
    Apart k r₁ ⟨r₁.occupancy.freed k.direction, r'.storage⟩ := by
  have hc' := h.commit_eq hg
  rw [hc] at hc'
  have hfits : ∀ region, r.occupancy.held g.direction = some region → g.moved ≤ region.count := by
    intro region hregion
    cases hheld.symm.trans hregion
    exact hm
  have hs₁ := (leads_commit hfits hc).sound h.sound
  have hhold := h.hold
  obtain ⟨o, ho, hr₁, -⟩ := commit_ok hc
  have hterms : r₁.occupancy.terms = r.occupancy.terms := by
    rw [hr₁]
    exact commit_terms ho
  have hl : r.occupancy.Leaves r₁.occupancy k.direction := by
    rw [hr₁]
    exact commit_leaves ho (hg ▸ k.direction.other_ne.symm)
  rw [hg] at hfits
  cases k with
  | put region cells origin =>
    have hfits' : ∀ region, r'.occupancy.taking = some region → g.moved ≤ region.count := by
      rw [h.occupancy]
      exact hfits
    refine h.leaves hs₁ hterms hl ?_ ?_
    · rw [h.sound'.contents_commitTake hg hfits' hc', h.sound.contents_commitTake hg hfits hc,
        h.contents]
    · rw [hr₁]
      exact hhold
  | take region capacity bytes =>
    have hfits' : ∀ region, r'.occupancy.putting = some region → g.moved ≤ region.count := by
      rw [h.occupancy]
      exact hfits
    have hcontents := h.sound.contents_commitPut hg hfits hc
    have hstretch : r'.stretch g.moved = r.stretch g.moved := by
      simp only [stretch, h.occupancy, hhold.2.1]
      rfl
    have hcount : region.count ≤ r.occupancy.length := (h.sound.coherent.taking _ h.held).2
    refine h.leaves hs₁ hterms hl ?_ ⟨?_, ?_, ?_⟩
    · rw [h.sound'.contents_commitPut hg hfits' hc', hcontents, hstretch]
    · rw [hr₁]
      exact hhold.1
    · rw [hr₁]
      exact hhold.2.1
    · rw [hcontents, ← hhold.2.2, ← h.sound.take_stretch g.moved, List.take_take,
        Nat.min_eq_left hcount]

/-- A transfer in the other direction ends alike. -/
theorem settle (h : Apart k r r') (hg : g.direction = k.direction.other)
    (hheld : r.occupancy.held g.direction = some g.region) (hm : g.moved ≤ g.region.count)
    (verdict : Verdict (Option Nat)) :
    (r'.settle g verdict).result = (r.settle g verdict).result ∧
      (r'.settle g verdict).events = (r.settle g verdict).events ∧
      Apart k (r.settle g verdict).ring (r'.settle g verdict).ring := by
  obtain ⟨r₁, events, hc⟩ := commit_of_held hheld
  have hc' := h.commit_eq hg
  rw [hc] at hc'
  simp only [Ring.settle, hc, hc', Except.map, true_and]
  exact h.commit hg hheld hm hc

theorem room_eq (h : Apart k r r') (g : Grant) : r'.room g = r.room g := by
  simp only [room, capacity, h.size]

/-- A transfer in the other direction is offered the same. -/
theorem offer_eq (h : Apart k r r') (hg : g.direction = k.direction.other)
    (hheld : r.occupancy.held g.direction = some g.region) (hm : g.moved ≤ g.region.count) :
    r'.offer g = r.offer g := by
  cases k with
  | put region cells origin =>
    have htaking : r.occupancy.taking = some g.region := by rwa [hg] at hheld
    have htaking' : r'.occupancy.taking = some g.region := by
      rw [h.occupancy]
      exact htaking
    have hd : g.direction = .take := hg
    simp only [Ring.offer, hd, h.sound.offered_take htaking hm, h.sound'.offered_take htaking' hm,
      h.contents, h.room_eq]
  | take region capacity bytes =>
    have hd : g.direction = .put := hg
    simp only [Ring.offer, hd, h.room_eq]

/-- A source of the other direction writes to cells that are not the transfer's. -/
theorem receive (h : Apart k r r') (hg : g.direction = k.direction.other)
    (hheld : r.occupancy.held g.direction = some g.region) (hm : g.moved ≤ g.region.count)
    {written : Bytes} (ha : r.Accepts g written) :
    Apart k (r.receive g written) (r'.receive g written) := by
  cases k with
  | put region cells origin =>
    rw [ha.2 hg, receive_nil, receive_nil]
    exact h
  | take region capacity bytes =>
    have hputting : r.occupancy.putting = some g.region := by rwa [hg] at hheld
    have hputting' : r'.occupancy.putting = some g.region := by
      rw [h.occupancy]
      exact hputting
    have hcontents := h.sound.contents_receive hputting ha.1 hm
    obtain ⟨hsize, hstorage, hbytes⟩ := h.hold
    refine ⟨(r.leads_write _ _).sound h.sound, h.steady, h.held, h.occupancy, ?_, ?_, ?_, ?_⟩
    · rw [h.sound'.contents_receive hputting' (by rw [h.room_eq]; exact ha.1) hm, hcontents,
        h.contents]
    · rw [← hsize]
      exact Storage.size_write ..
    · simp only [Ring.receive, Ring.capacity, hstorage]
    · rw [hcontents]
      exact hbytes

/-! ## Whole operations -/

/-- A whole move in the other direction is refused by both rings or works on the same region. -/
theorem moveWhole (h : Apart k r r') {α : Type} (count : Nat)
    (work : Region → Storage → α × Storage) :
    (∃ e, r.moveWhole k.direction.other count work = .refuse r e ∧
      r'.moveWhole k.direction.other count work = .refuse r' e) ∨
    ∃ region o events,
      r.moveWhole k.direction.other count work
        = ⟨.ok (work region r.storage).1, ⟨o, (work region r.storage).2⟩, events⟩ ∧
      r'.moveWhole k.direction.other count work
        = ⟨.ok (work region r'.storage).1,
            ⟨o.freed k.direction, (work region r'.storage).2⟩, events⟩ := by
  have hr' := h.reserve_eq count
  cases hr : r.reserve k.direction.other count with
  | error e =>
    rw [hr] at hr'
    exact .inl ⟨e, by simp only [Ring.moveWhole, hr], by simp only [Ring.moveWhole, hr']; rfl⟩
  | ok granted =>
    obtain ⟨g, r₁, opening⟩ := granted
    rw [hr] at hr'
    obtain ⟨r₂, closing, hc, heq⟩ := h.sound.moveWhole_ok work hr
    obtain ⟨r₂', closing', hc', heq'⟩ := h.sound'.moveWhole_ok work hr'
    obtain ⟨region, o, -, rfl, rfl, -⟩ := reserve_ok hr
    obtain ⟨o₂, ho₂, rfl, rfl⟩ := commit_ok hc
    obtain ⟨o₂', ho₂', rfl, rfl⟩ := commit_ok hc'
    obtain rfl : o₂' = o₂.freed k.direction := by
      have hfreed := commit_freed o k.direction count
      have ho₂'' : (o.freed k.direction).commit k.direction.other count = .ok o₂' := ho₂'
      have ho₂''' : o.commit k.direction.other count = .ok o₂ := ho₂
      rw [ho₂'', ho₂'''] at hfreed
      exact Except.ok.inj hfreed
    exact .inr ⟨region, o₂, _, heq, heq'⟩

end Apart

/-- Two outcomes of an operation in the other direction, on cells that are told apart only by what
was there before. -/
structure Alike {α : Type} (d : Direction) (r r' : Ring) (o o' : Outcome α) : Prop where
  occupancy : o'.ring.occupancy = o.ring.occupancy.freed d
  events : o'.events = o.events
  storage : r'.storage = r.storage → o'.ring.storage = o.ring.storage

theorem Alike.map {α β : Type} {d : Direction} {o o' : Outcome α} (h : Alike d r r' o o')
    (f : α → β) : Alike d r r' (o.map f) (o'.map f) :=
  ⟨h.occupancy, h.events, h.storage⟩

namespace Apart

theorem alike_fail (h : Apart k r r') {α : Type} (f : Failure) :
    Alike k.direction r r' (.fail r f : Outcome α) (.fail r' f) :=
  ⟨h.occupancy, rfl, id⟩

theorem alike_moveWhole (h : Apart k r r') {α : Type} (count : Nat)
    (work : Region → Storage → α × Storage) :
    Alike k.direction r r' (r.moveWhole k.direction.other count work)
      (r'.moveWhole k.direction.other count work) := by
  rcases h.moveWhole count work with ⟨e, heq, heq'⟩ | ⟨region, o, events, heq, heq'⟩
  · rw [heq, heq']
    exact h.alike_fail _
  · rw [heq, heq']
    exact ⟨rfl, rfl, fun hs => by rw [hs]⟩

theorem alike_apply (h : Apart k r r') {operation : Operation}
    (hop : operation.direction? = some k.direction.other) :
    Alike k.direction r r' (r.apply operation) (r'.apply operation) := by
  have hoccupancy := h.occupancy
  cases k with
  | put region cells origin =>
    have htake count : Alike .put r r' (r.take count) (r'.take count) := by
      rw [h.sound.take_whole, h.sound'.take_whole]
      exact h.alike_moveWhole count _
    cases operation with
    | takeInto destination count =>
      simp only [apply, takeInto]
      split
      · exact (h.alike_fail _).map _
      · exact ((htake count).map _).map _
    | takeList count =>
      simp only [apply, takeList]
      split
      · exact (h.alike_fail _).map _
      · exact (htake count).map _
    | takeByte =>
      simp only [apply, takeByte]
      rw [hoccupancy, Hold.direction, takeOne_freed]
      cases r.occupancy.takeOne with
      | error e => exact (h.alike_fail _).map _
      | ok v => exact ⟨rfl, rfl, id⟩
    | skip count =>
      simp only [apply, skip]
      rw [hoccupancy, Hold.direction, skip_freed]
      cases r.occupancy.skip count with
      | error e => exact (h.alike_fail _).map _
      | ok v => exact ⟨rfl, rfl, id⟩
    | _ => cases hop
  | take region capacity bytes =>
    cases operation with
    | put data =>
      have htrim : r'.trim data = r.trim data := by
        simp only [trim, Ring.capacity, h.size, Ring.overwriting, hoccupancy]
        rfl
      simp only [apply, h.sound.put_whole, h.sound'.put_whole]
      rw [htrim]
      exact (h.alike_moveWhole (r.trim data).length _).map _
    | putByte byte =>
      simp only [apply, putByte]
      rw [hoccupancy, Hold.direction, putOne_freed h.steady]
      cases r.occupancy.putOne with
      | error e => exact (h.alike_fail _).map _
      | ok v => exact ⟨rfl, rfl, fun hs => by simp only [Except.map, Outcome.map, hs]⟩
    | _ => cases hop

theorem queue_eq (h : Apart k r r') : r'.queue = r.queue.freed k.direction := by
  simp only [queue, h.occupancy, h.contents]
  cases k <;> rfl

/-- An operation in the other direction answers both rings alike. -/
theorem apply (h : Apart k r r') {operation : Operation}
    (hop : operation.direction? = some k.direction.other) :
    (r'.apply operation).result = (r.apply operation).result ∧
      (r'.apply operation).events = (r.apply operation).events ∧
      Apart k (r.apply operation).ring (r'.apply operation).ring := by
  have halike := h.alike_apply hop
  have hs := (leads_apply h.sound operation).sound h.sound
  have hterms := (leads_apply h.sound operation).terms h.sound
  have hseen := h.sound'.seen_apply operation
  rw [h.queue_eq, Queue.apply_freed h.steady hop, ← h.sound.seen_apply operation] at hseen
  obtain ⟨hresult, hqueue⟩ := Prod.mk.inj hseen
  have hcontents : (r'.apply operation).ring.contents = (r.apply operation).ring.contents := by
    refine (congrArg Queue.content hqueue).trans ?_
    cases k <;> rfl
  have hheld : (r.apply operation).ring.occupancy.held k.direction = some k.region :=
    (h.sound.apply_leaves operation k.direction).held.trans h.held
  refine ⟨hresult, halike.events, hs, (congrArg Prod.snd hterms).trans h.steady, hheld,
    halike.occupancy, hcontents, ?_⟩
  have hhold := h.hold
  cases k with
  | put region cells origin =>
    exact ⟨(storage_of_take r hop).trans hhold.1, (storage_of_take r' hop).trans hhold.2.1,
      hhold.2.2⟩
  | take region capacity bytes =>
    obtain ⟨hsize, hstorage, hbytes⟩ := hhold
    have htaking : r.occupancy.taking ≠ none := by
      rw [show r.occupancy.taking = some region from h.held]
      simp
    obtain ⟨more, hmore⟩ := h.sound.apply_grows htaking operation
    have hcount : region.count ≤ r.contents.length := by
      rw [h.sound.length_contents]
      exact (h.sound.coherent.taking _ h.held).2
    refine ⟨?_, halike.storage hstorage, ?_⟩
    · rw [hs.size_eq, ← hsize, h.sound.size_eq]
      exact congrArg Prod.fst hterms
    · rw [hmore, List.take_append_of_le_length hcount]
      exact hbytes

/-! ## The direction of the transfer -/

/-- What a transfer is offered is a matter of its hold alone. -/
theorem offer_own (h : Apart k r r') (hd : g.direction = k.direction) (hg : g.region = k.region)
    (hm : g.moved ≤ g.region.count) : r.offer g = k.offer g := by
  have hhold := h.hold
  have hheld := h.held
  cases k with
  | put region cells origin =>
    have hdirection : g.direction = .put := hd
    obtain ⟨rfl, -⟩ := hhold
    simp only [Ring.offer, hdirection]
    rfl
  | take region capacity bytes =>
    have hdirection : g.direction = .take := hd
    have htaking : r.occupancy.taking = some g.region := by
      rw [hg]
      exact hheld
    obtain ⟨rfl, -, rfl⟩ := hhold
    have hroom : r.room g ≤ region.count - g.moved := by
      have hle := r.room_le g
      rwa [Grant.remaining, hg] at hle
    simp only [Ring.offer, hdirection, h.sound.offered_take htaking hm, Hold.offer]
    congr 1
    rw [List.drop_take, List.take_take]
    exact congrArg (List.take · _) (Nat.min_eq_left hroom).symm

theorem room_own (h : Apart k r r') (g : Grant) : r.room g = (g.chunk k.capacity).length := by
  have hhold := h.hold
  cases k with
  | put region cells origin =>
    obtain ⟨rfl, -⟩ := hhold
    rfl
  | take region capacity bytes =>
    obtain ⟨rfl, -⟩ := hhold
    rfl

/-- What a transfer writes is its own. -/
theorem receive_own (h : Apart k r r') (hd : g.direction = k.direction) (hg : g.region = k.region)
    (hm : g.moved ≤ g.region.count) {written : Bytes} (ha : r.Accepts g written) :
    Apart (k.receive g written) (r.receive g written) r' := by
  have hhold := h.hold
  have hheld := h.held
  cases k with
  | put region cells origin =>
    have hputting : r.occupancy.putting = some g.region := by
      rw [hg]
      exact hheld
    obtain ⟨rfl, rfl, hsize⟩ := hhold
    refine ⟨(r.leads_write _ _).sound h.sound, h.steady, hheld, h.occupancy, ?_, rfl, rfl, ?_⟩
    · rw [h.sound.contents_receive hputting ha.1 hm, h.contents]
    · rw [hsize]
      exact (Storage.size_write ..).symm
  | take region capacity bytes =>
    rw [ha.2 hd, receive_nil]
    exact h

end Apart

/-- What a grant has of the ring on which it was reserved. -/
def share (r : Ring) (g : Grant) : Hold :=
  match g.direction with
  | .put => .put g.region r.storage r.storage
  | .take => .take g.region r.storage.size (r.contents.take g.region.count)

/-- A reservation sets a ring apart from what it was. -/
theorem Sound.apart (h : r.Sound) (hsteady : r.occupancy.overwriting = false) {d : Direction}
    {count : Nat} (hr : r.reserve d count = .ok (g, r₁, events)) :
    Apart (r.share g) r₁ r ∧ g = ⟨d, g.region, 0⟩ ∧ g.region.count = count ∧
      events = [.reserved d g.region.offset count] := by
  have hs₁ := (leads_reserve hr).sound h
  obtain ⟨region, o, hro, rfl, hr₁, rfl⟩ := reserve_ok hr
  obtain ⟨hnone, -, hcount⟩ := h.coherent.reserve_held hro
  cases d with
  | put =>
    obtain ⟨-, -, hfits, rfl, rfl⟩ := h.coherent.reservePut_ok hro
    have hzero : r.occupancy.deficit count = 0 := by
      refine hfits.resolve_right fun hover => ?_
      exact absurd (hover.1.symm.trans hsteady) (by simp)
    have hcontents : r₁.contents = r.contents := by
      rw [h.contents_reservePut hr, hzero, List.drop_zero]
    subst hr₁
    refine ⟨⟨hs₁, hsteady, rfl, ?_, hcontents.symm, rfl, rfl, rfl⟩, rfl, hcount, ?_⟩
    · rw [hzero, h.coherent.discard_zero]
      exact (freed_of_none hnone).symm
    · simp [discards, hzero]
  | take =>
    obtain ⟨-, -, rfl, rfl⟩ := reserveTake_ok.1 hro
    have hcontents := h.contents_reserveTake hr
    subst hr₁
    refine ⟨⟨hs₁, hsteady, rfl, ?_, hcontents.symm, rfl, rfl, ?_⟩, rfl, hcount, rfl⟩
    · exact (freed_of_none hnone).symm
    · exact congrArg (List.take count) hcontents

/-- A transfer that is under way could begin now: it would get the same region with the same bytes
in it. -/
theorem Apart.again (h : Apart k r r') :
    ∃ r₁, r'.reserve k.direction k.region.count = .ok (⟨k.direction, k.region, 0⟩, r₁,
        [.reserved k.direction k.region.offset k.region.count]) ∧
      Apart k.fresh r₁ r' := by
  have hco := h.sound.coherent
  have hheld := h.held
  have hhold := h.hold
  obtain ⟨o, ho⟩ : ∃ o, r'.occupancy.reserve k.direction k.region.count = .ok (k.region, o) := by
    rw [h.occupancy]
    cases k with
    | put region cells origin =>
      obtain ⟨hoffset, hroom⟩ := hco.putting region hheld
      have hregion : region = ⟨r.occupancy.tail, region.count⟩ := by rw [← hoffset]
      have hfits : ¬ (r.occupancy.freed .put).capacity < region.count :=
        Nat.not_lt.2 (Nat.le_trans (Nat.le_add_left ..) hroom)
      have hzero : (r.occupancy.freed .put).deficit region.count = 0 := Nat.sub_eq_zero_of_le hroom
      refine ⟨((r.occupancy.freed .put).holdPut region.count).2, ?_⟩
      simp only [Hold.direction, Hold.region, Occupancy.reserve]
      rw [reservePut, if_neg (by simp [freed]), if_neg hfits, if_pos hzero]
      exact congrArg (fun region => Except.ok (region, _)) hregion.symm
    | take region capacity bytes =>
      obtain ⟨hoffset, hcount⟩ := hco.taking region hheld
      have hregion : region = ⟨r.occupancy.head, region.count⟩ := by rw [← hoffset]
      exact ⟨_, reserveTake_ok.2 ⟨rfl, hcount, hregion, rfl⟩⟩
  have hsteady : r'.occupancy.overwriting = false := by
    rw [h.occupancy]
    cases k <;> exact h.steady
  obtain ⟨opening, hr⟩ := reserve_of_ok ho
  obtain ⟨hapart, -, -, rfl⟩ := h.sound'.apart hsteady hr
  have hshare : r'.share ⟨k.direction, k.region, 0⟩ = k.fresh := by
    cases k with
    | put region cells origin => exact congrArg (fun cells => Hold.put region cells cells) hhold.2.1
    | take region capacity bytes =>
      obtain ⟨rfl, hstorage, rfl⟩ := hhold
      simp only [share, Hold.direction, Hold.region, Hold.fresh, h.contents, hstorage]
  exact ⟨_, hr, hshare ▸ hapart⟩

end Ring

end CyclicBuffer
