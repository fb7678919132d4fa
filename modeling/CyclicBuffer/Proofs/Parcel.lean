import CyclicBuffer.Proofs.Queue

/-!
# Parcels

What an operation moves, and where the bytes of a transfer under way are. An accepted operation
takes bytes from the front of the contents and appends others (`Queue.apply_moves`). A `Parcel` is
what a transfer has moved so far: the bytes of a put lie directly behind the contents, where nothing
but its own source writes, and those of a take are the first of the contents, which nothing removes
before it ends. So a ring carries a parcel (`Ring.Carries`) through whatever happens in the
meantime.
-/

namespace CyclicBuffer

open Occupancy

/-! ## What operations move -/

namespace Queue

/-- What an operation appends where it is accepted. -/
def published (q : Queue) : Operation → Bytes
  | .put data => q.kept data
  | .putByte byte => [byte]
  | _ => []

/-- The bytes of an answer. -/
def bytesOf : Operation.Value → Bytes
  | .unit => []
  | .byte b => [b]
  | .bytes data => data

/-- What an operation removes where it is accepted with the answer `v`: what it hands out, or what
it drops. -/
def removed (q : Queue) (operation : Operation) (v : Operation.Value) : Bytes :=
  match operation with
  | .takeInto _ count => (bytesOf v).take count
  | .takeList _ | .takeByte | .drain => bytesOf v
  | .skip count => q.content.take count
  | .reset => q.content
  | .put _ | .putByte _ =>
    q.content.take (q.content.length + (q.published operation).length - q.capacity)

/-- An accepted operation takes the first `n` bytes away and appends what it publishes. -/
structure Moves (q q' : Queue) (operation : Operation) (v : Operation.Value) (n : Nat) : Prop where
  removed : q.removed operation v = q.content.take n
  content : q'.content = q.content.drop n ++ q.published operation
  /-- While a take is under way nothing is removed. -/
  taking : q.taking = true → n = 0

variable {q q' : Queue} {v : Operation.Value}

theorem put_moves {data : Bytes} (h : q.put data = (.ok v, q')) :
    ∃ n, q.Moves q' (.put data) v n := by
  refine ⟨q.content.length + (q.kept data).length - q.capacity, rfl, ?_, ?_⟩
  all_goals
    unfold put at h
    split at h
    · cases h
    split at h
    · cases h
    split at h
    · rename_i hfits
      cases h
      simp [published, Nat.sub_eq_zero_of_le hfits]
    split at h
    · rename_i hover
      cases h
      simp only [Bool.and_eq_true, Bool.not_eq_true'] at hover
      simp [published, kept, hover.1, hover.2, lastBytes_append]
    · cases h

theorem putByte_moves {byte : UInt8} (hc : 1 ≤ q.capacity)
    (h : q.putByte byte = (.ok v, q')) : ∃ n, q.Moves q' (.putByte byte) v n := by
  have hlast : lastBytes q.capacity [byte] = [byte] := lastBytes_of_le hc
  refine ⟨q.content.length + 1 - q.capacity, rfl, ?_, ?_⟩
  all_goals
    unfold putByte at h
    split at h
    · cases h
    split at h
    · rename_i hfits
      cases h
      simp [published, Nat.sub_eq_zero_of_le (Nat.succ_le_of_lt hfits)]
    split at h
    · cases h
    split at h
    · cases h
    · rename_i ht
      cases h
      simp [published, ht, lastBytes_append, hlast]

theorem remove_ok {count : Nat} {shown : Bytes → Operation.Value}
    (h : q.remove count shown = (.ok v, q')) :
    q.taking = false ∧ count ≤ q.content.length ∧ v = shown (q.content.take count) ∧
      q'.content = q.content.drop count := by
  unfold remove at h
  split at h
  · cases h
  split at h
  · cases h
  · rename_i ht hlen
    cases h
    exact ⟨by simpa using ht, by omega, rfl, rfl⟩

theorem empty_ok {w : Operation.Value} (h : q.empty w = (.ok v, q')) :
    q.taking = false ∧ v = w ∧ q'.content = [] := by
  unfold empty at h
  split at h
  · cases h
  split at h
  · cases h
  · rename_i ht
    cases h
    exact ⟨by simpa using ht, rfl, rfl⟩

/-- Every accepted operation takes bytes from the front and appends others. -/
theorem apply_moves {operation : Operation} (hc : 1 ≤ q.capacity)
    (h : q.apply operation = (.ok v, q')) : ∃ n, q.Moves q' operation v n := by
  cases operation with
  | put data => exact put_moves h
  | putByte byte => exact putByte_moves hc h
  | takeInto destination count =>
    simp only [apply] at h
    split at h
    · cases h
    obtain ⟨ht, hle, rfl, hq⟩ := remove_ok h
    refine ⟨count, ?_, by simp [hq, published], by simp [ht]⟩
    simp [removed, bytesOf, hle]
  | takeList count =>
    simp only [apply] at h
    split at h
    · cases h
    obtain ⟨ht, hle, rfl, hq⟩ := remove_ok h
    exact ⟨count, rfl, by simp [hq, published], by simp [ht]⟩
  | takeByte =>
    simp only [apply] at h
    obtain ⟨ht, hle, rfl, hq⟩ := remove_ok h
    refine ⟨1, ?_, by simp [hq, published], by simp [ht]⟩
    obtain ⟨b, rest, hb⟩ := List.exists_cons_of_length_pos hle
    simp [removed, bytesOf, hb]
  | skip count =>
    simp only [apply] at h
    obtain ⟨ht, -, rfl, hq⟩ := remove_ok h
    exact ⟨count, rfl, by simp [hq, published], by simp [ht]⟩
  | reset =>
    obtain ⟨ht, rfl, hq⟩ := empty_ok h
    exact ⟨q.content.length, by simp [removed], by simp [hq, published], by simp [ht]⟩
  | drain =>
    obtain ⟨ht, rfl, hq⟩ := empty_ok h
    exact ⟨q.content.length, by simp [removed, bytesOf], by simp [hq, published], by simp [ht]⟩

/-- A refused operation leaves the queue as it was. -/
theorem apply_refused {operation : Operation} {f : Failure}
    (h : q.apply operation = (.error f, q')) : q' = q := by
  cases operation
  all_goals
    simp only [apply, put, putByte, remove, empty, refuse, accept] at h
    repeat' split at h
    all_goals cases h
    all_goals rfl

end Queue

/-! ## The bytes of transfers under way -/

/-- What a transfer has moved so far: its grant, and the bytes that it wrote or was given. -/
structure Parcel where
  grant : Grant
  bytes : Bytes
deriving DecidableEq, Repr

namespace Ring

/-- Where the bytes of a parcel are. Those of a put lie directly behind the contents; those of a
take are the first of the contents. -/
def Shows (r : Ring) (p : Parcel) : Direction → Prop
  | .put => r.contents ++ p.bytes = r.stretch p.grant.moved
  | .take => p.bytes = r.contents.take p.grant.moved

/-- A direction of the ring is held by the transfer of a parcel. -/
structure Carries (r : Ring) (d : Direction) (p : Parcel) : Prop where
  direction : p.grant.direction = d
  held : r.occupancy.held d = some p.grant.region
  moved_le : p.grant.moved ≤ p.grant.region.count
  shows : r.Shows p d

variable {r r' : Ring} {p : Parcel} {d : Direction}

theorem Sound.stretch_eq (h : r.Sound) (n : Nat) :
    r.stretch n = r.contents ++ r.storage.around r.occupancy.tail n := by
  rw [h.contents_eq, stretch, stretch, Nat.add_zero, Storage.around_add, h.size_eq,
    h.coherent.tail_eq]

theorem Carries.fits (h : r.Carries d p) :
    ∀ region, r.occupancy.held d = some region → p.grant.moved ≤ region.count := by
  intro region hr
  cases h.held.symm.trans hr
  exact h.moved_le

theorem Carries.ne_none (h : r.Carries d p) : r.occupancy.held d ≠ none := by
  simp [h.held]

/-- The bytes of a put stay where they are as long as no cell is written. -/
theorem Carries.keep_put (h : r.Carries .put p) (hs : r.Sound) (hs' : r'.Sound)
    (hl : r.occupancy.Leaves r'.occupancy .put) (hw : r'.storage = r.storage) :
    r'.Carries .put p := by
  have htail : r'.occupancy.tail = r.occupancy.tail := hl.cursor h.ne_none
  refine ⟨h.direction, hl.held.trans h.held, h.moved_le, ?_⟩
  have hbytes := h.shows
  simp only [Shows, hs.stretch_eq, List.append_cancel_left_eq] at hbytes
  simp only [Shows, hs'.stretch_eq, hw, htail, hbytes]

/-- The bytes of a take stay the first of the contents as long as the contents only grow. -/
theorem Carries.keep_take (h : r.Carries .take p) (hs : r.Sound)
    (hl : r.occupancy.Leaves r'.occupancy .take) {more : Bytes}
    (hc : r'.contents = r.contents ++ more) : r'.Carries .take p := by
  refine ⟨h.direction, hl.held.trans h.held, h.moved_le, ?_⟩
  have hle : p.grant.moved ≤ r.contents.length := by
    rw [hs.length_contents]
    exact Nat.le_trans h.moved_le (hs.coherent.taking _ h.held).2
  rw [Shows, hc, List.take_append_of_le_length hle]
  exact h.shows

/-! ## Operations beside transfers -/

theorem storage_take (r : Ring) (count : Nat) : (r.take count).ring.storage = r.storage := by
  unfold take moveAll
  split
  · rfl
  · rename_i g reserved opening hr
    obtain ⟨_, _, _, -, rfl, -⟩ := reserve_ok hr
    dsimp only
    split
    · exact Grant.workOff_storage ..
    · rename_i hc
      obtain ⟨_, _, heq, -⟩ := commit_ok hc
      exact heq ▸ Grant.workOff_storage ..

/-- While a put is under way no operation writes a cell. -/
theorem storage_apply (hp : r.occupancy.putting ≠ none) (operation : Operation) :
    (r.apply operation).ring.storage = r.storage := by
  have hsome : r.occupancy.putting.isSome = true := by
    simpa [Option.isSome_iff_ne_none] using hp
  have hdoes := r.apply_does operation
  generalize (r.apply operation).ring = r', (r.apply operation).events = events at hdoes ⊢
  cases hdoes with
  | put data =>
    have hr : r.occupancy.reserve .put (r.trim data).length = .error (.operationInProgress .put) :=
      if_pos hsome
    rw [put_of_reserve_error hr]
    rfl
  | take count => exact r.storage_take count
  | putByte byte hr => simp [putOne, hsome] at hr
  | reset hr => simp [Occupancy.reset, hsome] at hr
  | drain hr => simp [Occupancy.reset, hsome] at hr
  | _ => rfl

/-- An accepted operation moves bytes as on the queue that the ring shows. -/
theorem Sound.apply_moves (h : r.Sound) {operation : Operation} {v : Operation.Value}
    (hr : (r.apply operation).result = .ok v) :
    ∃ n, r.queue.Moves (r.apply operation).ring.queue operation v n := by
  have hseen := h.seen_apply operation
  rw [Outcome.seen, hr] at hseen
  exact Queue.apply_moves (Nat.zero_lt_of_lt h.coherent.head_lt) hseen.symm

theorem Sound.apply_refused (h : r.Sound) {operation : Operation} {f : Failure}
    (hr : (r.apply operation).result = .error f) :
    (r.apply operation).ring.contents = r.contents := by
  have hseen := h.seen_apply operation
  rw [Outcome.seen, hr] at hseen
  exact congrArg Queue.content (Queue.apply_refused hseen.symm)

/-- While a take is under way an operation can only append to the contents. -/
theorem Sound.apply_grows (h : r.Sound) (ht : r.occupancy.taking ≠ none) (operation : Operation) :
    ∃ more, (r.apply operation).ring.contents = r.contents ++ more := by
  cases hr : (r.apply operation).result with
  | error f => exact ⟨[], by rw [h.apply_refused hr, List.append_nil]⟩
  | ok v =>
    obtain ⟨n, hm⟩ := h.apply_moves hr
    have hn : n = 0 := hm.taking (by simpa [queue, Option.isSome_iff_ne_none] using ht)
    subst hn
    exact ⟨_, hm.content⟩

/-- What a transfer under way has moved stays where it is during any operation. -/
theorem Carries.apply (h : r.Carries d p) (hs : r.Sound) (operation : Operation) :
    (r.apply operation).ring.Carries d p := by
  have hl := hs.apply_leaves operation d
  cases d with
  | put =>
    exact h.keep_put hs ((leads_apply hs operation).sound hs) hl (storage_apply h.ne_none operation)
  | take =>
    obtain ⟨more, hmore⟩ := hs.apply_grows h.ne_none operation
    exact h.keep_take hs hl hmore

/-! ## Transfers beside each other -/

theorem Sound.carries_reserve (h : r.Sound) {count : Nat} {g : Grant} {events : List Event}
    (hr : r.reserve d count = .ok (g, r', events)) : r'.Carries d ⟨g, []⟩ := by
  have hs := (leads_reserve hr).sound h
  obtain ⟨region, o, hro, rfl, rfl, -⟩ := reserve_ok hr
  refine ⟨rfl, (h.coherent.reserve_held hro).2.1, Nat.zero_le _, ?_⟩
  cases d with
  | put => simp only [Shows, List.append_nil, hs.contents_eq]
  | take => rfl

theorem Sound.contents_reserveTake (h : r.Sound) {count : Nat} {g : Grant} {events : List Event}
    (hr : r.reserve .take count = .ok (g, r', events)) : r'.contents = r.contents := by
  rw [((leads_reserve hr).sound h).contents_eq, stretch_reserveTake hr, ← h.contents_eq]

/-- A transfer that begins leaves the bytes of the other direction where they are. -/
theorem Carries.reserve (h : r.Carries d p) (hs : r.Sound) {e : Direction} {count : Nat} {g : Grant}
    {events : List Event} (hr : r.reserve e count = .ok (g, r', events)) (hd : d ≠ e) :
    r'.Carries d p := by
  have hs' := (leads_reserve hr).sound hs
  obtain ⟨region, o, hro, -, hr', -⟩ := reserve_ok hr
  have hl : r.occupancy.Leaves r'.occupancy d := hr' ▸ hs.coherent.reserve_leaves hro hd
  cases d with
  | put => exact h.keep_put hs hs' hl (hr' ▸ rfl)
  | take =>
    cases e with
    | take => exact absurd rfl hd
    | put =>
      -- a take under way lets nothing be discarded
      obtain ⟨-, -, hfits | ⟨-, hnone⟩, -⟩ := hs.coherent.reservePut_ok hro
      · have hcon := hs.contents_reservePut hr
        exact h.keep_take hs hl (by rw [hcon, hfits, List.drop_zero, List.append_nil])
      · exact absurd hnone h.ne_none

/-- A put publishes what it has written; a take removes what it has been given. -/
theorem Carries.contents_commit (h : r.Carries d p) (hs : r.Sound) {events : List Event}
    (hc : r.commit p.grant = .ok (r', events)) :
    r'.contents = match d with
      | .put => r.contents ++ p.bytes
      | .take => r.contents.drop p.grant.moved := by
  cases d with
  | put => rw [hs.contents_commitPut h.direction h.fits hc, ← show _ = _ from h.shows]
  | take => exact hs.contents_commitTake h.direction h.fits hc

/-- A transfer that ends leaves the bytes of the other direction where they are. -/
theorem Carries.commit (h : r.Carries d p) (hs : r.Sound) {e : Direction} {q : Parcel}
    {events : List Event} (hq : r.Carries e q) (hc : r.commit q.grant = .ok (r', events))
    (hd : d ≠ e) : r'.Carries d p := by
  have hs' : r'.Sound := (leads_commit (hq.direction ▸ hq.fits) hc).sound hs
  have hcon := hq.contents_commit hs hc
  obtain ⟨o, ho, rfl, -⟩ := commit_ok hc
  have hl := commit_leaves ho (hq.direction.symm ▸ hd)
  cases d with
  | put => exact h.keep_put hs hs' hl rfl
  | take =>
    cases e with
    | take => exact absurd rfl hd
    | put => exact h.keep_take hs hl hcon

/-- A source that writes where it is offered room, and counts some of what it writes, makes the put
hold so many bytes more. -/
theorem Carries.receive (h : r.Carries .put p) (hs : r.Sound) {data : Bytes} {count : Nat}
    (hd : data.length ≤ r.room p.grant) (hc : count ≤ data.length) :
    (r.receive p.grant data).Carries .put
      ⟨{ p.grant with moved := p.grant.moved + count }, p.bytes ++ data.take count⟩ := by
  have hroom := r.room_le p.grant
  have hrem : p.grant.remaining = p.grant.region.count - p.grant.moved := rfl
  refine ⟨h.direction, h.held, ?_, ?_⟩
  · have := h.moved_le
    show p.grant.moved + count ≤ p.grant.region.count
    omega
  · have hrun := congrArg (List.take (r.occupancy.length + (p.grant.moved + count)))
      (hs.stretch_receive h.held hd h.moved_le)
    have hshows : r.contents ++ p.bytes = r.stretch p.grant.moved := h.shows
    have hlen : r.occupancy.length + (p.grant.moved + count)
        = (r.stretch p.grant.moved).length + count := by
      rw [length_stretch]
      omega
    rw [show r.occupancy.length = (r.receive p.grant data).occupancy.length from rfl,
      take_stretch _ (by omega)] at hrun
    simp only [Shows]
    rw [hs.contents_receive h.held hd h.moved_le, hrun,
      show (r.receive p.grant data).occupancy.length = r.occupancy.length from rfl, hlen,
      List.take_length_add_append, ← List.append_assoc, hshows]

/-- A sink that counts some of what it is offered has been given so many bytes more. -/
theorem Carries.give (h : r.Carries .take p) (hs : r.Sound) {count : Nat}
    (hc : count ≤ (r.offered p.grant).length) :
    r.Carries .take ⟨{ p.grant with moved := p.grant.moved + count },
      p.bytes ++ (r.offered p.grant).take count⟩ := by
  have hoffer := hs.offered_take h.held h.moved_le
  have hroom := r.room_le p.grant
  have hrem : p.grant.remaining = p.grant.region.count - p.grant.moved := rfl
  have hle : count ≤ r.room p.grant := by
    rw [hoffer, List.length_take] at hc
    omega
  refine ⟨h.direction, h.held, ?_, ?_⟩
  · have := h.moved_le
    show p.grant.moved + count ≤ p.grant.region.count
    omega
  · have hshows : p.bytes = r.contents.take p.grant.moved := h.shows
    simp only [Shows]
    rw [hshows, hoffer, List.take_take, Nat.min_eq_left hle, ← List.take_add]

/-! ## Both directions -/

/-- A direction of the ring is held by the transfer of a parcel, or by none. -/
def Tracks (r : Ring) (d : Direction) : Option Parcel → Prop
  | none => r.occupancy.held d = none
  | some p => r.Carries d p

variable {q : Option Parcel}

theorem Tracks.apply (h : r.Tracks d q) (hs : r.Sound) (operation : Operation) :
    (r.apply operation).ring.Tracks d q := by
  cases q with
  | none => exact (hs.apply_leaves operation d).held.trans h
  | some p => exact Carries.apply h hs operation

theorem Tracks.reserve (h : r.Tracks d q) (hs : r.Sound) {e : Direction} {count : Nat} {g : Grant}
    {events : List Event} (hr : r.reserve e count = .ok (g, r', events)) (hd : d ≠ e) :
    r'.Tracks d q := by
  cases q with
  | none =>
    obtain ⟨region, o, hro, -, rfl, -⟩ := reserve_ok hr
    exact (hs.coherent.reserve_leaves hro hd).held.trans h
  | some p => exact Carries.reserve h hs hr hd

theorem Tracks.commit (h : r.Tracks d q) (hs : r.Sound) {e : Direction} {events : List Event}
    (hp : r.Carries e p) (hc : r.commit p.grant = .ok (r', events)) (hd : d ≠ e) :
    r'.Tracks d q := by
  cases q with
  | none =>
    obtain ⟨o, ho, rfl, -⟩ := commit_ok hc
    exact (commit_leaves ho (hp.direction.symm ▸ hd)).held.trans h
  | some q => exact Carries.commit h hs hp hc hd

theorem Tracks.receive (h : r.Tracks .take q) (hs : r.Sound) (hp : r.Carries .put p) {data : Bytes}
    (hd : data.length ≤ r.room p.grant) : (r.receive p.grant data).Tracks .take q := by
  cases q with
  | none => exact h
  | some q =>
    have hcon := hs.contents_receive hp.held hd hp.moved_le
    exact Carries.keep_take h hs (.refl _ _) (by rw [hcon, List.append_nil])

end Ring

end CyclicBuffer
