import CyclicBuffer.Proofs.Contents
import CyclicBuffer.Session.Answer

/-!
# Queues

A `Queue` is what a ring shows of itself: a bounded list of bytes and whether a put or a take is
under way. Its operations say what a ring answers and what it contains afterwards, in terms of that
list alone, with every reason for a refusal and the order in which the reasons are looked at.
`reachable_apply` says that every operation on every reachable ring does just that.
-/

namespace CyclicBuffer

open Occupancy

/-- The last `n` bytes, or all of them where there are fewer. -/
def lastBytes (n : Nat) (data : Bytes) : Bytes := data.drop (data.length - n)

structure Queue where
  capacity : Nat
  overwriting : Bool
  content : Bytes
  /-- Whether a put is under way. -/
  putting : Bool
  /-- Whether a take is under way. -/
  taking : Bool
deriving DecidableEq, Repr

namespace Queue

/-- The answer to an operation, and the queue afterwards. -/
abbrev Response := Except Failure Operation.Value × Queue

def spare (q : Queue) : Nat := q.capacity - q.content.length

def refuse (q : Queue) (e : Error) : Response := (.error (.error e), q)

def accept (q : Queue) (v : Operation.Value) (content : Bytes) : Response :=
  (.ok v, { q with content })

/-- What is kept of data: an overwriting queue needs no more than the end of it. -/
def kept (q : Queue) (data : Bytes) : Bytes :=
  if q.overwriting then lastBytes q.capacity data else data

/-- Data that fits is appended. For data that does not fit an overwriting queue drops its oldest
bytes, but not while a take holds them. -/
def put (q : Queue) (data : Bytes) : Response :=
  if q.putting then q.refuse (.operationInProgress .put)
  else if !q.overwriting && q.capacity < data.length then
    q.refuse (.capacityExceeded data.length q.capacity)
  else if q.content.length + (q.kept data).length ≤ q.capacity then
    q.accept .unit (q.content ++ q.kept data)
  else if q.overwriting && !q.taking then
    q.accept .unit (lastBytes q.capacity (q.content ++ data))
  else q.refuse (.insufficientCapacity (q.kept data).length q.spare)

/-- A single byte is put like any data, but a full queue answers as if it could never fit. -/
def putByte (q : Queue) (byte : UInt8) : Response :=
  if q.putting then q.refuse (.operationInProgress .put)
  else if q.content.length < q.capacity then q.accept .unit (q.content ++ [byte])
  else if !q.overwriting then q.refuse (.capacityExceeded 1 q.capacity)
  else if q.taking then q.refuse (.insufficientCapacity 1 q.spare)
  else q.accept .unit (lastBytes q.capacity (q.content ++ [byte]))

/-- Removes the oldest bytes, all that are asked for or none; `shown` makes the answer of them. -/
def remove (q : Queue) (count : Nat) (shown : Bytes → Operation.Value) : Response :=
  if q.taking then q.refuse (.operationInProgress .take)
  else if q.content.length < count then
    q.refuse (.insufficientContent count q.content.length)
  else q.accept (shown (q.content.take count)) (q.content.drop count)

/-- Removes everything; nothing may be under way. -/
def empty (q : Queue) (v : Operation.Value) : Response :=
  if q.putting then q.refuse (.operationInProgress .put)
  else if q.taking then q.refuse (.operationInProgress .take)
  else q.accept v []

def apply (q : Queue) : Operation → Response
  | .put data => q.put data
  | .putByte byte => q.putByte byte
  | .takeInto destination count =>
    if destination.length < count then
      q.refuse (.invalidArgument "destination too small for requested output")
    else q.remove count fun bytes => .bytes (bytes ++ destination.drop count)
  | .takeList count =>
    if Ring.maxSize < count then (.error (.fault .tooLarge), q) else q.remove count .bytes
  | .takeByte => q.remove 1 fun bytes => .byte (bytes.headD 0)
  | .skip count => q.remove count fun _ => .unit
  | .reset => q.empty .unit
  | .drain => q.empty (.bytes q.content)

/-- The counts and flags of a queue. -/
def inspect (q : Queue) : Inspection :=
  ⟨q.capacity, q.overwriting, q.content.length, q.spare, q.content.isEmpty, q.spare == 0⟩

end Queue

/-! ## Last bytes -/

theorem length_lastBytes (n : Nat) (data : Bytes) :
    (lastBytes n data).length = min n data.length := by
  simp only [lastBytes, List.length_drop]
  omega

theorem lastBytes_of_le {n : Nat} {data : Bytes} (h : data.length ≤ n) :
    lastBytes n data = data := by
  rw [lastBytes, Nat.sub_eq_zero_of_le h, List.drop_zero]

/-- The end of two pieces: all that the second one gives, and of the first one what still fits. -/
theorem lastBytes_append (n : Nat) (xs data : Bytes) :
    lastBytes n (xs ++ data) =
      xs.drop (xs.length + (lastBytes n data).length - n) ++ lastBytes n data := by
  by_cases h : data.length ≤ n
  · rw [lastBytes_of_le h, lastBytes, List.length_append, List.drop_append_of_le_length (by omega)]
  · have hgone : xs.drop (xs.length + n - n) = [] := List.drop_of_length_le (by omega)
    have hall : xs.drop (xs.length + data.length - n) = [] := List.drop_of_length_le (by omega)
    rw [length_lastBytes, Nat.min_eq_left (by omega), hgone, lastBytes, lastBytes,
      List.length_append, List.drop_append, hall]
    congr 2
    omega

namespace Ring

variable {r : Ring}

/-- What a ring shows of itself. -/
def queue (r : Ring) : Queue :=
  ⟨r.occupancy.capacity, r.occupancy.overwriting, r.contents, r.occupancy.putting.isSome,
    r.occupancy.taking.isSome⟩

end Ring

/-- What an operation answers, and what the ring shows of itself afterwards. -/
def Outcome.seen {α : Type} (o : Outcome α) : Except Failure α × Queue := (o.result, o.ring.queue)

namespace Ring

variable {r : Ring}

theorem Sound.content_length (h : r.Sound) : r.queue.content.length = r.occupancy.length :=
  h.length_contents

theorem Sound.deficit_eq_zero (h : r.Sound) {count : Nat} :
    r.occupancy.deficit count = 0 ↔ r.queue.content.length + count ≤ r.queue.capacity := by
  rw [h.content_length]
  simp only [deficit, queue]
  omega

/-- Operations change what a ring contains and leave the rest of what it shows. -/
theorem Sound.seen_ok (h : r.Sound) {operation : Operation} {v : Operation.Value} {content : Bytes}
    (hr : (r.apply operation).result = .ok v) (hc : (r.apply operation).ring.contents = content) :
    (r.apply operation).seen = r.queue.accept v content := by
  have hput : (r.apply operation).ring.occupancy.putting = r.occupancy.putting :=
    (h.apply_leaves operation .put).held
  have htake : (r.apply operation).ring.occupancy.taking = r.occupancy.taking :=
    (h.apply_leaves operation .take).held
  obtain ⟨hcap, hover⟩ := Prod.mk.inj ((leads_apply h operation).terms h)
  simp only [Outcome.seen, queue, Queue.accept, hr, hc, hput, htake, hcap, hover]

/-! ## Puts -/

theorem Sound.trim_eq (h : r.Sound) (data : Bytes) : r.trim data = r.queue.kept data := by
  simp only [trim, h.capacity_eq, Queue.kept, queue, overwriting]
  by_cases ho : r.occupancy.overwriting = true
  · by_cases hl : r.occupancy.capacity < data.length
    · simp [ho, hl, lastBytes]
    · simp [ho, hl, lastBytes_of_le (Nat.le_of_not_lt hl)]
  · simp [ho]

theorem put_of_error {data : Bytes} {e : Error}
    (hr : r.occupancy.reservePut (r.trim data).length = .error e) :
    (r.apply (.put data)).seen = r.queue.refuse e := by
  rw [apply, put_of_reserve_error hr]
  rfl

theorem Sound.put_of_ok (h : r.Sound) {data : Bytes} {v : Region × Occupancy}
    (hr : r.occupancy.reservePut (r.trim data).length = .ok v) :
    (r.apply (.put data)).seen = r.queue.accept .unit
      (r.queue.content.drop (r.occupancy.deficit (r.trim data).length) ++ r.trim data) := by
  obtain ⟨opening, hro⟩ := reserve_of_ok (d := .put) hr
  obtain ⟨hres, hcon⟩ := h.contents_put_granted hro
  exact h.seen_ok (by simp only [apply, Outcome.map, hres]; rfl) hcon

theorem Sound.seen_put (h : r.Sound) (data : Bytes) :
    (r.apply (.put data)).seen = r.queue.put data := by
  have hkept := h.trim_eq data
  have hdef : r.occupancy.deficit (r.trim data).length = 0 ↔ _ := h.deficit_eq_zero
  unfold Queue.put
  rw [← hkept]
  by_cases hp : r.occupancy.putting.isSome
  · rw [if_pos (show r.queue.putting = true from hp)]
    exact put_of_error (by rw [reservePut, if_pos hp])
  rw [if_neg (show ¬ r.queue.putting = true from hp)]
  by_cases hbig : (!r.queue.overwriting && r.queue.capacity < data.length) = true
  · -- without overwriting the data is not cut, and so it does not fit
    rw [if_pos hbig]
    simp only [Bool.and_eq_true, Bool.not_eq_true', decide_eq_true_eq] at hbig
    have hlt : r.occupancy.capacity < data.length := hbig.2
    rw [Queue.kept, hbig.1, if_neg Bool.false_ne_true] at hkept
    exact put_of_error (by rw [hkept, reservePut, if_neg hp, if_pos hlt]; rfl)
  rw [if_neg hbig]
  have hfits : ¬ r.occupancy.capacity < (r.trim data).length := by
    by_cases ho : r.queue.overwriting = true
    · rw [hkept, Queue.kept, if_pos ho, length_lastBytes]
      exact Nat.not_lt.2 (Nat.min_le_left ..)
    · rw [hkept, Queue.kept, if_neg ho]
      intro hlt
      have hlong : r.queue.capacity < data.length := hlt
      exact hbig (by simp [ho, hlong])
  by_cases hd : r.occupancy.deficit (r.trim data).length = 0
  · rw [if_pos (hdef.1 hd), h.put_of_ok (by rw [reservePut, if_neg hp, if_neg hfits, if_pos hd]),
      hd, List.drop_zero]
  rw [if_neg (mt hdef.2 hd)]
  by_cases hover : (r.occupancy.overwriting && r.occupancy.taking.isNone) = true
  · rw [if_pos (by simpa [queue] using hover), h.put_of_ok
      (by rw [reservePut, if_neg hp, if_neg hfits, if_neg hd, if_pos hover]), lastBytes_append]
    simp only [Bool.and_eq_true] at hover
    rw [Queue.kept, if_pos (show r.queue.overwriting = true from hover.1)] at hkept
    rw [← hkept, h.content_length]
    rfl
  · rw [if_neg (by simpa [queue] using hover), Queue.spare, h.content_length]
    exact put_of_error (by rw [reservePut, if_neg hp, if_neg hfits, if_neg hd, if_neg hover]; rfl)

/-- A byte that is put drops what it has to and is appended. -/
theorem Sound.contents_putByte (h : r.Sound) {byte : UInt8} {cell : Nat} {o : Occupancy}
    (hr : r.occupancy.putOne = .ok (cell, o)) :
    contents ⟨o, r.storage.set cell byte⟩
      = r.contents.drop (r.occupancy.deficit 1) ++ [byte] := by
  have hone : 1 ≤ r.occupancy.capacity := Nat.zero_lt_of_lt h.coherent.head_lt
  have hs : Sound ⟨o, r.storage.set cell byte⟩ := h.of_terms (h.coherent.putOne hr)
    (h.coherent.putOne_terms hr) (Storage.size_set ..)
  obtain ⟨-, hd, rfl, rfl⟩ := h.coherent.putOne_ok hr
  obtain ⟨hd', hroom⟩ := h.coherent.discard_deficit hone hd
  have hsize := h.size_eq
  have hfront : stretch ⟨r.occupancy.discard (r.occupancy.deficit 1), r.storage⟩ 0
      = (r.stretch 0).drop (r.occupancy.deficit 1) :=
    h.stretch_of_head (h.coherent.deficit_le hone) rfl rfl
  rw [hs.contents_eq, h.contents_eq, ← hfront]
  refine Storage.around_write r.storage _ r.occupancy.tail [byte] (hsize ▸ hd'.head_lt)
    (by rw [hsize]; exact hroom) fun i hi => ?_
  have hi0 : i = 0 := Nat.lt_one_iff.1 hi
  rw [hi0, Nat.add_zero, hsize]
  exact hd'.tail_eq

theorem Sound.seen_putByte (h : r.Sound) (byte : UInt8) :
    (r.apply (.putByte byte)).seen = r.queue.putByte byte := by
  have hdef : r.occupancy.deficit 1 = 0 ↔ _ := h.deficit_eq_zero
  have hlen := h.coherent.length_le
  have hone : 1 ≤ r.queue.capacity := Nat.zero_lt_of_lt h.coherent.head_lt
  have hrefuse : ∀ e, r.occupancy.putOne = .error e →
      (r.apply (.putByte byte)).seen = r.queue.refuse e := fun e hr => by
    simp only [apply, putByte, hr]
    rfl
  have haccept : ∀ v, r.occupancy.putOne = .ok v → (r.apply (.putByte byte)).seen
      = r.queue.accept .unit (r.queue.content.drop (r.occupancy.deficit 1) ++ [byte]) := fun v hr =>
    h.seen_ok (by simp only [apply, putByte, hr]; rfl)
      (by simp only [apply, putByte, hr]; exact h.contents_putByte hr)
  unfold Queue.putByte
  by_cases hp : r.occupancy.putting.isSome
  · rw [if_pos (show r.queue.putting = true from hp)]
    exact hrefuse _ (by rw [putOne, if_pos hp])
  rw [if_neg (show ¬ r.queue.putting = true from hp)]
  by_cases hroom : r.occupancy.length < r.occupancy.capacity
  · rw [if_pos (by rw [h.content_length]; exact hroom), haccept _
      (by rw [putOne, if_neg hp, if_pos (Nat.ne_of_lt hroom)]), hdef.2 (by
        rw [h.content_length]; exact hroom), List.drop_zero]
  have hfull : r.occupancy.length = r.occupancy.capacity := by omega
  rw [if_neg (by rw [h.content_length]; exact hroom)]
  by_cases ho : r.occupancy.overwriting = true
  · rw [if_neg (by simpa [queue] using ho)]
    by_cases ht : r.occupancy.taking.isSome
    · rw [if_pos (show r.queue.taking = true from ht), Queue.spare, h.content_length]
      refine hrefuse _ ?_
      rw [putOne, if_neg hp, if_neg (by simpa using hfull), if_neg (by simpa using ho), if_pos ht,
        hfull]
      simp [queue]
    · rw [if_neg (show ¬ r.queue.taking = true from ht), haccept _ (by
        rw [putOne, if_neg hp, if_neg (by simpa using hfull), if_neg (by simpa using ho),
          if_neg ht]), lastBytes_append, lastBytes_of_le (show [byte].length ≤ _ from hone),
        h.content_length]
      rfl
  · rw [if_pos (by simpa [queue] using ho)]
    refine hrefuse _ ?_
    rw [putOne, if_neg hp, if_neg (by simpa using hfull), if_pos (by simpa using ho)]
    rfl

/-! ## Takes -/

/-- Where an operation is refused as a take of so many bytes is, and otherwise hands out the oldest
bytes in its way, it removes them from the queue. -/
theorem Sound.seen_remove (h : r.Sound) {operation : Operation} {count : Nat}
    {shown : Bytes → Operation.Value}
    (hrefused : ∀ e, r.occupancy.checkTake count = .error e →
      (r.apply operation).seen = r.queue.refuse e)
    (hgranted : r.occupancy.checkTake count = .ok () →
      (r.apply operation).result = .ok (shown (r.contents.take count)) ∧
        (r.apply operation).ring.contents = r.contents.drop count) :
    (r.apply operation).seen = r.queue.remove count shown := by
  unfold Queue.remove
  by_cases ht : r.occupancy.taking.isSome
  · rw [if_pos (show r.queue.taking = true from ht)]
    exact hrefused _ (by rw [checkTake, if_pos ht])
  rw [if_neg (show ¬ r.queue.taking = true from ht), h.content_length]
  by_cases hc : r.occupancy.length < count
  · rw [if_pos hc]
    exact hrefused _ (by rw [checkTake, if_neg ht, if_pos hc])
  · obtain ⟨hres, hcon⟩ := hgranted (by rw [checkTake, if_neg ht, if_neg hc])
    rw [if_neg hc]
    exact h.seen_ok hres hcon

theorem take_of_error {count : Nat} {e : Error} (hr : r.occupancy.checkTake count = .error e) :
    r.take count = .refuse r e := by
  have hro : r.occupancy.reserve .take count = .error e := by
    simp only [Occupancy.reserve, reserveTake, hr]
    rfl
  exact take_of_reserve_error hro

theorem Sound.take_of_ok (h : r.Sound) {count : Nat} (hr : r.occupancy.checkTake count = .ok ()) :
    (r.take count).result = .ok (r.contents.take count) ∧
      (r.take count).ring.contents = r.contents.drop count := by
  obtain ⟨ht, hc⟩ := checkTake_ok.1 hr
  obtain ⟨opening, hro⟩ := reserve_of_ok (r := r) (d := .take)
    (reserveTake_ok.2 ⟨ht, hc, rfl, rfl⟩)
  exact h.contents_take_granted hro

theorem Sound.seen_takeInto (h : r.Sound) (destination : Bytes) (count : Nat) :
    (r.apply (.takeInto destination count)).seen = r.queue.apply (.takeInto destination count) := by
  unfold Queue.apply
  by_cases hshort : destination.length < count
  · simp only [if_pos hshort, apply, takeInto]
    rfl
  simp only [if_neg hshort]
  refine h.seen_remove ?_ ?_
  · intro e hr
    simp only [apply, takeInto, if_neg hshort, take_of_error hr]
    rfl
  · intro hr
    obtain ⟨hres, hcon⟩ := h.take_of_ok hr
    simp only [apply, takeInto, if_neg hshort, Outcome.map, hres, hcon, and_true]
    rfl

theorem Sound.seen_takeList (h : r.Sound) (count : Nat) :
    (r.apply (.takeList count)).seen = r.queue.apply (.takeList count) := by
  unfold Queue.apply
  by_cases hlarge : maxSize < count
  · simp only [if_pos hlarge, apply, takeList]
    rfl
  simp only [if_neg hlarge]
  refine h.seen_remove ?_ ?_
  · intro e hr
    simp only [apply, takeList, if_neg hlarge, take_of_error hr]
    rfl
  · intro hr
    obtain ⟨hres, hcon⟩ := h.take_of_ok hr
    simp only [apply, takeList, if_neg hlarge, Outcome.map, hres, hcon, and_true]
    rfl

/-- Forgetting the oldest bytes drops them from the contents. -/
theorem Sound.contents_discard (h : r.Sound) {count : Nat} (ht : r.occupancy.taking = none)
    (hc : count ≤ r.occupancy.length) :
    contents { r with occupancy := r.occupancy.discard count } = r.contents.drop count := by
  have hs : Sound { r with occupancy := r.occupancy.discard count } :=
    h.of_terms (h.coherent.discard hc ht) rfl rfl
  rw [hs.contents_eq, h.contents_eq]
  exact h.stretch_of_head hc rfl rfl

/-- The byte at the head is the first one of the contents. -/
theorem Sound.get_head (h : r.Sound) (hc : 1 ≤ r.occupancy.length) :
    r.contents.take 1 = [r.storage.get r.occupancy.head] := by
  have hlen := h.coherent.length_le
  rw [← h.readRegion_take hc, Storage.readRegion_eq _ h.head_lt (by
    rw [h.size_eq]
    exact Nat.le_trans hc hlen)]
  simp [Storage.around, h.head_lt]

theorem Sound.seen_takeByte (h : r.Sound) :
    (r.apply .takeByte).seen = r.queue.apply .takeByte := by
  unfold Queue.apply
  refine h.seen_remove ?_ ?_
  · intro e hr
    simp only [apply, takeByte, takeOne, hr]
    rfl
  · intro hr
    obtain ⟨ht, hc⟩ := checkTake_ok.1 hr
    rw [h.get_head hc, ← h.contents_discard ht hc]
    simp only [apply, takeByte, takeOne, hr]
    exact ⟨rfl, rfl⟩

theorem Sound.seen_skip (h : r.Sound) (count : Nat) :
    (r.apply (.skip count)).seen = r.queue.apply (.skip count) := by
  unfold Queue.apply
  refine h.seen_remove ?_ ?_
  · intro e hr
    simp only [apply, skip, Occupancy.skip, hr]
    rfl
  · intro hr
    obtain ⟨ht, hc⟩ := checkTake_ok.1 hr
    rw [← h.contents_discard ht hc]
    simp only [apply, skip, Occupancy.skip, hr]
    exact ⟨rfl, rfl⟩

/-! ## Emptying -/

theorem Sound.contents_reset (h : r.Sound) {o : Occupancy} (hr : r.occupancy.reset = .ok o) :
    contents ⟨o, r.storage.clear⟩ = [] := by
  have hs : Sound ⟨o, r.storage.clear⟩ := (leads_reset hr).sound h
  obtain ⟨-, -, rfl⟩ := reset_ok.1 hr
  exact List.eq_nil_of_length_eq_zero hs.length_contents

/-- Where an operation is refused as a reset is, and otherwise resets the ring, it empties the
queue. -/
theorem Sound.seen_empty (h : r.Sound) {operation : Operation} {v : Operation.Value}
    (hrefused : ∀ e, r.occupancy.reset = .error e → (r.apply operation).seen = r.queue.refuse e)
    (hgranted : ∀ o, r.occupancy.reset = .ok o → (r.apply operation).result = .ok v ∧
      (r.apply operation).ring = ⟨o, r.storage.clear⟩) :
    (r.apply operation).seen = r.queue.empty v := by
  unfold Queue.empty
  by_cases hp : r.occupancy.putting.isSome
  · rw [if_pos (show r.queue.putting = true from hp)]
    exact hrefused _ (by rw [Occupancy.reset, if_pos hp])
  rw [if_neg (show ¬ r.queue.putting = true from hp)]
  by_cases ht : r.occupancy.taking.isSome
  · rw [if_pos (show r.queue.taking = true from ht)]
    exact hrefused _ (by rw [Occupancy.reset, if_neg hp, if_pos ht])
  · have hr : r.occupancy.reset = .ok (.vacant r.occupancy.capacity r.occupancy.overwriting) := by
      rw [Occupancy.reset, if_neg hp, if_neg ht]
    obtain ⟨hres, hring⟩ := hgranted _ hr
    rw [if_neg (show ¬ r.queue.taking = true from ht)]
    exact h.seen_ok hres (hring ▸ h.contents_reset hr)

theorem Sound.seen_reset (h : r.Sound) : (r.apply .reset).seen = r.queue.empty .unit := by
  refine h.seen_empty ?_ ?_
  · intro e hr
    simp only [apply, reset, hr]
    rfl
  · intro o hr
    simp only [apply, reset, hr]
    exact ⟨rfl, rfl⟩

theorem Sound.seen_drain (h : r.Sound) :
    (r.apply .drain).seen = r.queue.empty (.bytes r.queue.content) := by
  refine h.seen_empty ?_ ?_
  · intro e hr
    simp only [apply, drain, hr]
    rfl
  · intro o hr
    simp only [apply, drain, hr]
    exact ⟨rfl, rfl⟩

/-! ## All operations -/

theorem Sound.seen_apply (h : r.Sound) (operation : Operation) :
    (r.apply operation).seen = r.queue.apply operation := by
  cases operation with
  | put data => exact h.seen_put data
  | putByte byte => exact h.seen_putByte byte
  | takeInto destination count => exact h.seen_takeInto destination count
  | takeList count => exact h.seen_takeList count
  | takeByte => exact h.seen_takeByte
  | skip count => exact h.seen_skip count
  | reset => exact h.seen_reset
  | drain => exact h.seen_drain

theorem Sound.inspect_eq (h : r.Sound) : r.inspect = r.queue.inspect := by
  have hempty : r.queue.content.isEmpty = (r.queue.content.length == 0) := by
    cases r.queue.content <;> rfl
  simp only [inspect, Queue.inspect, Queue.spare, hempty, h.capacity_eq, h.content_length]
  rfl

/-- The contents lie one cell after the other from the head on. -/
theorem Sound.contents_cells (h : r.Sound) :
    r.contents = (List.range r.length).map fun i =>
      r.storage.get ((r.occupancy.head + i) % r.occupancy.capacity) := by
  rw [h.contents_eq, stretch, Storage.around, h.size_eq]
  rfl

/-- **Rings are queues.** On every reachable ring, also while transfers are under way, an operation
answers what it answers on the queue that the ring shows, and leaves a ring that shows the queue
that it leaves. -/
theorem reachable_apply {capacity : Nat} {overwriting : Bool} (hc : 1 ≤ capacity)
    (h : r.Reachable capacity overwriting) (operation : Operation) :
    r.queue = ⟨capacity, overwriting,
      (List.range r.length).map fun i => r.storage.get ((r.occupancy.head + i) % capacity),
      r.occupancy.putting.isSome, r.occupancy.taking.isSome⟩ ∧
    (r.apply operation).seen = r.queue.apply operation ∧
    (r.apply operation).ring.Reachable capacity overwriting ∧
    r.inspect = r.queue.inspect ∧
    (r.apply operation).ring.inspect = (r.queue.apply operation).2.inspect := by
  have hs := h.sound hc
  have hl := leads_apply hs operation
  have hseen := hs.seen_apply operation
  obtain ⟨rfl, rfl⟩ : r.occupancy.capacity = capacity ∧ r.occupancy.overwriting = overwriting :=
    Prod.mk.inj (Leads.terms h (sound_vacant hc overwriting))
  refine ⟨by rw [← hs.contents_cells]; rfl, hseen, Leads.trans h hl, hs.inspect_eq, ?_⟩
  rw [(hl.sound hs).inspect_eq, ← hseen]
  rfl

/-- The ring is full and a take is under way, so that nothing can be discarded: what is left of
longer data does not fit either. -/
theorem reachable_apply_full_taking :
    ∃ r : Ring, r.Reachable 3 true ∧ r.contents = [1, 2, 3] ∧ r.occupancy.taking = some ⟨1, 2⟩ ∧
      (r.apply (.put [7, 8, 9, 10])).seen
        = (.error (.error (.insufficientCapacity 3 0)), r.queue) := by
  have h₁ : Reachable 3 true _ := Leads.refl.step (p := .putByte 0) trivial
  have h₂ := h₁.step (p := .putByte 1) trivial
  have h₃ := h₂.step (p := .putByte 2) trivial
  have h₄ := h₃.step (p := .putByte 3) trivial
  have h₅ := h₄.step (p := .reserve .take 2) trivial
  refine ⟨_, h₅, rfl, rfl, ?_⟩
  rw [(reachable_apply (by decide) h₅ (.put [7, 8, 9, 10])).2.1]
  rfl

end Ring

end CyclicBuffer
