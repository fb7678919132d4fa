import CyclicBuffer.Proofs.Queue

/-!
# Byte by byte

`Ring.put` and `Ring.takeInto` move all their bytes under one reservation, `Ring.putByte` and
`Ring.takeByte` one byte without any. What both do to the counts is `Occupancy.extend` and
`Occupancy.discard`, and both are additive: adding one byte and then `n` more is adding `n + 1`
(`Coherent.extend_extend`), so an operation on whole data is the same operation on each of its
bytes in turn (`reachable_bytewise`). Only data that is longer than the buffer is put differently,
since none of the bytes that it would lose again is copied; there the contents agree.
-/

namespace CyclicBuffer

namespace Occupancy

/-- No put is under way, and `count` bytes fit or the oldest ones may go to make room for them. -/
def Admits (o : Occupancy) (count : Nat) : Prop :=
  o.putting = none ∧ (o.deficit count = 0 ∨ o.overwriting = true ∧ o.taking = none)

/-- The occupancy with `count` more bytes, and without the oldest ones that made room. -/
def extend (o : Occupancy) (count : Nat) : Occupancy :=
  { o.discard (o.deficit count) with
    tail := cellAfter o.capacity o.tail count
    length := o.length - o.deficit count + count }

variable {o o' : Occupancy}

@[simp] theorem extend_capacity (n : Nat) : (o.extend n).capacity = o.capacity := rfl

@[simp] theorem extend_overwriting (n : Nat) : (o.extend n).overwriting = o.overwriting := rfl

@[simp] theorem extend_putting (n : Nat) : (o.extend n).putting = o.putting := rfl

@[simp] theorem extend_taking (n : Nat) : (o.extend n).taking = o.taking := rfl

@[simp] theorem extend_length (n : Nat) :
    (o.extend n).length = o.length - (o.length + n - o.capacity) + n := rfl

theorem Coherent.extend_zero (h : o.Coherent) : o.extend 0 = o := by
  have hd : o.deficit 0 = 0 := by
    have := h.length_le
    simp only [deficit]
    omega
  simp only [extend, hd, h.discard_zero, cellAfter_zero h.tail_lt]
  rfl

/-! ## Putting into the counts -/

/-- What may be reserved for a put. -/
theorem Coherent.reservePut_iff (h : o.Coherent) {count : Nat} :
    (∃ v, o.reservePut count = .ok v) ↔ count ≤ o.capacity ∧ o.Admits count := by
  constructor
  · rintro ⟨⟨region, o'⟩, hr⟩
    obtain ⟨hp, hc, hd, -, -⟩ := h.reservePut_ok hr
    exact ⟨hc, hp, hd⟩
  · rintro ⟨hc, hp, hd⟩
    unfold Occupancy.reservePut
    rw [hp, if_neg (by simp), if_neg (Nat.not_lt.2 hc)]
    by_cases hzero : o.deficit count = 0
    · exact ⟨_, if_pos hzero⟩
    · obtain ⟨hover, htake⟩ := hd.resolve_left hzero
      exact ⟨_, by rw [if_neg hzero, if_pos (by simp [hover, htake])]⟩

/-- A put that commits all that it has reserved. -/
theorem Coherent.commit_reservePut (h : o.Coherent) {count : Nat} {region : Region}
    (hr : o.reservePut count = .ok (region, o')) : o'.commitPut count = .ok (o.extend count) := by
  obtain ⟨hp, -, -, rfl, rfl⟩ := h.reservePut_ok hr
  refine commitPut_ok.2 ⟨_, rfl, ?_⟩
  simp only [extend, Occupancy.discard, hp]
  rfl

/-- One byte may be put where one may be reserved. -/
theorem Coherent.putOne_of_admits (h : o.Coherent) (ha : o.Admits 1) :
    o.putOne = .ok (o.tail, o.extend 1) := by
  have hl := h.length_le
  obtain ⟨hp, hd⟩ := ha
  have hok : ∃ v, o.putOne = .ok v := by
    unfold Occupancy.putOne
    rw [hp, if_neg (by simp)]
    by_cases hfull : o.length = o.capacity
    · have hlack : ¬ o.deficit 1 = 0 := by
        simp only [deficit]
        omega
      obtain ⟨hover, htake⟩ := hd.resolve_left hlack
      rw [if_neg fun hne => hne hfull, hover, htake]
      exact ⟨_, rfl⟩
    · exact ⟨_, if_pos hfull⟩
  obtain ⟨⟨cell, o'⟩, hr⟩ := hok
  obtain ⟨-, -, rfl, rfl⟩ := h.putOne_ok hr
  exact hr

theorem Coherent.putOne_iff (h : o.Coherent) :
    (∃ v, o.putOne = .ok v) ↔ o.Admits 1 := by
  constructor
  · rintro ⟨⟨cell, o'⟩, hr⟩
    obtain ⟨hp, hd, -, -⟩ := h.putOne_ok hr
    exact ⟨hp, hd⟩
  · intro ha
    exact ⟨_, h.putOne_of_admits ha⟩

/-- Of `n + 1` bytes the first one is admitted, and then the others. -/
theorem Coherent.admits_succ (h : o.Coherent) (n : Nat) :
    o.Admits (n + 1) ↔ o.Admits 1 ∧ (o.extend 1).Admits n := by
  have hl := h.length_le
  have hc : 0 < o.capacity := Nat.zero_lt_of_lt h.head_lt
  by_cases hfree : o.overwriting = true ∧ o.taking = none
  · constructor
    · rintro ⟨hp, -⟩
      exact ⟨⟨hp, .inr hfree⟩, hp, .inr hfree⟩
    · rintro ⟨⟨hp, -⟩, -⟩
      exact ⟨hp, .inr hfree⟩
  · simp only [Admits, extend_putting, extend_overwriting, extend_taking, hfree, or_false, deficit,
      extend_length, extend_capacity]
    constructor
    · rintro ⟨hp, hd⟩
      exact ⟨⟨hp, by omega⟩, hp, by omega⟩
    · rintro ⟨⟨hp, hone⟩, -, hd⟩
      exact ⟨hp, by omega⟩

/-- One byte and then `n` more discard and append what `n + 1` do at once. -/
theorem Coherent.extend_extend (h : o.Coherent) {n : Nat} (hn : n + 1 ≤ o.capacity) :
    (o.extend 1).extend n = o.extend (n + 1) := by
  have hl := h.length_le
  have hgone : o.deficit 1 + (o.extend 1).deficit n = o.deficit (n + 1) := by
    simp only [deficit, extend_length, extend_capacity]
    omega
  have hlength : (o.extend 1).length - (o.extend 1).deficit n + n
      = o.length - o.deficit (n + 1) + (n + 1) := by
    simp only [deficit, extend_length, extend_capacity]
    omega
  have hhead : cellAfter o.capacity (o.extend 1).head ((o.extend 1).deficit n)
      = cellAfter o.capacity o.head (o.deficit (n + 1)) := by
    rw [← hgone]
    exact cellAfter_cellAfter ..
  have htail : cellAfter o.capacity (o.extend 1).tail n = cellAfter o.capacity o.tail (n + 1) := by
    rw [Nat.add_comm n]
    exact cellAfter_cellAfter ..
  rw [extend, Occupancy.discard, hlength, extend_capacity, hhead, htail]
  rfl

/-! ## Taking from the counts -/

@[simp] theorem discard_discard (m n : Nat) : (o.discard m).discard n = o.discard (m + n) := by
  simp only [discard, cellAfter_cellAfter, Nat.sub_sub]

/-- A take that commits all that it has reserved. -/
theorem commit_reserveTake {count : Nat} {region : Region}
    (hr : o.reserveTake count = .ok (region, o')) :
    o'.commitTake count = .ok (o.discard count) := by
  obtain ⟨ht, -, rfl, rfl⟩ := reserveTake_ok.1 hr
  refine commitTake_ok.2 ⟨_, rfl, ?_⟩
  simp only [discard, ht]
  rfl

end Occupancy

open Occupancy

/-! ## Last bytes of last bytes -/

/-- What is forgotten early would be forgotten later. -/
theorem lastBytes_lastBytes_append (n : Nat) (xs ys : Bytes) :
    lastBytes n (lastBytes n xs ++ ys) = lastBytes n (xs ++ ys) := by
  by_cases h : xs.length ≤ n
  · rw [lastBytes_of_le h]
  · have hdrop : xs.length - n ≤ xs.length := Nat.sub_le ..
    have hlen : (lastBytes n xs).length = n := by
      rw [length_lastBytes]
      omega
    rw [lastBytes, List.length_append, hlen]
    unfold lastBytes
    rw [← List.drop_append_of_le_length hdrop, List.drop_drop, List.length_append]
    congr 1
    omega

namespace Ring

/-- The ring with the data behind its newest byte, and without the oldest bytes that made room. -/
def extend (r : Ring) (data : Bytes) : Ring :=
  ⟨r.occupancy.extend data.length, r.storage.writeAround r.occupancy.tail data⟩

/-- Puts the bytes one at a time, up to the first one that is refused. -/
def putEach (r : Ring) : Bytes → Outcome Unit
  | [] => ⟨.ok (), r, []⟩
  | b :: bs =>
    match (r.putByte b).result with
    | .error f => .fail (r.putByte b).ring f
    | .ok () => (r.putByte b).ring.putEach bs

/-- Takes `count` bytes one at a time, up to the first one that is refused. -/
def takeEach (r : Ring) : Nat → Outcome Bytes
  | 0 => ⟨.ok [], r, []⟩
  | n + 1 =>
    match r.takeByte.result with
    | .error f => .fail r.takeByte.ring f
    | .ok b => (r.takeByte.ring.takeEach n).map (b :: ·)

variable {r r' : Ring}

theorem Sound.tail_lt (h : r.Sound) : r.occupancy.tail < r.storage.size :=
  h.size_eq ▸ h.coherent.tail_lt

/-! ## Putting whole data -/

theorem Sound.put_admits (h : r.Sound) {data : Bytes} (hok : (r.put data).result = .ok ()) :
    (r.trim data).length ≤ r.occupancy.capacity ∧ r.occupancy.Admits (r.trim data).length := by
  cases hr : r.occupancy.reservePut (r.trim data).length with
  | error e =>
    rw [put_of_reserve_error hr] at hok
    cases hok
  | ok v => exact h.coherent.reservePut_iff.1 ⟨v, hr⟩

theorem Sound.put_ok (h : r.Sound) {data : Bytes}
    (hc : (r.trim data).length ≤ r.occupancy.capacity)
    (ha : r.occupancy.Admits (r.trim data).length) :
    (r.put data).result = .ok () ∧ (r.put data).ring = r.extend (r.trim data) := by
  obtain ⟨⟨region, o⟩, hr⟩ := h.coherent.reservePut_iff.2 ⟨hc, ha⟩
  obtain ⟨opening, hro⟩ := reserve_of_ok (d := .put) hr
  obtain ⟨r'', closing, hcommit, heq⟩ := h.moveWhole_ok
    (fun region storage => ((), storage.writeRegion region (r.trim data))) hro
  obtain ⟨o', ho, rfl, -⟩ := commit_ok hcommit
  cases ho.symm.trans (h.coherent.commit_reservePut hr)
  obtain ⟨-, -, -, rfl, rfl⟩ := h.coherent.reservePut_ok hr
  rw [h.put_whole, heq]
  refine ⟨rfl, ?_⟩
  rw [extend, ← r.storage.writeRegion_eq h.tail_lt (h.size_eq ▸ hc)]

/-- Of data that is longer than itself an overwriting ring keeps the end. -/
theorem Sound.contents_put (h : r.Sound) {data : Bytes} (hp : r.occupancy.putting = none)
    (ho : r.occupancy.overwriting = true) (ht : r.occupancy.taking = none) :
    (r.put data).result = .ok () ∧
      (r.put data).ring.contents = lastBytes r.occupancy.capacity (r.contents ++ data) := by
  have htrim : r.trim data = lastBytes r.occupancy.capacity data := by
    rw [h.trim_eq, Queue.kept, if_pos (show r.queue.overwriting = true from ho)]
    rfl
  have hc : (r.trim data).length ≤ r.occupancy.capacity := by
    rw [htrim, length_lastBytes]
    exact Nat.min_le_left ..
  obtain ⟨⟨region, o⟩, hr⟩ := h.coherent.reservePut_iff.2 ⟨hc, hp, .inr ⟨ho, ht⟩⟩
  obtain ⟨opening, hro⟩ := reserve_of_ok (d := .put) hr
  obtain ⟨hres, hcon⟩ := h.contents_put_granted hro
  refine ⟨hres, ?_⟩
  rw [hcon, htrim, lastBytes_append, h.length_contents]
  rfl

/-- Where no byte is cut off in advance, the data is put exactly where each byte can be. -/
theorem Sound.put_iff (h : r.Sound) {data : Bytes} (hp : r.occupancy.putting = none)
    (hd : r.occupancy.taking = none ∨ data.length ≤ r.occupancy.capacity) :
    (r.put data).result = .ok () ↔ r.occupancy.Admits data.length := by
  by_cases hfree : r.occupancy.overwriting = true ∧ r.occupancy.taking = none
  · exact iff_of_true (h.contents_put hp hfree.1 hfree.2).1 ⟨hp, .inr hfree⟩
  have htrim : r.trim data = data := by
    by_cases ho : r.occupancy.overwriting = true
    · have hfits := hd.resolve_left fun ht => hfree ⟨ho, ht⟩
      simp [trim, h.capacity_eq, Nat.not_lt.2 hfits]
    · simp [trim, overwriting, ho]
  constructor
  · intro hok
    obtain ⟨-, ha⟩ := h.put_admits hok
    rwa [htrim] at ha
  · intro ha
    have hfits := ha.2.resolve_right hfree
    simp only [deficit] at hfits
    exact (h.put_ok (by rw [htrim]; omega) (htrim.symm ▸ ha)).1

/-! ## Putting byte by byte -/

theorem Sound.putByte_ok (h : r.Sound) (byte : UInt8) (ha : r.occupancy.Admits 1) :
    r.putByte byte = ⟨.ok (), r.extend [byte], []⟩ := by
  rw [putByte, h.coherent.putOne_of_admits ha]
  rfl

theorem Sound.putByte_error (h : r.Sound) (byte : UInt8) (ha : ¬ r.occupancy.Admits 1) :
    ∃ e, r.putByte byte = .refuse r e := by
  unfold putByte
  cases hr : r.occupancy.putOne with
  | error e => exact ⟨e, rfl⟩
  | ok v => exact absurd (h.coherent.putOne_iff.1 ⟨v, hr⟩) ha

theorem Sound.extend_one (h : r.Sound) (byte : UInt8) (ha : r.occupancy.Admits 1) :
    (r.extend [byte]).Sound := by
  have hl := leads_apply h (.putByte byte)
  simp only [apply, Outcome.map, h.putByte_ok byte ha] at hl
  exact hl.sound h

/-- Data is put from its first byte on. -/
theorem Sound.putEach_cons (h : r.Sound) (byte : UInt8) (data : Bytes)
    (ha : r.occupancy.Admits 1) : r.putEach (byte :: data) = (r.extend [byte]).putEach data := by
  rw [putEach, h.putByte_ok byte ha]

theorem Sound.putEach_iff (h : r.Sound) {data : Bytes} (hp : r.occupancy.putting = none) :
    (r.putEach data).result = .ok () ↔ r.occupancy.Admits data.length := by
  induction data generalizing r with
  | nil =>
    have hl := h.coherent.length_le
    have hd : r.occupancy.deficit 0 = 0 := by
      simp only [deficit]
      omega
    exact iff_of_true rfl ⟨hp, .inl hd⟩
  | cons b bs ih =>
    rw [List.length_cons, h.coherent.admits_succ]
    by_cases ha : r.occupancy.Admits 1
    · rw [h.putEach_cons b bs ha, ih (h.extend_one b ha) hp]
      exact (and_iff_right ha).symm
    · obtain ⟨e, he⟩ := h.putByte_error b ha
      refine iff_of_false ?_ fun hand => ha hand.1
      rw [putEach, he]
      intro hok
      cases hok

/-- One byte and then the others lie where all of them are put at once. -/
theorem Sound.extend_extend (h : r.Sound) (byte : UInt8) {data : Bytes}
    (hd : data.length + 1 ≤ r.occupancy.capacity) :
    (r.extend [byte]).extend data = r.extend (byte :: data) := by
  have hcells : ((r.storage.writeAround r.occupancy.tail [byte]).writeAround
      (cellAfter r.occupancy.capacity r.occupancy.tail 1) data)
        = r.storage.writeAround r.occupancy.tail (byte :: data) := by
    rw [← h.size_eq]
    rfl
  have hcounts := h.coherent.extend_extend hd
  unfold extend
  exact (Ring.mk.injEq ..).mpr ⟨hcounts, hcells⟩

theorem Sound.putEach_eq (h : r.Sound) {data : Bytes}
    (ha : r.occupancy.Admits data.length) (hd : data.length ≤ r.occupancy.capacity) :
    (r.putEach data).ring = r.extend data := by
  induction data generalizing r with
  | nil =>
    show r = r.extend []
    rw [extend, List.length_nil, h.coherent.extend_zero]
    rfl
  | cons b bs ih =>
    obtain ⟨hone, hrest⟩ := (h.coherent.admits_succ bs.length).1 ha
    rw [h.putEach_cons b bs hone, ih (h.extend_one b hone) hrest (Nat.le_of_succ_le hd),
      h.extend_extend b hd]

/-- An overwriting ring loses its oldest byte to each byte that does not fit, and so it keeps the
end of all. -/
theorem Sound.contents_putEach (h : r.Sound) (data : Bytes) (hp : r.occupancy.putting = none)
    (ho : r.occupancy.overwriting = true) (ht : r.occupancy.taking = none) :
    (r.putEach data).ring.contents = lastBytes r.occupancy.capacity (r.contents ++ data) := by
  induction data generalizing r with
  | nil =>
    rw [List.append_nil, lastBytes_of_le (h.length_contents ▸ h.coherent.length_le)]
    rfl
  | cons b bs ih =>
    have ha : r.occupancy.Admits 1 := ⟨hp, .inr ⟨ho, ht⟩⟩
    have hone : [b].length ≤ r.occupancy.capacity := Nat.zero_lt_of_lt h.coherent.head_lt
    have hnext : (r.extend [b]).contents = lastBytes r.occupancy.capacity (r.contents ++ [b]) := by
      rw [lastBytes_append, lastBytes_of_le hone, h.length_contents]
      exact h.contents_putByte (h.coherent.putOne_of_admits ha)
    rw [h.putEach_cons b bs ha, ih (h.extend_one b ha) hp ho ht, hnext]
    show lastBytes r.occupancy.capacity _ = _
    rw [lastBytes_lastBytes_append, List.append_assoc, List.singleton_append]

/-! ## Taking whole data and byte by byte -/

/-- Whole bytes are taken by forgetting them, once they have been copied. -/
theorem Sound.take_eq (h : r.Sound) {count : Nat} (ht : r.occupancy.taking = none)
    (hc : count ≤ r.occupancy.length) :
    (r.take count).result = .ok (r.contents.take count) ∧
      (r.take count).ring = { r with occupancy := r.occupancy.discard count } := by
  have hr := reserveTake_ok.2 ⟨ht, hc, rfl, rfl⟩
  obtain ⟨opening, hro⟩ := reserve_of_ok (d := .take) hr
  obtain ⟨r'', closing, hcommit, heq⟩ :=
    h.moveWhole_ok (fun region storage => (storage.readRegion region, storage)) hro
  obtain ⟨o', ho, rfl, -⟩ := commit_ok hcommit
  cases ho.symm.trans (commit_reserveTake hr)
  rw [h.take_whole, heq]
  exact ⟨congrArg _ (h.readRegion_take hc), rfl⟩

theorem Sound.takeEach_ok (h : r.Sound) {count : Nat} (ht : r.occupancy.taking = none)
    (hc : count ≤ r.occupancy.length) :
    (r.takeEach count).result = .ok (r.contents.take count) ∧
      (r.takeEach count).ring = { r with occupancy := r.occupancy.discard count } := by
  induction count generalizing r with
  | zero =>
    rw [h.coherent.discard_zero, List.take_zero]
    exact ⟨rfl, rfl⟩
  | succ n ih =>
    have hone : 1 ≤ r.occupancy.length := Nat.le_trans (Nat.le_add_left 1 n) hc
    have hs : Sound { r with occupancy := r.occupancy.discard 1 } :=
      h.of_terms (h.coherent.discard hone ht) rfl rfl
    have hbyte : r.takeByte = ⟨.ok (r.storage.get r.occupancy.head),
        { r with occupancy := r.occupancy.discard 1 }, []⟩ := by
      rw [takeByte, takeOne_ok.2 ⟨ht, hone, rfl, rfl⟩]
    obtain ⟨hres, hring⟩ := ih hs ht (Nat.le_sub_of_add_le hc)
    rw [h.contents_discard ht hone] at hres
    simp only [takeEach, hbyte, Outcome.map, hres, hring, discard_discard, Nat.add_comm n 1,
      List.take_add, h.get_head hone, and_true]
    rfl

theorem Sound.takeEach_error (h : r.Sound) {count : Nat} (hc : r.occupancy.length < count) :
    ∃ f, (r.takeEach count).result = .error f := by
  induction count generalizing r with
  | zero => omega
  | succ n ih =>
    unfold takeEach takeByte
    cases hr : r.occupancy.takeOne with
    | error e => exact ⟨_, rfl⟩
    | ok v =>
      obtain ⟨cell, o⟩ := v
      have hs : Sound { r with occupancy := o } :=
        h.of_terms (h.coherent.takeOne hr) (takeOne_terms hr) rfl
      obtain ⟨ht, hone, rfl, rfl⟩ := takeOne_ok.1 hr
      obtain ⟨f, hf⟩ := ih hs (show r.occupancy.length - 1 < n by omega)
      exact ⟨f, by simp only [Outcome.map, hf]; rfl⟩

theorem Sound.takeEach_iff (h : r.Sound) {count : Nat} (ht : r.occupancy.taking = none) :
    (∃ bytes, (r.takeEach count).result = .ok bytes) ↔ count ≤ r.occupancy.length := by
  constructor
  · rintro ⟨bytes, hok⟩
    rcases Nat.lt_or_ge r.occupancy.length count with hlt | hge
    · obtain ⟨f, hf⟩ := h.takeEach_error hlt
      rw [hf] at hok
      cases hok
    · exact hge
  · intro hc
    exact ⟨_, (h.takeEach_ok ht hc).1⟩

theorem Sound.takeInto_ok (h : r.Sound) {count : Nat} {destination : Bytes}
    (hroom : count ≤ destination.length) (ht : r.occupancy.taking = none)
    (hc : count ≤ r.occupancy.length) :
    (r.takeInto destination count).result
        = .ok (r.contents.take count ++ destination.drop count) ∧
      (r.takeInto destination count).ring = { r with occupancy := r.occupancy.discard count } := by
  obtain ⟨hres, hring⟩ := h.take_eq ht hc
  rw [takeInto, if_neg (Nat.not_lt.2 hroom)]
  refine ⟨?_, hring⟩
  rw [Outcome.map, hres]
  rfl

theorem Sound.takeInto_iff (h : r.Sound) {count : Nat} {destination : Bytes}
    (hroom : count ≤ destination.length) (ht : r.occupancy.taking = none) :
    (∃ v, (r.takeInto destination count).result = .ok v) ↔ count ≤ r.occupancy.length := by
  constructor
  · rintro ⟨v, hok⟩
    rw [takeInto, if_neg (Nat.not_lt.2 hroom)] at hok
    cases hr : r.occupancy.checkTake count with
    | error e =>
      rw [take_of_error hr] at hok
      cases hok
    | ok u => exact (checkTake_ok.1 hr).2
  · intro hc
    exact ⟨_, (h.takeInto_ok hroom ht hc).1⟩

theorem skip_eq {count : Nat} (ht : r.occupancy.taking = none) (hc : count ≤ r.occupancy.length) :
    r.skip count = ⟨.ok (), { r with occupancy := r.occupancy.discard count }, []⟩ := by
  rw [skip, skip_ok.2 ⟨ht, hc, rfl⟩]

theorem skip_iff {count : Nat} (ht : r.occupancy.taking = none) :
    (r.skip count).result = .ok () ↔ count ≤ r.occupancy.length := by
  constructor
  · intro hok
    unfold skip at hok
    cases hr : r.occupancy.skip count with
    | error e =>
      rw [hr] at hok
      cases hok
    | ok o => exact (skip_ok.1 hr).2.1
  · intro hc
    rw [skip_eq ht hc]

/-! ## All at once or one at a time -/

/-- **Whole data is put and taken as its bytes would be.** With no put under way, and no take
either or data that is no longer than the ring, data is put exactly where all of its bytes can be
put in turn. Both ways leave the same contents, and data that is no longer than the ring the same
counts and cells; an overwriting ring with no take under way refuses neither. With no take under
way, bytes are taken or skipped together exactly where they can be taken in turn; they are the same
bytes, and the counts and cells that are left are the same. -/
theorem reachable_bytewise {capacity : Nat} {overwriting : Bool} (hc : 1 ≤ capacity)
    (h : r.Reachable capacity overwriting) :
    (∀ data : Bytes, r.occupancy.putting = none →
      r.occupancy.taking = none ∨ data.length ≤ capacity →
      ((r.put data).result = .ok () ↔ (r.putEach data).result = .ok ()) ∧
      ((r.put data).result = .ok () →
        (r.put data).ring.contents = (r.putEach data).ring.contents ∧
        (data.length ≤ capacity → (r.put data).ring = (r.putEach data).ring)) ∧
      (overwriting = true → r.occupancy.taking = none →
        (r.put data).result = .ok () ∧ (r.putEach data).result = .ok ())) ∧
    (r.occupancy.taking = none → ∀ (count : Nat) (destination : Bytes),
      count ≤ destination.length →
      ((∃ v, (r.takeInto destination count).result = .ok v) ↔
        ∃ bytes, (r.takeEach count).result = .ok bytes) ∧
      ((r.skip count).result = .ok () ↔ ∃ bytes, (r.takeEach count).result = .ok bytes) ∧
      ∀ bytes, (r.takeEach count).result = .ok bytes →
        bytes.length = count ∧
        (r.takeInto destination count).result = .ok (bytes ++ destination.drop count) ∧
        (r.takeInto destination count).ring = (r.takeEach count).ring ∧
        (r.skip count).ring = (r.takeEach count).ring) := by
  have hs := h.sound hc
  obtain ⟨rfl, rfl⟩ : r.occupancy.capacity = capacity ∧ r.occupancy.overwriting = overwriting :=
    Prod.mk.inj (Leads.terms h (sound_vacant hc overwriting))
  constructor
  · intro data hp hd
    have hput := hs.put_iff hp hd
    have heach : (r.putEach data).result = .ok () ↔ _ := hs.putEach_iff hp
    refine ⟨hput.trans heach.symm, ?_, ?_⟩
    · intro hok
      have ha := hput.1 hok
      have hfit (hle : data.length ≤ r.occupancy.capacity) :
          (r.put data).ring = (r.putEach data).ring := by
        have htrim : r.trim data = data := by
          simp [trim, hs.capacity_eq, Nat.not_lt.2 hle]
        obtain ⟨-, hring⟩ := hs.put_ok (htrim.symm ▸ hle) (htrim.symm ▸ ha)
        rw [hring, htrim, hs.putEach_eq ha hle]
      refine ⟨?_, hfit⟩
      by_cases hle : data.length ≤ r.occupancy.capacity
      · rw [hfit hle]
      · -- data that does not fit is admitted only where the oldest bytes may go
        have hlong : ¬ r.occupancy.deficit data.length = 0 := by
          simp only [deficit]
          omega
        obtain ⟨ho, ht⟩ := ha.2.resolve_left hlong
        rw [(hs.contents_put hp ho ht).2, hs.contents_putEach data hp ho ht]
    · intro ho ht
      have ha : r.occupancy.Admits data.length := ⟨hp, .inr ⟨ho, ht⟩⟩
      exact ⟨hput.2 ha, heach.2 ha⟩
  · intro ht count destination hroom
    have heach : (∃ bytes, (r.takeEach count).result = .ok bytes) ↔ _ := hs.takeEach_iff ht
    refine ⟨(hs.takeInto_iff hroom ht).trans heach.symm, (skip_iff ht).trans heach.symm, ?_⟩
    intro bytes hbytes
    have hle := heach.1 ⟨bytes, hbytes⟩
    obtain ⟨hres, hring⟩ := hs.takeEach_ok ht hle
    cases hres.symm.trans hbytes
    obtain ⟨hvalue, hleft⟩ := hs.takeInto_ok hroom ht hle
    refine ⟨?_, hvalue, hleft.trans hring.symm, ?_⟩
    · rw [List.length_take, hs.length_contents, Nat.min_eq_left hle]
    · rw [skip_eq ht hle, hring]

/-- A full ring whose newest byte lies before its oldest one, and overwrites. Five bytes leave the
last three in either way, and two bytes the same cells. -/
theorem reachable_bytewise_full :
    ∃ r : Ring, r.Reachable 3 true ∧ r.occupancy.head = 1 ∧ r.contents = [1, 2, 3] ∧
      (r.put [4, 5, 6, 7, 8]).ring.contents = (r.putEach [4, 5, 6, 7, 8]).ring.contents ∧
      (r.put [4, 5]).ring = (r.putEach [4, 5]).ring ∧
      (r.takeInto [9, 9, 9, 9] 3).result = .ok [1, 2, 3, 9] ∧
      (r.skip 3).ring = (r.takeEach 3).ring := by
  have h₁ : Reachable 3 true _ := Leads.refl.step (p := .putByte 0) trivial
  have h₂ := h₁.step (p := .putByte 1) trivial
  have h₃ := h₂.step (p := .putByte 2) trivial
  have h₄ := h₃.step (p := .putByte 3) trivial
  obtain ⟨hputs, htakes⟩ := reachable_bytewise (by decide) h₄
  obtain ⟨-, hlong, -⟩ := hputs [4, 5, 6, 7, 8] rfl (.inl rfl)
  obtain ⟨-, hshort, -⟩ := hputs [4, 5] rfl (.inr (by decide))
  obtain ⟨-, -, hsame⟩ := htakes rfl 3 [9, 9, 9, 9] (by decide)
  obtain ⟨-, hinto, -, hskip⟩ := hsame [1, 2, 3] rfl
  exact ⟨_, h₄, rfl, rfl, (hlong rfl).1, (hshort rfl).2 (by decide), hinto, hskip⟩

end Ring

end CyclicBuffer
