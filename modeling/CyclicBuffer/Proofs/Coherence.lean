import CyclicBuffer.Proofs.Circle
import CyclicBuffer.Ring.Operation

/-!
# Coherent occupancies

The two cursors, the length and the two reservations of an occupancy say the same thing in several
ways, and `Occupancy.Coherent` is their agreement. Every operation keeps it, as long as a commit
stays within its region. Two things follow: the cells that a put holds are none of the readable
ones (`Coherent.put_disjoint`), so that bytes can be copied in both directions at once, and an
operation leaves alone what a direction holds, unless it is the commit of that direction.
-/

namespace CyclicBuffer

namespace Occupancy

/-- The region that a direction holds. -/
def held (o : Occupancy) : Direction → Option Region
  | .put => o.putting
  | .take => o.taking

/-- The cell at which a direction works. -/
def cursor (o : Occupancy) : Direction → Nat
  | .put => o.tail
  | .take => o.head

structure Coherent (o : Occupancy) : Prop where
  head_lt : o.head < o.capacity
  length_le : o.length ≤ o.capacity
  tail_eq : o.tail = cellAfter o.capacity o.head o.length
  putting : ∀ region, o.putting = some region →
    region.offset = o.tail ∧ o.length + region.count ≤ o.capacity
  taking : ∀ region, o.taking = some region → region.offset = o.head ∧ region.count ≤ o.length

variable {o o' : Occupancy}

theorem coherent_vacant {capacity : Nat} (h : 0 < capacity) (overwriting : Bool) :
    (vacant capacity overwriting).Coherent :=
  ⟨h, Nat.zero_le _, (cellAfter_zero h).symm, by simp [vacant], by simp [vacant]⟩

theorem Coherent.tail_lt (h : o.Coherent) : o.tail < o.capacity :=
  h.tail_eq ▸ cellAfter_lt h.head_lt _

/-- A region that is held lies on the circle. -/
theorem Coherent.held_inside (h : o.Coherent) {d : Direction} {region : Region}
    (hr : o.held d = some region) :
    region.offset < o.capacity ∧ region.count ≤ o.capacity := by
  have hlength := h.length_le
  cases d with
  | put =>
    obtain ⟨hoffset, hcount⟩ := h.putting region hr
    exact ⟨hoffset ▸ h.tail_lt, by omega⟩
  | take =>
    obtain ⟨hoffset, hcount⟩ := h.taking region hr
    exact ⟨hoffset ▸ h.head_lt, by omega⟩

theorem Coherent.deficit_le (h : o.Coherent) {count : Nat} (hc : count ≤ o.capacity) :
    o.deficit count ≤ o.length := by
  have := h.length_le
  simp only [deficit]
  omega

theorem Coherent.discard_zero (h : o.Coherent) : o.discard 0 = o := by
  simp [discard, h.head_lt]

/-! ## What a granted operation does -/

/-- Room for a put is made by discarding, if there is too little; then the region behind the newest
byte is held. -/
theorem Coherent.reservePut_ok (h : o.Coherent) {count : Nat} {region : Region}
    (hr : o.reservePut count = .ok (region, o')) :
    o.putting = none ∧ count ≤ o.capacity ∧
      (o.deficit count = 0 ∨ o.overwriting = true ∧ o.taking = none) ∧
      region = ⟨o.tail, count⟩ ∧
      o' = { o.discard (o.deficit count) with putting := some region } := by
  simp only [reservePut] at hr
  split at hr
  · cases hr
  · rename_i hp
    split at hr
    · cases hr
    · split at hr
      · rename_i hd
        cases hr
        exact ⟨by simpa using hp, by omega, .inl hd, rfl, by rw [hd, h.discard_zero]⟩
      · split at hr
        · rename_i ho
          cases hr
          exact ⟨by simpa using hp, by omega, .inr (by simpa using ho), rfl, rfl⟩
        · cases hr

/-- One byte is put as one region would be, without holding it. -/
theorem Coherent.putOne_ok (h : o.Coherent) {cell : Nat} (hr : o.putOne = .ok (cell, o')) :
    o.putting = none ∧ (o.deficit 1 = 0 ∨ o.overwriting = true ∧ o.taking = none) ∧
      cell = o.tail ∧ o' = (o.discard (o.deficit 1)).append.2 := by
  have hl := h.length_le
  simp only [putOne] at hr
  split at hr
  · cases hr
  · rename_i hp
    split at hr
    · have hd : o.deficit 1 = 0 := by simp only [deficit]; omega
      cases hr
      exact ⟨by simpa using hp, .inl hd, rfl, by rw [hd, h.discard_zero]; rfl⟩
    · have hd : o.deficit 1 = 1 := by simp only [deficit]; omega
      split at hr
      · cases hr
      · rename_i ho
        split at hr
        · cases hr
        · rename_i ht
          cases hr
          exact ⟨by simpa using hp, .inr ⟨by simpa using ho, by simpa using ht⟩, rfl,
            by rw [hd]; rfl⟩

theorem checkTake_ok {count : Nat} {u : Unit} :
    o.checkTake count = .ok u ↔ o.taking = none ∧ count ≤ o.length := by
  unfold checkTake
  cases o.taking with
  | some _ => simp
  | none =>
    by_cases h : o.length < count
    · simp [h]
    · simp [h]
      omega

theorem reserveTake_ok {count : Nat} {region : Region} :
    o.reserveTake count = .ok (region, o') ↔ o.taking = none ∧ count ≤ o.length ∧
      region = ⟨o.head, count⟩ ∧ o' = { o with taking := some region } := by
  rw [reserveTake, ← and_assoc, ← checkTake_ok (u := ())]
  cases o.checkTake count with
  | error e => simp [Except.map]
  | ok u =>
    simp only [Except.map, Except.ok.injEq, Prod.mk.injEq, true_and]
    constructor
    · rintro ⟨rfl, rfl⟩
      exact ⟨rfl, rfl⟩
    · rintro ⟨rfl, rfl⟩
      exact ⟨rfl, rfl⟩

theorem skip_ok {count : Nat} :
    o.skip count = .ok o' ↔ o.taking = none ∧ count ≤ o.length ∧ o' = o.discard count := by
  rw [skip, ← and_assoc, ← checkTake_ok (u := ())]
  cases o.checkTake count <;> simp [Except.map, eq_comm]

theorem takeOne_ok {cell : Nat} :
    o.takeOne = .ok (cell, o') ↔
      o.taking = none ∧ 1 ≤ o.length ∧ cell = o.head ∧ o' = o.discard 1 := by
  rw [takeOne, ← and_assoc, ← checkTake_ok (u := ())]
  cases o.checkTake 1 <;> simp [Except.map, eq_comm]

theorem reset_ok :
    o.reset = .ok o' ↔
      o.putting = none ∧ o.taking = none ∧ o' = vacant o.capacity o.overwriting := by
  unfold reset
  cases o.putting <;> cases o.taking <;> simp [eq_comm]

theorem commitPut_ok {moved : Nat} :
    o.commitPut moved = .ok o' ↔ ∃ region, o.putting = some region ∧
      o' = { o with
        tail := region.cell o.capacity moved
        length := o.length + moved
        putting := none } := by
  unfold commitPut
  cases o.putting <;> simp [eq_comm]

theorem commitTake_ok {moved : Nat} :
    o.commitTake moved = .ok o' ↔ ∃ region, o.taking = some region ∧
      o' = { o with
        head := region.cell o.capacity moved
        length := o.length - moved
        taking := none } := by
  unfold commitTake
  cases o.taking <;> simp [eq_comm]

/-! ## Keeping the agreement -/

/-- Only without a take under way can the oldest bytes be discarded: a take holds them. -/
theorem Coherent.discard (h : o.Coherent) {count : Nat} (hc : count ≤ o.length)
    (ht : o.taking = none) : (o.discard count).Coherent := by
  have hl := h.length_le
  refine ⟨cellAfter_lt h.head_lt _, ?_, ?_, fun region hp => ?_, fun region hp => ?_⟩
  · simp only [Occupancy.discard]
    omega
  · simp only [Occupancy.discard, cellAfter_cellAfter, h.tail_eq]
    congr 1
    omega
  · have := h.putting region hp
    simp only [Occupancy.discard]
    omega
  · rw [Occupancy.discard, ht] at hp
    cases hp

/-- What a put discards to make room is not held by a take, and makes enough room. -/
theorem Coherent.discard_deficit (h : o.Coherent) {count : Nat} (hc : count ≤ o.capacity)
    (hd : o.deficit count = 0 ∨ o.overwriting = true ∧ o.taking = none) :
    (o.discard (o.deficit count)).Coherent ∧
      (o.discard (o.deficit count)).length + count ≤ o.capacity := by
  have hle := h.deficit_le hc
  refine ⟨?_, ?_⟩
  · rcases hd with hd | ⟨_, ht⟩
    · rw [hd, h.discard_zero]
      exact h
    · exact h.discard hle ht
  · have := h.length_le
    simp only [Occupancy.discard, deficit] at *
    omega

theorem Coherent.reservePut (h : o.Coherent) {count : Nat} {region : Region}
    (hr : o.reservePut count = .ok (region, o')) : o'.Coherent := by
  obtain ⟨_, hc, hd, rfl, rfl⟩ := h.reservePut_ok hr
  obtain ⟨h', hroom⟩ := h.discard_deficit hc hd
  refine ⟨h'.head_lt, h'.length_le, h'.tail_eq, fun region hp => ?_, h'.taking⟩
  cases hp
  exact ⟨rfl, hroom⟩

theorem Coherent.putOne (h : o.Coherent) {cell : Nat} (hr : o.putOne = .ok (cell, o')) :
    o'.Coherent := by
  obtain ⟨hp, hd, rfl, rfl⟩ := h.putOne_ok hr
  obtain ⟨h', hroom⟩ := h.discard_deficit (Nat.zero_lt_of_lt h.head_lt) hd
  refine ⟨h'.head_lt, hroom, ?_, fun region hq => ?_, fun region ht => ?_⟩
  · simp only [append, h'.tail_eq, cellAfter_cellAfter]
  · rw [append, Occupancy.discard, hp] at hq
    cases hq
  · have := h'.taking region ht
    exact ⟨this.1, Nat.le_succ_of_le this.2⟩

theorem Coherent.reserveTake (h : o.Coherent) {count : Nat} {region : Region}
    (hr : o.reserveTake count = .ok (region, o')) : o'.Coherent := by
  obtain ⟨_, hc, rfl, rfl⟩ := reserveTake_ok.1 hr
  refine ⟨h.head_lt, h.length_le, h.tail_eq, h.putting, fun region ht => ?_⟩
  cases ht
  exact ⟨rfl, hc⟩

theorem Coherent.reserve (h : o.Coherent) {d : Direction} {count : Nat} {region : Region}
    (hr : o.reserve d count = .ok (region, o')) : o'.Coherent := by
  cases d with
  | put => exact h.reservePut hr
  | take => exact h.reserveTake hr

/-- A put makes readable what lies directly behind the newest byte. -/
theorem Coherent.commitPut (h : o.Coherent) {moved : Nat}
    (hm : ∀ region, o.putting = some region → moved ≤ region.count)
    (hr : o.commitPut moved = .ok o') : o'.Coherent := by
  obtain ⟨region, hp, rfl⟩ := commitPut_ok.1 hr
  obtain ⟨hoff, hroom⟩ := h.putting region hp
  have := hm region hp
  refine ⟨h.head_lt, ?_, ?_, by simp, fun region ht => ?_⟩
  · show o.length + moved ≤ o.capacity
    omega
  · simp only [Region.cell, hoff, h.tail_eq, cellAfter_cellAfter]
  · have := h.taking region ht
    exact ⟨this.1, Nat.le_add_right_of_le this.2⟩

/-- A take frees the oldest bytes, and has held them until now. -/
theorem Coherent.commitTake (h : o.Coherent) {moved : Nat}
    (hm : ∀ region, o.taking = some region → moved ≤ region.count)
    (hr : o.commitTake moved = .ok o') : o'.Coherent := by
  obtain ⟨region, ht, rfl⟩ := commitTake_ok.1 hr
  obtain ⟨hoff, hlen⟩ := h.taking region ht
  have hmoved := hm region ht
  have hl := h.length_le
  refine ⟨cellAfter_lt (hoff ▸ h.head_lt) _, ?_, ?_, fun region hp => ?_, by simp⟩
  · show o.length - moved ≤ o.capacity
    omega
  · simp only [Region.cell, hoff, h.tail_eq, cellAfter_cellAfter]
    congr 1
    omega
  · have := h.putting region hp
    exact ⟨this.1, by show o.length - moved + region.count ≤ o.capacity; omega⟩

theorem Coherent.commit (h : o.Coherent) {d : Direction} {moved : Nat}
    (hm : ∀ region, o.held d = some region → moved ≤ region.count)
    (hr : o.commit d moved = .ok o') : o'.Coherent := by
  cases d with
  | put => exact h.commitPut hm hr
  | take => exact h.commitTake hm hr

theorem Coherent.skip (h : o.Coherent) {count : Nat} (hr : o.skip count = .ok o') :
    o'.Coherent := by
  obtain ⟨ht, hc, rfl⟩ := skip_ok.1 hr
  exact h.discard hc ht

theorem Coherent.takeOne (h : o.Coherent) {cell : Nat} (hr : o.takeOne = .ok (cell, o')) :
    o'.Coherent := by
  obtain ⟨ht, hc, _, rfl⟩ := takeOne_ok.1 hr
  exact h.discard hc ht

theorem Coherent.reset (h : o.Coherent) (hr : o.reset = .ok o') : o'.Coherent := by
  obtain ⟨_, _, rfl⟩ := reset_ok.1 hr
  exact coherent_vacant (Nat.zero_lt_of_lt h.head_lt) _

/-! ## Terms -/

/-- What never changes: how much fits, and whether the oldest bytes may go to make room. -/
def terms (o : Occupancy) : Nat × Bool := (o.capacity, o.overwriting)

theorem Coherent.reserve_terms (h : o.Coherent) {d : Direction} {count : Nat} {region : Region}
    (hr : o.reserve d count = .ok (region, o')) : o'.terms = o.terms := by
  cases d with
  | put => obtain ⟨_, _, _, rfl, rfl⟩ := h.reservePut_ok hr; rfl
  | take => obtain ⟨_, _, rfl, rfl⟩ := reserveTake_ok.1 hr; rfl

theorem commit_terms {d : Direction} {moved : Nat} (hr : o.commit d moved = .ok o') :
    o'.terms = o.terms := by
  cases d with
  | put => obtain ⟨_, _, rfl⟩ := commitPut_ok.1 hr; rfl
  | take => obtain ⟨_, _, rfl⟩ := commitTake_ok.1 hr; rfl

theorem Coherent.putOne_terms (h : o.Coherent) {cell : Nat} (hr : o.putOne = .ok (cell, o')) :
    o'.terms = o.terms := by
  obtain ⟨_, _, _, rfl⟩ := h.putOne_ok hr
  rfl

theorem takeOne_terms {cell : Nat} (hr : o.takeOne = .ok (cell, o')) : o'.terms = o.terms := by
  obtain ⟨_, _, _, rfl⟩ := takeOne_ok.1 hr
  rfl

theorem skip_terms {count : Nat} (hr : o.skip count = .ok o') : o'.terms = o.terms := by
  obtain ⟨_, _, rfl⟩ := skip_ok.1 hr
  rfl

theorem reset_terms (hr : o.reset = .ok o') : o'.terms = o.terms := by
  obtain ⟨_, _, rfl⟩ := reset_ok.1 hr
  rfl

/-! ## Directions left alone -/

/-- A change that leaves a direction alone: it holds what it held, and if it holds something its
cursor is where it was. -/
structure Leaves (o o' : Occupancy) (d : Direction) : Prop where
  held : o'.held d = o.held d
  cursor : o.held d ≠ none → o'.cursor d = o.cursor d

theorem Leaves.refl (o : Occupancy) (d : Direction) : o.Leaves o d := ⟨rfl, fun _ => rfl⟩

theorem Leaves.trans {o₁ o₂ o₃ : Occupancy} {d : Direction} (h : o₁.Leaves o₂ d)
    (h' : o₂.Leaves o₃ d) : o₁.Leaves o₃ d :=
  ⟨h'.held.trans h.held, fun hd => (h'.cursor (h.held ▸ hd)).trans (h.cursor hd)⟩

/-- Making room leaves both directions alone: the head moves only while no take holds it. -/
theorem Coherent.discard_leaves (h : o.Coherent) {count : Nat}
    (hd : count = 0 ∨ o.taking = none) (d : Direction) : o.Leaves (o.discard count) d := by
  refine ⟨by cases d <;> rfl, fun hne => ?_⟩
  rcases hd with rfl | ht
  · rw [h.discard_zero]
  · cases d with
    | put => rfl
    | take => exact absurd ht hne

theorem Coherent.reserve_leaves (h : o.Coherent) {d e : Direction} {count : Nat} {region : Region}
    (hr : o.reserve d count = .ok (region, o')) (he : e ≠ d) : o.Leaves o' e := by
  cases d with
  | put =>
    obtain ⟨_, _, hd, rfl, rfl⟩ := h.reservePut_ok hr
    have := h.discard_leaves (hd.imp_right And.right) e
    cases e with
    | put => exact absurd rfl he
    | take => exact ⟨this.held, this.cursor⟩
  | take =>
    obtain ⟨_, _, rfl, rfl⟩ := reserveTake_ok.1 hr
    cases e with
    | put => exact ⟨rfl, fun _ => rfl⟩
    | take => exact absurd rfl he

/-- A reservation is granted only to a direction that holds nothing, which then holds it. -/
theorem Coherent.reserve_held (h : o.Coherent) {d : Direction} {count : Nat} {region : Region}
    (hr : o.reserve d count = .ok (region, o')) :
    o.held d = none ∧ o'.held d = some region ∧ region.count = count := by
  cases d with
  | put =>
    obtain ⟨hp, _, _, rfl, rfl⟩ := h.reservePut_ok hr
    exact ⟨hp, rfl, rfl⟩
  | take =>
    obtain ⟨ht, _, rfl, rfl⟩ := reserveTake_ok.1 hr
    exact ⟨ht, rfl, rfl⟩

theorem commit_held {d : Direction} {moved : Nat} (hr : o.commit d moved = .ok o') :
    (∃ region, o.held d = some region) ∧ o'.held d = none := by
  cases d with
  | put =>
    obtain ⟨region, hp, rfl⟩ := commitPut_ok.1 hr
    exact ⟨⟨region, hp⟩, rfl⟩
  | take =>
    obtain ⟨region, ht, rfl⟩ := commitTake_ok.1 hr
    exact ⟨⟨region, ht⟩, rfl⟩

theorem commit_leaves {d e : Direction} {moved : Nat} (hr : o.commit d moved = .ok o')
    (he : e ≠ d) : o.Leaves o' e := by
  cases d with
  | put =>
    obtain ⟨_, _, rfl⟩ := commitPut_ok.1 hr
    cases e with
    | put => exact absurd rfl he
    | take => exact ⟨rfl, fun _ => rfl⟩
  | take =>
    obtain ⟨_, _, rfl⟩ := commitTake_ok.1 hr
    cases e with
    | put => exact ⟨rfl, fun _ => rfl⟩
    | take => exact absurd rfl he

theorem Coherent.putOne_leaves (h : o.Coherent) {cell : Nat} (hr : o.putOne = .ok (cell, o'))
    (d : Direction) : o.Leaves o' d := by
  obtain ⟨hp, hd, rfl, rfl⟩ := h.putOne_ok hr
  refine (h.discard_leaves (hd.imp_right And.right) d).trans ⟨by cases d <;> rfl, fun hne => ?_⟩
  cases d with
  | put => exact absurd hp hne
  | take => rfl

theorem Coherent.takeOne_leaves (h : o.Coherent) {cell : Nat} (hr : o.takeOne = .ok (cell, o'))
    (d : Direction) : o.Leaves o' d := by
  obtain ⟨ht, _, _, rfl⟩ := takeOne_ok.1 hr
  exact h.discard_leaves (.inr ht) d

theorem Coherent.skip_leaves (h : o.Coherent) {count : Nat} (hr : o.skip count = .ok o')
    (d : Direction) : o.Leaves o' d := by
  obtain ⟨ht, _, rfl⟩ := skip_ok.1 hr
  exact h.discard_leaves (.inr ht) d

theorem reset_leaves (hr : o.reset = .ok o') (d : Direction) : o.Leaves o' d := by
  obtain ⟨hp, ht, rfl⟩ := reset_ok.1 hr
  cases d with
  | put => exact ⟨hp.symm, fun hne => absurd hp hne⟩
  | take => exact ⟨ht.symm, fun hne => absurd ht hne⟩

/-! ## Disjoint regions -/

/-- The cells that a put holds are none of the readable ones. -/
theorem Coherent.put_disjoint (h : o.Coherent) {region : Region} (hp : o.putting = some region)
    {i j : Nat} (hi : i < region.count) (hj : j < o.length) :
    region.cell o.capacity i ≠ o.readable.cell o.capacity j := by
  obtain ⟨hoff, hroom⟩ := h.putting region hp
  intro he
  simp only [Region.cell, readable, hoff, h.tail_eq, cellAfter_cellAfter] at he
  have := cellAfter_inj h.head_lt (by omega) (by omega) he
  omega

end Occupancy

end CyclicBuffer
