import CyclicBuffer.Proofs.Reachable
import CyclicBuffer.Transfer

/-!
# Contents

What reservations, copies and commits do to the readable bytes. A put under way has its bytes
directly behind the readable ones, so one run of cells holds both: `stretch`. Copying makes the run
go on with what is copied (`stretch_receive`), and a commit turns its start into the new contents
(`contents_commitPut`). A take is offered what is readable, from its front (`offered_take`), and its
commit drops that front. Of whole operations that leaves one step each.
-/

namespace CyclicBuffer

open Occupancy

namespace Ring

/-- The readable bytes and those of the next `n` cells. -/
def stretch (r : Ring) (n : Nat) : Bytes :=
  r.storage.around r.occupancy.head (r.occupancy.length + n)

variable {r r' : Ring}

@[simp] theorem length_stretch (r : Ring) (n : Nat) :
    (r.stretch n).length = r.occupancy.length + n :=
  Storage.length_around ..

theorem take_stretch (r : Ring) {m n : Nat} (h : m ≤ n) :
    (r.stretch n).take (r.occupancy.length + m) = r.stretch m :=
  Storage.take_around _ _ (Nat.add_le_add_left h _)

theorem Sound.head_lt (h : r.Sound) : r.occupancy.head < r.storage.size :=
  h.size_eq ▸ h.coherent.head_lt

theorem Sound.capacity_eq (h : r.Sound) : r.capacity = r.occupancy.capacity := h.size_eq

/-- The contents byte by byte, from the head on. -/
theorem Sound.contents_eq (h : r.Sound) : r.contents = r.stretch 0 :=
  Storage.readRegion_eq _ h.head_lt (h.size_eq ▸ h.coherent.length_le)

theorem Sound.length_contents (h : r.Sound) : r.contents.length = r.occupancy.length := by
  rw [h.contents_eq, length_stretch, Nat.add_zero]

theorem Sound.take_stretch (h : r.Sound) (n : Nat) :
    (r.stretch n).take r.occupancy.length = r.contents := by
  rw [h.contents_eq, ← r.take_stretch (Nat.zero_le n), Nat.add_zero]

/-- Counts that move the head drop the front of the run; the rest of it stays. -/
theorem Sound.stretch_of_head (h : r.Sound) {o : Occupancy} {count n : Nat}
    (hc : count ≤ r.occupancy.length)
    (hh : o.head = cellAfter r.occupancy.capacity r.occupancy.head count)
    (hl : o.length = r.occupancy.length - count) :
    stretch ⟨o, r.storage⟩ n = (r.stretch n).drop count := by
  rw [stretch, stretch, Storage.drop_around _ _ (Nat.le_add_right_of_le hc), h.size_eq, ← hh, hl]
  congr 1
  omega

/-! ## Reservations -/

/-- A put drops what it has to, and then has room behind the readable bytes. -/
theorem Sound.stretch_reservePut (h : r.Sound) {count : Nat} {g : Grant} {events : List Event}
    (hr : r.reserve .put count = .ok (g, r', events)) (n : Nat) :
    r'.stretch n = (r.stretch n).drop (r.occupancy.deficit count) := by
  obtain ⟨region, o', hro, -, rfl, -⟩ := reserve_ok hr
  obtain ⟨-, hc, -, -, rfl⟩ := h.coherent.reservePut_ok hro
  exact h.stretch_of_head (h.coherent.deficit_le hc) rfl rfl

theorem Sound.contents_reservePut (h : r.Sound) {count : Nat} {g : Grant} {events : List Event}
    (hr : r.reserve .put count = .ok (g, r', events)) :
    r'.contents = r.contents.drop (r.occupancy.deficit count) := by
  rw [((leads_reserve hr).sound h).contents_eq, h.stretch_reservePut hr, h.contents_eq]

theorem stretch_reserveTake {count : Nat} {g : Grant} {events : List Event}
    (hr : r.reserve .take count = .ok (g, r', events)) (n : Nat) : r'.stretch n = r.stretch n := by
  obtain ⟨region, o', hro, -, rfl, -⟩ := reserve_ok hr
  obtain ⟨-, -, -, rfl⟩ := reserveTake_ok.1 hro
  rfl

/-! ## Copying -/

/-- The chunk offered next is a straight piece of the region, where moving has got to. -/
theorem chunk_cell {capacity : Nat} {g : Grant} {i : Nat} (hi : i < (g.chunk capacity).length) :
    (g.chunk capacity).offset + i = g.region.cell capacity (g.moved + i) ∧
      g.moved + i < g.region.count := by
  simp only [Grant.chunk, Grant.rest, Region.dropFirst, Region.spans, Region.cell] at hi ⊢
  refine ⟨?_, by omega⟩
  rw [cellAfter_add_of_lt]
  omega

theorem room_le (r : Ring) (g : Grant) : r.room g ≤ g.remaining := by
  simp only [room, Grant.chunk, Grant.rest, Region.dropFirst, Region.spans]
  exact Nat.min_le_left ..

/-- A source that writes to the chunk offered to it makes the run go on with what it writes. -/
theorem Sound.stretch_receive (h : r.Sound) {g : Grant} (hp : r.occupancy.putting = some g.region)
    {data : Bytes} (hd : data.length ≤ r.room g) (hm : g.moved ≤ g.region.count) :
    (r.receive g data).stretch (g.moved + data.length) = r.stretch g.moved ++ data := by
  obtain ⟨hoff, hroom⟩ := h.coherent.putting _ hp
  have hle : data.length ≤ g.region.count - g.moved := Nat.le_trans hd (r.room_le g)
  have hrun : ∀ i < data.length, (g.chunk r.capacity).offset + i =
      cellAfter r.storage.size r.occupancy.head (r.occupancy.length + g.moved + i) := fun i hi => by
    rw [(chunk_cell (Nat.lt_of_lt_of_le hi hd)).1, Region.cell, hoff, h.coherent.tail_eq,
      h.capacity_eq, h.size_eq, cellAfter_cellAfter, Nat.add_assoc]
  have hk : r.occupancy.length + g.moved + data.length ≤ r.storage.size := by
    have := h.size_eq
    omega
  rw [stretch, ← Nat.add_assoc]
  exact Storage.around_write _ _ _ data h.head_lt hk hrun

/-- What a put copies is not readable before its commit. -/
theorem Sound.contents_receive (h : r.Sound) {g : Grant} (hp : r.occupancy.putting = some g.region)
    {data : Bytes} (hd : data.length ≤ r.room g) (hm : g.moved ≤ g.region.count) :
    (r.receive g data).contents = r.contents := by
  have hs : (r.receive g data).Sound := (r.leads_write _ data).sound h
  have := congrArg (List.take r.occupancy.length) (h.stretch_receive hp hd hm)
  rw [List.take_append_of_le_length (by simp), h.take_stretch] at this
  rw [← this]
  exact (hs.take_stretch _).symm

/-- Filling the whole region of a put at once. -/
theorem Sound.stretch_writeRegion (h : r.Sound) {region : Region} {data : Bytes}
    (hp : r.occupancy.putting = some region) (hd : data.length = region.count) :
    stretch ⟨r.occupancy, r.storage.writeRegion region data⟩ region.count = r.contents ++ data := by
  obtain ⟨hoff, hroom⟩ := h.coherent.putting _ hp
  have hsize := h.size_eq
  obtain ⟨offset, count⟩ := region
  simp only at hoff hroom hd
  subst hd
  rw [stretch, hoff, h.coherent.tail_eq, ← h.size_eq, h.contents_eq]
  exact Storage.around_writeRegion _ h.head_lt (by omega)

/-- A take is offered readable bytes, from where it has got to. -/
theorem Sound.offered_take (h : r.Sound) {g : Grant} (ht : r.occupancy.taking = some g.region)
    (hm : g.moved ≤ g.region.count) :
    r.offered g = (r.contents.drop g.moved).take (r.room g) := by
  obtain ⟨hoff, hcount⟩ := h.coherent.taking _ ht
  have hroom : g.moved + r.room g ≤ r.occupancy.length := by
    have := r.room_le g
    simp only [Grant.remaining] at this
    omega
  have hcell : (g.chunk r.capacity).offset = cellAfter r.storage.size r.occupancy.head g.moved := by
    rw [← hoff]
    rfl
  have hend : (g.chunk r.capacity).offset + r.room g ≤ r.storage.size := by
    have hlt := cellAfter_lt h.head_lt g.moved
    rw [← hcell] at hlt
    simp only [room, Grant.chunk, Grant.rest, Region.dropFirst, Region.spans, capacity] at hlt ⊢
    omega
  rw [offered, Storage.readSpan, h.contents_eq, stretch, Storage.drop_around _ _ (by omega),
    Storage.take_around _ _ (by omega), ← hcell]
  exact Storage.read_eq _ hend

/-- Reading a region whose take has just been reserved. -/
theorem Sound.readRegion_take (h : r.Sound) {count : Nat} (hc : count ≤ r.occupancy.length) :
    r.storage.readRegion ⟨r.occupancy.head, count⟩ = r.contents.take count := by
  have hlen := h.coherent.length_le
  rw [Storage.readRegion_eq _ h.head_lt (by rw [h.size_eq]; exact Nat.le_trans hc hlen),
    h.contents_eq, stretch, Storage.take_around _ _ (by omega)]

/-! ## Commits -/

/-- A put makes readable as many bytes of the run as it has moved. -/
theorem Sound.contents_commitPut (h : r.Sound) {g : Grant} {events : List Event}
    (hd : g.direction = .put) (hm : ∀ region, r.occupancy.putting = some region →
      g.moved ≤ region.count) (hc : r.commit g = .ok (r', events)) :
    r'.contents = r.stretch g.moved := by
  have hs : r'.Sound := (leads_commit (by rw [hd]; exact hm) hc).sound h
  obtain ⟨o', ho, rfl, -⟩ := commit_ok hc
  rw [hd] at ho
  obtain ⟨region, -, rfl⟩ := commitPut_ok.1 ho
  rw [hs.contents_eq]
  rfl

/-- A put under way goes on with the same run when a take is committed. -/
theorem Sound.stretch_commitTake (h : r.Sound) {g : Grant} {events : List Event}
    (hd : g.direction = .take) (hm : ∀ region, r.occupancy.taking = some region →
      g.moved ≤ region.count) (hc : r.commit g = .ok (r', events)) (n : Nat) :
    r'.stretch n = (r.stretch n).drop g.moved := by
  obtain ⟨o', ho, rfl, -⟩ := commit_ok hc
  rw [hd] at ho
  obtain ⟨region, ht, rfl⟩ := commitTake_ok.1 ho
  obtain ⟨hoff, hcount⟩ := h.coherent.taking _ ht
  have hmoved := hm region ht
  refine h.stretch_of_head (by omega) ?_ rfl
  rw [← hoff]
  rfl

theorem Sound.contents_commitTake (h : r.Sound) {g : Grant} {events : List Event}
    (hd : g.direction = .take) (hm : ∀ region, r.occupancy.taking = some region →
      g.moved ≤ region.count) (hc : r.commit g = .ok (r', events)) :
    r'.contents = r.contents.drop g.moved := by
  have hs : r'.Sound := (leads_commit (by rw [hd]; exact hm) hc).sound h
  rw [hs.contents_eq, h.stretch_commitTake hd hm hc, h.contents_eq]

/-! ## Whole operations -/

theorem reserve_of_error {d : Direction} {count : Nat} {e : Error}
    (h : r.occupancy.reserve d count = .error e) : r.reserve d count = .error e := by
  simp [Ring.reserve, h, Except.map]

theorem reserve_of_ok {d : Direction} {count : Nat} {region : Region} {o : Occupancy}
    (h : r.occupancy.reserve d count = .ok (region, o)) :
    ∃ opening, r.reserve d count = .ok (⟨d, region, 0⟩, { r with occupancy := o }, opening) := by
  unfold Ring.reserve
  rw [h]
  exact ⟨_, rfl⟩

theorem moveWhole_of_error {α : Type} {d : Direction} {count : Nat} {e : Error}
    (h : r.occupancy.reserve d count = .error e) (work : Region → Storage → α × Storage) :
    r.moveWhole d count work = .refuse r e := by
  simp [moveWhole, reserve_of_error h]

theorem put_of_reserve_error {data : Bytes} {e : Error}
    (h : r.occupancy.reserve .put (r.trim data).length = .error e) :
    r.put data = .refuse r e := by
  simp only [put, moveAll, reserve_of_error h]
  rfl

theorem take_of_reserve_error {count : Nat} {e : Error}
    (h : r.occupancy.reserve .take count = .error e) : r.take count = .refuse r e := by
  simp only [take, moveAll, reserve_of_error h]

/-- A direction that holds a region can be committed. -/
theorem commit_of_held {g : Grant} {region : Region}
    (h : r.occupancy.held g.direction = some region) :
    ∃ r' events, r.commit g = .ok (r', events) := by
  unfold Ring.commit Occupancy.commit
  cases hd : g.direction with
  | put =>
    rw [hd] at h
    simp only [Occupancy.commitPut, show r.occupancy.putting = some region from h]
    exact ⟨_, _, rfl⟩
  | take =>
    rw [hd] at h
    simp only [Occupancy.commitTake, show r.occupancy.taking = some region from h]
    exact ⟨_, _, rfl⟩

/-- An operation that gets its region moves all of it: its commit cannot fail. -/
theorem Sound.moveWhole_ok (h : r.Sound) {α : Type} {d : Direction} {count : Nat}
    (work : Region → Storage → α × Storage) {g : Grant} {opening : List Event}
    (hr : r.reserve d count = .ok (g, r', opening)) :
    ∃ r'' closing,
      commit ⟨r'.occupancy, (work g.region r'.storage).2⟩ { g with moved := count }
        = .ok (r'', closing) ∧
      r.moveWhole d count work = ⟨.ok (work g.region r'.storage).1, r'', opening ++ closing⟩ := by
  obtain ⟨region, o', hro, rfl, rfl, -⟩ := reserve_ok hr
  obtain ⟨-, hheld, -⟩ := h.coherent.reserve_held hro
  obtain ⟨r'', closing, hc⟩ := commit_of_held (r := ⟨o', (work region r.storage).2⟩)
    (g := ⟨d, region, count⟩) hheld
  exact ⟨r'', closing, hc, by simp only [moveWhole, hr, hc]⟩

/-- A whole operation leaves both directions as it finds them. -/
theorem Sound.moveWhole_leaves (h : r.Sound) {α : Type} (d : Direction) (count : Nat)
    (work : Region → Storage → α × Storage) (e : Direction) :
    r.occupancy.Leaves (r.moveWhole d count work).ring.occupancy e := by
  cases hro : r.occupancy.reserve d count with
  | error e' =>
    rw [moveWhole_of_error hro]
    exact .refl _ e
  | ok v =>
    obtain ⟨region, o'⟩ := v
    obtain ⟨opening, hr⟩ := reserve_of_ok hro
    obtain ⟨r'', closing, hc, heq⟩ := h.moveWhole_ok work hr
    obtain ⟨o'', hco, rfl, -⟩ := commit_ok hc
    rw [heq]
    by_cases he : e = d
    · subst he
      have hnone := (h.coherent.reserve_held hro).1
      exact ⟨(commit_held hco).2.trans hnone.symm, fun hne => absurd hnone hne⟩
    · exact (h.coherent.reserve_leaves hro he).trans (commit_leaves hco he)

theorem Sound.apply_leaves (h : r.Sound) (operation : Operation) (d : Direction) :
    r.occupancy.Leaves (r.apply operation).ring.occupancy d := by
  have hdoes := r.apply_does operation
  generalize (r.apply operation).ring = r', (r.apply operation).events = events at hdoes ⊢
  cases hdoes with
  | nothing => exact .refl _ d
  | put data => exact h.put_whole data ▸ h.moveWhole_leaves .put _ _ d
  | take count => exact h.take_whole count ▸ h.moveWhole_leaves .take _ _ d
  | putByte byte hr => exact h.coherent.putOne_leaves hr d
  | takeByte hr => exact h.coherent.takeOne_leaves hr d
  | skip hr => exact h.coherent.skip_leaves hr d
  | reset hr => exact reset_leaves hr d
  | drain hr => exact reset_leaves hr d

/-- A put that gets its region drops what it has to and appends the data. -/
theorem Sound.contents_put_granted (h : r.Sound) {data : Bytes} {g : Grant} {opening : List Event}
    (hr : r.reserve .put (r.trim data).length = .ok (g, r', opening)) :
    (r.put data).result = .ok () ∧
      (r.put data).ring.contents
        = r.contents.drop (r.occupancy.deficit (r.trim data).length) ++ r.trim data := by
  rw [h.put_whole]
  generalize r.trim data = data at hr ⊢
  obtain ⟨r'', closing, hc, heq⟩ :=
    h.moveWhole_ok (fun region storage => ((), storage.writeRegion region data)) hr
  have hs := (leads_reserve hr).sound h
  have hcon := h.contents_reservePut hr
  obtain ⟨region, o', hro, rfl, rfl, -⟩ := reserve_ok hr
  obtain ⟨-, hheld, hcount⟩ := h.coherent.reserve_held hro
  have hw : Sound ⟨o', r.storage.writeRegion region data⟩ :=
    (leads_writeRegion _ region data).sound hs
  rw [heq]
  refine ⟨rfl, ?_⟩
  have hfit : ∀ region', o'.putting = some region' → data.length ≤ region'.count :=
    fun region' h' => by
      cases hheld.symm.trans h'
      exact Nat.le_of_eq hcount.symm
  rw [hw.contents_commitPut rfl hfit hc, ← hcon, ← hs.stretch_writeRegion hheld hcount.symm,
    hcount]

/-- A take that gets its region delivers the oldest bytes and drops them. -/
theorem Sound.contents_take_granted (h : r.Sound) {count : Nat} {g : Grant} {opening : List Event}
    (hr : r.reserve .take count = .ok (g, r', opening)) :
    (r.take count).result = .ok (r.contents.take count) ∧
      (r.take count).ring.contents = r.contents.drop count := by
  obtain ⟨r'', closing, hc, heq⟩ :=
    h.moveWhole_ok (fun region storage => (storage.readRegion region, storage)) hr
  have hs := (leads_reserve hr).sound h
  obtain ⟨region, o', hro, rfl, rfl, -⟩ := reserve_ok hr
  obtain ⟨-, hle, rfl, rfl⟩ := reserveTake_ok.1 hro
  have hfit : ∀ region', some (⟨r.occupancy.head, count⟩ : Region) = some region' →
      count ≤ region'.count := fun region' h' => by
    cases h'
    exact Nat.le_refl _
  rw [h.take_whole, heq]
  refine ⟨by rw [h.readRegion_take hle], ?_⟩
  rw [hs.contents_commitTake rfl hfit hc]
  rfl

end Ring

end CyclicBuffer
