import CyclicBuffer.Proofs.Parcel
import Mathlib.Algebra.Ring.Nat
import Mathlib.Data.List.Nodup

/-!
# Strides over a grant

A grant advances by one count after the other (`Grant.advanceAll`), and before each of them it looks
up anew which chunk is next. A `Stride` is such a chunk and the count that follows. As long as no
count exceeds its chunk, the strides cover the region cell by cell, in order and once, whatever the
counts are (`Grant.cells_strides`).

Behind its first span a region has the spans of what is left of it (`Region.pieces_cons`). So the
chunks of the longest strides are the spans into which the region is cut at once
(`Grant.chunks_eq_pieces`).
-/

namespace CyclicBuffer

/-! ## Cells and pieces -/

/-- The cells of a span in order. -/
def Span.cells (p : Span) : List Nat := (List.range p.length).map (p.offset + ·)

namespace Region

/-- The spans of a region that are not empty. -/
def pieces (capacity : Nat) (r : Region) : List Span :=
  [(r.spans capacity).1, (r.spans capacity).2].filter fun p => 0 < p.length

variable {capacity : Nat} {r : Region}

theorem nodup_cells (ho : r.offset < capacity) (hc : r.count ≤ capacity) :
    ((List.range r.count).map (r.cell capacity)).Nodup := by
  refine List.Nodup.map_on (fun i hi j hj he => ?_) List.nodup_range
  rw [List.mem_range] at hi hj
  exact cellAfter_inj ho (by omega) (by omega) he

theorem pieces_of_empty (h : r.count = 0) : r.pieces capacity = [] := by
  simp [pieces, spans, h]

/-- A region that is not empty begins with its first span. Behind it come the pieces of what is
left. -/
theorem pieces_cons (ho : r.offset < capacity) (hc : r.count ≤ capacity) (hpos : 0 < r.count) :
    r.pieces capacity = (r.spans capacity).1
      :: (r.dropFirst capacity (r.spans capacity).1.length).pieces capacity := by
  have hfirst : 0 < (r.spans capacity).1.length := by
    simp only [spans]
    omega
  rw [pieces, List.filter_cons_of_pos (by simpa using hfirst)]
  congr 1
  by_cases hwrap : r.count ≤ capacity - r.offset
  · -- nothing is left, and the second span is empty
    have hlen : (r.spans capacity).1.length = r.count := Nat.min_eq_left hwrap
    rw [hlen, pieces_of_empty (Nat.sub_self _)]
    simp [spans, hwrap]
  · -- what is left starts at cell zero, so that it is one span
    have hlen : (r.spans capacity).1.length = capacity - r.offset := Nat.min_eq_right (by omega)
    have hrest : r.dropFirst capacity (capacity - r.offset)
        = ⟨0, r.count - (capacity - r.offset)⟩ := by
      rw [dropFirst, cell, cellAfter_eq ho (by omega), if_neg (by omega)]
      congr 1
      omega
    have hfits : min (r.count - (capacity - r.offset)) capacity
        = r.count - (capacity - r.offset) := Nat.min_eq_left (by omega)
    rw [hlen, hrest]
    simp [pieces, spans, hfits, Nat.min_eq_right (Nat.le_of_not_le hwrap), List.filter_cons]

theorem length_pieces (capacity : Nat) (r : Region) : (r.pieces capacity).length ≤ 2 :=
  List.length_filter_le ..

end Region

/-! ## Strides -/

/-- A chunk that is looked up, and the count by which the grant advances then. -/
structure Stride where
  chunk : Span
  count : Nat
deriving DecidableEq, Repr, Inhabited

/-- The cells that are advanced over, as far as they are in the chunk. -/
def Stride.cells (s : Stride) : List Nat := s.chunk.cells.take s.count

theorem Stride.cells_eq {s : Stride} (h : s.count ≤ s.chunk.length) :
    s.cells = (List.range s.count).map (s.chunk.offset + ·) := by
  rw [cells, Span.cells, ← List.map_take, List.take_range, Nat.min_eq_left h]

namespace Grant

/-- Advances by one count after the other. -/
def advanceAll (g : Grant) (counts : List Nat) : Except Fault Grant := counts.foldlM advance g

/-- The strides of a grant that is to advance by one count after the other. One that is refused is
the last. -/
def strides (capacity : Nat) (g : Grant) : List Nat → List Stride
  | [] => []
  | count :: counts =>
    ⟨g.chunk capacity, count⟩ :: match g.advance count with
      | .ok next => next.strides capacity counts
      | .error _ => []

variable {capacity count : Nat} {counts : List Nat} {g : Grant}

theorem advanceAll_eq (g : Grant) (counts : List Nat) :
    g.advanceAll counts = if counts.sum ≤ g.remaining
      then .ok { g with moved := g.moved + counts.sum } else .error .pastEnd := by
  induction counts generalizing g with
  | nil => simp [advanceAll, pure, Except.pure]
  | cons count counts ih =>
    have hcons : g.advanceAll (count :: counts)
        = (g.advance count).bind fun next => next.advanceAll counts := rfl
    rw [hcons, List.sum_cons]
    by_cases hle : count ≤ g.remaining
    · rw [g.advance_of_le hle, Except.bind, ih]
      simp only [remaining, Nat.add_assoc] at hle ⊢
      have hiff : counts.sum ≤ g.region.count - (g.moved + count)
          ↔ count + counts.sum ≤ g.region.count - g.moved := by omega
      exact if_congr hiff rfl rfl
    · rw [advance, if_pos (Nat.lt_of_not_le hle), Except.bind, if_neg (by omega)]

theorem strides_cons (h : count ≤ g.remaining) :
    g.strides capacity (count :: counts) = ⟨g.chunk capacity, count⟩
      :: ({ g with moved := g.moved + count } : Grant).strides capacity counts := by
  rw [strides, g.advance_of_le h]

theorem strides_inside (ho : g.region.offset < capacity) :
    ∀ x ∈ g.strides capacity counts, x.chunk.offset + x.chunk.length ≤ capacity := by
  induction counts generalizing g with
  | nil => exact fun x hx => absurd hx List.not_mem_nil
  | cons count counts ih =>
    by_cases hle : count ≤ g.remaining
    · rw [strides_cons hle, List.forall_mem_cons]
      exact ⟨(chunk_inside ho).2, ih ho⟩
    · rw [strides, advance, if_pos (Nat.lt_of_not_le hle), List.forall_mem_cons]
      exact ⟨(chunk_inside ho).2, fun x hx => absurd hx List.not_mem_nil⟩

/-! ## Short strides -/

/-- Strides that stay in their chunks are never refused, and they go on from where the grant has
got to, cell by cell. -/
theorem cells_strides (h : ∀ x ∈ g.strides capacity counts, x.count ≤ x.chunk.length) :
    counts.sum ≤ g.remaining ∧ (g.strides capacity counts).flatMap Stride.cells
      = (List.range counts.sum).map fun i => g.region.cell capacity (g.moved + i) := by
  induction counts generalizing g with
  | nil => exact ⟨Nat.zero_le _, rfl⟩
  | cons count counts ih =>
    have hchunk : count ≤ (g.chunk capacity).length := h _ (List.mem_cons_self ..)
    have hle : count ≤ g.remaining := Nat.le_trans hchunk (chunk_length_le ..)
    rw [strides_cons hle, List.forall_mem_cons] at h
    obtain ⟨hsum, hcells⟩ := ih h.2
    have hfits : count + counts.sum ≤ g.remaining := by
      simp only [remaining] at hsum hle ⊢
      omega
    have hfirst : Stride.cells ⟨g.chunk capacity, count⟩
        = (List.range count).map fun i => g.region.cell capacity (g.moved + i) := by
      rw [Stride.cells_eq h.1]
      refine List.map_congr_left fun i hi => (Ring.chunk_cell ?_).1
      exact Nat.lt_of_lt_of_le (List.mem_range.1 hi) hchunk
    refine ⟨by rwa [List.sum_cons], ?_⟩
    rw [strides_cons hle, List.flatMap_cons, hfirst, hcells, List.sum_cons, List.range_add,
      List.map_append, List.map_map]
    congr 1
    refine List.map_congr_left fun i _ => ?_
    simp only [Function.comp_apply, Nat.add_assoc]

/-- What is read stride by stride is what the cells hold. -/
theorem read_strides (s : Storage) (ho : g.region.offset < s.size)
    (h : ∀ x ∈ g.strides s.size counts, x.count ≤ x.chunk.length) :
    (g.strides s.size counts).flatMap (fun x => s.read x.chunk.offset x.count)
      = ((g.strides s.size counts).flatMap Stride.cells).map s.get := by
  rw [List.map_flatMap]
  refine List.flatMap_congr fun x hx => ?_
  have hcount := h x hx
  have hinside := strides_inside ho x hx
  rw [Storage.read_eq s (by omega), Storage.around, Stride.cells_eq hcount, List.map_map]
  refine List.map_congr_left fun i hi => ?_
  rw [List.mem_range] at hi
  rw [cellAfter_of_lt (by omega), Function.comp_apply]

/-! ## The longest strides -/

/-- The chunks of strides over whole chunks are the pieces of what is left. -/
theorem chunks_eq_pieces (ho : g.region.offset < capacity) (hc : g.region.count ≤ capacity)
    (h : ∀ x ∈ g.strides capacity counts, 0 < x.count ∧ x.count = x.chunk.length)
    (hend : counts.sum = g.remaining) :
    (g.strides capacity counts).map Stride.chunk = (g.rest capacity).pieces capacity := by
  induction counts generalizing g with
  | nil => exact (Region.pieces_of_empty hend.symm).symm
  | cons count counts ih =>
    obtain ⟨hpos, hchunk⟩ : 0 < count ∧ count = (g.chunk capacity).length :=
      h _ (List.mem_cons_self ..)
    have hle : count ≤ g.remaining := hchunk ▸ chunk_length_le ..
    rw [strides_cons hle, List.forall_mem_cons] at h
    have hlater : counts.sum = ({ g with moved := g.moved + count } : Grant).remaining := by
      rw [List.sum_cons] at hend
      simp only [remaining] at hend ⊢
      omega
    have hleft : 0 < (g.rest capacity).count := Nat.lt_of_lt_of_le hpos hle
    have hfits : (g.rest capacity).count ≤ capacity := Nat.le_trans (Nat.sub_le ..) hc
    have hpieces := ih (g := { g with moved := g.moved + count }) ho hc h.2 hlater
    rw [strides_cons hle, List.map_cons, hpieces, rest_advance,
      Region.pieces_cons (cellAfter_lt ho _) hfits hleft, hchunk]
    rfl

/-- A grant can always be worked off chunk by chunk. -/
theorem exists_whole (ho : g.region.offset < capacity) :
    ∃ counts, (∀ x ∈ g.strides capacity counts, 0 < x.count ∧ x.count = x.chunk.length) ∧
      counts.sum = g.remaining := by
  obtain ⟨n, hn⟩ : ∃ n, g.remaining = n := ⟨_, rfl⟩
  induction n using Nat.strongRecOn generalizing g with
  | ind n ih =>
    by_cases hzero : n = 0
    · exact ⟨[], fun x hx => absurd hx List.not_mem_nil, (hn.trans hzero).symm⟩
    · have hpos : 0 < (g.chunk capacity).length := (chunk_inside ho).1 (by omega)
      have hle := chunk_length_le capacity g
      have hnext : ({ g with moved := g.moved + (g.chunk capacity).length } : Grant).remaining
          = n - (g.chunk capacity).length := by
        rw [← hn]
        exact Nat.sub_add_eq ..
      obtain ⟨counts, hcounts, hsum⟩ := ih (n - (g.chunk capacity).length) (by omega)
        (g := { g with moved := g.moved + (g.chunk capacity).length }) ho hnext
      refine ⟨(g.chunk capacity).length :: counts, ?_, by rw [List.sum_cons]; omega⟩
      rw [strides_cons hle, List.forall_mem_cons]
      exact ⟨⟨hpos, rfl⟩, hcounts⟩

/-! ## The whole region -/

section
variable {d : Direction} {r : Region}

theorem cells_strides_zero
    (h : ∀ x ∈ (⟨d, r, 0⟩ : Grant).strides capacity counts, x.count ≤ x.chunk.length) :
    counts.sum ≤ r.count ∧
      ((⟨d, r, 0⟩ : Grant).strides capacity counts).flatMap Stride.cells
        = (List.range counts.sum).map (r.cell capacity) := by
  have hstrides := cells_strides h
  simp only [Nat.zero_add] at hstrides
  exact hstrides

theorem cells_pieces (ho : r.offset < capacity) (hc : r.count ≤ capacity) :
    (r.pieces capacity).flatMap Span.cells
      = (List.range r.count).map (r.cell capacity) := by
  obtain ⟨counts, h, hsum⟩ := exists_whole (g := ⟨.put, r, 0⟩) ho
  have hchunks := chunks_eq_pieces ho hc h hsum
  have hcells := (cells_strides_zero fun x hx => Nat.le_of_eq (h x hx).2).2
  rw [rest_zero ho] at hchunks
  rw [hsum, remaining, Nat.sub_zero] at hcells
  rw [← hchunks, List.flatMap_map, ← hcells]
  refine List.flatMap_congr fun x hx => ?_
  rw [Stride.cells_eq (Nat.le_of_eq (h x hx).2), (h x hx).2, Span.cells]

end

/-- **Strides cover a region once.** Let a grant hold `count` cells from `offset` on, around the
circle, all of them different. It can advance by any counts that together are no more than that. As
long as bytes are left, its chunk is the first span of what is left: it starts where the counts have
led, is not empty, and ends with the last cell at the latest. If no count exceeds its chunk, the
cells that are advanced over are those of the region, in order, as far as the counts go; when they
go all the way, the bytes read stride by stride are those that are read span by span. The counts can
be whole chunks up to the end, and then the chunks are the spans of the region that are not empty.
These are two at most, they have no cell in common, and together they are the region. -/
theorem strides_cover (d : Direction) {capacity offset count : Nat} (ho : offset < capacity)
    (hc : count ≤ capacity) :
    let region : Region := ⟨offset, count⟩
    let start : Grant := ⟨d, region, 0⟩
    let cell (i : Nat) : Nat := (offset + i) % capacity
    ((List.range count).map cell).Nodup ∧
    (∀ counts, start.advanceAll counts
      = if counts.sum ≤ count then .ok ⟨d, region, counts.sum⟩ else .error .pastEnd) ∧
    (∀ counts g, start.advanceAll counts = .ok g → g.remaining ≠ 0 →
      g.chunk capacity = (Region.spans capacity ⟨cell counts.sum, count - counts.sum⟩).1 ∧
      (g.chunk capacity).offset = cell counts.sum ∧ 0 < (g.chunk capacity).length ∧
      (g.chunk capacity).offset + (g.chunk capacity).length ≤ capacity) ∧
    (∀ counts, (∀ x ∈ start.strides capacity counts, x.count ≤ x.chunk.length) →
      counts.sum ≤ count ∧
      (start.strides capacity counts).flatMap Stride.cells = (List.range counts.sum).map cell ∧
      (counts.sum = count → ∀ s : Storage, s.size = capacity →
        (start.strides capacity counts).flatMap (fun x => s.read x.chunk.offset x.count)
          = s.readRegion region)) ∧
    (∃ counts, counts.sum = count ∧
      ∀ x ∈ start.strides capacity counts, 0 < x.count ∧ x.count = x.chunk.length) ∧
    (∀ counts, counts.sum = count →
      (∀ x ∈ start.strides capacity counts, 0 < x.count ∧ x.count = x.chunk.length) →
      (start.strides capacity counts).map Stride.chunk = region.pieces capacity) ∧
    (region.pieces capacity).length ≤ 2 ∧
    (region.pieces capacity).flatMap Span.cells = (List.range count).map cell ∧
    (region.pieces capacity).Pairwise fun p q => List.Disjoint p.cells q.cells := by
  intro region start cell
  have hnodup : ((List.range count).map cell).Nodup := Region.nodup_cells (r := region) ho hc
  have hadvance counts : start.advanceAll counts
      = if counts.sum ≤ count then .ok ⟨d, region, counts.sum⟩ else .error .pastEnd := by
    rw [advanceAll_eq]
    simp only [start, region, remaining, Nat.sub_zero, Nat.zero_add]
  have hpieces : (region.pieces capacity).flatMap Span.cells = (List.range count).map cell :=
    cells_pieces (r := region) ho hc
  refine ⟨hnodup, hadvance, ?chunk, ?cells, ?whole, ?chunks, Region.length_pieces .., hpieces,
    ?disjoint⟩
  case chunk =>
    intro counts g hg hleft
    rw [hadvance] at hg
    split at hg
    · cases hg
      obtain ⟨hpos, hinside⟩ := chunk_inside (g := ⟨d, region, counts.sum⟩) ho
      exact ⟨rfl, rfl, hpos hleft, hinside⟩
    · cases hg
  case cells =>
    intro counts h
    obtain ⟨hsum, hcover⟩ := cells_strides_zero h
    refine ⟨hsum, hcover, fun hall s hs => ?_⟩
    subst hs
    rw [read_strides s ho h, hcover, hall, List.map_map, Storage.readRegion_eq s ho hc]
    rfl
  case whole =>
    obtain ⟨counts, h, hsum⟩ := exists_whole (g := start) ho
    exact ⟨counts, hsum, h⟩
  case chunks =>
    intro counts hsum h
    exact rest_zero (d := d) (r := region) ho ▸ chunks_eq_pieces ho hc h hsum
  case disjoint =>
    rw [← hpieces, List.nodup_flatMap] at hnodup
    exact hnodup.2

/-- A region of four cells begins with the last of them. It is cut between its first cell and its
second, wherever else it is cut. -/
theorem strides_cover_lastCell :
    let start : Grant := ⟨.take, ⟨3, 4⟩, 0⟩
    start.strides 4 [1, 2, 1] = [⟨⟨3, 1⟩, 1⟩, ⟨⟨0, 3⟩, 2⟩, ⟨⟨2, 1⟩, 1⟩] ∧
      (start.strides 4 [1, 2, 1]).flatMap Stride.cells = [3, 0, 1, 2] ∧
      (start.strides 4 [1, 3]).map Stride.chunk = [⟨3, 1⟩, ⟨0, 3⟩] := by
  obtain ⟨-, -, -, hcells, -, hchunks, -⟩ :=
    strides_cover .take (show 3 < 4 by decide) (show 4 ≤ 4 by decide)
  exact ⟨by decide, (hcells [1, 2, 1] (by decide)).2.1, hchunks [1, 3] rfl (by decide)⟩

end Grant

end CyclicBuffer
