import CyclicBuffer.Proofs.Circle
import CyclicBuffer.Ring.Basic

/-!
# Chunks of a grant

As long as bytes of a grant are left, its chunk is a piece of the circle that is not empty
(`Grant.chunk_inside`), and behind the chunk the rest of the region goes on
(`Storage.readRegion_cons`, `Storage.writeRegion_cons`). So a grant that is worked off chunk by
chunk comes to its end within as many passes as it has bytes, and by then its region has been read
or filled as a whole (`Grant.workOff_copyOut`, `Grant.workOff_copyIn`).
-/

namespace CyclicBuffer

/-! ## The first span and the rest -/

namespace Storage

variable {s : Storage} {r : Region}

theorem readRegion_empty (h : r.count = 0) : s.readRegion r = [] := by
  simp [readRegion, readSpan, read, Region.spans, h]

theorem readRegion_cons (ho : r.offset < s.size) (hc : r.count ≤ s.size) :
    s.readRegion r = s.readSpan (r.spans s.size).1
      ++ s.readRegion (r.dropFirst s.size (r.spans s.size).1.length) := by
  obtain ⟨offset, count⟩ := r
  dsimp only at ho hc
  have hlen : min count (s.size - offset) ≤ count := Nat.min_le_left ..
  have hspan : s.readSpan ⟨offset, min count (s.size - offset)⟩
      = s.around offset (min count (s.size - offset)) :=
    read_eq s (show offset + min count (s.size - offset) ≤ s.size by omega)
  have hrest : s.readRegion (Region.dropFirst s.size ⟨offset, count⟩ (min count (s.size - offset)))
      = s.around (cellAfter s.size offset (min count (s.size - offset)))
        (count - min count (s.size - offset)) :=
    readRegion_eq s (cellAfter_lt ho _) (Nat.le_trans (Nat.sub_le ..) hc)
  simp only [Region.spans]
  rw [hspan, hrest, ← around_add, Nat.add_sub_cancel' hlen]
  exact readRegion_eq s ho hc

theorem writeRegion_nil : s.writeRegion r [] = s := by
  simp [writeRegion, write]

theorem writeRegion_cons {data : Bytes} (ho : r.offset < s.size) (hd : data.length = r.count)
    (hc : r.count ≤ s.size) :
    s.writeRegion r data
      = (s.write r.offset (data.take (r.spans s.size).1.length)).writeRegion
        (r.dropFirst s.size (r.spans s.size).1.length)
        (data.drop (r.spans s.size).1.length) := by
  obtain ⟨offset, count⟩ := r
  dsimp only at ho hc hd
  subst hd
  simp only [Region.spans]
  generalize hfirst : min data.length (s.size - offset) = first
  have htake : (data.take first).length = first := by
    rw [List.length_take]
    omega
  have hrest : Region.dropFirst s.size ⟨offset, data.length⟩ first
      = ⟨cellAfter s.size offset first, (data.drop first).length⟩ := by
    rw [List.length_drop]
    rfl
  have hstart : cellAfter s.size offset first < (s.writeAround offset (data.take first)).size := by
    rw [size_writeAround]
    exact cellAfter_lt ho _
  have hfits : (data.drop first).length ≤ (s.writeAround offset (data.take first)).size := by
    rw [size_writeAround, List.length_drop]
    omega
  rw [hrest, writeRegion_eq s ho hc, write_eq_writeAround s (by omega),
    writeRegion_eq _ hstart hfits]
  conv => lhs; rw [← List.take_append_drop first data, writeAround_append s ho, htake]

end Storage

namespace Grant

variable {capacity count : Nat} {g : Grant}

/-! ## Chunks -/

theorem advance_of_le (g : Grant) {count : Nat} (h : count ≤ g.remaining) :
    g.advance count = .ok { g with moved := g.moved + count } :=
  if_neg (Nat.not_lt.2 h)

theorem chunk_length_le (capacity : Nat) (g : Grant) : (g.chunk capacity).length ≤ g.remaining :=
  Nat.min_le_left ..

/-- As long as bytes are left the chunk is not empty, and it ends with the last cell at the
latest. -/
theorem chunk_inside (ho : g.region.offset < capacity) :
    (g.remaining ≠ 0 → 0 < (g.chunk capacity).length) ∧
      (g.chunk capacity).offset + (g.chunk capacity).length ≤ capacity := by
  have hoffset : (g.chunk capacity).offset < capacity := cellAfter_lt ho _
  have hlength : (g.chunk capacity).length
      = min g.remaining (capacity - (g.chunk capacity).offset) := rfl
  omega

/-- What is left after an advance. -/
theorem rest_advance (capacity count : Nat) (g : Grant) :
    ({ g with moved := g.moved + count } : Grant).rest capacity
      = (g.rest capacity).dropFirst capacity count := by
  simp only [rest, Region.dropFirst, Region.cell, cellAfter_cellAfter, Nat.sub_sub]

/-- At first the whole region is left. -/
theorem rest_zero {d : Direction} {r : Region} (ho : r.offset < capacity) :
    (⟨d, r, 0⟩ : Grant).rest capacity = r := by
  rw [rest, Region.dropFirst, Region.cell, cellAfter_zero ho, Nat.sub_zero]

/-! ## Working a grant off -/

section
variable {σ : Type} {work : Span → σ → σ} {passes : Nat} {state : σ}

theorem workOff_of_done (h : g.remaining = 0) :
    g.workOff capacity work passes state = (.ok (), g, state) := by
  cases passes with
  | zero => rfl
  | succ passes => rw [workOff, if_pos h]

theorem workOff_succ (h : g.remaining ≠ 0) :
    g.workOff capacity work (passes + 1) state
      = ({ g with moved := g.moved + (g.chunk capacity).length } : Grant).workOff capacity work
        passes (work (g.chunk capacity) state) := by
  rw [workOff, if_neg h]
  simp only [g.advance_of_le (chunk_length_le capacity g)]

theorem eq_of_done (hm : g.moved ≤ g.region.count) (h : g.remaining = 0) :
    { g with moved := g.region.count } = g := by
  have hmoved : g.region.count = g.moved := Nat.le_antisymm (Nat.le_of_sub_eq_zero h) hm
  rw [hmoved]

/-- A grant is worked off to its end, and what every chunk keeps holds there. -/
theorem workOff_keeps (work : Span → σ → σ) (state : σ) (P : Grant → σ → Prop)
    (ho : g.region.offset < capacity)
    (hm : g.moved ≤ g.region.count) (hp : g.remaining ≤ passes) (h : P g state)
    (hkeep : ∀ (next : Grant) (state : σ), next.region = g.region → next.remaining ≠ 0 →
      P next state → P { next with moved := next.moved + (next.chunk capacity).length }
        (work (next.chunk capacity) state)) :
    ∃ state', g.workOff capacity work passes state
        = (.ok (), { g with moved := g.region.count }, state') ∧
      P { g with moved := g.region.count } state' := by
  induction passes generalizing g state with
  | zero =>
    rw [eq_of_done hm (Nat.le_zero.1 hp)]
    exact ⟨state, rfl, h⟩
  | succ passes ih =>
    by_cases hdone : g.remaining = 0
    · rw [workOff_of_done hdone, eq_of_done hm hdone]
      exact ⟨state, rfl, h⟩
    · have hpos := (chunk_inside ho).1 hdone
      have hle := chunk_length_le capacity g
      rw [workOff_succ hdone]
      simp only [remaining] at hle hp
      exact ih (g := { g with moved := g.moved + (g.chunk capacity).length }) _ ho
        (by simp only; omega) (by simp only [remaining]; omega) (hkeep g state rfl hdone h) hkeep

end

variable {s : Storage} {passes : Nat} {data : Bytes}

theorem rest_empty (h : g.region.count ≤ g.moved) : (g.rest capacity).count = 0 :=
  Nat.sub_eq_zero_of_le h

/-- A region that is copied out chunk by chunk is read as a whole. -/
theorem workOff_copyOut (ho : g.region.offset < s.size) (hc : g.region.count ≤ s.size)
    (hm : g.moved ≤ g.region.count) (hp : g.remaining ≤ passes) :
    g.workOff s.size Ring.copyOut passes (s, data)
      = (.ok (), { g with moved := g.region.count }, s, data ++ s.readRegion (g.rest s.size)) := by
  -- what is at hand and what is still to be read are the same all along
  obtain ⟨⟨s', data'⟩, heq, rfl, hdata⟩ := workOff_keeps Ring.copyOut (s, data)
    (fun next state => state.1 = s ∧ state.2 ++ s.readRegion (next.rest s.size)
      = data ++ s.readRegion (g.rest s.size)) ho hm hp ⟨rfl, rfl⟩ (by
    rintro next ⟨s', taken⟩ hregion - ⟨rfl, htaken⟩
    refine ⟨rfl, ?_⟩
    have hcons := Storage.readRegion_cons (s := s') (r := next.rest s'.size)
      (cellAfter_lt (hregion ▸ ho) _) (Nat.le_trans (Nat.sub_le ..) (hregion ▸ hc))
    rw [rest_advance, ← htaken, hcons]
    exact List.append_assoc ..)
  rw [heq, ← hdata, Storage.readRegion_empty (rest_empty (Nat.le_refl _)), List.append_nil]

/-- Copying out writes no cell. -/
theorem workOff_storage (capacity passes : Nat) (g : Grant) (s : Storage) (data : Bytes) :
    (g.workOff capacity Ring.copyOut passes (s, data)).2.2.1 = s := by
  induction passes generalizing g data with
  | zero => rfl
  | succ passes ih =>
    by_cases hdone : g.remaining = 0
    · rw [workOff_of_done hdone]
    · rw [workOff_succ hdone]
      exact ih ..

/-- A region that is copied to chunk by chunk is filled as a whole. -/
theorem workOff_copyIn (ho : g.region.offset < s.size) (hc : g.region.count ≤ s.size)
    (hm : g.moved ≤ g.region.count) (hp : g.remaining ≤ passes)
    (hd : data.length = g.remaining) :
    g.workOff s.size Ring.copyIn passes (s, data)
      = (.ok (), { g with moved := g.region.count }, s.writeRegion (g.rest s.size) data, []) := by
  -- copying the rest to what is left comes to the same all along
  obtain ⟨⟨s', data'⟩, heq, -, hlen, hfill⟩ := workOff_keeps Ring.copyIn (s, data)
    (fun next state => state.1.size = s.size ∧ state.2.length = next.remaining ∧
      state.1.writeRegion (next.rest s.size) state.2 = s.writeRegion (g.rest s.size) data)
    ho hm hp ⟨rfl, hd, rfl⟩ (by
    rintro next ⟨s', left⟩ hregion - ⟨hsize, hlen, hfill⟩
    dsimp only at hsize hlen hfill
    refine ⟨(Storage.size_write ..).trans hsize, ?_, ?_⟩
    · simp only [Ring.copyIn, List.length_drop, hlen, remaining]
      omega
    · have hcons := Storage.writeRegion_cons (s := s') (r := next.rest s'.size)
        (cellAfter_lt (hregion ▸ hsize ▸ ho) _) hlen
        (Nat.le_trans (Nat.sub_le ..) (hregion ▸ hsize ▸ hc))
      rw [rest_advance, ← hfill]
      rw [hsize] at hcons
      exact hcons.symm)
  have hnone : data' = [] := List.eq_nil_of_length_eq_zero (by rw [hlen]; exact Nat.sub_self _)
  rw [heq, ← hfill]
  simp only [hnone, Storage.writeRegion_nil]

end Grant

end CyclicBuffer
