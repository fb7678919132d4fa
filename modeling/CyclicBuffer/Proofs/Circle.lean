import CyclicBuffer.Storage

/-!
# Cells on a circle

Steps on the circle add up, and fewer steps than there are cells lead to different cells. With that
a run of cells has a plain view: `Storage.around` reads cell after cell without a word on where the
last one is passed. Reading a region span by span reads that run (`readRegion_eq`), and writing a
straight piece of the run changes it there and nowhere else (`around_write`). Filling a region span
by span writes cell after cell in the same way (`writeRegion_eq`).
-/

namespace CyclicBuffer

/-! ## Steps -/

section
variable {capacity cell : Nat}

theorem cellAfter_lt (h : cell < capacity) (steps : Nat) :
    cellAfter capacity cell steps < capacity :=
  Nat.mod_lt _ (Nat.zero_lt_of_lt h)

@[simp] theorem cellAfter_zero (h : cell < capacity) : cellAfter capacity cell 0 = cell :=
  Nat.mod_eq_of_lt h

@[simp] theorem cellAfter_cellAfter (i j : Nat) :
    cellAfter capacity (cellAfter capacity cell i) j = cellAfter capacity cell (i + j) := by
  simp only [cellAfter, Nat.mod_add_mod, Nat.add_assoc]

/-- One turn at most: the steps either stay below the capacity or pass the last cell once. -/
theorem cellAfter_eq (h : cell < capacity) {steps : Nat} (hs : steps ≤ capacity) :
    cellAfter capacity cell steps =
      if cell + steps < capacity then cell + steps else cell + steps - capacity := by
  unfold cellAfter
  split
  · exact Nat.mod_eq_of_lt ‹_›
  · rw [Nat.mod_eq_sub_mod (by omega), Nat.mod_eq_of_lt (by omega)]

theorem cellAfter_inj (h : cell < capacity) {i j : Nat} (hi : i < capacity) (hj : j < capacity)
    (he : cellAfter capacity cell i = cellAfter capacity cell j) : i = j := by
  rw [cellAfter_eq h (Nat.le_of_lt hi), cellAfter_eq h (Nat.le_of_lt hj)] at he
  split at he <;> split at he <;> omega

/-- Up to the last cell the steps do not turn. -/
theorem cellAfter_of_lt {steps : Nat} (h : cell + steps < capacity) :
    cellAfter capacity cell steps = cell + steps :=
  Nat.mod_eq_of_lt h

theorem cellAfter_add_of_lt {i j : Nat} (h : cellAfter capacity cell i + j < capacity) :
    cellAfter capacity cell (i + j) = cellAfter capacity cell i + j := by
  rw [← cellAfter_cellAfter, cellAfter_of_lt h]

end

namespace Storage

/-! ## Single cells -/

@[simp] theorem size_zeros (n : Nat) : (zeros n).size = n := by simp [zeros, size]

@[simp] theorem size_set (s : Storage) (cell : Nat) (byte : UInt8) :
    (s.set cell byte).size = s.size := by
  simp [set, size]

@[simp] theorem size_write (s : Storage) (offset : Nat) (data : Bytes) :
    (s.write offset data).size = s.size := by
  induction data generalizing s offset with
  | nil => rfl
  | cons b bs ih => rw [write, ih, size_set]

@[simp] theorem size_clear (s : Storage) : s.clear.size = s.size := size_zeros _

theorem get_set_self (s : Storage) {cell : Nat} (h : cell < s.size) (byte : UInt8) :
    (s.set cell byte).get cell = byte := by
  have h' : cell < s.cells.size := h
  simp [get, set, Array.getD_eq_getD_getElem?, h']

theorem get_set_ne (s : Storage) {cell other : Nat} (h : other ≠ cell) (byte : UInt8) :
    (s.set cell byte).get other = s.get other := by
  simp [get, set, Array.getD_eq_getD_getElem?, Ne.symm h]

/-- Writing leaves a cell alone that is before or after what is written. -/
theorem get_write_ne (s : Storage) {offset cell : Nat} {data : Bytes}
    (h : ∀ i < data.length, cell ≠ offset + i) : (s.write offset data).get cell = s.get cell := by
  induction data generalizing s offset with
  | nil => rfl
  | cons b bs ih =>
    have h0 : cell ≠ offset := by simpa using h 0 (by simp)
    rw [write, ih _ fun i hi => ?_, get_set_ne _ h0]
    have := h (i + 1) (by simpa using hi)
    omega

theorem get_write (s : Storage) {offset i : Nat} {data : Bytes} (hi : i < data.length)
    (hs : offset + i < s.size) : (s.write offset data).get (offset + i) = data[i] := by
  induction data generalizing s offset i with
  | nil => simp at hi
  | cons b bs ih =>
    cases i with
    | zero =>
      rw [write, get_write_ne _ fun i _ => by omega]
      exact get_set_self s hs b
    | succ i =>
      have := @ih (s.set offset b) (offset + 1) i (by simpa using hi) (by rw [size_set]; omega)
      rw [write, List.getElem_cons_succ, ← this]
      congr 1
      omega

/-! ## Runs of cells -/

/-- The bytes of `count` cells from `cell` on, around the circle. -/
def around (s : Storage) (cell count : Nat) : Bytes :=
  (List.range count).map fun i => s.get (cellAfter s.size cell i)

@[simp] theorem length_around (s : Storage) (cell count : Nat) :
    (s.around cell count).length = count := by
  simp [around]

@[simp] theorem around_zero (s : Storage) (cell : Nat) : s.around cell 0 = [] := rfl

theorem around_add (s : Storage) (cell m n : Nat) :
    s.around cell (m + n) = s.around cell m ++ s.around (cellAfter s.size cell m) n := by
  simp [around, List.range_add]

theorem take_around (s : Storage) (cell : Nat) {m n : Nat} (h : m ≤ n) :
    (s.around cell n).take m = s.around cell m := by
  obtain ⟨k, rfl⟩ := Nat.exists_eq_add_of_le h
  rw [around_add, List.take_left' (length_around ..)]

theorem drop_around (s : Storage) (cell : Nat) {m n : Nat} (h : m ≤ n) :
    (s.around cell n).drop m = s.around (cellAfter s.size cell m) (n - m) := by
  obtain ⟨k, rfl⟩ := Nat.exists_eq_add_of_le h
  rw [around_add, List.drop_left' (length_around ..), Nat.add_sub_cancel_left]

theorem around_congr {s s' : Storage} {cell count : Nat} (hs : s'.size = s.size)
    (h : ∀ i < count, s'.get (cellAfter s.size cell i) = s.get (cellAfter s.size cell i)) :
    s'.around cell count = s.around cell count := by
  simp only [around, hs]
  exact List.map_congr_left fun i hi => h i (List.mem_range.1 hi)

/-- Below the last cell a run is read straight on. -/
theorem read_eq (s : Storage) {offset length : Nat} (h : offset + length ≤ s.size) :
    s.read offset length = s.around offset length := by
  have h' : offset + length ≤ s.cells.size := h
  apply List.ext_getElem
  · simp [read]
    omega
  · intro i hi _
    rw [length_around] at *
    have hc : offset + i < s.size := by omega
    have hc' : offset + i < s.cells.size := hc
    simp [read, around, cellAfter_of_lt hc, get, hc']

/-- Both spans of a region together are one run of cells. -/
theorem readRegion_eq (s : Storage) {r : Region} (ho : r.offset < s.size) (hc : r.count ≤ s.size) :
    s.readRegion r = s.around r.offset r.count := by
  simp only [readRegion, readSpan, Region.spans]
  by_cases h : r.count ≤ s.size - r.offset
  · rw [Nat.min_eq_left h, Nat.sub_self, read_eq s (by omega), read_eq s (Nat.zero_le _)]
    simp
  · have hsplit : r.count = (s.size - r.offset) + (r.count - (s.size - r.offset)) := by omega
    have hturn : cellAfter s.size r.offset (s.size - r.offset) = 0 := by
      rw [cellAfter_eq ho (by omega), if_neg (by omega)]
      omega
    rw [Nat.min_eq_right (by omega), read_eq s (by omega), read_eq s (by omega)]
    conv => rhs; rw [hsplit, around_add, hturn]

/-! ## Writing into a run -/

/-- A straight piece is written `k` steps into a run, at its end: the run reads as before up to the
piece, and then as what was written. -/
theorem around_write (s : Storage) {cell : Nat} (k offset : Nat) (data : Bytes) (hc : cell < s.size)
    (hk : k + data.length ≤ s.size)
    (hrun : ∀ i < data.length, offset + i = cellAfter s.size cell (k + i)) :
    (s.write offset data).around cell (k + data.length) = s.around cell k ++ data := by
  rw [around_add, size_write]
  congr 1
  · refine around_congr (size_write ..) fun j hj => get_write_ne s fun i hi he => ?_
    rw [hrun i hi] at he
    have := cellAfter_inj hc (by omega) (by omega) he
    omega
  · apply List.ext_getElem
    · simp
    · intro i _ hi
      have hlt : offset + i < s.size := by rw [hrun i hi]; exact cellAfter_lt hc _
      simp only [around, List.getElem_map, List.getElem_range, size_write, cellAfter_cellAfter]
      rw [← hrun i hi, get_write s hi hlt]

/-- Filling a region that starts where a run ends makes the run go on with the data. -/
theorem around_writeRegion (s : Storage) {cell k : Nat} {data : Bytes} (hc : cell < s.size)
    (hk : k + data.length ≤ s.size) :
    (s.writeRegion ⟨cellAfter s.size cell k, data.length⟩ data).around cell (k + data.length)
      = s.around cell k ++ data := by
  have ho : cellAfter s.size cell k < s.size := cellAfter_lt hc k
  simp only [writeRegion, Region.spans]
  generalize ht : s.size - cellAfter s.size cell k = room
  by_cases h : data.length ≤ room
  · rw [Nat.min_eq_left h, List.take_length, List.drop_length, write]
    exact around_write s k _ data hc hk fun i hi => (cellAfter_add_of_lt (by omega)).symm
  · rw [Nat.min_eq_right (by omega)]
    have hfirst : (data.take room).length = room := by simp; omega
    have hrest : (data.drop room).length = data.length - room := by simp
    have hturn : cellAfter s.size cell (k + room) = 0 := by
      rw [← cellAfter_cellAfter, cellAfter_eq ho (by omega), if_neg (by omega)]
      omega
    have h1 := around_write s k (cellAfter s.size cell k) (data.take room) hc (by omega)
      fun i hi => (cellAfter_add_of_lt (by omega)).symm
    have h2 := around_write (s.write (cellAfter s.size cell k) (data.take room)) (k + room) 0
      (data.drop room) ((size_write ..).symm ▸ hc) (by rw [size_write]; omega) fun i hi => by
        rw [size_write, ← cellAfter_cellAfter, hturn, cellAfter_of_lt (by omega)]
    rw [hfirst] at h1
    rw [hrest, show k + room + (data.length - room) = k + data.length by omega, h1,
      List.append_assoc, List.take_append_drop] at h2
    exact h2

/-! ## Writing around -/

/-- Writes the bytes one after the other from `cell` on, around the circle. -/
def writeAround (s : Storage) (cell : Nat) : Bytes → Storage
  | [] => s
  | b :: bs => (s.set cell b).writeAround (cellAfter s.size cell 1) bs

@[simp] theorem size_writeAround (s : Storage) (cell : Nat) (data : Bytes) :
    (s.writeAround cell data).size = s.size := by
  induction data generalizing s cell with
  | nil => rfl
  | cons b bs ih => rw [writeAround, ih, size_set]

/-- Two pieces are written one behind the other. -/
theorem writeAround_append (s : Storage) {cell : Nat} (hc : cell < s.size) (data more : Bytes) :
    s.writeAround cell (data ++ more)
      = (s.writeAround cell data).writeAround (cellAfter s.size cell data.length) more := by
  induction data generalizing s cell with
  | nil => rw [List.nil_append, writeAround, List.length_nil, cellAfter_zero hc]
  | cons b bs ih =>
    have hnext : cellAfter s.size cell 1 < (s.set cell b).size := by
      rw [size_set]
      exact cellAfter_lt hc 1
    rw [List.cons_append, writeAround, writeAround, ih _ hnext, size_set, cellAfter_cellAfter,
      List.length_cons, Nat.add_comm 1]

/-- Up to the last cell the bytes are written straight on. -/
theorem write_eq_writeAround (s : Storage) {offset : Nat} {data : Bytes}
    (h : offset + data.length ≤ s.size) : s.write offset data = s.writeAround offset data := by
  induction data generalizing s offset with
  | nil => rfl
  | cons b bs ih =>
    rw [List.length_cons] at h
    rw [write, writeAround, ih _ (by rw [size_set]; omega)]
    cases bs with
    | nil => rfl
    | cons b' bs' =>
      rw [List.length_cons] at h
      rw [cellAfter_of_lt (by omega)]

/-- Filling a region span by span is writing around from its start. -/
theorem writeRegion_eq (s : Storage) {offset : Nat} {data : Bytes} (ho : offset < s.size)
    (hd : data.length ≤ s.size) :
    s.writeRegion ⟨offset, data.length⟩ data = s.writeAround offset data := by
  simp only [writeRegion, Region.spans]
  generalize hroom : s.size - offset = room
  by_cases h : data.length ≤ room
  · rw [Nat.min_eq_left h, List.take_length, List.drop_length, write]
    exact write_eq_writeAround s (by omega)
  · have hfirst : (data.take room).length = room := by
      rw [List.length_take]
      omega
    have hturn : cellAfter s.size offset room = 0 := by
      rw [cellAfter_eq ho (by omega), if_neg (by omega)]
      omega
    rw [Nat.min_eq_right (by omega), write_eq_writeAround s (by omega),
      write_eq_writeAround _ (by rw [size_writeAround, List.length_drop]; omega)]
    conv => rhs; rw [← List.take_append_drop room data, writeAround_append s ho, hfirst, hturn]

end Storage

end CyclicBuffer
