import CyclicBuffer.Proofs.Reachable
import Mathlib.Algebra.Group.Nat.Defs

/-!
# Counting on machine words

The operations count with natural numbers, a machine counts modulo `2 ^ 64`. A `Reckoning` lists the
additions, subtractions and remainders of a computation in the order in which they are carried out;
what comes next may depend on what they yield. It can be read in two ways: on words, where every
result wraps (`Reckoning.wrapped`), and on integers without a bound. It is `Exact` for a value if on
integers it arrives there, no number on the way leaves the range of a word and nothing is divided by
zero; then the words arrive there too (`Reckoning.Fits.wrapped_eq`).

`Words` lays out the decisions of an occupancy, of a grant and of a ring as reckonings, step by
step. In a sound ring of at most `Ring.maxSize` cells all of them are exact, for the largest counts
too: a count is compared with the capacity before it is added to the length, and what is subtracted
is bounded by the coherence of the occupancy.
-/

namespace CyclicBuffer

/-! ## Reckonings -/

inductive Arithmetic where
  | add
  | subtract
  | remainder
deriving DecidableEq, Repr

namespace Arithmetic

/-- What is computed with integers. -/
def onIntegers : Arithmetic → Int → Int → Int
  | .add, a, b => a + b
  | .subtract, a, b => a - b
  | .remainder, a, b => a % b

/-- What is computed with words. -/
def onWords : Arithmetic → UInt64 → UInt64 → UInt64
  | .add, a, b => a + b
  | .subtract, a, b => a - b
  | .remainder, a, b => a % b

/-- The result on integers is in the range of a word and there is no division by zero. -/
structure Yields (op : Arithmetic) (a b result : Nat) : Prop where
  left_lt : a < 2 ^ 64
  right_lt : b < 2 ^ 64
  divisor : op = .remainder → b ≠ 0
  result_lt : result < 2 ^ 64
  onIntegers_eq : op.onIntegers a b = result

variable {op : Arithmetic} {a b x : Nat}

theorem yields_add (h : a + b < 2 ^ 64) : Yields .add a b (a + b) :=
  ⟨by omega, by omega, by simp, h, by simp [onIntegers]⟩

theorem yields_subtract (ha : a < 2 ^ 64) (h : b ≤ a) : Yields .subtract a b (a - b) :=
  ⟨ha, by omega, by simp, by omega, by simp only [onIntegers]; omega⟩

theorem yields_remainder (ha : a < 2 ^ 64) (hb : b < 2 ^ 64) (h : 0 < b) :
    Yields .remainder a b (a % b) := by
  have := Nat.mod_lt a h
  exact ⟨ha, hb, fun _ => by omega, by omega, by simp [onIntegers]⟩

/-- In range a word computes what the integers do. -/
theorem Yields.onWords_eq (h : op.Yields a b x) :
    (op.onWords (.ofNat a) (.ofNat b)).toNat = x := by
  obtain ⟨ha, hb, -, hx, he⟩ := h
  cases op with
  | add =>
    simp only [onIntegers] at he
    simp only [onWords, UInt64.toNat_add, UInt64.toNat_ofNat']
    omega
  | subtract =>
    simp only [onIntegers] at he
    simp only [onWords, UInt64.toNat_sub, UInt64.toNat_ofNat']
    omega
  | remainder =>
    simp only [onIntegers] at he
    simp only [onWords, UInt64.toNat_mod, UInt64.toNat_ofNat', Nat.mod_eq_of_lt ha,
      Nat.mod_eq_of_lt hb]
    exact_mod_cast he

end Arithmetic

/-- A computation step by step: its value, or an operation on two numbers and what follows once its
result is known. -/
inductive Reckoning (α : Type) where
  | done (value : α)
  | step (op : Arithmetic) (a b : Nat) (next : Nat → Reckoning α)

namespace Reckoning

variable {α β : Type}

def bind : Reckoning α → (α → Reckoning β) → Reckoning β
  | .done v, f => f v
  | .step op a b next, f => .step op a b fun x => (next x).bind f

instance : Monad Reckoning where
  pure := .done
  bind := bind

def add (a b : Nat) : Reckoning Nat := .step .add a b .done

def subtract (a b : Nat) : Reckoning Nat := .step .subtract a b .done

def remainder (a b : Nat) : Reckoning Nat := .step .remainder a b .done

/-- The value where every number is a word and every result wraps. -/
def wrapped : Reckoning α → α
  | .done v => v
  | .step op a b next => (next (op.onWords (.ofNat a) (.ofNat b)).toNat).wrapped

/-- On integers the computation arrives at the value, and each step of it is in the range of a
word. -/
inductive Fits : Reckoning α → α → Prop
  | done (v : α) : Fits (.done v) v
  | step {op : Arithmetic} {a b x : Nat} {next : Nat → Reckoning α} {v : α} :
      op.Yields a b x → Fits (next x) v → Fits (.step op a b next) v

/-- The computation never leaves the range of a word, and words compute what integers do. -/
structure Exact (c : Reckoning α) (v : α) : Prop where
  fits : c.Fits v
  wrapped_eq : c.wrapped = v

variable {c : Reckoning α} {f : α → Reckoning β} {v : α} {w : β} {a b : Nat}

theorem Fits.wrapped_eq (h : c.Fits v) : c.wrapped = v := by
  induction h with
  | done v => rfl
  | step hy _ ih => rw [wrapped, hy.onWords_eq, ih]

theorem Fits.exact (h : c.Fits v) : c.Exact v := ⟨h, h.wrapped_eq⟩

theorem Fits.bind (h : c.Fits v) (hf : (f v).Fits w) : (c >>= f).Fits w := by
  induction h with
  | done v => exact hf
  | step hy _ ih => exact .step hy (ih hf)

theorem Fits.map {f : α → β} (h : c.Fits v) : (f <$> c).Fits (f v) := h.bind (.done _)

theorem fits_pure (v : α) : (pure v : Reckoning α).Fits v := .done v

theorem fits_add (h : a + b < 2 ^ 64) : (add a b).Fits (a + b) :=
  .step (Arithmetic.yields_add h) (.done _)

theorem fits_subtract (ha : a < 2 ^ 64) (h : b ≤ a) : (subtract a b).Fits (a - b) :=
  .step (Arithmetic.yields_subtract ha h) (.done _)

theorem fits_remainder (ha : a < 2 ^ 64) (hb : b < 2 ^ 64) (h : 0 < b) :
    (remainder a b).Fits (a % b) :=
  .step (Arithmetic.yields_remainder ha hb h) (.done _)

end Reckoning

/-! ## The operations as reckonings -/

namespace Words

open Reckoning Occupancy

/-- The cell `steps` after `cell`: first the sum, then its remainder. -/
def cellAfter (capacity cell steps : Nat) : Reckoning Nat := do
  let sum ← add cell steps
  remainder sum capacity

/-- `Region.spans` -/
def spans (capacity : Nat) (r : Region) : Reckoning (Span × Span) := do
  let straight ← subtract capacity r.offset
  let first := min r.count straight
  let second ← subtract r.count first
  pure (⟨r.offset, first⟩, ⟨0, second⟩)

section
variable (o : Occupancy)

/-- `Occupancy.spare` -/
def spare : Reckoning Nat := subtract o.capacity o.length

/-- `Occupancy.discard` -/
def discard (count : Nat) : Reckoning Occupancy := do
  let head ← cellAfter o.capacity o.head count
  let length ← subtract o.length count
  pure { o with head, length }

/-- `Occupancy.reservePut`, with what it reports of discarded bytes. The length that is wanted is
summed up twice: to see whether there is room, and to see how much of it is missing. -/
def reservePut (count : Nat) : Reckoning (Except Error (Region × Occupancy × List Event)) :=
  if o.putting.isSome then pure (.error (.operationInProgress .put))
  else if o.capacity < count then pure (.error (.capacityExceeded count o.capacity))
  else do
    let wanted ← add o.length count
    if wanted ≤ o.capacity then
      let (region, o') := o.holdPut count
      pure (.ok (region, o', []))
    else if o.overwriting && o.taking.isNone then
      let wanted ← add o.length count
      let deficit ← subtract wanted o.capacity
      let shrunk ← discard o deficit
      let (region, o') := shrunk.holdPut count
      pure (.ok (region, o', [.discarded deficit]))
    else
      let spare ← spare o
      pure (.error (.insufficientCapacity count spare))

/-- `Occupancy.commitPut` -/
def commitPut (moved : Nat) : Reckoning (Except Fault Occupancy) :=
  match o.putting with
  | none => pure (.error (.neverReserved .put))
  | some region => do
    let tail ← cellAfter o.capacity region.offset moved
    let length ← add o.length moved
    pure (.ok { o with tail, length, putting := none })

/-- `Occupancy.commitTake` -/
def commitTake (moved : Nat) : Reckoning (Except Fault Occupancy) :=
  match o.taking with
  | none => pure (.error (.neverReserved .take))
  | some region => do
    let head ← cellAfter o.capacity region.offset moved
    let length ← subtract o.length moved
    pure (.ok { o with head, length, taking := none })

/-- `Occupancy.append` -/
def append : Reckoning (Nat × Occupancy) := do
  let tail ← cellAfter o.capacity o.tail 1
  let length ← add o.length 1
  pure (o.tail, { o with tail, length })

/-- `Occupancy.putOne` -/
def putOne : Reckoning (Except Error (Nat × Occupancy)) :=
  if o.putting.isSome then pure (.error (.operationInProgress .put))
  else if o.length ≠ o.capacity then .ok <$> append o
  else if !o.overwriting then pure (.error (.capacityExceeded 1 o.capacity))
  else if o.taking.isSome then pure (.error (.insufficientCapacity 1 0))
  else do
    let shrunk ← discard o 1
    .ok <$> append shrunk

/-- Discards after the checks of a take: `Occupancy.skip`, and `Occupancy.takeOne` with one byte. -/
def skip (count : Nat) : Reckoning (Except Error Occupancy) :=
  match o.checkTake count with
  | .error e => pure (.error e)
  | .ok () => .ok <$> discard o count

end

/-- `Grant.remaining` -/
def remaining (g : Grant) : Reckoning Nat := subtract g.region.count g.moved

/-- `Grant.chunk` -/
def chunk (capacity : Nat) (g : Grant) : Reckoning Span := do
  let offset ← cellAfter capacity g.region.offset g.moved
  let left ← remaining g
  let (first, _) ← spans capacity ⟨offset, left⟩
  pure first

/-- `Grant.advance` -/
def advance (g : Grant) (count : Nat) : Reckoning (Except Fault Grant) := do
  let left ← remaining g
  if left < count then pure (.error .pastEnd)
  else
    let moved ← add g.moved count
    pure (.ok { g with moved })

/-- `Ring.trim` -/
def trim (r : Ring) (data : Bytes) : Reckoning Bytes :=
  if r.capacity < data.length && r.overwriting then do
    let surplus ← subtract data.length r.capacity
    pure (data.drop surplus)
  else pure data

/-- `Ring.step` -/
def step (r : Ring) : Primitive → Reckoning (Outcome Primitive.Value)
  | .reserve .put count => do
    match ← reservePut r.occupancy count with
    | .error e => pure (.refuse r e)
    | .ok (region, occupancy, events) => pure ⟨.ok (.region region), { r with occupancy }, events⟩
  | .commit .put moved => do
    match ← commitPut r.occupancy moved with
    | .error f => pure (.fail r (.fault f))
    | .ok occupancy => pure ⟨.ok .unit, { r with occupancy }, []⟩
  | .commit .take moved => do
    match ← commitTake r.occupancy moved with
    | .error f => pure (.fail r (.fault f))
    | .ok occupancy => pure ⟨.ok .unit, { r with occupancy }, []⟩
  | .skip count => do
    match ← skip r.occupancy count with
    | .error e => pure (.refuse r e)
    | .ok occupancy => pure ⟨.ok .unit, { r with occupancy }, []⟩
  | .putByte byte => do
    match ← putOne r.occupancy with
    | .error e => pure (.refuse r e)
    | .ok (cell, occupancy) => pure ⟨.ok .unit, ⟨occupancy, r.storage.set cell byte⟩, []⟩
  | .takeByte => do
    match ← skip r.occupancy 1 with
    | .error e => pure (.refuse r e)
    | .ok occupancy =>
      pure ⟨.ok (.byte (r.storage.get r.occupancy.head)), { r with occupancy }, []⟩
  -- these compute with no numbers
  | .reserve .take count => pure (r.step (.reserve .take count))
  | .forget => pure (r.step .forget)
  | .clear => pure (r.step .clear)
  | .store cell data => pure (r.step (.store cell data))

/-- Takes primitive steps one after another, all of them on words. -/
def steps (r : Ring) : List Primitive → List (Outcome Primitive.Value)
  | [] => []
  | p :: ps =>
    let outcome := (step r p).wrapped
    outcome :: steps outcome.ring ps

/-! ## Every step is in range -/

section
variable {capacity cell count moved : Nat} {o : Occupancy} {region : Region}

/-- Two numbers of cells add up to a word. -/
theorem add_cells_lt (hm : capacity ≤ Ring.maxSize) (hc : cell ≤ capacity) (hn : count ≤ capacity) :
    cell + count < 2 ^ 64 := by
  simp only [Ring.maxSize] at hm
  omega

theorem capacity_lt (hm : capacity ≤ Ring.maxSize) : capacity < 2 ^ 64 :=
  Nat.lt_of_le_of_lt (Nat.le_add_right _ _) (add_cells_lt hm (Nat.le_refl _) (Nat.le_refl _))

theorem fits_cellAfter (hm : capacity ≤ Ring.maxSize) (hc : cell < capacity)
    (hn : count ≤ capacity) :
    (cellAfter capacity cell count).Fits (CyclicBuffer.cellAfter capacity cell count) := by
  have hsum := add_cells_lt hm (Nat.le_of_lt hc) hn
  exact (fits_add hsum).bind (fits_remainder hsum (capacity_lt hm) (Nat.zero_lt_of_lt hc))

theorem fits_spans (hm : capacity ≤ Ring.maxSize) (ho : region.offset < capacity)
    (hc : region.count ≤ capacity) : (spans capacity region).Fits (region.spans capacity) := by
  have hcap := capacity_lt hm
  exact (fits_subtract hcap (Nat.le_of_lt ho)).bind <|
    (fits_subtract (Nat.lt_of_le_of_lt hc hcap) (Nat.min_le_left _ _)).bind (fits_pure _)

variable (h : o.Coherent) (hm : o.capacity ≤ Ring.maxSize)
include h hm

theorem fits_spare : (spare o).Fits o.spare :=
  fits_subtract (capacity_lt hm) h.length_le

theorem fits_discard (hn : count ≤ o.length) : (discard o count).Fits (o.discard count) := by
  have hlen := h.length_le
  exact (fits_cellAfter hm h.head_lt (Nat.le_trans hn hlen)).bind <|
    (fits_subtract (Nat.lt_of_le_of_lt hlen (capacity_lt hm)) hn).bind (fits_pure _)

/-- The length that is wanted is only summed up once the count is known to be at most the capacity;
what is missing is no more than there is to discard. -/
theorem fits_reservePut (count : Nat) (storage : Storage) :
    (reservePut o count).Fits ((o.reservePut count).map fun (region, o') =>
      (region, o', Ring.discards ⟨o, storage⟩ .put count)) := by
  have hlen := h.length_le
  unfold reservePut Occupancy.reservePut
  split
  · exact fits_pure _
  split
  · exact fits_pure _
  rename_i hcount
  have hcount : count ≤ o.capacity := Nat.le_of_not_lt hcount
  have hwanted := add_cells_lt hm hlen hcount
  refine (fits_add hwanted).bind ?_
  by_cases hroom : o.length + count ≤ o.capacity
  · have hd : o.deficit count = 0 := Nat.sub_eq_zero_of_le hroom
    simp only [if_pos hroom, Except.map, Ring.discards, hd]
    exact fits_pure _
  · have hd : o.deficit count ≠ 0 := by simp only [deficit]; omega
    simp only [if_neg hroom, if_neg hd]
    split
    · simp only [Except.map, Ring.discards, if_neg hd]
      refine (fits_add hwanted).bind ((fits_subtract hwanted (by omega)).bind ?_)
      exact (fits_discard h hm (h.deficit_le hcount)).bind (fits_pure _)
    · exact (fits_spare h hm).bind (fits_pure _)

theorem fits_commitPut (hmoved : ∀ region, o.putting = some region → moved ≤ region.count) :
    (commitPut o moved).Fits (o.commitPut moved) := by
  unfold commitPut Occupancy.commitPut
  cases hp : o.putting with
  | none => exact fits_pure _
  | some region =>
    obtain ⟨hoff, hroom⟩ := h.putting region hp
    have hle := hmoved region hp
    have hlt : o.length + moved < 2 ^ 64 := add_cells_lt hm (by omega) (by omega)
    exact (fits_cellAfter hm (hoff ▸ h.tail_lt) (by omega)).bind ((fits_add hlt).bind (fits_pure _))

theorem fits_commitTake (hmoved : ∀ region, o.taking = some region → moved ≤ region.count) :
    (commitTake o moved).Fits (o.commitTake moved) := by
  unfold commitTake Occupancy.commitTake
  cases ht : o.taking with
  | none => exact fits_pure _
  | some region =>
    obtain ⟨hoff, hheld⟩ := h.taking region ht
    have hle := hmoved region ht
    have hlen := h.length_le
    have hlt := Nat.lt_of_le_of_lt hlen (capacity_lt hm)
    exact (fits_cellAfter hm (hoff ▸ h.head_lt) (by omega)).bind
      ((fits_subtract hlt (by omega)).bind (fits_pure _))

theorem fits_append (hroom : o.length < o.capacity) : (append o).Fits o.append := by
  have hone : 1 ≤ o.capacity := Nat.zero_lt_of_lt hroom
  have hlt := add_cells_lt hm h.length_le hone
  exact (fits_cellAfter hm h.tail_lt hone).bind ((fits_add hlt).bind (fits_pure _))

/-- A byte is put where there is room, or takes the room of the oldest one. -/
theorem fits_putOne : (putOne o).Fits o.putOne := by
  have hlen := h.length_le
  unfold putOne Occupancy.putOne
  split
  · exact fits_pure _
  split
  · exact (fits_append h hm (by omega)).map
  rename_i hfull
  split
  · exact fits_pure _
  split
  · exact fits_pure _
  rename_i ht
  have hone : 1 ≤ o.length := by have := h.head_lt; omega
  have hshrunk : (o.discard 1).Coherent := h.discard hone (by simpa using ht)
  refine (fits_discard h hm hone).bind (fits_append hshrunk hm ?_).map
  show o.length - 1 < o.capacity
  omega

theorem fits_skip (count : Nat) : (skip o count).Fits (o.skip count) := by
  unfold skip Occupancy.skip
  cases hc : o.checkTake count with
  | error e => exact fits_pure _
  | ok u => exact (fits_discard h hm (checkTake_ok.1 hc).2).map

end

/-! ## Grants -/

section
variable {capacity : Nat} {g : Grant}

theorem fits_remaining (hm : capacity ≤ Ring.maxSize) (hc : g.region.count ≤ capacity)
    (hg : g.moved ≤ g.region.count) : (remaining g).Fits g.remaining :=
  fits_subtract (Nat.lt_of_le_of_lt hc (capacity_lt hm)) hg

theorem fits_chunk (hm : capacity ≤ Ring.maxSize) (ho : g.region.offset < capacity)
    (hc : g.region.count ≤ capacity) (hg : g.moved ≤ g.region.count) :
    (chunk capacity g).Fits (g.chunk capacity) := by
  refine (fits_cellAfter hm ho (Nat.le_trans hg hc)).bind ((fits_remaining hm hc hg).bind ?_)
  refine (fits_spans hm (cellAfter_lt ho _) ?_).bind (fits_pure _)
  exact Nat.le_trans (Nat.sub_le _ _) hc

/-- A count is compared with what is left before it is added to what has been moved. -/
theorem fits_advance (hm : capacity ≤ Ring.maxSize) (hc : g.region.count ≤ capacity)
    (hg : g.moved ≤ g.region.count) (count : Nat) : (advance g count).Fits (g.advance count) := by
  refine (fits_remaining hm hc hg).bind ?_
  unfold Grant.advance
  split
  · exact fits_pure _
  · rename_i hle
    have hcap := capacity_lt hm
    simp only [Grant.remaining] at hle
    exact (fits_add (by omega)).bind (fits_pure _)

end

/-! ## Rings -/

theorem fits_trim {r : Ring} {data : Bytes} (hd : data.length < 2 ^ 64) :
    (trim r data).Fits (r.trim data) := by
  unfold trim Ring.trim
  split
  · rename_i hlong
    simp only [Bool.and_eq_true, decide_eq_true_eq] at hlong
    exact (fits_subtract hd (Nat.le_of_lt hlong.1)).bind (fits_pure _)
  · exact fits_pure _

/-- One primitive step, whatever it answers. -/
theorem fits_step {r : Ring} (h : r.Sound) (hm : r.occupancy.capacity ≤ Ring.maxSize)
    {p : Primitive} (hp : p.Within r.occupancy) : (step r p).Fits (r.step p) := by
  have hc := h.coherent
  cases p with
  | reserve d count =>
    cases d with
    | take => exact fits_pure _
    | put =>
      refine (fits_reservePut hc hm count r.storage).bind ?_
      simp only [Ring.step, Occupancy.reserve]
      cases r.occupancy.reservePut count <;> exact fits_pure _
  | commit d moved =>
    cases d with
    | put =>
      refine (fits_commitPut hc hm hp).bind ?_
      simp only [Ring.step, Occupancy.commit]
      cases r.occupancy.commitPut moved <;> exact fits_pure _
    | take =>
      refine (fits_commitTake hc hm hp).bind ?_
      simp only [Ring.step, Occupancy.commit]
      cases r.occupancy.commitTake moved <;> exact fits_pure _
  | skip count =>
    refine (fits_skip hc hm count).bind ?_
    simp only [Ring.step, Ring.skip, Outcome.map]
    cases r.occupancy.skip count <;> exact fits_pure _
  | putByte byte =>
    refine (fits_putOne hc hm).bind ?_
    simp only [Ring.step, Ring.putByte, Outcome.map]
    cases r.occupancy.putOne <;> exact fits_pure _
  | takeByte =>
    refine (fits_skip hc hm 1).bind ?_
    simp only [Ring.step, Ring.takeByte, Outcome.map, Occupancy.skip, takeOne]
    cases r.occupancy.checkTake 1 <;> exact fits_pure _
  | forget => exact fits_pure _
  | clear => exact fits_pure _
  | store cell data => exact fits_pure _

end Words

namespace Ring

/-- Every commit stays within the region that it ends. -/
def Admits (r : Ring) : List Primitive → Prop
  | [] => True
  | p :: ps => p.Within r.occupancy ∧ (r.step p).ring.Admits ps

variable {r : Ring}

/-- A run of steps on words is the run on integers. -/
theorem Sound.steps_words (h : r.Sound) (hm : r.occupancy.capacity ≤ maxSize)
    {ps : List Primitive} (hps : r.Admits ps) : Words.steps r ps = r.steps ps := by
  induction ps generalizing r with
  | nil => rfl
  | cons p ps ih =>
    have hcap : (r.step p).ring.occupancy.capacity = r.occupancy.capacity :=
      congrArg Prod.fst (h.step_terms p)
    simp only [Words.steps, steps, (Words.fits_step h hm hps.1).wrapped_eq]
    rw [ih (h.step hps.1) (hcap ▸ hm) hps.2]

end Ring

/-- A grant further on: some of what it holds was counted as moved, in one piece or in several. -/
inductive Grant.Advances (g : Grant) : Grant → Prop
  | refl : Advances g g
  | advance {g' g'' : Grant} {count : Nat} :
      Advances g g' → g'.advance count = .ok g'' → Advances g g''

/-- Nothing is counted past the end of the region. -/
theorem Grant.Advances.moved_le {g g' : Grant} (h : g.Advances g')
    (hg : g.moved ≤ g.region.count) : g'.region = g.region ∧ g'.moved ≤ g.region.count := by
  induction h with
  | refl => exact ⟨rfl, hg⟩
  | @advance g' g'' count _ ha ih =>
    obtain ⟨hregion, hle⟩ := ih
    unfold Grant.advance at ha
    split at ha
    · cases ha
    · cases ha
      simp only [Grant.remaining, hregion] at *
      exact ⟨trivial, by omega⟩

namespace Ring

variable {r : Ring}

/-- **Words never wrap.** In every reachable ring of a capacity from 1 to `2 ^ 63 - 1` each of the
following is computed without leaving the range of a word and without dividing by zero, and so comes
out on words as it does on integers: the spare room, every primitive step with its answer and what
it reports, both spans of a region, what is kept of oversized data, and what is left of a
reservation, the chunk offered next and the next advance, however far the reservation has got.
Hence whole runs of steps come out the same. -/
theorem reachable_exact {capacity : Nat} {overwriting : Bool} (hc : 1 ≤ capacity)
    (hm : capacity ≤ maxSize) (h : r.Reachable capacity overwriting) :
    (Words.spare r.occupancy).Exact r.spare ∧
    (∀ p : Primitive, p.Within r.occupancy → (Words.step r p).Exact (r.step p)) ∧
    (∀ region : Region, region.offset < capacity → region.count ≤ capacity →
      (Words.spans capacity region).Exact (region.spans capacity)) ∧
    (∀ data : Bytes, data.length < 2 ^ 64 → (Words.trim r data).Exact (r.trim data)) ∧
    (∀ d region, r.occupancy.held d = some region → ∀ g, Grant.Advances ⟨d, region, 0⟩ g →
      (Words.remaining g).Exact g.remaining ∧
      (Words.chunk capacity g).Exact (g.chunk capacity) ∧
      ∀ count, (Words.advance g count).Exact (g.advance count)) ∧
    (∀ ps, r.Admits ps → Words.steps r ps = r.steps ps) := by
  have hs := h.sound hc
  obtain rfl : r.occupancy.capacity = capacity :=
    congrArg Prod.fst (Leads.terms h (sound_vacant hc overwriting))
  have hco := hs.coherent
  refine ⟨(Words.fits_spare hco hm).exact, fun p hp => (Words.fits_step hs hm hp).exact,
    fun region ho hn => (Words.fits_spans hm ho hn).exact,
    fun data hd => (Words.fits_trim hd).exact, fun d region hd g hg => ?_,
    fun ps hps => hs.steps_words hm hps⟩
  obtain ⟨ho, hn⟩ : region.offset < r.occupancy.capacity ∧
      region.count ≤ r.occupancy.capacity := by
    cases d with
    | put =>
      obtain ⟨hoff, hroom⟩ := hco.putting region hd
      exact ⟨hoff ▸ hco.tail_lt, by omega⟩
    | take =>
      obtain ⟨hoff, hheld⟩ := hco.taking region hd
      exact ⟨hoff ▸ hco.head_lt, Nat.le_trans hheld hco.length_le⟩
  obtain ⟨hregion, hmoved⟩ : g.region = region ∧ g.moved ≤ region.count :=
    hg.moved_le (Nat.zero_le _)
  subst hregion
  exact ⟨(Words.fits_remaining hm hn hmoved).exact, (Words.fits_chunk hm ho hn hmoved).exact,
    fun count => (Words.fits_advance hm hn hmoved count).exact⟩

/-- A full ring of the largest capacity makes room for as many bytes once more, and refuses the
largest count of all. -/
theorem reachable_exact_largest :
    ∃ r : Ring, r.Reachable maxSize true ∧ r.length = maxSize ∧
      (Words.step r (.reserve .put maxSize)).Exact (r.step (.reserve .put maxSize)) ∧
      (Words.step r (.reserve .put (2 ^ 64 - 1))).wrapped.result
        = .error (.error (.capacityExceeded (2 ^ 64 - 1) maxSize)) := by
  have h₁ : Reachable maxSize true _ := Leads.refl.step (p := .reserve .put maxSize) trivial
  have h₂ := h₁.step (p := .commit .put maxSize) fun region h => by cases h; decide
  obtain ⟨-, hsteps, -⟩ := reachable_exact (by decide) (by decide) h₂
  refine ⟨_, h₂, rfl, hsteps _ trivial, ?_⟩
  rw [(hsteps (.reserve .put (2 ^ 64 - 1)) trivial).wrapped_eq]
  rfl

end Ring

end CyclicBuffer
