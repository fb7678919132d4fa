import CyclicBuffer.Proofs.Reachable

/-!
# Independent directions

A step that puts and a step that takes do not disturb each other. What a put does is a `Gain`: it
moves the tail, adds to the length, changes the slot of the put and may write the cell at the tail.
It can be read off a ring that agrees on these and has no less room. What a take does is a `Loss` at
the head, which can be read off a ring that agrees there and holds no fewer bytes. Each of the two
leaves the other what it looks at, so both orders give the same answers and the same ring
(`Sound.diamond`), and so do runs of any length (`Sound.runs_commute`).

Only a put that makes room by discarding is no such step, since discarding is done at the head.
-/

namespace CyclicBuffer

open Occupancy

/-- The direction in which a step works. A step that forgets everything works in both, and one that
only touches cells in none. -/
def Primitive.side : Primitive → Option Direction
  | .reserve d _ | .commit d _ => some d
  | .putByte _ => some .put
  | .skip _ | .takeByte => some .take
  | .forget | .clear | .store _ _ => none

/-- The number of bytes for which a step needs room. -/
def Primitive.needs : Primitive → Nat
  | .reserve .put count => count
  | .putByte _ => 1
  | _ => 0

namespace Ring

/-! ## Gains and losses -/

/-- What a put does to a ring. -/
structure Gain where
  tail : Nat
  grown : Nat
  putting : Option Region
  /-- The byte that is written to the cell at the old tail. -/
  byte : Option UInt8

/-- What a take does to a ring. -/
structure Loss where
  head : Nat
  lost : Nat
  taking : Option Region

def gain (r : Ring) (e : Gain) : Ring :=
  ⟨{ r.occupancy with
      tail := e.tail
      length := r.occupancy.length + e.grown
      putting := e.putting },
    match e.byte with
    | none => r.storage
    | some b => r.storage.set r.occupancy.tail b⟩

def lose (r : Ring) (e : Loss) : Ring :=
  { r with occupancy := { r.occupancy with
      head := e.head
      length := r.occupancy.length - e.lost
      taking := e.taking } }

/-- Bytes that are lost were there before any were gained. -/
theorem lose_gain (r : Ring) (e : Gain) {f : Loss} (h : f.lost ≤ r.occupancy.length) :
    (r.gain e).lose f = (r.lose f).gain e := by
  have hlength : r.occupancy.length + e.grown - f.lost
      = r.occupancy.length - f.lost + e.grown := by omega
  simp only [gain, lose, hlength]

/-- A put cannot tell two rings apart, and finds no less room in the second. -/
structure PutAlike (r r' : Ring) : Prop where
  capacity : r'.occupancy.capacity = r.occupancy.capacity
  tail : r'.occupancy.tail = r.occupancy.tail
  putting : r'.occupancy.putting = r.occupancy.putting
  room : r'.occupancy.length ≤ r.occupancy.length

/-- A take cannot tell two rings apart, and finds no fewer bytes in the second. -/
structure TakeAlike (r r' : Ring) : Prop where
  capacity : r'.occupancy.capacity = r.occupancy.capacity
  head : r'.occupancy.head = r.occupancy.head
  taking : r'.occupancy.taking = r.occupancy.taking
  bytes : r.occupancy.length ≤ r'.occupancy.length
  /-- The oldest byte is the same. -/
  oldest : 0 < r.occupancy.length →
    r'.storage.get r.occupancy.head = r.storage.get r.occupancy.head

theorem TakeAlike.discard {r r' : Ring} (h : r.TakeAlike r') (ht : r.occupancy.taking = none)
    (count : Nat) :
    { r' with occupancy := r'.occupancy.discard count }
      = r'.lose ⟨cellAfter r.occupancy.capacity r.occupancy.head count, count, none⟩ := by
  simp only [Occupancy.discard, lose, h.capacity, h.head, h.taking.trans ht]

theorem PutAlike.refl (r : Ring) : r.PutAlike r := ⟨rfl, rfl, rfl, Nat.le_refl _⟩

theorem TakeAlike.refl (r : Ring) : r.TakeAlike r := ⟨rfl, rfl, rfl, Nat.le_refl _, fun _ => rfl⟩

variable {r r' : Ring} {p q : Primitive} {v w : Primitive.Value}

/-- A loss does not matter to a put. -/
theorem putAlike_lose (r : Ring) (f : Loss) : r.PutAlike (r.lose f) :=
  ⟨rfl, rfl, rfl, Nat.sub_le _ _⟩

/-- A gain does not matter to a take: a byte is written only where there is room, and then not over
the oldest one. -/
theorem Sound.takeAlike_gain (h : r.Sound) {e : Gain}
    (he : e.byte ≠ none → r.occupancy.length < r.occupancy.capacity) : r.TakeAlike (r.gain e) := by
  refine ⟨rfl, rfl, rfl, Nat.le_add_right _ _, fun hpos => ?_⟩
  unfold gain
  cases hb : e.byte with
  | none => rfl
  | some b =>
    have hroom := he (by simp [hb])
    refine Storage.get_set_ne _ ?_ b
    intro heq
    rw [h.coherent.tail_eq, ← cellAfter_zero h.coherent.head_lt] at heq
    rw [cellAfter_cellAfter, Nat.zero_add] at heq
    have := cellAfter_inj h.coherent.head_lt (Nat.zero_lt_of_lt h.coherent.head_lt) hroom heq
    omega

/-! ## Steps of one side -/

/-- A step of a direction is granted with this answer. It need not discard anything, and commits no
more than the direction holds. -/
structure Serves (r : Ring) (d : Direction) (p : Primitive) (v : Primitive.Value) : Prop where
  side : p.side = some d
  granted : (r.step p).result = .ok v
  within : p.Within r.occupancy
  room : r.occupancy.deficit p.needs = 0

/-- A put that is granted and discards nothing is a gain, on every ring that it cannot tell from
this one. -/
theorem Sound.put_gains (h : r.Sound) (hp : r.Serves .put p v) :
    ∃ e : Gain, (e.byte ≠ none → r.occupancy.length < r.occupancy.capacity) ∧
      ∀ r' : Ring, r.PutAlike r' → r'.step p = ⟨.ok v, r'.gain e, []⟩ := by
  obtain ⟨hp, hv, -, hroom⟩ := hp
  cases p with
  | reserve d count =>
    obtain rfl : d = .put := by simpa [Primitive.side] using hp
    simp only [Primitive.needs] at hroom
    simp only [Ring.step] at hv
    split at hv
    · cases hv
    rename_i hok
    cases hv
    obtain ⟨hidle, hcount, -, rfl, -⟩ := h.coherent.reservePut_ok hok
    refine ⟨⟨r.occupancy.tail, 0, some ⟨r.occupancy.tail, count⟩, none⟩, by simp, ?_⟩
    intro r' ha
    have hidle' : r'.occupancy.putting = none := ha.putting.trans hidle
    have hcount' : ¬ r'.occupancy.capacity < count := by
      rw [ha.capacity]
      omega
    have hroom' : r'.occupancy.deficit count = 0 := by
      have := ha.room
      simp only [deficit, ha.capacity] at hroom ⊢
      omega
    have hgrant : r'.occupancy.reserve .put count = .ok (r'.occupancy.holdPut count) := by
      simp [Occupancy.reserve, reservePut, hidle', hcount', hroom']
    simp [Ring.step, hgrant, holdPut, gain, discards, hroom', ha.tail]
  | commit d moved =>
    obtain rfl : d = .put := by simpa [Primitive.side] using hp
    simp only [Ring.step] at hv
    split at hv
    · cases hv
    rename_i hok
    cases hv
    obtain ⟨region, hheld, -⟩ := commitPut_ok.1 hok
    refine ⟨⟨region.cell r.occupancy.capacity moved, moved, none, none⟩, by simp, ?_⟩
    intro r' ha
    have hheld' : r'.occupancy.putting = some region := ha.putting.trans hheld
    simp [Ring.step, Occupancy.commit, commitPut, hheld', gain, ha.capacity]
  | putByte byte =>
    simp only [Primitive.needs, deficit] at hroom
    simp only [Ring.step, Ring.putByte, Outcome.map] at hv
    split at hv
    · cases hv
    rename_i hok
    cases hv
    obtain ⟨hidle, -, -, -⟩ := h.coherent.putOne_ok hok
    have hlt : r.occupancy.length < r.occupancy.capacity := by omega
    refine ⟨⟨cellAfter r.occupancy.capacity r.occupancy.tail 1, 1, none, some byte⟩, fun _ => hlt,
      ?_⟩
    intro r' ha
    have hidle' : r'.occupancy.putting = none := ha.putting.trans hidle
    have hlt' : r'.occupancy.length ≠ r'.occupancy.capacity := by
      have := ha.room
      rw [ha.capacity]
      omega
    have hgrant : r'.occupancy.putOne = .ok r'.occupancy.append := by
      simp [putOne, hidle', hlt']
    simp only [Ring.step, Ring.putByte, hgrant, append, Outcome.map, gain, ha.capacity, ha.tail,
      hidle']
    rfl
  | _ => cases hp

/-- A take that is granted is a loss, on every ring that it cannot tell from this one. -/
theorem Sound.take_loses (h : r.Sound) (hq : r.Serves .take q w) :
    ∃ f : Loss, f.lost ≤ r.occupancy.length ∧
      ∀ r' : Ring, r.TakeAlike r' → r'.step q = ⟨.ok w, r'.lose f, []⟩ := by
  obtain ⟨hq, hv, hw, -⟩ := hq
  have hcheck {r' : Ring} (ha : r.TakeAlike r') {count : Nat} (ht : r.occupancy.taking = none)
      (hle : count ≤ r.occupancy.length) : r'.occupancy.checkTake count = .ok () :=
    checkTake_ok.2 ⟨ha.taking.trans ht, Nat.le_trans hle ha.bytes⟩
  cases q with
  | reserve d count =>
    obtain rfl : d = .take := by simpa [Primitive.side] using hq
    simp only [Ring.step] at hv
    split at hv
    · cases hv
    rename_i hok
    cases hv
    obtain ⟨ht, hle, rfl, -⟩ := reserveTake_ok.1 hok
    refine ⟨⟨r.occupancy.head, 0, some ⟨r.occupancy.head, count⟩⟩, Nat.zero_le _, ?_⟩
    intro r' ha
    simp [Ring.step, Occupancy.reserve, reserveTake, hcheck ha ht hle, Except.map, lose, discards,
      ha.head]
  | commit d moved =>
    obtain rfl : d = .take := by simpa [Primitive.side] using hq
    simp only [Ring.step] at hv
    split at hv
    · cases hv
    rename_i hok
    cases hv
    obtain ⟨region, hheld, -⟩ := commitTake_ok.1 hok
    have hmoved : moved ≤ region.count := hw region hheld
    have hcount := (h.coherent.taking region hheld).2
    refine ⟨⟨region.cell r.occupancy.capacity moved, moved, none⟩, by simp only; omega, ?_⟩
    intro r' ha
    have hheld' : r'.occupancy.taking = some region := ha.taking.trans hheld
    simp [Ring.step, Occupancy.commit, commitTake, hheld', lose, ha.capacity]
  | skip count =>
    simp only [Ring.step, Ring.skip, Outcome.map] at hv
    split at hv
    · cases hv
    rename_i hok
    cases hv
    obtain ⟨ht, hle, -⟩ := skip_ok.1 hok
    refine ⟨⟨cellAfter r.occupancy.capacity r.occupancy.head count, count, none⟩, hle, ?_⟩
    intro r' ha
    rw [← ha.discard ht count]
    simp only [Ring.step, Ring.skip, Occupancy.skip, hcheck ha ht hle, Except.map, Outcome.map]
  | takeByte =>
    simp only [Ring.step, Ring.takeByte, Outcome.map] at hv
    split at hv
    · cases hv
    rename_i hok
    cases hv
    obtain ⟨ht, hle, rfl, -⟩ := takeOne_ok.1 hok
    refine ⟨⟨cellAfter r.occupancy.capacity r.occupancy.head 1, 1, none⟩, hle, ?_⟩
    intro r' ha
    rw [← ha.discard ht 1]
    simp only [Ring.step, Ring.takeByte, takeOne, hcheck ha ht hle, Except.map, Outcome.map,
      ha.head, ha.oldest hle]
  | _ => cases hq

/-! ## Both sides -/

/-- A step of a direction is as well granted where that direction holds the same and has no less
room. -/
theorem Serves.again {d : Direction} (hp : r.Serves d p v) (hv : (r'.step p).result = .ok v)
    (hheld : r'.occupancy.held d = r.occupancy.held d)
    (hroom : r'.occupancy.deficit p.needs = 0) : r'.Serves d p v := by
  refine ⟨hp.side, hv, ?_, hroom⟩
  have hwithin := hp.within
  cases p with
  | commit e moved =>
    obtain rfl : e = d := by simpa [Primitive.side] using hp.side
    intro region hr
    exact hwithin region (hheld ▸ hr)
  | _ => trivial

/-- A put and a take that are both granted are granted in either order, with the same answers and to
the same end. -/
theorem Sound.diamond (h : r.Sound) (hp : r.Serves .put p v) (hq : r.Serves .take q w) :
    (r.step p).ring.Serves .take q w ∧ (r.step q).ring.Serves .put p v ∧
      ((r.step p).ring.step q).ring = ((r.step q).ring.step p).ring := by
  obtain ⟨e, hbyte, hputs⟩ := h.put_gains hp
  obtain ⟨f, hlost, htakes⟩ := h.take_loses hq
  have hpq := htakes _ (h.takeAlike_gain hbyte)
  have hqp := hputs _ (r.putAlike_lose f)
  have hsound : (r.gain e).Sound := by
    have hstep := h.step hp.within
    rwa [hputs r (.refl r)] at hstep
  have hnone : q.needs = 0 := by
    cases q with
    | reserve d count =>
      obtain rfl : d = .take := by simpa [Primitive.side] using hq.side
      rfl
    | putByte byte => cases hq.side
    | _ => rfl
  rw [hputs r (.refl r), htakes r (.refl r)]
  refine ⟨hq.again (by rw [hpq]) rfl ?_, hp.again (by rw [hqp]) rfl ?_, ?_⟩
  · have := hsound.coherent.length_le
    simp only [deficit, hnone] at *
    omega
  · have := hp.room
    simp only [deficit, lose] at *
    omega
  · rw [hpq, hqp]
    exact r.lose_gain e hlost

/-- **Steps of opposite directions commute.** Let a step that puts and a step that takes both be
granted in a reachable ring, where the put need not discard anything and commits stay within their
regions. Then each is granted after the other too, with the same answer, and both orders lead to the
same cursors and the same cells. -/
theorem reachable_independent {capacity : Nat} {overwriting : Bool} (hc : 1 ≤ capacity)
    (h : r.Reachable capacity overwriting) (hp : r.Serves .put p v) (hq : r.Serves .take q w) :
    (r.step p).ring.Serves .take q w ∧ (r.step q).ring.Serves .put p v ∧
      ((r.step p).ring.step q).ring = ((r.step q).ring.step p).ring :=
  (h.sound hc).diamond hp hq

/-- The last free cell is written while the byte before it, the only one, is taken. -/
theorem reachable_independent_lastCell :
    ∃ r : Ring, r.Reachable 2 true ∧ r.length = 1 ∧
      ((r.step (.putByte 7)).ring.step .takeByte).result = .ok (.byte 5) ∧
      ((r.step (.putByte 7)).ring.step .takeByte).ring
        = ((r.step .takeByte).ring.step (.putByte 7)).ring := by
  have h₁ : Reachable 2 true _ := Leads.refl.step (p := .putByte 4) trivial
  have h₂ := h₁.step (p := .putByte 5) trivial
  have h₃ := h₂.step (p := .takeByte) trivial
  obtain ⟨htake, -, hring⟩ := reachable_independent (p := .putByte 7) (v := .unit)
    (q := .takeByte) (w := .byte 5) (by decide) h₃ ⟨rfl, rfl, trivial, rfl⟩
    ⟨rfl, rfl, trivial, rfl⟩
  exact ⟨_, h₃, rfl, htake.granted, hring⟩

/-! ## Runs -/

/-- Steps of a direction, each granted after those before it, with their answers. -/
inductive Runs (d : Direction) : Ring → List (Primitive × Primitive.Value) → Ring → Prop
  | nil (r : Ring) : Runs d r [] r
  | cons {r r' : Ring} {p : Primitive} {v : Primitive.Value}
      {rest : List (Primitive × Primitive.Value)} (first : r.Serves d p v)
      (others : Runs d (r.step p).ring rest r') : Runs d r ((p, v) :: rest) r'

variable {ps qs : List (Primitive × Primitive.Value)} {r₁ r₂ : Ring}

/-- A put commutes with a run of takes. -/
theorem Sound.serves_runs (h : r.Sound) (hp : r.Serves .put p v) (hqs : Runs .take r qs r₂) :
    r₂.Serves .put p v ∧ Runs .take (r.step p).ring qs (r₂.step p).ring := by
  induction hqs with
  | nil r => exact ⟨hp, .nil _⟩
  | @cons r r₂ q w qs first others ih =>
    obtain ⟨htake, hput, heq⟩ := h.diamond hp first
    obtain ⟨hlast, hruns⟩ := ih (h.step first.within) hput
    exact ⟨hlast, .cons htake (heq ▸ hruns)⟩

/-- Runs of opposite directions commute: what each does on its own it does as well after the
other. -/
theorem Sound.runs_commute (h : r.Sound) (hps : Runs .put r ps r₁) (hqs : Runs .take r qs r₂) :
    ∃ r₃, Runs .take r₁ qs r₃ ∧ Runs .put r₂ ps r₃ := by
  induction hps generalizing r₂ with
  | nil r => exact ⟨r₂, hqs, .nil _⟩
  | @cons r r₁ p v ps first others ih =>
    obtain ⟨hlast, hruns⟩ := h.serves_runs first hqs
    obtain ⟨r₃, htakes, hputs⟩ := ih (h.step first.within) hruns
    exact ⟨r₃, htakes, .cons hlast hputs⟩

end Ring

end CyclicBuffer
