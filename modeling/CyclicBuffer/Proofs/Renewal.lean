import CyclicBuffer.Proofs.Bytewise
import CyclicBuffer.Proofs.Likeness
import CyclicBuffer.Proofs.Relocation

/-!
# Emptied rings are new rings

A ring that has been drained or reset is the ring that the builder makes of its capacity and its
permission to overwrite, to the last cell. So a machine goes on after it as it would with a new ring
in the place of the old one (`reachable_renewed`), whatever its streams report and write. While a
transfer is under way both operations are refused, and nothing is lost.
-/

namespace CyclicBuffer

open Occupancy

/-! ## Empty rings -/

/-- A ring is built empty if it is not given anything. -/
theorem Blueprint.build_empty {capacity : Nat} (hc : 0 < capacity) (hm : capacity ≤ Ring.maxSize)
    (overwriting : Bool) : (⟨capacity, overwriting, none⟩ : Blueprint).build
      = (.ok (.vacant capacity overwriting), [.built capacity overwriting 0]) := by
  unfold build
  rw [if_neg (Nat.ne_of_gt hc), if_neg (Nat.not_lt.2 hm)]
  rfl

namespace Ring

variable {r : Ring}

/-- The contents are the bytes of the cells from the head on, whether they pass the last cell or
not. -/
theorem Sound.contents_from_head (h : r.Sound) : r.contents
    = (List.range r.length).map fun i => r.storage.get (r.occupancy.readable.cell r.capacity i) :=
  h.contents_eq

theorem Sound.reset_idle (h : r.Sound) (hp : r.occupancy.putting = none)
    (ht : r.occupancy.taking = none) :
    r.occupancy.reset = .ok (.vacant r.capacity r.overwriting) := by
  rw [h.capacity_eq]
  exact reset_ok.2 ⟨hp, ht, rfl⟩

/-- What is left of a ring that is emptied is what the builder starts from. -/
theorem Sound.apply_idle (h : r.Sound) (hp : r.occupancy.putting = none)
    (ht : r.occupancy.taking = none) {operation : Operation}
    (ho : operation = .drain ∨ operation = .reset) :
    (r.apply operation).ring = .vacant r.capacity r.overwriting := by
  rcases ho with rfl | rfl
  · simp only [apply, drain, h.reset_idle hp ht]
    rfl
  · simp only [apply, reset, h.reset_idle hp ht]
    rfl

/-- Draining answers what taking everything does. -/
theorem Sound.drain_answers (h : r.Sound) (hm : r.capacity ≤ maxSize)
    (hp : r.occupancy.putting = none) (ht : r.occupancy.taking = none) :
    (r.apply .drain).result = .ok (.bytes r.contents) ∧
      (r.apply (.takeList r.length)).result = .ok (.bytes r.contents) := by
  have hlen : r.length ≤ maxSize := by
    refine Nat.le_trans h.coherent.length_le ?_
    rwa [← h.capacity_eq]
  constructor
  · simp only [apply, drain, h.reset_idle hp ht]
    rfl
  · obtain ⟨htake, -⟩ := h.take_eq ht (Nat.le_refl r.occupancy.length)
    rw [← h.length_contents, List.take_length, h.length_contents] at htake
    simp only [apply, takeList, if_neg (Nat.not_lt.2 hlen), Outcome.map]
    rw [show r.length = r.occupancy.length from rfl, htake]
    rfl

theorem Sound.reset_answers (h : r.Sound) (hp : r.occupancy.putting = none)
    (ht : r.occupancy.taking = none) : (r.apply .reset).result = .ok .unit := by
  simp only [apply, reset, h.reset_idle hp ht]
  rfl

/-- A ring with a transfer under way is not emptied. -/
theorem apply_busy {d : Direction}
    (hd : r.occupancy.putting.isSome ∧ d = .put ∨
      r.occupancy.putting = none ∧ r.occupancy.taking.isSome ∧ d = .take)
    {operation : Operation} (ho : operation = .drain ∨ operation = .reset) :
    r.apply operation = .refuse r (.operationInProgress d) := by
  have hr : r.occupancy.reset = .error (.operationInProgress d) := by
    unfold Occupancy.reset
    obtain ⟨hp, rfl⟩ | ⟨hp, ht, rfl⟩ := hd
    · rw [if_pos hp]
    · rw [hp, if_neg (by simp), if_pos ht]
  rcases ho with rfl | rfl
  · simp only [apply, drain, hr]
    rfl
  · simp only [apply, reset, hr]
    rfl

end Ring

/-! ## A new ring in the place of another -/

/-- Where each ring goes when the one at `place` is to come behind the last of `size` rings, and
those that will be built behind it. -/
def relocation (size place q : Nat) : Nat :=
  if q = place then size else if q < size then q else q + 1

theorem relocation_injective (size place : Nat) : Function.Injective (relocation size place) := by
  intro q q' he
  unfold relocation at he
  grind

namespace Session

/-- The session in which a new ring takes the part of the one at a place: it lies behind all
others, and all that refers to the old one refers to it. -/
def renew (s : Session) (place : Nat) (ring : Ring) : Session :=
  { s with
    rings := s.rings.push ring
    names := s.names.map fun entry => (entry.1, relocation s.rings.size place entry.2)
    tasks := s.tasks.map fun entry => (entry.1, entry.2.move (relocation s.rings.size place)) }

theorem ring_renew (s : Session) (place : Nat) (ring : Ring) (q : Nat) :
    (s.renew place ring).ring q = if q = s.rings.size then ring else s.ring q :=
  ring_addRing s 0 ring [] q

/-- If the new ring is as the old one is, only places change. -/
theorem moved_renew {s : Session} {place : Nat} (h : place < s.rings.size) :
    s.Moved (relocation s.rings.size place) (s.renew place (s.ring place)) := by
  have hsize : (s.renew place (s.ring place)).rings.size = s.rings.size + 1 := Array.size_push ..
  have hbeyond (n : Nat) :
      relocation s.rings.size place (s.rings.size + n) = s.rings.size + n + 1 := by
    unfold relocation
    rw [if_neg (by omega), if_neg (by omega)]
  refine ⟨rfl, relocation_injective .., ?_, ?_, ?_, ?_, rfl, rfl, rfl⟩
  · intro q hq
    rw [hsize]
    unfold relocation
    split
    · exact Nat.lt_succ_self _
    · exact Nat.lt_succ_of_lt hq
  · intro n
    rw [hbeyond, hsize]
    omega
  · intro q
    rw [ring_renew]
    by_cases hq : q = place
    · subst hq
      rw [relocation, if_pos rfl, if_pos rfl]
    · by_cases hlt : q < s.rings.size
      · rw [relocation, if_neg hq, if_pos hlt, if_neg (Nat.ne_of_lt hlt)]
      · have hnone (q : Nat) (hle : s.rings.size ≤ q) : s.ring q = default := by
          simp [Session.ring, Array.getD_eq_getD_getElem?, hle]
        rw [relocation, if_neg hq, if_neg hlt, if_neg (by omega), hnone _ (by omega),
          hnone _ (by omega)]
  · intro name
    exact lookup_map (relocation s.rings.size place) s.names name

end Session

namespace Machine

/-- The machine that goes on with a new ring in the place of another. -/
def renew (m : Machine) (place : Nat) (ring : Ring) : Machine :=
  ⟨m.session.renew place ring, m.focus.move (relocation m.session.rings.size place),
    m.suspended.map (Passage.move (relocation m.session.rings.size place))⟩

variable {m m' : Machine}

theorem moved_renew {place : Nat} (h : place < m.session.rings.size) :
    m.Moved (relocation m.session.rings.size place) (m.renew place (m.session.ring place)) :=
  ⟨Session.moved_renew h, rfl, rfl⟩

/-- Nobody can tell a ring from a new one in its place that is as it is. -/
theorem renew_alike {place : Nat} {ring : Ring} (hp : place < m.session.rings.size)
    (hring : m.session.ring place = ring) :
    let ρ := relocation m.session.rings.size place
    let n := m.renew place ring
    ∀ q marks,
      (∀ m₁, m.Roams q marks m₁ →
        ∃ n₁, n.Roams (ρ q) marks n₁ ∧ m₁.Moved ρ n₁ ∧ n₁.answers = m₁.answers) ∧
      ∀ n₁, n.Roams (ρ q) marks n₁ →
        ∃ m₁, m.Roams q marks m₁ ∧ m₁.Moved ρ n₁ ∧ n₁.answers = m₁.answers := by
  subst hring
  dsimp only
  intro q marks
  have hmoved := moved_renew hp
  constructor
  · intro m₁ hroams
    obtain ⟨n₁, hn, hmoved'⟩ := hmoved.roams hroams
    exact ⟨n₁, hn, hmoved', hmoved'.answers_eq⟩
  · intro n₁ hroams
    obtain ⟨m₁, hm, hmoved'⟩ := hmoved.roams_back hroams
    exact ⟨m₁, hm, hmoved', hmoved'.answers_eq⟩

/-- A direction is idle where no transfer has a grant of it. -/
theorem Sound.idle_iff (hm : m.Sound) (place : Nat) (d : Direction) :
    m.grants place d = [] ↔ (m.session.ring place).occupancy.held d = none := by
  have hheld : (m.grants place d).map Grant.region
      = ((m.session.ring place).occupancy.held d).toList := hm.orderly.custody.held place d
  rw [← Option.toList_eq_nil_iff, ← hheld, List.map_eq_nil_iff]

/-- **An emptied ring is a new ring.** Let a ring be drained or reset. If no transfer is under way
on it, a drain answers with all that is readable, oldest first, just as taking as many bytes does;
and the ring that it leaves is the one that is built of its capacity and its permission to
overwrite. From then on nobody can tell it from a new ring at a place of its own: commands, unruly
sources included, leave the same marks on every ring and get the same answers, on the one and on the
other. While a put or a take is under way either operation fails, and the session is as it was. -/
theorem reachable_renewed {tokens : Tokens} {commands : List Command} {origin : Nat}
    {before : List Mark} (h : (load tokens commands).Roams origin before m) {name place : Nat}
    {operation : Operation}
    (ho : operation = .drain ∨ operation = .reset) {todo : List Command} {done : List Answer}
    (hf : m.focus = .commands (.on name (.errand (.operate operation)) :: todo) done)
    (hname : m.session.place? name = some place) :
    let r := m.session.ring place
    let outcome := r.apply operation
    ∃ m', m.step = some m' ∧ m'.suspended = m.suspended ∧
      m'.focus = .commands todo (done ++ [⟨Session.shown operation outcome.result,
        m'.session.standing? name, outcome.events⟩]) ∧
      ((∀ d, m.grants place d = []) →
        r.contents = (List.range r.length).map
          (fun i => r.storage.get (r.occupancy.readable.cell r.capacity i)) ∧
        (r.apply .drain).result = .ok (.bytes r.contents) ∧
        (r.apply (.takeList r.length)).result = .ok (.bytes r.contents) ∧
        (r.apply .reset).result = .ok .unit ∧
        ∃ built events,
          (⟨r.capacity, r.overwriting, none⟩ : Blueprint).build = (.ok built, events) ∧
          m'.session = m.session.update place built outcome.events ∧
          m'.session.ring place = built ∧
          let ρ := relocation m'.session.rings.size place
          let n := m'.renew place built
          ∀ q marks,
            (∀ m₁, m'.Roams q marks m₁ →
              ∃ n₁, n.Roams (ρ q) marks n₁ ∧ m₁.Moved ρ n₁ ∧ n₁.answers = m₁.answers) ∧
            ∀ n₁, n.Roams (ρ q) marks n₁ →
              ∃ m₁, m'.Roams q marks m₁ ∧ m₁.Moved ρ n₁ ∧ n₁.answers = m₁.answers) ∧
      ∀ d, (d = .put ∧ m.grants place .put ≠ [] ∨
          d = .take ∧ m.grants place .put = [] ∧ m.grants place .take ≠ []) →
        outcome.result = .error (.error (.operationInProgress d)) ∧ m'.session = m.session := by
  have hm := h.sound_load
  have hknown : place < m.session.rings.size :=
    hm.orderly.custody.named _ (Session.mem_of_place? hname)
  have hsound := hm.orderly.custody.sound hknown
  have hcapacity := h.capacity_le place
  have hs := step_iff.2 (.obey hf)
  rw [obey_operate m hname] at hs
  dsimp only at hs ⊢
  refine ⟨_, hs, rfl, rfl, ?_, ?_⟩
  · intro hidle
    have hp : (m.session.ring place).occupancy.putting = none :=
      (hm.idle_iff place .put).1 (hidle _)
    have ht : (m.session.ring place).occupancy.taking = none :=
      (hm.idle_iff place .take).1 (hidle _)
    obtain ⟨hdrain, htake⟩ := hsound.drain_answers hcapacity hp ht
    have hpos : 0 < (m.session.ring place).capacity := Nat.zero_lt_of_lt hsound.head_lt
    have hring := hsound.apply_idle hp ht ho
    refine ⟨hsound.contents_from_head, hdrain, htake, hsound.reset_answers hp ht, _, _,
      Blueprint.build_empty hpos hcapacity _, ?_, ?_, ?_⟩
    · rw [← hring]
      rfl
    · rw [← hring]
      exact Session.ring_update_self _ hknown ..
    · refine renew_alike ?_ ?_
      · exact (Session.size_update ..).symm ▸ hknown
      · rw [← hring]
        exact Session.ring_update_self _ hknown ..
  · intro d hbusy
    have hput : m.grants place .put = [] ↔ (m.session.ring place).occupancy.putting = none :=
      hm.idle_iff place .put
    have htake : m.grants place .take = [] ↔ (m.session.ring place).occupancy.taking = none :=
      hm.idle_iff place .take
    have hrefused := Ring.apply_busy (r := m.session.ring place) (d := d) (by
      rcases hbusy with ⟨rfl, hp⟩ | ⟨rfl, hp, ht⟩
      · exact .inl ⟨Option.isSome_iff_ne_none.2 fun hnone => hp (hput.2 hnone), rfl⟩
      · exact .inr ⟨hput.1 hp, Option.isSome_iff_ne_none.2 fun hnone => ht (htake.2 hnone), rfl⟩) ho
    rw [hrefused]
    exact ⟨rfl, m.session.update_ring place⟩

/-- A ring whose contents pass the last cell is drained. Then a source reports two bytes that it has
not written. -/
def wrappedDrain : List Command :=
  [.on 0 (.errand (.create ⟨3, false, none⟩)), .on 0 (.errand (.operate (.put [1, 2]))),
    .on 0 (.errand (.operate .takeByte)), .on 0 (.errand (.operate (.put [3, 4]))),
    .on 0 (.errand (.operate .drain)), .on 0 (.transfer ⟨.fill, 3⟩ [.claim 2])]

/-- These bytes are zero, as they are on a new ring. -/
theorem reachable_renewed_wrappedDrain :
    ((((load .plain wrappedDrain).after 4).session.ring 0).apply .drain).result
        = .ok (.bytes [2, 3, 4]) ∧
      ∃ marks n, (((load .plain wrappedDrain).after 5).renew 0 (.vacant 3 false)).Roams 1 marks n ∧
        n.answers = ((load .plain wrappedDrain).after 11).answers ∧
        (n.session.ring 1).contents = [0, 0] := by
  obtain ⟨m', hs, -, -, hidle, -⟩ :=
    reachable_renewed (passes_after (load .plain wrappedDrain) 0 4).roams (.inl rfl) rfl rfl
  obtain rfl : (load .plain wrappedDrain).after 5 = m' := Option.some.inj (Eq.trans rfl hs)
  obtain ⟨-, hdrain, -, -, built, -, -, -, hbuilt, halike⟩ := hidle fun d => by cases d <;> rfl
  obtain rfl : Ring.vacant 3 false = built := Eq.trans (by decide +kernel) hbuilt
  obtain ⟨n, hn, hmoved, hanswers⟩ :=
    (halike 0 _).1 _ (passes_after ((load .plain wrappedDrain).after 5) 0 6).roams
  refine ⟨hdrain.trans (by decide +kernel), _, n, hn, hanswers, ?_⟩
  have hring : n.session.ring 1 = (((load .plain wrappedDrain).after 5).after 6).session.ring 0 :=
    hmoved.session.rings 0
  rw [hring]
  decide +kernel

end Machine

end CyclicBuffer
