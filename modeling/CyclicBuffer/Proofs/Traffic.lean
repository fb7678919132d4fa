import CyclicBuffer.Proofs.Parcel
import CyclicBuffer.Ring.Blueprint

/-!
# Traffic

A ring with a put and a take under way, and with the bytes that have entered and left it so far. The
parties take turns in any order: whole operations, the beginning of a transfer, the calls of its
stream, its end. The streams are honest. A source writes no further than it was offered and counts
no more than it wrote; a sink counts no more than it was offered.

`run_conserves` says that what has left, followed by what the ring contains, is at every moment what
has entered.
-/

namespace CyclicBuffer

open Occupancy

/-! ## Moves -/

/-- A ring, the transfers under way on it, and all bytes that have passed so far. -/
structure Traffic where
  ring : Ring
  putting : Option Parcel := none
  taking : Option Parcel := none
  /-- The published bytes, in the order of their publication. -/
  entered : Bytes := []
  /-- The bytes handed out or dropped, in the order of their removal. -/
  left : Bytes := []
deriving DecidableEq, Repr

inductive Move where
  /-- Carry out a whole operation. -/
  | operate (operation : Operation)
  /-- Let a transfer begin; it is refused while one of its direction is under way. -/
  | reserve (direction : Direction) (count : Nat)
  /-- Let the source of the put write to the cells that it is offered, and count some of that. -/
  | supply (data : Bytes) (count : Nat)
  /-- Let the sink of the take count some of the bytes that it is offered. -/
  | consume (count : Nat)
  /-- Let a transfer end with what it has moved. -/
  | commit (direction : Direction)
deriving DecidableEq, Repr

namespace Traffic

def parcel (t : Traffic) : Direction → Option Parcel
  | .put => t.putting
  | .take => t.taking

def operate (t : Traffic) (operation : Operation) : Traffic :=
  let outcome := t.ring.apply operation
  match outcome.result with
  | .error _ => { t with ring := outcome.ring }
  | .ok v =>
    { t with
      ring := outcome.ring
      entered := t.entered ++ t.ring.queue.published operation
      left := t.left ++ t.ring.queue.removed operation v }

/-- A put that gets its region may have dropped the oldest bytes for it. -/
def reserve (t : Traffic) (d : Direction) (count : Nat) : Traffic :=
  match t.ring.reserve d count with
  | .error _ => t
  | .ok (grant, ring, _) =>
    match d with
    | .put =>
      { t with
        ring
        putting := some ⟨grant, []⟩
        left := t.left ++ t.ring.contents.take (t.ring.occupancy.deficit count) }
    | .take => { t with ring, taking := some ⟨grant, []⟩ }

def supply (t : Traffic) (data : Bytes) (count : Nat) : Except Fault Traffic :=
  match t.putting with
  | none => .ok t
  | some ⟨g, bytes⟩ =>
    let written := data.take (t.ring.room g)
    let moved := min count written.length
    (g.advance moved).map fun g' =>
      { t with ring := t.ring.receive g written, putting := some ⟨g', bytes ++ written.take moved⟩ }

def consume (t : Traffic) (count : Nat) : Except Fault Traffic :=
  match t.taking with
  | none => .ok t
  | some ⟨g, bytes⟩ =>
    let offered := t.ring.offered g
    let moved := min count offered.length
    (g.advance moved).map fun g' => { t with taking := some ⟨g', bytes ++ offered.take moved⟩ }

def commit (t : Traffic) (d : Direction) : Except Fault Traffic :=
  match t.parcel d with
  | none => .ok t
  | some p =>
    (t.ring.commit p.grant).map fun (ring, _) =>
      match d with
      | .put => { t with ring, putting := none, entered := t.entered ++ p.bytes }
      | .take => { t with ring, taking := none, left := t.left ++ p.bytes }

def step (t : Traffic) : Move → Except Fault Traffic
  | .operate operation => .ok (t.operate operation)
  | .reserve d count => .ok (t.reserve d count)
  | .supply data count => t.supply data count
  | .consume count => t.consume count
  | .commit d => t.commit d

def run (t : Traffic) : List Move → Except Fault Traffic
  | [] => .ok t
  | m :: ms => t.step m >>= fun t' => t'.run ms

/-- Nothing has passed yet. -/
def vacant (capacity : Nat) (overwriting : Bool) : Traffic :=
  { ring := .vacant capacity overwriting }

/-- The bytes to start with are put in, if there are any. -/
def opened (b : Blueprint) : Traffic :=
  match b.contents with
  | none => vacant b.capacity b.overwriting
  | some data => (vacant b.capacity b.overwriting).operate (.put data)

/-! ## Balance -/

/-- What has entered is what has left and what is still there, and each direction of the ring is
held by the transfer that is under way in it. -/
structure Balanced (start : Ring) (t : Traffic) : Prop where
  led : start.Leads t.ring
  sound : t.ring.Sound
  conserved : t.left ++ t.ring.contents = t.entered
  tracks : ∀ d, t.ring.Tracks d (t.parcel d)

variable {start : Ring} {t : Traffic}

theorem Balanced.carries (h : t.Balanced start) {d : Direction} {p : Parcel}
    (hp : t.parcel d = some p) : t.ring.Carries d p := by
  have htracks := h.tracks d
  rwa [hp] at htracks

theorem balanced_vacant {capacity : Nat} (hc : 1 ≤ capacity) (overwriting : Bool) :
    (vacant capacity overwriting).Balanced (.vacant capacity overwriting) := by
  have hs := Ring.sound_vacant hc overwriting
  refine ⟨.refl, hs, List.eq_nil_of_length_eq_zero hs.length_contents, ?_⟩
  intro d
  cases d <;> rfl

theorem Balanced.operate (h : t.Balanced start) (operation : Operation) :
    (t.operate operation).Balanced start := by
  have hl := Ring.leads_apply h.sound operation
  have htracks d := (h.tracks d).apply h.sound operation
  cases hr : (t.ring.apply operation).result with
  | error f =>
    have heq : t.operate operation = { t with ring := (t.ring.apply operation).ring } := by
      simp only [Traffic.operate, hr]
    rw [heq]
    refine ⟨h.led.trans hl, hl.sound h.sound, ?_, htracks⟩
    rw [h.sound.apply_refused hr]
    exact h.conserved
  | ok v =>
    obtain ⟨n, hm⟩ := h.sound.apply_moves hr
    have hcontent : (t.ring.apply operation).ring.contents
        = t.ring.contents.drop n ++ t.ring.queue.published operation := hm.content
    have heq : t.operate operation = { t with
        ring := (t.ring.apply operation).ring
        entered := t.entered ++ t.ring.queue.published operation
        left := t.left ++ t.ring.contents.take n } := by
      simp only [Traffic.operate, hr, hm.removed]
      rfl
    rw [heq]
    refine ⟨h.led.trans hl, hl.sound h.sound, ?_, htracks⟩
    rw [hcontent, List.append_assoc, ← List.append_assoc (List.take ..), List.take_append_drop,
      ← List.append_assoc, h.conserved]

theorem Balanced.reserve (h : t.Balanced start) (d : Direction) (count : Nat) :
    (t.reserve d count).Balanced start := by
  unfold Traffic.reserve
  cases hr : t.ring.reserve d count with
  | error e => exact h
  | ok v =>
    obtain ⟨g, ring, events⟩ := v
    have hl := Ring.leads_reserve hr
    have hnew := h.sound.carries_reserve hr
    have hother e (he : e ≠ d) := (h.tracks e).reserve h.sound hr he
    cases d with
    | put =>
      refine ⟨h.led.trans hl, hl.sound h.sound, ?_, ?_⟩
      · dsimp only
        rw [h.sound.contents_reservePut hr, List.append_assoc, List.take_append_drop, h.conserved]
      · rintro (_ | _)
        · exact hnew
        · exact hother .take (by decide)
    | take =>
      refine ⟨h.led.trans hl, hl.sound h.sound, ?_, ?_⟩
      · dsimp only
        rw [h.sound.contents_reserveTake hr, h.conserved]
      · rintro (_ | _)
        · exact hother .put (by decide)
        · exact hnew

/-- An honest source counts no more than is left of its region. -/
theorem Balanced.supply (h : t.Balanced start) (data : Bytes) (count : Nat) :
    ∃ t', t.supply data count = .ok t' ∧ t'.Balanced start := by
  unfold Traffic.supply
  cases hp : t.putting with
  | none => exact ⟨t, rfl, h⟩
  | some p =>
    have hcarries : t.ring.Carries .put p := h.carries hp
    have hroom : (data.take (t.ring.room p.grant)).length ≤ t.ring.room p.grant :=
      List.length_take_le ..
    have hmoved := Nat.min_le_right count (data.take (t.ring.room p.grant)).length
    have hadvance := p.grant.advance_of_le
      (Nat.le_trans hmoved (Nat.le_trans hroom (t.ring.room_le p.grant)))
    simp only [hadvance]
    have hl : t.ring.Leads (t.ring.receive p.grant (data.take (t.ring.room p.grant))) :=
      t.ring.leads_write _ _
    refine ⟨_, rfl, h.led.trans hl, hl.sound h.sound, ?_, ?_⟩
    · dsimp only
      rw [h.sound.contents_receive hcarries.held hroom hcarries.moved_le, h.conserved]
    · rintro (_ | _)
      · exact hcarries.receive h.sound hroom hmoved
      · exact (h.tracks .take).receive h.sound hcarries hroom

/-- An honest sink counts no more than is left of its region. -/
theorem Balanced.consume (h : t.Balanced start) (count : Nat) :
    ∃ t', t.consume count = .ok t' ∧ t'.Balanced start := by
  unfold Traffic.consume
  cases hp : t.taking with
  | none => exact ⟨t, rfl, h⟩
  | some p =>
    have hcarries : t.ring.Carries .take p := h.carries hp
    have hmoved := Nat.min_le_right count (t.ring.offered p.grant).length
    have hroom : (t.ring.offered p.grant).length ≤ t.ring.room p.grant := by
      rw [h.sound.offered_take hcarries.held hcarries.moved_le]
      exact List.length_take_le ..
    have hadvance := p.grant.advance_of_le
      (Nat.le_trans hmoved (Nat.le_trans hroom (t.ring.room_le p.grant)))
    simp only [hadvance]
    refine ⟨_, rfl, h.led, h.sound, h.conserved, ?_⟩
    rintro (_ | _)
    · exact h.tracks .put
    · exact hcarries.give h.sound hmoved

/-- A transfer under way can end at any time. -/
theorem Balanced.commit (h : t.Balanced start) (d : Direction) :
    ∃ t', t.commit d = .ok t' ∧ t'.Balanced start := by
  unfold Traffic.commit
  cases hp : t.parcel d with
  | none => exact ⟨t, rfl, h⟩
  | some p =>
    have hcarries := h.carries hp
    obtain ⟨ring, events, hc⟩ := Ring.commit_of_held (hcarries.direction.symm ▸ hcarries.held)
    have hl := Ring.leads_commit (hcarries.direction.symm ▸ hcarries.fits) hc
    have hcon := hcarries.contents_commit h.sound hc
    have hother e (he : e ≠ d) := (h.tracks e).commit h.sound hcarries hc he
    have hheld : ring.occupancy.held d = none := by
      obtain ⟨o, ho, rfl, -⟩ := Ring.commit_ok hc
      exact hcarries.direction ▸ (commit_held ho).2
    simp only [hc]
    cases d with
    | put =>
      refine ⟨_, rfl, h.led.trans hl, hl.sound h.sound, ?_, ?_⟩
      · dsimp only at hcon ⊢
        rw [hcon, ← List.append_assoc, h.conserved]
      · rintro (_ | _)
        · exact hheld
        · exact hother .take (by decide)
    | take =>
      refine ⟨_, rfl, h.led.trans hl, hl.sound h.sound, ?_, ?_⟩
      · have hbytes : p.bytes = t.ring.contents.take p.grant.moved := hcarries.shows
        dsimp only at hcon ⊢
        rw [hcon, hbytes, List.append_assoc, List.take_append_drop, h.conserved]
      · rintro (_ | _)
        · exact hother .put (by decide)
        · exact hheld

theorem Balanced.step (h : t.Balanced start) (m : Move) :
    ∃ t', t.step m = .ok t' ∧ t'.Balanced start := by
  cases m with
  | operate operation => exact ⟨_, rfl, h.operate operation⟩
  | reserve d count => exact ⟨_, rfl, h.reserve d count⟩
  | supply data count => exact h.supply data count
  | consume count => exact h.consume count
  | commit d => exact h.commit d

theorem Balanced.run (h : t.Balanced start) (ms : List Move) :
    ∃ t', t.run ms = .ok t' ∧ t'.Balanced start := by
  induction ms generalizing t with
  | nil => exact ⟨t, rfl, h⟩
  | cons m ms ih =>
    obtain ⟨t₁, hstep, h₁⟩ := h.step m
    obtain ⟨t₂, hrun, h₂⟩ := ih h₁
    refine ⟨t₂, ?_, h₂⟩
    rw [Traffic.run, hstep]
    exact hrun

theorem balanced_opened {b : Blueprint} (hc : 1 ≤ b.capacity) :
    (opened b).Balanced (.vacant b.capacity b.overwriting) := by
  have h := balanced_vacant hc b.overwriting
  unfold opened
  split
  · exact h
  · exact h.operate _

theorem ring_operate (t : Traffic) (operation : Operation) :
    (t.operate operation).ring = (t.ring.apply operation).ring := by
  unfold Traffic.operate
  dsimp only
  split <;> rfl

/-- Traffic begins with the ring that a blueprint builds. -/
theorem ring_opened {b : Blueprint} {ring : Ring} {events : List Event}
    (h : b.build = (.ok ring, events)) : (opened b).ring = ring := by
  unfold Blueprint.build at h
  split at h
  · cases h
  split at h
  · cases h
  unfold opened
  cases hb : b.contents with
  | none =>
    simp only [hb] at h
    cases h
    rfl
  | some data =>
    simp only [hb] at h ⊢
    split at h
    · cases h
    · cases h
      exact ring_operate _ _

/-- **No byte is lost, duplicated, reordered or altered.** Whatever the order in which whole
operations and the steps of honest transfers come: no step goes wrong, and what has left followed by
the contents is what has entered. What a take under way has been given are the first bytes of the
contents, and it is offered those that follow; what a put under way has written lies untouched
behind them. -/
theorem run_conserves (b : Blueprint) (hc : 1 ≤ b.capacity) (moves : List Move) :
    (∀ ring events, b.build = (.ok ring, events) → (opened b).ring = ring) ∧
    ∃ t, (opened b).run moves = .ok t ∧
      t.left ++ t.ring.contents = t.entered ∧
      t.ring.contents = (List.range t.ring.length).map (fun i =>
        t.ring.storage.get ((t.ring.occupancy.head + i) % b.capacity)) ∧
      (∀ p, t.taking = some p → p.bytes = t.ring.contents.take p.grant.moved ∧
        t.ring.offered p.grant
          = (t.ring.contents.drop p.grant.moved).take (t.ring.room p.grant)) ∧
      (∀ p, t.putting = some p → p.bytes = (List.range p.grant.moved).map fun i =>
        t.ring.storage.get ((t.ring.occupancy.tail + i) % b.capacity)) ∧
      ∀ operation v, (t.ring.apply operation).result = .ok v →
        ∃ n, t.ring.queue.Moves (t.ring.apply operation).ring.queue operation v n := by
  obtain ⟨t, hrun, h⟩ := (balanced_opened hc).run moves
  have hcap : t.ring.occupancy.capacity = b.capacity :=
    congrArg Prod.fst (h.led.terms (Ring.sound_vacant hc b.overwriting))
  refine ⟨fun ring events => ring_opened, t, hrun, h.conserved, hcap ▸ h.sound.contents_cells, ?_,
    ?_, fun operation v => h.sound.apply_moves⟩
  · intro p hp
    have hcarries : t.ring.Carries .take p := h.carries hp
    exact ⟨hcarries.shows, h.sound.offered_take hcarries.held hcarries.moved_le⟩
  · intro p hp
    have hshows : t.ring.contents ++ p.bytes = t.ring.stretch p.grant.moved :=
      (h.carries (d := .put) hp).shows
    rw [h.sound.stretch_eq, List.append_cancel_left_eq, Storage.around, h.sound.size_eq,
      hcap] at hshows
    exact hshows

/-- A put and a take side by side. The source first writes a byte that it does not count, and the
take ends early, so that a byte stays. -/
def sideBySide : List Move :=
  [.reserve .take 2, .reserve .put 1, .supply [9] 0, .consume 1, .operate (.skip 1),
    .supply [3] 1, .commit .put, .commit .take]

theorem run_conserves_sideBySide :
    ∃ t, (opened ⟨3, false, some [1, 2]⟩).run sideBySide = .ok t ∧ t.left = [1] ∧
      t.ring.contents = [2, 3] ∧ t.left ++ t.ring.contents = t.entered := by
  obtain ⟨-, t, hrun, hconserved, -⟩ :=
    run_conserves ⟨3, false, some [1, 2]⟩ (by decide) sideBySide
  have hend : ((opened ⟨3, false, some [1, 2]⟩).run sideBySide).toOption.map
      (fun t => (t.left, t.ring.contents)) = some ([1], [2, 3]) := by decide +kernel
  rw [hrun] at hend
  obtain ⟨hleft, hcontents⟩ := Prod.mk.inj (Option.some.inj hend)
  exact ⟨t, hrun, hleft, hcontents, hconserved⟩

end Traffic

end CyclicBuffer
