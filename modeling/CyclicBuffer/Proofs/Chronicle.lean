import CyclicBuffer.Proofs.Parcel
import CyclicBuffer.Transfer
import Mathlib.Logic.Function.Basic

/-!
# Chronicles

A chronicle tells mark by mark what happens to one ring: whole operations, and of each transfer the
reservation, the calls of its stream with what they were offered and what they answered, and the
end. A `Deed` leads from a ring, and the grants that hold its directions, to another; its mark says
which bytes left the contents at their front and which entered at their end.

Two things hold along every chronicle. What has left followed by the contents is what was there at
the beginning and what has entered since (`Deeds.conserves`). And a transfer whose stream counts no
more than it was offered, or than it wrote, has at every moment moved the bytes that its calls tell
of (`Deeds.carries`): those of a take are the first of the contents, which nothing else removes,
and those of a put lie behind the contents, to which nothing else appends.
-/

namespace CyclicBuffer

open Occupancy

/-! ## Marks -/

inductive Mark where
  /-- A whole operation was carried out; one that was refused moved nothing. -/
  | operated (left entered : Bytes)
  /-- A transfer was granted so many bytes, for which the oldest ones were dropped. -/
  | began (direction : Direction) (count : Nat) (dropped : Bytes)
  /-- A call of the stream of a transfer began. -/
  | offered (direction : Direction) (offer : Offer)
  /-- The call was answered, after the stream had written bytes to its offer. -/
  | replied (direction : Direction) (offer : Offer) (written : Bytes) (reply : Reply)
  /-- The call has to wait. -/
  | waited (direction : Direction)
  /-- A transfer is over and has committed these bytes. One that was let go has no ending. -/
  | ended (direction : Direction) (bytes : Bytes) (ending : Option Ending)
deriving DecidableEq, Repr

/-- The bytes at hand in a call: those that a source wrote, or that a sink was offered. -/
def Offer.atHand (written : Bytes) : Offer → Bytes
  | .room _ => written
  | .bytes data => data

namespace Mark

/-- What left the contents. -/
def left : Mark → Bytes
  | .operated left _ => left
  | .began _ _ dropped => dropped
  | .ended .take bytes _ => bytes
  | _ => []

/-- What entered the contents. -/
def entered : Mark → Bytes
  | .operated _ entered => entered
  | .ended .put bytes _ => bytes
  | _ => []

/-- What a call of the transfer of a direction moved. -/
def carried (d : Direction) : Mark → Bytes
  | .replied e offer written (.moved count) =>
    if e = d then (offer.atHand written).take count else []
  | _ => []

/-- The stream of a direction counts no more bytes than it has at hand. -/
def Honest (d : Direction) : Mark → Prop
  | .replied e offer written (.moved count) => e = d → count ≤ (offer.atHand written).length
  | _ => True

/-- A transfer of a direction is granted its region. -/
def Begins (d : Direction) : Mark → Prop
  | .began e _ _ => e = d
  | _ => False

/-- The transfer of a direction is over. -/
def Ends (d : Direction) : Mark → Prop
  | .ended e _ _ => e = d
  | _ => False

instance (d : Direction) : DecidablePred (Honest d)
  | .replied e offer written (.moved count) =>
    inferInstanceAs (Decidable (e = d → count ≤ (offer.atHand written).length))
  | .replied _ _ _ (.failed _) | .replied _ _ _ (.raised _) | .operated .. | .began ..
  | .offered .. | .waited _ | .ended .. => inferInstanceAs (Decidable True)

instance (d : Direction) : DecidablePred (Ends d)
  | .ended e _ _ => inferInstanceAs (Decidable (e = d))
  | .operated .. | .began .. | .offered .. | .replied .. | .waited _ =>
    inferInstanceAs (Decidable False)

end Mark

/-! ## Deeds -/

namespace Ring

/-- What a transfer offers its stream next. -/
def offer (r : Ring) (g : Grant) : Offer :=
  match g.direction with
  | .put => .room (r.room g)
  | .take => .bytes (r.offered g)

/-- The mark of a whole operation. -/
def operated (r : Ring) (operation : Operation) : Mark :=
  match (r.apply operation).result with
  | .error _ => .operated [] []
  | .ok v => .operated (r.queue.removed operation v) (r.queue.published operation)

/-- The mark of a reservation that is granted. -/
def begun (r : Ring) (d : Direction) (count : Nat) : Mark :=
  match d with
  | .put => .began .put count (r.contents.take (r.occupancy.deficit count))
  | .take => .began .take count []

/-- The mark of a transfer that commits what it has moved: a put the bytes in the cells of its
region, a take the oldest bytes. -/
def finished (r : Ring) (g : Grant) (ending : Option Ending) : Mark :=
  match g.direction with
  | .put => .ended .put (r.storage.around g.region.offset g.moved) ending
  | .take => .ended .take (r.contents.take g.moved) ending

/-- The grants of a ring: one for each direction that is held. -/
structure Keeps (r : Ring) (gs : Direction → List Grant) : Prop where
  held : ∀ d, (gs d).map Grant.region = (r.occupancy.held d).toList
  direction : ∀ d, ∀ g ∈ gs d, g.direction = d
  moved_le : ∀ d, ∀ g ∈ gs d, g.moved ≤ g.region.count

/-- What a stream can have written in a call: a sink nothing, a source no more than fits. -/
def Accepts (r : Ring) (g : Grant) (written : Bytes) : Prop :=
  written.length ≤ r.room g ∧ (g.direction = .take → written = [])

end Ring

open Function in
/-- What happens to a ring and to its grants. A transfer is over by itself just if nothing is left
to move. -/
inductive Deed (r : Ring) (gs : Direction → List Grant) :
    Mark → Ring → (Direction → List Grant) → Prop
  | operate (operation : Operation) : Deed r gs (r.operated operation) (r.apply operation).ring gs
  | begin {d : Direction} {count : Nat} {g : Grant} {r' : Ring} {events : List Event}
      (idle : gs d = []) (h : r.reserve d count = .ok (g, r', events)) :
      Deed r gs (r.begun d count) r' (update gs d [g])
  | offer {g : Grant} (held : gs g.direction = [g]) (more : g.remaining ≠ 0) :
      Deed r gs (.offered g.direction (r.offer g)) r gs
  | reply {g : Grant} {written : Bytes} (held : gs g.direction = [g]) (more : g.remaining ≠ 0)
      (h : r.Accepts g written) (reply : Reply) :
      Deed r gs (.replied g.direction (r.offer g) written reply) (r.receive g written)
        (update gs g.direction [(g.hear reply).1])
  | wait {g : Grant} (held : gs g.direction = [g]) (more : g.remaining ≠ 0) :
      Deed r gs (.waited g.direction) r gs
  | finish {g : Grant} {r' : Ring} {events : List Event} (held : gs g.direction = [g])
      (h : r.commit g = .ok (r', events)) {ending : Option Ending}
      (he : ending = some .complete ↔ g.remaining = 0) :
      Deed r gs (r.finished g ending) r' (update gs g.direction [])

/-- Deeds one after the other, with their marks. -/
inductive Deeds (r : Ring) (gs : Direction → List Grant) :
    List Mark → Ring → (Direction → List Grant) → Prop
  | nil : Deeds r gs [] r gs
  | snoc {marks : List Mark} {mark : Mark} {r₁ r₂ : Ring} {gs₁ gs₂ : Direction → List Grant} :
      Deeds r gs marks r₁ gs₁ → Deed r₁ gs₁ mark r₂ gs₂ → Deeds r gs (marks ++ [mark]) r₂ gs₂

/-! ## Replies -/

namespace Grant

/-- An honest count is added to what was moved. -/
theorem hear_moved {g : Grant} {count : Nat} (h : count ≤ g.remaining) :
    (g.hear (.moved count)).1 = { g with moved := g.moved + count } := by
  cases count with
  | zero => rfl
  | succ n => simp only [hear, g.advance_of_le h]

/-- A count that is not zero keeps a transfer going. -/
theorem hear_count {g : Grant} {count : Nat} (hpos : 0 < count) (hle : count ≤ g.remaining) :
    g.hear (.moved count) = ({ g with moved := g.moved + count }, none) := by
  obtain ⟨n, rfl⟩ : ∃ n, count = n + 1 := ⟨count - 1, by omega⟩
  simp only [hear, g.advance_of_le hle]

/-- A count that keeps a transfer going is left to move. -/
theorem le_of_hear_count {g : Grant} {count : Nat} (h : (g.hear (.moved count)).2 = none) :
    count ≤ g.remaining := by
  refine Nat.le_of_not_lt fun hlt => ?_
  cases count with
  | zero => exact absurd hlt (Nat.not_lt_zero _)
  | succ n => simp [hear, advance, hlt] at h

/-- A reply adds a count that is left to move, or nothing. -/
theorem hear_cases (g : Grant) (reply : Reply) :
    (g.hear reply).1 = g ∨
      ∃ count, reply = .moved count ∧ count ≤ g.remaining ∧
        (g.hear reply).1 = { g with moved := g.moved + count } := by
  cases reply with
  | moved count =>
    by_cases h : count ≤ g.remaining
    · exact .inr ⟨count, rfl, h, hear_moved h⟩
    · cases count with
      | zero => exact absurd (Nat.zero_le _) h
      | succ n =>
        refine .inl ?_
        simp only [hear, advance, if_pos (Nat.lt_of_not_le h)]
  | failed e => exact .inl rfl
  | raised text => exact .inl rfl

/-- A later grant of the same transfer. -/
structure Before (g g' : Grant) : Prop where
  region : g'.region = g.region
  direction : g'.direction = g.direction
  moved : g.moved ≤ g'.moved

theorem Before.refl (g : Grant) : g.Before g := ⟨rfl, rfl, Nat.le_refl _⟩

theorem Before.trans {g₁ g₂ g₃ : Grant} (h : g₁.Before g₂) (h' : g₂.Before g₃) : g₁.Before g₃ :=
  ⟨h'.region.trans h.region, h'.direction.trans h.direction, Nat.le_trans h.moved h'.moved⟩

theorem Before.antisymm {g g' : Grant} (h : g.Before g') (h' : g'.Before g) : g' = g := by
  obtain ⟨direction, region, moved⟩ := g
  obtain ⟨direction', region', moved'⟩ := g'
  obtain ⟨rfl, rfl, hle⟩ := h
  obtain rfl : moved = moved' := Nat.le_antisymm hle h'.moved
  rfl

theorem before_hear (g : Grant) (reply : Reply) : g.Before (g.hear reply).1 := by
  rcases g.hear_cases reply with h | ⟨count, -, -, h⟩ <;> rw [h]
  · exact .refl g
  · exact ⟨rfl, rfl, Nat.le_add_right _ _⟩

theorem hear_moved_le {g : Grant} (h : g.moved ≤ g.region.count) (reply : Reply) :
    (g.hear reply).1.moved ≤ (g.hear reply).1.region.count := by
  rcases g.hear_cases reply with he | ⟨count, -, hle, he⟩
  · rwa [he]
  · rw [he]
    simp only [remaining] at hle
    show g.moved + count ≤ g.region.count
    omega

end Grant

/-! ## Grants and regions -/

namespace Ring.Keeps

variable {r : Ring} {gs : Direction → List Grant} {d : Direction} {g : Grant}

theorem held_eq (h : r.Keeps gs) (hg : gs d = [g]) : r.occupancy.held d = some g.region := by
  have hheld := h.held d
  rw [hg] at hheld
  exact Option.toList_eq_singleton_iff.1 hheld.symm

theorem fits (h : r.Keeps gs) (hg : gs d = [g]) :
    ∀ region, r.occupancy.held d = some region → g.moved ≤ region.count := by
  intro region hr
  cases (h.held_eq hg).symm.trans hr
  exact h.moved_le d g (by simp [hg])

/-- One direction is held anew, and the other as before. -/
theorem update (h : r.Keeps gs) {r' : Ring} {new : List Grant}
    (hother : ∀ e, e ≠ d → r'.occupancy.held e = r.occupancy.held e)
    (hheld : new.map Grant.region = (r'.occupancy.held d).toList)
    (hnew : ∀ g ∈ new, g.direction = d ∧ g.moved ≤ g.region.count) :
    r'.Keeps (Function.update gs d new) := by
  refine ⟨fun e => ?_, fun e => ?_, fun e => ?_⟩
  all_goals
    by_cases he : e = d
    · subst he
      rw [Function.update_self]
      first
      | exact hheld
      | exact fun g hg => (hnew g hg).1
      | exact fun g hg => (hnew g hg).2
    rw [Function.update_of_ne he]
  · rw [h.held e, hother e he]
  · exact h.direction e
  · exact h.moved_le e

end Ring.Keeps

variable {r r' r₀ : Ring} {gs gs' gs₀ : Direction → List Grant} {mark : Mark} {marks : List Mark}
  {d : Direction} {g : Grant}

/-- Deeds are made of primitive steps. -/
theorem Deed.leads (h : Deed r gs mark r' gs') (hs : r.Sound) (hk : r.Keeps gs) : r.Leads r' := by
  cases h with
  | operate operation => exact Ring.leads_apply hs operation
  | begin idle h => exact Ring.leads_reserve h
  | offer held more => exact .refl
  | reply held more h reply => exact r.leads_write _ _
  | wait held more => exact .refl
  | finish held h he => exact Ring.leads_commit (hk.fits held) h

/-- Deeds keep one grant for each direction that is held. -/
theorem Deed.keeps (h : Deed r gs mark r' gs') (hs : r.Sound) (hk : r.Keeps gs) :
    r'.Keeps gs' := by
  cases h with
  | operate operation =>
    refine ⟨fun e => ?_, hk.direction, hk.moved_le⟩
    rw [(hs.apply_leaves operation e).held]
    exact hk.held e
  | begin idle h =>
    obtain ⟨region, o, hro, rfl, rfl, -⟩ := Ring.reserve_ok h
    obtain ⟨-, hheld, -⟩ := hs.coherent.reserve_held hro
    refine hk.update (fun e he => (hs.coherent.reserve_leaves hro he).held) ?_ (by simp)
    rw [hheld]
    rfl
  | offer held more => exact hk
  | @reply g written held more h reply =>
    obtain ⟨hregion, hdir, -⟩ := g.before_hear reply
    have hle := Grant.hear_moved_le (hk.moved_le g.direction g (by simp [held])) reply
    refine hk.update (fun e _ => rfl) ?_ (by simpa [hdir] using hle)
    rw [show (r.receive g written).occupancy.held g.direction = some g.region from hk.held_eq held,
      List.map_singleton, hregion]
    rfl
  | wait held more => exact hk
  | finish held h he =>
    obtain ⟨o, ho, rfl, -⟩ := Ring.commit_ok h
    refine hk.update (fun e he => (commit_leaves ho he).held) ?_ (by simp)
    rw [(commit_held ho).2]
    rfl

theorem Deeds.leads (h : Deeds r gs marks r' gs') (hs : r.Sound) (hk : r.Keeps gs) :
    r.Leads r' ∧ r'.Keeps gs' := by
  induction h with
  | nil => exact ⟨.refl, hk⟩
  | snoc _ hd ih =>
    have hs₁ := ih.1.sound hs
    exact ⟨ih.1.trans (hd.leads hs₁ ih.2), hd.keeps hs₁ ih.2⟩

/-- A ring keeps its capacity. -/
theorem Deeds.capacity (h : Deeds r gs marks r' gs') (hs : r.Sound) (hk : r.Keeps gs) :
    r'.capacity = r.capacity := by
  obtain ⟨hl, -⟩ := h.leads hs hk
  rw [(hl.sound hs).capacity_eq, hs.capacity_eq]
  exact congrArg Prod.fst (hl.terms hs)

theorem Deeds.append {r₁ : Ring} {gs₁ : Direction → List Grant} {more : List Mark}
    (h : Deeds r gs marks r₁ gs₁) (h' : Deeds r₁ gs₁ more r' gs') :
    Deeds r gs (marks ++ more) r' gs' := by
  induction h' with
  | nil => rwa [List.append_nil]
  | snoc _ hd ih =>
    rw [← List.append_assoc]
    exact ih.snoc hd

theorem Deed.single (h : Deed r gs mark r' gs') : Deeds r gs [mark] r' gs' :=
  Deeds.nil.snoc h

/-! ## The contents -/

/-- What left the contents, and what entered them. -/
def leftOf (marks : List Mark) : Bytes := marks.flatMap Mark.left

def enteredOf (marks : List Mark) : Bytes := marks.flatMap Mark.entered

/-- What the calls of the transfer of a direction moved. -/
def carriedOf (d : Direction) (marks : List Mark) : Bytes := marks.flatMap (Mark.carried d)

theorem leftOf_snoc (marks : List Mark) (mark : Mark) :
    leftOf (marks ++ [mark]) = leftOf marks ++ mark.left := by
  simp [leftOf]

theorem enteredOf_snoc (marks : List Mark) (mark : Mark) :
    enteredOf (marks ++ [mark]) = enteredOf marks ++ mark.entered := by
  simp [enteredOf]

theorem carriedOf_snoc (d : Direction) (marks : List Mark) (mark : Mark) :
    carriedOf d (marks ++ [mark]) = carriedOf d marks ++ mark.carried d := by
  simp [carriedOf]

namespace Ring

/-- What a whole operation takes from the front of the contents and appends to them. While a take is
under way it takes nothing, and while a put is under way it appends nothing. -/
theorem Sound.operated_moves (h : r.Sound) (operation : Operation) :
    (r.operated operation).left ++ (r.apply operation).ring.contents
        = r.contents ++ (r.operated operation).entered ∧
      (r.occupancy.taking ≠ none → (r.operated operation).left = []) ∧
      (r.occupancy.putting ≠ none → (r.operated operation).entered = []) := by
  have hseen := h.seen_apply operation
  unfold operated
  cases hr : (r.apply operation).result with
  | error f =>
    refine ⟨?_, fun _ => rfl, fun _ => rfl⟩
    rw [h.apply_refused hr]
    simp [Mark.left, Mark.entered]
  | ok v =>
    obtain ⟨n, hm⟩ := h.apply_moves hr
    have hcontent : (r.apply operation).ring.contents
        = r.contents.drop n ++ r.queue.published operation := hm.content
    refine ⟨?_, fun ht => ?_, fun hp => ?_⟩
    · simp only [Mark.left, Mark.entered, hm.removed, hcontent, ← List.append_assoc]
      congr 1
      exact List.take_append_drop n r.contents
    · have hn : n = 0 := hm.taking (by simpa [queue, Option.isSome_iff_ne_none] using ht)
      simp only [Mark.left, hm.removed, hn, List.take_zero]
    · -- a put that is under way lets no other begin
      have hbusy : r.queue.putting = true := by
        simpa [queue, Option.isSome_iff_ne_none] using hp
      rw [Outcome.seen, hr] at hseen
      cases operation with
      | put data => simp [Queue.apply, Queue.put, hbusy, Queue.refuse] at hseen
      | putByte byte => simp [Queue.apply, Queue.putByte, hbusy, Queue.refuse] at hseen
      | _ => rfl

end Ring

/-- What leaves followed by the contents afterwards is the contents followed by what enters. -/
theorem Deed.conserves (h : Deed r gs mark r' gs') (hs : r.Sound) (hk : r.Keeps gs) :
    mark.left ++ r'.contents = r.contents ++ mark.entered := by
  cases h with
  | operate operation => exact (hs.operated_moves operation).1
  | @begin e count g _ events idle h =>
    cases e with
    | put =>
      simp only [Ring.begun, Mark.left, Mark.entered, List.append_nil]
      rw [hs.contents_reservePut h, List.take_append_drop]
    | take =>
      simp only [Ring.begun, Mark.left, Mark.entered, List.append_nil, List.nil_append]
      exact hs.contents_reserveTake h
  | offer held more => simp [Mark.left, Mark.entered]
  | @reply g written held more h reply =>
    simp only [Mark.left, Mark.entered, List.append_nil, List.nil_append]
    have hle := hk.moved_le g.direction g (by simp [held])
    have hheld := hk.held_eq held
    obtain ⟨hlen, hnone⟩ := h
    cases hd : g.direction with
    | put =>
      rw [hd] at hheld
      exact hs.contents_receive hheld hlen hle
    | take =>
      rw [hnone hd]
      rfl
  | wait held more => simp [Mark.left, Mark.entered]
  | @finish g _ events held h ending he =>
    have hheld := hk.held_eq held
    have hfits := hk.fits held
    unfold Ring.finished
    cases hd : g.direction with
    | put =>
      rw [hd] at hheld hfits
      simp only [Mark.left, Mark.entered, List.nil_append]
      rw [hs.contents_commitPut hd hfits h, hs.stretch_eq, ← (hs.coherent.putting _ hheld).1]
    | take =>
      rw [hd] at hfits
      simp only [Mark.left, Mark.entered, List.append_nil]
      rw [hs.contents_commitTake hd hfits h, List.take_append_drop]

theorem Deeds.conserves (h : Deeds r gs marks r' gs') (hs : r.Sound) (hk : r.Keeps gs) :
    leftOf marks ++ r'.contents = r.contents ++ enteredOf marks := by
  induction h with
  | nil => simp [leftOf, enteredOf]
  | snoc hds hd ih =>
    obtain ⟨hl, hk₁⟩ := hds.leads hs hk
    rw [leftOf_snoc, enteredOf_snoc, List.append_assoc, hd.conserves (hl.sound hs) hk₁,
      ← List.append_assoc, ih, List.append_assoc]

/-! ## A transfer under way -/

/-- The grant of a transfer changes only with the calls of its stream. -/
theorem Deed.grant_eq (h : Deed r gs mark r' gs') (hg : gs d = [g]) (hlive : ¬ mark.Ends d)
    (hother : ∀ offer written reply, mark ≠ .replied d offer written reply) : gs' d = [g] := by
  cases h with
  | @begin e _ _ _ _ idle _ =>
    rw [Function.update_of_ne, hg]
    rintro rfl
    simp [idle] at hg
  | @reply g₁ _ held _ _ reply =>
    rw [Function.update_of_ne, hg]
    rintro rfl
    exact hother _ _ _ rfl
  | @finish g₁ _ _ held _ ending _ =>
    rw [Function.update_of_ne, hg]
    rintro rfl
    apply hlive
    unfold Ring.finished
    cases hd : g₁.direction <;> simp [Mark.Ends]
  | _ => exact hg

/-- A direction that nobody holds stays so until a transfer begins. -/
theorem Deed.idle (h : Deed r gs mark r' gs') (hg : gs d = []) (hb : ¬ mark.Begins d) :
    gs' d = [] := by
  cases h with
  | @begin e _ _ _ _ _ _ =>
    rw [Function.update_of_ne, hg]
    rintro rfl
    apply hb
    cases d <;> rfl
  | reply held _ _ _ =>
    rw [Function.update_of_ne, hg]
    rintro rfl
    simp [held] at hg
  | @finish g₁ _ _ held _ _ _ =>
    rw [Function.update_of_ne, hg]
    rintro rfl
    simp [held] at hg
  | _ => exact hg

/-- Nobody holds a direction whose transfer is just over. -/
theorem Deed.ends (h : Deed r gs mark r' gs') (he : mark.Ends d) : gs' d = [] := by
  cases h with
  | operate operation =>
    unfold Ring.operated at he
    split at he <;> cases he
  | @begin e => cases e <;> cases he
  | @finish g₁ =>
    obtain rfl : g₁.direction = d := by
      unfold Ring.finished at he
      split at he <;> exact ‹_ = _›.trans he
    exact Function.update_self ..
  | _ => cases he

/-- A transfer that is not over goes on with its region, perhaps with more bytes moved. -/
theorem Deed.goes_on (h : Deed r gs mark r' gs') (hg : gs d = [g]) (hlive : ¬ mark.Ends d) :
    ∃ g', gs' d = [g'] ∧ g.Before g' := by
  by_cases hother : ∀ offer written reply, mark ≠ .replied d offer written reply
  · exact ⟨g, h.grant_eq hg hlive hother, .refl g⟩
  · cases h with
    | @reply g₁ _ held _ _ reply =>
      obtain rfl : d = g₁.direction := by
        by_contra he
        refine hother fun _ _ _ heq => he ?_
        cases heq
        rfl
      obtain rfl : g₁ = g := by simpa [held] using hg
      exact ⟨_, Function.update_self .., g₁.before_hear reply⟩
    | operate operation =>
      unfold Ring.operated at hother
      split at hother <;> simp at hother
    | @begin e _ _ _ _ _ _ => cases e <;> simp [Ring.begun] at hother
    | @finish g₁ _ _ _ _ _ _ =>
      unfold Ring.finished at hother
      split at hother <;> simp at hother
    | _ => simp at hother

/-- What a direction holds is left alone until the transfer is over. -/
theorem Deed.leaves (h : Deed r gs mark r' gs') (hs : r.Sound) (hg : gs d = [g])
    (hlive : ¬ mark.Ends d) : r.occupancy.Leaves r'.occupancy d := by
  cases h with
  | operate operation => exact hs.apply_leaves operation d
  | @begin e _ _ _ _ idle h =>
    obtain ⟨region, o, hro, -, rfl, -⟩ := Ring.reserve_ok h
    refine hs.coherent.reserve_leaves hro ?_
    rintro rfl
    simp [idle] at hg
  | @finish g₁ _ _ held h ending _ =>
    obtain ⟨o, ho, rfl, -⟩ := Ring.commit_ok h
    refine commit_leaves ho ?_
    rintro rfl
    apply hlive
    unfold Ring.finished
    cases hd : g₁.direction <;> simp [Mark.Ends]
  | _ => exact .refl _ d

/-- While a take is under way nothing leaves the contents. -/
theorem Deed.left_eq_nil (h : Deed r gs mark r' gs') (hs : r.Sound) (hk : r.Keeps gs)
    (hg : gs .take = [g]) (hlive : ¬ mark.Ends .take) : mark.left = [] := by
  have hheld : r.occupancy.taking = some g.region := hk.held_eq hg
  cases h with
  | operate operation => exact (hs.operated_moves operation).2.1 (by simp [hheld])
  | @begin e count _ _ _ idle h =>
    cases e with
    | take => rfl
    | put =>
      obtain ⟨region, o, hro, -, -, -⟩ := Ring.reserve_ok h
      obtain ⟨-, -, hd | ⟨-, hnone⟩, -⟩ := hs.coherent.reservePut_ok hro
      · simp [Ring.begun, Mark.left, hd]
      · simp [hheld] at hnone
  | @finish g₁ _ _ held h ending _ =>
    unfold Ring.finished at hlive ⊢
    cases hd : g₁.direction with
    | put => rfl
    | take => simp [hd, Mark.Ends] at hlive
  | _ => rfl

/-- While a put is under way nothing enters the contents. -/
theorem Deed.entered_eq_nil (h : Deed r gs mark r' gs') (hs : r.Sound) (hk : r.Keeps gs)
    (hg : gs .put = [g]) (hlive : ¬ mark.Ends .put) : mark.entered = [] := by
  have hheld : r.occupancy.putting = some g.region := hk.held_eq hg
  cases h with
  | operate operation => exact (hs.operated_moves operation).2.2 (by simp [hheld])
  | @begin e => cases e <;> rfl
  | @finish g₁ _ _ held h ending _ =>
    unfold Ring.finished at hlive ⊢
    cases hd : g₁.direction with
    | put => simp [hd, Mark.Ends] at hlive
    | take => rfl
  | _ => rfl

/-- While a take is under way the contents only grow. -/
theorem Deed.grows (h : Deed r gs mark r' gs') (hs : r.Sound) (hk : r.Keeps gs)
    (hg : gs .take = [g]) (hlive : ¬ mark.Ends .take) :
    r'.contents = r.contents ++ mark.entered := by
  rw [← h.conserves hs hk, h.left_eq_nil hs hk hg hlive, List.nil_append]

/-- While a put is under way no cell is written but by its source. -/
theorem Deed.storage_eq (h : Deed r gs mark r' gs') (hk : r.Keeps gs) (hg : gs .put = [g])
    (hother : ∀ offer written reply, mark ≠ .replied .put offer written reply) :
    r'.storage = r.storage := by
  have hheld : r.occupancy.putting = some g.region := hk.held_eq hg
  cases h with
  | operate operation => exact Ring.storage_apply (by simp [hheld]) operation
  | begin idle h =>
    obtain ⟨_, _, -, -, rfl, -⟩ := Ring.reserve_ok h
    rfl
  | @reply g₁ written held _ h reply =>
    cases hd : g₁.direction with
    | put => exact absurd (by rw [hd]) (hother _ _ _)
    | take =>
      rw [h.2 hd]
      rfl
  | finish held h he =>
    obtain ⟨_, _, rfl, -⟩ := Ring.commit_ok h
    rfl
  | _ => rfl

/-- What a call of its own stream adds to the bytes of a transfer. -/
theorem Ring.Carries.reply {written bytes : Bytes} (hc : r.Carries d ⟨g, bytes⟩) (hs : r.Sound)
    (hw : r.Accepts g written) {reply : Reply}
    (hh : (Mark.replied d (r.offer g) written reply).Honest d) :
    (r.receive g written).Carries d
      ⟨(g.hear reply).1, bytes ++ (Mark.replied d (r.offer g) written reply).carried d⟩ := by
  obtain ⟨hlen, hnone⟩ := hw
  have hroom := r.room_le g
  have hdir : g.direction = d := hc.direction
  -- a reply without a count adds nothing, like a count of zero
  obtain ⟨count, hcount, hheard, hcarried⟩ : ∃ count,
      count ≤ ((r.offer g).atHand written).length ∧
      (count ≤ g.remaining → (g.hear reply).1 = { g with moved := g.moved + count }) ∧
      (Mark.replied d (r.offer g) written reply).carried d
        = ((r.offer g).atHand written).take count := by
    cases reply with
    | moved count => exact ⟨count, hh rfl, Grant.hear_moved, by simp [Mark.carried]⟩
    | failed e => exact ⟨0, Nat.zero_le _, fun _ => rfl, rfl⟩
    | raised text => exact ⟨0, Nat.zero_le _, fun _ => rfl, rfl⟩
  rw [hcarried]
  cases d with
  | put =>
    have hhand : (r.offer g).atHand written = written := by simp [Ring.offer, hdir, Offer.atHand]
    rw [hhand] at hcount ⊢
    rw [hheard (by omega)]
    exact hc.receive hs hlen hcount
  | take =>
    have hhand : (r.offer g).atHand written = r.offered g := by
      simp [Ring.offer, hdir, Offer.atHand]
    rw [hhand] at hcount ⊢
    have hle : (r.offered g).length ≤ r.room g := by
      rw [hs.offered_take hc.held hc.moved_le]
      exact List.length_take_le ..
    rw [hheard (by omega), hnone hdir]
    exact hc.give hs hcount

/-- Whatever is no call of its own stream leaves a transfer and its bytes as they are. -/
theorem Deed.beside {bytes : Bytes} (h : Deed r gs mark r' gs') (hs : r.Sound) (hk : r.Keeps gs)
    (hg : gs d = [g]) (hc : r.Carries d ⟨g, bytes⟩) (hlive : ¬ mark.Ends d)
    (hother : ∀ offer written reply, mark ≠ .replied d offer written reply) :
    r'.Carries d ⟨g, bytes⟩ := by
  have hs' := (h.leads hs hk).sound hs
  have hl := h.leaves hs hg hlive
  cases d with
  | put => exact hc.keep_put hs hs' hl (h.storage_eq hk hg hother)
  | take => exact hc.keep_take hs hl (h.grows hs hk hg hlive)

theorem Mark.carried_eq_nil
    (hother : ∀ offer written reply, mark ≠ .replied d offer written reply) :
    mark.carried d = [] := by
  cases mark with
  | replied e offer written reply =>
    have he : e ≠ d := by
      rintro rfl
      exact hother _ _ _ rfl
    cases reply <;> simp [Mark.carried, he]
  | _ => rfl

/-- A transfer with an honest stream has the bytes that its calls tell of, whatever else happens. -/
theorem Deed.carries {bytes : Bytes} (h : Deed r gs mark r' gs') (hs : r.Sound) (hk : r.Keeps gs)
    (hg : gs d = [g]) (hc : r.Carries d ⟨g, bytes⟩) (hlive : ¬ mark.Ends d)
    (hh : mark.Honest d) :
    ∃ g', gs' d = [g'] ∧ g'.region = g.region ∧ r'.Carries d ⟨g', bytes ++ mark.carried d⟩ := by
  by_cases hown : ∃ offer written reply, mark = .replied d offer written reply
  · cases h with
    | @reply g₁ written held _ hw reply =>
      obtain ⟨_, _, _, heq⟩ := hown
      cases heq
      obtain rfl : g₁ = g := by simpa [held] using hg
      exact ⟨_, Function.update_self .., (g₁.before_hear reply).region, hc.reply hs hw hh⟩
    | operate operation =>
      unfold Ring.operated at hown
      split at hown <;> simp at hown
    | @begin e _ _ _ _ _ _ => cases e <;> simp [Ring.begun] at hown
    | @finish g₁ _ _ _ _ _ _ =>
      unfold Ring.finished at hown
      split at hown <;> simp at hown
    | _ => simp at hown
  · have hother : ∀ offer written reply, mark ≠ .replied d offer written reply :=
      fun offer written reply he => hown ⟨offer, written, reply, he⟩
    refine ⟨g, h.grant_eq hg hlive hother, rfl, ?_⟩
    rw [Mark.carried_eq_nil hother, List.append_nil]
    exact h.beside hs hk hg hc hlive hother

/-- What a transfer offers next stays the same until its stream counts something. -/
theorem Deed.offer_eq (h : Deed r gs mark r' gs') (hs : r.Sound) (hk : r.Keeps gs)
    (hg : gs d = [g]) (hg' : gs' d = [g]) (hlive : ¬ mark.Ends d) : r'.offer g = r.offer g := by
  have hs' := (h.leads hs hk).sound hs
  have hdir : g.direction = d := hk.direction d g (by simp [hg])
  have hroom : r'.room g = r.room g := by simp only [Ring.room, h.single.capacity hs hk]
  cases d with
  | put => simp only [Ring.offer, hdir, hroom]
  | take =>
    have hle := hk.moved_le .take g (by simp [hg])
    have hheld : r.occupancy.taking = some g.region := hk.held_eq hg
    have hheld' : r'.occupancy.taking = some g.region := (h.keeps hs hk).held_eq hg'
    have hcount := (hs.coherent.taking _ hheld).2
    have hlen := hs.length_contents
    have hrem := r.room_le g
    simp only [Grant.remaining] at hrem
    simp only [Ring.offer, hdir]
    rw [hs'.offered_take hheld' hle, hs.offered_take hheld hle, hroom, h.grows hs hk hg hlive,
      List.drop_append_of_le_length (by omega),
      List.take_append_of_le_length (by rw [List.length_drop]; omega)]

/-! ## Chronicles of a transfer -/

/-- Where no transfer begins, a direction that is held at the end was held by one that is not
over. -/
theorem Deeds.lives (h : Deeds r gs marks r' gs') (hb : ∀ mark ∈ marks, ¬ mark.Begins d) :
    gs' d = [] ∨ ∀ mark ∈ marks, ¬ mark.Ends d := by
  induction h with
  | nil => exact .inr (by simp)
  | @snoc marks mark _ _ _ _ _ hd ih =>
    rw [List.forall_mem_append] at hb
    rw [List.forall_mem_append]
    rcases ih hb.1 with hidle | hlive
    · exact .inl (hd.idle hidle (hb.2 mark (by simp)))
    · by_cases he : mark.Ends d
      · exact .inl (hd.ends he)
      · exact .inr ⟨hlive, by simpa using he⟩

/-- A transfer that is not over goes on with its region. -/
theorem Deeds.goes_on (h : Deeds r gs marks r' gs') (hg : gs d = [g])
    (hlive : ∀ mark ∈ marks, ¬ mark.Ends d) : ∃ g', gs' d = [g'] ∧ g.Before g' := by
  induction h with
  | nil => exact ⟨g, hg, .refl g⟩
  | @snoc marks mark _ _ _ _ _ hd ih =>
    rw [List.forall_mem_append] at hlive
    obtain ⟨g₁, hg₁, hb⟩ := ih hlive.1
    obtain ⟨g', hg', hb'⟩ := hd.goes_on hg₁ (hlive.2 mark (by simp))
    exact ⟨g', hg', hb.trans hb'⟩

theorem Deeds.left_eq_nil (h : Deeds r gs marks r' gs') (hs : r.Sound) (hk : r.Keeps gs)
    (hg : gs .take = [g]) (hlive : ∀ mark ∈ marks, ¬ mark.Ends .take) : leftOf marks = [] := by
  induction h with
  | nil => rfl
  | @snoc marks mark _ _ _ _ hds hd ih =>
    rw [List.forall_mem_append] at hlive
    obtain ⟨g₁, hg₁, -⟩ := hds.goes_on hg hlive.1
    obtain ⟨hl, hk₁⟩ := hds.leads hs hk
    rw [leftOf_snoc, ih hlive.1,
      hd.left_eq_nil (hl.sound hs) hk₁ hg₁ (hlive.2 mark (by simp)), List.append_nil]

theorem Deeds.entered_eq_nil (h : Deeds r gs marks r' gs') (hs : r.Sound) (hk : r.Keeps gs)
    (hg : gs .put = [g]) (hlive : ∀ mark ∈ marks, ¬ mark.Ends .put) : enteredOf marks = [] := by
  induction h with
  | nil => rfl
  | @snoc marks mark _ _ _ _ hds hd ih =>
    rw [List.forall_mem_append] at hlive
    obtain ⟨g₁, hg₁, -⟩ := hds.goes_on hg hlive.1
    obtain ⟨hl, hk₁⟩ := hds.leads hs hk
    rw [enteredOf_snoc, ih hlive.1,
      hd.entered_eq_nil (hl.sound hs) hk₁ hg₁ (hlive.2 mark (by simp)), List.append_nil]

/-- At every moment a transfer with an honest stream has the bytes that its calls tell of. -/
theorem Deeds.carries (h : Deeds r gs marks r' gs') (hs : r.Sound) (hk : r.Keeps gs)
    (hg : gs d = [g]) (hc : r.Carries d ⟨g, []⟩) (hlive : ∀ mark ∈ marks, ¬ mark.Ends d)
    (hh : ∀ mark ∈ marks, mark.Honest d) :
    ∃ g', gs' d = [g'] ∧ g'.region = g.region ∧ r'.Carries d ⟨g', carriedOf d marks⟩ := by
  induction h with
  | nil => exact ⟨g, hg, rfl, hc⟩
  | @snoc marks mark _ _ _ _ hds hd ih =>
    rw [List.forall_mem_append] at hlive hh
    obtain ⟨g₁, hg₁, hr₁, hc₁⟩ := ih hlive.1 hh.1
    obtain ⟨hl, hk₁⟩ := hds.leads hs hk
    obtain ⟨g', hg', hr', hc'⟩ := hd.carries (hl.sound hs) hk₁ hg₁ hc₁
      (hlive.2 mark (by simp)) (hh.2 mark (by simp))
    refine ⟨g', hg', hr'.trans hr₁, ?_⟩
    rw [carriedOf_snoc]
    exact hc'

/-- The offer of a transfer stays the same as long as its grant does. -/
theorem Deeds.offer_eq (h : Deeds r gs marks r' gs') (hs : r.Sound) (hk : r.Keeps gs)
    (hg : gs d = [g]) (hg' : gs' d = [g]) (hlive : ∀ mark ∈ marks, ¬ mark.Ends d) :
    r'.offer g = r.offer g := by
  induction h with
  | nil => rfl
  | @snoc marks mark _ _ _ _ hds hd ih =>
    rw [List.forall_mem_append] at hlive
    have hend := hlive.2 mark (by simp)
    obtain ⟨g₁, hg₁, hb⟩ := hds.goes_on hg hlive.1
    obtain ⟨g₂, hg₂, hb'⟩ := hd.goes_on hg₁ hend
    obtain rfl : g₂ = g := by simpa [hg₂] using hg'
    obtain rfl := hb.antisymm hb'
    obtain ⟨hl, hk₁⟩ := hds.leads hs hk
    rw [hd.offer_eq (hl.sound hs) hk₁ hg₁ hg' hend, ih hg₁ hlive.1]

/-- A transfer has moved as many bytes as it has. -/
theorem Ring.Carries.length_bytes {p : Parcel} (h : r.Carries d p) (hs : r.Sound) :
    p.bytes.length = p.grant.moved := by
  cases d with
  | put =>
    have hshows : r.contents ++ p.bytes = r.stretch p.grant.moved := h.shows
    have hlen := congrArg List.length hshows
    rw [List.length_append, Ring.length_stretch, hs.length_contents] at hlen
    omega
  | take =>
    have hshows : p.bytes = r.contents.take p.grant.moved := h.shows
    have hcount := (hs.coherent.taking _ h.held).2
    have hle := h.moved_le
    rw [hshows, List.length_take, hs.length_contents]
    omega

/-- A region that is held starts at a cell of the ring. -/
theorem Ring.Sound.offset_lt (hs : r.Sound) {region : Region}
    (hheld : r.occupancy.held d = some region) : region.offset < r.capacity :=
  hs.capacity_eq ▸ (hs.coherent.held_inside hheld).1

/-- Where bytes are left to move, some are offered. -/
theorem Ring.Sound.room_pos (hs : r.Sound) {g : Grant} (hmore : g.remaining ≠ 0)
    (hheld : r.occupancy.held d = some g.region) : 0 < r.room g := by
  have hcell := cellAfter_lt (hs.offset_lt hheld) g.moved
  simp only [Grant.remaining] at hmore
  simp only [Ring.room, Grant.chunk, Grant.rest, Region.dropFirst, Region.spans, Region.cell]
  omega

end CyclicBuffer
