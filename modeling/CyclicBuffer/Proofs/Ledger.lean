import CyclicBuffer.Proofs.Contents
import CyclicBuffer.Proofs.Verdicts
import CyclicBuffer.Ring.Blueprint

/-!
# Ledgers

The reservations and commits that a ring reports for one direction are its ledger. What happens to a
direction in one step is `Booked`: nothing, a transfer moves on, one begins or ends, or a whole
operation begins and ends at once. Of such steps only a ledger can come that has one commit for each
reservation, before the next, except for the reservation of the transfer under way (`Ledger`).
-/

namespace CyclicBuffer

open Occupancy

/-- Whether an event is a reservation or a commit of the direction. -/
def Event.about (d : Direction) : Event → Bool
  | .reserved e _ _ | .committed e _ _ => e == d
  | _ => false

/-- The reservations and commits of a direction. -/
def entries (d : Direction) (events : List Event) : List Event := events.filter (Event.about d)

theorem entries_append (d : Direction) (xs ys : List Event) :
    entries d (xs ++ ys) = entries d xs ++ entries d ys :=
  List.filter_append ..

/-- What a step does to the grants of a direction, and what it enters for that. Only a step that is
a whole operation by itself (`w`) may enter a reservation together with its commit. -/
inductive Booked (w : Prop) (d : Direction) : List Grant → List Event → List Grant → Prop
  | keep (gs : List Grant) : Booked w d gs [] gs
  | move {g : Grant} {count : Nat} (h : g.moved + count ≤ g.region.count) :
      Booked w d [g] [] [{ g with moved := g.moved + count }]
  | begin (region : Region) :
      Booked w d [] [.reserved d region.offset region.count] [⟨d, region, 0⟩]
  | finish {g : Grant} (h : g.moved ≤ g.region.count) :
      Booked w d [g] [.committed d g.region.count g.moved] []
  | operate (h : w) (offset count : Nat) :
      Booked w d [] [.reserved d offset count, .committed d count count] []

/-- Where nothing is entered the regions stay. -/
theorem Booked.regions {w : Prop} {d : Direction} {gs gs' : List Grant}
    (h : Booked w d gs [] gs') : gs'.map Grant.region = gs.map Grant.region := by
  cases h <;> rfl

/-- For each of the regions held in the past there is one reservation and then one commit of no more
than that; for the grants of the present there is a reservation. -/
def Ledger (d : Direction) (events : List Event) (gs : List Grant) : Prop :=
  ∃ past : List (Region × Nat), (∀ e ∈ past, e.2 ≤ e.1.count) ∧
    events =
      past.flatMap (fun e => [.reserved d e.1.offset e.1.count, .committed d e.1.count e.2])
        ++ gs.map fun g => .reserved d g.region.offset g.region.count

theorem Ledger.nil (d : Direction) : Ledger d [] [] := ⟨[], by simp, rfl⟩

/-- A ledger goes on as a step is booked. -/
theorem Ledger.booked {d : Direction} {w : Prop} {events new : List Event} {gs gs' : List Grant}
    (h : Ledger d events gs) (hb : Booked w d gs new gs') : Ledger d (events ++ new) gs' := by
  obtain ⟨past, hle, rfl⟩ := h
  cases hb with
  | keep => exact ⟨past, hle, by simp⟩
  | move _ => exact ⟨past, hle, by simp⟩
  | begin region => exact ⟨past, hle, by simp⟩
  | @finish g hg =>
    refine ⟨past ++ [(g.region, g.moved)], List.forall_mem_append.2 ⟨hle, ?_⟩, by simp⟩
    simpa using hg
  | operate _ offset count =>
    exact ⟨past ++ [(⟨offset, count⟩, count)], List.forall_mem_append.2 ⟨hle, by simp⟩, by simp⟩

/-! ## What rings report -/

namespace Ring

variable {r r' : Ring}

theorem entries_reserve {d : Direction} {count : Nat} {g : Grant} {events : List Event}
    (h : r.reserve d count = .ok (g, r', events)) (e : Direction) :
    entries e events = if d = e then [.reserved d g.region.offset count] else [] := by
  obtain ⟨region, o, -, rfl, -, rfl⟩ := reserve_ok h
  have hquiet : entries e (r.discards d count) = [] := by
    unfold discards
    split
    · split <;> rfl
    · rfl
  rw [entries_append, hquiet, List.nil_append]
  cases d <;> cases e <;> rfl

theorem entries_commit {g : Grant} {events : List Event} (h : r.commit g = .ok (r', events))
    (e : Direction) :
    entries e events
      = if g.direction = e then [.committed g.direction g.region.count g.moved] else [] := by
  obtain ⟨o, -, -, rfl⟩ := commit_ok h
  cases g.direction <;> cases e <;> rfl

/-- The verdict on a transfer reports nothing but warnings. -/
theorem entries_verdict (request : Request) (moved : Nat) (ending : Ending) (d : Direction) :
    entries d (request.verdict moved ending).before = [] ∧
      entries d (request.verdict moved ending).after = [] := by
  unfold Request.verdict
  cases ending <;> cases request.purpose <;> exact ⟨rfl, rfl⟩

theorem entries_settle (p : Passage) {g : Grant} (ending : Ending) {events : List Event}
    (h : r.commit g = .ok (r', events)) (d : Direction) :
    (r.settle g (p.verdict g ending)).ring = r' ∧
      (r.settle g (p.verdict g ending)).result = (p.verdict g ending).result ∧
      entries d (r.settle g (p.verdict g ending)).events = entries d events := by
  obtain ⟨ending', hverdict, -⟩ := p.exists_verdict g ending
  rw [hverdict]
  obtain ⟨hbefore, hafter⟩ := entries_verdict p.transfer.request g.moved ending' d
  simp only [settle, h, entries_append, hbefore, hafter, List.nil_append, List.append_nil, and_self]

/-- A whole operation enters nothing, or its reservation and its commit. -/
def Whole (r : Ring) (d : Direction) (events : List Event) : Prop :=
  entries d events = [] ∨ ∃ offset count, r.occupancy.held d = none ∧
    entries d events = [.reserved d offset count, .committed d count count]

theorem Sound.moveWhole_whole (h : r.Sound) {α : Type} (d : Direction) (count : Nat)
    (work : Region → Storage → α × Storage) (e : Direction) :
    r.Whole e (r.moveWhole d count work).events := by
  cases hro : r.occupancy.reserve d count with
  | error err =>
    rw [moveWhole_of_error hro]
    exact .inl rfl
  | ok v =>
    obtain ⟨region, o⟩ := v
    obtain ⟨opening, hr⟩ := reserve_of_ok hro
    obtain ⟨r'', closing, hc, heq⟩ := h.moveWhole_ok work hr
    obtain ⟨hnone, -, hcount⟩ := h.coherent.reserve_held hro
    have hopening := entries_reserve hr e
    have hclosing := entries_commit hc e
    rw [heq]
    by_cases he : d = e
    · subst he
      refine .inr ⟨region.offset, count, hnone, ?_⟩
      rw [entries_append, hopening, hclosing, if_pos rfl, if_pos rfl]
      simp [hcount]
    · refine .inl ?_
      rw [entries_append, hopening, hclosing, if_neg he, if_neg he]
      rfl

theorem Sound.apply_whole (h : r.Sound) (operation : Operation) (d : Direction) :
    r.Whole d (r.apply operation).events := by
  have hdoes := r.apply_does operation
  generalize (r.apply operation).ring = r', (r.apply operation).events = events at hdoes ⊢
  cases hdoes with
  | put data => exact h.put_whole data ▸ h.moveWhole_whole .put _ _ d
  | take count => exact h.take_whole count ▸ h.moveWhole_whole .take _ _ d
  | _ => exact .inl rfl

/-- A ring that is built is reachable and idle. -/
theorem build_ok {b : Blueprint} {events : List Event} (h : b.build = (.ok r, events)) :
    1 ≤ b.capacity ∧ r.Reachable b.capacity b.overwriting ∧
      ∀ d, r.occupancy.held d = none ∧ (vacant b.capacity b.overwriting).Whole d events := by
  unfold Blueprint.build at h
  split at h
  · cases h
  rename_i hc
  have hpos : 1 ≤ b.capacity := Nat.one_le_iff_ne_zero.2 hc
  have hs := sound_vacant hpos b.overwriting
  refine ⟨hpos, ?_⟩
  split at h
  · cases h
  cases hb : b.contents with
  | none =>
    simp only [hb] at h
    cases h
    refine ⟨.refl, ?_⟩
    intro d
    cases d <;> exact ⟨rfl, .inl rfl⟩
  | some data =>
    simp only [hb] at h
    split at h
    · cases h
    cases h
    refine ⟨leads_put hs data, ?_⟩
    intro d
    have hleaves := (hs.apply_leaves (.put data) d).held
    have hwhole := hs.apply_whole (.put data) d
    simp only [Whole, entries_append] at hwhole ⊢
    refine ⟨hleaves.trans (by cases d <;> rfl), ?_⟩
    have hbuilt : entries d [.built b.capacity b.overwriting
      ((vacant b.capacity b.overwriting).put data).ring.length] = [] := rfl
    rw [hbuilt, List.append_nil]
    exact hwhole

/-- A ring that is built is no larger than memory. -/
theorem capacity_build {b : Blueprint} {events : List Event} (h : b.build = (.ok r, events)) :
    r.capacity ≤ maxSize := by
  obtain ⟨-, hreach, -⟩ := build_ok h
  have hcells : r.capacity = b.capacity :=
    (Leads.capacity hreach).trans (Storage.size_zeros b.capacity)
  unfold Blueprint.build at h
  split at h
  · cases h
  split at h
  · cases h
  rename_i hsize
  rw [hcells]
  exact Nat.le_of_not_lt hsize

end Ring

end CyclicBuffer
