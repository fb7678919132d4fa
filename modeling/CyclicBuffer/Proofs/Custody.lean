import CyclicBuffer.Proofs.Ledger
import CyclicBuffer.Session.Run

/-!
# Custody

Each direction of each ring is in the custody of one live transfer, or of none: the region that the
ring holds for it is the region of that transfer's grant. `Custody` says so of a session and a list
of live transfers. Whatever happens to them keeps custody and is booked: a transfer that begins is
given its region, one that ends gives it back with what it has moved, in one commit, and that commit
is never refused.
-/

namespace CyclicBuffer

open Occupancy

/-! ## Grants of transfers -/

/-- The grant of a transfer, if it is one of this direction of this ring. -/
def Transfer.grants (t : Transfer) (place : Nat) (d : Direction) : List Grant :=
  if t.ring = place then t.grant.toList.filter fun g => g.direction == d else []

/-- The grants of a direction of a ring. -/
def grantsOf (ts : List Transfer) (place : Nat) (d : Direction) : List Grant :=
  ts.flatMap fun t => t.grants place d

/-- Whether a transfer holds this direction of this ring. -/
def Transfer.holds (t : Transfer) (place : Nat) (d : Direction) : Bool :=
  t.ring == place && t.grant.any fun g => g.direction == d

/-- The transfers that hold a direction of a ring. -/
def holders (ts : List Transfer) (place : Nat) (d : Direction) : List Transfer :=
  ts.filter fun t => t.holds place d

theorem holders_cons (t : Transfer) (ts : List Transfer) (place : Nat) (d : Direction) :
    holders (t :: ts) place d
      = if t.holds place d then t :: holders ts place d else holders ts place d :=
  List.filter_cons ..

/-- A transfer with another grant. -/
def Transfer.withGrant (t : Transfer) (g : Grant) : Transfer := { t with grant := some g }

@[simp] theorem grantsOf_cons (t : Transfer) (ts : List Transfer) (place : Nat) (d : Direction) :
    grantsOf (t :: ts) place d = t.grants place d ++ grantsOf ts place d := rfl

namespace Transfer

variable {t t' : Transfer} {place : Nat} {d : Direction} {g : Grant}

theorem grants_idle (h : t.grant = none) : t.grants place d = [] := by
  simp [grants, h]

theorem grants_self (h : t.grant = some g) : t.grants t.ring g.direction = [g] := by
  simp [grants, h]

theorem grants_of_ring_ne (h : t.ring ≠ place) : t.grants place d = [] := if_neg h

theorem grants_of_direction_ne (h : t.grant = some g) (hd : g.direction ≠ d) :
    t.grants place d = [] := by
  simp [grants, h, hd]

theorem grants_withGrant (t : Transfer) (g : Grant) :
    (t.withGrant g).grants t.ring g.direction = [g] :=
  grants_self (t := t.withGrant g) rfl

theorem grants_withGrant_of_ring_ne (g : Grant) (h : t.ring ≠ place) :
    (t.withGrant g).grants place d = [] :=
  grants_of_ring_ne (t := t.withGrant g) h

theorem grants_withGrant_of_direction_ne (t : Transfer) (h : g.direction ≠ d) :
    (t.withGrant g).grants place d = [] :=
  grants_of_direction_ne (t := t.withGrant g) rfl h

theorem grants_congr (hr : t'.ring = t.ring) (hg : t'.grant = t.grant) :
    t'.grants place d = t.grants place d := by
  rw [grants, grants, hr, hg]

end Transfer

theorem Transfer.grants_of_holds {t : Transfer} {place : Nat} {d : Direction}
    (h : t.holds place d = true) : ∃ g, t.grant = some g ∧ t.grants place d = [g] := by
  simp only [Transfer.holds, Bool.and_eq_true, beq_iff_eq, Option.any_eq_true] at h
  obtain ⟨rfl, g, hg, rfl⟩ := h
  exact ⟨g, hg, Transfer.grants_self hg⟩

theorem Transfer.grants_of_not_holds {t : Transfer} {place : Nat} {d : Direction}
    (h : ¬ t.holds place d = true) : t.grants place d = [] := by
  by_cases hr : t.ring = place
  · cases hg : t.grant with
    | none => exact Transfer.grants_idle hg
    | some g =>
      refine Transfer.grants_of_direction_ne hg ?_
      simpa [Transfer.holds, hr, hg] using h
  · exact Transfer.grants_of_ring_ne hr

theorem grantsOf_eq_nil {ts : List Transfer} {place : Nat} {d : Direction} :
    grantsOf ts place d = [] ↔ holders ts place d = [] := by
  induction ts with
  | nil => simp [grantsOf, holders]
  | cons t ts ih =>
    rw [grantsOf_cons]
    by_cases h : t.holds place d = true
    · obtain ⟨g, -, hgs⟩ := Transfer.grants_of_holds h
      simp [hgs, h, holders_cons]
    · rw [Transfer.grants_of_not_holds h, List.nil_append, ih, holders_cons, if_neg h]

/-- There is one grant where one transfer holds the direction. -/
theorem grantsOf_eq_singleton {ts : List Transfer} {place : Nat} {d : Direction} {g : Grant} :
    grantsOf ts place d = [g] ↔
      ∃ t, holders ts place d = [t] ∧ t.grant = some g := by
  induction ts with
  | nil => simp [grantsOf, holders]
  | cons t ts ih =>
    rw [grantsOf_cons]
    by_cases h : t.holds place d = true
    · obtain ⟨g', hg', hgs⟩ := Transfer.grants_of_holds h
      rw [hgs, holders_cons, if_pos h, List.singleton_append, List.cons.injEq, grantsOf_eq_nil]
      constructor
      · rintro ⟨rfl, hnil⟩
        exact ⟨t, by rw [hnil], hg'⟩
      · rintro ⟨u, hu, hg⟩
        obtain ⟨rfl, hnil⟩ := List.cons.inj hu
        exact ⟨Option.some.inj (hg'.symm.trans hg), hnil⟩
    · rw [Transfer.grants_of_not_holds h, List.nil_append, ih, holders_cons, if_neg h]

/-! ## Tables -/

theorem lookup_filter_ne {α : Type} (entries : List (Nat × α)) {name other : Nat}
    (h : other ≠ name) :
    (entries.filter fun entry => entry.1 != name).lookup other = entries.lookup other := by
  induction entries with
  | nil => rfl
  | cons entry entries ih =>
    by_cases he : entry.1 = name
    · have hne : (other == entry.1) = false := by
        rw [he]
        simpa using h
      rw [List.filter_cons, if_neg (by simp [he]), ih, List.lookup_cons, hne]
    · rw [List.filter_cons, if_pos (by simpa using he), List.lookup_cons, List.lookup_cons, ih]

theorem lookup_map {α β : Type} (f : α → β) (entries : List (Nat × α)) (name : Nat) :
    (entries.map fun entry => (entry.1, f entry.2)).lookup name = (entries.lookup name).map f := by
  induction entries with
  | nil => rfl
  | cons entry entries ih =>
    rw [List.map_cons, List.lookup_cons, List.lookup_cons, ih]
    cases name == entry.1 <;> rfl

/-! ## Sessions -/

namespace Session

/-- The reservations and commits of a direction of a ring. -/
def ledger (s : Session) (place : Nat) (d : Direction) : List Event :=
  entries d ((s.journal.filter fun e => e.1 == place).map Prod.snd)

/-- The transfers of the tasks. -/
def waiting (s : Session) : List Transfer := s.tasks.map fun entry => entry.2.transfer

theorem ledger_note (s : Session) (place : Nat) (events : List Event) (q : Nat) (d : Direction) :
    (s.note place events).ledger q d
      = s.ledger q d ++ if place = q then entries d events else [] := by
  simp only [ledger, note, List.filter_append, List.map_append, entries_append]
  by_cases hq : place = q
  · subst hq
    have hall : events.filter (fun _ => true) = events := List.filter_eq_self.2 fun _ _ => rfl
    simp [List.filter_map, Function.comp_def, hall]
  · simp [List.filter_map, Function.comp_def, hq, entries]

theorem ledger_update (s : Session) (place : Nat) (ring : Ring) (events : List Event) (q : Nat)
    (d : Direction) :
    (s.update place ring events).ledger q d
      = s.ledger q d ++ if place = q then entries d events else [] :=
  ledger_note ..

@[simp] theorem size_update (s : Session) (place : Nat) (ring : Ring) (events : List Event) :
    (s.update place ring events).rings.size = s.rings.size := by
  simp [update, note]

theorem ring_update_self (s : Session) {place : Nat} (h : place < s.rings.size) (ring : Ring)
    (events : List Event) : (s.update place ring events).ring place = ring := by
  simp [update, note, Session.ring, Array.getD_eq_getD_getElem?, h]

theorem ring_update_ne (s : Session) {place q : Nat} (h : q ≠ place) (ring : Ring)
    (events : List Event) : (s.update place ring events).ring q = s.ring q := by
  simp [update, note, Session.ring, Array.getD_eq_getD_getElem?, Ne.symm h]

theorem ring_update (s : Session) (place : Nat) (ring : Ring) (events : List Event) (q : Nat) :
    (s.update place ring events).ring q
      = if q = place ∧ place < s.rings.size then ring else s.ring q := by
  by_cases hq : q = place
  · subst hq
    by_cases hp : q < s.rings.size
    · rw [s.ring_update_self hp, if_pos ⟨rfl, hp⟩]
    · rw [if_neg fun h => hp h.2, update, Array.setIfInBounds_eq_of_size_le (Nat.le_of_not_lt hp)]
      rfl
  · rw [s.ring_update_ne hq, if_neg fun h => hq h.1]

/-- A ring that changes without a change of its capacity changes no capacity. -/
theorem capacity_update (s : Session) {place : Nat} {ring : Ring}
    (h : ring.capacity = (s.ring place).capacity) (events : List Event) (q : Nat) :
    ((s.update place ring events).ring q).capacity = (s.ring q).capacity := by
  rw [s.ring_update]
  split
  · rename_i hq
    rw [hq.1, h]
  · rfl

theorem ring_addRing (s : Session) (name : Nat) (ring : Ring) (events : List Event) (q : Nat) :
    (s.addRing name ring events).ring q = if q = s.rings.size then ring else s.ring q := by
  by_cases hq : q = s.rings.size
  · subst hq
    simp [addRing, note, Session.ring, Array.getD_eq_getD_getElem?]
  · simp [addRing, note, Session.ring, Array.getD_eq_getD_getElem?, Array.getElem?_push, hq]

theorem place?_addRing (s : Session) (name : Nat) (ring : Ring) (events : List Event)
    (other : Nat) : (s.addRing name ring events).place? other
      = if other = name then some s.rings.size else s.place? other := by
  simp only [addRing, note, place?, List.lookup_cons]
  by_cases ho : other = name
  · simp [ho]
  · have hne : (other == name) = false := by simpa using ho
    rw [if_neg ho, hne, lookup_filter_ne _ ho]

theorem mem_of_place? {s : Session} {name place : Nat} (h : s.place? name = some place) :
    (name, place) ∈ s.names := by
  obtain ⟨before, after, heq, -⟩ := List.lookup_eq_some_iff.1 h
  rw [heq]
  simp

end Session

/-! ## The agreement -/

/-- A transfer of one of `rings` rings, whose grant is one that it asked for. -/
structure Transfer.Fits (rings : Nat) (t : Transfer) : Prop where
  known : t.ring < rings
  direction : ∀ g, t.grant = some g → g.direction = t.request.purpose.direction
  count : ∀ g, t.grant = some g → g.region.count = t.request.count
  moved_le : ∀ g, t.grant = some g → g.moved ≤ g.region.count

structure Custody (s : Session) (ts : List Transfer) : Prop where
  reachable : ∀ place < s.rings.size, ∃ capacity overwriting, 1 ≤ capacity ∧
    (s.ring place).Reachable capacity overwriting
  named : ∀ entry ∈ s.names, entry.2 < s.rings.size
  ids : (s.tasks.map Prod.fst).Nodup
  fits : ∀ t ∈ ts, t.Fits s.rings.size
  held : ∀ place d, (grantsOf ts place d).map Grant.region
    = ((s.ring place).occupancy.held d).toList

/-- Custody goes from one session and its transfers to another, and what happens is booked. -/
structure Shift (w : Prop) (s : Session) (ts : List Transfer) (s' : Session)
    (ts' : List Transfer) : Prop where
  custody : Custody s' ts'
  booked : ∀ place d, ∃ new, s'.ledger place d = s.ledger place d ++ new ∧
    Booked w d (grantsOf ts place d) new (grantsOf ts' place d)

/-- Nothing happens that has to be booked. -/
structure Quiet (s : Session) (ts : List Transfer) (s' : Session) (ts' : List Transfer) : Prop where
  custody : Custody s' ts'
  ledger : ∀ place d, s'.ledger place d = s.ledger place d
  grants : ∀ place d, grantsOf ts' place d = grantsOf ts place d

section
variable {w : Prop} {s s₁ s₂ : Session} {t t' : Transfer} {ts ts₁ ts₂ : List Transfer}

theorem Quiet.shift (h : Quiet s ts s₁ ts₁) : Shift w s ts s₁ ts₁ := by
  refine ⟨h.custody, ?_⟩
  intro place d
  refine ⟨[], by rw [h.ledger, List.append_nil], ?_⟩
  rw [h.grants]
  exact .keep _

theorem Quiet.trans (h : Quiet s ts s₁ ts₁) (h' : Quiet s₁ ts₁ s₂ ts₂) : Quiet s ts s₂ ts₂ :=
  ⟨h'.custody, fun place d => (h'.ledger place d).trans (h.ledger place d),
    fun place d => (h'.grants place d).trans (h.grants place d)⟩

theorem Quiet.trans_shift (h : Quiet s ts s₁ ts₁) (h' : Shift w s₁ ts₁ s₂ ts₂) :
    Shift w s ts s₂ ts₂ := by
  refine ⟨h'.custody, ?_⟩
  intro place d
  obtain ⟨new, hnew, hb⟩ := h'.booked place d
  exact ⟨new, by rw [hnew, h.ledger], by rwa [h.grants] at hb⟩

theorem Shift.trans_quiet (h : Shift w s ts s₁ ts₁) (h' : Quiet s₁ ts₁ s₂ ts₂) :
    Shift w s ts s₂ ts₂ := by
  refine ⟨h'.custody, ?_⟩
  intro place d
  obtain ⟨new, hnew, hb⟩ := h.booked place d
  exact ⟨new, by rw [h'.ledger, hnew], by rwa [h'.grants]⟩

theorem Custody.sound (h : Custody s ts) {place : Nat} (hp : place < s.rings.size) :
    (s.ring place).Sound := by
  obtain ⟨capacity, overwriting, hc, hr⟩ := h.reachable place hp
  exact hr.sound hc

/-- One direction of a ring never has two grants. -/
theorem Custody.length_grants (h : Custody s ts) (place : Nat) (d : Direction) :
    (grantsOf ts place d).length ≤ 1 := by
  have hlen := congrArg List.length (h.held place d)
  rw [List.length_map] at hlen
  rw [hlen]
  cases (s.ring place).occupancy.held d <;> simp

theorem Custody.grants_of_held (h : Custody s ts) {place : Nat} {d : Direction}
    (hd : (s.ring place).occupancy.held d = none) : grantsOf ts place d = [] := by
  have hheld := h.held place d
  rw [hd] at hheld
  exact List.map_eq_nil_iff.1 hheld

/-! ## Transfers that come and go without a grant -/

/-- Transfers may be described anew as long as their grants stay. -/
theorem Custody.regroup (h : Custody s ts) (hfits : ∀ t ∈ ts₁, t.Fits s.rings.size)
    (hgrants : ∀ place d, grantsOf ts₁ place d = grantsOf ts place d) : Quiet s ts s ts₁ := by
  refine ⟨⟨h.reachable, h.named, h.ids, hfits, ?_⟩, fun _ _ => rfl, hgrants⟩
  intro place d
  rw [hgrants]
  exact h.held place d

/-- The order of the transfers does not matter. -/
theorem Custody.perm (h : Custody s ts) (hp : ts.Perm ts₁) : Quiet s ts s ts₁ := by
  refine h.regroup (fun t ht => h.fits t (hp.mem_iff.2 ht)) ?_
  intro place d
  have hperm : (grantsOf ts place d).Perm (grantsOf ts₁ place d) := hp.flatMap_right _
  have hlen := h.length_grants place d
  match hgs : grantsOf ts place d, hlen with
  | [], _ =>
    rw [hgs] at hperm
    exact hperm.nil_eq.symm
  | [g], _ =>
    rw [hgs] at hperm
    exact (List.singleton_perm.1 hperm).symm

/-- Other things than rings, journal and live transfers do not matter. -/
theorem Custody.session (h : Custody s ts) (hrings : s₁.rings = s.rings)
    (hjournal : s₁.journal = s.journal) (hnames : s₁.names = s.names)
    (hids : (s₁.tasks.map Prod.fst).Nodup) : Quiet s ts s₁ ts := by
  refine ⟨⟨?_, ?_, hids, ?_, ?_⟩, ?_, fun _ _ => rfl⟩
  · simpa only [Session.ring, hrings] using h.reachable
  · simpa only [hnames, hrings] using h.named
  · simpa only [hrings] using h.fits
  · simpa only [Session.ring, hrings] using h.held
  · intro place d
    simp only [Session.ledger, hjournal]

/-- A transfer that has not started has nothing to give back. -/
theorem Custody.forget (h : Custody s (t :: ts)) (ht : t.grant = none) :
    Quiet s (t :: ts) s ts := by
  refine h.regroup (fun u hu => h.fits u (List.mem_cons_of_mem _ hu)) ?_
  intro place d
  rw [grantsOf_cons, Transfer.grants_idle ht, List.nil_append]

/-- A transfer that has not started can join. -/
theorem Custody.join (h : Custody s ts) (ht : t.grant = none) (hp : t.ring < s.rings.size) :
    Quiet s ts s (t :: ts) := by
  refine h.regroup
    (List.forall_mem_cons.2 ⟨⟨hp, by simp [ht], by simp [ht], by simp [ht]⟩, h.fits⟩) ?_
  intro place d
  rw [grantsOf_cons, Transfer.grants_idle ht, List.nil_append]

/-- A transfer goes on under another description with what it has. -/
theorem Custody.relabel (h : Custody s (t :: ts)) (hr : t'.ring = t.ring)
    (hq : t'.request = t.request) (hg : t'.grant = t.grant) : Quiet s (t :: ts) s (t' :: ts) := by
  obtain ⟨ht, hts⟩ := List.forall_mem_cons.1 h.fits
  refine h.regroup (List.forall_mem_cons.2 ⟨⟨?_, ?_, ?_, ?_⟩, hts⟩) ?_
  · exact hr ▸ ht.known
  · rw [hg, hq]
    exact ht.direction
  · rw [hg, hq]
    exact ht.count
  · rw [hg]
    exact ht.moved_le
  · intro place d
    rw [grantsOf_cons, grantsOf_cons, Transfer.grants_congr hr hg]

/-! ## Changes of one ring -/

theorem Custody.update (h : Custody s ts) {place : Nat} (hp : place < s.rings.size) {ring : Ring}
    (hl : (s.ring place).Leads ring) (hfits : ∀ t ∈ ts₁, t.Fits s.rings.size)
    (hother : ∀ q d, q ≠ place → grantsOf ts₁ q d = grantsOf ts q d)
    (hheld : ∀ d, (grantsOf ts₁ place d).map Grant.region = (ring.occupancy.held d).toList)
    (events : List Event) : Custody (s.update place ring events) ts₁ := by
  have hsize := s.size_update place ring events
  refine ⟨?_, ?_, h.ids, ?_, ?_⟩
  · intro q hq
    by_cases he : q = place
    · subst he
      obtain ⟨capacity, overwriting, hc, hr⟩ := h.reachable q hp
      rw [s.ring_update_self hp]
      exact ⟨capacity, overwriting, hc, Ring.Leads.trans hr hl⟩
    · rw [s.ring_update_ne he]
      exact h.reachable q (hsize ▸ hq)
  · rw [hsize]
    exact h.named
  · rw [hsize]
    exact hfits
  · intro q d
    by_cases he : q = place
    · subst he
      rw [s.ring_update_self hp]
      exact hheld d
    · rw [s.ring_update_ne he, hother q d he]
      exact h.held q d

theorem Custody.shift_update (h : Custody s ts) {place : Nat} (hp : place < s.rings.size)
    {ring : Ring} (hl : (s.ring place).Leads ring) {events : List Event}
    (hfits : ∀ t ∈ ts₁, t.Fits s.rings.size)
    (hother : ∀ q d, q ≠ place → grantsOf ts₁ q d = grantsOf ts q d)
    (hheld : ∀ d, (grantsOf ts₁ place d).map Grant.region = (ring.occupancy.held d).toList)
    (hbooked : ∀ d, Booked w d (grantsOf ts place d) (entries d events)
      (grantsOf ts₁ place d)) : Shift w s ts (s.update place ring events) ts₁ := by
  refine ⟨h.update hp hl hfits hother hheld events, ?_⟩
  intro q d
  refine ⟨_, s.ledger_update .., ?_⟩
  by_cases he : q = place
  · subst he
    rw [if_pos rfl]
    exact hbooked d
  · rw [if_neg (Ne.symm he), hother q d he]
    exact .keep _

/-- Writing to the cells of a ring leaves all custody as it is. -/
theorem Custody.receive (h : Custody s ts) {place : Nat} (hp : place < s.rings.size) (g : Grant)
    (data : Bytes) : Quiet s ts (s.update place ((s.ring place).receive g data) []) ts := by
  refine ⟨h.update hp ((s.ring place).leads_write _ _) h.fits (fun _ _ _ => rfl) ?_ [], ?_,
    fun _ _ => rfl⟩
  · intro d
    exact h.held place d
  · intro q d
    rw [s.ledger_update]
    split <;> exact List.append_nil _

/-- A whole operation leaves all custody as it is. -/
theorem Custody.operate (h : Custody s ts) (hw : w) {place : Nat} (hp : place < s.rings.size)
    (operation : Operation) :
    Shift w s ts (s.update place ((s.ring place).apply operation).ring
      ((s.ring place).apply operation).events) ts := by
  have hs := h.sound hp
  refine h.shift_update hp (Ring.leads_apply hs operation) h.fits (fun _ _ _ => rfl) ?_ ?_
  · intro d
    rw [(hs.apply_leaves operation d).held]
    exact h.held place d
  · intro d
    rcases hs.apply_whole operation d with hnone | ⟨offset, count, hidle, hsome⟩
    · rw [hnone]
      exact .keep _
    · rw [hsome, h.grants_of_held hidle]
      exact .operate hw offset count

/-! ## The way of a grant -/

/-- A transfer begins: it is given the region that it asks for. -/
theorem Custody.begin (h : Custody s (t :: ts)) (ht : t.grant = none) {g : Grant} {ring : Ring}
    {events : List Event}
    (hr : (s.ring t.ring).reserve t.request.purpose.direction t.request.count
      = .ok (g, ring, events)) :
    Shift w s (t :: ts) (s.update t.ring ring events) (t.withGrant g :: ts) := by
  obtain ⟨hfit, hfits⟩ := List.forall_mem_cons.1 h.fits
  have hs := h.sound hfit.known
  have hentries := Ring.entries_reserve hr
  have hleads := Ring.leads_reserve hr
  obtain ⟨region, o, hro, rfl, rfl, -⟩ := Ring.reserve_ok hr
  obtain ⟨hidle, hheld, -⟩ := hs.coherent.reserve_held hro
  have hnone d : t.grants t.ring d = [] := Transfer.grants_idle ht
  have hself := t.grants_withGrant ⟨t.request.purpose.direction, region, 0⟩
  have hcount : region.count = t.request.count := (hs.coherent.reserve_held hro).2.2
  refine h.shift_update hfit.known hleads
    (List.forall_mem_cons.2 ⟨⟨hfit.known, ?_, ?_, ?_⟩, hfits⟩) ?_ ?_ ?_
  · intro g hg
    cases hg
    rfl
  · intro g hg
    cases hg
    exact hcount
  · intro g hg
    cases hg
    exact Nat.zero_le _
  · intro q d hq
    rw [grantsOf_cons, grantsOf_cons, Transfer.grants_withGrant_of_ring_ne _ (Ne.symm hq),
      Transfer.grants_of_ring_ne (Ne.symm hq)]
  · intro d
    by_cases hd : t.request.purpose.direction = d
    · subst hd
      have hrest := h.grants_of_held hidle
      rw [grantsOf_cons, hnone, List.nil_append] at hrest
      rw [grantsOf_cons, hself, hrest, hheld]
      rfl
    · have hkeep := h.held t.ring d
      rw [grantsOf_cons, hnone, List.nil_append] at hkeep
      rw [grantsOf_cons, t.grants_withGrant_of_direction_ne hd, List.nil_append, hkeep,
        (hs.coherent.reserve_leaves hro (Ne.symm hd)).held]
  · intro d
    rw [hentries]
    by_cases hd : t.request.purpose.direction = d
    · subst hd
      have hrest := h.grants_of_held hidle
      rw [if_pos rfl, hrest]
      rw [grantsOf_cons, hnone, List.nil_append] at hrest
      rw [grantsOf_cons, hself, hrest, ← hcount]
      exact .begin region
    · rw [if_neg hd, grantsOf_cons, grantsOf_cons, hnone, t.grants_withGrant_of_direction_ne hd]
      exact .keep _

/-- The only grant of its direction is that of the transfer. -/
theorem Custody.grants_alone (h : Custody s (t :: ts)) {g : Grant} (ht : t.grant = some g) :
    grantsOf ts t.ring g.direction = [] := by
  have hlen := h.length_grants t.ring g.direction
  rw [grantsOf_cons, Transfer.grants_self ht] at hlen
  simpa using hlen

theorem Custody.held_eq (h : Custody s (t :: ts)) {g : Grant} (ht : t.grant = some g) :
    (s.ring t.ring).occupancy.held g.direction = some g.region := by
  have hheld := h.held t.ring g.direction
  rw [grantsOf_cons, Transfer.grants_self ht, h.grants_alone ht] at hheld
  cases hh : (s.ring t.ring).occupancy.held g.direction with
  | none => simp [hh] at hheld
  | some region => simpa [hh, eq_comm] using hheld

/-- A transfer counts more bytes as moved. -/
theorem Custody.move (h : Custody s (t :: ts)) {g : Grant} (ht : t.grant = some g) {count : Nat}
    (hc : g.moved + count ≤ g.region.count) :
    Shift w s (t :: ts) s (t.withGrant { g with moved := g.moved + count } :: ts) := by
  obtain ⟨hfit, hfits⟩ := List.forall_mem_cons.1 h.fits
  have hbooked place d : Booked w d (grantsOf (t :: ts) place d) []
      (grantsOf (t.withGrant { g with moved := g.moved + count } :: ts) place d) := by
    rw [grantsOf_cons, grantsOf_cons]
    by_cases hp : t.ring = place
    · subst hp
      by_cases hd : g.direction = d
      · subst hd
        have hself := t.grants_withGrant { g with moved := g.moved + count }
        rw [h.grants_alone ht, Transfer.grants_self ht, hself]
        exact .move hc
      · have hother : (t.withGrant { g with moved := g.moved + count }).grants t.ring d = [] :=
          t.grants_withGrant_of_direction_ne hd
        rw [Transfer.grants_of_direction_ne ht hd, hother]
        exact .keep _
    · rw [Transfer.grants_of_ring_ne hp, Transfer.grants_withGrant_of_ring_ne _ hp]
      exact .keep _
  refine ⟨⟨h.reachable, h.named, h.ids,
    List.forall_mem_cons.2 ⟨⟨hfit.known, ?_, ?_, ?_⟩, hfits⟩, ?_⟩,
    fun place d => ⟨[], (List.append_nil _).symm, hbooked place d⟩⟩
  · intro g' hg'
    cases hg'
    exact hfit.direction g ht
  · intro g' hg'
    cases hg'
    exact hfit.count g ht
  · intro g' hg'
    cases hg'
    exact hc
  · intro place d
    rw [← h.held, (hbooked place d).regions]

/-- A transfer ends: it gives its region back with what it has moved, which is never refused. -/
theorem Custody.finish (h : Custody s (t :: ts)) {g : Grant} (ht : t.grant = some g) :
    ∃ ring events, (s.ring t.ring).commit g = .ok (ring, events) ∧
      ∀ reported, (∀ d, entries d reported = entries d events) →
        Shift w s (t :: ts) (s.update t.ring ring reported) ts := by
  obtain ⟨hfit, hfits⟩ := List.forall_mem_cons.1 h.fits
  have hheld := h.held_eq ht
  obtain ⟨ring, events, hc⟩ := Ring.commit_of_held hheld
  have hentries := Ring.entries_commit hc
  have hleads : (s.ring t.ring).Leads ring := by
    refine Ring.leads_commit ?_ hc
    intro region hr
    cases hheld.symm.trans hr
    exact hfit.moved_le g ht
  refine ⟨ring, events, hc, ?_⟩
  intro reported hreported
  obtain ⟨o, ho, rfl, -⟩ := Ring.commit_ok hc
  refine h.shift_update hfit.known hleads hfits ?_ ?_ ?_
  · intro q d hq
    rw [grantsOf_cons, Transfer.grants_of_ring_ne (Ne.symm hq), List.nil_append]
  · intro d
    by_cases hd : g.direction = d
    · subst hd
      rw [h.grants_alone ht, (commit_held ho).2]
      rfl
    · have hkeep := h.held t.ring d
      rw [grantsOf_cons, Transfer.grants_of_direction_ne ht hd, List.nil_append] at hkeep
      rw [hkeep, (commit_leaves ho (Ne.symm hd)).held]
  · intro d
    rw [hreported, hentries]
    by_cases hd : g.direction = d
    · subst hd
      rw [if_pos rfl, grantsOf_cons, Transfer.grants_self ht, h.grants_alone ht]
      exact .finish (hfit.moved_le g ht)
    · rw [if_neg hd, grantsOf_cons, Transfer.grants_of_direction_ne ht hd]
      exact .keep _

/-! ## New rings -/

/-- Nothing is in custody of a ring that does not exist. -/
theorem Custody.grants_of_size_le (h : Custody s ts) {place : Nat} (hp : s.rings.size ≤ place)
    (d : Direction) : grantsOf ts place d = [] := by
  refine h.grants_of_held ?_
  have hring : s.ring place = default := by
    simp [Session.ring, Array.getD_eq_getD_getElem?, hp]
  rw [hring]
  cases d <;> rfl

theorem Custody.addRing (h : Custody s ts) (hw : w) {b : Blueprint} {ring : Ring}
    {events : List Event} (hb : b.build = (.ok ring, events)) (name : Nat) :
    Shift w s ts (s.addRing name ring events) ts := by
  obtain ⟨hc, hreach, hnew⟩ := Ring.build_ok hb
  have hsize : (s.addRing name ring events).rings.size = s.rings.size + 1 := by
    simp [Session.addRing, Session.note]
  have hlast : (s.addRing name ring events).ring s.rings.size = ring := by
    rw [s.ring_addRing, if_pos rfl]
  have hold place (hp : place ≠ s.rings.size) :
      (s.addRing name ring events).ring place = s.ring place := by
    rw [s.ring_addRing, if_neg hp]
  refine ⟨⟨?_, ?_, h.ids, ?_, ?_⟩, ?_⟩
  · intro place hp
    by_cases he : place = s.rings.size
    · subst he
      rw [hlast]
      exact ⟨_, _, hc, hreach⟩
    · rw [hold place he]
      exact h.reachable place (by omega)
  · rintro entry (_ | ⟨_, he⟩)
    · rw [hsize]
      exact Nat.lt_succ_self _
    · rw [hsize]
      exact Nat.lt_succ_of_lt (h.named entry (List.mem_filter.1 he).1)
  · intro t ht
    have hfit := h.fits t ht
    exact ⟨by rw [hsize]; exact Nat.lt_succ_of_lt hfit.known, hfit.direction, hfit.count,
      hfit.moved_le⟩
  · intro place d
    by_cases he : place = s.rings.size
    · subst he
      rw [hlast, (hnew d).1, h.grants_of_size_le (Nat.le_refl _)]
      rfl
    · rw [hold place he]
      exact h.held place d
  · intro place d
    refine ⟨_, Session.ledger_note .., ?_⟩
    by_cases he : s.rings.size = place
    · subst he
      rw [if_pos rfl, h.grants_of_size_le (Nat.le_refl _)]
      rcases (hnew d).2 with hnone | ⟨offset, count, -, hsome⟩
      · rw [hnone]
        exact .keep _
      · rw [hsome]
        exact .operate hw offset count
    · rw [if_neg he]
      exact .keep _

end

end CyclicBuffer
