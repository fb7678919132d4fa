import CyclicBuffer.Proofs.Chunks
import CyclicBuffer.Proofs.Coherence
import CyclicBuffer.Ring.Operation

/-!
# Reachable rings

Primitive steps lead from ring to ring, where every commit has to stay within the region that it
ends. The rings that they lead to from a vacant one are reachable, and `reachable_coherent` says
what is true of all of them: the occupancy is coherent, a put under way holds no readable cell, and
what a direction holds stands until it is committed.

Reservations, commits and whole operations are made of primitive steps (`leads_apply`), so they
lead from reachable rings to reachable ones.
-/

namespace CyclicBuffer

open Occupancy

/-- A step that commits no more than its direction holds. -/
def Primitive.Within (o : Occupancy) : Primitive → Prop
  | .commit d moved => ∀ region, o.held d = some region → moved ≤ region.count
  | _ => True

/-- The step is granted in the occupancy `o` and leads to another one. -/
inductive Primitive.Granted (o : Occupancy) : Primitive → Occupancy → Prop
  | reserve {d : Direction} {count : Nat} {region : Region} {o' : Occupancy}
      (h : o.reserve d count = .ok (region, o')) : Granted o (.reserve d count) o'
  | commit {d : Direction} {moved : Nat} {o' : Occupancy} (h : o.commit d moved = .ok o') :
      Granted o (.commit d moved) o'
  | skip {count : Nat} {o' : Occupancy} (h : o.skip count = .ok o') : Granted o (.skip count) o'
  | forget {o' : Occupancy} (h : o.reset = .ok o') : Granted o .forget o'
  | putByte {byte : UInt8} {cell : Nat} {o' : Occupancy} (h : o.putOne = .ok (cell, o')) :
      Granted o (.putByte byte) o'
  | takeByte {cell : Nat} {o' : Occupancy} (h : o.takeOne = .ok (cell, o')) :
      Granted o .takeByte o'

namespace Primitive.Granted

variable {o o' : Occupancy} {p : Primitive}

theorem terms (h : p.Granted o o') (hc : o.Coherent) : o'.terms = o.terms := by
  cases h with
  | reserve h => exact hc.reserve_terms h
  | commit h => exact commit_terms h
  | skip h => exact skip_terms h
  | forget h => exact reset_terms h
  | putByte h => exact hc.putOne_terms h
  | takeByte h => exact takeOne_terms h

theorem coherent (h : p.Granted o o') (hc : o.Coherent) (hp : p.Within o) : o'.Coherent := by
  cases h with
  | reserve h => exact hc.reserve h
  | commit h => exact hc.commit hp h
  | skip h => exact hc.skip h
  | forget h => exact hc.reset h
  | putByte h => exact hc.putOne h
  | takeByte h => exact hc.takeOne h

theorem leaves (h : p.Granted o o') (hc : o.Coherent) {d : Direction} (hd : o.held d ≠ none)
    (hp : ∀ moved, p ≠ .commit d moved) : o.Leaves o' d := by
  cases h with
  | @reserve e _ _ _ h =>
    have hne : d ≠ e := fun he => hd (he ▸ (hc.reserve_held h).1)
    exact hc.reserve_leaves h hne
  | @commit e moved _ h => exact commit_leaves h fun he => hp moved (he ▸ rfl)
  | skip h => exact hc.skip_leaves h d
  | forget h => exact reset_leaves h d
  | putByte h => exact hc.putOne_leaves h d
  | takeByte h => exact hc.takeOne_leaves h d

end Primitive.Granted

theorem Outcome.map_id {α : Type} (o : Outcome α) : o.map id = o := by
  obtain ⟨result, ring, events⟩ := o
  cases result <;> rfl

namespace Ring

/-- A coherent occupancy and as many cells as it speaks of. -/
structure Sound (r : Ring) : Prop where
  coherent : r.occupancy.Coherent
  size_eq : r.storage.size = r.occupancy.capacity

/-- Primitive steps lead from one ring to another. -/
inductive Leads (r : Ring) : Ring → Prop
  | refl : Leads r r
  | step {r' : Ring} {p : Primitive} : Leads r r' → p.Within r'.occupancy →
      Leads r (r'.step p).ring

/-- Primitive steps lead to the ring from a vacant one. -/
def Reachable (capacity : Nat) (overwriting : Bool) (r : Ring) : Prop :=
  (vacant capacity overwriting).Leads r

variable {r r' : Ring}

theorem sound_vacant {capacity : Nat} (h : 0 < capacity) (overwriting : Bool) :
    (vacant capacity overwriting).Sound :=
  ⟨coherent_vacant h overwriting, Storage.size_zeros capacity⟩

theorem Sound.of_terms (h : r.Sound) {o : Occupancy} {s : Storage} (hc : o.Coherent)
    (ht : o.terms = r.occupancy.terms) (hs : s.size = r.storage.size) : Sound ⟨o, s⟩ :=
  ⟨hc, hs.trans (h.size_eq.trans (congrArg Prod.fst ht).symm)⟩

/-! ## One step -/

/-- A step changes no count, or is granted. -/
theorem step_occupancy (r : Ring) (p : Primitive) :
    (r.step p).ring.occupancy = r.occupancy ∨
      p.Granted r.occupancy (r.step p).ring.occupancy := by
  cases p with
  | reserve d count =>
    simp only [step]
    split
    · exact .inl rfl
    · exact .inr (.reserve ‹_›)
  | commit d moved =>
    simp only [step]
    split
    · exact .inl rfl
    · exact .inr (.commit ‹_›)
  | skip count =>
    simp only [step, skip]
    split
    · exact .inl rfl
    · exact .inr (.skip ‹_›)
  | forget =>
    simp only [step]
    split
    · exact .inl rfl
    · exact .inr (.forget ‹_›)
  | putByte byte =>
    simp only [step, putByte]
    split
    · exact .inl rfl
    · exact .inr (.putByte ‹_›)
  | takeByte =>
    simp only [step, takeByte]
    split
    · exact .inl rfl
    · exact .inr (.takeByte ‹_›)
  | clear => exact .inl rfl
  | store cell data => exact .inl rfl

theorem size_step (r : Ring) (p : Primitive) : (r.step p).ring.storage.size = r.storage.size := by
  cases p with
  | reserve d count => simp only [step]; split <;> rfl
  | commit d moved => simp only [step]; split <;> rfl
  | skip count => simp only [step, skip]; split <;> rfl
  | forget => simp only [step]; split <;> rfl
  | putByte byte =>
    simp only [step, putByte]
    split
    · rfl
    · exact Storage.size_set ..
  | takeByte => simp only [step, takeByte]; split <;> rfl
  | clear => exact Storage.size_clear _
  | store cell data => exact Storage.size_write ..

theorem Sound.step_terms (h : r.Sound) (p : Primitive) :
    (r.step p).ring.occupancy.terms = r.occupancy.terms := by
  rcases r.step_occupancy p with he | hg
  · rw [he]
  · exact hg.terms h.coherent

/-- A step keeps a ring sound, whether it is granted or refused. -/
theorem Sound.step (h : r.Sound) {p : Primitive} (hp : p.Within r.occupancy) :
    (r.step p).ring.Sound := by
  refine h.of_terms ?_ (h.step_terms p) (size_step r p)
  rcases r.step_occupancy p with he | hg
  · rw [he]
    exact h.coherent
  · exact hg.coherent h.coherent hp

/-- What a direction holds is left alone by every step but its commit. -/
theorem Sound.step_leaves (h : r.Sound) {p : Primitive} {d : Direction}
    (hd : r.occupancy.held d ≠ none) (hp : ∀ moved, p ≠ .commit d moved) :
    r.occupancy.Leaves (r.step p).ring.occupancy d := by
  rcases r.step_occupancy p with he | hg
  · rw [he]
    exact .refl _ d
  · exact hg.leaves h.coherent hd hp

/-! ## Many steps -/

theorem Leads.trans {r₁ r₂ r₃ : Ring} (h : r₁.Leads r₂) (h' : r₂.Leads r₃) : r₁.Leads r₃ := by
  induction h' with
  | refl => exact h
  | step _ hp ih => exact ih.step hp

theorem Leads.sound (h : r.Leads r') (hr : r.Sound) : r'.Sound := by
  induction h with
  | refl => exact hr
  | step _ hp ih => exact ih.step hp

theorem Leads.terms (h : r.Leads r') (hr : r.Sound) : r'.occupancy.terms = r.occupancy.terms := by
  induction h with
  | refl => rfl
  | step hl _ ih => exact ((hl.sound hr).step_terms _).trans ih

/-- No step changes the number of cells. -/
theorem Leads.capacity (h : r.Leads r') : r'.capacity = r.capacity := by
  induction h with
  | refl => rfl
  | step _ _ ih => exact (size_step ..).trans ih

theorem Reachable.sound {capacity : Nat} {overwriting : Bool} (hc : 0 < capacity)
    (h : r.Reachable capacity overwriting) : r.Sound :=
  Leads.sound h (sound_vacant hc overwriting)

/-- **Reachable rings are coherent.** The counts of the occupancy agree with one another and with
both reservations; no cell that a put holds is readable or held by a take; and what a direction
holds stays as it is, at a cursor that does not move, until a commit of that direction. -/
theorem reachable_coherent {capacity : Nat} {overwriting : Bool} (hc : 1 ≤ capacity)
    (h : r.Reachable capacity overwriting) :
    r.occupancy.capacity = capacity ∧ r.occupancy.overwriting = overwriting ∧
    r.occupancy.head < capacity ∧ r.occupancy.tail < capacity ∧ r.occupancy.length ≤ capacity ∧
    r.occupancy.tail = (r.occupancy.head + r.occupancy.length) % capacity ∧
    (∀ region, r.occupancy.putting = some region →
      region.offset = r.occupancy.tail ∧ r.occupancy.length + region.count ≤ capacity) ∧
    (∀ region, r.occupancy.taking = some region →
      region.offset = r.occupancy.head ∧ region.count ≤ r.occupancy.length) ∧
    (∀ put, r.occupancy.putting = some put → ∀ i < put.count,
      (∀ j < r.occupancy.length, put.cell capacity i ≠ r.occupancy.readable.cell capacity j) ∧
      ∀ take, r.occupancy.taking = some take → ∀ j < take.count,
        put.cell capacity i ≠ take.cell capacity j) ∧
    (∀ d region, r.occupancy.held d = some region → ∀ p, (∀ moved, p ≠ .commit d moved) →
      (r.step p).ring.occupancy.held d = some region ∧
        (r.step p).ring.occupancy.cursor d = r.occupancy.cursor d) := by
  have hs := h.sound hc
  have hco := hs.coherent
  obtain ⟨rfl, rfl⟩ : r.occupancy.capacity = capacity ∧ r.occupancy.overwriting = overwriting :=
    Prod.mk.inj (Leads.terms h (sound_vacant hc overwriting))
  refine ⟨rfl, rfl, hco.head_lt, hco.tail_lt, hco.length_le, hco.tail_eq, hco.putting, hco.taking,
    fun put hp i hi => ⟨fun j hj => hco.put_disjoint hp hi hj, fun take ht j hj => ?_⟩,
    fun d region hd p hp => ?_⟩
  · obtain ⟨hoff, hcount⟩ := hco.taking take ht
    have := hco.put_disjoint hp hi (Nat.lt_of_lt_of_le hj hcount)
    simpa only [Region.cell, readable, hoff] using this
  · have := hs.step_leaves (hd ▸ Option.some_ne_none region) hp
    exact ⟨this.held.trans hd, this.cursor (hd ▸ Option.some_ne_none region)⟩

/-- Both directions hold a region, and that of the put passes the last cell. -/
theorem reachable_coherent_both_held :
    ∃ r : Ring, r.Reachable 4 false ∧ r.occupancy.putting = some ⟨3, 3⟩ ∧
      r.occupancy.taking = some ⟨2, 1⟩ ∧
      ∀ i < 3, Region.cell 4 ⟨3, 3⟩ i ≠ Region.cell 4 ⟨2, 1⟩ 0 := by
  have h₁ : Reachable 4 false _ := Leads.refl.step (p := .reserve .put 3) trivial
  have h₂ := h₁.step (p := .commit .put 3) fun region h => by cases h; decide
  have h₃ := h₂.step (p := .skip 2) trivial
  have h₄ := h₃.step (p := .reserve .put 3) trivial
  have h₅ := h₄.step (p := .reserve .take 1) trivial
  refine ⟨_, h₅, rfl, rfl, fun i hi => ?_⟩
  obtain ⟨_, _, _, _, _, _, _, _, hdisjoint, _⟩ := reachable_coherent (by decide) h₅
  exact (hdisjoint ⟨3, 3⟩ rfl i hi).2 ⟨2, 1⟩ rfl 0 (by decide)

/-! ## What leads from ring to ring -/

theorem reserve_ok {d : Direction} {count : Nat} {g : Grant} {events : List Event}
    (h : r.reserve d count = .ok (g, r', events)) :
    ∃ region o', r.occupancy.reserve d count = .ok (region, o') ∧ g = ⟨d, region, 0⟩ ∧
      r' = { r with occupancy := o' } ∧
      events = r.discards d count ++ [.reserved d region.offset count] := by
  unfold Ring.reserve at h
  cases hr : r.occupancy.reserve d count with
  | error e => simp [hr, Except.map] at h
  | ok v =>
    obtain ⟨region, o'⟩ := v
    simp only [hr, Except.map, Except.ok.injEq, Prod.mk.injEq] at h
    exact ⟨region, o', rfl, h.1.symm, h.2.1.symm, h.2.2.symm⟩

theorem commit_ok {g : Grant} {events : List Event} (h : r.commit g = .ok (r', events)) :
    ∃ o', r.occupancy.commit g.direction g.moved = .ok o' ∧ r' = { r with occupancy := o' } ∧
      events = [.committed g.direction g.region.count g.moved] := by
  unfold Ring.commit at h
  cases hr : r.occupancy.commit g.direction g.moved with
  | error f => simp [hr, Except.map] at h
  | ok o' =>
    simp only [hr, Except.map, Except.ok.injEq, Prod.mk.injEq] at h
    exact ⟨o', rfl, h.1.symm, h.2.symm⟩

theorem leads_reserve {d : Direction} {count : Nat} {g : Grant} {events : List Event}
    (h : r.reserve d count = .ok (g, r', events)) : r.Leads r' := by
  obtain ⟨region, o', hr, -, rfl, -⟩ := reserve_ok h
  have := Leads.refl.step (r := r) (p := .reserve d count) trivial
  simpa only [step, hr] using this

theorem leads_commit {g : Grant} {events : List Event}
    (hm : ∀ region, r.occupancy.held g.direction = some region → g.moved ≤ region.count)
    (h : r.commit g = .ok (r', events)) : r.Leads r' := by
  obtain ⟨o', hr, rfl, -⟩ := commit_ok h
  have := Leads.refl.step (r := r) (p := .commit g.direction g.moved) hm
  simpa only [step, hr] using this

theorem leads_write (r : Ring) (offset : Nat) (data : Bytes) :
    r.Leads { r with storage := r.storage.write offset data } :=
  Leads.refl.step (p := .store offset data) trivial

theorem leads_writeRegion (r : Ring) (region : Region) (data : Bytes) :
    r.Leads { r with storage := r.storage.writeRegion region data } :=
  (r.leads_write _ _).trans (leads_write _ _ _)

/-! ## Whole operations -/

/-- Reserves `count` bytes of a direction, works on all of their region in one piece and commits
it. -/
def moveWhole {α : Type} (r : Ring) (direction : Direction) (count : Nat)
    (work : Region → Storage → α × Storage) : Outcome α :=
  match r.reserve direction count with
  | .error e => .refuse r e
  | .ok (grant, reserved, opening) =>
    let (value, storage) := work grant.region reserved.storage
    let worked := { reserved with storage }
    match worked.commit { grant with moved := count } with
    | .error f => ⟨.error (.fault f), worked, opening⟩
    | .ok (committed, closing) => ⟨.ok value, committed, opening ++ closing⟩

/-- What is moved chunk by chunk is moved in one piece, if the chunks together come to that. -/
theorem Sound.moveAll_eq {α : Type} (h : r.Sound) {d : Direction} {count : Nat} {data : Bytes}
    {work : Span → Storage × Bytes → Storage × Bytes} {f : Bytes → α}
    {whole : Region → Storage → α × Storage}
    (hw : ∀ region : Region, region.offset < r.storage.size → region.count = count →
      region.count ≤ r.storage.size → ∃ data',
        (⟨d, region, 0⟩ : Grant).workOff r.storage.size work count (r.storage, data)
          = (.ok (), ⟨d, region, count⟩, (whole region r.storage).2, data') ∧
        f data' = (whole region r.storage).1) :
    (r.moveAll d count work data).map f = r.moveWhole d count whole := by
  unfold moveAll moveWhole
  cases hr : r.reserve d count with
  | error e => rfl
  | ok granted =>
    obtain ⟨g, reserved, opening⟩ := granted
    obtain ⟨region, o', hro, rfl, rfl, -⟩ := reserve_ok hr
    obtain ⟨-, hheld, hcount⟩ := h.coherent.reserve_held hro
    have hterms : o'.capacity = r.storage.size :=
      (congrArg Prod.fst (h.coherent.reserve_terms hro)).trans h.size_eq.symm
    obtain ⟨hoffset, hfits⟩ := (h.coherent.reserve hro).held_inside hheld
    obtain ⟨data', hwork, hf⟩ := hw region (hterms ▸ hoffset) hcount (hterms ▸ hfits)
    have hremaining : (⟨d, region, 0⟩ : Grant).remaining = count := hcount
    simp only [hremaining, capacity, hwork]
    cases commit ⟨o', (whole region r.storage).2⟩ ⟨d, region, count⟩ with
    | error f => rfl
    | ok committed =>
      rw [← hf]
      rfl

/-- A put fills its region as a whole. -/
theorem Sound.put_whole (h : r.Sound) (data : Bytes) :
    r.put data = r.moveWhole .put (r.trim data).length fun region storage =>
      ((), storage.writeRegion region (r.trim data)) := by
  refine h.moveAll_eq fun region ho hcount hc => ⟨[], ?_, rfl⟩
  rw [Grant.workOff_copyIn (g := ⟨.put, region, 0⟩) ho hc (Nat.zero_le _) (Nat.le_of_eq hcount)
    hcount.symm, Grant.rest_zero ho, hcount]

/-- A take reads its region as a whole. -/
theorem Sound.take_whole (h : r.Sound) (count : Nat) :
    r.take count = r.moveWhole .take count fun region storage =>
      (storage.readRegion region, storage) := by
  rw [← (r.take count).map_id]
  refine h.moveAll_eq fun region ho hcount hc => ⟨_, ?_, rfl⟩
  rw [Grant.workOff_copyOut (g := ⟨.take, region, 0⟩) ho hc (Nat.zero_le _) (Nat.le_of_eq hcount),
    Grant.rest_zero ho, hcount]
  rfl

theorem leads_moveWhole {α : Type} (h : r.Sound) {d : Direction} {count : Nat}
    {work : Region → Storage → α × Storage}
    (hw : ∀ (region : Region) (r : Ring),
      r.Leads { r with storage := (work region r.storage).2 }) :
    r.Leads (r.moveWhole d count work).ring := by
  unfold moveWhole
  split
  · exact .refl
  · rename_i g reserved opening hr
    have hl := (leads_reserve hr).trans (hw g.region reserved)
    obtain ⟨region, o', hro, rfl, rfl, -⟩ := reserve_ok hr
    obtain ⟨-, hheld, hcount⟩ := h.coherent.reserve_held hro
    dsimp only at hl ⊢
    split
    · exact hl
    · rename_i hc
      refine hl.trans (leads_commit (fun region' h' => ?_) hc)
      simp only [hheld, Option.some.injEq] at h'
      simp [← h', hcount]

theorem leads_reset {o : Occupancy} (h : r.occupancy.reset = .ok o) :
    r.Leads ⟨o, r.storage.clear⟩ := by
  have := (Leads.refl.step (r := r) (p := .forget) trivial).step (p := .clear) trivial
  simpa only [step, h] using this

theorem leads_put (h : r.Sound) (data : Bytes) : r.Leads (r.put data).ring := by
  rw [h.put_whole]
  exact leads_moveWhole h fun region r' => r'.leads_writeRegion region (r.trim data)

theorem leads_take (h : r.Sound) (count : Nat) : r.Leads (r.take count).ring := by
  rw [h.take_whole]
  exact leads_moveWhole h fun _ _ => .refl

/-- What an operation does to a ring, and what it reports: nothing, or it moves whole data, or it
makes one granted change. -/
inductive Does (r : Ring) : Ring → List Event → Prop
  | nothing : Does r r []
  | put (data : Bytes) : Does r (r.put data).ring (r.put data).events
  | take (count : Nat) : Does r (r.take count).ring (r.take count).events
  | putByte (byte : UInt8) {cell : Nat} {o : Occupancy} (h : r.occupancy.putOne = .ok (cell, o)) :
      Does r ⟨o, r.storage.set cell byte⟩ []
  | takeByte {cell : Nat} {o : Occupancy} (h : r.occupancy.takeOne = .ok (cell, o)) :
      Does r { r with occupancy := o } []
  | skip {count : Nat} {o : Occupancy} (h : r.occupancy.skip count = .ok o) :
      Does r { r with occupancy := o } []
  | reset {o : Occupancy} (h : r.occupancy.reset = .ok o) :
      Does r ⟨o, r.storage.clear⟩ [.cleared]
  | drain {o : Occupancy} (h : r.occupancy.reset = .ok o) :
      Does r ⟨o, r.storage.clear⟩ [.drained r.length]

theorem apply_does (r : Ring) (operation : Operation) :
    r.Does (r.apply operation).ring (r.apply operation).events := by
  cases operation with
  | put data => exact .put data
  | putByte byte =>
    simp only [apply, putByte, Outcome.map]
    split
    · exact .nothing
    · exact .putByte byte ‹_›
  | takeInto destination count =>
    simp only [apply, takeInto, Outcome.map]
    split
    · exact .nothing
    · exact .take count
  | takeList count =>
    simp only [apply, takeList, Outcome.map]
    split
    · exact .nothing
    · exact .take count
  | takeByte =>
    simp only [apply, takeByte, Outcome.map]
    split
    · exact .nothing
    · exact .takeByte ‹_›
  | skip count =>
    simp only [apply, skip, Outcome.map]
    split
    · exact .nothing
    · exact .skip ‹_›
  | reset =>
    simp only [apply, reset, Outcome.map]
    split
    · exact .nothing
    · exact .reset ‹_›
  | drain =>
    simp only [apply, drain, Outcome.map]
    split
    · exact .nothing
    · exact .drain ‹_›

/-- Whole operations are made of primitive steps. -/
theorem Does.leads {events : List Event} (hd : r.Does r' events) (h : r.Sound) : r.Leads r' := by
  cases hd with
  | nothing => exact .refl
  | put data => exact leads_put h data
  | take count => exact leads_take h count
  | putByte byte hr =>
    have := Leads.refl.step (r := r) (p := .putByte byte) trivial
    simpa only [step, Ring.putByte, hr, Outcome.map] using this
  | takeByte hr =>
    have := Leads.refl.step (r := r) (p := .takeByte) trivial
    simpa only [step, Ring.takeByte, hr, Outcome.map] using this
  | @skip count o hr =>
    have := Leads.refl.step (r := r) (p := .skip count) trivial
    simpa only [step, Ring.skip, hr, Outcome.map] using this
  | reset hr => exact leads_reset hr
  | drain hr => exact leads_reset hr

theorem leads_apply (h : r.Sound) (operation : Operation) : r.Leads (r.apply operation).ring :=
  (r.apply_does operation).leads h

end Ring

end CyclicBuffer
