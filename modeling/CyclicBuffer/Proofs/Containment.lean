import CyclicBuffer.Proofs.Cancellation
import CyclicBuffer.Proofs.Reports

/-!
# Containing streams

Whatever a stream does, the transfer that calls it is contained. It changes cells of its own region
only (`Sound.stirs_cells`), a report of more than is left is not counted and ends it
(`Sound.overclaim`), and a commit makes public what the cells of the region hold, as many of them as
were reported (`Ring.Sound.contents_commit`). So the buffer stays coherent and what is public stays
as it is (`reachable_contains`).
-/

namespace CyclicBuffer

open Occupancy

/-! ## Whose steps write -/

namespace Session

variable {s s' : Session} {events : List Event}

theorem storage_update {place : Nat} {ring : Ring} (h : ring.storage = (s.ring place).storage)
    (events : List Event) (q : Nat) :
    ((s.update place ring events).ring q).storage = (s.ring q).storage := by
  by_cases hq : q = place
  · subst hq
    by_cases hp : q < s.rings.size
    · rw [s.ring_update_self hp, h]
    · simp only [update, note, Session.ring,
        Array.setIfInBounds_eq_of_size_le (Nat.le_of_not_lt hp)]
  · rw [s.ring_update_ne hq]

theorem storage_abandon {t : Transfer} (h : s.abandon t = .ok (s', events)) (q : Nat) :
    (s'.ring q).storage = (s.ring q).storage := by
  unfold abandon at h
  split at h
  · cases h
    rfl
  · rename_i g hg
    cases hc : (s.ring t.ring).commit g with
    | error f =>
      rw [hc] at h
      cases h
    | ok committed =>
      rw [hc] at h
      cases h
      obtain ⟨_, _, hring, -⟩ := Ring.commit_ok hc
      exact storage_update (by rw [hring]) _ q

theorem storage_addTask {id : Nat} {task : Task} (h : s.addTask id task = .ok (s', events))
    (q : Nat) : (s'.ring q).storage = (s.ring q).storage := by
  unfold addTask dropTask at h
  cases ht : s.task? id with
  | none =>
    simp only [ht, Except.map] at h
    cases h
    rfl
  | some old =>
    simp only [ht] at h
    cases hd : (s.removeTask id).abandon old.transfer with
    | error f =>
      rw [hd] at h
      cases h
    | ok dropped =>
      rw [hd] at h
      cases h
      exact storage_abandon hd q

end Session

namespace Machine

variable {m m' : Machine} {p : Passage} {g : Grant} {place : Nat} {d : Direction}
  {marks : List Mark}

theorem storage_settle (m : Machine) (p : Passage) (g : Grant) (ending : Ending) (q : Nat) :
    ((m.settle p g ending).session.ring q).storage = (m.session.ring q).storage := by
  refine Session.storage_update ?_ _ q
  unfold Ring.settle
  split
  · rfl
  · rename_i hc
    obtain ⟨_, _, hring, -⟩ := Ring.commit_ok hc
    rw [hring]

theorem storage_hear (m : Machine) (p : Passage) (g : Grant) (reply : Reply) (q : Nat) :
    ((m.hear p g reply).session.ring q).storage = (m.session.ring q).storage := by
  unfold hear
  split
  · rfl
  · exact m.storage_settle ..

theorem storage_wait (m : Machine) (p : Passage) (q : Polling) (place : Nat) :
    ((m.wait p q).session.ring place).storage = (m.session.ring place).storage := by
  unfold wait
  dsimp only
  split
  · rfl
  · split
    · rfl
    · rename_i hadd
      exact Session.storage_addTask hadd place

/-- The transfer in focus writes to no cell, or its source does to what it is offered. -/
theorem Sound.stirs_storage (hm : m.Sound) (hf : m.focus = .transfer p)
    (h : m.Stirs place marks m') (q : Nat) :
    (m'.session.ring q).storage = (m.session.ring q).storage ∨
      ∃ g written, p.transfer.grant = some g ∧ q = p.transfer.ring ∧
        (m.session.ring q).Accepts g written ∧
        (m'.session.ring q).storage = ((m.session.ring q).receive g written).storage := by
  have hknown := ((hm.orderly.works hf).custody.fits _ (List.mem_cons_self ..)).known
  have hreceive (g : Grant) (written : Bytes) :
      ((m.session.update p.transfer.ring
          ((m.session.ring p.transfer.ring).receive g written) []).ring q).storage
        = (m.session.ring q).storage ∨ q = p.transfer.ring ∧
      ((m.session.update p.transfer.ring
          ((m.session.ring p.transfer.ring).receive g written) []).ring q).storage
        = ((m.session.ring q).receive g written).storage := by
    by_cases hq : q = p.transfer.ring
    · subst hq
      exact .inr ⟨rfl, by rw [Session.ring_update_self _ hknown]⟩
    · exact .inl (by rw [Session.ring_update_ne _ hq])
  cases h with
  | step hs =>
    cases step_iff.1 hs with
    | resume hf' => cases hf.symm.trans hf'
    | obey hf' => cases hf.symm.trans hf'
    | start hf' hg =>
      cases hf.symm.trans hf'
      left
      unfold start
      dsimp only
      split
      · rfl
      · rename_i hr
        obtain ⟨_, _, -, -, hring, -⟩ := Ring.reserve_ok hr
        exact Session.storage_update (by rw [hring]) _ q
    | @turn _ g hf' hg hcall =>
      cases hf.symm.trans hf'
      rw [turn_eq]
      cases hr : p.respond g.direction ((m.session.ring p.transfer.ring).room g) with
      | mk response stream =>
        cases response with
        | answer written reply =>
          dsimp only
          rw [storage_hear]
          rcases hreceive g written with hsame | ⟨rfl, hwrites⟩
          · exact .inl hsame
          · exact .inr ⟨g, written, hg, rfl, Passage.respond_accepts hr, hwrites⟩
        | perform commands => exact .inl rfl
        | wait polling => exact .inl (storage_wait ..)
    | @offer _ g hf' hg hidle =>
      cases hf.symm.trans hf'
      left
      unfold offer
      split
      · exact storage_settle ..
      · rfl
  | scribble hw =>
    cases hw with
    | @write _ g data hf' hg hput hcall hfits =>
      cases hf.symm.trans hf'
      rcases hreceive g data with hsame | ⟨rfl, hwrites⟩
      · exact .inl hsame
      · refine .inr ⟨g, data, hg, rfl, ⟨hfits, fun ht => ?_⟩, hwrites⟩
        rw [hput] at ht
        cases ht

/-- The transfer in focus changes no cells but those of its own region, if it is a put, that are
not reported yet. -/
theorem Sound.stirs_cells (hm : m.Sound) (hf : m.focus = .transfer p)
    (h : m.Stirs place marks m') {q cell : Nat}
    (hne : (m'.session.ring q).storage.get cell ≠ (m.session.ring q).storage.get cell) :
    ∃ g, p.transfer.grant = some g ∧ g.direction = .put ∧ q = p.transfer.ring ∧
      ∃ i < g.region.count, g.moved ≤ i ∧
        cell = g.region.cell (m.session.ring q).capacity i := by
  rcases hm.stirs_storage hf h q with hsame | ⟨g, written, hg, hq, ⟨hw, hnone⟩, hstorage⟩
  · exact absurd (by rw [hsame]) hne
  · rw [hstorage] at hne
    refine ⟨g, hg, ?_, hq, ?_⟩
    · cases hd : g.direction with
      | put => rfl
      | take =>
        rw [hnone hd] at hne
        exact absurd rfl hne
    · by_contra hout
      refine hne (Ring.get_receive_ne _ hw fun i hi hmoved he => hout ⟨i, hi, hmoved, he⟩)

/-- A count beyond what is left breaks a rule, and ends the transfer without being counted. -/
theorem Sound.overclaim (hm : m.Sound) (hf : m.focus = .transfer p)
    (hg : p.transfer.grant = some g) (hcall : p.current.isSome) {written : Bytes} {count : Nat}
    {stream : List Turn}
    (hr : p.respond g.direction ((m.session.ring p.transfer.ring).room g)
      = (.answer written (.moved count), stream)) (hcount : g.remaining < count) :
    ∃ m', m.step = some m' ∧ m'.grants p.transfer.ring g.direction = [] ∧
      m'.Finishes ((m.session.ring p.transfer.ring).receive g written) p g
        (.error (.fault .pastEnd)) (p.calls ++ p.current.toList) := by
  have hh : g.hear (.moved count) = (g, some (.fault .pastEnd)) := by
    cases count with
    | zero => exact absurd hcount (Nat.not_lt_zero _)
    | succ n => simp only [Grant.hear, Grant.advance, if_pos hcount]
  obtain ⟨m', hs, hend⟩ := hm.reply_ends hf hg hcall hr hh
  exact ⟨m', hs, (hm.step hs).orderly.custody.grants_of_held hend.publishes.free, hend⟩

end Machine

/-! ## What is made public -/

/-- A commit makes public what the first cells of the region hold, or releases them. -/
theorem Ring.Sound.contents_commit {r r' : Ring} {g : Grant} {events : List Event} (hs : r.Sound)
    (hheld : r.occupancy.held g.direction = some g.region) (hm : g.moved ≤ g.region.count)
    (hc : r.commit g = .ok (r', events)) :
    r'.contents
      = g.direction.moves r.contents (r.storage.around g.region.offset g.moved) := by
  have hfits region (hr : r.occupancy.held g.direction = some region) :
      g.moved ≤ region.count := by
    cases hheld.symm.trans hr
    exact hm
  cases hd : g.direction with
  | put =>
    rw [hd] at hfits hheld
    rw [hs.contents_commitPut hd hfits hc, hs.stretch_eq, ← (hs.coherent.putting _ hheld).1]
    rfl
  | take =>
    rw [hd] at hfits
    rw [hs.contents_commitTake hd hfits hc, Direction.moves, Storage.length_around]

namespace Machine

/-- A transfer that holds a region of a ring is contained, whatever its stream does: the ring was
`before` when the region was granted, and these marks have been left on it since then. -/
structure Contains (m : Machine) (place : Nat) (d : Direction) (region : Region) (before : Ring)
    (marks : List Mark) : Prop where
  coherent : (m.session.ring place).occupancy.Coherent
  /-- What the stream reports is counted, and it is no more than was granted. -/
  counted : m.grants place d = [⟨d, region, reportedOf d marks⟩] ∧
    reportedOf d marks ≤ region.count
  /-- A report beyond that is not counted: it breaks a rule and ends the transfer. -/
  overclaim : ∀ p written count stream, m.focus = .transfer p → p.transfer.holds place d →
    p.current.isSome →
    p.respond d ((m.session.ring place).room ⟨d, region, reportedOf d marks⟩)
      = (.answer written (.moved count), stream) →
    region.count - reportedOf d marks < count →
    ∃ m' calls polls standing events, m.step = some m' ∧ m'.grants place d = [] ∧
      m'.focus = .commands p.todo
        (p.done ++ [⟨.settled (.error (.fault .pastEnd)) calls polls, standing, events⟩]) ∧
      Fault.pastEnd.text = "attempted to advance past end of reservation"
  /-- Whatever the transfer does next, it changes no cells of any ring but those of its own region,
  if it is a put, that have not been reported. -/
  own : ∀ p, m.focus = .transfer p → p.transfer.holds place d →
    ∀ origin more m', m.Stirs origin more m' → ∀ q cell,
      (m'.session.ring q).storage.get cell ≠ (m.session.ring q).storage.get cell →
      d = .put ∧ q = place ∧ ∃ i < region.count, reportedOf d marks ≤ i ∧
        cell = region.cell before.capacity i
  /-- While it is a put that holds the region, nobody else writes to the ring, nothing is
  published, and what is readable is what it left when it was granted its region. -/
  put : d = .put → before.Inked region 0 marks (m.session.ring place) ∧ enteredOf marks = [] ∧
    leftOf marks ++ (m.session.ring place).contents
      = before.contents.drop (before.length + region.count - before.capacity)
  /-- While it is a take that holds the region, what was readable stays so. -/
  take : d = .take → (m.session.ring place).contents = before.contents ++ enteredOf marks
  /-- When the transfer is over, what it has counted is made public or released: the first so many
  cells of the region, with the bytes that they hold. -/
  commits : ∀ m', m.step = some m' → m'.grants place d = [] →
    (m.session.ring place).occupancy.commit d (reportedOf d marks)
      = .ok (m'.session.ring place).occupancy ∧
    (m'.session.ring place).storage = (m.session.ring place).storage ∧
    (m'.session.ring place).contents = d.moves (m.session.ring place).contents
      ((m.session.ring place).storage.around region.offset (reportedOf d marks)) ∧
    (m'.session.ring place).occupancy.Coherent

variable {m₀ m₁ m₂ : Machine} {p : Passage} {d : Direction} {g : Grant} {ring : Ring}
  {events : List Event} {past marks : List Mark} {origin : Nat}

/-- **Streams are contained.** Let a transfer be granted a region, wherever commands and unruly
sources have led. That writes to no cell. From then on until the transfer is over it is contained,
whatever its stream writes and reports and whatever else is done. -/
theorem reachable_contains {tokens : Tokens} {commands : List Command}
    (h₀ : (load tokens commands).Roams origin past m₀) (hf : m₀.focus = .transfer p)
    (hnew : p.transfer.grant = none) (hd : p.transfer.request.purpose.direction = d)
    (hr : (m₀.session.ring p.transfer.ring).reserve d p.transfer.request.count
      = .ok (g, ring, events))
    (hs : m₀.step = some m₁) (hroams : m₁.Roams p.transfer.ring marks m₂)
    (hlive : ∀ mark ∈ marks, ¬ mark.Ends d) :
    g.region.count = p.transfer.request.count ∧
    (∀ q, (m₁.session.ring q).storage = (m₀.session.ring q).storage) ∧
    m₂.Contains p.transfer.ring d g.region (m₀.session.ring p.transfer.ring) marks := by
  have hm₀ := h₀.sound_load
  have hm₁ := hm₀.step hs
  have hm₂ := hroams.sound hm₁
  obtain ⟨hp₀, hp₁, hring, hg, -⟩ := hm₀.starts hf hnew rfl hd hr hs
  have hs₀ := hm₀.orderly.custody.sound hp₀
  have hs₁ := hm₁.orderly.custody.sound hp₁
  have hk₁ := hm₁.orderly.custody.keeps p.transfer.ring
  obtain ⟨hp₂, hds⟩ := hroams.deeds hm₁ hp₁
  have hs₂ := hm₂.orderly.custody.sound hp₂
  have hk₂ := hm₂.orderly.custody.keeps p.transfer.ring
  have hcount := (Ring.reserve_grant hr).2.1
  obtain ⟨region, -, -, hgrant, -, -⟩ := Ring.reserve_ok hr
  have hstorage (q : Nat) :
      (m₁.session.ring q).storage = (m₀.session.ring q).storage := by
    have hstart : m₀.Stirs origin (m₀.marks origin) m₁ := .step hs
    rcases hm₀.stirs_storage hf hstart q with hsame | ⟨g', -, hg', -⟩
    · exact hsame
    · cases hnew.symm.trans hg'
  have hcap₁ : (m₁.session.ring p.transfer.ring).capacity
      = (m₀.session.ring p.transfer.ring).capacity := congrArg Storage.size (hstorage _)
  have hcap₂ := (hroams.capacity hm₁ hp₁).trans hcap₁
  subst hgrant
  have hcounts : m₂.grants p.transfer.ring d = [⟨d, region, reportedOf d marks⟩] := by
    rw [hroams.counts hm₁ hp₁ hg hlive, Nat.zero_add]
  have hle : reportedOf d marks ≤ region.count :=
    hk₂.moved_le d ⟨d, region, reportedOf d marks⟩ (by
      rw [show grantsOf m₂.transfers p.transfer.ring d = _ from hcounts]
      exact List.mem_singleton_self _)
  have hgrant {q : Passage} (hfq : m₂.focus = .transfer q)
      (hholds : q.transfer.holds p.transfer.ring d) :
      q.transfer.ring = p.transfer.ring ∧
        q.transfer.grant = some ⟨d, region, reportedOf d marks⟩ := by
    obtain ⟨hq, hgq, -⟩ := hm₂.grant_eq (focus_mem hfq) hholds hcounts
    exact ⟨hq, hgq⟩
  refine ⟨hcount, hstorage, hs₂.coherent, ⟨hcounts, hle⟩, ?overclaim, ?own, ?put, ?take, ?commits⟩
  case overclaim =>
    intro q written count stream hfq hholds hcall hrespond hlt
    obtain ⟨hq, hgq⟩ := hgrant hfq hholds
    rw [← hq] at hrespond ⊢
    obtain ⟨m₃, hs₃, hover, hend⟩ := hm₂.overclaim hfq hgq hcall hrespond hlt
    obtain ⟨polls, standing, events, hfocus, -⟩ := hend.answer
    exact ⟨m₃, _, polls, standing, events, hs₃, hover, hfocus, rfl⟩
  case own =>
    intro q hfq hholds place more m₃ hstir other cell hne
    obtain ⟨hq, hgq⟩ := hgrant hfq hholds
    obtain ⟨g', hg', hput, hother, i, hi, hmoved, hcell⟩ := hm₂.stirs_cells hfq hstir hne
    cases hgq.symm.trans hg'
    rw [hother, hq, hcap₂] at hcell
    exact ⟨hput, hother.trans hq, i, hi, hmoved, hcell⟩
  case put =>
    rintro rfl
    obtain ⟨hbeyond, hwithin⟩ := hroams.ink hm₁ hp₁ hg hlive
    rw [hcap₁, hstorage] at hbeyond hwithin
    have hentered := hds.entered_eq_nil hs₁ hk₁ hg hlive
    refine ⟨⟨hbeyond, hwithin⟩, hentered, ?_⟩
    rw [hds.conserves hs₁ hk₁, hentered, List.append_nil, hring, hs₀.contents_reservePut hr,
      hs₀.capacity_eq, hcount]
    rfl
  case take =>
    rintro rfl
    have hconserves := hds.conserves hs₁ hk₁
    rwa [hds.left_eq_nil hs₁ hk₁ hg hlive, List.nil_append, hring,
      hs₀.contents_reserveTake hr] at hconserves
  case commits =>
    intro m₃ hs₃ hover
    have hm₃ := hm₂.step hs₃
    obtain ⟨events, hc⟩ := (hm₂.exits hs₃ hp₂ hcounts hover).commit_eq
    have hp₃ := Nat.lt_of_lt_of_le hp₂ (step_course hm₂.orderly hm₂.steady hs₃).size
    obtain ⟨o₃, ho₃, hring₃, -⟩ := Ring.commit_ok hc
    refine ⟨by rw [hring₃]; exact ho₃, by rw [hring₃], ?_,
      (hm₃.orderly.custody.sound hp₃).coherent⟩
    have hheld : (m₂.session.ring p.transfer.ring).occupancy.held d = some region :=
      hk₂.held_eq hcounts
    exact hs₂.contents_commit hheld hle hc

/-- A source of three bytes claims two in its first call, which offers it one cell, and then two
more. -/
def lyingFill : List Command :=
  [.on 0 (.errand (.create ⟨4, false, none⟩)), .on 0 (.errand (.operate (.put [1, 2, 3]))),
    .on 0 (.errand (.operate (.skip 2))), .on 0 (.transfer ⟨.fill, 3⟩ [.claim 2, .claim 2])]

theorem reachable_contains_lyingFill :
    ((load .plain lyingFill).after 8).grants 0 .put = [⟨.put, ⟨3, 3⟩, 2⟩] ∧
      (((load .plain lyingFill).after 9).session.ring 0).contents = [3] ++ [0, 1] ∧
      ∃ m done calls polls standing events, ((load .plain lyingFill).after 8).step = some m ∧
        m.focus = .commands []
          (done ++ [⟨.settled (.error (.fault .pastEnd)) calls polls, standing, events⟩]) := by
  have hsteps : ((load .plain lyingFill).after 5).Roams 0
      (((load .plain lyingFill).after 5).chronicle 0 3) ((load .plain lyingFill).after 8) :=
    (passes_after _ 0 3).roams
  obtain ⟨-, -, hcontains⟩ :=
    reachable_contains (passes_after (load .plain lyingFill) 0 4).roams rfl rfl rfl rfl rfl hsteps
      (by decide +kernel)
  obtain ⟨m, calls, polls, standing, events, hs, -, hfocus, -⟩ :=
    hcontains.overclaim _ [] 2 [] rfl rfl rfl rfl (by decide +kernel)
  obtain ⟨-, -, hcontents, -⟩ := hcontains.commits ((load .plain lyingFill).after 9) rfl rfl
  exact ⟨hcontains.counted.1, hcontents, m, _, calls, polls, standing, events, hs, hfocus⟩

end Machine

end CyclicBuffer
