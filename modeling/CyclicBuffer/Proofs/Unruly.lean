import CyclicBuffer.Proofs.Transit

/-!
# Unruly streams

The script of a stream fixes when it answers and with what count, and what a source writes with that
answer. A source need not be so orderly: while it is called it can write to what it was offered, in
as many goes as it likes, whatever it reports later, if it reports anything at all. `Scribbles` is
such a write, and a machine `Roams` by its own steps and by these.

A scribble changes cells that the put in focus holds, and nothing else. So a machine that roams is
sound all the same (`Roams.sound`), what happens leaves true marks on each of its rings
(`Roams.deeds`), and every region is in custody (`reachable_custody`).
-/

namespace CyclicBuffer

/-- The mark of a source that writes without an answer. To its ring it looks like a call that was
interrupted. -/
def Ring.scribbled (r : Ring) (g : Grant) (data : Bytes) : Mark :=
  .replied g.direction (r.offer g) data (.failed (.bare .interrupted))

namespace Machine

/-- The source of the transfer in focus writes to what its call was offered; the marks are those on
the ring at a place. -/
inductive Scribbles (place : Nat) (m : Machine) : List Mark → Machine → Prop
  | write {p : Passage} {g : Grant} {data : Bytes} (focus : m.focus = .transfer p)
      (grant : p.transfer.grant = some g) (put : g.direction = .put) (call : p.current.isSome)
      (fits : data.length ≤ (m.session.ring p.transfer.ring).room g) :
      Scribbles place m
        (marksAt p.transfer.ring [(m.session.ring p.transfer.ring).scribbled g data] place)
        { m with
          session := m.session.update p.transfer.ring
            ((m.session.ring p.transfer.ring).receive g data) [] }

/-- A machine goes on: it makes a step, or its source scribbles. -/
inductive Stirs (place : Nat) (m : Machine) : List Mark → Machine → Prop
  | step {m' : Machine} (h : m.step = some m') : Stirs place m (m.marks place) m'
  | scribble {marks : List Mark} {m' : Machine} (h : m.Scribbles place marks m') :
      Stirs place m marks m'

/-- A machine goes on again and again, and leaves these marks on the ring at a place. -/
inductive Roams (place : Nat) (m : Machine) : List Mark → Machine → Prop
  | refl : Roams place m [] m
  | stir {marks more : List Mark} {m₁ m₂ : Machine} :
      Roams place m marks m₁ → m₁.Stirs place more m₂ → Roams place m (marks ++ more) m₂

variable {m m' : Machine} {p : Passage} {g : Grant} {place origin : Nat} {d : Direction}
  {marks past : List Mark}

/-- Steps alone are one way to roam. -/
theorem Passes.roams (h : m.Passes place marks m') : m.Roams place marks m' := by
  induction h with
  | refl => exact .refl
  | step _ hs ih => exact ih.stir (.step hs)

/-! ## Scribbles -/

/-- A scribble happens on the ring of the source alone. -/
theorem Sound.scribble_course (hm : m.Sound) (hf : m.focus = .transfer p)
    (hg : p.transfer.grant = some g) (hput : g.direction = .put) (hcall : p.current.isSome)
    {data : Bytes} (hfits : data.length ≤ (m.session.ring p.transfer.ring).room g) :
    Course (marksAt p.transfer.ring [(m.session.ring p.transfer.ring).scribbled g data]) m.session
      m.transfers
      (m.session.update p.transfer.ring ((m.session.ring p.transfer.ring).receive g data) [])
      m.transfers := by
  obtain ⟨hmore, -⟩ := (hm.steady.focus p hf).in_call hg hcall
  have haccepts : (m.session.ring p.transfer.ring).Accepts g data :=
    ⟨hfits, fun ht => by rw [hput] at ht; cases ht⟩
  have htransfers : m.transfers = p.transfer :: m.back := by
    simp [transfers, hf, Focus.transfers]
  rw [htransfers]
  exact (hm.orderly.works hf).custody.course_reply hg hmore haccepts
    (.failed (.bare .interrupted)) rfl hg

theorem Scribbles.orderly (h : m.Scribbles place marks m') (hm : m.Sound) : m'.Orderly := by
  cases h with
  | @write p g data hf hg hput hcall hfits =>
    have hworks := hm.orderly.works hf
    have hknown := (hworks.custody.fits _ (List.mem_cons_self ..)).known
    have hquiet := hm.orderly.custody.receive hknown g data
    refine ⟨hquiet.custody, ⟨hm.orderly.calm.focus, hm.orderly.calm.suspended⟩, fun q d => ?_⟩
    have hledger := hm.orderly.ledger q d
    rwa [← hquiet.ledger q d] at hledger

/-- A scribble reserves and commits nothing. -/
theorem Scribbles.books (h : m.Scribbles place marks m') (hm : m.Sound) (q : Nat) (d : Direction) :
    m'.session.ledger q d = m.session.ledger q d ∧ m'.grants q d = m.grants q d := by
  cases h with
  | @write p g data hf hg hput hcall hfits =>
    have hworks := hm.orderly.works hf
    have hknown := (hworks.custody.fits _ (List.mem_cons_self ..)).known
    exact ⟨(hm.orderly.custody.receive hknown g data).ledger q d, rfl⟩

/-- Every call that is under way is still offered what it was, in whichever direction. -/
theorem Scribbles.steady (h : m.Scribbles place marks m') (hm : m.Sound) : m'.Steady := by
  cases h with
  | @write p g data hf hg hput hcall hfits =>
    have hcourse := hm.scribble_course hf hg hput hcall hfits
    have hsteady {q : Passage} (hq : q ∈ m.passages) :
        q.Steady (m.session.update p.transfer.ring
          ((m.session.ring p.transfer.ring).receive g data) []) := by
      refine (Passage.Follows.refl q).steady (hm.passage hq) fun gq hgq => ?_
      have hmem := mem_transfers hq
      have hknown := (hm.orderly.custody.fits _ hmem).known
      have hgrants := hm.orderly.custody.grants_of_mem hmem hgq
      refine (hcourse.deeds _ hknown).offer_eq (hm.orderly.custody.sound hknown)
        (hm.orderly.custody.keeps _) hgrants hgrants ?_
      intro mark hmark
      unfold marksAt at hmark
      split at hmark
      · rw [List.mem_singleton.1 hmark]
        exact id
      · cases hmark
    refine ⟨fun q hfq => hsteady ?_, fun q hq => ?_, hm.steady.tasks⟩
    · simp [passages, show m.focus = .transfer q from hfq]
    · exact ⟨(hm.steady.suspended q hq).1, hsteady (List.mem_append_right _ hq)⟩

/-! ## Roaming machines -/

theorem Stirs.sound (h : m.Stirs place marks m') (hm : m.Sound) : m'.Sound := by
  cases h with
  | step hs => exact hm.step hs
  | scribble hw => exact ⟨hw.orderly hm, hw.steady hm⟩

/-- What a machine does when it goes on leaves true marks on each of its rings. -/
theorem Stirs.deeds (h : m.Stirs place marks m') (hm : m.Sound)
    (hp : place < m.session.rings.size) :
    place < m'.session.rings.size ∧
      Deeds (m.session.ring place) (m.grants place) marks (m'.session.ring place)
        (m'.grants place) := by
  cases h with
  | step hs =>
    have hcourse := step_course hm.orderly hm.steady hs
    exact ⟨Nat.lt_of_lt_of_le hp hcourse.size, hcourse.deeds place hp⟩
  | scribble hw =>
    cases hw with
    | write hf hg hput hcall hfits =>
      have hcourse := hm.scribble_course hf hg hput hcall hfits
      exact ⟨Nat.lt_of_lt_of_le hp hcourse.size, hcourse.deeds place hp⟩

theorem Roams.sound (h : m.Roams place marks m') (hm : m.Sound) : m'.Sound := by
  induction h with
  | refl => exact hm
  | stir _ hstir ih => exact hstir.sound ih

theorem Roams.deeds (h : m.Roams place marks m') (hm : m.Sound)
    (hp : place < m.session.rings.size) :
    place < m'.session.rings.size ∧
      Deeds (m.session.ring place) (m.grants place) marks (m'.session.ring place)
        (m'.grants place) := by
  induction h with
  | refl => exact ⟨hp, .nil⟩
  | stir hroams hstir ih =>
    obtain ⟨hp', hds⟩ := hstir.deeds (hroams.sound hm) ih.1
    exact ⟨hp', ih.2.append hds⟩

/-- All that is true of sound machines is true wherever commands and unruly sources lead. -/
theorem Roams.sound_load {tokens : Tokens} {commands : List Command}
    (h : (load tokens commands).Roams place marks m) : m.Sound :=
  h.sound (Machine.sound_load tokens commands)

/-- The rings of a session are rings that operations, reservations, writes and commits lead to. So
whatever holds of all of these holds of the rings of a session, too. -/
theorem Roams.ring {tokens : Tokens} {commands : List Command}
    (h : (load tokens commands).Roams origin past m) (hp : place < m.session.rings.size) :
    ∃ capacity overwriting, 1 ≤ capacity ∧
      (m.session.ring place).Reachable capacity overwriting :=
  h.sound_load.orderly.custody.reachable place hp

/-- A ring keeps its capacity. -/
theorem Roams.capacity (h : m.Roams place marks m') (hm : m.Sound)
    (hp : place < m.session.rings.size) :
    (m'.session.ring place).capacity = (m.session.ring place).capacity :=
  (h.deeds hm hp).2.capacity (hm.orderly.custody.sound hp) (hm.orderly.custody.keeps place)

/-- At every moment a transfer with an honest stream has the bytes that its calls tell of. -/
theorem Roams.carries (h : m.Roams place marks m') (hm : m.Sound)
    (hp : place < m.session.rings.size) (hg : m.grants place d = [g])
    (hc : (m.session.ring place).Carries d ⟨g, []⟩) (hlive : ∀ mark ∈ marks, ¬ mark.Ends d)
    (hh : ∀ mark ∈ marks, mark.Honest d) :
    ∃ g', m'.grants place d = [g'] ∧ g'.region = g.region ∧
      (m'.session.ring place).Carries d ⟨g', carriedOf d marks⟩ :=
  (h.deeds hm hp).2.carries (hm.orderly.custody.sound hp) (hm.orderly.custody.keeps place) hg hc
    hlive hh

/-- As long as a transfer is not over, its direction is held for the same request. -/
theorem Roams.same_request (h : m.Roams place marks m') (hm : m.Sound)
    (hp : place < m.session.rings.size) (hg : m.grants place d = [g])
    (hlive : ∀ mark ∈ marks, ¬ mark.Ends d) {t : Transfer} (ht : t ∈ m.transfers)
    (hh : t.holds place d) :
    ∀ t' ∈ m'.transfers, t'.holds place d → t'.request = t.request := by
  induction h with
  | refl =>
    intro t' ht' hh'
    rw [holder_unique hg ht' hh' ht hh]
  | @stir past more m₁ m₂ hroams hstir ih =>
    rw [List.forall_mem_append] at hlive
    cases hstir with
    | scribble hw =>
      cases hw
      exact ih hlive.1
    | step hs =>
      obtain ⟨g₁, hg₁, -⟩ := (hroams.deeds hm hp).2.goes_on hg hlive.1
      obtain ⟨t₁, ht₁, -⟩ := grantsOf_eq_singleton.1 hg₁
      have hmem : t₁ ∈ holders m₁.transfers place d := by simp [ht₁]
      obtain ⟨hmem₁, hh₁⟩ := List.mem_filter.1 hmem
      intro t' ht' hh'
      rw [(hroams.sound hm).same_request_step hs hg₁ hmem₁ hh₁ ht' hh']
      exact ih hlive.1 t₁ hmem₁ hh₁

/-- No ring is ever larger than memory. -/
theorem Roams.capacity_le {tokens : Tokens} {commands : List Command}
    (h : (load tokens commands).Roams place marks m) (q : Nat) :
    (m.session.ring q).capacity ≤ Ring.maxSize := by
  induction h with
  | refl => exact Nat.zero_le _
  | stir hroams hstir ih =>
    have hm := hroams.sound_load
    cases hstir with
    | step hs => exact (step_course hm.orderly hm.steady hs).bounded q ih
    | scribble hw =>
      cases hw with
      | write hf hg hput hcall hfits =>
        exact (hm.scribble_course hf hg hput hcall hfits).bounded q ih

/-! ## Custody -/

/-- **No direction is ever stuck.** Whatever commands a session is given, and whatever the streams
of its transfers do and write: a direction of a ring is held exactly while one live transfer holds a
grant of it, and then for the region of that grant. Each step is booked: a grant appears with its
reservation, and goes with one commit, which counts what the transfer has moved; what a source
writes in between books nothing. So no commit ever finds its direction idle, and where no transfer
that has begun is left both directions are idle. -/
theorem reachable_custody {tokens : Tokens} {commands : List Command}
    (h : (load tokens commands).Roams origin past m) :
    (∀ place d region, (m.session.ring place).occupancy.held d = some region ↔
      ∃ t g, holders m.transfers place d = [t] ∧ t.grant = some g ∧ g.region = region) ∧
    (∀ t ∈ m.transfers, ∀ g, t.grant = some g →
      g.direction = t.request.purpose.direction ∧ g.moved ≤ g.region.count) ∧
    (∀ m', m.step = some m' → ∀ place d, ∃ new,
      m'.session.ledger place d = m.session.ledger place d ++ new ∧
      Booked m.Whole d (m.grants place d) new (m'.grants place d)) ∧
    (∀ q marks m', m.Scribbles q marks m' → ∀ place d,
      m'.session.ledger place d = m.session.ledger place d ∧ m'.grants place d = m.grants place d) ∧
    (∀ place d, Ledger d (m.session.ledger place d) (m.grants place d)) ∧
    (∀ place, (∀ t ∈ m.transfers, t.ring = place → t.grant = none) →
      (m.session.ring place).occupancy.putting = none ∧
      (m.session.ring place).occupancy.taking = none) ∧
    (∀ a ∈ m.answers, a.Calm) ∧
    ∀ a ∈ perform tokens commands, a.Calm := by
  have hm := h.sound_load
  have ho := hm.orderly
  refine ⟨?_, ?_, ?_, fun q marks m' hw => hw.books hm, ho.ledger, ?_, ho.calm.answers,
    (reaches_run (load tokens commands)).orderly.calm.answers⟩
  · intro place d region
    have hheld := ho.custody.held place d
    constructor
    · intro hr
      rw [hr] at hheld
      obtain ⟨g, hgs, hregion⟩ := List.map_eq_singleton_iff.1 hheld
      obtain ⟨t, ht, hg⟩ := grantsOf_eq_singleton.1 hgs
      exact ⟨t, g, ht, hg, hregion⟩
    · rintro ⟨t, g, ht, hg, rfl⟩
      rw [grantsOf_eq_singleton.2 ⟨t, ht, hg⟩] at hheld
      exact Option.toList_eq_singleton_iff.1 hheld.symm
  · intro t ht g hg
    have hfit := ho.custody.fits t ht
    exact ⟨hfit.direction g hg, hfit.moved_le g hg⟩
  · intro m' hs place d
    exact (step_goes ho.custody ho.calm hs).shift.booked place d
  · intro place hidle
    have hnone d : (m.session.ring place).occupancy.held d = none := by
      have hgs : grantsOf m.transfers place d = [] := by
        refine grantsOf_eq_nil.2 (List.filter_eq_nil_iff.2 ?_)
        intro t ht hh
        simp only [Transfer.holds, Bool.and_eq_true, beq_iff_eq] at hh
        rw [hidle t ht hh.1] at hh
        exact absurd hh.2 Bool.false_ne_true
      have hheld := ho.custody.held place d
      rw [hgs] at hheld
      exact Option.toList_eq_nil_iff.1 hheld.symm
    exact ⟨hnone .put, hnone .take⟩

/-- A put waits with one of its two bytes. -/
def waitingPut : List Command :=
  [.on 0 (.errand (.create ⟨4, false, none⟩)), .on 0 (.spawn 1 ⟨.fill, 2⟩
    [.deliver [7], .suspend false] 0), .on 0 (.poll 1)]

theorem reachable_custody_waitingPut :
    ∃ m, (load .plain waitingPut).Reaches m ∧ (m.session.ring 0).occupancy.putting = some ⟨0, 2⟩ ∧
      ∃ t g, holders m.transfers 0 .put = [t] ∧ t.grant = some g ∧ g.region = ⟨0, 2⟩ := by
  have hreach := reaches_after (load .plain waitingPut) 8
  have hheld : (((load .plain waitingPut).after 8).session.ring 0).occupancy.held .put
      = some ⟨0, 2⟩ := by decide +kernel
  exact ⟨_, hreach, hheld, ((reachable_custody (passes_after _ 0 8).roams).1 0 .put ⟨0, 2⟩).1 hheld⟩

end Machine

end CyclicBuffer
