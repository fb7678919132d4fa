import CyclicBuffer.Proofs.Exits
import CyclicBuffer.Proofs.Unruly
import Mathlib.Algebra.Ring.Nat

/-!
# What streams report and what they write

A stream decides what it writes and what it reports, and nothing says that the two agree. What it
reports is counted, as long as the transfer goes on (`Roams.counts`). What it writes goes to cells
of its own region, where for each cell the byte that was written last stays (`Roams.ink`).
-/

namespace CyclicBuffer

open Occupancy

/-! ## Reports and ink -/

namespace Mark

/-- The stream of the transfer of a direction answers a call. -/
def Replies (d : Direction) : Mark → Prop
  | .replied e _ _ _ => e = d
  | _ => False

/-- The number of bytes that the stream of a direction reports as moved. -/
def reported (d : Direction) : Mark → Nat
  | .replied e _ _ (.moved count) => if e = d then count else 0
  | _ => 0

/-- What the source of a put writes to the `i`-th cell of its region, when `moved` cells have been
reported. -/
def ink (moved i : Nat) : Mark → Option UInt8
  | .replied .put _ written _ => if moved ≤ i then written[i - moved]? else none
  | _ => none

variable {d : Direction} {mark : Mark}

theorem ne_replied (h : ¬ mark.Replies d) (offer : Offer) (written : Bytes) (reply : Reply) :
    mark ≠ .replied d offer written reply := by
  rintro rfl
  exact h rfl

theorem reported_eq_zero (h : ¬ mark.Replies d) : mark.reported d = 0 := by
  cases mark with
  | replied e offer written reply =>
    have he : e ≠ d := h
    cases reply <;> simp [reported, he]
  | _ => rfl

theorem ink_eq_none (h : ¬ mark.Replies .put) (moved i : Nat) : mark.ink moved i = none := by
  cases mark with
  | replied e offer written reply =>
    cases e with
    | put => exact absurd rfl h
    | take => rfl
  | _ => rfl

end Mark

/-- The sum of what the stream of a direction reports. -/
def reportedOf (d : Direction) (marks : List Mark) : Nat := (marks.map (Mark.reported d)).sum

/-- The byte that the source of a put has last written to the `i`-th cell of its region, if it has
written any; at first `moved` cells had been reported. -/
def inkOf (moved i : Nat) : List Mark → Option UInt8
  | [] => none
  | mark :: marks => (inkOf (moved + mark.reported .put) i marks).or (mark.ink moved i)

theorem reportedOf_cons (d : Direction) (mark : Mark) (marks : List Mark) :
    reportedOf d (mark :: marks) = mark.reported d + reportedOf d marks := by
  simp [reportedOf]

theorem reportedOf_append (d : Direction) (marks more : List Mark) :
    reportedOf d (marks ++ more) = reportedOf d marks + reportedOf d more := by
  simp [reportedOf]

theorem inkOf_append (moved i : Nat) (marks more : List Mark) :
    inkOf moved i (marks ++ more)
      = (inkOf (moved + reportedOf .put marks) i more).or (inkOf moved i marks) := by
  induction marks generalizing moved with
  | nil => simp [inkOf, reportedOf]
  | cons mark marks ih =>
    simp only [List.cons_append, inkOf, ih, reportedOf_cons, Option.or_assoc, Nat.add_assoc]

section
variable {d : Direction} {marks : List Mark}

theorem reportedOf_eq_zero (h : ∀ mark ∈ marks, ¬ mark.Replies d) : reportedOf d marks = 0 := by
  induction marks with
  | nil => rfl
  | cons mark marks ih =>
    obtain ⟨hmark, hmarks⟩ := List.forall_mem_cons.1 h
    rw [reportedOf_cons, Mark.reported_eq_zero hmark, ih hmarks]

theorem inkOf_eq_none (h : ∀ mark ∈ marks, ¬ mark.Replies .put) (moved i : Nat) :
    inkOf moved i marks = none := by
  induction marks generalizing moved with
  | nil => rfl
  | cons mark marks ih =>
    obtain ⟨hmark, hmarks⟩ := List.forall_mem_cons.1 h
    rw [inkOf, ih hmarks, Mark.ink_eq_none hmark, Option.or_none]

end

/-! ## Deeds without replies -/

section
variable {r r' : Ring} {gs gs' : Direction → List Grant} {marks : List Mark} {g : Grant}
  {d : Direction}

/-- Without a call of its stream a transfer that is not over has the same grant, and no cell of a
ring is written while a put holds its region. -/
theorem Deeds.without_replies (h : Deeds r gs marks r' gs') (hs : r.Sound) (hk : r.Keeps gs)
    (hg : gs d = [g]) (hlive : ∀ mark ∈ marks, ¬ mark.Ends d)
    (hquiet : ∀ mark ∈ marks, ¬ mark.Replies d) :
    gs' d = [g] ∧ (d = .put → r'.storage = r.storage) := by
  induction h with
  | nil => exact ⟨hg, fun _ => rfl⟩
  | @snoc marks mark _ _ _ _ hds hd ih =>
    rw [List.forall_mem_append] at hlive hquiet
    obtain ⟨hg₁, hstorage⟩ := ih hlive.1 hquiet.1
    have hother := Mark.ne_replied (hquiet.2 mark (by simp))
    obtain ⟨-, hk₁⟩ := hds.leads hs hk
    refine ⟨hd.grant_eq hg₁ (hlive.2 mark (by simp)) hother, ?_⟩
    rintro rfl
    rw [hd.storage_eq hk₁ hg₁ hother, hstorage rfl]

/-- What a call that is answered does to its ring and to its grant. -/
theorem Deed.of_replied {offer : Offer} {written : Bytes} {reply : Reply}
    (h : Deed r gs (.replied d offer written reply) r' gs') (hg : gs d = [g]) :
    r.Accepts g written ∧ r' = r.receive g written ∧ gs' d = [(g.hear reply).1] := by
  generalize hmark : Mark.replied d offer written reply = mark at h
  cases h with
  | @reply g₁ written' held more haccepts reply' =>
    cases hmark
    obtain rfl : g₁ = g := by simpa [held] using hg
    exact ⟨haccepts, rfl, Function.update_self ..⟩
  | operate operation =>
    unfold Ring.operated at hmark
    split at hmark <;> cases hmark
  | @begin e => cases e <;> cases hmark
  | @finish g₁ =>
    unfold Ring.finished at hmark
    split at hmark <;> cases hmark
  | _ => cases hmark

theorem Deeds.of_single {mark : Mark} (h : Deeds r gs [mark] r' gs') : Deed r gs mark r' gs' := by
  generalize hmarks : [mark] = marks at h
  cases h with
  | nil => cases hmarks
  | @snoc marks mark' _ _ _ _ hds hd =>
    obtain ⟨rfl, rfl⟩ : marks = [] ∧ mark' = mark := by
      simpa [List.append_eq_singleton_iff] using hmarks.symm
    generalize hnil : ([] : List Mark) = marks at hds
    cases hds with
    | nil => exact hd
    | snoc => simp at hnil

end

/-! ## Steps with a reply -/

section
variable {d : Direction} {mark : Mark}

theorem Ring.finished_silent (r : Ring) (g : Grant) (ending : Option Ending) :
    ¬ (r.finished g ending).Replies d := by
  unfold finished
  split <;> exact id

/-- A task that is let go leaves the mark of its end. -/
theorem Session.mem_dropped {s : Session} {id place : Nat} (h : mark ∈ s.dropped id place) :
    ∃ e bytes ending, mark = .ended e bytes ending := by
  unfold dropped at h
  split at h
  · cases h
  · unfold parted marksAt at h
    split at h
    · obtain ⟨g, -, rfl⟩ := List.mem_map.1 h
      unfold Ring.finished
      split <;> exact ⟨_, _, _, rfl⟩
    · cases h

/-- A command that is done at once carries out an operation, or lets a task go. -/
theorem Session.mem_marks {s : Session} {name place : Nat} {action : Action}
    (h : mark ∈ s.marks name place action) :
    (∃ left entered, mark = .operated left entered) ∨
      ∃ e bytes ending, mark = .ended e bytes ending := by
  unfold marks at h
  split at h
  · split at h
    · rw [List.mem_singleton.1 h]
      unfold Ring.operated
      split <;> exact .inl ⟨_, _, rfl⟩
    · cases h
  · exact .inr (mem_dropped h)
  · split at h
    · exact .inr (mem_dropped h)
    · cases h
  · cases h

theorem Session.dropped_silent {s : Session} {id place : Nat} (h : mark ∈ s.dropped id place) :
    ¬ mark.Replies d := by
  obtain ⟨e, bytes, ending, rfl⟩ := mem_dropped h
  exact not_false

theorem Session.marks_silent {s : Session} {name place : Nat} {action : Action}
    (h : mark ∈ s.marks name place action) : ¬ mark.Replies d := by
  obtain ⟨left, entered, rfl⟩ | ⟨e, bytes, ending, rfl⟩ := mem_marks h
  · exact not_false
  · exact not_false

/-- A transfer whose stream answers with its next step is in a call, and the step is no more than
that answer. -/
theorem Passage.marks_replies {p : Passage} {r : Ring} {s : Session}
    (h : mark ∈ p.marks r s) (hd : mark.Replies d) :
    ∃ g written reply, p.transfer.grant = some g ∧ g.direction = d ∧
      p.marks r s = r.answered g written reply ∧ p.parks? r = none := by
  cases hg : p.transfer.grant with
  | none =>
    simp only [marks, hg] at h
    split at h
    · cases h
    · rw [List.mem_singleton.1 h] at hd
      unfold Ring.begun at hd
      split at hd <;> cases hd
  | some g =>
    simp only [marks, parks?, hg] at h ⊢
    split at h
    · rename_i hcall
      simp only [hcall, if_true]
      cases hr : p.respond g.direction (r.room g) with
      | mk response stream =>
        simp only [hr] at h ⊢
        cases response with
        | answer written reply =>
          refine ⟨g, written, reply, rfl, ?_, rfl, rfl⟩
          rcases List.mem_cons.1 h with rfl | h
          · exact hd
          · split at h
            · cases h
            · rw [List.mem_singleton.1 h] at hd
              exact absurd hd (Ring.finished_silent _ _ _)
        | perform commands => cases h
        | wait q =>
          rw [List.mem_singleton.1 h] at hd
          cases hd
    · split at h <;> rw [List.mem_singleton.1 h] at hd
      · exact absurd hd (Ring.finished_silent _ _ _)
      · cases hd

end

namespace Machine

variable {m m' : Machine} {p : Passage} {g : Grant} {place : Nat} {d : Direction}
  {marks : List Mark}

/-- A stream that answers without an end to its transfer is the only one to act on its ring. -/
theorem Stirs.replies (h : m.Stirs place marks m') (hm : m.Sound) (hg : m.grants place d = [g])
    (hlive : ∀ mark ∈ marks, ¬ mark.Ends d) :
    (∀ mark ∈ marks, ¬ mark.Replies d) ∨
      ∃ written reply, marks = [.replied d ((m.session.ring place).offer g) written reply] ∧
        (g.hear reply).2 = none := by
  have hsame {q : Passage} {g' : Grant} (hf : m.focus = .transfer q) (hq : q.transfer.ring = place)
      (hg' : q.transfer.grant = some g') (hd : g'.direction = d) : g' = g := by
    have hholds : q.transfer.holds place d := by simp [Transfer.holds, hq, hg', hd]
    obtain ⟨-, hgrant, -⟩ := hm.grant_eq (focus_mem hf) hholds hg
    exact Option.some.inj (hg'.symm.trans hgrant)
  refine or_iff_not_imp_left.2 fun hquiet => ?_
  obtain ⟨mark, hmem, hmark⟩ : ∃ mark ∈ marks, mark.Replies d := by
    by_contra hnone
    exact hquiet fun mark hmem hmark => hnone ⟨mark, hmem, hmark⟩
  cases h with
  | step hs =>
    unfold Machine.marks at hmem hlive ⊢
    split at hmem
    · cases hmem
    · exact absurd hmark (Session.marks_silent hmem)
    · rename_i q hf
      rcases List.mem_append.1 hmem with hown | hother
      · unfold marksAt at hown
        split at hown
        · rename_i hq
          obtain ⟨g', written, reply, hg', hd, hmarks, hparks⟩ := Passage.marks_replies hown hmark
          obtain rfl := hsame hf hq hg' hd
          subst hq hd
          simp only [hf, hparks, hmarks, marksAt, if_true, List.append_nil, Ring.answered]
            at hlive ⊢
          cases hh : g'.hear reply with
          | mk g₁ ending =>
            cases ending with
            | none => exact ⟨written, reply, rfl, by rw [hh]⟩
            | some ending =>
              obtain ⟨rfl, -⟩ := hear_ending hh
              simp only [hh] at hlive
              exact absurd (Ring.ends_finished.2 rfl)
                (hlive _ (List.mem_cons_of_mem _ (List.mem_singleton_self _)))
        · cases hown
      · split at hother
        · cases hother
        · exact absurd hmark (Session.dropped_silent hother)
  | scribble hw =>
    cases hw with
    | @write q g' data hf hg' hput hcall hfits =>
      unfold marksAt at hmem ⊢
      split at hmem
      · rename_i hq
        rw [List.mem_singleton.1 hmem] at hmark
        obtain rfl := hsame hf hq hg' hmark
        obtain rfl : g'.direction = d := hmark
        subst hq
        exact ⟨data, _, by rw [if_pos rfl]; rfl, rfl⟩
      · cases hmem

end Machine

/-! ## What is counted -/

/-- A reply that keeps a transfer going counts what it reports. -/
theorem Grant.hear_reported {g : Grant} {reply : Reply} (h : (g.hear reply).2 = none)
    (d : Direction) (offer : Offer) (written : Bytes) :
    (g.hear reply).1
      = { g with moved := g.moved + (Mark.replied d offer written reply).reported d } := by
  cases reply with
  | moved count =>
    simp only [Mark.reported, if_true]
    exact hear_moved (le_of_hear_count h)
  | _ => rfl

namespace Machine

variable {m m' : Machine} {p : Passage} {g : Grant} {place : Nat} {d : Direction}
  {marks : List Mark}

/-- A transfer that goes on has moved what its stream reports. -/
theorem Stirs.counts (h : m.Stirs place marks m') (hm : m.Sound)
    (hp : place < m.session.rings.size) (hg : m.grants place d = [g])
    (hlive : ∀ mark ∈ marks, ¬ mark.Ends d) :
    m'.grants place d = [{ g with moved := g.moved + reportedOf d marks }] := by
  obtain ⟨-, hds⟩ := h.deeds hm hp
  rcases h.replies hm hg hlive with hquiet | ⟨written, reply, rfl, hnone⟩
  · obtain ⟨hg', -⟩ := hds.without_replies (hm.orderly.custody.sound hp)
      (hm.orderly.custody.keeps place) hg hlive hquiet
    rw [hg', reportedOf_eq_zero hquiet, Nat.add_zero]
  · obtain ⟨-, -, hg'⟩ := hds.of_single.of_replied hg
    rw [hg', Grant.hear_reported hnone d ((m.session.ring place).offer g) written, reportedOf_cons]
    rfl

theorem Roams.counts (h : m.Roams place marks m') (hm : m.Sound)
    (hp : place < m.session.rings.size) (hg : m.grants place d = [g])
    (hlive : ∀ mark ∈ marks, ¬ mark.Ends d) :
    m'.grants place d = [{ g with moved := g.moved + reportedOf d marks }] := by
  induction h with
  | refl => exact hg
  | stir hroams hstir ih =>
    rw [List.forall_mem_append] at hlive
    rw [hstir.counts (hroams.sound hm) (hroams.deeds hm hp).1 (ih hlive.1) hlive.2,
      reportedOf_append, Nat.add_assoc]

end Machine

/-! ## What is written -/

namespace Ring

variable {r : Ring} {g : Grant} {written : Bytes}

/-- The cells of a ring while a put holds a region: beyond the region they are as they were, and in
it they hold what the source has written to them last, or else what they held. -/
structure Inked (r : Ring) (region : Region) (moved : Nat) (marks : List Mark) (r' : Ring) :
    Prop where
  beyond : ∀ cell, (∀ i < region.count, cell ≠ region.cell r.capacity i) →
    r'.storage.get cell = r.storage.get cell
  within : ∀ i < region.count, r'.storage.get (region.cell r.capacity i)
    = (inkOf moved i marks).getD (r.storage.get (region.cell r.capacity i))

/-- What a source writes goes to cells of its region that are not reported yet. -/
theorem get_receive_ne (r : Ring) (hw : written.length ≤ r.room g) {cell : Nat}
    (hne : ∀ i < g.region.count, g.moved ≤ i → cell ≠ g.region.cell r.capacity i) :
    (r.receive g written).storage.get cell = r.storage.get cell := by
  refine Storage.get_write_ne _ fun i hi => ?_
  obtain ⟨hcell, hlt⟩ := chunk_cell (Nat.lt_of_lt_of_le hi hw)
  rw [hcell]
  exact hne _ hlt (Nat.le_add_right ..)

/-- In the cells of its region there is what a source writes to them, and else what was there. -/
theorem Sound.get_receive (hs : r.Sound) (hheld : r.occupancy.putting = some g.region)
    (hw : written.length ≤ r.room g) {i : Nat} (hi : i < g.region.count) (offer : Offer)
    (reply : Reply) :
    (r.receive g written).storage.get (g.region.cell r.capacity i)
      = ((Mark.replied .put offer written reply).ink g.moved i).getD
          (r.storage.get (g.region.cell r.capacity i)) := by
  obtain ⟨-, hfits⟩ := hs.coherent.putting _ hheld
  have hoff' : g.region.offset < r.capacity := hs.offset_lt (d := .put) hheld
  have hcap := hs.capacity_eq
  simp only [Mark.ink]
  by_cases hin : g.moved ≤ i ∧ i - g.moved < written.length
  · obtain ⟨hcell, -⟩ := chunk_cell (Nat.lt_of_lt_of_le hin.2 hw)
    rw [Nat.add_sub_cancel' hin.1] at hcell
    rw [if_pos hin.1, List.getElem?_eq_getElem hin.2, Option.getD_some, ← hcell]
    refine Storage.get_write _ hin.2 ?_
    rw [hcell]
    exact cellAfter_lt hoff' i
  · have hnone : (if g.moved ≤ i then written[i - g.moved]? else none) = none := by
      split
      · exact List.getElem?_eq_none (by omega)
      · rfl
    rw [hnone, Option.getD_none]
    refine Storage.get_write_ne _ fun j hj => ?_
    obtain ⟨hcell, hlt⟩ := chunk_cell (Nat.lt_of_lt_of_le hj hw)
    rw [hcell]
    intro he
    have := cellAfter_inj hoff' (by omega) (by omega) he
    omega

end Ring

namespace Machine

variable {m m' : Machine} {p : Passage} {g : Grant} {place : Nat} {d : Direction}
  {marks : List Mark}

/-- Nobody but its source writes to a ring while a put is under way. -/
theorem Stirs.ink (h : m.Stirs place marks m') (hm : m.Sound) (hp : place < m.session.rings.size)
    (hg : m.grants place .put = [g]) (hlive : ∀ mark ∈ marks, ¬ mark.Ends .put) :
    (m.session.ring place).Inked g.region g.moved marks (m'.session.ring place) := by
  obtain ⟨-, hds⟩ := h.deeds hm hp
  have hs := hm.orderly.custody.sound hp
  have hk := hm.orderly.custody.keeps place
  rcases h.replies hm hg hlive with hquiet | ⟨written, reply, rfl, -⟩
  · obtain ⟨-, hstorage⟩ := hds.without_replies hs hk hg hlive hquiet
    refine ⟨fun _ _ => by rw [hstorage rfl], fun i _ => ?_⟩
    rw [hstorage rfl, inkOf_eq_none hquiet, Option.getD_none]
  · obtain ⟨⟨hw, -⟩, hring, -⟩ := hds.of_single.of_replied hg
    rw [hring]
    refine ⟨fun cell hne => Ring.get_receive_ne _ hw fun i hi _ => hne i hi, fun i hi => ?_⟩
    rw [hs.get_receive (hk.held_eq hg) hw hi ((m.session.ring place).offer g) reply]
    rfl

theorem Roams.ink (h : m.Roams place marks m') (hm : m.Sound) (hp : place < m.session.rings.size)
    (hg : m.grants place .put = [g]) (hlive : ∀ mark ∈ marks, ¬ mark.Ends .put) :
    (m.session.ring place).Inked g.region g.moved marks (m'.session.ring place) := by
  induction h with
  | refl => exact ⟨fun _ _ => rfl, fun _ _ => rfl⟩
  | stir hroams hstir ih =>
    rw [List.forall_mem_append] at hlive
    obtain ⟨hout, hin⟩ := ih hlive.1
    obtain ⟨hout', hin'⟩ := hstir.ink (hroams.sound hm) (hroams.deeds hm hp).1
      (hroams.counts hm hp hg hlive.1) hlive.2
    rw [hroams.capacity hm hp] at hout' hin'
    refine ⟨fun cell hne => (hout' cell hne).trans (hout cell hne), fun i hi => ?_⟩
    rw [hin' i hi, hin i hi, inkOf_append, Option.getD_or]

end Machine

end CyclicBuffer
