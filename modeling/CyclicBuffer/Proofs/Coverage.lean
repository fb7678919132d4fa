import CyclicBuffer.Proofs.Calls

/-!
# What is counted and what was offered

A chunk ends at the last cell of the buffer, while the region that it is a part of may go on from
cell zero (`Ring.Sound.room_eq`). A report is compared with what is left of the region, not with the
chunk. So a stream that is called before the end of the buffer can have bytes behind it counted that
it was not offered. `Covers` says which ones these are, in terms of the marks that a transfer
leaves: the first ones behind the end of the buffer, as many as were reported in excess of an offer.
That can happen once, since every later chunk is all that is left.
-/

namespace CyclicBuffer

open Occupancy

/-! ## Offers among marks -/

namespace Mark

/-- What a call of the stream of a direction is offered when it begins. -/
def offering (d : Direction) : Mark → Option Offer
  | .offered e offer => if e = d then some offer else none
  | _ => none

/-- How many bytes more than it was offered the stream of a direction reports. -/
def excess (d : Direction) : Mark → Nat
  | .replied e offer _ (.moved count) => if e = d then count - offer.size else 0
  | _ => 0

end Mark

/-- What the calls of a direction were offered, each with the number of bytes that had been counted
when it began; at first they were `moved`. -/
def offersOf (d : Direction) (moved : Nat) : List Mark → List (Nat × Offer)
  | [] => []
  | mark :: marks =>
    (mark.offering d).toList.map (moved, ·) ++ offersOf d (moved + mark.reported d) marks

/-- How many bytes have been counted that a stream had reported beyond its offers. -/
def excessOf (d : Direction) (marks : List Mark) : Nat := (marks.map (Mark.excess d)).sum

section
variable {d : Direction} {marks more : List Mark}

theorem offersOf_append (d : Direction) (moved : Nat) (marks more : List Mark) :
    offersOf d moved (marks ++ more)
      = offersOf d moved marks ++ offersOf d (moved + reportedOf d marks) more := by
  induction marks generalizing moved with
  | nil => simp [offersOf, reportedOf]
  | cons mark marks ih =>
    simp only [List.cons_append, offersOf, ih, reportedOf_cons, List.append_assoc, Nat.add_assoc]

theorem excessOf_append (d : Direction) (marks more : List Mark) :
    excessOf d (marks ++ more) = excessOf d marks + excessOf d more := by
  simp [excessOf]

/-- Where no call begins, nothing is offered. -/
theorem offersOf_eq_nil (h : ∀ offer, .offered d offer ∉ marks) (moved : Nat) :
    offersOf d moved marks = [] := by
  induction marks generalizing moved with
  | nil => rfl
  | cons mark marks ih =>
    have hnone : mark.offering d = none := by
      cases mark with
      | offered e offer =>
        have hne : e ≠ d := by
          rintro rfl
          exact h offer (List.mem_cons_self ..)
        simp [Mark.offering, hne]
      | _ => rfl
    rw [offersOf, hnone, ih fun offer hmem => h offer (List.mem_cons_of_mem _ hmem)]
    rfl

/-- Where no call is answered, nothing is reported. -/
theorem excessOf_eq_zero (h : ∀ mark ∈ marks, ¬ mark.Replies d) : excessOf d marks = 0 := by
  induction marks with
  | nil => rfl
  | cons mark marks ih =>
    obtain ⟨hmark, hmarks⟩ := List.forall_mem_cons.1 h
    have hzero : mark.excess d = 0 := by
      cases mark with
      | replied e offer written reply =>
        have hne : e ≠ d := hmark
        cases reply <;> simp [Mark.excess, hne]
      | _ => rfl
    rw [excessOf, List.map_cons, List.sum_cons, hzero]
    exact (Nat.zero_add _).trans (ih hmarks)

end

/-! ## Covers -/

/-- A call was offered the `i`-th byte of the region. -/
def Covered (d : Direction) (marks : List Mark) (i : Nat) : Prop :=
  ∃ k offer, (k, offer) ∈ offersOf d 0 marks ∧ k ≤ i ∧ i < k + offer.size

/-- The last call that began is offered the next byte to be counted. -/
def Open (d : Direction) (marks : List Mark) : Prop :=
  ∃ offer, (reportedOf d marks, offer) ∈ offersOf d 0 marks

/-- How many bytes a call is offered when `moved` of the `count` bytes of a region have been
counted; the first `wrap` ones lie before the end of the buffer. -/
def reach (wrap count moved : Nat) : Nat :=
  if moved < wrap then min (count - moved) (wrap - moved) else count - moved

/-- How the bytes that are counted and those that were offered go together: as long as the bytes
before the end of the buffer are not all counted, none is counted that was not offered. Later those
are the first ones behind it. -/
structure Covers (wrap : Nat) (d : Direction) (marks : List Mark) : Prop where
  early : reportedOf d marks < wrap → excessOf d marks = 0 ∧ ∀ i, Covered d marks i → i < wrap
  late : wrap ≤ reportedOf d marks → wrap + excessOf d marks ≤ reportedOf d marks
  offered : ∀ i, Covered d marks i → i < wrap ∨ wrap + excessOf d marks ≤ i
  counted : ∀ i < reportedOf d marks, i < wrap ∨ wrap + excessOf d marks ≤ i → Covered d marks i

section
variable {d : Direction} {marks more : List Mark} {wrap count : Nat}

theorem Covered.append {i : Nat} (h : Covered d marks i) (more : List Mark) :
    Covered d (marks ++ more) i := by
  obtain ⟨k, offer, hmem, hi⟩ := h
  refine ⟨k, offer, ?_, hi⟩
  rw [offersOf_append]
  exact List.mem_append_left _ hmem

theorem covered_of_silent (h : ∀ offer, .offered d offer ∉ more) {i : Nat} :
    Covered d (marks ++ more) i ↔ Covered d marks i := by
  unfold Covered
  rw [offersOf_append, offersOf_eq_nil h, List.append_nil]

theorem covered_offered {offer : Offer} {i : Nat} :
    Covered d (marks ++ [.offered d offer]) i ↔ Covered d marks i ∨
      reportedOf d marks ≤ i ∧ i < reportedOf d marks + offer.size := by
  have hnew : offersOf d (0 + reportedOf d marks) [.offered d offer]
      = [(reportedOf d marks, offer)] := by
    simp [offersOf, Mark.offering]
  unfold Covered
  rw [offersOf_append, hnew]
  constructor
  · rintro ⟨k, o, hmem, hi⟩
    rcases List.mem_append.1 hmem with hold | hlast
    · exact .inl ⟨k, o, hold, hi⟩
    · cases List.mem_singleton.1 hlast
      exact .inr hi
  · rintro (⟨k, o, hold, hi⟩ | hi)
    · exact ⟨k, o, List.mem_append_left _ hold, hi⟩
    · exact ⟨_, _, List.mem_append_right _ (List.mem_singleton_self _), hi⟩

theorem Open.beside (h : Open d marks) (hmore : reportedOf d more = 0) :
    Open d (marks ++ more) := by
  obtain ⟨offer, hmem⟩ := h
  refine ⟨offer, ?_⟩
  rw [reportedOf_append, hmore, Nat.add_zero, offersOf_append]
  exact List.mem_append_left _ hmem

theorem Open.offered (d : Direction) (marks : List Mark) (offer : Offer) :
    Open d (marks ++ [.offered d offer]) := by
  refine ⟨offer, ?_⟩
  have hk : reportedOf d (marks ++ [.offered d offer]) = reportedOf d marks := by
    simp [reportedOf, Mark.reported]
  rw [hk, offersOf_append]
  refine List.mem_append_right _ ?_
  simp [offersOf, Mark.offering]

theorem covers_nil (wrap : Nat) (d : Direction) : Covers wrap d [] := by
  have hnone i : ¬ Covered d [] i := by
    rintro ⟨k, offer, hmem, -⟩
    cases hmem
  refine ⟨?_, ?_, ?_, ?_⟩
  · intro _
    exact ⟨rfl, fun i hi => absurd hi (hnone i)⟩
  · intro hw
    exact hw
  · intro i hi
    exact absurd hi (hnone i)
  · intro i hi
    exact absurd hi (Nat.not_lt_zero i)

/-- What does not concern the stream changes nothing. -/
theorem Covers.beside (h : Covers wrap d marks) (hoffer : ∀ offer, .offered d offer ∉ more)
    (hreported : reportedOf d more = 0) (hexcess : excessOf d more = 0) :
    Covers wrap d (marks ++ more) := by
  have hk : reportedOf d (marks ++ more) = reportedOf d marks := by
    rw [reportedOf_append, hreported, Nat.add_zero]
  have hx : excessOf d (marks ++ more) = excessOf d marks := by
    rw [excessOf_append, hexcess, Nat.add_zero]
  refine ⟨?_, ?_, ?_, ?_⟩
  · rw [hk, hx]
    simpa only [covered_of_silent hoffer] using h.early
  · rw [hk, hx]
    exact h.late
  · rw [hx]
    simpa only [covered_of_silent hoffer] using h.offered
  · rw [hk, hx]
    simpa only [covered_of_silent hoffer] using h.counted

/-- A call is offered what comes next, up to the end of the buffer. -/
theorem Covers.offer (h : Covers wrap d marks) {offer : Offer}
    (hsize : offer.size = reach wrap count (reportedOf d marks)) :
    Covers wrap d (marks ++ [.offered d offer]) := by
  have hk : reportedOf d (marks ++ [.offered d offer]) = reportedOf d marks := by
    simp [reportedOf, Mark.reported]
  have hx : excessOf d (marks ++ [.offered d offer]) = excessOf d marks := by
    simp [excessOf, Mark.excess]
  unfold reach at hsize
  refine ⟨?_, ?_, ?_, ?_⟩
  · rw [hk, hx]
    intro hlt
    obtain ⟨hnone, hbefore⟩ := h.early hlt
    refine ⟨hnone, fun i hi => ?_⟩
    rw [if_pos hlt] at hsize
    rcases covered_offered.1 hi with hi | hi
    · exact hbefore i hi
    · omega
  · rw [hk, hx]
    exact h.late
  · rw [hx]
    intro i hi
    rcases covered_offered.1 hi with hi | hi
    · exact h.offered i hi
    · by_cases hlt : reportedOf d marks < wrap
      · rw [if_pos hlt] at hsize
        omega
      · have hlate := h.late (Nat.le_of_not_lt hlt)
        omega
  · rw [hk, hx]
    intro i hi hout
    exact (h.counted i hi hout).append _

/-- A report of no more than is left is counted. What it has more than its call was offered lies
behind the end of the buffer. -/
theorem Covers.reply (h : Covers wrap d marks) (hopen : Open d marks)
    (hall : ∀ k offer, (k, offer) ∈ offersOf d 0 marks → offer.size = reach wrap count k)
    {offer : Offer} (hsize : offer.size = reach wrap count (reportedOf d marks))
    (written : Bytes) {reported : Nat} (hle : reported ≤ count - reportedOf d marks) :
    Covers wrap d (marks ++ [.replied d offer written (.moved reported)]) := by
  have hk : reportedOf d (marks ++ [.replied d offer written (.moved reported)])
      = reportedOf d marks + reported := by
    simp [reportedOf, Mark.reported]
  have hx : excessOf d (marks ++ [.replied d offer written (.moved reported)])
      = excessOf d marks + (reported - offer.size) := by
    simp [excessOf, Mark.excess]
  have hsilent i : Covered d (marks ++ [.replied d offer written (.moved reported)]) i
      ↔ Covered d marks i := covered_of_silent (by simp)
  -- the call that is answered was offered the bytes from here on
  have hcall i (hi : reportedOf d marks ≤ i) (hlt : i < reportedOf d marks + offer.size) :
      Covered d marks i := by
    obtain ⟨first, hfirst⟩ := hopen
    have hsame := hall _ _ hfirst
    exact ⟨_, first, hfirst, hi, by omega⟩
  simp only [reach] at hsize
  by_cases hlt : reportedOf d marks < wrap
  · obtain ⟨hnone, hbefore⟩ := h.early hlt
    rw [if_pos hlt] at hsize
    refine ⟨?_, ?_, ?_, ?_⟩
    · rw [hk, hx]
      intro hlt'
      exact ⟨by omega, fun i hi => hbefore i ((hsilent i).1 hi)⟩
    · rw [hk, hx]
      intro _
      omega
    · intro i hi
      exact .inl (hbefore i ((hsilent i).1 hi))
    · rw [hk, hx]
      intro i hi hout
      rw [hsilent]
      by_cases hold : i < reportedOf d marks
      · exact h.counted i hold (.inl (by omega))
      · exact hcall i (by omega) (by omega)
  · have hlate := h.late (Nat.le_of_not_lt hlt)
    rw [if_neg hlt] at hsize
    have hfits : reported - offer.size = 0 := by omega
    rw [hfits, Nat.add_zero] at hx
    refine ⟨?_, ?_, ?_, ?_⟩
    · rw [hk]
      intro hlt'
      omega
    · rw [hk, hx]
      intro _
      omega
    · rw [hx]
      intro i hi
      exact h.offered i ((hsilent i).1 hi)
    · rw [hk, hx]
      intro i hi hout
      rw [hsilent]
      by_cases hold : i < reportedOf d marks
      · exact h.counted i hold hout
      · exact hcall i (by omega) (by omega)

end

/-! ## Chunks -/

/-- A call is offered what is left, or what of it lies before the end of the buffer. -/
theorem Ring.Sound.room_eq {r : Ring} {g : Grant} {d : Direction} (hs : r.Sound)
    (hheld : r.occupancy.held d = some g.region) (hm : g.moved ≤ g.region.count) :
    r.room g = reach (r.capacity - g.region.offset) g.region.count g.moved := by
  have hoff : g.region.offset < r.capacity := hs.offset_lt hheld
  have hcount : g.region.count ≤ r.capacity := by
    rw [hs.capacity_eq]
    cases d with
    | put => exact Nat.le_trans (Nat.le_add_left ..) (hs.coherent.putting _ hheld).2
    | take => exact Nat.le_trans (hs.coherent.taking _ hheld).2 hs.coherent.length_le
  have hcell := cellAfter_eq hoff (Nat.le_trans hm hcount)
  have hroom : r.room g = min (g.region.count - g.moved)
      (r.capacity - cellAfter r.capacity g.region.offset g.moved) := rfl
  rw [hroom, hcell, reach]
  by_cases hlt : g.moved < r.capacity - g.region.offset
  · rw [if_pos hlt, if_pos (by omega), Nat.sub_add_eq]
  · rw [if_neg hlt, if_neg (by omega)]
    omega

end CyclicBuffer
