import CyclicBuffer.Proofs.Agreement
import CyclicBuffer.Proofs.Unruly

/-!
# Removing bytes

A ring is asked for its oldest bytes by skipping them, by taking them into a list or a destination,
and by sending them to a stream. All four look at the same conditions, and so they are refused for
the same reason (`reachable_removes`). Only the list asks for memory before it looks at anything: a
count that no list can have is a fault there, where the others answer with an error.
-/

namespace CyclicBuffer

open Occupancy

/-! ## One reason for all -/

/-- Why the oldest `count` bytes cannot be taken: somebody else is taking, or there are too few. -/
inductive Occupancy.Withholds (o : Occupancy) (count : Nat) : Error → Prop
  | busy : o.taking.isSome → Withholds o count (.operationInProgress .take)
  | short : o.taking = none → o.length < count →
      Withholds o count (.insufficientContent count o.length)

theorem Occupancy.withholds_iff {o : Occupancy} {count : Nat} {e : Error} :
    o.Withholds count e ↔ o.checkTake count = .error e := by
  unfold checkTake
  constructor
  · intro h
    cases h with
    | busy ht => rw [if_pos ht]
    | short ht hc => rw [ht, if_neg (by simp), if_pos hc]
  · intro h
    by_cases ht : o.taking.isSome = true
    · rw [if_pos ht] at h
      cases h
      exact .busy ht
    rw [if_neg ht] at h
    by_cases hc : o.length < count
    · rw [if_pos hc] at h
      cases h
      exact .short (Option.isNone_iff_eq_none.1 (by simpa using ht)) hc
    · rw [if_neg hc] at h
      cases h

namespace Ring

variable {r : Ring} {count : Nat} {e : Error}

theorem skip_refused (h : r.occupancy.Withholds count e) : r.skip count = .refuse r e := by
  rw [skip, Occupancy.skip, withholds_iff.1 h]
  rfl

theorem takeInto_refused (h : r.occupancy.Withholds count e) {destination : Bytes}
    (hroom : count ≤ destination.length) : r.takeInto destination count = .refuse r e := by
  rw [takeInto, if_neg (Nat.not_lt.2 hroom), take_of_error (withholds_iff.1 h)]
  rfl

theorem takeList_refused (h : r.occupancy.Withholds count e) :
    r.takeList count = if maxSize < count then .fail r (.fault .tooLarge) else .refuse r e := by
  rw [takeList, take_of_error (withholds_iff.1 h)]

theorem reserve_refused (h : r.occupancy.Withholds count e) :
    r.reserve .take count = .error e := by
  rw [Ring.reserve, Occupancy.reserve, reserveTake, withholds_iff.1 h]
  rfl

/-- A list of bytes that are there is never too long. -/
theorem Sound.takeList_granted (h : r.Sound) (hm : r.capacity ≤ maxSize)
    (ht : r.occupancy.taking = none) (hc : count ≤ r.length) :
    (r.takeList count).result = .ok (r.contents.take count) ∧
      (r.takeList count).ring.contents = r.contents.drop count := by
  have hlen : r.length ≤ r.capacity := by
    rw [h.capacity_eq]
    exact h.coherent.length_le
  rw [takeList, if_neg (by omega)]
  exact h.take_of_ok (checkTake_ok.2 ⟨ht, hc⟩)

end Ring

namespace Machine

variable {m : Machine} {name place : Nat}

/-- **Removals agree on what they refuse.** Whatever is under way, also where sources write what
they do not report: if nobody else is taking and the oldest `count` bytes are there, they can be
taken into a list, in order, and are gone. Otherwise there is one reason why they cannot. Skipping
them, taking them into a destination that is long enough and sending them to a sink all answer it,
and leave the ring as it was; so does taking them into a list, if a list can be that long. If it
cannot, that is a fault, whatever the ring contains. -/
theorem reachable_removes {tokens : Tokens} {commands : List Command} {origin : Nat}
    {before : List Mark} (h : (load tokens commands).Roams origin before m)
    (hp : m.session.place? name = some place) (count : Nat) :
    let r := m.session.ring place
    (r.occupancy.taking = none → count ≤ r.length →
      (r.takeList count).result = .ok (r.contents.take count) ∧
        (r.takeList count).ring.contents = r.contents.drop count) ∧
    (¬ (r.occupancy.taking = none ∧ count ≤ r.length) → ∃ e, r.occupancy.Withholds count e) ∧
    (∀ e, r.occupancy.Withholds count e →
      r.skip count = .refuse r e ∧
      (∀ destination : Bytes, count ≤ destination.length →
        r.takeInto destination count = .refuse r e) ∧
      (∀ stream todo done,
        m.focus = .commands (.on name (.transfer ⟨.send, count⟩ stream) :: todo) done →
        ∃ m', m.CarriesOut place todo done (.error (.error e)) [] r m') ∧
      (count ≤ Ring.maxSize → r.takeList count = .refuse r e)) ∧
    ((∃ f, (r.takeList count).result = .error (.fault f)) ↔ Ring.maxSize < count) := by
  have hm := h.sound_load
  have hs := hm.orderly.custody.sound
    (hm.orderly.custody.named _ (Session.mem_of_place? hp))
  intro r
  have hgranted : r.occupancy.taking = none → count ≤ r.length → _ :=
    hs.takeList_granted (h.capacity_le place)
  have hwithheld : ¬ (r.occupancy.taking = none ∧ count ≤ r.length) →
      ∃ e, r.occupancy.Withholds count e := by
    intro hno
    by_cases ht : r.occupancy.taking = none
    · exact ⟨_, .short ht (Nat.lt_of_not_le fun hle => hno ⟨ht, hle⟩)⟩
    · exact ⟨_, .busy (Option.isSome_iff_ne_none.2 ht)⟩
  refine ⟨hgranted, hwithheld, ?_, ?_⟩
  · intro e he
    refine ⟨Ring.skip_refused he, fun destination => Ring.takeInto_refused he, ?_, ?_⟩
    · intro stream todo done hf
      exact carriesOut_refused hp hf (Ring.reserve_refused he)
    · intro hc
      rw [Ring.takeList_refused he, if_neg (Nat.not_lt.2 hc)]
  · constructor
    · rintro ⟨f, hf⟩
      by_cases hok : r.occupancy.taking = none ∧ count ≤ r.length
      · rw [(hgranted hok.1 hok.2).1] at hf
        cases hf
      · obtain ⟨e, he⟩ := hwithheld hok
        rw [Ring.takeList_refused he] at hf
        by_cases hbig : Ring.maxSize < count
        · exact hbig
        · rw [if_neg hbig] at hf
          cases hf
    · intro hbig
      exact ⟨.tooLarge, by rw [Ring.takeList, if_pos hbig]; rfl⟩

/-- A take waits for its sink while two more bytes are to be sent. -/
def secondSend : List Command :=
  [.on 0 (.errand (.create ⟨4, false, some [1, 2, 3]⟩)),
    .on 0 (.spawn 1 ⟨.send, 1⟩ [.suspend false] 0), .on 0 (.poll 1),
    .on 0 (.transfer ⟨.send, 2⟩ [])]

theorem reachable_removes_secondSend :
    let m := (load .plain secondSend).after 6
    let e := Error.operationInProgress .take
    (m.session.ring 0).skip 2 = .refuse (m.session.ring 0) e ∧
      (m.session.ring 0).takeList 2 = .refuse (m.session.ring 0) e ∧
      ∃ m', m.CarriesOut 0 [] m.answers (.error (.error e)) [] (m.session.ring 0) m' := by
  have hplace : ((load .plain secondSend).after 6).session.place? 0 = some 0 := rfl
  obtain ⟨-, -, hrefused, -⟩ :=
    reachable_removes (passes_after (load .plain secondSend) 0 6).roams hplace 2
  obtain ⟨hskip, -, hsend, hlist⟩ := hrefused _ (.busy rfl)
  exact ⟨hskip, hlist (by decide), hsend [] [] _ rfl⟩

/-- Of a ring that contains nothing, more bytes are asked for than a list can have. -/
def hugeTake : List Command :=
  [.on 0 (.errand (.create ⟨8, false, none⟩)),
    .on 0 (.errand (.operate (.takeList 0x8000000000000000)))]

/-- Skipping as many bytes is an error, taking them is a fault. -/
theorem hugeTake_faults : ∃ m : Machine, (load .plain hugeTake).Reaches m ∧
    m.session.place? 0 = some 0 ∧ (m.session.ring 0).length = 0 ∧
    ((m.session.ring 0).skip 0x8000000000000000).result
      = .error (.error (.insufficientContent 0x8000000000000000 0)) ∧
    ((m.session.ring 0).takeList 0x8000000000000000).result = .error (.fault .tooLarge) :=
  ⟨_, reaches_after (load .plain hugeTake) 1, rfl, rfl, rfl, rfl⟩

end Machine

end CyclicBuffer
