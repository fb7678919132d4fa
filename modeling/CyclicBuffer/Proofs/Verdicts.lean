import CyclicBuffer.Session.Run

/-!
# Verdicts of the two families

Blocking and polled transfers come to their verdicts in different ways. `Request.verdict` is a table
of all verdicts, by where the loop was left, and every verdict of either family is in it
(`Passage.exists_verdict`). Where a loop was left is borne out by the bytes that are left to move
(`Passage.Leaves`), and then the verdict of both families is the one at that place
(`Passage.verdict_eq`).
-/

namespace CyclicBuffer

/-- The verdict on a transfer that moved `moved` bytes. -/
def Request.verdict (r : Request) (moved : Nat) : Ending → Verdict (Option Nat)
  | .complete =>
    match r.purpose with
    | .fill => ⟨[], [], .ok (some moved)⟩
    | .fillExactly | .send => ⟨[], [], .ok none⟩
  | .exhausted =>
    match r.purpose with
    | .fill => ⟨[], [], .ok (some moved)⟩
    | .fillExactly =>
      ⟨[], [.sourceEnded r.count moved], .error (.error (.unexpectedEndOfInput r.count moved))⟩
    | .send => ⟨[.sinkStopped moved], [], .error (.error (.stream (.bare .writeZero)))⟩
  | .failed e => ⟨[.interrupted r.purpose.direction moved e], [], .error (.error (.stream e))⟩
  | .cancelled =>
    match r.purpose with
    | .fill => ⟨[.cancelled .fill r.count moved], [], .ok (some moved)⟩
    | .fillExactly =>
      ⟨[], [.cancelled .fillExactly r.count moved], .error (.error (.cancelled moved))⟩
    | .send => ⟨[], [.cancelled .send r.count moved], .error (.error (.cancelled moved))⟩
  | .fault f => ⟨[], [], .error (.fault f)⟩

/-- The verdict is a fault only if the transfer ended with that fault. -/
theorem verdict_fault {request : Request} {moved : Nat} {ending : Ending} {f : Fault}
    (h : (request.verdict moved ending).result = .error (.fault f)) : ending = .fault f := by
  unfold Request.verdict at h
  cases ending <;> cases hp : request.purpose <;> simp_all

variable {request : Request} {g : Grant} {ending : Ending}

/-! ## Where a loop was left -/

/-- A transfer can have left its loop there: only one that has no byte left to move is complete,
and only a polled one is cancelled. -/
def Passage.Leaves (p : Passage) (g : Grant) : Ending → Prop
  | .complete => g.remaining = 0
  | .exhausted => g.remaining ≠ 0
  | .cancelled => g.remaining ≠ 0 ∧ p.polling.isSome
  | .failed _ | .fault _ => True

/-- Between two calls a loop is left because no byte is left, or because a cancel was seen: by
asking the token before a race, or in a race. -/
theorem Passage.next_leave {p : Passage} {s : Session} (h : p.next s g = .leave ending) :
    (ending = .complete ∧ g.remaining = 0 ∧ ∀ q, p.polling = some q → q.awaits = none) ∨
    ending = .cancelled ∧ ∃ q, p.polling = some q ∧ (q.awaits = none → g.remaining ≠ 0) ∧
      (q.awaits = none ∧ s.isCancelled q.token = true ∨
        s.isReady q.token (q.awaits.getD 0) = true) := by
  have hrace {q : Polling} {polls : Nat} (h : q.race s polls = .leave ending) :
      ending = .cancelled ∧ s.isReady q.token polls = true := by
    unfold Polling.race at h
    split at h <;> cases h
    exact ⟨rfl, ‹_›⟩
  unfold next at h
  cases hp : p.polling with
  | none =>
    simp only [hp] at h
    split at h <;> cases h
    exact .inl ⟨rfl, by omega, by simp⟩
  | some q =>
    simp only [hp, Polling.next] at h
    cases hq : q.awaits with
    | some polls =>
      rw [hq] at h
      obtain ⟨he, hready⟩ := hrace h
      exact .inr ⟨he, q, rfl, by simp [hq], .inr (by rwa [hq])⟩
    | none =>
      simp only [hq] at h
      split at h
      · have hmore : g.remaining ≠ 0 := by omega
        split at h
        · cases h
          exact .inr ⟨rfl, q, rfl, fun _ => hmore, .inl ⟨hq, ‹_›⟩⟩
        · obtain ⟨he, hready⟩ := hrace h
          exact .inr ⟨he, q, rfl, fun _ => hmore, .inr (by rwa [hq])⟩
      · cases h
        exact .inl ⟨rfl, by omega, by simp [hq]⟩

/-- A call begins where bytes are left. If the transfer is polled, no cancel was seen, and it waits
for one from now on. -/
theorem Passage.next_call {p : Passage} {s : Session} {polling : Option Polling}
    (h : p.next s g = .call polling) :
    (p.polling = none ∧ polling = none ∧ g.remaining ≠ 0) ∨
    ∃ q, p.polling = some q ∧ polling = some { q with awaits := some (q.awaits.getD 0 + 1) } ∧
      (q.awaits = none → g.remaining ≠ 0 ∧ s.isCancelled q.token = false) ∧
      s.isReady q.token (q.awaits.getD 0) = false := by
  have hrace {q : Polling} {polls : Nat} (h : q.race s polls = .call polling) :
      polling = some { q with awaits := some (polls + 1) } ∧
        s.isReady q.token polls = false := by
    unfold Polling.race at h
    split at h <;> cases h
    rename_i hnot
    exact ⟨rfl, by simpa using hnot⟩
  unfold next at h
  cases hp : p.polling with
  | none =>
    simp only [hp] at h
    split at h <;> cases h
    exact .inl ⟨rfl, rfl, by omega⟩
  | some q =>
    simp only [hp, Polling.next] at h
    cases hq : q.awaits with
    | some polls =>
      rw [hq] at h
      obtain ⟨rfl, hready⟩ := hrace h
      exact .inr ⟨q, rfl, by simp [hq], by simp [hq], by rwa [hq]⟩
    | none =>
      simp only [hq] at h
      split at h
      · split at h
        · cases h
        · rename_i hmore hnot
          obtain ⟨rfl, hready⟩ := hrace h
          exact .inr ⟨q, rfl, by simp [hq], fun _ => ⟨by omega, by simpa using hnot⟩, by rwa [hq]⟩
      · cases h

/-! ## Blocking transfers -/

namespace Blocking

/-- A blocking exact fill looks only at the count. -/
theorem exists_verdict (request : Request) (g : Grant) (ending : Ending) :
    ∃ ending', verdict request g ending = request.verdict g.moved ending' ∧
      ∀ f, ending' = .fault f → ending = .fault f := by
  obtain ⟨purpose, count⟩ := request
  cases purpose with
  | fill =>
    cases ending with
    | failed e => exact ⟨.failed e, rfl, by simp⟩
    | fault f => exact ⟨.fault f, rfl, fun _ h => h⟩
    | _ => exact ⟨.complete, rfl, by simp⟩
  | fillExactly =>
    have hleft (hv : fill g.moved ending = ⟨[], [], .ok g.moved⟩) : ∃ ending',
        verdict ⟨.fillExactly, count⟩ g ending
          = Request.verdict ⟨.fillExactly, count⟩ g.moved ending' ∧
        ∀ f, ending' = .fault f → ending = .fault f := by
      simp only [verdict, fillExactly, hv, Verdict.andThen]
      by_cases hlt : g.moved < count
      · exact ⟨.exhausted, by rw [if_pos hlt]; rfl, by simp⟩
      · exact ⟨.complete, by rw [if_neg hlt]; rfl, by simp⟩
    cases ending with
    | failed e => exact ⟨.failed e, rfl, by simp⟩
    | fault f => exact ⟨.fault f, rfl, fun _ h => h⟩
    | _ => exact hleft rfl
  | send =>
    cases ending with
    | failed e => exact ⟨.failed e, rfl, by simp⟩
    | fault f => exact ⟨.fault f, rfl, fun _ h => h⟩
    | exhausted => exact ⟨.exhausted, rfl, by simp⟩
    | _ => exact ⟨.complete, rfl, by simp⟩

theorem verdict_eq (hcount : g.region.count = request.count) (hm : g.moved ≤ g.region.count)
    (hcomplete : ending = .complete → g.remaining = 0)
    (hexhausted : ending = .exhausted → g.remaining ≠ 0) (hcancelled : ending ≠ .cancelled) :
    verdict request g ending = request.verdict g.moved ending := by
  obtain ⟨purpose, count⟩ := request
  simp only [Grant.remaining] at hcomplete hexhausted hcount
  cases ending with
  | complete =>
    have hall : ¬ g.moved < count := by
      have := hcomplete rfl
      omega
    cases purpose with
    | fillExactly =>
      simp [verdict, fillExactly, fill, Verdict.andThen, Verdict.map, hall, Except.map,
        Request.verdict]
    | _ => rfl
  | exhausted =>
    have hsome : g.moved < count := by
      have := hexhausted rfl
      omega
    cases purpose with
    | fillExactly =>
      simp [verdict, fillExactly, fill, Verdict.andThen, Verdict.map, hsome, Except.map,
        Request.verdict]
    | _ => rfl
  | cancelled => exact absurd rfl hcancelled
  | _ => cases purpose <;> rfl

end Blocking

/-! ## Polled transfers -/

namespace Polled

/-- A polled send tells the cancel by the bytes that are left. -/
theorem exists_verdict (request : Request) (g : Grant) (ending : Ending) :
    ∃ ending', verdict request g ending = request.verdict g.moved ending' ∧
      ∀ f, ending' = .fault f → ending = .fault f := by
  obtain ⟨purpose, count⟩ := request
  cases purpose with
  | send =>
    have hleft (hv : send count g ending = send count g .complete) : ∃ ending',
        verdict ⟨.send, count⟩ g ending = Request.verdict ⟨.send, count⟩ g.moved ending' ∧
        ∀ f, ending' = .fault f → ending = .fault f := by
      have hmap : verdict ⟨.send, count⟩ g ending = (send count g .complete).map fun _ => none :=
        congrArg (Verdict.map fun _ => none) hv
      rw [hmap, send]
      by_cases hlt : 0 < g.remaining
      · exact ⟨.cancelled, by rw [if_pos hlt]; rfl, by simp⟩
      · exact ⟨.complete, by rw [if_neg hlt]; rfl, by simp⟩
    cases ending with
    | failed e => exact ⟨.failed e, rfl, by simp⟩
    | fault f => exact ⟨.fault f, rfl, fun _ h => h⟩
    | exhausted => exact ⟨.exhausted, rfl, by simp⟩
    | _ => exact hleft rfl
  | _ => exact ⟨ending, by cases ending <;> rfl, fun _ h => h⟩

theorem verdict_eq (hcomplete : ending = .complete → g.remaining = 0)
    (hcancelled : ending = .cancelled → g.remaining ≠ 0) :
    verdict request g ending = request.verdict g.moved ending := by
  obtain ⟨purpose, count⟩ := request
  cases purpose with
  | send =>
    cases ending with
    | complete => simp [verdict, send, Verdict.map, Except.map, Request.verdict, hcomplete rfl]
    | cancelled =>
      simp [verdict, send, Verdict.map, Except.map, Request.verdict,
        Nat.pos_of_ne_zero (hcancelled rfl)]
    | _ => rfl
  | _ => cases ending <;> rfl

end Polled

/-! ## Both families -/

/-- Every verdict is in the table. -/
theorem Passage.exists_verdict (p : Passage) (g : Grant) (ending : Ending) :
    ∃ ending', p.verdict g ending = p.transfer.request.verdict g.moved ending' ∧
      ∀ f, ending' = .fault f → ending = .fault f := by
  unfold verdict
  cases p.polling with
  | none => exact Blocking.exists_verdict ..
  | some q => exact Polled.exists_verdict ..

/-- The verdict is a fault only if the transfer ended with that fault. -/
theorem Passage.verdict_fault {p : Passage} {f : Fault}
    (h : (p.verdict g ending).result = .error (.fault f)) : ending = .fault f := by
  obtain ⟨ending', heq, hfault⟩ := p.exists_verdict g ending
  exact hfault f (CyclicBuffer.verdict_fault (heq ▸ h))

/-- Where a transfer can have left its loop, both families come to the verdict in the table. -/
theorem Passage.verdict_eq {p : Passage} (hcount : g.region.count = p.transfer.request.count)
    (hm : g.moved ≤ g.region.count) (h : p.Leaves g ending) :
    p.verdict g ending = p.transfer.request.verdict g.moved ending := by
  unfold verdict
  cases hp : p.polling with
  | none =>
    refine Blocking.verdict_eq hcount hm ?_ ?_ ?_
    · rintro rfl
      exact h
    · rintro rfl
      exact h
    · rintro rfl
      simp [Leaves, hp] at h
  | some q =>
    refine Polled.verdict_eq ?_ ?_
    · rintro rfl
      exact h
    · rintro rfl
      exact h.1

end CyclicBuffer
