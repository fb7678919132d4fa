import CyclicBuffer.Proofs.Queue
import CyclicBuffer.Proofs.Exits
import CyclicBuffer.Proofs.Unruly

/-!
# Delivery at the end

A put from a source stores exactly what the source delivered, and all of it at the end. At the
beginning it may cost the oldest bytes. From then on until it is over nothing of what is delivered
can be seen, by whatever operation; then all of it is appended, and what was reserved beyond that is
free again (`put_delivers_at_end`).
-/

namespace CyclicBuffer

open Occupancy

/-! ## Verdicts on puts -/

namespace Request

variable {r : Request} {moved : Nat} {ending : Ending}

/-- A fill succeeds with the number of bytes that it stored. -/
theorem verdict_fill (h : r.purpose = .fill) :
    (ending = .complete ∨ ending = .exhausted →
      (r.verdict moved ending).result.map Value.ofCount = .ok (.number moved)) ∧
    ∀ v, (r.verdict moved ending).result.map Value.ofCount = .ok v → v = .number moved := by
  unfold verdict
  cases ending <;> simp [h, Except.map, Value.ofCount, eq_comm]

/-- An exact fill succeeds just if it is complete, and fails for want of bytes just if its source
ended. -/
theorem verdict_fillExactly (h : r.purpose = .fillExactly) :
    ((∃ v, (r.verdict moved ending).result.map Value.ofCount = .ok v) ↔ ending = .complete) ∧
    ((r.verdict moved ending).result.map Value.ofCount
      = .error (.error (.unexpectedEndOfInput r.count moved)) ↔ ending = .exhausted) := by
  unfold verdict
  cases ending <;> simp [h, Except.map]

end Request

namespace Ring

variable {r r' : Ring} {g : Grant}

/-- A put that is granted its region drops the oldest bytes only where an overwriting ring has no
take under way. -/
theorem Sound.deficit_reservePut (hs : r.Sound) {count : Nat} {events : List Event}
    (hr : r.reserve .put count = .ok (g, r', events)) :
    r.length + count - r.capacity ≠ 0 → r.overwriting = true ∧ r.occupancy.taking = none := by
  obtain ⟨_, _, hro, -, -, -⟩ := reserve_ok hr
  obtain ⟨-, -, hd, -, -⟩ := hs.coherent.reservePut_ok hro
  intro hne
  refine hd.resolve_left fun hzero => hne ?_
  rw [hs.capacity_eq]
  exact hzero

/-- Where no put is under way, what is spare can be reserved. -/
theorem Sound.reserve_spare (hs : r.Sound) (hp : r.occupancy.putting = none) {count : Nat}
    (hc : count ≤ r.spare) : ∃ granted, r.reserve .put count = .ok granted := by
  have hle := hs.coherent.length_le
  have hspare : r.spare = r.occupancy.capacity - r.occupancy.length := rfl
  have hd : r.occupancy.deficit count = 0 := by
    simp only [Occupancy.deficit]
    omega
  have hro : r.occupancy.reserve .put count = .ok (r.occupancy.holdPut count) := by
    simp only [Occupancy.reserve, reservePut, hp, Option.isSome_none, Bool.false_eq_true, if_false,
      hd, if_true, if_neg (show ¬ r.occupancy.capacity < count by omega)]
  exact ⟨_, by rw [Ring.reserve, hro]; rfl⟩

/-- What is not spare is contents. -/
theorem Sound.spare_add_contents (hs : r.Sound) : r.spare + r.contents.length = r.capacity := by
  have hle := hs.coherent.length_le
  rw [hs.length_contents, hs.capacity_eq, Ring.spare, Occupancy.spare]
  omega

/-- A take is offered bytes of the contents. -/
theorem Sound.offer_contents (hs : r.Sound) (hk : r.occupancy.held .take = some g.region)
    (hdir : g.direction = .take) (hm : g.moved ≤ g.region.count) :
    ∃ b, r.offer g = .bytes b ∧ b <+: r.contents.drop g.moved := by
  refine ⟨r.offered g, by simp only [offer, hdir], ?_⟩
  rw [hs.offered_take hk hm]
  exact List.take_prefix ..

end Ring

namespace Machine

variable {m₀ m₁ m₂ m₃ : Machine} {p : Passage} {g : Grant} {ring : Ring} {events : List Event}
  {marks past : List Mark} {place origin : Nat}

/-- A put on its way: what its source has delivered, and what has become of the contents. -/
theorem Roams.collects (hm : m₁.Sound) (hp : place < m₁.session.rings.size)
    (hg : m₁.grants place .put = [g]) (hc : (m₁.session.ring place).Carries .put ⟨g, []⟩)
    (hroams : m₁.Roams place marks m₂) (hlive : ∀ mark ∈ marks, ¬ mark.Ends .put)
    (hh : ∀ mark ∈ marks, mark.Honest .put) :
    ∃ g', m₂.grants place .put = [g'] ∧ g'.region = g.region ∧
      (m₂.session.ring place).Carries .put ⟨g', carriedOf .put marks⟩ ∧
      enteredOf marks = [] ∧
      leftOf marks ++ (m₂.session.ring place).contents = (m₁.session.ring place).contents := by
  obtain ⟨g', hg', hregion, hcarries⟩ := hroams.carries hm hp hg hc hlive hh
  have hs := hm.orderly.custody.sound hp
  have hk := hm.orderly.custody.keeps place
  obtain ⟨-, hds⟩ := hroams.deeds hm hp
  have hentered := hds.entered_eq_nil hs hk hg hlive
  refine ⟨g', hg', hregion, hcarries, hentered, ?_⟩
  rw [hds.conserves hs hk, hentered, List.append_nil]

/-- **A put stores what its source delivered, all at the end.** Let a put of `n` bytes get its
reservation. At once the contents lose as many of their oldest bytes as do not fit beside `n` more,
and only an overwriting ring with no take under way loses any. As long as the put is not over,
whatever its source and all other commands do, nothing enters the contents: they are what is left of
those, every operation answers as it does on them, and every take is offered some of them. When it
is over, in whichever way, the delivered bytes `W` have been appended to what the contents then
were, and all other room can be reserved again. The answer, unless the transfer was let go, is the
number of bytes for a fill; an exact fill succeeds just if all `n` bytes were delivered, and runs
out of input just if the source ended before. -/
theorem put_delivers_at_end {tokens : Tokens} {commands : List Command}
    (h₀ : (load tokens commands).Roams origin past m₀) (hf : m₀.focus = .transfer p)
    (hnew : p.transfer.grant = none) (hput : p.transfer.request.purpose.direction = .put)
    (hr : (m₀.session.ring p.transfer.ring).reserve .put p.transfer.request.count
      = .ok (g, ring, events))
    (hs : m₀.step = some m₁) (hroams : m₁.Roams p.transfer.ring marks m₂)
    (hlive : ∀ mark ∈ marks, ¬ mark.Ends .put) (hh : ∀ mark ∈ marks, mark.Honest .put) :
    let before := m₀.session.ring p.transfer.ring
    let between := m₂.session.ring p.transfer.ring
    let n := p.transfer.request.count
    let cut := before.length + n - before.capacity
    let W := carriedOf .put marks
    (m₁.session.ring p.transfer.ring).contents = before.contents.drop cut ∧
    (cut ≠ 0 → before.overwriting = true ∧ before.occupancy.taking = none) ∧
    enteredOf marks = [] ∧ leftOf marks ++ between.contents = before.contents.drop cut ∧
    (∀ operation, (between.apply operation).seen = between.queue.apply operation) ∧
    (∀ q ∈ m₂.passages, q.transfer.holds p.transfer.ring .take →
      ∀ call, q.current = some call → ∃ b k, call.offer = .bytes b ∧
        b <+: between.contents.drop k) ∧
    W.length ≤ n ∧
    ∀ m₃, m₂.step = some m₃ → m₃.grants p.transfer.ring .put = [] →
      let after := m₃.session.ring p.transfer.ring
      after.contents = between.contents ++ W ∧ after.occupancy.putting = none ∧
      after.spare + (between.contents.length + W.length) = before.capacity ∧
      (∀ count ≤ after.spare, ∃ granted, after.reserve .put count = .ok granted) ∧
      ∀ q, m₂.focus = .transfer q → q.transfer.holds p.transfer.ring .put →
        ∃ result calls polls standing events,
          m₃.focus = .commands q.todo
            (q.done ++ [⟨.settled result calls polls, standing, events⟩]) ∧
          let ended := ∃ offer written,
            .replied .put offer written (.moved 0) ∈ m₂.marks p.transfer.ring
          (p.transfer.request.purpose = .fill →
            (W.length = n ∨ ended → result = .ok (.number W.length)) ∧
            ∀ v, result = .ok v → v = .number W.length) ∧
          (p.transfer.request.purpose = .fillExactly →
            ((∃ v, result = .ok v) ↔ W.length = n) ∧
            (result = .error (.error (.unexpectedEndOfInput n W.length)) ↔ ended)) := by
  have hm₀ := h₀.sound_load
  have hm₁ := hm₀.step hs
  have hm₂ := hroams.sound hm₁
  obtain ⟨hp₀, hp₁, hring, hg, t, ht, hh₁, hrequest⟩ := hm₀.starts hf hnew rfl hput hr hs
  have hs₀ := hm₀.orderly.custody.sound hp₀
  have hc : (m₁.session.ring p.transfer.ring).Carries .put ⟨g, []⟩ :=
    hring ▸ hs₀.carries_reserve hr
  obtain ⟨g', hg', hregion, hc', hentered, hleft⟩ := hroams.collects hm₁ hp₁ hg hc hlive hh
  have hcut : (m₁.session.ring p.transfer.ring).contents
      = (m₀.session.ring p.transfer.ring).contents.drop
        ((m₀.session.ring p.transfer.ring).length + p.transfer.request.count
          - (m₀.session.ring p.transfer.ring).capacity) := by
    rw [hring, hs₀.contents_reservePut hr, hs₀.capacity_eq]
    rfl
  have hcount : g'.region.count = p.transfer.request.count :=
    hregion ▸ (Ring.reserve_grant hr).2.1
  have hp₂ := (hroams.deeds hm₁ hp₁).1
  have hs₂ := hm₂.orderly.custody.sound hp₂
  have hlen : (carriedOf .put marks).length = g'.moved := hc'.length_bytes hs₂
  have hle : g'.moved ≤ p.transfer.request.count := hcount ▸ hc'.moved_le
  refine ⟨hcut, hs₀.deficit_reservePut hr, hentered, hleft.trans hcut, hs₂.seen_apply, ?_,
    hlen ▸ hle, ?_⟩
  · intro q hq hholds call hcall
    obtain ⟨gt, hgt, ho, -⟩ := hm₂.offer_eq hq hholds hcall
    have hk := hm₂.orderly.custody.keeps p.transfer.ring
    have hmem : gt ∈ grantsOf m₂.transfers p.transfer.ring .take := by
      rw [show grantsOf _ _ _ = _ from hgt]
      exact List.mem_singleton_self gt
    obtain ⟨b, hb, hprefix⟩ := hs₂.offer_contents (hk.held_eq hgt) (hk.direction _ _ hmem)
      (hk.moved_le _ _ hmem)
    exact ⟨b, gt.moved, ho.trans hb, hprefix⟩
  · intro m₃ hs₃ hover
    have hexits := hm₂.exits hs₃ hp₂ hg' hover
    obtain ⟨hheld, hcontents₃⟩ := hexits.commits hm₂ hp₂ hc'
    have hm₃ := hm₂.step hs₃
    have hall := hroams.stir (.step hs₃)
    have hp₃ := (hall.deeds hm₁ hp₁).1
    have hcapacity : (m₁.session.ring p.transfer.ring).capacity
        = (m₀.session.ring p.transfer.ring).capacity :=
      (Roams.refl.stir (.step hs)).capacity hm₀ hp₀
    have hsound := hm₃.orderly.custody.sound hp₃
    refine ⟨hcontents₃, hheld, ?_, fun count hcount => hsound.reserve_spare hheld hcount, ?_⟩
    · have hspare := hsound.spare_add_contents
      rwa [hcontents₃, Direction.moves, List.length_append, hall.capacity hm₁ hp₁, hcapacity]
        at hspare
    · intro q hfq hholds
      obtain ⟨ending, calls, polls, standing, events, hfocus, hcomplete, hexhausted⟩ :=
        hexits.verdict hm₂ hfq hholds
      have hsame : q.transfer.request = p.transfer.request :=
        (hroams.same_request hm₁ hp₁ hg hlive ht hh₁ _ (focus_mem hfq) hholds).trans hrequest
      have hdone : ending = .complete
          ↔ (carriedOf .put marks).length = p.transfer.request.count := by
        rw [hcomplete, hlen, Grant.remaining, hcount]
        omega
      rw [hsame, ← hlen] at hfocus
      rw [hc'.direction] at hexhausted
      refine ⟨_, calls, polls, standing, events, hfocus, fun hfill => ?_, fun hexact => ?_⟩
      · rw [← hdone, ← hexhausted]
        exact Request.verdict_fill hfill
      · rw [← hdone, ← hexhausted]
        exact Request.verdict_fillExactly hexact

/-- A source has a byte taken between the two that it delivers, and ends before the third. -/
def shortFill : List Command :=
  [.on 0 (.errand (.create ⟨4, true, none⟩)), .on 0 (.errand (.operate (.put [1, 2, 3]))),
    .on 0 (.transfer ⟨.fillExactly, 3⟩ [.deliver [7],
      .perform [.on 0 (.errand (.operate .takeByte))], .deliver [8]])]

theorem put_delivers_at_end_shortFill :
    (((load .plain shortFill).after 4).session.ring 0).contents = [1, 2, 3].drop 2 ∧
      (((load .plain shortFill).after 13).session.ring 0).contents
        = (((load .plain shortFill).after 12).session.ring 0).contents
          ++ carriedOf .put (((load .plain shortFill).after 4).chronicle 0 8) := by
  have hsteps : ((load .plain shortFill).after 4).Passes 0
      (((load .plain shortFill).after 4).chronicle 0 8) ((load .plain shortFill).after 12) :=
    passes_after _ 0 8
  obtain ⟨hcut, -, -, -, -, -, -, hover⟩ :=
    put_delivers_at_end (passes_after (load .plain shortFill) 0 3).roams rfl rfl rfl rfl rfl
      hsteps.roams (by decide +kernel) (by decide +kernel)
  obtain ⟨hcontents, -⟩ := hover ((load .plain shortFill).after 13) rfl rfl
  exact ⟨hcut, hcontents⟩

end Machine

end CyclicBuffer
