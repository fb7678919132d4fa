import CyclicBuffer.Proofs.Exits
import CyclicBuffer.Proofs.Unruly

/-!
# Stable snapshots

A take that is granted `n` bytes delivers the first `n` bytes of the contents at that moment, once
and in order, whatever else is done to the ring while its sink is called or while it waits. Each
call is offered a piece of what the sink has not accepted yet; what it has accepted, and nothing
else, leaves the ring when the transfer ends, in whichever way that happens
(`take_delivers_snapshot`).
-/

namespace CyclicBuffer

open Occupancy

namespace Ring

variable {r r' : Ring} {g : Grant} {bytes : Bytes}

/-- A take that is under way has delivered the front of the contents. -/
theorem Carries.eq_take (h : r.Carries .take ⟨g, bytes⟩) : bytes = r.contents.take g.moved :=
  h.shows

/-- A take that has bytes left to move is offered the next of those that it was granted. -/
theorem Sound.offer_take (hs : r.Sound) (h : r.Carries .take ⟨g, bytes⟩) (hmore : g.remaining ≠ 0) :
    ∃ b, r.offer g = .bytes b ∧ b ≠ [] ∧
      b <+: (r.contents.take g.region.count).drop g.moved := by
  have hdir : g.direction = .take := h.direction
  have hheld : r.occupancy.held .take = some g.region := h.held
  have hcount := (hs.coherent.taking _ hheld).2
  have hroom := r.room_le g
  have hpos := hs.room_pos hmore hheld
  have hrem : g.remaining = g.region.count - g.moved := rfl
  have hlen := hs.length_contents
  refine ⟨r.offered g, by simp only [offer, hdir], ?_, ?_⟩
  all_goals rw [hs.offered_take hheld h.moved_le]
  · refine List.ne_nil_of_length_pos ?_
    rw [List.length_take, List.length_drop]
    omega
  · rw [List.drop_take]
    exact List.take_prefix_take_left (by omega)

end Ring

theorem Ring.Sound.le_of_reserveTake {r r' : Ring} (hs : r.Sound) {count : Nat} {g : Grant}
    {events : List Event} (hr : r.reserve .take count = .ok (g, r', events)) :
    count ≤ r.contents.length := by
  obtain ⟨region, o, hro, -, -, -⟩ := Ring.reserve_ok hr
  rw [hs.length_contents]
  exact (reserveTake_ok.1 hro).2.1

/-- A send succeeds just if it is complete. -/
theorem Request.verdict_send {r : Request} (h : r.purpose = .send) {moved : Nat}
    {ending : Ending} :
    (∃ v, (r.verdict moved ending).result.map Value.ofCount = .ok v) ↔ ending = .complete := by
  unfold verdict
  cases ending <;> simp [h, Except.map]

namespace Machine

variable {m₀ m₁ m₂ m₃ : Machine} {p : Passage} {g : Grant} {ring : Ring} {events : List Event}
  {marks past : List Mark} {place origin : Nat}

/-- A take on its way: what its sink has accepted, and what has become of the contents. -/
theorem Roams.delivers (hm : m₁.Sound) (hp : place < m₁.session.rings.size)
    (hg : m₁.grants place .take = [g]) (hc : (m₁.session.ring place).Carries .take ⟨g, []⟩)
    (hroams : m₁.Roams place marks m₂) (hlive : ∀ mark ∈ marks, ¬ mark.Ends .take)
    (hh : ∀ mark ∈ marks, mark.Honest .take) :
    ∃ g', m₂.grants place .take = [g'] ∧ g'.region = g.region ∧
      (m₂.session.ring place).Carries .take ⟨g', carriedOf .take marks⟩ ∧
      (m₂.session.ring place).contents
        = (m₁.session.ring place).contents ++ enteredOf marks := by
  obtain ⟨g', hg', hregion, hcarries⟩ := hroams.carries hm hp hg hc hlive hh
  have hs := hm.orderly.custody.sound hp
  have hk := hm.orderly.custody.keeps place
  obtain ⟨-, hds⟩ := hroams.deeds hm hp
  refine ⟨g', hg', hregion, hcarries, ?_⟩
  have hconserves := hds.conserves hs hk
  rwa [hds.left_eq_nil hs hk hg hlive, List.nil_append] at hconserves

/-- **A take delivers a stable snapshot, exactly once.** Let a take of `n` bytes get its
reservation, and let `X` be the first `n` bytes of the contents at that moment, and `Y` those behind
them. As long as the take is not over, whatever its sink and all other commands do: what the sink
has accepted is `X.take t`, every call under way was offered a part of `X.drop t` from its start,
and the contents are `X`, `Y` and then what has been put meanwhile. When it is over, in whichever
way, exactly `X.take t` has left the ring, the direction is free, and the answer, unless the
transfer was let go, is a success just if `t = n`. -/
theorem take_delivers_snapshot {tokens : Tokens} {commands : List Command}
    (h₀ : (load tokens commands).Roams origin past m₀) (hf : m₀.focus = .transfer p)
    (hnew : p.transfer.grant = none) (hsend : p.transfer.request.purpose = .send)
    (hr : (m₀.session.ring p.transfer.ring).reserve .take p.transfer.request.count
      = .ok (g, ring, events))
    (hs : m₀.step = some m₁) (hroams : m₁.Roams p.transfer.ring marks m₂)
    (hlive : ∀ mark ∈ marks, ¬ mark.Ends .take) (hh : ∀ mark ∈ marks, mark.Honest .take) :
    let contents := (m₀.session.ring p.transfer.ring).contents
    let n := p.transfer.request.count
    let X := contents.take n
    let Y := contents.drop n
    ∃ t ≤ n, X.length = n ∧ carriedOf .take marks = X.take t ∧
      (m₂.session.ring p.transfer.ring).contents = X ++ Y ++ enteredOf marks ∧
      (∀ q ∈ m₂.passages, q.transfer.holds p.transfer.ring .take →
        ∀ call, q.current = some call → ∃ b, call.offer = .bytes b ∧ b ≠ [] ∧ b <+: X.drop t) ∧
      ∀ m₃, m₂.step = some m₃ → m₃.grants p.transfer.ring .take = [] →
        (m₃.session.ring p.transfer.ring).contents = X.drop t ++ Y ++ enteredOf marks ∧
        (m₃.session.ring p.transfer.ring).occupancy.taking = none ∧
        (∀ q, m₂.focus = .transfer q → q.transfer.holds p.transfer.ring .take →
          ∃ result calls polls standing events,
            m₃.focus = .commands q.todo
              (q.done ++ [⟨.settled result calls polls, standing, events⟩]) ∧
            ((∃ v, result = .ok v) ↔ t = n)) := by
  have hm₀ := h₀.sound_load
  have hm₁ := hm₀.step hs
  have hm₂ := hroams.sound hm₁
  obtain ⟨hp₀, hp₁, hring, hg, t₁, ht₁, hh₁, hrequest⟩ :=
    hm₀.starts hf hnew rfl (by rw [hsend]; rfl) hr hs
  have hs₀ := hm₀.orderly.custody.sound hp₀
  have hc : (m₁.session.ring p.transfer.ring).Carries .take ⟨g, []⟩ :=
    hring ▸ hs₀.carries_reserve hr
  obtain ⟨g', hg', hregion, hc', hcontents⟩ := hroams.delivers hm₁ hp₁ hg hc hlive hh
  rw [hring, hs₀.contents_reserveTake hr] at hcontents
  have hcount : g'.region.count = p.transfer.request.count :=
    hregion ▸ (Ring.reserve_grant hr).2.1
  have hn : p.transfer.request.count ≤ (m₀.session.ring p.transfer.ring).contents.length :=
    hs₀.le_of_reserveTake hr
  have hp₂ := (hroams.deeds hm₁ hp₁).1
  have hs₂ := hm₂.orderly.custody.sound hp₂
  have ht : g'.moved ≤ p.transfer.request.count := hcount ▸ hc'.moved_le
  have hlen : (carriedOf .take marks).length = g'.moved := hc'.length_bytes hs₂
  have hX : ((m₂.session.ring p.transfer.ring).contents).take g'.region.count
      = (m₀.session.ring p.transfer.ring).contents.take p.transfer.request.count := by
    rw [hcount, hcontents, List.take_append_of_le_length hn]
  dsimp only
  have hall : (m₂.session.ring p.transfer.ring).contents
      = (m₀.session.ring p.transfer.ring).contents.take p.transfer.request.count
        ++ (m₀.session.ring p.transfer.ring).contents.drop p.transfer.request.count
        ++ enteredOf marks := by
    rw [List.take_append_drop, hcontents]
  have hXlen := List.length_take_of_le hn
  refine ⟨g'.moved, ht, hXlen, ?_, hall, ?_, ?_⟩
  · rw [hc'.eq_take, ← hX, List.take_take, Nat.min_eq_left hc'.moved_le]
  · intro q hq hholds call hcall
    obtain ⟨g'', hg'', ho, hmore⟩ := hm₂.offer_eq hq hholds hcall
    obtain rfl : g'' = g' := by simpa [hg''] using hg'
    obtain ⟨b, hb, hne, hle⟩ := hs₂.offer_take hc' hmore
    exact ⟨b, ho.trans hb, hne, hX ▸ hle⟩
  · intro m₃ hs₃ hover
    have hexits := hm₂.exits hs₃ hp₂ hg' hover
    obtain ⟨hheld, hcontents₃⟩ := hexits.commits hm₂ hp₂ hc'
    refine ⟨?_, hheld, ?_⟩
    · rw [hcontents₃, Direction.moves, hlen, hall,
        List.drop_append_of_le_length (by rw [List.length_append, hXlen]; omega),
        List.drop_append_of_le_length (by rw [hXlen]; exact ht)]
    · intro q hfq hholds
      obtain ⟨ending, calls, polls, standing, events, hfocus, hcomplete, -⟩ :=
        hexits.verdict hm₂ hfq hholds
      refine ⟨_, calls, polls, standing, events, hfocus, ?_⟩
      have hsame := hroams.same_request hm₁ hp₁ hg hlive ht₁ hh₁ _ (focus_mem hfq) hholds
      rw [hsame, hrequest, Request.verdict_send hsend, hcomplete, Grant.remaining, hcount]
      omega

/-- A sink takes a byte, then has another put and takes a second one, and fails. -/
def stalledSend : List Command :=
  [.on 0 (.errand (.create ⟨4, false, none⟩)), .on 0 (.errand (.operate (.put [1, 2, 3]))),
    .on 0 (.transfer ⟨.send, 3⟩ [.accept 1, .perform [.on 0 (.errand (.operate (.putByte 4)))],
      .accept 1, .fail (.bare .brokenPipe)])]

theorem take_delivers_snapshot_stalledSend :
    ∃ t ≤ 3,
      carriedOf .take (((load .plain stalledSend).after 4).chronicle 0 8) = [1, 2, 3].take t ∧
      (((load .plain stalledSend).after 13).session.ring 0).contents = [1, 2, 3].drop t ++ [4] := by
  have hsteps : ((load .plain stalledSend).after 4).Passes 0
      (((load .plain stalledSend).after 4).chronicle 0 8) ((load .plain stalledSend).after 12) :=
    passes_after _ 0 8
  obtain ⟨t, ht, -, hcarried, -, -, hover⟩ :=
    take_delivers_snapshot (passes_after (load .plain stalledSend) 0 3).roams rfl rfl rfl rfl rfl
      hsteps.roams (by decide +kernel) (by decide +kernel)
  obtain ⟨hcontents, -, -⟩ := hover ((load .plain stalledSend).after 13) rfl rfl
  exact ⟨t, ht, hcarried, hcontents.trans (List.append_assoc ..)⟩

end Machine

end CyclicBuffer
