import CyclicBuffer.Proofs.Refusal

/-!
# What errors count

An error that ends a transfer tells how many bytes were moved before it, and most of them tell
right: the end of the input and a cancelled token are answered with exactly the number of bytes that
the transfer published (`Machine.reachable_accounts`). Only the error of a stream has no count of
its own. It reports zero, however many bytes came before it.
-/

namespace CyclicBuffer

/-- Whether it was the stream that failed. -/
def Error.ofStream : Error → Bool
  | .stream _ => true
  | _ => false

/-- The number of bytes by which the commit of a direction has changed the contents. -/
def Ring.published (before after : Ring) : Direction → Nat
  | .put => after.length - before.length
  | .take => before.length - after.length

theorem Ring.Publishes.published_eq {r r' : Ring} {g : Grant} (h : r.Publishes g r') :
    r.published r' g.direction = g.moved := by
  have hlength := h.length
  cases hd : g.direction with
  | put =>
    simp only [hd] at hlength
    simp only [published]
    omega
  | take =>
    simp only [hd] at hlength
    simp only [published]
    omega

/-- Of the errors that a verdict can be, that of a stream alone does not count what was moved. -/
theorem Request.verdict_transferred {r : Request} {moved : Nat} {ending : Ending} {e : Error}
    (h : (r.verdict moved ending).result.map Value.ofCount = .error (.error e)) :
    e.transferred = if e.ofStream then 0 else moved := by
  unfold verdict at h
  cases ending with
  | fault f => cases h
  | failed e' =>
    cases h
    rfl
  | _ =>
    cases hp : r.purpose <;> simp only [hp] at h <;> cases h
    all_goals rfl

namespace Machine

variable {m m' : Machine} {p : Passage} {g : Grant} {e : Error} {calls : List (Call Answer)}

/-- **An error counts what was published, unless it is that of the stream.** Wherever commands and
unruly sources have led, let a transfer that got its reservation answer with an error. Then the
error reports the number of bytes that the transfer made readable or removed, or else it is the
error of the stream and reports zero. So it reports too few just where a stream fails after the
first byte. -/
theorem reachable_accounts {tokens : Tokens} {commands : List Command} {origin : Nat}
    {before : List Mark} (h : (load tokens commands).Roams origin before m)
    (hr : m.Returns p (.error (.error e)) calls m') (hg : p.transfer.grant = some g) :
    let published := (m.session.ring p.transfer.ring).published
      (m'.session.ring p.transfer.ring) p.transfer.request.purpose.direction
    published = g.moved ∧
    e.transferred = (if e.ofStream then 0 else published) ∧
    (e.transferred = published ↔ e.ofStream = false ∨ published = 0) := by
  have hworks := h.sound_load.orderly.works hr.focus
  have hdirection := (hworks.custody.fits _ (List.mem_cons_self ..)).direction g hg
  rcases h.sound_load.returns hr with hrefused | ⟨g', hg', ⟨ending, hverdict⟩, written, hfinishes⟩
  · cases hg.symm.trans hrefused.grant
  · obtain rfl : g = g' := Option.some.inj (hg.symm.trans hg')
    have hpublished : (m.session.ring p.transfer.ring).published
        (m'.session.ring p.transfer.ring) p.transfer.request.purpose.direction = g.moved := by
      rw [← hdirection, ← hfinishes.publishes.published_eq]
      cases g.direction <;> rfl
    have htransferred := Request.verdict_transferred hverdict.symm
    dsimp only
    rw [hpublished]
    refine ⟨rfl, htransferred, ?_⟩
    rw [htransferred]
    cases e.ofStream
    · simp
    · simp [eq_comm]

/-- A source that ends after two of the four bytes that are asked for. -/
def endingSource : List Command :=
  [.on 0 (.errand (.create ⟨8, false, none⟩)),
    .on 0 (.transfer ⟨.fillExactly, 4⟩ [.deliver [7, 8]])]

theorem reachable_accounts_endingSource :
    (Error.unexpectedEndOfInput 4 2).transferred
      = (((load .plain endingSource).after 6).session.ring 0).published
        (((load .plain endingSource).after 7).session.ring 0) .put := by
  have h := reachable_accounts (passes_after (load .plain endingSource) 0 6).roams
    (e := .unexpectedEndOfInput 4 2) ⟨rfl, rfl, rfl, _, _, _, rfl⟩ rfl
  exact h.2.1

/-- A source that fails after two of the four bytes that are asked for. -/
def failingSource : List Command :=
  [.on 0 (.errand (.create ⟨8, false, none⟩)),
    .on 0 (.transfer ⟨.fill, 4⟩ [.deliver [7, 8], .fail (.bare .brokenPipe)])]

/-- Two bytes are published, and the error reports none. -/
theorem failingSource_miscounts : ∃ (m m' : Machine) (p : Passage) (g : Grant) (e : Error)
    (calls : List (Call Answer)),
    (load .plain failingSource).Reaches m ∧ m.Returns p (.error (.error e)) calls m' ∧
      p.transfer.grant = some g ∧ e.transferred = 0 ∧
      (m.session.ring p.transfer.ring).published (m'.session.ring p.transfer.ring) .put = 2 :=
  ⟨_, (load .plain failingSource).after 7, _, _, _, _, reaches_after (load .plain failingSource) 6,
    ⟨rfl, rfl, rfl, _, _, _, rfl⟩, rfl, rfl, rfl⟩

end Machine

end CyclicBuffer
