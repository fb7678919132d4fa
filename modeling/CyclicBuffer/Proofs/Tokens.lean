import CyclicBuffer.Session.Basic

/-!
# Libraries of tokens

What a session relies on in a library of tokens is said by three laws, each on its own: a token that
is told to be cancelled stays so (`Permanent`), the first cancel is told at once, to those who ask
and to those who poll (`Prompt`), and it wakes whoever has polled before (`Waking`). A fourth law is
`Silent`: nobody is told of a cancel that never came.
-/

namespace CyclicBuffer.Tokens

structure Permanent (t : Tokens) : Prop where
  isCancelled : ∀ cancels, t.isCancelled cancels = true → t.isCancelled (cancels + 1) = true
  isReady : ∀ cancels polls,
    t.isReady cancels polls = true → t.isReady (cancels + 1) polls = true

structure Prompt (t : Tokens) : Prop where
  isCancelled : t.isCancelled 1 = true
  isReady : ∀ polls, t.isReady 1 polls = true

def Waking (t : Tokens) : Prop := ∀ polls, 0 < polls → t.wakes 0 polls = true

structure Silent (t : Tokens) : Prop where
  isCancelled : t.isCancelled 0 = false
  isReady : ∀ polls, t.isReady 0 polls = false

/-- The library that tells of every cancel, and wakes at the first one. -/
def plain : Tokens where
  isCancelled cancels := decide (0 < cancels)
  isReady cancels _ := decide (0 < cancels)
  wakes cancels polls := decide (cancels = 0 ∧ 0 < polls)

theorem permanent_plain : plain.Permanent := ⟨by simp [plain], by simp [plain]⟩

theorem prompt_plain : plain.Prompt := ⟨rfl, fun _ => rfl⟩

theorem waking_plain : plain.Waking := fun _ h => by simpa [plain] using h

theorem silent_plain : plain.Silent := ⟨rfl, fun _ => rfl⟩

variable {t : Tokens}

/-- From the first cancel on, whoever asks or polls is told. -/
theorem told (hp : t.Permanent) (h : t.Prompt) {cancels : Nat} (hc : 0 < cancels) :
    t.isCancelled cancels = true ∧ ∀ polls, t.isReady cancels polls = true := by
  obtain ⟨n, rfl⟩ : ∃ n, cancels = n + 1 := ⟨cancels - 1, by omega⟩
  clear hc
  induction n with
  | zero => exact ⟨h.isCancelled, h.isReady⟩
  | succ n ih => exact ⟨hp.isCancelled _ ih.1, fun polls => hp.isReady _ _ (ih.2 polls)⟩

end CyclicBuffer.Tokens
