import CyclicBuffer.Proofs.Suspension

/-!
# Streams with a fixed supply

A source has a fixed sequence of bytes and then closes, at its end or with an error. A sink takes a
fixed number of bytes and then closes, or takes all that it is offered. Into which calls a stream
divides its supply is up to its script, and how much a call can move depends on where the region
lies; neither shows in what the transfer comes to. It moves all that it was asked for or all of the
supply, whichever is less, and in the second case ends as the stream closes
(`Machine.Between.served`).
-/

namespace CyclicBuffer

open Occupancy

/-! ## Supplies -/

/-- How a stream ends. -/
inductive Closing where
  /-- A source has nothing left; a sink takes nothing more. -/
  | dry
  | failing (error : StreamError)
deriving DecidableEq, Repr

def Closing.ending : Closing → Ending
  | .dry => .exhausted
  | .failing e => .failed e

/-- What a stream can move before it closes. -/
structure Supply where
  /-- The bytes of a source; a sink has none of its own. -/
  bytes : Bytes
  /-- The number of bytes; a sink that never closes has no bound. -/
  total : Option Nat
  closing : Closing
deriving DecidableEq, Repr

namespace Supply

/-- A stream that is about to close. -/
def closes (closing : Closing) : Supply := ⟨[], some 0, closing⟩

/-- More data comes first. Of what a sink takes only the number of bytes matters. -/
def after (s : Supply) (d : Direction) (data : Bytes) : Supply :=
  { s with
    bytes := match d with
      | .put => data ++ s.bytes
      | .take => s.bytes
    total := s.total.map (data.length + ·) }

/-- What is left when so many bytes have been moved. -/
def rest (s : Supply) (d : Direction) (count : Nat) : Supply :=
  { s with
    bytes := match d with
      | .put => s.bytes.drop count
      | .take => s.bytes
    total := s.total.map (· - count) }

/-- How much is moved of so many bytes asked for. -/
def moved (s : Supply) (count : Nat) : Nat :=
  match s.total with
  | none => count
  | some total => min count total

/-- What a source writes of so many bytes; a sink writes nothing. -/
def written (s : Supply) (d : Direction) (count : Nat) : Bytes :=
  match d with
  | .put => s.bytes.take count
  | .take => []

/-- The next bytes that a transfer moves: those of the source, or those that come next in the
contents. -/
def share (s : Supply) (d : Direction) (contents : Bytes) (g : Grant) (count : Nat) : Bytes :=
  match d with
  | .put => s.bytes.take count
  | .take => (contents.drop g.moved).take count

/-- How a transfer of so many bytes ends. -/
def ending (s : Supply) (count : Nat) : Ending :=
  if s.moved count = count then .complete else s.closing.ending

theorem moved_le (s : Supply) (count : Nat) : s.moved count ≤ count := by
  unfold moved
  split <;> omega

end Supply

/-- The stream of a direction that follows a script has a fixed supply. Of a piece of data that is
longer than what is offered the rest stays for the next call, so the division into pieces does not
change the supply; neither do calls that are interrupted and repeated. A sink may also take up to so
many bytes in a call, as long as their number does not depend on what it is offered, or is not
bounded anyway. -/
inductive Supplies (d : Direction) : List Turn → Supply → Prop
  | used_up (source : d = .put) : Supplies d [] (.closes .dry)
  | endless (sink : d = .take) : Supplies d [] ⟨[], none, .dry⟩
  | stop (turns : List Turn) : Supplies d (.deliver [] :: turns) (.closes .dry)
  | decline (turns : List Turn) : Supplies d (.accept 0 :: turns) (.closes .dry)
  | fail {e : StreamError} (final : e.cause ≠ .interrupted) (turns : List Turn) :
      Supplies d (.fail e :: turns) (.closes (.failing e))
  | retry {e : StreamError} (interrupted : e.cause = .interrupted) {turns : List Turn}
      {s : Supply} (more : Supplies d turns s) : Supplies d (.fail e :: turns) s
  | piece {data : Bytes} (some : data ≠ []) {turns : List Turn} {s : Supply}
      (more : Supplies d turns s) : Supplies d (.deliver data :: turns) (s.after d data)
  | gulp {count : Nat} (sink : d = .take) (some : 0 < count) {turns : List Turn} {s : Supply}
      (fixed : count = 1 ∨ s.total = none) (more : Supplies d turns s) :
      Supplies d (.accept count :: turns) (s.after d [0])

/-- What a stream with a fixed supply does in a call. -/
inductive Passage.Meets (p : Passage) (d : Direction) (s : Supply) (room : Nat) : Prop
  /-- It closes. -/
  | closed (reply : Reply) (stream : List Turn) (total : s.total = some 0)
      (response : p.respond d room = (.answer [] reply, stream))
      (heard : ∀ g : Grant, g.hear reply = (g, some s.closing.ending))
      (silent : ∀ count, reply = .moved count → count = 0)
  /-- It moves some bytes of its supply, or is interrupted and wants to be called again. -/
  | goes_on (count : Nat) (reply : Reply) (stream : List Turn) (le_room : count ≤ room)
      (le_total : ∀ total, s.total = some total → count ≤ total)
      (response : p.respond d room = (.answer (s.written d count) reply, stream))
      (counts : reply = .moved count ∨ count = 0 ∧ ∃ e, reply = .failed e)
      (heard : ∀ g : Grant, count ≤ g.remaining →
        g.hear reply = ({ g with moved := g.moved + count }, none))
      (bytes : d = .put → count ≤ s.bytes.length) (more : Supplies d stream (s.rest d count))
      (less : stream.length < p.transfer.stream.length + count)

/-- What is left of the data stays for the next call. -/
theorem Supplies.deliver_rest {d : Direction} {turns : List Turn} {s : Supply}
    (h : Supplies d turns s) {data : Bytes} {count : Nat} (hc : count ≤ data.length) :
    Supplies d (if (data.drop count).isEmpty then turns else .deliver (data.drop count) :: turns)
      ((s.after d data).rest d count) := by
  have hsupply : (s.after d data).rest d count = s.after d (data.drop count) := by
    obtain ⟨bytes, total, closing⟩ := s
    simp only [Supply.after, Supply.rest, List.length_drop, Supply.mk.injEq, and_true]
    constructor
    · cases d
      · exact List.drop_append_of_le_length hc
      · rfl
    · cases total with
      | none => rfl
      | some total =>
        simp only [Option.map_some, Option.some.injEq]
        omega
  rw [hsupply]
  split
  · rename_i hempty
    have hnil : s.after d [] = s := by
      obtain ⟨bytes, total, closing⟩ := s
      cases d <;> cases total <;> simp [Supply.after]
    rwa [List.isEmpty_iff.1 hempty, hnil]
  · rename_i hmore
    exact .piece (fun he => hmore (by rw [he]; rfl)) h

theorem Supply.rest_zero (s : Supply) (d : Direction) : s.rest d 0 = s := by
  obtain ⟨bytes, total, closing⟩ := s
  cases d <;> simp [rest]

/-- A stream with a fixed supply gets on with it in each call. -/
theorem Supplies.meets {d : Direction} {s : Supply} {p : Passage}
    (h : Supplies d p.transfer.stream s) {room : Nat} (hroom : 0 < room) : p.Meets d s room := by
  generalize hs : p.transfer.stream = turns at h
  cases h with
  | used_up source =>
    subst source
    exact .closed (.moved 0) [] rfl (by simp only [Passage.respond, hs]) (fun _ => rfl) (by simp)
  | endless sink =>
    subst sink
    exact .goes_on room _ [] (Nat.le_refl _) (by simp)
      (by simp only [Passage.respond, hs, Supply.written])
      (.inl rfl) (fun _ hle => Grant.hear_count hroom hle) (by simp) (.endless rfl)
      (by simp [hs, hroom])
  | stop turns =>
    refine .closed (.moved 0) turns rfl ?_ (fun _ => rfl) (by simp)
    cases d <;> simp [Passage.respond, hs]
  | decline turns =>
    exact .closed (.moved 0) turns rfl (by simp only [Passage.respond, hs, Nat.zero_min])
      (fun _ => rfl) (by simp)
  | @fail e final turns =>
    exact .closed (.failed e) turns rfl (by simp only [Passage.respond, hs])
      (fun _ => by simp only [Grant.hear, if_neg final]; rfl) (by simp)
  | @retry e interrupted turns s more =>
    refine .goes_on 0 (.failed e) turns (Nat.zero_le _) (by simp) ?_ (.inr ⟨rfl, e, rfl⟩)
      (fun _ _ => by simp only [Grant.hear, if_pos interrupted, Nat.add_zero]) (by simp)
      (by rwa [s.rest_zero]) (by simp [hs])
    cases d <;> simp only [Passage.respond, hs, Supply.written, List.take_zero]
  | @piece data some turns s more =>
    have hpos := List.length_pos_iff.2 some
    have hle : min data.length room ≤ data.length := Nat.min_le_left ..
    have hpiece : 0 < min data.length room := by omega
    refine .goes_on (min data.length room) _ _ (Nat.min_le_right ..) ?_ ?_ (.inl rfl)
      (fun _ hle => Grant.hear_count hpiece hle) ?_ (more.deliver_rest hle) ?_
    · intro total ht
      simp only [Supply.after, Option.map_eq_some_iff] at ht
      omega
    · cases d
      · simp only [Passage.respond, hs, Supply.written, Supply.after,
          List.take_append_of_le_length hle]
      · simp only [Passage.respond, hs, Supply.written]
    · rintro rfl
      simp only [Supply.after, List.length_append]
      omega
    · rw [hs]
      split <;> simp <;> omega
  | @gulp count sink some turns s fixed more =>
    subst sink
    have hgulp : 0 < min count room := by omega
    have hrest : (s.after .take [0]).rest .take (min count room) = s := by
      obtain ⟨bytes, total, closing⟩ := s
      rcases fixed with rfl | rfl
      · have : min 1 room = 1 := by omega
        cases total <;> simp [Supply.after, Supply.rest, this]
      · rfl
    refine .goes_on (min count room) _ turns (Nat.min_le_right ..) ?_
      (by simp only [Passage.respond, hs, Supply.written]) (.inl rfl)
      (fun _ hle => Grant.hear_count hgulp hle) (by simp) (by rwa [hrest]) (by simp [hs]; omega)
    intro total ht
    simp only [Supply.after, Option.map_eq_some_iff] at ht
    obtain ⟨rest, hrest, rfl⟩ := ht
    rcases fixed with rfl | hnone
    · exact Nat.le_trans (Nat.min_le_left ..) (Nat.le_add_right ..)
    · cases hnone.symm.trans hrest

/-! ## Transfers with a fixed supply -/

/-- The names, the tasks and the tokens of a session are the same. -/
structure Session.SameTables (s s' : Session) : Prop where
  tokens : s'.tokens = s.tokens
  names : s'.names = s.names
  tasks : s'.tasks = s.tasks
  cancelled : s'.cancelled = s.cancelled

theorem Session.SameTables.trans {s s₁ s₂ : Session} (h : s.SameTables s₁) (h' : s₁.SameTables s₂) :
    s.SameTables s₂ :=
  ⟨h'.tokens.trans h.tokens, h'.names.trans h.names, h'.tasks.trans h.tasks,
    h'.cancelled.trans h.cancelled⟩

/-- What tokens tell is in the tables. -/
theorem Session.SameTables.unheard {s s' : Session} (h : s.SameTables s') {token : Nat}
    (hu : s.Unheard token) : s'.Unheard token := by
  unfold Unheard isCancelled isReady cancels at hu ⊢
  rwa [h.tokens, h.cancelled]

theorem Session.sameTables_update (s : Session) (place : Nat) (ring : Ring)
    (events : List Event) : s.SameTables (s.update place ring events) := ⟨rfl, rfl, rfl, rfl⟩

theorem Passage.shownPolls_endRace (p : Passage) : p.endRace.shownPolls = p.shownPolls := by
  unfold shownPolls endRace
  cases p.polling <;> rfl

namespace Machine

variable {m m₁ m' : Machine} {p p₁ : Passage} {g : Grant} {d : Direction} {bytes : Bytes}
  {moved : Nat} {ending : Ending}

/-- A transfer is over: it has moved these bytes, and nothing else has changed. -/
structure Serves (m : Machine) (p : Passage) (d : Direction) (moved : Nat) (bytes : Bytes)
    (ending : Ending) (m' : Machine) : Prop where
  suspended : m'.suspended = m.suspended
  tables : m.session.SameTables m'.session
  answer : ∃ calls standing events, m'.focus = .commands p.todo (p.done ++
    [⟨.settled ((p.transfer.request.verdict moved ending).result.map Value.ofCount) calls
      p.shownPolls, standing, events⟩])
  contents : (m'.session.ring p.transfer.ring).contents
    = d.moves (m.session.ring p.transfer.ring).contents bytes
  free : (m'.session.ring p.transfer.ring).occupancy.held d = none
  other : ∀ e ≠ d, (m'.session.ring p.transfer.ring).occupancy.held e
    = (m.session.ring p.transfer.ring).occupancy.held e

/-- A transfer is on its way: what will be answered, and what is readable, is the same. -/
structure Proceeds (m : Machine) (p : Passage) (m₁ : Machine) (p₁ : Passage) : Prop where
  suspended : m₁.suspended = m.suspended
  tables : m.session.SameTables m₁.session
  ring : p₁.transfer.ring = p.transfer.ring
  request : p₁.transfer.request = p.transfer.request
  polls : p₁.shownPolls = p.shownPolls
  todo : p₁.todo = p.todo
  done : p₁.done = p.done
  contents : (m₁.session.ring p.transfer.ring).contents
    = (m.session.ring p.transfer.ring).contents
  held : (m₁.session.ring p.transfer.ring).occupancy.held
    = (m.session.ring p.transfer.ring).occupancy.held

theorem Proceeds.goes_on (h : m.Proceeds p m₁ p₁) (g : Grant) :
    m.Proceeds p m₁ (p₁.endRace.withGrant g) :=
  ⟨h.suspended, h.tables, h.ring, h.request, p₁.shownPolls_endRace.trans h.polls, h.todo, h.done,
    h.contents, h.held⟩

theorem Proceeds.serves (h : m.Proceeds p m₁ p₁) (hs : m₁.Serves p₁ d moved bytes ending m') :
    m.Serves p d moved bytes ending m' := by
  have hcontents := hs.contents
  have hfree := hs.free
  have hother := hs.other
  have hanswer := hs.answer
  rw [h.ring] at hcontents hfree hother
  rw [h.request, h.todo, h.done, h.polls] at hanswer
  refine ⟨hs.suspended.trans h.suspended, h.tables.trans hs.tables, hanswer, ?_, hfree, ?_⟩
  · rw [hcontents, h.contents]
  · intro e he
    rw [hother e he, h.held]

/-- A transfer that ends publishes the bytes that it carries. -/
theorem Works.settle_serves (h : m.Works p) (hg : p.transfer.grant = some g)
    (hc : (m.session.ring p.transfer.ring).Carries d ⟨g, bytes⟩) {ending : Ending}
    (hl : p.Leaves g ending) : m.Serves p d g.moved bytes ending (m.settle p g ending) := by
  have hfits := h.custody.fits _ (List.mem_cons_self ..)
  obtain ⟨ring', events, hcommit⟩ := Ring.commit_of_held (h.custody.held_eq hg)
  obtain ⟨hfree, hcontents⟩ := hc.moves (h.custody.sound hfits.known) hcommit
  obtain ⟨o, ho, hring', -⟩ := Ring.commit_ok hcommit
  have hdirection : g.direction = d := hc.direction
  obtain ⟨hafter, hanswers⟩ := h.settle_answers hg hcommit hl
  have htables : m.session.SameTables (m.settle p g ending).session :=
    Session.sameTables_update ..
  refine ⟨hanswers.suspended, htables, hanswers.focus, ?_, ?_, ?_⟩
  · rw [hafter, hcontents]
  · rw [hafter, hfree]
  · intro e he
    rw [hafter, hring']
    exact (commit_leaves ho (hdirection ▸ he)).held

end Machine

namespace Supply

variable {s : Supply} {d : Direction} {contents : Bytes} {g : Grant} {count : Nat}

theorem moved_rest {n : Nat} (hn : count ≤ n) (ht : ∀ total, s.total = some total → count ≤ total) :
    s.moved n = count + (s.rest d count).moved (n - count) := by
  cases htotal : s.total with
  | none =>
    simp only [moved, rest, htotal, Option.map_none]
    omega
  | some total =>
    have := ht total htotal
    simp only [moved, rest, htotal, Option.map_some]
    omega

theorem ending_rest {n : Nat} (hn : count ≤ n)
    (ht : ∀ total, s.total = some total → count ≤ total) :
    (s.rest d count).ending (n - count) = s.ending n := by
  have hmoved := moved_rest (d := d) hn ht
  have hiff : (s.rest d count).moved (n - count) = n - count ↔ s.moved n = n := by omega
  simp only [ending, hiff]
  rfl

/-- What is moved now comes before what is moved later. -/
theorem share_rest (n : Nat) : s.share d contents g (count + n)
    = s.share d contents g count
      ++ (s.rest d count).share d contents { g with moved := g.moved + count } n := by
  cases d with
  | put => simp only [share, List.take_add, rest]
  | take => simp only [share, List.take_add, List.drop_drop]

@[simp] theorem share_zero : s.share d contents g 0 = [] := by
  cases d <;> rfl

@[simp] theorem written_zero : s.written d 0 = [] := by
  cases d <;> rfl

end Supply

namespace Ring

variable {r : Ring} {g : Grant}

/-- The ring with the data in the cells on which a transfer works next, around the circle. -/
def filled (r : Ring) (g : Grant) (data : Bytes) : Ring :=
  { r with storage := r.storage.writeAround (g.region.cell r.capacity g.moved) data }

@[simp] theorem filled_nil (r : Ring) (g : Grant) : r.filled g [] = r := rfl

/-- What a source writes to its chunk it writes around. -/
theorem receive_eq_filled {data : Bytes} (hd : data.length ≤ r.room g) :
    r.receive g data = r.filled g data := by
  cases data with
  | nil => rfl
  | cons b bs =>
    simp only [room, Grant.chunk, Grant.rest, Region.dropFirst, Region.spans,
      List.length_cons] at hd
    simp only [receive, filled]
    congr 1
    exact r.storage.write_eq_writeAround (by
      show g.region.cell r.capacity g.moved + (bs.length + 1) ≤ r.capacity
      omega)

/-- What later calls write lies behind what earlier ones wrote. -/
theorem filled_filled (hc : g.region.cell r.capacity g.moved < r.capacity) (data more : Bytes) :
    (r.filled g data).filled { g with moved := g.moved + data.length } more
      = r.filled g (data ++ more) := by
  have hcell : g.region.cell r.capacity (g.moved + data.length)
      = cellAfter r.capacity (g.region.cell r.capacity g.moved) data.length :=
    (cellAfter_cellAfter ..).symm
  simp only [filled, capacity, Storage.size_writeAround] at hc hcell ⊢
  rw [hcell, r.storage.writeAround_append hc]

end Ring

/-- What a call writes of a supply, and what later calls write of the rest. -/
theorem Ring.Carries.filled_rest {r : Ring} {d : Direction} {g : Grant} {bytes : Bytes} {s : Supply}
    {count : Nat} (h : r.Carries d ⟨g, bytes⟩) (hs : r.Sound) (hroom : count ≤ r.room g)
    (hbytes : d = .put → count ≤ s.bytes.length) (n : Nat) :
    (r.receive g (s.written d count)).filled { g with moved := g.moved + count }
        ((s.rest d count).written d n)
      = r.filled g (s.written d (count + n)) := by
  cases d with
  | take => rfl
  | put =>
    have hlen : (s.written .put count).length = count := by
      rw [Supply.written, List.length_take, Nat.min_eq_left (hbytes rfl)]
    have hcell : g.region.cell r.capacity g.moved < r.capacity := by
      have hoff := (hs.coherent.putting _ h.held).1
      rw [Region.cell, hoff, hs.capacity_eq]
      exact cellAfter_lt hs.coherent.tail_lt _
    have hboth := filled_filled hcell (s.written .put count)
      ((s.rest .put count).written .put n)
    rw [hlen] at hboth
    rw [receive_eq_filled (hlen.symm ▸ hroom), hboth]
    exact congrArg _ List.take_add.symm

theorem carriedOf_append (d : Direction) (marks marks' : List Mark) :
    carriedOf d (marks ++ marks') = carriedOf d marks ++ carriedOf d marks' :=
  List.flatMap_append

/-- Of the marks of a call only the reply tells of bytes. -/
theorem Ring.carriedOf_answered (r : Ring) (g : Grant) (offer : Offer) (written : Bytes)
    (reply : Reply) (e : Direction) :
    carriedOf e (.offered g.direction offer :: r.answered g written reply)
      = (Mark.replied g.direction (r.offer g) written reply).carried e := by
  unfold answered
  split
  · simp [carriedOf, Mark.carried]
  · unfold finished
    split <;> simp [carriedOf, Mark.carried]

/-- A take that is under way is offered as many bytes as there is room for in its chunk. -/
theorem Ring.Carries.offered_eq {r : Ring} {g : Grant} {bytes : Bytes}
    (h : r.Carries .take ⟨g, bytes⟩) (hs : r.Sound) :
    r.offered g = (r.contents.drop g.moved).take (r.room g) ∧
      (r.offered g).length = r.room g := by
  have hoffered := hs.offered_take h.held h.moved_le
  have hroom := r.room_le g
  have hcount : g.region.count ≤ r.occupancy.length := (hs.coherent.taking _ h.held).2
  have hmoved : g.moved ≤ g.region.count := h.moved_le
  have hlen := hs.length_contents
  refine ⟨hoffered, ?_⟩
  rw [hoffered, List.length_take, List.length_drop]
  simp only [Grant.remaining] at hroom
  show min (r.room g) (r.contents.length - g.moved) = r.room g
  omega

/-- What a call moves of a supply: its next bytes, or the next ones of the contents. -/
theorem Ring.Carries.carried_call {r : Ring} {d : Direction} {g : Grant} {bytes : Bytes}
    {s : Supply} {reply : Reply} {count : Nat} (h : r.Carries d ⟨g, bytes⟩) (hs : r.Sound)
    (hcounts : reply = .moved count ∨ count = 0 ∧ ∃ e, reply = .failed e)
    (hbytes : d = .put → count ≤ s.bytes.length) (hroom : count ≤ r.room g) :
    (Mark.replied d (r.offer g) (s.written d count) reply).carried d
      = s.share d r.contents g count ∧
    (Mark.replied d (r.offer g) (s.written d count) reply).Honest d := by
  have hdirection : g.direction = d := h.direction
  have hhand : ((r.offer g).atHand (s.written d count)).take count = s.share d r.contents g count ∧
      count ≤ ((r.offer g).atHand (s.written d count)).length := by
    cases d with
    | put =>
      have hle := hbytes rfl
      simp [Ring.offer, hdirection, Offer.atHand, Supply.written, Supply.share, hle, List.take_take]
    | take =>
      obtain ⟨hoffered, hlength⟩ := h.offered_eq hs
      simp only [Ring.offer, hdirection, Offer.atHand, hlength, hroom, and_true, Supply.share]
      rw [hoffered, List.take_take, Nat.min_eq_left hroom]
  rcases hcounts with rfl | ⟨rfl, e, rfl⟩
  · exact ⟨by simpa only [Mark.carried, if_true] using hhand.1, fun _ => hhand.2⟩
  · exact ⟨by simp [Mark.carried], trivial⟩

namespace Passage

variable {p : Passage} {s : Session}

/-- No cancel will be heard of in the calls to come. -/
def Live (p : Passage) (s : Session) : Prop :=
  ∀ q, p.polling = some q → q.awaits = none ∧ s.Unheard q.token

/-- A transfer that calls its stream with an offer. If it is polled, it runs a race. -/
def called (p : Passage) (offer : Offer) : Passage :=
  { p with
    polling := p.polling.map fun q => { q with awaits := some 1 }
    current := some ⟨offer, []⟩ }

/-- A transfer whose stream was called with an offer and has answered. -/
def answered (p : Passage) (offer : Offer) (stream : List Turn) : Passage :=
  ((p.called offer).withStream stream).closeCall

theorem shownPolls_answered (p : Passage) (offer : Offer) (stream : List Turn) :
    (p.answered offer stream).shownPolls = p.shownPolls := by
  unfold shownPolls answered withStream closeCall called
  cases p.polling <;> rfl

theorem Live.next (h : p.Live s) {g : Grant} (hmore : g.remaining ≠ 0) :
    p.next s g = .call (p.polling.map fun q => { q with awaits := some 1 }) := by
  cases hq : p.polling with
  | none => simp [Passage.next, hq, Nat.pos_of_ne_zero hmore]
  | some q =>
    obtain ⟨hawaits, hunheard⟩ := h q hq
    rw [next_unheard hq hunheard hmore, hawaits]
    rfl

theorem Live.next_complete (h : p.Live s) {g : Grant} (hdone : g.remaining = 0) :
    p.next s g = .leave .complete := by
  cases hq : p.polling with
  | none => simp [Passage.next, hq, hdone]
  | some q => simp [Passage.next, hq, Polling.next, (h q hq).1, hdone]

/-- With the answer the race is over, and the transfer is polled as before. -/
theorem Live.polling_answered (h : p.Live s) (offer : Offer) (stream : List Turn) :
    (p.answered offer stream).endRace.polling = p.polling := by
  cases hq : p.polling with
  | none => simp [answered, withStream, closeCall, called, endRace, hq]
  | some q => simp [answered, withStream, closeCall, called, endRace, hq, ← (h q hq).1]

/-- A race does not change what the stream answers. -/
theorem respond_called {d : Direction} {room : Nat} {written : Bytes} {reply : Reply}
    {stream : List Turn} (h : p.respond d room = (.answer written reply, stream)) (offer : Offer) :
    (p.called offer).respond d room = (.answer written reply, stream) := by
  unfold respond at h ⊢
  cases hq : p.polling with
  | none => simpa only [called, hq, Option.map_none] using h
  | some q =>
    simp only [called, hq, Option.map_some] at h ⊢
    split at h <;> simp_all

end Passage

namespace Machine

variable {m m₁ m' : Machine} {p p₁ : Passage} {g : Grant} {d : Direction} {bytes : Bytes}
  {s : Supply}

/-- A stream is called and answers at once. -/
theorem call_answers (hf : m.focus = .transfer p) (hg : p.transfer.grant = some g)
    (hidle : p.current = none) (hlive : p.Live m.session) (hmore : g.remaining ≠ 0)
    {written : Bytes} {reply : Reply} {stream : List Turn}
    (hr : p.respond g.direction ((m.session.ring p.transfer.ring).room g)
      = (.answer written reply, stream)) :
    let r := m.session.ring p.transfer.ring
    m.Passes p.transfer.ring (.offered g.direction (r.offer g) :: r.answered g written reply)
      (hear
        { m with
          focus := .transfer (p.called (r.offer g))
          session := m.session.update p.transfer.ring (r.receive g written) [] }
        ((p.called (r.offer g)).withStream stream) g reply) := by
  have hnext := hlive.next hmore
  have hoffer : m.step
      = some (m.drive (p.called ((m.session.ring p.transfer.ring).offer g))) := by
    rw [step_iff.2 (.offer hf hg hidle), offer_begins hnext]
    rfl
  have hturn := step_iff.2 (.turn
    (m := m.drive (p.called ((m.session.ring p.transfer.ring).offer g))) rfl hg rfl)
  rw [turn_eq] at hturn
  have hr' : (p.called ((m.session.ring p.transfer.ring).offer g)).respond g.direction
      ((m.session.ring (p.called
        ((m.session.ring p.transfer.ring).offer g)).transfer.ring).room g)
      = (.answer written reply, stream) := Passage.respond_called hr _
  simp only [drive, hr'] at hturn
  have hpasses : m.Passes p.transfer.ring _ _ := (Passes.refl.step hoffer).step hturn
  have hmarks : m.marks p.transfer.ring
      = [.offered g.direction ((m.session.ring p.transfer.ring).offer g)] := by
    simp only [marks, hf, Passage.marks, Passage.parks?, hg, hidle, hnext, marksAt]
    rfl
  have hmarks' : (m.drive (p.called ((m.session.ring p.transfer.ring).offer g))).marks
      p.transfer.ring = (m.session.ring p.transfer.ring).answered g written reply := by
    have hg' : (p.called ((m.session.ring p.transfer.ring).offer g)).transfer.grant = some g := hg
    have hcall : (p.called ((m.session.ring p.transfer.ring).offer g)).current.isSome = true := rfl
    have hplace : (p.called ((m.session.ring p.transfer.ring).offer g)).transfer.ring
        = p.transfer.ring := rfl
    simp only [marks, drive, Passage.marks, Passage.parks?, hg', hcall, marksAt, hplace,
      if_true] at hr' ⊢
    simp only [hr', List.append_nil]
  rw [hmarks, hmarks'] at hpasses
  exact hpasses

/-- A transfer that ends leaves the ring that its commit yields. -/
theorem Works.settle_commits (h : m.Works p) (hg : p.transfer.grant = some g) {ending : Ending}
    (hl : p.Leaves g ending) : ∃ events, (m.session.ring p.transfer.ring).commit g
      = .ok ((m.settle p g ending).session.ring p.transfer.ring, events) := by
  obtain ⟨ring', events, hcommit⟩ := Ring.commit_of_held (h.custody.held_eq hg)
  obtain ⟨hafter, -⟩ := h.settle_answers hg hcommit hl
  exact ⟨events, hafter ▸ hcommit⟩

theorem Works.called (h : m.Works p) (g : Grant) (written : Bytes) (offer : Offer)
    (stream : List Turn) (focus : Focus) :
    Works { m with
      focus
      session := m.session.update p.transfer.ring
        ((m.session.ring p.transfer.ring).receive g written) [] } (p.answered offer stream) := by
  have hreceive := ((h.receive g written rfl).1.withStream stream).1
  refine ⟨hreceive.custody, ?_, h.suspended⟩
  have hcalled : (p.called offer).Calm := by
    refine ⟨h.calm.done, h.calm.calls, ?_⟩
    rintro call ⟨⟩
    simp
  exact Passage.Calm.closeCall ⟨hcalled.done, hcalled.calls, hcalled.current⟩

/-- While a call is answered nothing changes for anybody else. -/
theorem proceeds_answered (m : Machine) {ring : Ring}
    (hp : p.transfer.ring < m.session.rings.size)
    (hcontents : ring.contents = (m.session.ring p.transfer.ring).contents)
    (hheld : ring.occupancy.held = (m.session.ring p.transfer.ring).occupancy.held)
    (offer : Offer) (stream : List Turn) (focus : Focus) :
    m.Proceeds p { m with focus, session := m.session.update p.transfer.ring ring [] }
      (p.answered offer stream) := by
  have hafter : (m.session.update p.transfer.ring ring []).ring p.transfer.ring = ring :=
    Session.ring_update_self _ hp ..
  refine ⟨rfl, Session.sameTables_update .., rfl, rfl, p.shownPolls_answered offer stream, rfl, rfl,
    ?_, ?_⟩
  · show ((m.session.update p.transfer.ring ring []).ring p.transfer.ring).contents = _
    rw [hafter, hcontents]
  · show ((m.session.update p.transfer.ring ring []).ring p.transfer.ring).occupancy.held = _
    rw [hafter, hheld]

/-- A transfer is between two calls of its stream. -/
structure Between (m : Machine) (p : Passage) (d : Direction) (g : Grant) (bytes : Bytes) :
    Prop where
  sound : m.Sound
  focus : m.focus = .transfer p
  grant : p.transfer.grant = some g
  idle : p.current = none
  live : p.Live m.session
  carries : (m.session.ring p.transfer.ring).Carries d ⟨g, bytes⟩

/-- A transfer has moved what it was still to move, or all of a supply. -/
structure Served (m : Machine) (p : Passage) (d : Direction) (g : Grant) (bytes : Bytes)
    (s : Supply) (marks : List Mark) (m' : Machine) : Prop where
  passes : m.Passes p.transfer.ring marks m'
  serves : m.Serves p d (g.moved + s.moved g.remaining) (bytes ++ carriedOf d marks)
    (s.ending g.remaining) m'
  share : carriedOf d marks
    = s.share d (m.session.ring p.transfer.ring).contents g (s.moved g.remaining)
  other : ∀ e ≠ d, carriedOf e marks = []
  /-- The ring is committed once, with what the stream has written in all its calls. -/
  commits : ∃ events, ((m.session.ring p.transfer.ring).filled g
      (s.written d (s.moved g.remaining))).commit { g with moved := g.moved + s.moved g.remaining }
    = .ok (m'.session.ring p.transfer.ring, events)

namespace Between

theorem works (h : m.Between p d g bytes) : m.Works p := h.sound.orderly.works h.focus

theorem known (h : m.Between p d g bytes) : p.transfer.ring < m.session.rings.size :=
  (h.works.custody.fits _ (List.mem_cons_self ..)).known

theorem ring (h : m.Between p d g bytes) : (m.session.ring p.transfer.ring).Sound :=
  h.works.custody.sound h.known

/-- Nothing is left to move. -/
theorem served_complete (h : m.Between p d g bytes) (hdone : g.remaining = 0) (s : Supply) :
    ∃ m' marks, m.Served p d g bytes s marks m' := by
  have hnext := h.live.next_complete hdone
  have hmoved : s.moved g.remaining = 0 := by
    have := s.moved_le g.remaining
    omega
  have hending : s.ending g.remaining = .complete := if_pos (by omega)
  have hstep := step_iff.2 (.offer h.focus h.grant h.idle)
  simp only [offer, hnext] at hstep
  have hmarks : m.marks p.transfer.ring
      = [(m.session.ring p.transfer.ring).finished g (some .complete)] := by
    simp [marks, h.focus, Passage.marks, Passage.parks?, h.grant, h.idle, hnext, marksAt]
  have hcarried e : carriedOf e (m.marks p.transfer.ring) = [] := by
    rw [hmarks]
    unfold Ring.finished
    split <;> rfl
  refine ⟨_, _, Passes.refl.step hstep, ?_, ?_, fun e _ => hcarried e, ?_⟩
  · simp only [List.nil_append, hcarried, List.append_nil, hmoved, hending, Nat.add_zero]
    exact h.works.settle_serves h.grant h.carries hdone
  · simp only [List.nil_append, hcarried, hmoved, Supply.share_zero]
  · rw [hmoved, Supply.written_zero, Ring.filled_nil]
    exact h.works.settle_commits h.grant hdone

/-- The stream closes. -/
theorem served_closed (h : m.Between p d g bytes) (hmore : g.remaining ≠ 0) {reply : Reply}
    {stream : List Turn} (total : s.total = some 0)
    (response : p.respond d ((m.session.ring p.transfer.ring).room g) = (.answer [] reply, stream))
    (heard : g.hear reply = (g, some s.closing.ending))
    (silent : ∀ count, reply = .moved count → count = 0) :
    ∃ m' marks, m.Served p d g bytes s marks m' := by
  obtain rfl : g.direction = d := h.carries.direction
  have hpasses := call_answers h.focus h.grant h.idle h.live hmore response
  simp only [hear_eq, heard] at hpasses
  have hmoved : s.moved g.remaining = 0 := by simp [Supply.moved, total]
  have hending : s.ending g.remaining = s.closing.ending := if_neg (by omega)
  let offer := (m.session.ring p.transfer.ring).offer g
  have hcalled := h.works.called g [] offer stream
    (.transfer (p.called offer))
  have hproceeds := proceeds_answered m h.known rfl rfl offer stream (.transfer (p.called offer))
  have hcarried e : carriedOf e (.offered g.direction offer ::
      (m.session.ring p.transfer.ring).answered g [] reply) = [] := by
    rw [Ring.carriedOf_answered]
    cases reply with
    | moved count => simp [Mark.carried, silent count rfl]
    | _ => rfl
  have hcommits := hcalled.settle_commits h.grant (hear_leaves heard hmore)
  simp only [Ring.receive_nil, Session.update_ring] at hcommits
  refine ⟨_, _, hpasses, ?_, ?_, fun e _ => hcarried e, ?_⟩
  · rw [hcarried, List.append_nil, hmoved, hending, Nat.add_zero]
    refine hproceeds.serves (hcalled.settle_serves h.grant ?_ (hear_leaves heard hmore))
    simp only [Ring.receive_nil, Session.update_ring]
    exact h.carries
  · rw [hcarried, hmoved, Supply.share_zero]
  · simp only [hmoved, Supply.written_zero, Ring.filled_nil, Ring.receive_nil,
      Session.update_ring]
    exact hcommits

/-- A call moves some bytes of the supply, and what is served from there on is served from here. -/
theorem served_call (h : m.Between p d g bytes) (hmore : g.remaining ≠ 0) {count : Nat}
    {reply : Reply} {stream : List Turn}
    (le_room : count ≤ (m.session.ring p.transfer.ring).room g)
    (le_total : ∀ total, s.total = some total → count ≤ total)
    (response : p.respond d ((m.session.ring p.transfer.ring).room g)
      = (.answer (s.written d count) reply, stream))
    (counts : reply = .moved count ∨ count = 0 ∧ ∃ e, reply = .failed e)
    (heard : g.hear reply = ({ g with moved := g.moved + count }, none))
    (hbytes : d = .put → count ≤ s.bytes.length) :
    ∃ (m₁ : Machine) (p₁ : Passage) (bytes₁ : Bytes),
      m₁.Between p₁ d { g with moved := g.moved + count } bytes₁ ∧
      p₁.transfer.stream = stream ∧ ∀ m' marks,
        m₁.Served p₁ d { g with moved := g.moved + count } bytes₁ (s.rest d count) marks m' →
        ∃ marks', m.Served p d g bytes s marks' m' := by
  obtain rfl : g.direction = d := h.carries.direction
  have hle : count ≤ g.remaining :=
    Nat.le_trans le_room ((m.session.ring p.transfer.ring).room_le g)
  have hpasses := call_answers h.focus h.grant h.idle h.live hmore response
  simp only [hear_eq, heard] at hpasses
  have haccepts := Passage.respond_accepts response
  obtain ⟨hcarried, hhonest⟩ := h.carries.carried_call h.ring counts hbytes le_room
  have hcall := h.carries.reply h.ring haccepts hhonest
  rw [heard, hcarried] at hcall
  let offer := (m.session.ring p.transfer.ring).offer g
  have hproceeds := proceeds_answered m h.known (h.carries.receive_none h.ring haccepts).2 rfl offer
    stream (.transfer ((p.answered offer stream).endRace.withGrant
      { g with moved := g.moved + count }))
  have hlive : ((p.answered offer stream).endRace.withGrant
      { g with moved := g.moved + count }).Live (m.session.update p.transfer.ring
        ((m.session.ring p.transfer.ring).receive g (s.written g.direction count)) []) := by
    intro q hq
    exact h.live q ((h.live.polling_answered offer stream).symm.trans hq)
  have hafter := Session.ring_update_self m.session h.known
    ((m.session.ring p.transfer.ring).receive g (s.written g.direction count)) []
  refine ⟨_, _, _, ⟨h.sound.reaches hpasses.reaches, rfl, rfl, rfl, hlive, hafter ▸ hcall⟩, rfl,
    fun m' marks hserved => ?_⟩
  obtain ⟨hrest, hserves, hshare, hnone, events, hcommit⟩ := hserved
  have hremaining : ({ g with moved := g.moved + count } : Grant).remaining
      = g.remaining - count := by
    simp only [Grant.remaining]
    omega
  rw [hremaining] at hserves hshare hcommit
  have hmoved := Supply.moved_rest (d := g.direction) hle le_total
  have hmarks e := (m.session.ring p.transfer.ring).carriedOf_answered g offer
    (s.written g.direction count) reply e
  refine ⟨_, hpasses.trans hrest, ?_, ?_, ?_, events, ?_⟩
  · rw [carriedOf_append, hmarks, hcarried, hmoved, ← List.append_assoc, ← Nat.add_assoc,
      ← Supply.ending_rest (d := g.direction) hle le_total]
    exact (hproceeds.goes_on _).serves hserves
  · rw [carriedOf_append, hmarks, hcarried, hmoved, Supply.share_rest]
    refine congrArg _ (hshare.trans ?_)
    exact congrArg (fun contents =>
      Supply.share _ g.direction contents { g with moved := g.moved + count } _) hproceeds.contents
  · intro e he
    rw [carriedOf_append, hmarks, hnone e he, List.append_nil]
    refine Mark.carried_eq_nil ?_
    rintro _ _ _ ⟨⟩
    exact he rfl
  · rw [hmoved, ← h.carries.filled_rest h.ring le_room hbytes, ← Nat.add_assoc, ← hafter]
    exact hcommit

/-- **A transfer moves what it was asked for, or all of the supply.** The bytes and the ending do
not depend on how the stream divides its supply, nor on how the region is divided into chunks. -/
theorem served (h : m.Between p d g bytes) (hsupply : Supplies d p.transfer.stream s) :
    ∃ m' marks, m.Served p d g bytes s marks m' := by
  -- with every call the script gets shorter or fewer bytes are left to move
  induction hk : g.remaining + p.transfer.stream.length using Nat.strongRecOn
    generalizing m p g bytes s with
  | _ k ih =>
    by_cases hmore : g.remaining = 0
    · exact h.served_complete hmore s
    cases hsupply.meets (h.ring.room_pos hmore h.carries.held) with
    | closed reply stream total response heard silent =>
      exact h.served_closed hmore total response (heard g) silent
    | @goes_on count reply stream le_room le_total response counts heard hbytes more less =>
      have hle : count ≤ g.remaining :=
        Nat.le_trans le_room ((m.session.ring p.transfer.ring).room_le g)
      obtain ⟨m₁, p₁, bytes₁, h₁, rfl, hserved⟩ :=
        h.served_call hmore le_room le_total response counts (heard g hle) hbytes
      have hless : ({ g with moved := g.moved + count } : Grant).remaining
          + p₁.transfer.stream.length < k := by
        simp only [Grant.remaining] at hle hk ⊢
        omega
      obtain ⟨m', marks, h'⟩ := ih _ hless h₁ more rfl
      exact ⟨m', hserved m' marks h'⟩

end Between

end Machine

end CyclicBuffer
