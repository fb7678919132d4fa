import CyclicBuffer.Proofs.Account
import Mathlib.Algebra.Ring.Nat

/-!
# The journal

What a session notes about its rings can be read as an account of them. With a commit the length of
the ring changes by what it publishes, beside what was discarded to make room
(`Ring.Notes.accounts`). A verdict is the only thing that warns: of a transfer that falls short,
once, with the bytes that it moved, unless it is a fill whose source was at its end
(`Request.warnings_verdict`). What fails at once leaves no event (`Session.errand_failed`).
-/

namespace CyclicBuffer

open Occupancy

/-! ## Reading events -/

/-- The warnings among events. -/
def warnings (events : List Event) : List Event := events.filter fun e => e.level == .warn

theorem warnings_append (events more : List Event) :
    warnings (events ++ more) = warnings events ++ warnings more :=
  List.filter_append ..

theorem warnings_eq_nil {events : List Event} (h : ∀ e ∈ events, e.level ≠ .warn) :
    warnings events = [] :=
  List.filter_eq_nil_iff.2 fun e he => by simpa using h e he

/-- What was discarded to make room, in bytes. -/
def Event.deficit : Event → Nat
  | .discarded deficit => deficit
  | _ => 0

def discardedOf (events : List Event) : Nat := (events.map Event.deficit).sum

theorem discardedOf_append (events more : List Event) :
    discardedOf (events ++ more) = discardedOf events + discardedOf more := by
  simp [discardedOf]

/-- The length of a ring before and after events goes with the commit among them. A put may have
discarded bytes before. -/
def Accounts (before : Nat) (events : List Event) (after : Nat) : Prop :=
  ∀ d held moved, .committed d held moved ∈ events →
    match d with
    | .put => after + discardedOf events = before + moved
    | .take => after + moved = before

theorem accounts_of_uncommitted {before after : Nat} {events : List Event}
    (h : ∀ d held moved, Event.committed d held moved ∉ events) : Accounts before events after :=
  fun d held moved hmem => absurd hmem (h d held moved)

/-! ## Rings -/

namespace Ring

variable {r r' : Ring} {g : Grant} {events : List Event}

theorem eq_of_mem_discards {d : Direction} {count : Nat} {e : Event} (h : e ∈ r.discards d count) :
    e = .discarded (r.occupancy.deficit count) := by
  unfold discards at h
  split at h
  · split at h <;> simp_all
  · cases h

/-- A put says of all that it discards that it does. -/
theorem discardedOf_discards (r : Ring) (count : Nat) :
    discardedOf (r.discards .put count) = r.occupancy.deficit count := by
  unfold discards
  dsimp only
  split
  · simp [discardedOf, *]
  · simp [discardedOf, Event.deficit]

theorem warnings_reserve {d : Direction} {count : Nat}
    (h : r.reserve d count = .ok (g, r', events)) : warnings events = [] := by
  obtain ⟨region, o, -, -, -, rfl⟩ := reserve_ok h
  refine warnings_eq_nil fun e he => ?_
  rcases List.mem_append.1 he with he | he
  · simp [eq_of_mem_discards he, Event.level]
  · simp [List.mem_singleton.1 he, Event.level]

theorem committed_not_mem_reserve {d : Direction} {count : Nat}
    (h : r.reserve d count = .ok (g, r', events)) (e : Direction) (held moved : Nat) :
    Event.committed e held moved ∉ events := by
  obtain ⟨region, o, -, -, -, rfl⟩ := reserve_ok h
  intro hmem
  rcases List.mem_append.1 hmem with hmem | hmem
  · cases eq_of_mem_discards hmem
  · cases List.mem_singleton.1 hmem

theorem warnings_commit (h : r.commit g = .ok (r', events)) : warnings events = [] := by
  obtain ⟨_, -, -, rfl⟩ := commit_ok h
  rfl

/-- A commit accounts for the grant, with warnings before and after it. -/
theorem Sound.accounts_commit (hs : r.Sound)
    (hheld : r.occupancy.held g.direction = some g.region) (hm : g.moved ≤ g.region.count)
    (hc : r.commit g = .ok (r', events)) {before after : List Event}
    (hwarn : ∀ e ∈ before ++ after, e.level = .warn) :
    Accounts r.length (before ++ events ++ after) r'.length := by
  have hlength := (hs.publishes hheld hm hc).length
  obtain ⟨_, -, -, rfl⟩ := commit_ok hc
  rw [List.forall_mem_append] at hwarn
  have hnone (es : List Event) (hes : ∀ e ∈ es, e.level = .warn) : discardedOf es = 0 := by
    refine List.sum_eq_zero_iff_forall_eq_nat.2 fun n hn => ?_
    obtain ⟨e, he, rfl⟩ := List.mem_map.1 hn
    have hlevel := hes e he
    cases e <;> first | rfl | cases hlevel
  intro d held moved hmem
  obtain ⟨rfl, -, rfl⟩ : d = g.direction ∧ held = g.region.count ∧ moved = g.moved := by
    rcases List.mem_append.1 hmem with hmem | hmem
    · rcases List.mem_append.1 hmem with hmem | hmem
      · cases hwarn.1 _ hmem
      · simpa using hmem
    · cases hwarn.2 _ hmem
  rw [discardedOf_append, discardedOf_append, hnone _ hwarn.1, hnone _ hwarn.2]
  cases hd : g.direction with
  | put =>
    rw [hd] at hlength
    simpa [discardedOf, Event.deficit] using hlength
  | take =>
    rw [hd] at hlength
    exact hlength

theorem Sound.accounts_moveWhole (h : r.Sound) {α : Type} (d : Direction) (count : Nat)
    (work : Region → Storage → α × Storage) :
    Accounts r.length (r.moveWhole d count work).events (r.moveWhole d count work).ring.length := by
  cases hro : r.occupancy.reserve d count with
  | error e =>
    rw [moveWhole_of_error hro]
    exact accounts_of_uncommitted fun _ _ _ => List.not_mem_nil
  | ok v =>
    obtain ⟨region, o⟩ := v
    obtain ⟨opening, hr⟩ := reserve_of_ok hro
    obtain ⟨r'', closing, hc, heq⟩ := h.moveWhole_ok work hr
    have hopening := committed_not_mem_reserve hr
    obtain ⟨_, _, -, -, -, rfl⟩ := reserve_ok hr
    obtain ⟨o'', hco, rfl, rfl⟩ := commit_ok hc
    rw [heq]
    intro e held moved hmem
    obtain ⟨rfl, -, rfl⟩ : e = d ∧ held = region.count ∧ moved = count := by
      rcases List.mem_append.1 hmem with hmem | hmem
      · exact absurd hmem (hopening e held moved)
      · simpa using hmem
    cases e with
    | put =>
      have hcommit : o.commitPut moved = .ok o'' := hco
      obtain ⟨-, hcount, -, -, rfl⟩ := h.coherent.reservePut_ok hro
      obtain ⟨_, -, rfl⟩ := commitPut_ok.1 hcommit
      have hdeficit := h.coherent.deficit_le hcount
      rw [discardedOf_append, discardedOf_append, discardedOf_discards]
      show r.occupancy.length - r.occupancy.deficit moved + moved
        + (r.occupancy.deficit moved + 0 + 0) = r.occupancy.length + moved
      omega
    | take =>
      have hcommit : o.commitTake moved = .ok o'' := hco
      obtain ⟨-, hcount, -, rfl⟩ := reserveTake_ok.1 hro
      obtain ⟨_, -, rfl⟩ := commitTake_ok.1 hcommit
      show r.occupancy.length - moved + moved = r.occupancy.length
      omega

/-- A whole operation accounts for what it moves. -/
theorem Sound.accounts_apply (h : r.Sound) (operation : Operation) :
    Accounts r.length (r.apply operation).events (r.apply operation).ring.length := by
  have hdoes := r.apply_does operation
  generalize (r.apply operation).ring = r', (r.apply operation).events = events at hdoes ⊢
  cases hdoes with
  | put data => exact h.put_whole data ▸ h.accounts_moveWhole .put _ _
  | take count => exact h.take_whole count ▸ h.accounts_moveWhole .take _ _
  | _ => exact accounts_of_uncommitted (by simp)

theorem warnings_moveAll (d : Direction) (count : Nat)
    (work : Span → Storage × Bytes → Storage × Bytes) (data : Bytes) :
    warnings (r.moveAll d count work data).events = [] := by
  unfold moveAll
  split
  · rfl
  · rename_i hr
    dsimp only
    split
    · exact warnings_reserve hr
    · rename_i hc
      rw [warnings_append, warnings_reserve hr, warnings_commit hc]
      rfl

/-- An operation never warns. -/
theorem warnings_apply (r : Ring) (operation : Operation) :
    warnings (r.apply operation).events = [] := by
  have hdoes := r.apply_does operation
  generalize (r.apply operation).ring = r', (r.apply operation).events = events at hdoes ⊢
  cases hdoes with
  | put data => exact warnings_moveAll ..
  | take count => exact warnings_moveAll ..
  | _ => rfl

/-- A ring that is built accounts for what it is built with, and warns of nothing. -/
theorem build_accounts {b : Blueprint} (h : b.build = (.ok r, events)) :
    Accounts 0 events r.length ∧ warnings events = [] := by
  unfold Blueprint.build at h
  split at h
  · cases h
  rename_i hc
  have hs := sound_vacant (Nat.one_le_iff_ne_zero.2 hc) b.overwriting
  split at h
  · cases h
  cases hb : b.contents with
  | none =>
    simp only [hb] at h
    cases h
    exact ⟨accounts_of_uncommitted (by simp), rfl⟩
  | some data =>
    simp only [hb] at h
    split at h <;> cases h
    have haccounts := hs.accounts_apply (.put data)
    have hwarnings := warnings_apply (vacant b.capacity b.overwriting) (.put data)
    refine ⟨fun d held moved hmem => ?_, ?_⟩
    · rw [discardedOf_append]
      exact haccounts d held moved (by simpa [apply, Outcome.map] using hmem)
    · rw [warnings_append]
      simpa [apply, Outcome.map, warnings, Event.level] using hwarnings

end Ring

/-- What cannot be built leaves no event. -/
theorem Blueprint.build_failed {b : Blueprint} {f : Failure} {events : List Event}
    (h : b.build = (.error f, events)) : events = [] := by
  unfold build at h
  split at h
  · cases h
    rfl
  rename_i hc
  split at h
  · cases h
    rfl
  cases hb : b.contents with
  | none =>
    simp only [hb] at h
    cases h
  | some data =>
    simp only [hb] at h
    have hs := Ring.sound_vacant (Nat.one_le_iff_ne_zero.2 hc) b.overwriting
    split at h
    · rename_i hput
      cases h
      have hr : ((Ring.vacant b.capacity b.overwriting).apply (.put data)).result = .error f := by
        simp only [Ring.apply, Outcome.map, hput]
        rfl
      exact congrArg Outcome.events (hs.apply_failed hr)
    · cases h

/-! ## Verdicts -/

/-- What is noted of a verdict, around the events of the commit. -/
def Verdict.noted (v : Verdict (Option Nat)) (events : List Event) : List Event :=
  v.before ++ events ++ v.after

theorem Ring.settle_ok {r r' : Ring} {g : Grant} {events : List Event}
    (h : r.commit g = .ok (r', events)) (v : Verdict (Option Nat)) :
    r.settle g v = ⟨v.result, r', v.noted events⟩ := by
  simp only [settle, h, Verdict.noted]

/-- The commit itself does not warn. -/
theorem Ring.warnings_noted {r r' : Ring} {g : Grant} {events : List Event}
    (h : r.commit g = .ok (r', events)) (v : Verdict (Option Nat)) :
    warnings (v.noted events) = warnings v.before ++ warnings v.after := by
  simp only [Verdict.noted, warnings_append, warnings_commit h, List.append_nil]

namespace Request

variable {ending : Ending}

/-- A transfer returns with a fault if it ended with it. -/
theorem verdict_fault_iff (r : Request) (moved : Nat) (ending : Ending) (f : Fault) :
    (r.verdict moved ending).result.map Value.ofCount = .error (.fault f)
      ↔ ending = .fault f := by
  unfold verdict
  cases ending <;> cases r.purpose <;> simp [Except.map]

/-- All that a verdict reports are warnings. -/
theorem verdict_level (r : Request) (moved : Nat) (ending : Ending) :
    ∀ e ∈ (r.verdict moved ending).before ++ (r.verdict moved ending).after, e.level = .warn := by
  unfold verdict
  cases ending <;> cases r.purpose <;> simp [Event.level]

/-- A transfer that falls short warns once and says how far it got, unless it is a fill whose source
ended. A complete transfer does not warn. -/
theorem warnings_verdict (r : Request) (moved : Nat) (hfault : ∀ f, ending ≠ .fault f) :
    let verdict := r.verdict moved ending
    let warned := warnings verdict.before ++ warnings verdict.after
    (ending = .complete ∨ ending = .exhausted ∧ r.purpose = .fill → warned = []) ∧
    (¬ (ending = .complete ∨ ending = .exhausted ∧ r.purpose = .fill) →
      ∃ w, warned = [w] ∧ w.details.lookup "transferred" = some (.count moved)) := by
  unfold verdict
  cases ending with
  | fault f => exact absurd rfl (hfault f)
  | _ =>
    cases r.purpose <;> simp [warnings, Event.level, Event.details, List.lookup_cons]

end Request

/-! ## What is noted about a ring -/

/-- What a session notes about a ring, short of a verdict. -/
inductive Ring.Notes (r r' : Ring) : List Event → Prop
  | nothing : Notes r r' []
  | reserve {d : Direction} {count : Nat} {g : Grant} {events : List Event}
      (h : r.reserve d count = .ok (g, r', events)) : Notes r r' events
  /-- A task is let go. -/
  | release {g : Grant} {events : List Event} (sound : r.Sound)
      (held : r.occupancy.held g.direction = some g.region) (moved_le : g.moved ≤ g.region.count)
      (h : r.commit g = .ok (r', events)) : Notes r r' events
  | operate (sound : r.Sound) (operation : Operation) (h : r' = (r.apply operation).ring) :
      Notes r r' (r.apply operation).events
  | build {b : Blueprint} {events : List Event} (fresh : r.length = 0)
      (h : b.build = (.ok r', events)) : Notes r r' events

namespace Ring.Notes

variable {r r' : Ring} {events : List Event}

/-- What is noted accounts for the length of the ring. -/
theorem accounts (h : r.Notes r' events) : Accounts r.length events r'.length := by
  cases h with
  | nothing => exact accounts_of_uncommitted fun _ _ _ => List.not_mem_nil
  | reserve h =>
    exact accounts_of_uncommitted (committed_not_mem_reserve h)
  | release sound held moved_le h =>
    have haccounts : Accounts r.length ([] ++ events ++ []) r'.length :=
      sound.accounts_commit held moved_le h (by simp)
    simpa using haccounts
  | operate sound operation h =>
    rw [h]
    exact sound.accounts_apply operation
  | build fresh h =>
    rw [fresh]
    exact (build_accounts h).1

/-- Short of a verdict nothing warns. -/
theorem quiet (h : r.Notes r' events) : warnings events = [] := by
  cases h with
  | nothing => rfl
  | reserve h => exact warnings_reserve h
  | release sound held moved_le h => exact warnings_commit h
  | operate sound operation h => exact r.warnings_apply operation
  | build fresh h => exact (build_accounts h).2

end Ring.Notes

namespace Session

/-- A session writes events about one ring into its journal. -/
structure Adds (s : Session) (place : Nat) (events : List Event) (s' : Session) : Prop where
  journal : s'.journal = s.journal ++ events.map fun e => (place, e)
  notes : (s.ring place).Notes (s'.ring place) events

variable {s s' : Session} {place : Nat} {events : List Event} {ts : List Transfer}

theorem adds_nothing (h : s'.journal = s.journal) : s.Adds 0 [] s' :=
  ⟨by simpa using h, .nothing⟩

/-- A change of a ring is noted with the ring. -/
theorem adds_update {ring : Ring} (hp : place < s.rings.size)
    (h : (s.ring place).Notes ring events) : s.Adds place events (s.update place ring events) :=
  ⟨rfl, (s.ring_update_self hp ring events).symm ▸ h⟩

/-- A task that is let go leaves its commit. -/
theorem dropTask_adds (h : Custody s (ts ++ s.waiting)) {id : Nat}
    (hok : s.dropTask id = .ok (s', events)) : ∃ place, s.Adds place events s' := by
  unfold dropTask at hok
  cases ht : s.task? id with
  | none =>
    simp only [ht] at hok
    cases hok
    exact ⟨0, adds_nothing rfl⟩
  | some task =>
    simp only [ht] at hok
    have hcustody := (h.removeTask ht).custody
    have hfits := hcustody.fits _ (List.mem_cons_self ..)
    unfold abandon at hok
    split at hok
    · cases hok
      exact ⟨0, adds_nothing rfl⟩
    · rename_i g hg
      cases hc : ((s.removeTask id).ring task.transfer.ring).commit g with
      | error f =>
        rw [hc] at hok
        cases hok
      | ok committed =>
        rw [hc] at hok
        cases hok
        have hadds := adds_update hfits.known (.release (hcustody.sound hfits.known)
          (hcustody.held_eq hg) (hfits.moved_le g hg) hc)
        exact ⟨_, hadds.journal, hadds.notes⟩

theorem addTask_adds (h : Custody s (ts ++ s.waiting)) {id : Nat} {task : Task}
    (hok : s.addTask id task = .ok (s', events)) : ∃ place, s.Adds place events s' := by
  unfold addTask at hok
  cases hd : s.dropTask id with
  | error f =>
    rw [hd] at hok
    cases hok
  | ok dropped =>
    rw [hd] at hok
    cases hok
    obtain ⟨place, hjournal, hnotes⟩ := dropTask_adds h hd
    exact ⟨place, hjournal, hnotes⟩

theorem errand_adds (h : Custody s (ts ++ s.waiting)) (name : Nat) (e : Errand) :
    ∃ place events, s.Adds place events (s.errand name e).session := by
  have hnothing : ∃ place events, s.Adds place events s := ⟨0, [], adds_nothing rfl⟩
  cases e with
  | create blueprint =>
    simp only [errand]
    split
    · exact hnothing
    · rename_i ring events hb
      refine ⟨s.rings.size, events, rfl, ?_⟩
      have hnew : (s.addRing name ring events).ring s.rings.size = ring := by
        rw [s.ring_addRing, if_pos rfl]
      have hfresh : (s.ring s.rings.size).length = 0 := by
        simp [Session.ring, Array.getD_eq_getD_getElem?]
        rfl
      rw [hnew]
      exact .build hfresh hb
  | operate operation =>
    simp only [errand, onRing]
    split
    · exact hnothing
    · rename_i place hplace
      have hknown := h.named _ (mem_of_place? hplace)
      exact ⟨place, _, adds_update hknown (.operate (h.sound hknown) operation rfl)⟩
  | drop id =>
    simp only [errand]
    split
    · exact hnothing
    · rename_i hd
      obtain ⟨place, hadds⟩ := dropTask_adds h hd
      exact ⟨place, _, hadds⟩
  | isWoken id =>
    simp only [errand]
    split <;> exact hnothing
  | isCancelled token => exact hnothing
  | _ =>
    simp only [errand, onRing]
    split <;> exact hnothing

theorem spawn_adds (h : Custody s (ts ++ s.waiting)) (name id : Nat) (request : Request)
    (stream : List Turn) (token : Nat) :
    ∃ place events, s.Adds place events (s.spawn name id request stream token).session := by
  have hnothing : ∃ place events, s.Adds place events s := ⟨0, [], adds_nothing rfl⟩
  unfold spawn onRing
  split
  · exact hnothing
  · dsimp only
    split
    · exact hnothing
    · rename_i hadd
      obtain ⟨place, hadds⟩ := addTask_adds h hadd
      exact ⟨place, _, hadds⟩

theorem shown_failed {operation : Operation} {result : Except Failure Operation.Value}
    {f : Failure} {destination : Option Bytes}
    (h : shown operation result = .done (.error f) destination) : result = .error f := by
  unfold shown at h
  split at h
  · split at h <;> cases h
    rfl
  · cases result <;> cases h
    rfl

/-- A command that fails at once leaves the session as it was, and no event. -/
theorem errand_failed (h : Custody s ts) {name : Nat} {e : Errand} {f : Failure}
    {destination : Option Bytes} (hr : (s.errand name e).reaction = .done (.error f) destination) :
    (s.errand name e).session = s ∧ (s.errand name e).events = [] := by
  cases e with
  | create blueprint =>
    simp only [errand] at hr ⊢
    split at hr <;> rename_i hb
    · cases hr
      exact ⟨rfl, Blueprint.build_failed hb⟩
    · cases hr
  | operate operation =>
    simp only [errand, onRing] at hr ⊢
    split at hr <;> rename_i hp
    · cases hr
    · rename_i place
      have hresult := shown_failed hr
      have hs := h.sound (h.named _ (mem_of_place? hp))
      dsimp only
      rw [hs.apply_failed hresult]
      exact ⟨s.update_ring place, rfl⟩
  | drop id =>
    simp only [errand] at hr ⊢
    split at hr <;> cases hr
    exact ⟨rfl, rfl⟩
  | isWoken id =>
    simp only [errand] at hr
    split at hr <;> cases hr
  | isCancelled token => cases hr
  | _ =>
    simp only [errand, onRing] at hr
    split at hr <;> cases hr

theorem spawn_failed {name id : Nat} {request : Request} {stream : List Turn} {token : Nat}
    {f : Failure} {destination : Option Bytes}
    (hr : (s.spawn name id request stream token).reaction = .done (.error f) destination) :
    (s.spawn name id request stream token).session = s ∧
      (s.spawn name id request stream token).events = [] := by
  unfold spawn onRing at hr ⊢
  cases hp : s.place? name with
  | none => simp [hp] at hr
  | some place =>
    simp only [hp] at hr ⊢
    split at hr
    · exact ⟨rfl, rfl⟩
    · cases hr

end Session

end CyclicBuffer
