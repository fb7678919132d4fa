import CyclicBuffer.Proofs.Agreement
import CyclicBuffer.Proofs.Renewal

/-!
# Construction

A ring is built of a capacity, the last word on overwriting, and the last contents given: whatever
else was said before is forgotten (`setAll_blank`). The ring that is built is the one that an empty
ring becomes when the contents are put into it, and there is one if they fit or their end will do
(`build_setAll`).
-/

namespace CyclicBuffer

open Occupancy

/-! ## The last word -/

namespace Setting

/-- What a setting says on overwriting. -/
def allowed? : Setting → Option Bool
  | .overwriting allowed => some allowed
  | .contents _ => none

/-- The bytes to start with that a setting gives. -/
def data? : Setting → Option Bytes
  | .overwriting _ => none
  | .contents data => some data

/-- The last word on overwriting; a ring does not overwrite unless it is told to. -/
def lastAllowed (settings : List Setting) : Bool :=
  (settings.filterMap allowed?).getLast?.getD false

/-- The bytes that were given last. -/
def lastData (settings : List Setting) : Option Bytes := (settings.filterMap data?).getLast?

end Setting

namespace Blueprint

/-- A setting replaces what was said on the same matter before it, and nothing else. -/
theorem setAll_eq (b : Blueprint) (settings : List Setting) :
    b.setAll settings = ⟨b.capacity,
      (settings.filterMap Setting.allowed?).getLast?.getD b.overwriting,
      (settings.filterMap Setting.data?).getLast?.or b.contents⟩ := by
  induction settings generalizing b with
  | nil => rfl
  | cons setting settings ih =>
    have hcons : b.setAll (setting :: settings) = (b.set setting).setAll settings := rfl
    rw [hcons, ih]
    cases setting with
    | overwriting allowed =>
      simp only [set, List.filterMap_cons, Setting.allowed?, Setting.data?, List.getLast?_cons,
        Option.getD_some]
    | contents data =>
      simp only [set, List.filterMap_cons, Setting.allowed?, Setting.data?, List.getLast?_cons,
        Option.some_or]
      cases (settings.filterMap Setting.data?).getLast? <;> rfl

theorem ofParts_eq (capacity : Nat) (contents : Option Bytes) (overwriting : Bool) :
    ofParts capacity contents overwriting = ⟨capacity, overwriting, contents⟩ := by
  cases contents <;> rfl

/-- Only the last words count. -/
theorem setAll_blank (capacity : Nat) (settings : List Setting) :
    (blank capacity).setAll settings
      = ofParts capacity (Setting.lastData settings) (Setting.lastAllowed settings) := by
  rw [setAll_eq, ofParts_eq]
  simp only [blank, Option.or_none]
  rfl

end Blueprint

/-! ## The first put -/

namespace Ring

variable {capacity : Nat} {overwriting : Bool} {data : Bytes}

/-- An empty ring takes data that fits, or the end of it. -/
theorem put_vacant (hc : 0 < capacity) (hfits : overwriting = true ∨ data.length ≤ capacity) :
    ((vacant capacity overwriting).put data).result = .ok () ∧
      ((vacant capacity overwriting).put data).ring.queue
        = ⟨capacity, overwriting, lastBytes capacity data, false, false⟩ := by
  have hs := sound_vacant hc overwriting
  have hempty : (vacant capacity overwriting).queue
      = ⟨capacity, overwriting, [], false, false⟩ := by
    have hlen : (vacant capacity overwriting).contents = [] :=
      List.length_eq_zero_iff.1 hs.length_contents
    simp only [queue, hlen]
    rfl
  have hkept : (⟨capacity, overwriting, [], false, false⟩ : Queue).kept data
      = lastBytes capacity data := by
    rcases hfits with rfl | hle
    · rfl
    · rw [Queue.kept, lastBytes_of_le hle, ite_self]
  have hbig : ¬ (!overwriting && capacity < data.length) = true := by
    rcases hfits with rfl | hle
    · simp
    · simp [Nat.not_lt.2 hle]
  have hroom : ([] : Bytes).length + (lastBytes capacity data).length ≤ capacity := by
    rw [length_lastBytes, List.length_nil]
    omega
  have hseen := hs.seen_apply (.put data)
  rw [hempty, Queue.apply, Queue.put, if_neg Bool.false_ne_true, if_neg hbig, hkept,
    if_pos hroom] at hseen
  obtain ⟨hres, hqueue⟩ := Prod.mk.inj hseen
  refine ⟨?_, hqueue⟩
  simp only [apply, Outcome.map] at hres
  cases hr : ((vacant capacity overwriting).put data).result with
  | error f => simp [hr, Except.map] at hres
  | ok u => rfl

/-- Data that is too long is refused by a ring that does not overwrite. -/
theorem put_vacant_refused (hlong : capacity < data.length) :
    (vacant capacity false).put data
      = .refuse (vacant capacity false) (.capacityExceeded data.length capacity) := by
  have htrim : (vacant capacity false).trim data = data := trim_of_fits (.inr rfl)
  have hr : (vacant capacity false).occupancy.reservePut data.length
      = .error (.capacityExceeded data.length capacity) := if_pos hlong
  have hr' : (vacant capacity false).occupancy.reserve .put
      ((vacant capacity false).trim data).length
        = .error (.capacityExceeded data.length capacity) := by rwa [htrim]
  exact put_of_reserve_error hr'

/-- Nothing put changes nothing. -/
theorem Sound.put_nil {r : Ring} (h : r.Sound) (hp : r.occupancy.putting = none) :
    (r.put []).result = .ok () ∧ (r.put []).ring = r := by
  have htrim : r.trim [] = [] := trim_of_fits (.inl (Nat.zero_le _))
  have hdeficit : r.occupancy.deficit 0 = 0 := by
    have := h.coherent.length_le
    simp only [deficit]
    omega
  have hlength : (r.trim []).length = 0 := congrArg List.length htrim
  have hfits : (r.trim []).length ≤ r.occupancy.capacity := hlength.symm ▸ Nat.zero_le _
  obtain ⟨hres, hring⟩ := h.put_ok hfits (hlength.symm ▸ ⟨hp, .inl hdeficit⟩)
  refine ⟨hres, ?_⟩
  rw [hring, htrim, extend, List.length_nil, h.coherent.extend_zero]
  rfl

end Ring

/-! ## Building -/

namespace Blueprint

variable {capacity : Nat} {overwriting : Bool}

theorem build_zero (contents : Option Bytes) (overwriting : Bool) :
    (ofParts 0 contents overwriting).build
      = (.error (.error (.invalidArgument "capacity must be greater than 0")), []) := by
  rw [ofParts_eq]
  rfl

theorem build_refused (hc : 0 < capacity) (hm : capacity ≤ Ring.maxSize) {contents : Option Bytes}
    (hlong : capacity < (contents.getD []).length) :
    (ofParts capacity contents false).build
      = (.error (.error (.capacityExceeded (contents.getD []).length capacity)), []) := by
  cases contents with
  | none => exact absurd hlong (Nat.not_lt_zero _)
  | some data =>
    have hput : (Ring.vacant capacity false).put data = _ := Ring.put_vacant_refused hlong
    rw [ofParts_eq, build]
    dsimp only
    rw [if_neg (Nat.ne_of_gt hc), if_neg (Nat.not_lt.2 hm), hput]
    rfl

/-- A ring that is built is an empty one with the contents put into it. -/
theorem build_granted (hc : 0 < capacity) (hm : capacity ≤ Ring.maxSize) {contents : Option Bytes}
    (hfits : overwriting = true ∨ (contents.getD []).length ≤ capacity) :
    let filled := (Ring.vacant capacity overwriting).put (contents.getD [])
    filled.result = .ok () ∧
      ((ofParts capacity contents overwriting).build).1 = .ok filled.ring := by
  cases contents with
  | none =>
    obtain ⟨hres, hring⟩ := (Ring.sound_vacant hc overwriting).put_nil rfl
    refine ⟨hres, ?_⟩
    rw [ofParts_eq, build_empty hc hm, Option.getD_none, hring]
  | some data =>
    have hres : ((Ring.vacant capacity overwriting).put data).result = .ok () :=
      (Ring.put_vacant hc hfits).1
    refine ⟨hres, ?_⟩
    rw [ofParts_eq, build]
    dsimp only
    rw [if_neg (Nat.ne_of_gt hc), if_neg (Nat.not_lt.2 hm), hres]
    rfl

/-- **Construction.** However often the builder is told whether to overwrite and what to start with,
the last word on each is what counts, and giving both at once comes to the same. No cells are not
enough, whatever the contents; contents that are longer than the ring are refused unless it
overwrites. Otherwise there is a ring, of that capacity and with that permission. Nothing is under
way on it, and it holds the last of the contents, as many as fit, in order. It is what the empty
ring of the same capacity and permission becomes when the contents are put into it. -/
theorem build_setAll {capacity : Nat} (hm : capacity ≤ Ring.maxSize) (settings : List Setting) :
    let overwriting := Setting.lastAllowed settings
    let data := (Setting.lastData settings).getD []
    let built := ((blank capacity).setAll settings).build
    built = (ofParts capacity (Setting.lastData settings) overwriting).build ∧
    (∀ contents allowed, (ofParts capacity contents allowed).build
      = ((blank capacity).setAll
          (.overwriting allowed :: (contents.map Setting.contents).toList)).build) ∧
    (capacity = 0 →
      built = (.error (.error (.invalidArgument "capacity must be greater than 0")), [])) ∧
    (0 < capacity → overwriting = false → capacity < data.length →
      built = (.error (.error (.capacityExceeded data.length capacity)), [])) ∧
    (0 < capacity → (overwriting = true ∨ data.length ≤ capacity) →
      ∃ r empty, built.1 = .ok r ∧
        r.capacity = capacity ∧ r.overwriting = overwriting ∧
        r.occupancy.putting = none ∧ r.occupancy.taking = none ∧
        r.contents = lastBytes capacity data ∧ r.length = min capacity data.length ∧
        (ofParts capacity none overwriting).build = (.ok empty, [.built capacity overwriting 0]) ∧
        empty.contents = [] ∧ (empty.put data).result = .ok () ∧ r = (empty.put data).ring) := by
  intro overwriting data built
  have hbuilt : built = (ofParts capacity (Setting.lastData settings) overwriting).build :=
    congrArg build (setAll_blank capacity settings)
  refine ⟨hbuilt, ?_, ?_, ?_, ?_⟩
  · intro contents allowed
    cases contents <;> rfl
  · rintro rfl
    exact hbuilt.trans (build_zero ..)
  · intro hc hover hlong
    rw [hbuilt, hover]
    exact build_refused hc hm hlong
  · intro hc hfits
    obtain ⟨hput, hgranted⟩ := build_granted hc hm hfits
    obtain ⟨-, hqueue⟩ := Ring.put_vacant hc hfits
    have hs := Ring.sound_vacant hc overwriting
    have hfilled := (Ring.leads_put hs data).sound hs
    obtain ⟨hcapacity, hflag, hcontents, hputting, htaking⟩ := Queue.mk.inj hqueue
    refine ⟨_, .vacant capacity overwriting, hbuilt ▸ hgranted, ?_, hflag, ?_, ?_, hcontents, ?_,
      ?_, ?_, hput, rfl⟩
    · exact hfilled.capacity_eq.trans hcapacity
    · exact Option.isSome_eq_false_iff.1 hputting |> Option.isNone_iff_eq_none.1
    · exact Option.isSome_eq_false_iff.1 htaking |> Option.isNone_iff_eq_none.1
    · rw [← length_lastBytes, ← hcontents]
      exact hfilled.length_contents.symm
    · rw [ofParts_eq]
      exact build_empty hc hm overwriting
    · exact List.length_eq_zero_iff.1 hs.length_contents

/-- The builder is told to overwrite twice, and given contents of which the ring can hold the last
three only; bytes that it was given before them are forgotten. -/
theorem build_setAll_overlong :
    ∃ r : Ring, ((blank 3).setAll [.overwriting false, .contents [1, 2], .overwriting true,
      .contents [5, 6, 7, 8]]).build.1 = .ok r ∧ r.contents = [6, 7, 8] := by
  obtain ⟨-, -, -, -, hgranted⟩ := build_setAll (show 3 ≤ Ring.maxSize by decide)
    [.overwriting false, .contents [1, 2], .overwriting true, .contents [5, 6, 7, 8]]
  obtain ⟨r, -, hr, -, -, -, -, hcontents, -⟩ := hgranted (by decide) (.inl rfl)
  exact ⟨r, hr, hcontents⟩

end Blueprint

end CyclicBuffer
