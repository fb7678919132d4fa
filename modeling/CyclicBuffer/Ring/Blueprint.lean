import CyclicBuffer.Ring.Basic

/-!
# Blueprints: what a ring is built from

A ring is built from a capacity, the permission to overwrite, and bytes to start with. The last
word given on each counts.
-/

namespace CyclicBuffer

structure Blueprint where
  capacity : Nat
  overwriting : Bool := false
  /-- The bytes to start with, if any were given. -/
  contents : Option Bytes := none
deriving DecidableEq, Repr, Inhabited

/-- One word on how to build a ring. -/
inductive Setting where
  | overwriting (allowed : Bool)
  | contents (data : Bytes)
deriving DecidableEq, Repr

namespace Blueprint

def set (b : Blueprint) : Setting → Blueprint
  | .overwriting allowed => { b with overwriting := allowed }
  | .contents data => { b with contents := some data }

/-- What a blueprint says before any setting. -/
def blank (capacity : Nat) : Blueprint := { capacity }

/-- The blueprint of which everything is given at once. -/
def ofParts (capacity : Nat) (contents : Option Bytes) (overwriting : Bool) : Blueprint :=
  let b := (blank capacity).set (.overwriting overwriting)
  match contents with
  | some data => b.set (.contents data)
  | none => b

/-- The blueprint as it is, and as it is after each setting. -/
def drafts (b : Blueprint) : List Setting → List Blueprint
  | [] => [b]
  | s :: settings => b :: (b.set s).drafts settings

/-- The blueprint after all settings. -/
def setAll (b : Blueprint) (settings : List Setting) : Blueprint := settings.foldl set b

/-- Builds the ring. A ring needs at least one cell, and no more than memory can have; bytes to
start with are put into it, and must fit unless it overwrites. -/
def build (b : Blueprint) : Except Failure Ring × List Event :=
  if b.capacity = 0 then
    (.error (.error (.invalidArgument "capacity must be greater than 0")), [])
  else if Ring.maxSize < b.capacity then (.error (.fault .tooLarge), [])
  else
    let ring := Ring.vacant b.capacity b.overwriting
    let filled : Outcome Unit :=
      match b.contents with
      | none => ⟨.ok (), ring, []⟩
      | some data => ring.put data
    match filled.result with
    | .error f => (.error f, filled.events)
    | .ok () =>
      (.ok filled.ring,
        filled.events ++ [.built b.capacity b.overwriting filled.ring.length])

end Blueprint

end CyclicBuffer
