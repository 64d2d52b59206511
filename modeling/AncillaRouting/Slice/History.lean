import AncillaRouting.Slice.Basic

/-!
# Edits and histories of slices

The slices that a program can hold are those made from an empty one by placing and removing patches
and setting costs. A change that is refused leaves the slice as it is. In place, an edit is a course of
steps on the slice that it changes: what a step has written stays written, also if a later step fails.
-/

namespace AncillaRouting

inductive Edit where
  | place (p : Patch)
  | remove (id : PatchId)
  | setCost (c : Cell) (cost : UInt32)
deriving DecidableEq, Repr

namespace Slice

def perform (s : Slice) : Edit → Slice
  | .place p => (s.place p).toOption.getD s
  | .remove id => ((s.remove id).toOption.map (·.2)).getD s
  | .setCost c cost => (s.setCost c cost).toOption.getD s

def performAll (s : Slice) (edits : List Edit) : Slice := edits.foldl perform s

/-- What some history of edits makes of an empty slice. -/
def Reachable (s : Slice) : Prop := ∃ rows cols edits, (empty rows cols).performAll edits = s

theorem performAll_append (s : Slice) (es fs : List Edit) :
    s.performAll (es ++ fs) = (s.performAll es).performAll fs := by
  simp [performAll]

theorem Reachable.perform {s : Slice} (h : s.Reachable) (e : Edit) : (s.perform e).Reachable := by
  obtain ⟨rows, cols, edits, rfl⟩ := h
  exact ⟨rows, cols, edits ++ [e], by simp [performAll]⟩

theorem Reachable.performAll {s : Slice} (h : s.Reachable) (edits : List Edit) : (s.performAll edits).Reachable := by
  induction edits generalizing s with
  | nil => exact h
  | cons e edits ih => exact ih (h.perform e)

/-! ## Edits in place -/

/-- Fails where the test does, and writes nothing. -/
def require (test : Slice → Except SliceError Unit) : EStateM SliceError Slice Unit := do
  MonadExcept.ofExcept (test (← get))

def occupy (c : Cell) (id : PatchId) : EStateM SliceError Slice Unit :=
  modify fun s => { s with occupancy := s.occupancy.insert c id }

def vacate (c : Cell) : EStateM SliceError Slice Unit :=
  modify fun s => { s with occupancy := s.occupancy.erase c }

def enlist (p : Patch) : EStateM SliceError Slice Unit :=
  modify fun s => { s with patches := s.patches ++ [p] }

/-- Takes the first patch with the id off the list. -/
def delist (id : PatchId) : EStateM SliceError Slice Patch := do
  let p ← MonadExcept.ofExcept ((← get).getPatch id)
  modify fun s => { s with patches := s.patches.eraseP (·.id == id) }
  return p

/-- Every test comes before the first write. -/
def placeInPlace (p : Patch) : EStateM SliceError Slice Unit := do
  if p.cells.isEmpty then throw (.emptyPatch p.id)
  if (← get).patches.any (·.id == p.id) then throw (.duplicatePatch p.id)
  p.cells.forM fun c => require (·.checkFree c.cell)
  p.cells.forM fun c => occupy c.cell p.id
  enlist p

def removeInPlace (id : PatchId) : EStateM SliceError Slice Patch := do
  let p ← delist id
  p.cells.forM fun c => vacate c.cell
  return p

def setCostInPlace (c : Cell) (cost : UInt32) : EStateM SliceError Slice Unit := do
  require (·.checkBounds c)
  modify fun s => { s with costs := s.costs.insert c (max cost 1) }

def performInPlace : Edit → EStateM SliceError Slice Unit
  | .place p => placeInPlace p
  | .remove id => do
    let _ ← removeInPlace id
    return ()
  | .setCost c cost => setCostInPlace c cost

end Slice

end AncillaRouting
