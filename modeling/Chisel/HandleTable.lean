import Chisel.Radix

/-! The handle table (`handle_table.rs`) and the membership index (`membership_index.rs`): the map
from handles to entries, and the map from tags to sets of handles. -/

namespace Chisel

open StateError PageCache

/-! ### Handle table -/

/-- Leaves of 510 sixteen-byte entries under interior pages of 1021 pointers. -/
def handleLayout : RadixLayout HandleEntry where
  leafCap := 510
  fanout := 1021
  leafCap_pos := by decide
  fanout_pos := by decide
  maxDepth := 6
  mkLeaf := .handleLeaf
  mkInterior := .handleInterior
  leaf? | .handleLeaf entries => some entries | _ => none
  interior? | .handleInterior ch => some ch | _ => none
  absent := .tombstone
  isAbsent e := e.flags == .deleted
  checksFirst := false

namespace HandleTable

/-- `create_root`: one empty leaf. The new table has depth 0. -/
def createRoot : CacheM Nat := do
  let id ← newPage
  writeStamped id (handleLayout.initNode 0)
  return id

def lookup (depth : Nat) (root : Nat) (handle : Nat) : CacheM (Option HandleEntry) := do
  let e ← handleLayout.lookup depth root handle
  return if e.flags = .deleted then none else some e

def insert (alloc : AllocM Nat) (depth : Nat) (root : Nat) (handle : Nat)
    (entry : HandleEntry) : AllocM RadixLayout.Inserted :=
  handleLayout.insert alloc depth root handle entry

def delete (alloc : AllocM Nat) (depth : Nat) (root : Nat) (handle : Nat) :
    AllocM (Nat × Option HandleEntry × List Nat) :=
  handleLayout.delete alloc depth root handle

def iterLive (depth : Nat) (root : Nat) : CacheM (List (Nat × HandleEntry)) :=
  handleLayout.iter depth root

def recoverDepth (root : Nat) : CacheM Nat := handleLayout.recoverDepth root

end HandleTable

/-! The table keeps its depth in a field. `grow` raises it before the insertion is through, so
`insert` puts it back when the insertion fails. -/

/-- A handle table, that is its depth, with the pages it works on. -/
structure TableCtx where
  pages : AllocCtx
  depth : Nat

abbrev TableM := EStateM ChiselError TableCtx

namespace HandleTable

def onPages {α : Type} (x : AllocM α) : TableM α :=
  zoom TableCtx.pages (fun s t => { t with pages := s }) x

/-- `grow`, with its eager step in depth. -/
def growDeeper (alloc : AllocM Nat) (oldRoot : Nat) : TableM Nat := do
  let newRoot ← onPages (handleLayout.grow alloc oldRoot)
  modify fun t => { t with depth := t.depth + 1 }
  return newRoot

/-- The loop of `insert`; its test reads the depth that `grow` raises. -/
def growWhile (alloc : AllocM Nat) (handle : Nat) : Nat → Nat → TableM Nat
  | 0, root => return root
  | rounds + 1, root => do
    let t ← get
    if t.depth < handleLayout.maxDepth ∧ handleLayout.capacity t.depth ≤ handle then
      growWhile alloc handle rounds (← growDeeper alloc root)
    else return root

/-- `insert` as a method. Returns the new root and the superseded pages. -/
def insertIn (alloc : AllocM Nat) (root handle : Nat) (entry : HandleEntry) :
    TableM (Nat × List Nat) := do
  let savedDepth := (← get).depth
  let grown : TableM (Nat × List Nat) := do
    let root ← growWhile alloc handle handleLayout.maxDepth root
    onPages (handleLayout.insertRecursive alloc entry (← get).depth root handle)
  onError grown fun t => { t with depth := savedDepth }

end HandleTable

/-! ### Membership index -/

/-- Words of 64 bits at every level, 1021 to a page; the word 0 is absent. -/
def radixU64 : RadixLayout Nat where
  leafCap := 1021
  fanout := 1021
  leafCap_pos := by decide
  fanout_pos := by decide
  maxDepth := 6
  mkLeaf := .membershipLeaf
  mkInterior := .membershipInterior
  leaf? | .membershipLeaf words => some words | _ => none
  interior? | .membershipInterior ch => some ch | _ => none
  absent := 0
  isAbsent w := w == 0
  checksFirst := true

namespace MembershipIndex

/-- `pack_inner`: the root and the depth of an inner tree in one word. -/
def packInner (root depth : Nat) : Except ChiselError Nat :=
  if 2 ^ 58 ≤ root ∨ 2 ^ 6 ≤ depth then .error .panicked else .ok (depth * 2 ^ 58 + root)

def unpackInner (packed : Nat) : Nat × Nat := (packed % 2 ^ 58, packed / 2 ^ 58)

/-- The inner tree of `tag`: its root, 0 if there is none, and its depth. -/
def innerOf (outerDepth : Nat) (outerRoot : Nat) (tag : Nat) : CacheM (Nat × Nat) := do
  let (innerRoot, innerDepth) := unpackInner (← radixU64.lookup outerDepth outerRoot tag)
  if innerRoot ≠ 0 ∧ radixU64.maxDepth < innerDepth then throw (.corruptPage innerRoot)
  return (innerRoot, innerDepth)

def liftExcept {α : Type} : Except ChiselError α → AllocM α
  | .ok a => pure a
  | .error e => throw e

/-- `insert`. Returns the new outer root and depth, and the superseded pages. -/
def insert (alloc : AllocM Nat) (outerDepth : Nat) (outerRoot : Nat) (tag handle : Nat) :
    AllocM RadixLayout.Inserted := do
  let (root, depth) ← radixU64.rootOr alloc pageIdNone outerRoot outerDepth
  let (innerRoot, innerDepth) ← onCache (innerOf depth root tag)
  let (innerRoot, innerDepth) ← radixU64.rootOr alloc 0 innerRoot innerDepth
  let inner ← radixU64.insert alloc innerDepth innerRoot handle 1
  let packed ← liftExcept (packInner inner.root inner.depth)
  let outer ← radixU64.insert alloc depth root tag packed
  return ⟨outer.root, outer.depth, inner.freed ++ outer.freed⟩

/-- `remove`. Besides the new outer tree, says whether the handle was there. -/
def remove (alloc : AllocM Nat) (outerDepth : Nat) (outerRoot : Nat) (tag handle : Nat) :
    AllocM (RadixLayout.Inserted × Bool) := do
  if outerRoot = pageIdNone then return (⟨outerRoot, outerDepth, []⟩, false)
  let (innerRoot, innerDepth) ← onCache (innerOf outerDepth outerRoot tag)
  if innerRoot = 0 then return (⟨outerRoot, outerDepth, []⟩, false)
  let (newInner, prev, freed) ← radixU64.delete alloc innerDepth innerRoot handle
  match prev with
  | none => return (⟨outerRoot, outerDepth, []⟩, false)
  | some _ =>
    if ← onCache (radixU64.anyPresent innerDepth newInner) then
      let packed ← liftExcept (packInner newInner innerDepth)
      let outer ← radixU64.insert alloc outerDepth outerRoot tag packed
      return (⟨outer.root, outer.depth, freed ++ outer.freed⟩, true)
    else
      let dead ← onCache (radixU64.freeSubtree innerDepth newInner)
      let (newOuter, _, freedOuter) ← radixU64.delete alloc outerDepth outerRoot tag
      return (⟨newOuter, outerDepth, freed ++ dead ++ freedOuter⟩, true)

def contains (outerDepth : Nat) (outerRoot : Nat) (tag handle : Nat) : CacheM Bool := do
  if outerRoot = pageIdNone then return false
  let (innerRoot, innerDepth) ← innerOf outerDepth outerRoot tag
  if innerRoot = 0 then return false
  return (← radixU64.lookup innerDepth innerRoot handle) ≠ 0

def handlesForTag (outerDepth : Nat) (outerRoot : Nat) (tag : Nat) : CacheM (List Nat) := do
  if outerRoot = pageIdNone then return []
  let (innerRoot, innerDepth) ← innerOf outerDepth outerRoot tag
  if innerRoot = 0 then return []
  return (← radixU64.iter innerDepth innerRoot).map Prod.fst

def handlesForTagBounded (outerDepth : Nat) (outerRoot : Nat) (tag limit : Nat) :
    CacheM (List Nat) := do
  if outerRoot = pageIdNone then return []
  let (innerRoot, innerDepth) ← innerOf outerDepth outerRoot tag
  if innerRoot = 0 then return []
  return (← radixU64.iterBounded innerDepth innerRoot limit).map Prod.fst

def recoverDepth (root : Nat) : CacheM Nat := radixU64.recoverDepth root

end MembershipIndex

end Chisel
