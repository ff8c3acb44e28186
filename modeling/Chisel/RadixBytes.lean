import Chisel.HandleTable
import Chisel.Lib.Bytes

/-! The radix trees byte by byte (`handle_table.rs`, `membership_index.rs`). A node is an 8 KiB
buffer whose first bytes say what it is; a walk either checks them against the level it has come to
or reads on. The programs here get their pages from any page cache and any allocator, and keep a
record of the nodes they read. The checksum field is the business of the cache and is left out. -/

namespace Chisel

open ByteLayout StateError

namespace Raw

/-! ### Nodes -/

def typeHandleTable : UInt8 := 1
def typeMembershipInterior : UInt8 := 5
def typeMembershipLeaf : UInt8 := 6
def flagLeaf : UInt8 := 1
def flagInterior : UInt8 := 2

def byteAt (buf : Bytes) (off : Nat) : UInt8 := UInt8.ofNat (decodeLe (slice buf off 1))

/-- The child pointer, or the word of a membership leaf, at a position. -/
def childAt (buf : Bytes) (i : Nat) : Nat := decodeLe (slice buf (dataPageHeaderSize + i * 8) 8)

def setChildAt (i child : Nat) (buf : Bytes) : Bytes :=
  splice buf (dataPageHeaderSize + i * 8) (encodeLe 8 child)

/-- The byte form of a radix tree. `spine` says whether `recover_depth` goes on below a node. -/
structure RadixBytes {V : Type} (R : RadixLayout V) where
  readSlot : Bytes → Nat → V
  writeSlot : Nat → V → Bytes → Bytes
  leafHeader : Bytes
  interiorHeader : Bytes
  isLeaf : Bytes → Bool
  isInterior : Bytes → Bool
  spine : Nat → Bytes → Except ChiselError Bool

namespace RadixBytes

variable {V : Type} {R : RadixLayout V} (B : RadixBytes R)

/-- The node is what `level` asks for. -/
def fits (level : Nat) (buf : Bytes) : Bool := if level = 0 then B.isLeaf buf else B.isInterior buf

/-- A new node: zeros behind the header. -/
def blank (level : Nat) : Bytes :=
  splice (List.replicate pageSize 0) 0 (if level = 0 then B.leafHeader else B.interiorHeader)

end RadixBytes

/-! ### Pages and walks -/

/-- A page cache with the allocator of a transaction. -/
structure PageAccess (S : Type) where
  get : Nat → EStateM ChiselError S Bytes
  getMut : Nat → (Bytes → Bytes) → EStateM ChiselError S Unit
  alloc : EStateM ChiselError S Nat

/-- A node that a walk has read, and the level at which it stands in the tree. -/
structure Reading where
  level : Nat
  id : Nat
  buf : Bytes

/-- The pages, the list of superseded pages that the caller handed in, and what has been read. -/
structure Walk (S : Type) where
  pages : S
  freed : List Nat
  read : List Reading

abbrev WalkM (S : Type) := EStateM ChiselError (Walk S)

section Programs

variable {S V : Type} (A : PageAccess S) {R : RadixLayout V} (B : RadixBytes R)

def onPages {α : Type} (x : EStateM ChiselError S α) : WalkM S α :=
  zoom Walk.pages (fun s w => { w with pages := s }) x

/-- `cache.get` of a node of the tree. -/
def getNode (level id : Nat) : WalkM S Bytes := do
  let buf ← onPages (A.get id)
  modify fun w => { w with read := w.read ++ [⟨level, id, buf⟩] }
  return buf

theorem wp_getNode {A : PageAccess S} {level id : Nat} {w : Walk S} {Q : Bytes → Walk S → Prop}
    {E : ChiselError → Walk S → Prop} :
    wp (getNode A level id) w Q E ↔
      wp (A.get id) w.pages (fun buf s => Q buf ⟨s, w.freed, w.read ++ [⟨level, id, buf⟩]⟩)
        (fun e s => E e ⟨s, w.freed, w.read⟩) := by
  simp only [getNode, onPages, wp_bind, wp_zoom, wp_modify, wp_pure]

def copyPage (src dst : Nat) : WalkM S Unit := do
  let buf ← onPages (A.get src)
  onPages (A.getMut dst fun _ => buf)

def free (id : Nat) : WalkM S Unit := modify fun w => { w with freed := w.freed ++ [id] }

def checkTypeAt (buf : Bytes) (id level : Nat) : WalkM S Unit :=
  if B.fits level buf then pure () else throw (.corruptPage id)

/-- A node, checked if the tree checks all of them. -/
def look (level id : Nat) : WalkM S Bytes := do
  let buf ← getNode A level id
  if R.checksFirst then checkTypeAt B buf id level
  return buf

def initPage (level : Nat) : WalkM S Nat := do
  let id ← onPages A.alloc
  onPages (A.getMut id fun _ => B.blank level)
  return id

/-- A child, or a new empty node if there is none. -/
def childOr (level child : Nat) : WalkM S Nat :=
  if child = 0 then initPage A B level else pure child

/-! ### Lookup -/

/-- The descent of `find_leaf`. Both trees check the interior nodes here. -/
def findLeafFrom : Nat → Nat → Nat → WalkM S (Option (Nat × Nat))
  | 0, current, remaining => return some (current, remaining % R.leafCap)
  | level + 1, current, remaining => do
    let childIdx := remaining / R.capacity level
    if R.fanout ≤ childIdx then return none
    let buf ← getNode A (level + 1) current
    checkTypeAt B buf current (level + 1)
    if childAt buf childIdx = 0 then return none
    findLeafFrom level (childAt buf childIdx) (remaining % R.capacity level)

def lookup (depth root key : Nat) : WalkM S V := do
  if root = pageIdNone then return R.absent
  if R.outOfRange depth key then return R.absent
  match ← findLeafFrom A B depth root key with
  | none => return R.absent
  | some (leaf, index) => return B.readSlot (← look A B 0 leaf) index

/-! ### Insertion -/

/-- The copy that `insert_recursive` starts with. The membership index checks the node before it
allocates; the handle table copies what it finds. -/
def cow (level page : Nat) : WalkM S Nat :=
  if R.checksFirst then do
    checkTypeAt B (← getNode A level page) page level
    let newPage ← onPages A.alloc
    copyPage A page newPage
    free page
    return newPage
  else do
    let newPage ← onPages A.alloc
    let buf ← getNode A level page
    onPages (A.getMut newPage fun _ => buf)
    free page
    return newPage

def insertRecursive (value : V) : Nat → Nat → Nat → WalkM S Nat
  | 0, page, key => do
    let newPage ← cow A B 0 page
    onPages (A.getMut newPage (B.writeSlot (key % R.leafCap) value))
    return newPage
  | level + 1, page, key => do
    let newPage ← cow A B (level + 1) page
    let childIdx := key / R.capacity level
    let child ← childOr A B level (childAt (← onPages (A.get newPage)) childIdx)
    let newChild ← insertRecursive value level child (key % R.capacity level)
    onPages (A.getMut newPage (setChildAt childIdx newChild))
    return newPage

def grow (oldRoot : Nat) : WalkM S Nat := do
  let newRoot ← onPages A.alloc
  onPages (A.getMut newRoot fun _ => setChildAt 0 oldRoot (B.blank 1))
  return newRoot

def growTo (key : Nat) : Nat → Nat → Nat → WalkM S (Nat × Nat)
  | 0, depth, root => return (root, depth)
  | rounds + 1, depth, root => do
    if depth < R.maxDepth ∧ R.capacity depth ≤ key then
      growTo key rounds (depth + 1) (← grow A B root)
    else return (root, depth)

/-- Returns the new root and the new depth. -/
def insert (depth root key : Nat) (value : V) : WalkM S (Nat × Nat) := do
  let (root, depth) ← growTo A B key R.maxDepth depth root
  return (← insertRecursive A B value depth root key, depth)

/-! ### Deletion -/

/-- The copy that `delete_recursive` ends with. The two trees queue the old page at different
moments. -/
def replace (R : RadixLayout V) (page : Nat) (change : Bytes → Bytes) : WalkM S Nat := do
  let newPage ← onPages A.alloc
  copyPage A page newPage
  if R.checksFirst then
    onPages (A.getMut newPage change)
    free page
  else
    free page
    onPages (A.getMut newPage change)
  return newPage

def deleteRecursive : Nat → Nat → Nat → WalkM S (Nat × Option V)
  | 0, page, key => do
    let prev := B.readSlot (← look A B 0 page) (key % R.leafCap)
    if R.isAbsent prev then return (page, none)
    let newLeaf ← replace A R page (B.writeSlot (key % R.leafCap) R.absent)
    return (newLeaf, some prev)
  | level + 1, page, key => do
    let childIdx := key / R.capacity level
    let child := childAt (← look A B (level + 1) page) childIdx
    if child = 0 then return (page, none)
    let (newChild, prev) ← deleteRecursive level child (key % R.capacity level)
    match prev with
    | none => return (page, none)
    | some prev =>
      let newPage ← replace A R page (setChildAt childIdx newChild)
      return (newPage, some prev)

def delete (depth root key : Nat) : WalkM S (Nat × Option V) := do
  if root = pageIdNone then return (root, none)
  if R.outOfRange depth key then return (root, none)
  deleteRecursive A B depth root key

/-! ### Traversal -/

/-- The values of a leaf with their keys. -/
def slotsOf (buf : Bytes) (base : Nat) : List (Nat × V) :=
  ((List.range R.leafCap).filter fun i => !R.isAbsent (B.readSlot buf i)).map
    fun i => (satAdd base i, B.readSlot buf i)

def iterRecursive : Nat → Nat → Nat → WalkM S (List (Nat × V))
  | 0, page, base => return slotsOf B (← look A B 0 page) base
  | level + 1, page, base => do
    let buf ← look A B (level + 1) page
    (R.present (childAt buf)).foldlM (fun out i => do
      let more ← iterRecursive level (childAt buf i) (satAdd base (satMul i (R.capacity level)))
      return out ++ more) []

/-- `iter_live`, `iter`. -/
def iter (depth root : Nat) : WalkM S (List (Nat × V)) := do
  if root = pageIdNone then return []
  iterRecursive A B depth root 0

def iterBoundedRecursive (limit : Nat) :
    Nat → Nat → Nat → List (Nat × V) → WalkM S (List (Nat × V))
  | 0, page, base, out => do
    if limit ≤ out.length then return out
    return out ++ (slotsOf B (← look A B 0 page) base).take (limit - out.length)
  | level + 1, page, base, out => do
    if limit ≤ out.length then return out
    let buf ← look A B (level + 1) page
    (R.present (childAt buf)).foldlM (fun out i =>
      if limit ≤ out.length then pure out
      else iterBoundedRecursive limit level (childAt buf i)
        (satAdd base (satMul i (R.capacity level))) out) out

def iterBounded (depth root limit : Nat) : WalkM S (List (Nat × V)) := do
  if root = pageIdNone ∨ limit = 0 then return []
  iterBoundedRecursive A B limit depth root 0 []

def anyRecursive : Nat → Nat → WalkM S Bool
  | 0, page => do
    let buf ← look A B 0 page
    return (List.range R.leafCap).any fun i => !R.isAbsent (B.readSlot buf i)
  | level + 1, page => do
    let buf ← look A B (level + 1) page
    (R.present (childAt buf)).anyM fun i => anyRecursive level (childAt buf i)

def anyPresent (depth root : Nat) : WalkM S Bool := do
  if root = pageIdNone then return false
  anyRecursive A B depth root

/-- `free_subtree`: a node is queued after its children. -/
def freeSubtreeFrom : Nat → Nat → WalkM S Unit
  | 0, page => do
    let _ ← look A B 0 page
    free page
  | level + 1, page => do
    let buf ← look A B (level + 1) page
    (R.present (childAt buf)).forM fun i => freeSubtreeFrom level (childAt buf i)
    free page

def freeSubtree (depth root : Nat) : WalkM S Unit := do
  if root = pageIdNone then return
  freeSubtreeFrom A B depth root

/-- The loop of `recover_depth`, for at most `rounds` rounds. -/
def recoverDepthFrom : Nat → Nat → Nat → EStateM ChiselError S (Option Nat)
  | 0, _, _ => return none
  | rounds + 1, depth, current => do
    let buf ← A.get current
    match B.spine current buf with
    | .error e => throw e
    | .ok false => return some depth
    | .ok true =>
      if R.maxDepth < depth + 1 then throw (.corruptPage current)
      if childAt buf 0 = 0 then return some (depth + 1)
      recoverDepthFrom rounds (depth + 1) (childAt buf 0)

/-- `recover_depth`; `none` if it is still at work after `rounds` rounds. -/
def recoverDepth (rounds root : Nat) : EStateM ChiselError S (Option Nat) := do
  if root = pageIdNone then return some 0
  recoverDepthFrom A B rounds 0 root

end Programs

/-! ### The handle table -/

namespace HandleTable

def flagsToByte : HandleFlags → UInt8
  | .live => 1
  | .deleted => 0
  | .overflow => 2

def flagsOfByte (b : UInt8) : HandleFlags :=
  if b = 1 then .live else if b = 2 then .overflow else .deleted

def readEntry (buf : Bytes) (index : Nat) : HandleEntry :=
  let base := dataPageHeaderSize + index * 16
  { pageId := decodeLe (slice buf base 8)
    slotIndex := decodeLe (slice buf (base + 8) 2)
    flags := flagsOfByte (byteAt buf (base + 10))
    tag := decodeLe (slice buf (base + 11) 4)
    clientByte := byteAt buf (base + 15) }

def writeEntry (index : Nat) (entry : HandleEntry) (buf : Bytes) : Bytes :=
  let base := dataPageHeaderSize + index * 16
  patch buf [(base, encodeLe 8 entry.pageId), (base + 8, encodeLe 2 entry.slotIndex),
    (base + 10, [flagsToByte entry.flags]), (base + 11, encodeLe 4 entry.tag),
    (base + 15, [entry.clientByte])]

/-- A leaf and an interior page have one page type and differ in the flag behind it. -/
def bytes : RadixBytes handleLayout where
  readSlot := readEntry
  writeSlot := writeEntry
  leafHeader := [typeHandleTable, flagLeaf]
  interiorHeader := [typeHandleTable, flagInterior]
  isLeaf buf := byteAt buf 0 == typeHandleTable && byteAt buf 1 == flagLeaf
  isInterior buf := byteAt buf 0 == typeHandleTable && byteAt buf 1 == flagInterior
  spine current buf :=
    if byteAt buf 1 ≠ flagInterior then .ok false
    else if byteAt buf 0 ≠ typeHandleTable then .error (.corruptPage current)
    else .ok true

end HandleTable

/-! ### The membership index -/

namespace MembershipIndex

def bytes : RadixBytes radixU64 where
  readSlot := childAt
  writeSlot := setChildAt
  leafHeader := [typeMembershipLeaf]
  interiorHeader := [typeMembershipInterior]
  isLeaf buf := byteAt buf 0 == typeMembershipLeaf
  isInterior buf := byteAt buf 0 == typeMembershipInterior
  spine _ buf := .ok (byteAt buf 0 == typeMembershipInterior)

variable {S : Type} (A : PageAccess S)

/-- The root and the depth of a tree, or of a new tree if `root` is `missing`. -/
def rootOr (missing root depth : Nat) : WalkM S (Nat × Nat) :=
  if root = missing then do return (← initPage A bytes 0, 0) else return (root, depth)

/-- The inner tree of `tag`: its root, 0 if there is none, and its depth. -/
def innerOf (outerDepth outerRoot tag : Nat) : WalkM S (Nat × Nat) := do
  let packed ← lookup A bytes outerDepth outerRoot tag
  let (innerRoot, innerDepth) := Chisel.MembershipIndex.unpackInner packed
  if innerRoot ≠ 0 ∧ radixU64.maxDepth < innerDepth then throw (.corruptPage innerRoot)
  return (innerRoot, innerDepth)

def pack (root depth : Nat) : WalkM S Nat :=
  match Chisel.MembershipIndex.packInner root depth with
  | .ok packed => pure packed
  | .error e => throw e

/-- Returns the new outer root and depth. -/
def insert (outerDepth outerRoot tag handle : Nat) : WalkM S (Nat × Nat) := do
  let (root, depth) ← rootOr A pageIdNone outerRoot outerDepth
  let (innerRoot, innerDepth) ← innerOf A depth root tag
  let (innerRoot, innerDepth) ← rootOr A 0 innerRoot innerDepth
  let (newInner, innerDepth) ← Raw.insert A bytes innerDepth innerRoot handle 1
  Raw.insert A bytes depth root tag (← pack newInner innerDepth)

/-- The call `k` on the inner tree of `tag`; the answer is `missing` if there is none. -/
def onInner {α : Type} (outerDepth outerRoot tag : Nat) (missing : α) (k : Nat → Nat → WalkM S α) :
    WalkM S α := do
  if outerRoot = pageIdNone then return missing
  let (innerRoot, innerDepth) ← innerOf A outerDepth outerRoot tag
  if innerRoot = 0 then return missing
  k innerDepth innerRoot

/-- Returns the new outer root and depth, and whether the handle was there. -/
def remove (outerDepth outerRoot tag handle : Nat) : WalkM S (Nat × Nat × Bool) :=
  onInner A outerDepth outerRoot tag (outerRoot, outerDepth, false) fun innerDepth innerRoot => do
    let (newInner, prev) ← Raw.delete A bytes innerDepth innerRoot handle
    match prev with
    | none => return (outerRoot, outerDepth, false)
    | some _ =>
      if ← anyPresent A bytes innerDepth newInner then
        let (root, depth) ←
          Raw.insert A bytes outerDepth outerRoot tag (← pack newInner innerDepth)
        return (root, depth, true)
      else
        freeSubtree A bytes innerDepth newInner
        let (root, _) ← Raw.delete A bytes outerDepth outerRoot tag
        return (root, outerDepth, true)

def contains (outerDepth outerRoot tag handle : Nat) : WalkM S Bool :=
  onInner A outerDepth outerRoot tag false fun innerDepth innerRoot => do
    return (← lookup A bytes innerDepth innerRoot handle) ≠ 0

def handlesForTag (outerDepth outerRoot tag : Nat) : WalkM S (List Nat) :=
  onInner A outerDepth outerRoot tag [] fun innerDepth innerRoot => do
    return (← iter A bytes innerDepth innerRoot).map Prod.fst

def handlesForTagBounded (outerDepth outerRoot tag limit : Nat) : WalkM S (List Nat) :=
  onInner A outerDepth outerRoot tag [] fun innerDepth innerRoot => do
    return (← iterBounded A bytes innerDepth innerRoot limit).map Prod.fst

end MembershipIndex

end Raw

end Chisel
