import Chisel.FreeMapTree

/-! The copy-on-write radix tree that the handle table (`handle_table.rs`) and the membership index
(`membership_index.rs`) are built on. The two differ in what a leaf holds and in when a node's type
is checked; both are instances of one layout.

An operation takes the allocator of its transaction, writes only to pages it allocated, and returns
the new root with the pages it superseded. The caller decides whether to install the root. -/

namespace Chisel

open StateError PageCache

/-- What distinguishes one radix tree from another. `absent` is what a zeroed leaf slot reads as.
`checksFirst` says that every node of another type stops the walk with `CorruptPage`, and that an
insertion looks at the node before it allocates its copy; otherwise `find_leaf` checks the interior
nodes, and nothing else is checked. -/
structure RadixLayout (V : Type) where
  leafCap : Nat
  fanout : Nat
  leafCap_pos : 0 < leafCap
  fanout_pos : 0 < fanout
  maxDepth : Nat
  mkLeaf : (Nat → V) → Page
  mkInterior : (Nat → Nat) → Page
  leaf? : Page → Option (Nat → V)
  interior? : Page → Option (Nat → Nat)
  absent : V
  isAbsent : V → Bool
  checksFirst : Bool

namespace RadixLayout

variable {V : Type} (R : RadixLayout V)

/-- `capacity` of a tree of the given depth; `span_at_level(level)` is `capacity (level - 1)`. -/
def capacity : Nat → Nat
  | 0 => R.leafCap
  | depth + 1 => satMul (capacity depth) R.fanout

/-- The end of the walk at a node of another type. A tree that does not check reads on there. -/
def misfit (id : Nat) : ChiselError := if R.checksFirst then .corruptPage id else .misread id

def getLeaf (id : Nat) : CacheM (Nat → V) := do
  match R.leaf? (← getPage id) with
  | some vals => return vals
  | none => throw (R.misfit id)

/-- The children of an interior node; a node of another type is answered with `err`. -/
def interiorOr (err : ChiselError) (id : Nat) : CacheM (Nat → Nat) := do
  match R.interior? (← getPage id) with
  | some ch => return ch
  | none => throw err

def getInterior (id : Nat) : CacheM (Nat → Nat) := R.interiorOr (R.misfit id) id

/-- The node is of the type that belongs `level` levels above the leaves. -/
def checkTypeAt : Nat → Nat → CacheM Unit
  | 0, id => (fun _ => ()) <$> R.getLeaf id
  | _ + 1, id => (fun _ => ()) <$> R.getInterior id

/-- The check that some trees make before they allocate. -/
def checkFirst (level : Nat) (id : Nat) : AllocM Unit :=
  if R.checksFirst then onCache (R.checkTypeAt level id) else pure ()

/-- A new, empty node `level` levels above the leaves. -/
def initNode (level : Nat) : Page :=
  if level = 0 then R.mkLeaf fun _ => R.absent else R.mkInterior fun _ => 0

/-- Allocate and initialise an empty node. -/
def initPage (level : Nat) (alloc : AllocM Nat) : AllocM Nat := do
  let id ← alloc
  onCache (writeStamped id (R.initNode level))
  return id

/-- The root and the depth of a tree, or of a new tree of one empty leaf if `root` is `missing`. -/
def rootOr (alloc : AllocM Nat) (missing root depth : Nat) : AllocM (Nat × Nat) :=
  if root = missing then do return (← R.initPage 0 alloc, 0) else return (root, depth)

/-- A child, or a new empty node if there is none. -/
def childOr (alloc : AllocM Nat) (level child : Nat) : AllocM Nat :=
  if child = 0 then R.initPage level alloc else pure child

/-- The positions of the children that are there, in order. -/
def present (ch : Nat → Nat) : List Nat := (List.range R.fanout).filter fun i => ch i ≠ 0

/-! ### Lookup -/

/-- The descent of `find_leaf` to the leaf and the slot of `remaining`. -/
def findLeafFrom : Nat → Nat → Nat → CacheM (Option (Nat × Nat))
  | 0, current, remaining => return some (current, remaining % R.leafCap)
  | level + 1, current, remaining => do
    let childIdx := remaining / R.capacity level
    if R.fanout ≤ childIdx then return none
    let ch ← R.interiorOr (.corruptPage current) current
    if ch childIdx = 0 then return none
    findLeafFrom level (ch childIdx) (remaining % R.capacity level)

/-- The key lies past a capacity that did not saturate. -/
def outOfRange (depth key : Nat) : Bool := R.capacity depth ≠ u64Max ∧ R.capacity depth ≤ key

def lookup (depth : Nat) (root : Nat) (key : Nat) : CacheM V := do
  if root = pageIdNone then return R.absent
  if R.outOfRange depth key then return R.absent
  match ← R.findLeafFrom depth root key with
  | none => return R.absent
  | some (leaf, index) => return (← R.getLeaf leaf) index

/-! ### Insertion -/

/-- `grow`: a new root with the old one as child 0. -/
def grow (alloc : AllocM Nat) (oldRoot : Nat) : AllocM Nat := do
  let newRoot ← alloc
  onCache (writeStamped newRoot (R.mkInterior (Function.update (fun _ => 0) 0 oldRoot)))
  return newRoot

/-- The growth loop of `insert`; a tree never grows past its maximal depth. -/
def growTo (alloc : AllocM Nat) (key : Nat) : Nat → Nat → Nat → AllocM (Nat × Nat)
  | 0, depth, root => return (root, depth)
  | rounds + 1, depth, root => do
    if depth < R.maxDepth ∧ R.capacity depth ≤ key then
      let newRoot ← R.grow alloc root
      growTo alloc key rounds (depth + 1) newRoot
    else return (root, depth)

/-- `insert_recursive`: copy the path to `key` and write `value` in the copied leaf. -/
def insertRecursive (alloc : AllocM Nat) (value : V) :
    Nat → Nat → Nat → AllocM (Nat × List Nat)
  | 0, page, key => do
    R.checkFirst 0 page
    let newPage ← alloc
    onCache (copyPage page newPage)
    let vals ← onCache (R.getLeaf newPage)
    onCache (writeStamped newPage (R.mkLeaf (Function.update vals (key % R.leafCap) value)))
    return (newPage, [page])
  | level + 1, page, key => do
    R.checkFirst (level + 1) page
    let newPage ← alloc
    onCache (copyPage page newPage)
    let childIdx := key / R.capacity level
    let ch ← onCache (R.getInterior newPage)
    let child ← R.childOr alloc level (ch childIdx)
    let (newChild, freed) ← insertRecursive alloc value level child (key % R.capacity level)
    onCache (getMut newPage fun b => ⟨b.page.setChild childIdx newChild, true⟩)
    -- a child made here was never linked, and its copy supersedes it
    return (newPage, page :: freed)

/-- What an insertion yields: the new root, the new depth and the superseded pages. -/
structure Inserted where
  root : Nat
  depth : Nat
  freed : List Nat

def insert (alloc : AllocM Nat) (depth : Nat) (root : Nat) (key : Nat) (value : V) :
    AllocM Inserted := do
  let (root, depth) ← R.growTo alloc key R.maxDepth depth root
  let (root, freed) ← R.insertRecursive alloc value depth root key
  return ⟨root, depth, freed⟩

/-! ### Deletion -/

/-- `delete_recursive`: copy the path to `key` and clear its slot, if it holds a value. -/
def deleteRecursive (alloc : AllocM Nat) :
    Nat → Nat → Nat → AllocM (Nat × Option V × List Nat)
  | 0, page, key => do
    let vals ← onCache (R.getLeaf page)
    let prev := vals (key % R.leafCap)
    if R.isAbsent prev then return (page, none, [])
    let newLeaf ← alloc
    onCache (copyPage page newLeaf)
    let vals ← onCache (R.getLeaf newLeaf)
    onCache (writeStamped newLeaf (R.mkLeaf (Function.update vals (key % R.leafCap) R.absent)))
    return (newLeaf, some prev, [page])
  | level + 1, page, key => do
    let childIdx := key / R.capacity level
    let ch ← onCache (R.getInterior page)
    if ch childIdx = 0 then return (page, none, [])
    let (newChild, prev, freed) ←
      deleteRecursive alloc level (ch childIdx) (key % R.capacity level)
    match prev with
    | none => return (page, none, [])
    | some prev =>
      let newPage ← alloc
      onCache (copyPage page newPage)
      onCache (getMut newPage fun b => ⟨b.page.setChild childIdx newChild, true⟩)
      return (newPage, some prev, freed ++ [page])

def delete (alloc : AllocM Nat) (depth : Nat) (root : Nat) (key : Nat) :
    AllocM (Nat × Option V × List Nat) := do
  if root = pageIdNone then return (root, none, [])
  if R.outOfRange depth key then return (root, none, [])
  R.deleteRecursive alloc depth root key

/-! ### Traversal -/

/-- `iter_recursive`: the values of the subtree of keys from `base` on, in key order. -/
def iterRecursive : Nat → Nat → Nat → CacheM (List (Nat × V))
  | 0, page, base => do
    let vals ← R.getLeaf page
    return ((List.range R.leafCap).filter fun i => !R.isAbsent (vals i)).map
      fun i => (satAdd base i, vals i)
  | level + 1, page, base => do
    let ch ← R.getInterior page
    (R.present ch).foldlM (fun out i => do
      let more ← iterRecursive level (ch i) (satAdd base (satMul i (R.capacity level)))
      return out ++ more) []

/-- `iter_live`, `iter`. -/
def iter (depth : Nat) (root : Nat) : CacheM (List (Nat × V)) := do
  if root = pageIdNone then return []
  R.iterRecursive depth root 0

/-- `iter_bounded_recursive`: as `iterRecursive`, but stop once `out` holds `limit` values. -/
def iterBoundedRecursive (limit : Nat) :
    Nat → Nat → Nat → List (Nat × V) → CacheM (List (Nat × V))
  | 0, page, base, out => do
    if limit ≤ out.length then return out
    let vals ← R.getLeaf page
    let found := ((List.range R.leafCap).filter fun i => !R.isAbsent (vals i)).map
      fun i => (satAdd base i, vals i)
    return out ++ found.take (limit - out.length)
  | level + 1, page, base, out => do
    if limit ≤ out.length then return out
    let ch ← R.getInterior page
    (R.present ch).foldlM (fun out i =>
      if limit ≤ out.length then pure out
      else iterBoundedRecursive limit level (ch i)
        (satAdd base (satMul i (R.capacity level))) out) out

def iterBounded (depth : Nat) (root : Nat) (limit : Nat) : CacheM (List (Nat × V)) := do
  if root = pageIdNone ∨ limit = 0 then return []
  R.iterBoundedRecursive limit depth root 0 []

/-- `any_recursive`: some leaf holds a value. -/
def anyRecursive : Nat → Nat → CacheM Bool
  | 0, page => do
    let vals ← R.getLeaf page
    return (List.range R.leafCap).any fun i => !R.isAbsent (vals i)
  | level + 1, page => do
    let ch ← R.getInterior page
    (R.present ch).anyM fun i => anyRecursive level (ch i)

def anyPresent (depth : Nat) (root : Nat) : CacheM Bool := do
  if root = pageIdNone then return false
  R.anyRecursive depth root

/-- `free_subtree`: the pages of the subtree, a node after its children. -/
def freeSubtreeFrom : Nat → Nat → CacheM (List Nat)
  | 0, page => do
    let _ ← R.getLeaf page
    return [page]
  | level + 1, page => do
    let ch ← R.getInterior page
    let freed ← (R.present ch).foldlM (fun freed i => do
      return freed ++ (← freeSubtreeFrom level (ch i))) []
    return freed ++ [page]

def freeSubtree (depth : Nat) (root : Nat) : CacheM (List Nat) := do
  if root = pageIdNone then return []
  R.freeSubtreeFrom depth root

/-- The loop of `recover_depth` down the left spine. `rounds` never runs out, because a spine
longer than the maximal depth is refused. -/
def recoverDepthFrom : Nat → Nat → Nat → CacheM Nat
  | 0, depth, _ => return depth
  | rounds + 1, depth, current => do
    match R.interior? (← getPage current) with
    | none => return depth
    | some ch =>
      if R.maxDepth < depth + 1 then throw (.corruptPage current)
      if ch 0 = 0 then return depth + 1
      recoverDepthFrom rounds (depth + 1) (ch 0)

def recoverDepth (root : Nat) : CacheM Nat := do
  if root = pageIdNone then return 0
  R.recoverDepthFrom (R.maxDepth + 1) 0 root

end RadixLayout

end Chisel
