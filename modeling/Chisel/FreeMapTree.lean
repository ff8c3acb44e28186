import Chisel.PageCache

/-! The free map: a copy-on-write radix tree of bitmaps (`freemap.rs`, `freemap_tree.rs`), and the
state that the allocation closures of a transaction borrow (`transaction/freemap.rs`): the cache,
the tree, the scan hint, the pages the tree may reuse for itself, and the transaction's own dead
pages. -/

namespace Chisel

open StateError PageCache

namespace Page

def setChild (i : Nat) (child : Nat) : Page → Page
  | handleInterior ch => handleInterior (Function.update ch i child)
  | freeMapInterior ch => freeMapInterior (Function.update ch i child)
  | membershipInterior ch => membershipInterior (Function.update ch i child)
  | p => p

end Page

/-! ### Bitmap pages -/

namespace FreeMap

/-- Bits in one bitmap page. -/
def leafCapacity : Nat := pageBodySize * 8

def markFree (bits : Nat → Bool) (bit : Nat) : Nat → Bool := Function.update bits bit true

def clearBit (bits : Nat → Bool) (bit : Nat) : Nat → Bool := Function.update bits bit false

def firstFreeBitFrom (bits : Nat → Bool) (lo : Nat) : Option Nat :=
  (List.range' lo (leafCapacity - lo)).find? bits

end FreeMap

/-! ### The tree and the allocation state -/

/-- `root` is `pageIdNone` until the first page is freed. `sessionOwned` are the nodes this
transaction made and may write in place; `pendingSuperseded` the nodes it replaced. -/
structure FreeMapTree where
  root : Nat
  depth : Nat
  pendingSuperseded : List Nat
  sessionOwned : Finset Nat

/-- The pages allocated in this transaction, and those of them that are dead again. -/
structure TxnPageRecycle where
  allocated : Finset Nat
  recyclable : List Nat

structure AllocCtx where
  cache : PageCache
  tree : FreeMapTree
  hint : Nat
  structuralReuse : List Nat
  pool : TxnPageRecycle

abbrev AllocM := EStateM ChiselError AllocCtx

/-- A cache operation inside an allocation. -/
def onCache {α : Type} (x : CacheM α) : AllocM α :=
  zoom AllocCtx.cache (fun c s => { s with cache := c }) x

/-- `structural_extend`: a page for the tree itself, never taken from the tree's own bits. -/
def structuralExtend : AllocM Nat := do
  let s ← get
  match s.structuralReuse.getLast? with
  | some id =>
    set { s with structuralReuse := s.structuralReuse.dropLast }
    onCache (claimPage id)
    return id
  | none => onCache newPage

namespace FreeMapTree

def ptrsPerInterior : Nat := 1021
def maxDepth : Nat := 5

/-- `capacity` of a tree of the given depth; `child_span(level)` is `capacity (level - 1)`. -/
def capacity : Nat → Nat
  | 0 => FreeMap.leafCapacity
  | depth + 1 => satMul (capacity depth) ptrsPerInterior

def checkDepth (t : FreeMapTree) : CacheM Unit :=
  if t.depth > maxDepth then throw (.corruptPage t.root) else pure ()

theorem checkDepth_of_le {t : FreeMapTree} (h : t.depth ≤ maxDepth) : t.checkDepth = pure () :=
  if_neg (Nat.not_lt.mpr h)

/-- The bitmap in page `id`, if it is a bitmap page. -/
def getLeaf (id : Nat) : CacheM (Nat → Bool) := do
  match ← getPage id with
  | .freeMap bits => return bits
  | _ => throw (.corruptPage id)

/-- The children in page `id`, if it is an interior page of the tree. -/
def getInterior (id : Nat) : CacheM (Nat → Nat) := do
  match ← getPage id with
  | .freeMapInterior ch => return ch
  | _ => throw (.corruptPage id)

/-- The descent of `find_leaf` from a node `level` levels above the leaves. -/
def findLeafFrom : Nat → Nat → Nat → CacheM (Option Nat)
  | 0, current, _ => do
    let _ ← getLeaf current
    return some current
  | level + 1, current, remaining => do
    let ch ← getInterior current
    let childIdx := remaining / capacity level
    if ptrsPerInterior ≤ childIdx then return none
    let child := ch childIdx
    if child = 0 then return none
    findLeafFrom level child (remaining % capacity level)

def isFree (t : FreeMapTree) (id : Nat) : CacheM Bool := do
  t.checkDepth
  if capacity t.depth ≠ u64Max ∧ capacity t.depth ≤ id then return false
  match ← findLeafFrom t.depth t.root id with
  | none => return false
  | some leaf => return (← getLeaf leaf) (id % FreeMap.leafCapacity)

/-- The page type a node has `level` levels above the leaves. -/
def nodeTypeOk (level : Nat) (p : Page) : Bool :=
  match level, p with
  | 0, .freeMap _ => true
  | _ + 1, .freeMapInterior _ => true
  | _, _ => false

/-- `init_page` of a bitmap or of an interior node. -/
def initNode (level : Nat) : Page :=
  if level = 0 then .freeMap fun _ => false else .freeMapInterior fun _ => 0

/-- `create`: an empty tree of one leaf. -/
def create : AllocM Unit := do
  let root ← structuralExtend
  onCache (writeStamped root (initNode 0))
  modify fun s => { s with tree := ⟨root, 0, [], {root}⟩ }

/-- `create`, with the nodes owned so far carried over. -/
def createKeeping : AllocM Unit := do
  let session := (← get).tree.sessionOwned
  modify fun s => { s with tree.sessionOwned := ∅ }
  create
  modify fun s => { s with tree.sessionOwned := s.tree.sessionOwned ∪ session }

/-- Record `id` as a node of this transaction. -/
def own (id : Nat) : AllocM Unit :=
  modify fun s => { s with tree.sessionOwned := insert id s.tree.sessionOwned }

/-- `grow`: a new root with the old one as child 0. -/
def grow : AllocM Unit := do
  let t := (← get).tree
  if maxDepth ≤ t.depth then return ()
  let newRoot ← structuralExtend
  onCache (writeStamped newRoot (.freeMapInterior (Function.update (fun _ => 0) 0 t.root)))
  own newRoot
  modify fun s => { s with tree.root := newRoot, tree.depth := s.tree.depth + 1 }

/-- `cow_node`: the node itself if this transaction made it, else a copy. -/
def cowNode (id : Nat) (level : Nat) : AllocM Nat := do
  if id ∈ (← get).tree.sessionOwned then return id
  if !nodeTypeOk level (← onCache (getPage id)) then throw (.corruptPage id)
  let newId ← structuralExtend
  onCache (copyPage id newId)
  own newId
  modify fun s => { s with tree.pendingSuperseded := s.tree.pendingSuperseded ++ [id] }
  return newId

/-- The child to go down to, as a node this transaction owns. -/
def ownChild (child level : Nat) : AllocM Nat :=
  if child = 0 then do
    let idNew ← structuralExtend
    onCache (writeStamped idNew (initNode level))
    own idNew
    pure idNew
  else cowNode child level

/-- The loop of `cow_descend` from the node `current`, which this transaction owns. -/
def cowDescendFrom (leafOp : (Nat → Bool) → Nat → Nat → Bool) : Nat → Nat → Nat → AllocM Unit
  | 0, current, remaining => do
    onCache (getMut current id)
    let bits ← onCache (getLeaf current)
    onCache (writeStamped current (.freeMap (leafOp bits (remaining % FreeMap.leafCapacity))))
  | level + 1, current, remaining => do
    let childIdx := remaining / capacity level
    if ptrsPerInterior ≤ childIdx then throw (.corruptPage current)
    let ch ← onCache (getInterior current)
    let newChild ← ownChild (ch childIdx) level
    onCache (getMut current fun b => ⟨b.page.setChild childIdx newChild, true⟩)
    cowDescendFrom leafOp level newChild (remaining % capacity level)

def cowDescend (leafOp : (Nat → Bool) → Nat → Nat → Bool) (id : Nat) : AllocM Unit := do
  let t := (← get).tree
  onCache t.checkDepth
  if capacity t.depth ≠ u64Max ∧ capacity t.depth ≤ id then throw (.corruptPage t.root)
  let newRoot ← cowNode t.root t.depth
  modify fun s => { s with tree.root := newRoot }
  cowDescendFrom leafOp t.depth newRoot id

def markFree (id : Nat) : AllocM Unit := cowDescend FreeMap.markFree id

def clearBit (id : Nat) : AllocM Unit := cowDescend FreeMap.clearBit id

/-- The growth loop of `mark_free_growing`; a tree never grows past `maxDepth`. -/
def growTo (id : Nat) : Nat → AllocM Unit
  | 0 => pure ()
  | rounds + 1 => do
    let t := (← get).tree
    if capacity t.depth ≤ id ∧ t.depth < maxDepth then
      grow
      growTo id rounds

def markFreeGrowing (id : Nat) : AllocM Unit := do
  let t := (← get).tree
  onCache t.checkDepth
  growTo id maxDepth
  markFree id

/-- The positions of the children that are there, in order. -/
def present (ch : Nat → Nat) : List Nat := (List.range ptrsPerInterior).filter fun i => ch i ≠ 0

/-- `scan_node`: the least free id at or above `lo` in the subtree of ids from `base` on. -/
def scanNode (lo : Nat) : Nat → Nat → Nat → CacheM (Option Nat)
  | 0, page, base => do
    let bits ← getLeaf page
    return (FreeMap.firstFreeBitFrom bits (lo - base)).map fun b => base + b
  | level + 1, page, base => do
    let ch ← getInterior page
    (present ch).findSomeM? fun i =>
      let childBase := satAdd base (satMul i (capacity level))
      if satAdd childBase (capacity level) ≤ lo then pure none
      else scanNode lo level (ch i) childBase

def scanFrom (t : FreeMapTree) (lo : Nat) : CacheM (Option Nat) := do
  t.checkDepth
  scanNode lo t.depth t.root 0

/-- `allocate_first`: take the least free id at or above the hint. -/
def allocateFirst : AllocM (Option Nat) := do
  let s ← get
  match ← onCache (s.tree.scanFrom s.hint) with
  | none => return none
  | some found =>
    clearBit found
    modify fun s => { s with hint := found }
    return some found

/-- `collect_reachable`: the pages of the subtree, a node before its children. -/
def collectReachable : Nat → Nat → CacheM (List Nat)
  | 0, page => do
    let _ ← getLeaf page
    return [page]
  | level + 1, page => do
    let ch ← getInterior page
    (present ch).foldlM (fun acc i => do return acc ++ (← collectReachable level (ch i))) [page]

def reachablePages (t : FreeMapTree) : CacheM (List Nat) := do
  t.checkDepth
  if t.root = pageIdNone then return []
  collectReachable t.depth t.root

end FreeMapTree

/-! ### Allocation inside a transaction -/

namespace TxnPageRecycle

def empty : TxnPageRecycle := ⟨∅, []⟩

def record (pool : TxnPageRecycle) (id : Nat) : TxnPageRecycle :=
  { pool with allocated := insert id pool.allocated }

/-- `retire`: where the pages that an operation superseded go. -/
def retire (pool : TxnPageRecycle) (freed txnFreed : List Nat) (poolEnabled : Bool) :
    TxnPageRecycle × List Nat :=
  if poolEnabled then
    ({ pool with recyclable := pool.recyclable ++ freed.filter fun id => id ∈ pool.allocated },
      txnFreed ++ freed.filter fun id => id ∉ pool.allocated)
  else (pool, txnFreed ++ freed)

end TxnPageRecycle

def recordAllocated (id : Nat) : AllocM Nat := do
  modify fun s => { s with pool := s.pool.record id }
  return id

/-- `TxnPageRecycle::draw`: the newest dead page, reissued before it leaves the pool. -/
def drawRecyclable : AllocM (Option Nat) := do
  match (← get).pool.recyclable.getLast? with
  | none => return none
  | some id =>
    onCache (reclaimDeadTxnPage id)
    modify fun s => { s with pool.recyclable := s.pool.recyclable.dropLast }
    return some id

/-- The first two sources of `cow_alloc`: a dead page of this transaction, then a free page. -/
def reuseAlloc : AllocM (Option Nat) := do
  match ← drawRecyclable with
  | some id => return some id
  | none =>
    if (← get).tree.root = pageIdNone then return none
    match ← FreeMapTree.allocateFirst with
    | none => return none
    | some id =>
      onCache (claimPage id)
      return some id

def cowAlloc (reuse : Bool) : AllocM Nat := do
  match ← (if reuse then reuseAlloc else pure none : AllocM (Option Nat)) with
  | some id => recordAllocated id
  | none => recordAllocated (← onCache newPage)

end Chisel
