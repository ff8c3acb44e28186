import Chisel.HandleTable
import Chisel.Values

/-! The transaction manager (`transaction/`): its state, the lifecycle of a transaction,
savepoints, and the operations on values. An operation that fails keeps the state it reached; a
fatal error poisons the manager. -/

namespace Chisel

open StateError PageCache

/-! ### State -/

structure Roots where
  handleTablePage : Nat
  freemapPage : Nat
  freemapDepth : Nat
  nextHandle : Nat
  totalPages : Nat
  namedRoots : List NamedRoot
  membershipIndexPage : Nat

/-- What a savepoint remembers of the free map's streams. -/
structure FreemapMark where
  supersededLen : Nat
  sessionOwned : Finset Nat

structure Savepoint where
  name : String
  roots : Roots
  watermark : Nat
  freedPages : List Nat
  liveSlots : AList fun _ : Nat => Nat
  freemap : FreemapMark

/-- The free map's own pages between transactions. A node superseded by a committed transaction
waits in `pendingStructuralFrees` until the next one may write over it. -/
structure FreemapRecycle where
  hint : Nat
  hintAtBegin : Nat
  structuralReuse : List Nat
  structuralSuperseded : List Nat
  pendingStructuralFrees : List Nat
  sessionOwned : Finset Nat

namespace FreemapRecycle

def new : FreemapRecycle := ⟨0, 0, [], [], [], ∅⟩

def begin (f : FreemapRecycle) : FreemapRecycle :=
  { f with
    sessionOwned := ∅
    structuralReuse := f.pendingStructuralFrees
    structuralSuperseded := []
    hintAtBegin := f.hint }

def commit (f : FreemapRecycle) : FreemapRecycle :=
  { f with
    sessionOwned := ∅
    pendingStructuralFrees := f.structuralSuperseded ++ f.structuralReuse
    structuralSuperseded := []
    structuralReuse := [] }

def rollback (f : FreemapRecycle) : FreemapRecycle :=
  { f with
    structuralSuperseded := []
    structuralReuse := []
    sessionOwned := ∅
    hint := f.hintAtBegin }

def savepointMark (f : FreemapRecycle) : FreemapMark :=
  ⟨f.structuralSuperseded.length, f.sessionOwned⟩

def rollbackToMark (f : FreemapRecycle) (mark : FreemapMark) : FreemapRecycle :=
  { f with
    structuralSuperseded := f.structuralSuperseded.take mark.supersededLen
    sessionOwned := mark.sessionOwned }

end FreemapRecycle

structure TransactionManager where
  cache : PageCache
  committedRoots : Roots
  currentRoots : Roots
  htDepth : Nat
  outerDepth : Nat
  txnCounter : Nat
  superblockCount : Nat
  activeTxn : Bool
  savepoints : List Savepoint
  txnFreedPages : List Nat
  txnPages : TxnPageRecycle
  freemap : FreemapRecycle
  packer : SlotPacker
  poisoned : Bool
  cryptoHeader : Option CryptoHeader

abbrev TxnM := EStateM ChiselError TransactionManager

namespace TransactionManager

def withCache {α : Type} (x : CacheM α) : TxnM α :=
  zoom TransactionManager.cache (fun c m => { m with cache := c }) x

/-- `take_tree`: what the allocation closure borrows from the manager. -/
def takeTree (m : TransactionManager) : AllocCtx where
  cache := m.cache
  tree := ⟨m.currentRoots.freemapPage, m.currentRoots.freemapDepth, [], m.freemap.sessionOwned⟩
  hint := m.freemap.hint
  structuralReuse := m.freemap.structuralReuse
  pool := m.txnPages

/-- `put_tree`: hand the borrowed state back. -/
def putTree (s : AllocCtx) (m : TransactionManager) : TransactionManager :=
  { m with
    cache := s.cache
    currentRoots.freemapPage := s.tree.root
    currentRoots.freemapDepth := s.tree.depth
    txnPages := s.pool
    freemap.hint := s.hint
    freemap.structuralReuse := s.structuralReuse
    freemap.structuralSuperseded := m.freemap.structuralSuperseded ++ s.tree.pendingSuperseded
    freemap.sessionOwned := s.tree.sessionOwned }

/-- Run an operation on the borrowed tree. The tree goes back whether it returns or fails. -/
def withTree {α : Type} (x : AllocM α) : TxnM α := zoom takeTree putTree x

/-- Free pages and half-filled data pages are reused only outside savepoints. -/
def reuse (m : TransactionManager) : Bool := m.savepoints.isEmpty

def alloc (m : TransactionManager) : AllocM Nat := cowAlloc m.reuse

/-- `check_alive`, the operation, `poison_on_fatal`. -/
def guarded {α : Type} (x : TxnM α) : TxnM α := fun m =>
  if m.poisoned then .error .poisoned m
  else match x m with
    | .ok a m' => .ok a m'
    | .error e m' => .error e (if e.isFatal then { m' with poisoned := true } else m')

def requireActive : TxnM Unit := do
  if !(← get).activeTxn then throw .noActiveTransaction

/-! ### Lifecycle -/

def beginInner : TxnM Unit := do
  let m ← get
  if m.cache.io.readOnly then throw .readOnlyMode
  if m.activeTxn then throw .transactionAlreadyActive
  set { m with
    currentRoots := m.committedRoots
    freemap := m.freemap.begin
    txnPages := .empty
    packer := m.packer.begin
    activeTxn := true
    savepoints := []
    txnFreedPages := [] }

def begin : TxnM Unit := guarded beginInner

/-- Re-derive the two depths from the current roots. -/
def recoverDepths : TxnM Unit := do
  let depth ← withCache (MembershipIndex.recoverDepth (← get).currentRoots.membershipIndexPage)
  modify fun m => { m with outerDepth := depth }
  let depth ← withCache (HandleTable.recoverDepth (← get).currentRoots.handleTablePage)
  modify fun m => { m with htDepth := depth }

def rollbackInner : TxnM Unit := do
  requireActive
  withCache discardAllDirty
  withCache (PageCache.truncate (← get).committedRoots.totalPages)
  modify fun m => { m with currentRoots := m.committedRoots }
  recoverDepths
  modify fun m => { m with
    freemap := m.freemap.rollback
    txnPages := .empty
    packer := m.packer.rollback
    activeTxn := false
    savepoints := []
    txnFreedPages := [] }

def rollback : TxnM Unit := guarded rollbackInner

/-! ### Savepoints -/

def savepointInner (name : String) : TxnM Unit := do
  requireActive
  let m ← get
  if m.savepoints.any fun sp => sp.name == name then throw (.duplicateSavepoint name)
  set { m with
    packer := m.packer.clearCursor
    txnPages := { m.txnPages with recyclable := [] }
    txnFreedPages := []
    savepoints := m.savepoints ++ [({
      name := name
      roots := m.currentRoots
      watermark := m.cache.nextPageId
      freedPages := m.txnFreedPages ++ m.txnPages.recyclable
      liveSlots := m.packer.currentLiveSlots
      freemap := m.freemap.savepointMark } : Savepoint)] }

def savepoint (name : String) : TxnM Unit := guarded (savepointInner name)

/-- The position of a savepoint on the stack, and the savepoint. -/
def findSavepoint (name : String) : TxnM (Nat × Savepoint) := do
  let m ← get
  match m.savepoints.findIdx? fun sp => sp.name == name with
  | none => throw (.savepointNotFound name)
  | some idx =>
    match m.savepoints[idx]? with
    | none => throw .panicked
    | some sp => return (idx, sp)

def rollbackToInner (name : String) : TxnM Unit := do
  requireActive
  let (idx, sp) ← findSavepoint name
  withCache (PageCache.truncate sp.watermark)
  modify fun m => { m with currentRoots := sp.roots }
  recoverDepths
  modify fun m => { m with
    packer := m.packer.restore sp.liveSlots
    freemap := m.freemap.rollbackToMark sp.freemap
    savepoints := m.savepoints.take (idx + 1)
    txnFreedPages := [] }

def rollbackTo (name : String) : TxnM Unit := guarded (rollbackToInner name)

def releaseInner (name : String) : TxnM Unit := do
  requireActive
  let (idx, _) ← findSavepoint name
  modify fun m => { m with
    savepoints := m.savepoints.take idx
    txnFreedPages := ((m.savepoints.drop idx).map Savepoint.freedPages).flatten ++ m.txnFreedPages }

def release (name : String) : TxnM Unit := guarded (releaseInner name)

/-! ### Reading -/

/-- The roots a read goes through: the transaction's own, or the last committed ones. -/
def readRoots (m : TransactionManager) : Roots :=
  if m.activeTxn then m.currentRoots else m.committedRoots

def lookupLive (handle : Nat) : TxnM HandleEntry := do
  let m ← get
  match ← withCache (HandleTable.lookup m.htDepth m.readRoots.handleTablePage handle) with
  | some entry => return entry
  | none => throw (.invalidHandle handle)

def tag (handle : Nat) : TxnM Nat := guarded do return (← lookupLive handle).tag

def clientByte (handle : Nat) : TxnM UInt8 := guarded do return (← lookupLive handle).clientByte

def readInner (handle : Nat) : TxnM Bytes := do
  let entry ← lookupLive handle
  match entry.flags with
  | .live =>
    match DataPage.read (← withCache (getPage entry.pageId)) entry.slotIndex with
    | some data => return data
    | none => throw (.corruptPage entry.pageId)
  | .overflow => withCache (Overflow.read entry.pageId)
  | .deleted => throw (.invalidHandle handle)

def read (handle : Nat) : TxnM Bytes := guarded (readInner handle)

def handles : TxnM (List Nat) := guarded do
  let m ← get
  return (← withCache (HandleTable.iterLive m.htDepth m.readRoots.handleTablePage)).map Prod.fst

def handlesWithTag (tag : Nat) : TxnM (List Nat) := guarded do
  let m ← get
  withCache (MembershipIndex.handlesForTag m.outerDepth m.readRoots.membershipIndexPage tag)

/-! ### Staging -/

def retireSuperseded (freed : List Nat) (m : TransactionManager) : TransactionManager :=
  let (pool, txnFreed) := m.txnPages.retire freed m.txnFreedPages m.savepoints.isEmpty
  { m with txnPages := pool, txnFreedPages := txnFreed }

def releaseDataSlot (id : Nat) (m : TransactionManager) : TransactionManager :=
  let (packer, freed) := m.packer.release id
  { m with packer := packer, txnFreedPages := m.txnFreedPages ++ freed.toList }

/-- `release_data_slot` of a page, if there is one. -/
def releaseInline (id : Option Nat) (m : TransactionManager) : TransactionManager :=
  match id with
  | none => m
  | some id => m.releaseDataSlot id

def insertIntoDataPage (value : Bytes) : TxnM (Nat × Nat) := do
  let m ← get
  let (id, slot, packer) ← withTree (m.packer.insert m.alloc m.reuse value)
  modify fun m => { m with packer := packer }
  return (id, slot)

def ensureHandleTable : TxnM Unit := do
  if (← get).currentRoots.handleTablePage = pageIdNone then
    let root ← withCache HandleTable.createRoot
    modify fun m => { m with htDepth := 0, currentRoots.handleTablePage := root }

/-- `handle_table_insert_candidate`. The depth is the table's own and moves with the candidate;
the caller installs the root. -/
def handleTableInsertCandidate (handle : Nat) (entry : HandleEntry) :
    TxnM (Nat × List Nat) := do
  let m ← get
  let r ← withTree
    (HandleTable.insert m.alloc m.htDepth m.currentRoots.handleTablePage handle entry)
  modify fun m => { m with htDepth := r.depth }
  return (r.root, r.freed)

def membershipInsertCandidate (tag handle : Nat) : TxnM (Nat × List Nat) := do
  let m ← get
  let r ← withTree
    (MembershipIndex.insert m.alloc m.outerDepth m.currentRoots.membershipIndexPage tag handle)
  modify fun m => { m with outerDepth := r.depth }
  return (r.root, r.freed)

def membershipRemoveCandidate (tag handle : Nat) : TxnM (Nat × List Nat) := do
  let m ← get
  let (r, _) ← withTree
    (MembershipIndex.remove m.alloc m.outerDepth m.currentRoots.membershipIndexPage tag handle)
  modify fun m => { m with outerDepth := r.depth }
  return (r.root, r.freed)

/-- Store a value: its entry, and the data page it went to if it is inline. -/
def storeValue (value : Bytes) (tag : Nat) (clientByte : UInt8) :
    TxnM (HandleEntry × Option Nat) := do
  if maxInlineValue < value.length then
    let first ← withCache (Overflow.write value)
    return (⟨first, 0, .overflow, tag, clientByte⟩, none)
  else
    let (id, slot) ← insertIntoDataPage value
    return (⟨id, slot, .live, tag, clientByte⟩, some id)

def abortAllocatePrepare (savedRoot : Nat) (savedDepth : Nat) (inline : Option Nat)
    (m : TransactionManager) : TransactionManager :=
  releaseInline inline
    { m with currentRoots.handleTablePage := savedRoot, htDepth := savedDepth }

def liftExcept {α : Type} : Except ChiselError α → TxnM α
  | .ok a => pure a
  | .error e => throw e

def allocateInner (value : Bytes) (tag : Nat) : TxnM Nat := do
  requireActive
  let handle := (← get).currentRoots.nextHandle
  let nextHandle ← liftExcept (nextHandleAfter handle)
  let (entry, inline) ← storeValue value tag 0
  let saved ← get
  ensureHandleTable
  let abort := abortAllocatePrepare saved.currentRoots.handleTablePage saved.htDepth inline
  let (htRoot, htFreed) ← onError (handleTableInsertCandidate handle entry) abort
  let membership ←
    if tag ≠ 0 then some <$> onError (membershipInsertCandidate tag handle) abort else pure none
  -- nothing below can fail
  modify fun m => retireSuperseded htFreed
    { m with currentRoots.nextHandle := nextHandle, currentRoots.handleTablePage := htRoot }
  match membership with
  | none => return handle
  | some (miRoot, miFreed) =>
    modify fun m => retireSuperseded miFreed { m with currentRoots.membershipIndexPage := miRoot }
    return handle

def allocate (value : Bytes) : TxnM Nat := guarded (allocateInner value 0)

def allocateTagged (value : Bytes) (tag : Nat) : TxnM Nat := guarded (allocateInner value tag)

def htInsert (handle : Nat) (entry : HandleEntry) : TxnM Unit := do
  let (root, freed) ← handleTableInsertCandidate handle entry
  modify fun m => retireSuperseded freed { m with currentRoots.handleTablePage := root }

def setClientByteInner (handle : Nat) (byte : UInt8) : TxnM Unit := do
  requireActive
  let entry ← lookupLive handle
  htInsert handle { entry with clientByte := byte }

def setClientByte (handle : Nat) (byte : UInt8) : TxnM Unit :=
  guarded (setClientByteInner handle byte)

/-! ### Mutation -/

/-- What an update or a delete gives back: a data slot, or the pages of a chain. -/
inductive OldRelease
  | inline (id : Nat)
  | overflow (freed : List Nat)

/-- The release that belongs to a live entry. -/
def collectRelease (entry : HandleEntry) : TxnM OldRelease := do
  match entry.flags with
  | .live => return .inline entry.pageId
  | .overflow => return .overflow (← withCache (Overflow.collectChainPages entry.pageId))
  | .deleted => throw (.corruptPage entry.pageId)

def applyRelease (r : OldRelease) (m : TransactionManager) : TransactionManager :=
  match r with
  | .inline id => m.releaseDataSlot id
  | .overflow freed => { m with txnFreedPages := m.txnFreedPages ++ freed }

def updateInner (handle : Nat) (value : Bytes) : TxnM Unit := do
  requireActive
  let entry ← lookupLive handle
  let (newEntry, inline) ← storeValue value entry.tag entry.clientByte
  let savedDepth := (← get).htDepth
  let (root, freed) ← onError (handleTableInsertCandidate handle newEntry) (releaseInline inline)
  -- a live entry is never `Deleted`, so the error without cleanup is not reached
  let old ← onError (collectRelease entry)
    fun m => { releaseInline inline m with htDepth := savedDepth }
  modify fun m => applyRelease old
    (retireSuperseded freed { m with currentRoots.handleTablePage := root })

def update (handle : Nat) (value : Bytes) : TxnM Unit := guarded (updateInner handle value)

def deleteInner (handle : Nat) : TxnM Unit := do
  requireActive
  let m ← get
  let (root, prev, freed) ← withTree
    (HandleTable.delete m.alloc m.htDepth m.currentRoots.handleTablePage handle)
  match prev with
  | none => throw (.invalidHandle handle)
  | some entry =>
    let old ← collectRelease entry
    let membership ←
      if entry.tag ≠ 0 then some <$> membershipRemoveCandidate entry.tag handle else pure none
    modify fun m => applyRelease old
      (retireSuperseded freed { m with currentRoots.handleTablePage := root })
    match membership with
    | none => return ()
    | some (miRoot, miFreed) =>
      modify fun m => retireSuperseded miFreed { m with currentRoots.membershipIndexPage := miRoot }

def delete (handle : Nat) : TxnM Unit := guarded (deleteInner handle)

def deleteTaggedInner (handle tag : Nat) : TxnM Unit := do
  requireActive
  let actual := (← lookupLive handle).tag
  if actual ≠ tag then throw (.tagMismatch handle tag actual)
  deleteInner handle

def deleteTagged (handle tag : Nat) : TxnM Unit := guarded (deleteTaggedInner handle tag)

def deleteWithTagInner (tag max : Nat) : TxnM (List Nat × Bool) := do
  requireActive
  if max = 0 then return ([], false)
  let m ← get
  let members ← withCache (MembershipIndex.handlesForTagBounded m.outerDepth
    m.currentRoots.membershipIndexPage tag (satAdd max 1))
  let take := members.take max
  take.forM deleteInner
  return (take, members.length ≤ max)

def deleteWithTag (tag max : Nat) : TxnM (List Nat × Bool) := guarded (deleteWithTagInner tag max)

def deleteManyInner (handles : List Nat) : TxnM Unit := do
  requireActive
  handles.forM deleteInner

def deleteMany (handles : List Nat) : TxnM Unit := guarded (deleteManyInner handles)

/-! ### Named roots -/

/-- `encode_root_name`: the name padded to the width of its field. -/
def encodeRootName (name : Bytes) : Except ChiselError Bytes :=
  if name = [] ∨ namedRootNameLen < name.length then .error .invalidRootName
  else if 0 ∈ name then .error .invalidRootName
  else .ok (name ++ List.replicate (namedRootNameLen - name.length) 0)

/-- The entry of the table is in use and has this name. -/
def isNamed (encoded : Bytes) (r : NamedRoot) : Bool := !r.isEmpty && r.name == encoded

def setRootNameInner (name : Bytes) (handle : Nat) : TxnM Unit := do
  requireActive
  let encoded ← liftExcept (encodeRootName name)
  let table := (← get).currentRoots.namedRoots
  let slot := (table.findIdx? (isNamed encoded)).or (table.findIdx? NamedRoot.isEmpty)
  match slot with
  | some i => modify fun m => { m with currentRoots.namedRoots := table.set i ⟨encoded, handle⟩ }
  | none => throw .rootNameTableFull

def setRootName (name : Bytes) (handle : Nat) : TxnM Unit := guarded (setRootNameInner name handle)

def getRootName (name : Bytes) : TxnM (Option Nat) := guarded do
  let encoded ← liftExcept (encodeRootName name)
  return ((← get).readRoots.namedRoots.find? (isNamed encoded)).map NamedRoot.handle

def clearRootNameInner (name : Bytes) : TxnM Unit := do
  requireActive
  let encoded ← liftExcept (encodeRootName name)
  let table := (← get).currentRoots.namedRoots
  match table.findIdx? (isNamed encoded) with
  | some i => modify fun m => { m with currentRoots.namedRoots := table.set i .empty }
  | none => return ()

def clearRootName (name : Bytes) : TxnM Unit := guarded (clearRootNameInner name)

/-! ### Configuration -/

/-- A configuration change is refused while a transaction runs. -/
def betweenTransactions (x : CacheM Unit) : TxnM Unit := do
  let m ← get
  if m.poisoned then throw .poisoned
  if m.activeTxn then throw .transactionInProgress
  withCache x

def setCacheMaxBytes (bytes : Nat) : TxnM Unit :=
  betweenTransactions (PageCache.setCacheMaxBytes bytes)

def setSpillwayMaxBytes (bytes : Nat) : TxnM Unit :=
  betweenTransactions (PageCache.setSpillwayMaxBytes bytes)

def setDrainInsertion (policy : DrainInsertion) : TxnM Unit :=
  betweenTransactions (PageCache.setDrainInsertion policy)

/-! ### Statistics -/

structure Stats where
  handleCount : Nat
  totalPages : Nat
  fileSizeBytes : Nat
  spillway : Option (Nat × Nat)
  deriving Repr, DecidableEq

def filePageCount : TxnM Nat := guarded do return (← get).cache.filePageCount

/-- The logical and the largest size of the spillway, once it is open. -/
def spillwayCapacity : TxnM (Option (Nat × Nat)) := guarded do
  return (← get).cache.spillway.map fun spw => (spw.slotCount * spw.payloadSize, spw.maxBytes)

def stats : TxnM Stats := do
  let hs ← handles
  let pageCount ← filePageCount
  let spillway ← spillwayCapacity
  return ⟨hs.length, pageCount, satMul pageCount (← get).cache.io.stride, spillway⟩

/-- The activity counters themselves are not part of the model. -/
def counters : TxnM Unit := guarded (pure ())

def fileSizeBytes : TxnM Nat := do
  let pageCount ← filePageCount
  return satMul pageCount (← get).cache.io.stride

end TransactionManager

end Chisel
