import Chisel.Transaction

/-! Commit (`transaction/commit.rs`), the free map's part of it, key management
(`transaction/keys.rs`), creation and recovery (`transaction/recovery.rs`), and the defragmentation
pass (`defrag.rs`). -/

namespace Chisel

open StateError PageCache

namespace TransactionManager

/-! ### Commit -/

/-- `mark_free_committed_path`: mark a page free, making the tree if there is none. -/
def markFreeCommittedPath (id : Nat) : TxnM Unit :=
  finally'
    (withTree do
      if (← get).tree.root = pageIdNone then FreeMapTree.createKeeping
      FreeMapTree.markFreeGrowing id)
    fun m => { m with freemap.hint := min m.freemap.hint id }

def persist (freed : List Nat) : TxnM Unit := freed.forM markFreeCommittedPath

/-- The superblock that a commit or a key operation writes. -/
def buildSuperblock (roots : Roots) (totalPages txnCounter superblockCount : Nat)
    (header : Option CryptoHeader) : Superblock where
  formatVersion := if header.isSome then formatVersionEncrypted else Chisel.formatVersion
  txnCounter := txnCounter
  rootHandleTablePage := roots.handleTablePage
  rootFreemapPage := roots.freemapPage
  totalPages := totalPages
  nextHandle := roots.nextHandle
  pageSize := Chisel.pageSize
  namedRoots := roots.namedRoots
  superblockCount := superblockCount
  rootMembershipIndexPage := roots.membershipIndexPage
  freemapDepth := roots.freemapDepth
  encryption := header

def writeSuperblock (sb : Superblock) : CacheM Unit := do
  let unit := sb.serialize (← get).cipher
  onIo fun io => io.writePageUnit (sb.txnCounter % sb.superblockCount) unit
  onIo PageIo.fsync

def runCommit : TxnM Unit := do
  let nextCounter ← liftExcept (nextTxnCounter (← get).txnCounter)
  modify fun m => { m with
    txnFreedPages := m.txnFreedPages ++ (m.savepoints.map Savepoint.freedPages).flatten
      ++ m.txnPages.recyclable
    savepoints := m.savepoints.map fun sp => { sp with freedPages := [] }
    txnPages := { m.txnPages with recyclable := [] } }
  -- everything but the free map is on disk before the pages it frees are recorded
  withCache flush
  persist (← get).txnFreedPages
  withCache flush
  modify fun m => { m with txnCounter := nextCounter }
  let m ← get
  let totalPages := m.cache.filePageCount
  withCache (writeSuperblock
    (buildSuperblock m.currentRoots totalPages nextCounter m.superblockCount m.cryptoHeader))
  modify fun m => { m with
    committedRoots := { m.currentRoots with totalPages }
    packer := m.packer.commit
    activeTxn := false
    savepoints := []
    txnFreedPages := []
    txnPages := .empty
    freemap := m.freemap.commit }

/-- `commit`: every failure after the checks poisons the manager. -/
def commit : TxnM Unit := do
  let m ← get
  if m.poisoned then throw .poisoned
  if !m.activeTxn then throw .noActiveTransaction
  onError runCommit fun m => { m with poisoned := true }

/-! ### Keys -/

/-- The slots other than the one just written, with the new key table in those that validate. -/
def scrubSlots (header : CryptoHeader) (written : Nat) : List Nat → CacheM Unit
  | [] => pure ()
  | slot :: rest => do
    if slot ≠ written then
      match (← get).io.readPageUnit slot with
      | .error e => throw e
      | .ok unit =>
        match header.overwriteSlotTable unit with
        | none => pure ()
        | some unit => onIo fun io => io.writePageUnit slot unit
    scrubSlots header written rest

def rewriteCryptoHeaderInner (header : CryptoHeader) : TxnM Unit := do
  withCache flush
  let nextCounter ← liftExcept (nextTxnCounter (← get).txnCounter)
  modify fun m => { m with txnCounter := nextCounter }
  let m ← get
  let totalPages := m.cache.filePageCount
  let sb := buildSuperblock m.committedRoots totalPages nextCounter m.superblockCount (some header)
  withCache (writeSuperblock sb)
  -- the new table is durable before the old ones are written over
  withCache (scrubSlots header (nextCounter % m.superblockCount) (List.range m.superblockCount))
  withCache (onIo PageIo.fsync)
  modify fun m => { m with
    cryptoHeader := some header
    committedRoots.totalPages := totalPages }

def rewriteCryptoHeader (header : CryptoHeader) : TxnM Unit := do
  let m ← get
  if m.poisoned then throw .poisoned
  if m.activeTxn then throw .transactionInProgress
  if m.cache.cipher.isNone then throw .encryptionNotSupported
  if m.cache.io.readOnly then throw .readOnlyMode
  onError (rewriteCryptoHeaderInner header) fun m => { m with poisoned := true }

/-- The header, on an encrypted database whose manager is alive. -/
def keyHeader : TxnM CryptoHeader := do
  let m ← get
  if m.poisoned then throw .poisoned
  match m.cryptoHeader with
  | none => throw .encryptionNotSupported
  | some header => return header

/-- Wrap the data key for a new credential in the first free slot. -/
def wrapInFreeSlot (header : CryptoHeader) (new : Key) (dek : Dek) : TxnM CryptoHeader :=
  match header.freeSlot with
  | none => throw .noFreeKeySlot
  | some free => liftExcept (header.wrapInto free new dek)

def addKey (existing new : Key) : TxnM Unit := do
  let header ← keyHeader
  let (_, dek) ← liftExcept (header.unlock existing)
  rewriteCryptoHeader (← wrapInFreeSlot header new dek)

def rotateKey (old new : Key) : TxnM Unit := do
  let header ← keyHeader
  let (oldIdx, dek) ← liftExcept (header.unlock old)
  let header ← wrapInFreeSlot header new dek
  rewriteCryptoHeader { header with slots := header.slots.set oldIdx .empty }

def removeKey (key : Key) : TxnM Unit := do
  let header ← keyHeader
  let (idx, _) ← liftExcept (header.unlock key)
  if header.activeCount ≤ 1 then throw .lastKeySlot
  rewriteCryptoHeader { header with slots := header.slots.set idx .empty }

/-! ### Creation -/

/-- The manager of a database whose committed state is `roots`. -/
def ofRoots (cache : PageCache) (roots : Roots)
    (htDepth outerDepth txnCounter superblockCount : Nat) (liveSlots : AList fun _ : Nat => Nat)
    (header : Option CryptoHeader) :
    TransactionManager where
  cache := cache
  committedRoots := roots
  currentRoots := roots
  htDepth := htDepth
  outerDepth := outerDepth
  txnCounter := txnCounter
  superblockCount := superblockCount
  activeTxn := false
  savepoints := []
  txnFreedPages := []
  txnPages := .empty
  freemap := .new
  packer := .fromCommitted liveSlots
  poisoned := false
  cryptoHeader := header

/-- The loop of `create_new`: slot `i` starts with counter `N - 1 - i`. -/
def writeInitialSlots (sb : Superblock) : List Nat → CacheM Unit
  | [] => pure ()
  | i :: rest => do
    let unit := { sb with txnCounter := sb.superblockCount - 1 - i }.serialize (← get).cipher
    onIo fun io => io.writePageUnit i unit
    writeInitialSlots sb rest

/-- `create_new` on an empty file. `dek` is the random data key of an encrypted database. -/
def createNew (superblockCount : Nat) (key : Option Key) (dek : Dek) :
    CacheM TransactionManager := do
  let header ← match key with
    | none => pure none
    | some k =>
      match (CryptoHeader.mk (List.replicate keySlotCount .empty)).wrapInto 0 k dek with
      | .error e => throw e
      | .ok h => pure (some h)
  if header.isSome then
    modify fun c => { c with io := c.io.setStride encPageSize, cipher := some dek }
  let sb := match header with
    | none => Superblock.newEmpty superblockCount
    | some h => Superblock.newEmptyEncrypted superblockCount h
  writeInitialSlots sb (List.range superblockCount)
  onIo PageIo.fsync
  modify fun c => { c with nextPageId := superblockCount }
  let roots : Roots :=
    ⟨pageIdNone, pageIdNone, 0, 1, superblockCount, List.replicate namedRootCount .empty,
      pageIdNone⟩
  return ofRoots (← get) roots 0 0 (superblockCount - 1) superblockCount ∅ header

/-! ### Recovery -/

/-- `read_candidates`: the first units of the file, up to the largest slot count. -/
def readCandidates (io : PageIo) : List DiskUnit :=
  (List.range maxSuperblocks).filterMap fun i => (io.readPageUnit i).toOption

def hasEncrypted (candidates : List DiskUnit) : Bool :=
  candidates.any fun u => ((Superblock.deserialize u).bind Superblock.encryption).isSome

/-- The stride probe: the stride to use and the candidates read at it. -/
def probeStride (io : PageIo) (page0 : DiskUnit) : PageIo × List DiskUnit :=
  let first := Superblock.deserialize page0
  let io := if (first.bind Superblock.encryption).isSome then io.setStride encPageSize else io
  let candidates := readCandidates io
  if !hasEncrypted candidates && first.isNone then
    let enc := io.setStride encPageSize
    if hasEncrypted (readCandidates enc) then (enc, readCandidates enc)
    else (enc.setStride pageSize, candidates)
  else (io, candidates)

/-- A slot that validated: its position, its superblock and its unit. -/
structure Candidate where
  slot : Nat
  sb : Superblock
  unit : DiskUnit

/-- The slots that validate, from slot `i` on. -/
def validSlots : Nat → List DiskUnit → List Candidate
  | _, [] => []
  | i, u :: rest =>
    match Superblock.deserialize u with
    | none => validSlots (i + 1) rest
    | some sb => ⟨i, sb, u⟩ :: validSlots (i + 1) rest

/-- `max_by_key(txn_counter)`: the last of the largest. -/
def winner : List Candidate → Option Candidate
  | [] => none
  | c :: rest =>
    match winner rest with
    | none => some c
    | some w => if c.sb.txnCounter ≤ w.sb.txnCounter then some w else some c

/-- The live slots of each data page, from the entries of the handle table. -/
def countLiveSlots (entries : List (Nat × HandleEntry)) : AList fun _ : Nat => Nat :=
  entries.foldl (fun live e =>
    if e.2.flags = .live then SlotPacker.countUp live e.2.pageId else live) ∅

/-- The key gate: the superblock with its body decrypted, and the data key. -/
def unlockSuperblock (w : Candidate) (key : Option Key) :
    Except ChiselError (Superblock × Option Dek) :=
  match w.sb.encryption, key with
  | none, none => .ok (w.sb, none)
  | some _, none => .error .noEncryptionKey
  | none, some _ => .error .encryptionNotSupported
  | some header, some k => do
    let (_, dek) ← header.unlock k
    match Superblock.decryptBody dek w.unit with
    | none => .error (.decryptionFailed w.slot)
    | some sb => .ok (sb, some dek)

/-- The version, geometry and bound checks of `open_existing`. -/
def checkSuperblock (sb : Superblock) : Except ChiselError Unit :=
  let expected := if sb.encryption.isSome then formatVersionEncrypted else Chisel.formatVersion
  if formatMajor sb.formatVersion ≠ formatMajor expected then
    .error (.unsupportedFormatVersion sb.formatVersion expected)
  else if sb.pageSize ≠ Chisel.pageSize then
    .error (.unsupportedPageSize sb.pageSize Chisel.pageSize)
  else if FreeMapTree.maxDepth < sb.freemapDepth then
    .error (.invalidFreemapDepth sb.freemapDepth FreeMapTree.maxDepth)
  else if maxNextHandle < sb.nextHandle then
    .error (.invalidNextHandle sb.nextHandle maxNextHandle)
  else .ok ()

/-- A file written by a newer minor version opens read-only. -/
def newerMinor (sb : Superblock) : Bool :=
  let expected := if sb.encryption.isSome then formatVersionEncrypted else Chisel.formatVersion
  formatMinor expected < formatMinor sb.formatVersion

def rootsOf (sb : Superblock) : Roots where
  handleTablePage := sb.rootHandleTablePage
  freemapPage := sb.rootFreemapPage
  freemapDepth := sb.freemapDepth
  nextHandle := sb.nextHandle
  totalPages := sb.totalPages
  namedRoots := sb.namedRoots
  membershipIndexPage :=
    if sb.rootMembershipIndexPage = 0 then pageIdNone else sb.rootMembershipIndexPage

def liftCache {α : Type} : Except ChiselError α → CacheM α
  | .ok a => pure a
  | .error e => throw e

/-- `open_existing` from the winning slot on. -/
def openFrom (key : Option Key) (w : Candidate) : CacheM TransactionManager := do
  let (sb, cipher) ← liftCache (unlockSuperblock w key)
  modify fun c => { c with cipher }
  liftCache (checkSuperblock sb)
  if newerMinor sb then modify fun c => { c with io := c.io.forceReadOnly }
  let pageCount := (← get).filePageCount
  if pageCount < sb.totalPages then
    let stride := (← get).io.stride
    throw (.fileSizeMismatch (satMul sb.totalPages stride) (satMul pageCount stride))
  modify fun c => { c with nextPageId := sb.totalPages }
  let roots := rootsOf sb
  let htDepth ← HandleTable.recoverDepth sb.rootHandleTablePage
  let outerDepth ← MembershipIndex.recoverDepth roots.membershipIndexPage
  let entries ← HandleTable.iterLive htDepth sb.rootHandleTablePage
  return ofRoots (← get) roots htDepth outerDepth sb.txnCounter sb.superblockCount
    (countLiveSlots entries) sb.encryption

def openExisting (key : Option Key) : CacheM TransactionManager := do
  let page0 ← liftCache ((← get).io.readPageUnit 0)
  let (io, candidates) := probeStride (← get).io page0
  modify fun c => { c with io }
  match winner (validSlots 0 candidates) with
  | none => throw .corruptSuperblock
  | some w => openFrom key w

/-! ### Defragmentation -/

/-- `reclaim_orphans`: the pages of the free map's own types that nothing accounts for. -/
def findOrphans (tree : FreeMapTree) (reachable excluded : List Nat) :
    List Nat → CacheM (List Nat)
  | [] => return []
  | id :: rest => do
    if id ∈ reachable ∨ id ∈ excluded then findOrphans tree reachable excluded rest
    else
      match ← attempt (getPage id) with
      | .error (.corruptPage _) | .error (.checksumMismatch _) =>
        findOrphans tree reachable excluded rest
      | .error e => throw e
      | .ok p =>
        let isOrphan ← if p.isFreeMap then (fun free => !free) <$> tree.isFree id else pure false
        let orphans ← findOrphans tree reachable excluded rest
        return if isOrphan then id :: orphans else orphans

def reclaimOrphans : TxnM Nat := do
  let m ← get
  if !m.savepoints.isEmpty then return 0
  if m.currentRoots.freemapPage = pageIdNone then return 0
  let tree : FreeMapTree := ⟨m.currentRoots.freemapPage, m.currentRoots.freemapDepth, [], ∅⟩
  let excluded := m.freemap.structuralReuse ++ m.freemap.structuralSuperseded
    ++ m.freemap.pendingStructuralFrees
  let orphans ← withCache do
    let reachable ← tree.reachablePages
    findOrphans tree reachable excluded
      (List.range' m.superblockCount (m.cache.nextPageId - m.superblockCount))
  orphans.forM markFreeCommittedPath
  return orphans.length

def reclaimFreemapOrphans : TxnM Nat := guarded do
  requireActive
  reclaimOrphans

/-- A density threshold, as the fraction that the comparison of `f64`s decides. -/
abbrev Threshold := Nat → Nat → Bool

/-- The pages of a list whose live share of the stored slots is below the threshold. -/
def sparseOf (below : Threshold) (live : AList fun _ : Nat => Nat) :
    List Nat → CacheM (List Nat)
  | [] => return []
  | id :: rest => do
    match live.lookup id with
    | none | some 0 => sparseOf below live rest
    | some (n + 1) =>
      let stored ← (fun p => match p with | .data slots => slots.length | _ => 0) <$> getPage id
      let sparse ← sparseOf below live rest
      return if stored ≠ 0 ∧ below (n + 1) stored then id :: sparse else sparse

/-- `sparse_data_pages`; no threshold means none is positive. -/
def sparseDataPages (threshold : Option Threshold) : TxnM (List Nat) := guarded do
  match threshold with
  | none => return []
  | some below =>
    let live := (← get).packer.currentLiveSlots
    withCache (sparseOf below live live.keys)

def handleLivePageId (handle : Nat) : TxnM (Option Nat) := guarded do
  let m ← get
  match ← withCache (HandleTable.lookup m.htDepth m.readRoots.handleTablePage handle) with
  | some entry => return if entry.flags = .live then some entry.pageId else none
  | none => return none

structure DefragStats where
  pagesExamined : Nat
  pagesFreed : Nat
  valuesMoved : Nat
  freemapOrphansReclaimed : Nat
  deriving Repr, DecidableEq

/-- The relocation loop of `defrag`: the pages it touched and the values it moved. -/
def relocate (sparse : List Nat) (maxValues : Nat) :
    List Nat → List Nat → Nat → TxnM (List Nat × Nat)
  | [], examined, moved => return (examined, moved)
  | handle :: rest, examined, moved => do
    if 0 < maxValues ∧ maxValues ≤ moved then return (examined, moved)
    match ← handleLivePageId handle with
    | none => relocate sparse maxValues rest examined moved
    | some id =>
      if id ∈ sparse then
        let value ← read handle
        update handle value
        relocate sparse maxValues rest (if id ∈ examined then examined else id :: examined)
          (moved + 1)
      else relocate sparse maxValues rest examined moved

/-- The steps of `defrag` that follow the choice of the sparse pages. -/
def compact (sparse : List Nat) (maxValues : Nat) : TxnM DefragStats := do
  let stats : DefragStats ←
    if sparse.isEmpty then pure ⟨0, 0, 0, 0⟩
    else do
      let initial := (← get).packer.currentLiveSlots.keys
      let hs ← handles
      let (examined, moved) ← relocate sparse maxValues hs [] 0
      let final := (← get).packer.currentLiveSlots.keys
      pure ⟨examined.length, (initial.filter fun id => id ∉ final).length, moved, 0⟩
  let reclaimed ← reclaimFreemapOrphans
  return { stats with freemapOrphansReclaimed := reclaimed }

def defrag (threshold : Option Threshold) (maxValues : Nat) : TxnM DefragStats := do
  let m ← get
  if m.poisoned then throw .poisoned
  if !m.activeTxn then throw .noActiveTransaction
  if m.currentRoots.handleTablePage = pageIdNone ∧ m.currentRoots.freemapPage = pageIdNone then
    return ⟨0, 0, 0, 0⟩
  compact (← sparseDataPages threshold) maxValues

end TransactionManager

end Chisel
