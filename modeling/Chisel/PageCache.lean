import Chisel.Lib.StateError
import Chisel.PageIo

/-! The page cache (`page_cache.rs`) with its LRU order (`lru.rs`) and its spillway
(`spillway.rs`). Dirty pages stay in memory or in the spillway until `flush`; nothing else writes
to the file. -/

namespace Chisel

open StateError

/-! ### Recency order -/

namespace Lru

/-- Move `id` to the most recently used end, or enter it there. -/
def pushFront (id : Nat) (l : List Nat) : List Nat := id :: l.erase id

/-- Move `id` to the least recently used end, or enter it there. -/
def pushBack (id : Nat) (l : List Nat) : List Nat := l.erase id ++ [id]

end Lru

/-! ### Sealing -/

/-- The unit that holds `buf` at page `id`. -/
def sealPage (cipher : Option Dek) (id : Nat) (buf : Buf) : DiskUnit :=
  .page (cipher.map fun dek => (dek, id)) buf

/-- The buffer of the unit read for page `id`. Anything that is not a page unit sealed as this
handle seals fails its tag or, unencrypted, its checksum. -/
def openUnit (cipher : Option Dek) (id : Nat) (u : DiskUnit) : Except ChiselError Buf :=
  let refused := if cipher.isSome then ChiselError.decryptionFailed id
    else ChiselError.checksumMismatch id
  match u with
  | .page sealedFor buf =>
    if sealedFor = cipher.map fun dek => (dek, id) then .ok buf else .error refused
  | _ => .error refused

/-! ### Spillway -/

/-- The side file of spilled pages: the slot of each resident page, and the slots' contents. The
log has everything that was written to it. -/
structure Spillway where
  slots : AList fun _ : Nat => Nat
  nextSlotIndex : Nat
  cells : Nat → Option (Nat × DiskUnit)
  maxBytes : Nat
  payloadSize : Nat
  log : List (Nat × DiskUnit)

namespace Spillway

def new (maxBytes payloadSize : Nat) : Spillway :=
  ⟨∅, 0, fun _ => none, maxBytes, payloadSize, []⟩

def isResident (s : Spillway) (id : Nat) : Bool := id ∈ s.slots

def slotCount (s : Spillway) : Nat := s.slots.keys.length

def spill (s : Spillway) (id : Nat) (blob : DiskUnit) : Except ChiselError Spillway :=
  match s.slots.lookup id with
  | some i => .ok { s with
      cells := Function.update s.cells i (some (id, blob))
      log := s.log ++ [(id, blob)] }
  | none =>
    if (s.slotCount + 1) * s.payloadSize > s.maxBytes then .error (.spillwayFull s.maxBytes)
    else .ok { s with
      slots := s.slots.insert id s.nextSlotIndex
      cells := Function.update s.cells s.nextSlotIndex (some (id, blob))
      nextSlotIndex := s.nextSlotIndex + 1
      log := s.log ++ [(id, blob)] }

def truncate (s : Spillway) : Spillway :=
  { s with slots := ∅, nextSlotIndex := 0, cells := fun _ => none }

def drainBatch (s : Spillway) (batchSize : Nat) : List Nat := s.slots.keys.take batchSize

def forget (s : Spillway) (id : Nat) : Spillway := { s with slots := s.slots.erase id }

def forgetAll (s : Spillway) (ids : List Nat) : Spillway := ids.foldl forget s

def forgetAbove (s : Spillway) (n : Nat) : Spillway :=
  s.forgetAll (s.slots.keys.filter fun id => n ≤ id)

def rehydrate (s : Spillway) (id : Nat) : Except ChiselError DiskUnit :=
  match s.slots.lookup id with
  | none => .error (.invalidPageId id)
  | some i =>
    match s.cells i with
    | none => .error .ioError
    | some (stored, blob) => if stored = id then .ok blob else .error (.checksumMismatch id)

end Spillway

/-! ### Cache -/

inductive DrainInsertion
  | lruTail
  | mru
  deriving Repr, DecidableEq

structure CacheEntry where
  buf : Buf
  dirty : Bool
  needsStamp : Bool

def CacheEntry.stampDeferred (e : CacheEntry) : CacheEntry :=
  if e.needsStamp then { e with buf := e.buf.stamp, needsStamp := false } else e

/-- `lru` lists the cached pages from the most to the least recently used. -/
structure PageCache where
  io : PageIo
  entries : AList fun _ : Nat => CacheEntry
  lru : List Nat
  dirtyCount : Nat
  maxPages : Nat
  spillwayMaxBytes : Nat
  drainInsertion : DrainInsertion
  spillway : Option Spillway
  nextPageId : Nat
  cipher : Option Dek

abbrev CacheM := EStateM ChiselError PageCache

namespace PageCache

def new (io : PageIo) (cacheMaxBytes spillwayMaxBytes : Nat) (drainInsertion : DrainInsertion) :
    PageCache where
  io := io
  entries := ∅
  lru := []
  dirtyCount := 0
  maxPages := max (cacheMaxBytes / pageSize) 1
  spillwayMaxBytes := spillwayMaxBytes
  drainInsertion := drainInsertion
  spillway := none
  nextPageId := io.pageCount
  cipher := none

def size (c : PageCache) : Nat := c.entries.keys.length

def isClean (c : PageCache) (id : Nat) : Bool :=
  match c.entries.lookup id with
  | some e => !e.dirty
  | none => false

def drop (c : PageCache) (id : Nat) : PageCache :=
  { c with entries := c.entries.erase id, lru := c.lru.erase id }

/-- `evict_clean_to_cap`; each round drops one page, so the number of pages bounds the rounds. -/
def evictCleanToCap : Nat → PageCache → PageCache
  | 0, c => c
  | rounds + 1, c =>
    if c.size ≤ c.maxPages then c
    else if c.dirtyCount = c.size then c
    else match c.lru.reverse.find? c.isClean with
      | some id => evictCleanToCap rounds (c.drop id)
      | none => c

def payloadSize (c : PageCache) : Nat := if c.cipher.isSome then encPageSize else pageSize

def ensureSpillway (c : PageCache) : Spillway :=
  c.spillway.getD (Spillway.new c.spillwayMaxBytes c.payloadSize)

/-- The second loop of `maybe_evict`: spill from the least recently used end. -/
def spillToCap : Nat → CacheM Unit
  | 0 => pure ()
  | rounds + 1 => do
    let c ← get
    if c.size ≤ c.maxPages then return ()
    if c.spillwayMaxBytes = 0 then throw (.cacheFull c.maxPages)
    match c.lru.getLast? with
    | none => return ()
    | some victim =>
      match c.entries.lookup victim with
      | none => throw (.corruptPage victim)
      | some entry =>
        let entry := entry.stampDeferred
        let spw := c.ensureSpillway
        match spw.spill victim (sealPage c.cipher victim entry.buf) with
        | .ok spw' =>
          set { c.drop victim with
            dirtyCount := if entry.dirty then c.dirtyCount - 1 else c.dirtyCount
            spillway := some spw' }
          spillToCap rounds
        | .error e =>
          -- the page goes back to the end of the order it came from
          set { c with
            entries := c.entries.insert victim entry
            lru := Lru.pushBack victim c.lru
            spillway := some spw }
          throw e

def maybeEvict : CacheM Unit := do
  modify fun c => evictCleanToCap c.size c
  spillToCap (← get).size

def touchLru (id : Nat) : CacheM Unit :=
  modify fun c => { c with lru := Lru.pushFront id c.lru }

/-- Enter a page at the most recently used end. -/
def enter (c : PageCache) (id : Nat) (e : CacheEntry) : PageCache :=
  { c with
    entries := c.entries.insert id e
    lru := Lru.pushFront id c.lru
    dirtyCount := if e.dirty then c.dirtyCount + 1 else c.dirtyCount }

/-- `load_page`: from the spillway if the page is there, else from the file. -/
def loadPage (id : Nat) : CacheM Unit := do
  maybeEvict
  let c ← get
  if (c.spillway.map fun spw => spw.isResident id).getD false then
    let spw := c.ensureSpillway
    match spw.rehydrate id with
    | .error e => throw e
    | .ok blob =>
      let c := { c with spillway := some (spw.forget id) }
      match openUnit c.cipher id blob with
      | .error e => set c; throw e
      | .ok buf => set (c.enter id ⟨buf, true, false⟩)
  else
    match c.io.readPageUnit id with
    | .error e => throw e
    | .ok u =>
      match openUnit c.cipher id u with
      | .error e => throw e
      | .ok buf =>
        if buf.stamped then set (c.enter id ⟨buf, false, false⟩)
        else throw (.checksumMismatch id)

/-- The entry of a page in memory, which becomes the most recently used one. -/
def hit (id : Nat) : CacheM CacheEntry := do
  touchLru id
  match (← get).entries.lookup id with
  | some e => return e
  | none => throw .panicked

/-- Make the page resident and most recently used. -/
def fetch (id : Nat) : CacheM CacheEntry := do
  let c ← get
  if id ∉ c.entries then loadPage id
  hit id

/-- `get`. -/
def getBuf (id : Nat) : CacheM Buf := do return (← fetch id).buf

/-- `get`, for its contents. -/
def getPage (id : Nat) : CacheM Page := do return (← fetch id).buf.page

/-- `get_mut` and the write through the reference: `f` maps the old buffer to the new one. -/
def getMut (id : Nat) (f : Buf → Buf) : CacheM Unit := do
  let e ← fetch id
  modify fun c => { c with
    entries := c.entries.insert id { e with buf := f e.buf, dirty := true }
    dirtyCount := if e.dirty then c.dirtyCount else c.dirtyCount + 1 }

/-- `get_mut_deferred_stamp` and the write through the reference. -/
def getMutDeferredStamp (id : Nat) (f : Buf → Buf) : CacheM Unit := do
  let e ← fetch id
  modify fun c => { c with
    entries := c.entries.insert id { buf := f e.buf, dirty := true, needsStamp := true }
    dirtyCount := if e.dirty then c.dirtyCount else c.dirtyCount + 1 }

/-- Write the contents `p` and stamp the page. -/
def writeStamped (id : Nat) (p : Page) : CacheM Unit := getMut id fun _ => ⟨p, true⟩

/-- `new_page`. The `+= 1` panics when `next_page_id` is `u64::MAX`. -/
def newPage : CacheM Nat := do
  let c ← get
  if c.nextPageId = u64Max then throw .panicked
  let id := c.nextPageId
  set { c.enter id ⟨.zero, true, false⟩ with nextPageId := id + 1 }
  maybeEvict
  return id

/-- `reissue_page`, which `claim_page` and `reclaim_dead_txn_page` share. -/
def reissuePage (id : Nat) : CacheM Unit := do
  modify fun c =>
    let dirty := !c.isClean id && decide (id ∈ c.entries)
    let c := { c.drop id with
      dirtyCount := if dirty then c.dirtyCount - 1 else c.dirtyCount
      spillway := c.spillway.map fun (spw : Spillway) => spw.forget id }
    c.enter id ⟨.zero, true, false⟩
  maybeEvict

def claimPage (id : Nat) : CacheM Unit := reissuePage id

def reclaimDeadTxnPage (id : Nat) : CacheM Unit := reissuePage id

def copyPage (src dst : Nat) : CacheM Unit := do
  let b ← getBuf src
  getMut dst fun _ => b

def onIo (f : PageIo → Except ChiselError PageIo) : CacheM Unit := do
  let c ← get
  match f c.io with
  | .ok io => set { c with io }
  | .error e => throw e

def dirtyIds (c : PageCache) : List Nat :=
  (c.entries.entries.filter fun e => e.2.dirty).map Sigma.fst

/-- The first loop of `flush`: write the dirty pages and mark them clean. -/
def flushDirty : List Nat → CacheM Unit
  | [] => pure ()
  | id :: ids => do
    let c ← get
    match c.entries.lookup id with
    | none => throw .panicked
    | some e =>
      let e := e.stampDeferred
      set { c with entries := c.entries.insert id e }
      onIo fun io => io.writePageUnit id (sealPage c.cipher id e.buf)
      modify fun c => { c with
        entries := c.entries.insert id { e with dirty := false }
        dirtyCount := c.dirtyCount - 1 }
      flushDirty ids

/-- Enter a drained page as clean, unless memory holds it already. -/
def enterDrained (c : PageCache) (id : Nat) (buf : Buf) : PageCache :=
  if id ∈ c.entries then c
  else { c with
    entries := c.entries.insert id ⟨buf, false, false⟩
    lru := match c.drainInsertion with
      | .lruTail => Lru.pushBack id c.lru
      | .mru => Lru.pushFront id c.lru }

/-- One batch of the drain: each page goes from the spillway to the file as it is. -/
def drainPages : List Nat → CacheM Unit
  | [] => pure ()
  | id :: ids => do
    let c ← get
    let spw := c.ensureSpillway
    match spw.rehydrate id with
    | .error e => throw e
    | .ok blob =>
      set { c with spillway := some (spw.forget id) }
      onIo fun io => io.writePageUnit id blob
      match openUnit c.cipher id blob with
      | .error e => throw e
      | .ok buf =>
        modify fun c => c.enterDrained id buf
        drainPages ids

/-- The drain loop of `flush`; each round empties one batch, so the slots bound the rounds. -/
def drainSpillway : Nat → CacheM Unit
  | 0 => pure ()
  | rounds + 1 => do
    let c ← get
    match c.spillway with
    | none => return ()
    | some spw =>
      let batch := spw.drainBatch c.maxPages
      if batch.isEmpty then return ()
      drainPages batch
      modify fun c => evictCleanToCap c.size c
      drainSpillway rounds

/-- `flush`: dirty pages, then the spillway, then an fsync. -/
def flush : CacheM Unit := do
  flushDirty (← get).dirtyIds
  modify fun c => { c with dirtyCount := 0 }
  let c ← get
  drainSpillway ((c.spillway.map Spillway.slotCount).getD 0)
  modify fun c => { c with spillway := c.spillway.map Spillway.truncate }
  onIo PageIo.fsync

def dropAll (c : PageCache) (ids : List Nat) : PageCache := ids.foldl drop c

def discardAllDirty : CacheM Unit :=
  modify fun c => { c.dropAll c.dirtyIds with
    dirtyCount := 0
    spillway := c.spillway.map Spillway.truncate }

/-- `truncate`: forget everything from page `n` on and cut the file there. -/
def truncate (n : Nat) : CacheM Unit := do
  modify fun c =>
    let gone := c.entries.keys.filter fun id => n ≤ id
    { c.dropAll gone with
      dirtyCount := c.dirtyCount - (c.dirtyIds.filter fun id => n ≤ id).length
      spillway := c.spillway.map fun spw => spw.forgetAbove n }
  onIo fun io => io.setPageCount n
  modify fun c => { c with nextPageId := min c.nextPageId n }

def filePageCount (c : PageCache) : Nat := c.io.pageCount

def setCacheMaxBytes (bytes : Nat) : CacheM Unit :=
  modify fun c =>
    let c := { c with maxPages := max (bytes / pageSize) 1 }
    evictCleanToCap c.size c

def setSpillwayMaxBytes (bytes : Nat) : CacheM Unit :=
  modify fun c => { c with
    spillwayMaxBytes := bytes
    spillway := c.spillway.map fun spw => { spw with maxBytes := bytes } }

def setDrainInsertion (policy : DrainInsertion) : CacheM Unit :=
  modify fun c => { c with drainInsertion := policy }

end PageCache

end Chisel
