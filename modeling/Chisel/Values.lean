import Chisel.FreeMapTree

/-! Where values live: slotted data pages (`data_page.rs`), overflow chains (`overflow.rs`), and
the packer that fills one data page after another (`transaction/packing.rs`). -/

namespace Chisel

open StateError PageCache

/-! ### Data pages -/

namespace DataPage

def slotEntrySize : Nat := 6

/-- The bytes between the slot directory and the values. -/
def freeSpace (slots : List Bytes) : Nat :=
  checksumOffset - (slots.map List.length).sum - (dataPageHeaderSize + slotEntrySize * slots.length)

/-- `insert`: the slot of the new value and the slots with it, if it fits. -/
def insert (slots : List Bytes) (value : Bytes) : Option (Nat × List Bytes) :=
  if freeSpace slots < slotEntrySize + value.length then none
  else some (slots.length, slots ++ [value])

/-- `read`; `none` for a page of another type. -/
def read (p : Page) (slot : Nat) : Option Bytes :=
  match p with
  | .data slots => slots[slot]?
  | _ => none

end DataPage

/-- The longest value that fits in an empty data page. -/
def maxInlineValue : Nat := checksumOffset - dataPageHeaderSize - DataPage.slotEntrySize

/-! ### Overflow chains -/

namespace Overflow

/-- Bytes of a value in one overflow page. -/
def payloadSize : Nat := checksumOffset - 32

/-- `div_ceil` by the payload. -/
def pagesFor (length : Nat) : Nat := (length + payloadSize - 1) / payloadSize

/-- The first loop of `write`. -/
def newPages : Nat → CacheM (List Nat)
  | 0 => return []
  | n + 1 => do
    let id ← newPage
    return id :: (← newPages n)

/-- The second loop of `write`: each page holds the next bytes and points to the page after it. -/
def fillPages (totalLength : Nat) : List Nat → Bytes → CacheM Unit
  | [], _ => pure ()
  | id :: ids, rest => do
    writeStamped id (.overflow totalLength (ids.headD 0) (rest.take payloadSize))
    fillPages totalLength ids (rest.drop payloadSize)

/-- `write`: the first page of a new chain for a value that is not empty. -/
def write (value : Bytes) : CacheM Nat := do
  let ids ← newPages (pagesFor value.length)
  fillPages value.length ids value
  match ids with
  | [] => throw .panicked
  | id :: _ => return id

/-- The payload area of a page, filled up with zeros. -/
def padded (payload : Bytes) : Bytes := payload ++ List.replicate (payloadSize - payload.length) 0

/-- The total length in the first page of a chain, after the checks that `read` and
`collect_chain_pages` share. -/
def chainLength (first : Nat) : CacheM Nat := do
  match ← getPage first with
  | .overflow totalLength _ _ =>
    if totalLength = 0 then throw (.corruptPage first)
    if (← get).nextPageId * payloadSize < totalLength then throw (.corruptPage first)
    return totalLength
  | _ => throw (.corruptPage first)

/-- The loop of `read`. -/
def readFrom (first : Nat) (totalLength : Nat) : Nat → Nat → Bytes → CacheM Bytes
  | 0, _, _ => throw (.corruptPage first)
  | fuel + 1, current, result => do
    match ← getPage current with
    | .overflow _ next payload =>
      let remaining := totalLength - result.length
      if remaining = 0 then throw (.corruptPage current)
      let result := result ++ (padded payload).take (min remaining payloadSize)
      if next = 0 then
        if result.length = totalLength then return result else throw (.corruptPage first)
      else readFrom first totalLength fuel next result
    | _ => throw (.corruptPage current)

def read (first : Nat) : CacheM Bytes := do
  let totalLength ← chainLength first
  readFrom first totalLength (pagesFor totalLength) first []

/-- The loop of `collect_chain_pages`. -/
def collectFrom (first : Nat) : Nat → Nat → List Nat → CacheM (List Nat)
  | 0, _, _ => throw (.corruptPage first)
  | fuel + 1, current, freed => do
    match ← getPage current with
    | .overflow _ next _ =>
      let freed := freed ++ [current]
      if next = 0 then return freed else collectFrom first fuel next freed
    | _ => throw (.corruptPage current)

def collectChainPages (first : Nat) : CacheM (List Nat) := do
  let totalLength ← chainLength first
  collectFrom first (pagesFor totalLength) first []

end Overflow

/-! ### Packing -/

/-- Live slots per data page, committed and current, and the page that takes the next value. -/
structure SlotPacker where
  committedLiveSlots : AList fun _ : Nat => Nat
  currentLiveSlots : AList fun _ : Nat => Nat
  insertCursor : Option Nat

namespace SlotPacker

def new : SlotPacker := ⟨∅, ∅, none⟩

def fromCommitted (committed : AList fun _ : Nat => Nat) : SlotPacker :=
  ⟨committed, committed, none⟩

def countUp (live : AList fun _ : Nat => Nat) (id : Nat) : AList fun _ : Nat => Nat :=
  live.insert id ((live.lookup id).getD 0 + 1)

/-- The attempt of `insert` on the cursor page. -/
def insertAtCursor (value : Bytes) : Option Nat → AllocM (Option (Nat × Nat))
  | none => return none
  | some cursor => do
    match ← onCache (getPage cursor) with
    | .data slots =>
      match DataPage.insert slots value with
      | some (slot, slots') =>
        onCache (getMutDeferredStamp cursor fun _ => ⟨.data slots', false⟩)
        return some (cursor, slot)
      | none =>
        onCache (getMutDeferredStamp cursor id)
        return none
    | _ =>
      onCache (getMutDeferredStamp cursor id)
      return none

/-- `insert`: the page and slot of the value, and the packer afterwards. -/
def insert (p : SlotPacker) (alloc : AllocM Nat) (packingEnabled : Bool) (value : Bytes) :
    AllocM (Nat × Nat × SlotPacker) := do
  match ← insertAtCursor value p.insertCursor with
  | some (id, slot) =>
    return (id, slot, { p with currentLiveSlots := countUp p.currentLiveSlots id })
  | none =>
    let id ← alloc
    match DataPage.insert [] value with
    | none => throw .panicked
    | some (slot, slots) =>
      onCache (writeStamped id (.data slots))
      return (id, slot, { p with
        insertCursor := if packingEnabled then some id else p.insertCursor
        currentLiveSlots := countUp p.currentLiveSlots id })

/-- `release`: one slot fewer; the page itself when it was the last one. -/
def release (p : SlotPacker) (id : Nat) : SlotPacker × Option Nat :=
  match p.currentLiveSlots.lookup id with
  | none => (p, none)
  | some count =>
    if count - 1 = 0 then
      ({ p with
        currentLiveSlots := p.currentLiveSlots.erase id
        insertCursor := if p.insertCursor = some id then none else p.insertCursor }, some id)
    else ({ p with currentLiveSlots := p.currentLiveSlots.insert id (count - 1) }, none)

def begin (p : SlotPacker) : SlotPacker :=
  { p with currentLiveSlots := p.committedLiveSlots, insertCursor := none }

def commit (p : SlotPacker) : SlotPacker :=
  { p with committedLiveSlots := p.currentLiveSlots, insertCursor := none }

def rollback (p : SlotPacker) : SlotPacker := p.begin

def restore (p : SlotPacker) (live : AList fun _ : Nat => Nat) : SlotPacker :=
  { p with currentLiveSlots := live, insertCursor := none }

def clearCursor (p : SlotPacker) : SlotPacker := { p with insertCursor := none }

end SlotPacker

end Chisel
