import Chisel.Page

/-! Superblocks: the root records in the first `N` units of the file, the crypto header of an
encrypted database, and the units a file is made of.

Sealing is symbolic: a sealed unit names the data key it was sealed under, and opening it
succeeds exactly under that key and, for a page, at the page id it was sealed for. A key slot
names the credential it was wrapped under. -/

namespace Chisel

abbrev Key := Bytes

abbrev Dek := Nat

def minSuperblocks : Nat := 2
def maxSuperblocks : Nat := 16
def maxTxnCounter : Nat := u64Max - 2 ^ 32
def maxNextHandle : Nat := u64Max - 2 ^ 32
def namedRootCount : Nat := 8
def namedRootNameLen : Nat := 24
def keySlotCount : Nat := 8

def nextTxnCounter (current : Nat) : Except ChiselError Nat :=
  let next := satAdd current 1
  if next > maxTxnCounter then .error (.txnCounterExhausted current) else .ok next

def nextHandleAfter (current : Nat) : Except ChiselError Nat :=
  let next := satAdd current 1
  if next > maxNextHandle then .error (.handleSpaceExhausted current) else .ok next

structure NamedRoot where
  name : Bytes
  handle : Nat
  deriving Repr, DecidableEq

def NamedRoot.empty : NamedRoot := ⟨List.replicate namedRootNameLen 0, 0⟩

def NamedRoot.isEmpty (r : NamedRoot) : Bool := r.name.headD 0 == 0

inductive KeySlot
  | empty
  | active (key : Key) (dek : Dek)
  deriving Repr, DecidableEq

def KeySlot.isActive : KeySlot → Bool
  | .empty => false
  | .active _ _ => true

/-- The crypto header. Its algorithm id and stride are constants of the format. -/
structure CryptoHeader where
  slots : List KeySlot
  deriving Repr, DecidableEq

namespace CryptoHeader

def activeCount (h : CryptoHeader) : Nat := (h.slots.filter KeySlot.isActive).length

def freeSlot (h : CryptoHeader) : Option Nat := h.slots.findIdx? fun s => !s.isActive

/-- The first active slot that `key` unwraps, from slot `i` on. An empty key derives no
wrapping key, so no slot opens under it. -/
def unlockFrom (key : Key) : Nat → List KeySlot → Except ChiselError (Nat × Dek)
  | _, [] => .error .invalidEncryptionKey
  | i, .empty :: rest => unlockFrom key (i + 1) rest
  | i, .active k dek :: rest =>
    if k = key ∧ key ≠ [] then .ok (i, dek) else unlockFrom key (i + 1) rest

def unlock (h : CryptoHeader) (key : Key) : Except ChiselError (Nat × Dek) :=
  unlockFrom key 0 h.slots

def wrapInto (h : CryptoHeader) (slot : Nat) (key : Key) (dek : Dek) :
    Except ChiselError CryptoHeader :=
  if key = [] then .error .invalidEncryptionKey
  else .ok { h with slots := h.slots.set slot (.active key dek) }

end CryptoHeader

structure Superblock where
  formatVersion : Nat
  txnCounter : Nat
  rootHandleTablePage : Nat
  rootFreemapPage : Nat
  totalPages : Nat
  nextHandle : Nat
  pageSize : Nat
  namedRoots : List NamedRoot
  superblockCount : Nat
  rootMembershipIndexPage : Nat
  freemapDepth : Nat
  encryption : Option CryptoHeader
  deriving Repr, DecidableEq

def packFormatVersion (major minor : Nat) : Nat := major * 2 ^ 16 + minor
def formatMajor (version : Nat) : Nat := version / 2 ^ 16
def formatMinor (version : Nat) : Nat := version % 2 ^ 16
def formatVersion : Nat := packFormatVersion 1 1
def formatVersionEncrypted : Nat := packFormatVersion 2 0

namespace Superblock

def newEmpty (superblockCount : Nat) : Superblock where
  formatVersion := Chisel.formatVersion
  txnCounter := superblockCount - 1
  rootHandleTablePage := pageIdNone
  rootFreemapPage := pageIdNone
  totalPages := superblockCount
  nextHandle := 1
  pageSize := Chisel.pageSize
  namedRoots := List.replicate namedRootCount .empty
  superblockCount := superblockCount
  rootMembershipIndexPage := pageIdNone
  freemapDepth := 0
  encryption := none

def newEmptyEncrypted (superblockCount : Nat) (header : CryptoHeader) : Superblock :=
  { newEmpty superblockCount with
    formatVersion := formatVersionEncrypted, encryption := some header }

end Superblock

/-- A unit of the file. A superblock slot of an encrypted database keeps its body sealed under
`sealedBy`; a page unit keeps its buffer sealed under a data key and for a page id. `torn` is a
unit whose bytes carry no valid checksum; in a `stale` one they still hold a table of key slots. -/
inductive DiskUnit
  | blank
  | torn
  | stale (table : List KeySlot)
  | super (sb : Superblock) (sealedBy : Option Dek)
  | page (sealedFor : Option (Dek × Nat)) (buf : Buf)

instance : Inhabited DiskUnit := ⟨.blank⟩

namespace Superblock

/-- `validate`, on a unit whose checksum and magic are right. -/
def valid (sb : Superblock) : Bool :=
  minSuperblocks ≤ sb.superblockCount && sb.superblockCount ≤ maxSuperblocks
    && sb.txnCounter ≤ maxTxnCounter

/-- `Superblock::deserialize`. The body of an encrypted slot reads as zeros until it is
decrypted. -/
def deserialize : DiskUnit → Option Superblock
  | .super sb _ =>
    if sb.valid then
      some (match sb.encryption with
        | none => sb
        | some _ => { sb with
            rootHandleTablePage := 0, rootFreemapPage := 0, totalPages := 0, nextHandle := 0,
            namedRoots := List.replicate namedRootCount .empty, rootMembershipIndexPage := 0,
            freemapDepth := 0 })
    else none
  | _ => none

def serialize (sb : Superblock) (cipher : Option Dek) : DiskUnit := .super sb cipher

/-- `Superblock::decrypt_body` of the slot `raw` that `deserialize` read. -/
def decryptBody (dek : Dek) : DiskUnit → Option Superblock
  | .super sb (some sealedBy) => if sealedBy = dek then some sb else none
  | _ => none

end Superblock

/-- `CryptoHeader::overwrite_slot_table`: the slot with the new key-slot table, if it validates. -/
def CryptoHeader.overwriteSlotTable (h : CryptoHeader) : DiskUnit → Option DiskUnit
  | .super sb sealedBy =>
    if sb.valid then some (.super { sb with encryption := sb.encryption.map fun _ => h } sealedBy)
    else none
  | _ => none

end Chisel
