import Mathlib

/-! The pages of the database file, as the structures that live in them: constants of the page
geometry, handle-table entries, the seven page types, and the errors of the engine.

A page is modelled by its decoded contents. The byte layout of each page type is fixed by its
module in the source; what the engine reads and writes goes through the accessors below, which
answer `none` for a page of another type. -/

namespace Chisel

abbrev Bytes := List UInt8

def u64Max : Nat := 2 ^ 64 - 1

def satMul (a b : Nat) : Nat := min (a * b) u64Max

def satAdd (a b : Nat) : Nat := min (a + b) u64Max

def pageSize : Nat := 8192
def checksumOffset : Nat := 8184
def dataPageHeaderSize : Nat := 16
def pageBodySize : Nat := 8168

/-- On-disk size of a sealed page: the page, a nonce and a tag. -/
def encPageSize : Nat := 8232

/-- The sentinel "no page" in a root field. -/
def pageIdNone : Nat := u64Max

inductive HandleFlags
  | live
  | deleted
  | overflow
  deriving Repr, DecidableEq

structure HandleEntry where
  pageId : Nat
  slotIndex : Nat
  flags : HandleFlags
  tag : Nat
  clientByte : UInt8
  deriving Repr, DecidableEq

/-- Sixteen zero bytes read as an entry, and the entry that `delete` writes. -/
def HandleEntry.tombstone : HandleEntry := ⟨0, 0, .deleted, 0, 0⟩

/-- The contents of a page. A child pointer or a membership word of 0 means "absent". -/
inductive Page
  | zero
  | handleLeaf (entries : Nat → HandleEntry)
  | handleInterior (children : Nat → Nat)
  | data (slots : List Bytes)
  | overflow (totalLength : Nat) (next : Nat) (payload : Bytes)
  | freeMap (bits : Nat → Bool)
  | freeMapInterior (children : Nat → Nat)
  | membershipLeaf (words : Nat → Nat)
  | membershipInterior (children : Nat → Nat)

namespace Page

def isData : Page → Bool
  | data _ => true
  | _ => false

/-- The page's type byte is `FreeMap` or `FreeMapInterior`. -/
def isFreeMap : Page → Bool
  | freeMap _ => true
  | freeMapInterior _ => true
  | _ => false

end Page

/-- A page buffer: its contents, and whether its checksum field matches them. -/
structure Buf where
  page : Page
  stamped : Bool

/-- A fresh buffer: all bytes zero, and so with a checksum field that does not match. -/
def Buf.zero : Buf := ⟨.zero, false⟩

def Buf.stamp (b : Buf) : Buf := { b with stamped := true }

inductive ChiselError
  | invalidHandle (handle : Nat)
  | noActiveTransaction
  | transactionAlreadyActive
  | savepointNotFound (name : String)
  | duplicateSavepoint (name : String)
  | readOnlyMode
  | fileNotFound
  | invalidRootName
  | rootNameTableFull
  | invalidSuperblockCount (value : Nat)
  | cacheFull (limit : Nat)
  | spillwayFull (limitBytes : Nat)
  | transactionInProgress
  | tagMismatch (handle expected actual : Nat)
  | noEncryptionKey
  | invalidEncryptionKey
  | encryptionNotSupported
  | noFreeKeySlot
  | lastKeySlot
  | poisoned
  | ioError
  | checksumMismatch (pageId : Nat)
  | corruptSuperblock
  | fileSizeMismatch (expected actual : Nat)
  | unsupportedFormatVersion (found expected : Nat)
  | corruptPage (pageId : Nat)
  | invalidPageId (pageId : Nat)
  | unsupportedPageSize (stored compiled : Nat)
  | invalidFreemapDepth (stored max : Nat)
  | invalidNextHandle (stored max : Nat)
  | txnCounterExhausted (current : Nat)
  | handleSpaceExhausted (current : Nat)
  | decryptionFailed (pageId : Nat)
  /-- A panic of the engine: an overflowing `+=` on a page id, or a failed assertion. -/
  | panicked
  /-- Where the engine goes on with the bytes of a page of another type, which decoded pages do not
  give. No error of the engine. -/
  | misread (pageId : Nat)
  deriving Repr, DecidableEq

namespace ChiselError

/-- `ChiselError::is_fatal`. A panic leaves no usable handle behind either. -/
def isFatal : ChiselError → Bool
  | ioError | checksumMismatch _ | corruptSuperblock | fileSizeMismatch _ _
  | unsupportedFormatVersion _ _ | corruptPage _ | invalidPageId _ | unsupportedPageSize _ _
  | invalidFreemapDepth _ _ | invalidNextHandle _ _ | txnCounterExhausted _
  | handleSpaceExhausted _ | decryptionFailed _ | panicked | misread _ => true
  | _ => false

/-- The two errors a page access can raise because memory ran out. -/
def isCapacity : ChiselError → Bool
  | cacheFull _ | spillwayFull _ => true
  | _ => false

end ChiselError

end Chisel
