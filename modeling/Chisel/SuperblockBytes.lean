import Chisel.Lib.Bytes
import Chisel.Superblock

/-! The superblock (`superblock/mod.rs`, `superblock/crypto_header.rs`) byte by byte: the plain
layout, the layout of an encrypted database, with a crypto header in the clear and the other fields
in a sealed body, and the key-slot table that is rewritten in place. -/

namespace Chisel

open ByteLayout

namespace Raw

/-! ### Fields of a buffer -/

def u8At (buf : Bytes) (off : Nat) : UInt8 := UInt8.ofNat (decodeLe (slice buf off 1))

def u16At (buf : Bytes) (off : Nat) : Nat := decodeLe (slice buf off 2)

def u32At (buf : Bytes) (off : Nat) : UInt32 := UInt32.ofNat (decodeLe (slice buf off 4))

def u64At (buf : Bytes) (off : Nat) : UInt64 := UInt64.ofNat (decodeLe (slice buf off 8))

/-- A fixed-width block of bytes. -/
def blockAt (n : Nat) (buf : Bytes) (off : Nat) : Vector UInt8 n :=
  Vector.ofFn fun i => (slice buf off n).getD i 0

section Fields

variable {buf : Bytes} {off n : Nat}

theorem u8At_eq {x : UInt8} (h : slice buf off 1 = [x]) : u8At buf off = x := by
  rw [u8At, h, decodeLe, decodeLe, Nat.mul_zero, Nat.zero_add, UInt8.ofNat_toNat]

theorem u16At_eq {x : Nat} (hx : x < 2 ^ 16) (h : slice buf off 2 = encodeLe 2 x) :
    u16At buf off = x := by
  rw [u16At, h]
  exact decodeLe_encodeLe_of_lt hx

theorem u32At_eq {x : UInt32} (h : slice buf off 4 = encodeLe 4 x.toNat) : u32At buf off = x := by
  rw [u32At, h, decodeLe_encodeLe_of_lt x.toNat_lt, UInt32.ofNat_toNat]

theorem u64At_eq {x : UInt64} (h : slice buf off 8 = encodeLe 8 x.toNat) : u64At buf off = x := by
  rw [u64At, h, decodeLe_encodeLe_of_lt x.toNat_lt, UInt64.ofNat_toNat]

theorem blockAt_eq {v : Vector UInt8 n} (h : slice buf off n = v.toList) :
    blockAt n buf off = v := by
  refine Vector.ext fun i hi => ?_
  rw [blockAt, Vector.getElem_ofFn, h]
  simp [hi]

theorem slice_field {ws : List (Nat × Bytes)} {data : Bytes}
    (hfits : ∀ w ∈ ws, w.1 + w.2.length ≤ buf.length) (hasc : ws.IsChain Before)
    (hw : (off, data) ∈ ws) (hn : data.length = n) : slice (patch buf ws) off n = data := by
  subst hn
  exact slice_patch_of_mem hfits (apart_of_ascending hasc) hw

end Fields

/-! ### The page checksum -/

section Checksum

variable (checksum : Bytes → UInt64) {buf : Bytes}

/-- `compute_checksum`, of a hash function. -/
def computeChecksum (buf : Bytes) : UInt64 := checksum (slice buf 0 checksumOffset)

def stampChecksum (buf : Bytes) : Bytes :=
  splice buf checksumOffset (encodeLe 8 (computeChecksum checksum buf).toNat)

def verifyChecksum (buf : Bytes) : Bool := u64At buf checksumOffset == computeChecksum checksum buf

variable {checksum}

theorem slice_stampChecksum {off n : Nat} (hsize : buf.length = pageSize)
    (h : off + n ≤ checksumOffset) : slice
    (stampChecksum checksum buf) off n = slice buf off n := by
  refine slice_splice_before h ?_
  rw [hsize]
  decide

theorem stampChecksum_length (hsize : buf.length = pageSize) :
    (stampChecksum checksum buf).length = pageSize := by
  rw [stampChecksum, splice_length, hsize]
  rw [encodeLe_length, hsize]
  decide

theorem verifyChecksum_stampChecksum (hsize : buf.length = pageSize) :
    verifyChecksum checksum (stampChecksum checksum buf) = true := by
  have hsum : computeChecksum checksum (stampChecksum checksum buf) =
    computeChecksum checksum buf := by
    rw [computeChecksum, slice_stampChecksum hsize (Nat.le_of_eq (Nat.zero_add _))]
    rfl
  have hread : slice (stampChecksum checksum buf) checksumOffset 8 =
      encodeLe 8 (computeChecksum checksum buf).toNat := by
    have hfits : checksumOffset + (encodeLe 8 (computeChecksum checksum buf).toNat).length ≤
        buf.length := by
      rw [encodeLe_length, hsize]
      decide
    have hself := slice_splice_self hfits
    rwa [encodeLe_length] at hself
  rw [verifyChecksum, u64At_eq hread, hsum, beq_self_eq_true]

end Checksum

/-! ### Named roots and key slots -/

structure NamedRoot where
  name : Vector UInt8 namedRootNameLen
  handle : UInt64
  deriving DecidableEq

namespace NamedRoot

def entrySize : Nat := namedRootNameLen + 8

def empty : NamedRoot := ⟨Vector.replicate _ 0, 0⟩

def fields (r : NamedRoot) : List (Nat × Bytes) :=
  [(0, r.name.toList), (namedRootNameLen, encodeLe 8 r.handle.toNat)]

def writeInto (r : NamedRoot) (entry : Bytes) : Bytes := patch entry r.fields

def bytes (r : NamedRoot) : Bytes := r.name.toList ++ encodeLe 8 r.handle.toNat

def readAt (buf : Bytes) (base : Nat) : NamedRoot :=
  ⟨blockAt _ buf base, u64At buf (base + namedRootNameLen)⟩

theorem fields_fit (r : NamedRoot) {entry : Bytes} (h : entry.length = entrySize) :
    ∀ w ∈ r.fields, w.1 + w.2.length ≤ entry.length := by
  rw [h]
  simp [fields, entrySize]

theorem writesWithin : WritesWithin writeInto entrySize :=
  fun r _ h => (patch_length (r.fields_fit h)).trans h

theorem bytes_length (r : NamedRoot) : r.bytes.length = entrySize := by
  rw [bytes, List.length_append, Vector.length_toList, encodeLe_length]
  rfl

theorem writeInto_eq (r : NamedRoot) {entry : Bytes} (h : entry.length = entrySize) :
    r.writeInto entry = r.bytes := by
  have hfront : (r.name.toList ++ List.drop namedRootNameLen entry).take namedRootNameLen =
      r.name.toList := by
    rw [List.take_append_of_le_length (by rw [Vector.length_toList]),
      List.take_of_length_le (by rw [Vector.length_toList])]
  simp [writeInto, fields, patch, splice, bytes, hfront, h, entrySize]

theorem readAt_eq {r : NamedRoot} {buf : Bytes} {base : Nat}
    (h : slice buf base entrySize = r.bytes) :
    readAt buf base = r := by
  have hname : slice buf base namedRootNameLen = r.name.toList := by
    have hpart : slice (slice buf base entrySize) 0 namedRootNameLen = slice buf (base + 0) _ :=
      slice_slice (by decide)
    rw [h, Nat.add_zero, bytes, slice_append_left (by rw [Vector.length_toList, Nat.zero_add]),
      slice_all Vector.length_toList] at hpart
    exact hpart.symm
  have hhandle : slice buf (base + namedRootNameLen) 8 = encodeLe 8 r.handle.toNat := by
    have hpart : slice (slice buf base entrySize) namedRootNameLen 8 = slice buf (base + _) 8 :=
      slice_slice (by decide)
    rw [h, bytes, slice_append_right (i := 0) (by rw [Vector.length_toList, Nat.add_zero]),
      slice_all (encodeLe_length ..)] at hpart
    exact hpart.symm
  rw [readAt, blockAt_eq hname, u64At_eq hhandle]

end NamedRoot

structure Argon2Params where
  mCost : UInt32
  tCost : UInt32
  pCost : UInt32
  deriving DecidableEq

structure KeySlot where
  state : UInt8
  kdfId : UInt8
  argon2 : Argon2Params
  salt : Vector UInt8 16
  wrapNonce : Vector UInt8 24
  wrappedDek : Vector UInt8 32
  wrapTag : Vector UInt8 16
  deriving DecidableEq

namespace KeySlot

def size : Nat := 128

def empty : KeySlot :=
  ⟨0, 0, ⟨0, 0, 0⟩, Vector.replicate _ 0, Vector.replicate _ 0, Vector.replicate _ 0,
    Vector.replicate _ 0⟩

def fields (k : KeySlot) : List (Nat × Bytes) :=
  [(0, [k.state]), (1, [k.kdfId]), (2, encodeLe 4 k.argon2.mCost.toNat),
    (6, encodeLe 4 k.argon2.tCost.toNat), (10, encodeLe 4 k.argon2.pCost.toNat), (14,
      k.salt.toList),
    (30, k.wrapNonce.toList), (54, k.wrappedDek.toList), (86, k.wrapTag.toList)]

def writeInto (k : KeySlot) (slot : Bytes) : Bytes := patch slot k.fields

def readFrom (slot : Bytes) : KeySlot where
  state := u8At slot 0
  kdfId := u8At slot 1
  argon2 := ⟨u32At slot 2, u32At slot 6, u32At slot 10⟩
  salt := blockAt _ slot 14
  wrapNonce := blockAt _ slot 30
  wrappedDek := blockAt _ slot 54
  wrapTag := blockAt _ slot 86

theorem fields_fit (k : KeySlot) {slot : Bytes} (h : slot.length = size) :
    ∀ w ∈ k.fields, w.1 + w.2.length ≤ slot.length := by
  rw [h]
  simp [fields, size]

theorem fields_ascending (k : KeySlot) : k.fields.IsChain Before := by
  simp [fields, Before]

theorem writesWithin : WritesWithin writeInto size :=
  fun k _ h => (patch_length (k.fields_fit h)).trans h

theorem readFrom_writeInto (k : KeySlot) {slot : Bytes} (h : slot.length = size) :
    readFrom (k.writeInto slot) = k := by
  have hfield : ∀ {off n data}, (off, data) ∈ k.fields → data.length = n →
      slice (k.writeInto slot) off n = data :=
    slice_field (k.fields_fit h) k.fields_ascending
  unfold readFrom
  rw [u8At_eq (x := k.state) (hfield (by simp [fields]) rfl),
    u8At_eq (x := k.kdfId) (hfield (by simp [fields]) rfl),
    u32At_eq (x := k.argon2.mCost) (hfield (by simp [fields]) (encodeLe_length ..)),
    u32At_eq (x := k.argon2.tCost) (hfield (by simp [fields]) (encodeLe_length ..)),
    u32At_eq (x := k.argon2.pCost) (hfield (by simp [fields]) (encodeLe_length ..)),
    blockAt_eq (v := k.salt) (hfield (by simp [fields]) Vector.length_toList),
    blockAt_eq (v := k.wrapNonce) (hfield (by simp [fields]) Vector.length_toList),
    blockAt_eq (v := k.wrappedDek) (hfield (by simp [fields]) Vector.length_toList),
    blockAt_eq (v := k.wrapTag) (hfield (by simp [fields]) Vector.length_toList)]

end KeySlot

/-! ### The crypto header -/

/-- A crypto header. The algorithm byte 0 stands for a database that has none. -/
structure CryptoHeader where
  algorithm : UInt8
  stride : UInt32
  slots : Vector KeySlot keySlotCount
  encrypts : algorithm ≠ 0
  deriving DecidableEq

namespace CryptoHeader

def offset : Nat := 324

def slotTableOffset : Nat := offset + 8

def fields (h : CryptoHeader) : List (Nat × Bytes) :=
  [(offset, [h.algorithm]), (offset + 1, encodeLe 4 h.stride.toNat)]

def writeSlots (slots : Vector KeySlot keySlotCount) (buf : Bytes) : Bytes :=
  writeTable KeySlot.writeInto KeySlot.size slotTableOffset slots.toList buf

def readSlots (buf : Bytes) : Vector KeySlot keySlotCount :=
  Vector.ofFn fun i => KeySlot.readFrom (slice buf (slotTableOffset +
    KeySlot.size * i) KeySlot.size)

def serializeInto (h : CryptoHeader) (buf : Bytes) : Bytes := writeSlots h.slots
    (patch buf h.fields)

def deserialize (buf : Bytes) : Option CryptoHeader :=
  if h : u8At buf offset = 0 then none
  else some ⟨u8At buf offset, u32At buf (offset + 1), readSlots buf, h⟩

/-- The first byte behind the key-slot table. -/
def sealedBodyOffset : Nat := slotTableOffset + KeySlot.size * keySlotCount

section Table

variable {slots : Vector KeySlot keySlotCount} {h : CryptoHeader} {buf : Bytes} {off n : Nat}

theorem deserialize_eq_some_iff : deserialize buf = some h ↔ u8At buf offset = h.algorithm ∧
    u32At buf (offset + 1) = h.stride ∧ readSlots buf = h.slots := by
  unfold deserialize
  constructor
  · intro heq
    split_ifs at heq with hzero
    cases heq
    exact ⟨rfl, rfl, rfl⟩
  · intro ⟨halgorithm, hstride, hslots⟩
    rw [dif_neg (halgorithm ▸ h.encrypts)]
    congr

theorem slots_fit (slots : Vector KeySlot keySlotCount) (hsize : buf.length = pageSize) :
    slotTableOffset + KeySlot.size * slots.toList.length ≤ buf.length := by
  rw [Vector.length_toList, hsize]
  decide

theorem writeSlots_length (hsize : buf.length = pageSize) :
    (writeSlots slots buf).length = pageSize :=
  (writeTable_length KeySlot.writesWithin (slots_fit slots hsize)).trans hsize

theorem slice_writeSlots (hsize : buf.length = pageSize)
    (hapart : off + n ≤ slotTableOffset ∨ sealedBodyOffset ≤ off) :
    slice (writeSlots slots buf) off n = slice buf off n := by
  refine slice_writeTable_of_apart KeySlot.writesWithin (slots_fit slots hsize) ?_
  rwa [Vector.length_toList]

theorem readSlots_writeSlots (hsize : buf.length = pageSize) :
    readSlots (writeSlots slots buf) = slots := by
  refine Vector.ext fun i hi => ?_
  have hget : slots.toList[i]? = some slots[i] := by simp [hi]
  have hslice := slice_writeTable KeySlot.writesWithin (slots_fit slots hsize) hget
  have hend : slotTableOffset + KeySlot.size * (i + 1) ≤ pageSize := by
    have hle := Nat.mul_le_mul_left KeySlot.size (Nat.succ_le_of_lt hi)
    exact (Nat.add_le_add_left hle slotTableOffset).trans (by decide)
  rw [readSlots, Vector.getElem_ofFn, writeSlots, hslice]
  refine KeySlot.readFrom_writeInto _ (slice_length ?_)
  rw [hsize]
  exact hend

theorem readSlots_congr {buf' : Bytes} (h : ∀ off n, off + n ≤ sealedBodyOffset →
    slice buf' off n = slice buf off n) : readSlots buf' = readSlots buf := by
  refine Vector.ext fun i hi => ?_
  have hle := Nat.mul_le_mul_left KeySlot.size (Nat.succ_le_of_lt hi)
  rw [readSlots, readSlots, Vector.getElem_ofFn, Vector.getElem_ofFn, h]
  exact Nat.add_le_add_left hle slotTableOffset

/-- The header reads the same in two buffers that agree up to the sealed body. -/
theorem deserialize_congr {buf' : Bytes} (h : ∀ off n, off + n ≤ sealedBodyOffset →
    slice buf' off n = slice buf off n) : deserialize buf' = deserialize buf := by
  have halgorithm : u8At buf' offset = u8At buf offset := by rw [u8At, u8At, h _ _ (by decide)]
  have hstride : u32At buf' (offset + 1) = u32At buf (offset + 1) := by
    rw [u32At, u32At, h _ _ (by decide)]
  refine Option.ext fun new => ?_
  rw [deserialize_eq_some_iff, deserialize_eq_some_iff, halgorithm, hstride, readSlots_congr h]

theorem fields_fit (h : CryptoHeader) (hsize : buf.length = pageSize) :
    ∀ w ∈ h.fields, w.1 + w.2.length ≤ buf.length := by
  rw [hsize]
  simp [fields, offset, pageSize]

theorem fields_ascending (h : CryptoHeader) : h.fields.IsChain Before := by
  simp [fields, Before]

theorem patch_fields_length (h : CryptoHeader) (hsize : buf.length = pageSize) :
    (patch buf h.fields).length = pageSize :=
  (patch_length (h.fields_fit hsize)).trans hsize

theorem serializeInto_length (hsize : buf.length = pageSize) :
    (h.serializeInto buf).length = pageSize :=
  writeSlots_length (h.patch_fields_length hsize)

theorem slice_serializeInto (hsize : buf.length = pageSize)
    (hapart : off + n ≤ offset ∨ sealedBodyOffset ≤ off) :
    slice (h.serializeInto buf) off n = slice buf off n := by
  have hplaces : offset + 8 = slotTableOffset ∧ slotTableOffset ≤ sealedBodyOffset := by decide
  rw [serializeInto, slice_writeSlots (h.patch_fields_length hsize) (by omega)]
  refine slice_patch_of_apart (h.fields_fit hsize) ?_
  simp only [fields, List.forall_mem_cons, List.length_singleton, encodeLe_length]
  exact ⟨by omega, by omega, nofun⟩

theorem deserialize_serializeInto (hsize : buf.length = pageSize) :
    deserialize (h.serializeInto buf) = some h := by
  have hfield : ∀ {off n data}, (off, data) ∈ h.fields → data.length = n →
    off + n ≤ slotTableOffset →
      slice (h.serializeInto buf) off n = data := fun hw hn hle => by
    rw [serializeInto, slice_writeSlots (h.patch_fields_length hsize) (.inl hle)]
    exact slice_field (h.fields_fit hsize) h.fields_ascending hw hn
  refine deserialize_eq_some_iff.mpr ⟨u8At_eq (hfield (by simp [fields]) rfl (by decide)),
    u32At_eq (hfield (by simp [fields]) (encodeLe_length ..) (by decide)), ?_⟩
  exact readSlots_writeSlots (h.patch_fields_length hsize)

end Table

end CryptoHeader

/-! ### The superblock -/

def magic : UInt32 := 0x4348534C

structure Superblock where
  magic : UInt32
  formatVersion : UInt32
  txnCounter : UInt64
  rootHandleTablePage : UInt64
  rootFreemapPage : UInt64
  totalPages : UInt64
  nextHandle : UInt64
  pageSize : UInt32
  namedRoots : Vector NamedRoot namedRootCount
  superblockCount : UInt32
  rootMembershipIndexPage : UInt64
  freemapDepth : UInt32
  encryption : Option CryptoHeader
  deriving DecidableEq

inductive SuperblockDefect
  | badChecksum
  | badMagic
  | badCount (count : UInt32)
  | badTxnCounter (counter : UInt64)
  deriving DecidableEq

/-- Why a sealed body is not loaded: it does not authenticate, or it is too short for its fields,
which is a panic. -/
inductive BodyError
  | auth
  | panicked
  deriving DecidableEq

/-- The page cipher of a data key. What was sealed opens, and has the length it had. -/
structure PageCipher where
  sealDetached : Vector UInt8 24 → Bytes → Bytes → Bytes × Vector UInt8 16
  openDetached : Vector UInt8 24 → Bytes → Bytes → Vector UInt8 16 → Option Bytes
  seal_length : ∀ nonce aad plaintext, (sealDetached nonce aad plaintext).1.length =
    plaintext.length
  open_seal : ∀ nonce aad plaintext, openDetached nonce aad (sealDetached nonce aad plaintext).1
    (sealDetached nonce aad plaintext).2 = some plaintext

/-- The cipher that leaves the bytes as they are. -/
def PageCipher.null : PageCipher where
  sealDetached _ _ plaintext := (plaintext, Vector.replicate _ 0)
  openDetached _ _ ct _ := some ct
  seal_length _ _ _ := rfl
  open_seal _ _ _ := rfl

namespace Superblock

def newEmpty (superblockCount : UInt32) : Superblock where
  magic := Raw.magic
  formatVersion := UInt32.ofNat Chisel.formatVersion
  txnCounter := UInt64.ofNat (superblockCount.toNat - 1)
  rootHandleTablePage := UInt64.ofNat pageIdNone
  rootFreemapPage := UInt64.ofNat pageIdNone
  totalPages := UInt64.ofNat superblockCount.toNat
  nextHandle := 1
  pageSize := UInt32.ofNat Chisel.pageSize
  namedRoots := Vector.replicate _ .empty
  superblockCount := superblockCount
  rootMembershipIndexPage := UInt64.ofNat pageIdNone
  freemapDepth := 0
  encryption := none

def newEmptyEncrypted (superblockCount : UInt32) (header : CryptoHeader) : Superblock :=
  { newEmpty superblockCount with
    formatVersion := UInt32.ofNat formatVersionEncrypted, encryption := some header }

def namedRootsOffset : Nat := 52
def superblockCountOffset : Nat := 308
def rootMembershipIndexOffset : Nat := 312
def freemapDepthOffset : Nat := 320

def bodyLen : Nat := 8 * 5 + 4 + namedRootCount * NamedRoot.entrySize

def zeroPage : Bytes := List.replicate Chisel.pageSize 0

/-- The fields before the named roots. -/
def headFields (sb : Superblock) : List (Nat × Bytes) :=
  [(0, encodeLe 4 sb.magic.toNat), (4, encodeLe 4 sb.formatVersion.toNat),
    (8, encodeLe 8 sb.txnCounter.toNat), (16, encodeLe 8 sb.rootHandleTablePage.toNat),
    (24, encodeLe 8 sb.rootFreemapPage.toNat), (32, encodeLe 8 sb.totalPages.toNat),
    (40, encodeLe 8 sb.nextHandle.toNat), (48, encodeLe 4 sb.pageSize.toNat)]

/-- The fields behind the named roots. -/
def tailFields (sb : Superblock) : List (Nat × Bytes) :=
  [(superblockCountOffset, encodeLe 4 sb.superblockCount.toNat),
    (rootMembershipIndexOffset, encodeLe 8 sb.rootMembershipIndexPage.toNat),
    (freemapDepthOffset, encodeLe 4 sb.freemapDepth.toNat)]

def writeRoots (roots : Vector NamedRoot namedRootCount) (buf : Bytes) : Bytes :=
  writeTable NamedRoot.writeInto NamedRoot.entrySize namedRootsOffset roots.toList buf

def serialize (checksum : Bytes → UInt64) (sb : Superblock) : Bytes :=
  stampChecksum checksum
    (patch (writeRoots sb.namedRoots (patch zeroPage sb.headFields)) sb.tailFields)

def sbIdentityAad (sb : Superblock) : Bytes :=
  patch (List.replicate 24 0) [(0, encodeLe 4 sb.magic.toNat),
    (4, encodeLe 4 sb.formatVersion.toNat), (8, encodeLe 8 sb.txnCounter.toNat), (16,
      encodeLe 4 sb.superblockCount.toNat)]

def bodyPlaintext (sb : Superblock) : Bytes :=
  encodeLe 8 sb.rootHandleTablePage.toNat ++ encodeLe 8 sb.rootFreemapPage.toNat ++
    encodeLe 8 sb.rootMembershipIndexPage.toNat ++ encodeLe 8 sb.totalPages.toNat ++
    encodeLe 8 sb.nextHandle.toNat ++ encodeLe 4 sb.freemapDepth.toNat ++
    sb.namedRoots.toList.flatMap NamedRoot.bytes

def readRoots (base : Nat) (buf : Bytes) : Vector NamedRoot namedRootCount :=
  Vector.ofFn fun i => NamedRoot.readAt buf (base + NamedRoot.entrySize * i)

def loadBody (sb : Superblock) (body : Bytes) : Except BodyError Superblock :=
  if body.length < bodyLen then .error .panicked
  else .ok { sb with
    rootHandleTablePage := u64At body 0, rootFreemapPage := u64At body 8,
    rootMembershipIndexPage := u64At body 16, totalPages := u64At body 24, nextHandle :=
      u64At body 32,
    freemapDepth := u32At body 40, namedRoots := readRoots 44 body }

/-- The fields that an encrypted superblock has in the clear beside its crypto header. -/
def bootstrapFields (sb : Superblock) : List (Nat × Bytes) :=
  [(0, encodeLe 4 sb.magic.toNat), (4, encodeLe 4 sb.formatVersion.toNat),
    (8, encodeLe 8 sb.txnCounter.toNat), (48, encodeLe 4 sb.pageSize.toNat),
    (superblockCountOffset, encodeLe 4 sb.superblockCount.toNat)]

/-- Nonce, tag, length and ciphertext of the sealed body. -/
def sealedFields (nonce : Vector UInt8 24) (tag : Vector UInt8 16) (ct : Bytes) : List
    (Nat × Bytes) :=
  [(CryptoHeader.sealedBodyOffset, nonce.toList), (CryptoHeader.sealedBodyOffset + 24, tag.toList),
    (CryptoHeader.sealedBodyOffset + 40, encodeLe 2 ct.length),
      (CryptoHeader.sealedBodyOffset + 42, ct)]

/-- `serialize_encrypted`, with the nonce that is drawn. It is not called without a crypto
header. -/
def serializeEncrypted (checksum : Bytes → UInt64) (cipher : PageCipher) (nonce : Vector UInt8 24)
    (sb : Superblock) : Option Bytes :=
  sb.encryption.map fun header =>
    let (ct, tag) := cipher.sealDetached nonce sb.sbIdentityAad sb.bodyPlaintext
    stampChecksum checksum
      (patch (header.serializeInto (patch zeroPage sb.bootstrapFields)) (sealedFields nonce tag ct))

def decryptBody (sb : Superblock) (cipher : PageCipher) (raw : Bytes) :
    Except BodyError Superblock :=
  let base := CryptoHeader.sealedBodyOffset
  let ctLen := u16At raw (base + 40)
  if base + 42 + ctLen > checksumOffset then .error .auth
  else match cipher.openDetached (blockAt _ raw base) sb.sbIdentityAad (slice raw (base + 42) ctLen)
      (blockAt _ raw (base + 24)) with
    | none => .error .auth
    | some body => sb.loadBody body

def validate (checksum : Bytes → UInt64) (buf : Bytes) : Except SuperblockDefect Unit :=
  if ¬ verifyChecksum checksum buf then .error .badChecksum
  else if u32At buf 0 ≠ Raw.magic then .error .badMagic
  else
    let count := u32At buf superblockCountOffset
    if ¬ (minSuperblocks ≤ count.toNat ∧ count.toNat ≤ maxSuperblocks) then .error (.badCount count)
    else
      let txnCounter := u64At buf 8
      if txnCounter.toNat > maxTxnCounter then .error (.badTxnCounter txnCounter) else .ok ()

/-- The superblock of an encrypted slot, before its body is decrypted. -/
def encryptedAt (buf : Bytes) (header : CryptoHeader) : Superblock where
  magic := u32At buf 0
  formatVersion := u32At buf 4
  txnCounter := u64At buf 8
  rootHandleTablePage := 0
  rootFreemapPage := 0
  totalPages := 0
  nextHandle := 0
  pageSize := u32At buf 48
  namedRoots := Vector.replicate _ .empty
  superblockCount := u32At buf superblockCountOffset
  rootMembershipIndexPage := 0
  freemapDepth := 0
  encryption := some header

def plainAt (buf : Bytes) : Superblock where
  magic := u32At buf 0
  formatVersion := u32At buf 4
  txnCounter := u64At buf 8
  rootHandleTablePage := u64At buf 16
  rootFreemapPage := u64At buf 24
  totalPages := u64At buf 32
  nextHandle := u64At buf 40
  pageSize := u32At buf 48
  namedRoots := readRoots namedRootsOffset buf
  superblockCount := u32At buf superblockCountOffset
  rootMembershipIndexPage := u64At buf rootMembershipIndexOffset
  freemapDepth := u32At buf freemapDepthOffset
  encryption := none

def deserialize (checksum : Bytes → UInt64) (buf : Bytes) : Option Superblock :=
  match validate checksum buf with
  | .error _ => none
  | .ok () =>
    match CryptoHeader.deserialize buf with
    | some header => some (encryptedAt buf header)
    | none => some (plainAt buf)

end Superblock

/-- `overwrite_slot_table`: the slot with the new table, or none if it does not hold a
superblock. -/
def CryptoHeader.overwriteSlotTable (checksum : Bytes → UInt64) (h : CryptoHeader) (unit : Bytes) :
    Option Bytes :=
  match Superblock.deserialize checksum unit with
  | none => none
  | some _ => some (stampChecksum checksum (writeSlots h.slots unit))

namespace Superblock

/-- The checks of `validate`, of the fields. -/
structure Valid (sb : Superblock) : Prop where
  magic_eq : sb.magic = Raw.magic
  count_ge : minSuperblocks ≤ sb.superblockCount.toNat
  count_le : sb.superblockCount.toNat ≤ maxSuperblocks
  counter_le : sb.txnCounter.toNat ≤ maxTxnCounter

section Reading

variable {checksum : Bytes → UInt64} {buf : Bytes} {sb : Superblock}

/-- A page with a right checksum that has the clear fields of the superblock. -/
structure Bootstrap (checksum : Bytes → UInt64) (buf : Bytes) (sb : Superblock) : Prop where
  stamped : verifyChecksum checksum buf = true
  magic : u32At buf 0 = sb.magic
  formatVersion : u32At buf 4 = sb.formatVersion
  txnCounter : u64At buf 8 = sb.txnCounter
  pageSize : u32At buf 48 = sb.pageSize
  superblockCount : u32At buf superblockCountOffset = sb.superblockCount

theorem Bootstrap.validate (h : Bootstrap checksum buf sb) (hvalid : sb.Valid) :
    validate checksum buf = .ok () := by
  unfold Superblock.validate
  rw [h.stamped, h.magic, h.superblockCount, h.txnCounter, if_neg (by simp),
    if_neg (by simp [hvalid.magic_eq])]
  dsimp only
  rw [if_neg (not_not.mpr ⟨hvalid.count_ge, hvalid.count_le⟩),
    if_neg (Nat.not_lt.mpr hvalid.counter_le)]

theorem validate_ok (h : validate checksum buf = .ok ()) :
    verifyChecksum checksum buf = true ∧ (plainAt buf).Valid := by
  unfold validate at h
  dsimp only at h
  split_ifs at h with hsum hmagic hcount hcounter
  exact ⟨hsum, not_not.mp hmagic, hcount.1, hcount.2, Nat.le_of_not_lt hcounter⟩

theorem roots_fit (roots : Vector NamedRoot namedRootCount) (hsize : buf.length = Chisel.pageSize) :
    namedRootsOffset + NamedRoot.entrySize * roots.toList.length ≤ buf.length := by
  rw [Vector.length_toList, hsize]
  decide

theorem readRoots_eq {roots : Vector NamedRoot namedRootCount} {base : Nat}
    (h : ∀ i r, roots.toList[i]? = some r →
      slice buf (base + NamedRoot.entrySize * i) NamedRoot.entrySize = r.bytes) :
    readRoots base buf = roots := by
  refine Vector.ext fun i hi => ?_
  have hget : roots.toList[i]? = some roots[i] := by simp [hi]
  rw [readRoots, Vector.getElem_ofFn]
  exact NamedRoot.readAt_eq (h i _ hget)

end Reading

/-! ### A plain superblock -/

section Plain

variable {checksum : Bytes → UInt64} {sb : Superblock} {off n : Nat} {data : Bytes}

theorem zeroPage_length : zeroPage.length = Chisel.pageSize := List.length_replicate

theorem headFields_fit (sb : Superblock) :
    ∀ w ∈ sb.headFields, w.1 + w.2.length ≤ namedRootsOffset := by
  simp [headFields, namedRootsOffset]

theorem tailFields_fit (sb : Superblock) :
    ∀ w ∈ sb.tailFields, superblockCountOffset ≤ w.1 ∧ w.1 + w.2.length ≤ CryptoHeader.offset := by
  simp [tailFields, superblockCountOffset, rootMembershipIndexOffset, freemapDepthOffset,
    CryptoHeader.offset]

theorem rooted_length (sb : Superblock) :
    (patch zeroPage sb.headFields).length = Chisel.pageSize ∧
      (writeRoots sb.namedRoots (patch zeroPage sb.headFields)).length = Chisel.pageSize := by
  have hhead : (patch zeroPage sb.headFields).length = Chisel.pageSize := by
    refine (patch_length fun w hw => ?_).trans zeroPage_length
    rw [zeroPage_length]
    exact (sb.headFields_fit w hw).trans (by decide)
  exact ⟨hhead, (writeTable_length NamedRoot.writesWithin (roots_fit _ hhead)).trans hhead⟩

theorem tailFields_fit_page (sb : Superblock) : ∀ w ∈ sb.tailFields, w.1 + w.2.length ≤
    (writeRoots sb.namedRoots (patch zeroPage sb.headFields)).length := fun w hw => by
  rw [sb.rooted_length.2]
  exact (sb.tailFields_fit w hw).2.trans (by decide)

theorem unstamped_length (sb : Superblock) :
    (patch (writeRoots sb.namedRoots (patch zeroPage sb.headFields)) sb.tailFields).length =
      Chisel.pageSize :=
  (patch_length sb.tailFields_fit_page).trans sb.rooted_length.2

theorem slice_serialize_rooted (h : off + n ≤ superblockCountOffset) :
    slice (serialize checksum sb) off n =
      slice (writeRoots sb.namedRoots (patch zeroPage sb.headFields)) off n := by
  rw [serialize, slice_stampChecksum sb.unstamped_length (h.trans (by decide))]
  exact slice_patch_of_apart sb.tailFields_fit_page fun w hw => .inl
    (h.trans (sb.tailFields_fit w hw).1)

theorem slice_serialize_head (hw : (off, data) ∈ sb.headFields) (hn : data.length = n) :
    slice (serialize checksum sb) off n = data := by
  have hend : off + n ≤ namedRootsOffset := hn ▸ sb.headFields_fit _ hw
  rw [slice_serialize_rooted (hend.trans (by decide)), writeRoots,
    slice_writeTable_of_apart NamedRoot.writesWithin (roots_fit _ sb.rooted_length.1) (.inl hend)]
  refine slice_field (fun w hw => ?_) (by simp [headFields, Before]) hw hn
  rw [zeroPage_length]
  exact (sb.headFields_fit w hw).trans (by decide)

theorem slice_serialize_tail (hw : (off, data) ∈ sb.tailFields) (hn : data.length = n) :
    slice (serialize checksum sb) off n = data := by
  have hend : off + n ≤ CryptoHeader.offset := hn ▸ (sb.tailFields_fit _ hw).2
  rw [serialize, slice_stampChecksum sb.unstamped_length (hend.trans (by decide))]
  exact slice_field sb.tailFields_fit_page (by simp [tailFields, Before, superblockCountOffset,
    rootMembershipIndexOffset, freemapDepthOffset]) hw hn

theorem readRoots_serialize : readRoots namedRootsOffset
    (serialize checksum sb) = sb.namedRoots := by
  refine readRoots_eq fun i r hr => ?_
  have hlt : i < namedRootCount := by
    have hlt := (List.getElem?_eq_some_iff.mp hr).1
    rwa [Vector.length_toList] at hlt
  have hend : namedRootsOffset + NamedRoot.entrySize * i + NamedRoot.entrySize ≤
    superblockCountOffset := by
    have hle := Nat.mul_le_mul_left NamedRoot.entrySize (Nat.succ_le_of_lt hlt)
    exact (Nat.add_le_add_left hle namedRootsOffset).trans (by decide)
  have hlen : (slice (patch zeroPage sb.headFields) (namedRootsOffset + NamedRoot.entrySize * i)
      NamedRoot.entrySize).length = NamedRoot.entrySize := by
    refine slice_length ?_
    rw [sb.rooted_length.1]
    exact hend.trans (by decide)
  rw [slice_serialize_rooted hend, ← r.writeInto_eq hlen]
  exact slice_writeTable NamedRoot.writesWithin (roots_fit _ sb.rooted_length.1) hr

theorem bootstrap_serialize : Bootstrap checksum (serialize checksum sb) sb where
  stamped := verifyChecksum_stampChecksum sb.unstamped_length
  magic := u32At_eq (slice_serialize_head (by simp [headFields]) (encodeLe_length ..))
  formatVersion := u32At_eq (slice_serialize_head (by simp [headFields]) (encodeLe_length ..))
  txnCounter := u64At_eq (slice_serialize_head (by simp [headFields]) (encodeLe_length ..))
  pageSize := u32At_eq (slice_serialize_head (by simp [headFields]) (encodeLe_length ..))
  superblockCount := u32At_eq (slice_serialize_tail (by simp [tailFields]) (encodeLe_length ..))

/-- The algorithm byte of a plain superblock is 0. -/
theorem cryptoHeader_serialize : CryptoHeader.deserialize (serialize checksum sb) = none := by
  have hbyte : slice (serialize checksum sb) CryptoHeader.offset 1 = [0] := by
    rw [serialize, slice_stampChecksum sb.unstamped_length (by decide),
      slice_patch_of_apart sb.tailFields_fit_page fun w hw => .inr
        (sb.tailFields_fit w hw).2, writeRoots,
      slice_writeTable_of_apart NamedRoot.writesWithin (roots_fit _ sb.rooted_length.1)
        (.inr (by rw [Vector.length_toList]; decide)),
      slice_patch_of_apart (fun w hw => ?_) fun w hw => .inr
        ((sb.headFields_fit w hw).trans (by decide)),
      zeroPage, slice, List.drop_replicate, List.take_replicate]
    · rfl
    · rw [zeroPage_length]
      exact (sb.headFields_fit w hw).trans (by decide)
  unfold CryptoHeader.deserialize
  rw [dif_pos (u8At_eq hbyte)]

theorem plainAt_serialize (h : sb.encryption = none) : plainAt (serialize checksum sb) = sb := by
  have hboot : Bootstrap checksum (serialize checksum sb) sb := bootstrap_serialize
  unfold plainAt
  rw [hboot.magic, hboot.formatVersion, hboot.txnCounter, hboot.pageSize, hboot.superblockCount,
    readRoots_serialize,
    u64At_eq (x := sb.rootHandleTablePage)
      (slice_serialize_head (by simp [headFields]) (encodeLe_length ..)),
    u64At_eq (x := sb.rootFreemapPage) (slice_serialize_head (by simp [headFields])
      (encodeLe_length ..)),
    u64At_eq (x := sb.totalPages) (slice_serialize_head (by simp [headFields])
      (encodeLe_length ..)),
    u64At_eq (x := sb.nextHandle) (slice_serialize_head (by simp [headFields])
      (encodeLe_length ..)),
    u64At_eq (x := sb.rootMembershipIndexPage)
      (slice_serialize_tail (by simp [tailFields]) (encodeLe_length ..)),
    u32At_eq (x := sb.freemapDepth) (slice_serialize_tail (by simp [tailFields])
      (encodeLe_length ..)),
    ← h]

theorem deserialize_serialize (hvalid : sb.Valid) (h : sb.encryption = none) :
    deserialize checksum (serialize checksum sb) = some sb := by
  have hboot : Bootstrap checksum (serialize checksum sb) sb := bootstrap_serialize
  unfold deserialize
  rw [hboot.validate hvalid, cryptoHeader_serialize]
  dsimp only
  rw [plainAt_serialize h]

end Plain

/-! ### An encrypted superblock -/

section Encrypted

variable {checksum : Bytes → UInt64} {cipher : PageCipher} {nonce : Vector UInt8 24}
  {sb : Superblock} {header : CryptoHeader} {off n : Nat} {data : Bytes}

theorem bodyPlaintext_length (sb : Superblock) : sb.bodyPlaintext.length = bodyLen := by
  simp [bodyPlaintext, bodyLen, NamedRoot.bytes_length]
  rfl

theorem loadBody_bodyPlaintext (sb opened : Superblock) :
    opened.loadBody sb.bodyPlaintext = .ok { opened with
      rootHandleTablePage := sb.rootHandleTablePage, rootFreemapPage := sb.rootFreemapPage,
      rootMembershipIndexPage := sb.rootMembershipIndexPage, totalPages := sb.totalPages,
      nextHandle := sb.nextHandle, freemapDepth := sb.freemapDepth, namedRoots :=
        sb.namedRoots } := by
  have hroots : readRoots 44 sb.bodyPlaintext = sb.namedRoots := by
    refine readRoots_eq fun i r hr => ?_
    rw [bodyPlaintext, slice_append_right (i := NamedRoot.entrySize * i) (by simp)]
    exact slice_flatMap NamedRoot.bytes_length hr
  have hhandles : slice sb.bodyPlaintext 0 8 = encodeLe 8 sb.rootHandleTablePage.toNat := by
    simp (disch := simp) only [bodyPlaintext, slice_append_left, slice_all]
  have hfreemap : slice sb.bodyPlaintext 8 8 = encodeLe 8 sb.rootFreemapPage.toNat := by
    simp (disch := simp) only [bodyPlaintext, slice_append_left, slice_append_self]
  have hindex : slice sb.bodyPlaintext 16 8 = encodeLe 8 sb.rootMembershipIndexPage.toNat := by
    simp (disch := simp) only [bodyPlaintext, slice_append_left, slice_append_self]
  have htotal : slice sb.bodyPlaintext 24 8 = encodeLe 8 sb.totalPages.toNat := by
    simp (disch := simp) only [bodyPlaintext, slice_append_left, slice_append_self]
  have hnext : slice sb.bodyPlaintext 32 8 = encodeLe 8 sb.nextHandle.toNat := by
    simp (disch := simp) only [bodyPlaintext, slice_append_left, slice_append_self]
  have hdepth : slice sb.bodyPlaintext 40 4 = encodeLe 4 sb.freemapDepth.toNat := by
    simp (disch := simp) only [bodyPlaintext, slice_append_left, slice_append_self]
  unfold loadBody
  rw [if_neg (by rw [bodyPlaintext_length]; exact Nat.lt_irrefl _), hroots, u64At_eq hhandles,
    u64At_eq hfreemap, u64At_eq hindex, u64At_eq htotal, u64At_eq hnext, u32At_eq hdepth]

theorem bootstrapFields_fit (sb : Superblock) :
    ∀ w ∈ sb.bootstrapFields, w.1 + w.2.length ≤ CryptoHeader.offset := by
  simp [bootstrapFields, superblockCountOffset, CryptoHeader.offset]

theorem bootstrapFields_fit_page (sb : Superblock) :
    ∀ w ∈ sb.bootstrapFields, w.1 + w.2.length ≤ zeroPage.length := fun w hw => by
  rw [zeroPage_length]
  exact (sb.bootstrapFields_fit w hw).trans (by decide)

/-- The page with everything that is in the clear. -/
def clearPage (sb : Superblock) (header : CryptoHeader) : Bytes :=
  header.serializeInto (patch zeroPage sb.bootstrapFields)

theorem bootstrapPage_length (sb : Superblock) :
    (patch zeroPage sb.bootstrapFields).length = Chisel.pageSize :=
  (patch_length sb.bootstrapFields_fit_page).trans zeroPage_length

theorem clearPage_length : (sb.clearPage header).length = Chisel.pageSize :=
  CryptoHeader.serializeInto_length sb.bootstrapPage_length

theorem slice_clearPage (hw : (off, data) ∈ sb.bootstrapFields) (hn : data.length = n) :
    slice (sb.clearPage header) off n = data := by
  have hend : off + n ≤ CryptoHeader.offset := hn ▸ sb.bootstrapFields_fit _ hw
  rw [clearPage, CryptoHeader.slice_serializeInto sb.bootstrapPage_length (.inl hend)]
  exact slice_field sb.bootstrapFields_fit_page (by simp [bootstrapFields, Before,
    superblockCountOffset]) hw hn

section Sealed

variable {tag : Vector UInt8 16} {ct : Bytes}

theorem sealedFields_fit (hct : ct.length = bodyLen) : ∀ w ∈ sealedFields nonce tag ct,
    CryptoHeader.sealedBodyOffset ≤ w.1 ∧ w.1 + w.2.length ≤ checksumOffset := by
  have hend : CryptoHeader.sealedBodyOffset + 42 + bodyLen ≤ checksumOffset := by decide
  simp only [sealedFields, List.forall_mem_cons, Vector.length_toList, encodeLe_length, hct]
  exact ⟨by omega, by omega, by omega, by omega, nofun⟩

theorem sealedFields_fit_page (hct : ct.length = bodyLen) : ∀ w ∈ sealedFields nonce tag ct,
    w.1 + w.2.length ≤ (sb.clearPage header).length := fun w hw => by
  rw [clearPage_length]
  exact (sealedFields_fit hct w hw).2.trans (by decide)

theorem sealedPage_length (hct : ct.length = bodyLen) :
    (patch (sb.clearPage header) (sealedFields nonce tag ct)).length = Chisel.pageSize :=
  (patch_length (sealedFields_fit_page hct)).trans clearPage_length

theorem slice_sealedPage_clear (hct : ct.length = bodyLen)
    (h : off + n ≤ CryptoHeader.sealedBodyOffset) :
    slice (stampChecksum checksum (patch (sb.clearPage header) (sealedFields nonce tag ct))) off n =
      slice (sb.clearPage header) off n := by
  rw [slice_stampChecksum (sealedPage_length hct) (h.trans (by decide))]
  exact slice_patch_of_apart (sealedFields_fit_page hct) fun w hw =>
    .inl (h.trans (sealedFields_fit hct w hw).1)

theorem slice_sealedPage (hct : ct.length = bodyLen) (hw : (off, data) ∈ sealedFields nonce tag ct)
    (hn : data.length = n) :
    slice (stampChecksum checksum (patch (sb.clearPage header) (sealedFields nonce tag ct))) off n =
      data := by
  have hend : off + n ≤ checksumOffset := hn ▸ (sealedFields_fit hct _ hw).2
  rw [slice_stampChecksum (sealedPage_length hct) hend]
  exact slice_field (sealedFields_fit_page hct) (by simp [sealedFields, Before]) hw hn

theorem bootstrap_sealedPage (hct : ct.length = bodyLen) : Bootstrap checksum
    (stampChecksum checksum (patch (sb.clearPage header) (sealedFields nonce tag ct))) sb := by
  have hfield : ∀ {off n data}, (off, data) ∈ sb.bootstrapFields → data.length = n →
      slice (stampChecksum checksum (patch (sb.clearPage header) (sealedFields nonce tag ct))) off
        n = data := fun hw hn => by
    have hend := sb.bootstrapFields_fit _ hw
    rw [hn] at hend
    rw [slice_sealedPage_clear hct (hend.trans (by decide)), slice_clearPage hw hn]
  exact {
    stamped := verifyChecksum_stampChecksum (sealedPage_length hct)
    magic := u32At_eq (hfield (by simp [bootstrapFields]) (encodeLe_length ..))
    formatVersion := u32At_eq (hfield (by simp [bootstrapFields]) (encodeLe_length ..))
    txnCounter := u64At_eq (hfield (by simp [bootstrapFields]) (encodeLe_length ..))
    pageSize := u32At_eq (hfield (by simp [bootstrapFields]) (encodeLe_length ..))
    superblockCount := u32At_eq (hfield (by simp [bootstrapFields]) (encodeLe_length ..)) }

end Sealed

theorem Bootstrap.deserialize_eq {buf : Bytes} (h : Bootstrap checksum buf sb) (hvalid : sb.Valid)
    (hheader : CryptoHeader.deserialize buf = some header) :
    deserialize checksum buf = some (encryptedAt buf header) := by
  unfold Superblock.deserialize
  rw [h.validate hvalid, hheader]

theorem encryptedAt_eq {buf : Bytes} (h : Bootstrap checksum buf sb) (header : CryptoHeader) :
    (encryptedAt buf header).sbIdentityAad = sb.sbIdentityAad := by
  unfold sbIdentityAad encryptedAt
  rw [h.magic, h.formatVersion, h.txnCounter, h.superblockCount]

/-- The slot of an encrypted superblock shows its clear fields and its crypto header, and opens
under the cipher that sealed it. -/
theorem serializeEncrypted_spec (checksum : Bytes → UInt64) (cipher : PageCipher)
    (nonce : Vector UInt8 24) (h : sb.encryption = some header) :
    ∃ raw, serializeEncrypted checksum cipher nonce sb = some raw ∧ raw.length = Chisel.pageSize ∧
      Bootstrap checksum raw sb ∧ CryptoHeader.deserialize raw = some header ∧
      (encryptedAt raw header).decryptBody cipher raw = .ok sb := by
  obtain ⟨ct, tag, hseal⟩ : ∃ ct tag,
      cipher.sealDetached nonce sb.sbIdentityAad sb.bodyPlaintext = (ct, tag) := ⟨_, _, rfl⟩
  have hct : ct.length = bodyLen := by
    have hlen := cipher.seal_length nonce sb.sbIdentityAad sb.bodyPlaintext
    rwa [hseal, bodyPlaintext_length] at hlen
  have hopen : cipher.openDetached nonce sb.sbIdentityAad ct tag = some sb.bodyPlaintext := by
    have hopen := cipher.open_seal nonce sb.sbIdentityAad sb.bodyPlaintext
    rwa [hseal] at hopen
  set raw := stampChecksum checksum (patch (sb.clearPage header)
    (sealedFields nonce tag ct)) with hraw
  have hboot : Bootstrap checksum raw sb := bootstrap_sealedPage hct
  have hheader : CryptoHeader.deserialize raw = some header := by
    rw [hraw, CryptoHeader.deserialize_congr fun off n => slice_sealedPage_clear hct]
    exact CryptoHeader.deserialize_serializeInto sb.bootstrapPage_length
  have hnonce : blockAt 24 raw CryptoHeader.sealedBodyOffset = nonce :=
    blockAt_eq (slice_sealedPage hct (by simp [sealedFields]) Vector.length_toList)
  have htag : blockAt 16 raw (CryptoHeader.sealedBodyOffset + 24) = tag :=
    blockAt_eq (slice_sealedPage hct (by simp [sealedFields]) Vector.length_toList)
  have hlen : u16At raw (CryptoHeader.sealedBodyOffset + 40) = bodyLen := by
    refine u16At_eq (by decide) ?_
    rw [← hct]
    exact slice_sealedPage hct (by simp [sealedFields]) (encodeLe_length ..)
  have hbody : slice raw (CryptoHeader.sealedBodyOffset + 42) bodyLen = ct :=
    slice_sealedPage hct (by simp [sealedFields]) hct
  refine ⟨raw, ?_, stampChecksum_length (sealedPage_length hct), hboot, hheader, ?_⟩
  · unfold serializeEncrypted
    rw [h, Option.map_some, hseal]
    rfl
  · unfold decryptBody
    dsimp only
    rw [hlen, if_neg (by decide), hnonce, htag, hbody, encryptedAt_eq hboot, hopen]
    dsimp only
    rw [loadBody_bodyPlaintext]
    unfold encryptedAt
    rw [hboot.magic, hboot.formatVersion, hboot.txnCounter, hboot.pageSize,
      hboot.superblockCount, ← h]

end Encrypted

/-! ### A new key table -/

section Overwrite

variable {checksum : Bytes → UInt64} {sb : Superblock} {header new : CryptoHeader} {raw : Bytes}

theorem loadBody_encryption (sb : Superblock) (encryption : Option CryptoHeader) (body : Bytes) :
    ({ sb with encryption } : Superblock).loadBody body =
      (sb.loadBody body).map fun s => { s with encryption } := by
  unfold loadBody
  split_ifs
  · rfl
  · rfl

theorem deserialize_encrypted (h : deserialize checksum raw = some sb)
    (henc : sb.encryption = some header) :
    validate checksum raw = .ok () ∧ CryptoHeader.deserialize raw = some header ∧
      sb = encryptedAt raw header := by
  unfold deserialize at h
  cases hvalid : validate checksum raw with
  | error d =>
    rw [hvalid] at h
    cases h
  | ok u =>
    rw [hvalid] at h
    dsimp only at h
    cases hheader : CryptoHeader.deserialize raw with
    | none =>
      rw [hheader] at h
      cases h
      cases henc
    | some old =>
      rw [hheader] at h
      cases h
      cases henc
      exact ⟨rfl, rfl, rfl⟩

/-- The new table, and nothing else: what is in the clear beside it and the sealed body are
unchanged. -/
theorem overwriteSlotTable_encrypted (hsize : raw.length = Chisel.pageSize)
    (h : deserialize checksum raw = some sb) (henc : sb.encryption = some header)
    (new : CryptoHeader) :
    let sb' := { sb with encryption := some { header with slots := new.slots } }
    ∃ raw', new.overwriteSlotTable checksum raw = some raw' ∧ raw'.length = Chisel.pageSize ∧
      deserialize checksum raw' = some sb' ∧
      ∀ cipher, sb'.decryptBody cipher raw' = (sb.decryptBody cipher raw).map fun s =>
        { s with encryption := some { header with slots := new.slots } } := by
  intro sb'
  obtain ⟨hvalid, hheader, rfl⟩ := deserialize_encrypted h henc
  set raw' := stampChecksum checksum (CryptoHeader.writeSlots new.slots raw) with hraw
  have hlen : (CryptoHeader.writeSlots new.slots raw).length = Chisel.pageSize :=
    CryptoHeader.writeSlots_length hsize
  have hkeep : ∀ off n, off + n ≤ CryptoHeader.slotTableOffset ∨
      CryptoHeader.sealedBodyOffset ≤ off → off + n ≤ checksumOffset →
      slice raw' off n = slice raw off n := fun off n hapart hend => by
    rw [hraw, slice_stampChecksum hlen hend, CryptoHeader.slice_writeSlots hsize hapart]
  have hboot : Bootstrap checksum raw' (plainAt raw) := {
    stamped := verifyChecksum_stampChecksum hlen
    magic := congrArg (UInt32.ofNat ∘ decodeLe) (hkeep 0 4 (.inl (by decide)) (by decide))
    formatVersion := congrArg (UInt32.ofNat ∘ decodeLe) (hkeep 4 4 (.inl (by decide)) (by decide))
    txnCounter := congrArg (UInt64.ofNat ∘ decodeLe) (hkeep 8 8 (.inl (by decide)) (by decide))
    pageSize := congrArg (UInt32.ofNat ∘ decodeLe) (hkeep 48 4 (.inl (by decide)) (by decide))
    superblockCount := congrArg (UInt32.ofNat ∘ decodeLe)
      (hkeep superblockCountOffset 4 (.inl (by decide)) (by decide)) }
  have hread : deserialize checksum raw' = some sb' := by
    obtain ⟨halgorithm, hstride, -⟩ := CryptoHeader.deserialize_eq_some_iff.mp hheader
    have htable : CryptoHeader.readSlots raw' = new.slots := by
      rw [hraw, CryptoHeader.readSlots_congr fun off n hend =>
        slice_stampChecksum hlen (hend.trans (by decide))]
      exact CryptoHeader.readSlots_writeSlots hsize
    have hnew : CryptoHeader.deserialize raw' = some { header with slots := new.slots } := by
      refine CryptoHeader.deserialize_eq_some_iff.mpr ⟨?_, ?_, htable⟩
      · rw [u8At, hkeep _ _ (.inl (by decide)) (by decide)]
        exact halgorithm
      · rw [u32At, hkeep _ _ (.inl (by decide)) (by decide)]
        exact hstride
    unfold deserialize
    rw [hboot.validate (validate_ok hvalid).2, hnew]
    dsimp only
    unfold encryptedAt
    rw [hboot.magic, hboot.formatVersion, hboot.txnCounter, hboot.pageSize, hboot.superblockCount]
    rfl
  refine ⟨raw', ?_, stampChecksum_length hlen, hread, fun cipher => ?_⟩
  · unfold CryptoHeader.overwriteSlotTable
    rw [h]
  · have hlength : u16At raw' (CryptoHeader.sealedBodyOffset + 40) =
        u16At raw (CryptoHeader.sealedBodyOffset + 40) :=
      congrArg decodeLe (hkeep _ 2 (.inr (by decide)) (by decide))
    have hnonce : blockAt 24 raw' CryptoHeader.sealedBodyOffset =
        blockAt 24 raw CryptoHeader.sealedBodyOffset := by
      rw [blockAt, blockAt, hkeep _ 24 (.inr (by decide)) (by decide)]
    have htag : blockAt 16 raw' (CryptoHeader.sealedBodyOffset + 24) =
        blockAt 16 raw (CryptoHeader.sealedBodyOffset + 24) := by
      rw [blockAt, blockAt, hkeep _ 16 (.inr (by decide)) (by decide)]
    have haad : sb'.sbIdentityAad = (encryptedAt raw header).sbIdentityAad := rfl
    unfold decryptBody
    dsimp only
    rw [hlength, hnonce, htag, haad]
    split_ifs with hlong
    · rfl
    · rw [hkeep _ _ (.inr (Nat.le_add_right ..)) (Nat.le_of_not_lt hlong)]
      cases cipher.openDetached (blockAt 24 raw CryptoHeader.sealedBodyOffset)
        (encryptedAt raw header).sbIdentityAad (slice raw (CryptoHeader.sealedBodyOffset + 42)
          (u16At raw (CryptoHeader.sealedBodyOffset + 40)))
        (blockAt 16 raw (CryptoHeader.sealedBodyOffset + 24)) with
      | none => rfl
      | some body => exact loadBody_encryption ..

end Overwrite

/-! ### The units of the file -/

section Model

variable {checksum : Bytes → UInt64} {sb : Superblock} {header : CryptoHeader} {raw : Bytes}

/-- The superblock that the bytes stand for, when `wraps` says which credential a key slot is
wrapped under. -/
def model (wraps : KeySlot → Chisel.KeySlot) (sb : Superblock) : Chisel.Superblock where
  formatVersion := sb.formatVersion.toNat
  txnCounter := sb.txnCounter.toNat
  rootHandleTablePage := sb.rootHandleTablePage.toNat
  rootFreemapPage := sb.rootFreemapPage.toNat
  totalPages := sb.totalPages.toNat
  nextHandle := sb.nextHandle.toNat
  pageSize := sb.pageSize.toNat
  namedRoots := sb.namedRoots.toList.map fun r => ⟨r.name.toList, r.handle.toNat⟩
  superblockCount := sb.superblockCount.toNat
  rootMembershipIndexPage := sb.rootMembershipIndexPage.toNat
  freemapDepth := sb.freemapDepth.toNat
  encryption := sb.encryption.map fun h => ⟨h.slots.toList.map wraps⟩

theorem valid_model (wraps : KeySlot → Chisel.KeySlot) (hmagic : sb.magic = Raw.magic) :
    (sb.model wraps).valid = true ↔ sb.Valid := by
  unfold Chisel.Superblock.valid
  simp only [Bool.and_eq_true, decide_eq_true_eq]
  constructor
  · intro ⟨⟨hge, hle⟩, hcounter⟩
    exact ⟨hmagic, hge, hle, hcounter⟩
  · intro h
    exact ⟨⟨h.count_ge, h.count_le⟩, h.counter_le⟩

theorem Bootstrap.deserialize_none (h : Bootstrap checksum raw sb) (hvalid : ¬ sb.Valid) :
    deserialize checksum raw = none := by
  unfold Superblock.deserialize
  cases hcheck : Superblock.validate checksum raw with
  | error d => rfl
  | ok u =>
    obtain ⟨-, hmagic, hge, hle, hcounter⟩ := validate_ok hcheck
    refine absurd ⟨h.magic ▸ hmagic, h.superblockCount ▸ hge, h.superblockCount ▸ hle, ?_⟩ hvalid
    exact h.txnCounter ▸ hcounter

/-- What is read from the bytes of a plain superblock is what is read from its unit. -/
theorem serialize_refines (wraps : KeySlot → Chisel.KeySlot) (hmagic : sb.magic = Raw.magic)
    (h : sb.encryption = none) :
    (deserialize checksum (serialize checksum sb)).map (model wraps) =
      Chisel.Superblock.deserialize (Chisel.Superblock.serialize (sb.model wraps) none) := by
  have hplain : (sb.model wraps).encryption = none := congrArg (Option.map _) h
  unfold Chisel.Superblock.serialize Chisel.Superblock.deserialize
  dsimp only
  rw [hplain]
  by_cases hvalid : sb.Valid
  · rw [deserialize_serialize hvalid h, if_pos ((valid_model wraps hmagic).mpr hvalid)]
    rfl
  · rw [bootstrap_serialize.deserialize_none hvalid,
      if_neg fun hv => hvalid ((valid_model wraps hmagic).mp hv)]
    rfl

/-- So it is for an encrypted superblock before its body is decrypted, and after. -/
theorem serializeEncrypted_refines (wraps : KeySlot → Chisel.KeySlot) (cipher : PageCipher)
    (dek : Dek) (nonce : Vector UInt8 24) (hmagic : sb.magic = Raw.magic)
    (h : sb.encryption = some header) :
    ∃ raw, serializeEncrypted checksum cipher nonce sb = some raw ∧
      (deserialize checksum raw).map (model wraps) =
        Chisel.Superblock.deserialize (Chisel.Superblock.serialize (sb.model wraps) (some dek)) ∧
      ∀ opened, deserialize checksum raw = some opened →
        ((opened.decryptBody cipher raw).map (model wraps)).toOption =
          Chisel.Superblock.decryptBody dek
            (Chisel.Superblock.serialize (sb.model wraps) (some dek)) := by
  obtain ⟨raw, hraw, -, hboot, hheader, hbody⟩ :=
    serializeEncrypted_spec checksum cipher nonce h
  have hmodel : (sb.model wraps).encryption = some ⟨header.slots.toList.map wraps⟩ :=
    congrArg (Option.map _) h
  refine ⟨raw, hraw, ?_, fun opened hopened => ?_⟩
  · unfold Chisel.Superblock.serialize Chisel.Superblock.deserialize
    dsimp only
    rw [hmodel]
    by_cases hvalid : sb.Valid
    · rw [hboot.deserialize_eq hvalid hheader, if_pos ((valid_model wraps hmagic).mpr hvalid),
        Option.map_some]
      unfold encryptedAt model
      rw [hboot.formatVersion, hboot.txnCounter, hboot.pageSize, hboot.superblockCount]
      simp [Chisel.NamedRoot.empty, NamedRoot.empty]
    · rw [hboot.deserialize_none hvalid, if_neg fun hv => hvalid ((valid_model wraps hmagic).mp hv)]
      rfl
  · have hvalid : sb.Valid := by
      by_contra hvalid
      rw [hboot.deserialize_none hvalid] at hopened
      cases hopened
    rw [hboot.deserialize_eq hvalid hheader] at hopened
    cases hopened
    rw [hbody]
    unfold Chisel.Superblock.serialize Chisel.Superblock.decryptBody
    dsimp only
    rw [if_pos rfl]
    rfl

end Model

/-- The superblock codec. A plain superblock that passes the checks is read back from its bytes. So
is an encrypted one, after its body is decrypted. A slot of an encrypted database whose key table is
overwritten has the new table; what else it shows and what its body decrypts to, under any cipher,
are as before. -/
theorem superblock_codec (checksum : Bytes → UInt64) :
    (∀ sb : Superblock, sb.Valid → sb.encryption = none →
      deserialize checksum (serialize checksum sb) = some sb) ∧
    (∀ (cipher : PageCipher) (nonce : Vector UInt8 24) (sb : Superblock), sb.Valid →
      sb.encryption ≠ none → ∃ raw opened, serializeEncrypted checksum cipher nonce sb = some raw ∧
        deserialize checksum raw = some opened ∧ opened.decryptBody cipher raw = .ok sb) ∧
    (∀ (raw : Vector UInt8 Chisel.pageSize) (sb : Superblock) (old new : CryptoHeader),
      deserialize checksum raw.toList = some sb → sb.encryption = some old →
      let patched (s : Superblock) : Superblock :=
        { s with encryption := some { old with slots := new.slots } }
      ∃ raw', new.overwriteSlotTable checksum raw.toList = some raw' ∧
        deserialize checksum raw' = some (patched sb) ∧
        ∀ cipher, (patched sb).decryptBody cipher raw' =
          (sb.decryptBody cipher raw.toList).map patched) := by
  refine ⟨fun sb hvalid h => deserialize_serialize hvalid h, fun cipher nonce sb hvalid henc => ?_,
    fun raw sb old new h henc => ?_⟩
  · obtain ⟨header, h⟩ := Option.ne_none_iff_exists'.mp henc
    obtain ⟨raw, hraw, -, hboot, hheader, hbody⟩ :=
      serializeEncrypted_spec checksum cipher nonce h
    exact ⟨raw, _, hraw, hboot.deserialize_eq hvalid hheader, hbody⟩
  · obtain ⟨raw', hraw, -, hread, hbody⟩ :=
      overwriteSlotTable_encrypted Vector.length_toList h henc new
    exact ⟨raw', hraw, hread, hbody⟩

/-- The superblock of a database in use, with a named root. -/
def inUse (encryption : Option CryptoHeader) : Superblock :=
  { newEmpty 3 with
    txnCounter := 7, rootHandleTablePage := 5, rootFreemapPage := 6, totalPages := 9
    nextHandle := 4, namedRoots := (Vector.replicate _ .empty).set 0 ⟨Vector.replicate _ 97, 3⟩
    rootMembershipIndexPage := 8, freemapDepth := 1, encryption }

/-- A key table with one credential, in slot `i`. -/
def oneKey (i : Fin 8) : CryptoHeader where
  algorithm := 1
  stride := UInt32.ofNat encPageSize
  slots := (Vector.replicate _ .empty).set i ⟨1, 1, ⟨19456, 2, 1⟩, Vector.replicate _ 3,
    Vector.replicate _ 4, Vector.replicate _ 5, Vector.replicate _ 6⟩ i.2
  encrypts := by decide

def sampleChecksum (buf : Bytes) : UInt64 := buf.foldl (fun sum b => sum * 31 + b.toUInt64) 7

/-- The credential moves to another slot of the table, and nothing else changes. -/
theorem superblock_codec_inUse :
    deserialize sampleChecksum (serialize sampleChecksum (inUse none)) = some (inUse none) ∧
    ∃ raw raw' opened, serializeEncrypted sampleChecksum .null (Vector.replicate _ 0)
        (inUse (some (oneKey 0))) = some raw ∧
      (oneKey 1).overwriteSlotTable sampleChecksum raw = some raw' ∧
      deserialize sampleChecksum raw' = some opened ∧
      opened.decryptBody .null raw' = .ok (inUse (some (oneKey 1))) := by
  have hvalid : ∀ encryption, (inUse encryption).Valid := fun _ =>
    ⟨rfl, show minSuperblocks ≤ (3 : UInt32).toNat by decide,
      show (3 : UInt32).toNat ≤ maxSuperblocks by decide,
      show (7 : UInt64).toNat ≤ maxTxnCounter by decide⟩
  refine ⟨(superblock_codec _).1 _ (hvalid none) rfl, ?_⟩
  obtain ⟨raw, hraw, hlen, hboot, hheader, -⟩ := serializeEncrypted_spec sampleChecksum .null
    (Vector.replicate _ 0) (show (inUse (some (oneKey 0))).encryption = some (oneKey 0) from rfl)
  obtain ⟨raw1, opened, hraw1, hopened, hbody⟩ := (superblock_codec sampleChecksum).2.1 .null
    (Vector.replicate _ 0) (inUse (some (oneKey 0))) (hvalid _) nofun
  obtain rfl : raw = raw1 := Option.some.inj (hraw.symm.trans hraw1)
  have henc : opened.encryption = some (oneKey 0) := by
    rw [hboot.deserialize_eq (hvalid _) hheader] at hopened
    exact Option.some.inj hopened ▸ rfl
  have hvector : (⟨raw.toArray, hlen⟩ : Vector UInt8 Chisel.pageSize).toList = raw := rfl
  obtain ⟨raw', hpatch, hread, hrest⟩ := (superblock_codec sampleChecksum).2.2 ⟨raw.toArray, hlen⟩
    opened (oneKey 0) (oneKey 1) (hvector.symm ▸ hopened) henc
  refine ⟨raw, raw', _, hraw, hpatch, hread, (hrest .null).trans ?_⟩
  rw [hvector, hbody]
  rfl

end Superblock

end Raw

end Chisel
