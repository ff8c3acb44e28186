import Chisel.Commit

/-! The public interface (`lib.rs`): the operations of an open handle, and runs of sessions on one
file. A session ends when its handle is dropped, at any point between two operations; whatever the
cache still holds is then gone. -/

namespace Chisel

open StateError PageCache TransactionManager Device

/-- The operations of a handle. Handles are `u64`s and tags are `u32`s; tag 0 is "no tag". -/
inductive Op
  | begin
  | commit
  | rollback
  | savepoint (name : String)
  | rollbackTo (name : String)
  | release (name : String)
  | allocate (value : Bytes)
  | allocateTagged (value : Bytes) (tag : UInt32)
  | update (handle : UInt64) (value : Bytes)
  | delete (handle : UInt64)
  | deleteTagged (handle : UInt64) (tag : UInt32)
  | deleteWithTag (tag : UInt32) (max : UInt64)
  | deleteMany (handles : List UInt64)
  | setClientByte (handle : UInt64) (byte : UInt8)
  | read (handle : UInt64)
  | tag (handle : UInt64)
  | clientByte (handle : UInt64)
  | handles
  | handlesWithTag (tag : UInt32)
  | setRootName (name : Bytes) (handle : UInt64)
  | getRootName (name : Bytes)
  | clearRootName (name : Bytes)
  | defrag (threshold : Option Threshold) (maxValues : Nat)
  | addKey (existing new : Key)
  | rotateKey (old new : Key)
  | removeKey (key : Key)
  | setCacheMaxBytes (bytes : UInt64)
  | setSpillwayMaxBytes (bytes : UInt64)
  | setDrainInsertion (policy : DrainInsertion)
  | stats
  | counters
  | fileSizeBytes

inductive Reply
  | unit
  | handle (handle : Nat)
  | bytes (value : Bytes)
  | tag (tag : Nat)
  | byte (byte : UInt8)
  | handles (handles : List Nat)
  | progress (deleted : List Nat) (complete : Bool)
  | rootName (handle : Option Nat)
  | stats (stats : DefragStats)
  | summary (stats : Stats)
  | size (bytes : Nat)
  deriving Repr, DecidableEq

namespace TransactionManager

def quietly (x : TxnM Unit) : TxnM Reply := (fun _ => .unit) <$> x

def perform : Op → TxnM Reply
  | .begin => quietly begin
  | .commit => quietly commit
  | .rollback => quietly rollback
  | .savepoint name => quietly (savepoint name)
  | .rollbackTo name => quietly (rollbackTo name)
  | .release name => quietly (release name)
  | .allocate value => .handle <$> allocate value
  | .allocateTagged value tag => .handle <$> allocateTagged value tag.toNat
  | .update handle value => quietly (update handle.toNat value)
  | .delete handle => quietly (delete handle.toNat)
  | .deleteTagged handle tag => quietly (deleteTagged handle.toNat tag.toNat)
  | .deleteWithTag tag max => (fun r => .progress r.1 r.2) <$> deleteWithTag tag.toNat max.toNat
  | .deleteMany handles => quietly (deleteMany (handles.map UInt64.toNat))
  | .setClientByte handle byte => quietly (setClientByte handle.toNat byte)
  | .read handle => .bytes <$> read handle.toNat
  | .tag handle => .tag <$> TransactionManager.tag handle.toNat
  | .clientByte handle => .byte <$> clientByte handle.toNat
  | .handles => .handles <$> handles
  | .handlesWithTag tag => .handles <$> handlesWithTag tag.toNat
  | .setRootName name handle => quietly (setRootName name handle.toNat)
  | .getRootName name => .rootName <$> getRootName name
  | .clearRootName name => quietly (clearRootName name)
  | .defrag threshold maxValues => .stats <$> defrag threshold maxValues
  | .addKey existing new => quietly (addKey existing new)
  | .rotateKey old new => quietly (rotateKey old new)
  | .removeKey key => quietly (removeKey key)
  | .setCacheMaxBytes bytes => quietly (setCacheMaxBytes bytes.toNat)
  | .setSpillwayMaxBytes bytes => quietly (setSpillwayMaxBytes bytes.toNat)
  | .setDrainInsertion policy => quietly (setDrainInsertion policy)
  | .stats => .summary <$> stats
  | .counters => quietly counters
  | .fileSizeBytes => .size <$> fileSizeBytes

def after (m : TransactionManager) (op : Op) : TransactionManager :=
  match perform op m with
  | .ok _ m' => m'
  | .error _ m' => m'

def answer (m : TransactionManager) (op : Op) : Except ChiselError Reply :=
  match perform op m with
  | .ok r _ => .ok r
  | .error e _ => .error e

def afterAll (m : TransactionManager) (ops : List Op) : TransactionManager := ops.foldl after m

end TransactionManager

/-! ### Sessions -/

/-- The options of `Chisel::open`. `dek` is the random data key a creation draws. -/
structure Options where
  readOnly : Bool := false
  cacheMaxBytes : UInt64 := 8388608
  spillwayMaxBytes : UInt64 := 8589934592
  drainInsertion : DrainInsertion := .lruTail
  createIfMissing : Bool := true
  superblockCount : Nat := 2
  encryptionKey : Option Key := none
  dek : Dek := 0

structure DbFile where
  image : Image DiskUnit
  trace : List (Event DiskUnit)
  fileStride : Nat

/-- A file that does not exist yet. -/
def DbFile.empty : DbFile := ⟨.empty, [], pageSize⟩

/-- The outcome of `Chisel::open`, with the state of the file it leaves. A file of length zero is
one that does not exist; `PageIo::open` does not make it for a handle that may not write. -/
def openDb (options : Options) (file : DbFile) : Except ChiselError TransactionManager × PageIo :=
  let io := PageIo.openFile file.image file.trace file.fileStride options.readOnly
  if options.superblockCount < minSuperblocks ∨ maxSuperblocks < options.superblockCount then
    (.error (.invalidSuperblockCount options.superblockCount), io)
  else if io.pageCount = 0 ∧ (options.createIfMissing = false ∨ options.readOnly = true) then
    (.error .fileNotFound, io)
  else
    let cache := PageCache.new io options.cacheMaxBytes.toNat options.spillwayMaxBytes.toNat
      options.drainInsertion
    let result :=
      if 0 < io.pageCount then openExisting options.encryptionKey cache
      else createNew options.superblockCount options.encryptionKey options.dek
        cache
    match result with
    | .ok m c => (.ok m, c.io)
    | .error e c => (.error e, c.io)

def DbFile.ofIo (io : PageIo) : DbFile := ⟨io.image, io.trace, io.fileStride⟩

/-- A database between two steps: a file at rest, or an open handle. -/
inductive Db
  | closed (file : DbFile)
  | opened (m : TransactionManager)

namespace Db

def file : Db → DbFile
  | closed file => file
  | opened m => .ofIo m.cache.io

end Db

inductive Step
  | open (options : Options)
  | op (op : Op)
  | drop

/-- One step. A step that does not apply, such as an operation without a handle, does nothing. -/
def Db.step : Db → Step → Db
  | .closed file, .open options =>
    match openDb options file with
    | (.ok m, _) => .opened m
    | (.error _, io) => .closed (.ofIo io)
  | .opened m, .op op => .opened (m.after op)
  | .opened m, .drop => .closed (.ofIo m.cache.io)
  | db, _ => db

def Db.run (db : Db) (steps : List Step) : Db := steps.foldl Db.step db

end Chisel
