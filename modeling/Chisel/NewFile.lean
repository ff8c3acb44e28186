import Chisel.Session
import Chisel.SlotBank

/-! Opening a file that is not there: `create_new` writes the slots, each with the same superblock
and a number of its own, the highest in the first slot. -/

namespace Chisel

open StateError PageCache TransactionManager Device

theorem nextTxnCounter_ok {c c' : Nat} (h : nextTxnCounter c = .ok c') :
    c' = c + 1 ∧ c' ≤ maxTxnCounter := by
  have hmax : maxTxnCounter < u64Max := by decide
  by_cases hle : satAdd c 1 > maxTxnCounter
  · simp [nextTxnCounter, hle] at h
  · obtain rfl : satAdd c 1 = c' := by simpa [nextTxnCounter, hle] using h
    unfold satAdd at hle ⊢
    omega

/-- The slot that creation writes at `i`. -/
def initialUnit (sb : Superblock) (cipher : Option Dek) (i : Nat) : DiskUnit :=
  { sb with txnCounter := sb.superblockCount - 1 - i }.serialize cipher

def initialSlots (sb : Superblock) (cipher : Option Dek) (io : PageIo) (slots : List Nat) :
    PageIo :=
  slots.foldl (fun io i => io.record (.write i (initialUnit sb cipher i))) io

theorem wp_writeInitialSlots (sb : Superblock) {slots : List Nat} {c : PageCache}
    {Q : Unit → PageCache → Prop} {E : ChiselError → PageCache → Prop}
    (hro : c.io.readOnly = false)
    (h : Q () { c with io := initialSlots sb c.cipher c.io slots }) :
    wp (writeInitialSlots sb slots) c Q E := by
  induction slots generalizing c with
  | nil => exact wp_ret h
  | cons i rest ih =>
    simp only [writeInitialSlots, wp_bind, wp_get, onIo, PageIo.writePageUnit, hro,
      Bool.false_eq_true, if_false, wp_set]
    exact ih hro h

theorem initialSlots_cell (sb : Superblock) (cipher : Option Dek) (io : PageIo) (slots : List Nat)
    (i : Nat) : (initialSlots sb cipher io slots).image.cell i =
      if i ∈ slots then initialUnit sb cipher i else io.image.cell i := by
  induction slots generalizing io with
  | nil => simp [initialSlots]
  | cons j rest ih =>
    have := ih (io.record (.write j (initialUnit sb cipher j)))
    simp only [initialSlots, List.foldl_cons] at this ⊢
    rw [this]
    by_cases hi : i ∈ rest
    · simp [hi]
    · by_cases hij : i = j
      · subst hij
        simp [hi, PageIo.record, Image.apply]
      · simp [hi, hij, PageIo.record, Image.apply, Image.write_cell_ne]

def createdSuperblock (n : Nat) : Option CryptoHeader → Superblock
  | none => .newEmpty n
  | some h => .newEmptyEncrypted n h

def createdRoots (n : Nat) : Roots :=
  ⟨pageIdNone, pageIdNone, 0, 1, n, List.replicate namedRootCount .empty, pageIdNone⟩

def createdCache (n : Nat) (header : Option CryptoHeader) (dek : Dek) (c : PageCache) : PageCache :=
  let cipher := if header.isSome then some dek else c.cipher
  let io := if header.isSome then c.io.setStride encPageSize else c.io
  { c with
    cipher := cipher
    io := (initialSlots (createdSuperblock n header) cipher io (List.range n)).record .sync
    nextPageId := n }

theorem initialSlots_readOnly (sb : Superblock) (cipher : Option Dek) (io : PageIo)
    (slots : List Nat) : (initialSlots sb cipher io slots).readOnly = io.readOnly := by
  induction slots generalizing io with
  | nil => rfl
  | cons j rest ih => exact ih _

@[simp] theorem setStride_readOnly (io : PageIo) (stride : Nat) :
    (io.setStride stride).readOnly = io.readOnly := rfl

/-- The key table of a new database: the credential it was created with, in the first slot. -/
def createdHeader (key : Option Key) (dek : Dek) : Option CryptoHeader :=
  key.map fun k => ⟨(List.replicate keySlotCount .empty).set 0 (.active k dek)⟩

theorem wrapInto_empty {k : Key} {dek : Dek} {h : CryptoHeader}
    (hw : (CryptoHeader.mk (List.replicate keySlotCount .empty)).wrapInto 0 k dek = .ok h) :
    k ≠ [] ∧ some h = createdHeader (some k) dek := by
  unfold CryptoHeader.wrapInto at hw
  split at hw
  · cases hw
  · next hk =>
    cases hw
    exact ⟨hk, rfl⟩

theorem wp_createNew (n : Nat) (key : Option Key) (dek : Dek) {c : PageCache}
    (hro : c.io.readOnly = false) :
    wp (createNew n key dek) c
      (fun m c' => key ≠ some [] ∧ c' = createdCache n (createdHeader key dek) dek c ∧
        m = ofRoots c' (createdRoots n) 0 0 (n - 1) n ∅ (createdHeader key dek))
      (fun _ c' => key = some [] ∧ c' = c) := by
  cases key with
  | none =>
    simp only [createNew, wp_bind, wp_pure, Option.isSome_none, Bool.false_eq_true, if_false]
    refine wp_writeInitialSlots _ hro ?_
    simp only [onIo, wp_bind, wp_get, PageIo.fsync, initialSlots_readOnly, hro,
      Bool.false_eq_true, if_false, wp_set, wp_modify]
    exact ⟨by simp, rfl, rfl⟩
  | some k =>
    simp only [createNew]
    split
    · next e he =>
      have hk : k = [] := by
        by_contra hne
        unfold CryptoHeader.wrapInto at he
        rw [if_neg hne] at he
        cases he
      simp only [wp_bind, wp_throw, hk, and_self]
    · next h hw =>
      obtain ⟨hk, hh⟩ := wrapInto_empty hw
      simp only [wp_bind, wp_pure, Option.isSome_some, if_true, wp_modify]
      refine wp_writeInitialSlots _ hro ?_
      simp only [onIo, wp_bind, wp_get, PageIo.fsync, initialSlots_readOnly,
        setStride_readOnly, hro, Bool.false_eq_true, if_false, wp_set]
      rw [← hh]
      exact ⟨fun he => hk (Option.some.inj he), rfl, rfl⟩

/-- The cache that `Chisel::open` starts from. -/
def freshCache (options : Options) (file : DbFile) : PageCache :=
  PageCache.new (PageIo.openFile file.image file.trace file.fileStride options.readOnly)
    options.cacheMaxBytes.toNat options.spillwayMaxBytes.toNat options.drainInsertion

section Empty

variable {options : Options} {f : DbFile}

/-- The number of superblocks that the options ask for is possible. -/
def Options.Valid (options : Options) : Prop :=
  minSuperblocks ≤ options.superblockCount ∧ options.superblockCount ≤ maxSuperblocks

theorem openDb_of_not_valid (hv : ¬ options.Valid) (f : DbFile) :
    openDb options f = (.error (.invalidSuperblockCount options.superblockCount),
      PageIo.openFile f.image f.trace f.fileStride options.readOnly) := by
  unfold Options.Valid at hv
  unfold openDb
  rw [if_pos (by omega)]

theorem openFile_pageCount (hempty : f.image.len = 0) :
    (PageIo.openFile f.image f.trace f.fileStride options.readOnly).pageCount = 0 := by
  unfold PageIo.pageCount PageIo.openFile
  rw [if_pos hempty, if_pos rfl, hempty]

theorem openDb_of_missing (hempty : f.image.len = 0) (hv : options.Valid)
    (hmissing : options.createIfMissing = false ∨ options.readOnly = true) :
    openDb options f = (.error .fileNotFound,
      PageIo.openFile f.image f.trace f.fileStride options.readOnly) := by
  unfold Options.Valid at hv
  unfold openDb
  rw [if_neg (by omega), if_pos ⟨openFile_pageCount hempty, hmissing⟩]

/-- The options can make a database where there is none. -/
structure Options.Creates (options : Options) : Prop where
  valid : options.Valid
  missing : options.createIfMissing = true
  writes : options.readOnly = false
  key : options.encryptionKey ≠ some []

def Options.created (options : Options) (f : DbFile) : TransactionManager :=
  ofRoots (createdCache options.superblockCount (createdHeader options.encryptionKey options.dek)
      options.dek (freshCache options f)) (createdRoots options.superblockCount) 0 0
    (options.superblockCount - 1) options.superblockCount ∅
    (createdHeader options.encryptionKey options.dek)

theorem openDb_eq_createNew (hempty : f.image.len = 0) (hv : options.Valid)
    (hmissing : options.createIfMissing = true) (hwrites : options.readOnly = false) :
    openDb options f =
      match createNew options.superblockCount options.encryptionKey options.dek
        (freshCache options f) with
      | .ok m c => (.ok m, c.io)
      | .error e c => (.error e, c.io) := by
  have hcount : ¬ 0 < (PageIo.openFile f.image f.trace f.fileStride
    options.readOnly).pageCount := by
    rw [openFile_pageCount hempty]
    exact Nat.lt_irrefl 0
  have hmade : ¬ (options.createIfMissing = false ∨ options.readOnly = true) := by
    rw [hmissing, hwrites]
    decide
  unfold openDb
  unfold Options.Valid at hv
  rw [if_neg (by omega), if_neg fun hno => hmade hno.2]
  dsimp only
  rw [if_neg hcount]
  rfl

theorem openDb_created (hempty : f.image.len = 0) (h : options.Creates) :
    openDb options f = (.ok (options.created f), (options.created f).cache.io) := by
  have hwp := wp_createNew (c := freshCache options f) options.superblockCount
    options.encryptionKey options.dek h.writes
  rw [openDb_eq_createNew hempty h.valid h.missing h.writes]
  split
  · next m c hx =>
    obtain ⟨-, rfl, rfl⟩ := (wp_ok hx).mp hwp
    rfl
  · next e c hx => exact absurd ((wp_error hx).mp hwp).1 h.key

theorem openDb_refused (hempty : f.image.len = 0) (h : ¬ options.Creates) :
    ∃ e io, openDb options f = (.error e, io) ∧ io.image = f.image ∧ io.trace = f.trace := by
  by_cases hv : options.Valid
  swap
  · exact ⟨_, _, openDb_of_not_valid hv f, rfl, rfl⟩
  by_cases hmissing : options.createIfMissing = false ∨ options.readOnly = true
  · exact ⟨_, _, openDb_of_missing hempty hv hmissing, rfl, rfl⟩
  · simp only [not_or, Bool.not_eq_false, Bool.not_eq_true] at hmissing
    obtain ⟨hmake, hro⟩ := hmissing
    have hwp := wp_createNew (c := freshCache options f) options.superblockCount
      options.encryptionKey options.dek hro
    rw [openDb_eq_createNew hempty hv hmake hro]
    split
    · next m c hx => exact absurd ⟨hv, hmake, hro, ((wp_ok hx).mp hwp).1⟩ h
    · next e c hx =>
      obtain ⟨-, rfl⟩ := (wp_error hx).mp hwp
      exact ⟨e, _, rfl, rfl, rfl⟩

theorem openDb_empty {m : TransactionManager} {io : PageIo} (hempty : f.image.len = 0)
    (h : openDb options f = (.ok m, io)) : options.Creates ∧ m = options.created f := by
  by_cases hnew : options.Creates
  · obtain ⟨hm, -⟩ := Prod.mk.inj (h.symm.trans (openDb_created hempty hnew))
    exact ⟨hnew, Except.ok.inj hm⟩
  · obtain ⟨e, io, heq, -⟩ := openDb_refused hempty hnew
    cases h.symm.trans heq

end Empty

end Chisel
