import Chisel.PageCache

/-! What the page cache is for: a store of pages by id, with the set of pages that differ from the
file. Memory, the recency order and the spillway are gone from this view; the next module shows
that every cache operation acts on it as the store's own operations do. -/

namespace Chisel

open StateError

/-- A paged store over a file. `hot` are the pages that were written since the last flush; `room`
is how many of them memory and spillway can hold. A page whose checksum does not match has no
contents. -/
@[ext] structure Store where
  view : Nat → Option Page
  hot : Finset Nat
  io : PageIo
  next : Nat
  room : Nat
  cipher : Option Dek

namespace Store

def Fits (s : Store) : Prop := s.hot.card ≤ s.room

/-- Write a page; `none` leaves it with no contents yet. -/
def put (s : Store) (id : Nat) (p : Option Page) : Store :=
  { s with view := Function.update s.view id p, hot := insert id s.hot }

def extend (s : Store) : Store := { s.put s.next none with next := s.next + 1 }

variable (s : Store) (id : Nat) (p : Option Page)

@[simp] theorem put_view_self : (s.put id p).view id = p := Function.update_self ..
@[simp] theorem put_hot : (s.put id p).hot = insert id s.hot := rfl
@[simp] theorem put_io : (s.put id p).io = s.io := rfl
@[simp] theorem put_next : (s.put id p).next = s.next := rfl
@[simp] theorem put_room : (s.put id p).room = s.room := rfl
@[simp] theorem put_cipher : (s.put id p).cipher = s.cipher := rfl
@[simp] theorem extend_hot : s.extend.hot = insert s.next s.hot := rfl
@[simp] theorem extend_io : s.extend.io = s.io := rfl
@[simp] theorem extend_next : s.extend.next = s.next + 1 := rfl
@[simp] theorem extend_room : s.extend.room = s.room := rfl
@[simp] theorem extend_cipher : s.extend.cipher = s.cipher := rfl
@[simp] theorem extend_view_self : s.extend.view s.next = none := Function.update_self ..

theorem put_view_ne {id x : Nat} (h : x ≠ id) : (s.put id p).view x = s.view x :=
  Function.update_of_ne h ..

theorem extend_view_ne {x : Nat} (h : x ≠ s.next) : s.extend.view x = s.view x :=
  Function.update_of_ne h ..

theorem put_fits_iff (h : id ∈ s.hot) : (s.put id p).Fits ↔ s.Fits := by
  simp [Fits, Finset.insert_eq_self.mpr h]

end Store

/-! ### The store of a cache -/

/-- The contents of a buffer whose checksum matches. -/
def Buf.contents (b : Buf) : Option Page := if b.stamped then some b.page else none

/-- The contents of an entry; a deferred stamp is made before the page leaves memory. -/
def CacheEntry.contents (e : CacheEntry) : Option Page := e.stampDeferred.buf.contents

namespace PageCache

variable (c : PageCache)

def onDisk (id : Nat) : Option Buf :=
  (c.io.readPageUnit id).toOption.bind fun u => (openUnit c.cipher id u).toOption

def spilled (id : Nat) : Option Buf :=
  (c.ensureSpillway.rehydrate id).toOption.bind fun u => (openUnit c.cipher id u).toOption

def spillSet : Finset Nat := c.ensureSpillway.slots.keys.toFinset

def cached : Finset Nat := c.entries.keys.toFinset

def dirtySet : Finset Nat := c.dirtyIds.toFinset

/-- The contents of a page: from memory, the spillway or the file. -/
def view (id : Nat) : Option Page :=
  match c.entries.lookup id with
  | some e => e.contents
  | none => (if id ∈ c.spillSet then c.spilled id else c.onDisk id).bind Buf.contents

def spillCap : Nat := c.spillwayMaxBytes / c.payloadSize

def store : Store where
  view := c.view
  hot := c.dirtySet ∪ c.spillSet
  io := c.io
  next := c.nextPageId
  room := c.maxPages + c.spillCap
  cipher := c.cipher

/-! ### Consistency -/

/-- Only a page of zeros is without a stamp. -/
def Plain (b : Buf) : Prop := b.stamped = false → b.page = .zero

/-- An entry of page `id` agrees with the rest of the cache: a clean one with the page `disk` in
the file, and none is also in the spillway. -/
structure EntryOk (disk : Option Buf) (spills : Finset Nat) (next : Nat) (id : Nat)
    (e : CacheEntry) : Prop where
  clean : e.dirty = false → e.needsStamp = false ∧ disk = some e.buf
  deferred : e.needsStamp = true → e.buf.page.isData = true
  plain : Plain e.stampDeferred.buf
  not_spilled : id ∉ spills
  bounded : id < next

/-- The spillway agrees with the rest of the cache. -/
structure SpillOk (maxBytes payload : Nat) (cipher : Option Dek) (next : Nat) (spw : Spillway) :
    Prop where
  maxBytes_eq : spw.maxBytes = maxBytes
  payload_eq : spw.payloadSize = payload
  bytes : spw.slotCount * payload ≤ maxBytes
  slot : ∀ id i, spw.slots.lookup id = some i →
    i < spw.nextSlotIndex ∧ id < next ∧ ∃ b, Plain b ∧ spw.cells i = some (id, sealPage cipher id b)

structure WF : Prop where
  lru_nodup : c.lru.Nodup
  mem_lru : ∀ id, id ∈ c.lru ↔ id ∈ c.cached
  dirty_count : c.dirtyCount = c.dirtySet.card
  entry : ∀ id e, c.entries.lookup id = some e →
    EntryOk (c.onDisk id) c.spillSet c.nextPageId id e
  spill : SpillOk c.spillwayMaxBytes c.payloadSize c.cipher c.nextPageId c.ensureSpillway
  aligned : c.io.stride = c.io.fileStride
  max_pos : 0 < c.maxPages

end PageCache

end Chisel
