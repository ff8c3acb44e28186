import Chisel.Runs
import Chisel.TableMap

/-! What a handle shows, read off its pages: the entry, the value and the tags of each handle, found
by following the pointers from the roots. -/

namespace Chisel

open StateError PageCache TransactionManager RadixTree Ledger

/-- The bytes of `n` pages of a chain, from one of them on. -/
def chainBytes (view : Nat → Option Page) : Nat → Nat → Bytes
  | 0, _ => []
  | n + 1, id =>
    match view id with
    | some (.overflow _ next payload) => payload ++ chainBytes view n next
    | _ => []

/-- The value that an entry leads to. -/
def HandleEntry.valueIn (view : Nat → Option Page) (e : HandleEntry) : Bytes :=
  match e.flags, view e.pageId with
  | .live, some p => (DataPage.read p e.slotIndex).getD []
  | .overflow, some (.overflow total _ _) => chainBytes view (Overflow.pagesFor total) e.pageId
  | _, _ => []

namespace TransactionManager

/-- The entry of a handle; that of a handle that is not live is a tombstone. -/
def entryOf (m : TransactionManager) : Nat → HandleEntry :=
  handleLayout.mapAt m.cache.store.view m.htDepth m.readRoots.handleTablePage

/-- Value, tag and client byte of a live handle. -/
def record (m : TransactionManager) (handle : Nat) : Option (Bytes × Nat × UInt8) :=
  let e := m.entryOf handle
  if e.flags = .deleted then none
  else some (e.valueIn m.cache.store.view, e.tag, e.clientByte)

def hasTag (m : TransactionManager) (tag handle : Nat) : Prop :=
  ∃ value byte, m.record handle = some (value, tag, byte)

def indexed (m : TransactionManager) (tag handle : Nat) : Bool :=
  let word := radixU64.mapAt m.cache.store.view m.outerDepth m.readRoots.membershipIndexPage tag
  let inner := MembershipIndex.unpackInner word
  word != 0 && radixU64.mapAt m.cache.store.view inner.2 inner.1 handle != 0

end TransactionManager

/-! ### The version -/

theorem ChainRep.bytes {view : Nat → Option Page} {total : Nat} {ids : List Nat} {rest : Bytes}
    (h : ChainRep view total ids rest) : chainBytes view ids.length (ids.headD 0) = rest := by
  induction ids generalizing rest with
  | nil => exact Eq.symm h
  | cons id ids ih =>
    obtain ⟨-, hpage, hrest⟩ := h
    rw [List.length_cons, chainBytes, List.headD_cons, hpage]
    show rest.take Overflow.payloadSize ++ chainBytes view ids.length (ids.headD 0) = rest
    rw [ih hrest, List.take_append_drop]

theorem Placed.valueIn {view : Nat → Option Page} {e : HandleEntry} {value : Bytes} {ids : List Nat}
    (h : Placed view e value ids) : e.valueIn view = value := by
  unfold HandleEntry.valueIn
  cases hf : e.flags with
  | live =>
    obtain ⟨-, slots, hpage, hslot⟩ := h.inline hf
    rw [hpage]
    show (slots[e.slotIndex]?).getD [] = value
    rw [hslot]
    rfl
  | overflow =>
    obtain ⟨hhead, hchain⟩ := h.chained hf
    obtain ⟨rest, rfl⟩ : ∃ rest, ids = e.pageId :: rest := List.head?_eq_some_iff.mp hhead
    have hpage := hchain.rep.2.1
    have hbytes := hchain.rep.bytes
    rw [hchain.rep.length, List.headD_cons] at hbytes
    rw [hpage]
    exact hbytes
  | deleted => exact absurd hf h.present

namespace Shown

variable {m : TransactionManager} {v : Version}

theorem entryOf_eq (h : Shown m v) : m.entryOf = v.entry := by
  unfold TransactionManager.entryOf
  rw [h.tied.depth]
  exact RadixLayout.mapAt_eq h.table_holds h.next_le h.tied.table

theorem record_eq (h : Shown m v) : m.record = v.content := by
  funext handle
  unfold TransactionManager.record Version.content
  rw [h.entryOf_eq]
  by_cases hin : handle ∈ v.live
  · rw [if_pos hin, if_neg ((h.ok.live_iff handle).mp hin), (h.ok.placed handle hin).valueIn]
  · rw [if_neg hin, if_pos (not_not.mp (mt (h.ok.live_iff handle).mpr hin))]

theorem hasTag_iff (h : Shown m v) {tag handle : Nat} (htag : tag ≠ 0) :
    m.hasTag tag handle ↔ handle ∈ v.withTag tag := by
  unfold TransactionManager.hasTag Version.withTag
  rw [h.record_eq, Finset.mem_filter]
  unfold Version.content
  by_cases hin : handle ∈ v.live
  · simp [hin, htag]
  · simp [hin]

theorem indexed_iff (h : Shown m v) {tag handle : Nat} :
    m.indexed tag handle = true ↔ handle ∈ v.withTag tag := by
  have hword : radixU64.mapAt m.cache.store.view m.outerDepth m.readRoots.membershipIndexPage tag =
      PageTree.content radixU64.shape 0 v.outerDepth v.index.outer tag := by
    rw [h.tied.outer]
    exact congrFun (RadixLayout.mapAt_eq h.index_held.outer h.next_le h.tied.index) tag
  have htags := h.ok.tags tag handle
  have hok := h.ok.index.ok
  unfold TransactionManager.indexed
  rw [hword]
  dsimp only
  rw [hok.unpack, hok.names, Index.entry, Version.withTag, Finset.mem_filter]
  by_cases ht : tag ∈ v.index.tags
  · have hpos := (hok.root_bounds tag ht).1
    have hmap := congrFun (RadixLayout.mapAt_eq (h.index_held.inner tag ht) h.next_le
      (hok.rootedAt ht)) handle
    have hne : (v.index.height tag * 2 ^ 58 + (v.index.inner tag).root != 0) = true :=
      bne_iff_ne.mpr (by omega)
    rw [if_pos ht, if_pos ht, hmap]
    change (_ != 0 && v.index.word tag handle != 0) = true ↔ _
    rw [hne, htags]
    simp
  · have hzero : v.index.word tag handle = 0 := by
      rw [Index.word, (hok.nil_iff tag).mpr ht, PageTree.content_nil]
    rw [hzero] at htags
    rw [if_neg ht, if_neg ht]
    refine iff_of_false (by simp) fun hin => ?_
    rw [if_pos hin] at htags
    cases htags

end Shown

theorem Sane.shown {past : Past} {m : TransactionManager} (h : Sane past m)
    (hp : m.poisoned = false) :
    ∃ v, Shown m v := by
  cases h with
  | idle hO => exact ⟨_, hO.shown⟩
  | running hR => exact ⟨_, hR.txn.shown⟩
  | dead hpo => exact absurd (hp.symm.trans hpo) nofun

end Chisel
