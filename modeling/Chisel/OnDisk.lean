import Chisel.CommitSpec

/-! What a database file holds, apart from any handle on it: the newest superblock, the version and
the free map that it leads to. A transaction does not change this before its superblock is written,
so whatever becomes of the handle, the file still holds the state that was committed last. -/

namespace Chisel

open StateError PageCache RadixTree Ledger Device

def fileView (cipher : Option Dek) (cell : Nat → DiskUnit) (x : Nat) : Option Page :=
  (openUnit cipher x (cell x)).toOption.bind Buf.contents

theorem Store.disk_eq {s : Store} (h : s.io.Aligned) :
    s.disk = fileView s.cipher s.io.image.cell := by
  funext x
  unfold Store.disk fileView
  rw [diskBuf_cell h]

/-- The file holds the version `v` and the free map `t` under the superblock `h`. -/
structure OnDisk (h : Head) (cell : Nat → DiskUnit) (v : Version) (t : PageTree Bool) : Prop where
  headed : Headed h cell
  ok : v.Ok (fileView h.cipher cell)
  tied : Tied h.roots v.depth v.outerDepth v
  map : PageTree.Rep fmShape (fmRead (fileView h.cipher cell)) h.roots.freemapDepth t
  mapDepth_le : h.roots.freemapDepth ≤ FreeMapTree.maxDepth
  map_nil : t = .nil → h.roots.freemapPage = pageIdNone
  map_eq : t ≠ .nil → h.roots.freemapPage = t.root
  slots_le : h.slots ≤ h.roots.totalPages
  total_le : h.roots.totalPages ≤ u64Max
  once : ∀ x, v.own x + t.count fmShape x +
    (PageTree.content fmShape false h.roots.freemapDepth t x).toNat ≤
      between h.slots h.roots.totalPages x

namespace OnDisk

variable {h : Head} {cell cell' : Nat → DiskUnit} {v : Version} {t : PageTree Bool} {x : Nat}

theorem two_le (hd : OnDisk h cell v t) : 2 ≤ h.slots := hd.headed.two_le

theorem bounds (hd : OnDisk h cell v t) (hx : 0 < v.own x + t.count fmShape x) :
    h.slots ≤ x ∧ x < h.roots.totalPages := by
  have h1 := hd.once x
  have hpos : 0 < between h.slots h.roots.totalPages x := by omega
  exact between_pos.mp hpos

theorem frame (hd : OnDisk h cell v t) (hheaded : Headed h cell')
    (hcell : ∀ x, 0 < v.own x + t.count fmShape x → cell' x = cell x) :
    OnDisk h cell' v t := by
  have hview : ∀ x, 0 < v.own x + t.count fmShape x →
      fileView h.cipher cell' x = fileView h.cipher cell x := by
    intro x hx
    unfold fileView
    rw [hcell x hx]
  refine { hd with
    headed := hheaded
    ok := hd.ok.frame fun x hx => hview x (by omega)
    map := hd.map.frame fun x hx => ?_ }
  unfold fmRead
  rw [hview x (by omega)]

end OnDisk

section Managers

variable {ex ex0 : Prop} {m m0 : TransactionManager} {v : Version} {t : PageTree Bool}
  {lost lost0 : Nat → Nat} {g : Ghost}

theorem Opened.onDisk (h : Opened ex m v t lost) :
    OnDisk m.head m.cache.store.io.image.cell v t := by
  have hview : m.cache.store.view = fileView m.cache.store.cipher m.cache.store.io.image.cell := by
    rw [← Store.disk_eq h.wf.io_aligned]
    funext x
    refine h.wf.view_of_cold ?_
    rw [h.cold]
    exact Finset.notMem_empty x
  have hok := h.alloc.rooted
  refine ⟨h.headed, ?_, ?_, ?_, hok.depth_le, hok.root_nil, hok.root_eq, h.lo_le.trans h.next_le,
    h.total_le.trans h.bounded, fun x => ?_⟩
  · have := h.ok
    rw [hview] at this
    exact this
  · exact { h.tied with depth := rfl, outer := rfl }
  · have hrep := hok.ok.rep
    change PageTree.Rep fmShape (fmRead m.cache.store.view) _ t at hrep
    rw [hview] at hrep
    exact hrep
  · have hl := h.ledger x
    have hadd := between_add h.lo_le h.next_le x
    unfold tally at hl
    change v.own x + _ + (fmBits m.begun.takeTree t x).toNat ≤
      between m.superblockCount m.committedRoots.totalPages x
    omega

theorem Opened.onDisk_touched (h : Opened ex m0 v t lost) {io : PageIo}
    (ht : Touched (m0.origin v t) io) : OnDisk m0.head io.image.cell v t := by
  refine h.onDisk.frame (h.headed.touched rfl ht) fun x hx => ?_
  obtain ⟨es, rfl, hes⟩ := ht
  rw [PageIo.recordAll_fields]
  exact Image.replay_cell_of_spares (fun e he => (hes e he).1) _ (.inr hx)

/-- In the middle of a transaction, the file holds what was committed before it. -/
theorem Txn.onDisk (hO : Opened ex0 m0 v t lost0) (h : Txn ex (m0.origin v t) m g) :
    OnDisk m0.head m.cache.store.io.image.cell v t :=
  hO.onDisk_touched (h.core.anchored.touched hO.toIdle)

end Managers

end Chisel
