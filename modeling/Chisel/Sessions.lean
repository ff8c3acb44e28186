import Chisel.Creation
import Chisel.KeySpec
import Chisel.Poison

/-! A session. Between any two operations its handle is between two transactions, inside one, or
was shut down by a commit that failed; whatever the operations answer, the file holds the state
that was committed last. -/

namespace Chisel

open StateError PageCache TransactionManager RadixTree Ledger Device

/-! ### The file -/

/-- The file holds the version `v` and the free map `t` under the superblock `h`. -/
structure FileHolds (h : Head) (f : DbFile) (v : Version) (t : PageTree Bool) : Prop
    extends OnDisk h f.image.cell v t where
  slots_le_len : h.slots ≤ f.image.len
  len_le : f.image.len ≤ u64Max
  stride : f.fileStride = strideOf h.cipher

/-- The cells that the file must keep. -/
def Head.Kept (h : Head) (v : Version) (t : PageTree Bool) (x : Nat) : Prop :=
  x < h.slots ∨ 0 < v.own x + t.count fmShape x

/-- The event leaves alone what the file must keep. -/
def Head.Spared (h : Head) (v : Version) (t : PageTree Bool) (e : Event DiskUnit) : Prop :=
  e.Spares (h.Kept v t) ∧ NoSuper e ∧ e.Below u64Max

/-- The file since the device held the image `b`: everything up to some sync makes it a file that
holds `v` and `t` under the superblock `h`, and everything after it spares them. -/
structure Moored (b : Image DiskUnit) (h : Head) (v : Version) (t : PageTree Bool) (f : DbFile) :
    Prop where
  image : f.image = b.replay f.trace
  kept : ∃ kept tail, f.trace = kept ++ tail ∧ synced kept = kept ∧
    FileHolds h { f with image := b.replay kept } v t ∧ Poised h (b.replay kept).cell ∧
      ∀ e ∈ tail, h.Spared v t e

section Mooring

variable {b : Image DiskUnit} {h : Head} {v : Version} {t : PageTree Bool} {f f' : DbFile}
  {es : List (Event DiskUnit)}

theorem replay_spared (hes : ∀ e ∈ es, h.Spared v t e) (image : Image DiskUnit) :
    (∀ i < h.slots, (image.replay es).cell i = image.cell i) ∧
      ∀ i sb s, (image.replay es).cell i = .super sb s → image.cell i = .super sb s :=
  ⟨fun _ hi => Image.replay_cell_of_spares (fun e he => (hes e he).1) _ (.inl hi),
    fun _ _ _ hi => replay_super (fun e he => (hes e he).2.1) hi⟩

theorem FileHolds.spared (hf : FileHolds h f v t) (hes : ∀ e ∈ es, h.Spared v t e)
    (himage : f'.image = f.image.replay es) (hstride : f'.fileStride = f.fileStride) :
    FileHolds h f' v t := by
  obtain ⟨hslot, hsuper⟩ := replay_spared hes f.image
  have hn := hf.two_le
  have hle := hf.slots_le_len
  refine ⟨?_, ?_, ?_, hstride.trans hf.stride⟩ <;> rw [himage]
  · exact hf.toOnDisk.frame (hf.headed.frame hslot hsuper) fun x hx =>
      Image.replay_cell_of_spares (fun e he => (hes e he).1) _ (.inr hx)
  · have hlast : h.Kept v t (h.slots - 1) := .inl (by omega)
    have := Image.replay_len_gt (fun e he => (hes e he).1) hlast f.image (by omega)
    omega
  · exact Image.replay_len_le (fun e he => (hes e he).2.2) _ hf.len_le

theorem moored_of_synced (himage : f.image = b.replay f.trace) (hsync : synced f.trace = f.trace)
    (hf : FileHolds h f v t) (hp : Poised h f.image.cell) : Moored b h v t f := by
  refine ⟨himage, f.trace, [], (List.append_nil _).symm, hsync, ?_, ?_, nofun⟩
  · rw [← himage]
    exact hf
  · rw [← himage]
    exact hp

theorem Moored.spared (hm : Moored b h v t f) (hes : ∀ e ∈ es, h.Spared v t e)
    (himage : f'.image = f.image.replay es) (htrace : f'.trace = f.trace ++ es)
    (hstride : f'.fileStride = f.fileStride) : Moored b h v t f' := by
  obtain ⟨kept, tail, heq, hsync, hf, hp, htail⟩ := hm.kept
  refine ⟨?_, kept, tail ++ es, ?_, hsync, ⟨hf.toOnDisk, hf.slots_le_len, hf.len_le,
    hstride.trans hf.stride⟩, hp, fun e he => ?_⟩
  · rw [himage, htrace, hm.image, Image.replay_append]
  · rw [htrace, heq, List.append_assoc]
  · rcases List.mem_append.mp he with he | he
    · exact htail e he
    · exact hes e he

/-- Slots that no handle uses are found free when the file is opened. -/
theorem Moored.bare (hm : Moored b h v t f) : Moored b h (v.strayed fun _ => 0) t f := by
  obtain ⟨kept, tail, heq, hsync, hf, hp, htail⟩ := hm.kept
  have hown : ∀ x, (v.strayed fun _ => 0).own x ≤ v.own x := v.own_bare_le
  refine ⟨hm.image, kept, tail, heq, hsync, { hf with
    ok := hf.ok.strayed fun x hx => absurd hx (Nat.lt_irrefl 0)
    tied := hf.tied.strayed _
    once := fun x => ?_ }, hp, fun e he => ?_⟩
  · have h1 := hf.once x
    have h2 := hown x
    omega
  · have hkept : ∀ x, h.Kept (v.strayed fun _ => 0) t x → h.Kept v t x := by
      intro x hx
      refine hx.imp_right fun hx => ?_
      have := hown x
      omega
    obtain ⟨hspares, hrest⟩ := htail e he
    refine ⟨?_, hrest⟩
    cases e with
    | write i u => exact fun hi => hspares (hkept i hi)
    | setLen n => exact fun i hi => hspares i (hkept i hi)
    | sync => trivial

theorem Moored.poised (hm : Moored b h v t f) : Poised h f.image.cell := by
  obtain ⟨kept, tail, heq, -, -, hp, htail⟩ := hm.kept
  obtain ⟨hslot, hsuper⟩ := replay_spared htail (b.replay kept)
  rw [hm.image, heq, Image.replay_append]
  exact hp.frame hslot hsuper

end Mooring

section Files

variable {ex ex' ex0 : Prop} {m m' m0 : TransactionManager} {v : Version} {t : PageTree Bool}
  {lost lost0 : Nat → Nat} {g : Ghost} {c : PageCache}

theorem Opened.len (h : Opened ex m v t lost) :
    m.cache.store.io.pageCount = m.cache.io.image.len :=
  h.wf.io_aligned.pageCount

theorem Opened.slots_le_len (h : Opened ex m v t lost) :
    m.superblockCount ≤ m.cache.io.image.len := by
  rw [← h.len]
  exact (h.lo_le.trans h.next_le).trans h.total_le

theorem Opened.fileHolds (h : Opened ex m v t lost) :
    FileHolds m.head (.ofIo m.cache.io) v t where
  toOnDisk := h.onDisk
  slots_le_len := h.slots_le_len
  len_le := h.len ▸ h.bounded
  stride := h.stride

theorem Opened.fileHolds_touched (h : Opened ex m0 v t lost) {io : PageIo}
    (ht : Touched (m0.origin v t) io) : FileHolds m0.head (.ofIo io) v t := by
  obtain ⟨es, rfl, hes⟩ := ht
  rw [PageIo.recordAll_fields]
  exact h.fileHolds.spared hes rfl rfl

theorem Moored.touched {b : Image DiskUnit} {io : PageIo}
    (hm : Moored b m0.head v t (.ofIo m0.cache.io)) (ht : Touched (m0.origin v t) io) :
    Moored b m0.head v t (.ofIo io) := by
  obtain ⟨es, rfl, hes⟩ := ht
  rw [PageIo.recordAll_fields]
  exact hm.spared hes rfl rfl rfl

/-- A superblock was written and is durable. -/
theorem Opened.moored {b : Image DiskUnit} {io : PageIo} {es : List (Event DiskUnit)}
    (h : Opened ex m v t lost) (himage : io.image = b.replay io.trace)
    (hio : m.cache.io = io.recordAll es) (hes : ∃ l, es = l ++ [.sync])
    (hleads : LeadsAt m.head m.cache.io.image.cell (m.txnCounter % m.superblockCount))
    (hpos : 0 < m.txnCounter) : Moored b m.head v t (.ofIo m.cache.io) := by
  have hp : Poised m.head m.cache.io.image.cell := h.headed.poised hleads hpos
  have hf := h.fileHolds
  obtain ⟨l, rfl⟩ := hes
  rw [hio, PageIo.recordAll_fields] at hf hp ⊢
  refine moored_of_synced ?_ ?_ hf hp
  · change io.image.replay _ = b.replay (io.trace ++ _)
    rw [himage]
    exact (Image.replay_append ..).symm
  · change synced (io.trace ++ (l ++ [.sync])) = io.trace ++ (l ++ [.sync])
    rw [← List.append_assoc]
    exact synced_concat_sync _

theorem Txn.fileHolds (hO : Opened ex0 m0 v t lost0) (h : Txn ex (m0.origin v t) m g) :
    FileHolds m0.head (.ofIo m.cache.io) v t :=
  hO.fileHolds_touched (h.core.anchored.touched hO.toIdle)

/-- The superblock that the manager would write again. -/
theorem Txn.head_eq (h : Txn ex (m0.origin v t) m g) : m.head = m0.head := by
  have a := h.core.anchored
  have h1 : m.superblockCount = m0.superblockCount := a.superblocks
  have h2 : m.txnCounter = m0.txnCounter := a.counter
  have h3 : m.cache.cipher = m0.cache.cipher := a.cipher
  have h4 : m.cryptoHeader = m0.cryptoHeader := a.header
  have h5 : m.committedRoots = m0.committedRoots := a.committed
  unfold TransactionManager.head
  rw [h1, h2, h3, h4, h5]

/-! ### Between two transactions -/

theorem Opened.weaken (h : Opened ex m v t lost) (hex : ex' → ex) : Opened ex' m v t lost :=
  { h with
    exact := fun he => h.exact (hex he)
    short := fun he => h.short (hex he) }

theorem Opened.shown (h : Opened ex m v t lost) : Shown m v := by
  refine ⟨h.wf, h.alloc.sound.next_le, h.ok, fun x hx => ?_, ?_⟩
  · refine (h.toIdle.pages_lt (x := x) ?_).2
    unfold Origin.pages
    change 0 < v.own x + t.count fmShape x
    omega
  · unfold readRoots
    rw [h.inactive]
    exact h.tied

theorem Opened.reseat (h : Opened ex m v t lost) (hwf : c.WF)
    (hview : c.store.view = m.cache.store.view) (hhot : c.store.hot = m.cache.store.hot)
    (hnext : c.store.next = m.cache.store.next) (hcipher : c.cipher = m.cache.cipher)
    (himage : c.io.image = m.cache.io.image) (hstride : c.io.fileStride = m.cache.io.fileStride)
    (poisoned : Bool) : Opened ex { m with cache := c, poisoned := poisoned } v t lost := by
  have hlen : c.store.io.pageCount = m.cache.store.io.pageCount := by
    change c.io.pageCount = m.cache.io.pageCount
    rw [hwf.io_aligned.pageCount, h.wf.io_aligned.pageCount, himage]
  refine ⟨h.toIdle.reseat hwf hview (hhot.trans h.cold) hnext hlen h.next_le h.total_le
    m.txnCounter m.cryptoHeader poisoned, ?_, ?_⟩
  · have hh := h.headed
    unfold TransactionManager.head at hh ⊢
    rw [himage, hcipher]
    exact hh
  · change c.io.fileStride = strideOf c.cipher
    rw [hstride, hcipher]
    exact h.stride

theorem Opened.looked (h : Opened ex m v t lost) (hl : Looked m m') : Opened ex m' v t lost := by
  obtain ⟨c, ⟨hwf, hst⟩, rfl⟩ := hl
  have hio : c.io = m.cache.io := congrArg Store.io hst
  exact h.reseat hwf (congrArg Store.view hst) (congrArg Store.hot hst) (congrArg Store.next hst)
    (congrArg Store.cipher hst) (congrArg PageIo.image hio) (congrArg PageIo.fileStride hio)
    m.poisoned

theorem Txn.rolledBack_touched (hO : Opened ex0 m0 v t lost0) (h : Txn ex (m0.origin v t) m g)
    (hst : c.store = m.cache.store.settled.cut m.committedRoots.totalPages) :
    Touched (m0.origin v t) c.io := by
  have hcommitted : m.committedRoots = m0.committedRoots := h.core.anchored.committed
  have hio : c.io = m.cache.store.io.record (.setLen m.committedRoots.totalPages) :=
    congrArg Store.io hst
  have hcut : ∀ e ∈ ([.setLen m.committedRoots.totalPages] : List (Event DiskUnit)),
      e.Spares (m0.origin v t).Kept ∧ NoSuper e ∧ e.Below u64Max := by
    intro e he
    rw [List.mem_singleton.mp he, hcommitted]
    exact ⟨fun x hx => Nat.lt_of_lt_of_le (hO.toIdle.kept_lt hx) hO.next_le, trivial,
      hO.total_le.trans hO.bounded⟩
  rw [hio]
  exact (h.core.anchored.touched hO.toIdle).trans hcut

theorem Txn.rolledBack_head (h : Txn ex (m0.origin v t) m g)
    (hst : c.store = m.cache.store.settled.cut m.committedRoots.totalPages) :
    (m.rolledBack v c).head = m0.head := by
  have hcipher : c.cipher = m.cache.cipher := congrArg Store.cipher hst
  rw [← h.head_eq]
  unfold TransactionManager.head
  change (⟨_, _, c.cipher, _, _⟩ : Head) = _
  rw [hcipher]
  rfl

theorem Opened.rolledBack (hO : Opened ex0 m0 v t lost0) (h : Txn ex (m0.origin v t) m g)
    (hwf : c.WF) (hst : c.store = m.cache.store.settled.cut m.committedRoots.totalPages) :
    Opened ex0 (m.rolledBack v c) v t
      fun x => lost0 x + between m0.cache.store.next c.store.next x := by
  have htouched := Txn.rolledBack_touched hO h hst
  have hhead := h.rolledBack_head hst
  refine ⟨hO.toIdle.rolledBack h hwf hst, ?_, ?_⟩
  · rw [hhead]
    exact hO.headed.touched rfl htouched
  · have h1 := (hO.fileHolds_touched htouched).stride
    have h2 := congrArg Head.cipher hhead
    change c.cipher = m0.cache.cipher at h2
    change c.io.fileStride = strideOf c.cipher
    rw [h2]
    exact h1

end Files

/-! ### The states of a handle -/

/-- The operation does not cut off pages that were committed: a `rollback_to` goes to a savepoint
with a watermark that is not below the committed end of the file. -/
def TransactionManager.sparesFile (m : TransactionManager) : Op → Bool
  | .rollbackTo name => m.savepoints.all fun sp =>
    sp.name != name || decide (m.committedRoots.totalPages ≤ sp.watermark)
  | _ => true

/-- What is known of the operations so far: in the session that created the database no operation
ran out of memory or was fatal (`exact`), none ran out of memory (`plain`), none cut off pages
that were committed (`full`), and all that happened to the file since the device held an image
(`base`). -/
structure Past where
  exact : Prop
  plain : Prop
  full : Prop
  base : Option (Image DiskUnit)

namespace Past

structure Fades (past past' : Past) : Prop where
  exact : past'.exact → past.exact
  plain : past'.plain → past.plain
  full : past'.full → past.full
  base : ∀ b ∈ past'.base, b ∈ past.base

def after (past : Past) (m : TransactionManager) (op : Op) (failure : Option ChiselError) :
    Past where
  exact := past.exact ∧ ∀ e ∈ failure, e.isHard = false
  plain := past.plain ∧ ∀ e ∈ failure, e.isCapacity = false
  full := past.full ∧ m.sparesFile op = true
  base := past.base

theorem Fades.refl (past : Past) : past.Fades past := ⟨id, id, id, fun _ => id⟩

theorem fades_after (past : Past) (m : TransactionManager) (op : Op)
    (failure : Option ChiselError) : past.Fades (past.after m op failure) :=
  ⟨And.left, And.left, And.left, fun _ => id⟩

end Past

/-- A handle in a transaction that began on the manager `m0`. -/
structure Running (past : Past) (m0 : TransactionManager) (v : Version) (t : PageTree Bool)
    (lost0 : Nat → Nat) (m : TransactionManager) (g : Ghost) : Prop where
  base : Opened past.exact m0 v t lost0
  txn : Txn past.exact (m0.origin v t) m g
  plain : past.plain → m.poisoned = false →
    ∀ u, u = v ∨ u = g.cur ∨ u ∈ g.saves → u.stray = fun _ => 0
  tidy : m.poisoned = false → Tidy m g ∧ ∀ u, u = v ∨ u ∈ g.saves → u.Clean
  full : past.full → m.committedRoots.totalPages ≤ m.cache.io.image.len
  moored : ∀ b ∈ past.base, Moored b m0.head v t (.ofIo m0.cache.io)

/-- A handle between two operations. -/
inductive Sane (past : Past) (m : TransactionManager) : Prop
  | idle {v : Version} {t : PageTree Bool} {lost : Nat → Nat}
      (opened : Opened past.exact m v t lost)
    (plain : past.plain → v.stray = fun _ => 0) (clean : v.Clean)
    (moored : ∀ b ∈ past.base, Moored b m.head v t (.ofIo m.cache.io))
  | running {m0 : TransactionManager} {v : Version} {t : PageTree Bool} {lost0 : Nat → Nat}
      {g : Ghost}
    (running : Running past m0 v t lost0 m g)
  | dead {h : Head} {v : Version} {t : PageTree Bool} (poisoned : m.poisoned = true)
    (active : m.activeTxn = true) (wf : m.cache.WF) (header : h.header = m.cryptoHeader)
    (slots : h.slots = m.superblockCount)
    (alloc : ∃ t, AllocInv m.superblockCount m.takeTree t)
    (file : FileHolds h (.ofIo m.cache.io) v t)
    (full : past.full → h.roots.totalPages ≤ m.cache.io.image.len)
    (moored : ∀ b ∈ past.base, Moored b h v t (.ofIo m.cache.io))

section States

variable {past past' : Past} {m m' m0 : TransactionManager} {v : Version} {t : PageTree Bool}
  {lost lost0 : Nat → Nat} {g : Ghost}

theorem Running.fade (h : Running past m0 v t lost0 m g) (hf : past.Fades past') :
    Running past' m0 v t lost0 m g :=
  ⟨h.base.weaken hf.exact, h.txn.weaken hf.exact, fun hp => h.plain (hf.plain hp), h.tidy,
    fun hp => h.full (hf.full hp), fun b hb => h.moored b (hf.base b hb)⟩

theorem Sane.fade (h : Sane past m) (hf : past.Fades past') : Sane past' m := by
  cases h with
  | idle hO hplain hclean hb =>
    exact .idle (hO.weaken hf.exact) (fun hp => hplain (hf.plain hp)) hclean
      fun b h => hb b (hf.base b h)
  | running hR => exact .running (hR.fade hf)
  | dead hp ha hwf hh hn halloc hfile hfull hb =>
    exact .dead hp ha hwf hh hn halloc hfile (fun h => hfull (hf.full h))
      fun b h => hb b (hf.base b h)

/-- The file of a handle holds the state that was committed last. -/
theorem Sane.fileHolds (h : Sane past m) :
    ∃ h v t, FileHolds h (.ofIo m.cache.io) v t ∧
      (h.header = m.cryptoHeader ∧ h.slots = m.superblockCount) ∧
      (past.full → h.roots.totalPages ≤ m.cache.io.image.len) ∧
      ∀ b ∈ past.base, Moored b h v t (.ofIo m.cache.io) := by
  cases h with
  | idle hO hplain hclean hb =>
    exact ⟨_, _, _, hO.fileHolds, ⟨rfl, rfl⟩, fun _ => hO.len ▸ hO.total_le, hb⟩
  | running hR =>
    refine ⟨_, _, _, hR.txn.fileHolds hR.base, ?_, fun hp => ?_, fun b hb => ?_⟩
    · rw [← hR.txn.head_eq]
      exact ⟨rfl, rfl⟩
    · rw [← hR.txn.head_eq]
      exact hR.full hp
    · exact (hR.moored b hb).touched (hR.txn.core.anchored.touched hR.base.toIdle)
  | dead hp ha hwf hh hn _ hfile hfull hb => exact ⟨_, _, _, hfile, ⟨hh, hn⟩, hfull, hb⟩

end States

end Chisel
