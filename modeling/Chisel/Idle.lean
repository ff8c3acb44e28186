import Chisel.Savepoints

/-! A manager between two transactions, and the way into a transaction and back out of it without a
commit. -/

namespace Chisel

open StateError PageCache TransactionManager RadixTree Ledger

def TransactionManager.begun (m : TransactionManager) : TransactionManager :=
  { m with
    currentRoots := m.committedRoots
    freemap := m.freemap.begin
    txnPages := .empty
    packer := m.packer.begin
    activeTxn := true
    savepoints := []
    txnFreedPages := [] }

/-- A manager between two transactions. Nothing is written that is not in the file, and every page
belongs to the committed version, to the free map or to nobody. -/
structure Idle (ex : Prop) (m : TransactionManager) (v : Version) (t : PageTree Bool)
    (lost : Nat → Nat) : Prop where
  inactive : m.activeTxn = false
  cold : m.cache.store.hot = ∅
  alloc : AllocInv m.superblockCount m.begun.takeTree t
  ok : v.Ok m.cache.store.view
  tied : Tied m.committedRoots m.htDepth m.outerDepth v
  ledger : ∀ x, v.own x + tally m.begun.takeTree t x + lost x =
    between m.superblockCount m.cache.store.next x
  exact : ex → ∀ x, lost x = 0
  counts : Counts m.packer.committedLiveSlots v.slots
  next_le : m.cache.store.next ≤ m.committedRoots.totalPages
  total_le : m.committedRoots.totalPages ≤ m.cache.store.io.pageCount
  bounded : m.cache.store.io.pageCount ≤ u64Max
  short : ex → m.cache.store.io.pageCount ≤ m.cache.store.next
  map : m.currentRoots.freemapPage = m.committedRoots.freemapPage ∧
    m.currentRoots.freemapDepth = m.committedRoots.freemapDepth

def TransactionManager.origin (m : TransactionManager) (v : Version) (t : PageTree Bool) : Origin :=
  ⟨m.begun, v, t⟩

namespace Idle

variable {ex : Prop} {m : TransactionManager} {v : Version} {t : PageTree Bool} {lost : Nat → Nat}
  {x : Nat}

theorem wf (h : Idle ex m v t lost) : m.cache.WF := h.alloc.sound.wf

theorem lo_le (h : Idle ex m v t lost) : m.superblockCount ≤ m.cache.store.next :=
  h.alloc.rooted.ok.lo_le

theorem pages_lt (h : Idle ex m v t lost) (hx : 0 < (m.origin v t).pages x) :
    m.superblockCount ≤ x ∧ x < m.cache.store.next := by
  have hl := h.ledger x
  have hpos : 0 < between m.superblockCount m.cache.store.next x := by
    unfold Origin.pages at hx
    unfold tally at hl
    change 0 < v.own x + t.count fmShape x at hx
    omega
  exact between_pos.mp hpos

theorem fixed (h : Idle ex m v t lost) (hx : 0 < (m.origin v t).pages x) :
    ¬ Writable true m.begun.takeTree t x := by
  have hlt := (h.pages_lt hx).2
  have hl := h.ledger x
  have hle := between_le m.superblockCount m.cache.store.next x
  unfold Origin.pages at hx
  change 0 < v.own x + t.count fmShape x at hx
  rintro (hw | ⟨-, hw | hw | hw | hw⟩)
  · exact absurd hlt (Nat.not_lt.mpr hw)
  · have := count_pos.mpr hw
    unfold tally at hl
    omega
  · exact absurd hw List.not_mem_nil
  · have hbit : (fmBits m.begun.takeTree t x).toNat = 1 := by rw [hw]; rfl
    unfold tally at hl
    omega
  · exact absurd hw (Finset.notMem_empty x)

theorem begun (h : Idle ex m v t lost) (hro : m.cache.io.readOnly = false) :
    Txn ex (m.origin v t) m.begun ⟨v, t, lost, [], 0⟩ := by
  refine ⟨⟨⟨rfl, rfl, rfl, rfl, rfl, rfl, rfl, h.lo_le, rfl, rfl, rfl, hro, [], rfl, nofun⟩,
    h.alloc, h.ok, fun x => ?_, h.exact, fun x hx => absurd hx (Nat.lt_irrefl 0), h.counts, nofun,
    fun x hx => absurd hx (Nat.lt_irrefl 0), fun x hx => ⟨rfl, ?_, h.fixed hx, ?_, ?_⟩,
    fun x hx => .inl hx, le_rfl, fun x h1 h2 => ?_, fun x hx => ?_, h.bounded, h.short,
    .nil rfl rfl rfl⟩,
    h.tied⟩
  · exact h.ledger x
  · change x ∉ m.cache.store.hot
    rw [h.cold]
    exact Finset.notMem_empty x
  · exact Finset.notMem_empty x
  · exact hx
  · have h3 := h.next_le.trans h.total_le
    change m.cache.store.io.pageCount ≤ x at h1
    change x < m.cache.store.next at h2
    omega
  · change x ∈ m.cache.store.hot at hx
    rw [h.cold] at hx
    exact absurd hx (Finset.notMem_empty x)

end Idle

/-! ### Rollback -/

theorem AllocInv.transfer {lo : Nat} {s s' : AllocCtx} {t : PageTree Bool} (h : AllocInv lo s t)
    (hwf : s'.cache.WF) (hnext : s.store.next ≤ s'.store.next) (hmax : s'.store.next ≤ u64Max)
    (hview : ∀ x, 0 < t.count fmShape x → s'.store.view x = s.store.view x)
    (htree : s'.tree = s.tree) (hh : s'.hint = s.hint)
    (hr : s'.structuralReuse = s.structuralReuse)
    (hp : s'.pool.recyclable = []) : AllocInv lo s' t := by
  have hok := h.rooted.ok
  have hbits : fmBits s' t = fmBits s t := fmBits_congr (by rw [htree]) fun _ => rfl
  have hbetween := between_add hok.lo_le hnext
  refine ⟨⟨⟨⟨hwf, hmax⟩, hok.lo_pos, hok.lo_le.trans hnext, ?_, fun x => ?_⟩, ?_, ?_, ?_⟩,
    fun x => ?_, ?_, ?_, ?_⟩
  · rw [htree]
    refine hok.rep.frame fun x hx => ?_
    unfold fmRead
    rw [hview x hx]
  · rw [hr, htree]
    have h1 := hok.once x
    have h2 := hbetween x
    omega
  · rw [htree]
    exact h.rooted.depth_le
  · rw [htree]
    exact h.rooted.root_nil
  · rw [htree]
    exact h.rooted.root_eq
  · have h1 := h.once x
    have h2 := hbetween x
    unfold tally at h1 ⊢
    rw [hbits, hr, hp, htree, List.count_nil]
    omega
  · rw [htree]
    exact h.session
  · rw [hp]
    exact fun x hx => absurd hx List.not_mem_nil
  · rw [hbits, hh]
    exact h.hinted

/-- The manager after `rollback`; `c` is the cache that was emptied and cut. -/
def TransactionManager.rolledBack (m : TransactionManager) (v : Version) (c : PageCache) :
    TransactionManager :=
  { m with
    cache := c
    currentRoots := m.committedRoots
    outerDepth := v.outerDepth
    htDepth := v.depth
    freemap := m.freemap.rollback
    txnPages := .empty
    packer := m.packer.rollback
    activeTxn := false
    savepoints := []
    txnFreedPages := [] }

section Rollback

variable {ex ex0 : Prop} {m m0 : TransactionManager} {v : Version} {t : PageTree Bool}
  {lost0 : Nat → Nat} {g : Ghost} {c : PageCache} {x : Nat}

theorem Txn.disk_committed (h : Txn ex (m0.origin v t) m g) (hx : 0 < (m0.origin v t).pages x) :
    m.cache.store.disk x = m0.cache.store.view x := by
  have hf := h.core.frozen x hx
  rw [← h.core.wf.view_of_cold hf.cold]
  exact hf.view

theorem Idle.rolledBack (hI : Idle ex0 m0 v t lost0) (h : Txn ex (m0.origin v t) m g) (hwf : c.WF)
    (hst : c.store = m.cache.store.settled.cut m.committedRoots.totalPages) :
    Idle ex0 (m.rolledBack v c) v t
      fun x => lost0 x + between m0.cache.store.next c.store.next x := by
  have a := h.core.anchored
  have htotal : m.committedRoots = m0.committedRoots := a.committed
  have hcount : m.superblockCount = m0.superblockCount := a.superblocks
  have hnext : c.store.next = min m.cache.store.next m0.committedRoots.totalPages := by
    rw [hst, htotal]
    rfl
  have hge : m0.cache.store.next ≤ c.store.next := by
    rw [hnext]
    exact Nat.le_min.mpr ⟨h.core.next_ge, hI.next_le⟩
  have hlen : c.store.io.pageCount = m0.committedRoots.totalPages := by
    rw [hst, pageCount_cut _ (show m.cache.store.settled.io.Aligned from h.core.wf.io_aligned),
      htotal]
  have hview : ∀ x, 0 < (m0.origin v t).pages x → c.store.view x = m0.cache.store.view x := by
    intro x hx
    have hlt := (hI.pages_lt hx).2
    rw [hst]
    change (if x < m.committedRoots.totalPages then m.cache.store.disk x else none) = _
    rw [if_pos (by rw [htotal]; exact Nat.lt_of_lt_of_le hlt hI.next_le)]
    exact h.disk_committed hx
  have hpages : ∀ x, (m0.origin v t).pages x = v.own x + t.count fmShape x := fun _ => rfl
  have hreuse : m.freemap.pendingStructuralFrees = m0.freemap.pendingStructuralFrees :=
    a.pendingFrees
  have htree : (m.rolledBack v c).begun.takeTree.tree = m0.begun.takeTree.tree := by
    change FreeMapTree.mk m.committedRoots.freemapPage m.committedRoots.freemapDepth [] ∅ = _
    rw [htotal]
    rfl
  have hbits : fmBits (m.rolledBack v c).begun.takeTree t = fmBits m0.begun.takeTree t :=
    fmBits_congr (by rw [htree]) fun _ => rfl
  have htally : ∀ x, tally (m.rolledBack v c).begun.takeTree t x = tally m0.begun.takeTree t x := by
    intro x
    have hr : (m.rolledBack v c).begun.takeTree.structuralReuse =
        m0.begun.takeTree.structuralReuse := hreuse
    unfold tally
    rw [hbits, htree, hr]
    rfl
  refine ⟨rfl, ?_, ?_, hI.ok.frame fun x hx => hview x (by rw [hpages]; omega), ?_, fun x => ?_,
    fun he x => ?_, ?_, ?_, ?_, ?_, fun he => ?_, ⟨rfl, rfl⟩⟩
  · change c.store.hot = ∅
    rw [hst]
    rfl
  · change AllocInv m.superblockCount _ t
    rw [hcount]
    have hhint : m.freemap.hintAtBegin = m0.freemap.hint := a.hintAtBegin
    refine hI.alloc.transfer hwf hge ?_ (fun x hx => hview x (by rw [hpages]; omega)) htree hhint
      hreuse rfl
    change c.store.next ≤ u64Max
    rw [hnext]
    exact (Nat.min_le_left ..).trans h.core.next_le
  · change Tied m.committedRoots v.depth v.outerDepth v
    rw [htotal]
    exact { hI.tied with depth := rfl, outer := rfl }
  · have h1 := hI.ledger x
    have h2 := between_add hI.lo_le hge x
    rw [htally]
    change v.own x + _ + (lost0 x + _) = between m.superblockCount c.store.next x
    rw [hcount]
    omega
  · have h1 := hI.exact he x
    have h2 := hI.short he
    have h3 := hI.total_le
    have h4 := hI.next_le
    have h5 : c.store.next = m0.cache.store.next := by omega
    change lost0 x + between m0.cache.store.next c.store.next x = 0
    rw [h1, h5, between_self]
  · change Counts m.packer.committedLiveSlots v.slots
    have hlive : m.packer.committedLiveSlots = m0.packer.committedLiveSlots := a.liveSlots
    rw [hlive]
    exact hI.counts
  · change c.store.next ≤ m.committedRoots.totalPages
    rw [htotal, hnext]
    exact Nat.min_le_right ..
  · change m.committedRoots.totalPages ≤ c.store.io.pageCount
    rw [hlen, htotal]
  · change c.store.io.pageCount ≤ u64Max
    rw [hlen]
    exact hI.total_le.trans hI.bounded
  · change c.store.io.pageCount ≤ c.store.next
    have h2 := hI.short he
    have h3 := hI.total_le
    have h4 := hI.next_le
    omega

theorem Txn.wp_rollbackInner (hI : Idle ex0 m0 v t lost0) (h : Txn ex (m0.origin v t) m g) :
    wp rollbackInner m
      (fun _ m' => ∃ c, c.WF ∧ c.store = m.cache.store.settled.cut m.committedRoots.totalPages ∧
        m' = m.rolledBack v c ∧
        Idle ex0 m' v t fun x => lost0 x + between m0.cache.store.next c.store.next x)
      (fun _ _ => False) := by
  unfold rollbackInner
  rw [wp_bind, wp_requireActive h.core.anchored.active, wp_bind, wp_withCache]
  refine wp_imp (wp_discardAllDirty h.core.wf (E := fun _ _ => False)) ?_
  rintro - c1 ⟨hwf1, hst1⟩
  have hro : c1.io.readOnly = false := by
    change c1.store.io.readOnly = false
    rw [hst1]
    exact h.core.anchored.writes
  rw [wp_bind, wp_get, wp_bind, wp_withCache]
  refine wp_imp (wp_truncate hwf1 hro m.committedRoots.totalPages (E := fun _ _ => False)) ?_
  rintro - c2 ⟨hwf2, hst2⟩
  rw [hst1] at hst2
  rw [wp_bind, wp_modify, wp_bind]
  have hidle := hI.rolledBack h hwf2 hst2
  set m2 : TransactionManager :=
    { m with cache := c2, currentRoots := m.committedRoots } with hm2
  have hres : Resides m2.cache v :=
    ⟨hwf2, hidle.alloc.sound.next_le, hidle.ok, fun x hx => (hidle.pages_lt (by
      unfold Origin.pages
      change 0 < v.own x + t.count fmShape x
      omega)).2⟩
  refine wp_mono (wp_recoverDepths hres hidle.tied.table hidle.tied.index) ?_ ?_
  · rintro - m3 ⟨c3, hc3, rfl⟩
    rw [wp_modify]
    have hst3 := hc3.2.trans hst2
    have hidle3 := hI.rolledBack h hc3.1 hst3
    exact ⟨c3, hc3.1, hst3, rfl, hidle3⟩
  · rintro e m3 ⟨⟨-, hfull⟩, -⟩
    refine hfull ?_
    change c2.store.Fits
    rw [hst2]
    exact Nat.zero_le _

end Rollback

end Chisel
