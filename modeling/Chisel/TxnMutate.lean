import Chisel.TxnOps

/-! Changing and deleting values inside a transaction. The old value is given up only after the new
table is complete. -/

namespace Chisel

open StateError PageCache TransactionManager RadixTree Ledger

/-! ### The old value -/

section OldValue

variable {ex : Prop} {o : Origin} {m m' : TransactionManager} {g : Ghost} {held : Nat → Nat}
  {v : Version} {handle : Nat} {e : HandleEntry}

/-- What belongs to an entry: a slot, or the pages of a chain. -/
def oldRelease (e : HandleEntry) (chain : List Nat) : OldRelease :=
  if e.flags = .live then .inline e.pageId else .overflow chain

theorem Shown.wp_collectRelease (hwf : m.cache.WF) (hv : v.Ok m.cache.store.view)
    (hlt : ∀ x, 0 < v.own x → x < m.cache.store.next) (hin : handle ∈ v.live) :
    wp (collectRelease (v.entry handle)) m
      (fun r m' => Looked m m' ∧ r = oldRelease (v.entry handle) (v.chain handle))
      (Refused m fun _ => False) := by
  have hp := hv.placed handle hin
  unfold collectRelease oldRelease
  cases hf : (v.entry handle).flags with
  | live =>
    rw [if_pos rfl]
    exact wp_ret ⟨⟨m.cache, ⟨hwf, rfl⟩, rfl⟩, rfl⟩
  | overflow =>
    obtain ⟨hhead, hchain⟩ := hp.chained hf
    rw [wp_bind, if_neg nofun]
    refine wp_imp (wp_looking _ (wp_collectChainPages hwf hchain (fun x hx => hlt x
      (Nat.lt_of_lt_of_le (count_pos.mpr hx) (Version.chain_le_own hin))) hhead)) ?_
    rintro ids m' ⟨hl, rfl⟩
    exact wp_ret ⟨hl, rfl⟩
  | deleted => exact absurd hf hp.present

/-- Giving up the old value: its slot is counted no more, and its pages are freed. -/
theorem applyRelease_spec {n : Nat → Nat} (hc : Counts m.packer.currentLiveSlots n)
    {chain : List Nat} (hpos : e.flags = .live → 0 < n e.pageId ∧ chain = []) :
    ∃ added, Booked m (m.applyRelease (oldRelease e chain)) added ∧
      (∀ x, (m.applyRelease (oldRelease e chain)).txnFreedPages.count x =
        m.txnFreedPages.count x + added x) ∧
      Counts (m.applyRelease (oldRelease e chain)).packer.currentLiveSlots
        (fun x => n x - e.slotAt x) ∧
      (∀ x, min 1 (n x - e.slotAt x) + added x = min 1 (n x) + chain.count x) ∧
      ∀ x, (m.applyRelease (oldRelease e chain)).packer.insertCursor = some x →
        m.packer.insertCursor = some x ∧ (0 < n x → 0 < n x - e.slotAt x) := by
  by_cases hf : e.flags = .live
  · obtain ⟨hid, rfl⟩ := hpos hf
    have hr : m.applyRelease (oldRelease e []) = m.releaseDataSlot e.pageId := by
      unfold oldRelease
      rw [if_pos hf]
      rfl
    have hslot : e.slotAt = one e.pageId := funext fun x => e.slotAt_of_live hf x
    obtain ⟨h1, h2, h3, -⟩ := hc.released hid
    rw [hr, hslot]
    exact ⟨_, booked_releaseDataSlot e.pageId m, fun x => List.count_append .., h1, h2, h3⟩
  · have hr : m.applyRelease (oldRelease e chain) =
        { m with txnFreedPages := m.txnFreedPages ++ chain } := by
      unfold oldRelease
      rw [if_neg hf]
      rfl
    have hslot : e.slotAt = fun _ => 0 := funext fun x => e.slotAt_of_not_live hf x
    rw [hr, hslot]
    exact ⟨_, booked_freed chain m, fun x => List.count_append .., hc, fun x => rfl,
      fun x hx => ⟨hx, id⟩⟩

theorem Core.abandon (h : Core ex o m g held) : ∃ g', Residue o m g m g' := by
  have hp : Peeked m.takeTree m.takeTree := .of_cache h.wf rfl
  have hm : Loses m.reuse o.lo m.takeTree g.tree m.takeTree := (Lends.refl h.alloc).loses
  have h1 := h.lose hm
  rwa [putTree_peeked hp] at h1

theorem Version.Ok.retags_same {view : Nat → Option Page} (h : v.Ok view) (hin : handle ∈ v.live)
    (htag : e.tag = (v.entry handle).tag) : v.Retags handle True e v.index := by
  intro τ k
  by_cases hk : k = handle
  · subst hk
    rw [if_pos rfl, h.tags, htag]
    simp [hin]
  · rw [if_neg hk]

end OldValue

/-! ### The client byte -/

section ClientByte

variable {ex : Prop} {o : Origin} {m : TransactionManager} {g : Ghost} {handle : Nat}
  {byte : UInt8}

theorem Version.Ok.table_ne_nil {v : Version} {view : Nat → Option Page} (h : v.Ok view)
    (hin : handle ∈ v.live) : v.table ≠ .nil := by
  intro hnil
  have hp := (h.live_iff handle).mp hin
  unfold Version.entry at hp
  rw [hnil, PageTree.content_nil] at hp
  exact hp rfl

/-- A new entry of a live handle leaves the index and the next handle alone. -/
theorem Tied.put {m2 m' : TransactionManager} {v : Version} {value : Bytes} {ids : List Nat}
    {table : PageTree HandleEntry} {root : Nat}
    (h : Tied m.currentRoots m.htDepth m.outerDepth v) (hin : handle ∈ v.live)
    (hroot : root = table.root) (hne : table ≠ .nil)
    (hidx : m2.currentRoots.membershipIndexPage = m.currentRoots.membershipIndexPage)
    (hnext : m2.currentRoots.nextHandle = m.currentRoots.nextHandle)
    (hroots : m'.currentRoots = { m2.currentRoots with handleTablePage := root } ∧
      m'.htDepth = m2.htDepth ∧ m'.outerDepth = m2.outerDepth) :
    Tied m'.currentRoots m'.htDepth m'.outerDepth
      (v.put handle value ids m2.htDepth table m2.outerDepth v.index) := by
  obtain ⟨hr, hd, hod⟩ := hroots
  rw [hr]
  refine ⟨⟨fun hnil => absurd hnil hne, fun _ => hroot⟩, ?_, hd, hod, fun k hk => ?_, ?_⟩
  · change RootedAt m2.currentRoots.membershipIndexPage _
    rw [hidx]
    exact h.index
  · change k < m2.currentRoots.nextHandle
    rw [hnext]
    exact h.fresh k (Finset.insert_eq_self.mpr hin ▸ hk)
  · change m2.currentRoots.nextHandle ≤ _
    rw [hnext]
    exact h.next_le

/-- The new entry differs from the old one in the byte alone. -/
theorem Txn.finish_setClientByte {m2 : TransactionManager} {g2 : Ghost} {lent : Nat → Nat}
    {table : PageTree HandleEntry} {root : Nat} {freed : List Nat} (h : Txn ex o m g)
    (hin : handle ∈ g.cur.live) (h₂ : Took ex o m g (fun _ => 0) m2 g2 lent)
    (hk : g.stuck = m.savepoints.length)
    (ht : TableNext m2 g2 handle { g.cur.entry handle with clientByte := byte } root table)
    (hcount : ∀ x, table.count handleLayout.shape x + freed.count x =
      g.cur.table.count handleLayout.shape x + 0 + lent x)
    (hidx : m2.currentRoots.membershipIndexPage = m.currentRoots.membershipIndexPage)
    (hod : m2.outerDepth = m.outerDepth) :
    ∃ g', Txn ex o (retireSuperseded freed
        { m2 with currentRoots.handleTablePage := root }) g' ∧
      Became m g (retireSuperseded freed
        { m2 with currentRoots.handleTablePage := root }) g' handle
        { g.cur.entry handle with clientByte := byte }
        (some (g.cur.value handle, (g.cur.entry handle).tag, byte)) := by
  set e : HandleEntry := { g.cur.entry handle with clientByte := byte } with he
  have hok : g.cur.Ok m2.cache.store.view := by
    rw [← h₂.cur]
    exact h₂.core.cur
  have hstores : g.cur.Stores handle e m2.htDepth table := by
    rw [← h₂.cur]
    exact ht.stores
  have hindex : IndexIn m2.cache.store.view m2.outerDepth g.cur.index := by
    rw [hod, h.tied.outer]
    exact hok.index
  have hold := hok.placed handle hin
  have hplaced : Placed m2.cache.store.view e (g.cur.value handle) (g.cur.chain handle) :=
    { hold with }
  have hslotAt : ∀ x, e.slotAt x = (g.cur.entry handle).slotAt x := fun x => rfl
  have hfree : e.flags = .live → g.cur.SlotFree handle e := by
    intro hf k hk hne hkf hpage hslot
    exact hne (hok.apart k hk handle hin hkf hf hpage hslot)
  set put := g.cur.put handle (g.cur.value handle) (g.cur.chain handle) m2.htDepth table
    m2.outerDepth g.cur.index with hput
  have hslots : ∀ x, put.slots x = g.cur.slots x := by
    intro x
    have h1 : put.slots x + (g.cur.entry handle).slotAt x = g.cur.slots x + e.slotAt x :=
      Version.slots_put hok hstores x
    rw [hslotAt] at h1
    omega
  have hsum : ∀ x, put.own x + freed.count x = g2.cur.own x + (0 + lent x) := by
    intro x
    have h1 : put.own x + _ = _ := Version.own_put hok hstores x
    rw [hslotAt, Nat.add_sub_cancel] at h1
    have h2 := hcount x
    rw [h₂.cur]
    unfold Version.own at h1 ⊢
    omega
  have hcounts : Counts m2.packer.currentLiveSlots put.slots := by
    refine h₂.core.counts.congr fun x => ?_
    rw [hslots, h₂.cur]
  have hcursor : ∀ x, m2.packer.insertCursor = some x →
      m2.packer.insertCursor = some x ∧ 0 < put.slots x := by
    intro x hx
    rw [hslots, ← h₂.cur]
    exact ⟨hx, (h₂.core.cursor x hx).2.2.2⟩
  set m' := retireSuperseded freed
    { m2 with currentRoots.handleTablePage := root } with hm'
  have hb : Booked m2 m' fun x => freed.count x := booked_retire_roots rfl rfl
  have htied : Tied m'.currentRoots m'.htDepth m'.outerDepth put :=
    h.tied.put hin ht.root ht.ne_nil hidx h₂.names.next ⟨rfl, rfl, rfl⟩
  exact ⟨_, h.became h₂.core h₂.drawn hk (hok.put hstores ht.here hindex hplaced
    (hok.tag_le handle hin) (hok.retags_same hin rfl) hfree) hb hsum hcounts hcursor htied
    (fun hnil => absurd hnil (h.core.cur.table_ne_nil hin)) (Version.content_put hstores)
    (Version.entry_put hstores) rfl fun htidy x hx => htidy.clean x hx handle⟩

theorem Txn.wp_setClientByteInner (h : Txn ex o m g) (hhandle : handle ≤ u64Max) :
    wp (setClientByteInner handle byte) m
      (fun _ m' => handle ∈ g.cur.live ∧ SameNames m m' ∧
        ∃ g', Txn ex o m' g' ∧ Became m g m' g' handle
          { g.cur.entry handle with clientByte := byte }
          (some (g.cur.value handle, (g.cur.entry handle).tag, byte)))
      (fun e m' => (Exhausted e m'.cache.store ∨ NotLive g.cur handle e) ∧
        ∃ g', Aborted ex o m g e m' g') := by
  unfold setClientByteInner
  rw [wp_bind, wp_requireActive h.core.anchored.active, wp_bind]
  refine wp_mono (h.shown.wp_lookupLive hhandle) ?_ fun e m' he =>
    ⟨he.cause, g, h.refused he.1⟩
  rintro entry m1 ⟨hl, hin, rfl⟩
  have h1 := h.looked hl
  have hopen := h1.core.tableOpen h1.tied (h1.core.cur.table_ne_nil hin)
  simp only [htInsert, wp_bind, wp_modify]
  refine wp_mono (h1.core.wp_handleTableInsertCandidate hopen hhandle) ?_ ?_
  · rintro ⟨root, freed⟩ m2 ⟨g2, lent, table, h2, hk, hnext, hcount, -, hidx, hod⟩
    obtain ⟨g', htxn, hbecame⟩ := h1.finish_setClientByte hin h2 hk hnext hcount hidx hod
    have hnames : SameNames m1 (retireSuperseded freed
      { m2 with currentRoots.handleTablePage := root }) :=
      ⟨h2.names.next, h2.names.names, h2.names.total⟩
    exact ⟨hin, hl.sameRoots.toSameNames.trans hnames, g', htxn, hbecame.after h hl⟩
  · rintro e m2 ⟨hard, hroots, g2, hres⟩
    exact ⟨.inl hard, g2, (hres.aborted h1.core hroots hard.isHard).after h hl⟩

end ClientByte

/-! ### Update -/

def finishMutation (root : Nat) (freed : List Nat) (old : OldRelease)
    (m : TransactionManager) : TransactionManager :=
  applyRelease old (retireSuperseded freed
    { m with currentRoots.handleTablePage := root })

theorem finishMutation_roots (root : Nat) (freed : List Nat)
    (old : OldRelease) (m : TransactionManager) :
    (finishMutation root freed old m).currentRoots =
        { m.currentRoots with handleTablePage := root } ∧
      (finishMutation root freed old m).htDepth = m.htDepth ∧
      (finishMutation root freed old m).outerDepth = m.outerDepth := by
  cases old <;> exact ⟨rfl, rfl, rfl⟩

theorem finishMutation_spec {m : TransactionManager} {n : Nat → Nat} {e : HandleEntry}
    {chain : List Nat} {root : Nat} {freed : List Nat} (hc : Counts m.packer.currentLiveSlots n)
    (hpos : e.flags = .live → 0 < n e.pageId ∧ chain = []) :
    ∃ added : Nat → Nat, Booked m (finishMutation root freed (oldRelease e chain) m)
        (fun x => freed.count x + added x) ∧
      (∀ x, m.txnFreedPages.count x + added x ≤
        (finishMutation root freed (oldRelease e chain) m).txnFreedPages.count x) ∧
      Counts (finishMutation root freed (oldRelease e chain) m).packer.currentLiveSlots
        (fun x => n x - e.slotAt x) ∧
      (∀ x, min 1 (n x - e.slotAt x) + added x = min 1 (n x) + chain.count x) ∧
      ∀ x, (finishMutation root freed (oldRelease e chain) m).packer.insertCursor = some x →
        m.packer.insertCursor = some x ∧ (0 < n x → 0 < n x - e.slotAt x) := by
  set m1 := retireSuperseded freed
    { m with currentRoots.handleTablePage := root } with hm1
  have hc1 : Counts m1.packer.currentLiveSlots n := hc
  obtain ⟨added, hb, hfreed, h1, h2, h3⟩ := applyRelease_spec hc1 hpos
  have hb1 : Booked m m1 fun x => freed.count x := booked_retire_roots rfl rfl
  refine ⟨added, hb1.trans hb, fun x => ?_, h1, h2, h3⟩
  have hx := hfreed x
  have hle := retire_freed_le m.txnPages freed m.txnFreedPages m.savepoints.isEmpty x
  change _ = m1.txnFreedPages.count x + added x at hx
  change m.txnFreedPages.count x ≤ m1.txnFreedPages.count x at hle
  change m.txnFreedPages.count x + added x ≤
    (m1.applyRelease (oldRelease e chain)).txnFreedPages.count x
  omega

section Update

variable {ex : Prop} {o : Origin} {m m1 m3 m4 : TransactionManager} {g g1 g3 : Ghost}
  {value : Bytes} {handle : Nat} {e : HandleEntry} {inline : Option Nat} {ids freed : List Nat}
  {lent : Nat → Nat} {table : PageTree HandleEntry} {root : Nat}

/-- Where the value of a handle went, and what became of the page that it left. -/
structure Restored (m : TransactionManager) (g : Ghost) (value : Bytes) (e : HandleEntry)
    (m' : TransactionManager) (g' : Ghost) : Prop extends Lands m g value e m' where
  freed : ∀ x ∈ m.txnFreedPages, x ∈ m'.txnFreedPages
  drained : ∀ x, 0 < g.cur.slots x → g'.cur.slots x = 0 → x ∈ m'.txnFreedPages

theorem Restored.after {m' : TransactionManager} {g' : Ghost} (h : Txn ex o m g) (hl : Looked m m1)
    (hr : Restored m1 g value e m' g') : Restored m g value e m' g' := by
  have hd := h.drawn_looked hl
  obtain ⟨c, hc, rfl⟩ := hl
  have hview : c.store.view = m.cache.store.view := congrArg Store.view hc.2
  have htakes : ({ m with cache := c } : TransactionManager).cursorTakes value ↔
    m.cursorTakes value := by
    unfold cursorTakes
    change CursorTakes c.store.view _ _ ↔ _
    rw [hview]
  refine { hr with lands := fun hf => ?_ }
  rw [← htakes]
  exact (hr.lands hf).imp_right fun h' => ⟨h'.1, hd.streams _ h'.2⟩

theorem StoredAt.restored {m' : TransactionManager} {g' : Ghost} {tag : Nat} {byte : UInt8}
    {added : Nat → Nat}
    (hs : StoredAt ex o m g (fun _ => 0) value tag byte e inline ids m1 g1)
    (hcursor : ∀ x, m'.packer.insertCursor = some x → m1.packer.insertCursor = some x)
    (hfreed : ∀ x, m.txnFreedPages.count x + added x ≤ m'.txnFreedPages.count x)
    (hslots : ∀ x, min 1 (g.cur.slots x) ≤ min 1 (g'.cur.slots x) + added x) :
    Restored m g value e m' g' := by
  refine ⟨{ hs.toLands with cursor := fun x hx => hs.cursor x (hcursor x hx) }, fun x hx => ?_,
    fun x hpos hzero => ?_⟩
  · have h1 := hfreed x
    exact count_pos.mp ((count_pos.mpr hx).trans_le (by omega))
  · have h1 := hfreed x
    have h2 := hslots x
    exact count_pos.mp (show 0 < m'.txnFreedPages.count x by omega)

theorem StoredAt.finish_update (h : Txn ex o m g) (hin : handle ∈ g.cur.live)
    (hs : StoredAt ex o m g (fun _ => 0) value (g.cur.entry handle).tag
      (g.cur.entry handle).clientByte e inline ids m1 g1)
    (h₃ : Took ex o m1 g1 (fun x => 0 + ids.count x) m3 g3 lent)
    (ht : TableNext m3 g3 handle e root table)
    (hcount : ∀ x, table.count handleLayout.shape x + freed.count x =
      g.cur.table.count handleLayout.shape x + 0 + lent x)
    (hidx : m3.currentRoots.membershipIndexPage = m.currentRoots.membershipIndexPage)
    (hod : m3.outerDepth = m.outerDepth) (hl : Looked m3 m4) :
    ∃ g', Txn ex o (finishMutation root freed
        (oldRelease (g.cur.entry handle) (g.cur.chain handle)) m4) g' ∧
      Became m g (finishMutation root freed
        (oldRelease (g.cur.entry handle) (g.cur.chain handle)) m4) g' handle e
        (some (value, (g.cur.entry handle).tag, (g.cur.entry handle).clientByte)) ∧
      Restored m g value e (finishMutation root freed
        (oldRelease (g.cur.entry handle) (g.cur.chain handle)) m4) g' := by
  have h₄ := h₃.looked hl
  have hview : m4.cache.store = m3.cache.store := hl.store
  have hroots := hl.sameRoots
  have hd := hs.drawn.trans h₄.drawn
  have hv := hs.kept h₄
  have hstores : g.cur.Stores handle e m4.htDepth table := by
    rw [hroots.htDepth]
    exact hs.stores_took h₃ ht
  have htable : TableIn m4.cache.store.view m4.htDepth table := by
    rw [hview, hroots.htDepth]
    exact ht.here
  have hindex : IndexIn m4.cache.store.view m4.outerDepth g.cur.index := by
    rw [hroots.outerDepth, hod, h.tied.outer]
    exact hv.index
  set old := g.cur.entry handle with hold
  set chain := g.cur.chain handle with hchain
  have hn := hs.slots_took h₄
  have hposOld : old.flags = .live → 0 < g3.cur.slots old.pageId ∧ chain = [] := by
    intro hf
    have h1 : 0 < g.cur.slots old.pageId := Version.slots_pos hin hf
    rw [hn]
    exact ⟨by omega, ((hv.placed handle hin).inline hf).1⟩
  set m' := finishMutation root freed (oldRelease old chain) m4 with hm'
  obtain ⟨added, hb, hfreed, hcounts, hsum2, hcursor2⟩ : ∃ added : Nat → Nat, Booked m4 m' _ ∧ _ :=
    finishMutation_spec h₄.core.counts hposOld
  set put := g.cur.put handle value ids m4.htDepth table m4.outerDepth g.cur.index with hput
  have hslots : ∀ x, put.slots x = g3.cur.slots x - old.slotAt x := by
    intro x
    have h1 : put.slots x + old.slotAt x = g.cur.slots x + e.slotAt x :=
      Version.slots_put hv hstores x
    rw [hn]
    omega
  have hsum : ∀ x, put.own x + (freed.count x + added x) =
      g3.cur.own x + (0 + ids.count x + lent x) := by
    intro x
    have h1 : put.own x + chain.count x = _ := Version.own_put hv hstores x
    rw [← hold] at h1
    have h2 := hcount x
    have h3 := hsum2 x
    rw [hn] at h3
    rw [hs.own_took h₄]
    omega
  have hcursor : ∀ x, m'.packer.insertCursor = some x →
      m4.packer.insertCursor = some x ∧ 0 < put.slots x := by
    intro x hx
    obtain ⟨h1, h2⟩ := hcursor2 x hx
    rw [hslots]
    exact ⟨h1, h2 (h₄.core.cursor x h1).2.2.2⟩
  have htied : Tied m'.currentRoots m'.htDepth m'.outerDepth put :=
    h.tied.put hin ht.root ht.ne_nil (hroots.index.trans hidx)
      (h₄.names.next.trans hs.roots.next) (finishMutation_roots ..)
  have hne : g.cur.table = .nil → m.cache.store.Fits := fun hnil =>
    absurd hnil (h.core.cur.table_ne_nil hin)
  have hcontent : put.content = Function.update g.cur.content handle
      (some (value, old.tag, old.clientByte)) := by
    rw [hput, Version.content_put hstores, hs.tag, hs.byte]
  obtain ⟨htxn, hbecame⟩ := h.became h₄.core hd hs.room (hv.put hstores htable hindex
    (hs.placed_took h₄) (by rw [hs.tag]; exact hv.tag_le handle hin) (hv.retags_same hin hs.tag)
      fun hf => hs.free hf handle)
    hb hsum (hcounts.congr hslots) hcursor htied hne hcontent (Version.entry_put hstores) rfl
    fun htidy => hs.slot_clean h.core htidy hne
  rw [hd.freed] at hfreed
  refine ⟨_, htxn, hbecame, hs.restored (fun x hx => h₄.packer ▸ (hcursor x hx).1) hfreed
    fun x => ?_⟩
  have h1 := hsum2 x
  change _ ≤ min 1 (put.slots x) + _
  rw [hslots]
  rw [hn] at h1 ⊢
  omega

theorem Txn.wp_updateInner (h : Txn ex o m g) (hhandle : handle ≤ u64Max) :
    wp (updateInner handle value) m
      (fun _ m' => handle ∈ g.cur.live ∧ SameNames m m' ∧
        ∃ g' e, Txn ex o m' g' ∧ Became m g m' g' handle e
            (some (value, (g.cur.entry handle).tag, (g.cur.entry handle).clientByte)) ∧
          Restored m g value e m' g')
      (fun e m' => (Exhausted e m'.cache.store ∨ NotLive g.cur handle e) ∧
        ∃ g', Aborted ex o m g e m' g') := by
  unfold updateInner
  rw [wp_bind, wp_requireActive h.core.anchored.active, wp_bind]
  refine wp_mono (h.shown.wp_lookupLive hhandle) ?_ fun e m' he =>
    ⟨he.cause, g, h.refused he.1⟩
  rintro entry m0 ⟨hl, hin, rfl⟩
  have h0 := h.looked hl
  rw [wp_bind]
  refine wp_mono h0.core.wp_storeValue ?_ fun e m1 he => ?_
  rotate_left
  · obtain ⟨hard, hroots, g1, hres⟩ := he
    exact ⟨.inl hard, g1, (hres.aborted h0.core hroots hard.isHard).after h hl⟩
  rintro ⟨e, inline⟩ m1 ⟨ids, g1, hs⟩
  have htied1 : Tied m1.currentRoots m1.htDepth m1.outerDepth g1.cur := by
    rw [hs.cur]
    exact (h0.tied.same hs.roots).strayed _
  have hne : g1.cur.table ≠ .nil := by
    rw [hs.cur]
    exact h0.core.cur.table_ne_nil hin
  have hopen := hs.core.tableOpen htied1 hne
  simp only [wp_bind, wp_get, wp_onError, wp_modify]
  refine wp_mono (hs.core.wp_handleTableInsertCandidate hopen hhandle) ?_ fun err m3 he => ?_
  rotate_left
  · obtain ⟨hard, hroots, g3, hres⟩ := he
    obtain ⟨g', ha⟩ := hs.unstored h0.core hres (hs.roots.trans hroots) hard.isHard
    refine ⟨.inl ?_, g', ha.after h hl⟩
    rw [cache_releaseInline]
    exact hard
  rintro ⟨root, freed⟩ m3 ⟨g3, lent, table, h3, -, hnext, hcount, htab, hidx, hod⟩
  have hlt : ∀ x, 0 < g.cur.own x → x < m3.cache.store.next := by
    intro x hx
    refine (h3.core.lt_next ?_).2
    rw [hs.own_took h3]
    unfold Version.own at hx
    omega
  refine wp_mono (Shown.wp_collectRelease h3.core.wf (hs.kept h3) hlt hin) ?_ fun err m4 he => ?_
  · rintro old m4 ⟨hl4, rfl⟩
    have hcount' : ∀ x, table.count handleLayout.shape x + freed.count x =
        g.cur.table.count handleLayout.shape x + 0 + lent x := by
      intro x
      have h1 := hcount x
      rw [hs.cur] at h1
      exact h1
    obtain ⟨g', htxn, hbecame, hrestored⟩ := hs.finish_update h0 hin h3 hnext hcount'
      (hidx.trans hs.roots.index) (hod.trans hs.roots.outerDepth) hl4
    refine ⟨hin, ?_, g', e, htxn, hbecame.after h hl, hrestored.after h hl⟩
    obtain ⟨hroots, -, -⟩ := finishMutation_roots root freed
      (oldRelease (g.cur.entry handle) (g.cur.chain handle)) m4
    have hsame := ((hl.sameRoots.toSameNames.trans hs.roots.toSameNames).trans
      h3.names).trans hl4.sameRoots.toSameNames
    refine ⟨?_, ?_, ?_⟩
    · change (finishMutation root freed _ m4).currentRoots.nextHandle = _
      rw [hroots]
      exact hsame.next
    · change (finishMutation root freed _ m4).currentRoots.namedRoots = _
      rw [hroots]
      exact hsame.names
    · change (finishMutation root freed _ m4).currentRoots.totalPages = _
      rw [hroots]
      exact hsame.total
  · have hcause : Exhausted err m4.cache.store := he.cause.resolve_right id
    obtain ⟨c, hc, rfl⟩ := he.1
    obtain ⟨g4, hres⟩ := (h3.core.look hc).abandon
    have hres' : Residue o m1 g1 { m3 with cache := c, htDepth := m1.htDepth } g4 :=
      ⟨hres.core.reroot rfl rfl, hres.cur.trans h3.cur,
        ((h3.drawn.trans (h3.core.drawn_look hc)).trans hres.drawn).trans (drawn_reroot rfl rfl)⟩
    have hsame : SameRoots m1 { m3 with cache := c, htDepth := m1.htDepth } :=
      ⟨⟨h3.names.next, h3.names.names, h3.names.total⟩, htab, hidx, rfl, hod⟩
    obtain ⟨g', ha⟩ := hs.unstored h0.core hres' (hs.roots.trans hsame) hcause.isHard
    refine ⟨.inl ?_, g', ?_⟩
    · rw [cache_releaseInline]
      exact hcause
    · cases inline <;> exact ha.after h hl

end Update

/-! ### Deletion -/

section Delete

variable {ex : Prop} {o : Origin} {m m1 m2 m3 : TransactionManager} {g g1 g3 : Ghost}
  {handle tag root : Nat} {freed : List Nat} {held lent : Nat → Nat} {table : PageTree HandleEntry}

theorem Core.wp_removeTag (h : Core ex o m g held) (hk : g.stuck = m.savepoints.length)
    (hroot : RootedAt m.currentRoots.membershipIndexPage g.cur.index.outer)
    (hdepth : m.outerDepth = g.cur.outerDepth) (htag : tag ≤ u64Max) (hhandle : handle ≤ u64Max) :
    wp (if tag ≠ 0 then some <$> membershipRemoveCandidate tag handle
      else pure none) m
      (fun res m' => ∃ g' lent index root freed, IndexStep ex o m g held
        (tagged g.cur.index tag handle 0) res m' g' lent index root freed)
      (fun e m' => Exhausted e m'.cache.store ∧ SameRoots m m' ∧ ∃ g', Residue o m g m' g') := by
  refine wp_ite (fun ht => ?_) fun ht => ?_
  · rw [wp_map]
    refine wp_imp (h.wp_membershipRemoveCandidate hk hroot hdepth htag hhandle) ?_
    rintro ⟨root, freed⟩ m' ⟨g', lent, index, hn⟩
    refine ⟨g', lent, index, root, freed, { hn with word := ?_ }, nofun,
      fun p hp => (Option.some.inj hp).symm⟩
    rw [hn.word]
    funext τ k
    simp only [tagged, ht, ne_eq, not_false_eq_true, true_and]
  · refine wp_ret ⟨g, fun _ => 0, g.cur.index, _, [], h.indexStep_none hroot hdepth ?_⟩
    funext τ k
    simp only [tagged, ht, false_and, if_false]

def finishDelete (root : Nat) (freed : List Nat) (old : OldRelease)
    (membership : Option (Nat × List Nat)) (m : TransactionManager) : TransactionManager :=
  match membership with
  | none => finishMutation root freed old m
  | some p => retireSuperseded p.2
      { finishMutation root freed old m with currentRoots.membershipIndexPage := p.1 }

theorem finishDelete_fields {lent' : Nat → Nat} {word : Nat → Nat → Nat} {index : Index}
    {iroot : Nat} {ifreed : List Nat} {old : OldRelease} {res : Option (Nat × List Nat)}
    (hi : IndexStep ex o m g held word res m3 g3 lent' index iroot ifreed) :
    ((finishDelete root freed old res m3).currentRoots = { m3.currentRoots with
        handleTablePage := root, membershipIndexPage := iroot } ∧
      (finishDelete root freed old res m3).htDepth = m3.htDepth ∧
      (finishDelete root freed old res m3).outerDepth = m3.outerDepth) ∧
    (finishDelete root freed old res m3).packer = (finishMutation root freed old m3).packer := by
  obtain ⟨hr, hd, hod⟩ := finishMutation_roots root freed old m3
  cases res with
  | none =>
    rw [(hi.skipped rfl).1]
    exact ⟨⟨hr, hd, hod⟩, rfl⟩
  | some p =>
    rw [hi.taken p rfl]
    refine ⟨⟨?_, hd, hod⟩, rfl⟩
    change { (finishMutation root freed old m3).currentRoots with membershipIndexPage := iroot } = _
    rw [hr]

theorem booked_finishDelete {added lent' : Nat → Nat} {word : Nat → Nat → Nat} {index : Index}
    {iroot : Nat} {ifreed : List Nat} {old : OldRelease} {res : Option (Nat × List Nat)}
    (hi : IndexStep ex o m g held word res m3 g3 lent' index iroot ifreed)
    (hb : Booked m3 (finishMutation root freed old m3) added) :
    Booked m3 (finishDelete root freed old res m3) fun x => added x + ifreed.count x := by
  cases res with
  | none =>
    rw [(hi.skipped rfl).2]
    exact hb
  | some p =>
    rw [hi.taken p rfl]
    exact hb.trans (booked_retire_roots rfl rfl)

theorem wp_finishDelete {old : OldRelease} {res : Option (Nat × List Nat)}
    {Q : Unit → TransactionManager → Prop} {E : ChiselError → TransactionManager → Prop}
    (hQ : Q () (finishDelete root freed old res m)) :
    wp (do
      modify fun m => applyRelease old
        (retireSuperseded freed { m with currentRoots.handleTablePage := root })
      match res with
      | none => return ()
      | some (miRoot, miFreed) =>
        modify fun m => retireSuperseded miFreed
          { m with currentRoots.membershipIndexPage := miRoot } : TxnM Unit) m Q E := by
  rw [wp_bind, wp_modify]
  cases res with
  | none => exact wp_ret hQ
  | some p =>
    rw [wp_modify]
    exact hQ

theorem Txn.finish_delete {lent' : Nat → Nat} {index : Index} {iroot : Nat} {ifreed : List Nat}
    {res : Option (Nat × List Nat)} (h : Txn ex o m g) (hin : handle ∈ g.cur.live)
    (hk : g.stuck = m.savepoints.length) (h₁ : Took ex o m g (fun _ => 0) m1 g1 lent)
    (ht : TableNext m1 g1 handle .tombstone root table)
    (hcount : ∀ x, table.count handleLayout.shape x + freed.count x =
      g.cur.table.count handleLayout.shape x + lent x) (hl : Looked m1 m2)
    (hi : IndexStep ex o m2 g1 (fun x => 0 + lent x)
      (tagged g.cur.index (g.cur.entry handle).tag handle 0) res m3 g3 lent' index iroot ifreed) :
    ∃ g', Txn ex o (finishDelete root freed (oldRelease (g.cur.entry handle) (g.cur.chain handle))
        res m3) g' ∧
      SameNames m (finishDelete root freed (oldRelease (g.cur.entry handle) (g.cur.chain handle))
        res m3) ∧
      Became m g (finishDelete root freed (oldRelease (g.cur.entry handle) (g.cur.chain handle))
        res m3) g' handle .tombstone none := by
  have h₂ := h₁.looked hl
  have h₃ := hi.next.took
  have hd := h₂.drawn.trans h₃.drawn
  have hcur : g3.cur = g.cur := h₃.cur.trans h₁.cur
  have hdepth : m3.htDepth = m1.htDepth := hi.next.htDepth.trans hl.sameRoots.htDepth
  have hstores : g.cur.Stores handle .tombstone m3.htDepth table := by
    rw [hdepth, ← h₁.cur]
    exact ht.stores
  have htable : TableIn m3.cache.store.view m3.htDepth table := by
    have h1 : TableIn m2.cache.store.view m1.htDepth table := by
      rw [hl.store]
      exact ht.here
    rw [hdepth]
    refine TableIn.took h1 h₃ fun x => ?_
    have h2 := hcount x
    have h3 := Version.table_le_own (v := g.cur) (x := x)
    rw [h₁.cur]
    omega
  set old := g.cur.entry handle with hold
  set chain := g.cur.chain handle with hchain
  have hpos : old.flags = .live → 0 < g3.cur.slots old.pageId ∧ chain = [] := by
    intro hf
    rw [hcur]
    exact ⟨Version.slots_pos hin hf, ((h.core.cur.placed handle hin).inline hf).1⟩
  obtain ⟨added, hb4, -, hcounts4, hsum4, hcursor4⟩ : ∃ added : Nat → Nat,
      Booked m3 (finishMutation root freed (oldRelease old chain) m3) _ ∧ _ :=
    finishMutation_spec h₃.core.counts hpos
  set m' := finishDelete root freed (oldRelease old chain) res m3 with hm'
  have hb := booked_finishDelete hi hb4
  obtain ⟨⟨hroots, hd1, hd2⟩, hpacker⟩ :
    (m'.currentRoots = _ ∧ m'.htDepth = _ ∧ m'.outerDepth = _) ∧ m'.packer = _ :=
    finishDelete_fields hi
  set gone := g.cur.remove handle m3.htDepth table m3.outerDepth index with hgone
  have hslots : ∀ x, gone.slots x = g3.cur.slots x - old.slotAt x := by
    intro x
    have h1 : gone.slots x + old.slotAt x = g.cur.slots x := Version.slots_remove hstores hin x
    rw [hcur]
    omega
  have hsum : ∀ x, gone.own x + (freed.count x + added x + ifreed.count x) =
      g3.cur.own x + (0 + lent x + lent' x) := by
    intro x
    have h1 : gone.chained x + chain.count x = g.cur.chained x := Version.chained_remove hin x
    have h2 := hcount x
    have h3 := hsum4 x
    have h4 := hi.next.count x
    rw [h₁.cur] at h4
    change table.count handleLayout.shape x + index.count x + min 1 (gone.slots x) +
      gone.chained x + _ = _
    rw [hslots]
    unfold Version.own
    rw [hcur] at h3 ⊢
    omega
  have hcursor : ∀ x, m'.packer.insertCursor = some x →
      m3.packer.insertCursor = some x ∧ 0 < gone.slots x := by
    intro x hx
    rw [hpacker] at hx
    obtain ⟨h1, h2⟩ := hcursor4 x hx
    rw [hslots]
    exact ⟨h1, h2 (h₃.core.cursor x h1).2.2.2⟩
  have hnames : SameNames m m' := by
    refine (h₂.names.trans h₃.names).trans ⟨?_, ?_, ?_⟩
    all_goals rw [hroots]
  have htied : Tied m'.currentRoots m'.htDepth m'.outerDepth gone := by
    refine ⟨?_, ?_, hd1, hd2, fun k hk => ?_, ?_⟩
    · rw [hroots]
      exact ⟨fun hnil => absurd hnil ht.ne_nil, fun _ => ht.root⟩
    · rw [hroots]
      exact hi.next.rooted
    · rw [hnames.next]
      exact h.tied.fresh k (Finset.mem_of_mem_erase hk)
    · rw [hnames.next]
      exact h.tied.next_le
  have hok : gone.Ok m3.cache.store.view :=
    (hcur ▸ h₃.core.cur).remove hstores htable hi.next.here (h.core.cur.retags_gone hi.next.word)
  obtain ⟨htxn, hbecame⟩ := h.became h₃.core hd hk hok hb hsum
    (hpacker ▸ hcounts4.congr hslots) hcursor htied (fun hnil => absurd hnil
      (h.core.cur.table_ne_nil hin)) (Version.content_remove hstores)
    (Version.entry_remove hstores) rfl fun _ _ _ => rfl
  exact ⟨_, htxn, hnames, hbecame⟩

theorem Txn.wp_deleteInner (h : Txn ex o m g) (hhandle : handle ≤ u64Max) :
    wp (deleteInner handle) m
      (fun _ m' => handle ∈ g.cur.live ∧ SameNames m m' ∧
        ∃ g', Txn ex o m' g' ∧ Became m g m' g' handle .tombstone none)
      (fun e m' => (Exhausted e m'.cache.store ∨ NotLive g.cur handle e) ∧
        ∃ g', Aborted ex o m g e m' g') := by
  unfold deleteInner
  rw [wp_bind, wp_requireActive h.core.anchored.active]
  simp only [wp_bind, wp_get]
  refine wp_mono (h.core.wp_handleTableDelete h.tied hhandle) ?_ fun e m1 he => ?_
  rotate_left
  · obtain ⟨hard, hroots, g1, hres⟩ := he
    exact ⟨.inl hard, g1, hres.aborted h.core hroots hard.isHard⟩
  rintro ⟨root, prev, freed⟩ m1 ⟨hnone, hsome⟩
  cases prev with
  | none =>
    obtain ⟨hdead, hl⟩ := hnone rfl
    exact wp_fail ⟨.inr ⟨rfl, hdead⟩, g, h.refused hl⟩
  | some entry =>
    obtain ⟨hin, rfl, hk, hroots, g1, lent, table, h1, hnext, hcount⟩ := hsome entry rfl
    dsimp only at hcount hnext
    have hv : g.cur.Ok m1.cache.store.view := by
      rw [← h1.cur]
      exact h1.core.cur
    have hlt : ∀ x, 0 < g.cur.own x → x < m1.cache.store.next := by
      intro x hx
      rw [← h1.cur] at hx
      exact (h1.core.lt_next (by omega)).2
    rw [wp_bind]
    refine wp_mono (Shown.wp_collectRelease h1.core.wf hv hlt hin) ?_ fun err m2 he => ?_
    rotate_left
    · have hcause : Exhausted err m2.cache.store := he.cause.resolve_right id
      obtain ⟨c, hc, rfl⟩ := he.1
      obtain ⟨g2, hres⟩ := (h1.core.look hc).abandon
      have hd := h1.drawn.trans (h1.core.drawn_look hc)
      have hsame := hroots.trans (Looked.sameRoots ⟨c, hc, rfl⟩)
      exact ⟨.inl hcause, g2, (hres.after h1.cur hd).aborted h.core hsame hcause.isHard⟩
    rintro old m2 ⟨hl, rfl⟩
    obtain ⟨c, hc, rfl⟩ := hl
    have h2 : Core ex o { m1 with cache := c } g1 fun x => 0 + lent x := h1.core.look hc
    have hd := h1.drawn.trans (h1.core.drawn_look hc)
    have hk2 : g1.stuck = ({ m1 with cache := c } : TransactionManager).savepoints.length := by
      rw [hd.stuck, hd.savepoints]
      exact hk
    have hroot2 : RootedAt m1.currentRoots.membershipIndexPage g1.cur.index.outer := by
      rw [hroots.index, h1.cur]
      exact h.tied.index
    have hdepth2 : m1.outerDepth = g1.cur.outerDepth := by
      rw [hroots.outerDepth, h1.cur]
      exact h.tied.outer
    rw [ite_bind, wp_bind]
    refine wp_mono (h2.wp_removeTag hk2 hroot2 hdepth2 (h.core.cur.tag_le handle hin) hhandle) ?_
      fun e m3 he => ?_
    · rintro res m3 ⟨g3, lent', index, iroot, ifreed, hstep⟩
      apply wp_finishDelete
      rw [h1.cur] at hstep
      obtain ⟨g', htxn, hnames, hbecame⟩ :=
        h.finish_delete hin hk h1 hnext hcount ⟨c, hc, rfl⟩ hstep
      exact ⟨hin, hnames, g', htxn, hbecame⟩
    · obtain ⟨hard, hroots3, g3, hres⟩ := he
      have hsame := (hroots.trans (Looked.sameRoots ⟨c, hc, rfl⟩)).trans hroots3
      exact ⟨.inl hard, g3, (hres.after h1.cur hd).aborted h.core hsame hard.isHard⟩

end Delete

end Chisel
