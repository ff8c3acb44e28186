import Chisel.TxnStep

/-! Preparing new trees for an operation, and taking back what it stored. A candidate tree is built
beside the current one; the roots move only when nothing can fail any more. -/

namespace Chisel

open StateError PageCache TransactionManager RadixTree Ledger

/-- The operation took pages and did nothing else that shows. -/
structure Took (ex : Prop) (o : Origin) (m : TransactionManager) (g : Ghost) (held : Nat → Nat)
    (m' : TransactionManager) (g' : Ghost) (lent : Nat → Nat) : Prop where
  core : Core ex o m' g' fun x => held x + lent x
  cur : g'.cur = g.cur
  drawn : Drawn m g m' g'
  names : SameNames m m'
  packer : m'.packer = m.packer
  frame : ∀ x, 0 < g.cur.own x + held x → m'.cache.store.view x = m.cache.store.view x

section Taking

variable {ex : Prop} {o : Origin} {m m' m'' : TransactionManager} {g g' g'' : Ghost}
  {held lent lent' : Nat → Nat}

theorem Took.refl (h : Core ex o m g held) : Took ex o m g held m g fun _ => 0 :=
  ⟨h, rfl, .refl m g, ⟨rfl, rfl, rfl⟩, rfl, fun _ _ => rfl⟩

theorem Took.trans (h : Took ex o m g held m' g' lent)
    (h' : Took ex o m' g' (fun x => held x + lent x) m'' g'' lent') :
    Took ex o m g held m'' g'' fun x => lent x + lent' x where
  core := by
    have h1 := h'.core
    simp only [Nat.add_assoc] at h1
    exact h1
  cur := h'.cur.trans h.cur
  drawn := h.drawn.trans h'.drawn
  names := h.names.trans h'.names
  packer := h'.packer.trans h.packer
  frame x hx := by
    refine (h'.frame x ?_).trans (h.frame x hx)
    rw [h.cur]
    omega

theorem Core.reroot (h : Core ex o m g held) {roots : Roots} {htDepth outerDepth : Nat}
    (hp : roots.freemapPage = m.currentRoots.freemapPage)
    (hd : roots.freemapDepth = m.currentRoots.freemapDepth) :
    Core ex o { m with currentRoots := roots, htDepth, outerDepth } g held :=
  h.rebook (booked_roots hp hd).toAside ⟨fun _ => rfl, fun _ => le_rfl, fun _ => le_rfl,
    fun _ => Nat.le_add_right _ _, fun _ hx => .inl hx, h.saves.pool⟩ h.cur
    (fun he => ⟨he, h.exact he⟩) h.counts h.cursor (.inr ⟨rfl, rfl⟩)

theorem drawn_reroot {roots : Roots} {htDepth outerDepth : Nat}
    (hp : roots.freemapPage = m.currentRoots.freemapPage)
    (hd : roots.freemapDepth = m.currentRoots.freemapDepth) :
    Drawn m g { m with currentRoots := roots, htDepth, outerDepth } g := by
  have ha : Aside m { m with currentRoots := roots, htDepth, outerDepth } :=
    (booked_roots hp hd).toAside
  refine ⟨ha.went fun _ => rfl, rfl, rfl, fun x hx => ?_, fun x hx => .inl hx⟩
  have hbits : fmBits
      ({ m with currentRoots := roots, htDepth, outerDepth } : TransactionManager).takeTree
      g.tree = fmBits m.takeTree g.tree := fmBits_congr hd fun _ => rfl
  unfold Writable at *
  rw [hbits] at hx
  exact hx

/-- Pages were taken, and a root or a depth was set on the side. -/
theorem Core.took (h : Core ex o m g held) (hk : g.stuck = m.savepoints.length) {s' : AllocCtx}
    {t' : PageTree Bool} (hl : Lends m.reuse o.lo lent m.takeTree g.tree s' t')
    {table htDepth : Nat} {outerDepth : Nat} :
    Took ex o m g held { m.putTree s' with
      currentRoots.handleTablePage := table, htDepth, outerDepth } { g with tree := t' } lent where
  core := (h.lend hk hl).reroot rfl rfl
  cur := rfl
  drawn := (Core.drawn_lend hl).trans (drawn_reroot rfl rfl)
  names := ⟨rfl, rfl, rfl⟩
  packer := rfl
  frame x hx := hl.view (h.not_writable (by omega))

end Taking

/-! ### The handle table -/

/-- A handle table that is ready to be changed. `extra` counts the root that was made for it. -/
structure TableOpen (lo : Nat) (m : TransactionManager) (g : Ghost) (extra : Nat → Nat)
    (sub : PageTree HandleEntry) : Prop where
  rests : Rests handleLayout (cow m.reuse lo) m.takeTree g.tree m.htDepth sub
  ne_nil : sub ≠ .nil
  root : m.currentRoots.handleTablePage = sub.root
  depth_le : m.htDepth ≤ handleLayout.maxDepth
  content : PageTree.content handleLayout.shape handleLayout.absent m.htDepth sub = g.cur.entry
  count : ∀ x, sub.count handleLayout.shape x =
    g.cur.table.count handleLayout.shape x + extra x
  spine : PageTree.Spine m.htDepth sub

/-- A candidate for the handle table, with `entry` under the handle. -/
structure TableNext (m : TransactionManager) (g : Ghost) (handle : Nat) (entry : HandleEntry)
    (root : Nat) (table : PageTree HandleEntry) : Prop where
  here : TableIn m.cache.store.view m.htDepth table
  ne_nil : table ≠ .nil
  root : root = table.root
  stores : g.cur.Stores handle entry m.htDepth table

section Table

variable {ex : Prop} {o : Origin} {m m' : TransactionManager} {g g' : Ghost}
  {held extra : Nat → Nat} {sub : PageTree HandleEntry} {handle : Nat} {entry : HandleEntry}

theorem Core.tableOpen (h : Core ex o m g held)
    (ht : Tied m.currentRoots m.htDepth m.outerDepth g.cur) (hne : g.cur.table ≠ .nil) :
    TableOpen o.lo m g (fun _ => 0) g.cur.table where
  rests := by
    rw [ht.depth]
    exact h.table_rests _
  ne_nil := hne
  root := ht.table.eq hne
  depth_le := by
    rw [ht.depth]
    exact h.cur.table.depth_le
  content := by
    rw [ht.depth]
    rfl
  count _ := rfl
  spine := by
    rw [ht.depth]
    exact h.cur.table.spine hne

theorem onCache_createRoot {s : AllocCtx} {Q : Nat → AllocCtx → Prop}
    {E : ChiselError → AllocCtx → Prop} :
    wp (onCache HandleTable.createRoot) s Q E ↔
      wp (handleLayout.initPage 0 (onCache newPage)) s Q E := by
  simp only [HandleTable.createRoot, RadixLayout.initPage, wp_onCache, wp_bind, wp_pure]

theorem wp_createRoot {r : Bool} {lo : Nat} {s : AllocCtx} {t : PageTree Bool}
    (hinv : AllocInv lo s t) :
    wp (onCache HandleTable.createRoot) s
      (fun id s' => ∃ t', Lends r lo (one id) s t s' t' ∧
        Rests handleLayout (cow r lo) s' t' 0 (PageTree.empty handleLayout.absent 0 id) ∧
        s.store.Fits)
      (fun e s' => Denied r lo s t e s') := by
  rw [onCache_createRoot]
  refine wp_mono (wp_initPage (A := extending r lo) (h := 0) handleLayout_lawful hinv) ?_
    fun _ _ hr => hr.denied
  intro id s' ⟨t', hi, hrests⟩
  have hl := hi.lends
  simp only [count_singleton] at hl
  exact ⟨t', hl, ⟨hrests.rep, hrests.fixed⟩, hi.fits (List.cons_ne_nil _ _)⟩

theorem Core.wp_ensureHandleTable (h : Core ex o m g held)
    (ht : Tied m.currentRoots m.htDepth m.outerDepth g.cur) :
    wp ensureHandleTable m
      (fun _ m' => (g.cur.table = .nil → m.cache.store.Fits) ∧
        ∃ g' extra sub, Took ex o m g held m' g' extra ∧ TableOpen o.lo m' g' extra sub ∧
        m'.currentRoots.membershipIndexPage = m.currentRoots.membershipIndexPage ∧
        m'.outerDepth = m.outerDepth)
      (fun e m' => g.cur.table = .nil ∧ Exhausted e m'.cache.store ∧ SameRoots m m' ∧
        ∃ g', Residue o m g m' g') := by
  have hnone := ht.table.none_iff ((h.table_rests true).holds h.alloc) h.next_le
  simp only [ensureHandleTable, wp_bind, wp_get]
  refine wp_ite (fun hn => ?_) fun hn => ?_
  · have hnil := hnone.mp hn
    rw [wp_bind, wp_withCache_tree]
    refine wp_mono (wp_createRoot (r := m.reuse) h.alloc) ?_ ?_
    · rintro id s' ⟨t', hl, hrests, hf⟩
      rw [wp_modify]
      have hk := h.unstick hf
      set g' : Ghost := { g with tree := t' } with hg'
      refine ⟨fun _ => hf, g', one id, PageTree.empty handleLayout.absent 0 id, h.took hk hl, ?_,
        rfl, rfl⟩
      refine ⟨⟨hrests.rep, fun x hx ho => hrests.fixed x hx (cowOwns_settle ho)⟩,
        PageTree.empty_ne_nil _ _, (PageTree.root_empty _ _).symm, Nat.zero_le _, ?_,
          fun x => ?_, trivial⟩
      · funext k
        rw [PageTree.content_empty]
        unfold Version.entry
        rw [show g'.cur.table = .nil from hnil, PageTree.content_nil]
      · rw [PageTree.count_empty, show g'.cur.table = .nil from hnil, PageTree.count_nil,
          Nat.zero_add]
    · intro e s' hl
      exact ⟨hnil, hl.exhausted, sameRoots_putTree _ _, h.lose hl.loses⟩
  · have hne : g.cur.table ≠ .nil := fun hnil => hn (hnone.mpr hnil)
    exact wp_ret ⟨fun hnil => absurd hnil hne, g, fun _ => 0, g.cur.table, .refl h,
      h.tableOpen ht hne, rfl, rfl⟩

/-- The candidate of an insertion or a deletion in the table. -/
theorem TableNext.of_replaced {s' : AllocCtx} {t' : PageTree Bool} {depth root : Nat}
    {ids freed : List Nat} {table : PageTree HandleEntry} {m' : TransactionManager}
    (h : Core ex o m g held) (ho : TableOpen o.lo m g extra sub) (hhandle : handle ≤ u64Max)
    (hr : Replaced handleLayout (cow m.reuse o.lo) m.takeTree g.tree m.htDepth sub ids freed s' t'
      depth table)
    (hroot : root = table.root) (hd : depth ≤ handleLayout.maxDepth)
    (hc : PageTree.content handleLayout.shape handleLayout.absent depth table =
      Function.update (PageTree.content handleLayout.shape handleLayout.absent m.htDepth sub) handle
        entry)
    (hview : m'.cache.store.view = s'.store.view) (hdepth : m'.htDepth = depth)
    (hcur : g'.cur = g.cur) : TableNext m' g' handle entry root table := by
  have hstores : g.cur.Stores handle entry depth table := by
    unfold Version.Stores
    rw [hc, ho.content]
  refine ⟨⟨?_, ?_, fun hnil => absurd hnil hr.ne_nil, fun _ => ?_, ?_⟩, hr.ne_nil, hroot, ?_⟩
  · rw [hdepth]
    exact hd
  · rw [hdepth, hview]
    exact hr.rests.rep
  · rw [hdepth]
    exact hr.spine ho.spine
  · rw [hdepth]
    exact h.cur.table.keys.update handleLayout_lawful hhandle hstores
  · rw [hdepth, hcur]
    exact hstores

theorem Core.wp_handleTableInsertCandidate (h : Core ex o m g held)
    (ho : TableOpen o.lo m g extra sub) (hhandle : handle ≤ u64Max) :
    wp (handleTableInsertCandidate handle entry) m
      (fun res m' => ∃ (g' : Ghost) (lent : Nat → Nat) (table : PageTree HandleEntry),
        Took ex o m g held m' g' lent ∧ g.stuck = m.savepoints.length ∧
        TableNext m' g' handle entry res.1 table ∧
        (∀ x, table.count handleLayout.shape x + res.2.count x =
          g.cur.table.count handleLayout.shape x + extra x + lent x) ∧
        m'.currentRoots.handleTablePage = m.currentRoots.handleTablePage ∧
        m'.currentRoots.membershipIndexPage = m.currentRoots.membershipIndexPage ∧
        m'.outerDepth = m.outerDepth)
      (fun e m' => Exhausted e m'.cache.store ∧ SameRoots m m' ∧ ∃ g', Residue o m g m' g') := by
  simp only [handleTableInsertCandidate, wp_bind, wp_get, wp_modify, wp_pure,
    wp_withTree]
  rw [HandleTable.insert, ho.root]
  refine wp_mono (wp_insert handleLayout_lawful ho.depth_le h.alloc ho.rests ho.ne_nil hhandle) ?_
    ?_
  · rintro res s' ⟨ids, t', table, hne, hr, hroot, hd, hc⟩
    have hk := h.unstick (hr.issued.fits hne)
    refine ⟨{ g with tree := t' }, fun x => ids.count x, table, h.took hk hr.issued.lends, hk,
      .of_replaced h ho hhandle hr hroot hd hc rfl rfl rfl, fun x => ?_, ho.root, rfl, rfl⟩
    rw [hr.count, ho.count]
  · intro e s' hl
    exact ⟨hl.denied.exhausted, sameRoots_putTree _ _, h.lose hl.denied.loses⟩

/-- The deletion of a handle, as a candidate. Nothing happened if the handle is not live. -/
theorem Core.wp_handleTableDelete (h : Core ex o m g held)
    (ht : Tied m.currentRoots m.htDepth m.outerDepth g.cur) (hhandle : handle ≤ u64Max) :
    wp (withTree
        (HandleTable.delete m.alloc m.htDepth m.currentRoots.handleTablePage handle)) m
      (fun res m' => (res.2.1 = none → handle ∉ g.cur.live ∧
          ∃ c, Reads m.cache c ∧ m' = { m with cache := c }) ∧
        ∀ e, res.2.1 = some e → handle ∈ g.cur.live ∧ e = g.cur.entry handle ∧
          g.stuck = m.savepoints.length ∧ SameRoots m m' ∧
          ∃ (g' : Ghost) (lent : Nat → Nat) (table : PageTree HandleEntry),
            Took ex o m g held m' g' lent ∧ TableNext m' g' handle .tombstone res.1 table ∧
            ∀ x, table.count handleLayout.shape x + res.2.2.count x =
              g.cur.table.count handleLayout.shape x + lent x)
      (fun e m' => Exhausted e m'.cache.store ∧ SameRoots m m' ∧ ∃ g', Residue o m g m' g') := by
  have hlive : ∀ e : HandleEntry, handleLayout.isAbsent e = true ↔ e.flags = .deleted := fun e =>
    beq_iff_eq
  have hrun := wp_delete handleLayout_lawful h.cur.table.depth_le h.alloc (h.table_rests m.reuse)
    ht.table hhandle
  rw [← ht.depth] at hrun
  rw [wp_withTree, HandleTable.delete]
  refine wp_mono (hrun) ?_ ?_
  · rintro ⟨root, prev, freed⟩ s' hrem
    refine ⟨fun hnone => ?_, fun e he => ?_⟩
    · obtain ⟨hp, habs, -⟩ := hrem.missing hnone
      rw [ht.depth] at habs
      exact ⟨fun hin => (h.cur.live_iff handle).mp hin ((hlive _).mp habs), s'.cache,
        ⟨hp.wf, hp.store⟩, putTree_peeked hp⟩
    · obtain ⟨rfl, hpres, ids, t', table, hsome, hr, hroot, hc⟩ := hrem.found e he
      have hk := h.unstick (hr.issued.fits hsome)
      have hne : g.cur.table ≠ .nil := by
        intro hnil
        rw [hnil, PageTree.content_nil, handleLayout_lawful.absent_gone] at hpres
        cases hpres
      have ho := h.tableOpen ht hne
      rw [ht.depth] at hpres
      have hentry : PageTree.content handleLayout.shape handleLayout.absent m.htDepth g.cur.table
          handle = g.cur.entry handle := by
        rw [ht.depth]
        rfl
      refine ⟨(h.cur.live_iff handle).mpr fun hd => ?_, hentry, hk, sameRoots_putTree _ _,
        { g with tree := t' }, fun x => ids.count x, table, h.took hk hr.issued.lends,
        .of_replaced h ho hhandle hr hroot ho.depth_le hc rfl rfl rfl, hr.count⟩
      have habs := (hlive _).mpr hd
      unfold Version.entry at habs
      rw [habs] at hpres
      cases hpres
  · intro e s' hl
    exact ⟨hl.denied.exhausted, sameRoots_putTree _ _, h.lose hl.denied.loses⟩

end Table

/-! ### The membership index -/

section Membership

variable {ex : Prop} {o : Origin} {m m' : TransactionManager} {g g' : Ghost} {held : Nat → Nat}
  {tag handle : Nat}

structure IndexNext (ex : Prop) (o : Origin) (m : TransactionManager) (g : Ghost)
    (held : Nat → Nat) (root : Nat) (freed : List Nat) (word : Nat → Nat → Nat)
    (m' : TransactionManager) (g' : Ghost) (lent : Nat → Nat) (index : Index) : Prop where
  took : Took ex o m g held m' g' lent
  here : IndexIn m'.cache.store.view m'.outerDepth index
  rooted : RootedAt root index.outer
  word : index.word = word
  count : ∀ x, index.count x + freed.count x = g.cur.index.count x + lent x
  table : m'.currentRoots.handleTablePage = m.currentRoots.handleTablePage
  htDepth : m'.htDepth = m.htDepth

theorem IndexNext.of_changed {s' : AllocCtx} {t' : PageTree Bool} {res : RadixLayout.Inserted}
    {ids : List Nat} {index : Index} {word : Nat → Nat → Nat} (h : Core ex o m g held)
    (hk : g.stuck = m.savepoints.length)
    (hc : Index.Changed (cow m.reuse o.lo) m.takeTree g.tree g.cur.index ids res s' t' index)
    (hw : index.word = word) :
    IndexNext ex o m g held res.root res.freed word
      { m.putTree s' with outerDepth := res.depth } { g with tree := t' } (fun x => ids.count x)
      index :=
  ⟨h.took hk hc.issued.lends, ⟨hc.ok, hc.rests.outer.rep, fun tag ht =>
    (hc.rests.inner tag ht).rep⟩, hc.rooted, hw, hc.count, rfl, rfl⟩

theorem Core.wp_membershipInsertCandidate (h : Core ex o m g held)
    (hk : g.stuck = m.savepoints.length)
    (hroot : RootedAt m.currentRoots.membershipIndexPage g.cur.index.outer)
    (hdepth : m.outerDepth = g.cur.outerDepth) (htag : tag ≤ u64Max) (hhandle : handle ≤ u64Max) :
    wp (membershipInsertCandidate tag handle) m
      (fun res m' => ∃ g' lent index, IndexNext ex o m g held res.1 res.2
        (fun τ k => if τ = tag ∧ k = handle then 1 else g.cur.index.word τ k) m' g' lent index)
      (fun e m' => Exhausted e m'.cache.store ∧ SameRoots m m' ∧ ∃ g', Residue o m g m' g') := by
  simp only [membershipInsertCandidate, wp_bind, wp_get, wp_modify, wp_pure,
    wp_withTree]
  rw [hdepth]
  refine wp_mono (wp_membershipInsert h.alloc h.cur.index.ok
    (h.index_rests m.reuse) hroot htag hhandle) ?_ ?_
  · rintro res s' ⟨ids, t', index, hc, _, hw⟩
    exact ⟨_, _, index, .of_changed h hk hc (funext fun τ => funext fun k => hw τ k)⟩
  · intro e s' hl
    exact ⟨hl.denied.exhausted, sameRoots_putTree _ _, h.lose hl.denied.loses⟩

theorem Core.wp_membershipRemoveCandidate (h : Core ex o m g held)
    (hk : g.stuck = m.savepoints.length)
    (hroot : RootedAt m.currentRoots.membershipIndexPage g.cur.index.outer)
    (hdepth : m.outerDepth = g.cur.outerDepth) (htag : tag ≤ u64Max) (hhandle : handle ≤ u64Max) :
    wp (membershipRemoveCandidate tag handle) m
      (fun res m' => ∃ g' lent index, IndexNext ex o m g held res.1 res.2
        (fun τ k => if τ = tag ∧ k = handle then 0 else g.cur.index.word τ k) m' g' lent index)
      (fun e m' => Exhausted e m'.cache.store ∧ SameRoots m m' ∧ ∃ g', Residue o m g m' g') := by
  simp only [membershipRemoveCandidate, wp_bind, wp_get, wp_modify, wp_pure,
    wp_withTree]
  rw [hdepth]
  refine wp_mono (wp_membershipRemove h.alloc h.cur.index.ok
    (h.index_rests m.reuse) hroot htag hhandle) ?_ ?_
  · rintro res s' ⟨ids, t', index, hc, hw, _⟩
    exact ⟨_, _, index, .of_changed h hk hc (funext fun τ => funext fun k => hw τ k)⟩
  · intro e s' hl
    exact ⟨hl.denied.exhausted, sameRoots_putTree _ _, h.lose hl.denied.loses⟩

end Membership

end Chisel
