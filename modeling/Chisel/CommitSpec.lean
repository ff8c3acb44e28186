import Chisel.FileHead

/-! Commit. The pages that the transaction freed are gathered, everything is flushed, the free map
takes the freed pages in and is flushed again, and the new superblock makes it all the committed
state. Up to that last write, the file holds the old committed state. -/

namespace Chisel

open StateError PageCache TransactionManager RadixTree Ledger Device

/-! ### What happens to the file -/

/-- The cells of the file that a transaction leaves alone: the superblocks and the committed
pages. -/
def Origin.Kept (o : Origin) (x : Nat) : Prop := x < o.lo ∨ 0 < o.pages x

/-- The event writes no superblock. -/
def NoSuper : Event DiskUnit → Prop
  | .write _ u => ∀ sb sealedBy, u ≠ .super sb sealedBy
  | _ => True

/-- Everything that happened to the file since the transaction began spares what it must keep. -/
def Touched (o : Origin) (io : PageIo) : Prop :=
  ∃ es, io = o.store.io.recordAll es ∧
    ∀ e ∈ es, e.Spares o.Kept ∧ NoSuper e ∧ e.Below u64Max

section Touching

variable {ex : Prop} {m0 m : TransactionManager} {v : Version} {t : PageTree Bool}
  {lost0 : Nat → Nat} {g : Ghost} {o : Origin} {io : PageIo}

theorem Touched.trans {es : List (Event DiskUnit)} (h : Touched o io)
    (hes : ∀ e ∈ es, e.Spares o.Kept ∧ NoSuper e ∧ e.Below u64Max) :
    Touched o (io.recordAll es) := by
  obtain ⟨es0, rfl, h0⟩ := h
  refine ⟨es0 ++ es, (PageIo.recordAll_append ..).symm, fun e he => ?_⟩
  rcases List.mem_append.mp he with he | he
  · exact h0 e he
  · exact hes e he

theorem Idle.kept_lt (h : Idle ex m0 v t lost0) {x : Nat} (hx : (m0.origin v t).Kept x) :
    x < m0.cache.store.next := by
  rcases hx with hx | hx
  · exact Nat.lt_of_lt_of_le hx h.lo_le
  · exact (h.pages_lt hx).2

theorem Anchored.touched (h : Idle ex m0 v t lost0) (a : Anchored (m0.origin v t) m) :
    Touched (m0.origin v t) m.cache.store.io := by
  obtain ⟨cuts, hio, hcuts⟩ := a.io
  refine ⟨cuts.map .setLen, hio, fun e he => ?_⟩
  obtain ⟨n, hn, rfl⟩ := List.mem_map.mp he
  obtain ⟨hge, hle⟩ := hcuts n hn
  exact ⟨fun x hx => Nat.lt_of_lt_of_le (h.kept_lt hx) hge, trivial, hle⟩

theorem Touched.flush_sync {s s' : Store} (h : Touched o s.io) (hf : Flush s s')
    (hhot : ∀ x ∈ s.hot, ¬ o.Kept x ∧ x < u64Max) :
    ∃ io, Touched o io ∧ s'.io = io.record .sync := by
  obtain ⟨ws, hio, hws, -⟩ := hf.events
  refine ⟨s.io.recordAll (ws.map fun w => .write w.1 (sealPage s.cipher w.1 w.2)),
    h.trans fun e he => ?_, by rw [hio, PageIo.recordAll_append]; rfl⟩
  obtain ⟨w, hw, rfl⟩ := List.mem_map.mp he
  obtain ⟨hkept, hlt⟩ := hhot w.1 (hws w hw).1
  exact ⟨hkept, nofun, hlt⟩

theorem Touched.sync (h : Touched o io) : Touched o (io.record .sync) := by
  have hes : ∀ e ∈ ([.sync] : List (Event DiskUnit)),
      e.Spares o.Kept ∧ NoSuper e ∧ e.Below u64Max := by
    intro e he
    rw [List.mem_singleton.mp he]
    exact ⟨trivial, trivial, trivial⟩
  exact h.trans hes

theorem replay_super {es : List (Event DiskUnit)} (hes : ∀ e ∈ es, NoSuper e)
    {image : Image DiskUnit} {i : Nat} {sb : Superblock} {sealedBy : Option Dek}
    (h : (image.replay es).cell i = .super sb sealedBy) : image.cell i = .super sb sealedBy := by
  induction es generalizing image with
  | nil => exact h
  | cons e es ih =>
    have h1 := ih (fun e' he' => hes e' (List.mem_cons_of_mem _ he')) h
    have he := hes e List.mem_cons_self
    cases e with
    | write j u =>
      by_cases hij : i = j
      · subst hij
        change (image.write i u).cell i = _ at h1
        rw [Image.write_cell_self] at h1
        exact absurd h1 (he sb sealedBy)
      · exact (image.write_cell_ne _ hij).symm.trans h1
    | setLen n =>
      change (if i < n then image.cell i else default) = _ at h1
      split at h1
      · exact h1
      · cases h1
    | sync => exact h1

theorem Touched.slots (ht : Touched o io) :
    (∀ i < o.lo, io.image.cell i = o.store.io.image.cell i) ∧
      ∀ i sb s, io.image.cell i = .super sb s → o.store.io.image.cell i = .super sb s := by
  obtain ⟨es, rfl, hes⟩ := ht
  have himage : (o.store.io.recordAll es).image = o.store.io.image.replay es := by
    rw [PageIo.recordAll_fields]
  rw [himage]
  exact ⟨fun i hi => Image.replay_cell_of_spares (fun e he => (hes e he).1) _ (.inl hi),
    fun i sb s hi => replay_super (fun e he => (hes e he).2.1) hi⟩

theorem Headed.touched {h : Head} (hd : Headed h o.store.io.image.cell) (hlo : h.slots = o.lo)
    (ht : Touched o io) : Headed h io.image.cell := by
  obtain ⟨hslot, hsuper⟩ := ht.slots
  exact hd.frame (hlo ▸ hslot) hsuper

end Touching

/-! ### Between the flushes -/

/-- A commit under way. `todo` are the pages that the free map still has to take in. -/
structure Committing (ex : Prop) (m0 : TransactionManager) (v : Version) (t : PageTree Bool)
    (m : TransactionManager) (cur : Version) (t' : PageTree Bool) (lost : Nat → Nat)
    (todo : List Nat) : Prop where
  counter : m.txnCounter = m0.txnCounter
  superblocks : m.superblockCount = m0.superblockCount
  header : m.cryptoHeader = m0.cryptoHeader
  cipher : m.cache.store.cipher = m0.cache.store.cipher
  writes : m.cache.store.io.readOnly = false
  touched : Touched (m0.origin v t) m.cache.store.io
  alloc : AllocInv m0.superblockCount m.takeTree t'
  pool : m.txnPages.recyclable = []
  ok : cur.Ok m.cache.store.view
  tied : Tied m.currentRoots m.htDepth m.outerDepth cur
  counts : Counts m.packer.currentLiveSlots cur.slots
  ledger : ∀ x, cur.own x + tally m.takeTree t' x + todo.count x +
    m.freemap.structuralSuperseded.count x + lost x =
      between m0.superblockCount m.cache.store.next x
  exact : ex → ∀ x, lost x = 0
  calm : ∀ x, 0 < (m0.origin v t).pages x → x ∉ m.cache.store.hot ∧ x < m.cache.store.next ∧
    x ∉ m.freemap.structuralReuse ∧ x ∉ m.freemap.sessionOwned
  tail : ∀ x, m.cache.store.io.pageCount ≤ x → x < m.cache.store.next → x ∈ m.cache.store.hot
  hot_ge : ∀ x ∈ m.cache.store.hot, m0.superblockCount ≤ x
  bounded : m.cache.store.io.pageCount ≤ u64Max
  short : ex → m.cache.store.io.pageCount ≤ m.cache.store.next

def TransactionManager.gathered (m : TransactionManager) : TransactionManager :=
  { m with
    txnFreedPages := m.txnFreedPages ++ (m.savepoints.map Savepoint.freedPages).flatten
      ++ m.txnPages.recyclable
    savepoints := m.savepoints.map fun sp => { sp with freedPages := [] }
    txnPages := { m.txnPages with recyclable := [] } }

section Committing

variable {ex ex0 : Prop} {m0 m : TransactionManager} {v cur : Version} {t t' : PageTree Bool}
  {lost lost0 : Nat → Nat} {g : Ghost} {c : PageCache} {todo : List Nat} {x : Nat}

theorem tally_gathered (m : TransactionManager) (t : PageTree Bool) (x : Nat) :
    tally m.gathered.takeTree t x + m.txnPages.recyclable.count x = tally m.takeTree t x := by
  have hbits : fmBits m.gathered.takeTree t = fmBits m.takeTree t := fmBits_congr rfl fun _ => rfl
  unfold tally
  rw [hbits]
  change _ + _ + m.freemap.structuralReuse.count x + 0 + 0 + _ =
    _ + _ + m.freemap.structuralReuse.count x + m.txnPages.recyclable.count x + 0
  omega

theorem Txn.gathered (hI : Idle ex0 m0 v t lost0) (h : Txn ex (m0.origin v t) m g) :
    Committing ex m0 v t m.gathered g.cur g.tree g.lost m.gathered.txnFreedPages := by
  have hc := h.core
  have a := hc.anchored
  have hledger : ∀ x, g.cur.own x + tally m.gathered.takeTree g.tree x +
      m.gathered.txnFreedPages.count x + m.freemap.structuralSuperseded.count x + g.lost x =
        between m0.superblockCount m.cache.store.next x := by
    intro x
    have h1 := hc.ledger x
    have h2 := tally_gathered m g.tree x
    unfold waiting at h1
    change _ + _ + (m.txnFreedPages ++ (m.savepoints.map Savepoint.freedPages).flatten
      ++ m.txnPages.recyclable).count x + _ + _ = _
    rw [List.count_append, List.count_append]
    change _ = between m0.superblockCount m.cache.store.next x at h1
    omega
  have htouched := a.touched hI
  refine ⟨a.counter, a.superblocks, a.header, a.cipher, a.writes, htouched, ?_, rfl, hc.cur, h.tied,
    hc.counts, hledger, hc.exact, fun x hx => ?_, hc.tail, hc.hot_ge, hc.bounded, hc.short⟩
  · refine hc.alloc.repool rfl rfl rfl rfl (fun x => ?_) fun x hx => absurd hx List.not_mem_nil
    have h1 := hledger x
    change _ ≤ between m0.superblockCount m.cache.store.next x
    omega
  · have hf := hc.frozen x hx
    refine ⟨hf.cold, ?_, fun hm => hf.fixed (.inr ⟨rfl, .inl hm⟩),
      fun hm => hf.fixed (.inr ⟨rfl, .inr (.inr (.inr hm))⟩)⟩
    exact Nat.lt_of_not_le fun hn => hf.fixed (.inl hn)

theorem Committing.spares (h : Committing ex m0 v t m cur t' lost todo)
    (hx : x ∈ m.cache.store.hot) : ¬ (m0.origin v t).Kept x ∧ x < u64Max := by
  refine ⟨fun hk => ?_, Nat.lt_of_lt_of_le (h.alloc.sound.wf.hot_lt hx) h.alloc.sound.next_le⟩
  rcases hk with hk | hk
  · exact absurd (h.hot_ge x hx) (Nat.not_le.mpr hk)
  · exact (h.calm x hk).1 hx

theorem Committing.flush (h : Committing ex m0 v t m cur t' lost todo) (hwf : c.WF)
    (hf : Flush m.cache.store c.store) :
    Committing ex m0 v t { m with cache := c } cur t' lost todo := by
  have hview := hf.view
  have hnext := hf.next
  have hhot : ∀ x, x ∉ c.store.hot := fun x => by
    rw [hf.hot]
    exact Finset.notMem_empty x
  have hlen := hf.image
  have hal : m.cache.store.io.Aligned := h.alloc.sound.wf.io_aligned
  have hal' : c.store.io.Aligned := hwf.io_aligned
  have htouched : Touched (m0.origin v t) c.store.io := by
    obtain ⟨io, hio, he⟩ := h.touched.flush_sync hf fun x => h.spares
    rw [he]
    exact hio.sync
  have hroom : ∀ x, x < m.cache.store.next → x < c.store.io.pageCount := by
    intro x hx
    rw [hal'.pageCount]
    by_cases hlt : m.cache.store.io.pageCount ≤ x
    · exact hlen.2.2.1 x (h.tail x hlt hx)
    · rw [hal.pageCount] at hlt
      omega
  refine ⟨h.counter, h.superblocks, h.header, hf.cipher.trans h.cipher,
    hf.io_fields.1.trans h.writes, htouched, ?_, h.pool, ?_, h.tied, h.counts, ?_, h.exact,
      fun x hx => ⟨hhot x, ?_⟩,
    fun x h1 h2 => ?_, fun x hx => absurd hx (hhot x), ?_, fun he => ?_⟩
  · have hmax := h.alloc.sound.next_le
    exact h.alloc.transfer hwf hnext.ge (hnext.trans_le hmax)
      (fun x _ => congrFun hview x) rfl rfl rfl h.pool
  · change cur.Ok c.store.view
    rw [hview]
    exact h.ok
  · intro x
    have h1 := h.ledger x
    change _ = between m0.superblockCount c.store.next x
    rw [hnext]
    exact h1
  · change x < c.store.next ∧ _
    rw [hnext]
    exact (h.calm x hx).2
  · change c.store.io.pageCount ≤ x at h1
    change x < c.store.next at h2
    rw [hnext] at h2
    have := hroom x h2
    omega
  · change c.store.io.pageCount ≤ u64Max
    rw [hal'.pageCount]
    refine hlen.2.2.2 _ ?_ fun x hx => ?_
    · rw [← hal.pageCount]
      exact h.bounded
    · exact Nat.lt_of_lt_of_le (h.alloc.sound.wf.hot_lt hx) h.alloc.sound.next_le
  · change c.store.io.pageCount ≤ c.store.next
    rw [hnext, hal'.pageCount]
    refine hlen.2.2.2 _ ?_ fun x hx => h.alloc.sound.wf.hot_lt hx
    rw [← hal.pageCount]
    exact h.short he

theorem Committing.mark {id : Nat} {s' : AllocCtx} {t'' : PageTree Bool}
    (h : Committing ex m0 v t m cur t' lost (id :: todo))
    (hm : Marks m0.superblockCount id m.takeTree t' s' t'') :
    Committing ex m0 v t (m.putTree { s' with hint := min s'.hint id }) cur t'' lost todo := by
  have h0 : tally m.takeTree t' id = 0 := by
    have h1 := h.ledger id
    have h2 := between_le m0.superblockCount m.cache.store.next id
    rw [count_cons, one_self] at h1
    omega
  have hev := hm.step.evolve_mark hm.bits h0
  obtain ⟨taken, dead, htk, -, -⟩ := hm.step.moves
  have hbound : ∀ x, 0 < tally m.takeTree t' x → m0.superblockCount ≤ x ∧ x < m.cache.store.next :=
    fun x hx => h.alloc.bounds hx
  -- the pages of the version are not the free map's
  have hview : ∀ x, 0 < cur.own x → s'.store.view x = m.cache.store.view x := by
    intro x hx
    have h1 := h.ledger x
    have h2 := between_le m0.superblockCount m.cache.store.next x
    have hpos : 0 < between m0.superblockCount m.cache.store.next x := by omega
    have hlt := (between_pos.mp hpos).2
    unfold tally at h1
    refine htk.frame x ?_ ?_
    · rintro (hs | hs)
      · exact absurd hlt (Nat.not_lt.mpr hs)
      · have := count_pos.mpr hs
        omega
    · rintro ⟨-, hs⟩
      omega
  have hio : s'.store.io = m.cache.store.io := hev.io
  have hledger : ∀ x, cur.own x + tally s'.settle t'' x + todo.count x +
      (m.freemap.structuralSuperseded ++ s'.tree.pendingSuperseded).count x + lost x =
        between m0.superblockCount s'.store.next x := by
    intro x
    have h1 := h.ledger x
    have h2 := hev.tally x
    have h3 := tally_settle (s := s') (t := t'') (x := x)
    have h4 : between m0.superblockCount m.cache.store.next x +
        between m.cache.store.next s'.store.next x = between m0.superblockCount s'.store.next x :=
      between_add h.alloc.rooted.ok.lo_le hev.next_le x
    rw [count_cons] at h1
    rw [List.count_append]
    change tally s' t'' x + 0 = tally m.takeTree t' x +
      between m.cache.store.next s'.store.next x + one id x at h2
    omega
  refine ⟨h.counter, h.superblocks, h.header, hev.cipher.trans h.cipher, ?_, ?_, ?_, ?_,
    h.ok.frame hview, ?_, h.counts, hledger, h.exact, fun x hx => ?_, fun x h1 h2 => ?_,
    fun x hx => ?_, ?_, fun he => ?_⟩
  · change s'.store.io.readOnly = false
    rw [hio]
    exact h.writes
  · change Touched _ s'.store.io
    rw [hio]
    exact h.touched
  · exact hm.inv.settle
  · change s'.pool.recyclable = []
    rw [htk.pool]
    exact h.pool
  · exact h.tied.same (sameRoots_putTree _ m)
  · obtain ⟨h1, h2, h3, h4⟩ := h.calm x hx
    have hno : ¬ m.takeTree.Spare x := by
      rintro (hs | hs)
      · exact absurd h2 (Nat.not_lt.mpr hs)
      · exact h3 hs
    refine ⟨fun hh => ?_, Nat.lt_of_lt_of_le h2 hev.next_le, fun hr => ?_, fun hs => ?_⟩
    · rcases htk.hot_le x hh with h5 | h5 | h5
      · exact h1 h5
      · exact hno h5
      · exact h4 h5.1
    · exact hno (htk.spare_of_spare (.inr hr))
    · rcases hm.step.session_le x hs with h5 | h5
      · exact h4 h5
      · exact hno h5.1
  · change s'.store.io.pageCount ≤ x at h1
    rw [hio] at h1
    rcases Nat.lt_or_ge x m.cache.store.next with hlt | hge
    · exact hev.hot_ge (h.tail x h1 hlt)
    · exact hev.tail x hge h2
  · rcases htk.hot_le x hx with h1 | (h1 | h1) | h1
    · exact h.hot_ge x h1
    · exact h.alloc.rooted.ok.lo_le.trans h1
    · refine (hbound x ?_).1
      have := count_pos.mpr h1
      unfold tally
      omega
    · refine (hbound x ?_).1
      have := h1.2
      unfold tally
      omega
  · change s'.store.io.pageCount ≤ u64Max
    rw [hio]
    exact h.bounded
  · change s'.store.io.pageCount ≤ s'.store.next
    rw [hio]
    exact (h.short he).trans hev.next_le

theorem PageCache.Flush.len_le {c c' : PageCache} (h : Flush c.store c'.store) (hwf : c.WF)
    (hwf' : c'.WF) : c.store.io.pageCount ≤ c'.store.io.pageCount ∧
      c'.store.io.pageCount ≤ max c.store.io.pageCount c.store.next := by
  have hal : c.store.io.Aligned := hwf.io_aligned
  have hal' : c'.store.io.Aligned := hwf'.io_aligned
  obtain ⟨-, hge, -, hle⟩ := h.image
  rw [hal.pageCount, hal'.pageCount]
  exact ⟨hge, hle _ (le_max_left ..) fun x hx => lt_max_of_lt_right (hwf.hot_lt hx)⟩

/-- What a commit that fails half-way leaves alone. -/
structure Halted (m m' : TransactionManager) : Prop where
  wf : m'.cache.WF
  len : m.cache.store.io.image.len ≤ m'.cache.store.io.image.len
  active : m'.activeTxn = m.activeTxn
  header : m'.cryptoHeader = m.cryptoHeader
  slots : m'.superblockCount = m.superblockCount
  cipher : m'.cache.store.cipher = m.cache.store.cipher
  alloc : ∃ t, AllocInv m'.superblockCount m'.takeTree t

theorem Halted.trans {m' m'' : TransactionManager} (h : Halted m m') (h' : Halted m' m'') :
    Halted m m'' :=
  ⟨h'.wf, h.len.trans h'.len, h'.active.trans h.active, h'.header.trans h.header,
    h'.slots.trans h.slots, h'.cipher.trans h.cipher, h'.alloc⟩

theorem halted_putTree {s : AllocCtx} {t : PageTree Bool} (hinv : AllocInv m.superblockCount s t)
    (hio : s.store.io = m.cache.store.io) (hcipher : s.store.cipher = m.cache.store.cipher) :
    Halted m (m.putTree s) :=
  ⟨hinv.sound.wf, (congrArg (fun io : PageIo => io.image.len) hio).ge, rfl, rfl, rfl, hcipher, t,
    hinv.settle⟩

/-- The free map takes all freed pages in. Where that fails, the file is as it was. -/
theorem Committing.wp_persist (h : Committing ex m0 v t m cur t' lost todo) :
    wp (TransactionManager.persist todo) m
      (fun _ m' => SameRoots m m' ∧ m'.packer = m.packer ∧ m'.poisoned = m.poisoned ∧
        (m'.cache.store.io = m.cache.store.io ∧ m.cache.store.next ≤ m'.cache.store.next) ∧
        ∃ t'', Committing ex m0 v t m' cur t'' lost [])
      (fun _ m' => m'.cache.store.io = m.cache.store.io ∧ Halted m m') := by
  unfold TransactionManager.persist
  induction todo generalizing m t' with
  | nil => exact wp_ret ⟨.refl m, rfl, rfl, ⟨rfl, le_rfl⟩, t', h⟩
  | cons id rest ih =>
    have hlt : m0.superblockCount ≤ id ∧ id < m.cache.store.next := by
      have h1 := h.ledger id
      rw [count_cons, one_self] at h1
      have hpos : 0 < between m0.superblockCount m.cache.store.next id := by omega
      exact between_pos.mp hpos
    have h0 : tally m.takeTree t' id = 0 := by
      have h1 := h.ledger id
      have h2 := between_le m0.superblockCount m.cache.store.next id
      rw [count_cons, one_self] at h1
      omega
    change wp (markFreeCommittedPath id >>= fun _ =>
      rest.forM markFreeCommittedPath) m _ _
    rw [wp_bind]
    refine wp_markFreeCommittedPath (wp_mono (wp_markFree h.alloc rfl h0 hlt.1 hlt.2) ?_ ?_)
    · rintro - s' ⟨t'', hm⟩
      have hev := (hm.step.evolve_mark hm.bits h0).rehint (min s'.hint id)
      refine wp_mono (ih (h.mark hm)) ?_ fun _ _ he => ?_
      · rintro - m' ⟨hr, hp, hpo, ⟨hio, hnext⟩, hc⟩
        exact ⟨(sameRoots_putTree _ m).trans hr, hp, hpo,
          ⟨hio.trans hev.io, hev.next_le.trans hnext⟩, hc⟩
      · have hput : Halted m (m.putTree { s' with hint := min s'.hint id }) :=
          halted_putTree (h.superblocks ▸ hm.inv) hev.io hev.cipher
        exact ⟨he.1.trans hev.io, hput.trans he.2⟩
    · rintro e s' ⟨-, junk, t'', hu⟩
      have hev := hu.evolve.rehint (min s'.hint id)
      have hinv := hu.inv.rehint (Nat.min_le_left s'.hint id)
      exact ⟨hev.io, halted_putTree (h.superblocks ▸ hinv) hev.io hev.cipher⟩

/-- The manager after the commit; `c` is the cache after the superblock was written. -/
def TransactionManager.committed (m : TransactionManager) (c : PageCache) (counter total : Nat) :
    TransactionManager :=
  { m with
    cache := c
    txnCounter := counter
    committedRoots := { m.currentRoots with totalPages := total }
    packer := m.packer.commit
    activeTxn := false
    savepoints := []
    txnFreedPages := []
    txnPages := .empty
    freemap := m.freemap.commit }

/-- The pages that the free map superseded are its own to reuse in the next transaction. -/
theorem Committing.idle (h : Committing ex m0 v t m cur t' lost [])
    (hhot : m.cache.store.hot = ∅) (hwf : c.WF) {io : PageIo} {counter : Nat}
    (hst : c.store = { m.cache.store with io := io })
    (hlen : io.pageCount = m.cache.store.io.pageCount) :
    Idle ex (m.committed c counter m.cache.store.io.pageCount) cur t' lost := by
  have hnext : c.store.next = m.cache.store.next := by rw [hst]
  have hview : c.store.view = m.cache.store.view := by rw [hst]
  have hio : c.store.io = io := by rw [hst]
  set m' := m.committed c counter m.cache.store.io.pageCount with hm'
  have hbits : fmBits m'.begun.takeTree t' = fmBits m.takeTree t' := fmBits_congr rfl fun _ => rfl
  have htally : ∀ x, tally m'.begun.takeTree t' x =
      tally m.takeTree t' x + m.freemap.structuralSuperseded.count x := by
    intro x
    have hpool : m.takeTree.pool.recyclable.count x = 0 := by
      change m.txnPages.recyclable.count x = 0
      rw [h.pool, List.count_nil]
    unfold tally
    rw [hbits, hpool]
    change _ + _ + (m.freemap.structuralSuperseded ++ m.freemap.structuralReuse).count x + 0 + 0 =
      _ + _ + m.freemap.structuralReuse.count x + 0 + 0 + _
    rw [List.count_append]
    omega
  have hledger : ∀ x, cur.own x + tally m'.begun.takeTree t' x + lost x =
      between m0.superblockCount c.store.next x := by
    intro x
    have h1 := h.ledger x
    have h2 := htally x
    rw [List.count_nil] at h1
    rw [hnext]
    omega
  have hok := h.alloc.rooted.ok
  refine ⟨rfl, ?_, ?_, ?_, ?_, ?_, h.exact, h.counts, ?_, ?_, ?_, fun he => ?_, ⟨rfl, rfl⟩⟩
  · change c.store.hot = ∅
    rw [hst]
    exact hhot
  · change AllocInv m.superblockCount _ t'
    rw [h.superblocks]
    refine ⟨⟨⟨⟨hwf, ?_⟩, hok.lo_pos, ?_, ?_, fun x => ?_⟩, h.alloc.rooted.depth_le,
      h.alloc.rooted.root_nil, h.alloc.rooted.root_eq⟩, fun x => ?_, fun x hx => ?_, fun x hx => ?_,
      h.alloc.hinted⟩
    · change c.store.next ≤ u64Max
      rw [hnext]
      exact hok.sound.next_le
    · change _ ≤ c.store.next
      rw [hnext]
      exact hok.lo_le
    · change PageTree.Rep fmShape (fmRead c.store.view) _ t'
      rw [hview]
      exact hok.rep
    · have h1 := hledger x
      unfold tally at h1
      change _ ≤ between m0.superblockCount c.store.next x
      change t'.count fmShape x + m'.begun.takeTree.structuralReuse.count x + 0 ≤ _
      omega
    · have h1 := hledger x
      change _ ≤ between m0.superblockCount c.store.next x
      omega
    · exact absurd hx (Finset.notMem_empty x)
    · exact absurd hx List.not_mem_nil
  · change cur.Ok c.store.view
    rw [hview]
    exact h.ok
  · exact { h.tied with }
  · intro x
    change _ = between m.superblockCount c.store.next x
    rw [h.superblocks]
    exact hledger x
  · change c.store.next ≤ m.cache.store.io.pageCount
    rw [hnext]
    by_contra hlt
    have := h.tail _ le_rfl (Nat.not_le.mp hlt)
    rw [hhot] at this
    exact absurd this (Finset.notMem_empty _)
  · change m.cache.store.io.pageCount ≤ c.store.io.pageCount
    rw [hio, hlen]
  · change c.store.io.pageCount ≤ u64Max
    rw [hio, hlen]
    exact h.bounded
  · change c.store.io.pageCount ≤ c.store.next
    rw [hio, hlen, hnext]
    exact h.short he

/-! ### The whole commit -/

/-- What a commit leaves: a manager whose committed state is what the transaction made, on a file
to which the new superblock was written after everything else was synced. -/
structure Committed (ex : Prop) (m0 : TransactionManager) (v : Version) (t : PageTree Bool)
    (m : TransactionManager) (g : Ghost) (m' : TransactionManager) : Prop where
  opened : ∃ t', Opened ex m' g.cur t' g.lost
  leads : LeadsAt m'.head m'.cache.io.image.cell (m'.txnCounter % m'.superblockCount)
  roots : SameRoots m m'
  settled : m'.committedRoots =
    { m'.currentRoots with totalPages := m'.committedRoots.totalPages }
  packer : m'.packer = m.packer.commit
  counter : m'.txnCounter = m0.txnCounter + 1
  superblocks : m'.superblockCount = m0.superblockCount
  header : m'.cryptoHeader = m0.cryptoHeader
  cipher : m'.cache.store.cipher = m0.cache.store.cipher
  poisoned : m'.poisoned = m.poisoned
  next : m.cache.store.next ≤ m'.cache.store.next
  total : m'.committedRoots.totalPages = max m.cache.store.io.pageCount m'.cache.store.next
  file : ∃ io, Touched (m0.origin v t) io ∧ m'.cache.store.io = io.recordAll
    [.sync, .write (m'.txnCounter % m'.superblockCount) m'.head.unit, .sync]

def TransactionManager.nextHead (m : TransactionManager) (total : Nat) : Head :=
  ⟨m.superblockCount, m.txnCounter + 1, m.cache.cipher, m.cryptoHeader,
    { m.currentRoots with totalPages := total }⟩

/-- The superblock goes out after the last flush. -/
theorem Committing.finish (hO : Opened ex0 m0 v t lost0)
    (h : Committing ex m0 v t m g.cur t' g.lost []) (hhot : m.cache.store.hot = ∅)
    {io : PageIo} (ht : Touched (m0.origin v t) io) (hio : m.cache.store.io = io.record .sync)
    {total : Nat} (htotal : total = m.cache.store.io.pageCount)
    (hle : m.txnCounter + 1 ≤ maxTxnCounter) (hwf : c.WF)
    (hst : c.store =
      { m.cache.store with
        io := m.cache.store.io.recordAll
          [.write ((m.txnCounter + 1) % m.superblockCount) (m.nextHead total).unit, .sync] }) :
    Committed ex m0 v t m g (m.committed c (m.txnCounter + 1) total) := by
  have hcipher : c.store.cipher = m.cache.store.cipher := by rw [hst]
  have hio' : c.store.io = m.cache.store.io.recordAll
      [.write ((m.txnCounter + 1) % m.superblockCount) (m.nextHead total).unit, .sync] := by
    rw [hst]
  have hal : m.cache.store.io.Aligned := h.alloc.sound.wf.io_aligned
  have hal' : c.store.io.Aligned := hwf.io_aligned
  have hn := hO.headed.two_le
  have hslots : m0.head.slots = m.superblockCount := h.superblocks.symm
  have hslot : (m.txnCounter + 1) % m.superblockCount < m.superblockCount :=
    Nat.mod_lt _ (by omega)
  have hin : m.cache.store.next ≤ m.cache.store.io.pageCount := by
    by_contra hlt
    have := h.tail _ le_rfl (Nat.not_le.mp hlt)
    rw [hhot] at this
    exact absurd this (Finset.notMem_empty _)
  -- the slot lies in the file already
  have hlen : c.store.io.pageCount = m.cache.store.io.pageCount := by
    have hlo := h.alloc.rooted.ok.lo_le
    rw [hal.pageCount] at hin
    change m0.superblockCount ≤ m.cache.store.next at hlo
    rw [h.superblocks] at hslot
    rw [hal'.pageCount, hio', PageIo.recordAll_fields]
    rw [hal.pageCount]
    change max m.cache.store.io.image.len ((m.txnCounter + 1) % m.superblockCount + 1) = _
    rw [h.superblocks]
    omega
  have hidle : Idle ex (m.committed c (m.txnCounter + 1) total) g.cur t' g.lost := by
    rw [htotal]
    exact h.idle hhot hwf hst (hio' ▸ hlen)
  have hhead : (m.committed c (m.txnCounter + 1) total).head = m.nextHead total := by
    change (⟨_, _, c.store.cipher, _, _⟩ : Head) = ⟨_, _, m.cache.store.cipher, _, _⟩
    rw [hcipher]
    rfl
  have hheaded : Headed m0.head m.cache.store.io.image.cell :=
    hO.headed.touched rfl h.touched
  have hcell : c.store.io.image.cell = Function.update m.cache.store.io.image.cell
      ((m.nextHead total).counter % (m.nextHead total).slots) (m.nextHead total).unit := by
    rw [hio', PageIo.recordAll_fields]
    rfl
  have hcounter : (m.nextHead total).counter = m0.head.counter + 1 := congrArg (· + 1) h.counter
  have hput : Headed (m.nextHead total) c.store.io.image.cell := by
    rw [hcell]
    refine hheaded.put h.superblocks hcounter hle ?_ ?_
    · change Wraps m.cache.store.cipher m.cryptoHeader
      rw [h.cipher, h.header]
      exact hO.headed.wraps
    · exact congrArg Option.isSome h.header
  refine ⟨⟨t', hidle, ?_, ?_⟩, ?_, ⟨⟨rfl, rfl, rfl⟩, rfl, rfl, rfl, rfl⟩, rfl, rfl,
    congrArg (· + 1) h.counter, h.superblocks, h.header, hcipher.trans h.cipher, rfl, ?_, ?_, io,
    ht, ?_⟩
  · rw [hhead]
    exact hput
  · change c.store.io.fileStride = strideOf c.store.cipher
    obtain ⟨es, hes, -⟩ := h.touched
    rw [hio', hcipher, h.cipher, PageIo.recordAll_fields, hes, PageIo.recordAll_fields]
    exact hO.stride
  · rw [hhead]
    change LeadsAt _ c.store.io.image.cell ((m.nextHead total).counter % (m.nextHead total).slots)
    rw [hcell]
    exact hheaded.put_leads h.superblocks hcounter
  · change m.cache.store.next ≤ c.store.next
    rw [hst]
  · change total = max _ c.store.next
    rw [htotal, hst]
    exact (max_eq_left hin).symm
  · rw [hhead]
    change c.store.io = _
    rw [hio', hio]
    rfl

/-- The commit is made of its parts, and where it fails no superblock was written. -/
theorem Txn.wp_runCommit (hO : Opened ex0 m0 v t lost0) (h : Txn ex (m0.origin v t) m g) :
    wp runCommit m (fun _ m' => Committed ex m0 v t m g m')
      (fun _ m' => Touched (m0.origin v t) m'.cache.store.io ∧ Halted m m') := by
  have hg := h.gathered hO.toIdle
  unfold runCommit
  rw [wp_bind, wp_get, wp_bind]
  refine wp_liftExcept (fun counter hc => ?_) fun _ _ =>
    ⟨hg.touched, h.core.alloc.sound.wf, le_rfl, rfl, rfl, rfl, rfl, g.tree,
      h.core.anchored.superblocks ▸ h.core.alloc⟩
  obtain ⟨rfl, hle⟩ := nextTxnCounter_ok hc
  rw [wp_bind, wp_modify, wp_bind, wp_withCache]
  refine wp_mono (wp_flush hg.alloc.sound.wf hg.writes (E := fun _ _ => False)) ?_
    fun _ _ hf => hf.elim
  intro _ c1 ⟨hwf1, hf1⟩
  rw [wp_bind, wp_get, wp_bind]
  have h1 := hg.flush hwf1 hf1
  refine wp_mono h1.wp_persist ?_ fun _ m' ⟨hio, hhalt⟩ => ?_
  rotate_left
  · rw [hio]
    exact ⟨h1.touched, { hhalt with
      len := hf1.image.2.1.trans hhalt.len
      cipher := hhalt.cipher.trans hf1.cipher }⟩
  intro _ m2 ⟨hr2, hp2, hpo2, ⟨hio2, hnext2⟩, t2, h2⟩
  rw [wp_bind, wp_withCache]
  refine wp_mono (wp_flush h2.alloc.sound.wf h2.writes (E := fun _ _ => False)) ?_
    fun _ _ hf => hf.elim
  intro _ c3 ⟨hwf3, hf3⟩
  obtain ⟨io, hio, hsync⟩ := h2.touched.flush_sync hf3 fun x => h2.spares
  have h3 := h2.flush hwf3 hf3
  rw [wp_bind, wp_modify, wp_bind, wp_get, wp_bind, wp_withCache]
  have hn := hO.headed.two_le
  have hcount : m.txnCounter = m2.txnCounter := hg.counter.trans h3.counter.symm
  have hslot : (m.txnCounter + 1) % m2.superblockCount < m0.superblockCount := by
    have hsb : m2.superblockCount = m0.superblockCount := h2.superblocks
    have hn' : 2 ≤ m0.superblockCount := hn
    rw [hsb]
    exact Nat.mod_lt _ (by omega)
  have hheaded : Headed m0.head c3.store.io.image.cell := hO.headed.touched rfl h3.touched
  have hhot : (m.txnCounter + 1) % m2.superblockCount ∉ c3.store.hot := by
    rw [hf3.hot]
    exact Finset.notMem_empty _
  refine wp_mono (wp_writeSuperblock hwf3 h3.writes _ hhot (hheaded.slot _ hslot)
    (E := fun _ _ => False)) ?_ fun _ _ hf => hf.elim
  intro _ c4 ⟨hwf4, hst4⟩
  rw [wp_modify]
  have hle' : m2.txnCounter + 1 ≤ maxTxnCounter := hcount ▸ hle
  have hfin := h3.finish hO hf3.hot hio hsync rfl hle' hwf4 (hcount ▸ hst4)
  have hroots : SameRoots m { m2 with cache := c3 } :=
    { hr2 with }
  -- flushes make the file longer only up to the end of the allocated pages
  obtain ⟨hge1, hle1⟩ := hf1.len_le hg.alloc.sound.wf hwf1
  obtain ⟨hge3, hle3⟩ := hf3.len_le h2.alloc.sound.wf hwf3
  have hpages : m.cache.store.next ≤ c4.store.next ∧ max c3.store.io.pageCount c4.store.next =
      max m.cache.store.io.pageCount c4.store.next := by
    have hnext1 : c1.store.next = m.cache.store.next := hf1.next
    have hnext3 : c3.store.next = m2.cache.store.next := hf3.next
    have hnext4 : c4.store.next = c3.store.next := by rw [hst4]
    have hio : m2.cache.store.io.pageCount = c1.store.io.pageCount := congrArg PageIo.pageCount hio2
    change c1.store.next ≤ m2.cache.store.next at hnext2
    change m.cache.store.io.pageCount ≤ _ at hge1
    change _ ≤ max m.cache.store.io.pageCount m.cache.store.next at hle1
    change m2.cache.store.io.pageCount ≤ _ at hge3
    change _ ≤ max m2.cache.store.io.pageCount m2.cache.store.next at hle3
    omega
  rw [hcount]
  exact
    { hfin with
      next := hpages.1
      total := hfin.total.trans hpages.2
      roots := SameRoots.trans hroots hfin.roots
      packer := hfin.packer.trans (congrArg SlotPacker.commit hp2)
      poisoned := hfin.poisoned.trans hpo2 }

/-- `commit` succeeds as a whole or poisons the manager. -/
theorem Txn.wp_commit (hO : Opened ex0 m0 v t lost0) (h : Txn ex (m0.origin v t) m g)
    (hp : m.poisoned = false) :
    wp TransactionManager.commit m (fun _ m' => Committed ex m0 v t m g m')
      (fun _ m' => m'.poisoned = true ∧ Touched (m0.origin v t) m'.cache.store.io ∧
        Halted m m') := by
  unfold TransactionManager.commit
  have ha : m.activeTxn = true := h.core.anchored.active
  simp only [wp_bind, wp_get, hp, ha, Bool.false_eq_true, if_false, Bool.not_true,
    wp_onError]
  refine wp_mono (h.wp_runCommit hO) (fun _ _ hq => hq) ?_
  rintro _ m' ⟨ht, hhalt⟩
  exact ⟨trivial, ht, { hhalt with }⟩

end Committing

end Chisel
