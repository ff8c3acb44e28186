import Chisel.TxnRun

/-! Savepoints. Making one and releasing one only moves the books; rolling back to one cuts the file
at its watermark and takes up the version that it remembers. -/

namespace Chisel

open StateError PageCache TransactionManager RadixTree Ledger

/-! ### Making a savepoint -/

namespace TransactionManager

def newSavepoint (m : TransactionManager) (name : String) : Savepoint where
  name := name
  roots := m.currentRoots
  watermark := m.cache.nextPageId
  freedPages := m.txnFreedPages ++ m.txnPages.recyclable
  liveSlots := m.packer.currentLiveSlots
  freemap := m.freemap.savepointMark

def saving (m : TransactionManager) (name : String) : TransactionManager :=
  { m with
    packer := m.packer.clearCursor
    txnPages := { m.txnPages with recyclable := [] }
    txnFreedPages := []
    savepoints := m.savepoints ++ [m.newSavepoint name] }

end TransactionManager

section Making

variable {ex : Prop} {o : Origin} {m : TransactionManager} {g : Ghost} {name : String} {k : Nat}

theorem waiting_saving (m : TransactionManager) (name : String) (x : Nat) :
    (m.saving name).waiting x = m.waiting x + m.txnPages.recyclable.count x := by
  simp only [waiting, saving,
    newSavepoint, List.map_append, List.flatten_append, List.map_cons,
    List.map_nil, List.flatten_cons, List.flatten_nil, List.count_append, List.count_nil]
  omega

theorem tally_saving (m : TransactionManager) (name : String) (t : PageTree Bool) (x : Nat) :
    tally (m.saving name).takeTree t x + m.txnPages.recyclable.count x = tally m.takeTree t x := by
  have hbits : fmBits (m.saving name).takeTree t = fmBits m.takeTree t :=
    fmBits_congr rfl fun _ => rfl
  unfold tally
  rw [hbits]
  change _ + _ + m.freemap.structuralReuse.count x + 0 + 0 + _ =
    _ + _ + m.freemap.structuralReuse.count x + m.txnPages.recyclable.count x + 0
  omega

theorem getElem?_concat_cases {α : Type} {l : List α} {a b : α} {i : Nat}
    (h : (l ++ [a])[i]? = some b) : i < l.length ∧ l[i]? = some b ∨ i = l.length ∧ b = a := by
  rcases Nat.lt_or_ge i l.length with hlt | hge
  · rw [List.getElem?_append_left hlt] at h
    exact .inl ⟨hlt, h⟩
  · rw [List.getElem?_append_right hge] at h
    have hlt := (List.getElem?_eq_some_iff.mp h).1
    rw [List.length_singleton] at hlt
    have hi : i - l.length = 0 := by omega
    rw [hi] at h
    exact .inr ⟨by omega, (Option.some.inj h).symm⟩

theorem fitsBelow_next (h : m.cache.WF) :
    FitsBelow m.cache.store m.cache.store.next ↔ m.cache.store.Fits := by
  have hall : m.cache.store.hot.filter (· < m.cache.store.next) = m.cache.store.hot :=
    Finset.filter_true_of_mem fun x hx => h.hot_lt hx
  unfold FitsBelow Store.Fits
  rw [hall]

theorem Txn.saveBelow_new (h : Txn ex o m g) :
    SaveBelow ex o (m.saving name) g.tree m.savepoints.length (m.newSavepoint name) g.cur := by
  have hfreed : ∀ x, (m.saving name).freedUpTo m.savepoints.length x =
      (m.savepoints.map Savepoint.freedPages).flatten.count x + m.txnFreedPages.count x +
        m.txnPages.recyclable.count x := by
    intro x
    unfold freedUpTo
    have htake : (m.saving name).savepoints.take (m.savepoints.length + 1) =
        m.savepoints ++ [m.newSavepoint name] :=
      List.take_of_length_le (by simp [saving])
    rw [htake]
    simp only [newSavepoint, List.map_append, List.flatten_append, List.map_cons,
      List.map_nil, List.flatten_cons, List.flatten_nil, List.count_append, List.count_nil]
    omega
  have hsum : ∀ x, (m.saving name).savedAt g.tree m.savepoints.length g.cur x + g.lost x =
      between o.lo m.cache.store.next x := by
    intro x
    have h1 := h.core.ledger x
    have h2 := tally_saving m name g.tree x
    have h3 := hfreed x
    unfold savedAt
    unfold waiting at h1
    change g.cur.own x + _ + m.freemap.structuralSuperseded.count x + _ + _ = _
    omega
  refine ⟨fun x => ?_, fun he x => ?_, fun x hx => ?_, le_rfl, fun j sp' hj hsp => ?_⟩
  · have := hsum x
    change _ ≤ between o.lo m.cache.store.next x
    omega
  · have h1 := hsum x
    have h2 := h.core.exact he x
    change _ = between o.lo m.cache.store.next x
    omega
  · have h1 := (h.core.frozen x hx).home
    have h2 := hfreed x
    unfold waiting at h1
    change 0 < _ + _ + m.freemap.structuralSuperseded.count x + _
    omega
  · rcases getElem?_concat_cases hsp with ⟨hlt, -⟩ | ⟨-, rfl⟩
    · omega
    · exact le_rfl

theorem Txn.saveBelow_saving (h : Txn ex o m g) {i : Nat} {sp : Savepoint} {v : Version}
    (hi : i < m.savepoints.length) (hb : SaveBelow ex o m g.tree i sp v) :
    SaveBelow ex o (m.saving name) g.tree i sp v := by
  have hne : m.savepoints ≠ [] := fun hn => by simp [hn] at hi
  have hfreed : ∀ x, (m.saving name).freedUpTo i x = m.freedUpTo i x := by
    intro x
    unfold freedUpTo
    change (((m.savepoints ++ [m.newSavepoint name]).take (i + 1)).map _).flatten.count x = _
    rw [List.take_append_of_le_length (by omega)]
  have hsaved : ∀ x, (m.saving name).savedAt g.tree i v x = m.savedAt g.tree i v x := by
    intro x
    have h1 := tally_saving m name g.tree x
    rw [h.core.saves.pool hne, List.count_nil] at h1
    unfold savedAt
    rw [hfreed, ← h1]
    rfl
  refine ⟨fun x => ?_, fun he x => ?_, fun x hx => ?_, hb.next, fun j sp' hj hsp => ?_⟩
  · rw [hsaved]
    exact hb.le x
  · rw [hsaved]
    exact hb.exact he x
  · rw [hfreed]
    exact hb.home x hx
  · rcases getElem?_concat_cases hsp with ⟨-, hold⟩ | ⟨-, rfl⟩
    · exact hb.sorted j sp' hj hold
    · exact hb.next

theorem Txn.savesOk_saving (h : Txn ex o m g)
    (hk : m.cache.store.Fits ∧ k = m.savepoints.length + 1 ∨ ¬ m.cache.store.Fits ∧ k = g.stuck) :
    SavesOk ex o (m.saving name) { g with saves := g.saves ++ [g.cur], stuck := k } := by
  have hlen : (m.saving name).savepoints.length = m.savepoints.length + 1 := by
    simp [saving]
  have hsv := h.core.saves
  have hstuck := hsv.stuck_le
  -- an index of the new list is one of the old list or the last one, in both lists alike
  have hcases : ∀ (i : Nat) sp v, (m.saving name).savepoints[i]? = some sp →
      (g.saves ++ [g.cur])[i]? = some v →
      i < m.savepoints.length ∧ m.savepoints[i]? = some sp ∧ g.saves[i]? = some v ∨
        i = m.savepoints.length ∧ sp = m.newSavepoint name ∧ v = g.cur := by
    intro i sp v hsp hv
    have hl := hsv.length
    rcases getElem?_concat_cases hsp with ⟨h1, h2⟩ | ⟨h1, h2⟩
    · rcases getElem?_concat_cases hv with ⟨-, h4⟩ | ⟨h3, -⟩
      · exact .inl ⟨h1, h2, h4⟩
      · omega
    · rcases getElem?_concat_cases hv with ⟨h3, -⟩ | ⟨-, h4⟩
      · omega
      · exact .inr ⟨h1, h2, h4⟩
  refine ⟨by simp [hsv.length, hlen], ?_, ?_, ?_, ?_, ?_, ?_, ?_, fun _ => rfl,
    fun he i sp hsp => ?_⟩
  · change k ≤ (m.saving name).savepoints.length
    omega
  · intro i sp v hsp hv
    rcases hcases i sp v hsp hv with ⟨-, h2, h3⟩ | ⟨-, rfl, rfl⟩
    · exact { hsv.ok i sp v h2 h3 with }
    · have ht := h.tied
      rw [ht.depth, ht.outer] at ht
      exact ⟨h.core.cur, ht, rfl, rfl, rfl, h.core.counts, h.core.next_ge, h.core.next_le⟩
  · intro i sp v hi hsp hv
    change i ≤ k at hi
    rcases hcases i sp v hsp hv with ⟨h1, h2, h3⟩ | ⟨rfl, rfl, rfl⟩
    · refine h.saveBelow_saving h1 (hsv.below i sp v ?_ h2 h3)
      rcases hk with ⟨hf, -⟩ | ⟨-, rfl⟩
      · have := h.core.unstick hf
        omega
      · exact hi
    · exact h.saveBelow_new
  · intro i sp hi hsp
    change i < k at hi
    rcases getElem?_concat_cases hsp with ⟨h1, h2⟩ | ⟨rfl, rfl⟩
    · refine hsv.fits i sp ?_ h2
      rcases hk with ⟨hf, -⟩ | ⟨-, rfl⟩
      · have := h.core.unstick hf
        omega
      · exact hi
    · rcases hk with ⟨hf, -⟩ | ⟨-, rfl⟩
      · exact (fitsBelow_next h.core.wf).mpr hf
      · omega
  · intro sp hsp
    change (m.saving name).savepoints[k]? = some sp at hsp
    rcases hk with ⟨-, rfl⟩ | ⟨hf, rfl⟩
    · rw [List.getElem?_eq_none (by omega)] at hsp
      cases hsp
    · rcases getElem?_concat_cases hsp with ⟨-, h2⟩ | ⟨-, rfl⟩
      · obtain ⟨h3, -, h5⟩ := hsv.full sp h2
        exact ⟨h3, rfl, h5⟩
      · exact ⟨fun hb => hf ((fitsBelow_next h.core.wf).mp hb), rfl, fun _ => le_rfl⟩
  · intro i v hi hv
    change k ≤ i at hi
    rcases getElem?_concat_cases hv with ⟨h1, h2⟩ | ⟨-, h2⟩
    · rcases hk with ⟨-, rfl⟩ | ⟨-, rfl⟩
      · have := hsv.length
        omega
      · exact hsv.same i v hi h2
    · exact h2
  · intro i sp hi hsp
    change k < i at hi
    rcases getElem?_concat_cases hsp with ⟨h1, h2⟩ | ⟨h1, rfl⟩
    · rcases hk with ⟨-, rfl⟩ | ⟨-, rfl⟩
      · omega
      · exact hsv.none_freed i sp hi h2
    · rcases hk with ⟨-, rfl⟩ | ⟨-, rfl⟩
      · omega
      · have hlt : g.stuck < m.savepoints.length := by omega
        have hne : m.savepoints ≠ [] := fun hn => by simp [hn] at hlt
        obtain ⟨-, hfr, -⟩ := hsv.full _ (List.getElem?_eq_getElem hlt)
        change m.txnFreedPages ++ m.txnPages.recyclable = []
        rw [hfr, hsv.pool hne]
        rfl
  · rcases getElem?_concat_cases hsp with ⟨-, h2⟩ | ⟨-, rfl⟩
    · exact hsv.marks he i sp h2
    · exact le_rfl

theorem Txn.saving (h : Txn ex o m g) (name : String)
    (hk : m.cache.store.Fits ∧ k = m.savepoints.length + 1 ∨ ¬ m.cache.store.Fits ∧ k = g.stuck) :
    Txn ex o (m.saving name) { g with saves := g.saves ++ [g.cur], stuck := k } := by
  have hc := h.core
  have hledger : ∀ x, g.cur.own x + 0 + tally (m.saving name).takeTree g.tree x +
      (m.saving name).waiting x + g.lost x = between o.lo m.cache.store.next x := by
    intro x
    have h1 := hc.ledger x
    have h2 := tally_saving m name g.tree x
    have h3 := waiting_saving m name x
    omega
  have hbits : fmBits (m.saving name).takeTree g.tree = fmBits m.takeTree g.tree :=
    fmBits_congr rfl fun _ => rfl
  refine ⟨{ hc with
    anchored := { hc.anchored with }
    alloc := ?_
    ledger := hledger
    cursor := nofun
    dead := fun x hx hns p hp => ?_
    frozen := fun x hx => ?_
    saves := h.savesOk_saving hk }, h.tied⟩
  · refine hc.alloc.repool rfl rfl rfl rfl (fun x => ?_) fun x hx => ?_
    · have := hledger x
      change _ ≤ between o.lo m.cache.store.next x
      omega
    · exact absurd hx List.not_mem_nil
  · rw [waiting_saving] at hx
    by_cases h1 : 0 < m.waiting x
    · exact hc.dead x h1 hns p hp
    · exact hc.alloc.dead x (count_pos.mp (by change 0 < m.txnPages.recyclable.count x; omega)) p hp
  · have hf := hc.frozen x hx
    refine ⟨hf.view, hf.cold, ?_, hf.old, ?_⟩
    · rintro (hw | ⟨-, hw | hw | hw | hw⟩)
      · exact hf.fixed (.inl hw)
      · exact hf.fixed (.inr ⟨rfl, .inl hw⟩)
      · exact absurd hw List.not_mem_nil
      · rw [hbits] at hw
        exact hf.fixed (.inr ⟨rfl, .inr (.inr (.inl hw))⟩)
      · exact hf.fixed (.inr ⟨rfl, .inr (.inr (.inr hw))⟩)
    · have := hf.home
      rw [waiting_saving]
      change 0 < g.cur.own x + g.tree.count fmShape x + _
      omega

end Making

/-! ### Dropping savepoints from the top -/

namespace TransactionManager

/-- The manager with all savepoints from number `k` on released. -/
def releasing (m : TransactionManager) (k : Nat) : TransactionManager :=
  { m with
    savepoints := m.savepoints.take k
    txnFreedPages := ((m.savepoints.drop k).map Savepoint.freedPages).flatten ++ m.txnFreedPages }

end TransactionManager

section Releasing

variable {ex : Prop} {o : Origin} {m : TransactionManager} {g : Ghost} {k : Nat}

theorem waiting_releasing (m : TransactionManager) (k x : Nat) :
    (m.releasing k).waiting x = m.waiting x := by
  have hsplit : (m.savepoints.map Savepoint.freedPages).flatten.count x =
      ((m.savepoints.take k).map Savepoint.freedPages).flatten.count x +
        ((m.savepoints.drop k).map Savepoint.freedPages).flatten.count x := by
    rw [← List.count_append, ← List.flatten_append, ← List.map_append, List.take_append_drop]
  simp only [waiting, releasing, List.count_append]
  omega

theorem SavesOk.releasing (h : SavesOk ex o m g) (k : Nat) :
    SavesOk ex o (m.releasing k) { g with saves := g.saves.take k, stuck := min g.stuck k } := by
  refine h.kept (k := k) ⟨rfl, rfl, rfl, rfl, rfl, rfl, rfl, rfl, fun _ => rfl, le_rfl,
    fun _ _ _ _ _ _ _ _ => rfl, ?_, fun _ _ _ _ hf => hf, fun sp hsp hlt => ?_⟩ id
  · rintro i sp hi - (hle | he)
    · obtain ⟨v, hv⟩ := h.exists_version hi
      exact (h.below i sp v (hle.trans (Nat.min_le_left ..)) hi hv).next
    · exact h.marks he i sp hi
  · change min g.stuck k < k at hlt
    have hmin : min g.stuck k = g.stuck := by omega
    change m.savepoints[min g.stuck k]? = some sp at hsp
    rw [hmin] at hsp hlt
    obtain ⟨-, h2, h3⟩ := h.full sp hsp
    refine ⟨hmin, rfl, ?_, h3, id⟩
    change ((m.savepoints.drop k).map Savepoint.freedPages).flatten ++ m.txnFreedPages = []
    rw [h.freed_above hlt, h2]
    rfl

theorem Txn.releasing (h : Txn ex o m g) (hne : m.savepoints ≠ []) (k : Nat) :
    Txn ex o (m.releasing k) { g with saves := g.saves.take k, stuck := min g.stuck k } := by
  have hc := h.core
  have hwait := waiting_releasing m k
  refine ⟨{ hc with
    anchored := { hc.anchored with }
    alloc := hc.alloc
    ledger := fun x => hwait x ▸ hc.ledger x
    cursor := fun x hx => absurd (hc.cursor x hx).1 hne
    dead := fun x hx => hc.dead x (hwait x ▸ hx)
    frozen := fun x hx => ?_
    saves := hc.saves.releasing k }, h.tied⟩
  have hf := hc.frozen x hx
  exact { hf with home := hwait x ▸ hf.home }

end Releasing

/-! ### The depths of a version -/

/-- The version is in the cache. -/
structure Resides (c : PageCache) (v : Version) : Prop where
  wf : c.WF
  next_le : c.store.next ≤ u64Max
  ok : v.Ok c.store.view
  lt : ∀ x, 0 < v.own x → x < c.store.next

namespace Resides

variable {c c' : PageCache} {v : Version} {root : Nat}

theorem of_reads (h : Resides c v) (hc : Reads c c') : Resides c' v := by
  refine ⟨hc.1, ?_, ?_, ?_⟩
  · rw [hc.2]
    exact h.next_le
  · rw [hc.2]
    exact h.ok
  · rw [hc.2]
    exact h.lt

theorem wp_tableDepth (h : Resides c v) (hroot : RootedAt root v.table) :
    wp (HandleTable.recoverDepth root) c (fun r c' => Reads c c' ∧ r = v.depth)
      (Crowded c) :=
  wp_recoverDepth handleLayout_lawful ⟨h.wf, h.ok.table.rep, fun x hx => h.lt x
    (Nat.lt_of_lt_of_le hx Version.table_le_own)⟩ h.ok.table.depth_le hroot h.ok.table.zero
    h.ok.table.spine h.next_le

theorem wp_indexDepth (h : Resides c v) (hroot : RootedAt root v.index.outer) :
    wp (MembershipIndex.recoverDepth root) c (fun r c' => Reads c c' ∧ r = v.outerDepth)
      (Crowded c) :=
  wp_recoverDepth radixU64_lawful ⟨h.wf, h.ok.index.outer, fun x hx => h.lt x
    (Nat.lt_of_lt_of_le hx ((v.index.outer_le x).trans Version.index_le_own))⟩
      h.ok.index.ok.outer_le
    hroot h.ok.index.ok.outer_zero h.ok.index.ok.outer_spine h.next_le

end Resides

/-- The depths are read from the trees. Where this fails, at most one of them is set. -/
theorem wp_recoverDepths {m : TransactionManager} {v : Version} (h : Resides m.cache v)
    (ht : RootedAt m.currentRoots.handleTablePage v.table)
    (hi : RootedAt m.currentRoots.membershipIndexPage v.index.outer) :
    wp recoverDepths m
      (fun _ m' => ∃ c, Reads m.cache c ∧
        m' = { m with cache := c, outerDepth := v.outerDepth, htDepth := v.depth })
      (fun e m' => (e.isCapacity = true ∧ ¬ m.cache.store.Fits) ∧ ∃ c d, Reads m.cache c ∧
        (d = m.outerDepth ∨ d = v.outerDepth) ∧ m' = { m with cache := c, outerDepth := d }) := by
  simp only [recoverDepths, wp_bind, wp_get, wp_withCache, wp_modify]
  refine wp_mono (h.wp_indexDepth hi) ?_ ?_
  · rintro d c ⟨hc, rfl⟩
    refine wp_mono ((h.of_reads hc).wp_tableDepth ht) ?_ ?_
    · rintro d' c' ⟨hc', rfl⟩
      exact ⟨c', hc.trans hc', rfl⟩
    · rintro e c' ⟨hwf, hst, hcap, hf⟩
      rw [hc.2] at hf
      exact ⟨⟨hcap, hf⟩, c', v.outerDepth, hc.trans ⟨hwf, hst⟩, .inr rfl, rfl⟩
  · rintro e c ⟨hwf, hst, hcap, hf⟩
    exact ⟨⟨hcap, hf⟩, c, m.outerDepth, ⟨hwf, hst⟩, .inl rfl, rfl⟩

/-! ### Rolling back to a savepoint -/

theorem AllocInv.cut {lo w : Nat} {s s' : AllocCtx} {t : PageTree Bool} (h : AllocInv lo s t)
    (hlo : lo ≤ w) (hw : ∀ x, 0 < tally s t x → x < w) (hwf : s'.cache.WF)
    (hst : s'.store = s.store.cut w) (htree : s'.tree = s.tree) (hh : s'.hint = s.hint)
    (hr : s'.structuralReuse = s.structuralReuse) (hp : s'.pool.recyclable = s.pool.recyclable) :
    AllocInv lo s' t := by
  have hok := h.rooted.ok
  have hbits : fmBits s' t = fmBits s t := fmBits_congr (by rw [htree]) fun _ => rfl
  have htally : ∀ x, tally s' t x = tally s t x := fun x => by
    unfold tally
    rw [hbits, hr, hp, htree]
  have hnext : s'.store.next = min s.store.next w := by rw [hst]; rfl
  have hview : ∀ x < w, s'.store.view x = s.store.view x := by
    intro x hx
    rw [hst]
    exact if_pos hx
  have hbetween : ∀ n x, (0 < n → x < w) → n ≤ between lo s.store.next x →
      n ≤ between lo s'.store.next x := by
    intro n x h1 h2
    rcases Nat.eq_zero_or_pos n with h0 | h0
    · omega
    · have hpos : 0 < between lo s.store.next x := by omega
      have hb := between_pos.mp hpos
      have hone := between_le lo s.store.next x
      rw [hnext, between_of_mem hb.1 (by have := h1 h0; omega)]
      omega
  refine ⟨⟨⟨⟨hwf, ?_⟩, hok.lo_pos, ?_, ?_, fun x => ?_⟩, ?_, ?_, ?_⟩, fun x => ?_, ?_, ?_, ?_⟩
  · rw [hnext]
    have := hok.sound.next_le
    omega
  · rw [hnext]
    have := hok.lo_le
    omega
  · rw [htree]
    refine hok.rep.frame fun x hx => ?_
    unfold fmRead
    rw [hview x (hw x (by unfold tally; omega))]
  · rw [hr, htree]
    exact hbetween _ x (fun h0 => hw x (by unfold tally; omega)) (hok.once x)
  · rw [htree]
    exact h.rooted.depth_le
  · rw [htree]
    exact h.rooted.root_nil
  · rw [htree]
    exact h.rooted.root_eq
  · rw [htally]
    exact hbetween _ x (hw x) (h.once x)
  · rw [htree]
    exact h.session
  · intro x hx p hv
    rw [hp] at hx
    have hlt : x < w := hw x (by have := count_pos.mpr hx; unfold tally; omega)
    rw [hview x hlt] at hv
    exact h.dead x hx p hv
  · rw [hbits, hh]
    exact h.hinted

theorem rollbackToMark_mark (f : FreemapRecycle) : f.rollbackToMark f.savepointMark = f := by
  simp [FreemapRecycle.rollbackToMark, FreemapRecycle.savepointMark]

namespace TransactionManager

/-- The manager after `rollback_to` savepoint number `i`; `c` is the cache that was cut. -/
def rewound (m : TransactionManager) (i : Nat) (sp : Savepoint) (v : Version) (c : PageCache) :
    TransactionManager :=
  { m with
    cache := c
    currentRoots := sp.roots
    outerDepth := v.outerDepth
    htDepth := v.depth
    packer := m.packer.restore sp.liveSlots
    freemap := m.freemap.rollbackToMark sp.freemap
    savepoints := m.savepoints.take (i + 1)
    txnFreedPages := [] }

end TransactionManager

/-- The state of the proof after `rollback_to`: what savepoint `i` does not account for is lost. -/
def Ghost.rewound (g : Ghost) (o : Origin) (m : TransactionManager) (i : Nat) (sp : Savepoint)
    (v : Version) : Ghost where
  cur := v
  tree := g.tree
  lost x := between o.lo sp.watermark x - m.savedAt g.tree i v x
  saves := g.saves.take (i + 1)
  stuck := i + 1

section Rewind

variable {ex : Prop} {o : Origin} {m : TransactionManager} {g : Ghost} {i : Nat} {sp : Savepoint}
  {v : Version} {c : PageCache}

theorem SaveOk.takeTree (hok : SaveOk o m sp v) (i : Nat) (c : PageCache) :
    (m.rewound i sp v c).takeTree = { m.takeTree with cache := c } := by
  unfold TransactionManager.takeTree TransactionManager.rewound
  rw [hok.root, hok.fmDepth, hok.mark, rollbackToMark_mark]

theorem SaveOk.superseded (hok : SaveOk o m sp v) (i : Nat) (c : PageCache) :
    (m.rewound i sp v c).freemap = m.freemap := by
  unfold rewound
  rw [hok.mark, rollbackToMark_mark]

theorem freedUpTo_le (m : TransactionManager) (i x : Nat) :
    m.freedUpTo i x ≤ (m.savepoints.map Savepoint.freedPages).flatten.count x := by
  have hsplit : (m.savepoints.map Savepoint.freedPages).flatten =
      ((m.savepoints.take (i + 1)).map Savepoint.freedPages).flatten ++
        ((m.savepoints.drop (i + 1)).map Savepoint.freedPages).flatten := by
    rw [← List.flatten_append, ← List.map_append, List.take_append_drop]
  unfold freedUpTo
  rw [hsplit, List.count_append]
  omega

theorem SaveBelow.lt (hb : SaveBelow ex o m g.tree i sp v) {x : Nat}
    (hx : 0 < m.savedAt g.tree i v x) : x < sp.watermark := by
  have hle := hb.le x
  have hpos : 0 < between o.lo sp.watermark x := by omega
  exact (between_pos.mp hpos).2

theorem Txn.savesOk_rewound (h : Txn ex o m g) (hi : i < g.stuck)
    (hsp : m.savepoints[i]? = some sp) (hv : g.saves[i]? = some v)
    (hst : c.store = m.cache.store.cut sp.watermark) :
    SavesOk ex o (m.rewound i sp v c) (g.rewound o m i sp v) := by
  have hsv := h.core.saves
  have hok := hsv.ok i sp v hsp hv
  have hb := hsv.below i sp v (by omega) hsp hv
  have hsorted : ∀ (j : Nat) sp', m.savepoints[j]? = some sp' → j < i + 1 →
      sp'.watermark ≤ sp.watermark := by
    intro j sp' hsp' hj
    obtain ⟨v', hv'⟩ := hsv.exists_version hsp'
    exact (hsv.below j sp' v' (by omega) hsp' hv').sorted i sp (by omega) hsp
  have hnext : (m.rewound i sp v c).cache.store.next = sp.watermark := by
    change c.store.next = _
    rw [hst]
    exact Nat.min_eq_right hb.next
  refine hsv.kept (k := i + 1) ⟨rfl, rfl, rfl, hok.root, hok.fmDepth, by rw [hok.superseded],
    by rw [hok.superseded], rfl, fun x => ?_, Nat.le_min.mpr ⟨hi, le_rfl⟩,
      fun j sp' v' hsp' hv' hj x hx => ?_,
    fun j sp' hsp' hj _ => hnext.symm ▸ hsorted j sp' hsp' hj, fun j sp' hsp' hj hf => ?_,
    fun sp' _ hlt => absurd hlt (Nat.lt_irrefl _)⟩ id
  · rw [hok.takeTree]
    rfl
  · have hlt := (hsv.below j sp' v' (by omega) hsp' hv').lt (x := x) (by unfold savedAt; omega)
    change c.store.view x = _
    rw [hst]
    exact if_pos (Nat.lt_of_lt_of_le hlt (hsorted j sp' hsp' hj))
  · unfold FitsBelow at *
    change (c.store.hot.filter _).card ≤ c.store.room
    rw [hst]
    refine (Finset.card_le_card fun x hx => ?_).trans hf
    simp only [Store.cut, Finset.mem_filter] at hx ⊢
    exact ⟨hx.1.1, hx.2⟩

/-- The committed side of the manager survives a cut behind the committed pages. -/
theorem Anchored.cut {w : Nat} (a : Anchored o m) (hst : c.store = m.cache.store.cut w)
    (hw : o.store.next ≤ w) (hmax : w ≤ u64Max) : Anchored o { m with cache := c } :=
  { a with
    room := (congrArg Store.room hst).trans a.room
    cipher := (congrArg Store.cipher hst).trans a.cipher
    writes := (congrArg (·.io.readOnly) hst).trans a.writes
    io := by
      obtain ⟨cuts, h1, h2⟩ := a.io
      refine ⟨cuts ++ [w], ?_, fun n hn => ?_⟩
      · rw [hst, List.map_append, PageIo.recordAll_append, ← h1]
        rfl
      · rcases List.mem_append.mp hn with hn | hn
        · exact h2 n hn
        · rw [List.mem_singleton.mp hn]
          exact ⟨hw, hmax⟩ }

theorem pageCount_cut (s : Store) (h : s.io.Aligned) (w : Nat) : (s.cut w).io.pageCount = w :=
  if_pos h

/-- The file is cut at `w`, behind everything that `m'` and the version of `g'` account for. -/
theorem Core.cut (h : Core ex o m g fun _ => 0) {m' : TransactionManager} {g' : Ghost} {w : Nat}
    (hwf : m'.cache.WF) (hst : m'.cache.store = m.cache.store.cut w) (hge : o.store.next ≤ w)
    (hmax : w ≤ u64Max) (hnext : ex → w ≤ m.cache.store.next) (hanchored : Anchored o m')
    (htake : m'.takeTree = { m.takeTree with cache := m'.cache }) (htree : g'.tree = g.tree)
    (hsup : m'.freemap.structuralSuperseded = m.freemap.structuralSuperseded)
    (hlt : ∀ x, 0 < g'.cur.own x + tally m.takeTree g.tree x + m'.waiting x → x < w)
    (hok : g'.cur.Ok m.cache.store.view) (hwait : ∀ x, m'.waiting x ≤ m.waiting x)
    (hhome : ∀ x, 0 < o.pages x → 0 < g'.cur.own x + g.tree.count fmShape x + m'.waiting x)
    (hledger : ∀ x, g'.cur.own x + tally m.takeTree g.tree x + m'.waiting x + g'.lost x =
      between o.lo (min m.cache.store.next w) x) (hexact : ex → ∀ x, g'.lost x = 0)
    (hcounts : Counts m'.packer.currentLiveSlots g'.cur.slots)
    (hcursor : m'.packer.insertCursor = none) (hsaves : SavesOk ex o m' g') :
    Core ex o m' g' fun _ => 0 := by
  have hview : ∀ x < w, m'.cache.store.view x = m.cache.store.view x := fun x hx => by
    rw [hst]
    exact if_pos hx
  have hend : m'.cache.store.next = min m.cache.store.next w := by rw [hst]; rfl
  have hcount : m'.cache.store.io.pageCount = w := by
    rw [hst]
    exact pageCount_cut _ h.wf.io_aligned w
  have hhot : ∀ x ∈ m'.cache.store.hot, x ∈ m.cache.store.hot := fun x hx => by
    rw [hst] at hx
    exact (Finset.mem_filter.mp hx).1
  refine ⟨hanchored, ?_, hok.frame fun x hx => hview x (hlt x (by omega)), fun x => ?_, hexact,
    fun x hx => absurd hx (Nat.lt_irrefl 0), hcounts,
    fun x hx => absurd (hcursor.symm.trans hx) nofun, fun x hx hns p hp => ?_, fun x hx => ?_,
    ?_, ?_, fun x h1 h2 => ?_, fun x hx => h.hot_ge x (hhot x hx), hcount ▸ hmax,
    fun he => ?_, hsaves⟩
  · rw [htake, htree]
    exact h.alloc.cut (h.anchored.ends.trans hge) (fun x hx => hlt x (by omega)) hwf hst rfl rfl rfl
      rfl
  · have := hledger x
    rw [htake, htree, hend]
    change _ + 0 + tally m.takeTree g.tree x + _ + _ = _
    omega
  · rw [hview x (hlt x (by omega))] at hp
    exact h.dead x (hx.trans_le (hwait x)) (hsup ▸ hns) p hp
  · have hf := h.frozen x hx
    have hx' : x < w := hlt x (by have := hhome x hx; unfold tally; omega)
    refine ⟨(hview x hx').trans hf.view, fun hm => hf.cold (hhot x hm), ?_, ?_, htree ▸ hhome x hx⟩
    · rw [htake, htree]
      rintro (hn | hn)
      · change m'.cache.store.next ≤ x at hn
        exact hf.fixed (.inl (by change m.cache.store.next ≤ x; omega))
      · exact hf.fixed (.inr hn)
    · exact (congrArg (·.pool.allocated) htake :) ▸ hf.old
  · rw [htree, hsup]
    exact h.kept
  · rw [hend]
    exact Nat.le_min.mpr ⟨h.next_ge, hge⟩
  · omega
  · have := hnext he
    omega

/-- Rolling back to a savepoint that was made with room in memory. -/
theorem Txn.rewound (h : Txn ex o m g) (hi : i < g.stuck) (hsp : m.savepoints[i]? = some sp)
    (hv : g.saves[i]? = some v) (hwf : c.WF) (hst : c.store = m.cache.store.cut sp.watermark) :
    Txn ex o (m.rewound i sp v c) (g.rewound o m i sp v) := by
  have hc := h.core
  have hok := hc.saves.ok i sp v hsp hv
  have hb := hc.saves.below i sp v (by omega) hsp hv
  have hwait : ∀ x, (m.rewound i sp v c).waiting x =
      m.freemap.structuralSuperseded.count x + m.freedUpTo i x := by
    intro x
    unfold waiting
    rw [hok.superseded]
    rfl
  have hanchored := hc.anchored.cut hst hok.ge hok.mark_le
  refine ⟨hc.cut hwf hst hok.ge hok.mark_le (fun _ => hb.next) { hanchored with }
    (hok.takeTree i c) rfl (by rw [hok.superseded]) (fun x hx => hb.lt ?_) hok.ok (fun x => ?_)
    (fun x hx => ?_) (fun x => ?_) (fun he x => ?_) hok.counts rfl
    (h.savesOk_rewound hi hsp hv hst), hok.tied⟩
  · rw [hwait] at hx
    change 0 < v.own x + _ + _ at hx
    unfold savedAt
    omega
  · have hle := freedUpTo_le m i x
    rw [hwait]
    unfold waiting
    omega
  · have := hb.home x hx
    rw [hwait]
    change 0 < v.own x + _ + _
    omega
  · have hle := hb.le x
    rw [hwait, Nat.min_eq_right hb.next]
    change v.own x + _ + _ + (between o.lo sp.watermark x - m.savedAt g.tree i v x) = _
    unfold savedAt at hle ⊢
    omega
  · change between o.lo sp.watermark x - m.savedAt g.tree i v x = 0
    rw [hb.exact he x, Nat.sub_self]

/-- Where memory was full at a savepoint, the current version is the one it remembers. -/
theorem Core.saved_stuck (h : Core ex o m g fun _ => 0)
    (hsp : m.savepoints[g.stuck]? = some sp) :
    SaveBelow ex o m g.tree g.stuck sp g.cur ∧ m.txnFreedPages = [] ∧
      ∀ x, m.savedAt g.tree g.stuck g.cur x = g.cur.own x + tally m.takeTree g.tree x +
        m.waiting x := by
  have hlt := (List.getElem?_eq_some_iff.mp hsp).1
  rw [← h.saves.length] at hlt
  have hv := List.getElem?_eq_getElem hlt
  have hcur := h.saves.same _ _ le_rfl hv
  rw [hcur] at hv
  have hfreed := (h.saves.full sp hsp).2.1
  refine ⟨h.saves.below _ sp _ le_rfl hsp hv, hfreed, fun x => ?_⟩
  have hsplit : (m.savepoints.map Savepoint.freedPages).flatten =
      ((m.savepoints.take (g.stuck + 1)).map Savepoint.freedPages).flatten ++
        ((m.savepoints.drop (g.stuck + 1)).map Savepoint.freedPages).flatten := by
    rw [← List.flatten_append, ← List.map_append, List.take_append_drop]
  unfold savedAt waiting freedUpTo
  rw [hsplit, h.saves.freed_above (Nat.lt_succ_self _), List.append_nil, hfreed, List.count_nil]
  omega

/-- The savepoints after a cut at or above the watermark of the one that was made with memory
full. -/
theorem Core.saves_recut (h : Core ex o m g fun _ => 0) {w : Nat} {lost : Nat → Nat}
    (hsp : m.savepoints[g.stuck]? = some sp) (hw : sp.watermark ≤ w)
    (hst : c.store = m.cache.store.cut w) (hcur : ∀ x, 0 < g.cur.own x → x < w) :
    SavesOk ex o { m with cache := c } { g with lost := lost } := by
  have hsv := h.saves
  have hnext : c.store.next = min m.cache.store.next w := by rw [hst]; rfl
  have hmark : ∀ {j : Nat} {sp' : Savepoint} {v' : Version}, j ≤ g.stuck →
      m.savepoints[j]? = some sp' → g.saves[j]? = some v' → sp'.watermark ≤ w :=
    fun {j sp' v'} hj hsp' hv' => ((hsv.below j sp' v' hj hsp' hv').sorted _ sp hj hsp).trans hw
  have hbelow : ∀ n ≤ w, FitsBelow c.store n ↔ FitsBelow m.cache.store n := by
    intro n hn
    have hfilter : c.store.hot.filter (· < n) = m.cache.store.hot.filter (· < n) := by
      rw [hst]
      ext x
      simp only [Store.cut, Finset.mem_filter]
      exact ⟨fun hx => ⟨hx.1.1, hx.2⟩, fun hx => ⟨⟨hx.1, by omega⟩, hx.2⟩⟩
    rw [FitsBelow, hfilter, hst]
    rfl
  refine hsv.kept (k := m.savepoints.length) ⟨List.take_length.symm, ?_, rfl, rfl, rfl, rfl,
    rfl, rfl, fun _ => rfl, Nat.le_min.mpr ⟨le_rfl, hsv.stuck_le⟩,
      fun j sp' v' hsp' hv' _ x hx => ?_,
    fun j sp' hsp' _ => ?_, fun j sp' hsp' hj hf => ?_, fun sp' hsp' _ => ?_⟩ id
  · rw [← hsv.length, List.take_length]
  · change c.store.view x = _
    rw [hst]
    refine if_pos ?_
    by_cases hj : j ≤ g.stuck
    · have hx' := (hsv.below j sp' v' hj hsp' hv').lt (x := x) (by unfold savedAt; omega)
      exact Nat.lt_of_lt_of_le hx' (hmark hj hsp' hv')
    · rw [hsv.same j v' (by omega) hv'] at hx
      exact hcur x hx
  · change _ → sp'.watermark ≤ c.store.next
    rintro (hj | he)
    · obtain ⟨v', hv'⟩ := hsv.exists_version hsp'
      rw [hnext]
      exact Nat.le_min.mpr ⟨(hsv.below j sp' v' hj hsp' hv').next, hmark hj hsp' hv'⟩
    · have h1 := hsv.marks he j sp' hsp'
      have h2 := (hsv.full sp hsp).2.2 he
      omega
  · obtain ⟨v', hv'⟩ := hsv.exists_version hsp'
    exact (hbelow _ (hmark (Nat.le_of_lt hj) hsp' hv')).mpr hf
  · change m.savepoints[g.stuck]? = some sp' at hsp'
    rw [hsp] at hsp'
    obtain rfl := Option.some.inj hsp'
    obtain ⟨-, h2, h3⟩ := hsv.full sp hsp
    refine ⟨rfl, rfl, h2, fun he => ?_, (hbelow _ hw).mp⟩
    change c.store.next ≤ sp.watermark
    have := h3 he
    omega

/-- A cut at or above the watermark of the savepoint that was made with memory full. -/
theorem Core.recut (h : Core ex o m g fun _ => 0) {w : Nat}
    (hsp : m.savepoints[g.stuck]? = some sp) (hw : sp.watermark ≤ w)
    (hmax : w ≤ u64Max) (hex : ex → w ≤ m.cache.store.next) (hwf : c.WF)
    (hst : c.store = m.cache.store.cut w) :
    Core ex o { m with cache := c }
      { g with lost := fun x => if x < w then g.lost x else 0 } fun _ => 0 := by
  obtain ⟨hb, hfreed, hsaved⟩ := h.saved_stuck hsp
  have hlt : ∀ x, 0 < g.cur.own x + tally m.takeTree g.tree x + m.waiting x → x < w := by
    intro x hx
    rw [← hsaved x] at hx
    exact Nat.lt_of_lt_of_le (hb.lt hx) hw
  obtain ⟨v, hv⟩ := h.saves.exists_version hsp
  have hge : o.store.next ≤ w := (h.saves.ok _ sp v hsp hv).ge.trans hw
  refine h.cut hwf hst hge hmax hex (h.anchored.cut hst hge hmax) rfl rfl rfl hlt h.cur
    (fun _ => le_rfl) (fun x hx => (h.frozen x hx).home) (fun x => ?_) (fun he x => ?_) h.counts ?_
    (h.saves_recut hsp hw hst fun x hx => hlt x (by omega))
  · have h1 := h.ledger x
    change g.cur.own x + _ + m.waiting x + (if x < w then g.lost x else 0) = _
    by_cases hx : x < w
    · rw [if_pos hx]
      have heq : between o.lo (min m.cache.store.next w) x = between o.lo m.cache.store.next x := by
        unfold between
        congr 1
        simp only [eq_iff_iff]
        omega
      omega
    · have h2 : ¬ 0 < g.cur.own x + tally m.takeTree g.tree x + m.waiting x :=
        fun h0 => hx (hlt x h0)
      rw [if_neg hx, between_of_ge (by omega)]
      omega
  · change (if x < w then g.lost x else 0) = 0
    rw [h.exact he x]
    exact ite_self 0
  · -- the cursor is cleared while there are savepoints
    cases hcur : m.packer.insertCursor with
    | none => rfl
    | some x =>
      rw [(h.cursor x hcur).1] at hsp
      cases hsp

end Rewind

/-! ### The operations -/

section Operations

variable {ex : Prop} {o : Origin} {m : TransactionManager} {g : Ghost} {name : String}

def TransactionManager.savepointIdx (m : TransactionManager) (name : String) : Option Nat :=
  m.savepoints.findIdx? fun sp => sp.name == name

theorem wp_findSavepoint {Q : Nat × Savepoint → TransactionManager → Prop}
    {E : ChiselError → TransactionManager → Prop}
    (hQ : ∀ (i : Nat) sp, m.savepointIdx name = some i → m.savepoints[i]? = some sp → Q (i, sp) m)
    (hE : E (.savepointNotFound name) m) :
    wp (findSavepoint name) m Q E := by
  unfold findSavepoint
  rw [wp_bind, wp_get]
  split
  · exact wp_fail hE
  · next i hi =>
    have hlt := (List.findIdx?_eq_some_iff_getElem.mp hi).1
    rw [List.getElem?_eq_getElem hlt]
    exact wp_ret (hQ i _ hi (List.getElem?_eq_getElem hlt))

theorem Txn.wp_savepointInner (h : Txn ex o m g) (name : String) :
    wp (savepointInner name) m
      (fun _ m' => m.savepointIdx name = none ∧ m' = m.saving name ∧
        ∃ k, Txn ex o m' { g with saves := g.saves ++ [g.cur], stuck := k })
      (fun e m' => e = .duplicateSavepoint name ∧ m' = m) := by
  unfold savepointInner
  rw [wp_bind, wp_requireActive h.core.anchored.active, wp_bind, wp_get]
  refine wp_ite (fun _ => wp_fail ⟨rfl, rfl⟩) fun hnew => ?_
  rw [wp_set]
  refine ⟨?_, rfl, ?_⟩
  · rw [savepointIdx, List.findIdx?_eq_none_iff]
    simpa using hnew
  · by_cases hf : m.cache.store.Fits
    · exact ⟨_, h.saving name (.inl ⟨hf, rfl⟩)⟩
    · exact ⟨_, h.saving name (.inr ⟨hf, rfl⟩)⟩

theorem Txn.wp_releaseInner (h : Txn ex o m g) (name : String) :
    wp (releaseInner name) m
      (fun _ m' => ∃ i, m.savepointIdx name = some i ∧ m' = m.releasing i ∧
        Txn ex o m' { g with saves := g.saves.take i, stuck := min g.stuck i })
      (fun e m' => e = .savepointNotFound name ∧ m' = m) := by
  unfold releaseInner
  rw [wp_bind, wp_requireActive h.core.anchored.active, wp_bind]
  refine wp_findSavepoint (fun i sp hi hsp => ?_) ⟨rfl, rfl⟩
  have hne : m.savepoints ≠ [] := fun hn => by
    rw [hn] at hsp
    cases hsp
  rw [wp_modify]
  exact ⟨i, hi, rfl, h.releasing hne i⟩

theorem Core.exists_stuck {i : Nat} {sp : Savepoint} (h : Core ex o m g fun _ => 0)
    (hi : g.stuck ≤ i) (hsp : m.savepoints[i]? = some sp) :
    ∃ sp0, m.savepoints[g.stuck]? = some sp0 ∧ sp0.watermark ≤ sp.watermark := by
  have hlt := (List.getElem?_eq_some_iff.mp hsp).1
  have hsp0 := List.getElem?_eq_getElem (Nat.lt_of_le_of_lt hi hlt)
  exact ⟨_, hsp0, (h.saved_stuck hsp0).1.sorted i sp hi hsp⟩

/-- Rolling back to a savepoint that was made with memory full. -/
theorem Txn.rewound_stuck {i : Nat} {sp : Savepoint} {v : Version} {c : PageCache}
    (h : Txn ex o m g) (hi : g.stuck ≤ i) (hsp : m.savepoints[i]? = some sp)
    (hv : g.saves[i]? = some v) (hcore : Core ex o { m with cache := c }
      { g with lost := fun x => if x < sp.watermark then g.lost x else 0 } fun _ => 0) :
    ∃ g', Txn ex o (m.rewound i sp v c) g' ∧ g'.cur = v ∧ g'.tree = g.tree ∧
      g'.saves = g.saves.take (i + 1) := by
  have hsv := h.core.saves
  have hok := hsv.ok i sp v hsp hv
  have hcur : v = g.cur := hsv.same i v hi hv
  have hlt := (List.getElem?_eq_some_iff.mp hsp).1
  obtain ⟨-, hfreed, -⟩ := hsv.full _ (List.getElem?_eq_getElem (by omega))
  set m2 : TransactionManager :=
    { m with
      cache := c
      currentRoots := sp.roots
      outerDepth := v.outerDepth
      htDepth := v.depth
      packer := m.packer.restore sp.liveSlots } with hm2
  have haside : Aside { m with cache := c } m2 :=
    ⟨rfl, rfl, hok.root, hok.fmDepth, rfl, rfl, rfl, rfl, rfl, rfl, rfl, rfl⟩
  have hcounts : Counts m2.packer.currentLiveSlots g.cur.slots := by
    rw [← hcur]
    exact hok.counts
  have h2 := hcore.rebook haside ⟨fun _ => rfl, fun _ => le_rfl, fun _ => le_rfl,
    fun x => Nat.le_add_right _ _, fun x hx => .inl hx, hcore.saves.pool⟩ hcore.cur
    (fun he => ⟨he, hcore.exact he⟩) hcounts nofun (.inr ⟨rfl, rfl⟩)
  have htied : Tied m2.currentRoots m2.htDepth m2.outerDepth g.cur := by
    rw [← hcur]
    exact hok.tied
  have hne : m2.savepoints ≠ [] := fun hn => by
    change m.savepoints = [] at hn
    simp [hn] at hlt
  have h3 := Txn.releasing ⟨h2, htied⟩ hne (i + 1)
  have heq : m2.releasing (i + 1) = m.rewound i sp v c := by
    have hnone : ((m.savepoints.drop (i + 1)).map Savepoint.freedPages).flatten = [] :=
      hsv.freed_above (by omega)
    unfold TransactionManager.releasing TransactionManager.rewound
    rw [hok.mark, rollbackToMark_mark]
    simp only [hm2, hnone, hfreed, List.append_nil]
  rw [heq] at h3
  exact ⟨_, h3, hcur.symm, rfl, rfl⟩

theorem Txn.wp_rollbackToInner (h : Txn ex o m g) (name : String) :
    wp (rollbackToInner name) m
      (fun _ m' => ∃ (i : Nat) (sp : Savepoint) (v : Version) (c : PageCache),
        m.savepointIdx name = some i ∧ m.savepoints[i]? = some sp ∧ g.saves[i]? = some v ∧
        c.WF ∧ c.store = m.cache.store.cut sp.watermark ∧ m' = m.rewound i sp v c ∧
        ∃ g', Txn ex o m' g' ∧ g'.cur = v ∧ g'.tree = g.tree ∧ g'.saves = g.saves.take (i + 1))
      (fun e m' => (m' = m ∧ e = .savepointNotFound name ∨
          ∃ i sp, m.savepointIdx name = some i ∧ m.savepoints[i]? = some sp ∧
            m'.cache.store = m.cache.store.cut sp.watermark) ∧ m'.poisoned = m.poisoned ∧
        ∃ g', Txn (ex ∧ e.isHard = false) o m' g' ∧ g'.cur = g.cur ∧ g'.saves = g.saves) := by
  unfold rollbackToInner
  rw [wp_bind, wp_requireActive h.core.anchored.active, wp_bind]
  refine wp_findSavepoint (fun i sp hi hsp => ?_)
    ⟨.inl ⟨rfl, rfl⟩, rfl, g, h.weaken And.left, rfl, rfl⟩
  have hsv := h.core.saves
  obtain ⟨v, hv⟩ := hsv.exists_version hsp
  have hok := hsv.ok i sp v hsp hv
  rw [wp_bind, wp_withCache]
  refine wp_mono (wp_truncate h.core.wf h.core.anchored.writes sp.watermark (E := fun _ _ => False))
    ?_ fun _ _ he => he.elim
  rintro - c ⟨hwf, hst⟩
  rw [wp_bind, wp_modify, wp_bind]
  set m1 : TransactionManager := { m with cache := c, currentRoots := sp.roots } with hm1
  -- the pages of the version lie below the cut
  have hlt : ∀ x, 0 < v.own x → x < m.cache.store.next ∧ x < sp.watermark := by
    intro x hx
    refine ⟨h.core.save_lt hsp hv hx, ?_⟩
    by_cases hk : i ≤ g.stuck
    · refine (hsv.below i sp v hk hsp hv).lt ?_
      unfold savedAt
      omega
    · obtain ⟨sp0, hsp0, hw⟩ := h.core.exists_stuck (by omega) hsp
      have hcur := hsv.same i v (by omega) hv
      rw [hcur] at hx
      refine Nat.lt_of_lt_of_le ((h.core.saved_stuck hsp0).1.lt ?_) hw
      unfold savedAt
      omega
  -- with memory full at the savepoint, only the end of the file is cut
  have hcut : ∀ c', c'.WF → c'.store = m.cache.store.cut sp.watermark → g.stuck ≤ i →
      Core ex o { m with cache := c' }
        { g with lost := fun x => if x < sp.watermark then g.lost x else 0 } fun _ => 0 := by
    intro c' hwf' hst' hk
    obtain ⟨sp0, hsp0, hw⟩ := h.core.exists_stuck hk hsp
    exact h.core.recut hsp0 hw hok.mark_le (fun he => hsv.marks he i sp hsp) hwf' hst'
  have hres : Resides m1.cache v := by
    refine ⟨hwf, ?_, ?_, fun x hx => ?_⟩
    · change c.store.next ≤ u64Max
      rw [hst]
      exact (Nat.min_le_left ..).trans h.core.next_le
    · refine hok.ok.frame fun x hx => ?_
      change c.store.view x = _
      rw [hst]
      exact if_pos (hlt x hx).2
    · change x < c.store.next
      rw [hst]
      exact Nat.lt_min.mpr (hlt x hx)
  refine wp_mono (wp_recoverDepths hres hok.tied.table hok.tied.index) ?_ ?_
  · rintro - m2 ⟨c2, hc2, rfl⟩
    rw [wp_modify]
    have hst2 : c2.store = m.cache.store.cut sp.watermark := hc2.2.trans hst
    refine ⟨i, sp, v, c2, hi, hsp, hv, hc2.1, hst2, rfl, ?_⟩
    rcases Nat.lt_or_ge i g.stuck with hk | hk
    · exact ⟨_, h.rewound hk hsp hv hc2.1 hst2, rfl, rfl, rfl⟩
    · exact h.rewound_stuck hk hsp hv (hcut c2 hc2.1 hst2 hk)
  · rintro e m2 ⟨⟨-, hfull⟩, c2, d, hc2, hd, rfl⟩
    have hst2 : c2.store = m.cache.store.cut sp.watermark := hc2.2.trans hst
    have hk : g.stuck ≤ i := by
      by_contra hlt'
      refine hfull ?_
      change c.store.Fits
      rw [hst]
      exact hsv.fits i sp (by omega) hsp
    have hcur := hsv.same i v hk hv
    have hcore := hcut c2 hc2.1 hst2 hk
    have htied : Tied sp.roots m.htDepth d g.cur := by
      have ht := hok.tied
      rw [hcur] at ht
      refine ⟨ht.table, ht.index, h.tied.depth, ?_, ht.fresh, ht.next_le⟩
      rcases hd with rfl | rfl
      · exact h.tied.outer
      · rw [hcur]
    have haside : Aside { m with cache := c2 } { m1 with cache := c2, outerDepth := d } :=
      ⟨rfl, rfl, hok.root, hok.fmDepth, rfl, rfl, rfl, rfl, rfl, rfl, rfl, rfl⟩
    exact ⟨.inr ⟨i, sp, hi, hsp, hst2⟩, rfl, _,
      (Txn.aside ⟨hcore, h.tied⟩ haside rfl rfl rfl htied (.inl trivial)).1.weaken And.left,
        rfl, rfl⟩

end Operations

end Chisel
