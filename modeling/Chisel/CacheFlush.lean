import Chisel.CacheSpec

/-! What the cache does to the file: `flush` writes the hot pages and syncs, `discard_all_dirty`
forgets them, and `truncate` cuts the file. A page that is not hot reads as the file has it. -/

namespace Chisel

open StateError Device

def Store.disk (s : Store) (id : Nat) : Option Page := (diskBuf s.io s.cipher id).bind Buf.contents

/-- The page is on disk only, in a unit that does not open under the key. -/
def Store.Locked (s : Store) (id : Nat) : Prop :=
  id ∉ s.hot ∧ s.cipher.isSome = true ∧ diskBuf s.io s.cipher id = none

def Store.settled (s : Store) : Store := { s with view := s.disk, hot := ∅ }

def Store.cut (s : Store) (n : Nat) : Store :=
  { s with
    view := fun x => if x < n then s.view x else none
    hot := s.hot.filter (· < n)
    io := s.io.record (.setLen n)
    next := min s.next n }

namespace PageCache

variable {c c' : PageCache} {id x : Nat} {e : CacheEntry}

theorem WF.io_aligned (h : c.WF) : c.io.Aligned := h.aligned

theorem WF.view_of_cold (h : c.WF) (hx : id ∉ c.store.hot) : c.store.view id = c.store.disk id :=
  (c.view_eq id).trans (congrArg (Option.bind · Buf.contents) (h.sound.cold hx))

theorem WF.not_locked (h : c.WF) (hm : id ∈ c.cached) : ¬ c.store.Locked id := by
  rintro ⟨hcold, -, hnone⟩
  obtain ⟨e, he⟩ := lookup_of_mem_cached hm
  cases hd : e.dirty with
  | true => exact hcold (Finset.mem_union_left _ (mem_dirtySet.mpr ⟨e, he, hd⟩))
  | false =>
    have hdisk := ((h.entry id e he).clean hd).2
    rw [show c.onDisk id = none from hnone] at hdisk
    cases hdisk

/-- Why a page within the file cannot be read: memory is full, its unit does not open, or its
checksum does not match. -/
def Unreadable (s : Store) (id : Nat) (err : ChiselError) : Prop :=
  (err.isCapacity = true ∧ ¬ s.Fits) ∨ (s.Locked id ∧ err = .decryptionFailed id) ∨
    (¬ s.Locked id ∧ err = .checksumMismatch id)

theorem unreadable_of_readDisk {err : ChiselError} (hal : c.io.Aligned) (hcold : id ∉ c.store.hot)
    (hlt : id < c.io.image.len) (hr : c.readDisk id = .error err) : Unreadable c.store id err := by
  have hread : c.io.readPageUnit id = .ok (c.io.image.cell id) := by
    rw [hal.readPageUnit, if_neg (Nat.not_le.mpr hlt)]
  have hdisk : diskBuf c.store.io c.store.cipher id =
      (openUnit c.cipher id (c.io.image.cell id)).toOption := diskBuf_cell hal
  rw [readDisk, hread] at hr
  dsimp only at hr
  split at hr
  · next err' hopen =>
    obtain rfl := Except.error.inj hr
    rw [hopen] at hdisk
    have herr := openUnit_refused hopen
    by_cases hs : c.cipher.isSome = true
    · exact .inr (.inl ⟨⟨hcold, hs, hdisk⟩, by rw [herr, if_pos hs]⟩)
    · exact .inr (.inr ⟨fun hl => hs hl.2.1, by rw [herr, if_neg hs]⟩)
  · next b hopen =>
    rw [hopen] at hdisk
    split at hr
    · cases hr
    · refine .inr (.inr ⟨fun hl => ?_, (Except.error.inj hr).symm⟩)
      have hnone := hdisk.symm.trans hl.2.2
      cases hnone

theorem wp_getPage_unreadable (h : c.WF) (hlt : id < c.nextPageId)
    (hend : id ∉ c.store.hot → id < c.store.io.pageCount) :
    wp (getPage id) c (fun _ _ => ¬ c.store.Locked id)
    (fun err _ => Unreadable c.store id err) := by
  simp only [getPage, wp_bind, wp_pure]
  refine wp_mono (wp_fetch_steps id) ?_ ?_
  · rintro e c' ⟨hs, he, -⟩
    obtain ⟨hwf, hst⟩ := h.shifts hlt hs
    exact hst ▸ hwf.not_locked (mem_cached_of_lookup he)
  · rintro err c' ⟨hs, hdenied⟩
    obtain ⟨hwf, hst⟩ := h.shifts hlt hs
    cases hdenied with
    | crowded hcap hover => exact .inl (h.crowded hlt hs hcap (hover h.sound.books)).2.2
    | broken _ hb => exact absurd h.sound.books hb
    | unread hn hns hr =>
      rw [← hst] at hend ⊢
      have hcold : id ∉ c'.store.hot := by
        intro hh
        rcases Finset.mem_union.mp hh with hd | hd
        · exact hn (dirtySet_subset_cached hd)
        · exact hns hd
      have hlen := hend hcold
      rw [show c'.store.io.pageCount = c'.io.image.len from hwf.io_aligned.pageCount] at hlen
      exact unreadable_of_readDisk hwf.io_aligned hcold hlen hr

/-- With too many pages hot, no page is loaded. -/
theorem wp_getPage_full (h : c.WF) (hlt : id < c.nextPageId) (hfull : ¬ c.store.Fits) :
    wp (getPage id) c (fun _ _ => True) (fun err _ => err.isCapacity = true) := by
  simp only [getPage, wp_bind, wp_pure]
  rw [fetch, wp_bind, wp_get]
  refine wp_ite (fun hn => ?_) fun hm => wp_mono (wp_hit (mem_cached_iff.mpr (not_not.mp hm)))
    (fun _ _ _ => trivial) fun _ _ => False.elim
  rw [wp_bind, loadPage, wp_bind]
  refine wp_mono (wp_makeRoom h hlt) ?_ fun _ _ hc => hc.2.2.1
  rintro - c' ⟨hr, hfits⟩
  exact absurd (hr.2 ▸ hfits) hfull

/-! ### Giving pages up -/

/-- Memory and spillway hold no page that they did not hold, and each as it was. -/
theorem WF.of_held (h : c.WF) (hsound : c'.Sound)
    (hent : ∀ x e, c'.entries.lookup x = some e → e.needsStamp = true → c.entries.lookup x = some e)
    (hheld : c'.cached ∪ c'.spillSet ⊆ c.cached ∪ c.spillSet)
    (hpage : ∀ x ∈ c'.cached ∪ c'.spillSet, c'.bufAt x = c.bufAt x)
    (hbound : ∀ x ∈ c'.cached, x < c.nextPageId → x < c'.nextPageId)
    (hroomy : c'.ensureSpillway.Roomy c'.spillwayMaxBytes c'.payloadSize) : c'.WF := by
  refine hsound.wf ⟨fun x e hx hn => h.typed.deferred x e (hent x e hx hn) hn, fun x hx b hb => ?_,
    fun x hx => hbound x hx ?_, hroomy⟩
  · rw [hpage x hx] at hb
    exact h.typed.plain x (hheld hx) b hb
  · rcases Finset.mem_union.mp (hheld (Finset.mem_union_left _ hx)) with hx | hx
    · exact h.typed.bounded x hx
    · exact h.sound.bounded x (Finset.mem_union_right _ hx)

theorem Roomy_truncate {maxBytes payload : Nat} {spw : Spillway} (h : spw.Roomy maxBytes payload) :
    spw.truncate.Roomy maxBytes payload :=
  h.of_keys rfl rfl (Nat.zero_le _)

theorem WF.discarded (h : c.WF) : c.discarded.WF ∧ c.discarded.store = c.store.settled := by
  have hfields := c.discarded_fields
  have hcipher : c.discarded.cipher = c.cipher := by rw [hfields]
  have hmaxP : c.discarded.maxPages = c.maxPages := by rw [hfields]
  have hmaxB : c.discarded.spillwayMaxBytes = c.spillwayMaxBytes := by rw [hfields]
  have hpay : c.discarded.payloadSize = c.payloadSize := by rw [payloadSize, hcipher, payloadSize]
  have hspw : c.discarded.ensureSpillway = c.ensureSpillway.truncate :=
    ensureSpillway_truncate rfl hmaxB hpay
  obtain ⟨hsound, hundone⟩ := h.sound.discarded
  have hold : ∀ x ∈ c.discarded.cached ∪ c.discarded.spillSet,
      ∃ e, c.discarded.entries.lookup x = some e ∧ c.entries.lookup x = some e := by
    intro x hx
    rw [c.spillSet_discarded, Finset.union_empty] at hx
    obtain ⟨e, he⟩ := lookup_of_mem_cached hx
    exact ⟨e, he, (lookup_discarded he).1⟩
  refine ⟨h.of_held hsound (fun x e hx _ => (lookup_discarded hx).1) (fun x hx => ?_)
    (fun x hx => ?_) (fun x _ hlt => ?_) ?_, Store.ext (funext
      fun x => ?_) hundone.hot hundone.io hundone.next ?_ hundone.cipher⟩
  · obtain ⟨e, -, he⟩ := hold x hx
    exact Finset.mem_union_left _ (mem_cached_of_lookup he)
  · obtain ⟨e, he', he⟩ := hold x hx
    rw [bufAt_of_lookup he', bufAt_of_lookup he]
  · rwa [show c.discarded.nextPageId = c.nextPageId from hundone.next]
  · rw [hspw, hmaxB, hpay]
    exact Roomy_truncate h.typed.roomy
  · exact (view_eq _ x).trans (congrArg (Option.bind · Buf.contents) (congrFun hundone.page x))
  · change c.discarded.maxPages + c.discarded.spillwayMaxBytes / c.discarded.payloadSize = _
    rw [hmaxP, hmaxB, hpay]
    rfl

theorem wp_discardAllDirty (h : c.WF) {E : ChiselError → PageCache → Prop} :
    wp discardAllDirty c (fun _ c' => c'.WF ∧ c'.store = c.store.settled) E := by
  rw [discardAllDirty, wp_modify]
  exact h.discarded

/-! ### Cutting the file -/

theorem WF.truncated (h : c.WF) (n : Nat) :
    (c.truncated n).WF ∧ (c.truncated n).store = c.store.cut n := by
  have hfields := c.dropAbove_fields n
  have hcipher : (c.truncated n).cipher = c.cipher := by rw [truncated_eq, hfields]
  have hmaxP : (c.truncated n).maxPages = c.maxPages := by rw [truncated_eq, hfields]
  have hmaxB : (c.truncated n).spillwayMaxBytes = c.spillwayMaxBytes := by
    rw [truncated_eq, hfields]
  have hpay : (c.truncated n).payloadSize = c.payloadSize := by
    rw [payloadSize, hcipher, payloadSize]
  have hspw : (c.truncated n).ensureSpillway = { c.ensureSpillway with
      slots := (c.truncated n).ensureSpillway.slots } := c.ensureSpillway_dropAbove n
  have hspill : (c.truncated n).spillSet = c.spillSet.filter (· < n) := c.spillSet_dropAbove n
  have hlook : ∀ x, (c.truncated n).entries.lookup x =
      if x < n then c.entries.lookup x else none := c.lookup_dropAbove n
  obtain ⟨hsound, hcut⟩ := h.sound.truncated n
  have hheld : (c.truncated n).cached ∪ (c.truncated n).spillSet ⊆
    (c.cached ∪ c.spillSet).filter (· < n) := by
    rw [hspill, Finset.filter_union]
    exact Finset.union_subset_union_left fun x hx => Finset.mem_filter.mpr (cached_dropAbove hx)
  refine ⟨h.of_held hsound (fun x e hx _ => ?_) (hheld.trans (Finset.filter_subset _ _))
    (fun x hx => ?_) (fun x hx hlt => ?_) ?_, Store.ext
      (funext fun x => ?_) hcut.hot rfl rfl ?_ hcut.cipher⟩
  · rw [hlook] at hx
    split at hx
    · exact hx
    · cases hx
  · exact (hcut.page x).trans (if_pos (Finset.mem_filter.mp (hheld hx)).2)
  · exact lt_min hlt (cached_dropAbove hx).2
  · rw [hmaxB, hpay]
    refine h.typed.roomy.of_keys (by rw [hspw]) (by rw [hspw]) ?_
    rw [← card_spillSet, ← card_spillSet, hspill]
    exact Finset.card_filter_le _ _
  · change (c.truncated n).view x = if x < n then c.view x else none
    rw [view_eq, view_eq, show (c.truncated n).bufAt x = _ from hcut.page x]
    split <;> rfl
  · change (c.truncated n).maxPages + (c.truncated n).spillwayMaxBytes /
      (c.truncated n).payloadSize = _
    rw [hmaxP, hmaxB, hpay]
    rfl

theorem wp_truncate (h : c.WF) (hro : c.io.readOnly = false) (n : Nat)
    {E : ChiselError → PageCache → Prop} :
    wp (PageCache.truncate n) c (fun _ c' => c'.WF ∧ c'.store = c.store.cut n) E := by
  have hfields := c.dropAll_fields (c.entries.keys.filter fun id => n ≤ id)
  have hio : (c.dropAll (c.entries.keys.filter fun id => n ≤ id)).io = c.io := by rw [hfields]
  have hnext : (c.dropAll (c.entries.keys.filter fun id => n ≤ id)).nextPageId = c.nextPageId := by
    rw [hfields]
  simp only [PageCache.truncate, onIo, wp_bind, wp_modify, wp_get, PageIo.setPageCount, hio, hro,
    Bool.false_eq_true, if_false, wp_set, hnext]
  exact h.truncated n

end PageCache

/-! ### Flushing -/

/-- The store after hot pages were written to the file, in the order of `ws`. -/
structure Flushed (s : Store) (ws : List (Nat × Buf)) (s' : Store) : Prop where
  view : s'.view = s.view
  hot : ∀ x, x ∈ s'.hot ↔ x ∈ s.hot ∧ x ∉ ws.map Prod.fst
  io : s'.io = s.io.recordAll (ws.map fun w => .write w.1 (sealPage s.cipher w.1 w.2))
  next : s'.next = s.next
  room : s'.room = s.room
  cipher : s'.cipher = s.cipher
  writes : ∀ w ∈ ws, w.1 ∈ s.hot ∧ w.2.contents = s.view w.1

namespace PageCache

variable {c c' : PageCache} {id x : Nat} {e : CacheEntry}

theorem Written.flushed {ws : List (Nat × Buf)} (h : Written c.shelf ws c'.shelf)
    (hroom : c'.maxPages + c'.spillCap = c.maxPages + c.spillCap) :
    Flushed c.store ws c'.store where
  view := by
    rw [store_eq, store_eq]
    exact congrArg (fun page x => (page x : Option Buf).bind Buf.contents) h.page
  hot := h.hot
  io := h.io
  next := h.next
  room := hroom
  cipher := h.cipher
  writes w hw := by
    obtain ⟨h1, h2⟩ := h.writes w hw
    refine ⟨h1, ?_⟩
    rw [store_eq]
    exact (congrArg (Option.bind · Buf.contents) h2).symm

theorem enterDrained_held (c : PageCache) (id : Nat) (b : Buf) :
    (c.enterDrained id b).cached ⊆ insert id c.cached ∧
      ∀ x e, (c.enterDrained id b).entries.lookup x = some e → e.needsStamp = true →
        c.entries.lookup x = some e := by
  unfold enterDrained
  split
  · exact ⟨Finset.subset_insert _ _, fun x e hx _ => hx⟩
  · refine ⟨(cached_insert rfl).subset, fun x e hx hn => ?_⟩
    rw [lookup_insert_entry (c := c) rfl] at hx
    split at hx
    · obtain rfl := Option.some.inj hx
      cases hn
    · exact hx

theorem WF.writeback (h : c.WF) (hs : Writeback c c') :
    c'.WF ∧ ∃ ws, Flushed c.store ws c'.store := by
  obtain ⟨hsound, ws, hws⟩ := h.sound.writeback hs
  have hf := hs.fields.1
  have hspb : c'.spillwayMaxBytes = c.spillwayMaxBytes := by rw [hf]
  have hpay : c'.payloadSize = c.payloadSize := by
    unfold payloadSize
    rw [show c'.cipher = c.cipher from hws.cipher]
  have hroom : c'.maxPages + c'.spillCap = c.maxPages + c.spillCap := by
    unfold spillCap
    rw [hspb, hpay, hf]
  refine ⟨?_, ws, hws.flushed hroom⟩
  have hpage : ∀ x ∈ c'.cached ∪ c'.spillSet, c'.bufAt x = c.bufAt x :=
    fun x _ => congrFun hws.page x
  have hbound : ∀ x ∈ c'.cached, x < c.nextPageId → x < c'.nextPageId := fun x _ hx => by
    rwa [show c'.nextPageId = c.nextPageId from hws.next]
  cases hs with
  | evict he hd =>
    refine h.of_held hsound (fun x e hx _ => ?_) (Finset.union_subset_union_left ?_) hpage hbound
      h.typed.roomy
    · rw [lookup_drop] at hx
      split at hx
      · cases hx
      · exact hx
    · rw [cached_drop]
      exact Finset.erase_subset _ _
  | write he hd =>
    refine h.of_held hsound (fun x e hx hn => ?_)
      (Finset.union_subset_union_left (cached_modify (mem_cached_of_lookup he) rfl).subset)
        hpage hbound
      h.typed.roomy
    rw [lookup_insert_entry (c := c) rfl] at hx
    split at hx
    · obtain rfl := Option.some.inj hx
      rw [show CacheEntry.needsStamp _ = false from stampDeferred_needsStamp _] at hn
      cases hn
    · exact hx
  | recount => exact h.of_held hsound (fun x e hx _ => hx) subset_rfl hpage hbound h.typed.roomy
  | @drain x u b hu hb =>
    have hmem := (h.sound.of_rehydrate hu).1
    obtain ⟨hcached, hlook⟩ := (c.writeSpilled x u).enterDrained_held x b
    have hspw : ((c.writeSpilled x u).enterDrained x b).spillway =
      some (c.ensureSpillway.forget x) := by
      rw [enterDrained_fields]
      rfl
    refine h.of_held hsound hlook (fun y hy => ?_) hpage hbound ?_
    · rcases Finset.mem_union.mp hy with hy | hy
      · rcases Finset.mem_insert.mp (hcached hy) with rfl | hy
        · exact Finset.mem_union_right _ hmem
        · exact Finset.mem_union_left _ hy
      · rw [mem_spillSet_iff, ensureSpillway, hspw] at hy
        exact Finset.mem_union_right _ (mem_spillSet_iff.mpr (AList.mem_erase.mp hy).2)
    · rw [hspb, hpay, ensureSpillway, hspw]
      exact h.typed.roomy.forget x
  | strand hu hb =>
    obtain ⟨-, b, rfl, -⟩ := h.sound.of_rehydrate hu
    rw [openUnit_sealPage] at hb
    cases hb

theorem WF.writebacks (h : c.WF) (hs : Writebacks c c') :
    c'.WF ∧ ∃ ws, Flushed c.store ws c'.store := by
  have hwf : c'.WF := by
    induction hs with
    | refl => exact h
    | tail _ hs ih => exact (ih.writeback hs).1
  obtain ⟨-, ws, hws⟩ := h.sound.writebacks hs
  refine ⟨hwf, ws, hws.flushed ?_⟩
  have hf := hs.fields.1
  unfold spillCap payloadSize
  rw [hf]

/-- What a flush leaves: no page is hot, and every page that was is in the file. -/
def Flush (s s' : Store) : Prop :=
  ∃ ws s1, Flushed s ws s1 ∧ s1.hot = ∅ ∧ s' = { s1 with io := s1.io.record .sync }

theorem WF.of_io (h : c.WF) {io : PageIo} (hal : io.Aligned)
    (hdisk : ∀ x, ({ c with io := io } : PageCache).onDisk x = c.onDisk x) :
    ({ c with io := io } : PageCache).WF ∧
      ({ c with io := io } : PageCache).store = { c.store with io := io } := by
  refine ⟨⟨h.lru_nodup, h.mem_lru, h.dirty_count, fun x e hx => ?_, h.spill, hal, h.max_pos⟩,
    Store.ext (funext fun x => ?_) rfl rfl rfl rfl rfl⟩
  · rw [hdisk]
    exact h.entry x e hx
  · have hbuf : ({ c with io := io } : PageCache).bufAt x = c.bufAt x :=
      bufAt_congr rfl Iff.rfl rfl (hdisk x)
    exact (view_eq _ x).trans ((congrArg (Option.bind · Buf.contents) hbuf).trans
      (view_eq c x).symm)

theorem WF.sync (h : c.WF) : ({ c with io := c.io.record .sync } : PageCache).WF ∧
    ({ c with io := c.io.record .sync } : PageCache).store =
      { c.store with io := c.io.record .sync } :=
  h.of_io h.aligned fun _ => diskBuf_sync h.io_aligned

theorem wp_flush (h : c.WF) (hro : c.io.readOnly = false) {E : ChiselError → PageCache → Prop} :
    wp flush c (fun _ c' => c'.WF ∧ Flush c.store c'.store) E := by
  refine wp_mono (wp_flush_steps hro) ?_ fun _ _ h' => absurd h.sound.books h'.2
  rintro - c' ⟨c1, hback, hdirty, hspill, -, hc'⟩
  obtain ⟨hwf1, ws, hws⟩ := h.writebacks hback
  have hnone := hspill h.max_pos
  obtain ⟨hsound, hshelf⟩ := hwf1.sound.flushed hdirty hnone hc'
  have hrest : c'.entries = c1.entries ∧ c'.maxPages = c1.maxPages ∧
    c'.payloadSize = c1.payloadSize ∧
      c'.spillwayMaxBytes = c1.spillwayMaxBytes ∧
        c'.spillway = c1.spillway.map Spillway.truncate := by
    subst hc'
    exact ⟨rfl, rfl, rfl, rfl, rfl⟩
  obtain ⟨hent, hmaxP, hpay, hmaxB, hspw⟩ := hrest
  have hspillway := ensureSpillway_truncate hspw hmaxB hpay
  have hset : c'.spillSet = ∅ := by
    rw [spillSet, hspillway]
    rfl
  have hcached : c'.cached = c1.cached := by rw [cached, hent, cached]
  refine ⟨hwf1.of_held hsound (fun x e hx _ => hent ▸ hx) (by rw [hcached, hset, hnone])
    (fun x _ => ?_) (fun x _ hx => ?_) ?_, ws, c1.store, hws, ?_, ?_⟩
  · exact congrFun (congrArg Shelf.page hshelf) x
  · rwa [show c'.nextPageId = c1.nextPageId from congrArg Shelf.next hshelf]
  · rw [hspillway, hmaxB, hpay]
    exact Roomy_truncate hwf1.typed.roomy
  · change c1.dirtySet ∪ c1.spillSet = ∅
    rw [hdirty, hnone, Finset.empty_union]
  · rw [store_eq, hshelf, store_eq, spillCap, spillCap, hmaxP, hmaxB, hpay]
    refine Store.ext rfl ?_ rfl rfl rfl rfl
    change ∅ = c1.dirtySet ∪ c1.spillSet
    rw [hdirty, hnone, Finset.empty_union]

/-! ### Configuration -/

theorem WF.setCacheMaxBytes (h : c.WF) {n : Nat} (hn : 0 < n) :
    (PageCache.evictCleanToCap c.size { c with maxPages := n }).WF ∧ ∃ room,
      (PageCache.evictCleanToCap c.size { c with maxPages := n }).store =
        { c.store with room } := by
  have hwf : ({ c with maxPages := n } : PageCache).WF :=
    { h with max_pos := hn }
  rcases Finset.eq_empty_or_nonempty c.cached with hnone | ⟨x, hx⟩
  · rw [← card_cached, hnone, Finset.card_empty]
    exact ⟨hwf, n + c.spillCap, rfl⟩
  · have hr : ({ c with maxPages := n } : PageCache).size ≤ c.size := Nat.le_refl _
    obtain ⟨h1, h2⟩ := hwf.shifts (h.typed.bounded x hx) (evictCleanToCap_shifts x hr).1
    exact ⟨h1, n + c.spillCap, h2⟩

theorem WF.setSpillwayMaxBytes (h : c.WF) (hs : c.spillSet = ∅) {n : Nat}
    (hc' : c' = { c with
      spillwayMaxBytes := n
      spillway := c.spillway.map fun spw => { spw with maxBytes := n } }) :
    c'.WF ∧ ∃ room, c'.store = { c.store with room } := by
  obtain ⟨hspw, hsound, hshelf⟩ := h.sound.setSpillwayMaxBytes hc'
  have hcount : c.ensureSpillway.slotCount = 0 := by rw [← card_spillSet, hs, Finset.card_empty]
  have hset : c'.spillSet = c.spillSet := by
    rw [spillSet, hspw]
    rfl
  have hrest : c'.entries = c.entries ∧ c'.payloadSize = c.payloadSize ∧
    c'.spillwayMaxBytes = n := by
    subst hc'
    exact ⟨rfl, rfl, rfl⟩
  obtain ⟨hent, hpay, hmaxB⟩ := hrest
  have hcached : c'.cached = c.cached := by rw [cached, hent, cached]
  refine ⟨h.of_held hsound (fun x e hx _ => hent ▸ hx) (by rw [hset, hcached]) (fun x _ => ?_)
    (fun x _ hx => ?_) ?_, c'.maxPages + c'.spillCap, ?_⟩
  · exact congrFun (congrArg Shelf.page hshelf) x
  · rwa [show c'.nextPageId = c.nextPageId from congrArg Shelf.next hshelf]
  · rw [hspw, hmaxB, hpay]
    refine ⟨rfl, h.spill.payload_eq, ?_⟩
    change c.ensureSpillway.slotCount * _ ≤ _
    rw [hcount, Nat.zero_mul]
    exact Nat.zero_le _
  · rw [store_eq, hshelf, store_eq]
    rfl

/-! ### Superblock slots -/

/-- A unit that is not a page may be written where no page is. -/
theorem WF.writeSlot (h : c.WF) {u : DiskUnit} (hhot : id ∉ c.store.hot)
    (hold : c.onDisk id = none) (hnew : (openUnit c.cipher id u).toOption = none) :
    ({ c with io := c.io.record (.write id u) } : PageCache).WF ∧
      ({ c with io := c.io.record (.write id u) } : PageCache).store =
        { c.store with io := c.io.record (.write id u) } := by
  refine h.of_io h.aligned fun x => ?_
  by_cases hx : x = id
  · subst hx
    rw [hold]
    refine (diskBuf_cell (show (c.io.record (.write x u)).Aligned from h.aligned)).trans ?_
    change (openUnit c.cipher x ((c.io.image.write x u).cell x)).toOption = none
    rw [Image.write_cell_self, hnew]
  · exact diskBuf_write_ne h.io_aligned u hx

end PageCache

/-! ### The file after a flush -/

theorem replay_writes_cell {m : Image DiskUnit} {ws : List (Nat × DiskUnit)} {x : Nat}
    (hx : x ∉ ws.map Prod.fst) : (m.replay (ws.map fun w => .write w.1 w.2)).cell x = m.cell x := by
  induction ws generalizing m with
  | nil => rfl
  | cons w ws ih =>
    rw [List.map_cons, List.mem_cons, not_or] at hx
    rw [List.map_cons, Image.replay_cons, ih hx.2]
    exact Image.write_cell_ne _ _ hx.1

theorem replay_writes_len {m : Image DiskUnit} (ws : List (Nat × DiskUnit)) :
    m.len ≤ (m.replay (ws.map fun w => .write w.1 w.2)).len ∧
    (∀ w ∈ ws, w.1 < (m.replay (ws.map fun w => .write w.1 w.2)).len) ∧
    ∀ n, m.len ≤ n → (∀ w ∈ ws, w.1 < n) → (m.replay (ws.map fun w => .write w.1 w.2)).len ≤ n := by
  induction ws generalizing m with
  | nil => exact ⟨Nat.le_refl _, by simp, fun n hn _ => hn⟩
  | cons w ws ih =>
    obtain ⟨h1, h2, h3⟩ := ih (m := m.write w.1 w.2)
    rw [List.map_cons, Image.replay_cons]
    change _ ≤ ((m.write w.1 w.2).replay _).len ∧ _
    have hlen := Image.write_len m w.1 w.2
    refine ⟨by omega, fun v hv => ?_, fun n hn hall => ?_⟩
    · rcases List.mem_cons.mp hv with rfl | hv
      · change v.1 < ((m.write v.1 v.2).replay _).len
        omega
      · exact h2 v hv
    · refine h3 n ?_ fun v hv => hall v (List.mem_cons_of_mem _ hv)
      have := hall w List.mem_cons_self
      omega

namespace PageCache.Flush

variable {s s' : Store}

theorem view (h : Flush s s') : s'.view = s.view := by
  obtain ⟨ws, s1, hws, -, rfl⟩ := h
  exact hws.view

theorem hot (h : Flush s s') : s'.hot = ∅ := by
  obtain ⟨ws, s1, -, hhot, rfl⟩ := h
  exact hhot

theorem next (h : Flush s s') : s'.next = s.next := by
  obtain ⟨ws, s1, hws, -, rfl⟩ := h
  exact hws.next

theorem room (h : Flush s s') : s'.room = s.room := by
  obtain ⟨ws, s1, hws, -, rfl⟩ := h
  exact hws.room

theorem cipher (h : Flush s s') : s'.cipher = s.cipher := by
  obtain ⟨ws, s1, hws, -, rfl⟩ := h
  exact hws.cipher

/-- The events of a flush: writes of hot pages with what they read as, then a sync. -/
theorem events (h : Flush s s') : ∃ ws : List (Nat × Buf),
    s'.io = s.io.recordAll (ws.map (fun w => .write w.1 (sealPage s.cipher w.1 w.2)) ++ [.sync]) ∧
    (∀ w ∈ ws, w.1 ∈ s.hot ∧ w.2.contents = s.view w.1) ∧ ∀ x ∈ s.hot, x ∈ ws.map Prod.fst := by
  obtain ⟨ws, s1, hws, hhot, rfl⟩ := h
  refine ⟨ws, ?_, hws.writes, fun x hx => by_contra fun hn => ?_⟩
  · rw [PageIo.recordAll_append, ← hws.io]
    rfl
  · have := (hws.hot x).mpr ⟨hx, hn⟩
    rw [hhot] at this
    exact Finset.notMem_empty x this

theorem image (h : Flush s s') : (∀ x ∉ s.hot, s'.io.image.cell x = s.io.image.cell x) ∧
    s.io.image.len ≤ s'.io.image.len ∧ (∀ x ∈ s.hot, x < s'.io.image.len) ∧
    ∀ n, s.io.image.len ≤ n → (∀ x ∈ s.hot, x < n) → s'.io.image.len ≤ n := by
  obtain ⟨ws, hio, hws, hcov⟩ := h.events
  set us : List (Nat × DiskUnit) := ws.map fun w => (w.1, sealPage s.cipher w.1 w.2) with hus
  have himage : s'.io.image = s.io.image.replay (us.map fun w => .write w.1 w.2) := by
    rw [hio, PageIo.recordAll_fields, hus, List.map_map, Image.replay_append]
    rfl
  have hfst : us.map Prod.fst = ws.map Prod.fst := by
    rw [hus, List.map_map]
    rfl
  obtain ⟨h1, h2, h3⟩ := replay_writes_len (m := s.io.image) us
  rw [himage]
  refine ⟨fun x hx => replay_writes_cell ?_, h1, fun x hx => ?_, fun n hn hall => h3 n hn ?_⟩
  · rw [hfst]
    intro hm
    obtain ⟨w, hw, rfl⟩ := List.mem_map.mp hm
    exact hx (hws w hw).1
  · have hm := hcov x hx
    rw [← hfst] at hm
    obtain ⟨w, hw, rfl⟩ := List.mem_map.mp hm
    exact h2 w hw
  · intro w hw
    obtain ⟨v, hv, rfl⟩ := List.mem_map.mp hw
    exact hall v.1 (hws v hv).1

theorem io_fields (h : Flush s s') : s'.io.readOnly = s.io.readOnly ∧
    s'.io.stride = s.io.stride ∧ s'.io.fileStride = s.io.fileStride := by
  obtain ⟨ws, hio, -⟩ := h.events
  rw [hio, PageIo.recordAll_fields]
  exact ⟨rfl, rfl, rfl⟩

end PageCache.Flush

/-! ### An empty cache -/

/-- Nothing is in memory or in the spillway. -/
structure PageCache.Bare (c : PageCache) : Prop where
  entries : c.entries = ∅
  lru : c.lru = []
  dirtyCount : c.dirtyCount = 0
  spillway : c.spillway = none
  aligned : c.io.Aligned
  max_pos : 0 < c.maxPages

namespace PageCache.Bare

variable {c : PageCache}

theorem dirtySet (h : c.Bare) : c.dirtySet = ∅ := by
  unfold PageCache.dirtySet dirtyIds
  rw [h.entries]
  rfl

theorem spillSet (h : c.Bare) : c.spillSet = ∅ := by
  unfold PageCache.spillSet ensureSpillway
  rw [h.spillway]
  rfl

theorem wf (h : c.Bare) : c.WF := by
  have hlook : ∀ x, c.entries.lookup x = none := fun x => by
    rw [h.entries]
    rfl
  refine ⟨?_, fun id => ?_, ?_, fun id e he => ?_, ?_, h.aligned, h.max_pos⟩
  · rw [h.lru]
    exact List.nodup_nil
  · rw [h.lru, cached, h.entries]
    simp
  · rw [h.dirtyCount, h.dirtySet]
    rfl
  · rw [hlook] at he
    cases he
  · unfold ensureSpillway
    rw [h.spillway]
    refine ⟨rfl, rfl, ?_, fun id i hi => ?_⟩
    · exact (Nat.zero_mul _).trans_le (Nat.zero_le _)
    · cases hi

theorem hot (h : c.Bare) : c.store.hot = ∅ := by
  change c.dirtySet ∪ c.spillSet = ∅
  rw [h.dirtySet, h.spillSet]
  rfl

theorem fits (h : c.Bare) : c.store.Fits := by
  unfold Store.Fits
  rw [h.hot]
  exact Nat.zero_le _

end PageCache.Bare

end Chisel
