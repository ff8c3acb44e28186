import Chisel.CacheFlush
import Chisel.TxnLaw

/-! The bookkeeping of the page cache, and how many pages it holds. Neither depends on which pages
are asked for: it is kept by every access, and an access brings in at most one page. -/

namespace Chisel

open StateError

namespace PageCache

variable {c c' : PageCache} {id x : Nat} {e : CacheEntry}

/-- What an access that fails leaves of a cache: a page too many only where room was refused, and
then one. -/
def Strained (err : ChiselError) (c c' : PageCache) : Prop :=
  c'.Books ∧ c'.maxPages = c.maxPages ∧
    (Held c c' ∨ (err.isCapacity = true ∧ c'.size ≤ max c.size (c.maxPages + 1) + 1))

theorem wp_fetch_books (h : c.Books) (id : Nat) :
    wp (fetch id) c
      (fun e c' => c'.Books ∧ Held c c' ∧ c'.entries.lookup id = some e)
      (fun err c' => Strained err c c') := by
  refine wp_mono (wp_fetch_steps id) ?_ ?_
  · rintro e c' ⟨hs, he, hheld⟩
    exact ⟨h.shifts hs, hheld h, he⟩
  · rintro err c' ⟨hs, hdenied⟩
    refine ⟨h.shifts hs, by rw [hs.fields], ?_⟩
    cases hdenied with
    | crowded _ _ hsize => exact .inl (.of_size (by rw [hs.fields]) hsize)
    | unread _ _ _ hheld => exact .inl (hheld h)
    | broken _ hb => exact absurd h hb

theorem Books.modifyEntry (h : c.Books) (he : c.entries.lookup id = some e) (e' : CacheEntry)
    (hd : e'.dirty = true) (hc' : c' = { c with
      entries := c.entries.insert id e'
      dirtyCount := if e.dirty then c.dirtyCount else c.dirtyCount + 1 }) :
    c'.Books ∧ c'.maxPages = c.maxPages ∧ c'.size = c.size := by
  have hcached : c'.cached = c.cached := cached_modify (mem_cached_of_lookup he) (by rw [hc'])
  have hdirty : c'.dirtySet = insert id c.dirtySet := by
    rw [dirtySet_insert (c := c) (e := e') (by rw [hc']), if_pos hd]
  refine ⟨⟨⟨?_, ?_⟩, ?_, ?_⟩, by rw [hc'], by rw [← card_cached, hcached, card_cached]⟩
  · rw [hc']; exact h.lru.nodup
  · rw [hcached, hc']; exact h.lru.mem
  · have := h.counted
    rw [hdirty, hc']
    dsimp only
    split
    · next hde => rwa [Finset.insert_eq_self.mpr (mem_dirtySet.mpr ⟨e, he, hde⟩)]
    · exact (Finset.card_insert_le _ _).trans (by omega)
  · rw [hc']; exact h.stowed

/-! ### The law of the cache -/

/-- What an access does to a cache whose books are right. -/
def KeepsBooks (c c' : PageCache) : Prop := c.Books → c'.Books ∧ Held c c'

/-- What an access that fails does to it. -/
def FailsBooks (err : ChiselError) (c c' : PageCache) : Prop := c.Books → Strained err c c'

/-- An access is judged from a cache whose books are right. -/
theorem stays_of_books {α : Type} {x : CacheM α} (h : ∀ c : PageCache, c.Books →
    wp x c (fun _ c' => c'.Books ∧ Held c c') (fun err c' => Strained err c c')) :
    Stays KeepsBooks FailsBooks x := fun c => by
  by_cases hc : c.Books
  · exact wp_mono (h c hc) (fun _ _ h' _ => h') fun _ _ h' _ => h'
  · exact wp_mono wp_true (fun _ _ _ h' => absurd h' hc) fun _ _ _ h' => absurd h' hc

theorem wp_bind_fetch_books {α : Type} {k : CacheEntry → CacheM α} (h : c.Books)
    (hk : ∀ e c1, c1.Books → Held c c1 → c1.entries.lookup id = some e →
      wp (k e) c1 (fun _ c' => c'.Books ∧ Held c c') (fun err c' => Strained err c c')) :
    wp (fetch id >>= k) c (fun _ c' => c'.Books ∧ Held c c') (fun err c' => Strained err c c') := by
  rw [wp_bind]
  exact wp_mono (wp_fetch_books h id) (fun e c1 h1 => hk e c1 h1.1 h1.2.1 h1.2.2) fun _ _ h' => h'

/-- Room is made after the page has come in. -/
theorem wp_maybeEvict_after (h : c'.Books) (hmax : c'.maxPages = c.maxPages)
    (hone : c'.size ≤ c.size + 1) :
    wp maybeEvict c' (fun _ c'' => c''.Books ∧ Held c c'') (fun err c'' => Strained err c c'') := by
  refine wp_mono (wp_maybeEvict 0) ?_ ?_
  · rintro - c'' ⟨hs, -, hsize⟩
    have hmax' : c''.maxPages = c'.maxPages := by rw [Shifts.fields hs]
    have := hsize h.lru
    exact ⟨h.shifts hs, hmax'.trans hmax, by omega⟩
  · rintro err c'' ⟨hs, hno⟩
    have hb := h.shifts hs
    refine ⟨hb, by rw [Shifts.fields hs, hmax], ?_⟩
    rcases hno with ⟨hcap, -, hsize⟩ | ⟨-, hl⟩
    · exact .inr ⟨hcap, by omega⟩
    · exact absurd h.lru hl

theorem Books.purge (h : c.Books) (id : Nat) : (c.purge id).Books := by
  refine ⟨⟨(h.lru.drop id).nodup, (h.lru.drop id).mem⟩, ?_, ?_⟩
  · rw [show (c.purge id).dirtySet = c.dirtySet.erase id from dirtySet_drop]
    change _ ≤ if !c.isClean id && decide (id ∈ c.entries) then c.dirtyCount - 1 else c.dirtyCount
    split
    · next hd =>
      rw [Finset.card_erase_of_mem (mem_dirtySet_iff_purge.mp hd)]
      exact Nat.sub_le_sub_right h.counted 1
    · exact (Finset.card_le_card (Finset.erase_subset _ _)).trans h.counted
  · intro spw hs
    obtain ⟨spw0, hs0, rfl⟩ := Option.map_eq_some_iff.mp hs
    exact (h.stowed spw0 hs0).forget id

instance : CacheLaw KeepsBooks FailsBooks where
  refl c h := ⟨h, Held.refl c⟩
  trans h1 h2 h := ⟨(h2 (h1 h).1).1, (h1 h).2.trans (h2 (h1 h).1).2⟩
  fail h1 h2 h := by
    obtain ⟨hb, hheld⟩ := h1 h
    obtain ⟨hb', hmax, hor⟩ := h2 hb
    have := hheld.1
    have := hheld.2
    exact ⟨hb', hmax.trans hheld.1, hor.imp hheld.trans fun h => ⟨h.1, by omega⟩⟩
  raise _ h := ⟨h, rfl, .inl (Held.refl _)⟩
  fetch id := stays_of_books fun c hc =>
    wp_mono (wp_fetch_books hc id) (fun _ _ h => ⟨h.1, h.2.1⟩) fun _ _ h => h
  getMut id f := stays_of_books fun c hc => wp_bind_fetch_books hc fun e c1 hb hheld he => by
    rw [wp_modify]
    obtain ⟨h1, h2, h3⟩ := hb.modifyEntry he { e with buf := f e.buf, dirty := true } rfl rfl
    exact ⟨h1, h2.trans hheld.1, h3 ▸ hheld.2⟩
  getMutDeferredStamp id f := stays_of_books fun c hc =>
    wp_bind_fetch_books hc fun e c1 hb hheld he => by
      rw [wp_modify]
      obtain ⟨h1, h2, h3⟩ := hb.modifyEntry he ⟨f e.buf, true, true⟩ rfl rfl
      exact ⟨h1, h2.trans hheld.1, h3 ▸ hheld.2⟩
  newPage := stays_of_books fun c hc => by
    rw [PageCache.newPage, wp_bind, wp_get]
    refine wp_ite (fun _ => ?_) fun _ => ?_
    · rw [wp_bind, wp_throw]
      exact ⟨hc, rfl, .inl (Held.refl c)⟩
    · rw [wp_bind, wp_set, wp_bind]
      have hb := hc.enter c.nextPageId ⟨.zero, true, false⟩
      have hb : c.extended.Books := ⟨⟨hb.lru.nodup, hb.lru.mem⟩, hb.counted, hb.stowed⟩
      exact wp_mono (wp_maybeEvict_after (c := c) hb rfl (size_enter_le c _ _))
        (fun _ _ h => wp_ret h) fun _ _ h => h
  reissuePage id := stays_of_books fun c hc => by
    rw [PageCache.reissuePage, wp_bind, wp_modify]
    have hpurged : (c.purge id).size ≤ c.size := size_le_of_subset <| by
      rw [show (c.purge id).cached = _ from cached_drop]
      exact Finset.erase_subset _ _
    exact wp_maybeEvict_after (c := c) ((hc.purge id).enter id ⟨.zero, true, false⟩) rfl
      ((size_enter_le _ id _).trans (Nat.succ_le_succ hpurged))

/-! ### Writing to the file -/

theorem stays_onIo (f : PageIo → Except ChiselError PageIo) : Stays KeepsBooks FailsBooks
    (onIo f) :=
  stays_of_books fun c hc => by
    rw [onIo, wp_bind, wp_get]
    split
    · exact (wp_set _).mpr ⟨⟨⟨hc.lru.nodup, hc.lru.mem⟩, hc.counted, hc.stowed⟩, Held.refl c⟩
    · exact wp_fail ⟨hc, rfl, .inl (Held.refl c)⟩

theorem Books.dropAll (h : c.Books) (ids : List Nat) : (c.dropAll ids).Books := by
  induction ids generalizing c with
  | nil => exact h
  | cons id ids ih => exact ih (h.drop id)

theorem cached_dropAll_subset (c : PageCache) (ids : List Nat) :
    (c.dropAll ids).cached ⊆ c.cached := by
  intro x hx
  obtain ⟨e, he⟩ := lookup_of_mem_cached hx
  rw [lookup_dropAll] at he
  split at he
  · cases he
  · exact mem_cached_of_lookup he

theorem dirtySet_dropAll (c : PageCache) (ids : List Nat) :
    (c.dropAll ids).dirtySet = c.dirtySet \ ids.toFinset := by
  ext x
  simp only [mem_dirtySet, lookup_dropAll, Finset.mem_sdiff, List.mem_toFinset]
  by_cases hx : x ∈ ids <;> simp [hx]

theorem Books.recount (h : c.Books) (ids : List Nat) {count : Nat} {spw : Option Spillway}
    (hcount : (c.dirtySet \ ids.toFinset).card ≤ count)
    (hstowed : ∀ s, spw = some s → Stowed c.cipher s) :
    ({ c.dropAll ids with dirtyCount := count, spillway := spw } : PageCache).Books ∧
      Held c { c.dropAll ids with dirtyCount := count, spillway := spw } := by
  have hb := h.dropAll ids
  have hfields := dropAll_fields c ids
  have hcipher : (c.dropAll ids).cipher = c.cipher := by rw [hfields]
  have hmax : (c.dropAll ids).maxPages = c.maxPages := by rw [hfields]
  refine ⟨⟨⟨hb.lru.nodup, hb.lru.mem⟩, ?_, ?_⟩, Held.of_size hmax ?_⟩
  · change (c.dropAll ids).dirtySet.card ≤ count
    rw [dirtySet_dropAll]
    exact hcount
  · intro s hs
    change Stowed (c.dropAll ids).cipher s
    rw [hcipher]
    exact hstowed s hs
  · exact size_le_of_subset (cached_dropAll_subset c ids)

theorem stays_discardAllDirty : Stays KeepsBooks FailsBooks discardAllDirty := by
  refine stays_modify fun c hc => hc.recount c.dirtyIds ?_ fun s hs => ?_
  · change (c.dirtySet \ c.dirtySet).card ≤ 0
    simp
  · obtain ⟨s0, -, rfl⟩ := Option.map_eq_some_iff.mp hs
    exact Stowed.truncate s0

theorem stays_truncate (n : Nat) : Stays KeepsBooks FailsBooks (PageCache.truncate n) := by
  refine stays_bind (stays_modify fun c hc => hc.recount _ ?_ fun s hs => ?_) fun _ =>
    stays_bind (stays_onIo _) fun _ => stays_modify fun c hc =>
      ⟨⟨⟨hc.lru.nodup, hc.lru.mem⟩, hc.counted, hc.stowed⟩, Held.refl c⟩
  · -- what leaves the count leaves the set
    have hsplit : c.dirtySet \ (c.entries.keys.filter fun id => n ≤ id).toFinset =
        c.dirtySet \ (c.dirtyIds.filter fun id => n ≤ id).toFinset := by
      ext x
      simp only [Finset.mem_sdiff, List.mem_toFinset, List.mem_filter, and_congr_right_iff]
      intro hx
      have hdirty : x ∈ c.dirtyIds := List.mem_toFinset.mp hx
      have hkeys : x ∈ c.entries.keys := List.mem_toFinset.mp (dirtySet_subset_cached hx)
      simp [hdirty, hkeys]
    have hsub : (c.dirtyIds.filter fun id => n ≤ id).toFinset ⊆ c.dirtySet := fun x hx =>
      List.mem_toFinset.mpr (List.mem_of_mem_filter (List.mem_toFinset.mp hx))
    have := hc.counted
    rw [hsplit, Finset.card_sdiff_of_subset hsub,
      List.toFinset_card_of_nodup (c.dirtyIds_nodup.filter _)]
    omega
  · obtain ⟨s0, hs0, rfl⟩ := Option.map_eq_some_iff.mp hs
    exact (hc.stowed s0 hs0).forgetAll _

/-! ### Flushing -/

theorem Books.truncateSpillway (h : c.Books) {io : PageIo} :
    ({ c with spillway := c.spillway.map Spillway.truncate, io := io } : PageCache).Books := by
  refine ⟨⟨h.lru.nodup, h.lru.mem⟩, h.counted, fun s hs => ?_⟩
  obtain ⟨s0, -, rfl⟩ := Option.map_eq_some_iff.mp hs
  exact Stowed.truncate s0

theorem Books.refused (h : c.Books) (hs : Refused c c') : c'.Books ∧ Held c c' := by
  cases hs with
  | @stamp x e he hd =>
    have hcached : PageCache.cached { c with entries := c.entries.insert x e.stampDeferred } =
      c.cached :=
      cached_modify (mem_cached_of_lookup he) rfl
    refine ⟨⟨h.lru.keep rfl hcached, ?_, h.stowed⟩,
      Held.of_size rfl (size_le_of_subset hcached.subset)⟩
    rw [dirtySet_stamp he rfl]
    exact h.counted
  | forget hd x => exact ⟨(h.writeback (.recount hd)).forgetSpilled x, Held.refl c⟩
  | sync hd => exact ⟨(h.writeback (.recount hd)).truncateSpillway, Held.refl c⟩

theorem stays_flush : Stays KeepsBooks FailsBooks flush := by
  refine stays_of_books fun c hc => ?_
  cases hro : c.io.readOnly with
  | true =>
    refine wp_mono (wp_flush_refused hro) (fun _ _ hf => hf.elim) ?_
    rintro err c' (⟨-, hs⟩ | ⟨-, hb⟩)
    · obtain ⟨hb, hheld⟩ := hc.refused hs
      exact ⟨hb, hheld.1, .inl hheld⟩
    · exact absurd hc hb
  | false =>
    refine wp_mono (wp_flush_steps hro) ?_ fun _ _ h => absurd hc h.2
    rintro - c' ⟨c1, hback, -, -, hheld, rfl⟩
    exact ⟨(hc.writebacks hback).truncateSpillway, hheld hc⟩

theorem stays_scrubSlots (header : CryptoHeader) (written : Nat) (list : List Nat) :
    Stays KeepsBooks FailsBooks (TransactionManager.scrubSlots header written list) := by
  induction list with
  | nil => exact stays_pure _
  | cons slot rest ih =>
    refine stays_ite (stays_bind stays_get fun c => ?_) ih
    split
    · exact stays_throw fun _ h => ⟨h, rfl, .inl (Held.refl _)⟩
    · split
      · exact ih
      · exact stays_bind (stays_onIo _) fun _ => ih

instance (slots : Nat) (encrypted : Bool) : ManagerLaw slots encrypted KeepsBooks FailsBooks where
  refuse h := ⟨h, rfl, .inl (Held.refl _)⟩
  recover he hF h := by
    obtain ⟨h1, -, h3⟩ := hF h
    refine ⟨h1, h3.resolve_right fun hcap => ?_⟩
    rw [he] at hcap
    simp at hcap
  discardAllDirty := stays_discardAllDirty
  truncate := stays_truncate
  flush := stays_flush
  fsync := stays_onIo _
  writeSuperblock sb _ _ := stays_bind stays_get fun _ =>
    stays_bind (stays_onIo _) fun _ => stays_onIo _
  scrubSlots header written list _ := stays_scrubSlots header written list

end PageCache

end Chisel
