import Chisel.CacheSound

/-! The page cache keeps its consistency and acts on its store as the store's own operations do:
what it shows byte for byte, read as pages. -/

namespace Chisel

open StateError

variable {err : ChiselError} {s : Store} {p q : Page}

def Shelf.store (s : Shelf) (room : Nat) : Store where
  view x := (s.page x).bind Buf.contents
  hot := s.hot
  io := s.io
  next := s.next
  room := room
  cipher := s.cipher

theorem Shelf.store_put (s : Shelf) (id : Nat) (b : Buf) (room : Nat) :
    (s.put id b).store room = (s.store room).put id b.contents := by
  refine Store.ext (funext fun x => ?_) rfl rfl rfl rfl rfl
  by_cases hx : x = id
  · subst hx
    simp [Shelf.store, Shelf.put]
  · rw [Store.put_view_ne _ _ hx]
    simp [Shelf.store, Shelf.put, Function.update_of_ne hx]

structure Spillway.Roomy (maxBytes payload : Nat) (spw : Spillway) : Prop where
  maxBytes_eq : spw.maxBytes = maxBytes
  payload_eq : spw.payloadSize = payload
  bytes : spw.slotCount * payload ≤ maxBytes

namespace Spillway.Roomy

variable {maxBytes payload id : Nat} {spw spw' : Spillway}

theorem of_keys (h : Roomy maxBytes payload spw) (hm : spw'.maxBytes = spw.maxBytes)
    (hp : spw'.payloadSize = spw.payloadSize) (hc : spw'.slotCount ≤ spw.slotCount) :
    Roomy maxBytes payload spw' :=
  ⟨hm.trans h.maxBytes_eq, hp.trans h.payload_eq, (Nat.mul_le_mul_right _ hc).trans h.bytes⟩

theorem forget (h : Roomy maxBytes payload spw) (id : Nat) : Roomy maxBytes payload
    (spw.forget id) := by
  refine h.of_keys rfl rfl ?_
  change (AList.erase id spw.slots).keys.length ≤ spw.slots.keys.length
  rw [AList.keys_erase]
  exact List.length_erase_le

theorem spill (h : Roomy maxBytes payload spw) {u : DiskUnit} (hs : spw.spill id u = .ok spw') :
    Roomy maxBytes payload spw' := by
  unfold Spillway.spill at hs
  split at hs
  · obtain rfl := Except.ok.inj hs
    exact ⟨h.maxBytes_eq, h.payload_eq, h.bytes⟩
  next hnone =>
  split at hs
  · cases hs
  next hfit =>
  obtain rfl := Except.ok.inj hs
  refine ⟨h.maxBytes_eq, h.payload_eq, ?_⟩
  have hcount : (spw.slots.insert id spw.nextSlotIndex).keys.length = spw.slotCount + 1 := by
    rw [AList.keys_insert, List.length_cons,
      List.erase_of_not_mem (by rwa [AList.mem_keys.symm, ← AList.lookup_eq_none])]
    rfl
  rw [h.payload_eq, h.maxBytes_eq] at hfit
  change (spw.slots.insert id spw.nextSlotIndex).keys.length * payload ≤ maxBytes
  rw [hcount]
  omega

end Spillway.Roomy

namespace PageCache

variable {c c' : PageCache} {id x : Nat} {e : CacheEntry}

theorem view_eq (c : PageCache) (id : Nat) : c.view id = (c.bufAt id).bind Buf.contents := by
  unfold view bufAt
  cases c.entries.lookup id <;> rfl

theorem store_eq (c : PageCache) : c.store = c.shelf.store (c.maxPages + c.spillCap) :=
  Store.ext (funext c.view_eq) rfl rfl rfl rfl rfl

theorem view_of_lookup (h : c.entries.lookup id = some e) : c.view id = e.contents := by
  simp [view, h]

/-! ### Pages in place of bytes -/

/-- What the pages that memory and the spillway hold are known for. -/
structure Typed (c : PageCache) : Prop where
  deferred : ∀ x e, c.entries.lookup x = some e → e.needsStamp = true → e.buf.page.isData = true
  plain : ∀ x ∈ c.cached ∪ c.spillSet, ∀ b, c.bufAt x = some b → Plain b
  bounded : ∀ x ∈ c.cached, x < c.nextPageId
  roomy : c.ensureSpillway.Roomy c.spillwayMaxBytes c.payloadSize

theorem WF.lruOk (h : c.WF) : c.LruOk := ⟨h.lru_nodup, h.mem_lru⟩

theorem WF.sound (h : c.WF) : c.Sound where
  lru := h.lruOk
  counted := h.dirty_count
  clean x e hx := (h.entry x e hx).clean
  apart x hx := by
    obtain ⟨e, he⟩ := lookup_of_mem_cached hx
    exact (h.entry x e he).not_spilled
  stowed x i hi := by
    obtain ⟨h1, -, b, -, hb⟩ := h.spill.slot x i hi
    exact ⟨h1, b, hb⟩
  bounded x hx := by
    rcases Finset.mem_union.mp hx with hx | hx
    · obtain ⟨e, he, -⟩ := mem_dirtySet.mp hx
      exact (h.entry x e he).bounded
    · obtain ⟨i, hi⟩ := mem_spillSet.mp hx
      exact (h.spill.slot x i hi).2.1
  aligned := h.aligned
  max_pos := h.max_pos

theorem WF.typed (h : c.WF) : c.Typed where
  deferred x e hx := (h.entry x e hx).deferred
  plain x hx b hb := by
    by_cases hm : x ∈ c.cached
    · obtain ⟨e, he⟩ := lookup_of_mem_cached hm
      obtain rfl := Option.some.inj ((bufAt_of_lookup he).symm.trans hb)
      exact (h.entry x e he).plain
    · have hs := (Finset.mem_union.mp hx).resolve_left hm
      obtain ⟨i, hi⟩ := mem_spillSet.mp hs
      obtain ⟨-, -, b', hpl, hcell⟩ := h.spill.slot x i hi
      rw [bufAt_of_spilled hm hs, spilled_eq hi hcell] at hb
      exact Option.some.inj hb ▸ hpl
  bounded x hx := by
    obtain ⟨e, he⟩ := lookup_of_mem_cached hx
    exact (h.entry x e he).bounded
  roomy := ⟨h.spill.maxBytes_eq, h.spill.payload_eq, h.spill.bytes⟩

theorem Sound.wf (h : c.Sound) (ht : c.Typed) : c.WF where
  lru_nodup := h.lru.nodup
  mem_lru := h.lru.mem
  dirty_count := h.counted
  entry x e hx := by
    have hm := mem_cached_of_lookup hx
    exact ⟨h.clean x e hx, ht.deferred x e hx,
      ht.plain x (Finset.mem_union_left _ hm) _ (bufAt_of_lookup hx), h.apart x hm, ht.bounded x hm⟩
  spill := by
    refine ⟨ht.roomy.maxBytes_eq, ht.roomy.payload_eq, ht.roomy.bytes, fun x i hi => ?_⟩
    obtain ⟨h1, b, hb⟩ := h.stowed x i hi
    have hs : x ∈ c.spillSet := mem_spillSet.mpr ⟨i, hi⟩
    have hm : x ∉ c.cached := fun hm => h.apart x hm hs
    refine ⟨h1, h.bounded x (Finset.mem_union_right _ hs), b, ?_, hb⟩
    exact ht.plain x (Finset.mem_union_right _ hs) b ((bufAt_of_spilled hm hs).trans
      (spilled_eq hi hb))
  aligned := h.aligned
  max_pos := h.max_pos

theorem Shift.spillSet_subset (h : Shift id c c') : c'.spillSet ⊆ c.cached ∪ c.spillSet := by
  have hforget : (c.forgetSpilled id).spillSet ⊆ c.cached ∪ c.spillSet := by
    rw [spillSet_forgetSpilled]
    exact (Finset.erase_subset _ _).trans Finset.subset_union_right
  cases h with
  | @spill v e spw hx he hp hs =>
    intro y hy
    rw [mem_spillSet_iff] at hy
    change y ∈ spw.slots at hy
    unfold Spillway.spill at hs
    split at hs
    · obtain rfl := Except.ok.inj hs
      exact Finset.mem_union_right _ (mem_spillSet_iff.mpr hy)
    split at hs
    · cases hs
    obtain rfl := Except.ok.inj hs
    rcases (AList.mem_insert _).mp hy with rfl | hy
    · exact Finset.mem_union_left _ (mem_cached_of_lookup he)
    · exact Finset.mem_union_right _ (mem_spillSet_iff.mpr hy)
  | rehydrate | lose => exact hforget
  | evict | keep | load | touch => exact Finset.subset_union_right

theorem Shift.roomy (h : Shift id c c') (hr : c.ensureSpillway.Roomy c.spillwayMaxBytes
    c.payloadSize) :
    c'.ensureSpillway.Roomy c'.spillwayMaxBytes c'.payloadSize := by
  cases h with
  | spill hx he hp hs => exact hr.spill hs
  | rehydrate | lose => exact hr.forget id
  | evict | keep | load | touch => exact hr

/-- A page that is brought in was in the spillway, or its checksum was found right. -/
theorem Typed.shift (ht : c.Typed) (h : c.Sound) (hlt : id < c.nextPageId) (hs : Shift id c c') :
    c'.Typed := by
  have hshelf := (h.shift hs).2
  have hpage : c'.bufAt = c.bufAt := congrArg Shelf.page hshelf
  have hnext : c'.nextPageId = c.nextPageId := congrArg Shelf.next hshelf
  refine ⟨fun x e hx hn => ?_, fun x hx b hb => ?_, fun x hx => ?_, hs.roomy ht.roomy⟩
  · rcases hs.origin hx with hx | ⟨hf, -⟩ | ⟨hf, -⟩
    · exact ht.deferred x e hx hn
    · rw [hf] at hn
      cases hn
    · rw [hf] at hn
      cases hn
  · by_cases hold : x ∈ c.cached ∪ c.spillSet
    · exact ht.plain x hold b (hpage ▸ hb)
    rcases Finset.mem_union.mp hx with hx | hx
    · obtain ⟨e, he⟩ := lookup_of_mem_cached hx
      rcases hs.origin he with ho | ⟨-, ho⟩ | ⟨hf, rfl, ho | ⟨-, ho⟩⟩
      · exact absurd (Finset.mem_union_left _ (mem_cached_of_lookup ho)) hold
      · exact absurd (Finset.mem_union_left _ ho) hold
      · exact absurd (Finset.mem_union_right _ ho) hold
      · rw [bufAt_of_lookup he, stampDeferred_of_clean hf] at hb
        obtain rfl := Option.some.inj hb
        intro hst
        rw [ho] at hst
        cases hst
    · exact absurd (hs.spillSet_subset hx) hold
  · rw [hnext]
    obtain ⟨e, he⟩ := lookup_of_mem_cached hx
    rcases hs.origin he with ho | ⟨-, ho⟩ | ⟨-, rfl, -⟩
    · exact ht.bounded x (mem_cached_of_lookup ho)
    · exact ht.bounded x ho
    · exact hlt

theorem Typed.put (ht : c.Typed) (e' : CacheEntry)
    (hpage : c'.bufAt = Function.update c.bufAt id (some e'.stampDeferred.buf))
    (hlook : ∀ x, c'.entries.lookup x = if x = id then some e' else c.entries.lookup x)
    (hspill : c'.spillSet ⊆ c.spillSet) (hdef : e'.needsStamp = true → e'.buf.page.isData = true)
    (hplain : Plain e'.stampDeferred.buf) (hnext : c.nextPageId ≤ c'.nextPageId)
    (hlt : id < c'.nextPageId) (hroomy : c'.ensureSpillway.Roomy c'.spillwayMaxBytes
    c'.payloadSize) : c'.Typed := by
  have hold : ∀ x ∈ c'.cached, x ≠ id → x ∈ c.cached := by
    intro x hx hne
    obtain ⟨e, he⟩ := lookup_of_mem_cached hx
    rw [hlook, if_neg hne] at he
    exact mem_cached_of_lookup he
  refine ⟨fun x e hx hn => ?_, fun x hx b hb => ?_, fun x hx => ?_, hroomy⟩
  · rw [hlook] at hx
    split at hx
    · obtain rfl := Option.some.inj hx
      exact hdef hn
    · exact ht.deferred x e hx hn
  · rw [hpage] at hb
    by_cases hxi : x = id
    · subst hxi
      rw [Function.update_self] at hb
      exact Option.some.inj hb ▸ hplain
    · rw [Function.update_of_ne hxi] at hb
      rcases Finset.mem_union.mp hx with hx | hx
      · exact ht.plain x (Finset.mem_union_left _ (hold x hx hxi)) b hb
      · exact ht.plain x (Finset.mem_union_right _ (hspill hx)) b hb
  · by_cases hxi : x = id
    · exact hxi ▸ hlt
    · exact (ht.bounded x (hold x hx hxi)).trans_le hnext

/-! ### Making room -/

/-- Nothing changed that shows. -/
def Reads (c c' : PageCache) : Prop := c'.WF ∧ c'.store = c.store

theorem WF.shifts (h : c.WF) (hlt : id < c.nextPageId) (hs : Shifts id c c') : Reads c c' := by
  obtain ⟨hsound, hshelf⟩ := h.sound.shifts hs
  have htyped : c'.Typed := by
    induction hs with
    | refl => exact h.typed
    | tail hs hstep ih =>
      obtain ⟨h1, h2⟩ := h.sound.shifts hs
      refine (ih h1 h2).shift h1 ?_ hstep
      rw [show PageCache.nextPageId _ = c.nextPageId from congrArg Shelf.next h2]
      exact hlt
  refine ⟨hsound.wf htyped, ?_⟩
  have hroom : c'.maxPages + c'.spillCap = c.maxPages + c.spillCap := by
    rw [hs.fields]
    rfl
  rw [store_eq, store_eq, hshelf, hroom]

theorem disjoint_dirtySet_spillSet (h : c.WF) : Disjoint c.dirtySet c.spillSet := by
  rw [Finset.disjoint_left]
  intro x hx
  obtain ⟨e, he, -⟩ := mem_dirtySet.mp hx
  exact (h.entry x e he).not_spilled

theorem payloadSize_pos (c : PageCache) : 0 < c.payloadSize := by
  unfold payloadSize
  split <;> decide

theorem WF.not_fits (h : c.WF) (hover : c.Over) : ¬ c.store.Fits := by
  have heq : c.dirtySet = c.cached := Finset.eq_of_subset_of_card_le dirtySet_subset_cached (by
    rw [card_cached, ← h.dirty_count]
    exact hover.dirty)
  have hcap : c.spillCap ≤ c.ensureSpillway.slotCount := by
    rcases hover.full with hzero | hfull
    · rw [spillCap, hzero, Nat.zero_div]
      exact Nat.zero_le _
    · rw [h.spill.maxBytes_eq, h.spill.payload_eq] at hfull
      exact Nat.lt_succ_iff.mp ((Nat.div_lt_iff_lt_mul (payloadSize_pos c)).mpr hfull)
  have hcard := Finset.card_union_of_disjoint (disjoint_dirtySet_spillSet h)
  rw [heq, card_cached, card_spillSet] at hcard
  have hsize := hover.size
  simp only [Store.Fits, store, heq, hcard]
  omega

theorem WF.fits (h : c.WF) (hsize : c.size ≤ c.maxPages) : c.store.Fits := by
  have hcap : c.ensureSpillway.slotCount ≤ c.spillCap :=
    (Nat.le_div_iff_mul_le (payloadSize_pos c)).mpr h.spill.bytes
  have hle := Finset.card_le_card (dirtySet_subset_cached (c := c))
  rw [card_cached] at hle
  have := Finset.card_union_le c.dirtySet c.spillSet
  rw [card_spillSet] at this
  simp only [Store.Fits, store]
  omega

/-- Memory ran out while nothing changed that shows. -/
def Crowded (c : PageCache) (err : ChiselError) (c' : PageCache) : Prop :=
  c'.WF ∧ c'.store = c.store ∧ err.isCapacity = true ∧ ¬ c.store.Fits

theorem WF.crowded (h : c.WF) (hlt : id < c.nextPageId) (hs : Shifts id c c')
    (hcap : err.isCapacity = true) (hover : c'.Over) : Crowded c err c' := by
  obtain ⟨hwf, hst⟩ := h.shifts hlt hs
  exact ⟨hwf, hst, hcap, hst ▸ hwf.not_fits hover⟩

theorem wp_makeRoom (h : c.WF) (hlt : id < c.nextPageId) :
    wp maybeEvict c (fun _ c' => Reads c c' ∧ c'.store.Fits) (Crowded c) := by
  refine wp_mono (wp_maybeEvict id) ?_ ?_
  · rintro - c' ⟨hs, -, hsize⟩
    have hr := h.shifts hlt hs
    exact ⟨hr, hr.1.fits (hsize h.lruOk)⟩
  · rintro err c' ⟨hs, ⟨hcap, hstuck, -⟩ | ⟨-, hl⟩⟩
    · exact h.crowded hlt hs hcap (hstuck.over (h.sound.books.shifts hs))
    · exact absurd h.lruOk hl

/-! ### Loading a page -/

/-- Why a page access failed: too many pages are hot, or there is no such page. -/
def Missed (s : Store) (id : Nat) (err : ChiselError) : Prop :=
  (err.isCapacity = true ∧ ¬ s.Fits) ∨ (id ∉ s.hot ∧ s.view id = none)

/-- Why a page could not be had: too many pages are hot, or the file has more pages than a packed
pointer can name. -/
def Exhausted (err : ChiselError) (s : Store) : Prop :=
  (err.isCapacity = true ∧ ¬ s.Fits) ∨ (err = .panicked ∧ 2 ^ 58 ≤ s.next)

theorem Exhausted.of_store {s' : Store} (hst : s' = s)
    (h : err.isCapacity = true ∧ ¬ s.Fits) : Exhausted err s' := .inl (hst ▸ h)

theorem Crowded.of_reads {c0 : PageCache} {c' : PageCache} (h : Reads c0 c)
    (hc : Crowded c err c') : Crowded c0 err c' := by
  obtain ⟨h1, h2, h3, h4⟩ := hc
  exact ⟨h1, h2.trans h.2, h3, h.2 ▸ h4⟩

theorem Reads.trans {c0 c' : PageCache} (h : Reads c0 c) (h' : Reads c c') : Reads c0 c' :=
  ⟨h'.1, h'.2.trans h.2⟩

theorem Missed.not_fits_of_view
    (h : Missed s id err) (hv : s.view id = some p) : err.isCapacity = true ∧ ¬ s.Fits := by
  rcases h with h | ⟨-, h⟩
  · exact h
  · rw [hv] at h
    cases h

theorem Missed.not_fits_of_hot (h : Missed s id err)
    (hh : id ∈ s.hot) : err.isCapacity = true ∧ ¬ s.Fits := by
  rcases h with h | ⟨h, -⟩
  · exact h
  · exact absurd hh h

theorem wp_fetch (h : c.WF) (hlt : id < c.nextPageId) :
    wp (fetch id) c
      (fun e c' => c'.WF ∧ c'.store = c.store ∧ c'.entries.lookup id = some e)
      (fun err c' => c'.WF ∧ c'.store = c.store ∧ Missed c.store id err) := by
  refine wp_mono (wp_fetch_steps id) ?_ ?_
  · rintro e c' ⟨hs, he, -⟩
    obtain ⟨hwf, hst⟩ := h.shifts hlt hs
    exact ⟨hwf, hst, he⟩
  · rintro err c' ⟨hs, hdenied⟩
    obtain ⟨hwf, hst⟩ := h.shifts hlt hs
    refine ⟨hwf, hst, ?_⟩
    cases hdenied with
    | crowded hcap hover => exact .inl (h.crowded hlt hs hcap (hover h.sound.books)).2.2
    | broken _ hb => exact absurd h.sound.books hb
    | unread hn hns hr =>
      rw [← hst]
      refine .inr ⟨fun hh => ?_, ?_⟩
      · rcases Finset.mem_union.mp hh with hd | hd
        · exact hn (dirtySet_subset_cached hd)
        · exact hns hd
      · change c'.view id = none
        rw [view_eq, bufAt_of_onDisk hn hns]
        cases hdisk : c'.onDisk id with
        | none => rfl
        | some b => simp [Buf.contents, (readDisk_error hr).2 b hdisk]

/-! ### Reading a page -/

theorem page_of_contents (h : e.contents = some q) : e.buf.page = q := by
  unfold CacheEntry.contents CacheEntry.stampDeferred Buf.contents at h
  split at h <;> split at h <;> simp_all [Buf.stamp]

theorem wp_getPage (h : c.WF) (hlt : id < c.nextPageId) :
    wp (getPage id) c
      (fun p c' => c'.WF ∧ c'.store = c.store ∧ ∀ q, c.store.view id = some q → p = q)
      (fun err c' => c'.WF ∧ c'.store = c.store ∧ Missed c.store id err) := by
  simp only [getPage, wp_bind, wp_pure]
  refine wp_imp (wp_fetch h hlt) ?_
  rintro e c' ⟨hwf, hst, he⟩
  refine ⟨hwf, hst, fun q hq => ?_⟩
  rw [← hst, show c'.store.view id = e.contents from view_of_lookup he] at hq
  exact page_of_contents hq

/-- A page without contents reads as zeros, unless it is only on disk. -/
theorem wp_getPage_of_blank (h : c.WF) (hlt : id < c.nextPageId) (hv : c.store.view id = none) :
    wp (getPage id) c
      (fun p c' => Reads c c' ∧ p = .zero)
      (fun err c' => c'.WF ∧ c'.store = c.store ∧ Missed c.store id err) := by
  simp only [getPage, wp_bind, wp_pure]
  refine wp_imp (wp_fetch h hlt) ?_
  rintro e c' ⟨hwf, hst, he⟩
  refine ⟨⟨hwf, hst⟩, ?_⟩
  have hok := hwf.entry id e he
  have hnone : e.contents = none := by
    rw [← hv, ← hst]
    exact (view_of_lookup he).symm
  unfold CacheEntry.contents Buf.contents at hnone
  have hzero := hok.plain (by
    by_contra hne
    simp [hne] at hnone)
  unfold CacheEntry.stampDeferred at hzero
  split at hzero
  · exact hzero
  · exact hzero

theorem wp_getPage_of_view (h : c.WF) (hlt : id < c.nextPageId) (hv : c.store.view id = some p) :
    wp (getPage id) c
      (fun q c' => c'.WF ∧ c'.store = c.store ∧ q = p)
      (fun err c' => c'.WF ∧ c'.store = c.store ∧ err.isCapacity = true ∧ ¬ c.store.Fits) :=
  wp_mono (wp_getPage h hlt) (fun _ _ h' => ⟨h'.1, h'.2.1, h'.2.2 p hv⟩)
    fun _ _ h' => ⟨h'.1, h'.2.1, h'.2.2.not_fits_of_view hv⟩

theorem buf_of_contents (h : e.contents = some q)
    (hd : e.needsStamp = true → e.buf.page.isData = true) (hq : q.isData = false) :
    e.needsStamp = false ∧ e.buf = ⟨q, true⟩ := by
  have hp := page_of_contents h
  have hns : e.needsStamp = false := by
    by_contra hne
    have := hd (by simpa using hne)
    rw [hp, hq] at this
    cases this
  refine ⟨hns, ?_⟩
  have hst : e.buf.stamped = true := by
    by_contra hne
    simp [CacheEntry.contents, CacheEntry.stampDeferred, hns, Buf.contents, hne] at h
  cases hb : e.buf
  simp_all

theorem wp_getBuf (h : c.WF) (hlt : id < c.nextPageId) :
    wp (getBuf id) c
      (fun b c' => c'.WF ∧ c'.store = c.store ∧
        ∀ q, c.store.view id = some q → q.isData = false → b = ⟨q, true⟩)
      (fun err c' => c'.WF ∧ c'.store = c.store ∧ Missed c.store id err) := by
  simp only [getBuf, wp_bind, wp_pure]
  refine wp_imp (wp_fetch h hlt) ?_
  rintro e c' ⟨hwf, hst, he⟩
  refine ⟨hwf, hst, fun q hq hd => ?_⟩
  rw [← hst, show c'.store.view id = e.contents from view_of_lookup he] at hq
  exact (buf_of_contents hq (hwf.entry id e he).deferred hd).2

/-! ### Writing a page -/

theorem WF.modifyEntry (h : c.WF) (he : c.entries.lookup id = some e) (e' : CacheEntry)
    (hd : e'.dirty = true) (hdef : e'.needsStamp = true → e'.buf.page.isData = true)
    (hp : e'.contents = some p) (hc' : c' = { c with
      entries := c.entries.insert id e'
      dirtyCount := if e.dirty then c.dirtyCount else c.dirtyCount + 1 }) :
    c'.WF ∧ c'.store = c.store.put id (some p) := by
  have hlt := h.typed.bounded id (mem_cached_of_lookup he)
  obtain ⟨hsound, hshelf⟩ := h.sound.modifyEntry he hlt hd
  have hplain : Plain e'.stampDeferred.buf := by
    intro hns
    simp [CacheEntry.contents, Buf.contents, hns] at hp
  subst hc'
  refine ⟨hsound.wf (h.typed.put e' (congrArg Shelf.page hshelf)
    (fun x => lookup_insert_entry rfl) subset_rfl hdef hplain
      (Nat.le_refl _) hlt h.typed.roomy), ?_⟩
  rw [store_eq, hshelf, Shelf.store_put, store_eq, show e'.stampDeferred.buf.contents = _ from hp]
  rfl

theorem wp_getMut (h : c.WF) (hlt : id < c.nextPageId) {f : Buf → Buf}
    (hf : ∀ e : CacheEntry, e.contents = c.store.view id →
      (e.needsStamp = true → e.buf.page.isData = true) →
      (e.needsStamp = true → (f e.buf).page.isData = true) ∧
        CacheEntry.contents { e with buf := f e.buf, dirty := true } = some p) :
    wp (getMut id f) c
      (fun _ c' => c'.WF ∧ c'.store = c.store.put id (some p))
      (fun err c' => c'.WF ∧ c'.store = c.store ∧ Missed c.store id err) := by
  simp only [getMut, wp_bind, wp_modify]
  refine wp_imp (wp_fetch h hlt) ?_
  rintro e c' ⟨hwf, hst, he⟩
  obtain ⟨h1, h2⟩ := hf e (by rw [← hst]; exact (view_of_lookup he).symm)
    (hwf.entry id e he).deferred
  obtain ⟨hwf', hst'⟩ := hwf.modifyEntry he { e with buf := f e.buf, dirty := true } rfl h1 h2 rfl
  exact ⟨hwf', by rw [hst', hst]⟩

theorem wp_writeStamped (h : c.WF) (hlt : id < c.nextPageId)
    (hnd : ∀ q, c.store.view id = some q → q.isData = false) (p : Page) :
    wp (writeStamped id p) c
      (fun _ c' => c'.WF ∧ c'.store = c.store.put id (some p))
      (fun err c' => c'.WF ∧ c'.store = c.store ∧ Missed c.store id err) := by
  refine wp_getMut h hlt fun e he hdef => ?_
  have hns : e.needsStamp = false := by
    by_contra hne
    have hne : e.needsStamp = true := by simpa using hne
    have hc : e.contents = some e.buf.page := by
      simp [CacheEntry.contents, CacheEntry.stampDeferred, hne, Buf.contents, Buf.stamp]
    have := hnd _ (he.symm.trans hc)
    simp [hdef hne] at this
  simp [hns, CacheEntry.contents, CacheEntry.stampDeferred, Buf.contents]

theorem wp_modifyPage (h : c.WF) (hlt : id < c.nextPageId)
    (hq : c.store.view id = some q) (hnd : q.isData = false) (g : Page → Page) :
    wp (getMut id fun b => ⟨g b.page, true⟩) c
      (fun _ c' => c'.WF ∧ c'.store = c.store.put id (some (g q)))
      (fun err c' => c'.WF ∧ c'.store = c.store ∧ Missed c.store id err) := by
  refine wp_getMut h hlt fun e he hdef => ?_
  obtain ⟨hns, hb⟩ := buf_of_contents (he.trans hq) hdef hnd
  simp [hns, hb, CacheEntry.contents, CacheEntry.stampDeferred, Buf.contents]

theorem wp_getMutDeferredStamp (h : c.WF) (hlt : id < c.nextPageId) {f : Buf → Buf}
    (hp : p.isData = true)
    (hf : ∀ b : Buf, (∀ q, c.store.view id = some q → b.page = q) → (f b).page = p) :
    wp (getMutDeferredStamp id f) c
      (fun _ c' => c'.WF ∧ c'.store = c.store.put id (some p))
      (fun err c' => c'.WF ∧ c'.store = c.store ∧ Missed c.store id err) := by
  simp only [getMutDeferredStamp, wp_bind, wp_modify]
  refine wp_imp (wp_fetch h hlt) ?_
  rintro e c' ⟨hwf, hst, he⟩
  have hpage : (f e.buf).page = p := by
    refine hf e.buf fun q hq => ?_
    rw [← hst, show c'.store.view id = e.contents from view_of_lookup he] at hq
    exact page_of_contents hq
  obtain ⟨hwf', hst'⟩ := hwf.modifyEntry (p := p) he
    { buf := f e.buf, dirty := true, needsStamp := true } rfl (fun _ => by rw [hpage, hp])
    (by simp [CacheEntry.contents, CacheEntry.stampDeferred, Buf.contents, Buf.stamp, hpage]) rfl
  exact ⟨hwf', by rw [hst', hst]⟩

theorem wp_copyPage {src dst : Nat} (h : c.WF) (hsrc : src < c.nextPageId)
    (hdst : dst < c.nextPageId) (hq : c.store.view src = some q) (hnd : q.isData = false)
    (hd : ∀ q, c.store.view dst = some q → q.isData = false) :
    wp (copyPage src dst) c
      (fun _ c' => c'.WF ∧ c'.store = c.store.put dst (some q))
      (fun err c' => c'.WF ∧ c'.store = c.store ∧
        (Missed c.store src err ∨ Missed c.store dst err)) := by
  simp only [copyPage, wp_bind]
  refine wp_mono (wp_getBuf h hsrc) ?_ fun _ _ h' => ⟨h'.1, h'.2.1, .inl h'.2.2⟩
  rintro b c' ⟨hwf, hst, hb⟩
  obtain rfl := hb q hq hnd
  have hnext : c'.nextPageId = c.nextPageId := congrArg Store.next hst
  rw [← hst] at hd
  refine wp_mono (wp_writeStamped hwf (by omega) hd q) (fun _ _ h' => ⟨h'.1, by rw [h'.2, hst]⟩) ?_
  rintro err c'' ⟨h1, h2, h3⟩
  rw [hst] at h2 h3
  exact ⟨h1, h2, .inr h3⟩

/-! ### New pages -/

theorem WF.hot_lt (h : c.WF) (hh : id ∈ c.store.hot) : id < c.nextPageId := h.sound.bounded id hh

theorem plain_zero : Plain .zero := fun _ => rfl

theorem wp_newPage (h : c.WF) :
    wp newPage c
      (fun id c' => id = c.nextPageId ∧ c.nextPageId ≠ u64Max ∧ c'.WF ∧
        c'.store = c.store.extend ∧ c'.store.Fits)
      (fun err c' => c'.WF ∧ Exhausted err c'.store ∧
        (c' = c ∨ (c.nextPageId ≠ u64Max ∧ c'.store = c.store.extend))) := by
  simp only [newPage, wp_bind, wp_get]
  refine wp_ite (fun hmax => ?_) fun hmax => ?_
  · rw [wp_bind, wp_throw]
    have hle : 2 ^ 58 ≤ c.nextPageId := hmax ▸ by decide
    exact ⟨h, .inr ⟨rfl, hle⟩, .inl rfl⟩
  obtain ⟨hsound, hshelf⟩ := h.sound.extended
  have hwf : c.extended.WF := hsound.wf (h.typed.put ⟨.zero, true,
    false⟩ (congrArg Shelf.page hshelf) (fun x => lookup_insert_entry rfl) subset_rfl
      (by simp) plain_zero (Nat.le_succ _) (Nat.lt_succ_self _)
    h.typed.roomy)
  have hst : c.extended.store = c.store.extend := by
    rw [store_eq, hshelf, store_eq]
    exact congrArg (fun s : Store => { s with next := c.nextPageId + 1 })
      (Shelf.store_put c.shelf _ .zero _)
  simp only [wp_bind, wp_set]
  refine wp_mono (wp_makeRoom hwf (Nat.lt_succ_self c.nextPageId)) ?_ ?_
  · rintro - c' ⟨⟨hwf', hst'⟩, hfits⟩
    exact wp_ret ⟨rfl, hmax, hwf', hst'.trans hst, hfits⟩
  · rintro err c' ⟨hwf', hst', hcap, hfull⟩
    exact ⟨hwf', .inl ⟨hcap, hst' ▸ hfull⟩, .inr ⟨hmax, hst'.trans hst⟩⟩

theorem wp_reissuePage (h : c.WF) (hlt : id < c.nextPageId) :
    wp (reissuePage id) c
      (fun _ c' => c'.WF ∧ c'.store = c.store.put id none ∧ c'.store.Fits)
      (fun err c' => c'.WF ∧ Exhausted err c'.store ∧ c'.store = c.store.put id none) := by
  obtain ⟨hsound, hshelf⟩ := h.sound.reissue hlt
  obtain ⟨-, -, -, hmax, hpay⟩ := ensureSpillway_purge c id
  have hcount : (c.purge id).ensureSpillway.slotCount ≤ c.ensureSpillway.slotCount := by
    rw [← card_spillSet, ← card_spillSet, spillSet_purge]
    exact Finset.card_erase_le
  have hwf := hsound.wf (h.typed.put ⟨.zero, true, false⟩ (congrArg Shelf.page hshelf)
    (fun x => lookup_enter_purge) (spillSet_purge.trans_subset (Finset.erase_subset _ _))
      (by simp) plain_zero (Nat.le_refl _) hlt
    (h.typed.roomy.of_keys hmax hpay hcount))
  have hst : ((c.purge id).enter id ⟨.zero, true, false⟩).store = c.store.put id none := by
    rw [store_eq, hshelf, Shelf.store_put, store_eq]
    rfl
  simp only [reissuePage, wp_bind, wp_modify]
  refine wp_mono (wp_makeRoom hwf hlt) ?_ ?_
  · rintro - c' ⟨⟨hwf', hst'⟩, hfits⟩
    exact ⟨hwf', hst'.trans hst, hfits⟩
  · rintro err c' ⟨hwf', hst', hcap, hfull⟩
    exact ⟨hwf', .inl ⟨hcap, hst' ▸ hfull⟩, hst'.trans hst⟩

end PageCache

end Chisel
