import Chisel.CacheSteps

/-! The page cache byte for byte. Nothing is known of the bytes that are written; only a page that
is written or reissued must have been handed out before, that is, lie below `next_page_id`.
Eviction, spilling and loading do not show, and the books stay right whether a call returns or
fails. -/

namespace Chisel

open StateError Device

/-! ### The file -/

namespace PageIo

variable {io : PageIo}

def recordAll (io : PageIo) (es : List (Event DiskUnit)) : PageIo := es.foldl record io

@[simp] theorem recordAll_nil : io.recordAll [] = io := rfl

theorem recordAll_append (es es' : List (Event DiskUnit)) :
    io.recordAll (es ++ es') = (io.recordAll es).recordAll es' := List.foldl_append

theorem recordAll_fields (es : List (Event DiskUnit)) :
    io.recordAll es = { io with image := io.image.replay es, trace := io.trace ++ es } := by
  induction es generalizing io with
  | nil => simp [recordAll]
  | cons e es ih =>
    change (io.record e).recordAll es = _
    rw [ih]
    simp [record]

/-- A handle reads its own file at the distance of its units. -/
def Aligned (io : PageIo) : Prop := io.stride = io.fileStride

theorem Aligned.pageCount (h : io.Aligned) : io.pageCount = io.image.len := if_pos h

theorem Aligned.readPageUnit (h : io.Aligned) (i : Nat) : io.readPageUnit i =
    if io.image.len ≤ i then .error (.invalidPageId i) else .ok (io.image.cell i) := by
  have halign : io.stride = io.fileStride ∨ i = 0 := .inl h
  rw [PageIo.readPageUnit, h.pageCount, if_pos halign]

end PageIo

def diskBuf (io : PageIo) (cipher : Option Dek) (id : Nat) : Option Buf :=
  (io.readPageUnit id).toOption.bind fun u => (openUnit cipher id u).toOption

theorem openUnit_blank (cipher : Option Dek) (id : Nat) :
    (openUnit cipher id default).toOption = none := rfl

section DiskBuf

variable {io : PageIo} {cipher : Option Dek} {id x : Nat}

theorem diskBuf_eq (h : io.Aligned) : diskBuf io cipher id =
    if io.image.len ≤ id then none else (openUnit cipher id (io.image.cell id)).toOption := by
  unfold diskBuf
  rw [h.readPageUnit]
  split <;> rfl

theorem diskBuf_cell (h : io.Aligned) :
    diskBuf io cipher id = (openUnit cipher id (io.image.cell id)).toOption := by
  rw [diskBuf_eq h]
  split
  · next hle => rw [io.image.blank_above id hle, openUnit_blank]
  · rfl

theorem diskBuf_write_self (h : io.Aligned) (b : Buf) :
    diskBuf (io.record (.write id (sealPage cipher id b))) cipher id = some b := by
  rw [diskBuf_cell (show (io.record _).Aligned from h)]
  change (openUnit cipher id ((io.image.write id _).cell id)).toOption = _
  rw [Image.write_cell_self, PageCache.openUnit_sealPage]
  rfl

theorem diskBuf_write_ne (h : io.Aligned) (u : DiskUnit) (hx : x ≠ id) :
    diskBuf (io.record (.write id u)) cipher x = diskBuf io cipher x := by
  rw [diskBuf_cell (show (io.record _).Aligned from h), diskBuf_cell h]
  change (openUnit cipher x ((io.image.write id u).cell x)).toOption = _
  rw [Image.write_cell_ne _ _ hx]

theorem diskBuf_sync (h : io.Aligned) : diskBuf
    (io.record .sync) cipher x = diskBuf io cipher x := by
  rw [diskBuf_cell (show (io.record _).Aligned from h), diskBuf_cell h]
  rfl

theorem diskBuf_setLen (h : io.Aligned) (n : Nat) : diskBuf (io.record (.setLen n)) cipher x =
    if x < n then diskBuf io cipher x else none := by
  rw [diskBuf_cell (show (io.record _).Aligned from h), diskBuf_cell h]
  change (openUnit cipher x ((io.image.setLen n).cell x)).toOption = _
  simp only [Image.setLen]
  split
  · rfl
  · exact openUnit_blank _ _

end DiskBuf

/-! ### What a cache shows -/

/-- What a cache shows: the buffer of every page, the pages that differ from the file, and the
file. -/
@[ext] structure Shelf where
  page : Nat → Option Buf
  hot : Finset Nat
  io : PageIo
  next : Nat
  cipher : Option Dek

namespace Shelf

def disk (s : Shelf) (id : Nat) : Option Buf := diskBuf s.io s.cipher id

def put (s : Shelf) (id : Nat) (b : Buf) : Shelf :=
  { s with page := Function.update s.page id (some b), hot := insert id s.hot }

/-- The page cannot be had: memory ran out, or it is not there with a valid checksum. -/
def Misses (s : Shelf) (id : Nat) (err : ChiselError) : Prop :=
  err.isCapacity = true ∨ (err ≠ .panicked ∧ ∀ b, s.page id = some b → b.stamped = false)

end Shelf

namespace PageCache

variable {c c' : PageCache} {id x : Nat} {e : CacheEntry}

theorem spilled_eq {i : Nat} {b : Buf} (hl : c.ensureSpillway.slots.lookup id = some i)
    (hc : c.ensureSpillway.cells i = some (id, sealPage c.cipher id b)) :
    c.spilled id = some b := by
  simp [spilled, Spillway.rehydrate, hl, hc, Except.toOption]

theorem spilled_congr {c' : PageCache} (hc : c'.cipher = c.cipher)
    (hl : c'.ensureSpillway.slots.lookup id = c.ensureSpillway.slots.lookup id)
    (hcell : ∀ i, c.ensureSpillway.slots.lookup id = some i →
      c'.ensureSpillway.cells i = c.ensureSpillway.cells i) : c'.spilled id = c.spilled id := by
  unfold spilled Spillway.rehydrate
  rw [hl, hc]
  cases h : c.ensureSpillway.slots.lookup id with
  | none => rfl
  | some i => simp [hcell i h]

/-- The buffer of a page, with a deferred stamp made: from memory, the spillway or the file. -/
def bufAt (c : PageCache) (id : Nat) : Option Buf :=
  match c.entries.lookup id with
  | some e => some e.stampDeferred.buf
  | none => if id ∈ c.spillSet then c.spilled id else c.onDisk id

def shelf (c : PageCache) : Shelf where
  page := c.bufAt
  hot := c.dirtySet ∪ c.spillSet
  io := c.io
  next := c.nextPageId
  cipher := c.cipher

/-- The books of a cache are right: the recency order lists the pages in memory, the dirty ones are
counted, a clean page is as the file has it and waits for no stamp, no page is both in memory and in
the spillway, and what differs from the file was handed out before. -/
structure Sound (c : PageCache) : Prop where
  lru : c.LruOk
  counted : c.dirtyCount = c.dirtySet.card
  clean : ∀ id e, c.entries.lookup id = some e → e.dirty = false →
    e.needsStamp = false ∧ c.onDisk id = some e.buf
  apart : ∀ id ∈ c.cached, id ∉ c.spillSet
  stowed : Stowed c.cipher c.ensureSpillway
  bounded : ∀ id ∈ c.shelf.hot, id < c.nextPageId
  aligned : c.io.Aligned
  max_pos : 0 < c.maxPages

theorem bufAt_of_lookup (h : c.entries.lookup id = some e) :
    c.bufAt id = some e.stampDeferred.buf := by
  simp [bufAt, h]

theorem bufAt_of_spilled (h : id ∉ c.cached) (hs : id ∈ c.spillSet) :
    c.bufAt id = c.spilled id := by
  simp [bufAt, lookup_eq_none_iff.mpr h, hs]

theorem bufAt_of_onDisk (h : id ∉ c.cached) (hs : id ∉ c.spillSet) : c.bufAt id = c.onDisk id := by
  simp [bufAt, lookup_eq_none_iff.mpr h, hs]

theorem bufAt_congr (hl : c'.entries.lookup id = c.entries.lookup id)
    (hs : id ∈ c'.spillSet ↔ id ∈ c.spillSet) (hsp : c'.spilled id = c.spilled id)
    (hd : c'.onDisk id = c.onDisk id) : c'.bufAt id = c.bufAt id := by
  simp only [bufAt, hl, hs, hsp, hd]

/-- A page that does not differ from the file is as the file has it. -/
theorem Sound.cold (h : c.Sound) (hx : x ∉ c.shelf.hot) : c.shelf.page x = c.shelf.disk x := by
  have hs : x ∉ c.spillSet := fun hs => hx (Finset.mem_union_right _ hs)
  change c.bufAt x = c.onDisk x
  by_cases hm : x ∈ c.cached
  · obtain ⟨e, he⟩ := lookup_of_mem_cached hm
    have hd : e.dirty = false := by
      by_contra hd
      exact hx (Finset.mem_union_left _ (mem_dirtySet.mpr ⟨e, he, by simpa using hd⟩))
    obtain ⟨hns, hdisk⟩ := h.clean x e he hd
    rw [bufAt_of_lookup he, stampDeferred_of_clean hns, hdisk]
  · exact bufAt_of_onDisk hm hs

theorem Sound.spilled_of_mem (h : c.Sound) (hs : id ∈ c.spillSet) :
    ∃ i b, c.ensureSpillway.slots.lookup id = some i ∧
      c.ensureSpillway.cells i = some (id, sealPage c.cipher id b) ∧ c.spilled id = some b := by
  obtain ⟨i, hi⟩ := mem_spillSet.mp hs
  obtain ⟨-, b, hb⟩ := h.stowed id i hi
  exact ⟨i, b, hi, hb, spilled_eq hi hb⟩

theorem Sound.books (h : c.Sound) : c.Books where
  lru := h.lru
  counted := h.counted.ge
  stowed spw hs := by
    have hstowed := h.stowed
    rwa [ensureSpillway, hs] at hstowed

theorem Sound.of_rehydrate (h : c.Sound) {u : DiskUnit}
    (hu : c.ensureSpillway.rehydrate id = .ok u) :
    id ∈ c.spillSet ∧ ∃ b, u = sealPage c.cipher id b ∧ c.spilled id = some b := by
  have hs := mem_spillSet_iff.mpr (mem_slots_of_rehydrate hu)
  obtain ⟨i, b, hi, hcell, hb⟩ := h.spilled_of_mem hs
  refine ⟨hs, b, ?_, hb⟩
  simpa [Spillway.rehydrate, hi, hcell] using hu.symm

/-- Where no clean page is left to evict, every page is dirty. -/
theorem Sound.dirty_of_pressed (h : c.Sound) (hp : c.Pressed) (he : c.entries.lookup x = some e) :
    e.dirty = true := by
  have hall : c.dirtySet = c.cached := Finset.eq_of_subset_of_card_le dirtySet_subset_cached (by
    rw [card_cached, ← h.counted]
    exact hp.size_le h.books)
  exact dirty_of_mem (hall ▸ mem_cached_of_lookup he) he

/-- A change that does not show. -/
theorem Sound.of_shelf (h : c.Sound) (hshelf : c'.shelf = c.shelf) (hmax : c'.maxPages = c.maxPages)
    (hlru : c'.LruOk) (hcount : c'.dirtyCount = c'.dirtySet.card)
    (hclean : ∀ x e, c'.entries.lookup x = some e → e.dirty = false →
      c.entries.lookup x = some e ∨ (e.needsStamp = false ∧ c.onDisk x = some e.buf))
    (hapart : ∀ x ∈ c'.cached, x ∉ c'.spillSet) (hstowed : Stowed c'.cipher c'.ensureSpillway) :
    c'.Sound where
  lru := hlru
  counted := hcount
  clean x e hx hd := by
    have hdisk : c'.onDisk x = c.onDisk x := congrFun (congrArg Shelf.disk hshelf) x
    rw [hdisk]
    rcases hclean x e hx hd with hx | hx
    · exact h.clean x e hx hd
    · exact hx
  apart := hapart
  stowed := hstowed
  bounded x hx := by
    rw [hshelf] at hx
    rw [show c'.nextPageId = c.nextPageId from congrArg Shelf.next hshelf]
    exact h.bounded x hx
  aligned := by
    rw [show c'.io = c.io from congrArg Shelf.io hshelf]
    exact h.aligned
  max_pos := hmax ▸ h.max_pos

/-! ### Steps -/

theorem Sound.drop_clean (h : c.Sound) (he : c.entries.lookup id = some e) (hd : e.dirty = false) :
    (c.drop id).Sound ∧ (c.drop id).shelf = c.shelf := by
  obtain ⟨hns, hdisk⟩ := h.clean id e he hd
  have hdirty : (c.drop id).dirtySet = c.dirtySet := by
    rw [dirtySet_drop]
    refine Finset.erase_eq_of_notMem fun hm => ?_
    rw [dirty_of_mem hm he] at hd
    cases hd
  have hpage : (c.drop id).bufAt = c.bufAt := by
    funext x
    by_cases hx : x = id
    · subst hx
      have hnot : x ∉ (c.drop x).cached := by simp [cached_drop]
      rw [bufAt_of_onDisk hnot (h.apart x (mem_cached_of_lookup he)), bufAt_of_lookup he,
        stampDeferred_of_clean hns]
      exact hdisk
    · exact bufAt_congr (by rw [lookup_drop, if_neg hx]) Iff.rfl rfl rfl
  have hshelf : (c.drop id).shelf = c.shelf := by
    simp only [shelf, hpage, hdirty]
    rfl
  refine ⟨h.of_shelf hshelf rfl (h.lru.drop id) (hdirty ▸ h.counted) (fun x e' hx _ => .inl ?_)
    (fun x hx => ?_) h.stowed, hshelf⟩
  · rw [lookup_drop] at hx
    split at hx
    · cases hx
    · exact hx
  · rw [cached_drop] at hx
    exact h.apart x (Finset.mem_of_mem_erase hx)

theorem lookup_spill {spw spw' : Spillway} {u : DiskUnit} (hno : spw.slots.lookup id = none)
    (hs : spw.spill id u = .ok spw') :
    (∀ x, spw'.slots.lookup x = if x = id then some spw.nextSlotIndex else spw.slots.lookup x) ∧
      spw'.cells = Function.update spw.cells spw.nextSlotIndex (some (id, u)) := by
  unfold Spillway.spill at hs
  rw [hno] at hs
  dsimp only at hs
  split at hs
  · cases hs
  · obtain rfl := Except.ok.inj hs
    exact ⟨fun x => lookup_insert_ite .., rfl⟩

theorem Sound.spillVictim (h : c.Sound) {victim : Nat} (he : c.entries.lookup victim = some e)
    (hd : e.dirty = true) {spw : Spillway}
    (hs : c.ensureSpillway.spill victim (sealPage c.cipher victim e.stampDeferred.buf) = .ok spw) :
    (c.spillVictim victim e spw).Sound ∧ (c.spillVictim victim e spw).shelf = c.shelf := by
  have hno : c.ensureSpillway.slots.lookup victim = none := by
    by_contra hne
    exact h.apart victim (mem_cached_of_lookup he) (mem_spillSet.mpr
      (Option.ne_none_iff_exists'.mp hne))
  obtain ⟨hlook, hcells⟩ := lookup_spill hno hs
  set c' := c.spillVictim victim e spw with hc'
  have hspw : c'.ensureSpillway = spw := rfl
  have hspill : c'.spillSet = insert victim c.spillSet := by
    ext x
    simp only [mem_spillSet, hspw, hlook, Finset.mem_insert]
    by_cases hx : x = victim <;> simp [hx]
  have hdirty : c'.dirtySet = c.dirtySet.erase victim := dirtySet_drop
  have hdm : victim ∈ c.dirtySet := mem_dirtySet.mpr ⟨e, he, hd⟩
  have hcached : c'.cached = c.cached.erase victim := cached_drop
  have hpage : c'.bufAt = c.bufAt := by
    funext x
    by_cases hx : x = victim
    · subst hx
      have hvictim : c'.spilled x = some e.stampDeferred.buf :=
        spilled_eq (i := c.ensureSpillway.nextSlotIndex) (by rw [hspw, hlook, if_pos rfl])
          (by rw [hspw, hcells]; exact Function.update_self ..)
      rw [bufAt_of_spilled (by simp [hcached]) (by simp [hspill]), hvictim, bufAt_of_lookup he]
    · refine bufAt_congr ((lookup_drop (c := c)).trans (if_neg hx)) ?_ ?_ rfl
      · rw [hspill, Finset.mem_insert]
        exact or_iff_right hx
      · refine spilled_congr rfl (by rw [hspw, hlook, if_neg hx]) fun i hi => ?_
        rw [hspw, hcells]
        exact Function.update_of_ne (h.stowed x i hi).1.ne ..
  have hhot : c'.dirtySet ∪ c'.spillSet = c.dirtySet ∪ c.spillSet := by
    rw [hdirty, hspill, Finset.union_insert, ← Finset.insert_union, Finset.insert_erase hdm]
  have hshelf : c'.shelf = c.shelf := Shelf.ext hpage hhot rfl rfl rfl
  refine ⟨h.of_shelf hshelf rfl ⟨(h.lru.drop victim).nodup, (h.lru.drop victim).mem⟩ ?_
    (fun x e' hx _ => .inl ?_) (fun x hx => ?_) (h.stowed.spill hs), hshelf⟩
  · rw [hdirty, Finset.card_erase_of_mem hdm, ← h.counted]
    change (if e.stampDeferred.dirty then _ else _) = _
    rw [stampDeferred_dirty, if_pos hd]
  · rw [show c'.entries.lookup x = _ from lookup_drop] at hx
    split at hx
    · cases hx
    · exact hx
  · rw [hcached] at hx
    obtain ⟨hne, hx⟩ := Finset.mem_erase.mp hx
    rw [hspill, Finset.mem_insert]
    exact not_or.mpr ⟨hne, h.apart x hx⟩

/-- A dirty entry may be stamped, wherever it goes in the order. -/
theorem Sound.stampEntry (h : c.Sound) (he : c.entries.lookup id = some e) (hd : e.dirty = true)
    (hentries : c'.entries = c.entries.insert id e.stampDeferred) (hlru : c'.LruOk)
    (hcount : c'.dirtyCount = c.dirtyCount) (hspw : c'.ensureSpillway = c.ensureSpillway)
    (hio : c'.io = c.io) (hcipher : c'.cipher = c.cipher) (hmax : c'.maxPages = c.maxPages)
    (hnext : c'.nextPageId = c.nextPageId) : c'.Sound ∧ c'.shelf = c.shelf := by
  have hlook : ∀ x, c'.entries.lookup x = if x =
    id then some e.stampDeferred else c.entries.lookup x :=
    fun x => lookup_insert_entry hentries
  have hcached : c'.cached = c.cached := cached_modify (mem_cached_of_lookup he) hentries
  have hdirty : c'.dirtySet = c.dirtySet := dirtySet_stamp he hentries
  have hspill : c'.spillSet = c.spillSet := by rw [spillSet, hspw, spillSet]
  have hpage : c'.bufAt = c.bufAt := by
    funext x
    by_cases hx : x = id
    · subst hx
      rw [bufAt_of_lookup (by rw [hlook, if_pos rfl]), bufAt_of_lookup he, stampDeferred_idem]
    · refine bufAt_congr (by rw [hlook, if_neg hx]) (by rw [hspill]) ?_
        (by rw [onDisk, hio, hcipher, onDisk])
      rw [spilled, hspw, hcipher, spilled]
  have hshelf : c'.shelf = c.shelf := Shelf.ext hpage (by rw [shelf, hdirty, hspill]; rfl) hio
    hnext hcipher
  refine ⟨h.of_shelf hshelf hmax hlru (by rw [hcount, hdirty, h.counted])
    (fun x e' hx hd' => .inl ?_) ?_ (by rw [hspw, hcipher]; exact h.stowed), hshelf⟩
  · rw [hlook] at hx
    split at hx
    · cases hx
      rw [stampDeferred_dirty, hd] at hd'
      cases hd'
    · exact hx
  · rw [hcached, hspill]
    exact h.apart

theorem Sound.putEntry (h : c.Sound) (hs : id ∉ c.spillSet) (hd : e.dirty = true)
    (hentries : c'.entries = c.entries.insert id e) (hlru : c'.LruOk)
    (hcount : c'.dirtyCount = (insert id c.dirtySet).card)
    (hspw : c'.ensureSpillway = c.ensureSpillway) (hio : c'.io = c.io)
    (hcipher : c'.cipher = c.cipher) (hmax : c'.maxPages = c.maxPages)
    (hnext : c.nextPageId ≤ c'.nextPageId) (hlt : id < c'.nextPageId) :
    c'.Sound ∧ c'.shelf = { c.shelf.put id e.stampDeferred.buf with next := c'.nextPageId } := by
  have hlook : ∀ x, c'.entries.lookup x = if x = id then some e else c.entries.lookup x :=
    fun x => lookup_insert_entry hentries
  have hdirty : c'.dirtySet = insert id c.dirtySet := by rw [dirtySet_insert hentries, if_pos hd]
  have hspill : c'.spillSet = c.spillSet := by rw [spillSet, hspw, spillSet]
  have hdisk : ∀ x, c'.onDisk x = c.onDisk x := fun x => by rw [onDisk, hio, hcipher, onDisk]
  have hhot : c'.dirtySet ∪ c'.spillSet = insert id (c.dirtySet ∪ c.spillSet) := by
    rw [hdirty, hspill, Finset.insert_union]
  have hpage : c'.bufAt = Function.update c.bufAt id (some e.stampDeferred.buf) := by
    funext x
    by_cases hx : x = id
    · subst hx
      rw [Function.update_self]
      exact bufAt_of_lookup (by rw [hlook, if_pos rfl])
    · rw [Function.update_of_ne hx]
      refine bufAt_congr (by rw [hlook, if_neg hx]) (by rw [hspill]) ?_ (hdisk x)
      rw [spilled, hspw, hcipher, spilled]
  refine ⟨⟨hlru, by rw [hcount,
    hdirty], fun x e' hx hd' => ?_, fun x hx => ?_, ?_, fun x hx => ?_, ?_, ?_⟩, Shelf.ext hpage
      hhot hio rfl hcipher⟩
  · rw [hlook] at hx
    split at hx
    · cases hx
      rw [hd] at hd'
      cases hd'
    · rw [hdisk]
      exact h.clean x e' hx hd'
  · rw [cached_insert hentries] at hx
    rw [hspill]
    rcases Finset.mem_insert.mp hx with rfl | hx
    · exact hs
    · exact h.apart x hx
  · rw [hspw, hcipher]
    exact h.stowed
  · have hx' : x ∈ insert id (c.dirtySet ∪ c.spillSet) := hhot ▸ hx
    rcases Finset.mem_insert.mp hx' with rfl | hx'
    · exact hlt
    · exact Nat.lt_of_lt_of_le (h.bounded x hx') hnext
  · rw [hio]
    exact h.aligned
  · rw [hmax]
    exact h.max_pos

theorem Sound.enterClean (h : c.Sound) (hn : id ∉ c.cached) (hs : id ∉ c.spillSet) {b : Buf}
    (hb : c.onDisk id = some b) {l : List Nat} (hc' : c' = { c with
      entries := c.entries.insert id ⟨b, false, false⟩, lru := l }) (hlru : c'.LruOk) :
    c'.Sound ∧ c'.shelf = c.shelf := by
  have hentries : c'.entries = c.entries.insert id ⟨b, false, false⟩ := by rw [hc']
  have hlook : ∀ x, c'.entries.lookup x = if x = id then some ⟨b, false,
    false⟩ else c.entries.lookup x :=
    fun x => lookup_insert_entry hentries
  have hdirty : c'.dirtySet = c.dirtySet := by
    rw [dirtySet_insert hentries, if_neg (by simp)]
    exact Finset.erase_eq_of_notMem fun hm => hn (dirtySet_subset_cached hm)
  have hcached := cached_insert hentries
  have hrest : c'.io = c.io ∧ c'.cipher = c.cipher ∧ c'.ensureSpillway = c.ensureSpillway ∧
      c'.maxPages = c.maxPages ∧ c'.nextPageId = c.nextPageId ∧ c'.dirtyCount = c.dirtyCount := by
    subst hc'
    exact ⟨rfl, rfl, rfl, rfl, rfl, rfl⟩
  obtain ⟨hio, hcipher, hspw, hmax, hnext, hcount⟩ := hrest
  have hspill : c'.spillSet = c.spillSet := by rw [spillSet, hspw, spillSet]
  have hpage : c'.bufAt = c.bufAt := by
    funext x
    by_cases hx : x = id
    · subst hx
      rw [bufAt_of_lookup (by rw [hlook, if_pos rfl]), bufAt_of_onDisk hn hs, hb]
      rfl
    · refine bufAt_congr (by rw [hlook, if_neg hx]) (by rw [hspill]) ?_
        (by rw [onDisk, hio, hcipher, onDisk])
      rw [spilled, hspw, hcipher, spilled]
  have hshelf : c'.shelf = c.shelf := Shelf.ext hpage (by rw [shelf, hdirty, hspill]; rfl) hio
    hnext hcipher
  refine ⟨h.of_shelf hshelf hmax hlru (by rw [hcount, hdirty, h.counted]) (fun x e' hx _ => ?_)
    (fun x hx => ?_) (by rw [hspw, hcipher]; exact h.stowed), hshelf⟩
  · rw [hlook] at hx
    split at hx
    · next hxi =>
      cases hx
      subst hxi
      exact .inr ⟨rfl, hb⟩
    · exact .inl hx
  · rw [hcached] at hx
    rw [hspill]
    rcases Finset.mem_insert.mp hx with rfl | hx
    · exact hs
    · exact h.apart x hx

/-- A page may leave the spillway when its place in memory is taken. -/
theorem Sound.load_spilled (h : c.Sound) (hn : id ∉ c.cached) (hs : id ∈ c.spillSet) {b : Buf}
    (hb : c.spilled id = some b) :
    ((c.forgetSpilled id).enter id ⟨b, true, false⟩).Sound ∧
      ((c.forgetSpilled id).enter id ⟨b, true, false⟩).shelf = c.shelf := by
  set c' := (c.forgetSpilled id).enter id ⟨b, true, false⟩ with hc'
  have hlook : ∀ x, c'.entries.lookup x = if x = id then some ⟨b, true,
    false⟩ else c.entries.lookup x :=
    fun x => lookup_insert_entry rfl
  have hdirty : c'.dirtySet = insert id c.dirtySet := by
    rw [show c'.dirtySet = _ from dirtySet_insert (c := c) rfl, if_pos rfl]
  have hspill : c'.spillSet = c.spillSet.erase id := spillSet_forgetSpilled
  have hhot : c'.dirtySet ∪ c'.spillSet = c.dirtySet ∪ c.spillSet := by
    rw [hdirty, hspill, Finset.insert_union, ← Finset.union_insert, Finset.insert_erase hs]
  have hpage : c'.bufAt = c.bufAt := by
    funext x
    by_cases hx : x = id
    · subst hx
      rw [bufAt_of_lookup (by rw [hlook, if_pos rfl]), bufAt_of_spilled hn hs, hb]
      rfl
    · refine bufAt_congr (by rw [hlook, if_neg hx]) ?_ ?_ rfl
      · rw [hspill, Finset.mem_erase]
        exact and_iff_right hx
      · exact spilled_congr rfl ((lookup_forgetSpilled (c := c)).trans (if_neg hx)) fun _ _ => rfl
  have hshelf : c'.shelf = c.shelf := Shelf.ext hpage hhot rfl rfl rfl
  refine ⟨h.of_shelf hshelf rfl (h.lru.pushFront rfl (cached_insert rfl)) ?_
    (fun x e' hx hd' => .inl ?_) (fun x hx => ?_) (h.stowed.forget id), hshelf⟩
  · rw [hdirty, Finset.card_insert_of_notMem fun hm => hn (dirtySet_subset_cached hm), ← h.counted]
    rfl
  · rw [hlook] at hx
    split at hx
    · cases hx
      cases hd'
    · exact hx
  · rw [show c'.cached = _ from cached_insert (c := c) rfl] at hx
    rw [hspill, Finset.mem_erase, not_and]
    intro hne
    exact h.apart x ((Finset.mem_insert.mp hx).resolve_left hne)

/-- No step of an access shows. -/
theorem Sound.shift (h : c.Sound) (hs : Shift id c c') : c'.Sound ∧ c'.shelf = c.shelf := by
  cases hs with
  | evict he hd => exact h.drop_clean he hd
  | spill hx he hp hs => exact h.spillVictim he (h.dirty_of_pressed hp he) hs
  | keep hx he hp =>
    exact h.stampEntry he (h.dirty_of_pressed hp he) rfl
      (h.lru.pushBack rfl (cached_insert rfl)) rfl rfl rfl rfl rfl rfl
  | rehydrate hn hu hb =>
    obtain ⟨hs, b, rfl, hspilled⟩ := h.of_rehydrate hu
    rw [openUnit_sealPage] at hb
    obtain rfl := Except.ok.inj hb
    exact h.load_spilled hn hs hspilled
  | lose hu hb =>
    obtain ⟨-, b, rfl, -⟩ := h.of_rehydrate hu
    rw [openUnit_sealPage] at hb
    cases hb
  | load hn hs hb hst => exact h.enterClean hn hs hb rfl (h.lru.pushFront rfl (cached_insert rfl))
  | touch hm =>
    exact ⟨{ h with lru := h.lru.pushFront rfl (Finset.insert_eq_self.mpr hm).symm }, rfl⟩

theorem Sound.shifts (h : c.Sound) (hs : Shifts id c c') : c'.Sound ∧ c'.shelf = c.shelf := by
  induction hs with
  | refl => exact ⟨h, rfl⟩
  | tail _ hs ih =>
    obtain ⟨h1, h2⟩ := ih.1.shift hs
    exact ⟨h1, h2.trans ih.2⟩

theorem wp_maybeEvict_sound (h : c.Sound) :
    wp maybeEvict c
      (fun _ c' => c'.Sound ∧ c'.shelf = c.shelf)
      (fun err c' => c'.Sound ∧ c'.shelf = c.shelf ∧ err.isCapacity = true) := by
  refine wp_mono (wp_maybeEvict 0) (fun _ c' h' => h.shifts h'.1) ?_
  rintro err c' ⟨hs, hno⟩
  obtain ⟨h1, h2⟩ := h.shifts hs
  rcases hno with ⟨hcap, -⟩ | ⟨-, hl⟩
  · exact ⟨h1, h2, hcap⟩
  · exact absurd h.lru hl

/-! ### Bringing in a page -/

theorem wp_fetch_sound (h : c.Sound) (id : Nat) :
    wp (fetch id) c
      (fun e c' => c'.Sound ∧ c'.shelf = c.shelf ∧ c'.entries.lookup id = some e)
      (fun err c' => c'.Sound ∧ c'.shelf = c.shelf ∧ c.shelf.Misses id err) := by
  refine wp_mono (wp_fetch_steps id) ?_ ?_
  · rintro e c' ⟨hs, he, -⟩
    obtain ⟨h1, h2⟩ := h.shifts hs
    exact ⟨h1, h2, he⟩
  · rintro err c' ⟨hs, hdenied⟩
    obtain ⟨h1, h2⟩ := h.shifts hs
    refine ⟨h1, h2, ?_⟩
    cases hdenied with
    | crowded hcap => exact .inl hcap
    | broken _ hb => exact absurd h.books hb
    | unread hn hns hr =>
      obtain ⟨⟨-, hp⟩, hdisk⟩ := readDisk_error hr
      refine .inr ⟨hp, fun b hb => hdisk b ?_⟩
      rw [← bufAt_of_onDisk hn hns, ← hb, ← h2]
      rfl

theorem wp_getPage_sound (h : c.Sound) (id : Nat) :
    wp (getPage id) c
      (fun p c' => c'.Sound ∧ c'.shelf = c.shelf ∧ ∃ b, c.shelf.page id = some b ∧ b.page = p)
      (fun err c' => c'.Sound ∧ c'.shelf = c.shelf ∧ c.shelf.Misses id err) := by
  simp only [getPage, wp_bind, wp_pure]
  refine wp_imp (wp_fetch_sound h id) ?_
  rintro e c' ⟨h1, h2, h3⟩
  refine ⟨h1, h2, e.stampDeferred.buf, ?_, ?_⟩
  · rw [← h2]
    exact bufAt_of_lookup h3
  · unfold CacheEntry.stampDeferred
    split <;> rfl

theorem wp_getBuf_sound (h : c.Sound) (id : Nat) :
    wp (getBuf id) c
      (fun b c' => c'.Sound ∧ c'.shelf = c.shelf ∧
        (c.shelf.page id = some b ∨ c.shelf.page id = some b.stamp))
      (fun _ c' => c'.Sound ∧ c'.shelf = c.shelf) := by
  simp only [getBuf, wp_bind, wp_pure]
  refine wp_mono (wp_fetch_sound h id) ?_ fun _ _ h' => ⟨h'.1, h'.2.1⟩
  rintro e c' ⟨h1, h2, h3⟩
  refine ⟨h1, h2, ?_⟩
  rw [← h2, show c'.shelf.page id = _ from bufAt_of_lookup h3]
  unfold CacheEntry.stampDeferred
  split
  · exact .inr rfl
  · exact .inl rfl

/-! ### Writing a page -/

theorem Sound.modifyEntry (h : c.Sound) (he : c.entries.lookup id = some e)
    (hlt : id < c.nextPageId) {e' : CacheEntry} (hd : e'.dirty = true) :
    ({ c with
        entries := c.entries.insert id e'
        dirtyCount := if e.dirty then c.dirtyCount else c.dirtyCount + 1 } : PageCache).Sound ∧
      ({ c with
        entries := c.entries.insert id e'
        dirtyCount := if e.dirty then c.dirtyCount else c.dirtyCount + 1 } : PageCache).shelf =
        c.shelf.put id e'.stampDeferred.buf := by
  have hm := mem_cached_of_lookup he
  refine h.putEntry (h.apart id hm) hd rfl ⟨h.lru.nodup, fun x => ?_⟩ ?_ rfl rfl rfl rfl
    (Nat.le_refl _) hlt
  · rw [show (PageCache.cached _) = _ from cached_insert (c := c) rfl, Finset.insert_eq_self.mpr hm]
    exact h.lru.mem x
  · change (if e.dirty then c.dirtyCount else c.dirtyCount + 1) = _
    cases hde : e.dirty with
    | true => rw [if_pos rfl, Finset.insert_eq_self.mpr (mem_dirtySet.mpr ⟨e, he, hde⟩), h.counted]
    | false =>
      rw [if_neg (by simp), h.counted, Finset.card_insert_of_notMem fun hmem => ?_]
      obtain ⟨e1, he1, hd1⟩ := mem_dirtySet.mp hmem
      rw [Option.some.inj (he.symm.trans he1), hd1] at hde
      cases hde

/-! ### Deferred stamps -/

/-- The page waits for a stamp. -/
def Owes (c : PageCache) (id : Nat) : Prop :=
    ∃ e, c.entries.lookup id = some e ∧ e.needsStamp = true

def OwesLess (c c' : PageCache) : Prop := ∀ x, c'.Owes x → c.Owes x

theorem OwesLess.shifts (h : Shifts id c c') : OwesLess c c' := by
  induction h with
  | refl => exact fun _ ho => ho
  | tail _ hs ih =>
    rintro x ⟨e, he, hn⟩
    refine ih x ⟨e, ?_, hn⟩
    rcases hs.origin he with h | ⟨h, -⟩ | ⟨h, -⟩
    · exact h
    · rw [h] at hn
      cases hn
    · rw [h] at hn
      cases hn

/-- The entry that a page is found with shows as the shelf has it. -/
theorem wp_fetch_entry (h : c.Sound) (id : Nat) :
    wp (fetch id) c
      (fun e c' => c'.Sound ∧ c'.shelf = c.shelf ∧ OwesLess c c' ∧ c'.entries.lookup id = some e ∧
        c.shelf.page id = some e.stampDeferred.buf ∧ (e.needsStamp = true → c.Owes id))
      (fun _ c' => c'.Sound ∧ c'.shelf = c.shelf) := by
  refine wp_mono (wp_fetch_steps id) ?_ fun _ c' h' => h.shifts h'.1
  rintro e c' ⟨hs, he, -⟩
  obtain ⟨h1, h2⟩ := h.shifts hs
  have hless := OwesLess.shifts hs
  refine ⟨h1, h2, hless, he, ?_, fun hn => hless id ⟨e, he, hn⟩⟩
  rw [← h2]
  exact bufAt_of_lookup he

/-- What a write leaves behind the reference, when the page was found as `e`. -/
structure WroteTo (id : Nat) (e e' : CacheEntry) (c c' : PageCache) : Prop where
  sound : c'.Sound
  found : c.shelf.page id = some e.stampDeferred.buf
  owed : e.needsStamp = true → c.Owes id
  left : c'.entries.lookup id = some e'
  shelf : c'.shelf = c.shelf.put id e'.stampDeferred.buf
  owes : ∀ x ≠ id, c'.Owes x → c.Owes x

theorem wp_write_sound (h : c.Sound) (hlt : id < c.nextPageId) (g : CacheEntry → CacheEntry)
    (hg : ∀ e, (g e).dirty = true) :
    wp (do
      let e ← fetch id
      modify fun c => { c with
        entries := c.entries.insert id (g e)
        dirtyCount := if e.dirty then c.dirtyCount else c.dirtyCount + 1 }) c
      (fun _ c' => ∃ e, WroteTo id e (g e) c c')
      (fun _ c' => c'.Sound ∧ c'.shelf = c.shelf) := by
  simp only [wp_bind, wp_modify]
  refine wp_imp (wp_fetch_entry h id) ?_
  rintro e c' ⟨h1, h2, h3, h4, h5, h6⟩
  have hlt' : id < c'.nextPageId := by
    rw [show c'.nextPageId = c.nextPageId from congrArg Shelf.next h2]
    exact hlt
  obtain ⟨hsound, hshelf⟩ := h1.modifyEntry h4 hlt' (hg e)
  refine ⟨e, hsound, h5, h6, (lookup_insert_entry (c := c') rfl).trans (if_pos rfl), ?_,
    fun x hx => ?_⟩
  · rw [hshelf, h2]
  · rintro ⟨e', he', hn'⟩
    rw [lookup_insert_entry (c := c') rfl, if_neg hx] at he'
    exact h3 x ⟨e', he', hn'⟩

theorem wp_getMut_sound (h : c.Sound) (hlt : id < c.nextPageId) (f : Buf → Buf) :
    wp (getMut id f) c (fun _ c' => ∃ e, WroteTo id e { e with buf := f e.buf, dirty := true } c c')
      (fun _ c' => c'.Sound ∧ c'.shelf = c.shelf) :=
  wp_write_sound h hlt (fun e => { e with buf := f e.buf, dirty := true }) fun _ => rfl

/-- A copy replaces the page; only the stamp of the copy may still be deferred. -/
theorem wp_copyPage_sound {src dst : Nat} (h : c.Sound) (hlt : dst < c.nextPageId) :
    wp (copyPage src dst) c
      (fun _ c' => ∃ e e' : CacheEntry, c.shelf.page src = some e.stampDeferred.buf ∧
        (e.needsStamp = true → c.Owes src) ∧ WroteTo dst e'
          { e' with buf := e.buf, dirty := true } c c')
      (fun _ c' => c'.Sound ∧ c'.shelf = c.shelf) := by
  simp only [copyPage, getBuf, wp_bind, wp_pure]
  refine wp_imp (wp_fetch_entry h src) ?_
  rintro e c1 ⟨h1, h2, h3, h4, h5, h6⟩
  have hlt1 : dst < c1.nextPageId := by
    rw [show c1.nextPageId = c.nextPageId from congrArg Shelf.next h2]
    exact hlt
  refine wp_mono (wp_getMut_sound h1 hlt1 fun _ => e.buf) ?_ fun _ _ h' => ⟨h'.1, h'.2.trans h2⟩
  rintro _ c' ⟨e', hw⟩
  refine ⟨e, e', h5, h6, hw.sound, ?_, fun hn => h3 dst (hw.owed hn), hw.left, ?_,
    fun x hx hn => h3 x (hw.owes x hx hn)⟩
  · rw [← h2]
    exact hw.found
  · rw [← h2]
    exact hw.shelf

/-! ### New pages -/

def extended (c : PageCache) : PageCache :=
  { c.enter c.nextPageId ⟨.zero, true, false⟩ with nextPageId := c.nextPageId + 1 }

theorem Sound.extended (h : c.Sound) :
    c.extended.Sound ∧ c.extended.shelf =
    { c.shelf.put c.nextPageId .zero with next := c.nextPageId + 1 } := by
  have hnot : c.nextPageId ∉ c.shelf.hot := fun hm => Nat.lt_irrefl _ (h.bounded _ hm)
  have hs : c.nextPageId ∉ c.spillSet := fun hm => hnot (Finset.mem_union_right _ hm)
  have hnd : c.nextPageId ∉ c.dirtySet := fun hm => hnot (Finset.mem_union_left _ hm)
  exact h.putEntry hs rfl
    (show c.extended.entries = c.entries.insert c.nextPageId ⟨.zero, true, false⟩ from rfl)
    (h.lru.pushFront rfl (cached_insert rfl))
    (by rw [Finset.card_insert_of_notMem hnd, ← h.counted]; rfl) rfl rfl rfl rfl (Nat.le_succ _)
    (Nat.lt_succ_self _)

theorem wp_newPage_sound (h : c.Sound) :
    wp newPage c
      (fun id c' => c'.Sound ∧ id = c.nextPageId ∧
        c'.shelf = { c.shelf.put id .zero with next := id + 1 })
      (fun err c' => (c.nextPageId = u64Max ∧ c' = c) ∨ (err.isCapacity = true ∧ c'.Sound ∧
        c'.shelf = { c.shelf.put c.nextPageId .zero with next := c.nextPageId + 1 })) := by
  rw [newPage, wp_bind, wp_get]
  refine wp_ite (fun hmax => ?_) fun _ => ?_
  · rw [wp_bind, wp_throw]
    exact .inl ⟨hmax, rfl⟩
  obtain ⟨h1, h2⟩ := h.extended
  rw [wp_bind, wp_set, wp_bind]
  refine wp_mono (wp_maybeEvict_sound h1) ?_ ?_
  · rintro - c' ⟨h3, h4⟩
    exact wp_ret ⟨h3, rfl, h4.trans h2⟩
  · rintro err c' ⟨h3, h4, h5⟩
    exact .inr ⟨h5, h3, h4.trans h2⟩

def purge (c : PageCache) (id : Nat) : PageCache :=
  { c.drop id with
    dirtyCount := if !c.isClean id && decide (id ∈ c.entries) then c.dirtyCount - 1
      else c.dirtyCount
    spillway := c.spillway.map fun (spw : Spillway) => spw.forget id }

theorem ensureSpillway_purge (c : PageCache) (id : Nat) :
    (c.purge id).ensureSpillway.slots = c.ensureSpillway.slots.erase id ∧
    (c.purge id).ensureSpillway.nextSlotIndex = c.ensureSpillway.nextSlotIndex ∧
    (c.purge id).ensureSpillway.cells = c.ensureSpillway.cells ∧
    (c.purge id).ensureSpillway.maxBytes = c.ensureSpillway.maxBytes ∧
    (c.purge id).ensureSpillway.payloadSize = c.ensureSpillway.payloadSize := by
  cases hs : c.spillway with
  | none =>
    simp only [purge, ensureSpillway, hs, Option.map_none, Option.getD_none]
    refine ⟨?_, rfl, rfl, rfl, rfl⟩
    apply AList.ext
    rfl
  | some spw =>
    simp only [purge, ensureSpillway, hs, Option.map_some, Option.getD_some]
    exact ⟨rfl, rfl, rfl, rfl, rfl⟩

theorem mem_dirtySet_iff_purge :
    (!c.isClean id && decide (id ∈ c.entries)) = true ↔ id ∈ c.dirtySet := by
  rw [Bool.and_eq_true, decide_eq_true_iff, ← mem_cached_iff]
  constructor
  · rintro ⟨hnc, hm⟩
    obtain ⟨e, he⟩ := lookup_of_mem_cached hm
    refine mem_dirtySet.mpr ⟨e, he, ?_⟩
    by_contra hd
    simp [isClean_iff.mpr ⟨e, he, by simpa using hd⟩] at hnc
  · intro hd
    refine ⟨?_, dirtySet_subset_cached hd⟩
    obtain ⟨e, he, hde⟩ := mem_dirtySet.mp hd
    simp [isClean, he, hde]

theorem lookup_purge : (c.purge id).ensureSpillway.slots.lookup x =
    if x = id then none else c.ensureSpillway.slots.lookup x := by
  rw [(ensureSpillway_purge c id).1]
  exact lookup_erase_ite ..

theorem spillSet_purge : (c.purge id).spillSet = c.spillSet.erase id := by
  ext x
  simp only [mem_spillSet, lookup_purge, Finset.mem_erase]
  by_cases hx : x = id <;> simp [hx]

theorem lookup_enter_purge : ((c.purge id).enter id e).entries.lookup x =
    if x = id then some e else c.entries.lookup x := by
  rw [lookup_enter]
  split
  · rfl
  · next hx => exact (lookup_drop (c := c)).trans (if_neg hx)

/-- The page is reissued, whatever memory and spillway held for it. -/
theorem Sound.reissue (h : c.Sound) (hlt : id < c.nextPageId) :
    ((c.purge id).enter id ⟨.zero, true, false⟩).Sound ∧
      ((c.purge id).enter id ⟨.zero, true, false⟩).shelf = c.shelf.put id .zero := by
  set c' := (c.purge id).enter id ⟨.zero, true, false⟩ with hc'
  obtain ⟨-, hidx, hcells, -, -⟩ := ensureSpillway_purge c id
  have hslot : ∀ x, c'.ensureSpillway.slots.lookup x =
      if x = id then none else c.ensureSpillway.slots.lookup x := fun x => lookup_purge
  have hspill : c'.spillSet = c.spillSet.erase id := spillSet_purge
  have hlook : ∀ x, c'.entries.lookup x =
      if x = id then some ⟨.zero, true, false⟩ else c.entries.lookup x :=
        fun x => lookup_enter_purge
  have hcached : c'.cached = insert id (c.cached.erase id) := by
    rw [cached_enter]; exact congrArg _ cached_drop
  have hdirty : c'.dirtySet = insert id c.dirtySet := by
    ext x
    simp only [mem_dirtySet, hlook, Finset.mem_insert]
    by_cases hx : x = id <;> simp [hx]
  have hhot : c'.dirtySet ∪ c'.spillSet = insert id (c.dirtySet ∪ c.spillSet) := by
    rw [hdirty, hspill]
    ext x
    simp only [Finset.mem_union, Finset.mem_insert, Finset.mem_erase]
    tauto
  have hpage : c'.bufAt = Function.update c.bufAt id (some .zero) := by
    funext x
    by_cases hx : x = id
    · subst hx
      rw [Function.update_self, bufAt_of_lookup (by rw [hlook, if_pos rfl])]
      rfl
    · rw [Function.update_of_ne hx]
      refine bufAt_congr (by rw [hlook, if_neg hx]) ?_ ?_ rfl
      · rw [hspill, Finset.mem_erase]
        exact and_iff_right hx
      · refine spilled_congr rfl (by rw [hslot, if_neg hx]) fun i _ => ?_
        rw [show c'.ensureSpillway.cells = _ from hcells]
  have hshelf : c'.shelf = c.shelf.put id .zero := Shelf.ext hpage hhot rfl rfl rfl
  have hsound : c'.Sound := by
    refine ⟨?_, ?_, fun x e' hx hd' => ?_, fun x hx => ?_, fun x i hi => ?_, fun x hx => ?_,
      h.aligned, h.max_pos⟩
    · have hdrop : (c.purge id).LruOk := ⟨(h.lru.drop id).nodup, (h.lru.drop id).mem⟩
      exact hdrop.pushFront rfl (cached_insert rfl)
    · rw [hdirty]
      change (if _ then c.dirtyCount - 1 else c.dirtyCount) + 1 = _
      by_cases hm : id ∈ c.dirtySet
      · have hpos := Finset.card_pos.mpr ⟨id, hm⟩
        rw [if_pos (mem_dirtySet_iff_purge.mpr hm), h.counted, Finset.insert_eq_self.mpr hm]
        omega
      · rw [if_neg fun hc => hm (mem_dirtySet_iff_purge.mp hc), h.counted,
          Finset.card_insert_of_notMem hm]
    · rw [hlook] at hx
      split at hx
      · cases hx
        cases hd'
      · exact h.clean x e' hx hd'
    · rw [hspill, Finset.mem_erase, not_and]
      intro hne
      rw [hcached] at hx
      exact h.apart x (Finset.mem_of_mem_erase ((Finset.mem_insert.mp hx).resolve_left hne))
    · rw [hslot] at hi
      split at hi
      · cases hi
      · rw [show c'.ensureSpillway.nextSlotIndex = _ from hidx,
          show c'.ensureSpillway.cells = _ from hcells]
        exact h.stowed x i hi
    · have hx' : x ∈ insert id (c.dirtySet ∪ c.spillSet) := hhot ▸ hx
      rcases Finset.mem_insert.mp hx' with rfl | hx'
      · exact hlt
      · exact h.bounded x hx'
  exact ⟨hsound, hshelf⟩

theorem wp_reissuePage_sound (h : c.Sound) (hlt : id < c.nextPageId) :
    wp (reissuePage id) c
      (fun _ c' => c'.Sound ∧ c'.shelf = c.shelf.put id .zero)
      (fun err c' => err.isCapacity = true ∧ c'.Sound ∧ c'.shelf = c.shelf.put id .zero) := by
  obtain ⟨hsound, hshelf⟩ := h.reissue hlt
  rw [reissuePage, wp_bind, wp_modify]
  refine wp_mono (wp_maybeEvict_sound hsound) ?_ ?_
  · rintro - c2 ⟨h1, h2⟩
    exact ⟨h1, h2.trans hshelf⟩
  · rintro err c2 ⟨h1, h2, h3⟩
    exact ⟨h3, h1, h2.trans hshelf⟩

theorem owes_enter (h : (c.enter id ⟨.zero, true, false⟩).Owes x) : x ≠ id ∧ c.Owes x := by
  obtain ⟨e, he, hn⟩ := h
  rw [lookup_enter] at he
  split at he
  · obtain rfl := Option.some.inj he
    cases hn
  · next hx => exact ⟨hx, e, he, hn⟩

theorem wp_newPage_owes : wp newPage c (fun id c' => ∀ x, c'.Owes x → x ≠ id ∧ c.Owes x)
    (fun _ _ => True) := by
  rw [newPage, wp_bind, wp_get]
  refine wp_ite (fun _ => ?_) fun _ => ?_
  · rw [wp_bind]
    exact wp_fail trivial
  rw [wp_bind, wp_set, wp_bind]
  refine wp_mono (wp_maybeEvict 0) (fun _ c' h => ?_) fun _ _ _ => trivial
  exact wp_ret fun x hx => owes_enter (OwesLess.shifts h.1 x hx)

theorem wp_reissuePage_owes :
    wp (reissuePage id) c (fun _ c' => ∀ x, c'.Owes x → x ≠ id ∧ c.Owes x) (fun _ _ => True) := by
  rw [reissuePage, wp_bind, wp_modify]
  refine wp_mono (wp_maybeEvict 0) (fun _ c' h x hx => ?_) fun _ _ _ => trivial
  obtain ⟨hne, e, he, hn⟩ := owes_enter (OwesLess.shifts h.1 x hx)
  rw [show PageCache.entries _ = (c.drop id).entries from rfl, lookup_drop, if_neg hne] at he
  exact ⟨hne, e, he, hn⟩

theorem Sound.owes_dirty (h : c.Sound) (ho : c.Owes x) : x ∈ c.dirtySet := by
  obtain ⟨e, he, hn⟩ := ho
  by_contra hd
  have hclean : e.dirty = false := by
    by_contra hd'
    exact hd (mem_dirtySet.mpr ⟨e, he, by simpa using hd'⟩)
  rw [(h.clean x e he hclean).1] at hn
  cases hn

/-! ### Flushing -/

/-- The shelf after hot pages were written to the file, in the order of `ws`. -/
structure Written (s : Shelf) (ws : List (Nat × Buf)) (s' : Shelf) : Prop where
  page : s'.page = s.page
  hot : ∀ x, x ∈ s'.hot ↔ x ∈ s.hot ∧ x ∉ ws.map Prod.fst
  io : s'.io = s.io.recordAll (ws.map fun w => .write w.1 (sealPage s.cipher w.1 w.2))
  next : s'.next = s.next
  cipher : s'.cipher = s.cipher
  writes : ∀ w ∈ ws, w.1 ∈ s.hot ∧ s.page w.1 = some w.2

theorem Written.refl (s : Shelf) : Written s [] s :=
  ⟨rfl, fun x => by simp, rfl, rfl, rfl, fun w hw => absurd hw List.not_mem_nil⟩

theorem Written.trans {s s' s'' : Shelf} {ws ws' : List (Nat × Buf)} (h : Written s ws s')
    (h' : Written s' ws' s'') : Written s (ws ++ ws') s'' where
  page := h'.page.trans h.page
  hot x := by rw [h'.hot, h.hot, List.map_append, List.mem_append, not_or, and_assoc]
  io := by rw [h'.io, h.io, h.cipher, List.map_append, PageIo.recordAll_append]
  next := h'.next.trans h.next
  cipher := h'.cipher.trans h.cipher
  writes w hw := by
    rcases List.mem_append.mp hw with hw | hw
    · exact h.writes w hw
    · obtain ⟨h1, h2⟩ := h'.writes w hw
      exact ⟨((h.hot _).mp h1).1, h.page ▸ h2⟩

theorem onDisk_write (h : c.io.Aligned) (b : Buf)
    (hio : c'.io = c.io.record (.write id (sealPage c.cipher id b)))
    (hcipher : c'.cipher = c.cipher) (x : Nat) :
    c'.onDisk x = if x = id then some b else c.onDisk x := by
  change diskBuf c'.io c'.cipher x = _
  rw [hio, hcipher]
  split
  · next hx =>
    subst hx
    exact diskBuf_write_self h _
  · next hx => exact diskBuf_write_ne h _ hx

theorem Sound.flushEntry (h : c.Sound) (he : c.entries.lookup id = some e) (hd : e.dirty = true) :
    (c.flushEntry id e).Sound ∧
      Written c.shelf [(id, e.stampDeferred.buf)] (c.flushEntry id e).shelf := by
  have hm := mem_cached_of_lookup he
  have hdm : id ∈ c.dirtySet := mem_dirtySet.mpr ⟨e, he, hd⟩
  have hlook : ∀ x, (c.flushEntry id e).entries.lookup x =
      if x = id then some { e.stampDeferred with dirty := false } else c.entries.lookup x :=
    fun x => lookup_insert_entry rfl
  have hcached : (c.flushEntry id e).cached = c.cached := cached_modify hm rfl
  have hdirty : (c.flushEntry id e).dirtySet = c.dirtySet.erase id := dirtySet_flushEntry
  have hdisk : ∀ x, (c.flushEntry id e).onDisk x =
      if x = id then some e.stampDeferred.buf else c.onDisk x :=
    onDisk_write h.aligned e.stampDeferred.buf rfl rfl
  have hpage : (c.flushEntry id e).bufAt = c.bufAt := by
    funext x
    by_cases hx : x = id
    · subst hx
      rw [bufAt_of_lookup (by rw [hlook, if_pos rfl]), bufAt_of_lookup he,
        stampDeferred_of_clean (e := { e.stampDeferred with dirty := false }) (by simp)]
    · refine bufAt_congr (by rw [hlook, if_neg hx]) Iff.rfl rfl ?_
      rw [hdisk, if_neg hx]
  have hhot : ∀ x, x ∈ (c.flushEntry id e).shelf.hot ↔ x ∈ c.shelf.hot ∧ x ≠ id := by
    intro x
    change x ∈ (c.flushEntry id e).dirtySet ∪ c.spillSet ↔ x ∈ c.dirtySet ∪ c.spillSet ∧ _
    rw [hdirty]
    by_cases hx : x = id
    · subst hx
      simp [h.apart x hm]
    · simp [hx]
  refine ⟨⟨h.lru.keep rfl hcached, ?_, fun x e' hx hd' => ?_, fun x hx => ?_, h.stowed,
    fun x hx => ?_, h.aligned, h.max_pos⟩, hpage, fun x => by simpa using hhot x, rfl, rfl, rfl, ?_⟩
  · rw [hdirty, Finset.card_erase_of_mem hdm, ← h.counted]
    rfl
  · rw [hlook] at hx
    rw [hdisk]
    split at hx
    · next hxi =>
      cases hx
      rw [if_pos hxi]
      exact ⟨stampDeferred_needsStamp e, rfl⟩
    · next hne =>
      rw [if_neg hne]
      exact h.clean x e' hx hd'
  · rw [hcached] at hx
    exact h.apart x hx
  · exact h.bounded x ((hhot x).mp hx).1
  · intro w hw
    obtain rfl := List.mem_singleton.mp hw
    exact ⟨Finset.mem_union_left _ hdm, bufAt_of_lookup he⟩

theorem Sound.not_cached (h : c.Sound) (hs : id ∈ c.spillSet) : id ∉ c.cached :=
    fun hm => h.apart id hm hs

theorem Sound.forgetSpilled (h : c.Sound) (id : Nat) : (c.forgetSpilled id).Sound := by
  refine { h with
    lru := { h.lru with }
    apart := fun x hx hs => ?_
    stowed := h.stowed.forget id
    bounded := fun x hx => ?_ }
  · rw [spillSet_forgetSpilled] at hs
    exact h.apart x hx (Finset.mem_of_mem_erase hs)
  · have hx' : x ∈ c.dirtySet ∪ (c.forgetSpilled id).spillSet := hx
    rw [spillSet_forgetSpilled] at hx'
    exact h.bounded x (Finset.union_subset_union_right (Finset.erase_subset _ _) hx')

/-- A page may go from the spillway to the file, and then enter memory as the file has it. -/
theorem Sound.drain (h : c.Sound) (hs : id ∈ c.spillSet) {b : Buf} (hb : c.spilled id = some b) :
    ((c.writeSpilled id (sealPage c.cipher id b)).enterDrained id b).Sound ∧
      Written c.shelf [(id, b)] ((c.writeSpilled id (sealPage c.cipher id b)).enterDrained id
        b).shelf := by
  set c1 := c.writeSpilled id (sealPage c.cipher id b) with hc1
  have hnc := h.not_cached hs
  have hspill : c1.spillSet = c.spillSet.erase id := spillSet_forgetSpilled
  have hdisk : ∀ x, c1.onDisk x = if x = id then some b else c.onDisk x :=
    onDisk_write h.aligned b rfl rfl
  have hpage : c1.bufAt = c.bufAt := by
    funext x
    by_cases hx : x = id
    · subst hx
      rw [bufAt_of_onDisk (c := c1) hnc (by simp [hspill]), bufAt_of_spilled hnc hs, hdisk,
        if_pos rfl, hb]
    · refine bufAt_congr rfl ?_ ?_ (by rw [hdisk, if_neg hx])
      · rw [hspill, Finset.mem_erase]
        exact and_iff_right hx
      · exact spilled_congr rfl ((lookup_forgetSpilled (c := c)).trans (if_neg hx)) fun _ _ => rfl
  have hhot : ∀ x, x ∈ c1.shelf.hot ↔ x ∈ c.shelf.hot ∧ x ≠ id := by
    intro x
    change x ∈ c.dirtySet ∪ c1.spillSet ↔ x ∈ c.dirtySet ∪ c.spillSet ∧ _
    rw [hspill]
    by_cases hx : x = id
    · subst hx
      simpa using fun hm => hnc (dirtySet_subset_cached hm)
    · simp [hx]
  have hf := h.forgetSpilled id
  have hsound : c1.Sound := by
    refine { hf with lru := { hf.lru with }, clean := fun x e hx hd => ?_ }
    have hne : x ≠ id := by
      rintro rfl
      exact hnc (mem_cached_of_lookup (c := c) hx)
    rw [hdisk, if_neg hne]
    exact h.clean x e hx hd
  have hshelf : (c1.enterDrained id b).Sound ∧ (c1.enterDrained id b).shelf = c1.shelf := by
    unfold PageCache.enterDrained
    split
    · exact ⟨hsound, rfl⟩
    refine hsound.enterClean hnc (by simp [hspill]) (by rw [hdisk, if_pos rfl]) rfl ?_
    cases c1.drainInsertion with
    | lruTail => exact hsound.lru.pushBack rfl (cached_insert rfl)
    | mru => exact hsound.lru.pushFront rfl (cached_insert rfl)
  refine ⟨hshelf.1, ?_⟩
  rw [hshelf.2]
  refine ⟨hpage, fun x => by simpa using hhot x, rfl, rfl, rfl, ?_⟩
  intro w hw
  obtain rfl := List.mem_singleton.mp hw
  exact ⟨Finset.mem_union_right _ hs, (bufAt_of_spilled hnc hs).trans hb⟩

theorem Sound.writeback (h : c.Sound) (hs : Writeback c c') :
    c'.Sound ∧ ∃ ws, Written c.shelf ws c'.shelf := by
  cases hs with
  | evict he hd =>
    obtain ⟨h1, h2⟩ := h.drop_clean he hd
    exact ⟨h1, [], h2 ▸ Written.refl _⟩
  | write he hd =>
    obtain ⟨h1, h2⟩ := h.flushEntry he hd
    exact ⟨h1, _, h2⟩
  | recount hd =>
    exact ⟨{ h with lru := { h.lru with }, counted := (congrArg Finset.card hd).symm }, [],
      Written.refl _⟩
  | drain hu hb =>
    obtain ⟨hs, b, rfl, hspilled⟩ := h.of_rehydrate hu
    rw [openUnit_sealPage] at hb
    obtain rfl := Except.ok.inj hb
    obtain ⟨h1, h2⟩ := h.drain hs hspilled
    exact ⟨h1, _, h2⟩
  | strand hu hb =>
    obtain ⟨-, b, rfl, -⟩ := h.of_rehydrate hu
    rw [openUnit_sealPage] at hb
    cases hb

theorem Sound.writebacks (h : c.Sound) (hs : Writebacks c c') :
    c'.Sound ∧ ∃ ws, Written c.shelf ws c'.shelf := by
  induction hs with
  | refl => exact ⟨h, [], Written.refl _⟩
  | tail _ hs ih =>
    obtain ⟨h1, ws, hws⟩ := ih
    obtain ⟨h2, ws', hws'⟩ := h1.writeback hs
    exact ⟨h2, _, hws.trans hws'⟩

/-- The file and the pages that were handed out are as before. -/
structure SameFile (s s' : Shelf) : Prop where
  disk : s'.disk = s.disk
  next : s'.next = s.next

theorem ensureSpillway_truncate {c' : PageCache}
    (hs : c'.spillway = c.spillway.map Spillway.truncate)
    (hmax : c'.spillwayMaxBytes = c.spillwayMaxBytes) (hpay : c'.payloadSize = c.payloadSize) :
    c'.ensureSpillway = c.ensureSpillway.truncate := by
  unfold ensureSpillway
  rw [hs, hmax, hpay]
  cases c.spillway <;> rfl

theorem Sound.truncateSpillway (h : c.Sound) :
    ({ c with spillway := c.spillway.map Spillway.truncate } : PageCache).Sound ∧
      ({ c with spillway := c.spillway.map Spillway.truncate } : PageCache).spillSet = ∅ ∧
      (c.spillSet = ∅ →
        ({ c with spillway := c.spillway.map Spillway.truncate } : PageCache).bufAt = c.bufAt) := by
  set c' : PageCache := { c with spillway := c.spillway.map Spillway.truncate } with hc'
  have hspw : c'.ensureSpillway = c.ensureSpillway.truncate := ensureSpillway_truncate rfl rfl rfl
  have hset : c'.spillSet = ∅ := by
    rw [spillSet, hspw]
    rfl
  refine ⟨{ h with
    lru := { h.lru with }
    apart := fun x _ => hset ▸ Finset.notMem_empty x
    stowed := hspw ▸ Stowed.truncate _
    bounded := fun x hx => ?_ }, hset, fun hs => funext fun x => ?_⟩
  · have hx' : x ∈ c.dirtySet ∪ c'.spillSet := hx
    rw [hset, Finset.union_empty] at hx'
    exact h.bounded x (Finset.mem_union_left _ hx')
  · simp only [bufAt, hset, hs, Finset.notMem_empty, if_false]
    rfl

theorem Sound.sync (h : c.Sound) : ({ c with io := c.io.record .sync } : PageCache).Sound ∧
    ({ c with io := c.io.record .sync } : PageCache).bufAt = c.bufAt := by
  have hdisk : ∀ x, ({ c with io := c.io.record .sync } : PageCache).onDisk x = c.onDisk x :=
    fun x => diskBuf_sync h.aligned
  refine ⟨{ h with lru := { h.lru with }, clean := fun x e hx hd => ?_ }, ?_⟩
  · rw [hdisk]
    exact h.clean x e hx hd
  · funext x
    exact bufAt_congr rfl Iff.rfl rfl (hdisk x)

/-- What a flush leaves: every page shows as before, and the file has it so. -/
structure FlushedTo (s s' : Shelf) : Prop where
  page : s'.page = s.page
  hot : s'.hot = ∅
  disk : s'.disk = s.page
  next : s'.next = s.next
  cipher : s'.cipher = s.cipher

/-- A flush of a cache leaves nothing that differs from the file. -/
theorem Sound.flushed {c1 : PageCache} (h1 : c1.Sound) (hdirty : c1.dirtySet = ∅)
    (hspill : c1.spillSet = ∅) (hc' : c' =
    { c1 with spillway := c1.spillway.map Spillway.truncate, io := c1.io.record .sync }) :
    c'.Sound ∧ c'.shelf = { c1.shelf with hot := ∅, io := c1.io.record .sync } := by
  obtain ⟨h2, hset, hpage⟩ := h1.truncateSpillway
  obtain ⟨h3, hpage'⟩ := h2.sync
  subst hc'
  refine ⟨h3, Shelf.ext (hpage'.trans (hpage hspill)) ?_ rfl rfl rfl⟩
  change c1.dirtySet ∪ PageCache.spillSet _ = ∅
  rw [hdirty, Finset.empty_union]
  exact hset

theorem Sound.refused (h : c.Sound) (hs : Refused c c') : c'.Sound ∧ SameFile c.shelf c'.shelf ∧
    ∀ x ∈ c.dirtySet, x ∈ c'.shelf.hot ∧ c'.shelf.page x = c.shelf.page x := by
  cases hs with
  | @stamp x e he hd =>
    have hst : PageCache.Sound { c with entries := c.entries.insert x e.stampDeferred } ∧
        PageCache.shelf { c with entries := c.entries.insert x e.stampDeferred } = c.shelf :=
      h.stampEntry he hd rfl (h.lru.keep rfl (cached_modify (mem_cached_of_lookup he) rfl)) rfl
        rfl rfl rfl rfl rfl
    obtain ⟨h1, h2⟩ := hst
    rw [h2]
    exact ⟨h1, ⟨rfl, rfl⟩, fun x hx => ⟨Finset.mem_union_left _ hx, rfl⟩⟩
  | forget hd x =>
    obtain ⟨h1, -⟩ := h.writeback (.recount hd)
    exact ⟨h1.forgetSpilled x, ⟨rfl, rfl⟩, by simp [hd]⟩
  | sync hd =>
    obtain ⟨h1, -⟩ := h.writeback (.recount hd)
    exact ⟨h1.truncateSpillway.1, ⟨rfl, rfl⟩, by simp [hd]⟩

theorem wp_flush_sound (h : c.Sound) :
    wp flush c
      (fun _ c' => c'.Sound ∧ FlushedTo c.shelf c'.shelf)
      (fun err c' => err = .readOnlyMode ∧ c'.Sound ∧ SameFile c.shelf c'.shelf ∧
        ∀ x ∈ c.dirtySet, x ∈ c'.shelf.hot ∧ c'.shelf.page x = c.shelf.page x) := by
  cases hro : c.io.readOnly with
  | true =>
    refine wp_mono (wp_flush_refused hro) (fun _ _ hf => hf.elim) ?_
    rintro err c' (⟨herr, hs⟩ | ⟨-, hb⟩)
    · exact ⟨herr, h.refused hs⟩
    · exact absurd h.books hb
  | false =>
    refine wp_mono (wp_flush_steps hro) ?_ fun _ _ h' => absurd h.books h'.2
    rintro - c' ⟨c1, hback, hdirty, hspill, -, hc'⟩
    obtain ⟨h1, ws, hws⟩ := h.writebacks hback
    obtain ⟨h2, h3⟩ := h1.flushed hdirty (hspill h.max_pos) hc'
    have hpage : c'.shelf.page = c.shelf.page := by rw [h3]; exact hws.page
    refine ⟨h2, hpage, by rw [h3], funext fun x => ?_, by rw [h3]; exact hws.next,
      by rw [h3]; exact hws.cipher⟩
    rw [← hpage, h2.cold (by rw [h3]; exact Finset.notMem_empty x)]

/-! ### Giving pages up -/

theorem LruOk.dropAll (h : c.LruOk) (ids : List Nat) : (c.dropAll ids).LruOk := by
  induction ids generalizing c with
  | nil => exact h
  | cons id ids ih => exact ih (h.drop id)

theorem lookup_dropAll (c : PageCache) (ids : List Nat) (x : Nat) :
    (c.dropAll ids).entries.lookup x = if x ∈ ids then none else c.entries.lookup x := by
  induction ids generalizing c with
  | nil => rfl
  | cons id ids ih =>
    change ((c.drop id).dropAll ids).entries.lookup x = _
    rw [ih, lookup_drop]
    by_cases h1 : x ∈ ids
    · simp [h1]
    · by_cases h2 : x = id <;> simp [h1, h2]

theorem dropAll_fields (c : PageCache) (ids : List Nat) :
    c.dropAll ids = { c with
      entries := (c.dropAll ids).entries, lru := (c.dropAll ids).lru } := by
  induction ids generalizing c with
  | nil => rfl
  | cons id ids ih =>
    change (c.drop id).dropAll ids = _
    rw [ih]
    rfl

theorem mem_dirtyIds : id ∈ c.dirtyIds ↔ ∃ e, c.entries.lookup id = some e ∧ e.dirty = true := by
  rw [← mem_dirtySet, dirtySet, List.mem_toFinset]

def discarded (c : PageCache) : PageCache :=
  { c.dropAll c.dirtyIds with
    dirtyCount := 0
    spillway := c.spillway.map Spillway.truncate }

theorem discarded_fields (c : PageCache) : c.discarded = { c with
    entries := c.discarded.entries
    lru := c.discarded.lru
    dirtyCount := 0
    spillway := c.spillway.map Spillway.truncate } := by
  rw [discarded, dropAll_fields]

theorem spillSet_discarded (c : PageCache) : c.discarded.spillSet = ∅ := by
  have hfields := c.discarded_fields
  have hspw : c.discarded.ensureSpillway = c.ensureSpillway.truncate :=
    ensureSpillway_truncate rfl (by rw [hfields]) (by rw [payloadSize, payloadSize, hfields])
  rw [spillSet, hspw]
  rfl

theorem lookup_discarded (h : c.discarded.entries.lookup x = some e) :
    c.entries.lookup x = some e ∧ e.dirty = false := by
  rw [show c.discarded.entries.lookup x = _ from lookup_dropAll c c.dirtyIds x] at h
  split at h
  · cases h
  · next hn =>
    refine ⟨h, ?_⟩
    by_contra hd
    exact hn (mem_dirtyIds.mpr ⟨e, h, by simpa using hd⟩)

theorem dirtySet_discarded (c : PageCache) : c.discarded.dirtySet = ∅ := by
  refine Finset.eq_empty_of_forall_notMem fun x hx => ?_
  obtain ⟨e, he, hd⟩ := mem_dirtySet.mp hx
  rw [(lookup_discarded he).2] at hd
  cases hd

theorem LruOk.discarded (h : c.LruOk) : c.discarded.LruOk :=
  ⟨(h.dropAll c.dirtyIds).nodup, (h.dropAll c.dirtyIds).mem⟩

/-- What an undo leaves: every page is as the file has it. -/
structure Undone (s s' : Shelf) : Prop where
  page : s'.page = s.disk
  hot : s'.hot = ∅
  io : s'.io = s.io
  next : s'.next = s.next
  cipher : s'.cipher = s.cipher

theorem Sound.discarded (h : c.Sound) : c.discarded.Sound ∧ Undone c.shelf c.discarded.shelf := by
  have hfields := c.discarded_fields
  have hcipher : c.discarded.cipher = c.cipher := by rw [hfields]
  have hio : c.discarded.io = c.io := by rw [hfields]
  have hspill := c.spillSet_discarded
  have hdirty := c.dirtySet_discarded
  have hhot : c.discarded.shelf.hot = ∅ := by
    change c.discarded.dirtySet ∪ c.discarded.spillSet = ∅
    rw [hdirty, hspill, Finset.empty_union]
  have hdisk : ∀ x, c.discarded.onDisk x = c.onDisk x := fun x => by
    rw [onDisk, hio, hcipher, onDisk]
  have hspw : c.discarded.ensureSpillway = c.ensureSpillway.truncate :=
    ensureSpillway_truncate rfl (by rw [hfields]) (by rw [payloadSize, payloadSize, hcipher])
  have hsound : c.discarded.Sound := by
    refine ⟨h.lru.discarded, ?_, fun x e hx hd => ?_, fun x _ => ?_, ?_, fun x hx => ?_, ?_, ?_⟩
    · rw [hdirty]
      rfl
    · rw [hdisk]
      exact h.clean x e (lookup_discarded hx).1 hd
    · rw [hspill]
      exact Finset.notMem_empty x
    · rw [hspw]
      exact Stowed.truncate _
    · rw [hhot] at hx
      exact absurd hx (Finset.notMem_empty x)
    · rw [hio]
      exact h.aligned
    · rw [hfields]
      exact h.max_pos
  refine ⟨hsound, funext fun x => ?_, hhot, hio, by rw [shelf, hfields]; rfl, hcipher⟩
  rw [hsound.cold (by rw [hhot]; exact Finset.notMem_empty x)]
  exact hdisk x

theorem wp_discardAllDirty_sound (h : c.Sound) {E : ChiselError → PageCache → Prop} :
    wp discardAllDirty c (fun _ c' => c'.Sound ∧ Undone c.shelf c'.shelf) E := by
  rw [discardAllDirty, wp_modify]
  exact h.discarded

theorem lookup_forgetAll (s : Spillway) (ids : List Nat) (x : Nat) :
    (s.forgetAll ids).slots.lookup x = if x ∈ ids then none else s.slots.lookup x := by
  induction ids generalizing s with
  | nil => rfl
  | cons id ids ih =>
    change ((s.forget id).forgetAll ids).slots.lookup x = _
    have herase : (s.forget id).slots.lookup x = if x = id then none else s.slots.lookup x := by
      exact lookup_erase_ite ..
    rw [ih, herase]
    by_cases h1 : x ∈ ids
    · simp [h1]
    · by_cases h2 : x = id <;> simp [h1, h2]

theorem forgetAll_fields (s : Spillway) (ids : List Nat) :
    s.forgetAll ids = { s with slots := (s.forgetAll ids).slots } := by
  induction ids generalizing s with
  | nil => rfl
  | cons id ids ih =>
    change (s.forget id).forgetAll ids = _
    rw [ih]
    rfl

theorem lookup_forgetAbove (s : Spillway) (n x : Nat) :
    (s.forgetAbove n).slots.lookup x = if x < n then s.slots.lookup x else none := by
  rw [Spillway.forgetAbove, lookup_forgetAll]
  by_cases hx : x < n
  · simp [hx, Nat.not_le.mpr hx]
  · rw [if_neg hx]
    split
    · rfl
    · next hm =>
      rw [AList.lookup_eq_none, AList.mem_keys]
      exact fun hk => hm (List.mem_filter.mpr ⟨hk, by simpa using hx⟩)

def dropAbove (c : PageCache) (n : Nat) : PageCache :=
  { c.dropAll (c.entries.keys.filter fun id => n ≤ id) with
    dirtyCount := c.dirtyCount - (c.dirtyIds.filter fun id => n ≤ id).length
    spillway := c.spillway.map fun spw => spw.forgetAbove n }

theorem dropAbove_fields (c : PageCache) (n : Nat) : c.dropAbove n = { c with
    entries := (c.dropAbove n).entries
    lru := (c.dropAbove n).lru
    dirtyCount := (c.dropAbove n).dirtyCount
    spillway := (c.dropAbove n).spillway } := by
  rw [dropAbove, dropAll_fields]

theorem lookup_dropAbove (c : PageCache) (n x : Nat) :
    (c.dropAbove n).entries.lookup x = if x < n then c.entries.lookup x else none := by
  refine (lookup_dropAll c _ x).trans ?_
  by_cases hx : x < n
  · rw [if_pos hx, if_neg]
    simp [Nat.not_le.mpr hx]
  · rw [if_neg hx]
    split
    · rfl
    · next hm =>
      rw [AList.lookup_eq_none, AList.mem_keys]
      exact fun hk => hm (List.mem_filter.mpr ⟨hk, by simpa using hx⟩)

theorem dirtySet_dropAbove (c : PageCache) (n : Nat) :
    (c.dropAbove n).dirtySet = c.dirtySet.filter (· < n) := by
  ext x
  simp only [mem_dirtySet, lookup_dropAbove, Finset.mem_filter]
  by_cases hx : x < n <;> simp [hx]

theorem slots_dropAbove (c : PageCache) (n x : Nat) :
    (c.dropAbove n).ensureSpillway.slots.lookup x =
      if x < n then c.ensureSpillway.slots.lookup x else none := by
  rw [dropAbove_fields]
  unfold ensureSpillway dropAbove
  cases c.spillway with
  | none => simp [Spillway.new]
  | some spw => exact lookup_forgetAbove spw n x

theorem spillSet_dropAbove (c : PageCache) (n : Nat) :
    (c.dropAbove n).spillSet = c.spillSet.filter (· < n) := by
  ext x
  simp only [mem_spillSet, slots_dropAbove, Finset.mem_filter]
  by_cases hx : x < n <;> simp [hx]

theorem ensureSpillway_dropAbove (c : PageCache) (n : Nat) :
    (c.dropAbove n).ensureSpillway = { c.ensureSpillway with
      slots := (c.dropAbove n).ensureSpillway.slots } := by
  rw [dropAbove_fields]
  unfold ensureSpillway dropAbove
  cases c.spillway with
  | none => rfl
  | some spw => exact forgetAll_fields spw _

theorem spilled_dropAbove {n : Nat} (hx : x < n) : (c.dropAbove n).spilled x = c.spilled x := by
  have hcell : (c.dropAbove n).ensureSpillway.cells = c.ensureSpillway.cells := by
    rw [ensureSpillway_dropAbove]
  exact spilled_congr (by rw [dropAbove_fields]) (by rw [slots_dropAbove, if_pos hx])
    fun i _ => by rw [hcell]

theorem dirtyCount_dropAbove (h : c.dirtyCount = c.dirtySet.card) (n : Nat) :
    (c.dropAbove n).dirtyCount = (c.dropAbove n).dirtySet.card := by
  have hcard := Finset.card_filter_add_card_filter_not (s := c.dirtySet) (fun x => x < n)
  have hge : (c.dirtyIds.filter fun id => n ≤ id).length =
      (c.dirtySet.filter fun x => ¬ x < n).card := by
    rw [← List.toFinset_card_of_nodup (c.dirtyIds_nodup.filter _), List.toFinset_filter]
    congr 1
    ext x
    simp [dirtySet]
  rw [dirtySet_dropAbove]
  change c.dirtyCount - _ = _
  rw [h, hge]
  omega

theorem LruOk.dropAbove (h : c.LruOk) (n : Nat) : (c.dropAbove n).LruOk :=
  ⟨(h.dropAll _).nodup, (h.dropAll _).mem⟩

theorem cached_dropAbove {n : Nat} (hx : x ∈ (c.dropAbove n).cached) : x ∈ c.cached ∧ x < n := by
  obtain ⟨e, he⟩ := lookup_of_mem_cached hx
  rw [lookup_dropAbove] at he
  split at he
  · next hlt => exact ⟨mem_cached_of_lookup he, hlt⟩
  · cases he

theorem Sound.dropAbove (h : c.Sound) (n : Nat) : (c.dropAbove n).Sound ∧
    (c.dropAbove n).shelf = { c.shelf with
      page := fun x => if x < n then c.shelf.page x else c.shelf.disk x
      hot := c.shelf.hot.filter (· < n) } := by
  have hfields := c.dropAbove_fields n
  have hcipher : (c.dropAbove n).cipher = c.cipher := by rw [hfields]
  have hio : (c.dropAbove n).io = c.io := by rw [hfields]
  have hdisk : ∀ x, (c.dropAbove n).onDisk x = c.onDisk x := fun x => by
    rw [onDisk, hio, hcipher, onDisk]
  have hhot : (c.dropAbove n).shelf.hot = c.shelf.hot.filter (· < n) := by
    change (c.dropAbove n).dirtySet ∪ (c.dropAbove n).spillSet = (c.dirtySet ∪ c.spillSet).filter _
    rw [dirtySet_dropAbove, spillSet_dropAbove, Finset.filter_union]
  have hsound : (c.dropAbove n).Sound := by
    refine ⟨h.lru.dropAbove n, dirtyCount_dropAbove h.counted n, fun x e hx hd => ?_,
      fun x hx hs => ?_, fun x i hi => ?_, fun x hx => ?_, ?_, ?_⟩
    · rw [lookup_dropAbove] at hx
      rw [hdisk]
      split at hx
      · exact h.clean x e hx hd
      · cases hx
    · rw [spillSet_dropAbove] at hs
      exact h.apart x (cached_dropAbove hx).1 (Finset.mem_filter.mp hs).1
    · rw [slots_dropAbove] at hi
      rw [ensureSpillway_dropAbove, hcipher]
      split at hi
      · exact h.stowed x i hi
      · cases hi
    · rw [hhot] at hx
      rw [hfields]
      exact h.bounded x (Finset.mem_filter.mp hx).1
    · rw [hio]
      exact h.aligned
    · rw [hfields]
      exact h.max_pos
  refine ⟨hsound, Shelf.ext (funext fun x => ?_) hhot hio (by rw [shelf, hfields]; rfl) hcipher⟩
  change (c.dropAbove n).bufAt x = if x < n then c.bufAt x else c.onDisk x
  by_cases hx : x < n
  · rw [if_pos hx]
    refine bufAt_congr (by rw [lookup_dropAbove, if_pos hx]) ?_ (spilled_dropAbove hx) (hdisk x)
    rw [spillSet_dropAbove, Finset.mem_filter]
    exact and_iff_left hx
  · rw [if_neg hx, bufAt_of_onDisk (fun hm => hx (cached_dropAbove hm).2) ?_, hdisk]
    rw [spillSet_dropAbove, Finset.mem_filter]
    exact fun hm => hx hm.2

def truncated (c : PageCache) (n : Nat) : PageCache :=
  { c.dropAll (c.entries.keys.filter fun id => n ≤ id) with
    dirtyCount := c.dirtyCount - (c.dirtyIds.filter fun id => n ≤ id).length
    spillway := c.spillway.map fun spw => spw.forgetAbove n
    io := c.io.record (.setLen n)
    nextPageId := min c.nextPageId n }

theorem truncated_eq (c : PageCache) (n : Nat) : c.truncated n = { c.dropAbove n with
    io := c.io.record (.setLen n), nextPageId := min c.nextPageId n } := rfl

/-- What a cut leaves: nothing from page `n` on. -/
structure CutAt (n : Nat) (s s' : Shelf) : Prop where
  page : ∀ x, s'.page x = if x < n then s.page x else none
  hot : s'.hot = s.hot.filter (· < n)
  disk : ∀ x, s'.disk x = if x < n then s.disk x else none
  next : s'.next = min s.next n
  cipher : s'.cipher = s.cipher

theorem Sound.truncated (h : c.Sound) (n : Nat) :
    (c.truncated n).Sound ∧ CutAt n c.shelf (c.truncated n).shelf := by
  obtain ⟨h1, h2⟩ := h.dropAbove n
  have hfields := c.dropAbove_fields n
  have hcipher : (c.truncated n).cipher = c.cipher := by rw [truncated_eq, hfields]
  have hdisk : ∀ x, (c.truncated n).onDisk x = if x < n then c.onDisk x else none := by
    intro x
    change diskBuf (c.io.record (.setLen n)) (c.truncated n).cipher x = _
    rw [hcipher]
    exact diskBuf_setLen h.aligned n
  have hhot : (c.truncated n).shelf.hot = c.shelf.hot.filter (· < n) := congrArg Shelf.hot h2
  refine ⟨{ h1 with
    lru := { h1.lru with }
    clean := fun x e hx hd => ?_
    bounded := fun x hx => ?_
    aligned := h.aligned }, fun x => ?_, hhot, hdisk, rfl, hcipher⟩
  · obtain ⟨hns, hd'⟩ := h1.clean x e hx hd
    have hlt := (cached_dropAbove (mem_cached_of_lookup (c := c.dropAbove n) hx)).2
    rw [hdisk, if_pos hlt, ← hd']
    exact ⟨hns, by rw [onDisk, onDisk, hfields]⟩
  · rw [hhot] at hx
    obtain ⟨hx, hlt⟩ := Finset.mem_filter.mp hx
    exact Nat.lt_min.mpr ⟨h.bounded x hx, hlt⟩
  · change (c.truncated n).bufAt x = if x < n then c.bufAt x else none
    by_cases hx : x < n
    · have hpage : (c.dropAbove n).bufAt x = if x < n then c.bufAt x else c.onDisk x :=
        congrFun (congrArg Shelf.page h2) x
      rw [if_pos hx] at hpage ⊢
      rw [← hpage]
      refine bufAt_congr (c := c.dropAbove n) rfl Iff.rfl rfl ?_
      rw [hdisk, if_pos hx, onDisk, onDisk, hfields]
    · rw [if_neg hx, bufAt_of_onDisk (c := c.truncated n) (fun hm => hx (cached_dropAbove hm).2) ?_,
        hdisk, if_neg hx]
      change x ∉ (c.dropAbove n).spillSet
      rw [spillSet_dropAbove, Finset.mem_filter]
      exact fun hm => hx hm.2

theorem wp_truncate_sound (h : c.Sound) (n : Nat) :
    wp (PageCache.truncate n) c (fun _ c' => c'.Sound ∧ CutAt n c.shelf c'.shelf ∧ OwesLess c c')
      (fun err c' => err = .readOnlyMode ∧ c'.Sound ∧ SameFile c.shelf c'.shelf ∧
        ∀ x < n, x ∈ c.shelf.hot → x ∈ c'.shelf.hot ∧ c'.shelf.page x = c.shelf.page x) := by
  have hio : (c.dropAbove n).io = c.io := by rw [dropAbove_fields]
  have hnext : (c.dropAbove n).nextPageId = c.nextPageId := by rw [dropAbove_fields]
  have hsteps : PageCache.truncate n = (do
      modify fun c => c.dropAbove n
      onIo fun io => io.setPageCount n
      modify fun c => { c with nextPageId := min c.nextPageId n }) := rfl
  simp only [hsteps, onIo, wp_bind, wp_modify, wp_get, PageIo.setPageCount]
  rw [hio]
  cases hro : c.io.readOnly with
  | true =>
    obtain ⟨h1, h2⟩ := h.dropAbove n
    simp only [if_true, wp_throw]
    rw [h2]
    exact ⟨trivial, h1, ⟨rfl, rfl⟩, fun x hx hhot => ⟨Finset.mem_filter.mpr ⟨hhot, hx⟩, if_pos hx⟩⟩
  | false =>
    simp only [Bool.false_eq_true, if_false, wp_set, hnext]
    obtain ⟨h1, h2⟩ := h.truncated n
    refine ⟨h1, h2, ?_⟩
    rintro x ⟨e, he, hn⟩
    rw [lookup_dropAbove] at he
    split at he
    · exact ⟨e, he, hn⟩
    · cases he

/-! ### Limits -/

theorem wp_setCacheMaxBytes_sound (h : c.Sound) (bytes : Nat) {E : ChiselError → PageCache → Prop} :
    wp (setCacheMaxBytes bytes) c (fun _ c' => c'.Sound ∧ c'.shelf = c.shelf ∧
    OwesLess c c') E := by
  rw [setCacheMaxBytes, wp_modify]
  have hsound : ({ c with maxPages := max (bytes / pageSize) 1 } : PageCache).Sound :=
    { h with
      lru := { h.lru with }
      max_pos := Nat.lt_of_lt_of_le Nat.zero_lt_one (Nat.le_max_right ..) }
  obtain ⟨hs, -⟩ := evictCleanToCap_shifts (c := { c with maxPages := max (bytes / pageSize) 1 }) 0
    (Nat.le_refl _)
  obtain ⟨h1, h2⟩ := hsound.shifts hs
  have hless := OwesLess.shifts hs
  exact ⟨h1, h2, hless⟩

theorem Sound.setSpillwayMaxBytes (h : c.Sound) {bytes : Nat} (hc' : c' = { c with
      spillwayMaxBytes := bytes
      spillway := c.spillway.map fun spw => { spw with maxBytes := bytes } }) :
    c'.ensureSpillway = { c.ensureSpillway with maxBytes := bytes } ∧ c'.Sound ∧
      c'.shelf = c.shelf := by
  have hspw : c'.ensureSpillway = { c.ensureSpillway with maxBytes := bytes } := by
    rw [hc']
    unfold ensureSpillway
    cases c.spillway <;> rfl
  have hset : c'.spillSet = c.spillSet := by
    rw [spillSet, hspw]
    rfl
  have hspilled : ∀ x, c'.spilled x = c.spilled x := fun x =>
    spilled_congr (by rw [hc']) (by rw [hspw]) fun i _ => by rw [hspw]
  have hshelf : c'.shelf = c.shelf := by
    subst hc'
    refine Shelf.ext (funext fun x => bufAt_congr rfl (by rw [hset]) (hspilled x) rfl) ?_
      rfl rfl rfl
    exact congrArg (c.dirtySet ∪ ·) hset
  subst hc'
  refine ⟨hspw, h.of_shelf hshelf rfl ⟨h.lru.nodup, h.lru.mem⟩ h.counted
    (fun x e hx _ => .inl hx) ?_ ?_, hshelf⟩
  · rw [hset]
    exact h.apart
  · rw [hspw]
    exact h.stowed

theorem wp_setSpillwayMaxBytes_sound (h : c.Sound) (bytes : Nat)
    {E : ChiselError → PageCache → Prop} :
    wp (setSpillwayMaxBytes bytes) c (fun _ c' => c'.Sound ∧ c'.shelf = c.shelf ∧
    OwesLess c c') E := by
  rw [setSpillwayMaxBytes, wp_modify]
  obtain ⟨-, h1, h2⟩ := h.setSpillwayMaxBytes rfl
  exact ⟨h1, h2, fun _ ho => ho⟩

theorem wp_setDrainInsertion_sound (h : c.Sound) (policy : DrainInsertion)
    {E : ChiselError → PageCache → Prop} :
    wp (setDrainInsertion policy) c (fun _ c' => c'.Sound ∧ c'.shelf = c.shelf ∧
    OwesLess c c') E := by
  rw [setDrainInsertion, wp_modify]
  exact ⟨{ h with lru := { h.lru with } }, rfl, fun _ ho => ho⟩

end PageCache

end Chisel
