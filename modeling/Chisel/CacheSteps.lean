import Chisel.Store

/-! What the page cache does inside. Every loop of it is a chain of a few kinds of steps: a page
leaves memory, goes to the spillway, comes back from there or from the file. The calls are taken
apart here once, for a cache in any state; what each step preserves, every call preserves. -/

namespace Chisel

open StateError

variable {u : DiskUnit} {err : ChiselError} {e' : CacheEntry} {rounds : Nat}

/-- The error says that memory ran out or that the database cannot go on. That no superblock
validates is found out before any page is read. -/
def ChiselError.isHard : ChiselError → Bool
  | corruptSuperblock => false
  | e => e.isCapacity || e.isFatal

theorem ChiselError.isHard_of_capacity {e : ChiselError} (h : e.isCapacity = true) :
    e.isHard = true := by
  cases e <;> first | rfl | cases h

section Assoc

variable {V : Type} (l : AList fun _ : Nat => V) (id x : Nat)

theorem lookup_erase_ite : (l.erase id).lookup x = if x = id then none else l.lookup x := by
  split
  · next h => rw [h]; exact AList.lookup_erase ..
  · next h => exact AList.lookup_erase_ne h

theorem lookup_insert_ite (v : V) :
    (l.insert id v).lookup x = if x = id then some v else l.lookup x := by
  split
  · next h => rw [h]; exact AList.lookup_insert ..
  · next h => exact AList.lookup_insert_ne h

end Assoc

/-! ### The spillway -/

/-- Every resident page of a spillway has a slot of its own with a unit sealed for that page. -/
def Stowed (cipher : Option Dek) (spw : Spillway) : Prop :=
  ∀ id i, spw.slots.lookup id = some i →
    i < spw.nextSlotIndex ∧ ∃ b, spw.cells i = some (id, sealPage cipher id b)

namespace Stowed

variable {cipher : Option Dek} {spw spw' : Spillway} {id : Nat}

theorem new (maxBytes payloadSize : Nat) : Stowed cipher (.new maxBytes payloadSize) := by
  intro id i h
  simp [Spillway.new] at h

theorem truncate (spw : Spillway) : Stowed cipher spw.truncate := by
  intro id i h
  simp [Spillway.truncate] at h

theorem forget (h : Stowed cipher spw) (id : Nat) : Stowed cipher (spw.forget id) := by
  intro x i hx
  rw [Spillway.forget, lookup_erase_ite] at hx
  split at hx
  · cases hx
  · exact h x i hx

theorem forgetAll (h : Stowed cipher spw) (ids : List Nat) : Stowed cipher (spw.forgetAll ids) := by
  induction ids generalizing spw with
  | nil => exact h
  | cons id ids ih => exact ih (h.forget id)

theorem spill (h : Stowed cipher spw) {b : Buf}
    (hs : spw.spill id (sealPage cipher id b) = .ok spw') : Stowed cipher spw' := by
  unfold Spillway.spill at hs
  split at hs
  · next i hi =>
    obtain rfl := Except.ok.inj hs
    intro x j hx
    obtain ⟨hlt, b', hb'⟩ := h x j hx
    refine ⟨hlt, ?_⟩
    by_cases hji : j = i
    · subst hji
      obtain ⟨-, b0, hb0⟩ := h id j hi
      -- two pages in one slot are the same page
      obtain ⟨rfl, -⟩ := Prod.mk.inj (Option.some.inj (hb'.symm.trans hb0))
      exact ⟨b, Function.update_self ..⟩
    · exact ⟨b', (Function.update_of_ne hji ..).trans hb'⟩
  · split at hs
    · cases hs
    · obtain rfl := Except.ok.inj hs
      intro x j hx
      rw [lookup_insert_ite] at hx
      split at hx
      · next hxi =>
        obtain rfl := Option.some.inj hx
        subst hxi
        exact ⟨Nat.lt_succ_self _, b, Function.update_self ..⟩
      · obtain ⟨hlt, b', hb'⟩ := h x j hx
        exact ⟨Nat.lt_succ_of_lt hlt, b', (Function.update_of_ne hlt.ne ..).trans hb'⟩

theorem rehydrate (h : Stowed cipher spw) (hid : id ∈ spw.slots) :
    ∃ b, spw.rehydrate id = .ok (sealPage cipher id b) := by
  obtain ⟨i, hi⟩ := AList.lookup_isSome.mpr hid |> Option.isSome_iff_exists.mp
  obtain ⟨-, b, hb⟩ := h id i hi
  exact ⟨b, by simp [Spillway.rehydrate, hi, hb]⟩

end Stowed

theorem mem_slots_of_rehydrate {spw : Spillway} {id : Nat}
    (h : spw.rehydrate id = .ok u) : id ∈ spw.slots := by
  rw [← AList.lookup_isSome]
  unfold Spillway.rehydrate at h
  split at h
  · cases h
  · next hi => rw [hi]; rfl

theorem spill_error_iff {spw : Spillway} {id : Nat} (h : spw.spill id u = .error err) :
    err.isCapacity = true ∧ spw.maxBytes < (spw.slotCount + 1) * spw.payloadSize := by
  unfold Spillway.spill at h
  split at h
  · cases h
  · split at h
    · next hlt =>
      cases h
      exact ⟨rfl, hlt⟩
    · cases h

theorem openUnit_refused {cipher : Option Dek} {id : Nat} (h : openUnit cipher id u = .error err) :
    err = if cipher.isSome then .decryptionFailed id else .checksumMismatch id := by
  unfold openUnit at h
  dsimp only at h
  split at h
  · split at h
    · cases h
    · exact (Except.error.inj h).symm
  · exact (Except.error.inj h).symm

theorem readPageUnit_error {io : PageIo} {i : Nat}
    (h : io.readPageUnit i = .error err) : err = .invalidPageId i := by
  unfold PageIo.readPageUnit at h
  split_ifs at h
  exact (Except.error.inj h).symm

theorem rehydrate_error {spw : Spillway} {id : Nat}
    (h : spw.rehydrate id = .error err) : err.isHard = true := by
  unfold Spillway.rehydrate at h
  split at h
  · cases h; rfl
  · split at h
    · cases h; rfl
    · split_ifs at h
      cases h; rfl

theorem openUnit_error {cipher : Option Dek} {id : Nat}
    (h : openUnit cipher id u = .error err) : err.isHard = true := by
  rw [openUnit_refused h]
  split <;> rfl

namespace PageCache

variable {c c' : PageCache} {id x : Nat} {e : CacheEntry}

/-! ### Sets of pages -/

theorem mem_cached_iff : id ∈ c.cached ↔ id ∈ c.entries := by
  simp [cached, AList.mem_keys]

theorem mem_cached_of_lookup (h : c.entries.lookup id = some e) : id ∈ c.cached :=
  mem_cached_iff.mpr (AList.lookup_isSome.mp (by simp [h]))

theorem lookup_of_mem_cached (h : id ∈ c.cached) : ∃ e, c.entries.lookup id = some e :=
  Option.isSome_iff_exists.mp (AList.lookup_isSome.mpr (mem_cached_iff.mp h))

theorem lookup_eq_none_iff : c.entries.lookup id = none ↔ id ∉ c.cached := by
  rw [AList.lookup_eq_none, mem_cached_iff]

theorem card_cached : c.cached.card = c.size :=
  List.toFinset_card_of_nodup c.entries.keys_nodup

theorem mem_dirtySet : id ∈ c.dirtySet ↔ ∃ e, c.entries.lookup id = some e ∧ e.dirty = true := by
  have hmem : ∀ e : CacheEntry, c.entries.lookup id = some e ↔ ⟨id, e⟩ ∈ c.entries.entries :=
    fun e => AList.mem_lookup_iff
  simp only [dirtySet, dirtyIds, List.mem_toFinset, List.mem_map, List.mem_filter, hmem]
  constructor
  · rintro ⟨⟨i, e⟩, ⟨he, hd⟩, rfl⟩
    exact ⟨e, he, hd⟩
  · rintro ⟨e, he, hd⟩
    exact ⟨⟨id, e⟩, ⟨he, hd⟩, rfl⟩

theorem dirtyIds_nodup (c : PageCache) : c.dirtyIds.Nodup :=
  c.entries.keys_nodup.sublist (List.Sublist.map _ List.filter_sublist)

theorem dirty_of_mem (hm : id ∈ c.dirtySet) (he : c.entries.lookup id = some e) :
    e.dirty = true := by
  obtain ⟨e', he', hd⟩ := mem_dirtySet.mp hm
  rwa [Option.some.inj (he.symm.trans he')]

theorem dirtySet_subset_cached : c.dirtySet ⊆ c.cached := by
  intro x h
  obtain ⟨e, he, -⟩ := mem_dirtySet.mp h
  exact mem_cached_of_lookup he

theorem mem_spillSet : id ∈ c.spillSet ↔ ∃ i, c.ensureSpillway.slots.lookup id = some i := by
  rw [spillSet, List.mem_toFinset, ← AList.mem_keys, ← AList.lookup_isSome,
    Option.isSome_iff_exists]

theorem mem_spillSet_iff : id ∈ c.spillSet ↔ id ∈ c.ensureSpillway.slots := by
  rw [spillSet, List.mem_toFinset, AList.mem_keys]

theorem card_spillSet : c.spillSet.card = c.ensureSpillway.slotCount :=
  List.toFinset_card_of_nodup c.ensureSpillway.slots.keys_nodup

theorem spillSet_of_none (hs : c.spillway = none) : c.spillSet = ∅ := by
  rw [spillSet, ensureSpillway, hs]
  rfl

theorem isResident_iff :
    (c.spillway.map fun spw => spw.isResident id).getD false = true ↔ id ∈ c.spillSet := by
  cases hs : c.spillway with
  | none => simp [spillSet, ensureSpillway, hs, Spillway.new]
  | some spw => simp [spillSet, ensureSpillway, hs, Spillway.isResident, AList.mem_keys]

theorem isClean_iff : c.isClean id = true ↔
    ∃ e, c.entries.lookup id = some e ∧ e.dirty = false := by
  unfold isClean
  split
  · next e he => simp [he]
  · next he => simp [he]

theorem size_le_of_subset (h : c'.cached ⊆ c.cached) : c'.size ≤ c.size := by
  rw [← card_cached, ← card_cached]
  exact Finset.card_le_card h

/-! ### Changes of an entry -/

theorem lookup_drop : (c.drop id).entries.lookup x =
    if x = id then none else c.entries.lookup x := lookup_erase_ite ..

theorem cached_drop : (c.drop id).cached = c.cached.erase id := by
  ext x
  rw [mem_cached_iff, Finset.mem_erase, mem_cached_iff]
  exact AList.mem_erase

theorem dirtySet_drop : (c.drop id).dirtySet = c.dirtySet.erase id := by
  ext x
  simp only [mem_dirtySet, lookup_drop, Finset.mem_erase]
  by_cases hx : x = id <;> simp [hx]

theorem size_drop (he : c.entries.lookup id = some e) : (c.drop id).size + 1 = c.size := by
  rw [← card_cached, ← card_cached, cached_drop,
    Finset.card_erase_add_one (mem_cached_of_lookup he)]

theorem lookup_insert_entry (hc : c'.entries = c.entries.insert id e') :
    c'.entries.lookup x = if x = id then some e' else c.entries.lookup x := by
  rw [hc]
  exact lookup_insert_ite ..

theorem cached_insert (hc : c'.entries = c.entries.insert id e') :
    c'.cached = insert id c.cached := by
  ext x
  rw [mem_cached_iff, hc, AList.mem_insert, Finset.mem_insert, mem_cached_iff]

theorem cached_modify (hm : id ∈ c.cached)
    (hc : c'.entries = c.entries.insert id e') : c'.cached = c.cached :=
  (cached_insert hc).trans (Finset.insert_eq_self.mpr hm)

theorem dirtySet_insert (hc : c'.entries = c.entries.insert id e) :
    c'.dirtySet = if e.dirty then insert id c.dirtySet else c.dirtySet.erase id := by
  ext x
  simp only [mem_dirtySet, lookup_insert_entry hc]
  by_cases hx : x = id
  · subst hx
    cases he : e.dirty <;> simp [he]
  · cases he : e.dirty <;> simp [hx, mem_dirtySet]

theorem cached_enter : (c.enter id e).cached = insert id c.cached := cached_insert rfl

theorem lookup_enter : (c.enter id e).entries.lookup x =
    if x = id then some e else c.entries.lookup x := lookup_insert_entry rfl

theorem size_enter_le (c : PageCache) (id : Nat) (e : CacheEntry) :
    (c.enter id e).size ≤ c.size + 1 := by
  rw [← card_cached, cached_enter, ← card_cached]
  exact Finset.card_insert_le _ _

@[simp] theorem stampDeferred_dirty (e : CacheEntry) : e.stampDeferred.dirty = e.dirty := by
  unfold CacheEntry.stampDeferred
  split <;> rfl

@[simp] theorem stampDeferred_needsStamp (e : CacheEntry) :
    e.stampDeferred.needsStamp = false := by
  unfold CacheEntry.stampDeferred
  split <;> simp_all

theorem stampDeferred_of_clean (h : e.needsStamp = false) : e.stampDeferred = e := by
  rw [CacheEntry.stampDeferred, if_neg (by simp [h])]

theorem stampDeferred_idem (e : CacheEntry) : e.stampDeferred.stampDeferred = e.stampDeferred :=
  stampDeferred_of_clean (stampDeferred_needsStamp e)

theorem dirtySet_stamp (he : c.entries.lookup id = some e)
    (hc : c'.entries = c.entries.insert id e.stampDeferred) :
    c'.dirtySet = c.dirtySet := by
  rw [dirtySet_insert hc, stampDeferred_dirty]
  cases hd : e.dirty with
  | true => exact Finset.insert_eq_self.mpr (mem_dirtySet.mpr ⟨e, he, hd⟩)
  | false =>
    refine Finset.erase_eq_of_notMem fun hm => ?_
    rw [dirty_of_mem hm he] at hd
    cases hd

@[simp] theorem openUnit_sealPage (cipher : Option Dek) (id : Nat) (b : Buf) :
    openUnit cipher id (sealPage cipher id b) = .ok b := by
  simp [openUnit, sealPage]

def spillVictim (c : PageCache) (victim : Nat) (e : CacheEntry) (spw : Spillway) : PageCache :=
  { c.drop victim with
    dirtyCount := if e.stampDeferred.dirty then c.dirtyCount - 1 else c.dirtyCount
    spillway := some spw }

def restoreVictim (c : PageCache) (victim : Nat) (e : CacheEntry) : PageCache :=
  { c with
    entries := c.entries.insert victim e.stampDeferred
    lru := Lru.pushBack victim c.lru
    spillway := some c.ensureSpillway }

def forgetSpilled (c : PageCache) (id : Nat) : PageCache :=
  { c with spillway := some (c.ensureSpillway.forget id) }

theorem lookup_forgetSpilled : (c.forgetSpilled id).ensureSpillway.slots.lookup x =
    if x = id then none else c.ensureSpillway.slots.lookup x := lookup_erase_ite ..

theorem spillSet_forgetSpilled : (c.forgetSpilled id).spillSet = c.spillSet.erase id := by
  ext x
  simp only [mem_spillSet, lookup_forgetSpilled, Finset.mem_erase]
  by_cases hx : x = id <;> simp [hx]

/-! ### The books -/

structure LruOk (c : PageCache) : Prop where
  nodup : c.lru.Nodup
  mem : ∀ id, id ∈ c.lru ↔ id ∈ c.cached

theorem LruOk.drop (h : c.LruOk) (id : Nat) : (c.drop id).LruOk where
  nodup := h.nodup.erase id
  mem x := by
    rw [cached_drop, Finset.mem_erase, ← h.mem]
    exact h.nodup.mem_erase_iff

theorem LruOk.pushBack (h : c.LruOk) (hl : c'.lru = Lru.pushBack id c.lru)
    (hc : c'.cached = insert id c.cached) : c'.LruOk where
  nodup := by
    rw [hl]
    exact List.Nodup.append (h.nodup.erase _) (List.nodup_singleton _)
      (by simpa [List.disjoint_singleton] using h.nodup.not_mem_erase)
  mem x := by
    rw [hl, hc, Finset.mem_insert, ← h.mem, Lru.pushBack, List.mem_append, List.mem_singleton,
      h.nodup.mem_erase_iff]
    tauto

theorem LruOk.pushFront (h : c.LruOk) (hl : c'.lru = Lru.pushFront id c.lru)
    (hc : c'.cached = insert id c.cached) : c'.LruOk where
  nodup := by
    rw [hl]
    exact List.nodup_cons.mpr ⟨h.nodup.not_mem_erase, h.nodup.erase _⟩
  mem x := by
    rw [hl, hc, Finset.mem_insert, ← h.mem, Lru.pushFront, List.mem_cons, h.nodup.mem_erase_iff]
    tauto

theorem LruOk.keep (h : c.LruOk) (hl : c'.lru = c.lru) (hc : c'.cached = c.cached) : c'.LruOk := by
  refine ⟨hl ▸ h.nodup, fun x => ?_⟩
  rw [hl, hc]
  exact h.mem x

/-- The books of a cache: the recency order lists the pages in memory, no dirty page is left out of
the count, and the spillway holds sealed pages. -/
structure Books (c : PageCache) : Prop where
  lru : c.LruOk
  counted : c.dirtySet.card ≤ c.dirtyCount
  stowed : ∀ spw, c.spillway = some spw → Stowed c.cipher spw

/-- Memory holds more pages than it may, all of them dirty, and no page can be spilled. -/
structure Over (c : PageCache) : Prop where
  size : c.maxPages < c.size
  dirty : c.size ≤ c.dirtyCount
  full : c.spillwayMaxBytes = 0 ∨
    c.ensureSpillway.maxBytes < (c.ensureSpillway.slotCount + 1) * c.ensureSpillway.payloadSize

/-- At most one page more than memory may hold, unless it held more before. -/
def Held (c c' : PageCache) : Prop :=
  c'.maxPages = c.maxPages ∧ c'.size ≤ max c.size (c.maxPages + 1)

theorem Held.refl (c : PageCache) : Held c c := ⟨rfl, le_max_left ..⟩

theorem Held.of_size (hmax : c'.maxPages = c.maxPages) (hsize : c'.size ≤ c.size) : Held c c' :=
  ⟨hmax, hsize.trans (le_max_left ..)⟩

theorem Held.trans {c'' : PageCache} (h : Held c c') (h' : Held c' c'') : Held c c'' := by
  have h1 := h.1
  have h2 := h.2
  have h3 := h'.2
  exact ⟨h'.1.trans h1, by rw [h1] at h3; omega⟩

theorem Books.ensure (h : c.Books) : Stowed c.cipher c.ensureSpillway := by
  unfold ensureSpillway
  cases hs : c.spillway with
  | none => exact Stowed.new _ _
  | some spw => exact h.stowed spw hs

theorem Books.drop (h : c.Books) (id : Nat) : (c.drop id).Books where
  lru := h.lru.drop id
  counted := by
    rw [dirtySet_drop]
    exact (Finset.card_le_card (Finset.erase_subset _ _)).trans h.counted
  stowed := h.stowed

theorem Books.enter (h : c.Books) (id : Nat) (e : CacheEntry) : (c.enter id e).Books where
  lru := h.lru.pushFront rfl cached_enter
  counted := by
    rw [dirtySet_insert (c := c) (e := e) rfl]
    change _ ≤ if e.dirty then c.dirtyCount + 1 else c.dirtyCount
    have := h.counted
    split
    · exact (Finset.card_insert_le _ _).trans (by omega)
    · exact (Finset.card_le_card (Finset.erase_subset _ _)).trans this
  stowed := h.stowed

theorem Books.forgetSpilled (h : c.Books) (id : Nat) : (c.forgetSpilled id).Books := by
  refine ⟨⟨h.lru.nodup, h.lru.mem⟩, h.counted, ?_⟩
  rintro _ ⟨⟩
  exact h.ensure.forget id

/-! ### Steps -/

/-- Nothing clean can be evicted: all pages are counted as dirty, or the order lists none that is
clean. -/
def Pressed (c : PageCache) : Prop :=
  c.size ≤ c.dirtyCount ∨ ∀ x ∈ c.lru, c.isClean x = false

/-- The steps that make room, and those that bring in page `id`. -/
inductive Shift (id : Nat) (c : PageCache) : PageCache → Prop
  | evict {x : Nat} {e : CacheEntry} (he : c.entries.lookup x = some e) (hd : e.dirty = false) :
    Shift id c (c.drop x)
  | spill {x : Nat} {e : CacheEntry} {spw : Spillway} (hx : x ∈ c.lru)
    (he : c.entries.lookup x = some e) (hp : c.Pressed)
    (hs : c.ensureSpillway.spill x (sealPage c.cipher x e.stampDeferred.buf) = .ok spw) :
    Shift id c (c.spillVictim x e spw)
  | keep {x : Nat} {e : CacheEntry} (hx : x ∈ c.lru) (he : c.entries.lookup x = some e)
    (hp : c.Pressed) : Shift id c (c.restoreVictim x e)
  | rehydrate {u : DiskUnit} {b : Buf} (hn : id ∉ c.cached)
    (hu : c.ensureSpillway.rehydrate id = .ok u) (hb : openUnit c.cipher id u = .ok b) :
    Shift id c ((c.forgetSpilled id).enter id ⟨b, true, false⟩)
  | lose {u : DiskUnit} {err : ChiselError} (hu : c.ensureSpillway.rehydrate id = .ok u)
    (hb : openUnit c.cipher id u = .error err) : Shift id c (c.forgetSpilled id)
  | load {b : Buf} (hn : id ∉ c.cached) (hs : id ∉ c.spillSet) (hb : c.onDisk id = some b)
    (hst : b.stamped = true) : Shift id c (c.enter id ⟨b, false, false⟩)
  | touch (hm : id ∈ c.cached) : Shift id c { c with lru := Lru.pushFront id c.lru }

abbrev Shifts (id : Nat) : PageCache → PageCache → Prop := Relation.ReflTransGen (Shift id)

theorem Shift.fields (h : Shift id c c') : c' = { c with
    entries := c'.entries, lru := c'.lru, dirtyCount := c'.dirtyCount, spillway :=
    c'.spillway } := by
  cases h <;> rfl

theorem Shifts.fields (h : Shifts id c c') : c' = { c with
    entries := c'.entries, lru := c'.lru, dirtyCount := c'.dirtyCount, spillway :=
    c'.spillway } := by
  induction h with
  | refl => rfl
  | tail _ hs ih => rw [hs.fields, ih]

theorem LruOk.shift (h : c.LruOk) (hs : Shift id c c') : c'.LruOk := by
  cases hs with
  | evict => exact h.drop _
  | spill => exact ⟨(h.drop _).nodup, (h.drop _).mem⟩
  | keep => exact h.pushBack rfl (cached_insert rfl)
  | rehydrate => exact h.pushFront rfl (cached_insert rfl)
  | lose => exact ⟨h.nodup, h.mem⟩
  | load => exact h.pushFront rfl (cached_insert rfl)
  | touch hm => exact h.pushFront rfl (Finset.insert_eq_self.mpr hm).symm

theorem LruOk.shifts (h : c.LruOk) (hs : Shifts id c c') : c'.LruOk := by
  induction hs with
  | refl => exact h
  | tail _ hs ih => exact ih.shift hs

theorem Books.shift (h : c.Books) (hs : Shift id c c') : c'.Books := by
  have hlru := h.lru.shift hs
  cases hs with
  | evict => exact h.drop _
  | spill hx he hp hs =>
    refine ⟨hlru, ?_, ?_⟩
    · rw [show (c.spillVictim _ _ _).dirtySet = _ from dirtySet_drop]
      change _ ≤ if _ then c.dirtyCount - 1 else c.dirtyCount
      have hcount := h.counted
      split
      · next hd =>
        rw [stampDeferred_dirty] at hd
        rw [Finset.card_erase_of_mem (mem_dirtySet.mpr ⟨_, he, hd⟩)]
        exact Nat.sub_le_sub_right hcount 1
      · exact (Finset.card_le_card (Finset.erase_subset _ _)).trans hcount
    · rintro _ ⟨⟩
      exact h.ensure.spill hs
  | keep hx he hp =>
    refine ⟨hlru, ?_, ?_⟩
    · rw [dirtySet_stamp he rfl]
      exact h.counted
    · rintro _ ⟨⟩
      exact h.ensure
  | rehydrate => exact (h.forgetSpilled id).enter id _
  | lose => exact h.forgetSpilled id
  | load => exact h.enter id _
  | touch hm => exact ⟨hlru, h.counted, h.stowed⟩

theorem Books.shifts (h : c.Books) (hs : Shifts id c c') : c'.Books := by
  induction hs with
  | refl => exact h
  | tail _ hs ih => exact ih.shift hs

/-- Where each entry comes from: it was there, or it is stamped and dirty, or it was read from the
file. -/
theorem Shift.origin (h : Shift id c c') (he : c'.entries.lookup x = some e) :
    c.entries.lookup x = some e ∨ (e.needsStamp = false ∧ x ∈ c.cached) ∨
      (e.needsStamp = false ∧ x = id ∧ (id ∈ c.spillSet ∨ c.onDisk id = some e.buf ∧
        e.buf.stamped = true)) := by
  have hdrop : ∀ y, (c.drop y).entries.lookup x = some e → c.entries.lookup x = some e := by
    intro y hy
    rw [lookup_drop] at hy
    split at hy
    · cases hy
    · exact hy
  cases h with
  | evict | spill => exact .inl (hdrop _ he)
  | keep hx hv hp =>
    rw [lookup_insert_entry (c := c) rfl] at he
    split at he
    · next hxv =>
      obtain rfl := Option.some.inj he
      exact .inr (.inl ⟨stampDeferred_needsStamp _, hxv ▸ mem_cached_of_lookup hv⟩)
    · exact .inl he
  | rehydrate hn hu hb =>
    rw [lookup_enter] at he
    split at he
    · next hxi =>
      obtain rfl := Option.some.inj he
      exact .inr (.inr ⟨rfl, hxi, .inl (mem_spillSet_iff.mpr (mem_slots_of_rehydrate hu))⟩)
    · exact .inl he
  | lose => exact .inl he
  | load hn hs hb hst =>
    rw [lookup_enter] at he
    split at he
    · next hxi =>
      obtain rfl := Option.some.inj he
      exact .inr (.inr ⟨rfl, hxi, .inr ⟨hb, hst⟩⟩)
    · exact .inl he
  | touch => exact .inl he

/-! ### Making room -/

theorem evictCleanToCap_fields (rounds : Nat) (c : PageCache) :
    evictCleanToCap rounds c = { c with
      entries := (evictCleanToCap rounds c).entries, lru := (evictCleanToCap rounds c).lru } := by
  induction rounds generalizing c with
  | zero => rfl
  | succ rounds ih =>
    unfold evictCleanToCap
    split
    · rfl
    · split
      · rfl
      · split
        · rw [ih]
          rfl
        · rfl

theorem evictCleanToCap_shifts (id : Nat) (hr : c.size ≤ rounds) :
    Shifts id c (evictCleanToCap rounds c) ∧ (evictCleanToCap rounds c).cached ⊆ c.cached ∧
      ((evictCleanToCap rounds c).size ≤ c.maxPages ∨ (evictCleanToCap rounds c).Pressed) := by
  induction rounds generalizing c with
  | zero => exact ⟨.refl, Finset.Subset.refl _, .inl (by rw [PageCache.evictCleanToCap]; omega)⟩
  | succ rounds ih =>
    unfold PageCache.evictCleanToCap
    split
    · next hle => exact ⟨.refl, Finset.Subset.refl _, .inl hle⟩
    · split
      · next hall => exact ⟨.refl, Finset.Subset.refl _, .inr (.inl hall.ge)⟩
      · split
        · next x hfind =>
          obtain ⟨e, he, hd⟩ := isClean_iff.mp (List.find?_some hfind)
          have hsize := size_drop he
          obtain ⟨h1, h2, h3⟩ := ih (show (c.drop x).size ≤ rounds by omega)
          rw [cached_drop] at h2
          exact ⟨.head (.evict he hd) h1, h2.trans (Finset.erase_subset _ _), h3⟩
        · next hnone =>
          refine ⟨.refl, Finset.Subset.refl _, .inr (.inr fun x hx => ?_)⟩
          simpa using List.find?_eq_none.mp hnone x (List.mem_reverse.mpr hx)

theorem Pressed.size_le (hp : c.Pressed) (h : c.Books) : c.size ≤ c.dirtyCount := by
  rcases hp with hp | hp
  · exact hp
  · rw [← card_cached]
    refine (Finset.card_le_card fun x hx => ?_).trans h.counted
    obtain ⟨e, he⟩ := lookup_of_mem_cached hx
    refine mem_dirtySet.mpr ⟨e, he, ?_⟩
    by_contra hd
    have hclean := isClean_iff.mpr ⟨e, he, by simpa using hd⟩
    rw [hp x ((h.lru.mem x).mpr hx)] at hclean
    cases hclean

theorem Pressed.spillVictim (hp : c.Pressed) (he : c.entries.lookup x = some e) (spw : Spillway) :
    (c.spillVictim x e spw).Pressed := by
  rcases hp with hp | hp
  · left
    have hsize : (c.spillVictim x e spw).size + 1 = c.size := size_drop he
    change _ ≤ if e.stampDeferred.dirty then c.dirtyCount - 1 else c.dirtyCount
    split <;> omega
  · right
    intro y hy
    by_contra hc
    obtain ⟨e', he', hd⟩ := isClean_iff.mp (by simpa using hc)
    rw [show (c.spillVictim x e spw).entries.lookup y = _ from lookup_drop] at he'
    split at he'
    · cases he'
    · have hclean := isClean_iff.mpr ⟨e', he', hd⟩
      rw [hp y (List.mem_of_mem_erase hy)] at hclean
      cases hclean

theorem Pressed.restoreVictim (hp : c.Pressed) (hx : x ∈ c.lru) (he : c.entries.lookup x = some e) :
    (c.restoreVictim x e).Pressed := by
  have hcached : (c.restoreVictim x e).cached = c.cached :=
    cached_modify (mem_cached_of_lookup he) rfl
  rcases hp with hp | hp
  · left
    rw [← card_cached, hcached, card_cached]
    exact hp
  · right
    intro y hy
    have hy' : y ∈ c.lru := by
      rcases List.mem_append.mp hy with hy | hy
      · exact List.mem_of_mem_erase hy
      · rwa [List.mem_singleton.mp hy]
    have hfalse := hp y hy'
    by_contra hc
    obtain ⟨e', he', hd⟩ := isClean_iff.mp (by simpa using hc)
    rw [lookup_insert_entry (c := c) rfl] at he'
    split at he'
    · next hyx =>
      obtain rfl := Option.some.inj he'
      rw [stampDeferred_dirty] at hd
      rw [isClean_iff.mpr ⟨e, hyx ▸ he, hd⟩] at hfalse
      cases hfalse
    · rw [isClean_iff.mpr ⟨e', he', hd⟩] at hfalse
      cases hfalse

/-- Memory holds more pages than it may, and neither eviction nor the spillway helps. -/
structure Stuck (c : PageCache) : Prop where
  size : c.maxPages < c.size
  pressed : c.Pressed
  full : c.spillwayMaxBytes = 0 ∨
    c.ensureSpillway.maxBytes < (c.ensureSpillway.slotCount + 1) * c.ensureSpillway.payloadSize

theorem Stuck.over (h : c.Stuck) (hb : c.Books) : c.Over := ⟨h.size, h.pressed.size_le hb, h.full⟩

/-- How making room fails: there is no room, or the order lists a page that is not there. -/
def NoRoom (c : PageCache) (err : ChiselError) (c' : PageCache) : Prop :=
  (err.isCapacity = true ∧ c'.Stuck ∧ c'.size ≤ c.size) ∨ (err.isHard = true ∧ ¬ c.LruOk)

theorem wp_spillToCap (id : Nat) (hr : c.size ≤ rounds) (hp : c.size ≤ c.maxPages ∨ c.Pressed) :
    wp (spillToCap rounds) c
      (fun _ c' => Shifts id c c' ∧ c'.cached ⊆ c.cached ∧ (c.LruOk → c'.size ≤ c'.maxPages))
      (fun err c' => Shifts id c c' ∧ NoRoom c err c') := by
  induction rounds generalizing c with
  | zero => exact wp_ret ⟨.refl, Finset.Subset.refl _, fun _ => by omega⟩
  | succ rounds ih =>
    simp only [spillToCap, wp_bind, wp_get]
    refine wp_ite (fun hle => wp_ret ⟨.refl, Finset.Subset.refl _, fun _ => hle⟩) fun hgt => ?_
    have hp := hp.resolve_left hgt
    refine wp_ite (fun hzero => ?_) fun _ => ?_
    · rw [wp_bind, wp_throw]
      exact ⟨.refl, .inl ⟨rfl, ⟨by omega, hp, .inl hzero⟩, Nat.le_refl _⟩⟩
    split
    · next hnone =>
      refine wp_ret ⟨.refl, Finset.Subset.refl _, fun hl => ?_⟩
      have hempty : c.cached = ∅ := by
        ext x
        simp [← hl.mem, List.getLast?_eq_none_iff.mp hnone]
      rw [← card_cached, hempty]
      exact Nat.zero_le _
    next x hlast =>
    have hx := List.mem_of_getLast? hlast
    split
    · next hnone =>
      exact wp_fail ⟨.refl, .inr ⟨rfl, fun hl =>
        lookup_eq_none_iff.mp hnone ((hl.mem x).mp hx)⟩⟩
    next e he =>
    split
    · next spw hs =>
      have hstep : Shift id c (c.spillVictim x e spw) := .spill hx he hp hs
      have hsize : (c.spillVictim x e spw).size + 1 = c.size := size_drop he
      have hsub : (c.spillVictim x e spw).cached ⊆ c.cached := by
        rw [show (c.spillVictim x e spw).cached = _ from cached_drop]
        exact Finset.erase_subset _ _
      rw [wp_bind, wp_set]
      refine wp_mono (ih (c := c.spillVictim x e spw) (by omega)
        (.inr (hp.spillVictim he spw))) ?_ ?_
      · rintro - c' ⟨h1, h2, h3⟩
        exact ⟨.head hstep h1, h2.trans hsub, fun hl => h3 (hl.shift hstep)⟩
      · rintro err c' ⟨h1, h2⟩
        exact ⟨.head hstep h1, h2.imp (fun h => ⟨h.1, h.2.1, h.2.2.trans (by omega)⟩)
          fun h => ⟨h.1, fun hl => h.2 (hl.shift hstep)⟩⟩
    · next err hs =>
      obtain ⟨hcap, hfull⟩ := spill_error_iff hs
      have hsame : (c.restoreVictim x e).size = c.size := by
        rw [← card_cached, cached_modify (mem_cached_of_lookup he) rfl, card_cached]
      rw [wp_bind, wp_set, wp_throw]
      refine ⟨.single (.keep hx he hp), .inl ⟨hcap, ⟨?_, hp.restoreVictim hx he, .inr hfull⟩,
        hsame.le⟩⟩
      change c.maxPages < (c.restoreVictim x e).size
      omega

theorem wp_maybeEvict (id : Nat) :
    wp maybeEvict c
      (fun _ c' => Shifts id c c' ∧ c'.cached ⊆ c.cached ∧ (c.LruOk → c'.size ≤ c'.maxPages))
      (fun err c' => Shifts id c c' ∧ NoRoom c err c') := by
  obtain ⟨hs, hsub, hor⟩ := evictCleanToCap_shifts id (Nat.le_refl c.size)
  have hmax : (evictCleanToCap c.size c).maxPages = c.maxPages := by rw [evictCleanToCap_fields]
  simp only [maybeEvict, wp_bind, wp_modify, wp_get]
  refine wp_mono (wp_spillToCap id (Nat.le_refl _) (by rw [hmax]; exact hor)) ?_ ?_
  · rintro - c' ⟨h1, h2, h3⟩
    exact ⟨hs.trans h1, h2.trans hsub, fun hl => h3 (hl.shifts hs)⟩
  · rintro err c' ⟨h1, h2⟩
    exact ⟨hs.trans h1, h2.imp (fun h => ⟨h.1, h.2.1, h.2.2.trans (size_le_of_subset hsub)⟩)
      fun h => ⟨h.1, fun hl => h.2 (hl.shifts hs)⟩⟩

/-! ### Bringing in a page -/

def readDisk (c : PageCache) (id : Nat) : Except ChiselError Buf :=
  match c.io.readPageUnit id with
  | .error e => .error e
  | .ok u =>
    match openUnit c.cipher id u with
    | .error e => .error e
    | .ok b => if b.stamped then .ok b else .error (.checksumMismatch id)

/-- How a page is not had: there is no room, the file does not have it, or the books were wrong. -/
inductive Denied (id : Nat) (c : PageCache) (err : ChiselError) (c' : PageCache) : Prop
  | crowded (hcap : err.isCapacity = true) (hover : c.Books → c'.Over) (hsize : c'.size ≤ c.size)
  | unread (hn : id ∉ c'.cached) (hs : id ∉ c'.spillSet) (hr : c'.readDisk id = .error err)
    (held : c.Books → Held c c')
  | broken (hard : err.isHard = true) (hb : ¬ c.Books)

theorem onDisk_of_readDisk {b : Buf} (h : c.readDisk id = .ok b) :
    c.onDisk id = some b ∧ b.stamped = true := by
  unfold readDisk at h
  split at h
  · cases h
  next u hu =>
  split at h
  · cases h
  next b' hb =>
  split_ifs at h with hst
  obtain rfl := Except.ok.inj h
  exact ⟨by simp [onDisk, hu, hb, Except.toOption], hst⟩

theorem readDisk_error (h : c.readDisk id = .error err) :
    (err.isHard = true ∧ err ≠ .panicked) ∧ ∀ b, c.onDisk id = some b → b.stamped = false := by
  unfold readDisk at h
  split at h
  · next hu =>
    obtain rfl := Except.error.inj h
    rw [readPageUnit_error hu]
    exact ⟨⟨rfl, by simp⟩, fun b hb => by simp [onDisk, hu, Except.toOption] at hb⟩
  next u hu =>
  split at h
  · next hopen =>
    obtain rfl := Except.error.inj h
    refine ⟨⟨openUnit_error hopen, ?_⟩, fun b hb => by simp [onDisk, hu, hopen,
      Except.toOption] at hb⟩
    rw [openUnit_refused hopen]
    split <;> simp
  next b' hopen =>
  split_ifs at h with hst
  obtain rfl := Except.error.inj h
  refine ⟨⟨rfl, by simp⟩, fun b hb => ?_⟩
  obtain rfl : b' = b := by simpa [onDisk, hu, hopen, Except.toOption] using hb
  simpa using hst

theorem wp_loadPage (hn : id ∉ c.cached) :
    wp (loadPage id) c
      (fun _ c' => Shifts id c c' ∧ id ∈ c'.cached ∧ (c.Books → Held c c'))
      (fun err c' => Shifts id c c' ∧ Denied id c err c') := by
  rw [loadPage, wp_bind]
  refine wp_mono (wp_maybeEvict id) ?_ ?_
  rotate_left
  · rintro err c' ⟨hs, hno⟩
    refine ⟨hs, ?_⟩
    rcases hno with ⟨hcap, hstuck, hsize⟩ | ⟨hard, hl⟩
    · exact .crowded hcap (fun hb => hstuck.over (hb.shifts hs)) hsize
    · exact .broken hard fun hb => hl hb.lru
  rintro - c' ⟨hs, hsub, hsize⟩
  have hn' : id ∉ c'.cached := fun hm => hn (hsub hm)
  have hmax : c'.maxPages = c.maxPages := by rw [hs.fields]
  have hheld : c.Books → ∀ c1 : PageCache, c1.maxPages = c'.maxPages → c1.size ≤ c'.size + 1 →
      Held c c1 := by
    intro hb c1 hmax1 hsize1
    have := hsize hb.lru
    exact ⟨hmax1.trans hmax, by omega⟩
  rw [wp_bind, wp_get]
  refine wp_ite (fun hres => ?_) fun hres => ?_
  · rw [isResident_iff, mem_spillSet_iff] at hres
    -- a spillway that is right has the page, and opens it
    have hright : c.Books → ∃ b, c'.ensureSpillway.rehydrate id = .ok (sealPage c'.cipher id b) :=
      fun hb => (hb.shifts hs).ensure.rehydrate hres
    dsimp only
    split
    · next err hu =>
      refine wp_fail ⟨hs, .broken (rehydrate_error hu) fun hb => ?_⟩
      obtain ⟨b, hb⟩ := hright hb
      rw [hu] at hb
      cases hb
    next u hu =>
    split
    · next err hopen =>
      rw [wp_bind, wp_set]
      refine wp_fail ⟨hs.tail (.lose hu hopen), .broken (openUnit_error hopen) fun hb => ?_⟩
      obtain ⟨b, hb⟩ := hright hb
      rw [hu] at hb
      obtain rfl := Except.ok.inj hb
      rw [openUnit_sealPage] at hopen
      cases hopen
    · next b hopen =>
      refine (wp_set _).mpr ⟨hs.tail (.rehydrate hn' hu
        hopen), by simp [cached_enter], fun hb => ?_⟩
      exact hheld hb _ rfl (size_enter_le (c'.forgetSpilled id) id _)
  · rw [isResident_iff] at hres
    have hread : ∀ err, c'.readDisk id = .error err → Shifts id c c' ∧ Denied id c err c' :=
      fun err hr => ⟨hs, .unread hn' hres hr fun hb => hheld hb c' rfl (Nat.le_succ _)⟩
    split
    · next err hu => exact wp_fail (hread err (by rw [readDisk, hu]))
    next u hu =>
    split
    · next err hopen => exact wp_fail (hread err (by simp only [readDisk, hu, hopen]))
    next b hopen =>
    refine wp_ite (fun hst => ?_) fun hst => wp_fail (hread _ ?_)
    · have hok : c'.readDisk id = .ok b := by simp only [readDisk, hu, hopen, if_pos hst]
      obtain ⟨hb, -⟩ := onDisk_of_readDisk hok
      refine (wp_set _).mpr ⟨hs.tail (.load hn' hres hb hst), by simp [cached_enter], fun hb => ?_⟩
      exact hheld hb _ rfl (size_enter_le c' id _)
    · simp only [readDisk, hu, hopen, if_neg hst]

theorem wp_hit (hm : id ∈ c.cached) :
    wp (hit id) c
      (fun e c' => c' = { c with lru := Lru.pushFront id c.lru } ∧ c.entries.lookup id = some e)
      (fun _ _ => False) := by
  obtain ⟨e, he⟩ := lookup_of_mem_cached hm
  simp only [hit, touchLru, wp_bind, wp_modify, wp_get, he, wp_pure]
  exact ⟨trivial, trivial⟩

/-- Every access to a page is a chain of steps, and an access that fails says why. -/
theorem wp_fetch_steps (id : Nat) :
    wp (fetch id) c
      (fun e c' => Shifts id c c' ∧ c'.entries.lookup id = some e ∧ (c.Books → Held c c'))
      (fun err c' => Shifts id c c' ∧ Denied id c err c') := by
  have hhit : ∀ c1, Shifts id c c1 → id ∈ c1.cached → (c.Books → Held c c1) →
      wp (hit id) c1 (fun e c' => Shifts id c c' ∧ c'.entries.lookup id = some e ∧
        (c.Books → Held c c')) (fun err c' => Shifts id c c' ∧ Denied id c err c') := by
    intro c1 hs hm hheld
    refine wp_mono (wp_hit hm) ?_ fun _ _ h => h.elim
    rintro e c' ⟨rfl, he⟩
    exact ⟨hs.tail (.touch hm), he, hheld⟩
  rw [fetch, wp_bind, wp_get]
  refine wp_ite (fun hn => ?_) fun hm => ?_
  · rw [wp_bind]
    refine wp_imp (wp_loadPage (by rwa [mem_cached_iff])) ?_
    rintro - c1 ⟨h1, h2, h3⟩
    exact hhit c1 h1 h2 h3
  · exact hhit c .refl (mem_cached_iff.mpr (not_not.mp hm)) fun _ => .refl c

/-! ### Flushing -/

def flushEntry (c : PageCache) (id : Nat) (e : CacheEntry) : PageCache :=
  { c with
    io := c.io.record (.write id (sealPage c.cipher id e.stampDeferred.buf))
    entries := c.entries.insert id { e.stampDeferred with dirty := false }
    dirtyCount := c.dirtyCount - 1 }

/-- Write a page of the spillway to the file as it is, and forget it there. -/
def writeSpilled (c : PageCache) (id : Nat) (u : DiskUnit) : PageCache :=
  { c.forgetSpilled id with io := c.io.record (.write id u) }

inductive Writeback (c : PageCache) : PageCache → Prop
  | evict {x : Nat} {e : CacheEntry} (he : c.entries.lookup x = some e) (hd : e.dirty = false) :
    Writeback c (c.drop x)
  | write {x : Nat} {e : CacheEntry} (he : c.entries.lookup x = some e) (hd : e.dirty = true) :
    Writeback c (c.flushEntry x e)
  | recount (hd : c.dirtySet = ∅) : Writeback c { c with dirtyCount := 0 }
  | drain {x : Nat} {u : DiskUnit} {b : Buf} (hu : c.ensureSpillway.rehydrate x = .ok u)
    (hb : openUnit c.cipher x u = .ok b) : Writeback c ((c.writeSpilled x u).enterDrained x b)
  | strand {x : Nat} {u : DiskUnit} {err : ChiselError} (hu : c.ensureSpillway.rehydrate x = .ok u)
    (hb : openUnit c.cipher x u = .error err) : Writeback c (c.writeSpilled x u)

abbrev Writebacks : PageCache → PageCache → Prop := Relation.ReflTransGen Writeback

/-- What a flush leaves of a cache over a file that takes no writes. -/
inductive Refused (c : PageCache) : PageCache → Prop
  | stamp {x : Nat} {e : CacheEntry} (he : c.entries.lookup x = some e) (hd : e.dirty = true) :
    Refused c { c with entries := c.entries.insert x e.stampDeferred }
  | forget (hd : c.dirtySet = ∅) (x : Nat) :
    Refused c (PageCache.forgetSpilled { c with dirtyCount := 0 } x)
  | sync (hd : c.dirtySet = ∅) (hs : 0 < c.maxPages → c.spillSet = ∅) :
    Refused c { c with dirtyCount := 0, spillway := c.spillway.map Spillway.truncate }

theorem dirtySet_flushEntry : (c.flushEntry id e).dirtySet = c.dirtySet.erase id := by
  rw [show (c.flushEntry id e).dirtySet = _ from dirtySet_insert rfl]
  exact if_neg Bool.false_ne_true

theorem enterDrained_fields (c : PageCache) (id : Nat) (b : Buf) :
    c.enterDrained id b = { c with
      entries := (c.enterDrained id b).entries, lru := (c.enterDrained id b).lru } := by
  unfold enterDrained
  split <;> rfl

theorem Books.enterDrained (h : c.Books) (id : Nat) (b : Buf) : (c.enterDrained id b).Books := by
  unfold PageCache.enterDrained
  split
  · exact h
  refine ⟨?_, ?_, h.stowed⟩
  · cases c.drainInsertion with
    | lruTail => exact h.lru.pushBack rfl (cached_insert rfl)
    | mru => exact h.lru.pushFront rfl (cached_insert rfl)
  · rw [dirtySet_insert (c := c) (e := ⟨b, false, false⟩) rfl]
    exact (Finset.card_le_card (Finset.erase_subset _ _)).trans h.counted

theorem Books.writeSpilled (h : c.Books) (id : Nat) (u : DiskUnit) : (c.writeSpilled id u).Books :=
  have hf := h.forgetSpilled id
  ⟨⟨hf.lru.nodup, hf.lru.mem⟩, hf.counted, hf.stowed⟩

theorem Books.writeback (h : c.Books) (hs : Writeback c c') : c'.Books := by
  cases hs with
  | evict => exact h.drop _
  | write he hd =>
    refine ⟨h.lru.keep rfl (cached_modify (mem_cached_of_lookup he) rfl), ?_, h.stowed⟩
    rw [dirtySet_flushEntry, Finset.card_erase_of_mem (mem_dirtySet.mpr ⟨_, he, hd⟩)]
    exact Nat.sub_le_sub_right h.counted 1
  | recount hd => exact ⟨⟨h.lru.nodup, h.lru.mem⟩, (congrArg Finset.card hd).le, h.stowed⟩
  | drain => exact (h.writeSpilled _ _).enterDrained _ _
  | strand => exact h.writeSpilled _ _

theorem Books.writebacks (h : c.Books) (hs : Writebacks c c') : c'.Books := by
  induction hs with
  | refl => exact h
  | tail _ hs ih => exact ih.writeback hs

/-- A flush changes no limit and makes no page dirty. -/
theorem Writeback.fields (h : Writeback c c') : c' = { c with
    io := c'.io, entries := c'.entries, lru := c'.lru, dirtyCount := c'.dirtyCount
    spillway := c'.spillway } ∧ c'.io.readOnly = c.io.readOnly ∧ c'.dirtySet ⊆ c.dirtySet := by
  cases h with
  | evict => exact ⟨rfl, rfl, dirtySet_drop ▸ Finset.erase_subset _ _⟩
  | write => exact ⟨rfl, rfl, dirtySet_flushEntry ▸ Finset.erase_subset _ _⟩
  | recount | strand => exact ⟨rfl, rfl, Finset.Subset.refl _⟩
  | drain =>
    unfold enterDrained
    split
    · exact ⟨rfl, rfl, Finset.Subset.refl _⟩
    · refine ⟨rfl, rfl, ?_⟩
      rw [dirtySet_insert (c := c) rfl]
      exact Finset.erase_subset _ _

theorem Writebacks.fields (h : Writebacks c c') : c' = { c with
    io := c'.io, entries := c'.entries, lru := c'.lru, dirtyCount := c'.dirtyCount
    spillway := c'.spillway } ∧ c'.io.readOnly = c.io.readOnly ∧ c'.dirtySet ⊆ c.dirtySet := by
  induction h with
  | refl => exact ⟨rfl, rfl, Finset.Subset.refl _⟩
  | tail _ hs ih =>
    obtain ⟨h1, h2, h3⟩ := hs.fields
    exact ⟨by rw [h1, ih.1], h2.trans ih.2.1, h3.trans ih.2.2⟩

theorem wp_flushDirty {ids : List Nat} (hro : c.io.readOnly = false) (hids : ids.Nodup)
    (hdirty : ∀ id ∈ ids, id ∈ c.dirtySet) :
    wp (flushDirty ids) c
      (fun _ c' => Writebacks c c' ∧ c'.dirtySet = c.dirtySet \ ids.toFinset ∧ c'.cached = c.cached)
      (fun _ _ => False) := by
  induction ids generalizing c with
  | nil => exact wp_ret ⟨.refl, by simp, rfl⟩
  | cons id ids ih =>
    obtain ⟨hid, hids⟩ := List.nodup_cons.mp hids
    obtain ⟨e, he, hd⟩ := mem_dirtySet.mp (hdirty id List.mem_cons_self)
    have hrest := ih (c := c.flushEntry id e) hro hids fun x hx => by
      rw [dirtySet_flushEntry]
      exact Finset.mem_erase.mpr
        ⟨fun hxi => hid (hxi ▸ hx), hdirty x (List.mem_cons_of_mem _ hx)⟩
    simp only [flushDirty, wp_bind, wp_get, he, wp_set, onIo, PageIo.writePageUnit, hro,
      Bool.false_eq_true, if_false, wp_modify, AList.insert_insert]
    refine wp_imp hrest ?_
    rintro - c' ⟨h1, h2, h3⟩
    refine ⟨.head (.write he hd) h1, ?_, h3.trans (cached_modify (mem_cached_of_lookup he) rfl)⟩
    rw [h2, dirtySet_flushEntry, Finset.erase_eq, sdiff_sdiff_left, List.toFinset_cons]
    rfl

theorem wp_drainPages {ids : List Nat} (hro : c.io.readOnly = false) (hids : ids.Nodup)
    (hmem : ∀ id ∈ ids, id ∈ c.spillSet) :
    wp (drainPages ids) c
      (fun _ c' => Writebacks c c' ∧ c'.spillSet = c.spillSet \ ids.toFinset ∧
        c'.dirtyCount = c.dirtyCount)
      (fun _ c' => Writebacks c c' ∧ ¬ c.Books) := by
  induction ids generalizing c with
  | nil => exact wp_ret ⟨.refl, by simp, rfl⟩
  | cons id ids ih =>
    obtain ⟨hid, hids⟩ := List.nodup_cons.mp hids
    -- a spillway that is right has the page, and opens it
    have hright : c.Books → ∃ b, c.ensureSpillway.rehydrate id = .ok (sealPage c.cipher id b) :=
      fun hb => hb.ensure.rehydrate (mem_spillSet_iff.mp (hmem id List.mem_cons_self))
    simp only [drainPages, wp_bind, wp_get]
    split
    · next err hu =>
      refine wp_fail ⟨.refl, fun hb => ?_⟩
      obtain ⟨b, hb⟩ := hright hb
      rw [hu] at hb
      cases hb
    next u hu =>
    simp only [wp_bind, wp_set, onIo, wp_get, PageIo.writePageUnit, hro, Bool.false_eq_true,
      if_false]
    split
    · next err hopen =>
      refine wp_fail ⟨.single (.strand hu hopen), fun hb => ?_⟩
      obtain ⟨b, hb⟩ := hright hb
      rw [hu] at hb
      obtain rfl := Except.ok.inj hb
      rw [openUnit_sealPage] at hopen
      cases hopen
    next b hopen =>
    have hstep : Writeback c ((c.writeSpilled id u).enterDrained id b) := .drain hu hopen
    have hfields := enterDrained_fields (c.writeSpilled id u) id b
    have hset : ((c.writeSpilled id u).enterDrained id b).spillSet = c.spillSet.erase id := by
      rw [hfields]
      exact spillSet_forgetSpilled
    have hrest := ih (c := (c.writeSpilled id u).enterDrained id b)
      (by rw [hfields]; exact hro) hids fun x hx => by
        rw [hset]
        exact Finset.mem_erase.mpr ⟨fun hxi => hid (hxi ▸ hx), hmem x (List.mem_cons_of_mem _ hx)⟩
    rw [wp_bind, wp_modify]
    refine wp_mono hrest ?_ ?_
    · rintro - c' ⟨h1, h2, h3⟩
      refine ⟨.head hstep h1, ?_, h3.trans (by rw [hfields]; rfl)⟩
      rw [h2, hset, Finset.erase_eq, sdiff_sdiff_left, List.toFinset_cons]
      rfl
    · rintro _ c' ⟨h1, h2⟩
      exact ⟨.head hstep h1, fun hb => h2 (hb.writeback hstep)⟩

theorem drainBatch_nonempty {spw : Spillway} (hsw : c.spillway = some spw) (hmax : 0 < c.maxPages)
    (hempty : (spw.drainBatch c.maxPages).isEmpty = true) : c.spillSet = ∅ := by
  have hb : spw.slots.keys.take c.maxPages = [] := List.isEmpty_iff.mp hempty
  rw [spillSet, ensureSpillway, hsw]
  change spw.slots.keys.toFinset = ∅
  rcases List.take_eq_nil_iff.mp hb with h0 | h0
  · omega
  · rw [h0]
    rfl

theorem mem_spillSet_of_drainBatch {spw : Spillway} (hsw : c.spillway = some spw) {n : Nat}
    (hx : x ∈ spw.drainBatch n) : x ∈ c.spillSet := by
  rw [spillSet, ensureSpillway, hsw, List.mem_toFinset]
  exact List.mem_of_mem_take hx

theorem evictCleanToCap_writebacks (rounds : Nat) (c : PageCache) :
    Writebacks c (evictCleanToCap rounds c) := by
  induction rounds generalizing c with
  | zero => exact .refl
  | succ rounds ih =>
    unfold evictCleanToCap
    split
    · exact .refl
    · split
      · exact .refl
      · split
        · next x hfind =>
          obtain ⟨e, he, hd⟩ := isClean_iff.mp (List.find?_some hfind)
          exact .head (.evict he hd) (ih _)
        · exact .refl

/-- The drain empties the spillway; after each batch memory is cut back to what it may hold. -/
theorem wp_drainSpillway (hro : c.io.readOnly = false)
    (hr : c.spillSet.card ≤ rounds) (hcount : c.dirtyCount = 0) :
    wp (drainSpillway rounds) c
      (fun _ c' => Writebacks c c' ∧ (0 < c.maxPages → c'.spillSet = ∅) ∧ (c.Books → Held c c'))
      (fun _ c' => Writebacks c c' ∧ ¬ c.Books) := by
  have hdone : (0 < c.maxPages → c.spillSet = ∅) →
      Writebacks c c ∧ (0 < c.maxPages → c.spillSet = ∅) ∧ (c.Books → Held c c) := fun hs =>
    ⟨.refl, hs, fun _ => .refl c⟩
  induction rounds generalizing c with
  | zero => exact wp_ret (hdone fun _ => Finset.card_eq_zero.mp (by omega))
  | succ rounds ih =>
    simp only [drainSpillway, wp_bind, wp_get]
    cases hsw : c.spillway with
    | none => exact wp_ret (hdone fun _ => spillSet_of_none hsw)
    | some spw =>
      refine wp_ite (fun hempty => wp_ret (hdone fun hmax => drainBatch_nonempty hsw hmax hempty))
        fun hne => ?_
      have hnd : (spw.drainBatch c.maxPages).Nodup :=
        spw.slots.keys_nodup.sublist (List.take_sublist ..)
      have hne' : spw.drainBatch c.maxPages ≠ [] := fun h0 => hne (List.isEmpty_iff.mpr h0)
      rw [wp_bind]
      refine wp_imp (wp_drainPages hro hnd fun x hx => mem_spillSet_of_drainBatch hsw hx) ?_
      rintro - c1 ⟨h1, hset1, hcount1⟩
      obtain ⟨-, -, hsize⟩ := evictCleanToCap_shifts 0 (Nat.le_refl c1.size)
      have hback : Writebacks c (evictCleanToCap c1.size c1) :=
        h1.trans (evictCleanToCap_writebacks _ _)
      have hfields := evictCleanToCap_fields c1.size c1
      have hmax1 : c1.maxPages = c.maxPages := by rw [h1.fields.1]
      have hset : (evictCleanToCap c1.size c1).spillSet =
          c.spillSet \ (spw.drainBatch c.maxPages).toFinset := by
        rw [hfields, ← hset1]
        rfl
      have hcount : (evictCleanToCap c1.size c1).dirtyCount = 0 := by
        rw [hfields]
        exact hcount1.trans hcount
      rw [wp_bind, wp_modify]
      generalize evictCleanToCap c1.size c1 = c2 at *
      have hmax : c2.maxPages = c.maxPages := by rw [hback.fields.1]
      have hlt : c2.spillSet.card ≤ rounds := by
        have hcard := Finset.card_sdiff_add_card_eq_card
          (show (spw.drainBatch c.maxPages).toFinset ⊆ c.spillSet from fun x hx =>
            mem_spillSet_of_drainBatch hsw (List.mem_toFinset.mp hx))
        have hpos : 0 < (spw.drainBatch c.maxPages).toFinset.card := by
          rw [List.toFinset_card_of_nodup hnd]
          exact List.length_pos_iff.mpr hne'
        rw [hset]
        omega
      have hheld : c.Books → Held c c2 := by
        intro hb
        rcases hsize with hle | hp
        · exact ⟨hmax, by omega⟩
        · have := hp.size_le (hb.writebacks hback)
          exact ⟨hmax, by omega⟩
      refine wp_mono (ih (hback.fields.2.1.trans hro) hlt hcount fun hs =>
        ⟨.refl, hs, fun _ => .refl _⟩) ?_ ?_
      · rintro - c' ⟨h3, h4, h5⟩
        exact ⟨hback.trans h3, hmax ▸ h4, fun hb => (hheld hb).trans (h5 (hb.writebacks hback))⟩
      · rintro _ c' ⟨h3, h4⟩
        exact ⟨hback.trans h3, fun hb => h4 (hb.writebacks hback)⟩

theorem slotCount_eq (c : PageCache) :
    (c.spillway.map Spillway.slotCount).getD 0 = c.spillSet.card := by
  rw [card_spillSet]
  unfold ensureSpillway
  cases c.spillway <;> rfl

/-- A flush writes all that differs from the file, step by step. -/
theorem wp_flush_steps (hro : c.io.readOnly = false) :
    wp flush c
      (fun _ c' => ∃ c1, Writebacks c c1 ∧ c1.dirtySet = ∅ ∧ (0 < c.maxPages → c1.spillSet = ∅) ∧
        (c.Books → Held c c1) ∧ c' = { c1 with
          spillway := c1.spillway.map Spillway.truncate, io := c1.io.record .sync })
      (fun _ c' => Writebacks c c' ∧ ¬ c.Books) := by
  simp only [flush, wp_bind, wp_get]
  refine wp_mono (wp_flushDirty hro c.dirtyIds_nodup fun id hid => List.mem_toFinset.mpr hid) ?_
    fun _ _ h => h.elim
  rintro - c1 ⟨h1, hdirty, hcached⟩
  have hnone : c1.dirtySet = ∅ := hdirty.trans (Finset.sdiff_self _)
  have h2 : Writebacks c { c1 with dirtyCount := 0 } := h1.tail (.recount hnone)
  have hmax : c1.maxPages = c.maxPages := by rw [h1.fields.1]
  simp only [wp_modify]
  refine wp_mono (wp_drainSpillway (c := { c1 with dirtyCount := 0 }) (h1.fields.2.1.trans hro)
    (slotCount_eq _).ge rfl) ?_ ?_
  · rintro - c2 ⟨h3, h4, h5⟩
    have h6 : Writebacks c c2 := h2.trans h3
    simp only [onIo, wp_bind, wp_get, PageIo.fsync, h6.fields.2.1.trans hro, Bool.false_eq_true,
      if_false, wp_set]
    refine ⟨c2, h6, Finset.subset_empty.mp (hnone ▸ h3.fields.2.2), hmax ▸ h4, fun hb => ?_, rfl⟩
    have hheld : Held c { c1 with dirtyCount := 0 } :=
      Held.of_size hmax (size_le_of_subset hcached.subset)
    exact hheld.trans (h5 (hb.writebacks h2))
  · rintro _ c2 ⟨h3, h4⟩
    exact ⟨h2.trans h3, fun hb => h4 (hb.writebacks h2)⟩

/-- A file that takes no writes stops the flush at the first page that it would write. -/
theorem wp_flush_refused (hro : c.io.readOnly = true) :
    wp flush c (fun _ _ => False)
      (fun err c' => (err = .readOnlyMode ∧ Refused c c') ∨
        (c' = { c with dirtyCount := 0 } ∧ ¬ c.Books)) := by
  simp only [flush, wp_bind, wp_get]
  cases hids : c.dirtyIds with
  | cons id ids =>
    have hid : id ∈ c.dirtySet := List.mem_toFinset.mpr (by rw [hids]; exact List.mem_cons_self)
    obtain ⟨e, he, hd⟩ := mem_dirtySet.mp hid
    simp only [flushDirty, wp_bind, wp_get, he, wp_set, onIo, PageIo.writePageUnit, hro, if_true,
      wp_throw]
    exact .inl ⟨trivial, .stamp he hd⟩
  | nil =>
    have hnone : c.dirtySet = ∅ := by
      rw [dirtySet, hids]
      rfl
    simp only [flushDirty, wp_pure, wp_modify]
    set c0 : PageCache := { c with dirtyCount := 0 } with hc0
    have hsync : (0 < c.maxPages → c.spillSet = ∅) →
        wp (onIo PageIo.fsync) { c0 with spillway := c0.spillway.map Spillway.truncate }
          (fun _ _ => False)
        (fun err c' => (err = .readOnlyMode ∧ Refused c c') ∨ (c' = c0 ∧ ¬ c.Books)) := by
      intro hs
      simp only [wp_bind, onIo, wp_get, PageIo.fsync, hc0, hro, if_true, wp_throw]
      exact .inl ⟨trivial, .sync hnone hs⟩
    cases hround : (c.spillway.map Spillway.slotCount).getD 0 with
    | zero =>
      refine wp_ret (hsync fun _ => Finset.card_eq_zero.mp ?_)
      rw [← slotCount_eq, hround]
    | succ rounds =>
      simp only [drainSpillway, wp_bind, wp_get]
      cases hsw : c.spillway with
      | none => exact wp_ret (hsync fun _ => spillSet_of_none hsw)
      | some spw =>
        refine wp_ite (fun hempty => wp_ret (hsync fun hmax => drainBatch_nonempty hsw hmax hempty))
          fun hne => ?_
        cases hbatch : spw.drainBatch c.maxPages with
        | nil => exact absurd (by rw [hbatch]; rfl) hne
        | cons id ids =>
          have hid : id ∈ c.spillSet := mem_spillSet_of_drainBatch hsw
            (by rw [hbatch]; exact List.mem_cons_self)
          simp only [drainPages, wp_bind, wp_get]
          split
          · next err hu =>
            refine wp_fail (.inr ⟨rfl, fun hb => ?_⟩)
            obtain ⟨b, hb⟩ := hb.ensure.rehydrate (mem_spillSet_iff.mp hid)
            rw [show c.ensureSpillway.rehydrate id = .error err from hu] at hb
            cases hb
          · simp only [wp_bind, wp_set, onIo, wp_get, PageIo.writePageUnit, hc0, hro, if_true,
              wp_throw]
            exact .inl ⟨trivial, .forget hnone id⟩

end PageCache

end Chisel
