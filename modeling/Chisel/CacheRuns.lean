import Chisel.CacheSound

/-! Sequences of calls of the page cache. Each call is described by what it shows (`Shows`) when it
returns and by what it leaves (`Fails`) when it does not; the books of the cache and the contents of
its pages follow along every sequence from a fresh cache over any file. A page may be reissued only
when it was handed out before, as `claim_page` demands. -/

namespace Chisel

open StateError

variable {b : Buf} {e : CacheEntry} {ops : List CacheOp} {io : PageIo}

/-- A call of the cache; what the caller writes through a reference is part of it. -/
inductive CacheOp
  | get (id : Nat)
  | getMut (id : Nat) (f : Buf → Buf)
  | getMutDeferredStamp (id : Nat) (f : Buf → Buf)
  | newPage
  | claimPage (id : Nat)
  | reclaimDeadTxnPage (id : Nat)
  | copyPage (src dst : Nat)
  | flush
  | discardAllDirty
  | truncate (n : Nat)
  | setCacheMaxBytes (bytes : Nat)
  | setSpillwayMaxBytes (bytes : Nat)
  | setDrainInsertion (policy : DrainInsertion)

inductive CacheAnswer
  | done
  | page (id : Nat)
  | bytes (buf : Buf)

namespace PageCache

variable {c c' : PageCache} {id x : Nat}

/-- What the caller left behind the reference to a page. -/
def left (id : Nat) : CacheM CacheAnswer := do
  match (← get).entries.lookup id with
  | some e => return .bytes e.buf
  | none => return .done

/-- The file has no page that was not handed out. -/
def Within (c : PageCache) : Prop := ∀ x b, c.shelf.disk x = some b → x < c.nextPageId

theorem Sound.page_bounded (h : c.Sound) (hw : c.Within) (hb : c.shelf.page x = some b) :
    x < c.nextPageId := by
  by_cases hx : x ∈ c.shelf.hot
  · exact h.bounded x hx
  · rw [h.cold hx] at hb
    exact hw x b hb

theorem Within.of_disk (h : c.Within) (hd : c'.shelf.disk = c.shelf.disk)
    (hn : c.nextPageId ≤ c'.nextPageId) : c'.Within := fun x b hb =>
  Nat.lt_of_lt_of_le (h x b (hd ▸ hb)) hn

theorem Within.of_shelf (h : c.Within) (hs : c'.shelf = c.shelf) : c'.Within :=
  h.of_disk (by rw [hs]) (le_of_eq (congrArg Shelf.next hs).symm)

theorem wp_absent (h : c.Sound) (hno : c.shelf.page id = none) {α : Type}
    (k : CacheEntry → CacheM α) :
    wp (fetch id >>= k) c (fun _ _ => False) (fun _ c' => c'.Sound ∧ c'.shelf = c.shelf) := by
  rw [wp_bind]
  refine wp_imp (wp_fetch_entry h id) ?_
  intro e c' ⟨_, _, _, _, hpage, _⟩
  rw [hno] at hpage
  cases hpage

theorem Sound.absent (h : c.Sound) (hw : c.Within) (hx : ¬ x < c.nextPageId) :
    c.shelf.page x = none := by
  cases hb : c.shelf.page x with
  | none => rfl
  | some b => exact absurd (h.page_bounded hw hb) hx

theorem wp_write_within (h : c.Sound) (hw : c.Within) (id : Nat) (g : CacheEntry → CacheEntry)
    (hg : ∀ e, (g e).dirty = true) :
    wp (do
      let e ← fetch id
      modify fun c => { c with
        entries := c.entries.insert id (g e)
        dirtyCount := if e.dirty then c.dirtyCount else c.dirtyCount + 1 }) c
      (fun _ c' => ∃ e, WroteTo id e (g e) c c')
      (fun _ c' => c'.Sound ∧ c'.shelf = c.shelf) := by
  by_cases hlt : id < c.nextPageId
  · exact wp_write_sound h hlt g hg
  · exact wp_mono (wp_absent h (h.absent hw hlt) _) (fun _ _ h' => h'.elim) fun _ _ h' => h'

theorem wp_copyPage_within (h : c.Sound) (hw : c.Within) (src dst : Nat) :
    wp (copyPage src dst) c
      (fun _ c' => ∃ e e' : CacheEntry, c.shelf.page src = some e.stampDeferred.buf ∧
        (e.needsStamp = true → c.Owes src) ∧ WroteTo dst e'
          { e' with buf := e.buf, dirty := true } c c')
      (fun _ c' => c'.Sound ∧ c'.shelf = c.shelf) := by
  by_cases hlt : dst < c.nextPageId
  · exact wp_copyPage_sound h hlt
  · rw [copyPage, wp_bind]
    refine wp_imp (wp_getBuf_sound h src) ?_
    rintro b c1 ⟨h1, h2, _⟩
    have hno : c1.shelf.page dst = none := by
      rw [h2]
      exact h.absent hw hlt
    exact wp_mono (wp_absent h1 hno _) (fun _ _ h' => h'.elim) fun _ _ h' => ⟨h'.1, h'.2.trans h2⟩

end PageCache

namespace CacheOp

open PageCache

variable {c c' : PageCache}

def perform : CacheOp → CacheM CacheAnswer
  | get id => do return .bytes (← getBuf id)
  | getMut id f => do PageCache.getMut id f; left id
  | getMutDeferredStamp id f => do PageCache.getMutDeferredStamp id f; left id
  | newPage => do return .page (← PageCache.newPage)
  | claimPage id => do PageCache.claimPage id; return .done
  | reclaimDeadTxnPage id => do PageCache.reclaimDeadTxnPage id; return .done
  | copyPage src dst => do PageCache.copyPage src dst; left dst
  | flush => do PageCache.flush; return .done
  | discardAllDirty => do PageCache.discardAllDirty; return .done
  | truncate n => do PageCache.truncate n; return .done
  | setCacheMaxBytes bytes => do PageCache.setCacheMaxBytes bytes; return .done
  | setSpillwayMaxBytes bytes => do PageCache.setSpillwayMaxBytes bytes; return .done
  | setDrainInsertion policy => do PageCache.setDrainInsertion policy; return .done

/-- A page is reissued only when it was handed out before. -/
def handed (c : PageCache) : CacheOp → Prop
  | claimPage id | reclaimDeadTxnPage id => id < c.nextPageId
  | _ => True

instance (c : PageCache) (op : CacheOp) : Decidable (op.handed c) := by
  cases op <;> unfold handed <;> infer_instance

/-- What a call did when it returned. -/
def Shows (c c' : PageCache) (a : CacheAnswer) : CacheOp → Prop
  | get id => ∃ e : CacheEntry, a = .bytes e.buf ∧ c.shelf.page id = some e.stampDeferred.buf ∧
      (e.needsStamp = true → c.Owes id) ∧ c'.shelf = c.shelf ∧ OwesLess c c'
  | getMut id f => ∃ e, a = .bytes (f e.buf) ∧
      WroteTo id e { e with buf := f e.buf, dirty := true } c c'
  | getMutDeferredStamp id f => ∃ e, a = .bytes (f e.buf) ∧ WroteTo id e ⟨f e.buf, true, true⟩ c c'
  | newPage => a = .page c.nextPageId ∧
      c'.shelf = { c.shelf.put c.nextPageId .zero with next := c.nextPageId + 1 } ∧
      ∀ x, c'.Owes x → x ≠ c.nextPageId ∧ c.Owes x
  | claimPage id | reclaimDeadTxnPage id =>
      c'.shelf = c.shelf.put id .zero ∧ ∀ x, c'.Owes x → x ≠ id ∧ c.Owes x
  | copyPage src dst => ∃ e e' : CacheEntry, a = .bytes e.buf ∧
      c.shelf.page src = some e.stampDeferred.buf ∧ (e.needsStamp = true → c.Owes src) ∧
        WroteTo dst e' { e' with buf := e.buf, dirty := true } c c'
  | flush => FlushedTo c.shelf c'.shelf
  | discardAllDirty => Undone c.shelf c'.shelf
  | truncate n => CutAt n c.shelf c'.shelf ∧ OwesLess c c'
  | setCacheMaxBytes _ | setSpillwayMaxBytes _ | setDrainInsertion _ => c'.shelf = c.shelf ∧
      OwesLess c c'

/-- What a call left when it failed. -/
def Fails (c c' : PageCache) : CacheOp → Prop
  | newPage => (c.nextPageId = u64Max ∧ c'.shelf = c.shelf) ∨
      c'.shelf = { c.shelf.put c.nextPageId .zero with next := c.nextPageId + 1 }
  | claimPage id | reclaimDeadTxnPage id => c'.shelf = c.shelf.put id .zero
  | flush => ∀ x ∈ c.dirtySet, x ∈ c'.shelf.hot ∧ c'.shelf.page x = c.shelf.page x
  | truncate n => ∀ x < n, x ∈ c.shelf.hot → x ∈ c'.shelf.hot ∧ c'.shelf.page x = c.shelf.page x
  | _ => c'.shelf = c.shelf

theorem wp_left (id : Nat) (he : c.entries.lookup id = some e) {E : ChiselError → PageCache → Prop}
    :
    wp (left id) c (fun a c' => a = .bytes e.buf ∧ c' = c) E := by
  simp only [left, wp_bind, wp_get, he, wp_pure]
  exact ⟨trivial, trivial⟩

theorem wp_write_left {id : Nat} {x : CacheM Unit} {g : CacheEntry → CacheEntry}
    (hx : wp x c (fun _ c' => ∃ e, WroteTo id e (g e) c c') (fun _ c' => c'.Sound ∧
    c'.shelf = c.shelf)) :
    wp (do x; left id) c (fun a c' => ∃ e, a = .bytes (g e).buf ∧ WroteTo id e (g e) c c')
      (fun _ c' => c'.Sound ∧ c'.shelf = c.shelf) := by
  rw [wp_bind]
  refine wp_imp hx ?_
  intro _ c1 ⟨e, hw⟩
  refine wp_imp (wp_left id hw.left) ?_
  rintro a _ ⟨rfl, rfl⟩
  exact ⟨e, rfl, hw⟩

theorem within_of_put {id : Nat} {e' : CacheEntry} (hw : c.Within) (h : WroteTo id e e' c c') :
    c'.Within :=
  hw.of_disk (by rw [h.shelf]; rfl) (le_of_eq (congrArg Shelf.next h.shelf).symm)

theorem wp_reissue {id : Nat} (h : c.Sound) (hw : c.Within) (hlt : id < c.nextPageId) :
    wp (reissuePage id) c
      (fun _ c' => c'.Sound ∧ c'.Within ∧ c'.shelf = c.shelf.put id .zero ∧ ∀ x, c'.Owes x →
        x ≠ id ∧ c.Owes x)
      (fun _ c' => c'.Sound ∧ c'.Within ∧ c'.shelf = c.shelf.put id .zero) := by
  have hwithin : ∀ c' : PageCache, c'.shelf = c.shelf.put id .zero → c'.Within := fun c' hs =>
    hw.of_disk (by rw [hs]; rfl) (le_of_eq (congrArg Shelf.next hs).symm)
  refine wp_mono (wp_and (wp_reissuePage_sound h hlt) wp_reissuePage_owes) ?_ ?_
  · exact fun _ c' ⟨⟨h1, h2⟩, h3⟩ => ⟨h1, hwithin c' h2, h2, h3⟩
  · exact fun _ c' ⟨⟨_, h1, h2⟩, _⟩ => ⟨h1, hwithin c' h2, h2⟩

theorem perform_spec (op : CacheOp) (h : c.Sound) (hw : c.Within) (hh : op.handed c) :
    wp op.perform c (fun a c' => c'.Sound ∧ c'.Within ∧ op.Shows c c' a)
      (fun _ c' => c'.Sound ∧ c'.Within ∧ op.Fails c c') := by
  have hsame : ∀ (_ : ChiselError) (c' : PageCache), (c'.Sound ∧ c'.shelf = c.shelf) →
      c'.Sound ∧ c'.Within ∧ c'.shelf = c.shelf := fun _ c' h' => ⟨h'.1, hw.of_shelf h'.2, h'.2⟩
  cases op with
  | get id =>
    simp only [perform, getBuf, wp_bind, wp_pure]
    refine wp_mono (wp_fetch_entry h id) ?_ hsame
    rintro e c' ⟨h1, h2, h3, h4, h5, h6⟩
    exact ⟨h1, hw.of_shelf h2, e, rfl, h5, h6, h2, h3⟩
  | getMut id f =>
    refine wp_mono (wp_write_left (wp_write_within h hw id
      (fun e => { e with buf := f e.buf, dirty := true }) fun _ => rfl)) ?_ hsame
    rintro a c' ⟨e, ha, h1⟩
    exact ⟨h1.sound, within_of_put hw h1, e, ha, h1⟩
  | getMutDeferredStamp id f =>
    refine wp_mono (wp_write_left (wp_write_within h hw id (fun e => ⟨f e.buf, true, true⟩)
      fun _ => rfl)) ?_ hsame
    rintro a c' ⟨e, ha, h1⟩
    exact ⟨h1.sound, within_of_put hw h1, e, ha, h1⟩
  | newPage =>
    simp only [perform, wp_bind, wp_pure]
    refine wp_mono (wp_and (wp_newPage_sound h) wp_newPage_owes) ?_ ?_
    · rintro _ c' ⟨⟨h1, rfl, h3⟩, h4⟩
      refine ⟨h1, hw.of_disk (by rw [h3]; rfl) ?_, rfl, h3, h4⟩
      rw [show c'.nextPageId = _ from congrArg Shelf.next h3]
      exact Nat.le_succ _
    · rintro err c' ⟨⟨hmax, rfl⟩ | ⟨-, h1, h2⟩, -⟩
      · exact ⟨h, hw, .inl ⟨hmax, rfl⟩⟩
      · refine ⟨h1, hw.of_disk (by rw [h2]; rfl) ?_, .inr h2⟩
        rw [show c'.nextPageId = _ from congrArg Shelf.next h2]
        exact Nat.le_succ _
  | claimPage id | reclaimDeadTxnPage id =>
    simp only [perform, wp_bind, wp_pure]
    exact wp_reissue h hw hh
  | copyPage src dst =>
    simp only [perform, wp_bind]
    refine wp_mono (wp_copyPage_within h hw src dst) ?_ hsame
    rintro _ c1 ⟨e, e', h1, h2, h3⟩
    refine wp_imp (wp_left dst h3.left) ?_
    rintro a _ ⟨rfl, rfl⟩
    exact ⟨h3.sound, within_of_put hw h3, e, e', rfl, h1, h2, h3⟩
  | flush =>
    simp only [perform, wp_bind, wp_pure]
    refine wp_mono (wp_flush_sound h) ?_ ?_
    · rintro _ c' ⟨h1, h2⟩
      refine ⟨h1, fun x b hb => ?_, h2⟩
      rw [h2.disk] at hb
      rw [show c'.nextPageId = _ from h2.next]
      exact h.page_bounded hw hb
    · rintro err c' ⟨_, h2, h3, h4⟩
      exact ⟨h2, hw.of_disk h3.disk (le_of_eq h3.next.symm), h4⟩
  | discardAllDirty =>
    simp only [perform, wp_bind, wp_pure]
    refine wp_imp (wp_discardAllDirty_sound h) ?_
    rintro _ c' ⟨h1, h2⟩
    refine ⟨h1, hw.of_disk ?_ (le_of_eq h2.next.symm), h2⟩
    funext x
    rw [Shelf.disk, h2.io, h2.cipher, Shelf.disk]
  | truncate n =>
    simp only [perform, wp_bind, wp_pure]
    refine wp_mono (wp_truncate_sound h n) ?_ ?_
    · rintro _ c' ⟨h1, h2, h3⟩
      refine ⟨h1, fun x b hb => ?_, h2, h3⟩
      rw [h2.disk] at hb
      split at hb
      · next hx =>
        rw [show c'.nextPageId = _ from h2.next]
        exact Nat.lt_min.mpr ⟨hw x b hb, hx⟩
      · cases hb
    · rintro err c' ⟨_, h2, h3, h4⟩
      exact ⟨h2, hw.of_disk h3.disk (le_of_eq h3.next.symm), h4⟩
  | setCacheMaxBytes bytes =>
    simp only [perform, wp_bind, wp_pure]
    refine wp_mono (wp_setCacheMaxBytes_sound h bytes) ?_ hsame
    rintro _ c' ⟨h1, h2, h3⟩
    exact ⟨h1, hw.of_shelf h2, h2, h3⟩
  | setSpillwayMaxBytes bytes =>
    simp only [perform, wp_bind, wp_pure]
    refine wp_mono (wp_setSpillwayMaxBytes_sound h bytes) ?_ hsame
    rintro _ c' ⟨h1, h2, h3⟩
    exact ⟨h1, hw.of_shelf h2, h2, h3⟩
  | setDrainInsertion policy =>
    simp only [perform, wp_bind, wp_pure]
    refine wp_mono (wp_setDrainInsertion_sound h policy) ?_ hsame
    rintro _ c' ⟨h1, h2, h3⟩
    exact ⟨h1, hw.of_shelf h2, h2, h3⟩

def after (c : PageCache) (op : CacheOp) : PageCache :=
  match op.perform c with
  | .ok _ c' => c'
  | .error _ c' => c'

theorem after_spec (op : CacheOp) (h : c.Sound) (hw : c.Within) (hh : op.handed c) :
    (after c op).Sound ∧ (after c op).Within ∧
      ((∃ a, returns op.perform c = true ∧ op.Shows c (after c op) a) ∨
        op.Fails c (after c op)) := by
  have hspec := perform_spec op h hw hh
  unfold after returns
  cases hp : op.perform c with
  | ok a c' =>
    obtain ⟨h1, h2, h3⟩ := (wp_ok hp).mp hspec
    exact ⟨h1, h2, .inl ⟨a, rfl, h3⟩⟩
  | error e c' =>
    obtain ⟨h1, h2, h3⟩ := (wp_error hp).mp hspec
    exact ⟨h1, h2, .inr h3⟩

/-- Every page of the sequence is handed out before it is reissued. -/
def Handed : PageCache → List CacheOp → Prop
  | _, [] => True
  | c, op :: ops => op.handed c ∧ Handed (after c op) ops

theorem sound_run (h : c.Sound) (hw : c.Within) (hh : Handed c ops) :
    (ops.foldl after c).Sound ∧ (ops.foldl after c).Within := by
  induction ops generalizing c with
  | nil => exact ⟨h, hw⟩
  | cons op ops ih =>
    obtain ⟨h1, h2, -⟩ := after_spec op h hw hh.1
    exact ih h1 h2 hh.2

/-- The page is overwritten, reissued or given up by the call. A write that fails leaves it. -/
def Replaces (c : PageCache) (id : Nat) (op : CacheOp) : Prop :=
  match op with
  | getMut i _ | getMutDeferredStamp i _ | copyPage _ i => i = id ∧ returns op.perform c = true
  | claimPage i | reclaimDeadTxnPage i => i = id
  | discardAllDirty => True
  | truncate n => n ≤ id
  | _ => False

def issues (c : PageCache) : CacheOp → Option Nat
  | newPage => if c.nextPageId = u64Max then none else some c.nextPageId
  | claimPage i | reclaimDeadTxnPage i => some i
  | _ => none

end CacheOp

namespace PageCache

variable {c c' : PageCache} {id x : Nat}

/-- A cache over a file that was just opened, with its key installed. -/
def fresh (io : PageIo) (cacheMaxBytes spillwayMaxBytes : Nat) (drainInsertion : DrainInsertion)
    (cipher : Option Dek) : PageCache :=
  { PageCache.new io cacheMaxBytes spillwayMaxBytes drainInsertion with cipher }

theorem sound_fresh (h : io.Aligned) (cacheMaxBytes spillwayMaxBytes : Nat)
    (drainInsertion : DrainInsertion) (cipher : Option Dek) :
    (fresh io cacheMaxBytes spillwayMaxBytes drainInsertion cipher).Sound ∧
      (fresh io cacheMaxBytes spillwayMaxBytes drainInsertion cipher).Within := by
  refine ⟨⟨⟨List.nodup_nil, fun x => Iff.rfl⟩, rfl, fun x e he => ?_, fun x hx => ?_,
    fun x i hi => ?_, fun x hx => ?_, h, Nat.lt_of_lt_of_le Nat.zero_lt_one (Nat.le_max_right ..)⟩,
      fun x b hb => ?_⟩
  · cases he
  · cases hx
  · cases hi
  · cases hx
  · by_contra hx
    have hread : io.readPageUnit x = .error (.invalidPageId x) := if_pos (Nat.le_of_not_lt hx)
    have hb' : diskBuf io cipher x = some b := hb
    rw [diskBuf, hread] at hb'
    cases hb'

structure Bookkept (c : PageCache) : Prop where
  lru_nodup : c.lru.Nodup
  lru_keys : ∀ id, id ∈ c.lru ↔ id ∈ c.entries
  dirty_count : c.dirtyCount = (c.entries.entries.filter fun e => e.2.dirty).length
  stamp_dirty : ∀ id e, c.entries.lookup id = some e → e.needsStamp = true → e.dirty = true
  apart : ∀ id ∈ c.entries, (c.spillway.map fun spw => spw.isResident id).getD false = false

theorem Sound.bookkept (h : c.Sound) : c.Bookkept where
  lru_nodup := h.lru.nodup
  lru_keys id := (h.lru.mem id).trans mem_cached_iff
  dirty_count := by
    rw [h.counted, dirtySet, List.toFinset_card_of_nodup c.dirtyIds_nodup, dirtyIds,
      List.length_map]
  stamp_dirty id e he hn := by
    obtain ⟨e', he', hd⟩ := mem_dirtySet.mp (h.owes_dirty ⟨e, he, hn⟩)
    rwa [Option.some.inj (he.symm.trans he')]
  apart id hm := by
    have hno := h.apart id (mem_cached_iff.mpr hm)
    rw [← isResident_iff] at hno
    simpa using hno

/-- The bytes of a page that differs from the file are in memory or in the spillway. -/
def Stored (c : PageCache) (id : Nat) (b : Buf) : Prop :=
  (∃ e, c.entries.lookup id = some e ∧ e.dirty = true ∧ e.stampDeferred.buf = b) ∨
    ((c.spillway.map fun spw => spw.isResident id).getD false = true ∧ c.spilled id = some b)

theorem Sound.stored (h : c.Sound) (hx : x ∈ c.shelf.hot) (hb : c.shelf.page x = some b) :
    c.Stored x b := by
  have hb' : c.bufAt x = some b := hb
  rcases Finset.mem_union.mp hx with hd | hs
  · obtain ⟨e, he, hde⟩ := mem_dirtySet.mp hd
    rw [bufAt_of_lookup he] at hb'
    exact .inl ⟨e, he, hde, Option.some.inj hb'⟩
  · rw [bufAt_of_spilled (h.not_cached hs) hs] at hb'
    exact .inr ⟨isResident_iff.mpr hs, hb'⟩

end PageCache

namespace CacheOp

open PageCache

variable {c c' : PageCache}

/-- A page that differs from the file stays so, or a flush brings it there. -/
theorem kept (op : CacheOp) (h : c.Sound) (hw : c.Within) (hh : op.handed c) {id : Nat}
    (hd : id ∈ c.dirtySet) (hr : ¬ op.Replaces c id) :
    (id ∈ (after c op).shelf.hot ∧ (after c op).shelf.page id = c.shelf.page id) ∨
      (op = flush ∧ (after c op).shelf.disk id = c.shelf.page id) := by
  obtain ⟨-, -, hdone⟩ := after_spec op h hw hh
  have hhot : id ∈ c.shelf.hot := Finset.mem_union_left _ hd
  have hsame : (after c op).shelf = c.shelf →
      (id ∈ (after c op).shelf.hot ∧ (after c op).shelf.page id = c.shelf.page id) := fun hs => by
    rw [hs]
    exact ⟨hhot, rfl⟩
  have hput : ∀ i b, i ≠ id → (after c op).shelf = c.shelf.put i b →
      (id ∈ (after c op).shelf.hot ∧ (after c op).shelf.page id = c.shelf.page id) :=
        fun i b hi hs => by
    rw [hs]
    exact ⟨Finset.mem_insert_of_mem hhot, Function.update_of_ne (Ne.symm hi) ..⟩
  have hnew : (after c op).shelf =
    { c.shelf.put c.nextPageId .zero with next := c.nextPageId + 1 } →
      (id ∈ (after c op).shelf.hot ∧ (after c op).shelf.page id = c.shelf.page id) := fun hs => by
    rw [hs]
    exact ⟨Finset.mem_insert_of_mem hhot,
      Function.update_of_ne (Nat.ne_of_lt (h.bounded id hhot)) ..⟩
  cases op with
  | get i =>
    rcases hdone with ⟨a, -, e, -, -, -, hs, -⟩ | hs
    · exact .inl (hsame hs)
    · exact .inl (hsame hs)
  | getMut i f | getMutDeferredStamp i f =>
    rcases hdone with ⟨a, hret, e, -, hw⟩ | hs
    · exact .inl (hput i _ (fun hi => hr ⟨hi, hret⟩) hw.shelf)
    · exact .inl (hsame hs)
  | newPage =>
    rcases hdone with ⟨a, -, -, hs, -⟩ | ⟨-, hs⟩ | hs
    · exact .inl (hnew hs)
    · exact .inl (hsame hs)
    · exact .inl (hnew hs)
  | claimPage i | reclaimDeadTxnPage i =>
    rcases hdone with ⟨a, -, hs, -⟩ | hs
    · exact .inl (hput i _ hr hs)
    · exact .inl (hput i _ hr hs)
  | copyPage src dst =>
    rcases hdone with ⟨a, hret, e, e', -, -, -, hw⟩ | hs
    · exact .inl (hput dst _ (fun hi => hr ⟨hi, hret⟩) hw.shelf)
    · exact .inl (hsame hs)
  | flush =>
    rcases hdone with ⟨a, -, hs⟩ | hs
    · exact .inr ⟨rfl, congrFun hs.disk id⟩
    · exact .inl (hs id hd)
  | discardAllDirty => exact absurd trivial hr
  | truncate n =>
    have hlt : id < n := Nat.lt_of_not_le hr
    rcases hdone with ⟨a, -, hs, -⟩ | hs
    · refine .inl ⟨?_, (hs.page id).trans (if_pos hlt)⟩
      rw [hs.hot]
      exact Finset.mem_filter.mpr ⟨hhot, hlt⟩
    · exact .inl (hs id hlt hhot)
  | setCacheMaxBytes bytes | setSpillwayMaxBytes bytes | setDrainInsertion policy =>
    rcases hdone with ⟨a, -, hs, -⟩ | hs
    · exact .inl (hsame hs)
    · exact .inl (hsame hs)

/-- A page that is handed out differs from the file, whether or not room was found. -/
theorem issued (op : CacheOp) (h : c.Sound) (hw : c.Within) (hh : op.handed c) {id : Nat}
    (hi : op.issues c = some id) :
    id ∈ (after c op).shelf.hot ∧ (after c op).shelf.page id = some .zero := by
  obtain ⟨-, -, hdone⟩ := after_spec op h hw hh
  have hput : (after c op).shelf.hot = insert id c.shelf.hot →
      (after c op).shelf.page = Function.update c.shelf.page id (some .zero) →
      id ∈ (after c op).shelf.hot ∧ (after c op).shelf.page id = some .zero := fun h1 h2 => by
    rw [h1, h2]
    exact ⟨Finset.mem_insert_self .., Function.update_self ..⟩
  cases op with
  | newPage =>
    have hmax : c.nextPageId ≠ u64Max ∧ c.nextPageId = id := by
      simpa [issues] using hi
    obtain ⟨hne, rfl⟩ := hmax
    rcases hdone with ⟨a, -, -, hs, -⟩ | ⟨hmax, -⟩ | hs
    · exact hput (congrArg Shelf.hot hs) (congrArg Shelf.page hs)
    · exact absurd hmax hne
    · exact hput (congrArg Shelf.hot hs) (congrArg Shelf.page hs)
  | claimPage i | reclaimDeadTxnPage i =>
    obtain rfl := Option.some.inj hi
    rcases hdone with ⟨a, -, hs, -⟩ | hs
    · exact hput (congrArg Shelf.hot hs) (congrArg Shelf.page hs)
    · exact hput (congrArg Shelf.hot hs) (congrArg Shelf.page hs)
  | _ => cases hi

/-- The bookkeeping of the cache along every sequence of calls, whether they return or fail, that
reissues only pages that were handed out before. The bytes of a dirty page outlive every
eviction. -/
theorem cache_bookkeeping (io : PageIo) (hio : io.Aligned) (cacheMaxBytes spillwayMaxBytes : Nat)
    (drainInsertion : DrainInsertion) (cipher : Option Dek) (ops : List CacheOp)
    (hops : Handed (fresh io cacheMaxBytes spillwayMaxBytes drainInsertion cipher) ops) :
    let c := ops.foldl after (fresh io cacheMaxBytes spillwayMaxBytes drainInsertion cipher)
    c.Bookkept ∧ ∀ op : CacheOp, op.handed c →
      (∀ id e, c.entries.lookup id = some e → e.dirty = true → ¬ op.Replaces c id →
        (after c op).Stored id e.stampDeferred.buf ∨
          (op = flush ∧ (after c op).onDisk id = some e.stampDeferred.buf)) ∧
      ∀ id, op.issues c = some id → (after c op).Stored id .zero := by
  obtain ⟨h0, hw0⟩ := sound_fresh hio cacheMaxBytes spillwayMaxBytes drainInsertion cipher
  obtain ⟨h, hw⟩ := sound_run h0 hw0 hops
  refine ⟨h.bookkept, fun op hh => ?_⟩
  obtain ⟨h', -, -⟩ := after_spec op h hw hh
  refine ⟨fun id e he hd hr => ?_, fun id hi => ?_⟩
  · have hpage : PageCache.bufAt _ id = some e.stampDeferred.buf := bufAt_of_lookup he
    rcases kept op h hw hh (mem_dirtySet.mpr ⟨e, he, hd⟩) hr with ⟨hhot, hsame⟩ | ⟨hf, hdisk⟩
    · exact .inl (h'.stored hhot (hsame.trans hpage))
    · exact .inr ⟨hf, hdisk.trans hpage⟩
  · obtain ⟨hhot, hzero⟩ := issued op h hw hh hi
    exact h'.stored hhot hzero

/-- A cache of one page with a spillway of two, over an empty file. -/
def tight : PageCache :=
  fresh (.openFile .empty [] pageSize false) pageSize (2 * pageSize) .lruTail none

/-- Page 0 is written and spilled, so is page 1, page 0 comes back from the spillway, and page 1 is
reissued. -/
def busyCalls : List CacheOp :=
  [newPage, getMut 0 fun _ => ⟨.data [[7]], true⟩, newPage, newPage, get 0, claimPage 1]

theorem handed_busyCalls : Handed tight busyCalls :=
  ⟨trivial, trivial, trivial, trivial, trivial, by decide +kernel, trivial⟩

theorem cache_bookkeeping_tight :
    (busyCalls.foldl after tight).ensureSpillway.slotCount = 2 ∧
      (busyCalls.foldl after tight).Bookkept :=
  ⟨by decide +kernel, (cache_bookkeeping (.openFile .empty [] pageSize false) rfl pageSize
    (2 * pageSize) .lruTail none _ handed_busyCalls).1⟩

/-- The calls all return, and their answers and the cache that they leave pass a check. -/
def ends (ops : List CacheOp) (c : PageCache) (p : List CacheAnswer → PageCache → Bool) : Bool :=
  match ops.mapM perform c with
  | .ok answers c' => p answers c'
  | .error _ _ => false

theorem of_ends {p : List CacheAnswer → PageCache → Bool} (h : ends ops c p = true) :
    ∃ answers c', ops.mapM perform c = .ok answers c' ∧ p answers c' = true := by
  unfold ends at h
  cases hrun : ops.mapM perform c with
  | ok answers c' =>
    rw [hrun] at h
    exact ⟨answers, c', rfl, h⟩
  | error e c' =>
    rw [hrun] at h
    cases h

/-- A page that was never handed out is claimed and spilled; then it is handed out. It is in memory
and in the spillway at once. -/
theorem claimed_before_handed_out :
    ∃ answers c, [claimPage 1, newPage, newPage].mapM perform tight = .ok answers c ∧
      1 ∈ c.entries ∧ (c.spillway.map fun spw => spw.isResident 1).getD false = true := by
  have hend : ends [claimPage 1, newPage, newPage] tight (fun _ c =>
      decide (1 ∈ c.entries) && (c.spillway.map fun spw => spw.isResident 1).getD false) =
        true := by
    decide +kernel
  obtain ⟨answers, c, hrun, hc⟩ := of_ends hend
  rw [Bool.and_eq_true, decide_eq_true_iff] at hc
  exact ⟨answers, c, hrun, hc⟩

end CacheOp

/-! ### Contents -/

/-- The bytes of a page as a reader expects them. The checksum field of a page whose stamp may be
deferred is not known. -/
structure Written where
  page : Page
  stamped : Option Bool

def Written.isFresh : Written → Bool
  | ⟨.zero, some false⟩ => true
  | _ => false

def Written.Is (w : Written) (b : Buf) : Prop := b.page = w.page ∧ ∀ s ∈ w.stamped, b.stamped = s

/-- What the calls so far amount to: the bytes last written to each page, the bytes that it had when
the file was last brought up to date, and the pages whose stamp was deferred since then. -/
structure Contents where
  now : Nat → Option Written
  saved : Nat → Option Written
  deferred : Finset Nat

namespace Contents

def ofFile (disk : Nat → Option Buf) : Contents where
  now id := (disk id).map fun b => ⟨b.page, some b.stamped⟩
  saved id := (disk id).map fun b => ⟨b.page, some b.stamped⟩
  deferred := ∅

def write (s : Contents) (id : Nat) (page : Page) (stamped : Option Bool) : Contents :=
  let known := if id ∈ s.deferred then none else stamped
  { s with now := Function.update s.now id (some ⟨page, known⟩) }

/-- The page is handed out: zeros, and no stamp is due. -/
def issue (s : Contents) (id : Nat) : Contents :=
  { s with
    now := Function.update s.now id (some ⟨.zero, some false⟩)
    deferred := s.deferred.erase id }

def step (s : Contents) : CacheOp → CacheAnswer → Contents
  | .getMut id _, .bytes b => s.write id b.page (some b.stamped)
  | .getMutDeferredStamp id _, .bytes b =>
    { s with deferred := insert id s.deferred }.write id b.page none
  | .newPage, .page id => s.issue id
  | .claimPage id, _ => s.issue id
  | .reclaimDeadTxnPage id, _ => s.issue id
  | .copyPage src dst, _ =>
    match s.now src with
    | some w => s.write dst w.page w.stamped
    | none => s
  | .flush, _ => { s with saved := s.now, deferred := ∅ }
  | .discardAllDirty, _ => { s with now := s.saved, deferred := ∅ }
  | .truncate n, _ => { s with
      now := fun id => if id < n then s.now id else none
      saved := fun id => if id < n then s.saved id else none }
  | _, _ => s

def Told (s : Contents) : CacheOp → CacheAnswer → Prop
  | .get id, a => ∃ w b, s.now id = some w ∧ w.Is b ∧ a = .bytes b
  | .getMut id f, a | .getMutDeferredStamp id f, a =>
    ∃ w b, s.now id = some w ∧ w.Is b ∧ a = .bytes (f b)
  | .copyPage src _, a => ∃ w b, s.now src = some w ∧ w.Is b ∧ a = .bytes b
  | _, _ => True

def run (s : Contents) (ops : List CacheOp) (answers : List CacheAnswer) : Contents :=
  (ops.zip answers).foldl (fun s call => s.step call.1 call.2) s

def Agrees (ws : Nat → Option Written) (bufs : Nat → Option Buf) : Prop :=
  ∀ id, Option.Rel Written.Is (ws id) (bufs id)

structure Models (s : Contents) (c : PageCache) : Prop where
  sound : c.Sound
  within : c.Within
  now : Agrees s.now c.shelf.page
  saved : Agrees s.saved c.shelf.disk
  owed : ∀ id, c.Owes id → id ∈ s.deferred
  unknown : ∀ id ∈ s.deferred, ∀ w, s.now id = some w → w.stamped = none

variable {s : Contents} {c c' : PageCache}

theorem Agrees.update {ws : Nat → Option Written} {bufs : Nat → Option Buf} (h : Agrees ws bufs)
    (id : Nat) {w : Written} (hw : w.Is b) :
    Agrees (Function.update ws id (some w)) (Function.update bufs id (some b)) := by
  intro x
  by_cases hx : x = id
  · subst hx
    rw [Function.update_self, Function.update_self]
    exact .some hw
  · rw [Function.update_of_ne hx, Function.update_of_ne hx]
    exact h x

theorem Agrees.cut {ws : Nat → Option Written} {bufs bufs' : Nat → Option Buf} (h : Agrees ws bufs)
    {n : Nat} (hn : ∀ x, bufs' x = if x < n then bufs x else none) :
    Agrees (fun x => if x < n then ws x else none) bufs' := by
  intro x
  simp only [hn]
  split
  · exact h x
  · exact .none

theorem Models.found (h : s.Models c) {id : Nat}
    (hp : c.shelf.page id = some e.stampDeferred.buf) (ho : e.needsStamp = true → c.Owes id) :
    ∃ w, s.now id = some w ∧ w.Is e.buf := by
  have hrel := h.now id
  rw [hp] at hrel
  cases hw : s.now id with
  | none =>
    rw [hw] at hrel
    cases hrel
  | some w =>
    rw [hw] at hrel
    cases hrel with
    | some his =>
      refine ⟨w, rfl, ?_⟩
      cases hn : e.needsStamp with
      | false => rwa [PageCache.stampDeferred_of_clean hn] at his
      | true =>
        have hnone := h.unknown id (h.owed id (ho hn)) w hw
        refine ⟨?_, fun s hs => ?_⟩
        · rw [← his.1]
          unfold CacheEntry.stampDeferred
          split <;> rfl
        · rw [hnone] at hs
          cases hs

/-- A write shows in its page only. `d` is `deferred`, with the page itself when its stamp is
deferred now. -/
theorem Models.wrote (h : s.Models c) {id : Nat} {e' : CacheEntry}
    (hw : PageCache.WroteTo id e e' c c') {d : Finset Nat} (hsub : s.deferred ⊆ d)
    (hd : ∀ x ∈ d, x ≠ id → x ∈ s.deferred) {stamped : Option Bool}
    (hst : id ∉ d → e'.needsStamp = false ∧ ∀ v ∈ stamped, e'.buf.stamped = v) :
    ({ s with deferred := d }.write id e'.buf.page stamped).Models c' where
  sound := hw.sound
  within := CacheOp.within_of_put h.within hw
  now := by
    rw [hw.shelf]
    refine h.now.update id ⟨?_, fun v hv => ?_⟩
    · unfold CacheEntry.stampDeferred
      split <;> rfl
    · change v ∈ (if id ∈ d then none else stamped) at hv
      split at hv
      · cases hv
      · next hno =>
        obtain ⟨h1, h2⟩ := hst hno
        rw [PageCache.stampDeferred_of_clean h1]
        exact h2 v hv
  saved := by
    rw [hw.shelf]
    exact h.saved
  owed x hx := by
    by_cases hxi : x = id
    · subst hxi
      by_contra hno
      obtain ⟨e1, he1, hn1⟩ := hx
      rw [Option.some.inj (he1.symm.trans hw.left), (hst hno).1] at hn1
      cases hn1
    · exact hsub (h.owed x (hw.owes x hxi hx))
  unknown x hx w hxw := by
    change Function.update s.now id _ x = some w at hxw
    by_cases hxi : x = id
    · subst hxi
      rw [Function.update_self] at hxw
      obtain rfl := Option.some.inj hxw
      exact if_pos hx
    · rw [Function.update_of_ne hxi] at hxw
      exact h.unknown x (hd x hx hxi) w hxw

theorem Models.issued (h : s.Models c) (hs : c'.Sound) (hw : c'.Within) {id : Nat}
    (hp : c'.shelf.page = Function.update c.shelf.page id (some .zero))
    (hd : c'.shelf.disk = c.shelf.disk) (ho : ∀ x, c'.Owes x → x ≠ id ∧ c.Owes x) :
    (s.issue id).Models c' where
  sound := hs
  within := hw
  now := by
    rw [hp]
    exact h.now.update id ⟨rfl, fun v hv => Option.some.inj hv⟩
  saved := by
    rw [hd]
    exact h.saved
  owed x hx := Finset.mem_erase.mpr ⟨(ho x hx).1, h.owed x (ho x hx).2⟩
  unknown x hx w hxw := by
    obtain ⟨hne, hx⟩ := Finset.mem_erase.mp hx
    change Function.update s.now id _ x = some w at hxw
    rw [Function.update_of_ne hne] at hxw
    exact h.unknown x hx w hxw

theorem Models.same (h : s.Models c) (hs : c'.Sound) (hw : c'.Within) (hshelf : c'.shelf = c.shelf)
    (ho : PageCache.OwesLess c c') : s.Models c' where
  sound := hs
  within := hw
  now := hshelf ▸ h.now
  saved := hshelf ▸ h.saved
  owed x hx := h.owed x (ho x hx)
  unknown := h.unknown

theorem not_owes (hs : c.Sound) (hhot : c.shelf.hot = ∅) (x : Nat) : ¬ c.Owes x := fun hx => by
  have hm : x ∈ c.shelf.hot := Finset.mem_union_left _ (hs.owes_dirty hx)
  rw [hhot] at hm
  cases hm

/-- A call that returns tells what the contents say and changes them as they say. -/
theorem Models.step (h : s.Models c) {op : CacheOp} {a : CacheAnswer} (hs : c'.Sound)
    (hw : c'.Within) (hshow : op.Shows c c' a) : s.Told op a ∧ (s.step op a).Models c' := by
  cases op with
  | get id =>
    obtain ⟨e, rfl, hp, ho, hshelf, hless⟩ := hshow
    obtain ⟨w, hnow, his⟩ := h.found hp ho
    exact ⟨⟨w, e.buf, hnow, his, rfl⟩, h.same hs hw hshelf hless⟩
  | getMut id f =>
    obtain ⟨e, rfl, hwrote⟩ := hshow
    obtain ⟨w, hnow, his⟩ := h.found hwrote.found hwrote.owed
    refine ⟨⟨w, e.buf, hnow, his, rfl⟩, h.wrote hwrote (Finset.Subset.refl _) (fun x hx _ => hx)
      fun hno => ?_⟩
    refine ⟨?_, fun v hv => Option.some.inj hv⟩
    by_contra hn
    exact hno (h.owed id (hwrote.owed (by simpa using hn)))
  | getMutDeferredStamp id f =>
    obtain ⟨e, rfl, hwrote⟩ := hshow
    obtain ⟨w, hnow, his⟩ := h.found hwrote.found hwrote.owed
    refine ⟨⟨w, e.buf, hnow, his, rfl⟩, h.wrote hwrote (Finset.subset_insert ..)
      (fun x hx hne => ?_) fun hno => ?_⟩
    · exact (Finset.mem_insert.mp hx).resolve_left hne
    · exact absurd (Finset.mem_insert_self ..) hno
  | newPage =>
    obtain ⟨rfl, hshelf, ho⟩ := hshow
    exact ⟨trivial, h.issued hs hw (congrArg Shelf.page hshelf) (by rw [hshelf]; rfl) ho⟩
  | claimPage id | reclaimDeadTxnPage id =>
    obtain ⟨hshelf, ho⟩ := hshow
    exact ⟨trivial, h.issued hs hw (congrArg Shelf.page hshelf) (by rw [hshelf]; rfl) ho⟩
  | copyPage src dst =>
    obtain ⟨e, e', rfl, hp, ho, hwrote⟩ := hshow
    obtain ⟨w, hnow, his⟩ := h.found hp ho
    refine ⟨⟨w, e.buf, hnow, his, rfl⟩, ?_⟩
    have hstep : s.step (.copyPage src dst) (.bytes e.buf) = s.write dst e.buf.page w.stamped := by
      simp only [Contents.step, hnow, his.1]
    rw [hstep]
    refine h.wrote hwrote (Finset.Subset.refl _) (fun x hx _ => hx) fun hno => ?_
    refine ⟨?_, fun v hv => his.2 v hv⟩
    by_contra hn
    exact hno (h.owed dst (hwrote.owed (by simpa using hn)))
  | flush =>
    refine ⟨trivial, hs, hw, ?_, ?_, fun x hx => absurd hx (not_owes hs hshow.hot x),
      fun x hx => ?_⟩
    · rw [hshow.page]
      exact h.now
    · rw [hshow.disk]
      exact h.now
    · cases hx
  | discardAllDirty =>
    have hdisk : c'.shelf.disk = c.shelf.disk := by
      funext x
      rw [Shelf.disk, hshow.io, hshow.cipher, Shelf.disk]
    refine ⟨trivial, hs, hw, ?_, ?_, fun x hx => absurd hx (not_owes hs hshow.hot x),
      fun x hx => ?_⟩
    · rw [hshow.page]
      exact h.saved
    · rw [hdisk]
      exact h.saved
    · cases hx
  | truncate n =>
    obtain ⟨hcut, hless⟩ := hshow
    refine ⟨trivial, hs, hw, h.now.cut hcut.page, h.saved.cut hcut.disk,
      fun x hx => h.owed x (hless x hx), fun x hx w hxw => ?_⟩
    change (if x < n then s.now x else none) = some w at hxw
    split at hxw
    · exact h.unknown x hx w hxw
    · cases hxw
  | setCacheMaxBytes bytes | setSpillwayMaxBytes bytes | setDrainInsertion policy =>
    exact ⟨trivial, h.same hs hw hshow.1 hshow.2⟩

theorem models_fresh (h : io.Aligned) (cacheMaxBytes spillwayMaxBytes : Nat)
    (drainInsertion : DrainInsertion) (cipher : Option Dek) :
    (ofFile (diskBuf io cipher)).Models
      (PageCache.fresh io cacheMaxBytes spillwayMaxBytes drainInsertion cipher) := by
  obtain ⟨hs, hw⟩ := PageCache.sound_fresh h cacheMaxBytes spillwayMaxBytes drainInsertion cipher
  have hsaved : Agrees (ofFile (diskBuf io cipher)).saved (diskBuf io cipher) := by
    intro id
    change Option.Rel Written.Is ((diskBuf io cipher id).map _) _
    cases diskBuf io cipher id with
    | none => exact .none
    | some b => exact .some ⟨rfl, fun v hv => Option.some.inj hv⟩
  refine ⟨hs, hw, fun x => ?_, hsaved, fun x hx => ?_, fun x hx => ?_⟩
  · rw [hs.cold (Finset.notMem_empty x)]
    exact hsaved x
  · obtain ⟨e, he, -⟩ := hx
    cases he
  · cases hx

theorem Models.run {answers : List CacheAnswer} (h : s.Models c)
    (hh : CacheOp.Handed c ops) (hrun : ops.mapM CacheOp.perform c = .ok answers c') :
    (s.run ops answers).Models c' := by
  induction ops generalizing s c answers with
  | nil =>
    rw [List.mapM_nil] at hrun
    cases hrun
    exact h
  | cons op ops ih =>
    rw [List.mapM_cons] at hrun
    have hspec := CacheOp.perform_spec op h.sound h.within hh.1
    have hafter := hh.2
    unfold CacheOp.after at hafter
    cases hp : op.perform c with
    | error e c1 =>
      rw [bind_of_error hp] at hrun
      cases hrun
    | ok a c1 =>
      rw [hp] at hafter
      rw [bind_of_ok hp] at hrun
      obtain ⟨hs, hw, hshow⟩ := (wp_ok hp).mp hspec
      cases hrest : ops.mapM CacheOp.perform c1 with
      | error e c2 =>
        rw [bind_of_error hrest] at hrun
        cases hrun
      | ok as c2 =>
        rw [bind_of_ok hrest] at hrun
        cases hrun
        exact ih (h.step hs hw hshow).2 hafter hrest

end Contents

/-- The page cache is transparent: after any calls that all returned, the next one tells the bytes
that were last written to its page, and a flush brings exactly those bytes to the file. -/
theorem cache_transparent (io : PageIo) (hio : io.Aligned) (cacheMaxBytes spillwayMaxBytes : Nat)
    (drainInsertion : DrainInsertion) (cipher : Option Dek) (ops : List CacheOp)
    (answers : List CacheAnswer) (c : PageCache)
    (hops : CacheOp.Handed (.fresh io cacheMaxBytes spillwayMaxBytes drainInsertion cipher) ops)
    (hrun : ops.mapM CacheOp.perform (.fresh io cacheMaxBytes spillwayMaxBytes drainInsertion
    cipher) =
      .ok answers c)
    (op : CacheOp) (hop : op.handed c) (a : CacheAnswer) (c' : PageCache)
    (hlast : op.perform c = .ok a c') :
    let s := (Contents.ofFile (diskBuf io cipher)).run ops answers
    s.Told op a ∧ (op = .flush → Contents.Agrees s.now c'.onDisk ∧
      (∀ id e, c'.entries.lookup id = some e → e.dirty = false) ∧
      ∀ id, (c'.spillway.map fun spw => spw.isResident id).getD false = false) := by
  have hm := (Contents.models_fresh hio cacheMaxBytes spillwayMaxBytes drainInsertion cipher).run
    hops hrun
  obtain ⟨hs, hw, hshow⟩ := (wp_ok hlast).mp (CacheOp.perform_spec op hm.sound hm.within hop)
  obtain ⟨htold, hm'⟩ := hm.step hs hw hshow
  refine ⟨htold, ?_⟩
  rintro rfl
  have hhot : ∀ x, x ∉ c'.shelf.hot := fun x hx => by
    rw [show c'.shelf.hot = ∅ from hshow.hot] at hx
    cases hx
  refine ⟨hm'.saved, fun id e he => ?_, fun id => ?_⟩
  · by_contra hd
    exact hhot id (Finset.mem_union_left _ (PageCache.mem_dirtySet.mpr ⟨e, he, by simpa using hd⟩))
  · have hno : id ∉ c'.spillSet := fun h => hhot id (Finset.mem_union_right _ h)
    rw [← PageCache.isResident_iff] at hno
    simpa using hno

namespace CacheOp

theorem cache_transparent_tight :
    ∃ answers c a c', busyCalls.mapM perform tight = .ok answers c ∧ perform flush c = .ok a c' ∧
      Contents.Agrees ((Contents.ofFile (diskBuf (.openFile .empty [] pageSize false) none)).run
        busyCalls answers).now c'.onDisk := by
  have hend : ends busyCalls tight (fun _ c => returns (perform flush) c) = true := by
    decide +kernel
  obtain ⟨answers, c, hrun, hc⟩ := of_ends hend
  obtain ⟨a, c', hlast⟩ := exists_ok hc
  exact ⟨answers, c, a, c', hrun, hlast, ((cache_transparent (.openFile .empty [] pageSize false)
    rfl pageSize (2 * pageSize) .lruTail none _ _ _ handed_busyCalls hrun flush trivial a c'
    hlast).2 rfl).1⟩

/-- A page that was never handed out is claimed, written and spilled; then it is handed out. -/
def staleCalls : List CacheOp :=
  [claimPage 1, getMut 1 fun _ => ⟨.data [], true⟩, newPage, newPage, flush]

theorem isFresh_eq {w : Written} (h : w.isFresh = true) : w = ⟨.zero, some false⟩ := by
  unfold Written.isFresh at h
  split at h
  · rfl
  · cases h

/-- The page should be all zeros, but the file has the bytes of the spillway. -/
theorem claimed_page_flushed_stale :
    ∃ answers c, staleCalls.mapM perform tight = .ok answers c ∧
      ((Contents.ofFile (diskBuf (.openFile .empty [] pageSize false) none)).run staleCalls
        answers).now 1 = some ⟨.zero, some false⟩ ∧
      (c.onDisk 1).map (fun b => b.page.isData) = some true := by
  have hend : ends staleCalls tight (fun answers c =>
      (((Contents.ofFile (diskBuf (.openFile .empty [] pageSize false) none)).run staleCalls
        answers).now 1).any Written.isFresh && decide ((c.onDisk 1).map (fun b => b.page.isData) =
          some true)) = true := by
    decide +kernel
  obtain ⟨answers, c, hrun, hc⟩ := of_ends hend
  rw [Bool.and_eq_true, decide_eq_true_iff, Option.any_eq_true_iff_get] at hc
  obtain ⟨⟨hsome, hfresh⟩, hdata⟩ := hc
  exact ⟨answers, c, hrun, by rw [← isFresh_eq hfresh, Option.some_get], hdata⟩

end CacheOp

/-! ### Every cache that there can be -/

namespace PageCache

variable {c c' : PageCache}

/-- A cache over a file that was opened again, with the pages handed out that its superblock
counts. -/
def reopened (io : PageIo) (cacheMaxBytes spillwayMaxBytes : Nat) (drainInsertion : DrainInsertion)
    (cipher : Option Dek) (nextPageId : Nat) : PageCache :=
  { fresh io cacheMaxBytes spillwayMaxBytes drainInsertion cipher with nextPageId }

/-- The caches that there can be: fresh ones, those that a call leaves, and those over a file that
was flushed and opened again. -/
inductive Reachable : PageCache → Prop
  | fresh {io : PageIo} (aligned : io.Aligned) (cacheMaxBytes spillwayMaxBytes : Nat)
    (drainInsertion : DrainInsertion) (cipher : Option Dek) :
    Reachable (fresh io cacheMaxBytes spillwayMaxBytes drainInsertion cipher)
  | call {c : PageCache} (h : Reachable c) {op : CacheOp} (handed : op.handed c) :
      Reachable (op.after c)
  | reopen {c c' : PageCache} (h : Reachable c) (flushed : flush c = .ok () c') {io : PageIo}
    (aligned : io.Aligned) (image : io.image = c'.io.image) (cacheMaxBytes spillwayMaxBytes : Nat)
    (drainInsertion : DrainInsertion) :
    Reachable (reopened io cacheMaxBytes spillwayMaxBytes drainInsertion c'.cipher c'.nextPageId)

theorem Reachable.calls (h : c.Reachable) (hh : CacheOp.Handed c ops) :
    (ops.foldl CacheOp.after c).Reachable := by
  induction ops generalizing c with
  | nil => exact h
  | cons op ops ih => exact ih (h.call hh.1) hh.2

theorem Sound.reopen (h : c.Sound) (hw : c.Within) (hf : flush c = .ok () c')
    (hio : io.Aligned) (himage : io.image = c'.io.image) (cacheMaxBytes spillwayMaxBytes : Nat)
    (drainInsertion : DrainInsertion) :
    let r := reopened io cacheMaxBytes spillwayMaxBytes drainInsertion c'.cipher c'.nextPageId
    r.Sound ∧ r.Within ∧ r.shelf.page = c.shelf.page ∧ r.nextPageId = c.nextPageId := by
  obtain ⟨h', hflush⟩ := (wp_ok hf).mp (wp_flush_sound h)
  obtain ⟨hs, -⟩ := sound_fresh hio cacheMaxBytes spillwayMaxBytes drainInsertion c'.cipher
  have hdisk : diskBuf io c'.cipher = c.shelf.page := by
    rw [← hflush.disk]
    funext x
    change _ = diskBuf c'.io c'.cipher x
    rw [diskBuf_eq hio, diskBuf_eq h'.aligned, himage]
  have hnext : c'.nextPageId = c.nextPageId := hflush.next
  have hsound : (reopened io cacheMaxBytes spillwayMaxBytes drainInsertion c'.cipher
    c'.nextPageId).Sound :=
    { hs with lru := { hs.lru with }, bounded := fun x hx => (by cases hx), aligned := hio }
  refine ⟨hsound, fun x b hb => ?_, funext fun x => ?_, hnext⟩
  · have hb' : diskBuf io c'.cipher x = some b := hb
    rw [hdisk] at hb'
    exact (h.page_bounded hw hb').trans_eq hnext.symm
  · rw [hsound.cold (Finset.notMem_empty x)]
    exact congrFun hdisk x

theorem Reachable.sound (h : c.Reachable) : c.Sound ∧ c.Within := by
  induction h with
  | fresh aligned => exact sound_fresh aligned ..
  | call _ handed ih =>
    obtain ⟨h1, h2, -⟩ := CacheOp.after_spec _ ih.1 ih.2 handed
    exact ⟨h1, h2⟩
  | reopen _ flushed aligned image _ _ _ ih =>
    obtain ⟨h1, h2, -⟩ := ih.1.reopen ih.2 flushed aligned image _ _ _
    exact ⟨h1, h2⟩

end PageCache

end Chisel
