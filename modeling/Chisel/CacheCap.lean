import Chisel.CacheBooks
import Chisel.Opening
import Chisel.Runs

/-! How many pages memory holds. The cap is kept, but for the page brought in last, by every call
that is not refused for want of room. A page that such a call had brought in stays in memory, and so
does the next one. -/

namespace Chisel

open StateError PageCache TransactionManager

namespace PageCache

variable {c c' : PageCache}

theorem WF.books (h : c.WF) : c.Books := h.sound.books

theorem WF.card_hot (h : c.WF) :
    c.store.hot.card = c.dirtySet.card + c.ensureSpillway.slotCount := by
  rw [← card_spillSet]
  exact Finset.card_union_of_disjoint (disjoint_dirtySet_spillSet h)

/-- No page was brought in yet. -/
def Vacant (c : PageCache) : Prop := c.entries = ∅ ∧ c.lru = [] ∧ c.spillway = none

theorem Vacant.size (h : c.Vacant) : c.size = 0 := by
  rw [PageCache.size, h.1]
  rfl

theorem Vacant.books (h : c.Vacant) : c.Books := by
  have hcached : c.cached = ∅ := Finset.card_eq_zero.mp (card_cached.trans h.size)
  refine ⟨⟨?_, fun id => ?_⟩, ?_, ?_⟩
  · rw [h.2.1]
    exact List.nodup_nil
  · rw [h.2.1, hcached]
    simp
  · have hdirty := Finset.card_le_card (dirtySet_subset_cached (c := c))
    rw [hcached, Finset.card_empty] at hdirty
    exact hdirty.trans (Nat.zero_le _)
  · rw [h.2.2]
    exact nofun

end PageCache

/-! ### Opening -/

section Opening

variable {c : PageCache} {key : Option Key}

theorem wp_openExisting_size (hc : c.Vacant) :
    wp (openExisting key) c (fun m _ => m.cache.size ≤ m.cache.maxPages + 1) (fun _ _ => True) := by
  refine wp_imp (wp_openExisting_adopts KeepsBooks FailsBooks) ?_
  rintro m - ⟨io, w, i, -, -, -, -, hadopted⟩
  obtain @⟨sb, cipher, c1, -, -, -, -, -, -, hscan⟩ := hadopted
  have hv : (({ c with io } : PageCache).loading sb cipher).Vacant := hc
  obtain ⟨-, hmax, hsize⟩ := hscan hv.books
  change c1.size ≤ c1.maxPages + 1
  rw [hv.size] at hsize
  omega

theorem openDb_size {options : Options} {f : DbFile} {m : TransactionManager} {io : PageIo}
    (h : openDb options f = (.ok m, io)) : m.cache.size ≤ m.cache.maxPages + 1 := by
  have hvacant : (freshCache options f).Vacant := ⟨rfl, rfl, rfl⟩
  unfold openDb at h
  dsimp only at h
  split at h
  · cases h
  split at h
  · cases h
  next hmade =>
  split at h
  · next m' c' hok =>
    obtain rfl := Except.ok.inj (Prod.mk.inj h).1
    split at hok
    · exact (wp_ok hok).mp (wp_openExisting_size hvacant)
    · next hnew =>
      have hro : options.readOnly = false := Bool.eq_false_of_not_eq_true fun hro =>
        hmade ⟨Nat.eq_zero_of_not_pos hnew, .inr hro⟩
      obtain ⟨-, rfl, rfl⟩ := (wp_ok hok).mp (wp_createNew _ _ _ hro)
      exact Nat.zero_le _
  · cases h

end Opening

/-! ### Runs -/

section Runs

variable {past : Past} {m : TransactionManager} {db : Db} {n : Nat}

theorem Sane.wf (h : Sane past m) : m.cache.WF := by
  cases h with
  | idle hO => exact hO.wf
  | running hR => exact hR.txn.core.alloc.sound.wf
  | dead hp ha hwf => exact hwf

/-- Memory holds its cap of pages, the one brought in last, and `n` more at most. -/
def Db.WithinCap (n : Nat) (db : Db) : Prop :=
  ∀ m, db = .opened m → m.cache.size ≤ m.cache.maxPages + 1 + n

/-- The call is refused for want of room. -/
def Db.refuses : Db → Step → Bool
  | .opened m, .op op => (m.failure op).any ChiselError.isCapacity
  | _, _ => false

/-- The calls refused for want of room on the open handle, after a step that found `n` of them. -/
def Db.tally (db : Db) (n : Nat) : Step → Nat
  | .drop => 0
  | s => n + (db.refuses s).toNat

def Db.refusals : Nat → Db → List Step → Nat
  | n, _, [] => n
  | n, db, s :: rest => (db.step s).refusals (db.tally n s) rest

/-- The cap may change between two transactions only, when every page can be evicted. -/
theorem Sane.tune_size (h : Sane past m) (hsize : m.cache.size ≤ m.cache.maxPages + 1 + n) {op : Op}
    (hop : op.tunes = true) : (m.after op).cache.size ≤ (m.after op).cache.maxPages + 1 + n := by
  refine of_wp_perform (P := fun _ m' => m'.cache.size ≤ m'.cache.maxPages + 1 + n) ?_
  cases op with
  | setSpillwayMaxBytes | setDrainInsertion => exact wp_tune hsize fun _ => hsize
  | setCacheMaxBytes bytes =>
    refine wp_tune hsize fun hidle => ?_
    obtain ⟨v, t, lost, hO, -⟩ := h.opened hidle
    have hclean : m.cache.dirtyCount = 0 := by
      have hcard := hO.wf.card_hot
      rw [hO.cold, Finset.card_empty] at hcard
      rw [hO.wf.dirty_count]
      omega
    have hb := hO.wf.books
    set c : PageCache := { m.cache with maxPages := max (bytes.toNat / pageSize) 1 }
    have hb' : c.Books := ⟨⟨hb.lru.nodup, hb.lru.mem⟩, hb.counted, hb.stowed⟩
    obtain ⟨hs, -, hevict⟩ := evictCleanToCap_shifts 0 (Nat.le_refl c.size)
    have hmax : (evictCleanToCap c.size c).maxPages = c.maxPages := by
      rw [evictCleanToCap_fields]
    have hcount : (evictCleanToCap c.size c).dirtyCount = 0 := by
      rw [evictCleanToCap_fields]
      exact hclean
    change (evictCleanToCap c.size c).size ≤ (evictCleanToCap c.size c).maxPages + 1 + n
    rcases hevict with hle | hp
    · omega
    · have := hp.size_le (hb'.shifts hs)
      omega
  | _ => cases hop

/-- An operation that is refused for want of room leaves one page more at most, and any other one
none. -/
theorem Sane.size_after (h : Sane past m) (hsize : m.cache.size ≤ m.cache.maxPages + 1 + n)
    (op : Op) :
    (m.after op).cache.size ≤
      (m.after op).cache.maxPages + 1 + (n +
        ((m.failure op).any ChiselError.isCapacity).toNat) := by
  cases hop : op.tunes with
  | true => exact (h.tune_size hsize hop).trans (by omega)
  | false =>
    have hlaw : Manages m.superblockCount m.cryptoHeader.isSome KeepsBooks FailsBooks
      (perform op) :=
      manages_perform hop
    refine of_wp_perform (P := fun err m' => m'.cache.size ≤
      m'.cache.maxPages + 1 + (n + (err.any ChiselError.isCapacity).toNat)) ?_
    refine wp_mono (hlaw m) (fun _ m' hkeeps => ?_) fun e m' hfails => ?_
    · obtain ⟨-, hmax, hle⟩ := (hkeeps ⟨rfl, rfl⟩).2 h.wf.books
      omega
    · obtain ⟨-, hmax, ⟨-, hle⟩ | ⟨hcap, hle⟩⟩ := (hfails ⟨rfl, rfl⟩).2 h.wf.books
      · omega
      · rw [Option.any_some, hcap, Bool.toNat_true]
        omega

theorem Db.WithinCap.step (h : db.WithinCap n) (hdb : DbOk past db) (s : Step) :
    (db.step s).WithinCap (db.tally n s) := by
  cases db with
  | closed f =>
    cases s with
    | «open» options =>
      intro m hm
      simp only [Db.step] at hm
      split at hm
      · next hopen =>
        obtain rfl := Db.opened.inj hm
        exact (openDb_size hopen).trans (Nat.le_add_right _ _)
      · cases hm
    | op | drop =>
      intro m hm
      cases hm
  | opened m =>
    cases s with
    | «open» options => exact h
    | op op =>
      rintro _ ⟨⟩
      cases hdb with
      | opened hs => exact hs.size_after (h m rfl) op
    | drop =>
      intro m hm
      cases hm

theorem Db.WithinCap.run (h : db.WithinCap n) (hdb : DbOk past db) (steps : List Step) :
    (db.run steps).WithinCap (db.refusals n steps) := by
  induction steps generalizing db n past with
  | nil => exact h
  | cons s rest ih => exact ih (h.step hdb s) (hdb.step s)

/-- No call of the run is refused for want of room. -/
def Db.roomy (db : Db) (steps : List Step) : Bool := db.along (fun db s => !db.refuses s) steps

end Runs

end Chisel
