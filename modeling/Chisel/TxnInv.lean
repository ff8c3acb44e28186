import Chisel.CacheFlush
import Chisel.Hard
import Chisel.Version
import Chisel.Commit

/-! The invariant of an open transaction. Every page of the file has at most one owner: the current
version, the allocator, a list of pages that wait for the commit, or nobody, if a failed operation
lost it. The committed version is on pages that nothing writes. -/

namespace Chisel

open StateError PageCache TransactionManager RadixTree Ledger

/-! ### Parts -/

/-- The roots and the depths lead to the version. -/
structure Tied (roots : Roots) (htDepth outerDepth : Nat) (v : Version) : Prop where
  table : RootedAt roots.handleTablePage v.table
  index : RootedAt roots.membershipIndexPage v.index.outer
  depth : htDepth = v.depth
  outer : outerDepth = v.outerDepth
  fresh : ∀ handle ∈ v.live, handle < roots.nextHandle
  next_le : roots.nextHandle ≤ maxNextHandle

/-- What a transaction starts from: the manager after `begin`, the committed version and the
committed free map. -/
structure Origin where
  start : TransactionManager
  version : Version
  tree : PageTree Bool

namespace Origin

variable (o : Origin)

def pages (x : Nat) : Nat := o.version.own x + o.tree.count fmShape x

/-- The number of superblocks; the pages of the database start behind them. -/
def lo : Nat := o.start.superblockCount

def store : Store := o.start.cache.store

end Origin

/-- The pages that wait for the commit. -/
def TransactionManager.waiting (m : TransactionManager) (x : Nat) : Nat :=
  m.freemap.structuralSuperseded.count x + m.txnFreedPages.count x +
    (m.savepoints.map Savepoint.freedPages).flatten.count x

/-- The state of the proof next to the manager: the current version, the free map, the pages that
are lost, the version of each savepoint, and the first savepoint that was made when memory was
already full. -/
structure Ghost where
  cur : Version
  tree : PageTree Bool
  lost : Nat → Nat
  saves : List Version
  stuck : Nat

/-- A page of the committed state is as it was, nothing may write it, and it is still in use or
waits for the commit. -/
structure Frozen (o : Origin) (m : TransactionManager) (g : Ghost) (x : Nat) : Prop where
  view : m.cache.store.view x = o.store.view x
  cold : x ∉ m.cache.store.hot
  fixed : ¬ Writable true m.takeTree g.tree x
  old : x ∉ m.txnPages.allocated
  home : 0 < g.cur.own x + g.tree.count fmShape x + m.waiting x

/-- A transaction leaves the committed side of the manager alone. The file can only be cut or
extended with zeros, behind the committed pages. -/
structure Anchored (o : Origin) (m : TransactionManager) : Prop where
  active : m.activeTxn = true
  committed : m.committedRoots = o.start.committedRoots
  liveSlots : m.packer.committedLiveSlots = o.start.packer.committedLiveSlots
  hintAtBegin : m.freemap.hintAtBegin = o.start.freemap.hintAtBegin
  pendingFrees : m.freemap.pendingStructuralFrees = o.start.freemap.pendingStructuralFrees
  counter : m.txnCounter = o.start.txnCounter
  superblocks : m.superblockCount = o.lo
  ends : o.lo ≤ o.store.next
  header : m.cryptoHeader = o.start.cryptoHeader
  room : m.cache.store.room = o.store.room
  cipher : m.cache.store.cipher = o.store.cipher
  writes : m.cache.store.io.readOnly = false
  io : ∃ cuts : List Nat, m.cache.store.io = o.store.io.recordAll (cuts.map .setLen) ∧
    ∀ n ∈ cuts, o.store.next ≤ n ∧ n ≤ u64Max

/-- The pages that the savepoints up to number `i` keep for the commit. -/
def TransactionManager.freedUpTo (m : TransactionManager) (i x : Nat) : Nat :=
  ((m.savepoints.take (i + 1)).map Savepoint.freedPages).flatten.count x

/-- The pages that the state at savepoint `i` accounts for. -/
def TransactionManager.savedAt (m : TransactionManager) (t : PageTree Bool) (i : Nat) (v : Version)
    (x : Nat) : Nat :=
  v.own x + tally m.takeTree t x + m.freemap.structuralSuperseded.count x + m.freedUpTo i x

/-- A savepoint can be rolled back to. -/
structure SaveOk (o : Origin) (m : TransactionManager) (sp : Savepoint) (v : Version) : Prop where
  ok : v.Ok m.cache.store.view
  tied : Tied sp.roots v.depth v.outerDepth v
  root : sp.roots.freemapPage = m.currentRoots.freemapPage
  fmDepth : sp.roots.freemapDepth = m.currentRoots.freemapDepth
  mark : sp.freemap = m.freemap.savepointMark
  counts : Counts sp.liveSlots v.slots
  ge : o.store.next ≤ sp.watermark
  mark_le : sp.watermark ≤ u64Max

/-- The pages of a savepoint lie below its watermark, and so do the pages of those before it. -/
structure SaveBelow (ex : Prop) (o : Origin) (m : TransactionManager) (t : PageTree Bool) (i : Nat)
    (sp : Savepoint) (v : Version) : Prop where
  le : ∀ x, m.savedAt t i v x ≤ between o.lo sp.watermark x
  exact : ex → ∀ x, m.savedAt t i v x = between o.lo sp.watermark x
  home : ∀ x, 0 < o.pages x → 0 < v.own x + t.count fmShape x +
    m.freemap.structuralSuperseded.count x + m.freedUpTo i x
  next : sp.watermark ≤ m.cache.store.next
  sorted : ∀ (j : Nat) sp', i ≤ j → m.savepoints[j]? = some sp' → sp.watermark ≤ sp'.watermark

/-- The pages below `n` that were written fit. -/
def FitsBelow (s : Store) (n : Nat) : Prop := (s.hot.filter (· < n)).card ≤ s.room

/-- The savepoints. From the first one on that was made with memory full, nothing has changed. -/
structure SavesOk (ex : Prop) (o : Origin) (m : TransactionManager) (g : Ghost) : Prop where
  length : g.saves.length = m.savepoints.length
  stuck_le : g.stuck ≤ m.savepoints.length
  ok : ∀ (i : Nat) sp v, m.savepoints[i]? = some sp → g.saves[i]? = some v → SaveOk o m sp v
  below : ∀ (i : Nat) sp v, i ≤ g.stuck → m.savepoints[i]? = some sp → g.saves[i]? = some v →
    SaveBelow ex o m g.tree i sp v
  fits : ∀ (i : Nat) sp, i < g.stuck → m.savepoints[i]? = some sp →
    FitsBelow m.cache.store sp.watermark
  full : ∀ sp, m.savepoints[g.stuck]? = some sp → ¬ FitsBelow m.cache.store sp.watermark ∧
    m.txnFreedPages = [] ∧ (ex → m.cache.store.next ≤ sp.watermark)
  same : ∀ (i : Nat) v, g.stuck ≤ i → g.saves[i]? = some v → v = g.cur
  none_freed : ∀ (i : Nat) sp, g.stuck < i → m.savepoints[i]? = some sp → sp.freedPages = []
  pool : m.savepoints ≠ [] → m.txnPages.recyclable = []
  marks : ex → ∀ (i : Nat) sp, m.savepoints[i]? = some sp → sp.watermark ≤ m.cache.store.next

/-- An open transaction. `held` counts pages that the running operation has taken from the
allocator; with `ex` no page is lost. -/
structure Core (ex : Prop) (o : Origin) (m : TransactionManager) (g : Ghost) (held : Nat → Nat) :
    Prop where
  anchored : Anchored o m
  alloc : AllocInv o.lo m.takeTree g.tree
  cur : g.cur.Ok m.cache.store.view
  ledger : ∀ x, g.cur.own x + held x + tally m.takeTree g.tree x + m.waiting x + g.lost x =
    between o.lo m.cache.store.next x
  exact : ex → ∀ x, g.lost x = 0
  plain : ∀ x, 0 < held x → ∀ p, m.cache.store.view x = some p → p.isFreeMap = false
  counts : Counts m.packer.currentLiveSlots g.cur.slots
  cursor : ∀ x, m.packer.insertCursor = some x → m.savepoints = [] ∧ x ∈ m.txnPages.allocated ∧
    x ∈ m.cache.store.hot ∧ 0 < g.cur.slots x
  dead : ∀ x, 0 < m.waiting x → x ∉ m.freemap.structuralSuperseded →
    ∀ p, m.cache.store.view x = some p → p.isFreeMap = false
  frozen : ∀ x, 0 < o.pages x → Frozen o m g x
  kept : ∀ x, 0 < o.tree.count fmShape x →
    0 < g.tree.count fmShape x ∨ x ∈ m.freemap.structuralSuperseded
  next_ge : o.store.next ≤ m.cache.store.next
  tail : ∀ x, m.cache.store.io.pageCount ≤ x → x < m.cache.store.next → x ∈ m.cache.store.hot
  hot_ge : ∀ x ∈ m.cache.store.hot, o.lo ≤ x
  bounded : m.cache.store.io.pageCount ≤ u64Max
  short : ex → m.cache.store.io.pageCount ≤ m.cache.store.next
  saves : SavesOk ex o m g

/-! ### The allocator inside a transaction -/

/-- The state with nothing superseded, as the next borrowing starts. -/
def AllocCtx.settle (s : AllocCtx) : AllocCtx := { s with tree.pendingSuperseded := [] }

section Settle

variable {lo x : Nat} {r : Bool} {s : AllocCtx} {t : PageTree Bool} {m : TransactionManager}

theorem takeTree_putTree (s : AllocCtx) (m : TransactionManager) :
    (putTree s m).takeTree = s.settle := rfl

theorem tally_settle : tally s.settle t x + s.tree.pendingSuperseded.count x = tally s t x := by
  have hbits : fmBits s.settle t = fmBits s t := rfl
  unfold tally
  rw [hbits]
  simp [AllocCtx.settle]

theorem writable_settle : Writable r s.settle t x ↔ Writable r s t x := Iff.rfl

theorem cowOwns_settle (h : CowOwns lo s.settle t x) : CowOwns lo s t x := by
  have htally := tally_settle (s := s) (t := t) (x := x)
  change s.store.next ≤ x ∨ x < lo ∨ 0 < tally s.settle t x at h
  unfold CowOwns
  omega

theorem AllocInv.settle (h : AllocInv lo s t) : AllocInv lo s.settle t := by
  have hok := h.rooted.ok
  refine ⟨⟨⟨⟨hok.sound.wf, hok.sound.next_le⟩, hok.lo_pos, hok.lo_le, hok.rep, fun y => ?_⟩,
    h.rooted.depth_le, h.rooted.root_nil, h.rooted.root_eq⟩,
      fun y => ?_, h.session, h.dead, h.hinted⟩
  · have := hok.once y
    change t.count fmShape y + s.structuralReuse.count y + 0 ≤ between lo s.store.next y
    omega
  · have h1 := h.once y
    have h2 := tally_settle (s := s) (t := t) (x := y)
    change _ ≤ between lo s.store.next y
    omega

theorem waiting_putTree (s : AllocCtx) (m : TransactionManager) (x : Nat) :
    (putTree s m).waiting x = m.waiting x + s.tree.pendingSuperseded.count x := by
  simp only [waiting, putTree, List.count_append]
  omega

/-- Inside a savepoint the sources below the end of the file are out of reach, so nothing joins
them. -/
theorem Evolve.writable_true {lent given : Nat → Nat} {s' : AllocCtx} {t' : PageTree Bool}
    (h : Evolve r lent given s t s' t') (hx : Writable true s' t' x) :
    Writable true s t x ∨ 0 < given x := by
  cases r with
  | true => exact h.writable x hx
  | false =>
    refine .inl ?_
    have q := h.quiet rfl
    have hbits : fmBits s' t' = fmBits s t := by
      rw [q.ghost]
      exact fmBits_congr (by rw [q.tree]) fun _ => rfl
    unfold Writable at *
    rw [q.reuse, q.recyclable, q.tree, hbits] at hx
    have := h.next_le
    rcases hx with hx | hx
    · exact .inl (by omega)
    · exact .inr hx

theorem Writable.weaken (h : Writable r s t x) : Writable true s t x := by
  rcases h with h | ⟨-, h⟩
  · exact .inl h
  · exact .inr ⟨rfl, h⟩

end Settle

namespace Core

variable {ex : Prop} {o : Origin} {m : TransactionManager} {g : Ghost} {held : Nat → Nat} {x : Nat}

theorem lt_next (h : Core ex o m g held)
    (hx : 0 < g.cur.own x + held x + m.waiting x + g.lost x) :
    o.lo ≤ x ∧ x < m.cache.store.next := by
  have hl := h.ledger x
  have hpos : 0 < between o.lo m.cache.store.next x := by omega
  exact between_pos.mp hpos

theorem tally_eq_zero (h : Core ex o m g held)
    (hx : 0 < g.cur.own x + held x + m.waiting x + g.lost x) : tally m.takeTree g.tree x = 0 := by
  have hl := h.ledger x
  have := between_le o.lo m.cache.store.next x
  omega

theorem not_writable (h : Core ex o m g held) {r : Bool}
    (hx : 0 < g.cur.own x + held x + m.waiting x + g.lost x) :
    ¬ Writable r m.takeTree g.tree x :=
  h.alloc.not_writable (h.tally_eq_zero hx) (h.lt_next hx).2

theorem stuck_of_nil (h : Core ex o m g held) (hnil : m.savepoints = []) : g.stuck = 0 := by
  have hle := h.saves.stuck_le
  rw [hnil] at hle
  exact Nat.le_zero.mp hle

theorem saves_of_nil (h : Core ex o m g held) (hnil : m.savepoints = []) : g.saves = [] := by
  apply List.length_eq_zero_iff.mp
  rw [h.saves.length, hnil]
  rfl

theorem save_lt (h : Core ex o m g held) {i : Nat} {sp : Savepoint} {v : Version}
    (hi : m.savepoints[i]? = some sp) (hv : g.saves[i]? = some v) (hx : 0 < v.own x) :
    x < m.cache.store.next := by
  by_cases hk : i ≤ g.stuck
  · have hb := h.saves.below i sp v hk hi hv
    have hle := hb.le x
    have hn := hb.next
    unfold savedAt at hle
    have hpos : 0 < between o.lo sp.watermark x := by omega
    have := (between_pos.mp hpos).2
    omega
  · have hsame := h.saves.same i v (by omega) hv
    subst hsame
    exact (h.lt_next (by omega)).2

end Core

theorem SavesOk.nil {ex : Prop} {o : Origin} {m : TransactionManager} {g : Ghost}
    (hm : m.savepoints = []) (hg : g.saves = []) (hk : g.stuck = 0) : SavesOk ex o m g := by
  have hnone : ∀ (i : Nat) sp, m.savepoints[i]? ≠ some sp := by
    intro i sp
    rw [hm]
    simp
  refine ⟨by simp [hg, hm], by omega, ?_, ?_, ?_, ?_, ?_, ?_, fun hne => absurd hm hne,
    fun _ i sp hi => absurd hi (hnone i sp)⟩
  · exact fun i sp v hi => absurd hi (hnone i sp)
  · exact fun i sp v _ hi => absurd hi (hnone i sp)
  · exact fun i sp _ hi => absurd hi (hnone i sp)
  · exact fun sp hi => absurd hi (hnone _ sp)
  · intro i v _ hv
    rw [hg] at hv
    cases hv
  · exact fun i sp _ hi => absurd hi (hnone i sp)

section Kept

variable {ex ex' : Prop} {o : Origin} {m m' : TransactionManager} {g g' : Ghost} {k i : Nat}
  {sp : Savepoint}

theorem SavesOk.exists_version (h : SavesOk ex o m g) (hsp : m.savepoints[i]? = some sp) :
    ∃ v, g.saves[i]? = some v := by
  have hlt := (List.getElem?_eq_some_iff.mp hsp).1
  rw [← h.length] at hlt
  exact ⟨_, List.getElem?_eq_getElem hlt⟩

/-- The savepoints above one that was made with memory full keep nothing for the commit. -/
theorem SavesOk.freed_above (h : SavesOk ex o m g) (hk : g.stuck < k) :
    ((m.savepoints.drop k).map Savepoint.freedPages).flatten = [] := by
  rw [List.flatten_eq_nil_iff]
  intro l hl
  obtain ⟨sp, hmem, rfl⟩ := List.mem_map.mp hl
  obtain ⟨j, hj⟩ := List.mem_iff_getElem?.mp hmem
  rw [List.getElem?_drop] at hj
  exact h.none_freed (k + j) sp (by omega) hj

/-- The lowest `k` savepoints are left, and what they depend on did not change. Where memory was
full at one of them, the current version is the same. -/
structure SavesKept (ex : Prop) (k : Nat) (m : TransactionManager) (g : Ghost)
    (m' : TransactionManager) (g' : Ghost) : Prop where
  savepoints : m'.savepoints = m.savepoints.take k
  saves : g'.saves = g.saves.take k
  tree : g'.tree = g.tree
  root : m'.currentRoots.freemapPage = m.currentRoots.freemapPage
  fmDepth : m'.currentRoots.freemapDepth = m.currentRoots.freemapDepth
  session : m'.freemap.sessionOwned = m.freemap.sessionOwned
  superseded : m'.freemap.structuralSuperseded = m.freemap.structuralSuperseded
  recyclable : m'.txnPages.recyclable = m.txnPages.recyclable
  tally : ∀ x, tally m'.takeTree g.tree x = tally m.takeTree g.tree x
  stuck_le : g'.stuck ≤ min g.stuck k
  view : ∀ (i : Nat) sp v, m.savepoints[i]? = some sp → g.saves[i]? = some v → i < k →
    ∀ x, 0 < v.own x → m'.cache.store.view x = m.cache.store.view x
  next : ∀ (i : Nat) sp, m.savepoints[i]? = some sp → i < k → i ≤ g'.stuck ∨ ex →
    sp.watermark ≤ m'.cache.store.next
  fits : ∀ (i : Nat) sp, m.savepoints[i]? = some sp → i < g'.stuck →
    FitsBelow m.cache.store sp.watermark → FitsBelow m'.cache.store sp.watermark
  full : ∀ sp, m.savepoints[g'.stuck]? = some sp → g'.stuck < k → g'.stuck = g.stuck ∧
    g'.cur = g.cur ∧ m'.txnFreedPages = [] ∧ (ex → m'.cache.store.next ≤ sp.watermark) ∧
    (FitsBelow m'.cache.store sp.watermark → FitsBelow m.cache.store sp.watermark)

theorem SavesOk.kept (h : SavesOk ex o m g) (hk : SavesKept ex' k m g m' g') (hex : ex' → ex) :
    SavesOk ex' o m' g' := by
  have hold : ∀ {i : Nat} {sp : Savepoint}, m'.savepoints[i]? = some sp →
      i < k ∧ m.savepoints[i]? = some sp := by
    intro i sp hi
    rw [hk.savepoints, List.getElem?_take] at hi
    split at hi
    · exact ⟨‹_›, hi⟩
    · cases hi
  have holdv : ∀ {i : Nat} {v : Version}, g'.saves[i]? = some v → g.saves[i]? = some v := by
    intro i v hi
    rw [hk.saves, List.getElem?_take] at hi
    split at hi
    · exact hi
    · cases hi
  have hlen : g'.saves.length = m'.savepoints.length := by
    rw [hk.saves, hk.savepoints, List.length_take, List.length_take, h.length]
  have hstuck := hk.stuck_le
  -- above the first full savepoint there is something only if it is still there
  have habove : g'.stuck < m'.savepoints.length → g'.stuck = g.stuck ∧ g'.cur = g.cur := by
    intro hlt
    obtain ⟨hlt', hsp⟩ := hold (List.getElem?_eq_getElem hlt)
    obtain ⟨h1, h2, -⟩ := hk.full _ hsp hlt'
    exact ⟨h1, h2⟩
  refine ⟨hlen, ?_, fun i sp v hi hv => ?_, fun i sp v hle hi hv => ?_, fun i sp hlt hi => ?_,
    fun sp hi => ?_, fun i v hle hv => ?_, fun i sp hlt hi => ?_, fun hne => ?_,
      fun he i sp hi => ?_⟩
  · rw [hk.savepoints, List.length_take]
    have := h.stuck_le
    omega
  · have hok := h.ok i sp v (hold hi).2 (holdv hv)
    refine ⟨hok.ok.frame (hk.view i sp v (hold hi).2 (holdv hv) (hold hi).1), hok.tied,
      hok.root.trans hk.root.symm, hok.fmDepth.trans hk.fmDepth.symm, ?_, hok.counts, hok.ge,
        hok.mark_le⟩
    rw [hok.mark]
    unfold FreemapRecycle.savepointMark
    rw [hk.superseded, hk.session]
  · have hb := h.below i sp v (by omega) (hold hi).2 (holdv hv)
    have hfreed : ∀ x, m'.freedUpTo i x = m.freedUpTo i x := by
      intro x
      unfold freedUpTo
      rw [hk.savepoints, List.take_take, Nat.min_eq_left (hold hi).1]
    have hsaved : ∀ x, m'.savedAt g'.tree i v x = m.savedAt g.tree i v x := by
      intro x
      unfold savedAt
      rw [hk.tree, hk.tally, hk.superseded, hfreed]
    refine ⟨fun x => ?_, fun he x => ?_, fun x hx => ?_,
      hk.next i sp (hold hi).2 (hold hi).1 (.inl hle), fun j sp' hj hi' => hb.sorted j sp' hj
        (hold hi').2⟩
    · rw [hsaved]
      exact hb.le x
    · rw [hsaved]
      exact hb.exact (hex he) x
    · rw [hk.tree, hk.superseded, hfreed]
      exact hb.home x hx
  · exact hk.fits i sp (hold hi).2 hlt (h.fits i sp (by omega) (hold hi).2)
  · obtain ⟨hlt, hsp⟩ := hold hi
    obtain ⟨h1, -, h3, h4, h5⟩ := hk.full sp hsp hlt
    rw [h1] at hsp
    exact ⟨fun hf => (h.full sp hsp).1 (h5 hf), h3, h4⟩
  · have hlt := (List.getElem?_eq_some_iff.mp hv).1
    obtain ⟨h1, h2⟩ := habove (by omega)
    rw [h2]
    exact h.same i v (by omega) (holdv hv)
  · have hlt' := (List.getElem?_eq_some_iff.mp hi).1
    exact h.none_freed i sp (by have := (habove (by omega)).1; omega) (hold hi).2
  · rw [hk.recyclable]
    refine h.pool fun hn => hne ?_
    rw [hk.savepoints, hn, List.take_nil]
  · exact hk.next i sp (hold hi).2 (hold hi).1 (.inr he)

end Kept

/-- What the savepoints depend on did not change. -/
structure SavesSame (m m' : TransactionManager) (t t' : PageTree Bool) : Prop where
  savepoints : m'.savepoints = m.savepoints
  root : m'.currentRoots.freemapPage = m.currentRoots.freemapPage
  fmDepth : m'.currentRoots.freemapDepth = m.currentRoots.freemapDepth
  session : m'.freemap.sessionOwned = m.freemap.sessionOwned
  superseded : m'.freemap.structuralSuperseded = m.freemap.structuralSuperseded
  reuse : m'.freemap.structuralReuse = m.freemap.structuralReuse
  hint : m'.freemap.hint = m.freemap.hint
  recyclable : m'.txnPages.recyclable = m.txnPages.recyclable
  tree : t' = t
  tally : ∀ x, tally m'.takeTree t x = tally m.takeTree t x
  view : ∀ x < m.cache.store.next, m'.cache.store.view x = m.cache.store.view x
  hot : ∀ n ≤ m.cache.store.next,
    m'.cache.store.hot.filter (· < n) = m.cache.store.hot.filter (· < n)
  hot_ge : m.cache.store.hot ⊆ m'.cache.store.hot
  room : m'.cache.store.room = m.cache.store.room
  next_le : m.cache.store.next ≤ m'.cache.store.next

/-- The savepoints hold if nothing happened that they depend on. Where memory was full, the
current version must not have changed either. -/
theorem Core.saves_same {ex ex' : Prop} {o : Origin} {m m' : TransactionManager} {g g' : Ghost}
    {held : Nat → Nat} (h : Core ex o m g held) (hsp : m'.savepoints = m.savepoints)
    (hs : m.savepoints ≠ [] → SavesSame m m' g.tree g'.tree)
    (hex : ex' → ex) (hsaves : g'.saves = g.saves) (hstuck : g'.stuck = g.stuck)
    (hk : g.stuck = m.savepoints.length ∨ g'.cur = g.cur ∧ m'.txnFreedPages = m.txnFreedPages ∧
      (ex' → m'.cache.store.next = m.cache.store.next)) :
    SavesOk ex' o m' g' := by
  by_cases hnil : m.savepoints = []
  · exact .nil (hsp.trans hnil) (hsaves.trans (h.saves_of_nil hnil))
      (hstuck.trans (h.stuck_of_nil hnil))
  have hs := hs hnil
  have hnext : ∀ (i : Nat) sp, m.savepoints[i]? = some sp → i ≤ g.stuck ∨ ex' →
      sp.watermark ≤ m.cache.store.next := by
    rintro i sp hi (hle | he)
    · obtain ⟨v, hv⟩ := h.saves.exists_version hi
      exact (h.saves.below i sp v hle hi hv).next
    · exact h.saves.marks (hex he) i sp hi
  refine h.saves.kept (k := m.savepoints.length) ⟨hsp.trans List.take_length.symm,
    ?_, hs.tree, hs.root, hs.fmDepth, hs.session, hs.superseded, hs.recyclable, hs.tally, ?_,
    fun i sp v hi hv _ x hx => hs.view x (h.save_lt hi hv hx),
    fun i sp hi _ hle => (hnext i sp hi (hstuck ▸ hle)).trans hs.next_le, fun i sp hi hlt hf => ?_,
    fun sp hsp hlt => ?_⟩ hex
  · rw [hsaves, ← h.saves.length, List.take_length]
  · rw [hstuck]
    exact Nat.le_min.mpr ⟨le_rfl, h.saves.stuck_le⟩
  · unfold FitsBelow
    rw [hs.hot _ (hnext i sp hi (.inl (by omega))), hs.room]
    exact hf
  · obtain ⟨hcur, hfr, hn⟩ := hk.resolve_left (by omega)
    rw [hstuck] at hsp
    obtain ⟨-, h2, h3⟩ := h.saves.full sp hsp
    refine ⟨hstuck, hcur, hfr.trans h2, fun he => (hn he).trans_le (h3 (hex he)), fun hf => ?_⟩
    unfold FitsBelow at *
    rw [hs.room] at hf
    exact (Finset.card_le_card (Finset.filter_subset_filter _ hs.hot_ge)).trans hf

theorem TransactionManager.reuse_eq_false {m : TransactionManager} (h : m.savepoints ≠ []) :
    m.reuse = false := by
  unfold reuse
  cases hsp : m.savepoints with
  | nil => exact absurd hsp h
  | cons _ _ => rfl

/-- Inside a savepoint the allocator writes only behind the end of the file. -/
theorem savesSame_putTree {m : TransactionManager} {lent : Nat → Nat} {s' : AllocCtx}
    {t t' : PageTree Bool} (hstep : Evolve m.reuse lent (fun _ => 0) m.takeTree t s' t')
    (hne : m.savepoints ≠ []) :
    SavesSame m (m.putTree s') t t' := by
  rw [reuse_eq_false hne] at hstep
  have q := hstep.quiet rfl
  have hpend : s'.tree.pendingSuperseded = [] := by rw [q.tree]; rfl
  refine ⟨rfl, ?_, ?_, ?_, ?_, q.reuse, q.hint, q.recyclable, q.ghost, fun x => ?_, fun x hx => ?_,
    fun n hn => ?_, hstep.hot_ge, hstep.room, hstep.next_le⟩
  · exact congrArg FreeMapTree.root q.tree
  · exact congrArg FreeMapTree.depth q.tree
  · exact congrArg FreeMapTree.sessionOwned q.tree
  · change m.freemap.structuralSuperseded ++ s'.tree.pendingSuperseded = _
    rw [hpend, List.append_nil]
  · have hbits : fmBits s' t = fmBits m.takeTree t := fmBits_congr (by rw [q.tree]) fun _ => rfl
    have h1 : tally s' t x = tally m.takeTree t x := by
      unfold tally
      rw [q.tree, q.reuse, q.recyclable, hbits]
    have h2 := tally_settle (s := s') (t := t) (x := x)
    rw [hpend] at h2
    rw [takeTree_putTree]
    simpa using h2.trans h1
  · refine hstep.frame x ?_ rfl
    rintro (hge | ⟨hf, -⟩)
    · exact absurd hx (Nat.not_lt.mpr hge)
    · cases hf
  · ext x
    simp only [Finset.mem_filter]
    constructor
    · intro hx
      refine ⟨?_, hx.2⟩
      rcases hstep.hot_le x hx.1 with h1 | (h1 | ⟨h1, -⟩) | h1
      · exact h1
      · have h2 : m.cache.store.next ≤ x := h1
        omega
      · cases h1
      · exact absurd h1 (Nat.lt_irrefl 0)
    · exact fun hx => ⟨hstep.hot_ge hx.1, hx.2⟩

section Evolving

variable {ex ex' : Prop} {o : Origin} {m : TransactionManager} {g : Ghost}
  {held held' lost' lent given : Nat → Nat} {x : Nat} {s' : AllocCtx} {t' : PageTree Bool}

theorem Anchored.putTree (a : Anchored o m) (hroom : s'.store.room = m.cache.store.room)
    (hcipher : s'.store.cipher = m.cache.store.cipher) (hio : s'.store.io = m.cache.store.io) :
    Anchored o (m.putTree s') :=
  { a with
    room := hroom.trans a.room
    cipher := hcipher.trans a.cipher
    writes := (congrArg PageIo.readOnly hio).trans a.writes
    io := by
      obtain ⟨cuts, h1, h2⟩ := a.io
      exact ⟨cuts, hio.trans h1, h2⟩ }

/-- A committed page stays frozen whatever the allocator does. -/
theorem Frozen.evolve (hf : Frozen o m g x) (hx : given x = 0)
    (hstep : Evolve m.reuse lent given m.takeTree g.tree s' t') :
    Frozen o (m.putTree s') { g with tree := t', lost := lost' } x := by
  have h0 : ¬ 0 < given x := by omega
  refine ⟨(hstep.frame x (fun hw => hf.fixed hw.weaken) hx).trans hf.view, fun hhot => ?_, ?_,
    fun hal => ?_, ?_⟩
  · rcases hstep.hot_le x hhot with h1 | h1 | h1
    · exact hf.cold h1
    · exact hf.fixed h1.weaken
    · exact h0 h1
  · rw [takeTree_putTree, writable_settle]
    exact fun hw => hf.fixed ((hstep.writable_true hw).resolve_right h0)
  · rcases hstep.allocated_le x hal with h1 | h1 | h1
    · exact hf.old h1
    · exact hf.fixed h1.weaken
    · exact h0 h1
  · have hh := hf.home
    rw [waiting_putTree]
    change 0 < g.cur.own x + t'.count fmShape x + _
    rcases Nat.eq_zero_or_pos (g.tree.count fmShape x) with h0 | h0
    · omega
    · rcases hstep.kept x h0 with h1 | h1
      · omega
      · have := count_pos.mpr h1
        omega

namespace Core

/-- The allocator gave up pages, which the running operation holds now or which are lost, and it
found lost pages again. -/
theorem evolve (h : Core ex o m g held) (hinv : AllocInv o.lo s' t')
    (hstep : Evolve m.reuse lent given m.takeTree g.tree s' t')
    (hgiven : ∀ x, 0 < given x → 0 < g.lost x ∧ m.savepoints = [])
    (hsum : ∀ x, held' x + lost' x + given x = held x + g.lost x + lent x)
    (hplain : ∀ x, 0 < held' x → 0 < held x ∨
      ∀ p, s'.store.view x = some p → p.isFreeMap = false)
    (hex : ex' → ex ∧ ∀ x, lost' x = 0)
    (hnext : ex' → g.stuck = m.savepoints.length ∨ s'.store.next = m.cache.store.next) :
    Core ex' o (m.putTree s') { g with tree := t', lost := lost' } held' := by
  have hsole : ∀ x, 0 < g.cur.own x + held x + m.waiting x + g.tree.count fmShape x →
      given x = 0 := by
    intro x hx
    by_contra hne
    have h1 := (hgiven x (Nat.pos_of_ne_zero hne)).1
    have h2 := h.ledger x
    have h3 := between_le o.lo m.cache.store.next x
    unfold tally at h2
    omega
  have hview : ∀ x, 0 < g.cur.own x + held x + m.waiting x →
      (m.putTree s').cache.store.view x = m.cache.store.view x := fun x hx =>
    hstep.frame x (h.not_writable (by omega)) (hsole x (by omega))
  have hwait := waiting_putTree s' m
  have hio : (m.putTree s').cache.store.io = m.cache.store.io := hstep.io
  refine { h with
    anchored := h.anchored.putTree hstep.room hstep.cipher hstep.io
    alloc := hinv.settle
    cur := h.cur.frame fun x hx => hview x (by omega)
    ledger := fun x => ?_
    exact := fun he => (hex he).2
    plain := fun x hx p hp => ?_
    cursor := fun x hx => ?_
    dead := fun x hx hns p hp => ?_
    frozen := fun x hx => ?_
    kept := fun x hx => ?_
    next_ge := h.next_ge.trans hstep.next_le
    tail := fun x h1 h2 => ?_
    hot_ge := fun x hx => ?_
    bounded := hio ▸ h.bounded
    short := fun he => hio ▸ (h.short (hex he).1).trans hstep.next_le
    saves := h.saves_same rfl (fun hne => ?_) (fun he => (hex he).1) rfl rfl ?_ }
  · have h1 := h.ledger x
    have h2 := hstep.tally x
    have h3 := tally_settle (s := s') (t := t') (x := x)
    have h4 := hwait x
    have h5 := hsum x
    have h6 : between o.lo m.cache.store.next x + between m.cache.store.next s'.store.next x =
        between o.lo s'.store.next x := between_add h.alloc.rooted.ok.lo_le hstep.next_le x
    rw [takeTree_putTree]
    change g.cur.own x + held' x + tally s'.settle t' x + (m.putTree s').waiting x + lost' x =
      between o.lo s'.store.next x
    change tally s' t' x + lent x = tally m.takeTree g.tree x +
      between m.cache.store.next s'.store.next x + given x at h2
    omega
  · rcases hplain x hx with h1 | h1
    · rw [hview x (by omega)] at hp
      exact h.plain x h1 p hp
    · exact h1 p hp
  · obtain ⟨h1, h2, h3, h4⟩ := h.cursor x hx
    exact ⟨h1, hstep.allocated_ge h2, hstep.hot_ge h3, h4⟩
  · have hsup : x ∉ m.freemap.structuralSuperseded := fun hm => hns (List.mem_append_left _ hm)
    have hpend : s'.tree.pendingSuperseded.count x = 0 :=
      List.count_eq_zero.mpr fun hm => hns (List.mem_append_right _ hm)
    rw [hwait, hpend] at hx
    rw [hview x (by omega)] at hp
    exact h.dead x hx hsup p hp
  · have hf := h.frozen x hx
    exact hf.evolve (hsole x (by have := hf.home; omega)) hstep
  · rcases h.kept x hx with h1 | h1
    · exact (hstep.kept x h1).imp_right (List.mem_append_right _)
    · exact .inr (List.mem_append_left _ h1)
  · rw [hio] at h1
    rcases Nat.lt_or_ge x m.cache.store.next with hlt | hge
    · exact hstep.hot_ge (h.tail x h1 hlt)
    · exact hstep.tail x hge h2
  · rcases hstep.hot_le x hx with h1 | h1 | h1
    · exact h.hot_ge x h1
    · rcases Nat.lt_or_ge x m.cache.store.next with hlt | hge
      · exact (h.alloc.bounds (h.alloc.tally_pos h1 hlt)).1
      · exact h.alloc.rooted.ok.lo_le.trans hge
    · exact (h.lt_next (by have := (hgiven x h1).1; omega)).1
  · have h0 : given = fun _ => 0 := by
      funext x
      by_contra h1
      exact hne (hgiven x (Nat.pos_of_ne_zero h1)).2
    subst h0
    exact savesSame_putTree hstep hne
  · by_cases hk : g.stuck = m.savepoints.length
    · exact .inl hk
    · exact .inr ⟨rfl, rfl, fun he => (hnext he).resolve_left hk⟩

/-- The allocator gave up pages. The running operation holds them now, or they are lost. -/
theorem moves (h : Core ex o m g held) (hm : Moves m.reuse o.lo lent m.takeTree g.tree s' t')
    (hsum : ∀ x, held' x + lost' x = held x + g.lost x + lent x)
    (hplain : ∀ x, 0 < held' x → 0 < held x ∨
      ∀ p, s'.store.view x = some p → p.isFreeMap = false)
    (hex : ex' → ex ∧ ∀ x, lost' x = 0)
    (hnext : ex' → g.stuck = m.savepoints.length ∨ s'.store.next = m.cache.store.next) :
    Core ex' o (m.putTree s') { g with tree := t', lost := lost' } held' :=
  h.evolve hm.inv hm.step (fun _ hx => absurd hx (Nat.lt_irrefl 0)) hsum hplain hex hnext

theorem lend (h : Core ex o m g held) (hk : g.stuck = m.savepoints.length)
    (hl : Lends m.reuse o.lo lent m.takeTree g.tree s' t') :
    Core ex o (m.putTree s') { g with tree := t' } fun x => held x + lent x := by
  refine h.moves hl.toMoves (fun x => by omega) (fun x hx => ?_) (fun he => ⟨he, h.exact he⟩)
    fun _ => .inl hk
  rcases Nat.eq_zero_or_pos (held x) with h0 | h0
  · exact .inr (hl.plain x (by omega))
  · exact .inl h0

theorem peek (h : Core ex o m g held) (hp : Peeked m.takeTree s') :
    Core ex o (m.putTree s') g held := by
  have hm : Moves m.reuse o.lo (fun _ => 0) m.takeTree g.tree s' g.tree :=
    .of_store h.alloc hp.wf hp.store hp.tree hp.hint hp.reuse hp.pool
  exact h.moves hm (fun x => by omega) (fun x hx => .inl hx) (fun he => ⟨he, h.exact he⟩)
    fun _ => .inr (congrArg Store.next hp.store)

end Core

end Evolving

/-! ### Writing in place -/

namespace Core

variable {ex : Prop} {o : Origin} {m : TransactionManager} {g : Ghost} {held : Nat → Nat}
  {s' : AllocCtx}

/-- Where the written pages fit, no savepoint was made with memory full. -/
theorem unstick (h : Core ex o m g held) (hf : m.cache.store.Fits) :
    g.stuck = m.savepoints.length := by
  by_contra hne
  have hlt : g.stuck < m.savepoints.length := Nat.lt_of_le_of_ne h.saves.stuck_le hne
  obtain ⟨hfull, -⟩ := h.saves.full _ (List.getElem?_eq_getElem hlt)
  apply hfull
  exact (Finset.card_le_card (Finset.filter_subset _ _)).trans hf

theorem write (h : Core ex o m g held) {id : Nat} {p : Page} (hw : Wrote id p m.takeTree s')
    (hnil : m.savepoints = []) (hhot : id ∈ m.cache.store.hot) (hown : 0 < g.cur.own id)
    (hok : g.cur.Ok s'.store.view) : Core ex o (m.putTree s') g held := by
  have hst : (m.putTree s').cache.store = m.cache.store.put id (some p) := hw.store
  have hhot' : (m.putTree s').cache.store.hot = m.cache.store.hot := by
    rw [hst]
    exact Finset.insert_eq_self.mpr hhot
  have hwait : ∀ x, (m.putTree s').waiting x = m.waiting x := by
    intro x
    have hp : s'.tree.pendingSuperseded = [] := by rw [hw.tree]; rfl
    rw [waiting_putTree, hp]
    rfl
  have htree : (m.putTree s').takeTree.tree = m.takeTree.tree := by
    rw [takeTree_putTree, AllocCtx.settle, hw.tree]
    rfl
  have hbits : fmBits (m.putTree s').takeTree g.tree = fmBits m.takeTree g.tree :=
    fmBits_congr (by rw [htree]) fun _ => rfl
  have hreuse : (m.putTree s').takeTree.structuralReuse = m.takeTree.structuralReuse := hw.reuse
  have hpool : (m.putTree s').takeTree.pool = m.takeTree.pool := hw.pool
  have htally : ∀ x, tally (m.putTree s').takeTree g.tree x = tally m.takeTree g.tree x := by
    intro x
    unfold tally
    rw [hbits, hreuse, hpool, htree]
  have hother : ∀ x, x ≠ id → (m.putTree s').cache.store.view x = m.cache.store.view x := by
    intro x hx
    rw [hst]
    exact Store.put_view_ne _ _ hx
  have hsole : ∀ x, 0 < held x + m.waiting x → x ≠ id := by
    intro x hx he
    subst he
    have h1 := h.ledger x
    have h2 := between_le o.lo m.cache.store.next x
    omega
  have hsup : (m.putTree s').freemap.structuralSuperseded = m.freemap.structuralSuperseded := by
    change m.freemap.structuralSuperseded ++ s'.tree.pendingSuperseded = _
    rw [hw.tree]
    exact List.append_nil _
  have h0 := h.tally_eq_zero (x := id) (by omega)
  refine { h with
    anchored := h.anchored.putTree (congrArg Store.room hst :) (congrArg Store.cipher hst :)
      (congrArg Store.io hst :)
    alloc := ?_
    cur := hok
    ledger := fun x => ?_
    plain := fun x hx q hq => ?_
    cursor := fun x hx => ?_
    dead := fun x hx hns q hq => ?_
    frozen := fun x hx => ?_
    kept := fun x hx => hsup ▸ h.kept x hx
    next_ge := hst ▸ h.next_ge
    tail := by
      rw [hhot', hst]
      exact h.tail
    hot_ge := hhot' ▸ h.hot_ge
    bounded := hst ▸ h.bounded
    short := hst ▸ h.short
    saves := .nil hnil (h.saves_of_nil hnil) (h.stuck_of_nil hnil) }
  · unfold tally at h0
    have hnode : g.tree.count fmShape id = 0 := by omega
    refine h.alloc.put hnode (fun hm => ?_) hw.wf hw.store htree hw.hint hreuse (by rw [hpool])
    have := count_pos.mpr hm
    omega
  · rw [htally, hwait, hst]
    exact h.ledger x
  · rw [hother x (hsole x (by omega))] at hq
    exact h.plain x hx q hq
  · obtain ⟨h1, h2, h3, h4⟩ := h.cursor x hx
    refine ⟨h1, ?_, hhot' ▸ h3, h4⟩
    change x ∈ s'.pool.allocated
    rwa [hw.pool]
  · rw [hwait] at hx
    rw [hsup] at hns
    rw [hother x (hsole x (by omega))] at hq
    exact h.dead x hx hns q hq
  · have hf := h.frozen x hx
    have hne : x ≠ id := by
      rintro rfl
      exact hf.cold hhot
    refine ⟨(hother x hne).trans hf.view, hhot' ▸ hf.cold, ?_, ?_, hwait x ▸ hf.home⟩
    · rw [takeTree_putTree, writable_settle, hw.writable]
      exact hf.fixed
    · change x ∉ s'.pool.allocated
      rw [hw.pool]
      exact hf.old

end Core

/-! ### Bookkeeping -/

theorem AllocInv.repool {lo : Nat} {s s' : AllocCtx} {t : PageTree Bool} (h : AllocInv lo s t)
    (hc : s'.cache = s.cache) (htree : s'.tree = s.tree) (hh : s'.hint = s.hint)
    (hr : s'.structuralReuse = s.structuralReuse)
    (honce : ∀ x, tally s' t x ≤ between lo s.store.next x)
    (hdead : ∀ x ∈ s'.pool.recyclable, ∀ p, s.store.view x = some p → p.isFreeMap = false) :
    AllocInv lo s' t := by
  obtain ⟨cache, tree, hint, reuse, pool⟩ := s
  obtain ⟨cache', tree', hint', reuse', pool'⟩ := s'
  subst hc htree hh hr
  obtain ⟨⟨⟨⟨hwf, hnext⟩, hlo, hle, hrep, hone⟩, hd, hnil, heq⟩, -, hsess, -, hhint⟩ := h
  exact ⟨⟨⟨⟨hwf, hnext⟩, hlo, hle, hrep, hone⟩, hd, hnil, heq⟩, honce, hsess, hdead, hhint⟩

/-- The manager with its roots, its depths, its packer and its lists of dead pages changed. -/
structure Aside (m m' : TransactionManager) : Prop where
  cache : m'.cache = m.cache
  freemap : m'.freemap = m.freemap
  fmPage : m'.currentRoots.freemapPage = m.currentRoots.freemapPage
  fmDepth : m'.currentRoots.freemapDepth = m.currentRoots.freemapDepth
  allocated : m'.txnPages.allocated = m.txnPages.allocated
  savepoints : m'.savepoints = m.savepoints
  active : m'.activeTxn = m.activeTxn
  committed : m'.committedRoots = m.committedRoots
  liveSlots : m'.packer.committedLiveSlots = m.packer.committedLiveSlots
  counter : m'.txnCounter = m.txnCounter
  superblocks : m'.superblockCount = m.superblockCount
  header : m'.cryptoHeader = m.cryptoHeader

/-- Where the pages of the bookkeeping went. Lost pages stay lost, and only pages that the
operation held join them. -/
structure Rebooked (m m' : TransactionManager) (v : Version) (held lost : Nat → Nat)
    (v' : Version) (held' lost' : Nat → Nat) : Prop where
  sum : ∀ x, v'.own x + held' x + m'.txnPages.recyclable.count x + m'.txnFreedPages.count x +
    lost' x = v.own x + held x + m.txnPages.recyclable.count x + m.txnFreedPages.count x + lost x
  held_le : ∀ x, held' x ≤ held x
  lost_ge : ∀ x, lost x ≤ lost' x
  lost_le : ∀ x, lost' x ≤ lost x + held x
  recyclable : ∀ x ∈ m'.txnPages.recyclable,
    x ∈ m.txnPages.recyclable ∨ x ∈ m.txnPages.allocated
  pool : m.savepoints ≠ [] → m'.txnPages.recyclable = []

namespace Core

variable {ex ex' : Prop} {o : Origin} {m m' : TransactionManager} {g : Ghost} {cur' : Version}
  {held held' lost' : Nat → Nat} {x : Nat}

theorem held_or_own_plain (h : Core ex o m g held) (hx : 0 < g.cur.own x + held x +
    m.txnPages.recyclable.count x + m.txnFreedPages.count x) {p : Page}
    (hp : m.cache.store.view x = some p) : p.isFreeMap = false := by
  by_cases h1 : 0 < g.cur.own x
  · obtain ⟨q, hq, hf⟩ := h.cur.page h1
    rw [hp] at hq
    cases hq
    exact hf
  by_cases h2 : 0 < held x
  · exact h.plain x h2 p hp
  by_cases h3 : 0 < m.txnPages.recyclable.count x
  · exact h.alloc.dead x (count_pos.mp h3) p hp
  have h4 : 0 < m.txnFreedPages.count x := by omega
  have hwait : 0 < m.waiting x := by
    unfold waiting
    omega
  refine h.dead x hwait (fun hm => ?_) p hp
  have hl := h.ledger x
  have h5 := count_pos.mpr hm
  have h6 := between_le o.lo m.cache.store.next x
  unfold waiting at hl
  omega

theorem booked_from (hb : Rebooked m m' g.cur held g.lost cur' held' lost')
    (hx : 0 < m'.txnPages.recyclable.count x + m'.txnFreedPages.count x) :
    0 < g.cur.own x + held x + m.txnPages.recyclable.count x + m.txnFreedPages.count x := by
  have h1 := hb.sum x
  have h2 := hb.lost_ge x
  omega

theorem tally_aside {t : PageTree Bool} (ha : Aside m m') (x : Nat) :
    tally m'.takeTree t x + m.txnPages.recyclable.count x =
      tally m.takeTree t x + m'.txnPages.recyclable.count x := by
  have hbits : fmBits m'.takeTree t = fmBits m.takeTree t := fmBits_congr ha.fmDepth fun _ => rfl
  unfold tally
  rw [hbits]
  change _ + _ + m'.freemap.structuralReuse.count x + m'.txnPages.recyclable.count x + 0 + _ =
    _ + _ + m.freemap.structuralReuse.count x + m.txnPages.recyclable.count x + 0 + _
  rw [ha.freemap]
  omega

theorem savesSame_aside {t : PageTree Bool} (ha : Aside m m')
    (hrec : m'.txnPages.recyclable = m.txnPages.recyclable) : SavesSame m m' t t where
  savepoints := ha.savepoints
  root := ha.fmPage
  fmDepth := ha.fmDepth
  session := by rw [ha.freemap]
  superseded := by rw [ha.freemap]
  reuse := by rw [ha.freemap]
  hint := by rw [ha.freemap]
  recyclable := hrec
  tree := rfl
  tally x := by
    have h1 := tally_aside (t := t) ha x
    rw [hrec] at h1
    omega
  view x _ := by rw [ha.cache]
  hot n _ := by rw [ha.cache]
  hot_ge := by rw [ha.cache]
  room := by rw [ha.cache]
  next_le := by rw [ha.cache]

/-- The books of the transaction changed; no page was written. -/
theorem rebook (h : Core ex o m g held) (ha : Aside m m')
    (hb : Rebooked m m' g.cur held g.lost cur' held' lost') (hok : cur'.Ok m.cache.store.view)
    (hex : ex' → ex ∧ ∀ x, lost' x = 0) (hcounts : Counts m'.packer.currentLiveSlots cur'.slots)
    (hcursor : ∀ x, m'.packer.insertCursor = some x → m.savepoints = [] ∧
      x ∈ m.txnPages.allocated ∧ x ∈ m.cache.store.hot ∧ 0 < cur'.slots x)
    (hk : g.stuck = m.savepoints.length ∨
      cur' = g.cur ∧ m'.txnFreedPages = m.txnFreedPages) :
    Core ex' o m' { g with cur := cur', lost := lost' } held' := by
  have hledger : ∀ x, cur'.own x + held' x + tally m'.takeTree g.tree x + m'.waiting x + lost' x =
      between o.lo m.cache.store.next x := by
    intro x
    have h1 := h.ledger x
    have h2 := hb.sum x
    have h3 := tally_aside (t := g.tree) ha x
    unfold waiting at *
    rw [ha.freemap, ha.savepoints]
    omega
  have hnew : ∀ x, 0 < o.pages x → x ∉ m'.txnPages.recyclable := by
    intro x hx hm
    have hf := h.frozen x hx
    rcases hb.recyclable x hm with h1 | h1
    · exact hf.fixed (.inr ⟨rfl, .inr (.inl h1)⟩)
    · exact hf.old h1
  have hsame := savesSame_aside (t := g.tree) ha
  obtain ⟨cache, committed, ⟨_, _, _, _, _, _, _⟩, htDepth, outerDepth, counter, count, active,
    savepoints, freed, ⟨allocated, recyclable⟩, freemap, ⟨_, _, _⟩, poisoned, header⟩ := m'
  obtain ⟨rfl, rfl, rfl, rfl, rfl, rfl, rfl, rfl, rfl, rfl, rfl, rfl⟩ := ha
  refine { h with
    anchored := { h.anchored with }
    alloc := ?_
    cur := hok
    ledger := hledger
    exact := fun he => (hex he).2
    plain := fun x hx => h.plain x (Nat.lt_of_lt_of_le hx (hb.held_le x))
    counts := hcounts
    cursor := hcursor
    dead := fun x hx hns p hp => ?_
    frozen := fun x hx => ?_
    short := fun he => h.short (hex he).1
    saves := h.saves_same rfl (fun hne => hsame ((hb.pool hne).trans (h.saves.pool hne).symm))
      (fun he => (hex he).1) rfl rfl (hk.imp_right fun hc => ⟨hc.1, hc.2, fun _ => rfl⟩) }
  · refine h.alloc.repool rfl rfl rfl rfl (fun x => ?_) fun x hx p hp => ?_
    · have := hledger x
      change _ ≤ between o.lo m.cache.store.next x
      omega
    · have hc := count_pos.mpr hx
      change 0 < recyclable.count x at hc
      exact h.held_or_own_plain (booked_from hb (Nat.add_pos_left hc _)) hp
  · by_cases h1 : 0 < freed.count x
    · exact h.held_or_own_plain (booked_from hb (Nat.add_pos_right _ h1)) hp
    · refine h.dead x ?_ hns p hp
      unfold waiting at *
      dsimp only at hx
      omega
  · have hf := h.frozen x hx
    refine ⟨hf.view, hf.cold, ?_, hf.old, ?_⟩
    · rintro (hw | ⟨-, hw | hw | hw | hw⟩)
      · exact hf.fixed (.inl hw)
      · exact hf.fixed (.inr ⟨rfl, .inl hw⟩)
      · exact hnew x hx hw
      · exact hf.fixed (.inr ⟨rfl, .inr (.inr (.inl hw))⟩)
      · exact hf.fixed (.inr ⟨rfl, .inr (.inr (.inr hw))⟩)
    · have h1 := hf.home
      have h2 := hb.sum x
      have h3 := hb.held_le x
      have h4 := hb.lost_le x
      have h5 := h.ledger x
      have h6 := between_le o.lo m.cache.store.next x
      have h7 := List.count_eq_zero.mpr (hnew x hx)
      unfold waiting at *
      dsimp only at *
      omega

end Core

end Chisel
