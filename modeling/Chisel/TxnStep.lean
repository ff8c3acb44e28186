import Chisel.TxnInv

/-! The steps that the operations of a transaction are made of: reading, taking pages, storing a
value and preparing new trees. Each step keeps the invariant and says what else it left alone. -/

namespace Chisel

open StateError PageCache TransactionManager RadixTree Ledger

variable {α : Type} {E : ChiselError → TransactionManager → Prop} {p : SlotPacker} {id : Nat}

/-! ### Frames -/

/-- The handles and the names of the roots are as they were. -/
structure SameNames (m m' : TransactionManager) : Prop where
  next : m'.currentRoots.nextHandle = m.currentRoots.nextHandle
  names : m'.currentRoots.namedRoots = m.currentRoots.namedRoots
  total : m'.currentRoots.totalPages = m.currentRoots.totalPages

/-- The roots and the depths are as they were; the free map may have moved. -/
structure SameRoots (m m' : TransactionManager) : Prop extends SameNames m m' where
  table : m'.currentRoots.handleTablePage = m.currentRoots.handleTablePage
  index : m'.currentRoots.membershipIndexPage = m.currentRoots.membershipIndexPage
  htDepth : m'.htDepth = m.htDepth
  outerDepth : m'.outerDepth = m.outerDepth

/-- The free map knows of the page: it is a node, or it is in one of the lists of dead nodes. -/
def Accounted (m : TransactionManager) (t : PageTree Bool) (x : Nat) : Prop :=
  0 < t.count fmShape x ∨ x ∈ m.freemap.structuralReuse ∨ x ∈ m.freemap.structuralSuperseded ∨
    x ∈ m.freemap.pendingStructuralFrees

/-- The free map knows of the page, or it was written since the last flush. -/
def Known (m : TransactionManager) (t : PageTree Bool) (x : Nat) : Prop :=
  Accounted m t x ∨ x ∈ m.cache.store.hot

/-- The savepoints are as they were, and so is what they rest on. The file was not touched, no page
that was known was forgotten, and there is a free map only if there was one. -/
structure Went (m : TransactionManager) (g : Ghost) (m' : TransactionManager) (g' : Ghost) :
    Prop where
  savepoints : m'.savepoints = m.savepoints
  saves : g'.saves = g.saves
  stuck : g'.stuck = g.stuck
  superseded : m.freemap.structuralSuperseded <+: m'.freemap.structuralSuperseded
  inside : m.savepoints ≠ [] → SavesSame m m' g.tree g'.tree
  io : m'.cache.store.io = m.cache.store.io
  known : ∀ x < m'.cache.store.next, Known m' g'.tree x ∨
    x < m.cache.store.next ∧ ¬ Known m g.tree x
  dry : g.tree = .nil → g'.tree = .nil
  fits : m'.cache.store.Fits → m.cache.store.Fits

/-- Besides, no page joined those that may be taken, none was freed, the manager is as much poisoned
as it was, and a new cursor is on a page that was free to take. -/
structure Drawn (m : TransactionManager) (g : Ghost) (m' : TransactionManager) (g' : Ghost) : Prop
    extends Went m g m' g' where
  poisoned : m'.poisoned = m.poisoned
  freed : m'.txnFreedPages = m.txnFreedPages
  streams : ∀ x, Writable true m'.takeTree g'.tree x → Writable true m.takeTree g.tree x
  cursor : ∀ x, m'.packer.insertCursor = some x → m.packer.insertCursor = some x ∨
    Writable true m.takeTree g.tree x

section Frames

variable {m m' m'' : TransactionManager} {g g' g'' : Ghost}

theorem SameNames.trans (h : SameNames m m') (h' : SameNames m' m'') : SameNames m m'' :=
  ⟨h'.next.trans h.next, h'.names.trans h.names, h'.total.trans h.total⟩

theorem SameRoots.refl (m : TransactionManager) : SameRoots m m :=
  ⟨⟨rfl, rfl, rfl⟩, rfl, rfl, rfl, rfl⟩

theorem SameRoots.trans (h : SameRoots m m') (h' : SameRoots m' m'') : SameRoots m m'' :=
  ⟨h.toSameNames.trans h'.toSameNames, h'.table.trans h.table, h'.index.trans h.index,
    h'.htDepth.trans h.htDepth, h'.outerDepth.trans h.outerDepth⟩

theorem sameRoots_putTree (s : AllocCtx) (m : TransactionManager) : SameRoots m (m.putTree s) :=
  ⟨⟨rfl, rfl, rfl⟩, rfl, rfl, rfl, rfl⟩

theorem Tied.same {v : Version} (h : Tied m.currentRoots m.htDepth m.outerDepth v)
    (hk : SameRoots m m') : Tied m'.currentRoots m'.htDepth m'.outerDepth v := by
  refine ⟨?_, ?_, hk.htDepth.trans h.depth, hk.outerDepth.trans h.outer, ?_, ?_⟩
  · rw [hk.table]
    exact h.table
  · rw [hk.index]
    exact h.index
  · rw [hk.next]
    exact h.fresh
  · rw [hk.next]
    exact h.next_le

theorem SavesSame.refl (m : TransactionManager) (t : PageTree Bool) : SavesSame m m t t :=
  ⟨rfl, rfl, rfl, rfl, rfl, rfl, rfl, rfl, rfl, fun _ => rfl, fun _ _ => rfl, fun _ _ => rfl,
    Finset.Subset.refl _, rfl, le_rfl⟩

theorem SavesSame.trans {t t' t'' : PageTree Bool} (h : SavesSame m m' t t')
    (h' : SavesSame m' m'' t' t'') : SavesSame m m'' t t'' where
  savepoints := h'.savepoints.trans h.savepoints
  root := h'.root.trans h.root
  fmDepth := h'.fmDepth.trans h.fmDepth
  session := h'.session.trans h.session
  superseded := h'.superseded.trans h.superseded
  reuse := h'.reuse.trans h.reuse
  hint := h'.hint.trans h.hint
  recyclable := h'.recyclable.trans h.recyclable
  tree := h'.tree.trans h.tree
  tally x := by
    have h1 := h'.tally x
    rw [h.tree] at h1
    exact h1.trans (h.tally x)
  view x hx := (h'.view x (hx.trans_le h.next_le)).trans (h.view x hx)
  hot n hn := (h'.hot n (hn.trans h.next_le)).trans (h.hot n hn)
  hot_ge := h.hot_ge.trans h'.hot_ge
  room := h'.room.trans h.room
  next_le := h.next_le.trans h'.next_le

theorem known_refl (m : TransactionManager) (t : PageTree Bool) :
    ∀ x < m.cache.store.next, Known m t x ∨ x < m.cache.store.next ∧ ¬ Known m t x :=
  fun x hx => (Classical.em (Known m t x)).imp_right fun hk => ⟨hx, hk⟩

theorem Evolve.known {r : Bool} {lent given : Nat → Nat} {s' : AllocCtx} {t t' : PageTree Bool}
    (h : Evolve r lent given m.takeTree t s' t') :
    ∀ x < s'.store.next, Known (m.putTree s') t' x ∨ x < m.cache.store.next ∧ ¬ Known m t x := by
  intro x hx
  by_cases hlt : x < m.cache.store.next
  · refine (Classical.em (Known m t x)).imp (fun hk => ?_) fun hk => ⟨hlt, hk⟩
    rcases hk with (hk | hk | hk | hk) | hk
    · rcases h.kept x hk with h1 | h1
      · exact .inl (.inl h1)
      · exact .inl (.inr (.inr (.inl (List.mem_append_right _ h1))))
    · rcases h.reused x hk with h1 | h1
      · exact .inl (.inr (.inl h1))
      · exact .inr h1
    · exact .inl (.inr (.inr (.inl (List.mem_append_left _ hk))))
    · exact .inl (.inr (.inr (.inr hk)))
    · exact .inr (h.hot_ge hk)
  · exact .inl (.inr (h.tail x (Nat.le_of_not_lt hlt) hx))

theorem Went.refl (m : TransactionManager) (g : Ghost) : Went m g m g :=
  ⟨rfl, rfl, rfl, List.prefix_refl _, fun _ => .refl m g.tree, rfl, known_refl m g.tree, id, id⟩

theorem Went.trans (h : Went m g m' g') (h' : Went m' g' m'' g'') : Went m g m'' g'' where
  savepoints := h'.savepoints.trans h.savepoints
  saves := h'.saves.trans h.saves
  stuck := h'.stuck.trans h.stuck
  superseded := h.superseded.trans h'.superseded
  inside hne := (h.inside hne).trans (h'.inside (by rw [h.savepoints]; exact hne))
  io := h'.io.trans h.io
  known x hx := by
    rcases h'.known x hx with h1 | ⟨hlt, h1⟩
    · exact .inl h1
    · exact .inr ((h.known x hlt).resolve_left h1)
  dry hnil := h'.dry (h.dry hnil)
  fits hf := h.fits (h'.fits hf)

theorem Drawn.refl (m : TransactionManager) (g : Ghost) : Drawn m g m g :=
  ⟨.refl m g, rfl, rfl, fun _ h => h, fun _ h => .inl h⟩

theorem Drawn.trans (h : Drawn m g m' g') (h' : Drawn m' g' m'' g'') : Drawn m g m'' g'' :=
  ⟨h.toWent.trans h'.toWent, h'.poisoned.trans h.poisoned, h'.freed.trans h.freed,
    fun x hx => h.streams x (h'.streams x hx),
    fun x hx => (h'.cursor x hx).elim (h.cursor x) fun hw => .inr (h.streams x hw)⟩

theorem drawn_putTree {lo : Nat} {lent : Nat → Nat} {s' : AllocCtx}
    (hm : Moves m.reuse lo lent m.takeTree g.tree s' g'.tree) (hsaves : g'.saves = g.saves)
    (hstuck : g'.stuck = g.stuck) : Drawn m g (m.putTree s') g' where
  savepoints := rfl
  poisoned := rfl
  saves := hsaves
  stuck := hstuck
  superseded := List.prefix_append ..
  inside hne := savesSame_putTree hm.step hne
  io := hm.step.io
  known := hm.step.known
  dry := hm.dry
  freed := rfl
  streams x hx := by
    rw [takeTree_putTree, writable_settle] at hx
    exact (hm.step.writable_true hx).resolve_right (Nat.lt_irrefl 0)
  cursor x hx := .inl hx
  fits := hm.step.fits

theorem Aside.went {lost : Nat → Nat} {cur : Version} (ha : Aside m m')
    (hrec : m.savepoints ≠ [] → m'.txnPages.recyclable = m.txnPages.recyclable) :
    Went m g m' { g with cur := cur, lost := lost } where
  savepoints := ha.savepoints
  saves := rfl
  stuck := rfl
  superseded := by rw [ha.freemap]
  inside hne := Core.savesSame_aside ha (hrec hne)
  io := by rw [ha.cache]
  known := by
    unfold Known Accounted
    rw [ha.cache, ha.freemap]
    exact known_refl m g.tree
  dry := id
  fits := by
    rw [ha.cache]
    exact id

end Frames

/-! ### Reading -/

section Reading

variable {ex : Prop} {o : Origin} {m : TransactionManager} {g : Ghost} {held : Nat → Nat}
  {c : PageCache}

theorem putTree_cache (m : TransactionManager) (c : PageCache) :
    m.putTree { m.takeTree with cache := c } = { m with cache := c } := by
  unfold putTree takeTree
  simp

theorem putTree_peeked {s : AllocCtx} (hp : Peeked m.takeTree s) :
    m.putTree s = { m with cache := s.cache } := by
  rw [← putTree_cache]
  obtain ⟨cache, tree, hint, reuse, pool⟩ := s
  obtain ⟨-, -, rfl, rfl, rfl, rfl⟩ := hp
  rfl

theorem wp_withTree {x : AllocM α} {Q : α → TransactionManager → Prop} :
    wp (withTree x) m Q E ↔
      wp x m.takeTree (fun a s => Q a (m.putTree s)) (fun e s => E e (m.putTree s)) := wp_zoom

theorem wp_withCache {x : CacheM α} {Q : α → TransactionManager → Prop} :
    wp (withCache x) m Q E ↔
      wp x m.cache (fun a c => Q a { m with cache := c }) (fun e c => E e { m with cache := c }) :=
  wp_zoom

theorem wp_withCache_tree {x : CacheM α} {Q : α → TransactionManager → Prop} :
    wp (withCache x) m Q E ↔
      wp (onCache x) m.takeTree (fun a s => Q a (m.putTree s)) (fun e s => E e (m.putTree s)) := by
  rw [wp_withCache, wp_onCache]
  simp only [putTree_cache]
  rfl

theorem Core.peeked (hc : Reads m.cache c) : Peeked m.takeTree { m.takeTree with cache := c } :=
  .of_cache hc.1 hc.2

theorem Core.look (h : Core ex o m g held) (hc : Reads m.cache c) :
    Core ex o { m with cache := c } g held := by
  have h1 := h.peek (Core.peeked hc)
  rwa [putTree_cache] at h1

theorem Core.drawn_look (h : Core ex o m g held) (hc : Reads m.cache c) :
    Drawn m g { m with cache := c } g := by
  have hp := Core.peeked hc
  have hm : Moves m.reuse o.lo (fun _ => 0) m.takeTree g.tree
      { m.takeTree with cache := c } g.tree :=
    .of_store h.alloc hp.wf hp.store hp.tree hp.hint hp.reuse hp.pool
  have h1 : Drawn m g (m.putTree { m.takeTree with cache := c }) g := drawn_putTree hm rfl rfl
  rwa [putTree_cache] at h1

end Reading

/-! ### The trees of the current version -/

namespace Core

variable {ex : Prop} {o : Origin} {m : TransactionManager} {g : Ghost} {held lent : Nat → Nat}
  {s' : AllocCtx} {t' : PageTree Bool}

theorem not_owned (h : Core ex o m g held) {x : Nat} (hx : 0 < g.cur.own x + held x) :
    ¬ CowOwns o.lo m.takeTree g.tree x := by
  have hin : 0 < g.cur.own x + held x + m.waiting x + g.lost x := by omega
  obtain ⟨hlo, hlt⟩ := h.lt_next hin
  have h0 := h.tally_eq_zero hin
  change ¬ (m.cache.store.next ≤ x ∨ x < o.lo ∨ 0 < tally m.takeTree g.tree x)
  omega

theorem table_rests (h : Core ex o m g held) (r : Bool) :
    Rests handleLayout (cow r o.lo) m.takeTree g.tree g.cur.depth g.cur.table where
  rep := h.cur.table.rep
  fixed x hx := by
    have hle := Version.table_le_own (v := g.cur) (x := x)
    exact h.not_owned (by omega)

theorem index_rests (h : Core ex o m g held) (r : Bool) :
    g.cur.index.RestsIn (cow r o.lo) m.takeTree g.tree g.cur.outerDepth where
  outer :=
    { rep := h.cur.index.outer
      fixed := fun x hx => by
        have h1 := Version.index_le_own (v := g.cur) (x := x)
        have h2 := g.cur.index.outer_le x
        exact h.not_owned (by omega) }
  inner tag ht :=
    { rep := h.cur.index.inner tag ht
      fixed := fun x hx => by
        have h1 := Version.index_le_own (v := g.cur) (x := x)
        have h2 := g.cur.index.inner_le x ht
        exact h.not_owned (by omega) }

theorem next_le (h : Core ex o m g held) : m.cache.store.next ≤ u64Max :=
  h.alloc.sound.next_le

theorem wf (h : Core ex o m g held) : m.cache.WF := h.alloc.sound.wf

theorem drawn_lend (hl : Lends m.reuse o.lo lent m.takeTree g.tree s' t') :
    Drawn m g (m.putTree s') { g with tree := t' } := drawn_putTree hl.toMoves rfl rfl

end Core

/-- What a failed allocation leaves: the version it started from, and lost pages. -/
structure Residue (o : Origin) (m : TransactionManager) (g : Ghost) (m' : TransactionManager)
    (g' : Ghost) : Prop where
  core : Core False o m' g' fun _ => 0
  cur : g'.cur = g.cur
  drawn : Drawn m g m' g'

section Lose

variable {ex : Prop} {o : Origin} {m m' m'' : TransactionManager} {g g' g'' : Ghost}
  {held : Nat → Nat} {s' : AllocCtx}

theorem Core.lose (h : Core ex o m g held) (hl : Loses m.reuse o.lo m.takeTree g.tree s') :
    ∃ g', Residue o m g (m.putTree s') g' := by
  obtain ⟨lent, t', hm⟩ := hl
  refine ⟨{ g with tree := t', lost := fun x => held x + g.lost x + lent x }, ?_, rfl,
    drawn_putTree hm rfl rfl⟩
  exact h.moves hm (fun x => by omega) (fun x hx => absurd hx (Nat.lt_irrefl 0)) False.elim
    False.elim

theorem Residue.after (h : Residue o m' g' m'' g'') (hcur : g'.cur = g.cur)
    (hd : Drawn m g m' g') : Residue o m g m'' g'' :=
  ⟨h.core, h.cur.trans hcur, hd.trans h.drawn⟩

end Lose

/-! ### Storing a value -/

namespace Version

variable {v : Version} {x : Nat}

theorem slots_strayed_add (v : Version) (f : Nat → Nat) (x : Nat) :
    (v.strayed fun x => v.stray x + f x).slots x = v.slots x + f x := by
  change (∑ handle ∈ v.live, (v.entry handle).slotAt x) + (v.stray x + f x) = _
  unfold slots
  omega

theorem own_strayed_add (v : Version) (f : Nat → Nat) (x : Nat) :
    (v.strayed fun x => v.stray x + f x).own x + min 1 (v.slots x) =
      v.own x + min 1 (v.slots x + f x) := by
  have hs := slots_strayed_add v f x
  unfold own
  rw [hs]
  change v.table.count _ x + v.index.count x + _ + v.chained x + _ = _
  omega

end Version

/-- The page that takes the next value has space for this one. -/
def TransactionManager.cursorTakes (m : TransactionManager) (value : Bytes) : Prop :=
  CursorTakes m.cache.store.view m.packer.insertCursor value

/-- Where a value went: to the page of the cursor just if that one has space. -/
structure Lands (m : TransactionManager) (g : Ghost) (value : Bytes) (e : HandleEntry)
    (m' : TransactionManager) : Prop where
  lands : e.flags = .live →
    (m.cursorTakes value ∧ m.packer.insertCursor = some e.pageId) ∨
      ¬ m.cursorTakes value ∧ Writable true m.takeTree g.tree e.pageId
  cursor : ∀ x, m'.packer.insertCursor = some x → x = e.pageId ∨
    m.packer.insertCursor = some x ∧ e.flags ≠ .live
  long : e.flags = .live ↔ value.length ≤ maxInlineValue

/-- The value was stored and the packer counts its slot, which no handle uses yet. -/
structure StoredAt (ex : Prop) (o : Origin) (m : TransactionManager) (g : Ghost)
    (held : Nat → Nat) (value : Bytes) (tag : Nat) (byte : UInt8) (e : HandleEntry)
    (inline : Option Nat) (ids : List Nat) (m' : TransactionManager) (g' : Ghost) : Prop
    extends Lands m g value e m' where
  core : Core ex o m' g' fun x => held x + ids.count x
  cur : g'.cur = g.cur.strayed fun x => g.cur.stray x + e.slotAt x
  drawn : Drawn m g m' g'
  roots : SameRoots m m'
  room : g.stuck = m.savepoints.length
  placed : Placed m'.cache.store.view e value ids
  tag : e.tag = tag
  byte : e.clientByte = byte
  inline : inline = if e.flags = .live then some e.pageId else none
  free : e.flags = .live → ∀ handle, g.cur.SlotFree handle e

section StoreValue

variable {ex : Prop} {o : Origin} {m : TransactionManager} {g : Ghost} {held : Nat → Nat}
  {value : Bytes} {tag : Nat} {byte : UInt8}

theorem Core.cursorAt (h : Core ex o m g held) {x : Nat} (hx : m.packer.insertCursor = some x) :
    CursorAt m.takeTree g.tree x := by
  obtain ⟨-, -, hhot, hslots⟩ := h.cursor x hx
  have hown := Version.own_pos_of_slots hslots
  exact ⟨(h.lt_next (by omega)).2, hhot, h.cur.data_page hslots, h.tally_eq_zero (by omega)⟩

/-- A data page is used for nothing else. -/
theorem Core.data_sole (h : Core ex o m g held) {x : Nat} (hx : 0 < g.cur.slots x) :
    g.cur.table.count handleLayout.shape x + g.cur.index.count x + g.cur.chained x = 0 := by
  have h1 := h.ledger x
  have h2 := between_le o.lo m.cache.store.next x
  unfold Version.own at h1
  omega

/-- The manager after the packer took a value. -/
def packed (m : TransactionManager) (s : AllocCtx) (p : SlotPacker) : TransactionManager :=
  { m.putTree s with packer := p }

theorem aside_packed (m : TransactionManager) (s : AllocCtx) (p : SlotPacker)
    (hp : p.committedLiveSlots = m.packer.committedLiveSlots) :
    Aside (m.putTree s) (packed m s p) :=
  ⟨rfl, rfl, rfl, rfl, rfl, rfl, rfl, rfl, hp, rfl, rfl, rfl⟩

theorem drawn_packed {s : AllocCtx} {g' : Ghost} (hd : Drawn m g (m.putTree s) g')
    (hc : ∀ x, p.insertCursor = some x → m.packer.insertCursor = some x ∨
      Writable true m.takeTree g.tree x) (cur : Version) :
    Drawn m g (packed m s p) { g' with cur := cur } :=
  { hd with inside := fun hne => { hd.inside hne with }, cursor := hc }

theorem known_write {p : Page} {s' : AllocCtx} (hw : Wrote id p m.takeTree s') (t : PageTree Bool) :
    ∀ x < s'.store.next, Known (m.putTree s') t x ∨ x < m.cache.store.next ∧ ¬ Known m t x := by
  intro x hx
  rw [hw.store] at hx
  refine (Classical.em (Known m t x)).imp (fun hk => ?_) fun hk => ⟨hx, hk⟩
  rcases hk with (hk | hk | hk | hk) | hk
  · exact .inl (.inl hk)
  · refine .inl (.inr (.inl ?_))
    change x ∈ s'.structuralReuse
    rw [hw.reuse]
    exact hk
  · exact .inl (.inr (.inr (.inl (List.mem_append_left _ hk))))
  · exact .inl (.inr (.inr (.inr hk)))
  · refine .inr ?_
    change x ∈ s'.store.hot
    rw [hw.store]
    exact Finset.mem_insert_of_mem hk

theorem drawn_write {p : Page} {s' : AllocCtx} (hw : Wrote id p m.takeTree s')
    (hnil : m.savepoints = []) : Drawn m g (m.putTree s') g := by
  have hio : s'.store.io = m.cache.store.io := by
    rw [hw.store]
    rfl
  refine ⟨⟨rfl, rfl, rfl, List.prefix_append .., fun hne => absurd hnil hne, hio,
    known_write hw g.tree, fun h => h, fun hf => ?_⟩, rfl, rfl, fun x hx => ?_, fun x hx => .inl hx⟩
  · change s'.store.Fits at hf
    rw [hw.store] at hf
    exact (Finset.card_le_card (Finset.subset_insert ..)).trans hf
  · rwa [takeTree_putTree, writable_settle, hw.writable] at hx

theorem Core.stored_appended (h : Core ex o m g held) {slot : Nat} {slots : List Bytes}
    {s' : AllocCtx} (hcur : m.packer.insertCursor = some id)
    (htakes : m.cursorTakes value) (ha : Appended value m.takeTree id slot slots s')
    (hlen : value.length ≤ maxInlineValue) (hp : p.committedLiveSlots = m.packer.committedLiveSlots)
    (hcount : p.currentLiveSlots = SlotPacker.countUp m.packer.currentLiveSlots id)
    (hc : p.insertCursor = m.packer.insertCursor) :
    ∃ g', StoredAt ex o m g held value tag byte ⟨id, slot, .live, tag, byte⟩ (some id) []
      (packed m s' p) g' := by
  set e : HandleEntry := ⟨id, slot, .live, tag, byte⟩ with he
  obtain ⟨hnil, hal, hhot, hslots⟩ := h.cursor id hcur
  have hown := Version.own_pos_of_slots hslots
  have hself : s'.store.view id = some (.data (slots ++ [value])) := by
    rw [ha.wrote.store]
    exact Store.put_view_self ..
  have hok : g.cur.Ok s'.store.view := by
    refine h.cur.append ha.page (h.data_sole hslots) hself fun x hx => ?_
    rw [ha.wrote.store]
    exact Store.put_view_ne _ _ hx
  have h1 := h.write ha.wrote hnil hhot hown hok
  have hk : g.stuck = m.savepoints.length := by rw [h.stuck_of_nil hnil, hnil]; rfl
  have hslot : ∀ x, e.slotAt x = one id x := fun x => if_pos rfl
  -- the page is in use already, so the version owns no more pages than before
  have hownEq : ∀ x, (g.cur.strayed fun x => g.cur.stray x + e.slotAt x).own x = g.cur.own x := by
    intro x
    have h2 := Version.own_strayed_add g.cur e.slotAt x
    rw [hslot] at h2
    by_cases hx : id = x
    · subst hx
      omega
    · rw [one_of_ne hx] at h2
      omega
  refine ⟨{ g with cur := g.cur.strayed fun x => g.cur.stray x + e.slotAt x },
    ⟨fun _ => .inl ⟨htakes, hcur⟩, fun x hx => .inl ?_, iff_of_true rfl hlen⟩, ?_, rfl,
    drawn_packed (drawn_write ha.wrote hnil) (fun x hx => .inl (hc ▸ hx)) _,
    ⟨⟨rfl, rfl, rfl⟩, rfl, rfl, rfl, rfl⟩, hk, ?_, rfl, rfl, rfl,
    fun _ handle => h.cur.slotFree_next ha.page rfl ha.slot⟩
  · change p.insertCursor = some x at hx
    rw [hc, hcur] at hx
    exact (Option.some.inj hx).symm
  · refine h1.rebook (aside_packed m s' p hp) ⟨fun x => ?_, fun x => le_rfl, fun x => le_rfl,
      fun x => Nat.le_add_right _ _, fun x hx => .inl hx, fun hne => absurd hnil hne⟩ ?_
      (fun hx => ⟨hx, h.exact hx⟩) ?_ ?_ (.inl hk)
    · rw [hownEq]
      rfl
    · refine hok.strayed fun x hx => ?_
      rw [hslot] at hx
      by_cases hxid : id = x
      · subst hxid
        exact ⟨_, hself⟩
      · rw [one_of_ne hxid] at hx
        exact hok.stray_page x hx
    · change Counts p.currentLiveSlots _
      rw [hcount]
      refine (h.counts.countUp id).congr fun x => ?_
      rw [Version.slots_strayed_add, hslot]
    · intro x hx
      change p.insertCursor = some x at hx
      rw [hc] at hx
      obtain ⟨h2, h3, h4, h5⟩ := h1.cursor x hx
      refine ⟨h2, h3, h4, ?_⟩
      rw [Version.slots_strayed_add]
      omega
  · refine ⟨nofun, fun _ => ⟨rfl, slots ++ [value], hself, ?_⟩, nofun, fun _ => hlen⟩
    change (slots ++ [value])[slot]? = some value
    rw [ha.slot]
    exact List.getElem?_concat_length

theorem Core.stored_onNewPage (h : Core ex o m g held) {slot : Nat} {s' : AllocCtx}
    {t' : PageTree Bool} (hfull : ¬ m.cursorTakes value)
    (hn : OnNewPage m.reuse o.lo value m.takeTree g.tree id slot s' t')
    (hlen : value.length ≤ maxInlineValue) (hp : p.committedLiveSlots = m.packer.committedLiveSlots)
    (hcount : p.currentLiveSlots = SlotPacker.countUp m.packer.currentLiveSlots id)
    (hc : p.insertCursor = if m.reuse then some id else m.packer.insertCursor) :
    ∃ g', StoredAt ex o m g held value tag byte ⟨id, slot, .live, tag, byte⟩ (some id) []
      (packed m s' p) g' := by
  set e : HandleEntry := ⟨id, slot, .live, tag, byte⟩ with he
  have hk := h.unstick hn.fits
  have h1 := h.lend hk hn.lends
  have hslot : ∀ x, e.slotAt x = one id x := fun x => if_pos rfl
  have hzero : g.cur.slots id = 0 := by
    have h2 := h1.ledger id
    have h3 := between_le o.lo (m.putTree s').cache.store.next id
    have h4 : one id id = 1 := by simp
    change g.cur.own id + (held id + one id id) + _ + _ + _ = _ at h2
    unfold Version.own at h2
    omega
  have hownEq : ∀ x, (g.cur.strayed fun x => g.cur.stray x + e.slotAt x).own x =
      g.cur.own x + one id x := by
    intro x
    have h2 := Version.own_strayed_add g.cur e.slotAt x
    rw [hslot] at h2
    by_cases hx : id = x
    · subst hx
      have h4 : one id id = 1 := by simp
      omega
    · rw [one_of_ne hx] at h2 ⊢
      omega
  have hw : Writable true m.takeTree g.tree id :=
    ((hn.lends.step.lent_writable h.alloc (x := id) (by simp)).resolve_right
      (Nat.lt_irrefl 0)).weaken
  -- with a savepoint there is no cursor
  have hcursor : ∀ x, p.insertCursor = some x → x = id := by
    intro x hx
    rw [hc] at hx
    split at hx
    next => exact (Option.some.inj hx).symm
    next hr => exact absurd (List.isEmpty_iff.mpr (h.cursor x hx).1) hr
  refine ⟨{ g with tree := t', cur := g.cur.strayed fun x => g.cur.stray x + e.slotAt x },
    ⟨fun _ => .inr ⟨hfull, hw⟩, fun x hx => .inl (hcursor x hx), iff_of_true rfl hlen⟩, ?_, rfl,
    drawn_packed (Core.drawn_lend hn.lends) (fun x hx => .inr (hcursor x hx ▸ hw)) _,
    ⟨⟨rfl, rfl, rfl⟩, rfl, rfl, rfl, rfl⟩, hk, ?_, rfl, rfl, rfl,
    fun _ handle => Version.slotFree_of_slots hzero⟩
  · refine h1.rebook (aside_packed m s' p hp) ⟨fun x => ?_, fun x => Nat.le_add_right _ _,
      fun x => le_rfl, fun x => Nat.le_add_right _ _, fun x hx => .inl hx, h1.saves.pool⟩ ?_
      (fun hx => ⟨hx, h.exact hx⟩) ?_ ?_ (.inl hk)
    · rw [hownEq]
      change g.cur.own x + one id x + held x + s'.pool.recyclable.count x +
        m.txnFreedPages.count x + g.lost x = g.cur.own x + (held x + one id x) +
          s'.pool.recyclable.count x + m.txnFreedPages.count x + g.lost x
      omega
    · refine h1.cur.strayed fun x hx => ?_
      rw [hslot] at hx
      by_cases hxid : id = x
      · subst hxid
        exact ⟨_, hn.page⟩
      · rw [one_of_ne hxid] at hx
        exact h1.cur.stray_page x hx
    · change Counts p.currentLiveSlots _
      rw [hcount]
      refine (h.counts.countUp id).congr fun x => ?_
      rw [Version.slots_strayed_add, hslot]
    · intro x hx
      change p.insertCursor = some x at hx
      rw [hc] at hx
      rw [Version.slots_strayed_add, hslot]
      split at hx
      next hr =>
        obtain rfl := Option.some.inj hx
        refine ⟨List.isEmpty_iff.mp hr, hn.allocated, hn.hot, ?_⟩
        simp
      next =>
        obtain ⟨h2, h3, h4, h5⟩ := h1.cursor x hx
        exact ⟨h2, h3, h4, Nat.lt_of_lt_of_le h5 (Nat.le_add_right _ _)⟩
  · refine ⟨nofun, fun _ => ⟨rfl, [value], hn.page, ?_⟩, nofun, fun _ => hlen⟩
    change [value][slot]? = some value
    rw [hn.slot]
    rfl

theorem Core.stored_chain (h : Core ex o m g held) {first : Nat} {ids : List Nat} {s' : AllocCtx}
    (hf : m.cache.store.Fits) (hlen : maxInlineValue < value.length)
    (hhead : ids.head? = some first) (hl : Lends m.reuse o.lo
    (fun x => ids.count x) m.takeTree g.tree s' g.tree) (hchain : Chain s'.store.view value ids) :
    ∃ g', StoredAt ex o m g held value tag byte ⟨first, 0, .overflow, tag, byte⟩ none ids
      (m.putTree s') g' := by
  have hk := h.unstick hf
  have hcur : (g.cur.strayed fun x => g.cur.stray x +
      (⟨first, 0, .overflow, tag, byte⟩ : HandleEntry).slotAt x) = g.cur := rfl
  refine ⟨g, ⟨nofun, fun x hx => .inr ⟨hx, nofun⟩, iff_of_false nofun (Nat.not_le.mpr hlen)⟩,
    h.lend hk hl, hcur.symm, Core.drawn_lend hl, sameRoots_putTree _ _, hk, ?_, rfl, rfl, rfl,
    nofun⟩
  exact ⟨nofun, nofun, fun _ => ⟨hhead, hchain⟩, nofun⟩

theorem Core.wp_storeValue (h : Core ex o m g held) :
    wp (storeValue value tag byte) m
      (fun res m' => ∃ ids g', StoredAt ex o m g held value tag byte res.1 res.2 ids m' g')
      (fun e m' => Exhausted e m'.cache.store ∧ SameRoots m m' ∧ ∃ g', Residue o m g m' g') := by
  unfold storeValue
  refine wp_ite (fun hlen => ?_) fun hlen => ?_
  · have hne : value ≠ [] := by
      rintro rfl
      exact absurd hlen (Nat.not_lt_zero _)
    rw [wp_bind, wp_withCache_tree]
    refine wp_mono (wp_overflowWrite (r := m.reuse) h.alloc hne) ?_ ?_
    · rintro first s' ⟨ids, hhead, hl, hchain, -, hf⟩
      exact wp_ret ⟨ids, h.stored_chain hf hlen hhead hl hchain⟩
    · intro e s' hl
      exact ⟨hl.exhausted, sameRoots_putTree _ _, h.lose hl.loses⟩
  · simp only [insertIntoDataPage, wp_bind, wp_get, wp_modify, wp_pure,
      wp_withTree]
    have hlen' : value.length ≤ maxInlineValue := Nat.le_of_not_lt hlen
    refine wp_mono (wp_packerInsert h.alloc (fun x hx => h.cursorAt hx) m.reuse hlen') ?_ ?_
    · rintro ⟨id, slot, p⟩ s' ⟨hp, hcount, hcase⟩
      refine ⟨[], ?_⟩
      rcases hcase with ⟨hcur, htakes, hc, slots, ha⟩ | ⟨hfull, hc, t', hn⟩
      · exact h.stored_appended hcur htakes ha hlen' hp hcount hc
      · exact h.stored_onNewPage hfull hn hlen' hp hcount hc
    · intro e s' hl
      exact ⟨hl.exhausted, sameRoots_putTree _ _, h.lose hl.loses⟩

end StoreValue

/-! ### Books -/

/-- Pages joined the dead pages of the transaction or those that wait for the commit. -/
structure Booked (m m' : TransactionManager) (added : Nat → Nat) : Prop extends Aside m m' where
  sum : ∀ x, m'.txnPages.recyclable.count x + m'.txnFreedPages.count x =
    m.txnPages.recyclable.count x + m.txnFreedPages.count x + added x
  recyclable : ∀ x ∈ m'.txnPages.recyclable,
    x ∈ m.txnPages.recyclable ∨ x ∈ m.txnPages.allocated
  pool : m.savepoints ≠ [] → m'.txnPages.recyclable = m.txnPages.recyclable
  poisoned : m'.poisoned = m.poisoned

section Books

variable {m m' m'' : TransactionManager} {added added' : Nat → Nat}

theorem Aside.trans (h : Aside m m') (h' : Aside m' m'') : Aside m m'' :=
  ⟨h'.cache.trans h.cache, h'.freemap.trans h.freemap, h'.fmPage.trans h.fmPage,
    h'.fmDepth.trans h.fmDepth, h'.allocated.trans h.allocated, h'.savepoints.trans h.savepoints,
    h'.active.trans h.active, h'.committed.trans h.committed, h'.liveSlots.trans h.liveSlots,
    h'.counter.trans h.counter, h'.superblocks.trans h.superblocks, h'.header.trans h.header⟩

theorem Booked.trans (h : Booked m m' added) (h' : Booked m' m'' added') :
    Booked m m'' fun x => added x + added' x where
  toAside := h.toAside.trans h'.toAside
  sum x := by
    have h1 := h.sum x
    have h2 := h'.sum x
    omega
  recyclable x hx := by
    rcases h'.recyclable x hx with h1 | h1
    · exact h.recyclable x h1
    · rw [h.allocated] at h1
      exact .inr h1
  pool hne := (h'.pool (by rw [h.savepoints]; exact hne)).trans (h.pool hne)
  poisoned := h'.poisoned.trans h.poisoned

theorem booked_roots {roots : Roots} {htDepth outerDepth : Nat}
    (hp : roots.freemapPage = m.currentRoots.freemapPage)
    (hd : roots.freemapDepth = m.currentRoots.freemapDepth) :
    Booked m { m with currentRoots := roots, htDepth, outerDepth } fun _ => 0 :=
  ⟨⟨rfl, rfl, hp, hd, rfl, rfl, rfl, rfl, rfl, rfl, rfl, rfl⟩, fun _ => rfl, fun _ hx => .inl hx,
    fun _ => rfl, rfl⟩

theorem retire_spec (pool : TxnPageRecycle) (freed txnFreed : List Nat) (enabled : Bool) :
    (pool.retire freed txnFreed enabled).1.allocated = pool.allocated ∧
      (∀ x, (pool.retire freed txnFreed enabled).1.recyclable.count x +
        (pool.retire freed txnFreed enabled).2.count x =
          pool.recyclable.count x + txnFreed.count x + freed.count x) ∧
      (∀ x ∈ (pool.retire freed txnFreed enabled).1.recyclable,
        x ∈ pool.recyclable ∨ x ∈ pool.allocated) ∧
      (enabled = false → (pool.retire freed txnFreed enabled).1.recyclable = pool.recyclable) := by
  have hsplit : ∀ x, (freed.filter fun id => id ∈ pool.allocated).count x +
      (freed.filter fun id => id ∉ pool.allocated).count x = freed.count x := by
    intro x
    induction freed with
    | nil => rfl
    | cons id freed ih =>
      by_cases hid : id ∈ pool.allocated
      · simp only [List.filter_cons, hid, decide_true, if_true, not_true, decide_false,
          Bool.false_eq_true, if_false, count_cons] at ih ⊢
        omega
      · simp only [List.filter_cons, hid, decide_true, if_true, not_false_eq_true, decide_false,
          Bool.false_eq_true, if_false, count_cons] at ih ⊢
        omega
  unfold TxnPageRecycle.retire
  cases enabled with
  | true =>
    refine ⟨rfl, fun x => ?_, fun x hx => ?_, nofun⟩
    · have := hsplit x
      simp only [if_true, List.count_append]
      omega
    · rcases List.mem_append.mp hx with h1 | h1
      · exact .inl h1
      · exact .inr (of_decide_eq_true (List.mem_filter.mp h1).2)
  | false =>
    refine ⟨rfl, fun x => ?_, fun x hx => .inl hx, fun _ => rfl⟩
    simp only [Bool.false_eq_true, if_false, List.count_append]
    omega

theorem retire_freed_le (pool : TxnPageRecycle) (freed txnFreed : List Nat) (enabled : Bool)
    (x : Nat) :
    txnFreed.count x ≤ (pool.retire freed txnFreed enabled).2.count x := by
  unfold TxnPageRecycle.retire
  split
  · simp only [List.count_append]
    omega
  · simp only [List.count_append]
    omega

theorem booked_retire (freed : List Nat) (m : TransactionManager) :
    Booked m (m.retireSuperseded freed) fun x => freed.count x := by
  obtain ⟨h1, h2, h3, h4⟩ :=
    retire_spec m.txnPages freed m.txnFreedPages m.savepoints.isEmpty
  refine ⟨⟨rfl, rfl, rfl, rfl, h1, rfl, rfl, rfl, rfl, rfl, rfl, rfl⟩, h2, h3,
    fun hne => h4 ?_, rfl⟩
  exact reuse_eq_false hne

theorem booked_freed (freed : List Nat) (m : TransactionManager) :
    Booked m { m with txnFreedPages := m.txnFreedPages ++ freed } fun x => freed.count x := by
  refine ⟨⟨rfl, rfl, rfl, rfl, rfl, rfl, rfl, rfl, rfl, rfl, rfl, rfl⟩, fun x => ?_,
    fun x hx => .inl hx, fun _ => rfl, rfl⟩
  simp only [List.count_append]
  omega

theorem booked_releaseDataSlot (id : Nat) (m : TransactionManager) :
    Booked m (m.releaseDataSlot id) fun x => (m.packer.release id).2.toList.count x := by
  obtain ⟨h1, -, -⟩ := SlotPacker.release_fields m.packer id
  refine ⟨⟨rfl, rfl, rfl, rfl, rfl, rfl, rfl, rfl, h1, rfl, rfl, rfl⟩, fun x => ?_,
    fun x hx => .inl hx, fun _ => rfl, rfl⟩
  change _ + (m.txnFreedPages ++ (m.packer.release id).2.toList).count x = _
  rw [List.count_append]
  change m.txnPages.recyclable.count x + _ = _
  omega

end Books

namespace Core

variable {ex ex' : Prop} {o : Origin} {m m' : TransactionManager} {g : Ghost} {cur' : Version}
  {held added : Nat → Nat}

/-- The end of an operation. What it held is part of the new version, was booked, or is lost. -/
theorem book (gone : Nat → Nat) (h : Core ex o m g held) (hb : Booked m m' added)
    (hsum : ∀ x, cur'.own x + added x + gone x = g.cur.own x + held x)
    (hgone : ∀ x, gone x ≤ held x) (hok : cur'.Ok m.cache.store.view)
    (hex : ex' → ex ∧ ∀ x, gone x = 0) (hcounts : Counts m'.packer.currentLiveSlots cur'.slots)
    (hcursor : ∀ x, m'.packer.insertCursor = some x →
      m.packer.insertCursor = some x ∧ 0 < cur'.slots x)
    (hk : g.stuck = m.savepoints.length) :
    Core ex' o m' { g with cur := cur', lost := fun x => g.lost x + gone x } fun _ => 0 := by
  refine h.rebook hb.toAside ⟨fun x => ?_, fun x => Nat.zero_le _, fun x => Nat.le_add_right _ _,
    fun x => Nat.add_le_add_left (hgone x) _, hb.recyclable, fun hne => ?_⟩ hok (fun he => ?_)
    hcounts (fun x hx => ?_) (.inl hk)
  · have h1 := hb.sum x
    have h2 := hsum x
    omega
  · rw [hb.pool hne]
    exact h.saves.pool hne
  · refine ⟨(hex he).1, fun x => ?_⟩
    rw [h.exact (hex he).1 x, (hex he).2 x]
  · obtain ⟨h1, h2⟩ := hcursor x hx
    obtain ⟨h3, h4, h5, -⟩ := h.cursor x h1
    exact ⟨h3, h4, h5, h2⟩

end Core

end Chisel
