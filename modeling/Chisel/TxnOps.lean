import Chisel.TxnPrepare
import Chisel.TxnRead

/-! The operations of a transaction. Each one keeps the invariant, whether it returns or fails. One
that returns changes the version as it should; one that fails leaves the version, the roots and the
depths as they were, and frees nothing that is in use. -/

namespace Chisel

open StateError PageCache TransactionManager RadixTree Ledger

variable {word : Nat → Nat → Nat} {E : ChiselError → TransactionManager → Prop}
  {freed ifreed : List Nat} {root iroot nextHandle : Nat} {res : Option (Nat × List Nat)}
  {held' : Nat → Nat}

/-- An open transaction between two operations. -/
structure Txn (ex : Prop) (o : Origin) (m : TransactionManager) (g : Ghost) : Prop where
  core : Core ex o m g fun _ => 0
  tied : Tied m.currentRoots m.htDepth m.outerDepth g.cur

/-- The slots that no handle uses are apart from the others. The next value goes beside one only if
there is no table and no memory for one. -/
structure Tidy (m : TransactionManager) (g : Ghost) : Prop where
  clean : g.cur.Clean
  cursor : ∀ x, m.packer.insertCursor = some x → 0 < g.cur.stray x →
    g.cur.table = .nil ∧ ¬ m.cache.store.Fits

structure Aborted (ex : Prop) (o : Origin) (m : TransactionManager) (g : Ghost) (e : ChiselError)
    (m' : TransactionManager) (g' : Ghost) : Prop where
  core : Core (ex ∧ e.isHard = false) o m' g' fun _ => 0
  roots : SameRoots m m'
  went : Went m g m' g'
  poisoned : m'.poisoned = m.poisoned
  cur : ∃ more : Nat → Nat, g'.cur = g.cur.strayed fun x => g.cur.stray x + more x
  soft : e.isHard = false → g'.cur = g.cur
  freed : ∃ more, m'.txnFreedPages = m.txnFreedPages ++ more ∧
    ∀ x ∈ more, Writable true m.takeTree g.tree x
  streams : ∀ x, Writable true m'.takeTree g'.tree x → Writable true m.takeTree g.tree x
  tidy : e.isFatal = true ∨ (Tidy m g → Tidy m' g')

section Tidying

variable {ex : Prop} {o : Origin} {m m' : TransactionManager} {g g' : Ghost} {held : Nat → Nat}
  {x : Nat}

theorem Core.stray_of_writable (h : Core ex o m g held) (hx : Writable true m.takeTree g.tree x) :
    g.cur.stray x = 0 := by
  by_contra hne
  have hown : 0 < g.cur.own x := Version.own_pos_of_slots (by unfold Version.slots; omega)
  exact h.not_writable (by omega) hx

theorem Tidy.stray_eq_zero (ht : Tidy m g) (h : Core ex o m g held)
    (hfits : g.cur.table = .nil → m.cache.store.Fits)
    (hx : m.packer.insertCursor = some x ∨ Writable true m.takeTree g.tree x) :
    g.cur.stray x = 0 := by
  rcases hx with hx | hx
  · by_contra hne
    obtain ⟨hnil, hfull⟩ := ht.cursor x hx (Nat.pos_of_ne_zero hne)
    exact hfull (hfits hnil)
  · exact h.stray_of_writable hx

theorem Tidy.drawn (ht : Tidy m g) (h : Core ex o m g held) (hd : Drawn m g m' g')
    (hcur : g'.cur = g.cur) : Tidy m' g' := by
  refine ⟨hcur ▸ ht.clean, fun x hx hpos => ?_⟩
  rw [hcur] at hpos ⊢
  have hx' : m.packer.insertCursor = some x :=
    (hd.cursor x hx).resolve_right fun hw => by
      have h0 := h.stray_of_writable hw
      omega
  obtain ⟨hnil, hfull⟩ := ht.cursor x hx' hpos
  exact ⟨hnil, fun hf => hfull (hd.fits hf)⟩

end Tidying

section Aborting

variable {ex ex' : Prop} {o : Origin} {m m' : TransactionManager} {g g' : Ghost} {e : ChiselError}
  {held : Nat → Nat}

theorem PageCache.Exhausted.isHard {s : Store} (h : Exhausted e s) : e.isHard = true := by
  rcases h with ⟨h, -⟩ | ⟨rfl, -⟩
  · exact ChiselError.isHard_of_capacity h
  · rfl

theorem Core.weaken (h : Core ex o m g held) (hex : ex' → ex) : Core ex' o m g held :=
  { h with
    exact := fun he => h.exact (hex he)
    short := fun he => h.short (hex he)
    saves := { h.saves with
      below := fun i sp v hi hsp hv =>
        have hb := h.saves.below i sp v hi hsp hv
        { hb with exact := fun he => hb.exact (hex he) }
      full := fun sp hsp =>
        have hf := h.saves.full sp hsp
        ⟨hf.1, hf.2.1, fun he => hf.2.2 (hex he)⟩
      marks := fun he => h.saves.marks (hex he) } }

theorem Tied.strayed {roots : Roots} {d d' : Nat} {v : Version} (h : Tied roots d d' v)
    (stray : Nat → Nat) : Tied roots d d' (v.strayed stray) :=
  { h with }

theorem Aborted.txn (ha : Aborted ex o m g e m' g') (h : Txn ex o m g) :
    Txn (ex ∧ e.isHard = false) o m' g' := by
  obtain ⟨more, hcur⟩ := ha.cur
  refine ⟨ha.core, ?_⟩
  rw [hcur]
  exact (h.tied.same ha.roots).strayed _

theorem Aborted.of_drawn (h : Core ex o m g held)
    (hc : Core (ex ∧ e.isHard = false) o m' g' fun _ => 0) (hr : SameRoots m m')
    (hd : Drawn m g m' g') (hcur : g'.cur = g.cur) :
    Aborted ex o m g e m' g' :=
  ⟨hc, hr, hd.toWent, hd.poisoned, ⟨fun _ => 0, hcur⟩, fun _ => hcur,
    ⟨[], by rw [hd.freed, List.append_nil], nofun⟩, hd.streams, .inr fun ht => ht.drawn h hd hcur⟩

theorem Residue.aborted (h : Residue o m g m' g') (h0 : Core ex o m g held) (hr : SameRoots m m')
    (he : e.isHard = true) : Aborted ex o m g e m' g' := by
  refine .of_drawn h0 (h.core.weaken fun hx => ?_) hr h.drawn h.cur
  rw [he] at hx
  exact absurd hx.2 (by simp)

theorem Txn.refused (h : Txn ex o m g) (hl : Looked m m') : Aborted ex o m g e m' g := by
  obtain ⟨c, hc, rfl⟩ := hl
  refine .of_drawn h.core ((h.core.look hc).weaken And.left) ?_ (h.core.drawn_look hc) rfl
  exact ⟨⟨rfl, rfl, rfl⟩, rfl, rfl, rfl, rfl⟩

theorem Txn.shown (h : Txn ex o m g) : Shown m g.cur := by
  refine ⟨h.core.wf, h.core.next_le, h.core.cur, fun x hx => ?_, ?_⟩
  · exact (h.core.lt_next (by omega)).2
  · unfold readRoots
    rw [if_pos h.core.anchored.active]
    exact h.tied

theorem Txn.looked (h : Txn ex o m g) (hl : Looked m m') : Txn ex o m' g := by
  obtain ⟨c, hc, rfl⟩ := hl
  exact ⟨h.core.look hc, h.tied⟩

theorem Txn.drawn_looked (h : Txn ex o m g) (hl : Looked m m') : Drawn m g m' g := by
  obtain ⟨c, hc, rfl⟩ := hl
  exact h.core.drawn_look hc

theorem Looked.sameRoots (hl : Looked m m') : SameRoots m m' := by
  obtain ⟨c, hc, rfl⟩ := hl
  exact ⟨⟨rfl, rfl, rfl⟩, rfl, rfl, rfl, rfl⟩

theorem Took.looked {lent : Nat → Nat} (h : Took ex o m g held m' g' lent) {m2 : TransactionManager}
    (hl : Looked m' m2) : Took ex o m g held m2 g' lent := by
  obtain ⟨c, hc, rfl⟩ := hl
  exact { h with
    core := h.core.look hc
    drawn := h.drawn.trans (h.core.drawn_look hc)
    names := ⟨h.names.next, h.names.names, h.names.total⟩
    frame := fun x hx => (congrFun (congrArg Store.view hc.2) x).trans (h.frame x hx) }

theorem Refused.cause {soft : ChiselError → Prop} (h : Refused m soft e m') :
    Exhausted e m'.cache.store ∨ soft e := by
  rcases h.2 with hsoft | hfull
  · exact .inr hsoft
  · rw [h.1.store]
    exact .inl (.inl hfull)

theorem Aborted.after {m1 : TransactionManager} (h : Txn ex o m g) (hl : Looked m m1)
    (ha : Aborted ex o m1 g e m' g') : Aborted ex o m g e m' g' := by
  have hd := h.drawn_looked hl
  obtain ⟨more, hmore, hfrom⟩ := ha.freed
  refine ⟨ha.core, hl.sameRoots.trans ha.roots, hd.toWent.trans ha.went,
    ha.poisoned.trans hd.poisoned, ha.cur, ha.soft,
    ⟨more, ?_, fun x hx => hd.streams x (hfrom x hx)⟩, fun x hx => hd.streams x (ha.streams x hx),
    ha.tidy.imp_right fun htidy ht => htidy (ht.drawn h.core hd rfl)⟩
  rw [hmore, hd.freed]

end Aborting

/-! ### Taking back a stored value -/

section Unstore

variable {ex : Prop} {o : Origin} {m : TransactionManager} {g : Ghost} {v : Version}
  {e : HandleEntry}

def HandleEntry.inline (e : HandleEntry) : Option Nat :=
  if e.flags = .live then some e.pageId else none

theorem HandleEntry.slotAt_of_live (hf : e.flags = .live) (x : Nat) :
    e.slotAt x = one e.pageId x := if_pos hf

theorem HandleEntry.slotAt_of_not_live (hf : e.flags ≠ .live) (x : Nat) : e.slotAt x = 0 :=
  if_neg hf

/-- One slot of a page is given back; the page comes with it if it was the last one. -/
theorem Counts.released {p : SlotPacker} {n : Nat → Nat} {id : Nat}
    (h : Counts p.currentLiveSlots n) (hid : 0 < n id) :
    Counts (p.release id).1.currentLiveSlots (fun x => n x - one id x) ∧
      (∀ x, min 1 (n x - one id x) + (p.release id).2.toList.count x = min 1 (n x)) ∧
      (∀ x, (p.release id).1.insertCursor = some x → p.insertCursor = some x ∧
        (0 < n x → 0 < n x - one id x)) ∧
      ∀ x ∈ (p.release id).2.toList, x = id ∧ n x = 1 := by
  obtain ⟨hcounts, hfreed⟩ := h.release hid
  obtain ⟨-, hcur, hnot⟩ := p.release_fields id
  refine ⟨hcounts, fun x => ?_, fun x hx => ?_, fun x hx => ?_⟩
  · rw [hfreed]
    by_cases hone : n id = 1
    · rw [if_pos hone, Option.toList_some, count_singleton]
      by_cases hxid : id = x
      · subst hxid
        simp [hone]
      · rw [one_of_ne hxid]
        omega
    · rw [if_neg hone, Option.toList_none, List.count_nil]
      by_cases hxid : id = x
      · subst hxid
        simp only [one_self]
        omega
      · rw [one_of_ne hxid]
        omega
  · have hsame : p.insertCursor = some x := by
      rcases hcur with h1 | h1
      · rw [← h1]
        exact hx
      · rw [h1] at hx
        cases hx
    refine ⟨hsame, fun hpos => ?_⟩
    by_cases hxid : id = x
    · subst hxid
      simp only [one_self]
      by_cases hone : n id = 1
      · rw [if_pos hone] at hfreed
        exact absurd hx (hnot hfreed)
      · omega
    · rw [one_of_ne hxid]
      omega
  · rw [hfreed] at hx
    by_cases hone : n id = 1
    · rw [if_pos hone, Option.toList_some, List.mem_singleton] at hx
      subst hx
      exact ⟨rfl, hone⟩
    · rw [if_neg hone] at hx
      cases hx

/-- Giving back a slot changes the packer and the books alone. -/
theorem TransactionManager.releaseInline_none (m : TransactionManager) :
    m.releaseInline none = m := rfl

theorem TransactionManager.releaseInline_some (m : TransactionManager) (id : Nat) :
    m.releaseInline (some id) = m.releaseDataSlot id := rfl

theorem sameRoots_releaseInline (m : TransactionManager) (id : Option Nat) :
    SameRoots m (m.releaseInline id) := by
  cases id with
  | none => exact .refl m
  | some id => exact ⟨⟨rfl, rfl, rfl⟩, rfl, rfl, rfl, rfl⟩

theorem cache_releaseInline (m : TransactionManager) (id : Option Nat) :
    (m.releaseInline id).cache = m.cache := by
  cases id <;> rfl

theorem poisoned_releaseInline (m : TransactionManager) (id : Option Nat) :
    (m.releaseInline id).poisoned = m.poisoned := by
  cases id <;> rfl

theorem Version.strayed_of_not_live (hf : e.flags ≠ .live) :
    (v.strayed fun x => v.stray x + e.slotAt x) = v := by
  have hs : (fun x => v.stray x + e.slotAt x) = v.stray := by
    funext x
    rw [e.slotAt_of_not_live hf, Nat.add_zero]
  rw [hs]
  rfl

/-- Taking back the slot of a value that no handle uses yet. -/
theorem Core.unstore (h : Core ex o m g fun _ => 0)
    (hcur : g.cur = v.strayed fun x => v.stray x + e.slotAt x)
    (hk : g.stuck = m.savepoints.length) :
    Core ex o (m.releaseInline e.inline) { g with cur := v } (fun _ => 0) ∧
      Went m g (m.releaseInline e.inline) { g with cur := v } ∧
      (∃ more, (m.releaseInline e.inline).txnFreedPages = m.txnFreedPages ++ more ∧
        ∀ x ∈ more, e.flags = .live ∧ x = e.pageId ∧ v.slots x = 0) ∧
      (∀ x, (m.releaseInline e.inline).packer.insertCursor = some x →
        m.packer.insertCursor = some x) ∧
      ∀ x, Writable true (m.releaseInline e.inline).takeTree g.tree x →
        Writable true m.takeTree g.tree x := by
  by_cases hf : e.flags = .live
  · have hin : e.inline = some e.pageId := if_pos hf
    rw [hin, m.releaseInline_some]
    have hslots : ∀ x, g.cur.slots x = v.slots x + one e.pageId x := by
      intro x
      rw [hcur, Version.slots_strayed_add, e.slotAt_of_live hf]
    have hid : 0 < g.cur.slots e.pageId := by
      rw [hslots, one_self]
      exact Nat.succ_pos _
    obtain ⟨hcounts, hsum, hcursor, hmore⟩ := h.counts.released hid
    have hback : ∀ x, g.cur.slots x - one e.pageId x = v.slots x := by
      intro x
      rw [hslots]
      omega
    have hb := booked_releaseDataSlot e.pageId m
    have hv : v = g.cur.strayed v.stray := by
      rw [hcur]
      rfl
    refine ⟨?_, hb.toAside.went fun _ => rfl, ⟨_, rfl, fun x hx => ?_⟩,
      fun x hx => (hcursor x hx).1, fun x hx => hx⟩
    · refine h.book (fun _ => 0) hb (fun x => ?_) (fun _ => le_rfl) ?_
        (fun he => ⟨he, fun _ => rfl⟩) (hcounts.congr fun x => (hback x).symm) (fun x hx => ?_) hk
      · have h1 := Version.own_strayed_add v e.slotAt x
        have h2 := hsum x
        rw [← hcur, e.slotAt_of_live hf, ← hslots] at h1
        rw [hback] at h2
        omega
      · rw [hv]
        refine h.cur.strayed fun x hx => h.cur.stray_page x ?_
        rw [hcur]
        exact Nat.lt_of_lt_of_le hx (Nat.le_add_right _ _)
      · obtain ⟨h1, h2⟩ := hcursor x hx
        rw [← hback]
        exact ⟨h1, h2 (h.cursor x h1).2.2.2⟩
    · obtain ⟨rfl, h1⟩ := hmore x hx
      rw [hslots, one_self] at h1
      exact ⟨hf, rfl, by omega⟩
  · have hin : e.inline = none := if_neg hf
    rw [hin, m.releaseInline_none]
    rw [Version.strayed_of_not_live hf] at hcur
    have hg : { g with cur := v } = g := by rw [← hcur]
    rw [hg]
    exact ⟨h, .refl m g, ⟨[], (List.append_nil _).symm, nofun⟩, fun x hx => hx, fun x hx => hx⟩

end Unstore

/-! ### Failing after a value was stored -/

section Unstored

variable {ex : Prop} {o : Origin} {m m1 m2 : TransactionManager} {g g1 g2 : Ghost} {value : Bytes}
  {tag : Nat} {byte : UInt8} {e : HandleEntry} {inline : Option Nat} {ids : List Nat}
  {err : ChiselError}

/-- The value stays where it is; its slot counts as in use. This happens only as long as there are
no handles. -/
theorem StoredAt.leaked (hs : StoredAt ex o m g (fun _ => 0) value tag byte e inline ids m1 g1)
    (hr : Residue o m1 g1 m2 g2) (hroots : SameRoots m1 m2) (hnil : g.cur.table = .nil)
    (hfull : Exhausted err m2.cache.store) : Aborted ex o m g err m2 g2 := by
  have hd := hs.drawn.trans hr.drawn
  have he := hfull.isHard
  have hnil2 : g2.cur.table = .nil := by
    rw [hr.cur, hs.cur]
    exact hnil
  have htidy : err.isFatal = true ∨ Tidy m2 g2 := by
    rcases hfull with ⟨-, hfull⟩ | ⟨rfl, -⟩
    · exact .inr ⟨Version.clean_of_nil hnil2, fun _ _ _ => ⟨hnil2, hfull⟩⟩
    · exact .inl rfl
  refine ⟨hr.core.weaken fun hx => ?_, hs.roots.trans hroots, hd.toWent, hd.poisoned,
    ⟨e.slotAt, hr.cur.trans hs.cur⟩, fun hx => absurd (he.symm.trans hx) (by simp),
    ⟨[], by rw [hd.freed, List.append_nil], nofun⟩, hd.streams, htidy.imp_right fun ht _ => ht⟩
  rw [he] at hx
  exact absurd hx.2 (by simp)

theorem StoredAt.unstored (h : Core ex o m g fun _ => 0)
    (hs : StoredAt ex o m g (fun _ => 0) value tag byte e inline ids m1 g1)
    (hr : Residue o m1 g1 m2 g2) (hroots : SameRoots m m2) (he : err.isHard = true) :
    ∃ g3, Aborted ex o m g err (m2.releaseInline inline) g3 := by
  have hd := hs.drawn.trans hr.drawn
  have hk : g2.stuck = m2.savepoints.length := by
    rw [hd.stuck, hd.savepoints]
    exact hs.room
  obtain ⟨hcore, hwent, ⟨more, hmore, hfrom⟩, hcursor, hstreams⟩ :=
    hr.core.unstore (hr.cur.trans hs.cur) hk
  have hin : inline = e.inline := hs.inline
  rw [hin]
  refine ⟨{ g2 with cur := g.cur }, hcore.weaken fun hx => ?_,
    hroots.trans (sameRoots_releaseInline _ _), hd.toWent.trans hwent,
    (poisoned_releaseInline _ _).trans hd.poisoned, ⟨fun _ => 0, rfl⟩, fun _ => rfl,
    ⟨more, ?_, fun x hx => ?_⟩, fun x hx => hd.streams x (hstreams x hx),
    .inr fun ht => ⟨ht.clean, fun x hx hpos => ?_⟩⟩
  · rw [he] at hx
    exact absurd hx.2 (by simp)
  · rw [hmore, hd.freed]
  · obtain ⟨hf, rfl, h0⟩ := hfrom x hx
    rcases hs.lands hf with ⟨-, h1⟩ | ⟨-, h1⟩
    · have := (h.cursor _ h1).2.2.2
      omega
    · exact h1
  · rw [cache_releaseInline]
    rcases hd.cursor x (hcursor x hx) with h1 | h1
    · obtain ⟨hnil, hfull⟩ := ht.cursor x h1 hpos
      exact ⟨hnil, fun hf => hfull (hd.fits hf)⟩
    · exact absurd (h.stray_of_writable h1) (Nat.ne_of_gt hpos)

end Unstored

/-! ### Installing a new entry -/

namespace Version

variable {v : Version} {x : Nat}

theorem own_strayed_eq (v : Version) (f : Nat → Nat) (x : Nat) :
    (v.strayed fun x => v.stray x + f x).own x = v.table.count handleLayout.shape x +
      v.index.count x + min 1 (v.slots x + f x) + v.chained x := by
  have h1 := own_strayed_add v f x
  unfold own at *
  omega

end Version

/-- The roots of the manager after an operation lead to the new version. -/
structure Installed (m m' : TransactionManager) (table : PageTree HandleEntry)
    (index : Index) : Prop where
  table : RootedAt m'.currentRoots.handleTablePage table
  index : RootedAt m'.currentRoots.membershipIndexPage index.outer
  htDepth : m'.htDepth = m.htDepth
  outerDepth : m'.outerDepth = m.outerDepth
  next_le : m'.currentRoots.nextHandle ≤ maxNextHandle

/-! ### Contents -/

namespace Version

/-- What a version stores: value, tag and client byte of each live handle. -/
def content (v : Version) (handle : Nat) : Option (Bytes × Nat × UInt8) :=
  if handle ∈ v.live then
    some (v.value handle, (v.entry handle).tag, (v.entry handle).clientByte)
  else none

variable {v : Version} {handle depth outerDepth : Nat} {value : Bytes} {ids : List Nat}
  {e : HandleEntry} {table : PageTree HandleEntry} {index : Index}

theorem content_put (hs : v.Stores handle e depth table) :
    (v.put handle value ids depth table outerDepth index).content =
      Function.update v.content handle (some (value, e.tag, e.clientByte)) := by
  funext k
  unfold content
  rw [entry_put hs]
  by_cases hk : k = handle
  · subst hk
    simp [put]
  · simp [put, hk]

theorem content_remove (hs : v.Stores handle e depth table) :
    (v.remove handle depth table outerDepth index).content =
      Function.update v.content handle none := by
  funext k
  unfold content
  rw [entry_remove hs]
  by_cases hk : k = handle
  · subst hk
    simp [remove]
  · simp [remove, hk]

theorem content_strayed (v : Version) (stray : Nat → Nat) :
    (v.strayed stray).content = v.content := rfl

end Version

/-- One handle has the new entry `e` and shows `c`; no slot became stray. -/
structure Became (m : TransactionManager) (g : Ghost) (m' : TransactionManager) (g' : Ghost)
    (handle : Nat) (e : HandleEntry) (c : Option (Bytes × Nat × UInt8)) : Prop extends
    Went m g m' g' where
  poisoned : m'.poisoned = m.poisoned
  content : g'.cur.content = Function.update g.cur.content handle c
  entry : g'.cur.entry = Function.update g.cur.entry handle e
  stray : g'.cur.stray = g.cur.stray
  tidy : Tidy m g → Tidy m' g'

section Entries

variable {ex : Prop} {o : Origin} {m m' : TransactionManager} {g g' : Ghost} {held : Nat → Nat}
  {handle : Nat} {e : HandleEntry}

theorem Tidy.next (ht : Tidy m g) (h : Core ex o m g held)
    (hfits : g.cur.table = .nil → m.cache.store.Fits)
    (hentry : g'.cur.entry = Function.update g.cur.entry handle e)
    (hstray : g'.cur.stray = g.cur.stray) (hslot : ∀ x, 0 < g.cur.stray x → e.slotAt x = 0)
    (hcursor : ∀ x, m'.packer.insertCursor = some x → m.packer.insertCursor = some x ∨
      Writable true m.takeTree g.tree x) : Tidy m' g' := by
  refine ⟨fun x hx k => ?_, fun x hx hpos => ?_⟩
  · rw [hstray] at hx
    rw [hentry]
    by_cases hk : k = handle
    · rw [hk, Function.update_self]
      exact hslot x hx
    · rw [Function.update_of_ne hk]
      exact ht.clean x hx k
  · rw [hstray, ht.stray_eq_zero h hfits (hcursor x hx)] at hpos
    exact absurd hpos (Nat.lt_irrefl 0)

theorem StoredAt.slot_clean {value : Bytes} {tag : Nat} {byte : UInt8} {inline : Option Nat}
    {ids : List Nat} (hs : StoredAt ex o m g held value tag byte e inline ids m' g')
    (h : Core ex o m g held) (ht : Tidy m g) (hfits : g.cur.table = .nil → m.cache.store.Fits)
    (x : Nat) (hx : 0 < g.cur.stray x) : e.slotAt x = 0 := by
  by_cases hf : e.flags = .live
  · rw [e.slotAt_of_live hf]
    refine one_of_ne fun hid => ?_
    subst hid
    have h0 := ht.stray_eq_zero h hfits ((hs.lands hf).imp And.right And.right)
    omega
  · exact e.slotAt_of_not_live hf x

theorem Became.after {m1 : TransactionManager} {c : Option (Bytes × Nat × UInt8)} (h : Txn ex o m g)
    (hl : Looked m m1) (hb : Became m1 g m' g' handle e c) : Became m g m' g' handle e c :=
  have hd := h.drawn_looked hl
  ⟨hd.toWent.trans hb.toWent, hb.poisoned.trans hd.poisoned, hb.content, hb.entry, hb.stray,
    fun ht => hb.tidy (ht.drawn h.core hd rfl)⟩

/-- The end of an operation that gave one handle a new entry. -/
theorem Txn.became {m1 : TransactionManager} {g1 : Ghost} {added : Nat → Nat} {v : Version}
    {c : Option (Bytes × Nat × UInt8)} (h : Txn ex o m g) (h1 : Core ex o m1 g1 held)
    (hd : Drawn m g m1 g1) (hk : g.stuck = m.savepoints.length) (hok : v.Ok m1.cache.store.view)
    (hb : Booked m1 m' added) (hsum : ∀ x, v.own x + added x = g1.cur.own x + held x)
    (hcounts : Counts m'.packer.currentLiveSlots v.slots)
    (hcursor : ∀ x, m'.packer.insertCursor = some x →
      m1.packer.insertCursor = some x ∧ 0 < v.slots x)
    (htied : Tied m'.currentRoots m'.htDepth m'.outerDepth v)
    (hfits : g.cur.table = .nil → m.cache.store.Fits)
    (hcontent : v.content = Function.update g.cur.content handle c)
    (hentry : v.entry = Function.update g.cur.entry handle e) (hstray : v.stray = g.cur.stray)
    (hslot : Tidy m g → ∀ x, 0 < g.cur.stray x → e.slotAt x = 0) :
    Txn ex o m' { g1 with cur := v } ∧ Became m g m' { g1 with cur := v } handle e c := by
  refine ⟨⟨h1.book (fun _ => 0) hb hsum (fun _ => Nat.zero_le _) hok (fun he => ⟨he, fun _ => rfl⟩)
    hcounts hcursor ?_, htied⟩, hd.toWent.trans (hb.toAside.went hb.pool),
    hb.poisoned.trans hd.poisoned, hcontent, hentry, hstray, fun htidy => ?_⟩
  · rw [hd.stuck, hd.savepoints]
    exact hk
  · exact htidy.next h.core hfits hentry hstray (hslot htidy)
      fun x hx => hd.cursor x (hcursor x hx).1

end Entries

/-! ### Allocation -/

section Membership

variable {ex : Prop} {o : Origin} {m : TransactionManager} {g : Ghost} {held : Nat → Nat}
  {tag handle : Nat}

/-- A change of the index that an operation may skip. -/
structure IndexStep (ex : Prop) (o : Origin) (m : TransactionManager) (g : Ghost)
    (held : Nat → Nat) (word : Nat → Nat → Nat) (res : Option (Nat × List Nat))
    (m' : TransactionManager) (g' : Ghost) (lent : Nat → Nat) (index : Index) (root : Nat)
    (freed : List Nat) : Prop where
  next : IndexNext ex o m g held root freed word m' g' lent index
  skipped : res = none → root = m'.currentRoots.membershipIndexPage ∧ freed = []
  taken : ∀ p, res = some p → p = (root, freed)

theorem Core.indexStep_none (h : Core ex o m g held)
    (hroot : RootedAt m.currentRoots.membershipIndexPage g.cur.index.outer)
    (hdepth : m.outerDepth = g.cur.outerDepth) (hw : g.cur.index.word = word) :
    IndexStep ex o m g held word none m g (fun _ => 0) g.cur.index
      m.currentRoots.membershipIndexPage [] := by
  refine ⟨⟨.refl h, ?_, hroot, hw, fun _ => rfl, rfl, rfl⟩, fun _ => ⟨rfl, rfl⟩, nofun⟩
  rw [hdepth]
  exact h.cur.index

/-- The words of the index after an insertion. -/
def tagged (g : Index) (tag handle value : Nat) (τ k : Nat) : Nat :=
  if tag ≠ 0 ∧ τ = tag ∧ k = handle then value else g.word τ k

theorem Version.Ok.retags_new {v : Version} {view : Nat → Option Page} (h : v.Ok view)
    (hdead : handle ∉ v.live) {e : HandleEntry} {index : Index}
    (hw : index.word = tagged v.index e.tag handle 1) : v.Retags handle True e index := by
  intro τ k
  rw [hw, tagged]
  by_cases hk : k = handle
  · subst hk
    have h0 : v.index.word τ k = 0 := by
      rw [h.tags, if_neg fun hc => hdead hc.1]
    rw [if_pos rfl, h0]
    by_cases he : e.tag = τ
    · subst he
      simp
    · have he' : ¬ τ = e.tag := fun hc => he hc.symm
      simp [he, he']
  · simp [hk]

theorem Version.Ok.retags_gone {v : Version} {view : Nat → Option Page} (h : v.Ok view)
    {index : Index} (hw : index.word = tagged v.index (v.entry handle).tag handle 0) :
    v.Retags handle False .tombstone index := by
  intro τ k
  rw [hw, tagged]
  by_cases hk : k = handle
  · subst hk
    rw [if_pos rfl, h.tags]
    by_cases he : (v.entry k).tag = τ
    · subst he
      simp +contextual
    · simp [he]
  · simp [hk]

theorem Core.wp_insertTag (h : Core ex o m g held) (hk : g.stuck = m.savepoints.length)
    (hroot : RootedAt m.currentRoots.membershipIndexPage g.cur.index.outer)
    (hdepth : m.outerDepth = g.cur.outerDepth) (htag : tag ≤ u64Max) (hhandle : handle ≤ u64Max)
    (abort : TransactionManager → TransactionManager) :
    wp (if tag ≠ 0 then
        some <$> onError (membershipInsertCandidate tag handle) abort
      else pure none) m
      (fun res m' => ∃ g' lent index root freed, IndexStep ex o m g held
        (tagged g.cur.index tag handle 1) res m' g' lent index root freed)
      (fun e m' => ∃ m2 g2, Exhausted e m2.cache.store ∧ SameRoots m m2 ∧ Residue o m g m2 g2 ∧
        m' = abort m2) := by
  refine wp_ite (fun ht => ?_) fun ht => ?_
  · rw [wp_map, wp_onError]
    refine wp_mono (h.wp_membershipInsertCandidate hk hroot hdepth htag hhandle) ?_ ?_
    · rintro ⟨root, freed⟩ m' ⟨g', lent, index, hn⟩
      refine ⟨g', lent, index, root, freed, { hn with word := ?_ }, nofun, fun p hp => ?_⟩
      · rw [hn.word]
        funext τ k
        simp only [tagged, ht, ne_eq, not_false_eq_true, true_and]
      · exact (Option.some.inj hp).symm
    · rintro e m2 ⟨he, hr, g2, hres⟩
      exact ⟨m2, g2, he, hr, hres, rfl⟩
  · refine wp_ret ⟨g, fun _ => 0, g.cur.index, _, [], h.indexStep_none hroot hdepth ?_⟩
    funext τ k
    simp only [tagged, ht, false_and, if_false]

end Membership

section Allocate

variable {ex : Prop} {o : Origin} {m m1 m2 m3 m4 m' : TransactionManager} {g g1 g2 g3 g4 : Ghost}
  {value : Bytes} {tag handle : Nat} {byte : UInt8} {e : HandleEntry} {inline : Option Nat}
  {ids : List Nat} {err : ChiselError} {lent : Nat → Nat}

theorem wp_requireActive (ha : m.activeTxn = true) {Q : Unit → TransactionManager → Prop} :
    wp requireActive m Q E ↔ Q () m := by
  simp only [requireActive, wp_bind, wp_get, ha]
  exact wp_pure ()

theorem wp_liftExcept {α : Type} {x : Except ChiselError α} {Q : α → TransactionManager → Prop}
    (hok : ∀ a, x = .ok a → Q a m)
    (herr : ∀ e, x = .error e → E e m) : wp (TransactionManager.liftExcept x) m Q E := by
  cases x with
  | ok a => exact wp_ret (hok a rfl)
  | error e => exact wp_fail (herr e rfl)

theorem nextHandleAfter_ok {n n' : Nat} (h : nextHandleAfter n = .ok n') :
    n' = n + 1 ∧ n' ≤ maxNextHandle := by
  have hmax : maxNextHandle < u64Max := by decide
  unfold nextHandleAfter satAdd at h
  dsimp only at h
  split at h
  · cases h
  next hle =>
    obtain rfl := Except.ok.inj h
    omega

theorem nextHandleAfter_error {n : Nat} {e : ChiselError} (h : nextHandleAfter n = .error e) :
    ∃ n, e = .handleSpaceExhausted n := by
  unfold nextHandleAfter at h
  dsimp only at h
  split at h
  · exact ⟨n, (Except.error.inj h).symm⟩
  · cases h

/-- `abort_allocate_prepare` takes everything back. -/
theorem StoredAt.aborted_prepare (h : Core ex o m g fun _ => 0)
    (hs : StoredAt ex o m g (fun _ => 0) value tag byte e inline ids m1 g1)
    (hr : Residue o m1 g1 m2 g2) (hn : SameNames m1 m2)
    (hidx : m2.currentRoots.membershipIndexPage = m1.currentRoots.membershipIndexPage)
    (hod : m2.outerDepth = m1.outerDepth) (he : err.isHard = true) :
    ∃ g', Aborted ex o m g err (m2.abortAllocatePrepare m1.currentRoots.handleTablePage
      m1.htDepth inline) g' := by
  unfold abortAllocatePrepare
  have hr' : Residue o m1 g1 { m2 with
      currentRoots.handleTablePage := m1.currentRoots.handleTablePage, htDepth := m1.htDepth } g2 :=
    ⟨hr.core.reroot rfl rfl, hr.cur, hr.drawn.trans (drawn_reroot rfl rfl)⟩
  have hsame : SameRoots m1 { m2 with
      currentRoots.handleTablePage := m1.currentRoots.handleTablePage, htDepth := m1.htDepth } :=
    ⟨⟨hn.next, hn.names, hn.total⟩, rfl, hidx, rfl, hod⟩
  exact hs.unstored h hr' (hs.roots.trans hsame) he

theorem cache_abortAllocatePrepare (m : TransactionManager) (root depth : Nat)
    (inline : Option Nat) :
    (m.abortAllocatePrepare root depth inline).cache = m.cache := cache_releaseInline _ _

theorem booked_retire_roots {roots : Roots} (hp : roots.freemapPage = m.currentRoots.freemapPage)
    (hd : roots.freemapDepth = m.currentRoots.freemapDepth) :
    Booked m (retireSuperseded freed { m with currentRoots := roots })
      fun x => freed.count x := by
  have h1 : Booked m { m with currentRoots := roots } fun _ => 0 := booked_roots hp hd
  have h2 := h1.trans (booked_retire freed { m with currentRoots := roots })
  simp only [Nat.zero_add] at h2
  exact h2

def finishAllocate (nextHandle root : Nat) (freed : List Nat)
    (membership : Option (Nat × List Nat)) (m : TransactionManager) : TransactionManager :=
  let m1 := retireSuperseded freed
    { m with currentRoots.nextHandle := nextHandle, currentRoots.handleTablePage := root }
  match membership with
  | none => m1
  | some p =>
    retireSuperseded p.2 { m1 with currentRoots.membershipIndexPage := p.1 }

theorem booked_finishAllocate {held : Nat → Nat} {index : Index}
    (hstep : IndexStep ex o m g held word res m' g1 lent index iroot ifreed) :
    Booked m' (finishAllocate nextHandle root freed res m')
      fun x => freed.count x + ifreed.count x := by
  have h1 : Booked m' (retireSuperseded freed { m' with
      currentRoots.nextHandle := nextHandle, currentRoots.handleTablePage := root })
      fun x => freed.count x := booked_retire_roots rfl rfl
  cases res with
  | none =>
    rw [(hstep.skipped rfl).2]
    exact h1
  | some p =>
    rw [hstep.taken p rfl]
    exact h1.trans (booked_retire_roots rfl rfl)

theorem installed_finishAllocate {held : Nat → Nat} {index : Index} {table : PageTree HandleEntry}
    (hstep : IndexStep ex o m g held word res m' g1 lent index iroot ifreed)
    (hroot : root = table.root) (hne : table ≠ .nil) (hnext : nextHandle ≤ maxNextHandle) :
    Installed m' (finishAllocate nextHandle root freed res m') table index := by
  have htable : RootedAt root table := ⟨fun hnil => absurd hnil hne, fun _ => hroot⟩
  have hidx := hstep.next.rooted
  cases res with
  | none =>
    rw [(hstep.skipped rfl).1] at hidx
    exact ⟨htable, hidx, rfl, rfl, hnext⟩
  | some p =>
    rw [hstep.taken p rfl]
    exact ⟨htable, hidx, rfl, rfl, hnext⟩

theorem TableIn.took {held : Nat → Nat} {table : PageTree HandleEntry} {d : Nat}
    (ht : TableIn m.cache.store.view d table) (hk : Took ex o m g held m' g1 lent)
    (hle : ∀ x, table.count handleLayout.shape x ≤ g.cur.own x + held x) :
    TableIn m'.cache.store.view d table :=
  ht.frame fun x hx => hk.frame x (hx.trans_le (hle x))

/-- The version as it was before the value was stored is still there. -/
theorem StoredAt.kept {held : Nat → Nat}
    (hs : StoredAt ex o m g held value tag byte e inline ids m1 g1)
    (hk : Took ex o m1 g1 held' m3 g3 lent) : g.cur.Ok m3.cache.store.view := by
  have hok := hk.core.cur
  rw [hk.cur, hs.cur] at hok
  exact hok.strayed fun x hx => hok.stray_page x (Nat.lt_of_lt_of_le hx (Nat.le_add_right _ _))

theorem StoredAt.slots_took {held : Nat → Nat}
    (hs : StoredAt ex o m g held value tag byte e inline ids m1 g1)
    (hk : Took ex o m1 g1 held' m3 g3 lent) (x : Nat) :
    g3.cur.slots x = g.cur.slots x + e.slotAt x := by
  rw [hk.cur, hs.cur, Version.slots_strayed_add]

theorem StoredAt.own_took {held : Nat → Nat}
    (hs : StoredAt ex o m g held value tag byte e inline ids m1 g1)
    (hk : Took ex o m1 g1 held' m3 g3 lent) (x : Nat) :
    g3.cur.own x = g.cur.table.count handleLayout.shape x + g.cur.index.count x +
      min 1 (g.cur.slots x + e.slotAt x) + g.cur.chained x := by
  rw [hk.cur, hs.cur, Version.own_strayed_eq]

theorem StoredAt.placed_took
    (hs : StoredAt ex o m g (fun _ => 0) value tag byte e inline ids m1 g1)
    (hk : Took ex o m1 g1 (fun x => 0 + ids.count x) m3 g3 lent) :
    Placed m3.cache.store.view e value ids := by
  refine hs.placed.frame (fun hf => hk.frame _ ?_) fun x hx => hk.frame x ?_
  · rw [hs.cur, Version.own_strayed_eq, e.slotAt_of_live hf, one_self]
    omega
  · have := count_pos.mpr hx
    omega

theorem StoredAt.stores_took {held : Nat → Nat} {table : PageTree HandleEntry}
    (hs : StoredAt ex o m g held value tag byte e inline ids m1 g1)
    (hk : Took ex o m1 g1 held' m3 g3 lent) (ht : TableNext m3 g3 handle e root table) :
    g.cur.Stores handle e m3.htDepth table := by
  have h1 := ht.stores
  rw [hk.cur, hs.cur] at h1
  exact h1

theorem StoredAt.finish_allocate {extra lent' : Nat → Nat} {table : PageTree HandleEntry}
    {index : Index}
    (h : Txn ex o m g) (hnew : m.currentRoots.nextHandle + 1 ≤ maxNextHandle) (htag : tag ≤ u64Max)
    (hfits : g.cur.table = .nil → m.cache.store.Fits)
    (hs : StoredAt ex o m g (fun _ => 0) value tag byte e inline ids m1 g1)
    (h₂ : Took ex o m1 g1 (fun x => 0 + ids.count x) m3 g3 fun x => extra x + lent x)
    (ht : TableNext m3 g3 m.currentRoots.nextHandle e root table)
    (hcount : ∀ x, table.count handleLayout.shape x + freed.count x =
      g.cur.table.count handleLayout.shape x + extra x + lent x)
    (hi : IndexStep ex o m3 g3 (fun x => 0 + ids.count x + (extra x + lent x))
      (tagged g.cur.index tag m.currentRoots.nextHandle 1) res m4 g4 lent' index iroot ifreed) :
    ∃ g', Txn ex o (finishAllocate (m.currentRoots.nextHandle + 1) root freed res m4) g' ∧
      Became m g (finishAllocate (m.currentRoots.nextHandle + 1) root freed res m4) g'
        m.currentRoots.nextHandle e (some (value, tag, byte)) := by
  set handle := m.currentRoots.nextHandle with hhandle
  have hdead : handle ∉ g.cur.live := fun hin => Nat.lt_irrefl _ (h.tied.fresh handle hin)
  have htook := h₂.trans hi.next.took
  have hd := hs.drawn.trans htook.drawn
  have hv := hs.kept htook
  have htable : TableIn m4.cache.store.view m4.htDepth table := by
    rw [hi.next.htDepth]
    refine ht.here.took hi.next.took fun x => ?_
    have h1 := hcount x
    rw [hs.own_took h₂]
    omega
  have hstores : g.cur.Stores handle e m4.htDepth table := by
    rw [hi.next.htDepth]
    exact hs.stores_took h₂ ht
  have hwords : g.cur.Retags handle True e index := by
    refine h.core.cur.retags_new hdead ?_
    rw [hs.tag]
    exact hi.next.word
  set put := g.cur.put handle value ids m4.htDepth table m4.outerDepth index with hput
  set m' := finishAllocate (handle + 1) root freed res m4 with hm'
  have hslots : ∀ x, put.slots x = g.cur.slots x + e.slotAt x := by
    intro x
    have h1 : put.slots x + (g.cur.entry handle).slotAt x = g.cur.slots x + e.slotAt x :=
      Version.slots_put h.core.cur hstores x
    rw [h.core.cur.slotAt_eq_zero hdead] at h1
    exact h1
  have hb : Booked m4 m' fun x => freed.count x + ifreed.count x := booked_finishAllocate hi
  have hsum : ∀ x, put.own x + (freed.count x + ifreed.count x) =
      g4.cur.own x + (0 + ids.count x + (extra x + lent x + lent' x)) := by
    intro x
    have h1 : put.own x + _ = _ := Version.own_put h.core.cur hstores x
    rw [h.core.cur.chain_nil handle hdead, List.count_nil, h.core.cur.slotAt_eq_zero hdead] at h1
    have h2 := hcount x
    have h3 := hi.next.count x
    rw [h₂.cur, hs.cur] at h3
    change _ = g.cur.index.count x + _ at h3
    rw [hs.own_took htook]
    omega
  have hpacker : m'.packer = m4.packer := by
    cases res <;> rfl
  have hnext : m'.currentRoots.nextHandle = handle + 1 := by
    cases res <;> rfl
  have hcounts : Counts m'.packer.currentLiveSlots put.slots := by
    rw [hpacker]
    refine htook.core.counts.congr fun x => ?_
    rw [hslots, hs.slots_took htook]
  have hcursor : ∀ x, m'.packer.insertCursor = some x →
      m4.packer.insertCursor = some x ∧ 0 < put.slots x := by
    intro x hx
    rw [hpacker] at hx
    rw [hslots, ← hs.slots_took htook]
    exact ⟨hx, (htook.core.cursor x hx).2.2.2⟩
  have hfresh : ∀ k ∈ insert handle g.cur.live, k < m'.currentRoots.nextHandle := by
    intro k hk
    rw [hnext]
    rcases Finset.mem_insert.mp hk with rfl | hin
    · exact Nat.lt_succ_self _
    · exact Nat.lt_succ_of_lt (h.tied.fresh k hin)
  have hins : Installed m4 m' table index := installed_finishAllocate hi ht.root ht.ne_nil hnew
  refine ⟨_, h.became htook.core hd hs.room (hv.put hstores htable hi.next.here
    (hs.placed_took htook) (hs.tag ▸ htag) hwords fun hf => hs.free hf
    handle) hb hsum hcounts hcursor
    ⟨hins.table, hins.index, hins.htDepth, hins.outerDepth, hfresh, hins.next_le⟩ hfits ?_
    (Version.entry_put hstores) rfl fun htidy => hs.slot_clean h.core htidy hfits⟩
  rw [Version.content_put hstores, hs.tag, hs.byte]

theorem wp_finishAllocate {Q : Nat → TransactionManager → Prop}
    (hQ : Q handle (finishAllocate nextHandle root freed res m)) :
    wp (do
      modify fun m => retireSuperseded freed
        { m with currentRoots.nextHandle := nextHandle, currentRoots.handleTablePage := root }
      match res with
      | none => return handle
      | some (miRoot, miFreed) =>
        modify fun m => retireSuperseded miFreed
          { m with currentRoots.membershipIndexPage := miRoot }
        return handle : TxnM Nat) m Q E := by
  rw [wp_bind, wp_modify]
  cases res with
  | none => exact wp_ret hQ
  | some p =>
    rw [wp_bind, wp_modify]
    exact wp_ret hQ

theorem Txn.wp_allocateInner (h : Txn ex o m g) (htag : tag ≤ u64Max) :
    wp (allocateInner value tag) m
      (fun handle m' => handle = m.currentRoots.nextHandle ∧
        m'.currentRoots.nextHandle = handle + 1 ∧
        m'.currentRoots.namedRoots = m.currentRoots.namedRoots ∧
        ∃ g' e, Txn ex o m' g' ∧ Became m g m' g' handle e (some (value, tag, 0)))
      (fun e m' => (Exhausted e m'.cache.store ∨ ∃ n, e = .handleSpaceExhausted n) ∧
        ∃ g', Aborted ex o m g e m' g') := by
  unfold allocateInner
  rw [wp_bind, wp_requireActive h.core.anchored.active]
  simp only [wp_bind, wp_get]
  have hself : Looked m m := h.shown.refl_looked
  refine wp_liftExcept (fun n hn => ?_) fun e he =>
    ⟨.inr (nextHandleAfter_error he), g, h.refused hself⟩
  obtain ⟨rfl, hnew⟩ := nextHandleAfter_ok hn
  have hhandle : m.currentRoots.nextHandle ≤ u64Max := h.tied.next_le.trans (by decide)
  refine wp_mono h.core.wp_storeValue ?_ fun e m1 he => ?_
  rotate_left
  · obtain ⟨hard, hroots, g1, hres⟩ := he
    exact ⟨.inl hard, g1, hres.aborted h.core hroots hard.isHard⟩
  rintro ⟨e, inline⟩ m1 ⟨ids, g1, hs⟩
  dsimp only
  have htied1 : Tied m1.currentRoots m1.htDepth m1.outerDepth g1.cur := by
    rw [hs.cur]
    exact (h.tied.same hs.roots).strayed _
  refine wp_mono (hs.core.wp_ensureHandleTable htied1) ?_ fun e m2 he => ?_
  rotate_left
  · obtain ⟨hnil, hard, hroots, g2, hres⟩ := he
    rw [hs.cur] at hnil
    exact ⟨.inl hard, g2, hs.leaked hres hroots hnil hard⟩
  rintro - m2 ⟨hfits1, g2, extra, sub, h₂, hopen, hidx2, hod2⟩
  have hfits : g.cur.table = .nil → m.cache.store.Fits := fun hnil =>
    hs.drawn.fits (hfits1 (by rw [hs.cur]; exact hnil))
  rw [wp_onError]
  refine wp_mono (h₂.core.wp_handleTableInsertCandidate hopen hhandle) ?_ fun e m3 he => ?_
  rotate_left
  · obtain ⟨hard, hroots, g3, hres⟩ := he
    refine ⟨.inl ?_, hs.aborted_prepare h.core (hres.after h₂.cur h₂.drawn)
      (h₂.names.trans hroots.toSameNames) (hroots.index.trans hidx2)
      (hroots.outerDepth.trans hod2) hard.isHard⟩
    rw [cache_abortAllocatePrepare]
    exact hard
  rintro ⟨root, freed⟩ m3 ⟨g3, lent, table, h₃, -, hnext, hcount, -, hidx3, hod3⟩
  dsimp only
  have h23 := h₂.trans h₃
  have hk : g3.stuck = m3.savepoints.length := by
    rw [h23.drawn.stuck, h23.drawn.savepoints, hs.drawn.stuck, hs.drawn.savepoints]
    exact hs.room
  have hcur3 : g3.cur.index = g.cur.index := by
    rw [h23.cur, hs.cur]
    rfl
  have hroot3 : RootedAt m3.currentRoots.membershipIndexPage g3.cur.index.outer := by
    rw [hidx3, hidx2, h23.cur]
    exact htied1.index
  have hdepth3 : m3.outerDepth = g3.cur.outerDepth := by
    rw [hod3, hod2, h23.cur]
    exact htied1.outer
  rw [ite_bind, wp_bind]
  refine wp_mono (h₃.core.wp_insertTag hk hroot3 hdepth3 htag hhandle _) ?_ fun e m4 he => ?_
  rotate_left
  · obtain ⟨m4, g4, hard, hroots, hres, rfl⟩ := he
    refine ⟨.inl ?_, hs.aborted_prepare h.core (hres.after h23.cur h23.drawn)
      (h23.names.trans hroots.toSameNames) ((hroots.index.trans hidx3).trans hidx2)
      ((hroots.outerDepth.trans hod3).trans hod2) hard.isHard⟩
    rw [cache_abortAllocatePrepare]
    exact hard
  rintro res m4 ⟨g4, lent', index, iroot, ifreed, hstep⟩
  apply wp_finishAllocate
  have hcount' : ∀ x, table.count handleLayout.shape x + freed.count x =
      g.cur.table.count handleLayout.shape x + extra x + lent x := by
    intro x
    have h1 := hcount x
    rw [h₂.cur, hs.cur] at h1
    exact h1
  have hheld : (fun x => 0 + ids.count x + extra x + lent x) =
      fun x => 0 + ids.count x + (extra x + lent x) := by
    funext x
    omega
  rw [hheld, hcur3] at hstep
  obtain ⟨g', htxn, hbecame⟩ := hs.finish_allocate h hnew htag hfits h23 hnext hcount' hstep
  refine ⟨rfl, ?_, ?_, g', e, htxn, hbecame⟩
  · cases res <;> rfl
  · have h1 := hs.roots.names
    have h2 := h23.names.names
    have h3 := hstep.next.took.names.names
    cases res <;> exact (h3.trans h2).trans h1

end Allocate

end Chisel
