import Chisel.Lib.Walk
import Chisel.TxnInv

/-! The pages that a set of roots leads to, as the pages themselves say: down the handle table, the
membership index and the free map, and from the entries of the handle table to data pages and
overflow chains. These are the pages of the version that the roots stand for. -/

namespace Chisel

open StateError PageCache RadixTree Ledger

variable {view : Nat → Option Page} {roots : Roots} {x : Nat}

/-- A page of the handle table. -/
def InTable (view : Nat → Option Page) (roots : Roots) (x : Nat) : Prop :=
  roots.handleTablePage ≠ pageIdNone ∧
    Under handleLayout.shape (cellsOf handleLayout.cell view) roots.handleTablePage x

/-- A page of the outer tree of the membership index. -/
def InIndex (view : Nat → Option Page) (roots : Roots) (x : Nat) : Prop :=
  roots.membershipIndexPage ≠ pageIdNone ∧
    Under radixU64.shape (cellsOf radixU64.cell view) roots.membershipIndexPage x

/-- A page of the free map. -/
def InMap (view : Nat → Option Page) (roots : Roots) (x : Nat) : Prop :=
  roots.freemapPage ≠ pageIdNone ∧ Under fmShape (fmRead view) roots.freemapPage x

/-- An entry in a leaf of the handle table. -/
def TableEntry (view : Nat → Option Page) (roots : Roots) (e : HandleEntry) : Prop :=
  ∃ x entries i, InTable view roots x ∧ view x = some (.handleLeaf entries) ∧
    i < handleLayout.leafCap ∧ entries i = e

/-- A word in a leaf of the outer tree: the root and the depth of the tree of a tag. -/
def IndexWord (view : Nat → Option Page) (roots : Roots) (word : Nat) : Prop :=
  ∃ x words i, InIndex view roots x ∧ view x = some (.membershipLeaf words) ∧
    i < radixU64.leafCap ∧ words i = word

/-- A page of the overflow chain that starts at `first`. -/
inductive OnChain (view : Nat → Option Page) (first : Nat) : Nat → Prop
  | head : OnChain view first first
  | next {x total next : Nat} {payload : Bytes} (h : OnChain view first x)
    (page : view x = some (.overflow total next payload)) (ne : next ≠ 0) : OnChain view first next

/-- A page that the roots lead to. -/
inductive Reachable (view : Nat → Option Page) (roots : Roots) : Nat → Prop
  | table {x : Nat} (h : InTable view roots x) : Reachable view roots x
  | index {x : Nat} (h : InIndex view roots x) : Reachable view roots x
  | members {x word : Nat} (h : IndexWord view roots word) (ne : word ≠ 0)
    (under : Under radixU64.shape (cellsOf radixU64.cell view)
      (MembershipIndex.unpackInner word).1 x) : Reachable view roots x
  | map {x : Nat} (h : InMap view roots x) : Reachable view roots x
  | data {e : HandleEntry} (h : TableEntry view roots e) (live : e.flags = .live) :
    Reachable view roots e.pageId
  | chain {x : Nat} {e : HandleEntry} (h : TableEntry view roots e)
      (overflows : e.flags = .overflow)
    (on : OnChain view e.pageId x) : Reachable view roots x

/-! ### Chains -/

theorem ChainRep.next_mem {total next : Nat} {ids : List Nat} {rest payload : Bytes}
    (h : ChainRep view total ids rest) (hx : x ∈ ids) {total' : Nat}
    (hpage : view x = some (.overflow total' next payload)) (hne : next ≠ 0) : next ∈ ids := by
  induction ids generalizing rest with
  | nil => cases hx
  | cons id ids ih =>
    obtain ⟨-, hid, hrest⟩ := h
    rcases List.mem_cons.mp hx with rfl | hx
    · obtain ⟨-, rfl, -⟩ := Page.overflow.inj (Option.some.inj (hid.symm.trans hpage))
      cases ids with
      | nil => exact absurd rfl hne
      | cons id' ids => exact List.mem_cons_of_mem _ List.mem_cons_self
    · exact List.mem_cons_of_mem _ (ih hrest hx)

theorem ChainRep.onChain {first total : Nat} {ids : List Nat} {rest : Bytes}
    (h : ChainRep view total ids rest) (hpos : ∀ y ∈ ids, y ≠ 0)
    (hhead : ∀ y, ids.head? = some y → OnChain view first y) (hx : x ∈ ids) :
    OnChain view first x := by
  induction ids generalizing rest with
  | nil => cases hx
  | cons id ids ih =>
    obtain ⟨-, hid, hrest⟩ := h
    have hfirst := hhead id rfl
    rcases List.mem_cons.mp hx with rfl | hx
    · exact hfirst
    · refine ih hrest (fun y hy => hpos y (List.mem_cons_of_mem _ hy)) (fun y hy => ?_) hx
      have hy' : ids.headD 0 = y := by
        rw [List.headD_eq_head?_getD, hy]
        rfl
      rw [hy'] at hid
      exact .next hfirst hid (hpos y (List.mem_cons_of_mem _ (List.mem_of_head? hy)))

theorem Chain.onChain_iff {first : Nat} {value : Bytes} {ids : List Nat} (h : Chain view value ids)
    (hfirst : ids.head? = some first) : OnChain view first x ↔ x ∈ ids := by
  constructor
  · intro hx
    induction hx with
    | head => exact List.mem_of_head? hfirst
    | next _ hpage hne ih => exact h.rep.next_mem ih hpage hne
  · intro hx
    refine h.rep.onChain h.pos (fun y hy => ?_) hx
    rw [Option.some.inj (hfirst.symm.trans hy)]
    exact .head

/-! ### The version of the roots -/

/-- The roots lead to the version `v` and to the free map `t`. -/
structure Roots.Span (roots : Roots) (view : Nat → Option Page) (v : Version) (t : PageTree Bool) :
    Prop where
  ok : v.Ok view
  table : RootedAt roots.handleTablePage v.table
  index : RootedAt roots.membershipIndexPage v.index.outer
  map : PageTree.Rep fmShape (fmRead view) roots.freemapDepth t
  mapRoot : RootedAt roots.freemapPage t
  table_ne : v.table ≠ .nil → v.table.root ≠ pageIdNone
  index_ne : v.index.outer ≠ .nil → v.index.outer.root ≠ pageIdNone
  map_ne : t ≠ .nil → t.root ≠ pageIdNone

section Spans

variable {v : Version} {t : PageTree Bool}

theorem RootedAt.under_iff {V : Type} {S : Shape} {rd : Nat → Option (Cell V)} {h root : Nat}
    {sub : PageTree V} (hroot : RootedAt root sub) (hr : PageTree.Rep S rd h sub)
    (hne : sub ≠ .nil → sub.root ≠ pageIdNone) :
    root ≠ pageIdNone ∧ Under S rd root x ↔ 0 < sub.count S x := by
  by_cases hnil : sub = .nil
  · subst hnil
    simp [hroot.nil rfl]
  · rw [hroot.eq hnil, hr.under_iff hnil]
    exact ⟨And.right, fun h => ⟨hne hnil, h⟩⟩

theorem RootedAt.leaf_iff {V : Type} {R : RadixLayout V} (hR : R.Lawful) {h root : Nat}
    {sub : PageTree V} (hroot : RootedAt root sub)
    (hr : PageTree.Rep R.shape (cellsOf R.cell view) h sub)
    (hne : sub ≠ .nil → sub.root ≠ pageIdNone) {w : V} (hw : w ≠ R.absent) :
    (∃ x vals i, (root ≠ pageIdNone ∧ Under R.shape (cellsOf R.cell view) root x) ∧
      view x = some (R.mkLeaf vals) ∧ i < R.leafCap ∧ vals i = w) ↔
    ∃ k, PageTree.content R.shape R.absent h sub k = w := by
  have hcells : ∀ {x vals}, cellsOf R.cell view x = some (.leaf vals) ↔
      view x = some (R.mkLeaf vals) := by
    intro x vals
    rw [cellsOf_eq_some]
    constructor
    · rintro ⟨p, hp, hcell⟩
      rw [hp, hR.cell_leaf.mp hcell]
    · intro hp
      exact ⟨_, hp, hR.cell_leaf.mpr rfl⟩
  constructor
  · rintro ⟨x, vals, i, hx, hpage, hi, rfl⟩
    have hnil : sub ≠ .nil := by
      intro hnil
      exact hx.1 (hroot.nil hnil)
    obtain ⟨-, hunder⟩ := hx
    rw [hroot.eq hnil] at hunder
    obtain ⟨k, hk, hget⟩ := hr.get_of_leaf (d := R.absent) hnil hunder (hcells.mpr hpage) hi
    exact ⟨k, (if_pos hk).trans hget⟩
  · rintro ⟨k, rfl⟩
    by_cases hk : k < R.shape.span h
    · rw [PageTree.content, if_pos hk] at hw ⊢
      obtain ⟨x, vals, i, hunder, hleaf, hi, hval⟩ := hr.leaf_of_get hk hw
      have hnil : sub ≠ .nil := by
        rintro rfl
        exact hw (PageTree.get_nil h k)
      rw [hroot.eq hnil]
      exact ⟨x, vals, i, ⟨hne hnil, hunder⟩, hcells.mp hleaf, hi, hval⟩
    · exact absurd (if_neg hk) hw

namespace Roots.Span

/-- The roots of trees whose pages have proper ids. -/
theorem of_ne_none (hok : v.Ok view) (htable : RootedAt roots.handleTablePage v.table)
    (hindex : RootedAt roots.membershipIndexPage v.index.outer)
    (hmap : PageTree.Rep fmShape (fmRead view) roots.freemapDepth t)
    (hroot : RootedAt roots.freemapPage t)
    (hne : ∀ x, 0 < v.own x + t.count fmShape x → x ≠ pageIdNone) : roots.Span view v t := by
  refine ⟨hok, htable, hindex, hmap, hroot, fun hn => hne _ ?_, fun hn => hne _ ?_,
    fun hn => hne _ ?_⟩
  · have h1 := PageTree.count_root_pos (S := handleLayout.shape) hn
    have h2 := Version.table_le_own (v := v) (x := v.table.root)
    omega
  · have h1 := PageTree.count_root_pos (S := radixU64.shape) hn
    have h2 := Index.outer_le v.index v.index.outer.root
    have h3 := Version.index_le_own (v := v) (x := v.index.outer.root)
    omega
  · have h1 := PageTree.count_root_pos (S := fmShape) hn
    omega

theorem inTable_iff (h : roots.Span view v t) :
    InTable view roots x ↔ 0 < v.table.count handleLayout.shape x :=
  h.table.under_iff h.ok.table.rep h.table_ne

theorem inIndex_iff (h : roots.Span view v t) :
    InIndex view roots x ↔ 0 < v.index.outer.count radixU64.shape x :=
  h.index.under_iff h.ok.index.outer h.index_ne

theorem inMap_iff (h : roots.Span view v t) : InMap view roots x ↔ 0 < t.count fmShape x :=
  h.mapRoot.under_iff h.map h.map_ne

theorem tableEntry_iff (h : roots.Span view v t) {e : HandleEntry} (he : e.flags ≠ .deleted) :
    TableEntry view roots e ↔ ∃ handle ∈ v.live, v.entry handle = e := by
  have hw : e ≠ handleLayout.absent := by
    rintro rfl
    exact he rfl
  have hiff : TableEntry view roots e ↔ ∃ k, v.entry k = e :=
    h.table.leaf_iff handleLayout_lawful h.ok.table.rep h.table_ne hw
  rw [hiff]
  constructor
  · rintro ⟨k, rfl⟩
    exact ⟨k, (h.ok.live_iff k).mpr he, rfl⟩
  · rintro ⟨k, -, hk⟩
    exact ⟨k, hk⟩

theorem indexWord_iff (h : roots.Span view v t) {word : Nat} (hw : word ≠ 0) :
    IndexWord view roots word ↔ ∃ tag ∈ v.index.tags,
      word = v.index.height tag * 2 ^ 58 + (v.index.inner tag).root := by
  have hiff : IndexWord view roots word ↔
      ∃ k, PageTree.content radixU64.shape 0 v.outerDepth v.index.outer k = word :=
    h.index.leaf_iff radixU64_lawful h.ok.index.outer h.index_ne hw
  rw [hiff]
  constructor
  · rintro ⟨tag, rfl⟩
    rw [h.ok.index.ok.names] at hw ⊢
    split at hw
    · next ht => exact ⟨tag, ht, if_pos ht⟩
    · exact absurd rfl hw
  · rintro ⟨tag, ht, rfl⟩
    exact ⟨tag, (h.ok.index.ok.names tag).trans (if_pos ht)⟩

theorem members_iff (h : roots.Span view v t) :
    (∃ word, IndexWord view roots word ∧ word ≠ 0 ∧
      Under radixU64.shape (cellsOf radixU64.cell view) (MembershipIndex.unpackInner word).1 x) ↔
    ∃ tag ∈ v.index.tags, 0 < (v.index.inner tag).count radixU64.shape x := by
  have hok := h.ok.index.ok
  have hunder : ∀ tag ∈ v.index.tags,
      (Under radixU64.shape (cellsOf radixU64.cell view) (MembershipIndex.unpackInner
        (v.index.height tag * 2 ^ 58 + (v.index.inner tag).root)).1 x ↔
        0 < (v.index.inner tag).count radixU64.shape x) := by
    intro tag ht
    have hunpack := hok.unpack tag
    rw [hok.names, if_pos ht, Index.entry, if_pos ht] at hunpack
    rw [hunpack]
    exact (h.ok.index.inner tag ht).under_iff (hok.ne_nil ht)
  constructor
  · rintro ⟨word, hword, hne, hx⟩
    obtain ⟨tag, ht, rfl⟩ := (h.indexWord_iff hne).mp hword
    exact ⟨tag, ht, (hunder tag ht).mp hx⟩
  · rintro ⟨tag, ht, hx⟩
    have hpos := (hok.root_bounds tag ht).1
    have hne : v.index.height tag * 2 ^ 58 + (v.index.inner tag).root ≠ 0 := by omega
    exact ⟨_, (h.indexWord_iff hne).mpr ⟨tag, ht, rfl⟩, hne, (hunder tag ht).mpr hx⟩

/-- The roots lead to the pages of their version and of their free map only. -/
theorem owned (h : roots.Span view v t) (hx : Reachable view roots x) :
    0 < v.own x + t.count fmShape x := by
  cases hx with
  | table hx =>
    have := (h.inTable_iff).mp hx
    have := Version.table_le_own (v := v) (x := x)
    omega
  | index hx =>
    have := (h.inIndex_iff).mp hx
    have := Index.outer_le v.index x
    have := Version.index_le_own (v := v) (x := x)
    omega
  | members hword hne hx =>
    obtain ⟨tag, ht, hpos⟩ := h.members_iff.mp ⟨_, hword, hne, hx⟩
    have := Index.inner_le v.index x ht
    have := Version.index_le_own (v := v) (x := x)
    omega
  | map hx =>
    have := (h.inMap_iff).mp hx
    omega
  | data hentry hlive =>
    obtain ⟨handle, hh, rfl⟩ := (h.tableEntry_iff (by rw [hlive]; exact nofun)).mp hentry
    have := Version.own_pos_of_slots (Version.slots_pos hh hlive)
    omega
  | chain hentry hover hon =>
    obtain ⟨handle, hh, rfl⟩ := (h.tableEntry_iff (by rw [hover]; exact nofun)).mp hentry
    obtain ⟨hhead, hchain⟩ := (h.ok.placed handle hh).chained hover
    have hmem := (hchain.onChain_iff hhead).mp hon
    have := Version.chain_le_own (v := v) (x := x) hh
    have := List.count_pos_iff.mpr hmem
    omega

end Roots.Span

end Spans

end Chisel
