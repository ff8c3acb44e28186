import Chisel.IndexSpec
import Chisel.ValueSpec

/-! A version of the database: everything that a set of roots leads to. It is the handle table, the
membership index, and the data pages and chains of the live entries. The pages of a version are
counted, so that "no page has two owners" is a statement about a sum. -/

namespace Chisel

open StateError PageCache RadixTree Ledger

/-- The value of an entry is where the entry says; `ids` is its chain. -/
structure Placed (view : Nat → Option Page) (e : HandleEntry) (value : Bytes) (ids : List Nat) :
    Prop where
  present : e.flags ≠ .deleted
  inline : e.flags = .live → ids = [] ∧
    ∃ slots, view e.pageId = some (.data slots) ∧ slots[e.slotIndex]? = some value
  chained : e.flags = .overflow → ids.head? = some e.pageId ∧ Chain view value ids
  short : e.flags = .live → value.length ≤ maxInlineValue

/-- `stray` counts the slots that no handle uses. -/
structure Version where
  table : PageTree HandleEntry
  depth : Nat
  index : Index
  outerDepth : Nat
  live : Finset Nat
  value : Nat → Bytes
  chain : Nat → List Nat
  stray : Nat → Nat

structure TableIn (view : Nat → Option Page) (depth : Nat) (table : PageTree HandleEntry) :
    Prop where
  depth_le : depth ≤ handleLayout.maxDepth
  rep : PageTree.Rep handleLayout.shape (cellsOf handleLayout.cell view) depth table
  zero : table = .nil → depth = 0
  spine : table ≠ .nil → PageTree.Spine depth table
  keys : KeysOk handleLayout depth table

structure IndexIn (view : Nat → Option Page) (outerDepth : Nat) (g : Index) : Prop where
  ok : g.Ok outerDepth
  outer : PageTree.Rep radixU64.shape (cellsOf radixU64.cell view) outerDepth g.outer
  inner : ∀ tag ∈ g.tags,
    PageTree.Rep radixU64.shape (cellsOf radixU64.cell view) (g.height tag) (g.inner tag)

/-- The slot of an inline entry. -/
def HandleEntry.slotAt (e : HandleEntry) (x : Nat) : Nat :=
  if e.flags = .live then one e.pageId x else 0

namespace Version

variable (v : Version)

def entry (handle : Nat) : HandleEntry :=
  PageTree.content handleLayout.shape handleLayout.absent v.depth v.table handle

/-- How many slots of a data page are in use. -/
def slots (x : Nat) : Nat := (∑ handle ∈ v.live, (v.entry handle).slotAt x) + v.stray x

/-- A page with a slot that no handle uses is used by no handle at all. -/
def Clean : Prop := ∀ x, 0 < v.stray x → ∀ handle, (v.entry handle).slotAt x = 0

/-- How often the chains use a page. -/
def chained (x : Nat) : Nat := ∑ handle ∈ v.live, (v.chain handle).count x

/-- How often the version uses a page. -/
def own (x : Nat) : Nat :=
  v.table.count handleLayout.shape x + v.index.count x + min 1 (v.slots x) + v.chained x

structure Ok (view : Nat → Option Page) : Prop where
  table : TableIn view v.depth v.table
  index : IndexIn view v.outerDepth v.index
  live_iff : ∀ handle, handle ∈ v.live ↔ (v.entry handle).flags ≠ .deleted
  chain_nil : ∀ handle, handle ∉ v.live → v.chain handle = []
  placed : ∀ handle ∈ v.live, Placed view (v.entry handle) (v.value handle) (v.chain handle)
  tag_le : ∀ handle ∈ v.live, (v.entry handle).tag ≤ u64Max
  tags : ∀ tag handle, v.index.word tag handle =
    if handle ∈ v.live ∧ (v.entry handle).tag = tag ∧ tag ≠ 0 then 1 else 0
  apart : ∀ h ∈ v.live, ∀ h' ∈ v.live, (v.entry h).flags = .live → (v.entry h').flags = .live →
    (v.entry h).pageId = (v.entry h').pageId →
    (v.entry h).slotIndex = (v.entry h').slotIndex → h = h'
  stray_page : ∀ x, 0 < v.stray x → ∃ slots, view x = some (.data slots)

variable {v} {view view' : Nat → Option Page} {x : Nat}

theorem table_le_own : v.table.count handleLayout.shape x ≤ v.own x := by
  unfold own
  omega

theorem index_le_own : v.index.count x ≤ v.own x := by
  unfold own
  omega

theorem chain_le_own {handle : Nat} (hh : handle ∈ v.live) :
    (v.chain handle).count x ≤ v.own x := by
  have := Finset.single_le_sum (f := fun handle => (v.chain handle).count x)
    (fun _ _ => Nat.zero_le _) hh
  unfold own chained
  omega

theorem slotAt_le_slots {handle : Nat} (hh : handle ∈ v.live) :
    (v.entry handle).slotAt x ≤ v.slots x := by
  have := Finset.single_le_sum (f := fun handle => (v.entry handle).slotAt x)
    (fun _ _ => Nat.zero_le _) hh
  unfold slots
  omega

theorem own_pos_of_slots (hx : 0 < v.slots x) : 0 < v.own x := by
  unfold own
  omega

theorem slots_pos {handle : Nat} (hh : handle ∈ v.live) (hf : (v.entry handle).flags = .live) :
    0 < v.slots (v.entry handle).pageId := by
  have h1 := slotAt_le_slots (x := (v.entry handle).pageId) hh
  rw [HandleEntry.slotAt, if_pos hf] at h1
  have h2 : one (v.entry handle).pageId (v.entry handle).pageId = 1 := by simp
  omega

theorem clean_of_nil (hnil : v.table = .nil) : v.Clean := by
  intro x _ handle
  rw [entry, hnil, PageTree.content_nil]
  rfl

theorem clean_of_stray (hs : v.stray = fun _ => 0) : v.Clean := by
  intro x hx
  rw [hs] at hx
  exact absurd hx (Nat.lt_irrefl 0)

theorem exists_slot (hx : 0 < v.slots x) :
    (∃ handle ∈ v.live, (v.entry handle).flags = .live ∧ (v.entry handle).pageId = x) ∨
      0 < v.stray x := by
  by_cases hs : 0 < v.stray x
  · exact .inr hs
  unfold slots at hx
  have hne : ∑ handle ∈ v.live, (v.entry handle).slotAt x ≠ 0 := by omega
  obtain ⟨handle, hh, hpos⟩ := Finset.exists_ne_zero_of_sum_ne_zero hne
  unfold HandleEntry.slotAt at hpos
  split at hpos
  · next hf => exact .inl ⟨handle, hh, hf, one_pos.mp (Nat.pos_of_ne_zero hpos)⟩
  · exact absurd rfl hpos

theorem exists_chain (hx : 0 < v.chained x) : ∃ handle ∈ v.live, x ∈ v.chain handle := by
  obtain ⟨handle, hh, hpos⟩ := Finset.exists_ne_zero_of_sum_ne_zero (Nat.ne_of_gt hx)
  exact ⟨handle, hh, count_pos.mp (Nat.pos_of_ne_zero hpos)⟩

end Version

theorem Placed.frame {view view' : Nat → Option Page} {e : HandleEntry} {value : Bytes}
    {ids : List Nat} (h : Placed view e value ids)
    (hpage : e.flags = .live → view' e.pageId = view e.pageId)
    (hids : ∀ x ∈ ids, view' x = view x) : Placed view' e value ids where
  present := h.present
  inline hf := by
    rw [hpage hf]
    exact h.inline hf
  chained hf := ⟨(h.chained hf).1, (h.chained hf).2.frame hids⟩
  short := h.short

theorem ChainRep.page {view : Nat → Option Page} {total x : Nat} {ids : List Nat} {rest : Bytes}
    (h : ChainRep view total ids rest) (hx : x ∈ ids) :
    ∃ p, view x = some p ∧ p.isFreeMap = false := by
  induction ids generalizing rest with
  | nil => cases hx
  | cons id ids ih =>
    obtain ⟨-, hpage, hrest⟩ := h
    rcases List.mem_cons.mp hx with rfl | hx
    · exact ⟨_, hpage, rfl⟩
    · exact ih hrest hx

theorem cellsOf_congr {V : Type} {cell : Page → Option (Cell V)} {view view' : Nat → Option Page}
    {x : Nat} (h : view' x = view x) : cellsOf cell view' x = cellsOf cell view x := by
  rw [cellsOf, h]
  rfl

theorem TableIn.frame {view view' : Nat → Option Page} {depth : Nat} {table : PageTree HandleEntry}
    (h : TableIn view depth table)
    (hv : ∀ x, 0 < table.count handleLayout.shape x → view' x = view x) :
    TableIn view' depth table :=
  { h with rep := h.rep.frame fun x hx => cellsOf_congr (hv x hx) }

theorem Index.outer_le (g : Index) (x : Nat) : g.outer.count radixU64.shape x ≤ g.count x :=
  Nat.le_add_right ..

theorem Index.inner_le (g : Index) (x : Nat) {tag : Nat} (ht : tag ∈ g.tags) :
    (g.inner tag).count radixU64.shape x ≤ g.count x := by
  have := Finset.single_le_sum (f := fun tag => (g.inner tag).count radixU64.shape x)
    (fun _ _ => Nat.zero_le _) ht
  unfold Index.count
  omega

theorem IndexIn.frame {view view' : Nat → Option Page} {outerDepth : Nat} {g : Index}
    (h : IndexIn view outerDepth g) (hv : ∀ x, 0 < g.count x → view' x = view x) :
    IndexIn view' outerDepth g where
  ok := h.ok
  outer := h.outer.frame fun x hx =>
    cellsOf_congr (hv x (Nat.lt_of_lt_of_le hx (g.outer_le x)))
  inner tag ht := (h.inner tag ht).frame fun x hx =>
    cellsOf_congr (hv x (Nat.lt_of_lt_of_le hx (g.inner_le x ht)))

namespace Version.Ok

variable {v : Version} {view view' : Nat → Option Page} {x : Nat}

theorem frame (h : v.Ok view) (hv : ∀ x, 0 < v.own x → view' x = view x) : v.Ok view' where
  table := h.table.frame fun x hx => hv x (Nat.lt_of_lt_of_le hx table_le_own)
  index := h.index.frame fun x hx => hv x (Nat.lt_of_lt_of_le hx index_le_own)
  live_iff := h.live_iff
  chain_nil := h.chain_nil
  placed handle hh := (h.placed handle hh).frame
    (fun hf => hv _ (own_pos_of_slots (slots_pos hh hf)))
    fun x hx => hv x (Nat.lt_of_lt_of_le (count_pos.mpr hx) (chain_le_own hh))
  tag_le := h.tag_le
  tags := h.tags
  apart := h.apart
  stray_page x hx := by
    rw [hv x (own_pos_of_slots (Nat.lt_of_lt_of_le hx (Nat.le_add_left ..)))]
    exact h.stray_page x hx

theorem data_page (h : v.Ok view) (hx : 0 < v.slots x) : ∃ slots, view x = some (.data slots) := by
  rcases exists_slot hx with ⟨handle, hh, hf, rfl⟩ | hs
  · obtain ⟨-, slots, hpage, -⟩ := (h.placed handle hh).inline hf
    exact ⟨slots, hpage⟩
  · exact h.stray_page x hs

theorem tree_page {V : Type} {R : RadixLayout V} (hR : R.Lawful) {d : Nat} {sub : PageTree V}
    (hr : PageTree.Rep R.shape (cellsOf R.cell view) d sub) (hx : 0 < sub.count R.shape x) :
    ∃ p, view x = some p ∧ p.isFreeMap = false := by
  obtain ⟨k, hk⟩ := hr.exists_cell hx
  obtain ⟨p, hp, hcell⟩ := cellsOf_eq_some.mp hk
  exact ⟨p, hp, hR.isFreeMap_of_cell hcell⟩

theorem page (h : v.Ok view) (hx : 0 < v.own x) : ∃ p, view x = some p ∧ p.isFreeMap = false := by
  by_cases h1 : 0 < v.table.count handleLayout.shape x
  · exact tree_page handleLayout_lawful h.table.rep h1
  by_cases h2 : 0 < v.index.outer.count radixU64.shape x
  · exact tree_page radixU64_lawful h.index.outer h2
  by_cases h3 : 0 < v.slots x
  · obtain ⟨slots, hs⟩ := h.data_page h3
    exact ⟨_, hs, rfl⟩
  by_cases h4 : 0 < v.chained x
  · obtain ⟨handle, hh, hm⟩ := exists_chain h4
    have hf : (v.entry handle).flags = .overflow := by
      cases hfl : (v.entry handle).flags with
      | overflow => rfl
      | deleted => exact absurd hfl (h.placed handle hh).present
      | live =>
        rw [((h.placed handle hh).inline hfl).1] at hm
        cases hm
    exact ((h.placed handle hh).chained hf).2.rep.page hm
  · unfold own Index.count at hx
    have h5 : ∑ tag ∈ v.index.tags, (v.index.inner tag).count radixU64.shape x ≠ 0 := by omega
    obtain ⟨tag, ht, hpos⟩ := Finset.exists_ne_zero_of_sum_ne_zero h5
    exact tree_page radixU64_lawful (h.index.inner tag ht) (Nat.pos_of_ne_zero hpos)

end Version.Ok

/-! ### Changing an entry -/

namespace Version

/-- The version with the entry of one handle changed, under new trees. -/
def put (v : Version) (handle : Nat) (value : Bytes) (ids : List Nat) (depth : Nat)
    (table : PageTree HandleEntry) (outerDepth : Nat) (index : Index) : Version where
  table := table
  depth := depth
  index := index
  outerDepth := outerDepth
  live := insert handle v.live
  value := Function.update v.value handle value
  chain := Function.update v.chain handle ids
  stray := v.stray

/-- The version without one handle, under new trees. -/
def remove (v : Version) (handle : Nat) (depth : Nat) (table : PageTree HandleEntry)
    (outerDepth : Nat) (index : Index) : Version where
  table := table
  depth := depth
  index := index
  outerDepth := outerDepth
  live := v.live.erase handle
  value := v.value
  chain := Function.update v.chain handle []
  stray := v.stray

def strayed (v : Version) (stray : Nat → Nat) : Version := { v with stray }

variable {v : Version} {view : Nat → Option Page} {x handle depth outerDepth : Nat}
  {table : PageTree HandleEntry} {index : Index} {value : Bytes} {ids : List Nat} {e : HandleEntry}

/-- The table stores `e` under the handle and is otherwise as in `v`. -/
def Stores (v : Version) (handle : Nat) (e : HandleEntry) (depth : Nat)
    (table : PageTree HandleEntry) : Prop :=
  PageTree.content handleLayout.shape handleLayout.absent depth table =
    Function.update v.entry handle e

theorem entry_put (hc : v.Stores handle e depth table) :
    (v.put handle value ids depth table outerDepth index).entry =
      Function.update v.entry handle e := hc

theorem entry_remove (hc : v.Stores handle e depth table) :
    (v.remove handle depth table outerDepth index).entry = Function.update v.entry handle e := hc

theorem Ok.slotAt_eq_zero (h : v.Ok view) (hh : handle ∉ v.live) :
    (v.entry handle).slotAt x = 0 := by
  have hd : (v.entry handle).flags = .deleted := by_contra fun hd => hh ((h.live_iff handle).mpr hd)
  rw [HandleEntry.slotAt, if_neg (by rw [hd]; nofun)]

theorem slotAt_update (f : Nat → HandleEntry) (handle : Nat) (e : HandleEntry) (x i : Nat) :
    (Function.update f handle e i).slotAt x =
      Function.update (fun i => (f i).slotAt x) handle (e.slotAt x) i := by
  by_cases hi : i = handle
  · subst hi
    simp
  · simp [hi]

theorem slots_put (h : v.Ok view) (hc : v.Stores handle e depth table) (x : Nat) :
    (v.put handle value ids depth table outerDepth index).slots x + (v.entry handle).slotAt x =
      v.slots x + e.slotAt x := by
  have hsum := sum_insert_update (T := v.live) (f := fun i => (v.entry i).slotAt x) (a := handle)
    (e.slotAt x) fun hn => h.slotAt_eq_zero hn
  unfold slots
  rw [entry_put hc]
  change (∑ i ∈ insert handle v.live, (Function.update v.entry handle e i).slotAt x) +
    v.stray x + _ = _
  simp only [slotAt_update]
  omega

theorem chained_put (h : v.Ok view) (x : Nat) :
    (v.put handle value ids depth table outerDepth index).chained x + (v.chain handle).count x =
      v.chained x + ids.count x := by
  have hsum := sum_insert_update (T := v.live) (f := fun i => (v.chain i).count x) (a := handle)
    (ids.count x) fun hn => by simp [h.chain_nil handle hn]
  have hfun : (fun i => (Function.update v.chain handle ids i).count x) =
      Function.update (fun i => (v.chain i).count x) handle (ids.count x) := by
    funext i
    by_cases hi : i = handle
    · subst hi
      simp
    · simp [hi]
  unfold chained
  change (∑ i ∈ insert handle v.live, (Function.update v.chain handle ids i).count x) + _ = _
  rw [hfun]
  omega

theorem own_put (h : v.Ok view) (hc : v.Stores handle e depth table) (x : Nat) :
    (v.put handle value ids depth table outerDepth index).own x + (v.chain handle).count x =
      table.count handleLayout.shape x + index.count x +
        min 1 (v.slots x + e.slotAt x - (v.entry handle).slotAt x) + v.chained x + ids.count x := by
  set put := v.put handle value ids depth table outerDepth index
  have h1 : put.slots x + (v.entry handle).slotAt x = v.slots x + e.slotAt x := slots_put h hc x
  have h2 : put.chained x + (v.chain handle).count x = v.chained x + ids.count x := chained_put h x
  change table.count handleLayout.shape x + index.count x + min 1 (put.slots x) + put.chained x +
    _ = _
  omega

theorem slots_remove (hc : v.Stores handle e depth table) (hh : handle ∈ v.live) (x : Nat) :
    (v.remove handle depth table outerDepth index).slots x + (v.entry handle).slotAt x =
      v.slots x := by
  have hsum := sum_erase_update (T := v.live) (f := fun i => (v.entry i).slotAt x) (a := handle)
    (e.slotAt x) hh
  unfold slots
  rw [entry_remove hc]
  change (∑ i ∈ v.live.erase handle, (Function.update v.entry handle e i).slotAt x) +
    v.stray x + _ = _
  simp only [slotAt_update]
  omega

theorem chained_remove (hh : handle ∈ v.live) (x : Nat) :
    (v.remove handle depth table outerDepth index).chained x + (v.chain handle).count x =
      v.chained x := by
  have hsum := sum_erase_update (T := v.live) (f := fun i => (v.chain i).count x) (a := handle)
    0 hh
  have hfun : (fun i => (Function.update v.chain handle [] i).count x) =
      Function.update (fun i => (v.chain i).count x) handle 0 := by
    funext i
    by_cases hi : i = handle
    · subst hi
      simp
    · simp [hi]
  unfold chained
  change (∑ i ∈ v.live.erase handle, (Function.update v.chain handle [] i).count x) + _ = _
  rw [hfun]
  omega

/-- The words of the index after the tag of one handle changed. -/
def Retags (v : Version) (handle : Nat) (live : Prop) [Decidable live] (e : HandleEntry)
    (index : Index) : Prop :=
  ∀ tag k, index.word tag k =
    if k = handle then (if live ∧ e.tag = tag ∧ tag ≠ 0 then 1 else 0) else v.index.word tag k

/-- No other live entry uses the slot of `e`. -/
def SlotFree (v : Version) (handle : Nat) (e : HandleEntry) : Prop :=
  ∀ k ∈ v.live, k ≠ handle → (v.entry k).flags = .live → (v.entry k).pageId = e.pageId →
    (v.entry k).slotIndex ≠ e.slotIndex

theorem Ok.put (h : v.Ok view) (hc : v.Stores handle e depth table)
    (htable : TableIn view depth table) (hindex : IndexIn view outerDepth index)
    (hplaced : Placed view e value ids) (htag : e.tag ≤ u64Max)
    (hword : v.Retags handle True e index) (hfree : e.flags = .live → v.SlotFree handle e) :
    (v.put handle value ids depth table outerDepth index).Ok view := by
  have hentry : (v.put handle value ids depth table outerDepth index).entry =
      Function.update v.entry handle e := hc
  refine ⟨htable, hindex, fun k => ?_, fun k hk => ?_, fun k hk => ?_, fun k hk => ?_,
    fun tag k => ?_, fun k hk k' hk' hf hf' hp hs => ?_, h.stray_page⟩
  all_goals rw [hentry] at *
  · by_cases hkh : k = handle
    · subst hkh
      simpa [Version.put] using hplaced.present
    · simpa [Version.put, hkh] using h.live_iff k
  · obtain ⟨hkh, hkl⟩ : k ≠ handle ∧ k ∉ v.live := by simpa [Version.put] using hk
    simpa [Version.put, hkh] using h.chain_nil k hkl
  · by_cases hkh : k = handle
    · subst hkh
      simpa [Version.put] using hplaced
    · have hkl : k ∈ v.live := by simpa [Version.put, hkh] using hk
      simpa [Version.put, hkh] using h.placed k hkl
  · by_cases hkh : k = handle
    · subst hkh
      simpa using htag
    · have hkl : k ∈ v.live := by simpa [Version.put, hkh] using hk
      simpa [hkh] using h.tag_le k hkl
  · refine (hword tag k).trans ?_
    by_cases hkh : k = handle
    · subst hkh
      simp [Version.put]
    · simpa [Version.put, hkh] using h.tags tag k
  · have hlive : ∀ {j}, j ∈ (v.put handle value ids depth table outerDepth index).live →
        j ≠ handle → j ∈ v.live := fun hj hjh => by simpa [Version.put, hjh] using hj
    by_cases hkh : k = handle <;> by_cases hkh' : k' = handle
    · rw [hkh, hkh']
    · subst hkh
      rw [Function.update_self] at hf hp hs
      rw [Function.update_of_ne hkh'] at hf' hp hs
      exact absurd hs.symm (hfree hf k' (hlive hk' hkh') hkh' hf' hp.symm)
    · subst hkh'
      rw [Function.update_self] at hf' hp hs
      rw [Function.update_of_ne hkh] at hf hp hs
      exact absurd hs (hfree hf' k (hlive hk hkh) hkh hf hp)
    · rw [Function.update_of_ne hkh] at hf hp hs
      rw [Function.update_of_ne hkh'] at hf' hp hs
      exact h.apart k (hlive hk hkh) k' (hlive hk' hkh') hf hf' hp hs

theorem Ok.remove (h : v.Ok view) (hc : v.Stores handle .tombstone depth table)
    (htable : TableIn view depth table) (hindex : IndexIn view outerDepth index)
    (hword : v.Retags handle False .tombstone index) :
    (v.remove handle depth table outerDepth index).Ok view := by
  have hentry : (v.remove handle depth table outerDepth index).entry =
      Function.update v.entry handle .tombstone := hc
  have hlive : ∀ {j}, j ∈ (v.remove handle depth table outerDepth index).live →
      j ≠ handle ∧ j ∈ v.live := fun hj => by simpa [Version.remove] using hj
  refine ⟨htable, hindex, fun k => ?_, fun k hk => ?_, fun k hk => ?_, fun k hk => ?_,
    fun tag k => ?_, fun k hk k' hk' hf hf' hp hs => ?_, h.stray_page⟩
  all_goals rw [hentry] at *
  · by_cases hkh : k = handle
    · subst hkh
      simp [Version.remove, HandleEntry.tombstone]
    · simpa [Version.remove, hkh] using h.live_iff k
  · by_cases hkh : k = handle
    · subst hkh
      simp [Version.remove]
    · have hkl : k ∉ v.live := by simpa [Version.remove, hkh] using hk
      simpa [Version.remove, hkh] using h.chain_nil k hkl
  · obtain ⟨hkh, hkl⟩ := hlive hk
    simpa [Version.remove, hkh] using h.placed k hkl
  · obtain ⟨hkh, hkl⟩ := hlive hk
    simpa [hkh] using h.tag_le k hkl
  · refine (hword tag k).trans ?_
    by_cases hkh : k = handle
    · subst hkh
      simp [Version.remove]
    · simpa [Version.remove, hkh] using h.tags tag k
  · obtain ⟨hkh, hkl⟩ := hlive hk
    obtain ⟨hkh', hkl'⟩ := hlive hk'
    rw [Function.update_of_ne hkh] at hf hp hs
    rw [Function.update_of_ne hkh'] at hf' hp hs
    exact h.apart k hkl k' hkl' hf hf' hp hs

theorem Ok.strayed (h : v.Ok view) {stray : Nat → Nat}
    (hs : ∀ x, 0 < stray x → ∃ slots, view x = some (.data slots)) : (v.strayed stray).Ok view :=
  { h with stray_page := hs }

theorem Ok.append (h : v.Ok view) {view' : Nat → Option Page} {id : Nat} {slots : List Bytes}
    (hpage : view id = some (.data slots))
    (hsole : v.table.count handleLayout.shape id + v.index.count id + v.chained id = 0)
    (hself : view' id = some (.data (slots ++ [value])))
    (hother : ∀ x, x ≠ id → view' x = view x) : v.Ok view' where
  table := h.table.frame fun x hx => hother x (by rintro rfl; omega)
  index := h.index.frame fun x hx => hother x (by rintro rfl; omega)
  live_iff := h.live_iff
  chain_nil := h.chain_nil
  placed k hk := by
    have hp := h.placed k hk
    refine ⟨hp.present, fun hf => ?_, fun hf => ⟨(hp.chained hf).1,
      (hp.chained hf).2.frame fun x hx => hother x ?_⟩, hp.short⟩
    · obtain ⟨hnil, slots', hpage', hslot⟩ := hp.inline hf
      refine ⟨hnil, ?_⟩
      by_cases hid : (v.entry k).pageId = id
      · rw [hid, hpage] at hpage'
        obtain rfl := Page.data.inj (Option.some.inj hpage')
        refine ⟨slots ++ [value], by rw [hid, hself], ?_⟩
        rw [List.getElem?_append_left (List.getElem?_eq_some_iff.mp hslot).1]
        exact hslot
      · exact ⟨slots', by rw [hother _ hid, hpage'], hslot⟩
    · rintro rfl
      have h1 := count_pos.mpr hx
      have h2 := Finset.single_le_sum (f := fun k => (v.chain k).count x)
        (fun _ _ => Nat.zero_le _) hk
      unfold chained at hsole
      omega
  tag_le := h.tag_le
  tags := h.tags
  apart := h.apart
  stray_page x hx := by
    by_cases hid : x = id
    · exact ⟨_, hid ▸ hself⟩
    · rw [hother x hid]
      exact h.stray_page x hx

/-- The slot after the last one is in use by nobody. -/
theorem Ok.slotFree_next (h : v.Ok view) {id : Nat} {slots : List Bytes}
    (hpage : view id = some (.data slots)) (hid : e.pageId = id)
    (hslot : e.slotIndex = slots.length) : v.SlotFree handle e := by
  intro k hk _ hf hp hs
  obtain ⟨-, slots', hpage', hslot'⟩ := (h.placed k hk).inline hf
  rw [hp, hid, hpage] at hpage'
  obtain rfl := Page.data.inj (Option.some.inj hpage')
  have := (List.getElem?_eq_some_iff.mp hslot').1
  omega

/-- Nothing is on a page that the version does not use. -/
theorem slotFree_of_slots (h0 : v.slots e.pageId = 0) : v.SlotFree handle e := by
  intro k hk _ hf hp _
  have := slots_pos hk hf
  rw [hp] at this
  omega

end Version

/-! ### The counts of the packer -/

/-- The packer counts the slots as they are. -/
def Counts (live : AList fun _ : Nat => Nat) (n : Nat → Nat) : Prop :=
  ∀ x, live.lookup x = if n x = 0 then none else some (n x)

namespace Counts

variable {live : AList fun _ : Nat => Nat} {n n' : Nat → Nat} {id : Nat}

theorem congr (h : Counts live n) (heq : ∀ x, n' x = n x) : Counts live n' := fun x => by
  rw [heq, h x]

theorem countUp (h : Counts live n) (id : Nat) :
    Counts (SlotPacker.countUp live id) fun x => n x + one id x := by
  intro x
  unfold SlotPacker.countUp
  by_cases hx : x = id
  · subst hx
    rw [AList.lookup_insert, h x]
    by_cases h0 : n x = 0
    · simp [h0]
    · simp [h0]
  · simp [AList.lookup_insert_ne hx, h x, one_of_ne (Ne.symm hx)]

theorem release {p : SlotPacker} (h : Counts p.currentLiveSlots n) (hid : 0 < n id) :
    Counts (p.release id).1.currentLiveSlots (fun x => n x - one id x) ∧
      (p.release id).2 = if n id = 1 then some id else none := by
  have hlook := h id
  rw [if_neg (by omega)] at hlook
  unfold SlotPacker.release
  rw [hlook]
  dsimp only
  by_cases h1 : n id = 1
  · rw [if_pos (by omega), if_pos h1]
    refine ⟨fun x => ?_, rfl⟩
    dsimp only
    by_cases hx : x = id
    · subst hx
      simp [AList.lookup_erase, h1]
    · simp [AList.lookup_erase_ne hx, h x, one_of_ne (Ne.symm hx)]
  · rw [if_neg (by omega), if_neg h1]
    refine ⟨fun x => ?_, rfl⟩
    dsimp only
    by_cases hx : x = id
    · subst hx
      rw [AList.lookup_insert, if_neg]
      · simp
      · simp
        omega
    · simp [AList.lookup_insert_ne hx, h x, one_of_ne (Ne.symm hx)]

end Counts

theorem SlotPacker.release_fields (p : SlotPacker) (id : Nat) :
    (p.release id).1.committedLiveSlots = p.committedLiveSlots ∧
      ((p.release id).1.insertCursor = p.insertCursor ∨ (p.release id).1.insertCursor = none) ∧
      ((p.release id).2 = some id → (p.release id).1.insertCursor ≠ some id) := by
  unfold SlotPacker.release
  split
  · exact ⟨rfl, .inl rfl, nofun⟩
  · split
    · refine ⟨rfl, ?_, fun _ => ?_⟩
      · dsimp only
        split
        · exact .inr rfl
        · exact .inl rfl
      · dsimp only
        split
        · nofun
        · assumption
    · exact ⟨rfl, .inl rfl, nofun⟩

/-! ### Listings -/

theorem eq_sort_of_sorted {l : List Nat} {s : Finset Nat} (hl : l.Pairwise (· < ·))
    (hmem : ∀ x, x ∈ l ↔ x ∈ s) : l = s.sort (· ≤ ·) := by
  have hs : l.toFinset = s := by
    ext x
    rw [List.mem_toFinset, hmem]
  rw [← hs]
  exact ((List.toFinset_sort (· ≤ ·) (hl.imp Nat.ne_of_lt)).mpr (hl.imp Nat.le_of_lt)).symm

namespace Version

variable {v : Version} {view : Nat → Option Page}

theorem Ok.mem_listing (h : v.Ok view) {handle : Nat} {e : HandleEntry} :
    (handle, e) ∈ PageTree.listing handleLayout.shape handleLayout.isAbsent v.depth 0 v.table ↔
      handle ∈ v.live ∧ e = v.entry handle := by
  rw [PageTree.mem_listing_content handleLayout_lawful.absent_gone, h.live_iff]
  change e = v.entry handle ∧ (e.flags == .deleted) = false ↔ _
  constructor
  · rintro ⟨rfl, hf⟩
    exact ⟨beq_eq_false_iff_ne.mp hf, rfl⟩
  · rintro ⟨hf, rfl⟩
    exact ⟨rfl, beq_eq_false_iff_ne.mpr hf⟩

theorem Ok.live_le (h : v.Ok view) {handle : Nat} (hin : handle ∈ v.live) : handle ≤ u64Max := by
  obtain ⟨j, hj, hkey, hv, hp⟩ := (PageTree.mem_listing (d := handleLayout.absent) rfl).mp
    (h.mem_listing.mpr ⟨hin, rfl⟩)
  rw [Nat.zero_add] at hkey
  subst hkey
  exact h.table.keys _ hj (hv ▸ hp)

theorem Ok.listing_eq (h : v.Ok view) :
    (PageTree.listing handleLayout.shape handleLayout.isAbsent v.depth 0 v.table).map Prod.fst =
      v.live.sort (· ≤ ·) := by
  refine eq_sort_of_sorted (PageTree.sorted_listing handleLayout_lawful.absent_gone)
    fun handle => ?_
  rw [List.mem_map]
  constructor
  · rintro ⟨⟨k, e⟩, he, rfl⟩
    exact (h.mem_listing.mp he).1
  · intro hh
    exact ⟨(handle, v.entry handle), h.mem_listing.mpr ⟨hh, rfl⟩, rfl⟩

/-- The live handles that carry a tag; no handle carries tag 0. -/
def withTag (v : Version) (tag : Nat) : Finset Nat :=
  v.live.filter fun handle => (v.entry handle).tag = tag ∧ tag ≠ 0

theorem Ok.members_eq (h : v.Ok view) (tag : Nat) :
    v.index.members tag = (v.withTag tag).sort (· ≤ ·) := by
  refine eq_sort_of_sorted (PageTree.sorted_listing radixU64_lawful.absent_gone) fun handle => ?_
  have hw := h.tags tag handle
  rw [Index.members, List.mem_map, withTag, Finset.mem_filter]
  constructor
  · rintro ⟨⟨k, w⟩, he, rfl⟩
    obtain ⟨rfl, hgone⟩ := (PageTree.mem_listing_content radixU64_lawful.absent_gone).mp he
    by_contra hn
    rw [if_neg hn] at hw
    change (v.index.word tag k == 0) = false at hgone
    rw [hw] at hgone
    cases hgone
  · intro hin
    rw [if_pos hin] at hw
    refine ⟨(handle, v.index.word tag handle), ?_, rfl⟩
    refine (PageTree.mem_listing_content radixU64_lawful.absent_gone).mpr ⟨rfl, ?_⟩
    rw [hw]
    rfl

end Version

end Chisel
