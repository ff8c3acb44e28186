import Chisel.TxnStep

/-! The reading operations, inside and outside a transaction. They leave everything but the cache
alone, they answer with what the version holds, and they fail only if the handle is not live or
the pages that were written do not fit. -/

namespace Chisel

open StateError PageCache TransactionManager RadixTree Ledger

/-- What the manager shows to a reader. -/
structure Shown (m : TransactionManager) (v : Version) : Prop where
  wf : m.cache.WF
  next_le : m.cache.store.next ≤ u64Max
  ok : v.Ok m.cache.store.view
  lt : ∀ x, 0 < v.own x → x < m.cache.store.next
  tied : Tied m.readRoots m.htDepth m.outerDepth v

/-- Only the cache changed, and it holds the same. -/
def Looked (m m' : TransactionManager) : Prop :=
  ∃ c, Reads m.cache c ∧ m' = { m with cache := c }

def Refused (m : TransactionManager) (soft : ChiselError → Prop) (e : ChiselError)
    (m' : TransactionManager) : Prop :=
  Looked m m' ∧ (soft e ∨ e.isCapacity = true ∧ ¬ m.cache.store.Fits)

section Looking

variable {m m' m'' : TransactionManager} {v : Version} {α : Type} {P : α → Prop}

theorem Looked.trans (h : Looked m m') (h' : Looked m' m'') : Looked m m'' := by
  obtain ⟨c, hc, rfl⟩ := h
  obtain ⟨c', hc', rfl⟩ := h'
  exact ⟨c', hc.trans hc', rfl⟩

theorem Looked.store (h : Looked m m') : m'.cache.store = m.cache.store := by
  obtain ⟨c, hc, rfl⟩ := h
  exact hc.2

theorem Refused.after {soft : ChiselError → Prop} {e : ChiselError} (h : Looked m m')
    (h' : Refused m' soft e m'') : Refused m soft e m'' := by
  refine ⟨h.trans h'.1, ?_⟩
  rcases h'.2 with h1 | ⟨h1, h2⟩
  · exact .inl h1
  · rw [h.store] at h2
    exact .inr ⟨h1, h2⟩

theorem Shown.looked (h : Shown m v) (hl : Looked m m') : Shown m' v := by
  obtain ⟨c, hc, rfl⟩ := hl
  refine ⟨hc.1, ?_, ?_, ?_, h.tied⟩
  · change c.store.next ≤ u64Max
    rw [hc.2]
    exact h.next_le
  · change v.Ok c.store.view
    rw [hc.2]
    exact h.ok
  · change ∀ x, 0 < v.own x → x < c.store.next
    rw [hc.2]
    exact h.lt

theorem Shown.refl_looked (h : Shown m v) : Looked m m := ⟨m.cache, ⟨h.wf, rfl⟩, rfl⟩

theorem wp_looking {x : CacheM α} (soft : ChiselError → Prop)
    (hx : wp x m.cache (fun a c => Reads m.cache c ∧ P a) (fun e c => Crowded m.cache e c)) :
    wp (withCache x) m (fun a m' => Looked m m' ∧ P a) (Refused m soft) := by
  rw [wp_withCache]
  refine wp_mono hx ?_ ?_
  · rintro a c ⟨hc, ha⟩
    exact ⟨⟨c, hc, rfl⟩, ha⟩
  · rintro e c ⟨hwf, hst, hcap, hfull⟩
    exact ⟨⟨c, ⟨hwf, hst⟩, rfl⟩, .inr ⟨hcap, hfull⟩⟩

end Looking

def NotLive (v : Version) (handle : Nat) (e : ChiselError) : Prop :=
  e = .invalidHandle handle ∧ handle ∉ v.live

namespace Shown

variable {m : TransactionManager} {v : Version} {handle : Nat}

theorem table_holds (h : Shown m v) : Holds handleLayout m.cache v.depth v.table :=
  ⟨h.wf, h.ok.table.rep, fun x hx => h.lt x (Nat.lt_of_lt_of_le hx Version.table_le_own)⟩

theorem index_held (h : Shown m v) : v.index.Held m.cache v.outerDepth where
  outer := ⟨h.wf, h.ok.index.outer, fun x hx => h.lt x (Nat.lt_of_lt_of_le hx
    ((v.index.outer_le x).trans Version.index_le_own))⟩
  inner tag ht := ⟨h.wf, h.ok.index.inner tag ht, fun x hx => h.lt x (Nat.lt_of_lt_of_le hx
    ((v.index.inner_le x ht).trans Version.index_le_own))⟩

theorem chain_lt (h : Shown m v) (hh : handle ∈ v.live) {x : Nat} (hx : x ∈ v.chain handle) :
    x < m.cache.store.next :=
  h.lt x (Nat.lt_of_lt_of_le (count_pos.mpr hx) (Version.chain_le_own hh))

theorem wp_lookup (h : Shown m v) (hhandle : handle ≤ u64Max) :
    wp (withCache
        (HandleTable.lookup m.htDepth m.readRoots.handleTablePage handle)) m
      (fun res m' => Looked m m' ∧ res = if handle ∈ v.live then some (v.entry handle) else none)
      (Refused m fun _ => False) := by
  refine wp_looking _ ?_
  rw [h.tied.depth]
  simp only [HandleTable.lookup, wp_bind]
  refine wp_imp (Chisel.wp_lookup handleLayout_lawful h.ok.table.depth_le h.table_holds h.next_le
    h.tied.table hhandle) ?_
  rintro e c ⟨hc, rfl⟩
  refine wp_ret ⟨hc, ?_⟩
  have hl := h.ok.live_iff handle
  change (if (v.entry handle).flags = .deleted then none else some (v.entry handle)) = _
  by_cases hd : (v.entry handle).flags = .deleted
  · rw [if_pos hd, if_neg fun hin => hl.mp hin hd]
  · rw [if_neg hd, if_pos (hl.mpr hd)]

theorem wp_lookupLive (h : Shown m v) (hhandle : handle ≤ u64Max) :
    wp (lookupLive handle) m
      (fun e m' => Looked m m' ∧ handle ∈ v.live ∧ e = v.entry handle)
      (Refused m (NotLive v handle)) := by
  simp only [lookupLive, wp_bind, wp_get]
  refine wp_mono (h.wp_lookup hhandle) ?_ ?_
  · rintro res m' ⟨hl, rfl⟩
    by_cases hin : handle ∈ v.live
    · rw [if_pos hin]
      exact wp_ret ⟨hl, hin, rfl⟩
    · rw [if_neg hin]
      exact wp_fail ⟨hl, .inl ⟨rfl, hin⟩⟩
  · rintro e m' ⟨hl, he⟩
    exact ⟨hl, .inr (he.resolve_left id)⟩

theorem wp_readInner (h : Shown m v) (hhandle : handle ≤ u64Max) :
    wp (readInner handle) m
      (fun b m' => Looked m m' ∧ handle ∈ v.live ∧ b = v.value handle)
      (Refused m (NotLive v handle)) := by
  simp only [readInner, wp_bind]
  refine wp_imp (h.wp_lookupLive hhandle) ?_
  rintro e m1 ⟨hl, hin, rfl⟩
  have h1 := h.looked hl
  have hp := h1.ok.placed handle hin
  cases hf : (v.entry handle).flags with
  | live =>
    obtain ⟨-, slots, hpage, hslot⟩ := hp.inline hf
    have hlt := h1.lt _ (Version.own_pos_of_slots (Version.slots_pos hin hf))
    rw [wp_bind]
    refine wp_mono (wp_looking (P := fun p => p = .data slots) (NotLive v handle) ?_) ?_
      fun e m2 he => he.after hl
    · refine wp_imp (wp_getPage_of_view h1.wf hlt hpage) ?_
      rintro p c ⟨hwf, hst, rfl⟩
      exact ⟨⟨hwf, hst⟩, rfl⟩
    · rintro p m2 ⟨hl2, rfl⟩
      have hread : DataPage.read (.data slots) (v.entry handle).slotIndex =
          some (v.value handle) := hslot
      rw [hread]
      exact wp_ret ⟨hl.trans hl2, hin, rfl⟩
  | overflow =>
    obtain ⟨hhead, hchain⟩ := hp.chained hf
    refine wp_mono (wp_looking (NotLive v handle) (wp_overflowRead h1.wf hchain
      (fun x hx => h1.chain_lt hin hx) hhead)) ?_ fun e m2 he => he.after hl
    rintro b m2 ⟨hl2, rfl⟩
    exact ⟨hl.trans hl2, hin, rfl⟩
  | deleted => exact absurd hf hp.present

theorem wp_iterLive (h : Shown m v) :
    wp (withCache
        (HandleTable.iterLive m.htDepth m.readRoots.handleTablePage)) m
      (fun l m' => Looked m m' ∧ l = PageTree.listing handleLayout.shape handleLayout.isAbsent
        v.depth 0 v.table) (Refused m fun _ => False) := by
  refine wp_looking _ ?_
  rw [h.tied.depth]
  exact wp_iter handleLayout_lawful h.ok.table.depth_le h.table_holds h.next_le h.tied.table
    h.ok.table.keys

theorem wp_handlesForTag (h : Shown m v) {tag : Nat} (htag : tag ≤ u64Max) :
    wp (withCache (MembershipIndex.handlesForTag m.outerDepth
        m.readRoots.membershipIndexPage tag)) m
      (fun l m' => Looked m m' ∧ l = v.index.members tag) (Refused m fun _ => False) := by
  refine wp_looking _ ?_
  rw [h.tied.outer]
  exact Chisel.wp_handlesForTag h.ok.index.ok h.index_held h.tied.index h.next_le htag

end Shown

end Chisel
