import Chisel.Runs
import Chisel.Lending

/-! The order in which free pages are used again. The hint never lies above a free page, so the page
that is handed out is the lowest free one. -/

namespace Chisel

open StateError PageCache TransactionManager RadixTree Ledger

/-- The pages that are free in the tree that an allocation works on. -/
def AllocCtx.isFree (s : AllocCtx) : Nat → Bool := freeAt s.store.view s.tree.depth s.tree.root

section States

variable {past : Past} {ex : Prop} {lo : Nat} {s s' : AllocCtx} {m : TransactionManager}
  {v : Version} {t t' : PageTree Bool} {lost : Nat → Nat} {ids : List Nat} {id x : Nat}

theorem AllocInv.isFree_eq (h : AllocInv lo s t) : s.isFree = fmBits s t := h.rooted.freeAt_eq

theorem AllocInv.hint_le (h : AllocInv lo s t) (hx : s.isFree x = true) : s.hint ≤ x := by
  rw [h.isFree_eq] at hx
  exact h.hinted x hx

/-- Between two transactions the tree is the one that the next transaction starts with. -/
theorem Idle.hint_le (h : Idle ex m v t lost) (hx : m.takeTree.isFree x = true) :
    m.freemap.hint ≤ x := by
  refine h.alloc.hint_le (x := x) ?_
  have hroot := h.map.1
  have hdepth := h.map.2
  unfold AllocCtx.isFree at hx ⊢
  change freeAt _ m.currentRoots.freemapDepth m.currentRoots.freemapPage x = true at hx
  rw [hroot, hdepth] at hx
  exact hx

theorem Sane.hint_le (h : Sane past m) (hx : m.takeTree.isFree x = true) : m.freemap.hint ≤ x := by
  cases h with
  | idle hO => exact hO.toIdle.hint_le hx
  | running hR => exact hR.txn.core.alloc.hint_le hx
  | dead _ _ _ _ _ halloc =>
    obtain ⟨t, halloc⟩ := halloc
    exact halloc.hint_le hx

theorem Sane.alloc (h : Sane past m) (ha : m.activeTxn = true) :
    ∃ t, AllocInv m.superblockCount m.takeTree t := by
  cases h with
  | idle hO => exact absurd (ha.symm.trans hO.inactive) nofun
  | running hR => exact ⟨_, hR.txn.core.anchored.superblocks ▸ hR.txn.core.alloc⟩
  | dead _ _ _ _ _ halloc => exact halloc

end States

/-- In every state of every run the hint is not above a free page. In a transaction without
savepoints, if there is nothing to recycle, then the next page is the lowest free one, it is taken
from the end of the file only if no page is free, and for its own nodes the free map lets the file
grow only when it has used up the pages that it may write again. -/
theorem lowest_free_page_first {f : DbFile} (hf : f.image.len = 0 ∨ f.Sound) (steps : List Step)
    {m : TransactionManager} (hrun : (Db.closed f).run steps = .opened m) :
    (∀ x, m.takeTree.isFree x = true → m.freemap.hint ≤ x) ∧
    (m.activeTxn = true → m.savepoints = [] → ∃ t, AllocInv m.superblockCount m.takeTree t ∧
      ∀ ids s t', (cow m.reuse m.superblockCount).Issued m.takeTree t ids s t' →
        (∀ x, s.isFree x = true → s.hint ≤ x) ∧
        ∀ id s', s.pool.recyclable = [] → m.alloc s = .ok id s' →
          ((∃ x, s.isFree x = true) → IsLeast {x | s.isFree x = true} id) ∧
          ((∀ x, s.isFree x = false) → id = s.cache.nextPageId) ∧
          (s.cache.nextPageId < s'.cache.nextPageId →
            (∀ x, s.isFree x = false) ∨ s'.structuralReuse = [])) := by
  have hs : Sane .unknown m := (dbOk_unknown hf).reaches hrun
  refine ⟨fun x hx => hs.hint_le hx, fun ha hsave => ?_⟩
  obtain ⟨t, hinv⟩ := hs.alloc ha
  refine ⟨t, hinv, fun ids s t' hissued => ?_⟩
  have hinv' : AllocInv m.superblockCount s t' := hissued.inv
  refine ⟨fun x hx => hinv'.hint_le hx, fun id s' hempty hok => ?_⟩
  have hreuse : m.reuse = true := by
    unfold TransactionManager.reuse
    rw [hsave]
    rfl
  have hspec := (wp_ok hok).mp (wp_cowAlloc (r := m.reuse) hinv')
  obtain ⟨hleast, hlast, hgrows⟩ := hspec.2 hreuse hempty
  rw [hinv'.isFree_eq]
  exact ⟨hleast, fun hnone => (hlast hnone).1, hgrows⟩

/-- A value is stored and deleted, and the file is opened again: pages 2 and 4 are free. -/
def reopenedWithFree : List Step :=
  [.open {}, .op .begin, .op (.allocate [1]), .op .commit, .op .begin, .op (.delete 1), .op .commit,
    .drop, .open {}, .op .begin]

theorem lowest_free_page_first_reopened :
    ∃ m id s', (Db.closed .empty).run reopenedWithFree = .opened m ∧
    m.alloc m.takeTree = .ok id s' ∧
      m.takeTree.isFree 4 = true ∧ IsLeast {x | m.takeTree.isFree x = true} id := by
  have hend : ((Db.closed .empty).run reopenedWithFree).holds (fun m => m.activeTxn &&
      m.savepoints.isEmpty && m.txnPages.recyclable.isEmpty && m.takeTree.isFree 4 &&
      returns m.alloc m.takeTree) = true := by decide +kernel
  obtain ⟨m, hm, hp⟩ := Db.of_holds hend
  simp only [Bool.and_eq_true, List.isEmpty_iff] at hp
  obtain ⟨⟨⟨⟨ha, hsave⟩, hpool⟩, hfree⟩, halloc⟩ := hp
  obtain ⟨id, s', hok⟩ := exists_ok halloc
  obtain ⟨t, hinv, hnext⟩ := (lowest_free_page_first (.inl rfl) reopenedWithFree hm).2 ha hsave
  have hleast := ((hnext [] m.takeTree t (.refl hinv)).2 id s' hpool hok).1 ⟨4, hfree⟩
  exact ⟨m, id, s', hm, hok, hfree, hleast⟩

/-- The claim of a free page copies a leaf of the free map, and after the file was opened there is
no dead page to copy it to: the file grows although pages are free. -/
theorem claim_extends_file :
    ∃ m id s', (Db.closed .empty).run reopenedWithFree = .opened m ∧ m.activeTxn = true ∧
      m.savepoints = [] ∧ m.txnPages.recyclable = [] ∧ m.takeTree.isFree 4 = true ∧
      m.alloc m.takeTree = .ok id s' ∧ m.cache.nextPageId < s'.cache.nextPageId := by
  have hend : ((Db.closed .empty).run reopenedWithFree).holds (fun m => m.activeTxn &&
      m.savepoints.isEmpty && m.txnPages.recyclable.isEmpty && m.takeTree.isFree 4 &&
      gives m.alloc (fun _ s' => decide (m.cache.nextPageId < s'.cache.nextPageId)) m.takeTree) =
        true := by
    decide +kernel
  obtain ⟨m, hm, hp⟩ := Db.of_holds hend
  simp only [Bool.and_eq_true, List.isEmpty_iff] at hp
  obtain ⟨⟨⟨⟨ha, hsave⟩, hpool⟩, hfree⟩, halloc⟩ := hp
  obtain ⟨id, s', hok, hgrows⟩ := exists_of_gives halloc
  exact ⟨m, id, s', hm, ha, hsave, hpool, hfree, hok, of_decide_eq_true hgrows⟩

end Chisel
