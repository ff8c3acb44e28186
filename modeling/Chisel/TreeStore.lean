import Chisel.CacheSpec
import Chisel.Lib.RadixTree

/-! Radix trees in the page cache. The cells of a tree are the pages of its own types; reading a
node of a stored tree changes nothing that shows and fails only when memory ran out. -/

namespace Chisel

open StateError PageCache RadixTree Ledger

/-- Saturating arithmetic computes the clamped base of a subtree. -/
theorem satAdd_satMul (b i n : Nat) :
    satAdd (min b u64Max) (satMul i n) = min (b + i * n) u64Max := by
  unfold satAdd satMul
  omega

variable {V : Type} {S : Shape} {cell : Page → Option (Cell V)}

def cellsOf (cell : Page → Option (Cell V)) (view : Nat → Option Page) (x : Nat) :
    Option (Cell V) := (view x).bind cell

theorem cellsOf_eq_some {view : Nat → Option Page} {x : Nat} {k : Cell V} :
    cellsOf cell view x = some k ↔ ∃ p, view x = some p ∧ cell p = some k := by
  simp [cellsOf, Option.bind_eq_some_iff]

structure Stored (S : Shape) (cell : Page → Option (Cell V)) (c : PageCache) (h : Nat)
    (sub : PageTree V) : Prop where
  wf : c.WF
  rep : PageTree.Rep S (cellsOf cell c.store.view) h sub
  lt : ∀ x, 0 < sub.count S x → x < c.store.next

namespace Stored

variable {c c' : PageCache} {h : Nat} {sub : PageTree V}

theorem of_reads (hs : Stored S cell c h sub) (hr : Reads c c') : Stored S cell c' h sub where
  wf := hr.1
  rep := hr.2 ▸ hs.rep
  lt := hr.2 ▸ hs.lt

theorem root_lt (hs : Stored S cell c h sub) (hne : sub ≠ .nil) : sub.root < c.store.next :=
  hs.lt _ (PageTree.count_root_pos hne)

theorem kid {id i : Nat} {kids : Nat → PageTree V} (hs : Stored S cell c (h + 1) (.node id kids))
    (hi : i < S.fanout) : Stored S cell c h (kids i) where
  wf := hs.wf
  rep := hs.rep.2.2 i hi
  lt x hx := hs.lt x (Nat.lt_of_lt_of_le hx (PageTree.count_kid_le kids hi id))

theorem leaf_page (hs : Stored S cell c 0 sub) (hne : sub ≠ .nil) :
    ∃ vals p, sub = .leaf sub.root vals ∧ c.store.view sub.root = some p ∧
      cell p = some (.leaf vals) := by
  obtain ⟨vals, hsub, hrd⟩ := hs.rep.leaf_of_zero hne
  obtain ⟨p, hv, hp⟩ := cellsOf_eq_some.mp hrd
  exact ⟨vals, p, hsub, hv, hp⟩

theorem node_page (hs : Stored S cell c (h + 1) sub) (hne : sub ≠ .nil) :
    ∃ kids ptrs p, sub = .node sub.root kids ∧ c.store.view sub.root = some p ∧
      cell p = some (.node ptrs) ∧ ∀ i < S.fanout, ptrs i = (kids i).root := by
  obtain ⟨kids, ptrs, hsub, hrd, hptrs, -⟩ := hs.rep.node_of_succ hne
  obtain ⟨p, hv, hp⟩ := cellsOf_eq_some.mp hrd
  exact ⟨kids, ptrs, p, hsub, hv, hp, hptrs⟩

end Stored

end Chisel
