import Chisel.Lib.RadixTree

/-! Following the pointers of a heap of cells. What is met on the way down from the root of a tree
that the heap holds are the addresses of the tree, and the values in the leaves that are met are
what it stores. -/

namespace RadixTree

open Ledger

/-- The address `x` is met on the way down from `r`. -/
inductive Under {V : Type} (S : Shape) (rd : Nat → Option (Cell V)) (r : Nat) : Nat → Prop
  | root : Under S rd r r
  | kid {x i : Nat} {ptrs : Nat → Nat} (h : Under S rd r x) (node : rd x = some (.node ptrs))
    (lt : i < S.fanout) (ne : ptrs i ≠ 0) : Under S rd r (ptrs i)

namespace PageTree

/-- `sub`, of height `h'`, is the subtree of `t` for the keys from `base` on. -/
inductive Sub {V : Type} (S : Shape) (h : Nat) (t : PageTree V) : Nat → PageTree V → Nat → Prop
  | self : Sub S h t h t 0
  | kid {h' id i base : Nat} {kids : Nat → PageTree V}
    (up : Sub S h t (h' + 1) (.node id kids) base)
    (lt : i < S.fanout) : Sub S h t h' (kids i) (base + i * S.span h')

variable {V : Type} {S : Shape} {d : V} {h h' x base : Nat} {t sub : PageTree V}
  {rd : Nat → Option (Cell V)}

namespace Sub

theorem rep (hs : Sub S h t h' sub base) (hr : Rep S rd h t) : Rep S rd h' sub := by
  induction hs with
  | self => exact hr
  | kid _ lt ih => exact ih.2.2 _ lt

theorem count_le (hs : Sub S h t h' sub base) (x : Nat) : sub.count S x ≤ t.count S x := by
  induction hs with
  | self => exact Nat.le_refl _
  | kid _ lt ih => exact (count_kid_le _ lt _).trans ih

theorem get (hs : Sub S h t h' sub base) {k : Nat} (hk : k < S.span h') :
    base + k < S.span h ∧ PageTree.get S d h t (base + k) = PageTree.get S d h' sub k := by
  induction hs generalizing k with
  | self =>
    rw [Nat.zero_add]
    exact ⟨hk, rfl⟩
  | kid _ lt ih =>
    obtain ⟨h1, h2⟩ := ih (kid_key_lt lt hk)
    rw [Nat.add_assoc]
    exact ⟨h1, h2.trans (get_kid hk)⟩

theorem trans {h'' base' : Nat} {sub' : PageTree V} (hs : Sub S h t h' sub base)
    (hs' : Sub S h' sub h'' sub' base') : Sub S h t h'' sub' (base + base') := by
  induction hs' with
  | self => exact hs
  | kid _ lt ih =>
    rw [← Nat.add_assoc]
    exact .kid ih lt

theorem under (hs : Sub S h t h' sub base) (hr : Rep S rd h t) (hne : sub ≠ nil) :
    Under S rd t.root sub.root := by
  induction hs with
  | self => exact .root
  | kid up lt ih =>
    obtain ⟨-, ⟨ptrs, hnode, hptrs⟩, hkids⟩ := up.rep hr
    have hroot := (hkids _ lt).root_ne_zero hne
    rw [← hptrs _ lt] at hroot ⊢
    exact .kid (ih nofun) hnode lt hroot

end Sub

theorem Rep.exists_sub (hr : Rep S rd h t) (hne : t ≠ nil) (hu : Under S rd t.root x) :
    ∃ h' sub base, Sub S h t h' sub base ∧ sub ≠ nil ∧ sub.root = x := by
  induction hu with
  | root => exact ⟨h, t, 0, .self, hne, rfl⟩
  | kid _ hnode lt hz ih =>
    obtain ⟨h', sub, base, hs, hsub, rfl⟩ := ih
    cases h' with
    | zero =>
      obtain ⟨vals, -, hleaf⟩ := (hs.rep hr).leaf_of_zero hsub
      cases hleaf.symm.trans hnode
    | succ h' =>
      obtain ⟨kids, ptrs', hsub', hnode', hptrs, -⟩ := (hs.rep hr).node_of_succ hsub
      obtain rfl := Cell.node.inj (Option.some.inj (hnode'.symm.trans hnode))
      rw [hsub'] at hs
      refine ⟨h', kids _, _, .kid hs lt, ?_, (hptrs _ lt).symm⟩
      exact ne_nil_of_root (hptrs _ lt ▸ hz)

theorem Rep.sub_of_count (hr : Rep S rd h t) (hx : 0 < t.count S x) :
    ∃ h' sub base, Sub S h t h' sub base ∧ sub ≠ nil ∧ sub.root = x := by
  induction h generalizing t with
  | zero =>
    cases t with
    | nil => cases hx
    | leaf id vals =>
      obtain rfl := one_pos.mp hx
      exact ⟨0, _, 0, .self, nofun, rfl⟩
    | node id kids => exact hr.elim
  | succ h ih =>
    cases t with
    | nil => cases hx
    | leaf id vals => exact hr.elim
    | node id kids =>
      rcases count_node_pos hx with rfl | ⟨i, hi, hpos⟩
      · exact ⟨h + 1, _, 0, .self, nofun, rfl⟩
      · obtain ⟨h', sub, base, hs, hsub⟩ := ih (hr.2.2 i hi) hpos
        exact ⟨h', sub, _, (Sub.kid .self hi).trans hs, hsub⟩

theorem Rep.under_iff (hr : Rep S rd h t) (hne : t ≠ nil) :
    Under S rd t.root x ↔ 0 < t.count S x := by
  constructor
  · intro hu
    obtain ⟨h', sub, base, hs, hsub, rfl⟩ := hr.exists_sub hne hu
    exact Nat.lt_of_lt_of_le (count_root_pos hsub) (hs.count_le _)
  · intro hx
    obtain ⟨h', sub, base, hs, hsub, rfl⟩ := hr.sub_of_count hx
    exact hs.under hr hsub

theorem Rep.get_of_leaf (hr : Rep S rd h t) (hne : t ≠ nil) (hu : Under S rd t.root x)
    {vals : Nat → V} (hleaf : rd x = some (.leaf vals)) {j : Nat} (hj : j < S.leafCap) :
    ∃ k < S.span h, PageTree.get S d h t k = vals j := by
  obtain ⟨h', sub, base, hs, hsub, rfl⟩ := hr.exists_sub hne hu
  cases h' with
  | zero =>
    obtain ⟨vals', hsub', hleaf'⟩ := (hs.rep hr).leaf_of_zero hsub
    obtain rfl := Cell.leaf.inj (Option.some.inj (hleaf'.symm.trans hleaf))
    obtain ⟨hk, hget⟩ := hs.get (d := d) (k := j) hj
    refine ⟨base + j, hk, hget.trans ?_⟩
    rw [hsub']
    rfl
  | succ h' =>
    obtain ⟨kids, ptrs, -, hnode, -⟩ := (hs.rep hr).node_of_succ hsub
    cases hnode.symm.trans hleaf

theorem Rep.leaf_of_get (hr : Rep S rd h t) {k : Nat} (hk : k < S.span h)
    (hv : PageTree.get S d h t k ≠ d) :
    ∃ x vals j, Under S rd t.root x ∧ rd x = some (.leaf vals) ∧ j < S.leafCap ∧
      vals j = PageTree.get S d h t k := by
  suffices hsub : ∃ sub base j, Sub S h t 0 sub base ∧ sub ≠ nil ∧ j < S.leafCap ∧ k = base + j by
    obtain ⟨sub, base, j, hs, hne, hj, rfl⟩ := hsub
    obtain ⟨vals, hsub', hleaf⟩ := (hs.rep hr).leaf_of_zero hne
    refine ⟨sub.root, vals, j, hs.under hr hne, hleaf, hj, ?_⟩
    rw [(hs.get (d := d) (k := j) hj).2, hsub']
    rfl
  induction h generalizing t k with
  | zero =>
    cases t with
    | nil => exact absurd (get_nil 0 k) hv
    | leaf id vals => exact ⟨_, 0, k, .self, nofun, hk, (Nat.zero_add k).symm⟩
    | node id kids => exact hr.elim
  | succ h ih =>
    cases t with
    | nil => exact absurd (get_nil (h + 1) k) hv
    | leaf id vals => exact hr.elim
    | node id kids =>
      have hi := S.div_span_lt hk
      obtain ⟨sub, base, j, hs, hne, hj, hkj⟩ :=
        ih (hr.2.2 _ hi) (Nat.mod_lt _ (S.span_pos h)) hv
      refine ⟨sub, _, j, (Sub.kid .self hi).trans hs, hne, hj, ?_⟩
      rw [Nat.add_assoc, ← hkj, Nat.zero_add]
      exact (Nat.div_add_mod' k (S.span h)).symm

/-- The value under `k`, found by following the pointers from `r` down `h` levels; `d` where they
lead nowhere. -/
def find (S : Shape) (rd : Nat → Option (Cell V)) (d : V) : Nat → Nat → Nat → V
  | 0, r, k =>
    match rd r with
    | some (.leaf vals) => vals k
    | _ => d
  | h + 1, r, k =>
    match rd r with
    | some (.node ptrs) =>
      if ptrs (k / S.span h) = 0 then d else find S rd d h (ptrs (k / S.span h)) (k % S.span h)
    | _ => d

theorem Rep.find_eq (hr : Rep S rd h t) (hne : t ≠ nil) {k : Nat} (hk : k < S.span h) :
    find S rd d h t.root k = PageTree.get S d h t k := by
  induction h generalizing t k with
  | zero =>
    obtain ⟨vals, ht, hleaf⟩ := hr.leaf_of_zero hne
    rw [find, hleaf, ht]
    rfl
  | succ h ih =>
    obtain ⟨kids, ptrs, ht, hnode, hptrs, hkids⟩ := hr.node_of_succ hne
    have hi := S.div_span_lt hk
    have hget : PageTree.get S d (h + 1) t k =
        PageTree.get S d h (kids (k / S.span h)) (k % S.span h) := by
      rw [ht]
      rfl
    rw [find, hnode, hget]
    simp only [hptrs _ hi]
    split
    · next hz => rw [(hkids _ hi).root_eq_zero_iff.mp hz, get_nil]
    · next hz => exact ih (hkids _ hi) (ne_nil_of_root hz) (Nat.mod_lt _ (S.span_pos h))

end PageTree

end RadixTree
