import Mathlib.Algebra.BigOperators.Group.Finset.Basic
import Mathlib.Algebra.BigOperators.Group.Finset.Piecewise
import Mathlib.Algebra.Order.BigOperators.Group.Finset
import Mathlib.Tactic.Common
import Chisel.Lib.Ledger

/-! Radix trees in a heap of cells. A tree is a value of its own, with the address of every node;
`Rep` says that a heap holds it, `count` says at which addresses it lies, and `content` says which
value it stores under a key. Copying the path to a key is then a change of the tree, and what it
does to the addresses and to the contents is a matter of two short lemmas. -/

namespace RadixTree

open Ledger

variable {k id i id' key : Nat}

/-- The values in a leaf and the children of an inner node. -/
structure Shape where
  leafCap : Nat
  fanout : Nat
  leafCap_pos : 0 < leafCap
  fanout_pos : 0 < fanout

/-- The number of keys under a node `h` levels above the leaves. -/
def Shape.span (S : Shape) : Nat → Nat
  | 0 => S.leafCap
  | h + 1 => S.span h * S.fanout

theorem Shape.span_pos (S : Shape) (h : Nat) : 0 < S.span h := by
  induction h with
  | zero => exact S.leafCap_pos
  | succ h ih => exact Nat.mul_pos ih S.fanout_pos

theorem Shape.div_span_lt {S : Shape} {h : Nat} (hk : k < S.span (h + 1)) :
    k / S.span h < S.fanout :=
  (Nat.div_lt_iff_lt_mul (S.span_pos h)).mpr (by rwa [Nat.mul_comm])

theorem Shape.leafCap_dvd_span (S : Shape) (h : Nat) : S.leafCap ∣ S.span h := by
  induction h with
  | zero => exact Nat.dvd_refl _
  | succ h ih => exact Nat.dvd_mul_right_of_dvd ih _

/-- A tree with its addresses. -/
inductive PageTree (V : Type)
  | nil
  | leaf (id : Nat) (vals : Nat → V)
  | node (id : Nat) (kids : Nat → PageTree V)

inductive Cell (V : Type)
  | leaf (vals : Nat → V)
  | node (ptrs : Nat → Nat)

namespace PageTree

variable {V : Type} (S : Shape)

/-- The address of the root; 0 for the empty tree. -/
def root : PageTree V → Nat
  | nil => 0
  | leaf id _ => id
  | node id _ => id

/-- How often a node lies at `x`. -/
def count (x : Nat) : PageTree V → Nat
  | nil => 0
  | leaf id _ => one id x
  | node id kids => one id x + ∑ i ∈ Finset.range S.fanout, (kids i).count x

/-- The value under `k` in a tree of height `h`; `d` where there is none. -/
def get (d : V) : Nat → PageTree V → Nat → V
  | 0, leaf _ vals, k => vals k
  | h + 1, node _ kids, k => get d h (kids (k / S.span h)) (k % S.span h)
  | _, _, _ => d

/-- The heap `rd` holds the tree. -/
def Rep (rd : Nat → Option (Cell V)) : Nat → PageTree V → Prop
  | _, nil => True
  | 0, leaf id vals => id ≠ 0 ∧ rd id = some (.leaf vals)
  | h + 1, node id kids => id ≠ 0 ∧
      (∃ ptrs, rd id = some (.node ptrs) ∧ ∀ i < S.fanout, ptrs i = (kids i).root) ∧
      ∀ i < S.fanout, Rep rd h (kids i)
  | _, _ => False

/-- The leftmost path reaches a leaf. -/
def Spine : Nat → PageTree V → Prop
  | 0, leaf _ _ => True
  | h + 1, node _ kids => Spine h (kids 0)
  | _, _ => False

variable {S} {d : V} {h x : Nat} {rd rd' : Nat → Option (Cell V)} {t t' : PageTree V}

/-! ### Addresses -/

@[simp] theorem count_nil : count S x (nil : PageTree V) = 0 := rfl

@[simp] theorem count_leaf {vals : Nat → V} :
    count S x (leaf id vals) = one id x := rfl

theorem count_node {kids : Nat → PageTree V} : count S x (node id kids) =
    one id x + ∑ i ∈ Finset.range S.fanout, (kids i).count S x := rfl

theorem count_root_pos (hne : t ≠ nil) : 0 < t.count S t.root := by
  cases t with
  | nil => exact absurd rfl hne
  | leaf id vals => simp [root]
  | node id kids => simp [root, count_node]

theorem count_kid_le (kids : Nat → PageTree V) (hi : i < S.fanout) (id : Nat) :
    (kids i).count S x ≤ count S x (node id kids) := by
  rw [count_node]
  have := Finset.single_le_sum (f := fun i => (kids i).count S x) (fun _ _ => Nat.zero_le _)
    (Finset.mem_range.mpr hi)
  exact this.trans (Nat.le_add_left ..)

theorem count_node_pos {kids : Nat → PageTree V} (hx : 0 < count S x (node id kids)) :
    x = id ∨ ∃ i < S.fanout, 0 < (kids i).count S x := by
  rw [count_node] at hx
  by_cases hid : id = x
  · exact .inl hid.symm
  · rw [one_of_ne hid, Nat.zero_add] at hx
    obtain ⟨i, hi, hpos⟩ := Finset.exists_ne_zero_of_sum_ne_zero hx.ne'
    exact .inr ⟨i, Finset.mem_range.mp hi, Nat.pos_of_ne_zero hpos⟩

theorem sum_count_update (kids : Nat → PageTree V) (hi : i < S.fanout) (t : PageTree V) :
    (∑ j ∈ Finset.range S.fanout, (Function.update kids i t j).count S x) + (kids i).count S x =
      (∑ j ∈ Finset.range S.fanout, (kids j).count S x) + t.count S x := by
  have hm := Finset.mem_range.mpr hi
  have hupd : (fun j => (Function.update kids i t j).count S x) =
      Function.update (fun j => (kids j).count S x) i (t.count S x) := by
    funext j
    by_cases hj : j = i
    · subst hj; simp
    · simp [hj]
  rw [hupd, Finset.sum_update_of_mem hm, ← Finset.add_sum_erase _ _ hm,
    ← Finset.erase_eq]
  omega

theorem count_kids_le (kids : Nat → PageTree V) {j : Nat} (hi : i < S.fanout) (hj : j < S.fanout)
    (hij : j ≠ i) : (kids j).count S x + (kids i).count S x ≤
      ∑ l ∈ Finset.range S.fanout, (kids l).count S x := by
  have h1 := sum_count_update (x := x) kids hi nil
  have h2 := Finset.single_le_sum (f := fun l => (Function.update kids i nil l).count S x)
    (fun _ _ => Nat.zero_le _) (Finset.mem_range.mpr hj)
  simp only [Function.update_of_ne hij] at h2
  simp only [count_nil] at h1
  omega

theorem count_node_update (kids : Nat → PageTree V) (hi : i < S.fanout) (t : PageTree V)
    (id id' : Nat) :
    count S x (node id' (Function.update kids i t)) + (kids i).count S x +
        one id x =
      count S x (node id kids) + t.count S x + one id' x := by
  have := sum_count_update (x := x) kids hi t
  rw [count_node, count_node]
  omega

/-! ### Representation -/

@[simp] theorem rep_nil : Rep S rd h (nil : PageTree V) := by
  cases h <;> trivial

theorem Rep.root_ne_zero (hr : Rep S rd h t) (hne : t ≠ nil) : t.root ≠ 0 := by
  cases t with
  | nil => exact absurd rfl hne
  | leaf id vals =>
    cases h with
    | zero => exact hr.1
    | succ h => exact hr.elim
  | node id kids =>
    cases h with
    | zero => exact hr.elim
    | succ h => exact hr.1

theorem ne_nil_of_root (hz : t.root ≠ 0) : t ≠ nil := by
  rintro rfl
  exact hz rfl

theorem Rep.root_eq_zero_iff (hr : Rep S rd h t) : t.root = 0 ↔ t = nil :=
  ⟨fun hz => by_contra fun hne => hr.root_ne_zero hne hz, fun he => he ▸ rfl⟩

theorem Rep.leaf_of_zero (hr : Rep S rd 0 t) (hne : t ≠ nil) :
    ∃ vals, t = leaf t.root vals ∧ rd t.root = some (.leaf vals) := by
  cases t with
  | nil => exact absurd rfl hne
  | leaf id vals => exact ⟨vals, rfl, hr.2⟩
  | node id kids => exact hr.elim

theorem Rep.node_of_succ (hr : Rep S rd (h + 1) t) (hne : t ≠ nil) :
    ∃ kids ptrs, t = node t.root kids ∧ rd t.root = some (.node ptrs) ∧
      (∀ i < S.fanout, ptrs i = (kids i).root) ∧ ∀ i < S.fanout, Rep S rd h (kids i) := by
  cases t with
  | nil => exact absurd rfl hne
  | leaf id vals => exact hr.elim
  | node id kids =>
    obtain ⟨-, ⟨ptrs, h1, h2⟩, h3⟩ := hr
    exact ⟨kids, ptrs, rfl, h1, h2, h3⟩

/-- Only the cells of the tree matter. -/
theorem Rep.frame (hr : Rep S rd h t) (heq : ∀ x, 0 < t.count S x → rd' x = rd x) :
    Rep S rd' h t := by
  induction h generalizing t with
  | zero =>
    cases t with
    | nil => trivial
    | leaf id vals => exact ⟨hr.1, (heq id (by simp)).trans hr.2⟩
    | node id kids => exact hr.elim
  | succ h ih =>
    cases t with
    | nil => trivial
    | leaf id vals => exact hr.elim
    | node id kids =>
      obtain ⟨h0, ⟨ptrs, h1, h2⟩, h3⟩ := hr
      refine ⟨h0, ⟨ptrs, (heq id (by simp [count_node])).trans h1, h2⟩, fun i hi => ?_⟩
      exact ih (h3 i hi) fun x hx => heq x (Nat.lt_of_lt_of_le hx (count_kid_le kids hi id))

theorem Rep.exists_cell (hr : Rep S rd h t) (hx : 0 < t.count S x) : ∃ c, rd x = some c := by
  induction h generalizing t with
  | zero =>
    cases t with
    | nil => cases hx
    | leaf id vals =>
      obtain rfl := one_pos.mp hx
      exact ⟨_, hr.2⟩
    | node id kids => exact hr.elim
  | succ h ih =>
    cases t with
    | nil => cases hx
    | leaf id vals => exact hr.elim
    | node id kids =>
      obtain ⟨-, ⟨ptrs, h1, -⟩, h3⟩ := hr
      rcases count_node_pos hx with rfl | ⟨i, hi, hpos⟩
      · exact ⟨_, h1⟩
      · exact ih (h3 i hi) hpos

/-- A node with one subtree replaced. -/
theorem Rep.update {kids : Nat → PageTree V} {ptrs : Nat → Nat}
    (hptrs : ∀ j < S.fanout, ptrs j = (kids j).root) (hkids : ∀ j < S.fanout, Rep S rd h (kids j))
    (hid : id' ≠ 0) (ht : Rep S rd h t) (hrd : rd id' =
    some (.node (Function.update ptrs i t.root))) :
    Rep S rd (h + 1) (node id' (Function.update kids i t)) := by
  refine ⟨hid, ⟨_, hrd, fun j hj => ?_⟩, fun j hj => ?_⟩
  · by_cases hji : j = i
    · subst hji; simp
    · simp [hji, hptrs j hj]
  · by_cases hji : j = i
    · subst hji; simpa using ht
    · simpa [hji] using hkids j hj

/-- The tree with its root at another address. -/
def reroot (id : Nat) : PageTree V → PageTree V
  | nil => nil
  | leaf _ vals => leaf id vals
  | node _ kids => node id kids

@[simp] theorem reroot_root (t : PageTree V) : t.reroot t.root = t := by
  cases t <;> rfl

theorem root_reroot (hne : t ≠ nil) : (t.reroot id).root = id := by
  cases t with
  | nil => exact absurd rfl hne
  | leaf | node => rfl

theorem reroot_ne_nil (hne : t ≠ nil) : t.reroot id ≠ nil := by
  cases t with
  | nil => exact absurd rfl hne
  | leaf | node => simp [reroot]

theorem count_reroot (hne : t ≠ nil) :
    (t.reroot id).count S x + one t.root x = t.count S x + one id x := by
  cases t with
  | nil => exact absurd rfl hne
  | leaf i vals => simp [reroot, root, Nat.add_comm]
  | node i kids =>
    simp only [reroot, root, count_node]
    omega

theorem Rep.reroot (hr : Rep S rd h t) (hid : id ≠ 0) (hcopy : rd' id = rd t.root)
    (heq : ∀ x, 0 < t.count S x → rd' x = rd x) : Rep S rd' h (t.reroot id) := by
  cases t with
  | nil => simp [PageTree.reroot]
  | leaf i vals =>
    cases h with
    | zero => exact ⟨hid, hcopy.trans hr.2⟩
    | succ h => exact hr.elim
  | node i kids =>
    cases h with
    | zero => exact hr.elim
    | succ h =>
      obtain ⟨-, -, h3⟩ := hr.frame heq
      obtain ⟨-, ⟨ptrs, h1, h2⟩, -⟩ := hr
      exact ⟨hid, ⟨ptrs, hcopy.trans h1, h2⟩, h3⟩

/-! ### Contents -/

def content (S : Shape) (d : V) (h : Nat) (t : PageTree V) (k : Nat) : V :=
  if k < S.span h then get S d h t k else d

@[simp] theorem get_nil (h k : Nat) : get S d h (nil : PageTree V) k = d := by
  cases h <;> rfl

@[simp] theorem content_nil (h k : Nat) : content S d h (nil : PageTree V) k = d := by
  simp [content]

@[simp] theorem get_reroot (id k : Nat) : get S d h (t.reroot id) k = get S d h t k := by
  cases t <;> cases h <;> rfl

/-- `t'` stores `v` under `key` and agrees with `t` elsewhere. -/
def Sets (S : Shape) (d : V) (h : Nat) (t t' : PageTree V) (key : Nat) (v : V) : Prop :=
  ∀ k < S.span h, get S d h t' k = if k = key then v else get S d h t k

theorem Sets.leaf {vals : Nat → V} (v : V) :
    Sets S d 0 (leaf id vals) (leaf id' (Function.update vals key v)) key v := by
  intro k _
  simp [get, Function.update_apply]

theorem Sets.node {kids : Nat → PageTree V} {v : V}
    (ht : Sets S d h (kids (key / S.span h)) t (key % S.span h) v) :
    Sets S d (h + 1) (node id kids) (node id' (Function.update kids (key / S.span h) t)) key v := by
  intro k _
  have hmod := Nat.mod_lt k (S.span_pos h)
  simp only [get]
  by_cases hd : k / S.span h = key / S.span h
  · rw [hd, Function.update_self, ht _ hmod]
    have hiff : k % S.span h = key % S.span h ↔ k = key := by
      constructor
      · intro hm
        rw [← Nat.div_add_mod k (S.span h), ← Nat.div_add_mod key (S.span h), hd, hm]
      · rintro rfl; rfl
    simp only [hiff]
  · rw [Function.update_of_ne hd, if_neg]
    rintro rfl
    exact hd rfl

theorem Sets.content {v : V} (ht : Sets S d h t t' key v) (hk : key < S.span h) :
    content S d h t' = Function.update (content S d h t) key v := by
  funext k
  unfold PageTree.content
  by_cases hlt : k < S.span h
  · by_cases hkk : k = key
    · subst hkk; simp [hlt, ht k hlt]
    · simp [hlt, ht k hlt, hkk]
  · have : k ≠ key := fun he => hlt (he ▸ hk)
    simp [hlt, this]

theorem get_kid {kids : Nat → PageTree V} (hk : k < S.span h) :
    get S d (h + 1) (node id kids) (i * S.span h + k) = get S d h (kids i) k := by
  have hpos := S.span_pos h
  have hdiv : (i * S.span h + k) / S.span h = i := by
    rw [Nat.add_comm, Nat.add_mul_div_right _ _ hpos, Nat.div_eq_of_lt hk, Nat.zero_add]
  have hmod : (i * S.span h + k) % S.span h = k := by
    rw [Nat.add_comm, Nat.add_mul_mod_self_right, Nat.mod_eq_of_lt hk]
  simp only [get, hdiv, hmod]

theorem kid_key_lt (hi : i < S.fanout) (hk : k < S.span h) :
    i * S.span h + k < S.span (h + 1) := by
  have h1 : (i + 1) * S.span h ≤ S.fanout * S.span h := Nat.mul_le_mul_right _ hi
  have h2 : S.span (h + 1) = S.fanout * S.span h := Nat.mul_comm ..
  rw [Nat.succ_mul] at h1
  omega

theorem content_grow (id : Nat) :
    content S d (h + 1) (node id (Function.update (fun _ => nil) 0 t)) = content S d h t := by
  funext k
  unfold content
  by_cases hlt : k < S.span h
  · have hlt' : k < S.span (h + 1) :=
      Nat.lt_of_lt_of_le hlt (Nat.le_mul_of_pos_right _ S.fanout_pos)
    simp [hlt, hlt', get, Nat.div_eq_of_lt hlt, Nat.mod_eq_of_lt hlt]
  · have hne : k / S.span h ≠ 0 := by
      rw [Ne, Nat.div_eq_zero_iff]
      exact not_or.mpr ⟨(S.span_pos h).ne', hlt⟩
    simp [hlt, get, hne]

theorem count_grow : count S x (node id (Function.update (fun _ => nil) 0 t)) =
    one id x + t.count S x := by
  have := sum_count_update (x := x) (fun _ => (nil : PageTree V)) S.fanout_pos t
  simp only [count_nil, Finset.sum_const_zero, Nat.add_zero, Nat.zero_add] at this
  rw [count_node, this]

/-! ### Empty trees -/

/-- A new node of height `h` with nothing in it. -/
def empty (d : V) : Nat → Nat → PageTree V
  | 0, id => leaf id fun _ => d
  | _ + 1, id => node id fun _ => nil

@[simp] theorem root_empty (h id : Nat) : (empty d h id).root = id := by
  cases h <;> rfl

theorem empty_ne_nil (h id : Nat) : empty d h id ≠ nil := by
  cases h <;> simp [empty]

@[simp] theorem count_empty (h id : Nat) : (empty d h id).count S x = one id x := by
  cases h <;> simp [empty, count_node]

@[simp] theorem get_empty (id k : Nat) : get S d h (empty d h id) k = d := by
  cases h <;> simp [empty, get]

theorem content_empty (id k : Nat) : content S d h (empty d h id) k = d := by
  simp [content]

/-! ### The leftmost path -/

theorem Spine.ne_nil (hs : Spine h t) : t ≠ nil := by
  rintro rfl
  cases h <;> exact hs.elim

theorem Spine.update {kids : Nat → PageTree V} (hs : Spine (h + 1) (node id kids))
    (ht : Spine h (kids i) → Spine h t) :
    Spine (h + 1) (node id' (Function.update kids i t)) := by
  change Spine h (Function.update kids i t 0)
  by_cases hi : i = 0
  · subst hi
    rw [Function.update_self]
    exact ht hs
  · rw [Function.update_of_ne (Ne.symm hi)]
    exact hs

theorem Spine.grow (hs : Spine h t) :
    Spine (h + 1) (node id (Function.update (fun _ => nil) 0 t)) := by
  change Spine h (Function.update (fun _ => nil) 0 t 0)
  rwa [Function.update_self]

/-! ### Listing -/

/-- The keys and values of a tree from key `b` on, in order, without the values that are `gone`. -/
def listing (S : Shape) (gone : V → Bool) : Nat → Nat → PageTree V → List (Nat × V)
  | 0, b, leaf _ vals =>
    ((List.range S.leafCap).filter fun i => !gone (vals i)).map fun i => (b + i, vals i)
  | h + 1, b, node _ kids =>
    (List.range S.fanout).flatMap fun i => listing S gone h (b + i * S.span h) (kids i)
  | _, _, _ => []

@[simp] theorem listing_nil {gone : V → Bool} (h b : Nat) :
    listing S gone h b (nil : PageTree V) = [] := by
  cases h <;> rfl

theorem mem_listing {gone : V → Bool} (hd : gone d = true) {b : Nat} {v : V} :
    (k, v) ∈ listing S gone h b t ↔
      ∃ j < S.span h, k = b + j ∧ v = get S d h t j ∧ gone v = false := by
  induction h generalizing t b with
  | zero =>
    cases t with
    | leaf id vals =>
      simp only [listing, List.mem_map, List.mem_filter, List.mem_range, Prod.mk.injEq,
        Bool.not_eq_true', get]
      constructor
      · rintro ⟨i, ⟨hi, hg⟩, rfl, rfl⟩
        exact ⟨i, hi, rfl, rfl, hg⟩
      · rintro ⟨i, hi, rfl, rfl, hg⟩
        exact ⟨i, ⟨hi, hg⟩, rfl, rfl⟩
    | nil | node id kids => simp_all [listing, get]
  | succ h ih =>
    cases t with
    | node id kids =>
      simp only [listing, List.mem_flatMap, List.mem_range, ih]
      constructor
      · rintro ⟨i, hi, j, hj, rfl, rfl, hg⟩
        exact ⟨i * S.span h + j, kid_key_lt hi hj, by omega, (get_kid hj).symm, hg⟩
      · rintro ⟨j, hj, rfl, rfl, hg⟩
        refine ⟨j / S.span h, Shape.div_span_lt hj, j % S.span h, Nat.mod_lt _ (S.span_pos h), ?_,
          rfl, hg⟩
        have := Nat.div_add_mod' j (S.span h)
        omega
    | nil | leaf id vals => simp_all [listing, get]

theorem sorted_listing {gone : V → Bool} {b : Nat} (hd : gone d = true) :
    ((listing S gone h b t).map Prod.fst).Pairwise (· < ·) := by
  induction h generalizing t b with
  | zero =>
    cases t with
    | leaf id vals =>
      simp only [listing, List.map_map]
      refine List.pairwise_map.mpr (List.Pairwise.filter _ ?_)
      exact List.pairwise_lt_range.imp fun hlt => Nat.add_lt_add_left hlt b
    | nil | node id kids => exact List.Pairwise.nil
  | succ h ih =>
    cases t with
    | node id kids =>
      simp only [listing, List.map_flatMap]
      refine List.pairwise_flatMap.mpr ⟨fun i _ => ih, ?_⟩
      refine List.pairwise_lt_range.imp fun {i j} hij => ?_
      intro k hk k' hk'
      obtain ⟨⟨_, v⟩, hm, rfl⟩ := List.mem_map.mp hk
      obtain ⟨⟨_, v'⟩, hm', rfl⟩ := List.mem_map.mp hk'
      obtain ⟨a, ha, rfl, -⟩ := (mem_listing hd).mp hm
      obtain ⟨a', ha', rfl, -⟩ := (mem_listing hd).mp hm'
      have hmul : (i + 1) * S.span h ≤ j * S.span h := Nat.mul_le_mul_right _ hij
      rw [Nat.succ_mul] at hmul
      simp only
      omega
    | nil | leaf id vals => exact List.Pairwise.nil

theorem mem_listing_content {gone : V → Bool} (hd : gone d = true) {v : V} :
    (k, v) ∈ listing S gone h 0 t ↔ v = content S d h t k ∧ gone v = false := by
  rw [mem_listing hd]
  constructor
  · rintro ⟨j, hj, rfl, rfl, hv⟩
    rw [Nat.zero_add]
    exact ⟨(if_pos hj).symm, hv⟩
  · rintro ⟨rfl, hv⟩
    have hk : k < S.span h := by
      by_contra hge
      rw [content, if_neg hge, hd] at hv
      cases hv
    exact ⟨k, hk, (Nat.zero_add k).symm, if_pos hk, hv⟩

end PageTree

end RadixTree
