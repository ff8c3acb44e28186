import Chisel.HandleTable
import Chisel.RadixWrite

/-! The handle table and the membership index. The index is a tree of tags whose values name a tree
of handles each, so its pages are those of the outer tree and of every inner tree. -/

namespace Chisel

open StateError PageCache RadixTree Ledger

theorem handleLayout_lawful : handleLayout.Lawful where
  leaf_iff p vals := by cases p <;> simp [handleLayout]
  interior_iff p ch := by cases p <;> simp [handleLayout]
  leaf_ne_interior _ _ := nofun
  setChild _ _ _ := rfl
  leaf_not_data _ := rfl
  interior_not_data _ := rfl
  leaf_not_freeMap _ := rfl
  interior_not_freeMap _ := rfl
  capacity_lt := by decide
  capacity_max := by decide
  span_max := by decide
  absent_gone := rfl

theorem radixU64_lawful : radixU64.Lawful where
  leaf_iff p vals := by cases p <;> simp [radixU64]
  interior_iff p ch := by cases p <;> simp [radixU64]
  leaf_ne_interior _ _ := nofun
  setChild _ _ _ := rfl
  leaf_not_data _ := rfl
  interior_not_data _ := rfl
  leaf_not_freeMap _ := rfl
  interior_not_freeMap _ := rfl
  capacity_lt := by decide
  capacity_max := by decide
  span_max := by decide
  absent_gone := rfl

/-- The trees of an index: the outer one, the tags it holds, and the tree of each tag with its
height. -/
structure Index where
  outer : PageTree Nat
  tags : Finset Nat
  inner : Nat → PageTree Nat
  height : Nat → Nat

namespace Index

def count (g : Index) (x : Nat) : Nat :=
  g.outer.count radixU64.shape x + ∑ tag ∈ g.tags, (g.inner tag).count radixU64.shape x

/-- The word of a handle in the tree of a tag; 0 if it is not there. -/
def word (g : Index) (tag handle : Nat) : Nat :=
  PageTree.content radixU64.shape 0 (g.height tag) (g.inner tag) handle

/-- The outer tree, of height `h`, names the inner trees. -/
structure Ok (g : Index) (h : Nat) : Prop where
  outer_le : h ≤ radixU64.maxDepth
  outer_zero : g.outer = .nil → h = 0
  outer_spine : g.outer ≠ .nil → PageTree.Spine h g.outer
  names : ∀ tag, PageTree.content radixU64.shape 0 h g.outer tag =
    if tag ∈ g.tags then g.height tag * 2 ^ 58 + (g.inner tag).root else 0
  root_bounds : ∀ tag ∈ g.tags, 0 < (g.inner tag).root ∧ (g.inner tag).root < 2 ^ 58
  height_le : ∀ tag ∈ g.tags, g.height tag ≤ radixU64.maxDepth
  nil_iff : ∀ tag, g.inner tag = .nil ↔ tag ∉ g.tags
  keys : ∀ tag, KeysOk radixU64 (g.height tag) (g.inner tag)

variable {g : Index} {h : Nat}

structure Held (c : PageCache) (h : Nat) (g : Index) : Prop where
  outer : Holds radixU64 c h g.outer
  inner : ∀ tag ∈ g.tags, Holds radixU64 c (g.height tag) (g.inner tag)

/-- The root and the height of the tree of a tag, as they are packed in its word. -/
def entry (g : Index) (tag : Nat) : Nat × Nat :=
  if tag ∈ g.tags then ((g.inner tag).root, g.height tag) else (0, 0)

theorem Ok.unpack (hok : g.Ok h) (tag : Nat) :
    MembershipIndex.unpackInner (PageTree.content radixU64.shape 0 h g.outer tag) =
    g.entry tag := by
  rw [hok.names, entry]
  by_cases ht : tag ∈ g.tags
  · have hlt := (hok.root_bounds tag ht).2
    rw [if_pos ht, if_pos ht, MembershipIndex.unpackInner, Prod.mk.injEq]
    constructor
    · rw [Nat.mul_comm, Nat.mul_add_mod, Nat.mod_eq_of_lt hlt]
    · rw [Nat.mul_comm, Nat.mul_add_div (by decide), Nat.div_eq_of_lt hlt, Nat.add_zero]
  · rw [if_neg ht, if_neg ht]
    rfl

theorem Ok.entry_root_eq_zero (hok : g.Ok h) (tag : Nat) :
    (g.entry tag).1 = 0 ↔ tag ∉ g.tags := by
  unfold entry
  by_cases ht : tag ∈ g.tags
  · simp [ht, (hok.root_bounds tag ht).1.ne']
  · simp [ht]

def none : Index := ⟨.nil, ∅, fun _ => .nil, fun _ => 0⟩

theorem ok_none : none.Ok 0 where
  outer_le := Nat.zero_le _
  outer_zero _ := rfl
  outer_spine hne := absurd rfl hne
  names tag := (PageTree.content_nil ..).trans (if_neg (Finset.notMem_empty tag)).symm
  root_bounds := nofun
  height_le := nofun
  nil_iff tag := iff_of_true rfl (Finset.notMem_empty tag)
  keys _ := keysOk_nil radixU64_lawful 0

end Index

/-! ### Reading the index -/

theorem wp_innerOf {c : PageCache} {g : Index} {h root tag : Nat} (hok : g.Ok h)
    (hg : g.Held c h) (hroot : RootedAt root g.outer) (hmax : c.store.next ≤ u64Max)
    (ht : tag ≤ u64Max) :
    wp (MembershipIndex.innerOf h root tag) c
      (fun r c' => Reads c c' ∧ r = g.entry tag) (Crowded c) := by
  simp only [MembershipIndex.innerOf, wp_bind]
  refine wp_imp (wp_lookup radixU64_lawful hok.outer_le hg.outer hmax hroot ht) ?_
  rintro w c' ⟨hreads, rfl⟩
  have hunpack : MembershipIndex.unpackInner
      (PageTree.content radixU64.shape radixU64.absent h g.outer tag) = g.entry tag :=
        hok.unpack tag
  rw [hunpack]
  refine wp_ite (fun hbad => ?_) fun _ => wp_ret ⟨hreads, rfl⟩
  exfalso
  unfold Index.entry at hbad
  by_cases hm : tag ∈ g.tags
  · rw [if_pos hm] at hbad
    exact absurd (hok.height_le tag hm) (Nat.not_le.mpr hbad.2)
  · rw [if_neg hm] at hbad
    exact hbad.1 rfl

/-- The handles of a tag, in order. -/
def Index.members (g : Index) (tag : Nat) : List Nat :=
  (PageTree.listing radixU64.shape radixU64.isAbsent (g.height tag) 0 (g.inner tag)).map Prod.fst

theorem Index.Ok.members_nil {g : Index} {h tag : Nat} (hok : g.Ok h) (ht : tag ∉ g.tags) :
    g.members tag = [] := by
  rw [members, (hok.nil_iff tag).mpr ht, PageTree.listing_nil]
  rfl

theorem Index.Ok.ne_nil {g : Index} {h tag : Nat} (hok : g.Ok h) (ht : tag ∈ g.tags) :
    g.inner tag ≠ .nil := fun hnil => (hok.nil_iff tag).mp hnil ht

theorem Index.Ok.rootedAt {g : Index} {h tag : Nat} (hok : g.Ok h) (ht : tag ∈ g.tags) :
    RootedAt (g.inner tag).root (g.inner tag) :=
  ⟨fun hnil => absurd hnil (hok.ne_nil ht), fun _ => rfl⟩

theorem Index.Ok.not_mem_of_nil {g : Index} {h : Nat} (hok : g.Ok h) (hnil : g.outer = .nil)
    (tag : Nat) : tag ∉ g.tags := by
  intro ht
  have hname := hok.names tag
  rw [hnil, PageTree.content_nil, if_pos ht] at hname
  have := (hok.root_bounds tag ht).1
  omega

section

variable {c : PageCache} {g : Index} {h root tag : Nat} (hok : g.Ok h) (hg : g.Held c h)
  (hroot : RootedAt root g.outer) (hmax : c.store.next ≤ u64Max) (ht : tag ≤ u64Max)

include hok hg hroot hmax ht

theorem wp_ofTag {β : Type} {d : β} {P : β → Prop} (hd : tag ∉ g.tags → P d)
    {x : Nat → Nat → CacheM β}
    (hx : ∀ c', Holds radixU64 c' (g.height tag) (g.inner tag) → c'.store.next ≤ u64Max →
      tag ∈ g.tags → wp (x (g.height tag) (g.inner tag).root) c'
        (fun b c'' => Reads c' c'' ∧ P b) (fun e c'' => Crowded c' e c'')) :
    wp (do
      if root = pageIdNone then return d
      let (innerRoot, innerDepth) ← MembershipIndex.innerOf h root tag
      if innerRoot = 0 then return d
      x innerDepth innerRoot : CacheM β) c
      (fun b c' => Reads c c' ∧ P b) (Crowded c) := by
  refine wp_ite (fun hn => wp_ret ⟨⟨hg.outer.wf, rfl⟩, ?_⟩) fun hn => ?_
  · have hnil := (hroot.none_iff hg.outer hmax).mp hn
    exact hd (hok.not_mem_of_nil hnil tag)
  simp only [wp_bind]
  refine wp_imp (wp_innerOf hok hg hroot hmax ht) ?_
  rintro r c' ⟨hreads, rfl⟩
  have hzero := hok.entry_root_eq_zero tag
  refine wp_ite (fun hz => wp_ret ⟨hreads, hd (hzero.mp hz)⟩) fun hz => ?_
  have hm : tag ∈ g.tags := by_contra fun hm => hz (hzero.mpr hm)
  rw [Index.entry, if_pos hm]
  refine wp_mono (hx c' ((hg.inner tag hm).of_reads hreads) (hreads.2 ▸ hmax) hm) ?_
    fun e c2 hc2 => hc2.of_reads hreads
  rintro b c2 ⟨hc2, hb⟩
  exact ⟨hreads.trans hc2, hb⟩

theorem wp_handlesForTag :
    wp (MembershipIndex.handlesForTag h root tag) c
      (fun l c' => Reads c c' ∧ l = g.members tag) (Crowded c) := by
  refine wp_ofTag hok hg hroot hmax ht (d := []) (P := fun l => l = g.members tag)
    (fun hm => (hok.members_nil hm).symm)
    (x := fun h root => do return (← radixU64.iter h root).map Prod.fst) ?_
  intro c' hs hmax' hm
  rw [wp_bind]
  refine wp_imp (wp_iter radixU64_lawful (hok.height_le tag hm) hs hmax' (hok.rootedAt hm)
    (hok.keys tag)) ?_
  rintro l c2 ⟨hc2, rfl⟩
  exact wp_ret ⟨hc2, rfl⟩

theorem wp_handlesForTagBounded {limit : Nat} :
    wp (MembershipIndex.handlesForTagBounded h root tag limit) c
      (fun l c' => Reads c c' ∧ l = (g.members tag).take limit) (Crowded c) := by
  have hnil : tag ∉ g.tags → [] = (g.members tag).take limit := fun hm => by
    rw [hok.members_nil hm, List.take_nil]
  refine wp_ofTag hok hg hroot hmax ht (d := []) (P := fun l => l = (g.members tag).take limit) hnil
    (x := fun h root => do return (← radixU64.iterBounded h root limit).map Prod.fst) ?_
  intro c' hs hmax' hm
  rw [wp_bind]
  refine wp_imp (wp_iterBounded radixU64_lawful (hok.height_le tag hm) hs hmax' (hok.rootedAt hm)
    (hok.keys tag)) ?_
  rintro l c2 ⟨hc2, rfl⟩
  exact wp_ret ⟨hc2, List.map_take⟩

theorem wp_contains {handle : Nat} (hhandle : handle ≤ u64Max) :
    wp (MembershipIndex.contains h root tag handle) c
      (fun b c' => Reads c c' ∧ (b = true ↔ g.word tag handle ≠ 0))
      (Crowded c) := by
  have habsent : tag ∉ g.tags → (false = true ↔ g.word tag handle ≠ 0) := fun hm => by
    rw [Index.word, (hok.nil_iff tag).mpr hm, PageTree.content_nil]
    simp
  refine wp_ofTag hok hg hroot hmax ht (d := false)
    (P := fun b => b = true ↔ g.word tag handle ≠ 0) habsent
    (x := fun h root => do return (← radixU64.lookup h root handle) ≠ 0) ?_
  intro c' hs hmax' hm
  rw [wp_bind]
  refine wp_imp (wp_lookup radixU64_lawful (hok.height_le tag hm) hs hmax' (hok.rootedAt hm)
    hhandle) ?_
  rintro w c2 ⟨hc2, rfl⟩
  exact wp_ret ⟨hc2, decide_eq_true_iff⟩

end

/-! ### Changing the index -/

namespace Index

variable {G : Type} {A : Allocator G} {g : Index} {h : Nat} {ids : List Nat} {s s' : AllocCtx}
  {a a' : G}

/-- The trees of the index are in the store, on pages the allocator does not own. -/
structure RestsIn (A : Allocator G) (s : AllocCtx) (a : G) (h : Nat) (g : Index) : Prop where
  outer : Rests radixU64 A s a h g.outer
  inner : ∀ tag ∈ g.tags, Rests radixU64 A s a (g.height tag) (g.inner tag)

theorem RestsIn.mono (hg : RestsIn A s a h g) (hl : A.Issued s a ids s' a') :
    RestsIn A s' a' h g :=
  ⟨hg.outer.mono hl, fun tag ht => (hg.inner tag ht).mono hl⟩

theorem RestsIn.peek (hg : RestsIn A s a h g) (hp : Peeked s s') : RestsIn A s' a h g :=
  ⟨hg.outer.peek hp, fun tag ht => (hg.inner tag ht).peek hp⟩

theorem RestsIn.held (hg : RestsIn A s a h g) (hinv : A.Inv s a) : Held s.cache h g :=
  ⟨hg.outer.holds hinv, fun tag ht => (hg.inner tag ht).holds hinv⟩

/-- The index with the tree of one tag replaced, under a new outer tree. -/
def set (g : Index) (outer : PageTree Nat) (tag : Nat) (sub : PageTree Nat) (height : Nat) :
    Index where
  outer := outer
  tags := insert tag g.tags
  inner := Function.update g.inner tag sub
  height := Function.update g.height tag height

/-- The index without one tag, under a new outer tree. -/
def unset (g : Index) (outer : PageTree Nat) (tag : Nat) : Index where
  outer := outer
  tags := g.tags.erase tag
  inner := Function.update g.inner tag .nil
  height := g.height

theorem sum_count_update {T : Finset Nat} {f : Nat → PageTree Nat} {tag : Nat} {sub : PageTree Nat}
    (x : Nat) : (∑ i ∈ T, (Function.update f tag sub i).count radixU64.shape x) =
      ∑ i ∈ T, Function.update (fun i => (f i).count radixU64.shape x) tag
        (sub.count radixU64.shape x) i := by
  refine Finset.sum_congr rfl fun i _ => ?_
  by_cases hi : i = tag
  · subst hi
    simp
  · simp [hi]

theorem count_set (hok : g.Ok h) (outer : PageTree Nat) (tag : Nat) (sub : PageTree Nat)
    (height x : Nat) :
    (g.set outer tag sub height).count x + g.outer.count radixU64.shape x +
        (g.inner tag).count radixU64.shape x =
      g.count x + outer.count radixU64.shape x + sub.count radixU64.shape x := by
  have hsum := sum_insert_update (T := g.tags) (f := fun i => (g.inner i).count radixU64.shape x)
    (a := tag) (sub.count radixU64.shape x) fun ht => by
      rw [(hok.nil_iff tag).mpr ht, PageTree.count_nil]
  unfold count set
  rw [sum_count_update]
  dsimp only at hsum ⊢
  omega

theorem count_unset (outer : PageTree Nat) {tag : Nat} (ht : tag ∈ g.tags) (x : Nat) :
    (g.unset outer tag).count x + g.outer.count radixU64.shape x +
        (g.inner tag).count radixU64.shape x = g.count x + outer.count radixU64.shape x := by
  have hsum := sum_erase_update (f := fun i => (g.inner i).count radixU64.shape x)
    ((PageTree.nil : PageTree Nat).count radixU64.shape x) ht
  unfold count unset
  rw [sum_count_update]
  dsimp only at hsum ⊢
  omega

theorem Ok.set (hok : g.Ok h) {h' height tag : Nat} {outer sub : PageTree Nat}
    (hle : h' ≤ radixU64.maxDepth) (hne : outer ≠ .nil) (hspine : PageTree.Spine h' outer)
    (hnames : PageTree.content radixU64.shape 0 h' outer = Function.update
      (PageTree.content radixU64.shape 0 h g.outer) tag (height * 2 ^ 58 + sub.root))
    (hroot : 0 < sub.root ∧ sub.root < 2 ^ 58) (hheight : height ≤ radixU64.maxDepth)
    (hkeys : KeysOk radixU64 height sub) : (g.set outer tag sub height).Ok h' where
  outer_le := hle
  outer_zero hnil := absurd hnil hne
  outer_spine _ := hspine
  names τ := by
    rw [show (g.set outer tag sub height).outer = outer from rfl, hnames]
    by_cases hτ : τ = tag
    · subst hτ
      simp [Index.set]
    · simp [Index.set, hτ, hok.names]
  root_bounds τ hτ := by
    by_cases h1 : τ = tag
    · subst h1
      simpa [Index.set] using hroot
    · have hm : τ ∈ g.tags := by simpa [Index.set, h1] using hτ
      simpa [Index.set, h1] using hok.root_bounds τ hm
  height_le τ hτ := by
    by_cases h1 : τ = tag
    · subst h1
      simpa [Index.set] using hheight
    · have hm : τ ∈ g.tags := by simpa [Index.set, h1] using hτ
      simpa [Index.set, h1] using hok.height_le τ hm
  nil_iff τ := by
    by_cases h1 : τ = tag
    · subst h1
      have : sub ≠ .nil := PageTree.ne_nil_of_root hroot.1.ne'
      simp [Index.set, this]
    · simp [Index.set, h1, hok.nil_iff]
  keys τ := by
    by_cases h1 : τ = tag
    · subst h1
      simpa [Index.set] using hkeys
    · simpa [Index.set, h1] using hok.keys τ

theorem Ok.unset (hok : g.Ok h) {tag : Nat} {outer : PageTree Nat} (hne : outer ≠ .nil)
    (hspine : PageTree.Spine h outer)
    (hnames : PageTree.content radixU64.shape 0 h outer =
      Function.update (PageTree.content radixU64.shape 0 h g.outer) tag 0) :
    (g.unset outer tag).Ok h where
  outer_le := hok.outer_le
  outer_zero hnil := absurd hnil hne
  outer_spine _ := hspine
  names τ := by
    rw [show (g.unset outer tag).outer = outer from rfl, hnames]
    by_cases hτ : τ = tag
    · subst hτ
      simp [Index.unset]
    · simp [Index.unset, hτ, hok.names]
  root_bounds τ hτ := by
    obtain ⟨h1, hm⟩ := Finset.mem_erase.mp hτ
    simpa [Index.unset, h1] using hok.root_bounds τ hm
  height_le τ hτ := hok.height_le τ (Finset.mem_erase.mp hτ).2
  nil_iff τ := by
    by_cases h1 : τ = tag
    · subst h1
      simp [Index.unset]
    · simp [Index.unset, h1, hok.nil_iff]
  keys τ := by
    by_cases h1 : τ = tag
    · subst h1
      intro k _ hk
      simp [Index.unset, PageTree.get_nil, radixU64] at hk
    · simpa [Index.unset, h1] using hok.keys τ

theorem word_set (g : Index) (outer : PageTree Nat) (tag : Nat) (sub : PageTree Nat)
    (height τ k : Nat) :
    (g.set outer tag sub height).word τ k =
      if τ = tag then PageTree.content radixU64.shape 0 height sub k else g.word τ k := by
  unfold word Index.set
  by_cases hτ : τ = tag
  · subst hτ
    simp
  · simp [hτ]

theorem word_unset (g : Index) (outer : PageTree Nat) (tag τ k : Nat) :
    (g.unset outer tag).word τ k = if τ = tag then 0 else g.word τ k := by
  unfold word Index.unset
  by_cases hτ : τ = tag
  · subst hτ
    simp
  · simp [hτ]

/-- The index `g` became `g'`, as `res` says. -/
structure Changed (A : Allocator G) (s : AllocCtx) (a : G) (g : Index) (ids : List Nat)
    (res : RadixLayout.Inserted) (s' : AllocCtx) (a' : G) (g' : Index) : Prop where
  issued : A.Issued s a ids s' a'
  count : ∀ x, g'.count x + res.freed.count x = g.count x + ids.count x
  rests : g'.RestsIn A s' a' res.depth
  ok : g'.Ok res.depth
  rooted : RootedAt res.root g'.outer

theorem RestsIn.set {outer sub : PageTree Nat} {h' tag height : Nat} (hg : RestsIn A s a h g)
    (houter : Rests radixU64 A s a h' outer) (hsub : Rests radixU64 A s a height sub) :
    RestsIn A s a h' (g.set outer tag sub height) where
  outer := houter
  inner τ hτ := by
    by_cases h1 : τ = tag
    · subst h1
      simpa [Index.set] using hsub
    · have hm : τ ∈ g.tags := by simpa [Index.set, h1] using hτ
      simpa [Index.set, h1] using hg.inner τ hm

theorem RestsIn.unset {outer : PageTree Nat} {h' tag : Nat} (hg : RestsIn A s a h g)
    (houter : Rests radixU64 A s a h' outer) : RestsIn A s a h' (g.unset outer tag) where
  outer := houter
  inner τ hτ := by
    obtain ⟨h1, hm⟩ := Finset.mem_erase.mp hτ
    simpa [Index.unset, h1] using hg.inner τ hm

end Index

theorem packInner_ok {root depth w : Nat} (h : MembershipIndex.packInner root depth = .ok w) :
    root < 2 ^ 58 ∧ w = depth * 2 ^ 58 + root := by
  unfold MembershipIndex.packInner at h
  split at h
  · cases h
  · next hlt =>
    rw [not_or] at hlt
    exact ⟨Nat.lt_of_not_le hlt.1, (Except.ok.inj h).symm⟩

theorem packInner_error {root depth : Nat} {e : ChiselError} (hd : depth ≤ radixU64.maxDepth)
    (h : MembershipIndex.packInner root depth = .error e) : e = .panicked ∧ 2 ^ 58 ≤ root := by
  unfold MembershipIndex.packInner at h
  split at h
  · next hbad =>
    refine ⟨(Except.error.inj h).symm, hbad.resolve_right fun hdeep => ?_⟩
    have hmax : radixU64.maxDepth < 2 ^ 6 := by decide
    omega
  · cases h

section Operations

variable {G : Type} {A : Allocator G} {g : Index} {h root tag handle : Nat} {s s' : AllocCtx}
  {a a' : G}

/-- The last part of a change: pack the new inner tree and name it in the outer one. `g0` is the
index before the change, `g` the same index with its outer tree in place. -/
theorem wp_nameInner {g0 : Index} {s0 : AllocCtx} {a0 : G} {ids0 freed : List Nat}
    (h0 : A.Issued s0 a0 ids0 s a) (hok : g.Ok h) (hg : g.RestsIn A s a h) (hne : g.outer ≠ .nil)
    {sub : PageTree Nat} {height w : Nat} (hsub : Rests radixU64 A s a height sub)
    (hsne : sub ≠ .nil) (hheight : height ≤ radixU64.maxDepth) (hkeys : KeysOk radixU64 height sub)
    (htag : tag ≤ u64Max) (hcount : ∀ x, g.count x + sub.count radixU64.shape x + freed.count x =
      g0.count x + (g.inner tag).count radixU64.shape x + ids0.count x)
    (hcont : PageTree.content radixU64.shape 0 height sub = Function.update (g.word tag) handle w)
    {α : Type} {f : RadixLayout.Inserted → α} {Q : α → AllocCtx → Prop}
    {E : ChiselError → AllocCtx → Prop} (hE : ∀ e s', A.Refuses s0 a0 e s' → E e s')
    (hQ : ∀ ids res s' a' g', Index.Changed A s0 a0 g0 ids ⟨res.root, res.depth, freed ++ res.freed⟩
        s' a' g' → g'.tags = insert tag g.tags →
      (∀ τ k, g'.word τ k = if τ = tag ∧ k = handle then w else g.word τ k) → Q (f res) s') :
    wp (do
      let packed ← MembershipIndex.liftExcept (MembershipIndex.packInner sub.root height)
      let outer ← radixU64.insert A.alloc h g.outer.root tag packed
      return f outer) s Q E := by
  rw [wp_bind]
  cases hpack : MembershipIndex.packInner sub.root height with
  | error e =>
    obtain ⟨rfl, hbig⟩ := packInner_error hheight hpack
    have hlt := hsub.lt (PageTree.count_root_pos hsne)
    exact wp_fail (hE _ s (h0.refuses
      ⟨.of_cache (A.sound h0.inv).wf rfl, .inr ⟨rfl, by omega⟩⟩))
  | ok packed =>
    obtain ⟨hlt, rfl⟩ := packInner_ok hpack
    refine wp_ret ?_
    rw [wp_bind]
    refine wp_mono (wp_insert radixU64_lawful hok.outer_le h0.inv hg.outer hne htag) ?_
      fun e s' hr => hE e s' (h0.trans_refuses hr)
    intro res s1 ⟨ids, a1, outer, _, hrep, hroot, hd, hc⟩
    have hpos : 0 < sub.root := Nat.pos_of_ne_zero (hsub.rep.root_ne_zero hsne)
    refine wp_ret (hQ _ res s1 a1 (g.set outer tag sub height) ⟨h0.trans hrep.issued, fun x => ?_,
      (hg.mono hrep.issued).set hrep.rests (hsub.mono hrep.issued),
      hok.set hd hrep.ne_nil (hrep.spine (hok.outer_spine hne)) hc ⟨hpos, hlt⟩ hheight hkeys,
      fun hnil => absurd hnil hrep.ne_nil, fun _ => hroot⟩ rfl fun τ k => ?_)
    · have h1 := Index.count_set hok outer tag sub height x
      have h2 := hrep.count x
      have h3 := hcount x
      rw [List.count_append, List.count_append]
      omega
    · rw [Index.word_set]
      by_cases hτ : τ = tag
      · subst hτ
        rw [if_pos rfl, hcont, Function.update_apply]
        simp
      · rw [if_neg hτ, if_neg fun hc => hτ hc.1]

/-- The tree that the entry of a tag names, empty if the tag is new. -/
theorem Index.Ok.entry_rests (hok : g.Ok h) (hg : g.RestsIn A s a h) (tag : Nat) :
    Rests radixU64 A s a (g.entry tag).2 (g.inner tag) ∧ (g.entry tag).2 ≤ radixU64.maxDepth ∧
      ((g.entry tag).1 = 0 ↔ g.inner tag = .nil) ∧
      (g.inner tag ≠ .nil → (g.entry tag).1 = (g.inner tag).root) ∧
      PageTree.content radixU64.shape 0 (g.entry tag).2 (g.inner tag) = g.word tag := by
  have hzero := (hok.entry_root_eq_zero tag).trans (hok.nil_iff tag).symm
  by_cases hm : tag ∈ g.tags
  · rw [Index.entry, if_pos hm] at hzero ⊢
    exact ⟨hg.inner tag hm, hok.height_le tag hm, hzero, fun _ => rfl, rfl⟩
  · have hnil := (hok.nil_iff tag).mpr hm
    rw [Index.entry, if_neg hm] at hzero ⊢
    refine ⟨hnil ▸ ⟨PageTree.rep_nil, fun x hx => absurd hx (Nat.lt_irrefl 0)⟩, Nat.zero_le _,
      hzero, fun hn => absurd hnil hn, funext fun k => ?_⟩
    rw [Index.word, hnil, PageTree.content_nil, PageTree.content_nil]

theorem wp_membershipInsert (hinv : A.Inv s a) (hok : g.Ok h) (hg : g.RestsIn A s a h)
    (hroot : RootedAt root g.outer) (htag : tag ≤ u64Max) (hhandle : handle ≤ u64Max) :
    wp (MembershipIndex.insert A.alloc h root tag handle) s
      (fun res s' => ∃ ids a' g', Index.Changed A s a g ids res s' a' g' ∧
        g'.tags = insert tag g.tags ∧
        ∀ τ k, g'.word τ k = if τ = tag ∧ k = handle then 1 else g.word τ k)
      (fun e s' => A.Refuses s a e s') := by
  simp only [MembershipIndex.insert]
  rw [wp_bind]
  have hmiss := hroot.none_iff (hg.outer.holds hinv) (A.sound hinv).next_le
  refine wp_imp (wp_rootOr radixU64_lawful hinv hg.outer hok.outer_le hmiss hroot.eq) ?_
  rintro ⟨root1, h'⟩ s1 ⟨ids1, a1, outer, h1, hout1, hne, hroot1, hle, hcont, hcount1, hspine⟩
  dsimp only at hroot1 hout1 hle hcont hspine
  subst hroot1
  -- with its missing root made, the index is the same index
  set g1 : Index := ⟨outer, g.tags, g.inner, g.height⟩ with hg1def
  have hok1 : g1.Ok h' :=
    ⟨hle, fun hnil => absurd hnil hne, fun _ => hspine hok.outer_spine, fun τ =>
      (congrFun hcont τ).trans (hok.names τ), hok.root_bounds, hok.height_le, hok.nil_iff, hok.keys⟩
  have hg1 : g1.RestsIn A s1 a1 h' := ⟨hout1, (hg.mono h1).inner⟩
  have hroot1 : RootedAt outer.root g1.outer := ⟨fun hnil => absurd hnil hne, fun _ => rfl⟩
  rw [wp_bind]
  refine wp_mono (wp_peek (wp_innerOf hok1 (hg1.held h1.inv) hroot1 (A.sound h1.inv).next_le htag))
    ?_ fun e s2 hb => h1.refuses hb
  rintro entry s2 ⟨hp2, rfl⟩
  have h2 := h1.peek hp2
  obtain ⟨hrest, hhle, hzero, hreq, hword⟩ := hok1.entry_rests (hg1.peek hp2) tag
  rw [wp_bind]
  refine wp_mono (wp_rootOr radixU64_lawful h2.inv hrest hhle hzero hreq) ?_
    fun e s' hr => h2.trans_refuses hr
  rintro ⟨root3, height3⟩ s3 ⟨ids3, a3, sub3, h3, hsub3, hne3, hroot3, hle3, hcont3, hcount3, -⟩
  dsimp only at hroot3 hsub3 hle3 hcont3
  subst hroot3
  have h23 := h2.trans h3
  rw [wp_bind]
  refine wp_mono (wp_insert radixU64_lawful hle3 h3.inv hsub3 hne3 hhandle) ?_
    fun e s' hr => h23.trans_refuses hr
  rintro inner s4 ⟨ids4, a4, sub4, -, hrep4, hroot4, hle4, hcont4⟩
  have h24 := h3.trans hrep4.issued
  have hcontent4 : PageTree.content radixU64.shape 0 inner.depth sub4 =
      Function.update (g1.word tag) handle 1 := by
    rw [← hword]
    exact hcont4.trans (congrArg (Function.update · handle 1) hcont3)
  have hkeys : KeysOk radixU64 inner.depth sub4 :=
    KeysOk.update radixU64_lawful (hok.keys tag) hhandle (v := 1) hcontent4
  have hcount : ∀ x, g1.count x + sub4.count radixU64.shape x + inner.freed.count x =
      g.count x + (g.inner tag).count radixU64.shape x + (ids1 ++ (ids3 ++ ids4)).count x := by
    intro x
    have hc1 := hcount1 x
    have hc3 : sub3.count radixU64.shape x = (g.inner tag).count radixU64.shape x + ids3.count x :=
      hcount3 x
    have hc4 := hrep4.count x
    simp only [Index.count, hg1def, List.count_append]
    omega
  rw [hroot4]
  exact wp_nameInner (f := fun o => (⟨o.root, o.depth, inner.freed ++ o.freed⟩ :
    RadixLayout.Inserted)) (h2.trans h24) hok1 ((hg1.peek hp2).mono h24) hne hrep4.rests
    hrep4.ne_nil hle4 hkeys htag hcount hcontent4 (fun _ _ hr => hr)
    fun ids _ _ a' g' hc htags hw => ⟨ids, a', g', hc, htags, hw⟩

theorem Index.Changed.of_peeked (hinv : A.Inv s a) (hok : g.Ok h) (hg : g.RestsIn A s a h)
    (hroot : RootedAt root g.outer) (hp : Peeked s s') :
    Index.Changed A s a g [] ⟨root, h, []⟩ s' a g :=
  ⟨(Allocator.Issued.refl hinv).peek hp, fun _ => rfl, hg.peek hp, hok, hroot⟩

/-- The tags after a removal: a tag goes with its last handle, and then every page of its tree is
freed. -/
structure Index.Cleared (g : Index) (tag : Nat) (freed : List Nat) (g' : Index) : Prop where
  gone : (∀ k, g'.word tag k = 0) → tag ∈ g.tags →
    g'.tags = g.tags.erase tag ∧ ∀ x, (g.inner tag).count radixU64.shape x ≤ freed.count x
  stays : ∀ k, g'.word tag k ≠ 0 → g'.tags = g.tags

/-- What a removal leaves, and what it answers. -/
def Index.Removed (A : Allocator G) (s : AllocCtx) (a : G) (g : Index) (tag handle : Nat)
    (res : RadixLayout.Inserted × Bool) (s' : AllocCtx) : Prop :=
  ∃ ids a' g', Index.Changed A s a g ids res.1 s' a' g' ∧
    (∀ τ k, g'.word τ k = if τ = tag ∧ k = handle then 0 else g.word τ k) ∧
    (res.2 = true ↔ g.word tag handle ≠ 0) ∧
    (res.2 = false → g' = g) ∧ (res.2 = true → g.Cleared tag res.1.freed g')

theorem Index.Removed.nothing (hinv : A.Inv s a) (hok : g.Ok h) (hg : g.RestsIn A s a h)
    (hroot : RootedAt root g.outer) (hw : g.word tag handle = 0) (hp : Peeked s s') :
    g.Removed A s a tag handle (⟨root, h, []⟩, false) s' := by
  refine ⟨[], a, g, .of_peeked hinv hok hg hroot hp, fun τ k => ?_, by simp [hw], fun _ => rfl,
    nofun⟩
  split
  · next hc => rw [hc.1, hc.2, hw]
  · rfl

/-- The tree of a tag has been copied without one handle; the outer tree names the old one yet. -/
structure Index.Taken (A : Allocator G) (s : AllocCtx) (a : G) (g : Index) (h tag handle : Nat)
    (ids freed : List Nat) (s' : AllocCtx) (a' : G) (sub : PageTree Nat) : Prop where
  mem : tag ∈ g.tags
  there : g.word tag handle ≠ 0
  issued : A.Issued s a ids s' a'
  rests : g.RestsIn A s' a' h
  copied : Rests radixU64 A s' a' (g.height tag) sub
  ne_nil : sub ≠ .nil
  count : ∀ x, sub.count radixU64.shape x + freed.count x =
    (g.inner tag).count radixU64.shape x + ids.count x
  content : PageTree.content radixU64.shape 0 (g.height tag) sub =
    Function.update (g.word tag) handle 0

namespace Index.Taken

variable {ids freed : List Nat} {sub : PageTree Nat} (ht : Taken A s a g h tag handle ids freed
  s' a' sub) (hok : g.Ok h) (hroot : RootedAt root g.outer) (hne : g.outer ≠ .nil)
  (htag : tag ≤ u64Max)

include ht hok hroot hne htag

/-- Handles are left: the outer tree is made to name the copy. -/
theorem wp_name (hhandle : handle ≤ u64Max) {k : Nat}
    (hk : PageTree.content radixU64.shape 0 (g.height tag) sub k ≠ 0) :
    wp (do
      let packed ← MembershipIndex.liftExcept (MembershipIndex.packInner sub.root (g.height tag))
      let outer ← radixU64.insert A.alloc h root tag packed
      return ((⟨outer.root, outer.depth, freed ++ outer.freed⟩, true) :
        RadixLayout.Inserted × Bool)) s' (g.Removed A s a tag handle) (A.Refuses s a) := by
  have hcount : ∀ x, g.count x + sub.count radixU64.shape x + freed.count x =
      g.count x + (g.inner tag).count radixU64.shape x + ids.count x := fun x => by
    have := ht.count x
    omega
  rw [hroot.eq hne]
  refine wp_nameInner (f := fun o => ((⟨o.root, o.depth, freed ++ o.freed⟩, true) :
    RadixLayout.Inserted × Bool)) ht.issued hok ht.rests hne ht.copied ht.ne_nil
    (hok.height_le tag ht.mem) (KeysOk.update radixU64_lawful (hok.keys tag) hhandle ht.content)
    htag hcount ht.content (fun _ _ hr => hr) ?_
  intro ids' res s4 a4 g' hc htags hw
  refine ⟨ids', a4, g', hc, hw, iff_of_true rfl ht.there, nofun, fun _ =>
    ⟨fun hall _ => absurd ?_ hk, fun _ _ => htags.trans (Finset.insert_eq_self.mpr ht.mem)⟩⟩
  rw [ht.content, Function.update_apply]
  have hzero := hall k
  rw [hw] at hzero
  simpa using hzero

/-- The last handle of the tag: the whole inner tree goes, and its name. -/
theorem wp_drop (hall : ∀ k, PageTree.content radixU64.shape 0 (g.height tag) sub k = 0) :
    wp (do
      let dead ← onCache (radixU64.freeSubtree (g.height tag) sub.root)
      let (newOuter, _, freedOuter) ← radixU64.delete A.alloc h root tag
      return ((⟨newOuter, h, freed ++ dead ++ freedOuter⟩, true) :
        RadixLayout.Inserted × Bool)) s' (g.Removed A s a tag handle) (A.Refuses s a) := by
  have hinv := ht.issued.inv
  rw [wp_bind]
  refine wp_mono (wp_peek (wp_freeSubtree radixU64_lawful (ht.copied.holds hinv)
    (A.sound hinv).next_le ht.ne_nil)) ?_ fun e s4 hb => ht.issued.refuses hb
  intro dead s4 ⟨hp4, hdead⟩
  have h4 := ht.issued.peek hp4
  have hg4 := ht.rests.peek hp4
  rw [wp_bind]
  refine wp_mono (wp_delete radixU64_lawful hok.outer_le h4.inv hg4.outer hroot htag) ?_
    fun e s5 hr => h4.trans_refuses hr
  rintro ⟨newOuter, prev, freedOuter⟩ s5 hrem
  cases prev with
  | none =>
    -- the outer tree does name the tag
    have habs : PageTree.content radixU64.shape 0 h g.outer tag = 0 :=
      beq_iff_eq.mp (hrem.missing rfl).2.1
    have hpos := (hok.root_bounds tag ht.mem).1
    rw [hok.names, if_pos ht.mem] at habs
    omega
  | some old =>
    obtain ⟨-, -, ids5, a5, outer, -, hrep, hnew, hcont⟩ := hrem.found old rfl
    dsimp only at hrep hnew
    subst hnew
    refine wp_ret ⟨_, a5, g.unset outer tag, ⟨h4.trans hrep.issued, fun x => ?_,
      (hg4.mono hrep.issued).unset hrep.rests, hok.unset hrep.ne_nil
        (hrep.spine (hok.outer_spine hne)) hcont, fun hnil => absurd hnil hrep.ne_nil,
      fun _ => rfl⟩, fun τ k => ?_, iff_of_true rfl ht.there, nofun,
      fun _ => ⟨fun _ _ => ⟨rfl, fun x => ?_⟩, fun k hk => ?_⟩⟩
    · have h0 := Index.count_unset outer ht.mem x
      have h2 := ht.count x
      have h3 := hdead x
      have h5 := hrep.count x
      dsimp only at h5 ⊢
      rw [List.count_append, List.count_append, List.count_append]
      omega
    · rw [Index.word_unset]
      by_cases hτ : τ = tag
      · subst hτ
        have hgone := hall k
        rw [ht.content, Function.update_apply] at hgone
        by_cases hk : k = handle
        · simp [hk]
        · simpa [hk] using hgone.symm
      · rw [if_neg hτ, if_neg fun hc => hτ hc.1]
    · have h2 := ht.count x
      have h3 := hdead x
      dsimp only
      rw [List.count_append, List.count_append]
      omega
    · rw [Index.word_unset, if_pos rfl] at hk
      exact absurd rfl hk

end Index.Taken

theorem wp_membershipRemove (hinv : A.Inv s a) (hok : g.Ok h) (hg : g.RestsIn A s a h)
    (hroot : RootedAt root g.outer) (htag : tag ≤ u64Max) (hhandle : handle ≤ u64Max) :
    wp (MembershipIndex.remove A.alloc h root tag handle) s (g.Removed A s a tag handle)
      (A.Refuses s a) := by
  have hword : tag ∉ g.tags → g.word tag handle = 0 := fun hm => by
    rw [Index.word, (hok.nil_iff tag).mpr hm, PageTree.content_nil]
  have hmax := (A.sound hinv).next_le
  simp only [MembershipIndex.remove]
  refine wp_ite (fun hn => wp_ret ?_) fun hn => ?_
  · have hnil := (hroot.none_iff (hg.outer.holds hinv) hmax).mp hn
    exact .nothing hinv hok hg hroot (hword (hok.not_mem_of_nil hnil tag))
      (.of_cache (A.sound hinv).wf rfl)
  have hne : g.outer ≠ .nil := fun hnil => hn (hroot.nil hnil)
  rw [wp_bind]
  refine wp_mono (wp_peek (wp_innerOf hok (hg.held hinv) hroot hmax htag)) ?_
    fun e s1 hb => (Allocator.Issued.refl hinv).refuses hb
  rintro entry s1 ⟨hp1, rfl⟩
  have hzero := hok.entry_root_eq_zero tag
  refine wp_ite (fun hz => wp_ret (.nothing hinv hok hg hroot (hword (hzero.mp hz)) hp1))
    fun hz => ?_
  have hm : tag ∈ g.tags := by_contra fun hm => hz (hzero.mpr hm)
  have hent : g.entry tag = ((g.inner tag).root, g.height tag) := if_pos hm
  rw [hent]
  have h1 : A.Issued s a [] s1 a := (Allocator.Issued.refl hinv).peek hp1
  have hg1 := hg.peek hp1
  rw [wp_bind]
  refine wp_mono (wp_delete radixU64_lawful (hok.height_le tag hm) h1.inv (hg1.inner tag hm)
    (hok.rootedAt hm) hhandle) ?_ fun e s2 hr => h1.trans_refuses hr
  rintro ⟨newInner, prev, freed⟩ s2 hrem
  cases prev with
  | none =>
    obtain ⟨hp2, habs, -⟩ := hrem.missing rfl
    exact wp_ret (.nothing hinv hok hg hroot (beq_iff_eq.mp habs) (hp1.trans hp2))
  | some old =>
    obtain ⟨hold, hpres, ids2, a2, sub, -, hrep, hnew, hcont⟩ := hrem.found old rfl
    dsimp only at hrep hnew
    subst hnew
    have hthere : g.word tag handle ≠ 0 := fun hw => by
      have hzero : old = 0 := hold.trans hw
      rw [hzero] at hpres
      cases hpres
    have h12 := h1.trans hrep.issued
    rw [wp_bind]
    refine wp_mono (wp_peek (wp_anyPresent radixU64_lawful (hok.height_le tag hm)
      (hrep.rests.holds h12.inv) (A.sound h12.inv).next_le hrep.ne_nil)) ?_
      fun e s3 hb => h12.refuses hb
    intro any s3 ⟨hp3, hany⟩
    have htaken : g.Taken A s a h tag handle ids2 freed s3 a2 sub :=
      ⟨hm, hthere, h12.peek hp3, (hg1.mono hrep.issued).peek hp3, hrep.rests.peek hp3, hrep.ne_nil,
        hrep.count, hcont⟩
    refine wp_ite (fun hsome => ?_) fun hempty => ?_
    · obtain ⟨k, hk⟩ := hany.mp hsome
      exact htaken.wp_name hok hroot hne htag hhandle (beq_eq_false_iff_ne.mp hk)
    · refine htaken.wp_drop hok hroot hne htag fun k => by_contra fun hk =>
        hempty (hany.mpr ⟨k, ?_⟩)
      exact beq_eq_false_iff_ne.mpr hk

end Operations

end Chisel
