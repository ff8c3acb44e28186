import Chisel.Lending
import Chisel.RadixRead

/-! Writing a radix tree of any layout with any allocator. An operation copies the path to its key
to pages that the allocator issues, so that the tree it started from stays where it was. -/

namespace Chisel

open StateError PageCache RadixTree Ledger

variable {id root k : Nat}

/-! ### Trees at rest -/

variable {V G : Type} {R : RadixLayout V} {A : Allocator G} {h : Nat} {ids freed : List Nat}
  {s s' s'' : AllocCtx} {g g' : G} {sub : PageTree V}

/-- A tree in the store, on pages that the allocator does not own. -/
structure Rests (R : RadixLayout V) (A : Allocator G) (s : AllocCtx) (g : G) (h : Nat)
    (sub : PageTree V) : Prop where
  rep : PageTree.Rep R.shape (cellsOf R.cell s.store.view) h sub
  fixed : ∀ x, 0 < sub.count R.shape x → ¬ A.Owns s g x

namespace Rests

theorem lt (hs : Rests R A s g h sub) {x : Nat} (hx : 0 < sub.count R.shape x) :
    x < s.store.next := Nat.lt_of_not_le fun hge => hs.fixed x hx (A.beyond hge)

theorem holds (hs : Rests R A s g h sub) (hinv : A.Inv s g) : Holds R s.cache h sub :=
  ⟨(A.sound hinv).wf, hs.rep, fun _ hx => hs.lt hx⟩

theorem steady (hs : Rests R A s g h sub) (hl : Steady A.Inv A.Owns s g s' g') :
    Rests R A s' g' h sub where
  rep := hs.rep.frame fun x hx => by rw [cellsOf, hl.view x (hs.fixed x hx)]; rfl
  fixed x hx ho := hs.fixed x hx (hl.owns_le x ho)

theorem mono (hs : Rests R A s g h sub) (hl : A.Issued s g ids s' g') : Rests R A s' g' h sub :=
  hs.steady hl.frame.1

theorem peek (hs : Rests R A s g h sub) (hp : Peeked s s') : Rests R A s' g h sub where
  rep := by rw [hp.store]; exact hs.rep
  fixed x hx := by rw [A.owns_peek hp]; exact hs.fixed x hx

theorem write {p : Page} (hs : Rests R A s g h sub) (hw : Wrote id p s s')
    (hid : sub.count R.shape id = 0) : Rests R A s' g h sub where
  rep := hs.rep.frame fun x hx => by
    have hne : x ≠ id := by
      rintro rfl
      omega
    rw [cellsOf, hw.store, Store.put_view_ne _ _ hne]
    rfl
  fixed x hx := by rw [A.owns_write hw]; exact hs.fixed x hx

theorem kid {i : Nat} {kids : Nat → PageTree V} (hs : Rests R A s g (h + 1) (.node id kids))
    (hi : i < R.shape.fanout) : Rests R A s g h (kids i) where
  rep := hs.rep.2.2 i hi
  fixed x hx := hs.fixed x (Nat.lt_of_lt_of_le hx (PageTree.count_kid_le kids hi id))

end Rests

theorem initNode_not_freeMap (hR : R.Lawful) (h : Nat) : (R.initNode h).isFreeMap = false := by
  unfold RadixLayout.initNode
  split
  · exact hR.leaf_not_freeMap _
  · exact hR.interior_not_freeMap _

theorem rep_initNode (hR : R.Lawful) {view : Nat → Option Page} (hid : id ≠ 0)
    (hv : view id = some (R.initNode h)) :
    PageTree.Rep R.shape (cellsOf R.cell view) h (PageTree.empty R.absent h id) := by
  cases h with
  | zero => exact ⟨hid, cellsOf_eq_some.mpr ⟨_, hv, hR.cell_leaf.mpr rfl⟩⟩
  | succ h =>
    exact ⟨hid, ⟨_, cellsOf_eq_some.mpr ⟨_, hv, hR.cell_node.mpr rfl⟩, fun _ _ => rfl⟩,
      fun _ _ => PageTree.rep_nil⟩

theorem wp_initPage (hR : R.Lawful) (hinv : A.Inv s g) :
    wp (R.initPage h A.alloc) s
      (fun id s' => ∃ g', A.Issued s g [id] s' g' ∧
        Rests R A s' g' h (PageTree.empty R.absent h id))
      (fun e s' => A.Refuses s g e s') := by
  simp only [RadixLayout.initPage, wp_bind]
  refine wp_imp (A.wp_alloc hinv) ?_
  rintro id s1 ⟨g1, h1⟩
  have hone : id ∈ [id] := List.mem_singleton_self id
  refine wp_mono (wp_write h1.issued.wf h1.fresh.lt (.inl h1.fresh.hot)
    (fun q hq => absurd (h1.fresh.view.symm.trans hq) (by simp)) (R.initNode h)
    (initNode_not_freeMap hR h)) ?_ fun _ _ hb => h1.issued.refuses hb
  intro _ s2 hw
  have h2 := h1.issued.write hone hw
  refine wp_ret ⟨g1, h2, rep_initNode hR (h2.ne_zero hone) ?_, fun x hx => ?_⟩
  · rw [hw.store, Store.put_view_self]
  · rw [PageTree.count_empty] at hx
    obtain rfl := one_pos.mp hx
    exact h2.given hone

/-- A child, made if it is missing: the node it stores is the same. -/
theorem wp_childOr (hR : R.Lawful) (hinv : A.Inv s g) (hs : Rests R A s g h sub) :
    wp (R.childOr A.alloc h sub.root) s
      (fun id s' => ∃ ids g' kid, A.Issued s g ids s' g' ∧ Rests R A s' g' h kid ∧
        kid ≠ .nil ∧ id = kid.root ∧
        (∀ k, PageTree.get R.shape R.absent h kid k = PageTree.get R.shape R.absent h sub k) ∧
        (∀ x, kid.count R.shape x = sub.count R.shape x + ids.count x) ∧
        (PageTree.Spine h sub → PageTree.Spine h kid))
      (fun e s' => A.Refuses s g e s') := by
  unfold RadixLayout.childOr
  refine wp_ite (fun hz => ?_) fun hz => ?_
  · obtain rfl := hs.rep.root_eq_zero_iff.mp hz
    refine wp_imp (wp_initPage hR hinv) ?_
    intro id s1 ⟨g1, h1, hrest⟩
    refine ⟨[id], g1, _, h1, hrest, PageTree.empty_ne_nil _ _, (PageTree.root_empty _ _).symm,
      fun k => ?_, fun x => ?_, fun hsp => absurd rfl hsp.ne_nil⟩
    · rw [PageTree.get_empty, PageTree.get_nil]
    · rw [PageTree.count_empty, PageTree.count_nil, Nat.zero_add, count_singleton]
  · exact wp_ret ⟨[], g, sub, .refl hinv, hs, PageTree.ne_nil_of_root hz, rfl, fun _ => rfl,
      fun _ => rfl, id⟩

theorem wp_rootOr (hR : R.Lawful) (hinv : A.Inv s g) (hs : Rests R A s g h sub)
    (hh : h ≤ R.maxDepth) {missing : Nat} (hmiss : root = missing ↔ sub = .nil)
    (hroot : sub ≠ .nil → root = sub.root) :
    wp (R.rootOr A.alloc missing root h) s
      (fun res s' => ∃ ids g' sub', A.Issued s g ids s' g' ∧ Rests R A s' g' res.2 sub' ∧
        sub' ≠ .nil ∧ res.1 = sub'.root ∧ res.2 ≤ R.maxDepth ∧
        PageTree.content R.shape R.absent res.2 sub' = PageTree.content R.shape R.absent h sub ∧
        (∀ x, sub'.count R.shape x = sub.count R.shape x + ids.count x) ∧
        ((sub ≠ .nil → PageTree.Spine h sub) → PageTree.Spine res.2 sub'))
      (fun e s' => A.Refuses s g e s') := by
  unfold RadixLayout.rootOr
  refine wp_ite (fun hm => ?_) fun hm => ?_
  · obtain rfl := hmiss.mp hm
    rw [wp_bind]
    refine wp_imp (wp_initPage hR hinv) ?_
    intro id s1 ⟨g1, h1, hrest⟩
    refine wp_ret ⟨[id], g1, PageTree.empty R.absent 0 id, h1, hrest, PageTree.empty_ne_nil _ _,
      (PageTree.root_empty _ _).symm, Nat.zero_le _, ?_, fun x => ?_, fun _ => trivial⟩
    · funext k
      rw [PageTree.content_empty, PageTree.content_nil]
    · rw [PageTree.count_empty, PageTree.count_nil, Nat.zero_add, count_singleton]
  · have hne : sub ≠ .nil := fun hnil => hm (hmiss.mpr hnil)
    exact wp_ret ⟨[], g, sub, .refl hinv, hs, hne, hroot hne, hh, rfl, fun _ => rfl,
      fun hsp => hsp hne⟩

/-! ### Copying a path -/

/-- A tree and the pages that were issued since have no page in common. -/
theorem Rests.not_issued (hs : Rests R A s g h sub) (hl : A.Issued s g ids s' g') (hid : id ∈ ids)
    : sub.count R.shape id = 0 := by
  by_contra hne
  exact hs.fixed id (Nat.pos_of_ne_zero hne) (hl.owned hid)

theorem Rests.root_page (hR : R.Lawful) (hs : Rests R A s g h sub) (hne : sub ≠ .nil) :
    ∃ p, s.store.view sub.root = some p ∧ p.isData = false ∧ p.isFreeMap = false := by
  cases h with
  | zero =>
    obtain ⟨vals, -, hrd⟩ := hs.rep.leaf_of_zero hne
    obtain ⟨p, hv, hp⟩ := cellsOf_eq_some.mp hrd
    obtain rfl := hR.cell_leaf.mp hp
    exact ⟨_, hv, hR.leaf_not_data _, hR.leaf_not_freeMap _⟩
  | succ h =>
    obtain ⟨kids, ptrs, -, hrd, -⟩ := hs.rep.node_of_succ hne
    obtain ⟨p, hv, hp⟩ := cellsOf_eq_some.mp hrd
    obtain rfl := hR.cell_node.mp hp
    exact ⟨_, hv, hR.interior_not_data _, hR.interior_not_freeMap _⟩

/-- The first two steps of every copy: a page, with the contents of the root. -/
theorem wp_copyRoot (hR : R.Lawful) (hinv : A.Inv s g) (hs : Rests R A s g h sub)
    (hne : sub ≠ .nil) {α : Type} {f : Nat → AllocM α} {Q : α → AllocCtx → Prop}
    {E : ChiselError → AllocCtx → Prop} (hE : ∀ e s', A.Refuses s g e s' → E e s')
    (hQ : ∀ id s' g', A.Issued s g [id] s' g' →
      s'.store.view id = s.store.view sub.root → wp (f id) s' Q E) :
    wp (do
      let id ← A.alloc
      onCache (copyPage sub.root id)
      f id) s Q E := by
  obtain ⟨p, hv, hnd, hnf⟩ := hs.root_page hR hne
  have hroot := hs.fixed _ (PageTree.count_root_pos hne)
  rw [wp_bind]
  refine wp_mono (A.wp_alloc hinv) ?_ hE
  intro id s1 ⟨g1, h1⟩
  have hv1 := (h1.issued.view hroot).trans hv
  have hlt : sub.root < s1.store.next :=
    (hs.mono h1.issued).lt (PageTree.count_root_pos hne)
  rw [wp_bind]
  refine wp_mono (wp_copy h1.issued.wf h1.fresh hlt hv1 hnd hnf) ?_
    fun e s2 hb => hE e s2 (h1.issued.refuses hb)
  intro _ s2 hw
  refine hQ id s2 g1 (h1.issued.write (List.mem_singleton_self id) hw) ?_
  rw [hw.store, Store.put_view_self, hv]

theorem rests_leaf (hR : R.Lawful) (hl : A.Issued s g ids s' g') {vals : Nat → V}
    (hid : id ∈ ids) (hv : s'.store.view id = some (R.mkLeaf vals)) :
    Rests R A s' g' 0 (.leaf id vals) where
  rep := ⟨hl.ne_zero hid, cellsOf_eq_some.mpr ⟨_, hv, hR.cell_leaf.mpr rfl⟩⟩
  fixed x hx := by
    rw [PageTree.count_leaf] at hx
    obtain rfl := one_pos.mp hx
    exact hl.given hid

theorem Rests.replace (hR : R.Lawful) {i : Nat} {kids : Nat → PageTree V} {kid : PageTree V}
    {ch : Nat → Nat} (hs : Rests R A s g (h + 1) (.node root kids))
    (hl : A.Issued s g ids s' g') (hid : id ∈ ids)
    (hkid : Rests R A s' g' h kid) (hptrs : ∀ i < R.shape.fanout, ch i = (kids i).root)
    (hv : s'.store.view id = some (R.mkInterior (Function.update ch i kid.root))) :
    Rests R A s' g' (h + 1) (.node id (Function.update kids i kid)) where
  rep := PageTree.Rep.update hptrs (fun j hj => ((hs.mono hl).kid hj).rep) (hl.ne_zero hid)
    hkid.rep (cellsOf_eq_some.mpr ⟨_, hv, hR.cell_node.mpr rfl⟩)
  fixed x hx := by
    rcases PageTree.count_node_pos hx with rfl | ⟨j, hj, hpos⟩
    · exact hl.given hid
    · by_cases hji : j = i
      · subst hji
        rw [Function.update_self] at hpos
        exact hkid.fixed x hpos
      · rw [Function.update_of_ne hji] at hpos
        exact ((hs.mono hl).kid hj).fixed x hpos

/-- The tree `sub` became `sub'` on the pages `ids` that were issued, and the pages `freed` are no
longer used. -/
structure Replaced (R : RadixLayout V) (A : Allocator G) (s : AllocCtx) (g : G) (h : Nat)
    (sub : PageTree V) (ids freed : List Nat) (s' : AllocCtx) (g' : G) (h' : Nat)
    (sub' : PageTree V) : Prop where
  issued : A.Issued s g ids s' g'
  count : ∀ x, sub'.count R.shape x + freed.count x = sub.count R.shape x + ids.count x
  rests : Rests R A s' g' h' sub'
  ne_nil : sub' ≠ .nil
  spine : PageTree.Spine h sub → PageTree.Spine h' sub'

theorem wp_checkFirst (hR : R.Lawful) (hinv : A.Inv s g) (hs : Rests R A s g h sub)
    (hne : sub ≠ .nil) :
    wp (R.checkFirst h sub.root) s (fun _ s' => Peeked s s') (Blocked s) := by
  have hrefl : Peeked s s := .of_cache (A.sound hinv).wf rfl
  unfold RadixLayout.checkFirst
  refine wp_ite (fun _ => ?_) fun _ => wp_ret hrefl
  have hcheck : wp (R.checkTypeAt h sub.root) s.cache (fun _ c' => Reads s.cache c' ∧ True)
      (fun e c' => Crowded s.cache e c') := by
    cases h with
    | zero =>
      simp only [RadixLayout.checkTypeAt, wp_map]
      exact wp_mono (wp_getLeaf hR (hs.holds hinv) hne) (fun _ _ h => ⟨h.1, trivial⟩) fun _ _ h => h
    | succ h =>
      simp only [RadixLayout.checkTypeAt, wp_map]
      exact wp_mono (wp_getInterior hR (hs.holds hinv) hne) (fun _ _ h => ⟨h.1, trivial⟩)
        fun _ _ h => h
  exact wp_mono (wp_peek hcheck) (fun _ _ h => h.1) fun _ _ h => h

/-- The copy of a leaf with one value changed. -/
theorem wp_copyLeaf (hR : R.Lawful) (hinv : A.Inv s g) (hs : Rests R A s g 0 sub)
    (hne : sub ≠ .nil) (hk : k < R.shape.span 0) (v : V) {α : Type} {f : Nat → α}
    {Q : α → AllocCtx → Prop} {E : ChiselError → AllocCtx → Prop}
    (hE : ∀ e s', A.Refuses s g e s' → E e s')
    (hQ : ∀ id s' g' sub', Replaced R A s g 0 sub [id] [sub.root] s' g' 0 sub' →
      id = sub'.root → PageTree.Sets R.shape R.absent 0 sub sub' k v → Q (f id) s') :
    wp (do
      let id ← A.alloc
      onCache (copyPage sub.root id)
      let vals ← onCache (R.getLeaf id)
      onCache (writeStamped id (R.mkLeaf (Function.update vals (k % R.leafCap) v)))
      return f id) s Q E := by
  obtain ⟨vals, hsub, hrd⟩ := hs.rep.leaf_of_zero hne
  obtain ⟨p, hv, hp⟩ := cellsOf_eq_some.mp hrd
  obtain rfl := hR.cell_leaf.mp hp
  refine wp_copyRoot hR hinv hs hne hE ?_
  intro id s1 g1 h1 hv1
  have hone : id ∈ [id] := List.mem_singleton_self id
  have hv1' : s1.store.view id = some (R.mkLeaf vals) := hv1.trans hv
  rw [wp_bind]
  refine wp_mono (wp_peek (wp_getLeaf_of_view hR h1.wf (h1.lt hone) hv1')) ?_
    fun e s2 hb => hE e s2 (h1.refuses hb)
  rintro vals' s2 ⟨hpeek, rfl⟩
  have h2 := h1.peek hpeek
  have hv2 : s2.store.view id = some (R.mkLeaf vals') := by rw [hpeek.store, hv1']
  rw [wp_bind]
  refine wp_mono (wp_write h2.wf (h2.lt hone) (.inr ⟨_, hv2⟩) (fun q hq => ?_) _
    (hR.leaf_not_freeMap _)) ?_ fun e s3 hb => hE e s3 (h2.refuses hb)
  · obtain rfl := Option.some.inj (hv2.symm.trans hq)
    exact hR.leaf_not_data _
  intro _ s3 hw
  have h3 := h2.write hone hw
  rw [Nat.mod_eq_of_lt (show k < R.leafCap from hk)] at hw
  refine wp_ret (hQ id s3 g1 (.leaf id (Function.update vals' k v)) ⟨h3, fun x => ?_,
    rests_leaf hR h3 hone ?_, nofun, fun _ => trivial⟩ rfl ?_)
  · rw [hsub, PageTree.count_leaf, PageTree.count_leaf, count_singleton, count_singleton,
      Nat.add_comm]
    rfl
  · rw [hw.store, Store.put_view_self]
  · rw [hsub]
    exact PageTree.Sets.leaf v

theorem Replaced.of_peeked {h' : Nat} {sub' : PageTree V} (hinv : A.Inv s g) (hp : Peeked s s')
    (hr : Replaced R A s' g h sub ids freed s'' g' h' sub') :
    Replaced R A s g h sub ids freed s'' g' h' sub' :=
  ⟨((Allocator.Issued.refl hinv).peek hp).trans hr.issued, hr.count, hr.rests, hr.ne_nil, hr.spine⟩

theorem wp_insertRecursive (hR : R.Lawful) {v : V} (hh : h ≤ R.maxDepth)
    (hinv : A.Inv s g) (hs : Rests R A s g h sub) (hne : sub ≠ .nil) (hk : k < R.shape.span h) :
    wp (R.insertRecursive A.alloc v h sub.root k) s
      (fun res s' => ∃ ids g' sub', ids ≠ [] ∧ Replaced R A s g h sub ids res.2 s' g' h sub' ∧
        res.1 = sub'.root ∧ PageTree.Sets R.shape R.absent h sub sub' k v)
      (fun e s' => A.Refuses s g e s') := by
  induction h generalizing s g sub k with
  | zero =>
    simp only [RadixLayout.insertRecursive]
    rw [wp_bind]
    refine wp_mono (wp_checkFirst hR hinv hs hne) ?_
      fun e s0 hb => (Allocator.Issued.refl hinv).refuses hb
    intro _ s0 hp
    have h0 : A.Issued s g [] s0 g := (Allocator.Issued.refl hinv).peek hp
    refine wp_copyLeaf hR h0.inv (hs.peek hp) hne hk v (fun e s' hr => h0.trans_refuses hr) ?_
    intro id s' g' sub' hrep hid hsets
    exact ⟨[id], g', sub', List.cons_ne_nil _ _, hrep.of_peeked hinv hp, hid, hsets⟩
  | succ h ih =>
    simp only [RadixLayout.insertRecursive, hR.capacity_eq_span hh]
    have hif := Shape.div_span_lt hk
    set i := k / R.shape.span h with hi
    rw [wp_bind]
    refine wp_mono (wp_checkFirst hR hinv hs hne) ?_
      fun e s0 hb => (Allocator.Issued.refl hinv).refuses hb
    intro _ s0 hp
    have h0 : A.Issued s g [] s0 g := (Allocator.Issued.refl hinv).peek hp
    obtain ⟨kids, ch, hsub, hrd, hptrs, -⟩ := (hs.peek hp).rep.node_of_succ hne
    obtain ⟨p, hv, hp'⟩ := cellsOf_eq_some.mp hrd
    obtain rfl := hR.cell_node.mp hp'
    have hs0 : Rests R A s0 g (h + 1) (.node sub.root kids) := hsub ▸ hs.peek hp
    refine wp_copyRoot hR h0.inv (hs.peek hp) hne (fun e s' hr => h0.trans_refuses hr) ?_
    intro id s1 g1 h₁ hv1
    have hone : id ∈ [id] := List.mem_singleton_self id
    have hv1' : s1.store.view id = some (R.mkInterior ch) := hv1.trans hv
    -- the copy is read back before its child is looked at
    rw [wp_bind]
    refine wp_mono (wp_peek (wp_interiorOr_of_view hR _ h₁.wf (h₁.lt hone) hv1')) ?_
      fun e s2 hb => h0.trans_refuses (h₁.refuses hb)
    rintro ch' s2 ⟨hp2, rfl⟩
    have h₂ := h₁.peek hp2
    have hfix2 := h₂.given hone
    have hkid2 : Rests R A s2 g1 h (kids i) := (hs0.mono h₂).kid hif
    have hE2 : ∀ (e : ChiselError) s', A.Refuses s2 g1 e s' → A.Refuses s g e s' := fun _ _ hr =>
      h0.trans_refuses (h₂.trans_refuses hr)
    rw [wp_bind, hptrs i hif]
    refine wp_mono (wp_childOr hR h₂.inv hkid2) ?_ hE2
    rintro child s3 ⟨ids3, g3, kid, h₃, hkid3, hkne, rfl, hget, hcount3, hspine3⟩
    rw [wp_bind]
    refine wp_mono (ih (Nat.le_of_succ_le hh) h₃.inv hkid3 hkne (Nat.mod_lt _ (R.shape.span_pos h)))
      ?_ fun e s' hr => hE2 e s' (h₃.trans_refuses hr)
    rintro ⟨newChild, freed⟩ s4 ⟨ids4, g4, kid', -, hrep, hnew, hsets⟩
    simp only at hnew hrep
    subst hnew
    have h24 := h₃.trans hrep.issued
    have hall := h₂.trans h24
    have hv4 : s4.store.view id = some (R.mkInterior ch') := by
      rw [h24.view hfix2, hp2.store, hv1']
    have hmem : id ∈ [id] ++ (ids3 ++ ids4) := List.mem_append_left _ hone
    rw [wp_bind]
    refine wp_mono (wp_rewrite hall.wf (hall.lt hmem) hv4 (hR.interior_not_data _)
      (Page.setChild i kid'.root) (hR.setChild .. ▸ hR.interior_not_freeMap _)) ?_
      fun e s' hb => h0.trans_refuses (hall.refuses hb)
    intro _ s5 hw
    rw [hR.setChild] at hw
    have h5 := hall.write hmem hw
    -- the page of the copy is not among the pages of the new child
    have hid2 : (kids i).count R.shape id = 0 := (hs0.kid hif).not_issued h₁ hone
    have hid3 : (ids3 ++ ids4).count id = 0 :=
      List.count_eq_zero.mpr fun hm => hfix2 (h24.owned hm)
    have hid4 : kid'.count R.shape id = 0 := by
      have h1 := hrep.count id
      have h2 := hcount3 id
      rw [List.count_append] at hid3
      omega
    refine wp_ret ⟨[] ++ ([id] ++ (ids3 ++ ids4)), g4, .node id (Function.update kids i kid'),
      List.cons_ne_nil _ _, ⟨h0.trans h5, fun x => ?_,
      hs0.replace hR h5 hmem (hrep.rests.write hw hid4) hptrs ?_, nofun, fun hsp => ?_⟩,
      rfl, ?_⟩
    · have h1 := PageTree.count_node_update (S := R.shape) (x := x) kids hif kid' sub.root id
      have h2 := hcount3 x
      have h3 := hrep.count x
      rw [← hsub] at h1
      dsimp only at h3 ⊢
      rw [List.nil_append, List.count_append, List.count_append, count_singleton, count_cons]
      omega
    · rw [hw.store, Store.put_view_self]
    · rw [hsub] at hsp
      exact hsp.update fun hsp' => hrep.spine (hspine3 hsp')
    · rw [hsub]
      refine PageTree.Sets.node fun k' hk' => ?_
      rw [hsets k' hk', hget]

/-! ### Insertion -/

theorem Replaced.refl (hinv : A.Inv s g) (hs : Rests R A s g h sub) (hne : sub ≠ .nil) :
    Replaced R A s g h sub [] [] s g h sub :=
  ⟨.refl hinv, fun _ => rfl, hs, hne, id⟩

theorem Replaced.trans {g'' : G} {h' h'' : Nat} {sub' sub'' : PageTree V} {ids' freed' : List Nat}
    (hr : Replaced R A s g h sub ids freed s' g' h' sub')
    (hr' : Replaced R A s' g' h' sub' ids' freed' s'' g'' h'' sub'') :
    Replaced R A s g h sub (ids ++ ids') (freed ++ freed') s'' g'' h'' sub'' := by
  refine ⟨hr.issued.trans hr'.issued, fun x => ?_, hr'.rests, hr'.ne_nil,
    fun hsp => hr'.spine (hr.spine hsp)⟩
  have h1 := hr.count x
  have h2 := hr'.count x
  rw [List.count_append, List.count_append]
  omega

theorem wp_radixGrow (hR : R.Lawful) (hinv : A.Inv s g) (hs : Rests R A s g h sub) :
    wp (R.grow A.alloc sub.root) s
      (fun id s' => ∃ g' sub', Replaced R A s g h sub [id] [] s' g' (h + 1) sub' ∧ id = sub'.root ∧
        PageTree.content R.shape R.absent (h + 1) sub' = PageTree.content R.shape R.absent h sub)
      (fun e s' => A.Refuses s g e s') := by
  simp only [RadixLayout.grow, wp_bind]
  refine wp_imp (A.wp_alloc hinv) ?_
  rintro id s1 ⟨g1, h1⟩
  have hone : id ∈ [id] := List.mem_singleton_self id
  refine wp_mono (wp_write h1.issued.wf h1.fresh.lt (.inl h1.fresh.hot)
    (fun q hq => absurd (h1.fresh.view.symm.trans hq) (by simp)) _ (hR.interior_not_freeMap _)) ?_
    fun _ _ hb => h1.issued.refuses hb
  intro _ s2 hw
  have h2 := h1.issued.write hone hw
  have hs2 := hs.mono h2
  refine wp_ret ⟨g1, .node id (Function.update (fun _ => .nil) 0 sub), ⟨h2, fun x => ?_,
    ⟨?_, fun x hx => ?_⟩, by simp, PageTree.Spine.grow⟩, rfl, PageTree.content_grow id⟩
  · rw [PageTree.count_grow, List.count_nil, count_singleton]
    omega
  · refine PageTree.Rep.update (fun _ _ => rfl) (fun _ _ => PageTree.rep_nil)
      (h2.ne_zero hone) hs2.rep (cellsOf_eq_some.mpr ⟨_, ?_, hR.cell_node.mpr rfl⟩)
    rw [hw.store, Store.put_view_self]
    rfl
  · rw [PageTree.count_grow] at hx
    by_cases hx' : 0 < sub.count R.shape x
    · exact hs2.fixed x hx'
    · obtain rfl := one_pos.mp (show 0 < one id x by omega)
      exact h2.given hone

theorem wp_radixGrowTo (hR : R.Lawful) {rounds : Nat} (hh : h ≤ R.maxDepth)
    (hinv : A.Inv s g) (hs : Rests R A s g h sub) (hne : sub ≠ .nil) (hk : k ≤ u64Max)
    (hrounds : R.maxDepth ≤ h + rounds) :
    wp (R.growTo A.alloc k rounds h sub.root) s
      (fun res s' => ∃ ids g' sub', Replaced R A s g h sub ids [] s' g' res.2 sub' ∧
        res.1 = sub'.root ∧ res.2 ≤ R.maxDepth ∧ k < R.shape.span res.2 ∧
        PageTree.content R.shape R.absent res.2 sub' = PageTree.content R.shape R.absent h sub)
      (fun e s' => A.Refuses s g e s') := by
  have hmax := hR.span_max
  induction rounds generalizing h s g sub with
  | zero =>
    simp only [RadixLayout.growTo]
    obtain rfl : h = R.maxDepth := Nat.le_antisymm hh (by omega)
    exact wp_ret ⟨[], g, sub, .refl hinv hs hne, rfl, hh, Nat.lt_of_le_of_lt hk hmax, rfl⟩
  | succ rounds ih =>
    simp only [RadixLayout.growTo]
    refine wp_ite (fun hgrow => ?_) fun hstop => ?_
    · rw [wp_bind]
      refine wp_imp (wp_radixGrow hR hinv hs) ?_
      rintro id s1 ⟨g1, sub1, hr1, rfl, hc1⟩
      refine wp_mono (ih hgrow.1 hr1.issued.inv hr1.rests hr1.ne_nil (by omega)) ?_
        fun e s2 hr => hr1.issued.trans_refuses hr
      intro res s2 ⟨ids2, g2, sub2, hr2, hroot, hd, hlt, hc2⟩
      exact ⟨_, g2, sub2, hr1.trans hr2, hroot, hd, hlt, hc2.trans hc1⟩
    · refine wp_ret ⟨[], g, sub, .refl hinv hs hne, rfl, hh, ?_, rfl⟩
      rcases Nat.lt_or_ge h R.maxDepth with hlt | hge
      · rw [← hR.capacity_eq_span hlt]
        exact Nat.lt_of_not_le fun hle => hstop ⟨hlt, hle⟩
      · obtain rfl : h = R.maxDepth := Nat.le_antisymm hh hge
        exact Nat.lt_of_le_of_lt hk hmax

theorem wp_insert (hR : R.Lawful) {v : V} (hh : h ≤ R.maxDepth) (hinv : A.Inv s g)
    (hs : Rests R A s g h sub) (hne : sub ≠ .nil) (hk : k ≤ u64Max) :
    wp (R.insert A.alloc h sub.root k v) s
      (fun res s' => ∃ ids g' sub', ids ≠ [] ∧
        Replaced R A s g h sub ids res.freed s' g' res.depth sub' ∧
        res.root = sub'.root ∧ res.depth ≤ R.maxDepth ∧
        PageTree.content R.shape R.absent res.depth sub' =
          Function.update (PageTree.content R.shape R.absent h sub) k v)
      (fun e s' => A.Refuses s g e s') := by
  simp only [RadixLayout.insert, wp_bind]
  refine wp_imp (wp_radixGrowTo hR hh hinv hs hne hk (by omega)) ?_
  rintro ⟨root, depth⟩ s1 ⟨ids1, g1, sub1, hr1, hroot, hd, hlt, hc1⟩
  simp only at hroot hd hlt hc1 hr1
  subst hroot
  refine wp_mono (wp_insertRecursive hR hd hr1.issued.inv hr1.rests hr1.ne_nil hlt) ?_
    fun e s2 hr => hr1.issued.trans_refuses hr
  rintro ⟨root, freed⟩ s2 ⟨ids2, g2, sub2, hids, hr2, hroot, hsets⟩
  refine wp_ret ⟨_, g2, sub2, ?_, hr1.trans hr2, hroot, hd, ?_⟩
  · exact List.append_ne_nil_of_right_ne_nil _ hids
  · rw [← hc1]
    exact hsets.content hlt

/-! ### Deletion -/

/-- What a deletion leaves: nothing changed if there was no value, else the value is gone. -/
structure Removed (R : RadixLayout V) (A : Allocator G) (s : AllocCtx) (g : G) (h : Nat)
    (sub : PageTree V) (old : V) (root : Nat) (res : Nat × Option V × List Nat) (s' : AllocCtx)
    (P : PageTree V → Prop) : Prop where
  missing : res.2.1 = none →
    Peeked s s' ∧ R.isAbsent old = true ∧ res.1 = root ∧ res.2.2 = []
  found : ∀ v, res.2.1 = some v → v = old ∧ R.isAbsent v = false ∧
    ∃ ids g' sub', ids ≠ [] ∧ Replaced R A s g h sub ids res.2.2 s' g' h sub' ∧
      res.1 = sub'.root ∧ P sub'

theorem wp_deleteRecursive (hR : R.Lawful) (hh : h ≤ R.maxDepth)
    (hinv : A.Inv s g) (hs : Rests R A s g h sub) (hne : sub ≠ .nil) (hk : k < R.shape.span h) :
    wp (R.deleteRecursive A.alloc h sub.root k) s
      (fun res s' => Removed R A s g h sub (PageTree.get R.shape R.absent h sub k) sub.root res s'
        fun sub' => PageTree.Sets R.shape R.absent h sub sub' k R.absent)
      (fun e s' => A.Refuses s g e s') := by
  induction h generalizing s g sub k with
  | zero =>
    simp only [RadixLayout.deleteRecursive]
    rw [wp_bind]
    refine wp_mono (wp_peek (wp_getLeaf hR (hs.holds hinv) hne)) ?_
      fun e s0 hb => (Allocator.Issued.refl hinv).refuses hb
    intro vals s0 ⟨hp, hsub⟩
    have hget : vals (k % R.leafCap) = PageTree.get R.shape R.absent 0 sub k := by
      rw [hsub, Nat.mod_eq_of_lt (show k < R.leafCap from hk)]
      rfl
    rw [hget]
    refine wp_ite (fun habs => wp_ret ⟨fun _ => ⟨hp, habs, rfl, rfl⟩, nofun⟩) fun hpres => ?_
    have h0 : A.Issued s g [] s0 g := (Allocator.Issued.refl hinv).peek hp
    refine wp_copyLeaf hR h0.inv (hs.peek hp) hne hk R.absent
      (fun e s' hr => h0.trans_refuses hr) ?_
    intro id s' g' sub' hrep hid hsets
    refine ⟨nofun, fun v hv => ?_⟩
    obtain rfl := Option.some.inj hv
    exact ⟨rfl, Bool.eq_false_iff.mpr hpres, [id], g', sub', List.cons_ne_nil _ _,
      hrep.of_peeked hinv hp, hid, hsets⟩
  | succ h ih =>
    simp only [RadixLayout.deleteRecursive, hR.capacity_eq_span hh]
    have hif := Shape.div_span_lt hk
    set i := k / R.shape.span h with hi
    rw [wp_bind]
    obtain ⟨kids, ch, hsub, hrd, hptrs, -⟩ := hs.rep.node_of_succ hne
    obtain ⟨p, hv, hp'⟩ := cellsOf_eq_some.mp hrd
    obtain rfl := hR.cell_node.mp hp'
    have hlt := hs.lt (PageTree.count_root_pos hne)
    refine wp_mono (wp_peek (wp_interiorOr_of_view hR _ (A.sound hinv).wf hlt hv)) ?_
      fun e s0 hb => (Allocator.Issued.refl hinv).refuses hb
    rintro ch' s0 ⟨hp, rfl⟩
    have h0 : A.Issued s g [] s0 g := (Allocator.Issued.refl hinv).peek hp
    have hs0 : Rests R A s0 g (h + 1) (.node sub.root kids) := hsub ▸ hs.peek hp
    have hget : PageTree.get R.shape R.absent (h + 1) sub k =
        PageTree.get R.shape R.absent h (kids i) (k % R.shape.span h) := by
      rw [hsub]
      rfl
    rw [hptrs i hif]
    refine wp_ite (fun hz => wp_ret ⟨fun _ => ⟨hp, ?_, rfl, rfl⟩, nofun⟩) fun hz => ?_
    · rw [hget, (hs0.kid hif).rep.root_eq_zero_iff.mp hz, PageTree.get_nil]
      exact hR.absent_gone
    rw [wp_bind]
    refine wp_mono (ih (Nat.le_of_succ_le hh) h0.inv (hs0.kid hif) (PageTree.ne_nil_of_root hz)
      (Nat.mod_lt _ (R.shape.span_pos h))) ?_ fun e s1 hr => h0.trans_refuses hr
    rintro ⟨newChild, prev, freed⟩ s1 hrem
    cases prev with
    | none =>
      obtain ⟨hp1, habs, -⟩ := hrem.missing rfl
      exact wp_ret ⟨fun _ => ⟨hp.trans hp1, hget ▸ habs, rfl, rfl⟩, nofun⟩
    | some old =>
      obtain ⟨hold, hpres, ids1, g1, kid', -, hrep, hnew, hsets⟩ := hrem.found old rfl
      dsimp only at hnew hrep
      subst hnew
      have h₁ := h0.trans hrep.issued
      have hs1 : Rests R A s1 g1 (h + 1) sub := hs.mono h₁
      refine wp_copyRoot hR h₁.inv hs1 hne (fun e s' hr => h₁.trans_refuses hr) ?_
      intro id s2 g2 h₂ hv2
      have hone : id ∈ [id] := List.mem_singleton_self id
      have hv2' : s2.store.view id = some (R.mkInterior ch') := by
        rw [hv2, h₁.view (hs.fixed _ (PageTree.count_root_pos hne)), hv]
      rw [wp_bind]
      refine wp_mono (wp_rewrite h₂.wf (h₂.lt hone) hv2' (hR.interior_not_data _)
        (Page.setChild i kid'.root) (hR.setChild .. ▸ hR.interior_not_freeMap _)) ?_
        fun e s' hb => h₁.trans_refuses (h₂.refuses hb)
      intro _ s3 hw
      rw [hR.setChild] at hw
      have hall := h₁.trans (h₂.write hone hw)
      have hmem : id ∈ [] ++ ids1 ++ [id] := List.mem_append_right _ hone
      have hid1 : kid'.count R.shape id = 0 := hrep.rests.not_issued h₂ hone
      refine wp_ret ⟨nofun, fun v hv => ?_⟩
      obtain rfl := Option.some.inj hv
      refine ⟨hold.trans hget.symm, hpres, _, g2, .node id (Function.update kids i kid'),
        List.append_ne_nil_of_right_ne_nil _ (List.cons_ne_nil _ _),
        ⟨hall, fun x => ?_, ?_, nofun, fun hsp => ?_⟩, rfl, ?_⟩
      · have h1 := PageTree.count_node_update (S := R.shape) (x := x) kids hif kid' sub.root id
        have h2 := hrep.count x
        rw [← hsub] at h1
        dsimp only at h2 ⊢
        rw [List.nil_append, List.count_append, count_singleton, count_concat]
        omega
      · refine Rests.replace hR (hsub ▸ hs) hall hmem ?_ hptrs ?_
        · exact (hrep.rests.mono h₂).write hw hid1
        · rw [hw.store, Store.put_view_self]
      · rw [hsub] at hsp
        exact hsp.update hrep.spine
      · rw [hsub]
        exact PageTree.Sets.node hsets

theorem wp_delete (hR : R.Lawful) (hh : h ≤ R.maxDepth) (hinv : A.Inv s g)
    (hs : Rests R A s g h sub) (hroot : RootedAt root sub) (hk : k ≤ u64Max) :
    wp (R.delete A.alloc h root k) s
      (fun res s' => Removed R A s g h sub (PageTree.content R.shape R.absent h sub k) root res s'
        fun sub' => PageTree.content R.shape R.absent h sub' =
          Function.update (PageTree.content R.shape R.absent h sub) k R.absent)
      (fun e s' => A.Refuses s g e s') := by
  have hpeek : Peeked s s := .of_cache (A.sound hinv).wf rfl
  unfold RadixLayout.delete
  by_cases hne : sub = .nil
  · rw [if_pos (hroot.nil hne), hne, PageTree.content_nil]
    exact wp_ret ⟨fun _ => ⟨hpeek, hR.absent_gone, rfl, rfl⟩, nofun⟩
  refine wp_ite (fun hn => ?_) fun _ => ?_
  · exact absurd ((hroot.none_iff (hs.holds hinv) (A.sound hinv).next_le).mp hn) hne
  refine wp_ite (fun hout => wp_ret ⟨fun _ => ⟨hpeek, ?_, rfl, rfl⟩, nofun⟩) fun hin => ?_
  · have hge := (hR.outOfRange_iff hh hk).mp hout
    simp [PageTree.content, Nat.not_lt.mpr hge, hR.absent_gone]
  · have hspan : k < R.shape.span h :=
      Nat.lt_of_not_le fun hge => hin ((hR.outOfRange_iff hh hk).mpr hge)
    have hcontent : PageTree.content R.shape R.absent h sub k =
      PageTree.get R.shape R.absent h sub k := by
      simp [PageTree.content, hspan]
    rw [hroot.eq hne, hcontent]
    refine wp_imp (wp_deleteRecursive hR hh hinv hs hne hspan) ?_
    intro res s' hrem
    refine ⟨hrem.missing, fun v hv => ?_⟩
    obtain ⟨hold, hpres, ids, g', sub', hids, hrep, hr, hsets⟩ := hrem.found v hv
    exact ⟨hold, hpres, ids, g', sub', hids, hrep, hr, hsets.content hspan⟩

end Chisel
