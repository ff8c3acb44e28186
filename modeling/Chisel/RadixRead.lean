import Chisel.Lib.Walk
import Chisel.Radix
import Chisel.TreeStore

/-! Reading a radix tree of any layout: lookup, traversal, the list of its pages, and its depth. -/

namespace Chisel

open StateError PageCache RadixTree Ledger

variable {p : Page} {k id root : Nat} {ch : Nat → Nat} {α : Type}

namespace RadixLayout

variable {V : Type} (R : RadixLayout V)

def shape : Shape := ⟨R.leafCap, R.fanout, R.leafCap_pos, R.fanout_pos⟩

def cell (p : Page) : Option (Cell V) :=
  match R.leaf? p with
  | some vals => some (.leaf vals)
  | none => (R.interior? p).map .node

/-- Pages are read as they were written, and the capacities saturate at the maximal depth only. -/
structure Lawful : Prop where
  leaf_iff : ∀ p vals, R.leaf? p = some vals ↔ p = R.mkLeaf vals
  interior_iff : ∀ p ch, R.interior? p = some ch ↔ p = R.mkInterior ch
  leaf_ne_interior : ∀ vals ch, R.mkLeaf vals ≠ R.mkInterior ch
  setChild : ∀ ch i x, (R.mkInterior ch).setChild i x = R.mkInterior (Function.update ch i x)
  leaf_not_data : ∀ vals, (R.mkLeaf vals).isData = false
  interior_not_data : ∀ ch, (R.mkInterior ch).isData = false
  leaf_not_freeMap : ∀ vals, (R.mkLeaf vals).isFreeMap = false
  interior_not_freeMap : ∀ ch, (R.mkInterior ch).isFreeMap = false
  capacity_lt : ∀ d < R.maxDepth, R.capacity d < u64Max
  capacity_max : R.capacity R.maxDepth = u64Max
  span_max : u64Max < R.shape.span R.maxDepth
  absent_gone : R.isAbsent R.absent = true

namespace Lawful

variable {R} (hR : R.Lawful)

include hR

theorem cell_leaf {vals : Nat → V} :
    R.cell p = some (.leaf vals) ↔ p = R.mkLeaf vals := by
  rw [← hR.leaf_iff]
  unfold cell
  cases h : R.leaf? p with
  | some v => simp
  | none => cases h' : R.interior? p <;> simp

theorem cell_node {ptrs : Nat → Nat} :
    R.cell p = some (.node ptrs) ↔ p = R.mkInterior ptrs := by
  rw [← hR.interior_iff]
  unfold cell
  cases h : R.leaf? p with
  | some v =>
    have hp := (hR.leaf_iff p v).mp h
    simp only [Option.some.injEq, reduceCtorEq, false_iff]
    intro hi
    exact hR.leaf_ne_interior v ptrs (hp.symm.trans ((hR.interior_iff p ptrs).mp hi))
  | none => simp

theorem isFreeMap_of_cell {k : Cell V} (hk : R.cell p = some k) :
    p.isFreeMap = false := by
  cases k with
  | leaf vals => exact hR.cell_leaf.mp hk ▸ hR.leaf_not_freeMap vals
  | node ptrs => exact hR.cell_node.mp hk ▸ hR.interior_not_freeMap ptrs

theorem capacity_eq_span {h : Nat} (hh : h < R.maxDepth) : R.capacity h = R.shape.span h := by
  induction h with
  | zero => rfl
  | succ h ih =>
    have hlt := hR.capacity_lt (h + 1) hh
    have heq : R.capacity (h + 1) = satMul (R.capacity h) R.fanout := rfl
    unfold satMul at heq
    rw [ih (Nat.lt_of_succ_lt hh)] at heq
    change _ = R.shape.span h * R.fanout
    omega

theorem outOfRange_iff {d : Nat} (hd : d ≤ R.maxDepth) (hk : k ≤ u64Max) :
    R.outOfRange d k = true ↔ R.shape.span d ≤ k := by
  have hmax := hR.span_max
  unfold outOfRange
  rw [decide_eq_true_iff]
  rcases Nat.lt_or_ge d R.maxDepth with hlt | hge
  · have hcap := hR.capacity_lt d hlt
    rw [← hR.capacity_eq_span hlt]
    omega
  · obtain rfl : d = R.maxDepth := Nat.le_antisymm hd hge
    have := hR.capacity_max
    omega

end Lawful

theorem mem_present {i : Nat} :
    i ∈ R.present ch ↔ i < R.shape.fanout ∧ ch i ≠ 0 := by
  simp [present, shape]

end RadixLayout

variable {V : Type} {R : RadixLayout V} {c c' : PageCache} {h : Nat} {sub : PageTree V}

/-- A tree of the layout in the cache. -/
abbrev Holds (R : RadixLayout V) (c : PageCache) (h : Nat) (sub : PageTree V) : Prop :=
  Stored R.shape R.cell c h sub

/-! ### Nodes -/

theorem wp_getLeaf_of_view (hR : R.Lawful) {vals : Nat → V} (hwf : c.WF)
    (hlt : id < c.nextPageId) (hv : c.store.view id = some (R.mkLeaf vals)) :
    wp (R.getLeaf id) c (fun b c' => Reads c c' ∧ b = vals) (Crowded c) := by
  simp only [RadixLayout.getLeaf, wp_bind]
  refine wp_imp (wp_getPage_of_view hwf hlt hv) ?_
  rintro p c' ⟨hwf', hst, rfl⟩
  rw [(hR.leaf_iff _ vals).mpr rfl]
  exact wp_ret ⟨⟨hwf', hst⟩, rfl⟩

theorem wp_interiorOr_of_view (hR : R.Lawful) (err : ChiselError)
    (hwf : c.WF) (hlt : id < c.nextPageId) (hv : c.store.view id = some (R.mkInterior ch)) :
    wp (R.interiorOr err id) c (fun b c' => Reads c c' ∧ b = ch) (Crowded c) := by
  simp only [RadixLayout.interiorOr, wp_bind]
  refine wp_imp (wp_getPage_of_view hwf hlt hv) ?_
  rintro p c' ⟨hwf', hst, rfl⟩
  rw [(hR.interior_iff _ ch).mpr rfl]
  exact wp_ret ⟨⟨hwf', hst⟩, rfl⟩

theorem wp_getLeaf (hR : R.Lawful) (hs : Holds R c 0 sub) (hne : sub ≠ .nil) :
    wp (R.getLeaf sub.root) c
      (fun vals c' => Reads c c' ∧ sub = .leaf sub.root vals)
      (Crowded c) := by
  obtain ⟨vals, p, hsub, hv, hp⟩ := hs.leaf_page hne
  obtain rfl := hR.cell_leaf.mp hp
  refine wp_imp (wp_getLeaf_of_view hR hs.wf (hs.root_lt hne) hv) ?_
  rintro b c' ⟨hreads, rfl⟩
  exact ⟨hreads, hsub⟩

theorem wp_interiorOr (hR : R.Lawful) (err : ChiselError) (hs : Holds R c (h + 1) sub)
    (hne : sub ≠ .nil) :
    wp (R.interiorOr err sub.root) c
      (fun ch c' => Reads c c' ∧ ∃ kids, sub = .node sub.root kids ∧
        ∀ i < R.shape.fanout, ch i = (kids i).root)
      (Crowded c) := by
  obtain ⟨kids, ptrs, p, hsub, hv, hp, hptrs⟩ := hs.node_page hne
  obtain rfl := hR.cell_node.mp hp
  refine wp_imp (wp_interiorOr_of_view hR err hs.wf (hs.root_lt hne) hv) ?_
  rintro b c' ⟨hreads, rfl⟩
  exact ⟨hreads, kids, hsub, hptrs⟩

theorem wp_getInterior (hR : R.Lawful) (hs : Holds R c (h + 1) sub) (hne : sub ≠ .nil) :
    wp (R.getInterior sub.root) c
      (fun ch c' => Reads c c' ∧ ∃ kids, sub = .node sub.root kids ∧
        ∀ i < R.shape.fanout, ch i = (kids i).root)
      (Crowded c) :=
  wp_interiorOr hR _ hs hne

theorem Holds.at {i : Nat} {kids : Nat → PageTree V} (hs : Holds R c (h + 1) sub)
    (hsub : sub = .node id kids) (hr : Reads c c') (hi : i < R.shape.fanout) :
    Holds R c' h (kids i) :=
  Stored.kid (hsub ▸ hs.of_reads hr) hi

/-! ### Lookup -/

/-- The tree `sub` has its root in the field `root`. -/
structure RootedAt (root : Nat) (sub : PageTree V) : Prop where
  nil : sub = .nil → root = pageIdNone
  eq : sub ≠ .nil → root = sub.root

theorem RootedAt.none_iff (hroot : RootedAt root sub) (hs : Holds R c h sub)
    (hmax : c.store.next ≤ u64Max) : root = pageIdNone ↔ sub = .nil := by
  refine ⟨fun hn => by_contra fun hne => ?_, hroot.nil⟩
  have hlt := hs.root_lt hne
  rw [hroot.eq hne] at hn
  unfold pageIdNone at hn
  omega

/-- The map that the pages make of a root: what is found under a key by following the pointers. -/
def RadixLayout.mapAt (R : RadixLayout V) (view : Nat → Option Page) (depth root key : Nat) : V :=
  if root = pageIdNone ∨ R.shape.span depth ≤ key then R.absent
  else PageTree.find R.shape (cellsOf R.cell view) R.absent depth root key

theorem RadixLayout.mapAt_eq (hs : Holds R c h sub) (hmax : c.store.next ≤ u64Max)
    (hroot : RootedAt root sub) :
    R.mapAt c.store.view h root = PageTree.content R.shape R.absent h sub := by
  funext k
  have hnone := hroot.none_iff hs hmax
  unfold RadixLayout.mapAt PageTree.content
  by_cases hne : sub = .nil
  · rw [if_pos (.inl (hnone.mpr hne)), hne, PageTree.get_nil, ite_self]
  by_cases hk : k < R.shape.span h
  · rw [if_neg (not_or.mpr ⟨mt hnone.mp hne, Nat.not_le.mpr hk⟩), if_pos hk, hroot.eq hne]
    exact hs.rep.find_eq hne hk
  · rw [if_pos (.inr (Nat.le_of_not_lt hk)), if_neg hk]

theorem wp_findLeafFrom (hR : R.Lawful) (hh : h ≤ R.maxDepth) (hs : Holds R c h sub)
    (hne : sub ≠ .nil) (hk : k < R.shape.span h) :
    wp (R.findLeafFrom h sub.root k) c
      (fun r c' => Reads c c' ∧ (r = none → PageTree.get R.shape R.absent h sub k = R.absent) ∧
        ∀ leaf i, r = some (leaf, i) → ∃ l, l ≠ PageTree.nil ∧ Holds R c 0 l ∧ l.root = leaf ∧
          PageTree.get R.shape R.absent 0 l i = PageTree.get R.shape R.absent h sub k)
      (Crowded c) := by
  induction h generalizing c sub k with
  | zero =>
    simp only [RadixLayout.findLeafFrom, wp_pure]
    refine ⟨⟨hs.wf, rfl⟩, by simp, fun leaf i hi => ?_⟩
    simp only [Option.some.injEq, Prod.mk.injEq] at hi
    obtain ⟨rfl, rfl⟩ := hi
    refine ⟨sub, hne, hs, rfl, ?_⟩
    rw [Nat.mod_eq_of_lt (show k < R.leafCap from hk)]
  | succ h ih =>
    have hif := Shape.div_span_lt hk
    simp only [RadixLayout.findLeafFrom, hR.capacity_eq_span hh]
    refine wp_ite (fun hge => absurd hif (Nat.not_lt.mpr hge)) fun _ => ?_
    rw [wp_bind]
    refine wp_imp (wp_interiorOr hR _ hs hne) ?_
    rintro ch c' ⟨hreads, kids, hsub, hptrs⟩
    have hget : PageTree.get R.shape R.absent (h + 1) sub k =
        PageTree.get R.shape R.absent h (kids (k / R.shape.span h)) (k % R.shape.span h) := by
      rw [hsub]
      rfl
    have hkid := hs.at hsub hreads hif
    rw [hptrs _ hif]
    refine wp_ite (fun hz => wp_ret ⟨hreads, fun _ => ?_, by simp⟩) fun hz => ?_
    · rw [hget, hkid.rep.root_eq_zero_iff.mp hz, PageTree.get_nil]
    · refine wp_mono (ih (Nat.le_of_succ_le hh) hkid (PageTree.ne_nil_of_root hz)
        (Nat.mod_lt _ (R.shape.span_pos h))) ?_ fun e c2 hc2 => hc2.of_reads hreads
      rintro r c2 ⟨hr2, hnone, hsome⟩
      refine ⟨hreads.trans hr2, fun hn => by rw [hget, hnone hn], fun leaf i hi => ?_⟩
      obtain ⟨l, hl0, hls, hroot, hval⟩ := hsome leaf i hi
      exact ⟨l, hl0, ⟨hs.wf, hreads.2 ▸ hls.rep, hreads.2 ▸ hls.lt⟩, hroot, hval.trans hget.symm⟩

theorem wp_lookup (hR : R.Lawful) (hh : h ≤ R.maxDepth) (hs : Holds R c h sub)
    (hmax : c.store.next ≤ u64Max) (hroot : RootedAt root sub) (hk : k ≤ u64Max) :
    wp (R.lookup h root k) c
      (fun v c' => Reads c c' ∧ v = PageTree.content R.shape R.absent h sub k)
      (Crowded c) := by
  have hreads : Reads c c := ⟨hs.wf, rfl⟩
  unfold RadixLayout.lookup
  by_cases hne : sub = .nil
  · rw [if_pos (hroot.nil hne), hne]
    exact wp_ret ⟨hreads, (PageTree.content_nil _ _).symm⟩
  refine wp_ite (fun hn => absurd ((hroot.none_iff hs hmax).mp hn) hne) fun _ => ?_
  rw [hroot.eq hne]
  refine wp_ite (fun hout => wp_ret ⟨hreads, ?_⟩) fun hin => ?_
  · have hge := (hR.outOfRange_iff hh hk).mp hout
    simp [PageTree.content, Nat.not_lt.mpr hge]
  · have hspan : k < R.shape.span h :=
      Nat.lt_of_not_le fun hge => hin ((hR.outOfRange_iff hh hk).mpr hge)
    have hcontent : PageTree.content R.shape R.absent h sub k =
      PageTree.get R.shape R.absent h sub k := by
      simp [PageTree.content, hspan]
    rw [wp_bind, hcontent]
    refine wp_imp (wp_findLeafFrom hR hh hs hne hspan) ?_
    rintro r c1 ⟨hc1, hnone, hsome⟩
    cases r with
    | none => exact wp_ret ⟨hc1, (hnone rfl).symm⟩
    | some found =>
      obtain ⟨leaf, i⟩ := found
      obtain ⟨l, hl0, hls, rfl, hval⟩ := hsome leaf i rfl
      simp only [wp_bind]
      refine wp_mono (wp_getLeaf hR (hls.of_reads hc1) hl0) ?_ fun e c2 hc2 => hc2.of_reads hc1
      rintro vals c2 ⟨hc2, hl⟩
      refine wp_ret ⟨hc1.trans hc2, ?_⟩
      rw [← hval, hl]
      rfl

/-! ### Traversal -/

/-- A key as the traversal reports it. -/
def clampKey (e : Nat × V) : Nat × V := (min e.1 u64Max, e.2)

theorem flatMap_filter {β : Type} {l : List α} {p : α → Bool} {f : α → List β}
    (hf : ∀ a ∈ l, p a = false → f a = []) : (l.filter p).flatMap f = l.flatMap f := by
  induction l with
  | nil => rfl
  | cons a rest ih =>
    have hrest := ih fun b hb => hf b (List.mem_cons_of_mem _ hb)
    cases hp : p a with
    | true => simp [hp, hrest]
    | false => simp [hp, hrest, hf a List.mem_cons_self hp]

theorem listing_node (hs : Holds R c (h + 1) sub) {kids : Nat → PageTree V}
    (hsub : sub = .node id kids)
    (hptrs : ∀ i < R.shape.fanout, ch i = (kids i).root) (b : Nat) :
    PageTree.listing R.shape R.isAbsent (h + 1) b sub = (R.present ch).flatMap fun i =>
      PageTree.listing R.shape R.isAbsent h (b + i * R.shape.span h) (kids i) := by
  rw [hsub, PageTree.listing, RadixLayout.present, flatMap_filter]
  · rfl
  · intro i hi hz
    have hif : i < R.shape.fanout := List.mem_range.mp hi
    have hkid : Holds R c h (kids i) := Stored.kid (hsub ▸ hs) hif
    have hroot : (kids i).root = 0 := by simpa [hptrs i hif] using hz
    rw [hkid.rep.root_eq_zero_iff.mp hroot, PageTree.listing_nil]

theorem wp_iterRecursive (hR : R.Lawful) {b : Nat} (hh : h ≤ R.maxDepth) (hs : Holds R c h sub)
    (hne : sub ≠ .nil) :
    wp (R.iterRecursive h sub.root (min b u64Max)) c
      (fun l c' => Reads c c' ∧ l = (PageTree.listing R.shape R.isAbsent h b sub).map clampKey)
      (Crowded c) := by
  induction h generalizing c sub b with
  | zero =>
    simp only [RadixLayout.iterRecursive, wp_bind, wp_pure]
    refine wp_imp (wp_getLeaf hR hs hne) ?_
    rintro vals c' ⟨hreads, hsub⟩
    refine ⟨hreads, ?_⟩
    rw [hsub, PageTree.listing, List.map_map]
    refine List.map_congr_left fun i _ => ?_
    simp only [Function.comp, clampKey, satAdd, Prod.mk.injEq, and_true]
    omega
  | succ h ih =>
    simp only [RadixLayout.iterRecursive, wp_bind, hR.capacity_eq_span hh]
    refine wp_imp (wp_getInterior hR hs hne) ?_
    rintro ch c' ⟨hreads, kids, hsub, hptrs⟩
    rw [listing_node hs hsub hptrs]
    refine wp_mono (wp_foldlM (fun done out c1 => Reads c c1 ∧ out = (done.flatMap fun i =>
      PageTree.listing R.shape R.isAbsent h (b + i * R.shape.span h) (kids i)).map clampKey)
      ⟨hreads, rfl⟩ ?_) (fun _ _ h => h) fun _ _ h => h
    rintro done i rest out c1 hl ⟨hc1, hout⟩
    obtain ⟨hif, hch⟩ := R.mem_present.mp (hl ▸ List.mem_append_right _ List.mem_cons_self)
    rw [hptrs i hif] at hch ⊢
    rw [wp_bind, satAdd_satMul]
    refine wp_mono (ih (Nat.le_of_succ_le hh) (hs.at hsub hc1 hif) (PageTree.ne_nil_of_root hch)) ?_
      fun e c2 hc2 => hc2.of_reads hc1
    rintro more c2 ⟨hc2, hmore⟩
    refine wp_ret ⟨hc1.trans hc2, ?_⟩
    rw [hout, hmore, List.flatMap_append, List.map_append]
    simp

theorem take_append_take (l m : List α) (n : Nat) :
    l.take n ++ m.take (n - (l.take n).length) = (l ++ m).take n := by
  rw [List.take_append, List.length_take]
  congr 2
  omega

theorem take_full {l : List α} {n : Nat} (m : List α) (h : n ≤ (l.take n).length) :
    l.take n = (l ++ m).take n := by
  rw [List.length_take] at h
  rw [List.take_append_of_le_length (by omega)]

theorem wp_iterBoundedRecursive (hR : R.Lawful) {b : Nat} (limit : Nat) (hh : h ≤ R.maxDepth)
    (hs : Holds R c h sub) (hne : sub ≠ .nil) (out : List (Nat × V)) :
    wp (R.iterBoundedRecursive limit h sub.root (min b u64Max) (out.take limit)) c
      (fun l c' => Reads c c' ∧ l =
        (out ++ (PageTree.listing R.shape R.isAbsent h b sub).map clampKey).take limit)
      (Crowded c) := by
  induction h generalizing c sub b out with
  | zero =>
    simp only [RadixLayout.iterBoundedRecursive]
    refine wp_ite (fun hle => wp_ret ⟨⟨hs.wf, rfl⟩, take_full _ hle⟩) fun _ => ?_
    rw [wp_bind]
    refine wp_imp (wp_getLeaf hR hs hne) ?_
    rintro vals c' ⟨hreads, hsub⟩
    refine wp_ret ⟨hreads, ?_⟩
    rw [← take_append_take, hsub, PageTree.listing, List.map_map]
    congr 2
    refine List.map_congr_left fun i _ => ?_
    simp only [Function.comp, clampKey, satAdd, Prod.mk.injEq, and_true]
    omega
  | succ h ih =>
    simp only [RadixLayout.iterBoundedRecursive]
    refine wp_ite (fun hle => wp_ret ⟨⟨hs.wf, rfl⟩, take_full _ hle⟩) fun _ => ?_
    rw [wp_bind]
    simp only [hR.capacity_eq_span hh]
    refine wp_imp (wp_getInterior hR hs hne) ?_
    rintro ch c' ⟨hreads, kids, hsub, hptrs⟩
    rw [listing_node hs hsub hptrs]
    refine wp_mono (wp_foldlM (fun done acc c1 => Reads c c1 ∧ acc = (out ++ (done.flatMap fun i =>
      PageTree.listing R.shape R.isAbsent h (b + i * R.shape.span h) (kids i)).map clampKey).take
        limit)
      ⟨hreads, by simp⟩ ?_) (fun _ _ h => h) fun _ _ h => h
    rintro done i rest acc c1 hl ⟨hc1, rfl⟩
    obtain ⟨hif, hch⟩ := R.mem_present.mp (hl ▸ List.mem_append_right _ List.mem_cons_self)
    rw [hptrs i hif] at hch ⊢
    rw [List.flatMap_append, List.map_append, ← List.append_assoc]
    refine wp_ite (fun hle => wp_ret ⟨hc1, take_full _ hle⟩) fun _ => ?_
    rw [satAdd_satMul]
    refine wp_mono (ih (Nat.le_of_succ_le hh) (hs.at hsub hc1 hif)
      (PageTree.ne_nil_of_root hch) _) ?_ fun e c2 hc2 => hc2.of_reads hc1
    rintro l c2 ⟨hc2, rfl⟩
    refine ⟨hc1.trans hc2, ?_⟩
    simp

theorem wp_anyRecursive (hR : R.Lawful) (hh : h ≤ R.maxDepth) (hs : Holds R c h sub)
    (hne : sub ≠ .nil) :
    wp (R.anyRecursive h sub.root) c
      (fun r c' => Reads c c' ∧ (r = true ↔ ∃ k < R.shape.span h,
        R.isAbsent (PageTree.get R.shape R.absent h sub k) = false))
      (Crowded c) := by
  induction h generalizing c sub with
  | zero =>
    simp only [RadixLayout.anyRecursive, wp_bind, wp_pure]
    refine wp_imp (wp_getLeaf hR hs hne) ?_
    rintro vals c' ⟨hreads, hsub⟩
    refine ⟨hreads, ?_⟩
    rw [hsub]
    simp [PageTree.get, Shape.span, RadixLayout.shape]
  | succ h ih =>
    simp only [RadixLayout.anyRecursive, wp_bind]
    refine wp_imp (wp_getInterior hR hs hne) ?_
    rintro ch c' ⟨hreads, kids, hsub, hptrs⟩
    have hstep := wp_anyM (l := R.present ch) (P := fun c1 => Reads c c1)
      (E := fun e c' => Crowded c e c') (Q := fun i => ∃ k < R.shape.span h,
        R.isAbsent (PageTree.get R.shape R.absent h (kids i) k) = false)
      (f := fun i => R.anyRecursive h (ch i)) hreads fun i hi c1 hc1 => by
        obtain ⟨hif, hch⟩ := R.mem_present.mp hi
        rw [hptrs i hif] at hch ⊢
        refine wp_mono (ih (Nat.le_of_succ_le hh) (hs.at hsub hc1 hif)
          (PageTree.ne_nil_of_root hch)) ?_ fun e c2 hc2 => hc2.of_reads hc1
        rintro r c2 ⟨hc2, hr⟩
        exact ⟨hc1.trans hc2, hr⟩
    refine wp_imp hstep ?_
    rintro r c2 ⟨hc2, hr⟩
    refine ⟨hc2, hr.trans ⟨?_, ?_⟩⟩
    · rintro ⟨i, hi, k, hk, hpres⟩
      have hif := (R.mem_present.mp hi).1
      refine ⟨i * R.shape.span h + k, PageTree.kid_key_lt hif hk, ?_⟩
      rw [hsub, PageTree.get_kid hk]
      exact hpres
    · rintro ⟨k, hk, hpres⟩
      have hif := Shape.div_span_lt hk
      rw [hsub] at hpres
      change R.isAbsent (PageTree.get R.shape R.absent h (kids (k / R.shape.span h))
        (k % R.shape.span h)) = false at hpres
      refine ⟨k / R.shape.span h, R.mem_present.mpr ⟨hif, fun hz => ?_⟩, k % R.shape.span h,
        Nat.mod_lt _ (R.shape.span_pos h), hpres⟩
      rw [hptrs _ hif] at hz
      rw [(hs.at hsub hreads hif).rep.root_eq_zero_iff.mp hz, PageTree.get_nil,
        hR.absent_gone] at hpres
      cases hpres

theorem sum_filter {l : List Nat} {p : Nat → Bool} {f : Nat → Nat}
    (hf : ∀ a ∈ l, p a = false → f a = 0) : ((l.filter p).map f).sum = (l.map f).sum := by
  induction l with
  | nil => rfl
  | cons a rest ih =>
    have hrest := ih fun b hb => hf b (List.mem_cons_of_mem _ hb)
    cases hp : p a with
    | true => simp [hp, hrest]
    | false => simp [hp, hrest, hf a List.mem_cons_self hp]

theorem count_present (hs : Holds R c (h + 1) sub) {kids : Nat → PageTree V}
    (hsub : sub = .node id kids)
    (hptrs : ∀ i < R.shape.fanout, ch i = (kids i).root) (x : Nat) :
    sub.count R.shape x =
      one id x + ((R.present ch).map fun i => (kids i).count R.shape x).sum := by
  rw [hsub, PageTree.count_node, RadixLayout.present, sum_filter]
  · rfl
  · intro i hi hz
    have hif : i < R.shape.fanout := List.mem_range.mp hi
    have hkid : Holds R c h (kids i) := Stored.kid (hsub ▸ hs) hif
    have hroot : (kids i).root = 0 := by simpa [hptrs i hif] using hz
    rw [hkid.rep.root_eq_zero_iff.mp hroot, PageTree.count_nil]

theorem wp_freeSubtreeFrom (hR : R.Lawful) (hs : Holds R c h sub) (hne : sub ≠ .nil) :
    wp (R.freeSubtreeFrom h sub.root) c
      (fun l c' => Reads c c' ∧ ∀ x, l.count x = sub.count R.shape x)
      (Crowded c) := by
  induction h generalizing c sub with
  | zero =>
    simp only [RadixLayout.freeSubtreeFrom, wp_bind, wp_pure]
    refine wp_imp (wp_getLeaf hR hs hne) ?_
    rintro vals c' ⟨hreads, hsub⟩
    refine ⟨hreads, fun x => ?_⟩
    rw [hsub, PageTree.count_leaf, count_singleton]
    rfl
  | succ h ih =>
    simp only [RadixLayout.freeSubtreeFrom, wp_bind]
    refine wp_imp (wp_getInterior hR hs hne) ?_
    rintro ch c' ⟨hreads, kids, hsub, hptrs⟩
    refine wp_mono (wp_foldlM (fun done freed c1 => Reads c c1 ∧ ∀ x, freed.count x =
      (done.map fun i => (kids i).count R.shape x).sum) ⟨hreads, fun x => rfl⟩ ?_) ?_
      fun _ _ h => h
    · rintro done i rest freed c1 hl ⟨hc1, hfreed⟩
      obtain ⟨hif, hch⟩ := R.mem_present.mp (hl ▸ List.mem_append_right _ List.mem_cons_self)
      rw [hptrs i hif] at hch ⊢
      rw [wp_bind]
      refine wp_mono (ih (hs.at hsub hc1 hif) (PageTree.ne_nil_of_root hch)) ?_
        fun e c2 hc2 => hc2.of_reads hc1
      rintro more c2 ⟨hc2, hmore⟩
      refine wp_ret ⟨hc1.trans hc2, fun x => ?_⟩
      rw [List.count_append, hfreed, hmore]
      simp
    · rintro freed c2 ⟨hc2, hfreed⟩
      refine wp_ret ⟨hc2, fun x => ?_⟩
      rw [count_concat, hfreed, count_present hs hsub hptrs, Nat.add_comm]

/-! ### Whole trees -/

/-- The keys of the listing are keys of the engine. -/
def KeysOk (R : RadixLayout V) (h : Nat) (sub : PageTree V) : Prop :=
  ∀ k < R.shape.span h, R.isAbsent (PageTree.get R.shape R.absent h sub k) = false → k ≤ u64Max

theorem keysOk_iff (hR : R.Lawful) : KeysOk R h sub ↔
    ∀ k, R.isAbsent (PageTree.content R.shape R.absent h sub k) = false → k ≤ u64Max := by
  constructor
  · intro hkeys k hk
    unfold PageTree.content at hk
    split at hk
    · exact hkeys k ‹_› hk
    · rw [hR.absent_gone] at hk
      cases hk
  · intro hkeys k hlt hk
    refine hkeys k ?_
    rwa [PageTree.content, if_pos hlt]

theorem keysOk_nil (hR : R.Lawful) (h : Nat) : KeysOk R h (.nil : PageTree V) := by
  intro k _ hk
  rw [PageTree.get_nil, hR.absent_gone] at hk
  cases hk

theorem KeysOk.update (hR : R.Lawful) {h' : Nat} {sub' : PageTree V} {v : V}
    (hkeys : KeysOk R h sub) (hk : k ≤ u64Max) (hc : PageTree.content R.shape R.absent h' sub' =
      Function.update (PageTree.content R.shape R.absent h sub) k v) : KeysOk R h' sub' := by
  rw [keysOk_iff hR] at hkeys ⊢
  intro j hj
  rw [hc] at hj
  by_cases hjk : j = k
  · exact hjk ▸ hk
  · rw [Function.update_of_ne hjk] at hj
    exact hkeys j hj

theorem listing_clamp (hR : R.Lawful) (hkeys : KeysOk R h sub) :
    (PageTree.listing R.shape R.isAbsent h 0 sub).map clampKey =
      PageTree.listing R.shape R.isAbsent h 0 sub := by
  refine (List.map_congr_left fun e he => ?_).trans (List.map_id _)
  obtain ⟨k, v⟩ := e
  obtain ⟨j, hj, rfl, rfl, hpres⟩ := (PageTree.mem_listing hR.absent_gone).mp he
  have := hkeys j hj hpres
  simp only [clampKey, id, Prod.mk.injEq, and_true]
  omega

theorem wp_iter (hR : R.Lawful) (hh : h ≤ R.maxDepth) (hs : Holds R c h sub)
    (hmax : c.store.next ≤ u64Max) (hroot : RootedAt root sub) (hkeys : KeysOk R h sub) :
    wp (R.iter h root) c
      (fun l c' => Reads c c' ∧ l = PageTree.listing R.shape R.isAbsent h 0 sub)
      (Crowded c) := by
  unfold RadixLayout.iter
  by_cases hne : sub = .nil
  · rw [if_pos (hroot.nil hne), hne, PageTree.listing_nil]
    exact wp_ret ⟨⟨hs.wf, rfl⟩, rfl⟩
  refine wp_ite (fun hn => absurd ((hroot.none_iff hs hmax).mp hn) hne) fun _ => ?_
  rw [hroot.eq hne]
  refine wp_imp (wp_iterRecursive (b := 0) hR hh hs hne) ?_
  rintro l c' ⟨hreads, rfl⟩
  exact ⟨hreads, listing_clamp hR hkeys⟩

theorem wp_iterBounded (hR : R.Lawful) {limit : Nat} (hh : h ≤ R.maxDepth)
    (hs : Holds R c h sub) (hmax : c.store.next ≤ u64Max) (hroot : RootedAt root sub)
    (hkeys : KeysOk R h sub) :
    wp (R.iterBounded h root limit) c
      (fun l c' => Reads c c' ∧ l = (PageTree.listing R.shape R.isAbsent h 0 sub).take limit)
      (Crowded c) := by
  unfold RadixLayout.iterBounded
  by_cases hne : sub = .nil
  · rw [if_pos (.inl (hroot.nil hne)), hne, PageTree.listing_nil, List.take_nil]
    exact wp_ret ⟨⟨hs.wf, rfl⟩, rfl⟩
  refine wp_ite (fun hn => wp_ret ⟨⟨hs.wf, rfl⟩, ?_⟩) fun _ => ?_
  · rcases hn with hn | hn
    · exact absurd ((hroot.none_iff hs hmax).mp hn) hne
    · rw [hn, List.take_zero]
  rw [hroot.eq hne]
  have hiter := wp_iterBoundedRecursive (b := 0) hR limit hh hs hne []
  rw [List.take_nil] at hiter
  refine wp_imp hiter ?_
  rintro l c' ⟨hreads, rfl⟩
  refine ⟨hreads, ?_⟩
  rw [listing_clamp hR hkeys, List.nil_append]

theorem Stored.root_ne_none (hs : Holds R c h sub) (hmax : c.store.next ≤ u64Max)
    (hne : sub ≠ .nil) : sub.root ≠ pageIdNone := by
  have hlt := hs.root_lt hne
  unfold pageIdNone
  omega

theorem wp_anyPresent (hR : R.Lawful) (hh : h ≤ R.maxDepth) (hs : Holds R c h sub)
    (hmax : c.store.next ≤ u64Max) (hne : sub ≠ .nil) :
    wp (R.anyPresent h sub.root) c
      (fun r c' => Reads c c' ∧ (r = true ↔ ∃ k,
        R.isAbsent (PageTree.content R.shape R.absent h sub k) = false))
      (Crowded c) := by
  unfold RadixLayout.anyPresent
  rw [if_neg (hs.root_ne_none hmax hne)]
  refine wp_imp (wp_anyRecursive hR hh hs hne) ?_
  rintro r c' ⟨hreads, hr⟩
  refine ⟨hreads, hr.trans ⟨?_, ?_⟩⟩
  · rintro ⟨k, hk, hpres⟩
    exact ⟨k, by rwa [PageTree.content, if_pos hk]⟩
  · rintro ⟨k, hpres⟩
    unfold PageTree.content at hpres
    split at hpres
    · exact ⟨k, ‹_›, hpres⟩
    · rw [hR.absent_gone] at hpres
      cases hpres

theorem wp_freeSubtree (hR : R.Lawful) (hs : Holds R c h sub) (hmax : c.store.next ≤ u64Max)
    (hne : sub ≠ .nil) :
    wp (R.freeSubtree h sub.root) c
      (fun l c' => Reads c c' ∧ ∀ x, l.count x = sub.count R.shape x)
      (Crowded c) := by
  unfold RadixLayout.freeSubtree
  rw [if_neg (hs.root_ne_none hmax hne)]
  exact wp_freeSubtreeFrom hR hs hne

/-- The depth of a tree is the length of its leftmost path. -/
theorem wp_recoverDepthFrom (hR : R.Lawful) {rounds d : Nat} (hs : Holds R c h sub)
    (hspine : PageTree.Spine h sub) (hd : d + h ≤ R.maxDepth) (hrounds : h < rounds) :
    wp (R.recoverDepthFrom rounds d sub.root) c
      (fun r c' => Reads c c' ∧ r = d + h)
      (Crowded c) := by
  induction h generalizing c sub d rounds with
  | zero =>
    obtain ⟨rounds, rfl⟩ := Nat.exists_eq_succ_of_ne_zero (Nat.ne_of_gt hrounds)
    obtain ⟨vals, p, -, hv, hp⟩ := hs.leaf_page hspine.ne_nil
    obtain rfl := hR.cell_leaf.mp hp
    simp only [RadixLayout.recoverDepthFrom, wp_bind]
    refine wp_imp (wp_getPage_of_view hs.wf (hs.root_lt hspine.ne_nil) hv) ?_
    rintro p c' ⟨hwf', hst, rfl⟩
    have hnone : R.interior? (R.mkLeaf vals) = none := by
      cases hi : R.interior? (R.mkLeaf vals) with
      | none => rfl
      | some ch => exact absurd ((hR.interior_iff _ _).mp hi) (hR.leaf_ne_interior _ _)
    rw [hnone]
    exact wp_ret ⟨⟨hwf', hst⟩, rfl⟩
  | succ h ih =>
    obtain ⟨rounds, rfl⟩ := Nat.exists_eq_succ_of_ne_zero (Nat.ne_of_gt (Nat.zero_lt_of_lt hrounds))
    obtain ⟨kids, ptrs, p, hsub, hv, hp, hptrs⟩ := hs.node_page hspine.ne_nil
    obtain rfl := hR.cell_node.mp hp
    simp only [RadixLayout.recoverDepthFrom, wp_bind]
    refine wp_imp (wp_getPage_of_view hs.wf (hs.root_lt hspine.ne_nil) hv) ?_
    rintro p c' ⟨hwf', hst, rfl⟩
    have hreads : Reads c c' := ⟨hwf', hst⟩
    rw [(hR.interior_iff _ ptrs).mpr rfl]
    have hzero := R.shape.fanout_pos
    have hkid := hs.at hsub hreads hzero
    have hspine' : PageTree.Spine h (kids 0) := by
      rw [hsub] at hspine
      exact hspine
    simp only
    refine wp_ite (fun hgt => absurd hgt (by omega)) fun _ => ?_
    rw [hptrs 0 hzero]
    refine wp_ite (fun hz => absurd hz (hkid.rep.root_ne_zero hspine'.ne_nil)) fun _ => ?_
    refine wp_mono (ih hkid hspine' (by omega) (by omega)) ?_ fun e c2 hc2 => hc2.of_reads hreads
    rintro r c2 ⟨hc2, rfl⟩
    exact ⟨hreads.trans hc2, by omega⟩

theorem wp_recoverDepth (hR : R.Lawful) (hs : Holds R c h sub)
    (hh : h ≤ R.maxDepth) (hroot : RootedAt root sub) (hzero : sub = .nil → h = 0)
    (hspine : sub ≠ .nil → PageTree.Spine h sub) (hmax : c.store.next ≤ u64Max) :
    wp (R.recoverDepth root) c
      (fun r c' => Reads c c' ∧ r = h)
      (Crowded c) := by
  unfold RadixLayout.recoverDepth
  by_cases hne : sub = .nil
  · rw [if_pos (hroot.nil hne), hzero hne]
    exact wp_ret ⟨⟨hs.wf, rfl⟩, rfl⟩
  refine wp_ite (fun hn => absurd ((hroot.none_iff hs hmax).mp hn) hne) fun _ => ?_
  · rw [hroot.eq hne]
    simpa using wp_recoverDepthFrom (d := 0) hR hs (hspine hne) (by omega)
      (Nat.lt_succ_of_le hh)

end Chisel
