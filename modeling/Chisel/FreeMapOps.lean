import Chisel.FreeMapSpec
import Chisel.Lib.Walk
import Chisel.TreeStore

/-! The operations of the free map as a whole: making it, growing it, marking a page free, and the
scan for a free page. -/

namespace Chisel

open StateError PageCache RadixTree Ledger

variable {lo id h i j b x : Nat} {s : AllocCtx} {t sub : PageTree Bool} {bits : Nat → Bool}
  {c : PageCache} {ch : Nat → Nat} {kids : Nat → PageTree Bool}

/-! ### Making and growing the tree -/

/-- A failed operation on the tree: some pages may be lost, the bits are as they were. -/
def TreeFailed (lo : Nat) (s : AllocCtx) (t : PageTree Bool) (e : ChiselError) (s' : AllocCtx) :
    Prop :=
  Exhausted e s'.store ∧ ∃ junk t', Rooted lo s' t' ∧ FmStep junk s t s' t' ∧
    fmBits s' t' = fmBits s t ∧ (t ≠ .nil → t' ≠ .nil)

/-- An operation that turned the tree into `t'`, with the same bits. -/
structure Reshaped (lo : Nat) (s : AllocCtx) (t : PageTree Bool) (s' : AllocCtx)
    (t' : PageTree Bool) :
    Prop where
  rooted : Rooted lo s' t'
  ne_nil : t' ≠ .nil
  step : FmStep (fun _ => 0) s t s' t'
  bits : fmBits s' t' = fmBits s t

theorem Rooted.failed_of_taking {s' : AllocCtx} {taken : Nat → Nat}
    {e : ChiselError} (hr : Rooted lo s t) (hex : Exhausted e s'.store)
    (ht : Taking (fun _ => False) taken s s') (hsound : s'.Sound) (htree : s'.tree = s.tree) :
    TreeFailed lo s t e s' := by
  refine ⟨hex, taken, t, ⟨?_, ?_, fun hn => ?_, fun hn => ?_⟩, .of_taking ht htree, ?_, id⟩
  · rw [htree]
    exact hr.ok.of_taking ht hsound htree
  · rw [htree]
    exact hr.depth_le
  · rw [htree]
    exact hr.root_nil hn
  · rw [htree]
    exact hr.root_eq hn
  · exact fmBits_congr (by rw [htree]) fun _ => rfl

theorem wp_create (hr : Rooted lo s .nil)
    (hsess : s.tree.sessionOwned = ∅) (hpend : s.tree.pendingSuperseded = []) :
    wp FreeMapTree.create s
      (fun _ s' => ∃ t', Reshaped lo s .nil s' t')
      (fun e s' => TreeFailed lo s .nil e s') := by
  simp only [FreeMapTree.create, wp_bind, wp_modify]
  refine wp_mono (wp_structuralExtend hr.ok.sound hr.ok.reuse_lt) ?_ ?_
  swap
  · rintro e s1 ⟨hex, ⟨taken, ht⟩, hsound, htree⟩
    exact hr.failed_of_taking hex ht hsound htree
  rintro id s1 ⟨ht, hsound, hfits, hfresh, htree⟩
  rw [wp_onCache]
  refine wp_mono (wp_writeStamped hsound.wf hfresh.lt
    (fun q hq => absurd (hfresh.view.symm.trans hq) (by simp)) _) ?_ ?_
  swap
  · rintro e c2 ⟨-, -, hm⟩
    exact absurd hfits (hm.not_fits_of_hot hfresh.hot).2
  rintro - c2 ⟨hwf2, hst2⟩
  set s2 : AllocCtx := { s1 with
    cache := c2
    tree := ⟨id, 0, [], {id}⟩ } with hs2
  have hst2' : s2.store = s1.store.put id (some (FreeMapTree.initNode 0)) := hst2
  have hspare : s.Spare id := ht.taken_spare (by simp)
  have hid : id ≠ 0 := hr.ok.spare_pos hspare
  have hstep : FmStep (fun _ => 0) s .nil s2 (PageTree.empty false 0 id) := by
    refine ⟨⟨one id, fun _ => 0, (ht.mono fun _ hf => hf.elim).put (.inl hspare) hst2' rfl rfl rfl,
      by simp, by simp [hs2, hpend]⟩, ?_, fun x hx => ?_, by simp, by simp⟩
    · rw [hsess]
      exact Finset.empty_subset _
    · obtain rfl := Finset.mem_singleton.mp hx
      exact .inr ⟨hspare, by simp⟩
  have hsound2 : s2.Sound := ⟨hwf2, by rw [hst2']; exact hsound.next_le⟩
  have hrep : PageTree.Rep fmShape (fmRead s2.store.view) 0 (PageTree.empty false 0 id) :=
    rep_empty hid (by rw [hst2', Store.put_view_self])
  have hok0 : FmOk lo s 0 .nil := ⟨hr.ok.sound, hr.ok.lo_pos, hr.ok.lo_le, trivial, hr.ok.once⟩
  refine ⟨PageTree.empty false 0 id, ⟨hstep.fmOk hok0 hsound2 hrep, Nat.zero_le _,
    fun hn => absurd hn (PageTree.empty_ne_nil _ _), fun _ => rfl⟩, PageTree.empty_ne_nil _ _,
      hstep, ?_⟩
  funext x
  simp only [fmBits, PageTree.content_nil]
  exact PageTree.content_empty ..

theorem wp_createKeeping (hr : Rooted lo s .nil)
    (hsess : s.tree.sessionOwned = ∅) (hpend : s.tree.pendingSuperseded = []) :
    wp FreeMapTree.createKeeping s
      (fun _ s' => ∃ t', Reshaped lo s .nil s' t')
      (fun e s' => TreeFailed lo s .nil e s') := by
  simp only [FreeMapTree.createKeeping, wp_bind, wp_get, wp_modify]
  have hs : ({ s with tree := { s.tree with sessionOwned := ∅ } } : AllocCtx) = s := by
    cases s with
    | mk cache tree hint reuse pool =>
      cases tree
      simp_all
  rw [hs, hsess]
  refine wp_mono (wp_create hr hsess hpend) ?_ fun _ _ h => h
  intro _ s1 h1
  rwa [Finset.union_empty]

theorem wp_grow (hr : Rooted lo s t) (hne : t ≠ .nil) (hd : s.tree.depth < FreeMapTree.maxDepth) :
    wp FreeMapTree.grow s
      (fun _ s' => ∃ t', Reshaped lo s t s' t' ∧ s'.tree.depth = s.tree.depth + 1)
      (fun e s' => TreeFailed lo s t e s') := by
  simp only [FreeMapTree.grow, wp_bind, wp_get]
  refine wp_ite (fun hle => absurd hd (Nat.not_lt.mpr hle)) fun _ => ?_
  rw [wp_bind]
  refine wp_mono (wp_structuralExtend hr.ok.sound hr.ok.reuse_lt) ?_ ?_
  swap
  · rintro e s1 ⟨hex, ⟨taken, ht⟩, hsound, htree⟩
    exact hr.failed_of_taking hex ht hsound htree
  rintro id s1 ⟨ht, hsound, hfits, hfresh, htree⟩
  rw [wp_bind, wp_onCache]
  refine wp_mono (wp_writeStamped hsound.wf hfresh.lt
    (fun q hq => absurd (hfresh.view.symm.trans hq) (by simp)) _) ?_ ?_
  swap
  · rintro e c2 ⟨-, -, hm⟩
    exact absurd hfits (hm.not_fits_of_hot hfresh.hot).2
  rintro - c2 ⟨hwf2, hst2⟩
  simp only [FreeMapTree.own, wp_bind, wp_modify]
  set t' : PageTree Bool := .node id (Function.update (fun _ => .nil) 0 t) with ht'
  set s2 : AllocCtx := { s1 with
    cache := c2
    tree := { s1.tree.adopt id [] with root := id, depth := s1.tree.depth + 1 } } with hs2
  have heq : ({ s1 with
      cache := c2
      tree := { s1.tree with
        sessionOwned := insert id s1.tree.sessionOwned
        root := id
        depth := s1.tree.depth + 1 } } : AllocCtx) = s2 := by
    simp [hs2, FreeMapTree.adopt]
  rw [heq]
  have hst2' : s2.store = s1.store.put id
      (some (.freeMapInterior (Function.update (fun _ => 0) 0 s.tree.root))) := hst2
  have hspare : s.Spare id := ht.taken_spare (by simp)
  have hid : id ≠ 0 := hr.ok.spare_pos hspare
  have hdepth : s2.tree.depth = s.tree.depth + 1 := by
    change s1.tree.depth + 1 = _
    rw [htree]
  have hcount : ∀ x, t'.count fmShape x = one id x + t.count fmShape x := fun x =>
    PageTree.count_grow
  have hstep : FmStep (fun _ => 0) s t s2 t' := by
    have h1 : FmStep (fun _ => 0) s t { s2 with tree := s1.tree.adopt id [] } t' :=
      .adopt ht htree hst2' rfl rfl rfl rfl
        (fun x => by rw [hcount, List.count_nil, Nat.add_zero, Nat.add_comm]) (by simp)
        (by rw [hcount]; simp)
    obtain ⟨taken, dead, htk, hc, hp⟩ := h1.moves
    exact { h1 with moves := ⟨taken, dead, { htk with }, hc, hp⟩ }
  have hsound2 : s2.Sound := ⟨hwf2, by rw [hst2']; exact hsound.next_le⟩
  have hroot := hr.root_eq hne
  have hrep : PageTree.Rep fmShape (fmRead s2.store.view) (s.tree.depth + 1) t' := by
    refine PageTree.Rep.update (fun _ _ => rfl) (fun _ _ => PageTree.rep_nil) hid
      (hr.ok.rep.frame fun x hx => ?_) ?_
    · have hxid : x ≠ id := by
        rintro rfl
        exact hr.ok.not_spare hx hspare
      rw [fmRead, hst2', Store.put_view_ne _ _ hxid,
        ht.frame x (hr.ok.not_spare hx) (fun hf => hf)]
      rfl
    · rw [hst2', ← hroot]
      exact fmRead_node.mpr (Store.put_view_self ..)
  have honce := (hstep.once hr.ok).2
  refine ⟨t', ⟨⟨⟨hsound2, hr.ok.lo_pos, (hstep.once hr.ok).1, ?_, fun x => ?_⟩, ?_, ?_,
    fun _ => rfl⟩, by simp [ht'], hstep, ?_⟩, hdepth⟩
  · rw [hdepth]
    exact hrep
  · have := honce x
    omega
  · rw [hdepth]
    exact hd
  · intro hn
    simp [ht'] at hn
  · funext x
    rw [fmBits, hdepth, ht', PageTree.content_grow]
    rfl

theorem wp_growTo {rounds : Nat} (hr : Rooted lo s t)
    (hne : t ≠ .nil) (hid : id ≤ u64Max) (hrounds : FreeMapTree.maxDepth ≤ s.tree.depth + rounds) :
    wp (FreeMapTree.growTo id rounds) s
      (fun _ s' => ∃ t', Reshaped lo s t s' t' ∧ id < fmShape.span s'.tree.depth)
      (fun e s' => TreeFailed lo s t e s') := by
  have hmax := u64Max_lt_span
  have hrefl : Reshaped lo s t s t := ⟨hr, hne, .of_taking (.refl s) rfl, rfl⟩
  induction rounds generalizing s t with
  | zero =>
    refine wp_ret ⟨t, hrefl, ?_⟩
    have hd : s.tree.depth = FreeMapTree.maxDepth := Nat.le_antisymm hr.depth_le (by omega)
    rw [hd]
    omega
  | succ rounds ih =>
    simp only [FreeMapTree.growTo, wp_bind, wp_get]
    refine wp_ite (fun hgrow => ?_) fun hstop => ?_
    · rw [wp_bind]
      refine wp_mono (wp_grow hr hne hgrow.2) ?_ fun _ _ h' => h'
      rintro - s1 ⟨t1, h1, hd1⟩
      refine wp_mono (ih h1.rooted h1.ne_nil (by omega)
        ⟨h1.rooted, h1.ne_nil, .of_taking (.refl _) rfl, rfl⟩) ?_ ?_
      · rintro - s2 ⟨t2, h2, hlt⟩
        exact ⟨t2, ⟨h2.rooted, h2.ne_nil, by simpa using h1.step.trans h2.step,
          h2.bits.trans h1.bits⟩, hlt⟩
      · rintro e s2 ⟨hex, junk, t2, hr2, hs2, hb2, hn2⟩
        exact ⟨hex, _, t2, hr2, h1.step.trans hs2, hb2.trans h1.bits, fun _ => hn2 h1.ne_nil⟩
    · refine wp_ret ⟨t, hrefl, ?_⟩
      rcases Nat.lt_or_ge s.tree.depth FreeMapTree.maxDepth with hlt | hge
      · have : id < FreeMapTree.capacity s.tree.depth := by
          by_contra hge
          exact hstop ⟨by omega, hlt⟩
        rwa [capacity_eq_span hlt] at this
      · have hd : s.tree.depth = FreeMapTree.maxDepth := Nat.le_antisymm hr.depth_le hge
        rw [hd]
        omega

theorem wp_markFreeGrowing (hr : Rooted lo s t) (hne : t ≠ .nil) (hid : id ≤ u64Max) :
    wp (FreeMapTree.markFreeGrowing id) s
      (fun _ s' => ∃ t', Rooted lo s' t' ∧ t' ≠ .nil ∧ FmStep (fun _ => 0) s t s' t' ∧
        fmBits s' t' = Function.update (fmBits s t) id true)
      (fun e s' => TreeFailed lo s t e s') := by
  simp only [FreeMapTree.markFreeGrowing, FreeMapTree.checkDepth_of_le hr.depth_le,
    onCache, wp_bind, wp_get, wp_zoom, wp_pure]
  refine wp_mono (wp_growTo hr hne hid (by omega)) ?_ fun _ _ h' => h'
  rintro - s1 ⟨t1, h1, hlt⟩
  refine wp_mono (wp_cowDescend (v := true) (fun _ _ => rfl) h1.rooted h1.ne_nil hlt) ?_ ?_
  · rintro - s2 ⟨t2, hr2, hn2, hs2, hb2⟩
    exact ⟨t2, hr2, hn2, by simpa using h1.step.trans hs2, by rw [hb2, h1.bits]⟩
  · rintro e s2 ⟨hex, junk, t2, hr2, hn2, hs2, hb2⟩
    exact ⟨hex, _, t2, hr2, h1.step.trans hs2, hb2.trans h1.bits, fun _ => hn2⟩

/-! ### Reading the tree -/

/-- The free map `sub` is in the cache `c`. -/
abbrev FmStored (c : PageCache) (h : Nat) (sub : PageTree Bool) : Prop :=
    Stored fmShape fmCell c h sub

theorem Rooted.stored (hr : Rooted lo s t) :
    FmStored s.cache s.tree.depth t where
  wf := hr.ok.sound.wf
  rep := hr.ok.rep
  lt _ hx := (hr.ok.bounds hx).2

theorem fmCell_leaf {p : Page} :
    fmCell p = some (.leaf bits) ↔ p = .freeMap bits := by
  cases p <;> simp [fmCell]

theorem fmCell_node {p : Page} {ptrs : Nat → Nat} :
    fmCell p = some (.node ptrs) ↔ p = .freeMapInterior ptrs := by
  cases p <;> simp [fmCell]

theorem wp_stored_leaf (hs : FmStored c 0 sub) (hne : sub ≠ .nil) :
    wp (FreeMapTree.getLeaf sub.root) c
      (fun bits c' => Reads c c' ∧ sub = .leaf sub.root bits)
      (fun e c' => Crowded c e c') := by
  obtain ⟨bits, p, hsub, hv, hp⟩ := hs.leaf_page hne
  obtain rfl := fmCell_leaf.mp hp
  refine wp_mono (wp_fm_getLeaf hs.wf (hs.root_lt hne) hv) ?_ fun _ _ h => h
  rintro b c' ⟨hwf, hst, rfl⟩
  exact ⟨⟨hwf, hst⟩, hsub⟩

theorem wp_stored_node (hs : FmStored c (h + 1) sub) (hne : sub ≠ .nil) :
    wp (FreeMapTree.getInterior sub.root) c
      (fun ch c' => Reads c c' ∧ ∃ kids, sub = .node sub.root kids ∧
        ∀ i < fmShape.fanout, ch i = (kids i).root)
      (fun e c' => Crowded c e c') := by
  obtain ⟨kids, ptrs, p, hsub, hv, hp, hptrs⟩ := hs.node_page hne
  obtain rfl := fmCell_node.mp hp
  refine wp_mono (wp_fm_getInterior hs.wf (hs.root_lt hne) hv) ?_ fun _ _ h => h
  rintro b c' ⟨hwf, hst, rfl⟩
  exact ⟨⟨hwf, hst⟩, kids, hsub, hptrs⟩

theorem firstFreeBitFrom_some (h : FreeMap.firstFreeBitFrom bits lo = some i) :
    bits i = true ∧ i < FreeMap.leafCapacity ∧ lo ≤ i ∧
      ∀ j, lo ≤ j → bits j = true → i ≤ j := by
  obtain ⟨hbit, hmem, hleast⟩ := List.find?_range'_eq_some.mp h
  rw [List.mem_range'_1] at hmem
  refine ⟨hbit, by omega, hmem.1, fun j hj hset => ?_⟩
  by_contra hlt
  have hclear := hleast j hj (Nat.lt_of_not_le hlt)
  rw [hset] at hclear
  cases hclear

theorem firstFreeBitFrom_none
    (h : FreeMap.firstFreeBitFrom bits lo = none) (hj : j < FreeMap.leafCapacity)
    (hset : bits j = true) : j < lo := by
  by_contra hge
  have hclear := List.find?_range'_eq_none.mp h j (Nat.le_of_not_lt hge) (by omega)
  rw [hset] at hclear
  cases hclear

theorem mem_fm_present :
    i ∈ FreeMapTree.present ch ↔ i < fmShape.fanout ∧ ch i ≠ 0 := by
  simp [FreeMapTree.present, fmShape]

/-- A free id that the scan of a subtree may find; the ids of the subtree start at `b`. -/
def Found (b h : Nat) (sub : PageTree Bool) (x : Nat) : Prop :=
  ∃ k < fmShape.span h, x = b + k ∧ PageTree.get fmShape false h sub k = true

theorem Found.of_kid (hi : i < fmShape.fanout)
    (hf : Found (b + i * fmShape.span h) h (kids i) x) : Found b (h + 1) (.node id kids) x := by
  obtain ⟨k, hk, rfl, hget⟩ := hf
  exact ⟨i * fmShape.span h + k, PageTree.kid_key_lt hi hk, by omega, by rwa [PageTree.get_kid hk]⟩

theorem Found.kid (hf : Found b (h + 1) (.node id kids) x) :
    ∃ i < fmShape.fanout, Found (b + i * fmShape.span h) h (kids i) x := by
  obtain ⟨k, hk, rfl, hget⟩ := hf
  refine ⟨k / fmShape.span h, Shape.div_span_lt hk, k % fmShape.span h,
    Nat.mod_lt _ (fmShape.span_pos h), ?_, hget⟩
  have := Nat.div_add_mod' k (fmShape.span h)
  omega

/-- What a scan from `lo` answers about the ids that `P` holds of. -/
structure Scanned (lo : Nat) (P : Nat → Prop) (r : Option Nat) : Prop where
  found : ∀ x, r = some x → P x
  none : lo < u64Max → r = none → ∀ y, P y → y < lo
  least : lo < u64Max → ∀ x, r = some x → IsLeast {y | lo ≤ y ∧ P y} x

theorem mem_done_of_lt {done rest : List Nat}
    (hl : FreeMapTree.present ch = done ++ i :: rest) (hj : j ∈ FreeMapTree.present ch)
    (hlt : j < i) : j ∈ done := by
  have hsorted : (FreeMapTree.present ch).Pairwise (· < ·) :=
    List.Pairwise.filter _ List.pairwise_lt_range
  rw [hl] at hsorted hj
  rcases List.mem_append.mp hj with hj | hj
  · exact hj
  · have htail := (List.pairwise_append.mp hsorted).2.1
    rcases List.mem_cons.mp hj with rfl | hj
    · exact absurd hlt (Nat.lt_irrefl _)
    · have := (List.pairwise_cons.mp htail).1 j hj
      omega

/-- A child that holds a free id is there. -/
theorem Found.present {y : Nat} (hf : Found b h (kids j) y)
    (hs : FmStored c (h + 1) (.node id kids))
    (hptrs : ∀ i < fmShape.fanout, ch i = (kids i).root) (hj : j < fmShape.fanout) :
    j ∈ FreeMapTree.present ch := by
  refine mem_fm_present.mpr ⟨hj, fun hz => ?_⟩
  rw [hptrs j hj, (hs.kid hj).rep.root_eq_zero_iff] at hz
  obtain ⟨k, -, -, hset⟩ := hf
  rw [hz, PageTree.get_nil] at hset
  cases hset

/-- What a child answers is the answer of the node if no child before it has a free id. -/
theorem Scanned.least_of_kid {r : Option Nat}
    (hscan : Scanned lo (Found (b + i * fmShape.span h) h (kids i)) r) (hx : r = some x)
    (hi : i < fmShape.fanout) (hlo : lo < u64Max)
    (hbefore : ∀ j < i, ∀ y, Found (b + j * fmShape.span h) h (kids j) y → y < lo) :
    IsLeast {y | lo ≤ y ∧ Found b (h + 1) (.node id kids) y} x := by
  refine ⟨⟨(hscan.least hlo x hx).1.1, (hscan.found x hx).of_kid hi⟩, ?_⟩
  rintro y ⟨hge, hy⟩
  obtain ⟨j, hj, hy⟩ := hy.kid
  rcases Nat.lt_trichotomy j i with hji | rfl | hij
  · have := hbefore j hji y hy
    omega
  · exact (hscan.least hlo x hx).2 ⟨hge, hy⟩
  · obtain ⟨k, hk, rfl, -⟩ := hscan.found x hx
    obtain ⟨k', hk', rfl, -⟩ := hy
    have hmul : (i + 1) * fmShape.span h ≤ j * fmShape.span h := Nat.mul_le_mul_right _ hij
    rw [Nat.succ_mul] at hmul
    omega

theorem wp_scanLeaf (lo : Nat)
    (hs : FmStored c 0 sub) (hne : sub ≠ .nil) (hmax : ∀ x, Found b 0 sub x → x ≤ u64Max) :
    wp (FreeMapTree.scanNode lo 0 sub.root (min b u64Max)) c
      (fun r c' => Reads c c' ∧ Scanned lo (Found b 0 sub) r)
      (fun e c' => Crowded c e c') := by
  simp only [FreeMapTree.scanNode, wp_bind, wp_pure]
  refine wp_imp (wp_stored_leaf hs hne) ?_
  rintro bits c' ⟨hreads, hsub⟩
  have hget : ∀ i, PageTree.get fmShape false 0 sub i = bits i := fun i => by
    rw [hsub]
    rfl
  refine ⟨hreads, fun x hx => ?_, fun hlo hx y hy => ?_, fun hlo x hx => ?_⟩
  · obtain ⟨i, hi, rfl⟩ := Option.map_eq_some_iff.mp hx
    obtain ⟨hbit, hlt, -⟩ := firstFreeBitFrom_some hi
    have := hmax (b + i) ⟨i, hlt, rfl, (hget i).trans hbit⟩
    exact ⟨i, hlt, by omega, (hget i).trans hbit⟩
  · have hle := hmax y hy
    obtain ⟨k, hk, rfl, hset⟩ := hy
    have := firstFreeBitFrom_none (Option.map_eq_none_iff.mp hx) hk ((hget k).symm.trans hset)
    omega
  · obtain ⟨i, hi, rfl⟩ := Option.map_eq_some_iff.mp hx
    obtain ⟨hbit, hlt, hge, hleast⟩ := firstFreeBitFrom_some hi
    have hle := hmax (b + i) ⟨i, hlt, rfl, (hget i).trans hbit⟩
    refine ⟨⟨by omega, i, hlt, by omega, (hget i).trans hbit⟩, ?_⟩
    intro y hy
    have hley := hmax y hy.2
    obtain ⟨hlo', k, hk, rfl, hset⟩ := hy
    have := hleast k (by omega) ((hget k).symm.trans hset)
    omega

/-- The scan finds the least bit that is set. The base of a subtree saturates, but not where a bit
is set. -/
theorem wp_scanNode (lo : Nat)
    (hh : h ≤ FreeMapTree.maxDepth) (hs : FmStored c h sub) (hne : sub ≠ .nil)
    (hmax : ∀ x, Found b h sub x → x ≤ u64Max) :
    wp (FreeMapTree.scanNode lo h sub.root (min b u64Max)) c
      (fun r c' => Reads c c' ∧ Scanned lo (Found b h sub) r)
      (fun e c' => Crowded c e c') := by
  induction h generalizing c sub b with
  | zero => exact wp_scanLeaf lo hs hne hmax
  | succ h ih =>
    simp only [FreeMapTree.scanNode, wp_bind]
    refine wp_imp (wp_stored_node hs hne) ?_
    rintro ch c' ⟨hreads, kids, hsub, hptrs⟩
    obtain ⟨id, rfl⟩ : ∃ id, sub = .node id kids := ⟨_, hsub⟩
    rw [capacity_eq_span hh]
    have hspan := fmShape.span_pos h
    refine wp_imp (wp_findSomeM? (fun done c1 => Reads c c1 ∧ (lo < u64Max →
        ∀ i ∈ done, ∀ y, Found (b + i * fmShape.span h) h (kids i) y → y < lo))
      (Q := fun x c1 => Reads c c1 ∧ Found b (h + 1) (.node id kids) x ∧
        (lo < u64Max → IsLeast {y | lo ≤ y ∧ Found b (h + 1) (.node id kids) y} x))
      ⟨hreads, fun _ i hi => absurd hi List.not_mem_nil⟩ ?_) ?_
    · rintro done i rest c1 hl ⟨hc1, hdone⟩
      obtain ⟨hif, hch⟩ := mem_fm_present.mp (hl ▸ List.mem_append_right _ List.mem_cons_self)
      rw [satAdd_satMul]
      have hnext : lo < u64Max → (∀ y, Found (b + i * fmShape.span h) h (kids i) y → y < lo) →
          ∀ j ∈ done ++ [i], ∀ y, Found (b + j * fmShape.span h) h (kids j) y → y < lo := by
        intro hlo hi j hj
        rcases List.mem_append.mp hj with hj | hj
        · exact hdone hlo j hj
        · exact List.mem_singleton.mp hj ▸ hi
      refine wp_ite (fun hskip => wp_ret ⟨fun _ => ⟨hc1, fun hlo => hnext hlo fun y hy => ?_⟩,
        by simp⟩) fun _ => ?_
      · obtain ⟨k, hk, rfl, -⟩ := hy
        unfold satAdd at hskip
        omega
      rw [hptrs i hif] at hch ⊢
      refine wp_mono (ih (Nat.le_of_succ_le hh) ((hs.of_reads hc1).kid hif)
        (fun hnil => hch (hnil ▸ rfl)) fun x hx => hmax x (hx.of_kid hif)) ?_
        fun e c2 hc2 => hc2.of_reads hc1
      rintro r c2 ⟨hr2, hscan⟩
      refine ⟨fun hn => ⟨hc1.trans hr2, fun hlo => hnext hlo (hscan.none hlo hn)⟩, fun x hx =>
        ⟨hc1.trans hr2, (hscan.found x hx).of_kid hif, fun hlo => ?_⟩⟩
      exact hscan.least_of_kid hx hif hlo fun j hj y hy => hdone hlo j
        (mem_done_of_lt hl (hy.present hs hptrs (hj.trans hif)) hj) y hy
    · rintro r c2 ⟨hnone, hsome⟩
      cases r with
      | none =>
        refine ⟨(hnone rfl).1, by simp, fun hlo _ y hy => ?_, by simp⟩
        obtain ⟨j, hj, hy⟩ := hy.kid
        exact (hnone rfl).2 hlo j (hy.present hs hptrs hj) y hy
      | some x =>
        obtain ⟨hr2, hfound, hleast⟩ := hsome x rfl
        refine ⟨hr2, fun y hy => ?_, by simp, fun hlo y hy => ?_⟩
        · exact Option.some.inj hy ▸ hfound
        · exact Option.some.inj hy ▸ hleast hlo

theorem found_zero :
    Found 0 s.tree.depth t x ↔ fmBits s t x = true := by
  unfold Found fmBits PageTree.content
  simp only [Nat.zero_add]
  constructor
  · rintro ⟨k, hk, rfl, hget⟩
    rw [if_pos hk, hget]
  · intro hx
    split at hx
    · next hk => exact ⟨x, hk, rfl, hx⟩
    · cases hx

theorem lt_span_of_fmBits (hx : fmBits s t x = true) :
    x < fmShape.span s.tree.depth := by
  obtain ⟨k, hk, rfl, -⟩ := found_zero.mpr hx
  omega

theorem wp_scanFrom {n : Nat} (hr : Rooted lo s t)
    (hne : t ≠ .nil) (hmax : ∀ x, fmBits s t x = true → x ≤ u64Max) :
    wp (s.tree.scanFrom n) s.cache
      (fun r c' => Reads s.cache c' ∧ Scanned n (fun x => fmBits s t x = true) r)
      (fun e c' => Crowded s.cache e c') := by
  rw [FreeMapTree.scanFrom, FreeMapTree.checkDepth_of_le hr.depth_le, pure_bind]
  have hscan := wp_scanNode n hr.depth_le hr.stored hne fun x hx => hmax x (found_zero.mp hx)
  rw [show min 0 u64Max = 0 from rfl, ← hr.root_eq hne] at hscan
  have hfound : Found 0 s.tree.depth t = fun x => fmBits s t x = true :=
    funext fun x => propext found_zero
  rw [hfound] at hscan
  exact hscan

theorem Rooted.of_store {s' : AllocCtx} (hr : Rooted lo s t)
    (hwf : s'.cache.WF) (hst : s'.store = s.store) (hreuse : s'.structuralReuse = s.structuralReuse)
    (htree : s'.tree = s.tree) : Rooted lo s' t where
  ok := by
    rw [htree]
    exact hr.ok.of_store hwf hst hreuse htree
  depth_le := htree ▸ hr.depth_le
  root_nil := htree ▸ hr.root_nil
  root_eq := htree ▸ hr.root_eq

/-- The bits without the id that a scan found. -/
def withoutFound (bits : Nat → Bool) : Option Nat → Nat → Bool
  | none => bits
  | some x => Function.update bits x false

theorem wp_allocateFirst_bits (hr : Rooted lo s t)
    (hne : t ≠ .nil) (hmax : ∀ x, fmBits s t x = true → x ≤ u64Max) :
    wp FreeMapTree.allocateFirst s
      (fun r s' => Scanned s.hint (fun x => fmBits s t x = true) r ∧ s'.hint = r.getD s.hint ∧
        ∃ t', Rooted lo s' t' ∧ t' ≠ .nil ∧ (r = none → t' = t ∧ s'.store = s.store) ∧
          FmStep (fun _ => 0) s t { s' with hint := s.hint } t' ∧
          fmBits s' t' = withoutFound (fmBits s t) r)
      (fun e s' => s'.hint = s.hint ∧ TreeFailed lo s t e s') := by
  simp only [FreeMapTree.allocateFirst, wp_bind, wp_get, wp_onCache]
  refine wp_mono (wp_scanFrom hr hne hmax) ?_ ?_
  swap
  · rintro e c ⟨hwf, hst, hfull⟩
    exact ⟨trivial, .of_store hst hfull, _, t, hr.of_store hwf hst rfl rfl,
      FmOk.step_of_store hst rfl rfl rfl rfl, rfl, id⟩
  rintro r c ⟨⟨hwf, hst⟩, hscan⟩
  set s1 : AllocCtx := { s with cache := c } with hs1
  have hr1 : Rooted lo s1 t := hr.of_store hwf hst rfl rfl
  have hstep1 : FmStep (fun _ => 0) s t s1 t := FmOk.step_of_store hst rfl rfl rfl rfl
  cases r with
  | none => exact wp_ret ⟨hscan, rfl, t, hr1, hne, fun _ => ⟨rfl, hst⟩, hstep1, rfl⟩
  | some found =>
    have hspan : found < fmShape.span s1.tree.depth := lt_span_of_fmBits (hscan.found found rfl)
    simp only [wp_bind, FreeMapTree.clearBit]
    refine wp_mono (wp_cowDescend (v := false) (fun _ _ => rfl) hr1 hne hspan) ?_ ?_
    · rintro - s2 ⟨t2, hr2, hn2, hs2, hb2⟩
      have hhint : s2.hint = s.hint := by
        obtain ⟨taken, dead, htk, -⟩ := hs2.moves
        exact htk.hint
      rw [wp_modify, wp_pure]
      refine ⟨hscan, rfl, t2, hr2.of_store hr2.ok.sound.wf rfl rfl rfl, hn2, by simp, ?_, hb2⟩
      rw [← hhint]
      simpa using hstep1.trans hs2
    · rintro e s2 ⟨hex, junk, t2, hr2, hn2, hs2, hb2⟩
      obtain ⟨taken, dead, htk, -⟩ := hs2.moves
      exact ⟨htk.hint, hex, _, t2, hr2, hstep1.trans hs2, hb2, fun _ => hn2⟩

theorem wp_collectReachable (hs : FmStored c h sub) (hne : sub ≠ .nil) :
    wp (FreeMapTree.collectReachable h sub.root) c
      (fun l c' => Reads c c' ∧ ∀ x, x ∈ l ↔ 0 < sub.count fmShape x)
      (fun e c' => Crowded c e c') := by
  induction h generalizing c sub with
  | zero =>
    simp only [FreeMapTree.collectReachable, wp_bind, wp_pure]
    refine wp_mono (wp_stored_leaf hs hne) ?_ fun _ _ h => h
    rintro bits c' ⟨hreads, hsub⟩
    refine ⟨hreads, fun x => ?_⟩
    rw [hsub, PageTree.count_leaf, one_pos, List.mem_singleton, eq_comm]
    rfl
  | succ h ih =>
    simp only [FreeMapTree.collectReachable, wp_bind]
    refine wp_mono (wp_stored_node hs hne) ?_ fun _ _ h => h
    rintro ch c' ⟨hreads, kids, hsub, hptrs⟩
    refine wp_mono (wp_foldlM (fun done acc c1 => Reads c c1 ∧
      ∀ x, x ∈ acc ↔ x = sub.root ∨ ∃ i ∈ done, 0 < (kids i).count fmShape x)
      ⟨hreads, fun x => by simp⟩ ?_) ?_ fun _ _ h => h
    · rintro done i rest acc c1 hl ⟨hc1, hdone⟩
      obtain ⟨hif, hch⟩ := mem_fm_present.mp (hl ▸ List.mem_append_right _ List.mem_cons_self)
      have hkid : FmStored c1 h (kids i) := Stored.kid (hsub ▸ hs.of_reads hc1) hif
      rw [hptrs i hif] at hch ⊢
      rw [wp_bind]
      refine wp_mono (ih hkid fun hnil => hch (by rw [hnil]; rfl)) ?_
        fun e c2 hc2 => hc2.of_reads hc1
      rintro more c2 ⟨hc2, hmore⟩
      refine wp_ret ⟨hc1.trans hc2, fun x => ?_⟩
      rw [List.mem_append, hdone, hmore, or_assoc]
      simp [or_and_right, exists_or]
    · rintro acc c2 ⟨hc2, hall⟩
      refine ⟨hc2, fun x => (hall x).trans ⟨?_, fun hx => ?_⟩⟩
      · rintro (rfl | ⟨i, hi, hpos⟩)
        · exact PageTree.count_root_pos hne
        · rw [hsub]
          exact Nat.lt_of_lt_of_le hpos (PageTree.count_kid_le kids (mem_fm_present.mp hi).1 _)
      · rw [hsub] at hx
        rcases PageTree.count_node_pos hx with rfl | ⟨i, hif, hpos⟩
        · exact .inl rfl
        · refine .inr ⟨i, mem_fm_present.mpr ⟨hif, fun hz => ?_⟩, hpos⟩
          rw [hptrs i hif] at hz
          have hnil := ((hsub ▸ hs).kid hif).rep.root_eq_zero_iff.mp hz
          simp [hnil] at hpos

theorem wp_reachablePages (hr : Rooted lo s t) :
    wp (s.tree.reachablePages) s.cache
      (fun l c' => Reads s.cache c' ∧ ∀ x, x ∈ l ↔ 0 < t.count fmShape x)
      (fun e c' => Crowded s.cache e c') := by
  rw [FreeMapTree.reachablePages, FreeMapTree.checkDepth_of_le hr.depth_le, pure_bind]
  refine wp_ite (fun hnone => wp_ret ⟨⟨hr.ok.sound.wf, rfl⟩, fun x => ?_⟩) fun hroot => ?_
  · rw [hr.nil_iff.mpr hnone]
    simp
  · have hne : t ≠ .nil := fun hnil => hroot (hr.nil_iff.mp hnil)
    rw [hr.root_eq hne]
    exact wp_collectReachable hr.stored hne

theorem wp_fm_findLeafFrom {k : Nat}
    (hh : h ≤ FreeMapTree.maxDepth) (hs : FmStored c h sub) (hne : sub ≠ .nil)
    (hk : k < fmShape.span h) :
    wp (FreeMapTree.findLeafFrom h sub.root k) c
      (fun r c' => Reads c c' ∧ (r = none → PageTree.get fmShape false h sub k = false) ∧
        ∀ leaf, r = some leaf → ∃ l, l ≠ PageTree.nil ∧ FmStored c 0 l ∧ l.root = leaf ∧
          PageTree.get fmShape false 0 l (k % fmShape.leafCap) = PageTree.get fmShape false h sub k)
      (fun e c' => Crowded c e c') := by
  induction h generalizing c sub k with
  | zero =>
    simp only [FreeMapTree.findLeafFrom, wp_bind, wp_pure]
    refine wp_mono (wp_stored_leaf hs hne) ?_ fun _ _ h => h
    rintro bits c' ⟨hreads, -⟩
    refine ⟨hreads, ⟨by simp, fun leaf hleaf => ?_⟩⟩
    refine ⟨sub, hne, hs, Option.some.inj hleaf, ?_⟩
    rw [Nat.mod_eq_of_lt (show k < fmShape.leafCap from hk)]
  | succ h ih =>
    simp only [FreeMapTree.findLeafFrom, wp_bind]
    refine wp_mono (wp_stored_node hs hne) ?_ fun _ _ h => h
    rintro ch c' ⟨hreads, kids, hsub, hptrs⟩
    have hif := Shape.div_span_lt hk
    have hget : PageTree.get fmShape false (h + 1) sub k =
        PageTree.get fmShape false h (kids (k / fmShape.span h)) (k % fmShape.span h) := by
      rw [hsub]
      rfl
    have hs' : FmStored c (h + 1) (.node sub.root kids) := hsub ▸ hs
    rw [capacity_eq_span hh]
    refine wp_ite (fun hge => absurd hif (Nat.not_lt.mpr hge)) fun _ => ?_
    refine wp_ite (fun hz => wp_ret ⟨hreads, fun _ => ?_, fun _ hl => by cases hl⟩) fun hz => ?_
    · rw [hptrs _ hif] at hz
      rw [hget, (hs'.kid hif).rep.root_eq_zero_iff.mp hz, PageTree.get_nil]
    · rw [hptrs _ hif] at hz ⊢
      refine wp_mono (ih (Nat.le_of_succ_le hh) ((hs'.kid hif).of_reads hreads)
        (fun hnil => hz (by rw [hnil]; rfl)) (Nat.mod_lt _ (fmShape.span_pos h))) ?_
        fun e c2 hc2 => hc2.of_reads hreads
      rintro r c2 ⟨hr2, hnone, hsome⟩
      refine ⟨hreads.trans hr2, fun hn => by rw [hget, hnone hn], fun leaf hl => ?_⟩
      obtain ⟨l, hl0, hls, hroot, hbit⟩ := hsome leaf hl
      refine ⟨l, hl0, ?_, hroot, ?_⟩
      · exact ⟨hs.wf, hreads.2 ▸ hls.rep, hreads.2 ▸ hls.lt⟩
      · rw [hget, ← hbit, Nat.mod_mod_of_dvd _ (fmShape.leafCap_dvd_span h)]

theorem wp_isFree (hr : Rooted lo s t) (hne : t ≠ .nil) (hx : x ≤ u64Max) :
    wp (s.tree.isFree x) s.cache
      (fun b c' => Reads s.cache c' ∧ b = fmBits s t x)
      (fun e c' => Crowded s.cache e c') := by
  rw [FreeMapTree.isFree, FreeMapTree.checkDepth_of_le hr.depth_le, pure_bind]
  refine wp_ite (fun hout => wp_ret ⟨⟨hr.ok.sound.wf, rfl⟩, ?_⟩) fun hin => ?_
  · have hge := (refused_iff hr.depth_le hx).mp hout
    simp [fmBits, PageTree.content, Nat.not_lt.mpr hge]
  · have hk : x < fmShape.span s.tree.depth :=
      Nat.lt_of_not_le fun hge => hin ((refused_iff hr.depth_le hx).mpr hge)
    have hbits : fmBits s t x = PageTree.get fmShape false s.tree.depth t x := by
      simp [fmBits, PageTree.content, hk]
    rw [hr.root_eq hne, wp_bind, hbits]
    refine wp_mono (wp_fm_findLeafFrom hr.depth_le hr.stored hne hk) ?_ fun _ _ h => h
    rintro r c1 ⟨hc1, hnone, hsome⟩
    cases r with
    | none => exact wp_ret ⟨hc1, (hnone rfl).symm⟩
    | some leaf =>
      obtain ⟨l, hl0, hls, rfl, hbit⟩ := hsome leaf rfl
      rw [wp_bind]
      refine wp_mono (wp_stored_leaf (hls.of_reads hc1) hl0) ?_ fun e c2 hc2 => hc2.of_reads hc1
      rintro bits c2 ⟨hc2, hl⟩
      refine wp_ret ⟨hc1.trans hc2, ?_⟩
      rw [← hbit, hl]
      rfl

/-- Whether the pages say that `x` is free in the tree at `root`. -/
def freeAt (view : Nat → Option Page) (depth root x : Nat) : Bool :=
  if root = pageIdNone ∨ fmShape.span depth ≤ x then false
  else PageTree.find fmShape (fmRead view) false depth root x

theorem Rooted.freeAt_eq (hr : Rooted lo s t) :
    freeAt s.store.view s.tree.depth s.tree.root = fmBits s t := by
  funext x
  have hnone := hr.nil_iff
  unfold freeAt fmBits PageTree.content
  by_cases hne : t = .nil
  · rw [if_pos (.inl (hnone.mp hne)), hne, PageTree.get_nil, ite_self]
  by_cases hx : x < fmShape.span s.tree.depth
  · rw [if_neg (not_or.mpr ⟨mt hnone.mpr hne, Nat.not_le.mpr hx⟩), if_pos hx, hr.root_eq hne]
    exact hr.ok.rep.find_eq hne hx
  · rw [if_pos (.inr (Nat.le_of_not_lt hx)), if_neg hx]

end Chisel
