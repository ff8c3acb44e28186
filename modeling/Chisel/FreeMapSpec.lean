import Chisel.CacheSpec
import Chisel.FreeMapTree
import Chisel.Lib.RadixTree

/-! The free map as a radix tree of bits. Its operations write only to nodes this transaction made
and to pages taken from the two structural sources, the reuse list and the end of the file; a
failed operation leaves the bits as they were. -/

namespace Chisel

open StateError PageCache RadixTree Ledger

variable {p : Option Page} {view : Nat → Option Page} {ptrs : Nat → Nat} {k d : Nat} {v : Bool}
  {leafOp : (Nat → Bool) → Nat → Nat → Bool}

/-! ### Taking pages for the tree -/

namespace AllocCtx

def store (s : AllocCtx) : Store := s.cache.store

/-- A page that the tree may take for itself. -/
def Spare (s : AllocCtx) (x : Nat) : Prop := s.store.next ≤ x ∨ x ∈ s.structuralReuse

structure Sound (s : AllocCtx) : Prop where
  wf : s.cache.WF
  next_le : s.store.next ≤ u64Max

end AllocCtx

/-- From `s` to `s'`, only spare pages and the pages `W` were written, and `taken` pages left the
structural sources. -/
structure Taking (W : Nat → Prop) (taken : Nat → Nat) (s s' : AllocCtx) : Prop where
  frame : ∀ x, ¬ s.Spare x → ¬ W x → s'.store.view x = s.store.view x
  hot_le : ∀ x ∈ s'.store.hot, x ∈ s.store.hot ∨ s.Spare x ∨ W x
  hot_ge : s.store.hot ⊆ s'.store.hot
  io : s'.store.io = s.store.io
  room : s'.store.room = s.store.room
  cipher : s'.store.cipher = s.store.cipher
  pool : s'.pool = s.pool
  hint : s'.hint = s.hint
  next_le : s.store.next ≤ s'.store.next
  sources : ∀ x, s'.structuralReuse.count x + taken x =
    s.structuralReuse.count x + between s.store.next s'.store.next x
  tail : ∀ x, s.store.next ≤ x → x < s'.store.next → x ∈ s'.store.hot
  reuse : s'.structuralReuse <+: s.structuralReuse
  drained : s.store.next < s'.store.next → s'.structuralReuse = []
  reused : ∀ x ∈ s.structuralReuse, x ∈ s'.structuralReuse ∨ x ∈ s'.store.hot

namespace Taking

variable {W W' : Nat → Prop} {taken taken' : Nat → Nat} {s s' s'' : AllocCtx}

theorem of_store (hst : s'.store = s.store) (hr : s'.structuralReuse = s.structuralReuse)
    (hp : s'.pool = s.pool) (hh : s'.hint = s.hint) : Taking W (fun _ => 0) s s' where
  frame _ _ _ := by rw [hst]
  hot_le _ hx := .inl (hst ▸ hx)
  hot_ge := by rw [hst]
  io := by rw [hst]
  room := by rw [hst]
  cipher := by rw [hst]
  pool := hp
  hint := hh
  next_le := by rw [hst]
  sources x := by rw [hst, hr, between_self]
  tail x h1 h2 := absurd (hst ▸ h2) (Nat.not_lt.mpr h1)
  reuse := by rw [hr]
  drained hlt := absurd (hst ▸ hlt) (Nat.lt_irrefl _)
  reused x hx := .inl (hr ▸ hx)

theorem refl (s : AllocCtx) : Taking W (fun _ => 0) s s := of_store rfl rfl rfl rfl

theorem taken_spare (h : Taking W taken s s') {x : Nat} (hx : 0 < taken x) : s.Spare x := by
  have hs := h.sources x
  by_cases hm : x ∈ s.structuralReuse
  · exact .inr hm
  · have h0 : s.structuralReuse.count x = 0 := List.count_eq_zero.mpr hm
    have hb : 0 < between s.store.next s'.store.next x := by omega
    exact .inl (between_pos.mp hb).1

theorem spare_of_spare (h : Taking W taken s s') {x : Nat} (hx : s'.Spare x) : s.Spare x := by
  rcases hx with hx | hx
  · exact .inl (h.next_le.trans hx)
  · have hs := h.sources x
    have hpos := count_pos.mpr hx
    by_cases hm : x ∈ s.structuralReuse
    · exact .inr hm
    · have h0 : s.structuralReuse.count x = 0 := List.count_eq_zero.mpr hm
      have hb : 0 < between s.store.next s'.store.next x := by omega
      exact .inl (between_pos.mp hb).1

theorem mono (h : Taking W taken s s') (hW : ∀ x, W x → W' x ∨ s.Spare x) :
    Taking W' taken s s' :=
  { h with
    frame := fun x hx hw => h.frame x hx fun hw' => (hW x hw').elim hw hx
    hot_le := fun x hx => by
      rcases h.hot_le x hx with h1 | h1 | h1
      · exact .inl h1
      · exact .inr (.inl h1)
      · exact .inr (hW x h1).symm }

theorem trans (h : Taking W taken s s') (h' : Taking W' taken' s' s'')
    (hW : ∀ x, W' x → W x ∨ s.Spare x) :
    Taking W (fun x => taken x + taken' x) s s'' where
  frame x hx hw := by
    have hx' : ¬ s'.Spare x := fun hs => hx (h.spare_of_spare hs)
    rw [h'.frame x hx' fun hw' => (hW x hw').elim hw hx, h.frame x hx hw]
  hot_le x hx := by
    rcases h'.hot_le x hx with h1 | h1 | h1
    · exact h.hot_le x h1
    · exact .inr (.inl (h.spare_of_spare h1))
    · exact .inr (hW x h1).symm
  hot_ge := h.hot_ge.trans h'.hot_ge
  io := h'.io.trans h.io
  room := h'.room.trans h.room
  cipher := h'.cipher.trans h.cipher
  pool := h'.pool.trans h.pool
  hint := h'.hint.trans h.hint
  next_le := h.next_le.trans h'.next_le
  sources x := by
    have h1 := h.sources x
    have h2 := h'.sources x
    have h3 := between_add h.next_le h'.next_le x
    omega
  tail x h1 h2 := by
    rcases Nat.lt_or_ge x s'.store.next with h3 | h3
    · exact h'.hot_ge (h.tail x h1 h3)
    · exact h'.tail x h3 h2
  reuse := h'.reuse.trans h.reuse
  drained hlt := by
    rcases Nat.lt_or_ge s'.store.next s''.store.next with h1 | h1
    · exact h'.drained h1
    · have hempty := h.drained (Nat.lt_of_lt_of_le hlt h1)
      exact List.prefix_nil.mp (hempty ▸ h'.reuse)
  reused x hx := by
    rcases h.reused x hx with h1 | h1
    · exact h'.reused x h1
    · exact .inr (h'.hot_ge h1)

theorem put (h : Taking W taken s s') {id : Nat} (hid : s.Spare id ∨ W id)
    (hst : s''.store = s'.store.put id p) (hr : s''.structuralReuse = s'.structuralReuse)
    (hp : s''.pool = s'.pool) (hh : s''.hint = s'.hint) : Taking W taken s s'' where
  frame x hx hw := by
    have hne : x ≠ id := by
      rintro rfl
      exact hid.elim hx hw
    rw [hst, Store.put_view_ne _ _ hne, h.frame x hx hw]
  hot_le x hx := by
    rw [hst, Store.put_hot, Finset.mem_insert] at hx
    rcases hx with rfl | hx
    · exact .inr hid
    · exact h.hot_le x hx
  hot_ge := by
    rw [hst]
    exact h.hot_ge.trans (Finset.subset_insert _ _)
  io := by rw [hst]; exact h.io
  room := by rw [hst]; exact h.room
  cipher := by rw [hst]; exact h.cipher
  pool := hp.trans h.pool
  hint := hh.trans h.hint
  next_le := by rw [hst]; exact h.next_le
  sources x := by rw [hst, hr]; exact h.sources x
  tail x h1 h2 := by
    rw [hst] at h2 ⊢
    exact Finset.mem_insert_of_mem (h.tail x h1 h2)
  reuse := by rw [hr]; exact h.reuse
  drained hlt := by
    rw [hst] at hlt
    rw [hr]
    exact h.drained hlt
  reused x hx := by
    rw [hst, hr]
    exact (h.reused x hx).imp_right fun h1 => Finset.mem_insert_of_mem h1

end Taking

@[simp] theorem wp_onCache {α : Type} {x : CacheM α} {s : AllocCtx} {Q : α → AllocCtx → Prop}
    {E : ChiselError → AllocCtx → Prop} :
    wp (onCache x) s Q E ↔
      wp x s.cache (fun a c => Q a { s with cache := c })
        (fun e c => E e { s with cache := c }) := by
  simp [onCache]

theorem taking_extend {s s' : AllocCtx} (hempty : s.structuralReuse = [])
    (hst : s'.store = s.store.extend) (hr : s'.structuralReuse = s.structuralReuse)
    (hp : s'.pool = s.pool) (hh : s'.hint = s.hint) :
    Taking (fun _ => False) (one s.store.next) s s' where
  frame x hx _ := by
    have hne : x ≠ s.store.next := fun he => hx (.inl he.ge)
    rw [hst, Store.extend_view_ne _ hne]
  hot_le x hx := by
    rw [hst, Store.extend_hot, Finset.mem_insert] at hx
    rcases hx with rfl | hx
    · exact .inr (.inl (.inl le_rfl))
    · exact .inl hx
  hot_ge := by
    rw [hst]
    exact Finset.subset_insert _ _
  io := by rw [hst]; rfl
  room := by rw [hst]; rfl
  cipher := by rw [hst]; rfl
  pool := hp
  hint := hh
  next_le := by rw [hst]; exact Nat.le_succ _
  sources x := by rw [hst, hr, Store.extend_next, between_succ]
  tail x h1 h2 := by
    rw [hst, Store.extend_next] at h2
    obtain rfl : x = s.store.next := by omega
    rw [hst]
    exact Finset.mem_insert_self ..
  reuse := by rw [hr]
  drained _ := hr.trans hempty
  reused x hx := .inl (hr ▸ hx)

theorem taking_reuse {s s' : AllocCtx} {id : Nat} (hid : s.structuralReuse.getLast? = some id)
    (hst : s'.store = s.store.put id none) (hr : s'.structuralReuse = s.structuralReuse.dropLast)
    (hp : s'.pool = s.pool) (hh : s'.hint = s.hint) :
    Taking (fun _ => False) (one id) s s' where
  frame x hx _ := by
    have hne : x ≠ id := fun he => hx (.inr (he ▸ List.mem_of_getLast? hid))
    rw [hst, Store.put_view_ne _ _ hne]
  hot_le x hx := by
    rw [hst, Store.put_hot, Finset.mem_insert] at hx
    rcases hx with rfl | hx
    · exact .inr (.inl (.inr (List.mem_of_getLast? hid)))
    · exact .inl hx
  hot_ge := by
    rw [hst]
    exact Finset.subset_insert _ _
  io := by rw [hst]; rfl
  room := by rw [hst]; rfl
  cipher := by rw [hst]; rfl
  pool := hp
  hint := hh
  next_le := by rw [hst]; rfl
  sources x := by
    rw [hst, hr, Store.put_next, between_self, count_dropLast hid]
    rfl
  tail x h1 h2 := by
    rw [hst] at h2
    exact absurd h2 (Nat.not_lt.mpr h1)
  reuse := by
    rw [hr]
    exact List.dropLast_prefix _
  drained hlt := by
    rw [hst] at hlt
    exact absurd hlt (Nat.lt_irrefl _)
  reused x hx := by
    rw [← List.dropLast_append_getLast? id hid, List.mem_append, List.mem_singleton] at hx
    rw [hst, hr, Store.put_hot, Finset.mem_insert]
    exact hx.imp_right .inl

/-- A page the tree has just taken: it is hot and has no contents. -/
structure Fresh (s : AllocCtx) (id : Nat) : Prop where
  lt : id < s.store.next
  hot : id ∈ s.store.hot
  view : s.store.view id = none

theorem wp_structuralExtend {s : AllocCtx} (h : s.Sound)
    (hreuse : ∀ x ∈ s.structuralReuse, x < s.store.next) :
    wp structuralExtend s
      (fun id s' => Taking (fun _ => False) (one id) s s' ∧ s'.Sound ∧ s'.store.Fits ∧
        Fresh s' id ∧ s'.tree = s.tree)
      (fun e s' => Exhausted e s'.store ∧ (∃ taken, Taking (fun _ => False) taken s s') ∧
        s'.Sound ∧ s'.tree = s.tree) := by
  simp only [structuralExtend, wp_bind, wp_get]
  split
  · next id hid =>
    have hlt := hreuse id (List.mem_of_getLast? hid)
    simp only [wp_bind, wp_set, wp_onCache, claimPage]
    refine wp_mono (wp_reissuePage h.wf hlt) ?_ ?_
    · rintro - c ⟨hwf, hst, hfits⟩
      have hst' : ({ s with cache := c } : AllocCtx).store = s.store.put id none := hst
      refine wp_ret ⟨taking_reuse hid hst' rfl rfl rfl, ⟨hwf, ?_⟩, hfits, ⟨?_, ?_, ?_⟩, rfl⟩
      · change c.store.next ≤ _
        rw [hst]
        exact h.next_le
      · change id < c.store.next
        rw [hst]
        exact hlt
      · change id ∈ c.store.hot
        rw [hst]
        simp
      · change c.store.view id = none
        rw [hst]
        simp
    · rintro e c ⟨hwf, hex, hst⟩
      have hst' : ({ s with cache := c } : AllocCtx).store = s.store.put id none := hst
      refine ⟨hex, ⟨_, taking_reuse hid hst' rfl rfl rfl⟩, ⟨hwf, ?_⟩, trivial⟩
      change c.store.next ≤ _
      rw [hst]
      exact h.next_le
  · next hnone =>
    have hempty : s.structuralReuse = [] := List.getLast?_eq_none_iff.mp hnone
    simp only [wp_onCache]
    refine wp_mono (wp_newPage h.wf) ?_ ?_
    · rintro id c ⟨rfl, hmax, hwf, hst, hfits⟩
      have hst' : ({ s with cache := c } : AllocCtx).store = s.store.extend := hst
      have hle : s.store.next ≤ u64Max := h.next_le
      have hne : s.store.next ≠ u64Max := hmax
      refine ⟨taking_extend hempty hst' rfl rfl rfl, ⟨hwf, ?_⟩, hfits, ⟨?_, ?_, ?_⟩, trivial⟩
      · rw [hst', Store.extend_next]
        omega
      · rw [hst']
        exact Nat.lt_succ_self _
      · rw [hst']
        exact Finset.mem_insert_self _ _
      · rw [hst']
        exact s.store.extend_view_self
    · rintro e c ⟨hwf, hex, rfl | ⟨hmax, hst⟩⟩
      · exact ⟨hex, ⟨_, .refl s⟩, h, trivial⟩
      · have hst' : ({ s with cache := c } : AllocCtx).store = s.store.extend := hst
        have hle : s.store.next ≤ u64Max := h.next_le
        have hne : s.store.next ≠ u64Max := hmax
        refine ⟨hex, ⟨_, taking_extend hempty hst' rfl rfl rfl⟩, ⟨hwf, ?_⟩, trivial⟩
        rw [hst', Store.extend_next]
        omega

/-! ### The tree in the store -/

def fmShape : Shape := ⟨FreeMap.leafCapacity, FreeMapTree.ptrsPerInterior, by decide, by decide⟩

def fmCell : Page → Option (Cell Bool)
  | .freeMap bits => some (.leaf bits)
  | .freeMapInterior ch => some (.node ch)
  | _ => none

/-- The nodes of the tree among the pages. -/
def fmRead (view : Nat → Option Page) (x : Nat) : Option (Cell Bool) := (view x).bind fmCell

theorem fmRead_leaf {x : Nat} {bits : Nat → Bool} :
    fmRead view x = some (.leaf bits) ↔ view x = some (.freeMap bits) := by
  unfold fmRead
  cases view x with
  | none => simp
  | some p => cases p <;> simp [fmCell]

theorem fmRead_node {x : Nat} :
    fmRead view x = some (.node ptrs) ↔ view x = some (.freeMapInterior ptrs) := by
  unfold fmRead
  cases view x with
  | none => simp
  | some p => cases p <;> simp [fmCell]

theorem Rep.fm_page {h : Nat} {sub : PageTree Bool}
    (hr : PageTree.Rep fmShape (fmRead view) h sub) (hne : sub ≠ .nil) :
    ∃ p, view sub.root = some p ∧ FreeMapTree.nodeTypeOk h p = true ∧ p.isData = false := by
  cases h with
  | zero =>
    obtain ⟨vals, -, hrd⟩ := hr.leaf_of_zero hne
    exact ⟨_, fmRead_leaf.mp hrd, rfl, rfl⟩
  | succ h =>
    obtain ⟨kids, ptrs, -, hrd, -⟩ := hr.node_of_succ hne
    exact ⟨_, fmRead_node.mp hrd, rfl, rfl⟩

/-- A subtree `sub` of height `h` lies in the store, apart from the pages it may take. -/
structure FmOk (lo : Nat) (s : AllocCtx) (h : Nat) (sub : PageTree Bool) : Prop where
  sound : s.Sound
  lo_pos : 0 < lo
  lo_le : lo ≤ s.store.next
  rep : PageTree.Rep fmShape (fmRead s.store.view) h sub
  once : ∀ x, sub.count fmShape x + s.structuralReuse.count x +
    s.tree.pendingSuperseded.count x ≤ between lo s.store.next x

namespace FmOk

variable {lo h x : Nat} {s : AllocCtx} {sub : PageTree Bool}

theorem bounds (hok : FmOk lo s h sub) (hx : 0 < sub.count fmShape x) :
    lo ≤ x ∧ x < s.store.next := by
  have := hok.once x
  exact between_pos.mp (by omega)

theorem not_spare (hok : FmOk lo s h sub) (hx : 0 < sub.count fmShape x) : ¬ s.Spare x := by
  have hb := hok.bounds hx
  rintro (hs | hs)
  · omega
  · have h1 := hok.once x
    have h2 := between_le lo s.store.next x
    have h3 := count_pos.mpr hs
    omega

theorem reuse_lt (hok : FmOk lo s h sub) : ∀ x ∈ s.structuralReuse, x < s.store.next := by
  intro x hx
  have h1 := hok.once x
  have h3 := count_pos.mpr hx
  exact (between_pos.mp (show 0 < between lo s.store.next x by omega)).2

theorem spare_pos (hok : FmOk lo s h sub) (hx : s.Spare x) : x ≠ 0 := by
  have hlo := hok.lo_pos
  have hle := hok.lo_le
  rcases hx with hx | hx
  · omega
  · have h1 := hok.once x
    have h3 := count_pos.mpr hx
    have := (between_pos.mp (show 0 < between lo s.store.next x by omega)).1
    omega

end FmOk

/-- What an operation on a subtree does: `junk` are pages it took and lost. -/
structure FmStep (junk : Nat → Nat) (s : AllocCtx) (sub : PageTree Bool) (s' : AllocCtx)
    (sub' : PageTree Bool) : Prop where
  moves : ∃ taken dead : Nat → Nat,
    Taking (fun x => x ∈ s.tree.sessionOwned ∧ 0 < sub.count fmShape x) taken s s' ∧
    (∀ x, sub'.count fmShape x + dead x + junk x = sub.count fmShape x + taken x) ∧
    ∀ x, s'.tree.pendingSuperseded.count x = s.tree.pendingSuperseded.count x + dead x
  session_ge : s.tree.sessionOwned ⊆ s'.tree.sessionOwned
  session_le : ∀ x ∈ s'.tree.sessionOwned,
    x ∈ s.tree.sessionOwned ∨ (s.Spare x ∧ 0 < sub'.count fmShape x)
  session_kept : ∀ x ∈ s.tree.sessionOwned, 0 < sub.count fmShape x → 0 < sub'.count fmShape x
  kept : ∀ x, 0 < sub.count fmShape x →
    0 < sub'.count fmShape x ∨ x ∈ s'.tree.pendingSuperseded

/-- The root and the depth of the tree are where they were. -/
def SameSpot (s s' : AllocCtx) : Prop :=
  s'.tree.root = s.tree.root ∧ s'.tree.depth = s.tree.depth

theorem SameSpot.trans {s s' s'' : AllocCtx} (h : SameSpot s s') (h' : SameSpot s' s'') :
    SameSpot s s'' :=
  ⟨h'.1.trans h.1, h'.2.trans h.2⟩

namespace FmStep

variable {junk junk' : Nat → Nat} {s s' s'' : AllocCtx} {sub sub' sub'' : PageTree Bool}
  {lo h : Nat}

theorem of_taking {taken : Nat → Nat} (ht : Taking (fun _ => False) taken s s')
    (htree : s'.tree = s.tree) : FmStep taken s sub s' sub where
  moves := ⟨taken, fun _ => 0, ht.mono (fun _ hf => hf.elim), fun _ => rfl,
    fun _ => by rw [htree]; rfl⟩
  session_ge := by rw [htree]
  session_le x hx := .inl (htree ▸ hx)
  session_kept x _ hx := hx
  kept x hx := .inl hx

theorem trans (h1 : FmStep junk s sub s' sub') (h2 : FmStep junk' s' sub' s'' sub'') :
    FmStep (fun x => junk x + junk' x) s sub s'' sub'' := by
  obtain ⟨taken, dead, ht, hc, hp⟩ := h1.moves
  obtain ⟨taken', dead', ht', hc', hp'⟩ := h2.moves
  refine ⟨⟨fun x => taken x + taken' x, fun x => dead x + dead' x, ht.trans ht' ?_, fun x => ?_,
    fun x => ?_⟩, h1.session_ge.trans h2.session_ge, fun x hx => ?_, fun x hs hx => ?_,
    fun x hx => ?_⟩
  · rintro x ⟨hs, hx⟩
    rcases h1.session_le x hs with hs' | ⟨hsp, -⟩
    · have := hc x
      by_cases htk : 0 < taken x
      · exact .inr (ht.taken_spare htk)
      · exact .inl ⟨hs', by omega⟩
    · exact .inr hsp
  · have := hc x
    have := hc' x
    beta_reduce
    omega
  · rw [hp', hp, Nat.add_assoc]
  · rcases h2.session_le x hx with hs | ⟨hsp, hpos⟩
    · rcases h1.session_le x hs with hs' | ⟨hsp, hpos⟩
      · exact .inl hs'
      · exact .inr ⟨hsp, h2.session_kept x hs hpos⟩
    · exact .inr ⟨ht.spare_of_spare hsp, hpos⟩
  · exact h2.session_kept x (h1.session_ge hs) (h1.session_kept x hs hx)
  · rcases h1.kept x hx with hpos | hpend
    · exact h2.kept x hpos
    · refine .inr (count_pos.mp ?_)
      have := count_pos.mpr hpend
      rw [hp']
      omega

theorem once (hok : FmOk lo s h sub) (hs : FmStep junk s sub s' sub') :
    lo ≤ s'.store.next ∧ ∀ x, sub'.count fmShape x + s'.structuralReuse.count x +
      s'.tree.pendingSuperseded.count x + junk x ≤ between lo s'.store.next x := by
  obtain ⟨taken, dead, ht, hc, hp⟩ := hs.moves
  refine ⟨hok.lo_le.trans ht.next_le, fun x => ?_⟩
  have h1 := hok.once x
  have h2 := ht.sources x
  have h3 := hc x
  have h4 := hp x
  have h5 := between_add hok.lo_le ht.next_le x
  omega

theorem fmOk (hok : FmOk lo s h sub) (hs : FmStep junk s sub s' sub') (hsound : s'.Sound)
    (hrep : PageTree.Rep fmShape (fmRead s'.store.view) h sub') : FmOk lo s' h sub' where
  sound := hsound
  lo_pos := hok.lo_pos
  lo_le := (hs.once hok).1
  rep := hrep
  once x := by
    have := (hs.once hok).2 x
    omega

/-- A step on one subtree is a step on its node. -/
theorem lift (id : Nat) {i : Nat} {kids : Nat → PageTree Bool} (hi : i < fmShape.fanout)
    (hs : FmStep junk s (kids i) s' sub') :
    FmStep junk s (.node id kids) s' (.node id (Function.update kids i sub')) := by
  obtain ⟨taken, dead, ht, hc, hp⟩ := hs.moves
  have hcount := fun x => PageTree.count_node_update (x := x) kids hi sub' id id
  have hkid : ∀ x, sub'.count fmShape x ≤
      PageTree.count fmShape x (.node id (Function.update kids i sub')) := by
    intro x
    have := PageTree.count_kid_le (x := x) (Function.update kids i sub') hi id
    rwa [Function.update_self] at this
  have hsub : ∀ x, 0 < (kids i).count fmShape x → 0 < PageTree.count fmShape x (.node id kids) :=
    fun x hx => Nat.lt_of_lt_of_le hx (PageTree.count_kid_le kids hi id)
  refine ⟨⟨taken, dead, ht.mono fun x hx => .inl ⟨hx.1, hsub x hx.2⟩, fun x => ?_, hp⟩,
    hs.session_ge, fun x hx => ?_, fun x hss hx => ?_, fun x hx => ?_⟩
  · have h1 := hcount x
    have h2 := hc x
    omega
  · exact (hs.session_le x hx).imp_right fun h => ⟨h.1, Nat.lt_of_lt_of_le h.2 (hkid x)⟩
  · have h1 := hcount x
    have h3 := hkid x
    by_cases hk : 0 < (kids i).count fmShape x
    · have := hs.session_kept x hss hk
      omega
    · omega
  · have h1 := hcount x
    have h3 := hkid x
    by_cases hk : 0 < (kids i).count fmShape x
    · exact (hs.kept x hk).imp_left fun h => by omega
    · exact .inl (by omega)

theorem put (hs : FmStep junk s sub s' sub') {id : Nat}
    (hid : id ∈ s'.tree.sessionOwned) (hc : 0 < sub'.count fmShape id)
    (hst : s''.store = s'.store.put id p) (hr : s''.structuralReuse = s'.structuralReuse)
    (hp : s''.pool = s'.pool) (hh : s''.hint = s'.hint) (ht : s''.tree = s'.tree) :
    FmStep junk s sub s'' sub' := by
  obtain ⟨taken, dead, htk, hcnt, hpend⟩ := hs.moves
  have hmay : s.Spare id ∨ (id ∈ s.tree.sessionOwned ∧ 0 < sub.count fmShape id) := by
    rcases hs.session_le id hid with h | h
    · by_cases hk : 0 < taken id
      · exact .inl (htk.taken_spare hk)
      · have := hcnt id
        exact .inr ⟨h, by omega⟩
    · exact .inl h.1
  exact ⟨⟨taken, dead, htk.put hmay hst hr hp hh, hcnt, by rw [ht]; exact hpend⟩,
    by rw [ht]; exact hs.session_ge, by rw [ht]; exact hs.session_le, hs.session_kept,
    by rw [ht]; exact hs.kept⟩

end FmStep

namespace FmOk

variable {lo h id i : Nat} {s s' : AllocCtx} {kids : Nat → PageTree Bool} {kid' : PageTree Bool}
variable {junk : Nat → Nat}

theorem kid (hok : FmOk lo s (h + 1) (.node id kids)) (hi : i < fmShape.fanout) :
    FmOk lo s h (kids i) where
  sound := hok.sound
  lo_pos := hok.lo_pos
  lo_le := hok.lo_le
  rep := hok.rep.2.2 i hi
  once x := by
    have h1 := hok.once x
    have h2 := PageTree.count_kid_le (S := fmShape) (x := x) kids hi id
    omega

theorem view_other (hok : FmOk lo s (h + 1) (.node id kids)) (hi : i < fmShape.fanout)
    (hs : FmStep junk s (kids i) s' kid') {j : Nat} (hj : j < fmShape.fanout) (hji : j ≠ i)
    {x : Nat} (hx : 0 < (kids j).count fmShape x) : s'.store.view x = s.store.view x := by
  obtain ⟨taken, dead, ht, -⟩ := hs.moves
  have hnode := PageTree.count_kid_le (S := fmShape) (x := x) kids hj id
  refine ht.frame x (hok.not_spare (Nat.lt_of_lt_of_le hx hnode)) fun hw => ?_
  have h1 := hok.once x
  have h2 := PageTree.count_kids_le (S := fmShape) (x := x) kids hi hj hji
  have h3 := between_le lo s.store.next x
  rw [PageTree.count_node] at h1
  omega

theorem view_node (hok : FmOk lo s (h + 1) (.node id kids)) (hi : i < fmShape.fanout)
    (hs : FmStep junk s (kids i) s' kid') : s'.store.view id = s.store.view id := by
  obtain ⟨taken, dead, ht, -⟩ := hs.moves
  have hpos : 0 < PageTree.count fmShape id (.node id kids) := by simp [PageTree.count_node]
  refine ht.frame id (hok.not_spare hpos) fun hw => ?_
  have h1 := hok.once id
  have h2 := Finset.single_le_sum (f := fun l => (kids l).count fmShape id)
    (fun _ _ => Nat.zero_le _) (Finset.mem_range.mpr hi)
  have h3 := between_le lo s.store.next id
  rw [PageTree.count_node, one_self] at h1
  have := hw.2
  omega

theorem lift (hok : FmOk lo s (h + 1) (.node id kids)) (hi : i < fmShape.fanout)
    (hkid : FmOk lo s' h kid') (hs : FmStep junk s (kids i) s' kid')
    (hroot : kid'.root = (kids i).root) :
    FmOk lo s' (h + 1) (.node id (Function.update kids i kid')) := by
  refine (hs.lift id hi).fmOk hok hkid.sound ?_
  obtain ⟨hid, ⟨ptrs, hrd, hptrs⟩, hkids⟩ := hok.rep
  have hother : ∀ j < fmShape.fanout, j ≠ i →
      PageTree.Rep fmShape (fmRead s'.store.view) h (kids j) := fun j hj hji =>
    (hkids j hj).frame fun x hx => by rw [fmRead, hok.view_other hi hs hj hji hx]; rfl
  refine ⟨hid, ⟨ptrs, ?_, fun j hj => ?_⟩, fun j hj => ?_⟩
  · rw [fmRead, hok.view_node hi hs]
    exact hrd
  · by_cases hji : j = i
    · subst hji
      rw [Function.update_self, hroot, hptrs j hj]
    · rw [Function.update_of_ne hji, hptrs j hj]
  · by_cases hji : j = i
    · subst hji
      rw [Function.update_self]
      exact hkid.rep
    · rw [Function.update_of_ne hji]
      exact hother j hj hji

end FmOk

/-! ### Reading nodes -/

theorem wp_fm_getLeaf {c : PageCache} {id : Nat} (h : c.WF) (hlt : id < c.nextPageId)
    {bits : Nat → Bool} (hv : c.store.view id = some (.freeMap bits)) :
    wp (FreeMapTree.getLeaf id) c
      (fun b c' => c'.WF ∧ c'.store = c.store ∧ b = bits)
      (fun err c' => c'.WF ∧ c'.store = c.store ∧ err.isCapacity = true ∧ ¬ c.store.Fits) := by
  simp only [FreeMapTree.getLeaf, wp_bind]
  refine wp_imp (wp_getPage_of_view h hlt hv) ?_
  rintro p c' ⟨hwf, hst, rfl⟩
  exact wp_ret ⟨hwf, hst, rfl⟩

theorem wp_fm_getInterior {c : PageCache} {id : Nat} (h : c.WF) (hlt : id < c.nextPageId)
    (hv : c.store.view id = some (.freeMapInterior ptrs))
    :
    wp (FreeMapTree.getInterior id) c
      (fun ch c' => c'.WF ∧ c'.store = c.store ∧ ch = ptrs)
      (fun err c' => c'.WF ∧ c'.store = c.store ∧ err.isCapacity = true ∧ ¬ c.store.Fits) := by
  simp only [FreeMapTree.getInterior, wp_bind]
  refine wp_imp (wp_getPage_of_view h hlt hv) ?_
  rintro p c' ⟨hwf, hst, rfl⟩
  exact wp_ret ⟨hwf, hst, rfl⟩

/-! ### Copying a node -/

namespace FmOk

variable {lo h : Nat} {s s' : AllocCtx} {sub : PageTree Bool}

theorem of_store (hok : FmOk lo s h sub) (hwf : s'.cache.WF) (hst : s'.store = s.store)
    (hr : s'.structuralReuse = s.structuralReuse) (ht : s'.tree = s.tree) : FmOk lo s' h sub where
  sound := ⟨hwf, hst ▸ hok.sound.next_le⟩
  lo_pos := hok.lo_pos
  lo_le := hst ▸ hok.lo_le
  rep := hst ▸ hok.rep
  once := by rw [hst, hr, ht]; exact hok.once

/-- The step that changes nothing but what memory holds. -/
theorem step_of_store (hst : s'.store = s.store) (hr : s'.structuralReuse = s.structuralReuse)
    (hp : s'.pool = s.pool) (hh : s'.hint = s.hint) (ht : s'.tree = s.tree) :
    FmStep (fun _ => 0) s sub s' sub :=
  .of_taking (.of_store hst hr hp hh) ht

theorem of_taking (hok : FmOk lo s h sub) {taken : Nat → Nat}
    (ht : Taking (fun _ => False) taken s s') (hsound : s'.Sound) (htree : s'.tree = s.tree) :
    FmOk lo s' h sub := by
  have hstep : FmStep taken s sub s' sub := .of_taking ht htree
  refine hstep.fmOk hok hsound (hok.rep.frame fun x hx => ?_)
  rw [fmRead, ht.frame x (hok.not_spare hx) id]
  rfl

theorem of_extend (hok : FmOk lo s h sub) (hwf : s'.cache.WF) (hmax : s.store.next ≠ u64Max)
    (hst : s'.store = s.store.extend) (hr : s'.structuralReuse = s.structuralReuse)
    (htree : s'.tree = s.tree) : FmOk lo s' h sub := by
  have hle := hok.sound.next_le
  have hlo := hok.lo_le
  refine ⟨⟨hwf, ?_⟩, hok.lo_pos, ?_, hok.rep.frame fun x hx => ?_, fun x => ?_⟩
  · rw [hst, Store.extend_next]
    omega
  · rw [hst, Store.extend_next]
    omega
  · have hne : x ≠ s.store.next := (hok.bounds hx).2.ne
    rw [fmRead, hst, Store.extend_view_ne _ hne]
    rfl
  · have h1 := hok.once x
    have h2 := between_add hlo (Nat.le_add_right s.store.next 1) x
    rw [hst, hr, htree, Store.extend_next]
    omega

end FmOk

/-- The tree with one more node of this transaction, and possibly one node that it replaces. -/
def FreeMapTree.adopt (t : FreeMapTree) (id : Nat) (dead : List Nat) : FreeMapTree :=
  { t with sessionOwned := insert id t.sessionOwned
           pendingSuperseded := t.pendingSuperseded ++ dead }

/-- A page that was just taken and written becomes the root of the subtree. -/
theorem FmStep.adopt {s s1 s' : AllocCtx} {sub sub' : PageTree Bool} {id : Nat}
    {dead : List Nat} (ht : Taking (fun _ => False) (one id) s s1) (htree : s1.tree = s.tree)
    (hst : s'.store = s1.store.put id p) (hr : s'.structuralReuse = s1.structuralReuse)
    (hp : s'.pool = s1.pool) (hh : s'.hint = s1.hint) (htree' : s'.tree = s1.tree.adopt id dead)
    (hcount : ∀ x, sub'.count fmShape x + dead.count x = sub.count fmShape x + one id x)
    (hdead : ∀ x ∈ dead, x ∉ s.tree.sessionOwned) (hid : 0 < sub'.count fmShape id) :
    FmStep (fun _ => 0) s sub s' sub' := by
  have hspare : s.Spare id := ht.taken_spare (by simp)
  rw [htree] at htree'
  refine ⟨⟨one id, dead.count, ((ht.mono fun _ hf => hf.elim).put (.inl hspare) hst hr hp hh),
    hcount, fun x => ?_⟩, ?_, fun x hx => ?_, fun x hs hx => ?_, fun x hx => ?_⟩
  · rw [htree', FreeMapTree.adopt, List.count_append]
  · rw [htree']
    exact Finset.subset_insert _ _
  · rw [htree', FreeMapTree.adopt, Finset.mem_insert] at hx
    rcases hx with rfl | hx
    · exact .inr ⟨hspare, hid⟩
    · exact .inl hx
  · have h1 := hcount x
    have h2 : dead.count x = 0 := List.count_eq_zero.mpr fun hd => hdead x hd hs
    omega
  · have h1 := hcount x
    by_cases hd : x ∈ dead
    · refine .inr ?_
      rw [htree']
      exact List.mem_append_right _ hd
    · have h2 : dead.count x = 0 := List.count_eq_zero.mpr hd
      exact .inl (by omega)

/-- What it takes for a node to be ready for a write below it: this transaction owns it, it has the
contents of the old one, and either nothing changed or the pages fit. -/
structure Owned (lo h : Nat) (s : AllocCtx) (sub : PageTree Bool) (id : Nat) (s' : AllocCtx)
    (sub' : PageTree Bool) : Prop where
  ok : FmOk lo s' h sub'
  step : FmStep (fun _ => 0) s sub s' sub'
  ne_nil : sub' ≠ .nil
  root_eq : sub'.root = id
  owned : id ∈ s'.tree.sessionOwned
  get_eq : ∀ k, PageTree.get fmShape false h sub' k = PageTree.get fmShape false h sub k
  spot : SameSpot s s'
  fits : s'.store.Fits ∨ (sub' = sub ∧ s'.store = s.store)

/-- A failure that leaves the subtree as it was. -/
def Kept (lo h : Nat) (s : AllocCtx) (sub : PageTree Bool) (e : ChiselError)
    (s' : AllocCtx) : Prop :=
  FmOk lo s' h sub ∧ (∃ junk, FmStep junk s sub s' sub) ∧ SameSpot s s' ∧ Exhausted e s'.store

theorem wp_cowNode {lo h : Nat} {s : AllocCtx} {sub : PageTree Bool} (hok : FmOk lo s h sub)
    (hne : sub ≠ .nil) :
    wp (FreeMapTree.cowNode sub.root h) s
      (fun id s' => ∃ sub', Owned lo h s sub id s' sub')
      (fun e s' => Kept lo h s sub e s') := by
  obtain ⟨p, hv, htype, hnd⟩ := Rep.fm_page hok.rep hne
  have hpos := PageTree.count_root_pos (S := fmShape) hne
  have hlt := (hok.bounds hpos).2
  simp only [FreeMapTree.cowNode, wp_bind, wp_get]
  refine wp_ite (fun hs => ?_) fun hs => ?_
  · exact wp_ret ⟨sub, hok, .of_taking (.refl s) rfl, hne, rfl, hs, fun _ => rfl, ⟨rfl, rfl⟩,
      .inr ⟨rfl, rfl⟩⟩
  simp only [wp_bind, wp_onCache]
  refine wp_mono (wp_getPage_of_view hok.sound.wf hlt hv) ?_ ?_
  swap
  · rintro e c ⟨hwf, hst, hfull⟩
    exact ⟨hok.of_store hwf hst rfl rfl, ⟨_, FmOk.step_of_store hst rfl rfl rfl rfl⟩, ⟨rfl, rfl⟩,
      .of_store hst hfull⟩
  rintro q c ⟨hwf, hst, rfl⟩
  simp only [htype, Bool.not_true, Bool.false_eq_true, if_false, wp_bind]
  set s0 : AllocCtx := { s with cache := c } with hs0
  have hst0 : s0.store = s.store := hst
  have hok0 : FmOk lo s0 h sub := hok.of_store hwf hst0 rfl rfl
  have hstep0 : Taking (fun _ => False) (fun _ => 0) s s0 := .of_store hst0 rfl rfl rfl
  refine wp_mono (wp_structuralExtend hok0.sound hok0.reuse_lt) ?_ ?_
  swap
  · rintro e s1 ⟨hex, ⟨taken, ht⟩, hsound, htree⟩
    have ht' := hstep0.trans ht fun _ hf => hf.elim
    exact ⟨hok.of_taking ht' hsound htree, ⟨_, .of_taking ht' htree⟩,
      by rw [SameSpot, htree]; exact ⟨rfl, rfl⟩, hex⟩
  rintro id s1 ⟨ht, hsound, hfits, hfresh, htree⟩
  have hspare : s0.Spare id := ht.taken_spare (by simp)
  have hview1 : s1.store.view sub.root = some q := by
    rw [ht.frame _ (hok0.not_spare hpos) (fun hf => hf), hst0, hv]
  have hlt1 : sub.root < s1.store.next := by
    have := ht.next_le
    rw [hst0] at this
    exact Nat.lt_of_lt_of_le hlt this
  have hdst : ∀ q, s1.store.view id = some q → q.isData = false := by simp [hfresh.view]
  rw [wp_onCache]
  refine wp_mono (wp_copyPage hsound.wf hlt1 hfresh.lt hview1 hnd hdst) ?_ ?_
  swap
  · rintro e c2 ⟨-, -, hm | hm⟩
    · exact absurd hfits (hm.not_fits_of_view hview1).2
    · exact absurd hfits (hm.not_fits_of_hot hfresh.hot).2
  rintro - c2 ⟨hwf2, hst2⟩
  simp only [FreeMapTree.own, wp_modify, wp_pure]
  set s2 : AllocCtx := { s1 with
    cache := c2
    tree := s1.tree.adopt id [sub.root] } with hs2
  have hst2' : s2.store = s1.store.put id (some q) := hst2
  have ht' : Taking (fun _ => False) (one id) s s1 := by
    have := hstep0.trans ht fun _ hf => hf.elim
    simpa using this
  have hcount : ∀ x, (sub.reroot id).count fmShape x + [sub.root].count x =
      sub.count fmShape x + one id x := by
    intro x
    rw [count_singleton]
    exact PageTree.count_reroot hne
  have hrootid : (sub.reroot id).root = id := PageTree.root_reroot hne
  have hidpos : 0 < (sub.reroot id).count fmShape id := by
    have hne' : sub.reroot id ≠ .nil := PageTree.reroot_ne_nil hne
    have := PageTree.count_root_pos (S := fmShape) hne'
    rwa [hrootid] at this
  have hstep : FmStep (fun _ => 0) s sub s2 (sub.reroot id) :=
    .adopt ht' htree hst2' rfl rfl rfl rfl hcount (by simpa using hs) hidpos
  have hne_id : ∀ x, 0 < sub.count fmShape x → x ≠ id := by
    rintro x hx rfl
    exact hok0.not_spare hx hspare
  have hrep : PageTree.Rep fmShape (fmRead s2.store.view) h (sub.reroot id) := by
    refine hok.rep.reroot (hok0.spare_pos hspare) ?_ fun x hx => ?_
    · rw [hst2', fmRead, fmRead, Store.put_view_self, hv]
    · rw [hst2', fmRead, Store.put_view_ne _ _ (hne_id x hx),
        ht'.frame x (hok.not_spare hx) (fun hf => hf)]
      rfl
  have hsound2 : s2.Sound := ⟨hwf2, by rw [hst2']; exact hsound.next_le⟩
  refine ⟨sub.reroot id, hstep.fmOk hok hsound2 hrep, hstep, PageTree.reroot_ne_nil hne,
    hrootid, ?_, fun k => PageTree.get_reroot .., ?_, .inl ?_⟩
  · exact Finset.mem_insert_self _ _
  · change s1.tree.root = s.tree.root ∧ s1.tree.depth = s.tree.depth
    rw [htree]
    exact ⟨rfl, rfl⟩
  · change s2.store.Fits
    rw [hst2', Store.put_fits_iff _ _ _ hfresh.hot]
    exact hfits

/-! ### Going down -/

theorem rep_empty {h id : Nat} (hid : id ≠ 0) (hv : view id = some (FreeMapTree.initNode h)) :
    PageTree.Rep fmShape (fmRead view) h (PageTree.empty false h id) := by
  cases h with
  | zero => exact ⟨hid, fmRead_leaf.mpr hv⟩
  | succ h =>
    exact ⟨hid, ⟨fun _ => 0, fmRead_node.mpr hv, fun _ _ => rfl⟩, fun _ _ => PageTree.rep_nil⟩

theorem wp_newChild {lo h : Nat} {s : AllocCtx} (hok : FmOk lo s h .nil) :
    wp (do
        let idNew ← structuralExtend
        onCache (writeStamped idNew (FreeMapTree.initNode h))
        FreeMapTree.own idNew
        pure idNew) s
      (fun id s' => ∃ sub', Owned lo h s .nil id s' sub')
      (fun e s' => Kept lo h s .nil e s') := by
  simp only [wp_bind]
  refine wp_mono (wp_structuralExtend hok.sound hok.reuse_lt) ?_ ?_
  swap
  · rintro e s1 ⟨hex, ⟨taken, ht⟩, hsound, htree⟩
    exact ⟨hok.of_taking ht hsound htree, ⟨_, .of_taking ht htree⟩,
      by rw [SameSpot, htree]; exact ⟨rfl, rfl⟩, hex⟩
  rintro id s1 ⟨ht, hsound, hfits, hfresh, htree⟩
  rw [wp_onCache]
  refine wp_mono (wp_writeStamped hsound.wf hfresh.lt
    (fun q hq => absurd (hfresh.view.symm.trans hq) (by simp)) _) ?_ ?_
  swap
  · rintro e c2 ⟨-, -, hm⟩
    exact absurd hfits (hm.not_fits_of_hot hfresh.hot).2
  rintro - c2 ⟨hwf2, hst2⟩
  simp only [FreeMapTree.own, wp_modify, wp_pure]
  set s2 : AllocCtx := { s1 with
    cache := c2
    tree := s1.tree.adopt id [] } with hs2
  have hst2' : s2.store = s1.store.put id (some (FreeMapTree.initNode h)) := hst2
  have heq : ({ s1 with
      cache := c2
      tree := { s1.tree with sessionOwned := insert id s1.tree.sessionOwned } } :
        AllocCtx) = s2 := by
    simp [hs2, FreeMapTree.adopt]
  have hstep : FmStep (fun _ => 0) s .nil s2 (PageTree.empty false h id) :=
    .adopt ht htree hst2' rfl rfl rfl rfl (by simp) (by simp) (by simp)
  have hid : id ≠ 0 := hok.spare_pos (ht.taken_spare (by simp))
  have hrep : PageTree.Rep fmShape (fmRead s2.store.view) h (PageTree.empty false h id) :=
    rep_empty hid (by rw [hst2', Store.put_view_self])
  have hsound2 : s2.Sound := ⟨hwf2, by rw [hst2']; exact hsound.next_le⟩
  rw [heq]
  refine ⟨PageTree.empty false h id, hstep.fmOk hok hsound2 hrep, hstep,
    PageTree.empty_ne_nil _ _, by simp, Finset.mem_insert_self _ _, by simp, ?_, .inl ?_⟩
  · change s1.tree.root = s.tree.root ∧ s1.tree.depth = s.tree.depth
    rw [htree]
    exact ⟨rfl, rfl⟩
  · rw [hst2', Store.put_fits_iff _ _ _ hfresh.hot]
    exact hfits

/-- The node `id` after its pointer to child `i` was set to an owned child. -/
theorem Owned.link {lo h i : Nat} {s s1 s2 : AllocCtx} {id child : Nat} {kids : Nat → PageTree Bool}
    {sub1 : PageTree Bool} (hok : FmOk lo s (h + 1) (.node id kids))
    (hi : i < fmShape.fanout) (hown : id ∈ s.tree.sessionOwned)
    (hptrs : s.store.view id = some (.freeMapInterior ptrs))
    (ho : Owned lo h s (kids i) child s1 sub1) (hwf : s2.cache.WF)
    (hst : s2.store = s1.store.put id
      (some (.freeMapInterior (Function.update ptrs i child))))
    (hr : s2.structuralReuse = s1.structuralReuse) (hp : s2.pool = s1.pool)
    (hh : s2.hint = s1.hint) (ht : s2.tree = s1.tree) :
    FmOk lo s2 (h + 1) (.node id (Function.update kids i sub1)) ∧
      FmStep (fun _ => 0) s (.node id kids) s2 (.node id (Function.update kids i sub1)) := by
  have hstep : FmStep (fun _ => 0) s (.node id kids) s2 (.node id (Function.update kids i sub1)) :=
    (ho.step.lift _ hi).put (ho.step.session_ge hown) (by simp [PageTree.count_node]) hst
      hr hp hh ht
  have hsound : s2.Sound := ⟨hwf, by rw [hst]; exact ho.ok.sound.next_le⟩
  refine ⟨hstep.fmOk hok hsound ?_, hstep⟩
  obtain ⟨hid, ⟨ptrs', hrd, hptr⟩, hkids⟩ := hok.rep
  obtain rfl : ptrs' = ptrs := by
    have := fmRead_node.mp hrd
    rw [hptrs] at this
    simpa using this.symm
  have hone := hok.once id
  have hle := between_le lo s.store.next id
  -- the node's own page holds none of the subtrees
  have hne : ∀ x, 0 < PageTree.count fmShape x sub1 → x ≠ id := by
    rintro x hx rfl
    have h1 := (ho.step.lift x hi).once hok
    have h2 := h1.2 x
    have h3 := between_le lo s1.store.next x
    have h4 := Finset.single_le_sum (f := fun l => (Function.update kids i sub1 l).count fmShape x)
      (fun _ _ => Nat.zero_le _) (Finset.mem_range.mpr hi)
    simp only [Function.update_self] at h4
    rw [PageTree.count_node, one_self] at h2
    omega
  have hview : ∀ x, x ≠ id → s2.store.view x = s1.store.view x := fun x hx => by
    rw [hst, Store.put_view_ne _ _ hx]
  have hsub : PageTree.Rep fmShape (fmRead s2.store.view) h sub1 :=
    ho.ok.rep.frame fun x hx => by rw [fmRead, hview x (hne x hx)]; rfl
  refine ⟨hid, ⟨Function.update ptrs' i child, ?_, fun j hj => ?_⟩, fun j hj => ?_⟩
  · rw [hst]
    exact fmRead_node.mpr (Store.put_view_self ..)
  · by_cases hji : j = i
    · subst hji
      simp [ho.root_eq]
    · simp [hji, hptr j hj]
  · by_cases hji : j = i
    · subst hji
      simpa using hsub
    · rw [Function.update_of_ne hji]
      refine (hkids j hj).frame fun x hx => ?_
      have hxid : x ≠ id := by
        rintro rfl
        have h4 := Finset.single_le_sum (f := fun l => (kids l).count fmShape x)
          (fun _ _ => Nat.zero_le _) (Finset.mem_range.mpr hj)
        rw [PageTree.count_node, one_self] at hone
        omega
      rw [fmRead, hview x hxid, hok.view_other hi ho.step hj hji hx]
      rfl

theorem capacity_eq_span {h : Nat} (hh : h < FreeMapTree.maxDepth) :
    FreeMapTree.capacity h = fmShape.span h := by
  have hlt : h < 5 := hh
  have : h = 0 ∨ h = 1 ∨ h = 2 ∨ h = 3 ∨ h = 4 := by omega
  rcases this with rfl | rfl | rfl | rfl | rfl <;> rfl

/-- The outcome of a descent that failed: the bits are as they were. -/
def DescentFailed (lo h : Nat) (s : AllocCtx) (sub : PageTree Bool) (e : ChiselError)
    (s' : AllocCtx) : Prop :=
  Exhausted e s'.store ∧
  ∃ junk sub', FmOk lo s' h sub' ∧ FmStep junk s sub s' sub' ∧ sub'.root = sub.root ∧
    SameSpot s s' ∧
    ∀ k, PageTree.get fmShape false h sub' k = PageTree.get fmShape false h sub k

/-- The outcome of a descent that set bit `k` to `v`. -/
def DescentDone (lo h : Nat) (s : AllocCtx) (sub : PageTree Bool) (k : Nat) (v : Bool)
    (s' : AllocCtx) : Prop :=
  ∃ sub', FmOk lo s' h sub' ∧ FmStep (fun _ => 0) s sub s' sub' ∧ sub'.root = sub.root ∧
    SameSpot s s' ∧ PageTree.Sets fmShape false h sub sub' k v

theorem Kept.failed {lo h : Nat} {s s' : AllocCtx} {sub : PageTree Bool} {e : ChiselError}
    (hk : Kept lo h s sub e s') : DescentFailed lo h s sub e s' :=
  let ⟨hok, ⟨junk, hstep⟩, hroot, hex⟩ := hk
  ⟨hex, junk, sub, hok, hstep, rfl, hroot, fun _ => rfl⟩

theorem kept_of_store {lo h : Nat} {s s' : AllocCtx} {sub : PageTree Bool} {e : ChiselError}
    (hok : FmOk lo s h sub) (hex : e.isCapacity = true ∧ ¬ s.store.Fits) (hwf : s'.cache.WF)
    (hst : s'.store = s.store) (hr : s'.structuralReuse = s.structuralReuse)
    (hp : s'.pool = s.pool) (hh : s'.hint = s.hint) (ht : s'.tree = s.tree) :
    Kept lo h s sub e s' :=
  ⟨hok.of_store hwf hst hr ht, ⟨_, FmOk.step_of_store hst hr hp hh ht⟩,
    by rw [SameSpot, ht]; exact ⟨rfl, rfl⟩, .inl (hst ▸ hex)⟩

theorem wp_cowDescendFrom_leaf {lo : Nat} {s : AllocCtx} {sub : PageTree Bool}
    (hop : ∀ bits k, leafOp bits k = Function.update bits k v) (hok : FmOk lo s 0 sub)
    (hne : sub ≠ .nil) (hown : sub.root ∈ s.tree.sessionOwned) (hk : k < fmShape.span 0) :
    wp (FreeMapTree.cowDescendFrom leafOp 0 sub.root k) s
      (fun _ s' => DescentDone lo 0 s sub k v s')
      (fun e s' => DescentFailed lo 0 s sub e s') := by
  obtain ⟨bits, hsub, hrd⟩ := hok.rep.leaf_of_zero hne
  have hview := fmRead_leaf.mp hrd
  have hpos := PageTree.count_root_pos (S := fmShape) hne
  have hlt := (hok.bounds hpos).2
  set id := sub.root with hid
  simp only [FreeMapTree.cowDescendFrom, wp_bind, wp_onCache]
  -- the page becomes dirty without a change
  have hsame : ∀ e : CacheEntry, e.contents = s.cache.store.view id →
      (e.needsStamp = true → e.buf.page.isData = true) →
      (e.needsStamp = true → e.buf.page.isData = true) ∧
        CacheEntry.contents { e with buf := e.buf, dirty := true } = some (.freeMap bits) := by
    intro e he hd
    refine ⟨hd, ?_⟩
    rw [← hview]
    refine Eq.trans ?_ he
    simp only [CacheEntry.contents, CacheEntry.stampDeferred]
    split <;> rfl
  refine wp_mono (wp_getMut hok.sound.wf hlt hsame) ?_ ?_
  swap
  · rintro e c ⟨hwf, hst, hm⟩
    have hkept : Kept lo _ s sub e { s with cache := c } :=
      kept_of_store hok (hm.not_fits_of_view hview) hwf hst rfl rfl rfl rfl
    exact hkept.failed
  rintro - c1 ⟨hwf1, hst1⟩
  set s1 : AllocCtx := { s with cache := c1 } with hs1
  have hst1' : s1.store = s.store.put id (s.store.view id) := hview ▸ hst1
  have hview1 : s1.store.view = s.store.view := by
    rw [hst1']
    exact Function.update_eq_self ..
  have hstep1 : FmStep (fun _ => 0) s sub s1 sub :=
    (FmStep.of_taking (.refl s) rfl).put hown hpos hst1' rfl rfl rfl rfl
  have hok1 : FmOk lo s1 0 sub :=
    hstep1.fmOk hok ⟨hwf1, by rw [hst1']; exact hok.sound.next_le⟩ (by rw [hview1]; exact hok.rep)
  have hfail : ∀ (e : ChiselError) (c : PageCache), e.isCapacity = true ∧ ¬ s1.store.Fits → c.WF →
      c.store = s1.store → DescentFailed lo 0 s sub e { s1 with cache := c } := by
    intro e c hex hwf hst
    have hst' : ({ s1 with cache := c } : AllocCtx).store = s1.store := hst
    refine ⟨.inl (hst' ▸ hex), _, sub, hok1.of_store hwf hst' rfl rfl,
      hstep1.trans (FmOk.step_of_store hst' rfl rfl rfl rfl), rfl, ⟨rfl, rfl⟩, fun _ => rfl⟩
  have hlt1 : id < s1.store.next := by
    rw [hst1']
    exact hlt
  refine wp_mono (wp_fm_getLeaf hwf1 hlt1 (show s1.store.view id = _ by rw [hview1, hview])) ?_
    fun e c h' => hfail e c h'.2.2 h'.1 h'.2.1
  rintro b c2 ⟨hwf2, hst2, rfl⟩
  have hlt2 : id < c2.store.next := by rw [hst2]; exact hlt1
  have hview2 : c2.store.view id = some (.freeMap b) := by
    rw [hst2]
    change s1.store.view id = _
    rw [hview1, hview]
  refine wp_mono (wp_writeStamped hwf2 hlt2 (fun q hq => ?_) _) ?_ ?_
  · rw [hview2] at hq
    cases hq
    rfl
  · rintro - c3 ⟨hwf3, hst3⟩
    have hk' : k % FreeMap.leafCapacity = k := Nat.mod_eq_of_lt hk
    rw [hop, hk', hst2] at hst3
    set s3 : AllocCtx := { s with cache := c3 } with hs3
    have hst3' : s3.store = s1.store.put id (some (.freeMap (Function.update b k v))) := hst3
    have hstep3 : FmStep (fun _ => 0) s sub s3 (.leaf id (Function.update b k v)) := by
      have h1 : FmStep (fun _ => 0) s sub s3 sub := hstep1.put hown hpos hst3' rfl rfl rfl rfl
      rw [hsub] at h1 ⊢
      exact { h1 with }
    refine ⟨_, hstep3.fmOk hok ⟨hwf3, ?_⟩ ?_, hstep3, rfl, ⟨rfl, rfl⟩, ?_⟩
    · rw [hst3']
      exact hok1.sound.next_le
    · refine ⟨hok.rep.root_ne_zero hne, fmRead_leaf.mpr ?_⟩
      rw [hst3', Store.put_view_self]
    · rw [hsub]
      exact .leaf v
  · rintro e c3 ⟨hwf3, hst3, hm⟩
    have hfull := hm.not_fits_of_view hview2
    rw [hst2] at hfull
    exact hfail e c3 hfull hwf3 (hst3.trans hst2)

theorem wp_ownChild {lo h : Nat} {s : AllocCtx} {kid : PageTree Bool} (hok : FmOk lo s h kid) :
    wp (FreeMapTree.ownChild kid.root h) s
      (fun id s' => ∃ sub', Owned lo h s kid id s' sub')
      (fun e s' => Kept lo h s kid e s') := by
  unfold FreeMapTree.ownChild
  by_cases hz : kid.root = 0
  · rw [if_pos hz]
    obtain rfl := hok.rep.root_eq_zero_iff.mp hz
    exact wp_newChild hok
  · rw [if_neg hz]
    exact wp_cowNode hok fun hnil => hz (hnil ▸ rfl)

theorem wp_cowDescendFrom {lo h : Nat} {s : AllocCtx} {sub : PageTree Bool}
    (hop : ∀ bits k, leafOp bits k = Function.update bits k v) (hh : h ≤ FreeMapTree.maxDepth)
    (hok : FmOk lo s h sub) (hne : sub ≠ .nil) (hown : sub.root ∈ s.tree.sessionOwned)
    (hk : k < fmShape.span h) :
    wp (FreeMapTree.cowDescendFrom leafOp h sub.root k) s
      (fun _ s' => DescentDone lo h s sub k v s')
      (fun e s' => DescentFailed lo h s sub e s') := by
  induction h generalizing s sub k with
  | zero => exact wp_cowDescendFrom_leaf hop hok hne hown hk
  | succ h ih =>
    obtain ⟨id, kids, ptrs, rfl, hview, hptrs⟩ : ∃ id kids ptrs, sub = .node id kids ∧
        s.store.view id = some (.freeMapInterior ptrs) ∧
        ∀ i < fmShape.fanout, ptrs i = (kids i).root := by
      obtain ⟨kids, ptrs, hsub, hrd, hptrs, -⟩ := hok.rep.node_of_succ hne
      exact ⟨sub.root, kids, ptrs, hsub, fmRead_node.mp hrd, hptrs⟩
    have hlt : id < s.store.next := (hok.bounds (PageTree.count_root_pos hne)).2
    change id ∈ s.tree.sessionOwned at hown
    change wp (FreeMapTree.cowDescendFrom leafOp (h + 1) id k) s _ _
    set i := k / fmShape.span h with hi
    have hif : i < fmShape.fanout := Shape.div_span_lt hk
    have hcap : FreeMapTree.capacity h = fmShape.span h := capacity_eq_span (by omega)
    simp only [FreeMapTree.cowDescendFrom, hcap, ← hi]
    refine wp_ite (fun hge => absurd hif (Nat.not_lt.mpr hge)) fun _ => ?_
    rw [wp_bind, wp_onCache]
    refine wp_mono (wp_fm_getInterior hok.sound.wf hlt hview) ?_ ?_
    swap
    · rintro e c ⟨hwf, hst, hfull⟩
      have hkept : Kept lo _ s _ e { s with cache := c } :=
        kept_of_store hok hfull hwf hst rfl rfl rfl rfl
      exact hkept.failed
    rintro ch c ⟨hwf, hst, rfl⟩
    set s0 : AllocCtx := { s with cache := c } with hs0
    have hst0 : s0.store = s.store := hst
    have hok0 : FmOk lo s0 (h + 1) (.node id kids) := hok.of_store hwf hst0 rfl rfl
    have hstep0 : FmStep (fun _ => 0) s (.node id kids) s0 (.node id kids) :=
      FmOk.step_of_store hst0 rfl rfl rfl rfl
    have hview0 : s0.store.view id = some (.freeMapInterior ch) := by rw [hst0, hview]
    rw [wp_bind, hptrs i hif]
    refine wp_mono (wp_ownChild (hok0.kid hif)) ?_ ?_
    swap
    · -- nothing was linked
      rintro e s1 ⟨hok1, ⟨junk, hstep1⟩, hroot1, hex⟩
      refine ⟨hex, _, .node id kids, ?_, hstep0.trans (?_ : FmStep junk s0 _ s1 _), rfl, hroot1,
        fun _ => rfl⟩
      · simpa using hok0.lift hif hok1 hstep1 rfl
      · simpa using hstep1.lift id hif
    rintro child s1 ⟨sub1, ho⟩
    have hview1 : s1.store.view id = some (.freeMapInterior ch) := by
      rw [hok0.view_node hif ho.step, hview0]
    have hlt1 : id < s1.store.next := by
      obtain ⟨taken, dead, ht, -⟩ := ho.step.moves
      have := ht.next_le
      rw [hst0] at this
      exact Nat.lt_of_lt_of_le hlt this
    rw [wp_bind, wp_onCache]
    refine wp_mono (wp_modifyPage ho.ok.sound.wf hlt1 hview1 rfl (Page.setChild i child)) ?_ ?_
    swap
    · -- a pointer can fail to be written only if nothing changed
      rintro e c2 ⟨hwf2, hst2, hm⟩
      have hfull := hm.not_fits_of_view hview1
      obtain ⟨rfl, hst1⟩ := ho.fits.resolve_left hfull.2
      have hst2' : ({ s1 with cache := c2 } : AllocCtx).store = s1.store := hst2
      have hsame := (ho.step.lift id hif).trans
        (FmOk.step_of_store hst2' rfl rfl rfl rfl)
      have hlift := hok0.lift hif ho.ok ho.step rfl
      simp only [Function.update_eq_self] at hlift hsame
      exact ⟨.inl (hst2' ▸ hfull), _, .node id kids, hlift.of_store hwf2 hst2' rfl rfl,
        hstep0.trans hsame, rfl, ho.spot, fun _ => rfl⟩
    rintro - c2 ⟨hwf2, hst2⟩
    set s2 : AllocCtx := { s1 with cache := c2 } with hs2
    have hst2' : s2.store = s1.store.put id
        (some (.freeMapInterior (Function.update ch i child))) := hst2
    obtain ⟨hok2, hstep2⟩ := ho.link hok0 hif hown hview0 hwf2 hst2' rfl rfl rfl rfl
    have hkid := hok2.kid hif
    rw [Function.update_self] at hkid
    have hrest := ih (by omega) hkid ho.ne_nil (by rw [ho.root_eq]; exact ho.owned)
      (Nat.mod_lt k (fmShape.span_pos h))
    rw [ho.root_eq] at hrest
    have hself : Function.update kids i sub1 i = sub1 := Function.update_self ..
    refine wp_mono hrest ?_ ?_
    · rintro - s3 ⟨sub3, hok3, hstep3, hroot3, htroot3, hsets⟩
      have hlift := hok2.lift hif hok3 (by rw [hself]; exact hstep3)
        (by rw [hself, hroot3, ho.root_eq])
      have hstep := FmStep.lift id hif (hself.symm ▸ hstep3)
      simp only [Function.update_idem] at hlift hstep
      refine ⟨.node id (Function.update kids i sub3), hlift, ?_, rfl,
        ho.spot.trans htroot3, ?_⟩
      · simpa using hstep0.trans (hstep2.trans hstep)
      · refine PageTree.Sets.node fun k' hk' => ?_
        rw [hsets k' hk', ho.get_eq]
    · rintro e s3 ⟨hex, junk, sub3, hok3, hstep3, hroot3, htroot3, hget⟩
      have hlift := hok2.lift hif hok3 (by rw [hself]; exact hstep3)
        (by rw [hself, hroot3, ho.root_eq])
      have hstep := FmStep.lift id hif (hself.symm ▸ hstep3)
      simp only [Function.update_idem] at hlift hstep
      refine ⟨hex, _, .node id (Function.update kids i sub3), hlift,
        hstep0.trans (hstep2.trans hstep), rfl, ho.spot.trans htroot3, fun k' => ?_⟩
      simp only [PageTree.get]
      by_cases hk' : k' / fmShape.span h = i
      · rw [hk', Function.update_self, hget, ho.get_eq]
      · rw [Function.update_of_ne hk']

/-! ### The whole tree -/

structure Rooted (lo : Nat) (s : AllocCtx) (t : PageTree Bool) : Prop where
  ok : FmOk lo s s.tree.depth t
  depth_le : s.tree.depth ≤ FreeMapTree.maxDepth
  root_nil : t = .nil → s.tree.root = pageIdNone
  root_eq : t ≠ .nil → s.tree.root = t.root

def fmBits (s : AllocCtx) (t : PageTree Bool) (x : Nat) : Bool :=
  PageTree.content fmShape false s.tree.depth t x

namespace Rooted

variable {lo : Nat} {s : AllocCtx} {t : PageTree Bool}

theorem root_ne_none (hr : Rooted lo s t) (hne : t ≠ .nil) : s.tree.root ≠ pageIdNone := by
  rw [hr.root_eq hne]
  have h1 := (hr.ok.bounds (PageTree.count_root_pos hne)).2
  have h2 := hr.ok.sound.next_le
  unfold pageIdNone
  omega

theorem nil_iff (hr : Rooted lo s t) : t = .nil ↔ s.tree.root = pageIdNone :=
  ⟨hr.root_nil, fun he => by_contra fun hne => hr.root_ne_none hne he⟩

end Rooted

theorem capacity_maxDepth : FreeMapTree.capacity FreeMapTree.maxDepth = u64Max := rfl

theorem u64Max_lt_span : u64Max < fmShape.span FreeMapTree.maxDepth := by decide

theorem not_refused (hd : d ≤ FreeMapTree.maxDepth) (hk : k < fmShape.span d) :
    ¬ (FreeMapTree.capacity d ≠ u64Max ∧ FreeMapTree.capacity d ≤ k) := by
  rintro ⟨h1, h2⟩
  rcases Nat.lt_or_ge d FreeMapTree.maxDepth with hlt | hge
  · rw [capacity_eq_span hlt] at h2
    omega
  · obtain rfl : d = FreeMapTree.maxDepth := Nat.le_antisymm hd hge
    exact h1 capacity_maxDepth

theorem capacity_lt (hd : d < FreeMapTree.maxDepth) :
    FreeMapTree.capacity d < u64Max := by
  have hall : ∀ d < FreeMapTree.maxDepth, FreeMapTree.capacity d < u64Max := by decide
  exact hall d hd

theorem refused_iff (hd : d ≤ FreeMapTree.maxDepth) (hk : k ≤ u64Max) :
    (FreeMapTree.capacity d ≠ u64Max ∧ FreeMapTree.capacity d ≤ k) ↔ fmShape.span d ≤ k := by
  refine ⟨fun h => Nat.le_of_not_lt fun hlt => not_refused hd hlt h, fun hge => ?_⟩
  rcases Nat.lt_or_ge d FreeMapTree.maxDepth with hlt | hmax
  · have hcap := capacity_lt hlt
    exact ⟨hcap.ne, by rwa [capacity_eq_span hlt]⟩
  · obtain rfl : d = FreeMapTree.maxDepth := Nat.le_antisymm hd hmax
    have := u64Max_lt_span
    omega

theorem fmBits_congr {s s' : AllocCtx} {t t' : PageTree Bool} (hd : s'.tree.depth = s.tree.depth)
    (hget : ∀ k, PageTree.get fmShape false s.tree.depth t' k =
      PageTree.get fmShape false s.tree.depth t k) : fmBits s' t' = fmBits s t := by
  funext x
  simp only [fmBits, PageTree.content, hd, hget]

theorem wp_cowDescend {lo : Nat} {s : AllocCtx} {t : PageTree Bool}
    (hop : ∀ bits k, leafOp bits k = Function.update bits k v) (hr : Rooted lo s t) (hne : t ≠ .nil)
    (hk : k < fmShape.span s.tree.depth) :
    wp (FreeMapTree.cowDescend leafOp k) s
      (fun _ s' => ∃ t', Rooted lo s' t' ∧ t' ≠ .nil ∧ FmStep (fun _ => 0) s t s' t' ∧
        fmBits s' t' = Function.update (fmBits s t) k v)
      (fun e s' => Exhausted e s'.store ∧ ∃ junk t', Rooted lo s' t' ∧ t' ≠ .nil ∧
        FmStep junk s t s' t' ∧ fmBits s' t' = fmBits s t) := by
  simp only [FreeMapTree.cowDescend, FreeMapTree.checkDepth_of_le hr.depth_le, onCache, wp_bind,
    wp_get, wp_zoom, wp_pure]
  refine wp_ite (fun hbad => absurd hbad (not_refused hr.depth_le hk)) fun _ => ?_
  rw [wp_bind, hr.root_eq hne]
  refine wp_mono (wp_cowNode hr.ok hne) ?_ ?_
  swap
  · rintro e s' ⟨hok, ⟨junk, hstep⟩, ⟨hroot, hd⟩, hex⟩
    exact ⟨hex, junk, t, ⟨hd ▸ hok, hd ▸ hr.depth_le, fun hn => absurd hn hne,
      fun _ => hroot.trans (hr.root_eq hne)⟩, hne, hstep, fmBits_congr hd fun _ => rfl⟩
  rintro id s1 ⟨sub1, ho⟩
  simp only [wp_bind, wp_modify]
  set s2 : AllocCtx := { s1 with tree.root := id } with hs2
  have hst2 : s2.store = s1.store := rfl
  have hok2 : FmOk lo s2 s.tree.depth sub1 := { ho.ok with
    sound := { ho.ok.sound with } }
  have hstep2 : FmStep (fun _ => 0) s t s2 sub1 := by
    obtain ⟨taken, dead, ht, hc, hp⟩ := ho.step.moves
    exact { ho.step with moves := ⟨taken, dead, { ht with }, hc, hp⟩ }
  have hroot2 : sub1.root = id := ho.root_eq
  have hrest := wp_cowDescendFrom hop hr.depth_le hok2 ho.ne_nil (by rw [hroot2]; exact ho.owned) hk
  rw [hroot2] at hrest
  have hne' : ∀ {sub3 : PageTree Bool}, sub3.root = sub1.root → FmOk lo s2 s.tree.depth sub1 →
      sub3 ≠ .nil := by
    rintro sub3 heq hok rfl
    exact hok.rep.root_ne_zero ho.ne_nil heq.symm
  refine wp_mono hrest ?_ ?_
  · rintro - s3 ⟨sub3, hok3, hstep3, hroot3, ⟨htroot3, hd3⟩, hsets⟩
    have hd : s3.tree.depth = s.tree.depth := hd3.trans ho.spot.2
    have hn := hne' hroot3 hok2
    refine ⟨sub3, ⟨hd ▸ hok3, hd ▸ hr.depth_le, fun hnil => absurd hnil hn, fun _ => ?_⟩, hn,
      by simpa using hstep2.trans hstep3, ?_⟩
    · rw [htroot3, hroot3, hroot2]
    · have hsets' : PageTree.Sets fmShape false s.tree.depth t sub3 k v := fun k' hk' => by
        rw [hsets k' hk', ho.get_eq]
      funext x
      rw [fmBits, hd, hsets'.content hk]
      rfl
  · rintro e s3 ⟨hex, junk, sub3, hok3, hstep3, hroot3, ⟨htroot3, hd3⟩, hget⟩
    have hd : s3.tree.depth = s.tree.depth := hd3.trans ho.spot.2
    have hn := hne' hroot3 hok2
    refine ⟨hex, _, sub3, ⟨hd ▸ hok3, hd ▸ hr.depth_le, fun hnil => absurd hnil hn, fun _ => ?_⟩,
      hn, hstep2.trans hstep3, fmBits_congr hd fun k' => ?_⟩
    · rw [htroot3, hroot3, hroot2]
    · rw [hget, ho.get_eq]

end Chisel
