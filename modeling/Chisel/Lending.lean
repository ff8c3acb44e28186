import Chisel.AllocSpec
import Chisel.Radix

/-! What a copy-on-write operation asks of the allocator that it is given, and what it does with it:
it takes pages, reads any page, and writes to the pages that it took. -/

namespace Chisel

open StateError PageCache RadixTree Ledger

variable {e : ChiselError} {p : Page}

/-! ### Reading and writing inside an allocation -/

/-- Only the cache changed, and it holds the same. -/
structure Peeked (s s' : AllocCtx) : Prop where
  wf : s'.cache.WF
  store : s'.store = s.store
  tree : s'.tree = s.tree
  hint : s'.hint = s.hint
  reuse : s'.structuralReuse = s.structuralReuse
  pool : s'.pool = s.pool

/-- An access failed because memory was full, or a page id had become too large. -/
structure Blocked (s : AllocCtx) (e : ChiselError) (s' : AllocCtx) : Prop where
  peeked : Peeked s s'
  exhausted : Exhausted e s.store

/-- One page was written. -/
structure Wrote (id : Nat) (p : Page) (s s' : AllocCtx) : Prop where
  wf : s'.cache.WF
  store : s'.store = s.store.put id (some p)
  plain : p.isFreeMap = false
  tree : s'.tree = s.tree
  hint : s'.hint = s.hint
  reuse : s'.structuralReuse = s.structuralReuse
  pool : s'.pool = s.pool

section Steps

variable {α : Type} {s s' s'' : AllocCtx} {c : PageCache} {id : Nat}

theorem Peeked.of_cache (hwf : c.WF) (hst : c.store = s.cache.store) :
    Peeked s { s with cache := c } := ⟨hwf, hst, rfl, rfl, rfl, rfl⟩

theorem Peeked.trans (h : Peeked s s') (h' : Peeked s' s'') : Peeked s s'' :=
  ⟨h'.wf, h'.store.trans h.store, h'.tree.trans h.tree, h'.hint.trans h.hint,
    h'.reuse.trans h.reuse, h'.pool.trans h.pool⟩

theorem Blocked.of_peeked (hb : Blocked s' e s'') (hp : Peeked s s') :
    Blocked s e s'' :=
  ⟨hp.trans hb.peeked, hp.store ▸ hb.exhausted⟩

theorem wp_peek {x : CacheM α} {P : α → Prop}
    (h : wp x s.cache (fun a c' => Reads s.cache c' ∧ P a) (fun e c' => Crowded s.cache e c')) :
    wp (onCache x) s (fun a s' => Peeked s s' ∧ P a) (Blocked s) := by
  rw [wp_onCache]
  refine wp_mono h ?_ ?_
  · intro a c' ⟨hr, hP⟩
    exact ⟨.of_cache hr.1 hr.2, hP⟩
  · intro e c' ⟨hwf, hst, hfull⟩
    exact ⟨.of_cache hwf hst, .inl hfull⟩

theorem wp_write (hwf : s.cache.WF) (hlt : id < s.store.next)
    (hin : id ∈ s.store.hot ∨ ∃ q, s.store.view id = some q)
    (hnd : ∀ q, s.store.view id = some q → q.isData = false) (p : Page)
    (hp : p.isFreeMap = false) :
    wp (onCache (writeStamped id p)) s
      (fun _ s' => Wrote id p s s') (Blocked s) := by
  rw [wp_onCache]
  refine wp_mono (wp_writeStamped hwf hlt hnd p) ?_ ?_
  · intro _ c ⟨hwf, hst⟩
    exact ⟨hwf, hst, hp, rfl, rfl, rfl, rfl⟩
  · intro e c ⟨hwf, hst, hm⟩
    refine ⟨.of_cache hwf hst, .inl ?_⟩
    rcases hin with hh | ⟨q, hq⟩
    · exact hm.not_fits_of_hot hh
    · exact hm.not_fits_of_view hq

theorem wp_rewrite (hwf : s.cache.WF) (hlt : id < s.store.next) {q : Page}
    (hq : s.store.view id = some q) (hnd : q.isData = false) (f : Page → Page)
    (hp : (f q).isFreeMap = false) :
    wp (onCache (getMut id fun b => ⟨f b.page, true⟩)) s
      (fun _ s' => Wrote id (f q) s s') (Blocked s) := by
  rw [wp_onCache]
  refine wp_mono (wp_modifyPage hwf hlt hq hnd f) ?_ ?_
  · intro _ c ⟨hwf, hst⟩
    exact ⟨hwf, hst, hp, rfl, rfl, rfl, rfl⟩
  · intro e c ⟨hwf, hst, hm⟩
    exact ⟨.of_cache hwf hst, .inl (hm.not_fits_of_view hq)⟩

theorem wp_copy (hwf : s.cache.WF) (hf : Fresh s id) {src : Nat} {q : Page}
    (hsrc : src < s.store.next) (hq : s.store.view src = some q) (hnd : q.isData = false)
    (hp : q.isFreeMap = false) :
    wp (onCache (copyPage src id)) s
      (fun _ s' => Wrote id q s s') (Blocked s) := by
  have hblank : ∀ p, s.store.view id = some p → p.isData = false := fun p hv =>
    absurd (hf.view.symm.trans hv) (by simp)
  rw [wp_onCache]
  refine wp_mono (wp_copyPage hwf hsrc hf.lt hq hnd hblank) ?_ ?_
  · intro _ c ⟨hwf, hst⟩
    exact ⟨hwf, hst, hp, rfl, rfl, rfl, rfl⟩
  · intro e c ⟨hwf, hst, hm⟩
    exact ⟨.of_cache hwf hst, .inl (hm.elim (·.not_fits_of_view hq) (·.not_fits_of_hot hf.hot))⟩

end Steps

/-! ### Allocators -/

/-- The pages that are not the allocator's own kept their contents, and none became its own. -/
structure Steady {G : Type} (Inv : AllocCtx → G → Prop) (Owns : AllocCtx → G → Nat → Prop)
    (s : AllocCtx) (g : G) (s' : AllocCtx) (g' : G) : Prop where
  inv : Inv s' g'
  owns_le : ∀ x, Owns s' g' x → Owns s g x
  view : ∀ x, ¬ Owns s g x → s'.store.view x = s.store.view x
  next_le : s.store.next ≤ s'.store.next

theorem Steady.trans {G : Type} {Inv : AllocCtx → G → Prop} {Owns : AllocCtx → G → Nat → Prop}
    {s s' s'' : AllocCtx} {g g' g'' : G} (h : Steady Inv Owns s g s' g')
    (h' : Steady Inv Owns s' g' s'' g'') : Steady Inv Owns s g s'' g'' where
  inv := h'.inv
  owns_le x hx := h.owns_le x (h'.owns_le x hx)
  view x hx := (h'.view x fun ho => hx (h.owns_le x ho)).trans (h.view x hx)
  next_le := h.next_le.trans h'.next_le

/-- An allocator as a tree sees it. `Owns` are the pages that it may hand out and those that it
keeps its books in; a page that it gives is no longer one of them, and it does not care what is
written to the others. `G` is what a proof keeps track of beside the state. -/
structure Allocator (G : Type) where
  alloc : AllocM Nat
  Inv : AllocCtx → G → Prop
  Owns : AllocCtx → G → Nat → Prop
  Gives : AllocCtx → G → Nat → AllocCtx → G → Prop
  Fails : AllocCtx → G → ChiselError → AllocCtx → Prop
  sound : ∀ {s g}, Inv s g → s.Sound
  beyond : ∀ {s : AllocCtx} {g x}, s.store.next ≤ x → Owns s g x
  zero : ∀ {s g}, Inv s g → Owns s g 0
  peek : ∀ {s g s'}, Inv s g → Peeked s s' → Inv s' g
  owns_peek : ∀ {s g s' x}, Peeked s s' → (Owns s' g x ↔ Owns s g x)
  write : ∀ {s g s' id p}, Inv s g → ¬ Owns s g id → Wrote id p s s' → Inv s' g
  owns_write : ∀ {s g s' id p x}, Wrote id p s s' → (Owns s' g x ↔ Owns s g x)
  spec : ∀ {s g}, Inv s g → wp alloc s (fun id s' => ∃ g', Gives s g id s' g') (Fails s g)
  gives : ∀ {s g id s' g'}, Gives s g id s' g' →
    Steady Inv Owns s g s' g' ∧ Owns s g id ∧ ¬ Owns s' g' id ∧ Fresh s' id
  fails : ∀ {s g e s'}, Fails s g e s' → ∃ g', Steady Inv Owns s g s' g'

namespace Allocator

variable {G : Type} (A : Allocator G)

/-- What an operation did so far: it looked at pages, it got the pages `ids` from the allocator, in
this order, and it wrote to these. -/
inductive Issued : AllocCtx → G → List Nat → AllocCtx → G → Prop
  | refl {s : AllocCtx} {g : G} : A.Inv s g → Issued s g [] s g
  | peek {s s' s'' : AllocCtx} {g g' : G} {ids : List Nat} :
    Issued s g ids s' g' → Peeked s' s'' → Issued s g ids s'' g'
  | write {s s' s'' : AllocCtx} {g g' : G} {ids : List Nat} {id : Nat} {p : Page} :
    Issued s g ids s' g' → id ∈ ids → Wrote id p s' s'' → Issued s g ids s'' g'
  | draw {s s' s'' : AllocCtx} {g g' g'' : G} {ids : List Nat} {id : Nat} :
    Issued s g ids s' g' → A.alloc s' = .ok id s'' → A.Gives s' g' id s'' g'' →
      Issued s g (ids ++ [id]) s'' g''

/-- An operation gave up: the allocator failed, or a page access did. -/
def Refuses (s : AllocCtx) (g : G) (e : ChiselError) (s' : AllocCtx) : Prop :=
  ∃ ids s1 g1, A.Issued s g ids s1 g1 ∧ (A.Fails s1 g1 e s' ∨ Blocked s1 e s')

variable {A} {s s' s'' : AllocCtx} {g g' g'' : G} {ids ids' : List Nat} {id x : Nat}

/-- A page that the allocator gave, and that nothing was written to yet. -/
structure New (A : Allocator G) (s : AllocCtx) (g : G) (id : Nat) (s' : AllocCtx) (g' : G) :
    Prop where
  issued : A.Issued s g [id] s' g'
  fresh : Fresh s' id

namespace Issued

/-- The pages that were issued left the allocator; the rest is as the allocator keeps it. -/
theorem frame (h : A.Issued s g ids s' g') : Steady A.Inv A.Owns s g s' g' ∧
    ∀ id ∈ ids, A.Owns s g id ∧ ¬ A.Owns s' g' id := by
  induction h with
  | refl hinv => exact ⟨⟨hinv, fun _ hx => hx, fun _ _ => rfl, le_rfl⟩, nofun⟩
  | peek _ hp ih =>
    obtain ⟨hs, hids⟩ := ih
    refine ⟨⟨A.peek hs.inv hp, fun x hx => hs.owns_le x ((A.owns_peek hp).mp hx),
      fun x hx => ?_, ?_⟩, fun id hid => ⟨(hids id hid).1,
        fun ho => (hids id hid).2 ((A.owns_peek hp).mp ho)⟩⟩
    · rw [hp.store]
      exact hs.view x hx
    · rw [hp.store]
      exact hs.next_le
  | write _ hm hw ih =>
    obtain ⟨hs, hids⟩ := ih
    have hout := hids _ hm
    refine ⟨⟨A.write hs.inv hout.2 hw, fun x hx => hs.owns_le x ((A.owns_write hw).mp hx),
      fun x hx => ?_, ?_⟩,
      fun id hid => ⟨(hids id hid).1, fun ho => (hids id hid).2 ((A.owns_write hw).mp ho)⟩⟩
    · have hne : x ≠ _ := fun he => hx (he ▸ hout.1)
      rw [hw.store, Store.put_view_ne _ _ hne]
      exact hs.view x hx
    · rw [hw.store]
      exact hs.next_le
  | draw _ _ hgive ih =>
    obtain ⟨hs, hids⟩ := ih
    obtain ⟨hs', hown, hgone, -⟩ := A.gives hgive
    refine ⟨hs.trans hs', fun x hx => ?_⟩
    rcases List.mem_append.mp hx with hx | hx
    · exact ⟨(hids x hx).1, fun ho => (hids x hx).2 (hs'.owns_le x ho)⟩
    · obtain rfl := List.mem_singleton.mp hx
      exact ⟨hs.owns_le x hown, hgone⟩

theorem inv (h : A.Issued s g ids s' g') : A.Inv s' g' := h.frame.1.inv

theorem wf (h : A.Issued s g ids s' g') : s'.cache.WF := (A.sound h.inv).wf

theorem view (h : A.Issued s g ids s' g') (hx : ¬ A.Owns s g x) :
    s'.store.view x = s.store.view x := h.frame.1.view x hx

theorem fixed (h : A.Issued s g ids s' g') (hx : ¬ A.Owns s g x) : ¬ A.Owns s' g' x := fun ho =>
  hx (h.frame.1.owns_le x ho)

theorem owned (h : A.Issued s g ids s' g') (hx : x ∈ ids) : A.Owns s g x := (h.frame.2 x hx).1

theorem given (h : A.Issued s g ids s' g') (hx : x ∈ ids) : ¬ A.Owns s' g' x := (h.frame.2 x hx).2

theorem lt (h : A.Issued s g ids s' g') (hx : x ∈ ids) : x < s'.store.next :=
  Nat.lt_of_not_le fun hle => h.given hx (A.beyond hle)

theorem ne_zero (h : A.Issued s g ids s' g') (hx : x ∈ ids) : x ≠ 0 := fun hz =>
  h.given hx (hz ▸ A.zero h.inv)

theorem trans (h : A.Issued s g ids s' g') (h' : A.Issued s' g' ids' s'' g'') :
    A.Issued s g (ids ++ ids') s'' g'' := by
  induction h' with
  | refl _ => rwa [List.append_nil]
  | peek _ hp ih => exact (ih h).peek hp
  | write _ hm hw ih => exact (ih h).write (List.mem_append_right _ hm) hw
  | draw _ hrun hgive ih =>
    rw [← List.append_assoc]
    exact (ih h).draw hrun hgive

/-- No page is issued twice. -/
theorem nodup (h : A.Issued s g ids s' g') : ids.Nodup := by
  induction h with
  | refl _ => exact List.nodup_nil
  | peek _ _ ih | write _ _ _ ih => exact ih
  | draw h _ hgive ih =>
    rw [List.nodup_append]
    refine ⟨ih, List.nodup_singleton _, fun x hx y hy he => ?_⟩
    obtain rfl := List.mem_singleton.mp hy
    exact h.given (he ▸ hx) (A.gives hgive).2.1

theorem refuses (h : A.Issued s g ids s' g') (hb : Blocked s' e s'') :
    A.Refuses s g e s'' := ⟨ids, s', g', h, .inr hb⟩

theorem trans_refuses (h : A.Issued s g ids s' g') (hr : A.Refuses s' g' e s'') :
    A.Refuses s g e s'' := by
  obtain ⟨ids', s1, g1, h', hend⟩ := hr
  exact ⟨_, s1, g1, h.trans h', hend⟩

end Issued

theorem wp_alloc (hinv : A.Inv s g) :
    wp A.alloc s (fun id s' => ∃ g', A.New s g id s' g') (fun e s' => A.Refuses s g e s') := by
  have hspec := wp_def.mp (A.spec hinv)
  refine wp_def.mpr ⟨fun id s' hrun => ?_, fun e s' hrun => ?_⟩
  · obtain ⟨g', hgive⟩ := hspec.1 id s' hrun
    exact ⟨g', (Issued.refl hinv).draw hrun hgive, (A.gives hgive).2.2.2⟩
  · exact ⟨[], s, g, .refl hinv, .inl (hspec.2 e s' hrun)⟩

/-- After a failure the allocator is in order, and what it does not own is as it was. -/
theorem Refuses.steady (h : A.Refuses s g e s') :
    ∃ g', Steady A.Inv A.Owns s g s' g' := by
  obtain ⟨ids, s1, g1, hi, hf | hb⟩ := h
  · obtain ⟨g', hs⟩ := A.fails hf
    exact ⟨g', hi.frame.1.trans hs⟩
  · exact ⟨g1, (hi.peek hb.peeked).frame.1⟩

end Allocator

/-! ### The allocator of a transaction -/

/-- The pages that the free map, the pool and the reuse list account for, the superblocks, and
everything past the end of the file. -/
def CowOwns (lo : Nat) (s : AllocCtx) (t : PageTree Bool) (x : Nat) : Prop :=
  s.store.next ≤ x ∨ x < lo ∨ 0 < tally s t x

section Cow

variable {r : Bool} {lo : Nat} {lent : Nat → Nat} {s s' s'' : AllocCtx} {t t' : PageTree Bool}

theorem Peeked.tally (h : Peeked s s') (t : PageTree Bool) (x : Nat) :
    tally s' t x = tally s t x := by
  have hbits : fmBits s' t = fmBits s t := fmBits_congr (by rw [h.tree]) fun _ => rfl
  unfold Chisel.tally
  rw [hbits, h.reuse, h.pool, h.tree]

theorem Wrote.tally {id : Nat} (h : Wrote id p s s') (t : PageTree Bool) (x : Nat) :
    tally s' t x = tally s t x := by
  have hbits : fmBits s' t = fmBits s t := fmBits_congr (by rw [h.tree]) fun _ => rfl
  unfold Chisel.tally
  rw [hbits, h.reuse, h.pool, h.tree]

theorem Wrote.writable {id : Nat} (h : Wrote id p s s') (t : PageTree Bool) (x : Nat) :
    Writable r s' t x ↔ Writable r s t x := by
  have hbits : fmBits s' t = fmBits s t := fmBits_congr (by rw [h.tree]) fun _ => rfl
  unfold Writable
  rw [h.store, h.reuse, h.pool, hbits, h.tree, Store.put_next]

theorem Lends.peek (h : Lends r lo lent s t s' t') (hp : Peeked s' s'') :
    Lends r lo lent s t s'' t' := by
  simpa using h.trans (.of_store h.inv hp.wf hp.store hp.tree hp.hint hp.reuse hp.pool)

theorem Lends.write {id : Nat} (h : Lends r lo lent s t s' t') (hid : 0 < lent id)
    (hw : Wrote id p s' s'') : Lends r lo lent s t s'' t' :=
  h.put hid (fun _ hq => Option.some.inj hq ▸ hw.plain) hw.wf hw.store hw.tree hw.hint hw.reuse
    hw.pool

theorem Lends.lent_lt (h : Lends r lo lent s t s' t') {x : Nat} (hx : 0 < lent x) :
    lo ≤ x ∧ x < s'.store.next := by
  have := h.step.once h.pre x
  exact between_pos.mp (by omega)

theorem Lends.lent_writable (h : Lends r lo lent s t s' t') {x : Nat} (hx : 0 < lent x) :
    Writable r s t x :=
  (h.step.lent_writable h.pre hx).resolve_right (Nat.lt_irrefl 0)

theorem Lends.view (h : Lends r lo lent s t s' t') {x : Nat} (hx : ¬ Writable r s t x) :
    s'.store.view x = s.store.view x := h.step.frame x hx rfl

theorem Lends.ne_zero (h : Lends r lo lent s t s' t') {x : Nat} (hx : 0 < lent x) : x ≠ 0 := by
  have hpos := h.pre.lo_pos
  have hle := (h.lent_lt hx).1
  omega

theorem Lends.denied (h : Lends r lo lent s t s' t') (hb : Blocked s' e s'') :
    Denied r lo s t e s'' :=
  ⟨hb.peeked.store ▸ hb.exhausted, (h.peek hb.peeked).loses⟩

theorem Evolve.fits {given : Nat → Nat} (h : Evolve r lent given s t s' t') (hf : s'.store.Fits) :
    s.store.Fits := by
  have hcard := Finset.card_le_card h.hot_ge
  have hroom := h.room
  unfold Store.Fits at *
  omega

theorem Lends.fits (h : Lends r lo lent s t s' t') (hf : s'.store.Fits) : s.store.Fits :=
  h.step.fits hf

theorem AllocInv.writable_owned (h : AllocInv lo s t) {x : Nat} (hx : ¬ CowOwns lo s t x) :
    ¬ Writable r s t x := by
  unfold CowOwns at hx
  exact h.not_writable (by omega) (by omega)

theorem Moves.steady (h : Moves r lo lent s t s' t') :
    Steady (AllocInv lo) (CowOwns lo) s t s' t' where
  inv := h.inv
  owns_le x hx := by
    have htally := h.step.tally x
    have hnext := h.step.next_le
    rcases hx with hx | hx | hx
    · exact .inl (hnext.trans hx)
    · exact .inr (.inl hx)
    · by_cases hb : 0 < between s.store.next s'.store.next x
      · exact .inl (between_pos.mp hb).1
      · exact .inr (.inr (by omega))
  view x hx := h.step.frame x (h.pre.writable_owned hx) rfl
  next_le := h.step.next_le

/-- A source of pages that keeps the books of the transaction. -/
structure Source (r : Bool) (lo : Nat) where
  alloc : AllocM Nat
  spec : ∀ {s t}, AllocInv lo s t → wp alloc s (fun id s' => ∃ t', Lent r lo s t id s' t')
    (fun e s' => Denied r lo s t e s')

/-- A source as an allocator, with the free map tree kept beside the state. -/
def Source.allocator (S : Source r lo) : Allocator (PageTree Bool) where
  alloc := S.alloc
  Inv := AllocInv lo
  Owns := CowOwns lo
  Gives s t id s' t' := Lent r lo s t id s' t'
  Fails s t e s' := Denied r lo s t e s'
  sound h := h.sound
  beyond h := .inl h
  zero h := .inr (.inl h.lo_pos)
  peek h hp := ((Lends.refl (r := r) h).peek hp).inv
  owns_peek hp := by
    unfold CowOwns
    rw [hp.store, hp.tally]
  write := by
    intro s t s' id p h hid hw
    unfold CowOwns tally at hid
    refine h.put (by omega) (fun hm => ?_) hw.wf hw.store hw.tree hw.hint hw.reuse (by rw [hw.pool])
    have := count_pos.mpr hm
    omega
  owns_write hw := by
    unfold CowOwns
    rw [hw.store, hw.tally, Store.put_next]
  spec := S.spec
  gives := by
    intro s t id s' t' h
    have hone : 0 < one id id := by simp
    have hb := h.lends.lent_lt hone
    refine ⟨h.lends.toMoves.steady, ?_, ?_, h.fresh⟩
    · have hw := h.lends.lent_writable hone
      by_cases hlt : id < s.store.next
      · exact .inr (.inr (h.lends.pre.tally_pos hw hlt))
      · exact .inl (Nat.le_of_not_lt hlt)
    · have h0 := h.lends.step.tally_lent h.lends.pre hone
      unfold CowOwns
      omega
  fails h := by
    obtain ⟨lent, t', hm⟩ := h.loses
    exact ⟨t', hm.steady⟩

def cow (r : Bool) (lo : Nat) : Allocator (PageTree Bool) :=
  Source.allocator (⟨cowAlloc r, fun h =>
    wp_mono (wp_cowAlloc h) (fun _ _ ⟨⟨t', hl, _⟩, _⟩ => ⟨t', hl⟩) fun _ _ h => h⟩ : Source r lo)

/-- Pages from the end of the file only. -/
def extending (r : Bool) (lo : Nat) : Allocator (PageTree Bool) :=
  Source.allocator (⟨onCache newPage, fun {_ t} h =>
    wp_mono (wp_onCache_newPage h) (fun _ _ h => ⟨t, h.1⟩) fun _ _ h => h⟩ : Source r lo)

variable {S : Source r lo}

/-- The pages that were issued are the pages that the transaction's books gave up. -/
theorem Allocator.Issued.lends {ids : List Nat}
    (h : S.allocator.Issued s t ids s' t') :
    Lends r lo (fun x => ids.count x) s t s' t' := by
  induction h with
  | refl hinv => exact .refl hinv
  | peek _ hp ih => exact ih.peek hp
  | write _ hm hw ih => exact ih.write (count_pos.mpr hm) hw
  | draw _ _ hgive ih =>
    have hl := ih.trans (show Lent _ _ _ _ _ _ _ from hgive).lends
    simpa only [List.count_append, count_singleton] using hl

/-- A page can be issued only if memory is not full. -/
theorem Allocator.Issued.fits {ids : List Nat}
    (h : S.allocator.Issued s t ids s' t') (hne : ids ≠ []) : s.store.Fits := by
  induction h with
  | refl _ => exact absurd rfl hne
  | peek _ _ ih | write _ _ _ ih => exact ih hne
  | draw h _ hgive _ =>
    have hl : Lent r lo _ _ _ _ _ := hgive
    exact h.lends.fits (hl.lends.fits hl.fits)

theorem Allocator.Refuses.denied (h : S.allocator.Refuses s t e s') : Denied r lo s t e s' := by
  obtain ⟨ids, s1, t1, hi, hf | hb⟩ := h
  · exact hi.lends.trans_denied hf
  · exact hi.lends.denied hb

end Cow

end Chisel
