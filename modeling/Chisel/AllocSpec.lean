import Chisel.FreeMapOps

/-! Page allocation inside a transaction. A page comes from the transaction's own dead pages, from
the free map or from the end of the file, and the free map takes pages for its own nodes on the
way. One relation says what an allocation may do to the store, and one equation accounts for every
page. -/

namespace Chisel

open StateError PageCache RadixTree Ledger

variable {junk out : Nat → Nat} {id : Nat} {p : Option Page}

/-- How often the allocator owns a page: as a node of the free map, as a free page, as a page the
free map may reuse, as a dead page of the transaction, or as a superseded node. -/
def tally (s : AllocCtx) (t : PageTree Bool) (x : Nat) : Nat :=
  t.count fmShape x + (fmBits s t x).toNat + s.structuralReuse.count x +
    s.pool.recyclable.count x + s.tree.pendingSuperseded.count x

/-- The allocator owns no page twice, the nodes it may write in place are in the tree, and no free
page lies below the hint. -/
structure AllocInv (lo : Nat) (s : AllocCtx) (t : PageTree Bool) : Prop where
  rooted : Rooted lo s t
  once : ∀ x, tally s t x ≤ between lo s.store.next x
  session : ∀ x ∈ s.tree.sessionOwned, 0 < t.count fmShape x
  dead : ∀ x ∈ s.pool.recyclable, ∀ p, s.store.view x = some p → p.isFreeMap = false
  hinted : ∀ x, fmBits s t x = true → s.hint ≤ x

/-- The pages an allocation may write. Inside a savepoint only the end of the file is used. -/
def Writable (reuse : Bool) (s : AllocCtx) (t : PageTree Bool) (x : Nat) : Prop :=
  s.store.next ≤ x ∨ reuse = true ∧
    (x ∈ s.structuralReuse ∨ x ∈ s.pool.recyclable ∨ fmBits s t x = true ∨
      x ∈ s.tree.sessionOwned)

/-- The allocator's own state is as it was. -/
structure Quiet (s : AllocCtx) (t : PageTree Bool) (s' : AllocCtx) (t' : PageTree Bool) : Prop where
  tree : s'.tree = s.tree
  ghost : t' = t
  hint : s'.hint = s.hint
  reuse : s'.structuralReuse = s.structuralReuse
  recyclable : s'.pool.recyclable = s.pool.recyclable

/-- The allocator went from `s` to `s'`, `lent` pages left it and `given` pages came to it. -/
structure Evolve (reuse : Bool) (lent given : Nat → Nat) (s : AllocCtx) (t : PageTree Bool)
    (s' : AllocCtx) (t' : PageTree Bool) : Prop where
  frame : ∀ x, ¬ Writable reuse s t x → given x = 0 → s'.store.view x = s.store.view x
  hot_le : ∀ x ∈ s'.store.hot, x ∈ s.store.hot ∨ Writable reuse s t x ∨ 0 < given x
  hot_ge : s.store.hot ⊆ s'.store.hot
  io : s'.store.io = s.store.io
  room : s'.store.room = s.store.room
  cipher : s'.store.cipher = s.store.cipher
  next_le : s.store.next ≤ s'.store.next
  tail : ∀ x, s.store.next ≤ x → x < s'.store.next → x ∈ s'.store.hot
  writable : ∀ x, Writable reuse s' t' x → Writable reuse s t x ∨ 0 < given x
  tally : ∀ x, tally s' t' x + lent x = tally s t x + between s.store.next s'.store.next x + given x
  kept : ∀ x, 0 < t.count fmShape x → 0 < t'.count fmShape x ∨ x ∈ s'.tree.pendingSuperseded
  reused : ∀ x ∈ s.structuralReuse, x ∈ s'.structuralReuse ∨ x ∈ s'.store.hot
  pending : ∀ x ∈ s.tree.pendingSuperseded, x ∈ s'.tree.pendingSuperseded
  allocated_ge : s.pool.allocated ⊆ s'.pool.allocated
  allocated_le : ∀ x ∈ s'.pool.allocated,
    x ∈ s.pool.allocated ∨ Writable reuse s t x ∨ 0 < given x
  quiet : reuse = false → Quiet s t s' t'

namespace AllocInv

variable {lo x : Nat} {s s' : AllocCtx} {t : PageTree Bool}

section

variable (h : AllocInv lo s t)

include h

theorem sound : s.Sound := h.rooted.ok.sound

theorem lo_pos : 0 < lo := h.rooted.ok.lo_pos

theorem tally_le (x : Nat) : tally s t x ≤ 1 :=
  (h.once x).trans (between_le _ _ _)

theorem bounds (hx : 0 < tally s t x) : lo ≤ x ∧ x < s.store.next := by
  have := h.once x
  exact between_pos.mp (by omega)

/-- What the allocator may write, below the end of the file, it owns. -/
theorem tally_pos {r : Bool} (hw : Writable r s t x)
    (hx : x < s.store.next) : 0 < tally s t x := by
  unfold tally
  rcases hw with hw | ⟨-, hw | hw | hw | hw⟩
  · omega
  · have := count_pos.mpr hw
    omega
  · have := count_pos.mpr hw
    omega
  · rw [hw]
    simp
  · have := h.session x hw
    omega

theorem not_writable {r : Bool} (h0 : tally s t x = 0)
    (hx : x < s.store.next) : ¬ Writable r s t x := fun hw =>
  absurd (h.tally_pos hw hx) (by omega)

theorem free_le (hx : fmBits s t x = true) : x ≤ u64Max := by
  have hb := h.bounds (x := x) (by unfold tally; rw [hx]; simp)
  have := h.sound.next_le
  omega

theorem recyclable_lt (hx : x ∈ s.pool.recyclable) : x < s.store.next := by
  have hc := count_pos.mpr hx
  exact (h.bounds (by unfold tally; omega)).2

theorem dead_of_fmStep {t' : PageTree Bool} (hs : FmStep junk s t s' t') :
    ∀ x ∈ s'.pool.recyclable, ∀ p, s'.store.view x = some p → p.isFreeMap = false := by
  obtain ⟨taken, dead, ht, -, -⟩ := hs.moves
  intro x hx p hp
  rw [ht.pool] at hx
  have hc := count_pos.mpr hx
  have hle := h.tally_le x
  unfold tally at hle
  rw [ht.frame x] at hp
  · exact h.dead x hx p hp
  · rintro (h1 | h1)
    · exact absurd (h.recyclable_lt hx) (Nat.not_lt.mpr h1)
    · have := count_pos.mpr h1
      omega
  · rintro ⟨-, h1⟩
    omega

theorem put (hid : t.count fmShape id = 0) (hdead : id ∈ s.pool.recyclable → p = none)
    (hwf : s'.cache.WF) (hst : s'.store = s.store.put id p) (htree : s'.tree = s.tree)
    (hh : s'.hint = s.hint) (hr : s'.structuralReuse = s.structuralReuse)
    (hp : s'.pool.recyclable = s.pool.recyclable) : AllocInv lo s' t := by
  have hbits : fmBits s' t = fmBits s t := fmBits_congr (by rw [htree]) fun _ => rfl
  have htally : ∀ x, tally s' t x = tally s t x := fun x => by
    unfold tally
    rw [hbits, hr, hp, htree]
  have hok := h.rooted.ok
  refine ⟨⟨⟨⟨hwf, ?_⟩, hok.lo_pos, ?_, ?_, fun x => ?_⟩, ?_, ?_, ?_⟩, fun x => ?_, ?_, ?_, ?_⟩
  · rw [hst]
    exact hok.sound.next_le
  · rw [hst]
    exact hok.lo_le
  · rw [htree]
    refine hok.rep.frame fun x hx => ?_
    have hne : x ≠ id := by
      rintro rfl
      omega
    rw [fmRead, hst, Store.put_view_ne _ _ hne]
    rfl
  · rw [hst, hr, htree]
    exact hok.once x
  · rw [htree]
    exact h.rooted.depth_le
  · rw [htree]
    exact h.rooted.root_nil
  · rw [htree]
    exact h.rooted.root_eq
  · rw [htally, hst]
    exact h.once x
  · rw [htree]
    exact h.session
  · intro x hx q hq
    rw [hp] at hx
    rw [hst] at hq
    by_cases hxid : x = id
    · subst hxid
      rw [Store.put_view_self, hdead hx] at hq
      cases hq
    · rw [Store.put_view_ne _ _ hxid] at hq
      exact h.dead x hx q hq
  · rw [hbits, hh]
    exact h.hinted

theorem of_pool (hc : s'.cache = s.cache) (htree : s'.tree = s.tree)
    (hr : s'.structuralReuse = s.structuralReuse)
    (hp : ∀ x, s'.pool.recyclable.count x ≤ s.pool.recyclable.count x)
    (hh : ∀ x, fmBits s t x = true → s'.hint ≤ x) : AllocInv lo s' t := by
  obtain ⟨cache, tree, hint, reuse, pool⟩ := s
  obtain ⟨cache', tree', hint', reuse', pool'⟩ := s'
  subst hc htree hr
  obtain ⟨⟨⟨⟨hwf, hnext⟩, hlo, hle, hrep, honce⟩, hd, hnil, heq⟩, htally, hsess, hdead, -⟩ := h
  refine ⟨⟨⟨⟨hwf, hnext⟩, hlo, hle, hrep, honce⟩, hd, hnil, heq⟩, fun x => ?_, hsess,
    fun x hx => hdead x (count_pos.mp (Nat.lt_of_lt_of_le (count_pos.mpr hx) (hp x))), hh⟩
  refine Nat.le_trans ?_ (htally x)
  have := hp x
  simp only [tally] at this ⊢
  change _ + (fmBits _ t x).toNat + _ + _ + _ ≤ _
  exact Nat.add_le_add_right (Nat.add_le_add_left this _) _

end

end AllocInv

namespace Evolve

variable {r : Bool} {lent lent' given given' : Nat → Nat} {lo : Nat} {s s' s'' : AllocCtx}
  {t t' t'' : PageTree Bool}

theorem of_store (hst : s'.store = s.store) (htree : s'.tree = s.tree) (hh : s'.hint = s.hint)
    (hr : s'.structuralReuse = s.structuralReuse) (hp : s'.pool = s.pool) :
    Evolve r (fun _ => 0) (fun _ => 0) s t s' t := by
  have hbits : fmBits s' t = fmBits s t := fmBits_congr (by rw [htree]) fun _ => rfl
  exact
    { frame := fun _ _ _ => by rw [hst]
      hot_le := fun _ hx => .inl (hst ▸ hx)
      hot_ge := by rw [hst]
      io := by rw [hst]
      room := by rw [hst]
      cipher := by rw [hst]
      next_le := by rw [hst]
      tail := fun x h1 h2 => absurd (hst ▸ h2) (Nat.not_lt.mpr h1)
      writable := fun x hx => .inl (by
        unfold Writable at *
        rwa [hst, hr, hp, hbits, htree] at hx)
      tally := fun x => by
        unfold Chisel.tally
        rw [hst, hr, hp, hbits, htree, between_self]
      kept := fun _ hx => .inl hx
      reused := fun _ hx => .inl (hr ▸ hx)
      pending := fun _ hx => htree ▸ hx
      allocated_ge := by rw [hp]
      allocated_le := fun _ hx => .inl (hp ▸ hx)
      quiet := fun _ => ⟨htree, rfl, hh, hr, by rw [hp]⟩ }

theorem refl (s : AllocCtx) (t : PageTree Bool) : Evolve r (fun _ => 0) (fun _ => 0) s t s t :=
  of_store rfl rfl rfl rfl rfl

theorem trans (h : Evolve r lent given s t s' t') (h' : Evolve r lent' given' s' t' s'' t'') :
    Evolve r (fun x => lent x + lent' x) (fun x => given x + given' x) s t s'' t'' := by
  have hw : ∀ x, Writable r s' t' x ∨ 0 < given' x →
      Writable r s t x ∨ 0 < given x + given' x := by
    intro x hx
    rcases hx with hx | hx
    · rcases h.writable x hx with h1 | h1
      · exact .inl h1
      · exact .inr (by omega)
    · exact .inr (by omega)
  have hm : ∀ {P : Prop} {x : Nat}, P ∨ Writable r s t x ∨ 0 < given x →
      P ∨ Writable r s t x ∨ 0 < given x + given' x := by
    intro P x hx
    rcases hx with h1 | h1 | h1
    · exact .inl h1
    · exact .inr (.inl h1)
    · exact .inr (.inr (by omega))
  exact
    { frame := fun x hx hg => by
        have hg1 : given x = 0 := by omega
        have hx' : ¬ Writable r s' t' x := fun hc => by
          rcases h.writable x hc with h1 | h1
          · exact hx h1
          · omega
        rw [h'.frame x hx' (by omega), h.frame x hx hg1]
      hot_le := fun x hx => by
        rcases h'.hot_le x hx with h1 | h1
        · exact hm (h.hot_le x h1)
        · exact .inr (hw x h1)
      hot_ge := h.hot_ge.trans h'.hot_ge
      io := h'.io.trans h.io
      room := h'.room.trans h.room
      cipher := h'.cipher.trans h.cipher
      next_le := h.next_le.trans h'.next_le
      tail := fun x h1 h2 => by
        rcases Nat.lt_or_ge x s'.store.next with h3 | h3
        · exact h'.hot_ge (h.tail x h1 h3)
        · exact h'.tail x h3 h2
      writable := fun x hx => hw x (h'.writable x hx)
      tally := fun x => by
        have h1 := h.tally x
        have h2 := h'.tally x
        have h3 := between_add h.next_le h'.next_le x
        omega
      kept := fun x hx => by
        rcases h.kept x hx with h1 | h1
        · exact h'.kept x h1
        · exact .inr (h'.pending x h1)
      reused := fun x hx => by
        rcases h.reused x hx with h1 | h1
        · exact h'.reused x h1
        · exact .inr (h'.hot_ge h1)
      pending := fun x hx => h'.pending x (h.pending x hx)
      allocated_ge := h.allocated_ge.trans h'.allocated_ge
      allocated_le := fun x hx => by
        rcases h'.allocated_le x hx with h1 | h1
        · exact hm (h.allocated_le x h1)
        · exact .inr (hw x h1)
      quiet := fun hr => by
        have q := h.quiet hr
        have q' := h'.quiet hr
        exact ⟨q'.tree.trans q.tree, q'.ghost.trans q.ghost, q'.hint.trans q.hint,
          q'.reuse.trans q.reuse, q'.recyclable.trans q.recyclable⟩ }

theorem lent_writable (h : Evolve r lent given s t s' t') (hinv : AllocInv lo s t) {x : Nat}
    (hx : 0 < lent x) : Writable r s t x ∨ 0 < given x := by
  by_contra hnot
  rw [not_or] at hnot
  obtain ⟨hw, hg⟩ := hnot
  have htal := h.tally x
  have hlt : x < s.store.next := Nat.lt_of_not_le fun hge => hw (.inl hge)
  have hb := between_of_lt hlt s'.store.next
  have hone := hinv.tally_le x
  cases r with
  | false =>
    have q := h.quiet rfl
    have heq : Chisel.tally s' t' x = Chisel.tally s t x := by
      have hbits : fmBits s' t = fmBits s t := fmBits_congr (by rw [q.tree]) fun _ => rfl
      unfold Chisel.tally
      rw [q.tree, q.ghost, q.reuse, q.recyclable, hbits]
    omega
  | true =>
    have h1 : x ∉ s.structuralReuse := fun hm => hw (.inr ⟨rfl, .inl hm⟩)
    have h2 : x ∉ s.pool.recyclable := fun hm => hw (.inr ⟨rfl, .inr (.inl hm)⟩)
    have h3 : fmBits s t x = false := Bool.eq_false_iff.mpr fun hm =>
      hw (.inr ⟨rfl, .inr (.inr (.inl hm))⟩)
    rw [← count_pos, Nat.not_lt, Nat.le_zero] at h1 h2
    unfold Chisel.tally at htal hone
    rw [h1, h2, h3] at htal hone
    simp only [Bool.toNat_false, Nat.add_zero] at htal hone
    rcases Nat.eq_zero_or_pos (t.count fmShape x) with h4 | h4
    · have h5 : x ∈ s.tree.pendingSuperseded := count_pos.mp (by omega)
      have h6 := count_pos.mpr (h.pending x h5)
      omega
    · rcases h.kept x h4 with h5 | h5
      · omega
      · have h6 := count_pos.mpr h5
        omega

theorem tally_lent (h : Evolve r lent (fun _ => 0) s t s' t') (hinv : AllocInv lo s t) {x : Nat}
    (hx : 0 < lent x) : Chisel.tally s' t' x = 0 := by
  have h1 := h.tally x
  have h2 := hinv.once x
  have h3 := between_add (x := x) hinv.rooted.ok.lo_le h.next_le
  have h4 := between_le lo s'.store.next x
  omega

theorem once (h : Evolve r lent (fun _ => 0) s t s' t') (hinv : AllocInv lo s t) (x : Nat) :
    Chisel.tally s' t' x + lent x ≤ between lo s'.store.next x := by
  have h1 := h.tally x
  have h2 := hinv.once x
  have h3 := between_add (x := x) hinv.rooted.ok.lo_le h.next_le
  omega

theorem put (h : Evolve r lent given s t s' t')
    (hid : Writable r s t id ∨ 0 < given id) (hst : s''.store = s'.store.put id p)
    (htree : s''.tree = s'.tree) (hh : s''.hint = s'.hint)
    (hr : s''.structuralReuse = s'.structuralReuse) (hp : s''.pool = s'.pool) :
    Evolve r lent given s t s'' t' := by
  have hbits : fmBits s'' t' = fmBits s' t' := fmBits_congr (by rw [htree]) fun _ => rfl
  exact
    { frame := fun x hx hg => by
        have hne : x ≠ id := by
          rintro rfl
          exact hid.elim hx (by omega)
        rw [hst, Store.put_view_ne _ _ hne, h.frame x hx hg]
      hot_le := fun x hx => by
        rw [hst, Store.put_hot, Finset.mem_insert] at hx
        rcases hx with rfl | hx
        · exact .inr hid
        · exact h.hot_le x hx
      hot_ge := by
        rw [hst]
        exact h.hot_ge.trans (Finset.subset_insert _ _)
      io := by rw [hst]; exact h.io
      room := by rw [hst]; exact h.room
      cipher := by rw [hst]; exact h.cipher
      next_le := by rw [hst]; exact h.next_le
      tail := fun x h1 h2 => by
        rw [hst] at h2 ⊢
        exact Finset.mem_insert_of_mem (h.tail x h1 h2)
      writable := fun x hx => h.writable x (by
        unfold Writable at *
        rwa [hst, hr, hp, hbits, htree] at hx)
      tally := fun x => by
        have := h.tally x
        unfold Chisel.tally at this ⊢
        rw [hst, hr, hp, hbits, htree]
        exact this
      kept := fun x hx => htree ▸ h.kept x hx
      reused := fun x hx => by
        rw [hst, hr]
        exact (h.reused x hx).imp_right fun h1 => Finset.mem_insert_of_mem h1
      pending := fun x hx => htree ▸ h.pending x hx
      allocated_ge := by rw [hp]; exact h.allocated_ge
      allocated_le := fun x hx => h.allocated_le x (hp ▸ hx)
      quiet := fun hf => by
        have q := h.quiet hf
        exact ⟨htree.trans q.tree, q.ghost, hh.trans q.hint, hr.trans q.reuse,
          (by rw [hp]; exact q.recyclable)⟩ }

/-- A change of the free map: `out` bits were cleared and `inn` bits were set. -/
theorem of_fmStep {inn : Nat → Nat} (hs : FmStep junk s t s' t')
    (hbits : ∀ x, (fmBits s' t' x).toNat + out x = (fmBits s t x).toNat + inn x) :
    Evolve true (fun x => junk x + out x) inn s t s' t' := by
  obtain ⟨taken, dead, ht, hc, hp⟩ := hs.moves
  have hspare : ∀ x, s.Spare x → Writable true s t x := by
    rintro x (hx | hx)
    · exact .inl hx
    · exact .inr ⟨rfl, .inl hx⟩
  have hsess : ∀ x, x ∈ s.tree.sessionOwned ∧ 0 < t.count fmShape x → Writable true s t x :=
    fun x hx => .inr ⟨rfl, .inr (.inr (.inr hx.1))⟩
  have hfree : ∀ x, fmBits s' t' x = true → fmBits s t x = true ∨ 0 < inn x := by
    intro x hx
    have := hbits x
    rw [hx] at this
    rcases Bool.eq_false_or_eq_true (fmBits s t x) with h1 | h1
    · exact .inl h1
    · rw [h1] at this
      simp only [Bool.toNat_true, Bool.toNat_false] at this
      exact .inr (by omega)
  exact
    { frame := fun x hx _ => ht.frame x (fun hc => hx (hspare x hc)) fun hc => hx (hsess x hc)
      hot_le := fun x hx => by
        rcases ht.hot_le x hx with h1 | h1 | h1
        · exact .inl h1
        · exact .inr (.inl (hspare x h1))
        · exact .inr (.inl (hsess x h1))
      hot_ge := ht.hot_ge
      io := ht.io
      room := ht.room
      cipher := ht.cipher
      next_le := ht.next_le
      tail := ht.tail
      writable := fun x hx => by
        rcases hx with hx | ⟨-, hx | hx | hx | hx⟩
        · exact .inl (hspare x (ht.spare_of_spare (.inl hx)))
        · exact .inl (hspare x (ht.spare_of_spare (.inr hx)))
        · rw [ht.pool] at hx
          exact .inl (.inr ⟨rfl, .inr (.inl hx)⟩)
        · rcases hfree x hx with h1 | h1
          · exact .inl (.inr ⟨rfl, .inr (.inr (.inl h1))⟩)
          · exact .inr h1
        · rcases hs.session_le x hx with h1 | h1
          · exact .inl (.inr ⟨rfl, .inr (.inr (.inr h1))⟩)
          · exact .inl (hspare x h1.1)
      tally := fun x => by
        have h1 := ht.sources x
        have h2 := hc x
        have h3 := hp x
        have h4 := hbits x
        unfold Chisel.tally
        rw [ht.pool]
        omega
      kept := hs.kept
      reused := ht.reused
      pending := fun x hx => by
        have h1 := count_pos.mpr hx
        have h2 := hp x
        exact count_pos.mp (by omega)
      allocated_ge := by rw [ht.pool]
      allocated_le := fun x hx => .inl (ht.pool ▸ hx)
      quiet := fun hf => by cases hf }

theorem of_extend (hst : s'.store = s.store.extend) (htree : s'.tree = s.tree)
    (hh : s'.hint = s.hint) (hr : s'.structuralReuse = s.structuralReuse) (hp : s'.pool = s.pool) :
    Evolve r (one s.store.next) (fun _ => 0) s t s' t := by
  have hbits : fmBits s' t = fmBits s t := fmBits_congr (by rw [htree]) fun _ => rfl
  exact
    { frame := fun x hx _ => by
        have hne : x ≠ s.store.next := fun he => hx (.inl he.ge)
        rw [hst, Store.extend_view_ne _ hne]
      hot_le := fun x hx => by
        rw [hst, Store.extend_hot, Finset.mem_insert] at hx
        rcases hx with rfl | hx
        · exact .inr (.inl (.inl le_rfl))
        · exact .inl hx
      hot_ge := by
        rw [hst]
        exact Finset.subset_insert _ _
      io := by rw [hst]; rfl
      room := by rw [hst]; rfl
      cipher := by rw [hst]; rfl
      next_le := by rw [hst]; exact Nat.le_succ _
      tail := fun x h1 h2 => by
        rw [hst, Store.extend_next] at h2
        obtain rfl : x = s.store.next := by omega
        rw [hst]
        exact Finset.mem_insert_self ..
      writable := fun x hx => .inl (by
        unfold Writable at *
        rw [hst, hr, hp, hbits, htree, Store.extend_next] at hx
        rcases hx with hx | hx
        · exact .inl (Nat.le_of_succ_le hx)
        · exact .inr hx)
      tally := fun x => by
        unfold Chisel.tally
        rw [hst, hr, hp, hbits, htree, Store.extend_next, between_succ]
        omega
      kept := fun _ hx => .inl hx
      reused := fun _ hx => .inl (hr ▸ hx)
      pending := fun _ hx => htree ▸ hx
      allocated_ge := by rw [hp]
      allocated_le := fun _ hx => .inl (hp ▸ hx)
      quiet := fun _ => ⟨htree, rfl, hh, hr, by rw [hp]⟩ }

end Evolve

/-! ### Lending pages -/

/-- The allocator gave up pages and is consistent again. -/
structure Moves (r : Bool) (lo : Nat) (lent : Nat → Nat) (s : AllocCtx) (t : PageTree Bool)
    (s' : AllocCtx) (t' : PageTree Bool) : Prop where
  pre : AllocInv lo s t
  inv : AllocInv lo s' t'
  step : Evolve r lent (fun _ => 0) s t s' t'
  dry : t = .nil → t' = .nil

/-- The pages that the allocator gave up are not nodes of a free map. -/
structure Lends (r : Bool) (lo : Nat) (lent : Nat → Nat) (s : AllocCtx) (t : PageTree Bool)
    (s' : AllocCtx) (t' : PageTree Bool) : Prop extends Moves r lo lent s t s' t' where
  plain : ∀ x, 0 < lent x → ∀ p, s'.store.view x = some p → p.isFreeMap = false

/-- The allocator may have lost pages. -/
def Loses (r : Bool) (lo : Nat) (s : AllocCtx) (t : PageTree Bool) (s' : AllocCtx) : Prop :=
  ∃ lent t', Moves r lo lent s t s' t'

/-- The allocator ran out of something. -/
structure Denied (r : Bool) (lo : Nat) (s : AllocCtx) (t : PageTree Bool) (e : ChiselError)
    (s' : AllocCtx) : Prop where
  exhausted : Exhausted e s'.store
  loses : Loses r lo s t s'

section Moving

variable {r : Bool} {lo : Nat} {lent lent' : Nat → Nat} {s s' s'' : AllocCtx}
  {t t' t'' : PageTree Bool}

theorem Moves.trans (h : Moves r lo lent s t s' t') (h' : Moves r lo lent' s' t' s'' t'') :
    Moves r lo (fun x => lent x + lent' x) s t s'' t'' :=
  ⟨h.pre, h'.inv, h.step.trans h'.step, fun hnil => h'.dry (h.dry hnil)⟩

theorem Moves.loses (h : Moves r lo lent s t s' t') : Loses r lo s t s' := ⟨lent, t', h⟩

/-- What was given up is the allocator's no more. -/
theorem Moves.lent_fixed (h : Moves r lo lent s t s' t') {x : Nat} (hx : 0 < lent x) :
    ¬ Writable r s' t' x := by
  have hb := h.step.once h.pre x
  have hpos : 0 < between lo s'.store.next x := by omega
  exact h.inv.not_writable (h.step.tally_lent h.pre hx) (between_pos.mp hpos).2

theorem Moves.of_store (hinv : AllocInv lo s t) (hwf : s'.cache.WF) (hst : s'.store = s.store)
    (htree : s'.tree = s.tree) (hh : s'.hint = s.hint)
    (hr : s'.structuralReuse = s.structuralReuse) (hp : s'.pool = s.pool) :
    Moves r lo (fun _ => 0) s t s' t := by
  have hstep : Evolve r (fun _ => 0) (fun _ => 0) s t s' t := .of_store hst htree hh hr hp
  have hok := hinv.rooted.ok
  refine ⟨hinv, ⟨⟨?_, ?_, ?_, ?_⟩, fun x => ?_, ?_, ?_, ?_⟩, hstep, id⟩
  · rw [htree]
    exact hok.of_store hwf hst hr (by rw [htree])
  · rw [htree]
    exact hinv.rooted.depth_le
  · rw [htree]
    exact hinv.rooted.root_nil
  · rw [htree]
    exact hinv.rooted.root_eq
  · have := hstep.once hinv x
    omega
  · rw [htree]
    exact hinv.session
  · rw [hp, hst]
    exact hinv.dead
  · rw [fmBits_congr (s := s) (t := t) (by rw [htree]) fun _ => rfl, hh]
    exact hinv.hinted

theorem AllocInv.of_fmStep (hinv : AllocInv lo s t) (hr : Rooted lo s' t')
    (hs : FmStep junk s t s' t')
    (hbits : ∀ x, (fmBits s' t' x).toNat + out x = (fmBits s t x).toNat) : AllocInv lo s' t' := by
  have hstep : Evolve true (fun x => junk x + out x) (fun _ => 0) s t s' t' := .of_fmStep hs hbits
  refine ⟨hr, fun x => ?_, fun x hx => ?_, ?_, fun x hx => ?_⟩
  · have := hstep.once hinv x
    omega
  · rcases hs.session_le x hx with h1 | h1
    · exact hs.session_kept x h1 (hinv.session x h1)
    · exact h1.2
  · exact hinv.dead_of_fmStep hs
  · obtain ⟨taken, dead, htk, -⟩ := hs.moves
    rw [htk.hint]
    refine hinv.hinted x (Bool.eq_true_of_not_eq_false fun hx' => ?_)
    have hb := hbits x
    rw [hx, hx'] at hb
    simp at hb

/-- It loses the pages it did not use. -/
theorem Moves.of_fmStep (hinv : AllocInv lo s t) (hr : Rooted lo s' t') (hs : FmStep junk s t s' t')
    (hbits : ∀ x, (fmBits s' t' x).toNat + out x = (fmBits s t x).toNat) (hne : t ≠ .nil) :
    Moves true lo (fun x => junk x + out x) s t s' t' :=
  ⟨hinv, hinv.of_fmStep hr hs hbits, .of_fmStep hs hbits, fun hnil => absurd hnil hne⟩

theorem Moves.of_extend (hinv : AllocInv lo s t) (hwf : s'.cache.WF) (hmax : s.store.next ≠ u64Max)
    (hst : s'.store = s.store.extend) (htree : s'.tree = s.tree) (hh : s'.hint = s.hint)
    (hr : s'.structuralReuse = s.structuralReuse) (hp : s'.pool = s.pool) :
    Moves r lo (one s.store.next) s t s' t := by
  have hstep : Evolve r (one s.store.next) (fun _ => 0) s t s' t := .of_extend hst htree hh hr hp
  have hok := hinv.rooted.ok
  refine ⟨hinv, ⟨⟨?_, ?_, ?_, ?_⟩, fun x => ?_, ?_, fun x hx p hv => ?_, ?_⟩, hstep, id⟩
  · rw [htree]
    exact hok.of_extend hwf hmax hst hr htree
  · rw [htree]
    exact hinv.rooted.depth_le
  · rw [htree]
    exact hinv.rooted.root_nil
  · rw [htree]
    exact hinv.rooted.root_eq
  · have := hstep.once hinv x
    omega
  · rw [htree]
    exact hinv.session
  · rw [hp] at hx
    have hne : x ≠ s.store.next := (hinv.recyclable_lt hx).ne
    rw [hst, Store.extend_view_ne _ hne] at hv
    exact hinv.dead x hx p hv
  · rw [fmBits_congr (s := s) (t := t) (by rw [htree]) fun _ => rfl, hh]
    exact hinv.hinted

end Moving

namespace Lends

variable {r : Bool} {lo : Nat} {lent lent' : Nat → Nat} {s s' s'' : AllocCtx}
  {t t' t'' : PageTree Bool}

theorem trans (h : Lends r lo lent s t s' t') (h' : Lends r lo lent' s' t' s'' t'') :
    Lends r lo (fun x => lent x + lent' x) s t s'' t'' where
  toMoves := h.toMoves.trans h'.toMoves
  plain x hx p hp := by
    by_cases hl : 0 < lent' x
    · exact h'.plain x hl p hp
    · rw [h'.step.frame x (h.lent_fixed (by omega)) rfl] at hp
      exact h.plain x (by omega) p hp

theorem refl (hinv : AllocInv lo s t) : Lends r lo (fun _ => 0) s t s t :=
  ⟨⟨hinv, hinv, .refl s t, id⟩, nofun⟩

theorem loses (h : Lends r lo lent s t s' t') : Loses r lo s t s' := h.toMoves.loses

theorem trans_denied {e : ChiselError} (h : Lends r lo lent s t s' t')
    (h' : Denied r lo s' t' e s'') : Denied r lo s t e s'' := by
  obtain ⟨lent', t'', hm⟩ := h'.loses
  exact ⟨h'.exhausted, _, t'', h.toMoves.trans hm⟩

theorem of_store (hinv : AllocInv lo s t) (hwf : s'.cache.WF) (hst : s'.store = s.store)
    (htree : s'.tree = s.tree) (hh : s'.hint = s.hint)
    (hr : s'.structuralReuse = s.structuralReuse) (hp : s'.pool = s.pool) :
    Lends r lo (fun _ => 0) s t s' t :=
  ⟨.of_store hinv hwf hst htree hh hr hp, nofun⟩

theorem of_extend (hinv : AllocInv lo s t) (hwf : s'.cache.WF) (hmax : s.store.next ≠ u64Max)
    (hst : s'.store = s.store.extend) (htree : s'.tree = s.tree) (hh : s'.hint = s.hint)
    (hr : s'.structuralReuse = s.structuralReuse) (hp : s'.pool = s.pool) :
    Lends r lo (one s.store.next) s t s' t where
  toMoves := .of_extend hinv hwf hmax hst htree hh hr hp
  plain x hx p hv := by
    obtain rfl := one_pos.mp hx
    rw [hst, Store.extend_view_self] at hv
    cases hv

theorem put (h : Lends r lo lent s t s' t') (hid : 0 < lent id)
    (hp : ∀ q, p = some q → q.isFreeMap = false) (hwf : s''.cache.WF)
    (hst : s''.store = s'.store.put id p) (htree : s''.tree = s'.tree) (hh : s''.hint = s'.hint)
    (hr : s''.structuralReuse = s'.structuralReuse) (hpool : s''.pool = s'.pool) :
    Lends r lo lent s t s'' t' where
  pre := h.pre
  inv := by
    have h0 := h.step.tally_lent h.pre hid
    unfold tally at h0
    refine h.inv.put (by omega) (fun hm => ?_) hwf hst htree hh hr (by rw [hpool])
    have := count_pos.mpr hm
    omega
  step := h.step.put (h.step.lent_writable h.pre hid) hst htree hh hr hpool
  dry := h.dry
  plain x hx q hq := by
    rw [hst] at hq
    by_cases hxid : x = id
    · subst hxid
      rw [Store.put_view_self] at hq
      exact hp q hq
    · rw [Store.put_view_ne _ _ hxid] at hq
      exact h.plain x hx q hq

end Lends

theorem Moves.blank {r : Bool} {lo : Nat} {s s' s'' : AllocCtx} {t t' : PageTree Bool}
    (h : Moves r lo (one id) s t s' t') (hwf : s''.cache.WF)
    (hst : s''.store = s'.store.put id none) (htree : s''.tree = s'.tree) (hh : s''.hint = s'.hint)
    (hr : s''.structuralReuse = s'.structuralReuse) (hp : s''.pool = s'.pool) :
    Lends r lo (one id) s t s'' t' where
  pre := h.pre
  inv := by
    have h0 := h.step.tally_lent h.pre (x := id) (by simp)
    unfold tally at h0
    exact h.inv.put (by omega) (fun _ => rfl) hwf hst htree hh hr (by rw [hp])
  step := h.step.put (h.step.lent_writable h.pre (by simp)) hst htree hh hr hp
  dry := h.dry
  plain x hx q hq := by
    obtain rfl := one_pos.mp hx
    rw [hst, Store.put_view_self] at hq
    cases hq

theorem AllocInv.denied_of_treeFailed {lo : Nat} {s s' : AllocCtx} {t : PageTree Bool}
    {e : ChiselError} (hinv : AllocInv lo s t) (hne : t ≠ .nil) (h : TreeFailed lo s t e s') :
    Denied true lo s t e s' := by
  obtain ⟨hex, junk, t', hr, hs, hb, -⟩ := h
  refine ⟨hex, ?_⟩
  have hbits : ∀ x, (fmBits s' t' x).toNat + 0 = (fmBits s t x).toNat := fun x => by
    rw [hb, Nat.add_zero]
  exact ⟨_, t', .of_fmStep hinv hr hs hbits hne⟩

/-- A page fresh from the allocator. -/
structure Lent (r : Bool) (lo : Nat) (s : AllocCtx) (t : PageTree Bool) (id : Nat) (s' : AllocCtx)
    (t' : PageTree Bool) : Prop where
  lends : Lends r lo (one id) s t s' t'
  fresh : Fresh s' id
  fits : s'.store.Fits

theorem wp_onCache_newPage {r : Bool} {lo : Nat} {s : AllocCtx} {t : PageTree Bool}
    (hinv : AllocInv lo s t) :
    wp (onCache newPage) s
      (fun id s' => Lent r lo s t id s' t ∧ s'.pool = s.pool ∧ id = s.store.next ∧
        s'.store.next = s.store.next + 1)
      (fun e s' => Denied r lo s t e s') := by
  rw [wp_onCache]
  refine wp_mono (wp_newPage hinv.sound.wf) ?_ ?_
  · rintro id c ⟨rfl, hmax, hwf, hst, hfits⟩
    have hst' : ({ s with cache := c } : AllocCtx).store = s.store.extend := hst
    have hmax' : s.store.next ≠ u64Max := hmax
    refine ⟨⟨.of_extend hinv hwf hmax' hst' rfl rfl rfl rfl, ⟨?_, ?_, ?_⟩, hfits⟩, rfl, rfl,
      congrArg Store.next hst'⟩
    · rw [hst']
      exact Nat.lt_succ_self _
    · rw [hst']
      exact Finset.mem_insert_self _ _
    · rw [hst']
      exact s.store.extend_view_self
  · rintro e c ⟨hwf, hex, rfl | ⟨hmax, hst⟩⟩
    · exact ⟨hex, (Lends.refl hinv).loses⟩
    · have hst' : ({ s with cache := c } : AllocCtx).store = s.store.extend := hst
      have hmax' : s.store.next ≠ u64Max := hmax
      exact ⟨hex, (Lends.of_extend hinv hwf hmax' hst' rfl rfl rfl rfl).loses⟩

theorem fresh_of_put {s : AllocCtx} {st : Store} (hst : s.store = st.put id none)
    (hlt : id < st.next) : Fresh s id := by
  refine ⟨?_, ?_, ?_⟩
  · rw [hst]
    exact hlt
  · rw [hst]
    exact Finset.mem_insert_self _ _
  · rw [hst]
    exact Store.put_view_self ..

theorem wp_drawRecyclable {lo : Nat} {s : AllocCtx} {t : PageTree Bool} (hinv : AllocInv lo s t) :
    wp drawRecyclable s
      (fun r s' => (r = none → s' = s) ∧ (s.pool.recyclable = [] → r = none) ∧
        ∀ id, r = some id → Lent true lo s t id s' t)
      (fun e s' => Denied true lo s t e s') := by
  simp only [drawRecyclable, wp_bind, wp_get]
  split
  · exact wp_ret ⟨fun _ => rfl, fun _ => rfl, by simp⟩
  next id hid =>
  have hmem := List.mem_of_getLast? hid
  have hcount := count_pos.mpr hmem
  have htally : 0 < tally s t id := by
    unfold tally
    omega
  have hlt := (hinv.bounds htally).2
  have hnode : t.count fmShape id = 0 := by
    have := hinv.tally_le id
    unfold tally at this
    omega
  have hw : Writable true s t id := .inr ⟨rfl, .inr (.inl hmem)⟩
  simp only [wp_bind, wp_onCache, reclaimDeadTxnPage]
  refine wp_mono (wp_reissuePage hinv.sound.wf hlt) ?_ ?_
  · rintro - c ⟨hwf, hst, hfits⟩
    set s1 : AllocCtx := { s with cache := c } with hs1
    have hst1 : s1.store = s.store.put id none := hst
    have hinv1 : AllocInv lo s1 t := hinv.put hnode (fun _ => rfl) hwf hst1 rfl rfl rfl rfl
    have hstep1 := (Evolve.refl s t).put (.inl hw) hst1 rfl rfl rfl rfl
    rw [wp_modify, wp_pure]
    set s2 : AllocCtx := { s1 with pool.recyclable := s1.pool.recyclable.dropLast } with hs2
    have hdrop : ∀ x, s.pool.recyclable.count x = s2.pool.recyclable.count x + one id x :=
      count_dropLast hid
    have hstep : Evolve true (one id) (fun _ => 0) s t s2 t :=
      { hstep1 with
        writable := fun x hx => hstep1.writable x (by
          rcases hx with hx | ⟨hr, hx | hx | hx⟩
          · exact .inl hx
          · exact .inr ⟨hr, .inl hx⟩
          · exact .inr ⟨hr, .inr (.inl (List.mem_of_mem_dropLast hx))⟩
          · exact .inr ⟨hr, .inr (.inr hx)⟩)
        tally := fun x => by
          have h1 := hstep1.tally x
          have h2 := hdrop x
          have h3 : tally s2 t x + s.pool.recyclable.count x =
              tally s1 t x + s2.pool.recyclable.count x := by
            change t.count fmShape x + (fmBits s1 t x).toNat + s1.structuralReuse.count x +
              s2.pool.recyclable.count x + s1.tree.pendingSuperseded.count x + _ = _
            unfold tally
            change _ = _ + s.pool.recyclable.count x + _ + _
            omega
          change tally s2 t x + _ = _ + between _ s1.store.next _ + _
          omega
        quiet := by simp }
    refine ⟨by simp, fun hempty => absurd (hempty ▸ hmem) List.not_mem_nil, fun id' hid' => ?_⟩
    obtain rfl := Option.some.inj hid'
    have hpool : ∀ x, s2.pool.recyclable.count x ≤ s1.pool.recyclable.count x := fun x => by
      have := hdrop x
      change _ ≤ s.pool.recyclable.count x
      omega
    have hinv2 : AllocInv lo s2 t := hinv1.of_pool rfl rfl rfl hpool hinv1.hinted
    refine ⟨⟨⟨hinv, hinv2, hstep, fun h => h⟩, fun x hx q hq => ?_⟩, fresh_of_put hst1 hlt, hfits⟩
    obtain rfl := one_pos.mp hx
    exact absurd ((fresh_of_put hst1 hlt).view.symm.trans hq) (by simp)
  · rintro e c ⟨hwf, hex, hst⟩
    have hst1 : ({ s with cache := c } : AllocCtx).store = s.store.put id none := hst
    exact ⟨hex, _, t, hinv, hinv.put hnode (fun _ => rfl) hwf hst1 rfl rfl rfl rfl,
      (Evolve.refl s t).put (.inl hw) hst1 rfl rfl rfl rfl, fun h => h⟩

theorem bits_toNat_update {bits : Nat → Bool} {k : Nat} (hk : bits k = true) (x : Nat) :
    (Function.update bits k false x).toNat + one k x = (bits x).toNat := by
  by_cases hx : x = k
  · subst hx
    simp [hk]
  · rw [Function.update_of_ne hx, one_of_ne (Ne.symm hx), Nat.add_zero]

/-- A scan from the hint finds the least free page there is. -/
theorem AllocInv.isLeast {lo : Nat} {s : AllocCtx} {t : PageTree Bool} (hinv : AllocInv lo s t)
    (hscan : Scanned s.hint (fun x => fmBits s t x = true) (some id)) :
    IsLeast {x | fmBits s t x = true} id := by
  have hfree := hscan.found id rfl
  have hlt := (hinv.bounds (x := id) (by
    unfold tally
    rw [hfree]
    simp)).2
  have hle := hinv.hinted id hfree
  have hmax := hinv.sound.next_le
  exact ⟨hfree, fun y hy => (hscan.least (by omega) id rfl).2 ⟨hinv.hinted y hy, hy⟩⟩

theorem AllocInv.none_free {lo : Nat} {s : AllocCtx} {t : PageTree Bool} (hinv : AllocInv lo s t)
    (hscan : Scanned s.hint (fun x => fmBits s t x = true) none) (x : Nat) :
    fmBits s t x = false := by
  refine Bool.eq_false_of_not_eq_true fun hfree => ?_
  have hlt := (hinv.bounds (x := x) (by
    unfold tally
    rw [hfree]
    simp)).2
  have hle := hinv.hinted x hfree
  have hmax := hinv.sound.next_le
  have := hscan.none (by omega) rfl x hfree
  omega

/-- What `allocate_first` answers: the least free page, or none if no page is free. -/
def FirstFree (s : AllocCtx) (t : PageTree Bool) (r : Option Nat) : Prop :=
  (r = none → ∀ x, fmBits s t x = false) ∧
    ∀ id, r = some id → IsLeast {x | fmBits s t x = true} id

theorem wp_allocateFirst {lo : Nat} {s : AllocCtx} {t : PageTree Bool} (hinv : AllocInv lo s t)
    (hne : t ≠ .nil) :
    wp FreeMapTree.allocateFirst s
      (fun r s' => FirstFree s t r ∧
        (r = none → Lends true lo (fun _ => 0) s t s' t ∧ s'.store = s.store) ∧
        ∀ id, r = some id → id < s'.store.next ∧
          (s.store.next < s'.store.next → s'.structuralReuse = []) ∧
          ∃ t', Moves true lo (one id) s t s' t')
      (fun e s' => Denied true lo s t e s') := by
  refine wp_mono (wp_allocateFirst_bits hinv.rooted hne fun x hx => hinv.free_le hx) ?_
    fun _ s' h => hinv.denied_of_treeFailed hne h.2
  intro r s' ⟨hscan, hhint, t', hr', _, hsame, hstep, hbits⟩
  set s2 : AllocCtx := { s' with hint := s.hint } with hs2
  have hr2 : Rooted lo s2 t' := hr'.of_store hr'.ok.sound.wf rfl rfl rfl
  have hs' : s' = { s2 with hint := r.getD s.hint } := by rw [hs2, ← hhint]
  cases r with
  | none =>
    obtain ⟨rfl, hst⟩ := hsame rfl
    have h2 : Moves true lo (fun x => 0 + 0) s t' s2 t' :=
      .of_fmStep hinv hr2 hstep
        (fun x => by rw [show fmBits s2 t' = fmBits s t' from hbits, Nat.add_zero]) hne
    refine ⟨⟨fun _ => hinv.none_free hscan, nofun⟩, fun _ => ⟨?_, hst⟩, nofun⟩
    rw [hs']
    exact ⟨h2, nofun⟩
  | some id =>
    have hleast := hinv.isLeast hscan
    have hbits2 : fmBits s2 t' = Function.update (fmBits s t) id false := hbits
    have h2 : Moves true lo (fun x => 0 + one id x) s t s2 t' :=
      .of_fmStep hinv hr2 hstep (fun x => by
        rw [hbits2]
        exact bits_toNat_update hleast.1 x) hne
    simp only [Nat.zero_add] at h2
    refine ⟨⟨nofun, fun id' hid' => Option.some.inj hid' ▸ hleast⟩, nofun, fun id' hid' => ?_⟩
    obtain rfl := Option.some.inj hid'
    have hlt : id < s.store.next := (hinv.bounds (by
      unfold tally
      rw [show fmBits s t id = true from hleast.1]
      simp)).2
    -- every bit that is left lies above the least one
    have hhinted : ∀ x, fmBits s2 t' x = true → id ≤ x := fun x hx => by
      rw [hbits2] at hx
      by_cases hxid : x = id
      · exact hxid.ge
      · rw [Function.update_of_ne hxid] at hx
        exact hleast.2 hx
    obtain ⟨taken, dead, htaking, -, -⟩ := hstep.moves
    rw [hs']
    exact ⟨Nat.lt_of_lt_of_le hlt h2.step.next_le, htaking.drained, t', hinv,
      h2.inv.of_pool rfl rfl rfl (fun _ => Nat.le_refl _) hhinted, { h2.step with quiet := nofun },
      fun hnil => absurd hnil hne⟩

theorem wp_claim {r : Bool} {lo : Nat} {s s' : AllocCtx} {t t' : PageTree Bool}
    (h : Moves r lo (one id) s t s' t') (hlt : id < s'.store.next) :
    wp (onCache (claimPage id)) s'
      (fun _ s'' => Lent r lo s t id s'' t' ∧ s''.structuralReuse = s'.structuralReuse ∧
        s''.store.next = s'.store.next)
      (fun e s'' => Denied r lo s t e s'') := by
  rw [wp_onCache]
  refine wp_mono (wp_reissuePage h.inv.sound.wf hlt) ?_ ?_
  · rintro - c ⟨hwf, hst, hfits⟩
    have hst' : ({ s' with cache := c } : AllocCtx).store = s'.store.put id none := hst
    exact ⟨⟨h.blank hwf hst' rfl rfl rfl rfl, fresh_of_put hst' hlt, hfits⟩, rfl, by rw [hst']; rfl⟩
  · rintro e c ⟨hwf, hex, hst⟩
    have hst' : ({ s' with cache := c } : AllocCtx).store = s'.store.put id none := hst
    exact ⟨hex, (h.blank hwf hst' rfl rfl rfl rfl).loses⟩

/-- Where `cow_alloc` finds a page when there is none to recycle: the least free one, or else a new
one at the end of the file. The free map needs new pages for copies of its nodes only when it has
none left to reuse. -/
structure LowestFirst (s : AllocCtx) (t : PageTree Bool) (id : Nat) (s' : AllocCtx) : Prop where
  least : (∃ x, fmBits s t x = true) → IsLeast {x | fmBits s t x = true} id
  last : (∀ x, fmBits s t x = false) → id = s.store.next ∧ s'.store.next = s.store.next + 1
  grows : s.store.next < s'.store.next → (∀ x, fmBits s t x = false) ∨ s'.structuralReuse = []

theorem LowestFirst.of_free {s s' : AllocCtx} {t : PageTree Bool}
    (hleast : IsLeast {x | fmBits s t x = true} id)
    (hdrained : s.store.next < s'.store.next → s'.structuralReuse = []) :
    LowestFirst s t id s' where
  least _ := hleast
  last hnone := absurd (hleast.1.symm.trans (hnone id)) nofun
  grows hlt := .inr (hdrained hlt)

theorem LowestFirst.of_new {s s' : AllocCtx} {t : PageTree Bool}
    (hnone : ∀ x, fmBits s t x = false) (hnext : s'.store.next = s.store.next + 1) :
    LowestFirst s t s.store.next s' where
  least := fun ⟨x, hx⟩ => absurd (hx.symm.trans (hnone x)) nofun
  last _ := ⟨rfl, hnext⟩
  grows _ := .inl hnone

theorem wp_reuseAlloc {lo : Nat} {s : AllocCtx} {t : PageTree Bool} (hinv : AllocInv lo s t) :
    wp reuseAlloc s
      (fun r s' => (r = none → Lends true lo (fun _ => 0) s t s' t ∧ s'.store = s.store ∧
          ∀ x, fmBits s t x = false) ∧
        ∀ id, r = some id → (s.pool.recyclable = [] → LowestFirst s t id s') ∧
          ∃ t', Lent true lo s t id s' t')
      (fun e s' => Denied true lo s t e s') := by
  simp only [reuseAlloc, wp_bind]
  refine wp_imp (wp_drawRecyclable hinv) ?_
  rintro r s1 ⟨hnone, hempty, hsome⟩
  cases r with
  | some id =>
    refine wp_ret ⟨by simp, fun id' hid' => ⟨fun he => absurd (hempty he) (by simp), t, ?_⟩⟩
    obtain rfl := Option.some.inj hid'
    exact hsome id rfl
  | none =>
    obtain rfl := hnone rfl
    have hrefl : Lends true lo (fun _ => 0) s1 t s1 t := .refl hinv
    rw [wp_bind, wp_get]
    refine wp_ite (fun hroot => ?_) fun hroot => ?_
    · obtain rfl := hinv.rooted.nil_iff.mpr hroot
      exact wp_ret ⟨fun _ => ⟨hrefl, rfl, fun _ => PageTree.content_nil ..⟩, by simp⟩
    have hne : t ≠ .nil := fun hnil => hroot (hinv.rooted.nil_iff.mp hnil)
    rw [wp_bind]
    refine wp_imp (wp_allocateFirst hinv hne) ?_
    rintro r s2 ⟨hfirst, hnone2, hsome2⟩
    cases r with
    | none =>
      obtain ⟨hlends, hst⟩ := hnone2 rfl
      exact wp_ret ⟨fun _ => ⟨hlends, hst, hfirst.1 rfl⟩, by simp⟩
    | some id =>
      obtain ⟨hlt, hdrained, t2, h2⟩ := hsome2 id rfl
      rw [wp_bind]
      refine wp_imp (wp_claim h2 hlt) ?_
      rintro - s3 ⟨h3, hreuse, hnext⟩
      refine wp_ret ⟨by simp, fun id' hid' => ?_⟩
      obtain rfl := Option.some.inj hid'
      refine ⟨fun _ => .of_free (hfirst.2 id rfl) ?_, t2, h3⟩
      rw [hreuse, hnext]
      exact hdrained

theorem wp_recordAllocated {r : Bool} {lo : Nat} {s s' : AllocCtx} {t t' : PageTree Bool}
    (h : Lent r lo s t id s' t') (hinv : AllocInv lo s t) {E : ChiselError → AllocCtx → Prop} :
    wp (recordAllocated id) s'
      (fun id' s'' => id' = id ∧ Lent r lo s t id s'' t' ∧ id ∈ s''.pool.allocated ∧
        s''.store = s'.store ∧ s''.structuralReuse = s'.structuralReuse) E := by
  simp only [recordAllocated, wp_bind, wp_modify, wp_pure]
  have hw := h.lends.step.lent_writable hinv (x := id) (by simp)
  have hinv' := h.lends.inv
  refine ⟨trivial, ⟨⟨⟨hinv, hinv'.of_pool rfl rfl rfl (fun _ => Nat.le_refl _) hinv'.hinted, ?_,
    h.lends.dry⟩, h.lends.plain⟩, ?_, h.fits⟩, Finset.mem_insert_self _ _, rfl, trivial⟩
  · exact
      { h.lends.step with
        allocated_ge := h.lends.step.allocated_ge.trans (Finset.subset_insert _ _)
        allocated_le := fun x hx => by
          rcases Finset.mem_insert.mp hx with rfl | hx
          · exact .inr hw
          · exact h.lends.step.allocated_le x hx
        quiet := fun hr => { h.lends.step.quiet hr with } }
  · exact ⟨h.fresh.lt, h.fresh.hot, h.fresh.view⟩

theorem wp_cowAlloc {r : Bool} {lo : Nat} {s : AllocCtx} {t : PageTree Bool}
    (hinv : AllocInv lo s t) :
    wp (cowAlloc r) s
      (fun id s' => (∃ t', Lent r lo s t id s' t' ∧ id ∈ s'.pool.allocated) ∧
        (r = true → s.pool.recyclable = [] → LowestFirst s t id s'))
      (fun e s' => Denied r lo s t e s') := by
  have hrefl : Lends r lo (fun _ => 0) s t s t := .refl hinv
  have hreuse : wp (if r then reuseAlloc else pure none : AllocM (Option Nat)) s
      (fun o s' => (o = none → Lends r lo (fun _ => 0) s t s' t ∧ s'.store = s.store ∧
          (r = true → ∀ x, fmBits s t x = false)) ∧
        ∀ id, o = some id → (s.pool.recyclable = [] → LowestFirst s t id s') ∧
          ∃ t', Lent r lo s t id s' t')
      (fun e s' => Denied r lo s t e s') := by
    cases r with
    | false => exact wp_ret ⟨fun _ => ⟨hrefl, rfl, nofun⟩, nofun⟩
    | true =>
      refine wp_imp (wp_reuseAlloc hinv) ?_
      intro o s' ⟨hnone, hsome⟩
      exact ⟨fun ho => ⟨(hnone ho).1, (hnone ho).2.1, fun _ => (hnone ho).2.2⟩, hsome⟩
  simp only [cowAlloc, wp_bind]
  refine wp_imp hreuse ?_
  rintro o s1 ⟨hnone, hsome⟩
  cases o with
  | some id =>
    obtain ⟨hfirst, t1, h1⟩ := hsome id rfl
    refine wp_imp (wp_recordAllocated h1 hinv) ?_
    rintro id' s2 ⟨rfl, h2, hmem, hst, hr⟩
    refine ⟨⟨t1, h2, hmem⟩, fun _ hempty => ?_⟩
    obtain ⟨hleast, hlast, hgrows⟩ := hfirst hempty
    exact ⟨hleast, by rw [hst]; exact hlast, by rw [hst, hr]; exact hgrows⟩
  | none =>
    obtain ⟨h1, hst1, hnofree⟩ := hnone rfl
    rw [wp_bind]
    refine wp_mono (wp_onCache_newPage h1.inv) ?_ fun _ _ h => h1.trans_denied h
    rintro id s2 ⟨h2, -, rfl, hnext⟩
    have h3 := h1.trans h2.lends
    simp only [Nat.zero_add] at h3
    refine wp_imp (wp_recordAllocated ⟨h3, h2.fresh, h2.fits⟩ hinv) ?_
    rintro id' s3 ⟨rfl, h4, hmem, hst, -⟩
    refine ⟨⟨t, h4, hmem⟩, fun hr _ => ?_⟩
    rw [hst1] at hnext ⊢
    exact .of_new (hnofree hr) (by rw [hst, hnext])

end Chisel
