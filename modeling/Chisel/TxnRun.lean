import Chisel.FreeMapMark
import Chisel.TxnMutate

/-! Operations made of other operations: deletion in bulk, the names of the roots, and the
defragmentation pass. They go from one open transaction to the next, and they leave the savepoints
as they are. -/

namespace Chisel

open StateError PageCache TransactionManager RadixTree Ledger

variable {leaks dies : Prop} {handle tag : Nat}

/-- The transaction went on. The savepoints are as they were; unless `leaks` no slot became stray,
and unless `dies` the manager is poisoned only if it was. -/
structure Onward (leaks dies : Prop) (m : TransactionManager) (g : Ghost)
    (m' : TransactionManager) (g' : Ghost) : Prop extends Went m g m' g' where
  stray : leaks ∨ g'.cur.stray = g.cur.stray
  poisoned : dies ∨ m'.poisoned = m.poisoned
  tidy : dies ∨ (Tidy m g → Tidy m' g')

/-- The transaction went on, and only the free map changed. -/
structure MapOnward (leaks dies : Prop) (m : TransactionManager) (g : Ghost)
    (m' : TransactionManager) (g' : Ghost) : Prop extends Onward leaks dies m g m' g' where
  cur : g'.cur = g.cur
  roots : SameRoots m m'
  packer : m'.packer = m.packer
  freed : m'.txnFreedPages = m.txnFreedPages

/-- The program keeps the transaction open and leaves its savepoints alone, whether it returns or
fails; what it returns satisfies `P`. -/
def Goes {α : Type} (x : TxnM α) (P : α → Prop) : Prop :=
  ∀ (ex : Prop) (o : Origin) (m : TransactionManager) (g : Ghost), Txn ex o m g →
    wp x m (fun a m' => P a ∧ ∃ g', Txn ex o m' g' ∧ Onward False False m g m' g')
      (fun e m' => ∃ g', Txn (ex ∧ e.isHard = false) o m' g' ∧
        Onward (e.isHard = true) (e.isFatal = true) m g m' g')

section Going

variable {ex ex' : Prop} {o : Origin} {m m' : TransactionManager} {g g' : Ghost} {α β : Type}
  {x : TxnM α} {P : α → Prop} {R : β → Prop}

theorem Onward.refl (m : TransactionManager) (g : Ghost) : Onward False False m g m g :=
  ⟨.refl m g, .inr rfl, .inr rfl, .inr id⟩

theorem Onward.mono {leaks' dies' : Prop} (h : Onward leaks dies m g m' g')
    (hl : leaks → leaks') (hd : dies → dies') : Onward leaks' dies' m g m' g' :=
  ⟨h.toWent, h.stray.imp_left hl, h.poisoned.imp_left hd, h.tidy.imp_left hd⟩

theorem Onward.trans {m'' : TransactionManager} {g'' : Ghost}
    (h : Onward False False m g m' g') (h' : Onward leaks dies m' g' m'' g'') :
    Onward leaks dies m g m'' g'' :=
  ⟨h.toWent.trans h'.toWent, h'.stray.imp_right fun hs => hs.trans (h.stray.resolve_left id),
    h'.poisoned.imp_right fun hp => hp.trans (h.poisoned.resolve_left id),
    h'.tidy.imp_right fun ht hm => ht (h.tidy.resolve_left id hm)⟩

theorem MapOnward.mono {leaks' dies' : Prop} (h : MapOnward leaks dies m g m' g')
    (hl : leaks → leaks') (hd : dies → dies') : MapOnward leaks' dies' m g m' g' :=
  ⟨h.toOnward.mono hl hd, h.cur, h.roots, h.packer, h.freed⟩

theorem MapOnward.trans {m'' : TransactionManager} {g'' : Ghost}
    (h : MapOnward False False m g m' g') (h' : MapOnward leaks dies m' g' m'' g'') :
    MapOnward leaks dies m g m'' g'' :=
  ⟨h.toOnward.trans h'.toOnward, h'.cur.trans h.cur, h.roots.trans h'.roots,
    h'.packer.trans h.packer, h'.freed.trans h.freed⟩

theorem MapOnward.refl (m : TransactionManager) (g : Ghost) : MapOnward False False m g m g :=
  ⟨.refl m g, rfl, .refl m, rfl, rfl⟩

theorem Txn.onward_looked (h : Txn ex o m g) (hl : Looked m m') :
    MapOnward False False m g m' g := by
  have hd := h.drawn_looked hl
  have hr := hl.sameRoots
  obtain ⟨c, hc, rfl⟩ := hl
  exact ⟨⟨hd.toWent, .inr rfl, .inr rfl, .inr fun ht => ht.drawn h.core hd rfl⟩, rfl, hr, rfl, rfl⟩

theorem Became.onward {e : HandleEntry} {c : Option (Bytes × Nat × UInt8)}
    (h : Became m g m' g' handle e c) : Onward False False m g m' g' :=
  ⟨h.toWent, .inr h.stray, .inr h.poisoned, .inr h.tidy⟩

theorem Aborted.onward {e : ChiselError} (h : Aborted ex o m g e m' g') :
    Onward (e.isHard = true) (e.isFatal = true) m g m' g' := by
  refine ⟨h.went, ?_, .inr h.poisoned, h.tidy⟩
  cases he : e.isHard with
  | true => exact .inl rfl
  | false => exact .inr (by rw [h.soft he])

theorem Txn.weaken (h : Txn ex o m g) (hex : ex' → ex) : Txn ex' o m g :=
  ⟨h.core.weaken hex, h.tied⟩

theorem goes_pure {a : α} (ha : P a) : Goes (pure a) P := fun _ _ m g h =>
  wp_ret ⟨ha, g, h, .refl m g⟩

theorem goes_throw (e : ChiselError) : Goes (throw e) P := fun _ _ m g h =>
  wp_fail ⟨g, h.weaken And.left, (Onward.refl m g).mono False.elim False.elim⟩

theorem Goes.bind {f : α → TxnM β} (hx : Goes x P) (hf : ∀ a, P a → Goes (f a) R) :
    Goes (x >>= f) R := by
  intro ex o m g h
  rw [wp_bind]
  refine wp_imp (hx ex o m g h) ?_
  rintro a m1 ⟨ha, g1, h1, hw1⟩
  refine wp_mono (hf a ha ex o m1 g1 h1) ?_ ?_
  · rintro b m2 ⟨hb, g2, h2, hw2⟩
    exact ⟨hb, g2, h2, hw1.trans hw2⟩
  · rintro e m2 ⟨g2, h2, hw2⟩
    exact ⟨g2, h2, hw1.trans hw2⟩

theorem goes_get {f : TransactionManager → TxnM β} (hf : ∀ m, Goes (f m) R) :
    Goes (get >>= f) R := by
  intro ex o m g h
  rw [wp_bind, wp_get]
  exact hf m ex o m g h

theorem goes_ite {c : Prop} [Decidable c] {y : TxnM α} (hx : c → Goes x P) (hy : ¬ c → Goes y P) :
    Goes (if c then x else y) P := by
  intro ex o m g h
  exact wp_ite (fun hc => hx hc ex o m g h) fun hc => hy hc ex o m g h

theorem goes_forM {l : List β} {f : β → TxnM PUnit} (hf : ∀ b ∈ l, Goes (f b) fun _ => True) :
    Goes (l.forM f) fun _ => True := by
  intro ex o m g h
  refine wp_mono (wp_forM (fun _ m' => ∃ g', Txn ex o m' g' ∧ Onward False False m g m' g')
    ⟨g, h, .refl m g⟩ ?_)
    (fun _ _ hm => ⟨trivial, hm⟩) fun _ _ he => he
  rintro done b rest m1 hl ⟨g1, h1, hw1⟩
  have hb : b ∈ l := by
    rw [hl]
    exact List.mem_append_right _ List.mem_cons_self
  refine wp_mono (hf b hb ex o m1 g1 h1) ?_ ?_
  · rintro - m2 ⟨-, g2, h2, hw2⟩
    exact ⟨g2, h2, hw1.trans hw2⟩
  · rintro e m2 ⟨g2, h2, hw2⟩
    exact ⟨g2, h2, hw1.trans hw2⟩

theorem goes_liftExcept {y : Except ChiselError α} (hy : ∀ a, y = .ok a → P a) :
    Goes (TransactionManager.liftExcept y) P := by
  cases y with
  | ok a => exact goes_pure (hy a rfl)
  | error e => exact goes_throw e

theorem goes_requireActive : Goes requireActive fun _ => True := by
  intro ex o m g h
  rw [← bind_pure requireActive, wp_bind,
    wp_requireActive h.core.anchored.active]
  exact wp_ret ⟨trivial, g, h, .refl m g⟩

theorem goes_of_looks (hx : ∀ m v, Shown m v → wp x m (fun a m' => Looked m m' ∧ P a)
    (fun _ m' => Looked m m')) : Goes x P := by
  intro ex o m g h
  refine wp_mono (hx m g.cur h.shown) ?_ ?_
  · rintro a m' ⟨hl, ha⟩
    exact ⟨ha, g, h.looked hl, (h.onward_looked hl).toOnward⟩
  · intro e m' hl
    exact ⟨g, (h.looked hl).weaken And.left,
      (h.onward_looked hl).toOnward.mono False.elim False.elim⟩

/-- A change of the manager that touches nothing the transaction rests on. -/
theorem Txn.aside (h : Txn ex o m g) (ha : Aside m m') (hp : m'.txnPages = m.txnPages)
    (hf : m'.txnFreedPages = m.txnFreedPages) (hpk : m'.packer = m.packer)
    (ht : Tied m'.currentRoots m'.htDepth m'.outerDepth g.cur)
    (hpo : dies ∨ m'.poisoned = m.poisoned) : Txn ex o m' g ∧ Onward False dies m g m' g := by
  have hrec : m'.txnPages.recyclable = m.txnPages.recyclable := by rw [hp]
  have hwent : Went m g m' { g with cur := g.cur, lost := g.lost } := ha.went fun _ => hrec
  have htidy : Tidy m g → Tidy m' g := by
    intro h0
    refine ⟨h0.clean, ?_⟩
    rw [hpk, ha.cache]
    exact h0.cursor
  refine ⟨⟨?_, ht⟩, hwent, .inr rfl, hpo, .inr htidy⟩
  refine h.core.rebook ha ⟨fun x => by rw [hp, hf], fun _ => le_rfl, fun _ => le_rfl,
    fun x => Nat.le_add_right _ _, fun x hx => .inl (hrec ▸ hx), fun hne => ?_⟩ h.core.cur
    (fun he => ⟨he, h.core.exact he⟩) ?_ ?_ (.inr ⟨rfl, hf⟩)
  · rw [hrec]
    exact h.core.saves.pool hne
  · rw [hpk]
    exact h.core.counts
  · rw [hpk]
    exact h.core.cursor

theorem wp_guarded {Q : α → TransactionManager → Prop} {E : ChiselError → TransactionManager → Prop}
    (hp : m.poisoned = true → E .poisoned m)
    (hx : m.poisoned = false → wp x m Q
      (fun e m' => E e (if e.isFatal then { m' with poisoned := true } else m'))) :
    wp (guarded x) m Q E := by
  cases hpo : m.poisoned with
  | true =>
    have heq : guarded x m = .error .poisoned m := by
      simp [guarded, hpo]
    exact (wp_error heq).mpr (hp hpo)
  | false =>
    have h := hx hpo
    cases hm : x m with
    | ok a m' =>
      have heq : guarded x m = .ok a m' := by
        simp [guarded, hpo, hm]
      exact (wp_ok heq).mpr ((wp_ok hm).mp h)
    | error e m' =>
      have heq : guarded x m =
          .error e (if e.isFatal then { m' with poisoned := true } else m') := by
        simp [guarded, hpo, hm]
      exact (wp_error heq).mpr ((wp_error hm).mp h)

theorem Txn.poison (h : Txn ex o m g) :
    Txn ex o { m with poisoned := true } g ∧
      Onward False True m g { m with poisoned := true } g := by
  have ha : Aside m { m with poisoned := true } :=
    ⟨rfl, rfl, rfl, rfl, rfl, rfl, rfl, rfl, rfl, rfl, rfl, rfl⟩
  exact h.aside ha rfl rfl rfl h.tied (.inl trivial)

theorem Goes.guarded (hx : Goes x P) : Goes (guarded x) P := by
  intro ex o m g h
  refine wp_guarded (fun _ => ?_) fun _ => ?_
  · exact ⟨g, h.weaken And.left, (Onward.refl m g).mono False.elim False.elim⟩
  refine wp_mono (hx ex o m g h) (fun _ _ h' => h') ?_
  rintro e m' ⟨g', h', hw⟩
  split
  · rename_i hfatal
    obtain ⟨h'', hp⟩ := h'.poison
    exact ⟨g', h'', hw.toWent.trans hp.toWent, hw.stray, .inl hfatal, .inl hfatal⟩
  · exact ⟨g', h', hw⟩

end Going

/-! ### Values and names -/

theorem goes_allocateInner (value : Bytes) (htag : tag ≤ u64Max) :
    Goes (allocateInner value tag) fun _ => True := by
  intro ex o m g h
  refine wp_mono (h.wp_allocateInner htag) ?_ ?_
  · rintro handle m' ⟨-, -, -, g', _, h', hb⟩
    exact ⟨trivial, g', h', hb.onward⟩
  · rintro e m' ⟨-, g', ha⟩
    exact ⟨g', ha.txn h, ha.onward⟩

theorem goes_setClientByteInner (byte : UInt8) (hhandle : handle ≤ u64Max) :
    Goes (setClientByteInner handle byte) fun _ => True := by
  intro ex o m g h
  refine wp_mono (h.wp_setClientByteInner hhandle) ?_ ?_
  · rintro - m' ⟨-, -, g', h', hb⟩
    exact ⟨trivial, g', h', hb.onward⟩
  · rintro e m' ⟨-, g', ha⟩
    exact ⟨g', ha.txn h, ha.onward⟩

theorem goes_updateInner (value : Bytes) (hhandle : handle ≤ u64Max) :
    Goes (updateInner handle value) fun _ => True := by
  intro ex o m g h
  refine wp_mono (h.wp_updateInner hhandle) ?_ ?_
  · rintro - m' ⟨-, -, g', _, h', hb, -⟩
    exact ⟨trivial, g', h', hb.onward⟩
  · rintro e m' ⟨-, g', ha⟩
    exact ⟨g', ha.txn h, ha.onward⟩

theorem goes_deleteInner (hhandle : handle ≤ u64Max) :
    Goes (deleteInner handle) fun _ => True := by
  intro ex o m g h
  refine wp_mono (h.wp_deleteInner hhandle) ?_ ?_
  · rintro - m' ⟨-, -, g', h', hb⟩
    exact ⟨trivial, g', h', hb.onward⟩
  · rintro e m' ⟨-, g', ha⟩
    exact ⟨g', ha.txn h, ha.onward⟩

theorem goes_lookupLive (hhandle : handle ≤ u64Max) :
    Goes (lookupLive handle) fun _ => True :=
  goes_of_looks fun _ _ h => wp_mono (h.wp_lookupLive hhandle) (fun _ _ h' => ⟨h'.1, trivial⟩)
    fun _ _ he => he.1

theorem goes_readInner (hhandle : handle ≤ u64Max) :
    Goes (readInner handle) fun _ => True :=
  goes_of_looks fun _ _ h => wp_mono (h.wp_readInner hhandle) (fun _ _ h' => ⟨h'.1, trivial⟩)
    fun _ _ he => he.1

theorem goes_deleteTaggedInner (hhandle : handle ≤ u64Max) :
    Goes (deleteTaggedInner handle tag) fun _ => True := by
  refine goes_requireActive.bind fun _ _ => (goes_lookupLive hhandle).bind fun e _ => ?_
  exact goes_ite (fun _ => goes_throw _) fun _ => goes_deleteInner hhandle

theorem goes_deleteManyInner {handles : List Nat} (hhandles : ∀ handle ∈ handles, handle ≤ u64Max) :
    Goes (deleteManyInner handles) fun _ => True :=
  goes_requireActive.bind fun _ _ => goes_forM fun handle hm => goes_deleteInner
    (hhandles handle hm)

theorem Index.Ok.members_le {g : Index} {h : Nat} (hok : g.Ok h)
    (hm : handle ∈ g.members tag) : handle ≤ u64Max := by
  obtain ⟨⟨k, v⟩, hk, rfl⟩ := List.mem_map.mp hm
  obtain ⟨j, hj, hkey, rfl, hp⟩ := (PageTree.mem_listing (d := radixU64.absent) rfl).mp hk
  rw [Nat.zero_add] at hkey
  subst hkey
  exact hok.keys tag _ hj hp

theorem goes_deleteWithTagInner (max : Nat) (htag : tag ≤ u64Max) :
    Goes (deleteWithTagInner tag max) fun _ => True := by
  refine goes_requireActive.bind fun _ _ => goes_ite (fun _ => goes_pure trivial) fun _ => ?_
  intro ex o m g h
  have hroots : m.readRoots = m.currentRoots := if_pos h.core.anchored.active
  have hroot := h.tied.index
  have hdepth := h.tied.outer
  rw [wp_bind, wp_get, wp_bind]
  refine wp_mono (wp_looking (P := fun l => ∀ handle ∈ l,
    handle ≤ u64Max) (fun _ => False) ?_) ?_ ?_
  · rw [hdepth]
    refine wp_imp (wp_handlesForTagBounded h.core.cur.index.ok h.shown.index_held hroot
      h.core.next_le htag) ?_
    rintro l c ⟨hc, rfl⟩
    exact ⟨hc, fun handle hm => h.core.cur.index.ok.members_le (List.mem_of_mem_take hm)⟩
  · rintro l m1 ⟨hl, hle⟩
    have hgo : Goes (do
        (l.take max).forM deleteInner
        pure (l.take max, decide (l.length ≤ max))) fun _ => True :=
      (goes_forM fun handle hm => goes_deleteInner (hle handle (List.mem_of_mem_take hm))).bind
        fun _ _ => goes_pure trivial
    refine wp_mono (hgo ex o m1 g (h.looked hl)) ?_ ?_
    · rintro a m2 ⟨-, g2, h2, hw2⟩
      exact ⟨trivial, g2, h2, (h.onward_looked hl).toOnward.trans hw2⟩
    · rintro e m2 ⟨g2, h2, hw2⟩
      exact ⟨g2, h2, (h.onward_looked hl).toOnward.trans hw2⟩
  · rintro e m1 ⟨hl, -⟩
    exact ⟨g, (h.looked hl).weaken And.left,
      (h.onward_looked hl).toOnward.mono False.elim False.elim⟩

theorem goes_setNames {α : Type} {P : α → Prop} {a : α} (names : List NamedRoot) (ha : P a) :
    Goes (do
      modify fun m : TransactionManager => { m with currentRoots.namedRoots := names }
      pure a) P := by
  intro ex o m g h
  rw [wp_bind, wp_modify]
  set m' : TransactionManager := { m with currentRoots.namedRoots := names }
  have ht : Tied m'.currentRoots m'.htDepth m'.outerDepth g.cur :=
    { h.tied with }
  have haside : Aside m m' := ⟨rfl, rfl, rfl, rfl, rfl, rfl, rfl, rfl, rfl, rfl, rfl, rfl⟩
  exact wp_ret ⟨ha, g, h.aside haside rfl rfl rfl ht (.inr rfl)⟩

theorem goes_setRootNameInner (name : Bytes) (handle : Nat) :
    Goes (setRootNameInner name handle) fun _ => True := by
  refine goes_requireActive.bind fun _ _ => ?_
  refine (goes_liftExcept (P := fun _ => True) fun _ _ => trivial).bind fun encoded _ => ?_
  refine goes_get fun m => ?_
  dsimp only
  split
  · exact goes_setNames _ trivial
  · exact goes_throw _

theorem goes_clearRootNameInner (name : Bytes) :
    Goes (clearRootNameInner name) fun _ => True := by
  refine goes_requireActive.bind fun _ _ => ?_
  refine (goes_liftExcept (P := fun _ => True) fun _ _ => trivial).bind fun encoded _ => ?_
  refine goes_get fun m => ?_
  dsimp only
  split
  · exact goes_setNames _ trivial
  · exact goes_pure trivial

/-! ### Orphans of the free map -/

section Orphans

variable {ex : Prop} {o : Origin} {m : TransactionManager} {g : Ghost}

theorem wp_markFreeCommittedPath {id : Nat} {Q : Unit → TransactionManager → Prop}
    {E : ChiselError → TransactionManager → Prop}
    (h : wp (do
        if (← get).tree.root = pageIdNone then FreeMapTree.createKeeping
        FreeMapTree.markFreeGrowing id) m.takeTree
      (fun a s' => Q a (m.putTree { s' with hint := min s'.hint id }))
      (fun e s' => E e (m.putTree { s' with hint := min s'.hint id }))) :
    wp (markFreeCommittedPath id) m Q E := by
  unfold markFreeCommittedPath
  rw [wp_finally', wp_withTree]
  exact h

theorem onward_putTree (hnil : m.savepoints = []) {s : AllocCtx} {g' : Ghost}
    {lent given : Nat → Nat} (hstep : Evolve m.reuse lent given m.takeTree g.tree s g'.tree)
    (hne : g.tree ≠ .nil) (hsaves : g'.saves = g.saves) (hstuck : g'.stuck = g.stuck)
    (hcur : g'.cur = g.cur) : MapOnward leaks dies m g (m.putTree s) g' := by
  have htidy : Tidy m g → Tidy (m.putTree s) g' := by
    intro ht
    refine ⟨hcur ▸ ht.clean, fun x hx hpos => ?_⟩
    rw [hcur] at hpos ⊢
    obtain ⟨hno, hfull⟩ := ht.cursor x hx hpos
    exact ⟨hno, fun hf => hfull (hstep.fits hf)⟩
  exact ⟨⟨⟨rfl, hsaves, hstuck, List.prefix_append _ _, fun hsome => absurd hnil hsome, hstep.io,
    hstep.known, fun hno => absurd hno hne, hstep.fits⟩, .inr (by rw [hcur]), .inr rfl,
    .inr htidy⟩, hcur, sameRoots_putTree s m, rfl, rfl⟩

theorem Txn.putTree {ex' : Prop} {s : AllocCtx} {g' : Ghost} (h : Txn ex o m g)
    (hc : Core ex' o (m.putTree s) g' fun _ => 0) (hcur : g'.cur = g.cur) :
    Txn ex' o (m.putTree s) g' := by
  refine ⟨hc, ?_⟩
  rw [hcur]
  exact h.tied.same (sameRoots_putTree s m)

/-- The page looks like a node of a free map. -/
def TransactionManager.IsNode (m : TransactionManager) (x : Nat) : Prop :=
  ∃ p, m.cache.store.view x = some p ∧ p.isFreeMap = true

/-- A page that cannot be read: it is on disk only, and what is there does not open. -/
def Store.Lacks (s : Store) (id : Nat) : Prop := id ∉ s.hot ∧ s.view id = none

/-- The pages `done` were marked free. A page that looks like a node and that the free map does not
know of was there before. -/
structure Swept (m : TransactionManager) (t : PageTree Bool) (done : List Nat)
    (m' : TransactionManager) (t' : PageTree Bool) : Prop where
  bits : ∀ x, fmBits m'.takeTree t' x = true ↔ fmBits m.takeTree t x = true ∨ x ∈ done
  nodes : ∀ x < m'.cache.store.next, m'.IsNode x →
    Accounted m' t' x ∨ x < m.cache.store.next ∧ m.IsNode x ∧ ¬ Accounted m t x
  next_le : m.cache.store.next ≤ m'.cache.store.next
  readable : ∀ x, m'.cache.store.Lacks x → x < m'.cache.store.next →
    m.cache.store.Lacks x ∧ x < m.cache.store.next
  ne_nil : t ≠ .nil → t' ≠ .nil

namespace Swept

variable {t t' t'' : PageTree Bool} {done : List Nat} {id : Nat} {m' m'' : TransactionManager}

theorem refl : Swept m t [] m t where
  bits x := by simp
  nodes x hlt hx := by
    by_cases ha : Accounted m t x
    · exact .inl ha
    · exact .inr ⟨hlt, hx, ha⟩
  next_le := le_rfl
  readable x hx hlt := ⟨hx, hlt⟩
  ne_nil := id

theorem trans (h : Swept m t done m' t') (h' : Swept m' t' [id] m'' t'') :
    Swept m t (done ++ [id]) m'' t'' where
  bits x := by rw [h'.bits, h.bits, List.mem_append, or_assoc]
  nodes x hlt hx := by
    rcases h'.nodes x hlt hx with h1 | ⟨hlt', h1, h2⟩
    · exact .inl h1
    · exact .inr ((h.nodes x hlt' h1).resolve_left h2)
  next_le := h.next_le.trans h'.next_le
  readable x hx hlt := by
    obtain ⟨h1, h2⟩ := h'.readable x hx hlt
    exact h.readable x h1 h2
  ne_nil hne := h'.ne_nil (h.ne_nil hne)

theorem after_looked (h : Swept m' t done m'' t'') (hl : Looked m m') : Swept m t done m'' t'' := by
  obtain ⟨c, hc, rfl⟩ := hl
  have hst : c.store = m.cache.store := hc.2
  refine ⟨h.bits, fun x hlt hx => ?_, ?_, fun x hx hlt => ?_, h.ne_nil⟩
  · have hnodes := h.nodes x hlt hx
    unfold IsNode at hnodes
    change _ ∨ x < c.store.next ∧ (∃ p, c.store.view x = some p ∧ p.isFreeMap = true) ∧ _ at hnodes
    rw [hst] at hnodes
    exact hnodes
  · rw [← hst]
    exact h.next_le
  · have hread := h.readable x hx hlt
    change c.store.Lacks x ∧ x < c.store.next at hread
    rwa [hst] at hread

theorem accounted_of_marks {lo : Nat} {s' : AllocCtx} (hm : Marks lo id m.takeTree t s' t')
    {x : Nat} (hx : Accounted m t x ∨ m.cache.store.next ≤ x ∧ x < s'.store.next) :
    Accounted (m.putTree { s' with hint := min s'.hint id }) t' x := by
  obtain ⟨taken, dead, htk, hcount, hpend⟩ := hm.step.moves
  -- a page that was taken is a node or was given up again
  have htaken : 0 < taken x → Accounted (m.putTree { s' with hint := min s'.hint id }) t' x := by
    intro ht
    have h1 := hcount x
    by_cases hnode : 0 < t'.count fmShape x
    · exact .inl hnode
    · refine .inr (.inr (.inl (List.mem_append_right _ (count_pos.mp ?_))))
      rw [hpend]
      omega
  have hsources := htk.sources x
  change s'.structuralReuse.count x + taken x = m.freemap.structuralReuse.count x +
    between m.cache.store.next s'.store.next x at hsources
  have hspare : 0 < m.freemap.structuralReuse.count x + between m.cache.store.next s'.store.next x →
      Accounted (m.putTree { s' with hint := min s'.hint id }) t' x := by
    intro hpos
    by_cases ht : 0 < taken x
    · exact htaken ht
    · exact .inr (.inl (count_pos.mp (show 0 < s'.structuralReuse.count x by omega)))
  rcases hx with (hx | hx | hx | hx) | hx
  · rcases hm.step.kept x hx with h1 | h1
    · exact .inl h1
    · exact .inr (.inr (.inl (List.mem_append_right _ h1)))
  · have := count_pos.mpr hx
    exact hspare (by omega)
  · exact .inr (.inr (.inl (List.mem_append_left _ hx)))
  · exact .inr (.inr (.inr hx))
  · have := between_of_mem hx.1 hx.2
    exact hspare (by omega)

theorem of_marks {lo : Nat} {s' : AllocCtx} (hwf : m.cache.WF)
    (hm : Marks lo id m.takeTree t s' t') :
    Swept m t [id] (m.putTree { s' with hint := min s'.hint id }) t' := by
  obtain ⟨taken, dead, htk, -, -⟩ := hm.step.moves
  have hwf' : s'.cache.WF := hm.inv.sound.wf
  refine ⟨fun x => ?_, fun x hlt hx => ?_, htk.next_le, fun x ⟨hcold, hview⟩ hlt => ?_,
    fun _ hnil => ?_⟩
  · change fmBits s' t' x = true ↔ _
    rw [hm.bits, List.mem_singleton]
    by_cases hxid : x = id
    · rw [hxid, Function.update_self]
      exact iff_of_true rfl (.inr rfl)
    · rw [Function.update_of_ne hxid, or_iff_left hxid]
  · by_cases ha : Accounted m t x ∨ m.cache.store.next ≤ x ∧ x < s'.store.next
    · exact .inl (accounted_of_marks hm ha)
    · rw [not_or] at ha
      obtain ⟨p, hp, hnode⟩ := hx
      -- the page was not written
      have hlt0 : x < m.cache.store.next := Nat.lt_of_not_le fun hge => ha.2 ⟨hge, hlt⟩
      have hsame : s'.store.view x = m.cache.store.view x := by
        refine htk.frame x ?_ fun hw => ha.1 (.inl hw.2)
        rintro (hbeyond | hreuse)
        · exact absurd hlt0 (Nat.not_lt.mpr hbeyond)
        · exact ha.1 (.inr (.inl hreuse))
      exact .inr ⟨hlt0, ⟨p, hsame.symm.trans hp, hnode⟩, ha.1⟩
  · change x ∉ s'.cache.store.hot at hcold
    change s'.cache.store.view x = none at hview
    have hcold0 : x ∉ m.cache.store.hot := fun hh => hcold (htk.hot_ge hh)
    have hdisk : m.cache.store.disk x = s'.cache.store.disk x := by
      unfold Store.disk
      rw [show s'.cache.store.io = m.cache.store.io from htk.io,
        show s'.cache.store.cipher = m.cache.store.cipher from htk.cipher]
    refine ⟨⟨hcold0, ?_⟩, Nat.lt_of_not_le fun hge => hcold (htk.tail x hge hlt)⟩
    rw [hwf.view_of_cold hcold0, hdisk, ← hwf'.view_of_cold hcold, hview]
  · -- a map with a free page has a node
    have hbit := congrFun hm.bits id
    rw [Function.update_self, hnil] at hbit
    exact absurd hbit (by simp [fmBits, PageTree.content_nil])

end Swept

/-- A lost page is free again. -/
theorem Txn.wp_reclaim {id : Nat} (h : Txn ex o m g) (hnil : m.savepoints = [])
    (hne : g.tree ≠ .nil) (hlost : 0 < g.lost id) :
    wp (markFreeCommittedPath id) m
      (fun _ m' => ∃ g', Txn ex o m' g' ∧ MapOnward False False m g m' g' ∧
        (∀ x, g'.lost x + one id x = g.lost x) ∧ Swept m g.tree [id] m' g'.tree)
      (fun e m' => Exhausted e m'.cache.store ∧ ∃ g', Txn (ex ∧ e.isHard = false) o m' g' ∧
        MapOnward (e.isHard = true) (e.isFatal = true) m g m' g') := by
  have h0 := h.core.tally_eq_zero (x := id) (by omega)
  have hb := h.core.lt_next (x := id) (by omega)
  have hreuse : m.reuse = true := by
    unfold reuse
    rw [hnil]
    rfl
  have hfound : ¬ ex := fun he => by
    have := h.core.exact he id
    omega
  have hk : g.stuck = m.savepoints.length := by
    rw [h.core.stuck_of_nil hnil, hnil]
    rfl
  refine wp_markFreeCommittedPath (wp_mono (wp_markFree h.core.alloc rfl h0 hb.1 hb.2) ?_ ?_)
  · rintro - s' ⟨t', hm⟩
    have hev := (hm.step.evolve_mark hm.bits h0).rehint (min s'.hint id)
    rw [← hreuse] at hev
    have hone : ∀ x, g.lost x - one id x + one id x = g.lost x := by
      intro x
      by_cases hx : id = x
      · subst hx
        rw [one_self]
        omega
      · rw [one_of_ne hx]
        omega
    refine ⟨{ g with tree := t', lost := fun x => g.lost x - one id x }, h.putTree ?_ rfl,
      onward_putTree hnil hev hne rfl rfl rfl, hone, .of_marks h.core.wf hm⟩
    refine h.core.evolve hm.inv hev (fun x hx => ?_) (fun x => ?_)
      (fun x hx => absurd hx (Nat.lt_irrefl 0)) (fun he => absurd he hfound) fun _ => .inl hk
    · obtain rfl := one_pos.mp hx
      exact ⟨hlost, hnil⟩
    · have := hone x
      omega
  · rintro e s' ⟨hcause, junk, t', hu⟩
    have hev := hu.evolve.rehint (min s'.hint id)
    rw [← hreuse] at hev
    refine ⟨hcause, { g with tree := t', lost := fun x => g.lost x + junk x }, h.putTree ?_ rfl,
      onward_putTree hnil hev hne rfl rfl rfl⟩
    exact h.core.evolve (hu.inv.rehint (Nat.min_le_left _ _)) hev
      (fun x hx => absurd hx (Nat.lt_irrefl 0)) (fun x => by omega)
        (fun x hx => absurd hx (Nat.lt_irrefl 0)) (fun he => absurd he.1 hfound)
      fun _ => .inl hk

/-- A node of the free map that nothing leads to. -/
structure Orphan (s : AllocCtx) (t : PageTree Bool) (reachable excluded : List Nat) (id : Nat) :
    Prop where
  unreachable : id ∉ reachable
  kept : id ∉ excluded
  bit : fmBits s t id = false
  node : ∃ p, s.store.view id = some p ∧ p.isFreeMap = true

/-- The scan gave up: memory ran out, or there is room and a page that nothing accounts for does not
open under the key. -/
def ScanFailed (s : Store) (reachable excluded ids : List Nat) (e : ChiselError) : Prop :=
  (e.isCapacity = true ∧ ¬ s.Fits) ∨
    ∃ id ∈ ids, id ∉ reachable ∧ id ∉ excluded ∧ s.Locked id ∧ s.Fits ∧ e = .decryptionFailed id

theorem ScanFailed.cons {s : Store} {reachable excluded rest : List Nat} {e : ChiselError}
    {id : Nat} (h : ScanFailed s reachable excluded rest e) : ScanFailed s reachable excluded
    (id :: rest) e :=
  h.imp_right fun ⟨x, hx, hlocked⟩ => ⟨x, List.mem_cons_of_mem _ hx, hlocked⟩

/-- What the scan of `ids` found. -/
structure OrphanScan (s : AllocCtx) (t : PageTree Bool) (reachable excluded ids l : List Nat) :
    Prop where
  sublist : l.Sublist ids
  orphan : ∀ id ∈ ids, id ∈ l ↔ Orphan s t reachable excluded id
  opens : ∀ id ∈ ids, id ∉ reachable → id ∉ excluded → ¬ s.store.Locked id

section Scanning

variable {lo id : Nat} {s : AllocCtx} {t : PageTree Bool} {reachable excluded rest l : List Nat}
  {c : PageCache}

theorem OrphanScan.skip (h : OrphanScan s t reachable excluded rest l)
    (hno : ¬ Orphan s t reachable excluded id)
    (hopens : id ∉ reachable → id ∉ excluded → ¬ s.store.Locked id) :
    OrphanScan s t reachable excluded (id :: rest) l where
  sublist := h.sublist.cons id
  orphan x hx := by
    by_cases hmem : x ∈ rest
    · exact h.orphan x hmem
    · obtain rfl := (List.mem_cons.mp hx).resolve_right hmem
      exact iff_of_false (fun hl => hmem (h.sublist.subset hl)) hno
  opens x hx := by
    rcases List.mem_cons.mp hx with rfl | hx
    · exact hopens
    · exact h.opens x hx

theorem OrphanScan.take (h : OrphanScan s t reachable excluded rest l)
    (ho : Orphan s t reachable excluded id) (hopens : ¬ s.store.Locked id) :
    OrphanScan s t reachable excluded (id :: rest) (id :: l) where
  sublist := h.sublist.cons_cons id
  orphan x hx := by
    rw [List.mem_cons]
    by_cases hxid : x = id
    · rw [hxid]
      exact iff_of_true (.inl rfl) ho
    · rw [or_iff_right hxid]
      exact h.orphan x ((List.mem_cons.mp hx).resolve_left hxid)
  opens x hx := by
    rcases List.mem_cons.mp hx with rfl | hx
    · exact fun _ _ => hopens
    · exact h.opens x hx

/-- What the scan learns from one page: whether it is a node of a free map. -/
theorem wp_getPage_node (hc : Reads s.cache c) (hlt : id < s.store.next)
    (hend : id ∉ s.store.hot → id < s.store.io.pageCount) :
    wp (getPage id) c
      (fun p c' => Reads s.cache c' ∧ ¬ s.store.Locked id ∧
        ((∃ q, s.store.view id = some q ∧ q.isFreeMap = true) ↔ p.isFreeMap = true))
      (fun e c' => Reads s.cache c' ∧ Unreadable s.store id e ∧
        (e.isCapacity = false → s.store.view id = none ∧ s.store.Fits)) := by
  have hst : c.store = s.store := hc.2
  have hlt' : id < c.nextPageId := by
    change id < c.store.next
    rw [hst]
    exact hlt
  rw [← hst] at hend ⊢
  have hblank : wp (getPage id) c (fun p _ => c.store.view id = none → p = .zero)
    fun _ _ => True := by
    by_cases hv : c.store.view id = none
    · exact wp_mono (wp_getPage_of_blank hc.1 hlt' hv) (fun _ _ h' _ => h'.2) fun _ _ _ => trivial
    · exact wp_mono (wp_getPage hc.1 hlt') (fun _ _ _ h' => absurd h' hv) fun _ _ _ => trivial
  have hroom : wp (getPage id) c (fun _ _ => True) fun e _ =>
      e.isCapacity = false → c.store.Fits := by
    by_cases hfits : c.store.Fits
    · exact wp_mono (wp_getPage hc.1 hlt') (fun _ _ _ => trivial) fun _ _ _ _ => hfits
    · exact wp_mono (wp_getPage_full hc.1 hlt' hfits) (fun _ _ _ => trivial) fun _ _ hcap hno =>
        absurd (hno.symm.trans hcap) Bool.false_ne_true
  refine wp_mono (wp_and (wp_getPage hc.1 hlt')
    (wp_and (wp_getPage_unreadable hc.1 hlt' hend) (wp_and hblank hroom))) ?_ ?_
  · rintro p c' ⟨⟨hwf, hst', hp⟩, hopens, hzero, -⟩
    refine ⟨hc.trans ⟨hwf, hst'⟩, hopens, ?_⟩
    cases hv : c.store.view id with
    | none => simp [hzero hv, Page.isFreeMap]
    | some q => simp [hp q hv]
  · rintro e c' ⟨⟨hwf, hst', hmissed⟩, hcause, -, hfits⟩
    refine ⟨hc.trans ⟨hwf, hst'⟩, hcause, fun hcap => ⟨?_, hfits hcap⟩⟩
    rcases hmissed with ⟨hfull, -⟩ | ⟨-, hnone⟩
    · exact absurd (hcap.symm.trans hfull) nofun
    · exact hnone

theorem wp_findOrphans (hinv : AllocInv lo s t) (hne : t ≠ .nil) (reachable excluded : List Nat)
    {ids : List Nat} (hids : ∀ id ∈ ids, id < s.store.next)
    (hend : ∀ id ∈ ids, id ∉ s.store.hot → id < s.store.io.pageCount) (hc : Reads s.cache c) :
    wp (findOrphans s.tree reachable excluded ids) c
      (fun l c' => Reads s.cache c' ∧ OrphanScan s t reachable excluded ids l)
      (fun e c' => Reads s.cache c' ∧ ScanFailed s.store reachable excluded ids e) := by
  induction ids generalizing c with
  | nil => exact wp_ret ⟨hc, .slnil, nofun, nofun⟩
  | cons id rest ih =>
    have hlt : id < s.store.next := hids id List.mem_cons_self
    have hrest : ∀ c, Reads s.cache c →
        wp (findOrphans s.tree reachable excluded rest) c
          (fun l c' => Reads s.cache c' ∧ OrphanScan s t reachable excluded rest l)
          (fun e c' => Reads s.cache c' ∧ ScanFailed s.store reachable excluded rest e) :=
            fun c hc =>
      ih (fun x hx => hids x (List.mem_cons_of_mem _ hx))
        (fun x hx => hend x (List.mem_cons_of_mem _ hx)) hc
    have hskip : ∀ c, Reads s.cache c → ¬ Orphan s t reachable excluded id →
        (id ∉ reachable → id ∉ excluded → ¬ s.store.Locked id) →
        wp (findOrphans s.tree reachable excluded rest) c
          (fun l c' => Reads s.cache c' ∧ OrphanScan s t reachable excluded (id :: rest) l)
          (fun e c' => Reads s.cache c' ∧
            ScanFailed s.store reachable excluded (id :: rest) e) := by
      intro c hc hno hopens
      refine wp_mono (hrest c hc) ?_ fun _ _ he => ⟨he.1, he.2.cons⟩
      intro l c' ⟨hc', hl⟩
      exact ⟨hc', hl.skip hno hopens⟩
    unfold findOrphans
    refine wp_ite (fun hin => hskip c hc (fun ho => hin.elim ho.unreachable ho.kept)
      fun h1 h2 => absurd hin (not_or.mpr ⟨h1, h2⟩)) fun hnot => ?_
    rw [not_or] at hnot
    rw [wp_bind, wp_attempt]
    refine wp_mono (wp_getPage_node hc hlt (hend id List.mem_cons_self)) ?_ ?_
    · intro p c1 ⟨hc1, hopens, hnode⟩
      -- only a node of the free map is looked up in it
      have hbit : wp (if p.isFreeMap then (fun free => !free) <$> s.tree.isFree id else pure false)
        c1
          (fun b c' => Reads s.cache c' ∧
            (b = true ↔ p.isFreeMap = true ∧ fmBits s t id = false))
          (fun e c' => Reads s.cache c' ∧ e.isCapacity = true ∧ ¬ s.store.Fits) := by
        refine wp_ite (fun hf => ?_) fun hf => wp_ret ⟨hc1, iff_of_false nofun fun h => hf h.1⟩
        have hm : Moves true lo (fun _ => 0) s t { s with cache := c1 } t :=
          .of_store hinv hc1.1 hc1.2 rfl rfl rfl rfl
        rw [wp_map]
        refine wp_mono (wp_isFree hm.inv.rooted hne
          ((Nat.le_of_lt hlt).trans hinv.sound.next_le)) ?_ ?_
        · rintro b c2 ⟨hc2, rfl⟩
          refine ⟨hc1.trans hc2, ?_⟩
          rw [Bool.not_eq_true']
          exact (and_iff_right hf).symm
        · rintro e c2 ⟨h1, h2, h3, h4⟩
          exact ⟨hc1.trans ⟨h1, h2⟩, h3, fun hfits => h4 (by rw [hc1.2]; exact hfits)⟩
      dsimp only
      rw [ite_bind, wp_bind]
      refine wp_mono hbit ?_ fun _ _ he => ⟨he.1, .inl he.2⟩
      intro isOrphan c2 ⟨hc2, hiff⟩
      have horphan : isOrphan = true ↔ Orphan s t reachable excluded id := by
        rw [hiff, ← hnode]
        exact ⟨fun h => ⟨hnot.1, hnot.2, h.2, h.1⟩, fun h => ⟨h.node, h.bit⟩⟩
      cases isOrphan with
      | false =>
        rw [wp_bind]
        refine wp_imp (hskip c2 hc2 (fun ho => absurd (horphan.mpr ho) nofun) fun _ _ => hopens) ?_
        exact fun l c3 hl => wp_ret hl
      | true =>
        rw [wp_bind]
        refine wp_mono (hrest c2 hc2) ?_ fun _ _ he => ⟨he.1, he.2.cons⟩
        intro l c3 ⟨hc3, hl⟩
        exact wp_ret ⟨hc3, hl.take (horphan.mp rfl) hopens⟩
    · intro e c1 ⟨hc1, hcause, hblank⟩
      have hno : e.isCapacity = false → ¬ Orphan s t reachable excluded id := by
        rintro hcap ⟨-, -, -, q, hq, -⟩
        exact absurd (hq.symm.trans (hblank hcap).1) nofun
      dsimp only
      split
      · next heq =>
        obtain rfl := Except.error.inj heq
        refine hskip c1 hc1 (hno rfl) fun _ _ hl => ?_
        rcases hcause with ⟨hcap, -⟩ | ⟨-, he⟩ | ⟨-, he⟩
        · cases hcap
        · cases he
        · cases he
      · next heq =>
        obtain rfl := Except.error.inj heq
        refine hskip c1 hc1 (hno rfl) fun _ _ hl => ?_
        rcases hcause with ⟨hcap, -⟩ | ⟨-, he⟩ | ⟨hopens, -⟩
        · cases hcap
        · cases he
        · exact hopens hl
      · next hne1 hne2 heq =>
        obtain rfl := Except.error.inj heq
        refine wp_fail ⟨hc1, ?_⟩
        rcases hcause with hfull | ⟨hlocked, rfl⟩ | ⟨-, rfl⟩
        · exact .inl hfull
        · exact .inr ⟨id, List.mem_cons_self, hnot.1, hnot.2, hlocked, (hblank rfl).2, rfl⟩
        · exact absurd rfl (hne2 id)
      · next heq => cases heq

end Scanning

/-- A node of a free map that nothing accounts for. -/
structure Stranded (m : TransactionManager) (t : PageTree Bool) (x : Nat) : Prop where
  ge : m.superblockCount ≤ x
  lt : x < m.cache.store.next
  node : m.IsNode x
  unknown : ¬ Accounted m t x
  bit : fmBits m.takeTree t x = false

/-- A stranded page is a lost page. -/
theorem Txn.lost_of_stranded (h : Txn ex o m g) {id : Nat} (hs : Stranded m g.tree id) :
    0 < g.lost id := by
  obtain ⟨p, hp, hfm⟩ := hs.node
  have hone := between_of_mem (h.core.anchored.superblocks ▸ hs.ge) hs.lt
  have hl := h.core.ledger id
  have hcount : g.tree.count fmShape id = 0 := by
    by_contra hne
    exact hs.unknown (.inl (Nat.pos_of_ne_zero hne))
  have hreuse : m.freemap.structuralReuse.count id = 0 :=
    List.count_eq_zero.mpr fun hm => hs.unknown (.inr (.inl hm))
  have hsup : id ∉ m.freemap.structuralSuperseded := fun hm => hs.unknown (.inr (.inr (.inl hm)))
  -- what is not lost is not a node of a free map
  have hplain : g.cur.own id + m.txnPages.recyclable.count id + m.waiting id = 0 := by
    by_contra hne
    have hno : p.isFreeMap = false := by
      by_cases h1 : 0 < m.waiting id
      · exact h.core.dead id h1 hsup p hp
      · exact h.core.held_or_own_plain (by omega) hp
    rw [hno] at hfm
    cases hfm
  have hbit : (fmBits m.takeTree g.tree id).toNat = 0 := by rw [hs.bit]; rfl
  have htally : tally m.takeTree g.tree id = 0 := by
    unfold tally
    change g.tree.count fmShape id + _ + m.freemap.structuralReuse.count id +
      m.txnPages.recyclable.count id + 0 = 0
    omega
  omega

theorem AllocInv.unowned {lo : Nat} {s : AllocCtx} {t : PageTree Bool} (h : AllocInv lo s t) :
    AllocInv lo { s with tree.sessionOwned := ∅ } t := by
  have hok : FmOk lo { s with tree.sessionOwned := ∅ } s.tree.depth t :=
    { h.rooted.ok with sound := { h.rooted.ok.sound with } }
  exact { h with rooted := { h.rooted with ok := hok }, session := fun x hx => by simp at hx }

theorem Txn.wp_reclaimAll (h : Txn ex o m g) (hnil : m.savepoints = []) (hne : g.tree ≠ .nil)
    {orphans : List Nat} (hnodup : orphans.Nodup) (hlost : ∀ id ∈ orphans, 0 < g.lost id) :
    wp (orphans.forM markFreeCommittedPath) m
      (fun _ m' => ∃ g', Txn ex o m' g' ∧ MapOnward False False m g m' g' ∧
        Swept m g.tree orphans m' g'.tree)
      (fun e m' => Exhausted e m'.cache.store ∧ ∃ g', Txn (ex ∧ e.isHard = false) o m' g' ∧
        MapOnward (e.isHard = true) (e.isFatal = true) m g m' g') := by
  refine wp_mono (wp_forM (fun done m' => ∃ g', Txn ex o m' g' ∧ MapOnward False False m g m' g' ∧
      (∀ x, x ∉ done → g'.lost x = g.lost x) ∧ Swept m g.tree done m' g'.tree)
      ⟨g, h, .refl m g, fun _ _ => rfl, .refl⟩ ?_) ?_ fun _ _ he => he
  · rintro done id rest m1 hl ⟨g1, h1, hw1, hsame1, hswept1⟩
    rw [hl] at hnodup hlost
    have hnot : id ∉ done := fun hm =>
      List.disjoint_of_nodup_append hnodup hm List.mem_cons_self
    have hid : 0 < g1.lost id := by
      rw [hsame1 id hnot]
      exact hlost id (List.mem_append_right _ List.mem_cons_self)
    refine wp_mono (h1.wp_reclaim (hw1.savepoints.trans hnil) (hswept1.ne_nil hne) hid) ?_ ?_
    · rintro - m2 ⟨g2, h2, hw2, hsame2, hswept2⟩
      refine ⟨g2, h2, hw1.trans hw2, fun x hx => ?_, hswept1.trans hswept2⟩
      rw [List.mem_append, List.mem_singleton, not_or] at hx
      have h3 := hsame2 x
      rw [one_of_ne (Ne.symm hx.2)] at h3
      rw [← hsame1 x hx.1]
      exact h3
    · rintro e m2 ⟨hcause, g2, h2, hw2⟩
      exact ⟨hcause, g2, h2, hw1.trans hw2⟩
  · rintro - m' ⟨g', h', hw', -, hswept⟩
    exact ⟨g', h', hw', hswept⟩

/-- The page `x` that nothing accounts for does not open under the key. -/
structure Sealed (m : TransactionManager) (t : PageTree Bool) (x : Nat) : Prop where
  ge : m.superblockCount ≤ x
  lt : x < m.cache.store.next
  unknown : ¬ Accounted m t x
  locked : m.cache.store.Locked x

/-- What the sweep did: it marked stranded pages free, and if there is a free map it left none. -/
structure Reclaimed (m : TransactionManager) (t : PageTree Bool) (n : Nat) (m' : TransactionManager)
    (t' : PageTree Bool) (orphans : List Nat) : Prop where
  swept : Swept m t orphans m' t'
  count : n = orphans.length
  nodup : orphans.Nodup
  stranded : ∀ x ∈ orphans, Stranded m t x
  all : m.currentRoots.freemapPage ≠ pageIdNone → ∀ x, Stranded m t x → x ∈ orphans
  opens : m.currentRoots.freemapPage ≠ pageIdNone → ∀ x, ¬ Sealed m t x

/-- Why a sweep fails: in the scan, memory runs out or a page that nothing accounts for does not
open; the marking fails only if the scan came to its end and there is something to mark. -/
def SweepFailed (m : TransactionManager) (t : PageTree Bool) (e : ChiselError)
    (m' : TransactionManager) : Prop :=
  (e.isCapacity = true ∧ ¬ m.cache.store.Fits) ∨
    (∃ x, Sealed m t x ∧ m.cache.store.Fits ∧ e = .decryptionFailed x) ∨
    (Exhausted e m'.cache.store ∧ (∃ x, Stranded m t x) ∧ ∀ x, ¬ Sealed m t x)

theorem Txn.wp_reclaimOrphans (h : Txn ex o m g) (hnil : m.savepoints = []) :
    wp reclaimOrphans m
      (fun n m' => ∃ g', Txn ex o m' g' ∧ MapOnward False False m g m' g' ∧
        ∃ orphans, Reclaimed m g.tree n m' g'.tree orphans)
      (fun e m' => (∃ g', Txn (ex ∧ e.isHard = false) o m' g' ∧
        MapOnward (e.isHard = true) (e.isFatal = true) m g m' g') ∧ SweepFailed m g.tree e m') := by
  unfold reclaimOrphans
  rw [wp_bind, wp_get]
  refine wp_ite (fun hsp => absurd hnil (by simpa using hsp)) fun _ => ?_
  refine wp_ite (fun hroot => wp_ret ⟨g, h, .refl m g, [], .refl, rfl, .nil, nofun,
    fun hne => absurd hroot hne, fun hne => absurd hroot hne⟩) fun hroot => ?_
  have hne : g.tree ≠ .nil := fun hn => hroot (h.core.alloc.rooted.root_nil hn)
  have hinv := h.core.alloc.unowned
  have hlo : m.superblockCount = o.lo := h.core.anchored.superblocks
  rw [wp_bind, wp_withCache, wp_bind]
  refine wp_mono (wp_reachablePages hinv.rooted) ?_ ?_
  swap
  · rintro e c ⟨hwf, hst, hcap, hfull⟩
    have hl : Looked m { m with cache := c } := ⟨c, ⟨hwf, hst⟩, rfl⟩
    exact ⟨⟨g, (h.looked hl).weaken And.left, (h.onward_looked hl).mono False.elim False.elim⟩,
      .inl ⟨hcap, hfull⟩⟩
  rintro reachable c ⟨hc, hreach⟩
  set excluded := m.freemap.structuralReuse ++ m.freemap.structuralSuperseded
    ++ m.freemap.pendingStructuralFrees with hexcluded
  set ids := List.range' m.superblockCount (m.cache.nextPageId - m.superblockCount) with hids
  have hmem : ∀ id, id ∈ ids ↔ m.superblockCount ≤ id ∧ id < m.cache.store.next := by
    intro id
    have hnext : m.cache.store.next = m.cache.nextPageId := rfl
    rw [hids, List.mem_range'_1]
    omega
  have hknown : ∀ id, Accounted m g.tree id ↔ id ∈ reachable ∨ id ∈ excluded := by
    intro id
    rw [hexcluded, List.mem_append, List.mem_append, hreach, or_assoc]
    rfl
  have hend : ∀ id ∈ ids, id ∉ m.cache.store.hot → id < m.cache.store.io.pageCount :=
    fun id hid hcold => Nat.lt_of_not_le fun hle => hcold (h.core.tail id hle ((hmem id).mp hid).2)
  -- what the scan looks for are the stranded pages
  have horphan : ∀ id ∈ ids, Orphan { m.takeTree with tree.sessionOwned := ∅ } g.tree reachable
      excluded id ↔ Stranded m g.tree id := by
    intro id hid
    obtain ⟨hge, hlt⟩ := (hmem id).mp hid
    constructor
    · intro ho
      exact ⟨hge, hlt, ho.node, fun ha => ((hknown id).mp ha).elim ho.unreachable ho.kept, ho.bit⟩
    · intro hs
      exact ⟨fun hr => hs.unknown ((hknown id).mpr (.inl hr)),
        fun he => hs.unknown ((hknown id).mpr (.inr he)), hs.bit, hs.node⟩
  refine wp_mono (wp_findOrphans hinv hne reachable excluded (fun id hid => ((hmem id).mp hid).2)
    hend hc) ?_ ?_
  swap
  · rintro e c' ⟨hc', hcause⟩
    have hl : Looked m { m with cache := c' } := ⟨c', hc', rfl⟩
    refine ⟨⟨g, (h.looked hl).weaken And.left, (h.onward_looked hl).mono False.elim False.elim⟩, ?_⟩
    rcases hcause with hfull | ⟨id, hid, hunreached, hkept, hlocked, hfits, rfl⟩
    · exact .inl hfull
    · exact .inr (.inl ⟨id, ⟨((hmem id).mp hid).1, ((hmem id).mp hid).2,
        fun ha => ((hknown id).mp ha).elim hunreached hkept, hlocked⟩, hfits, rfl⟩)
  rintro orphans c' ⟨hc', hsub, hall, hopens⟩
  have hl : Looked m { m with cache := c' } := ⟨c', hc', rfl⟩
  have hw := h.onward_looked hl
  have hstranded : ∀ id ∈ orphans, Stranded m g.tree id := fun id hid =>
    (horphan id (hsub.subset hid)).mp ((hall id (hsub.subset hid)).mp hid)
  have hlost : ∀ id ∈ orphans, 0 < g.lost id := fun id hid =>
    h.lost_of_stranded (hstranded id hid)
  have hsome : wp (orphans.forM markFreeCommittedPath) { m with cache := c' }
      (fun _ _ => True) (fun _ _ => orphans ≠ []) := by
    cases orphans with
    | nil => exact wp_ret trivial
    | cons id rest =>
      refine wp_mono ((h.looked hl).wp_reclaimAll hnil hne
        (hsub.nodup (List.nodup_range' ..)) hlost) (fun _ _ _ => trivial) fun _ _ _ => nofun
  have hopened : ∀ x, ¬ Sealed m g.tree x := fun x hx =>
    hopens x ((hmem x).mpr ⟨hx.ge, hx.lt⟩) (fun hr => hx.unknown ((hknown x).mpr (.inl hr)))
      (fun he => hx.unknown ((hknown x).mpr (.inr he))) hx.locked
  rw [wp_bind]
  refine wp_mono (wp_and ((h.looked hl).wp_reclaimAll hnil hne
    (hsub.nodup (List.nodup_range' ..)) hlost) hsome) ?_ ?_
  · rintro - m2 ⟨⟨g2, h2, hw2, hswept⟩, -⟩
    refine wp_ret ⟨g2, h2, hw.trans hw2, orphans, hswept.after_looked hl, rfl,
      hsub.nodup (List.nodup_range' ..), hstranded, fun _ x hx => ?_, fun _ => hopened⟩
    have hid : x ∈ ids := (hmem x).mpr ⟨hx.ge, hx.lt⟩
    exact (hall x hid).mpr ((horphan x hid).mpr hx)
  · rintro e m2 ⟨⟨hcause, g2, h2, hw2⟩, hsome⟩
    obtain ⟨x, hx⟩ := List.exists_mem_of_ne_nil orphans hsome
    exact ⟨⟨g2, h2, hw.trans hw2⟩, .inr (.inr ⟨hcause, ⟨x, hstranded x hx⟩, hopened⟩)⟩

theorem goes_reclaimOrphans : Goes reclaimOrphans fun _ => True := by
  intro ex o m g h
  by_cases hnil : m.savepoints = []
  · refine wp_mono (h.wp_reclaimOrphans hnil) ?_ ?_
    · rintro n m' ⟨g', h', hw', -⟩
      exact ⟨trivial, g', h', hw'.toOnward⟩
    · rintro e m' ⟨⟨g', h', hw'⟩, -⟩
      exact ⟨g', h', hw'.toOnward⟩
  · unfold reclaimOrphans
    rw [wp_bind, wp_get]
    refine wp_ite (fun _ => wp_ret ⟨trivial, g, h, .refl m g⟩) fun hsp => ?_
    exact absurd (by simpa using hsp) hnil

end Orphans

/-! ### Defragmentation -/

section Defrag

variable {ex : Prop} {o : Origin} {m : TransactionManager} {g : Ghost}

theorem wp_sparseOf (h : Txn ex o m g) (below : Threshold) (ids : List Nat)
    {c : PageCache} (hc : Reads m.cache c) :
    wp (sparseOf below m.packer.currentLiveSlots ids) c
      (fun l c' => Reads m.cache c' ∧ ∀ x ∈ l, 0 < g.cur.slots x)
      (fun e c' => Reads m.cache c' ∧ e.isCapacity = true ∧ ¬ m.cache.store.Fits) := by
  induction ids generalizing c with
  | nil => exact wp_ret ⟨hc, nofun⟩
  | cons id rest ih =>
    unfold sparseOf
    split
    · exact ih hc
    · exact ih hc
    · next n hn =>
      have hslots : 0 < g.cur.slots id := by
        have hcount := h.core.counts id
        rw [hn] at hcount
        split at hcount
        · cases hcount
        · omega
      have hst : c.store = m.cache.store := hc.2
      have hlt : id < c.nextPageId := by
        change id < c.store.next
        rw [hst]
        exact h.shown.lt id (Version.own_pos_of_slots hslots)
      obtain ⟨slots, hpage⟩ := h.core.cur.data_page hslots
      rw [← hst] at hpage
      rw [wp_bind, wp_map]
      refine wp_mono (wp_getPage_of_view hc.1 hlt hpage) ?_ ?_
      · rintro q c1 ⟨hwf1, hst1, rfl⟩
        rw [wp_bind]
        refine wp_imp (ih (hc.trans ⟨hwf1, hst1⟩)) ?_
        intro sparse c2 ⟨hc2, hl⟩
        refine wp_ret ⟨hc2, fun x hx => ?_⟩
        dsimp only at hx
        split at hx
        · rcases List.mem_cons.mp hx with rfl | hx
          · exact hslots
          · exact hl x hx
        · exact hl x hx
      · rintro e c1 ⟨hwf1, hst1, hcap, hfull⟩
        rw [hst] at hfull
        exact ⟨hc.trans ⟨hwf1, hst1⟩, hcap, hfull⟩

theorem goes_sparseDataPages (threshold : Option Threshold) :
    Goes (sparseDataPages threshold) fun _ => True := by
  refine Goes.guarded ?_
  cases threshold with
  | none => exact goes_pure trivial
  | some below =>
    intro ex o m g h
    rw [wp_bind, wp_get, wp_withCache]
    refine wp_mono (wp_sparseOf h below _ ⟨h.core.wf, rfl⟩) ?_ ?_
    · intro l c ⟨hc, _⟩
      have hl : Looked m { m with cache := c } := ⟨c, hc, rfl⟩
      exact ⟨trivial, g, h.looked hl, (h.onward_looked hl).toOnward⟩
    · intro e c ⟨hc, _⟩
      have hl : Looked m { m with cache := c } := ⟨c, hc, rfl⟩
      exact ⟨g, (h.looked hl).weaken And.left,
        (h.onward_looked hl).toOnward.mono False.elim False.elim⟩

theorem goes_handleLivePageId (hhandle : handle ≤ u64Max) :
    Goes (handleLivePageId handle) fun _ => True := by
  refine Goes.guarded (goes_of_looks fun m v h => ?_)
  rw [wp_bind, wp_get, wp_bind]
  refine wp_mono (h.wp_lookup hhandle) ?_ fun _ _ he => he.1
  rintro entry m' ⟨hl, -⟩
  cases entry with
  | none | some e => exact wp_ret ⟨hl, trivial⟩

theorem goes_handles : Goes handles fun l => ∀ handle ∈ l, handle ≤ u64Max := by
  refine Goes.guarded (goes_of_looks fun m v h => ?_)
  rw [wp_bind, wp_get, wp_bind]
  refine wp_mono h.wp_iterLive ?_ fun _ _ he => he.1
  rintro l m' ⟨hl, rfl⟩
  refine wp_ret ⟨hl, fun handle hm => ?_⟩
  obtain ⟨⟨k, e⟩, hk, rfl⟩ := List.mem_map.mp hm
  exact h.ok.live_le (h.ok.mem_listing.mp hk).1

theorem goes_relocate (sparse : List Nat) (maxValues : Nat) {handles : List Nat}
    (hhandles : ∀ handle ∈ handles, handle ≤ u64Max) (examined : List Nat) (moved : Nat) :
    Goes (relocate sparse maxValues handles examined moved) fun _ => True := by
  induction handles generalizing examined moved with
  | nil => exact goes_pure trivial
  | cons handle rest ih =>
    have hrest := ih fun h hm => hhandles h (List.mem_cons_of_mem _ hm)
    have hhandle := hhandles handle List.mem_cons_self
    unfold relocate
    refine goes_ite (fun _ => goes_pure trivial) fun _ => ?_
    refine (goes_handleLivePageId hhandle).bind fun page _ => ?_
    cases page with
    | none => exact hrest examined moved
    | some id =>
      refine goes_ite (fun _ => ?_) fun _ => hrest examined moved
      refine (goes_readInner hhandle).guarded.bind fun value _ => ?_
      exact (goes_updateInner value hhandle).guarded.bind fun _ _ => hrest _ _

theorem goes_reclaimFreemapOrphans :
    Goes reclaimFreemapOrphans fun _ => True :=
  (goes_requireActive.bind fun _ _ => goes_reclaimOrphans).guarded

theorem goes_defrag (threshold : Option Threshold) (maxValues : Nat) :
    Goes (defrag threshold maxValues) fun _ => True := by
  refine goes_get fun m => goes_ite (fun _ => goes_throw _) fun _ => ?_
  refine goes_ite (fun _ => goes_throw _) fun _ => ?_
  refine goes_ite (fun _ => goes_pure trivial) fun _ => ?_
  refine (goes_sparseDataPages threshold).bind fun sparse _ => ?_
  have hlast : ∀ stats : DefragStats, Goes (do
      let reclaimed ← reclaimFreemapOrphans
      pure { stats with freemapOrphansReclaimed := reclaimed }) fun _ => True := fun stats =>
    goes_reclaimFreemapOrphans.bind fun _ _ => goes_pure trivial
  refine goes_ite (fun _ => (goes_pure (P := fun _ => True) trivial).bind
    fun stats _ => hlast stats) fun _ => ?_
  refine goes_get fun m1 => goes_handles.bind fun hs hle => ?_
  refine (goes_relocate sparse maxValues hle [] 0).bind fun r _ => ?_
  refine goes_get fun m2 => ?_
  exact (goes_pure (P := fun _ => True) trivial).bind fun stats _ => hlast stats

end Defrag

end Chisel
