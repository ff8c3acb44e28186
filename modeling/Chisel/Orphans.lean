import Chisel.KeyFailures
import Chisel.Reach
import Chisel.Reuse

/-! The sweep for orphans: nodes of a free map that no root leads to and that no list of the free
map names, as a crash can leave them behind. The sweep marks them free, so that they can be used
again. -/

namespace Chisel

open StateError PageCache TransactionManager RadixTree Ledger Device

/-! ### Pages that nobody owns -/

section Owners

variable {past : Past} {ex : Prop} {o : Origin} {m m0 : TransactionManager} {g : Ghost}
  {v : Version} {t : PageTree Bool} {lost0 : Nat → Nat} {x : Nat}

theorem Txn.span (h : Txn ex o m g) : m.currentRoots.Span m.cache.store.view g.cur g.tree := by
  have hrooted := h.core.alloc.rooted
  refine .of_ne_none h.core.cur h.tied.table h.tied.index hrooted.ok.rep
    ⟨hrooted.root_nil, hrooted.root_eq⟩ fun x hx => ?_
  have hl := h.core.ledger x
  have hpos : 0 < between o.lo m.cache.store.next x := by
    unfold tally at hl
    omega
  have hlt := (between_pos.mp hpos).2
  have hle := h.core.next_le
  unfold pageIdNone
  omega

/-- The committed roots still lead to the version that the transaction started from. -/
theorem Running.committedSpan (h : Running past m0 v t lost0 m g) :
    m.committedRoots.Span m.cache.store.view v t := by
  have hrooted := h.base.alloc.rooted
  have hview : ∀ x, 0 < v.own x + t.count fmShape x →
      m.cache.store.view x = m0.cache.store.view x := fun x hx => (h.txn.core.frozen x hx).view
  rw [show m.committedRoots = m0.committedRoots from h.txn.core.anchored.committed]
  refine .of_ne_none (h.base.ok.frame fun x hx => hview x (by omega)) h.base.tied.table
    h.base.tied.index (hrooted.ok.rep.frame fun x hx => ?_) ⟨hrooted.root_nil, hrooted.root_eq⟩
    fun x hx => ?_
  · unfold fmRead
    rw [hview x (by omega)]
    rfl
  · have hlt := (h.base.toIdle.pages_lt hx).2
    have hle := h.base.alloc.sound.next_le
    change m0.cache.store.next ≤ u64Max at hle
    unfold pageIdNone
    omega

/-- The lists of pages that the transaction or the free map will use again. -/
def TransactionManager.InStream (m : TransactionManager) (x : Nat) : Prop :=
  x ∈ m.txnPages.recyclable ∨ x ∈ m.freemap.structuralReuse ∨ x ∈ m.freemap.structuralSuperseded ∨
    x ∈ m.freemap.pendingStructuralFrees

/-- A stranded page has no owner at all. -/
theorem Running.unowned_of_stranded (h : Running past m0 v t lost0 m g)
    (hx : Stranded m g.tree x) :
    ¬ Reachable m.cache.store.view m.currentRoots x ∧
      ¬ Reachable m.cache.store.view m.committedRoots x ∧ ¬ m.InStream x := by
  have hlost := h.txn.lost_of_stranded hx
  have hl := h.txn.core.ledger x
  have hone := between_le (m0.origin v t).lo m.cache.store.next x
  unfold tally at hl
  change g.cur.own x + 0 + (g.tree.count fmShape x + _ + m.freemap.structuralReuse.count x +
    m.txnPages.recyclable.count x + 0) + m.waiting x + g.lost x = _ at hl
  refine ⟨fun hr => ?_, fun hr => ?_, ?_⟩
  · have := h.txn.span.owned hr
    omega
  · -- a committed page is in use or waits for the commit
    have := (h.txn.core.frozen x (h.committedSpan.owned hr)).home
    omega
  · rintro (hm | hm)
    · have := count_pos.mpr hm
      omega
    · exact hx.unknown (.inr hm)

/-- Every node of a free map that nothing leads to and that is in no list is free. -/
def TransactionManager.NoOrphans (m : TransactionManager) : Prop :=
  ∀ x, m.superblockCount ≤ x → x < m.cache.nextPageId → m.IsNode x →
    ¬ InMap m.cache.store.view m.currentRoots x → ¬ m.InStream x → m.takeTree.isFree x = true

theorem Txn.noOrphans_iff (h : Txn ex o m g) : m.NoOrphans ↔ ∀ x, ¬ Stranded m g.tree x := by
  have hfree : m.takeTree.isFree = fmBits m.takeTree g.tree := h.core.alloc.isFree_eq
  constructor
  · intro hno x hs
    have hbit := hs.bit
    rw [← hfree, hno x hs.ge hs.lt hs.node (fun hm => hs.unknown
      (.inl (h.span.inMap_iff.mp hm))) ?_] at hbit
    · cases hbit
    · rintro (hm | hm)
      · -- what the transaction may use again was no node
        obtain ⟨p, hp, hnode⟩ := hs.node
        rw [h.core.held_or_own_plain (by have := count_pos.mpr hm; omega) hp] at hnode
        cases hnode
      · exact hs.unknown (.inr hm)
  · intro hno x hge hlt hnode hmap hstream
    by_contra hbit
    rw [hfree, Bool.not_eq_true] at hbit
    refine hno x ⟨hge, hlt, hnode, ?_, hbit⟩
    rintro (hcount | hm)
    · exact hmap (h.span.inMap_iff.mpr hcount)
    · exact hstream (.inr hm)

end Owners

/-! ### One sweep -/

section Sweep

variable {past : Past} {ex : Prop} {o : Origin} {m m' : TransactionManager} {g g' : Ghost}
  {n x : Nat} {orphans : List Nat}

theorem wp_sweep_of_none (hp : m.poisoned = false) (ha : m.activeTxn = true)
    (hroot : m.currentRoots.freemapPage = pageIdNone) :
    wp reclaimFreemapOrphans m (fun n m' => n = 0 ∧ m' = m) (fun _ _ => False) := by
  refine wp_guarded (fun hpo => absurd (hp.symm.trans hpo) nofun) fun _ => ?_
  rw [wp_bind, wp_requireActive ha]
  unfold reclaimOrphans
  rw [wp_bind, wp_get]
  refine wp_ite (fun _ => wp_ret ⟨rfl, rfl⟩) fun _ => ?_
  exact wp_ite (fun _ => wp_ret ⟨rfl, rfl⟩) fun hne => absurd hroot hne

/-- A page that is stranded after the sweep was stranded before, and there was no map to mark it
in. -/
theorem Reclaimed.stranded_before (h : Reclaimed m g.tree n m' g'.tree orphans)
    (hlo : m'.superblockCount = m.superblockCount) (hx : Stranded m' g'.tree x) :
    Stranded m g.tree x ∧ m.currentRoots.freemapPage = pageIdNone := by
  obtain ⟨hlt, hnode, hunknown⟩ := (h.swept.nodes x hx.lt hx.node).resolve_left hx.unknown
  have hbits : ¬ (fmBits m.takeTree g.tree x = true ∨ x ∈ orphans) := by
    rw [← h.swept.bits, hx.bit]
    exact nofun
  rw [not_or, Bool.not_eq_true] at hbits
  have hs : Stranded m g.tree x := ⟨hlo ▸ hx.ge, hlt, hnode, hunknown, hbits.1⟩
  exact ⟨hs, by_contra fun hne => hbits.2 (h.all hne x hs)⟩

theorem Txn.wp_sweep (h : Txn ex o m g) (hsave : m.savepoints = []) :
    wp reclaimFreemapOrphans m
      (fun n m' => ∃ g', Txn ex o m' g' ∧ m'.savepoints = [] ∧ m'.poisoned = m.poisoned ∧
        ∃ orphans, Reclaimed m g.tree n m' g'.tree orphans)
      (fun e _ => e = .poisoned ∧ m.poisoned = true ∨ ∃ m1, SweepFailed m g.tree e m1) := by
  refine wp_guarded (fun hp => .inl ⟨rfl, hp⟩) fun _ => ?_
  rw [wp_bind, wp_requireActive h.core.anchored.active]
  refine wp_mono (h.wp_reclaimOrphans hsave) ?_ ?_
  · intro n m' ⟨g', h', hw, horphans⟩
    exact ⟨g', h', hw.savepoints.trans hsave, hw.poisoned.resolve_left id, horphans⟩
  · intro e m' he
    exact .inr ⟨m', he.2⟩

theorem Sealed.lacks (h : Txn ex o m g) (hx : Sealed m g.tree x) : m.cache.store.Lacks x := by
  obtain ⟨hcold, -, hdisk⟩ := hx.locked
  refine ⟨hcold, ?_⟩
  rw [h.core.wf.view_of_cold hcold, Store.disk, hdisk]
  rfl

/-- After a sweep there is nothing left to mark, or there is no map to mark it in. -/
theorem Txn.wp_sweep_again (h : Txn ex o m g) (h' : Txn ex o m' g') (hsave : m'.savepoints = [])
    (hp : m'.poisoned = false) (hr : Reclaimed m g.tree n m' g'.tree orphans)
    (hroot : m.currentRoots.freemapPage = pageIdNone → m'.currentRoots.freemapPage = pageIdNone) :
    wp reclaimFreemapOrphans m' (fun k _ => k = 0)
      (fun e _ => (e.isCapacity = true ∧ ¬ m'.cache.store.Fits) ∨
        ∃ x, m.superblockCount ≤ x ∧ x < m.cache.store.next ∧ m.cache.store.Lacks x) := by
  have hlo : m'.superblockCount = m.superblockCount :=
    h'.core.anchored.superblocks.trans h.core.anchored.superblocks.symm
  by_cases hnone : m.currentRoots.freemapPage = pageIdNone
  · refine wp_mono (wp_sweep_of_none hp h'.core.anchored.active (hroot hnone)) ?_
      fun _ _ => False.elim
    intro k m'' hk
    exact hk.1
  · have hno : ∀ x, ¬ Stranded m' g'.tree x := fun x hx => hnone (hr.stranded_before hlo hx).2
    refine wp_mono (h'.wp_sweep hsave) ?_ ?_
    · intro k m'' ⟨_, _, _, _, orphans', hr'⟩
      rw [hr'.count, List.length_eq_zero_iff]
      exact List.eq_nil_iff_forall_not_mem.mpr fun x hx => hno x (hr'.stranded x hx)
    · rintro e m'' (⟨-, hpo⟩ | ⟨m1, hfull | ⟨x, hx, -⟩ | ⟨-, ⟨x, hx⟩, -⟩⟩)
      · exact absurd (hp.symm.trans hpo) nofun
      · exact .inl hfull
      · obtain ⟨hlacks, hlt⟩ := hr.swept.readable x (hx.lacks h') hx.lt
        exact .inr ⟨x, hlo ▸ hx.ge, hlt, hlacks⟩
      · exact absurd hx (hno x)

end Sweep

/-- A sweep that returns, in a transaction without savepoints: what it marks free was not reachable,
in no list and not free; what was free stays free; the count says how many pages became free; a
second sweep returns zero. Afterwards no orphan is left, just if there was a free map or no
orphan. -/
theorem orphan_sweep_iff {f : DbFile} (hf : f.image.len = 0 ∨ f.Sound) (steps : List Step)
    {m : TransactionManager} (hrun : (Db.closed f).run steps = .opened m)
    (hsave : m.savepoints = []) {n : Nat} {m' : TransactionManager}
    (hok : reclaimFreemapOrphans m = .ok n m') :
    (∀ x, m.takeTree.isFree x = true → m'.takeTree.isFree x = true) ∧
    (∀ x, m'.takeTree.isFree x = true → m.takeTree.isFree x = false →
      ¬ Reachable m.cache.store.view m.currentRoots x ∧
      ¬ Reachable m.cache.store.view m.committedRoots x ∧ ¬ m.InStream x) ∧
    n = Set.ncard {x | m'.takeTree.isFree x = true ∧ m.takeTree.isFree x = false} ∧
    (∀ k m'', reclaimFreemapOrphans m' = .ok k m'' → k = 0) ∧
    ((∀ x, m.superblockCount ≤ x → x < m.cache.nextPageId → ¬ m.cache.store.Lacks x) →
      m'.cache.store.Fits → ∃ m'', reclaimFreemapOrphans m' = .ok 0 m'') ∧
    (m'.NoOrphans ↔ m.currentRoots.freemapPage ≠ pageIdNone ∨ m.NoOrphans) := by
  have hs : Sane .unknown m := (dbOk_unknown hf).reaches hrun
  have hp : m.poisoned = false := by
    by_contra hpo
    unfold reclaimFreemapOrphans guarded at hok
    rw [if_pos (Bool.eq_true_of_not_eq_false hpo)] at hok
    cases hok
  cases hs with
  | idle hO =>
    rw [reclaimFreemapOrphans, guarded_inactive hp hO.inactive] at hok
    cases hok
  | dead hpo => exact absurd (hp.symm.trans hpo) nofun
  | running hR =>
    rename_i g
    have h := hR.txn
    obtain ⟨g', h', hsave', hp', orphans, hr⟩ := (wp_ok hok).mp (h.wp_sweep hsave)
    have hlo : m'.superblockCount = m.superblockCount :=
      h'.core.anchored.superblocks.trans h.core.anchored.superblocks.symm
    have hstay : m.currentRoots.freemapPage = pageIdNone → n = 0 ∧ m' = m := fun hnone =>
      (wp_ok hok).mp (wp_sweep_of_none hp h.core.anchored.active hnone)
    have hfree : ∀ x, m'.takeTree.isFree x = true ↔ m.takeTree.isFree x = true ∨ x ∈ orphans := by
      rw [h'.core.alloc.isFree_eq, h.core.alloc.isFree_eq]
      exact hr.swept.bits
    have hnew : ∀ x, m'.takeTree.isFree x = true ∧ m.takeTree.isFree x = false ↔ x ∈ orphans := by
      intro x
      rw [hfree]
      constructor
      · rintro ⟨hx | hx, hno⟩
        · exact absurd (hx.symm.trans hno) nofun
        · exact hx
      · intro hx
        refine ⟨.inr hx, ?_⟩
        rw [h.core.alloc.isFree_eq]
        exact (hr.stranded x hx).bit
    have hagain := h.wp_sweep_again h' hsave' (hp'.trans hp) hr fun hnone => by
      rw [(hstay hnone).2]
      exact hnone
    refine ⟨fun x hx => (hfree x).mpr (.inl hx), fun x hx hno => ?_, ?_, ?_, ?_, ?_⟩
    · exact hR.unowned_of_stranded (hr.stranded x ((hnew x).mp ⟨hx, hno⟩))
    · have hset : {x | m'.takeTree.isFree x = true ∧ m.takeTree.isFree x = false} =
          (orphans.toFinset : Set Nat) := by
        ext x
        rw [Finset.mem_coe, List.mem_toFinset]
        exact hnew x
      rw [hset, Set.ncard_coe_finset, List.toFinset_card_of_nodup hr.nodup, hr.count]
    · intro k m'' hk
      exact (wp_ok hk).mp hagain
    · intro hread hfits
      cases hk : reclaimFreemapOrphans m' with
      | ok k m'' =>
        obtain rfl : k = 0 := (wp_ok hk).mp hagain
        exact ⟨m'', rfl⟩
      | error e m'' =>
        rcases (wp_error hk).mp hagain with ⟨-, hfull⟩ | ⟨x, hge, hlt, hlacks⟩
        · exact absurd hfits hfull
        · exact absurd hlacks (hread x hge hlt)
    · constructor
      · intro hno
        by_cases hnone : m.currentRoots.freemapPage = pageIdNone
        · rw [(hstay hnone).2] at hno
          exact .inr hno
        · exact .inl hnone
      · intro hcond
        refine h'.noOrphans_iff.mpr fun x hx => ?_
        obtain ⟨hbefore, hnone⟩ := hr.stranded_before hlo hx
        rcases hcond with hne | hno
        · exact hne hnone
        · exact h.noOrphans_iff.mp hno x hbefore

/-- The second commit replaces the node of the free map, and nobody remembers the old one after the
file was opened again. The sweep finds it. -/
theorem orphan_sweep_iff_reopened :
    ∃ m m', (Db.closed .empty).run [.open {}, .op .begin, .op (.allocate [1]), .op .commit,
    .op .begin,
        .op (.allocate [2]), .op .commit, .drop, .open {}, .op .begin] = .opened m ∧
      reclaimFreemapOrphans m = .ok 1 m' ∧
      Set.ncard {x | m'.takeTree.isFree x = true ∧ m.takeTree.isFree x = false} = 1 ∧
        m'.NoOrphans := by
  have hend : ((Db.closed .empty).run [.open {}, .op .begin, .op (.allocate [1]), .op .commit,
      .op .begin, .op (.allocate [2]), .op .commit, .drop, .open {}, .op .begin]).holds (fun m =>
        m.savepoints.isEmpty && m.currentRoots.freemapPage != pageIdNone &&
        gives reclaimFreemapOrphans (fun n _ => n == 1) m) = true := by decide +kernel
  obtain ⟨m, hm, hp⟩ := Db.of_holds hend
  simp only [Bool.and_eq_true, List.isEmpty_iff, bne_iff_ne] at hp
  obtain ⟨⟨hsave, hroot⟩, hsweep⟩ := hp
  obtain ⟨n, m', hok, hn⟩ := exists_of_gives hsweep
  obtain rfl : n = 1 := eq_of_beq hn
  obtain ⟨-, -, hcount, -, -, hnone⟩ := orphan_sweep_iff (.inl rfl) _ hm hsave hok
  exact ⟨m, m', hm, hok, hcount.symm, hnone.mpr (.inl hroot)⟩

/-! ### A torn first commit -/

def commitEvents (m : TransactionManager) : List (Event DiskUnit) :=
  (m.after .commit).cache.io.trace.drop m.cache.io.trace.length

/-- The power fails while the superblock of the commit is written: the pages are in the file. -/
def withTornHead (m : TransactionManager) : Image DiskUnit :=
  (m.cache.io.image.replay ((commitEvents m).take 6)).write 0 .torn

/-- The seventh event of the commit is the write of the superblock. -/
def writesSuperblock (m : TransactionManager) : Bool :=
  match (commitEvents m)[6]? with
  | some (Event.write i _) => i == 0
  | _ => false

theorem withTornHead_survives {m : TransactionManager} (h : writesSuperblock m = true) :
    m.cache.io.image.Survives DiskUnit.Tears (commitEvents m) (withTornHead m) := by
  unfold writesSuperblock at h
  split at h
  · next i u hu =>
    obtain rfl : i = 0 := eq_of_beq h
    exact .of_tear hu (.inl rfl)
  · cases h

/-- The first commit of a database is torn. The next session commits nothing, which makes the pages
of the torn commit part of the file, and the session after it sweeps: page 5 can be read, it is the
node of the free map that was never committed, and the sweep leaves it, since there is no free
map. -/
theorem sweep_misses_torn_commit : ∃ m m1 m2 : TransactionManager,
    (Db.closed .empty).run [.open {}, .op .begin, .op (.allocate [1])] = .opened m ∧
      m.cache.io.image.Survives DiskUnit.Tears (commitEvents m) (withTornHead m) ∧
      (Db.closed (m.fileWith (withTornHead m))).run
        [.open {}, .op .begin, .op .commit, .drop, .open {}, .op .begin] = .opened m1 ∧
      m1.activeTxn = true ∧ m1.savepoints = [] ∧
      (∀ x, m1.superblockCount ≤ x → x < m1.cache.nextPageId → ∃ p,
        m1.cache.store.view x = some p) ∧
      reclaimFreemapOrphans m1 = .ok 0 m2 ∧ ¬ m2.NoOrphans := by
  have hend : ((Db.closed .empty).run [.open {}, .op .begin, .op (.allocate [1])]).holds (fun m =>
      writesSuperblock m && ((Db.closed (m.fileWith (withTornHead m))).run [.open {}, .op .begin,
        .op .commit, .drop, .open {}, .op .begin]).holds fun m1 =>
          m1.activeTxn && !m1.poisoned && m1.savepoints.isEmpty && m1.superblockCount == 2 &&
          m1.cache.nextPageId == 6 && m1.currentRoots.freemapPage == pageIdNone &&
          (m1.cache.store.view 2).isSome && (m1.cache.store.view 3).isSome &&
          (m1.cache.store.view 4).isSome && (m1.cache.store.view 5).any Page.isFreeMap &&
          m1.txnPages.recyclable.isEmpty && m1.freemap.structuralReuse.isEmpty &&
          m1.freemap.structuralSuperseded.isEmpty && m1.freemap.pendingStructuralFrees.isEmpty &&
          !m1.takeTree.isFree 5) = true := by decide +kernel
  obtain ⟨m, hm, hp⟩ := Db.of_holds hend
  rw [Bool.and_eq_true] at hp
  obtain ⟨m1, hm1, hp1⟩ := Db.of_holds hp.2
  simp only [Bool.and_eq_true, Bool.not_eq_true', List.isEmpty_iff, beq_iff_eq, Option.any_eq_true,
    Option.isSome_iff_exists] at hp1
  obtain ⟨⟨⟨⟨⟨⟨⟨⟨⟨⟨⟨⟨⟨⟨ha, halive⟩, hsave⟩, hslots⟩, hnext⟩, hroot⟩, h2⟩, h3⟩, h4⟩, p, h5, hnode⟩,
    hpool⟩, hreuse⟩, hsuper⟩, hpending⟩, hfree⟩ := hp1
  have hsweep : reclaimFreemapOrphans m1 = .ok 0 m1 := by
    have hwp := wp_sweep_of_none halive ha hroot
    cases hok : reclaimFreemapOrphans m1 with
    | ok n m2 =>
      obtain ⟨rfl, rfl⟩ := (wp_ok hok).mp hwp
      rfl
    | error e m2 => exact ((wp_error hok).mp hwp).elim
  refine ⟨m, m1, m1, hm, withTornHead_survives hp.1, hm1, ha, hsave, fun x hge hlt => ?_,
    hsweep, ?_⟩
  · obtain rfl | rfl | rfl | rfl : x = 2 ∨ x = 3 ∨ x = 4 ∨ x = 5 := by omega
    · exact h2
    · exact h3
    · exact h4
    · exact ⟨p, h5⟩
  · intro hno
    have hfree' := hno 5 (by omega) (by omega) ⟨p, h5, hnode⟩ (fun hmap => hmap.1 hroot) ?_
    · exact absurd (hfree'.symm.trans hfree) nofun
    · unfold InStream
      rw [hpool, hreuse, hsuper, hpending]
      simp

end Chisel
