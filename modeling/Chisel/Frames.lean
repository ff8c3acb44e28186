import Chisel.Content
import Chisel.Orphans

/-! What a rollback leaves. The pages that the committed roots lead to are not touched before the
commit, so that a rollback only has to forget. -/

namespace Chisel

open StateError PageCache TransactionManager RadixTree Device

/-- The operations belong to the transaction that is open: none of them ends it or breaks the
handle. -/
def TransactionManager.within (m : TransactionManager) : List Op → Bool
  | [] => m.activeTxn && !m.poisoned
  | op :: rest => m.activeTxn && !m.poisoned && (m.after op).within rest

section Within

variable {past : Past} {ex : Prop} {m m0 : TransactionManager} {v : Version} {t : PageTree Bool}
  {lost : Nat → Nat} {g : Ghost} {op : Op} {ops : List Op}

theorem TransactionManager.within_start (h : m.within ops = true) :
    m.activeTxn = true ∧ m.poisoned = false := by
  cases ops <;> simp_all [within]

theorem Running.after (h : Running past m0 v t lost m g) (hp : m.poisoned = false)
    (hactive : (m.after op).activeTxn = true) (hp' : (m.after op).poisoned = false) :
    ∃ past' g', Running past' m0 v t lost (m.after op) g' := by
  have hstep := h.step hp op
  generalize m.after op = m', m.failure op = failure at *
  cases hstep with
  | went _ hR | saved _ _ hR | released _ _ hR | rewound _ hR | stranded _ hR => exact ⟨_, _, hR⟩
  | refused => exact ⟨_, _, h⟩
  | looked _ hl => exact ⟨_, _, h.looked hl⟩
  | rolledBack => cases hactive
  | committed _ hc =>
    obtain ⟨t', hO⟩ := hc.opened
    exact absurd (hactive.symm.trans hO.inactive) nofun
  | halted _ hpo => exact absurd (hp'.symm.trans hpo) nofun

theorem Running.afterAll (h : Running past m0 v t lost m g) (hw : m.within ops = true) :
    (m.afterAll ops).poisoned = false ∧ ∃ past' g', Running past' m0 v t lost
    (m.afterAll ops) g' := by
  induction ops generalizing past m g with
  | nil => exact ⟨(within_start hw).2, _, _, h⟩
  | cons op rest ih =>
    have hrest : (m.after op).within rest = true := by simp_all [within]
    obtain ⟨past', g', h'⟩ := h.after (within_start hw).2 (within_start hrest).1
      (within_start hrest).2
    exact ih h' hrest

theorem Opened.begun (h : Opened ex m v t lost) (hclean : v.Clean)
    (hro : m.cache.io.readOnly = false) :
    Running ⟨ex, False, False, none⟩ m v t lost m.begun ⟨v, t, lost, [], 0⟩ := by
  refine ⟨h, h.toIdle.begun hro, False.elim, fun _ => ⟨⟨hclean, nofun⟩, ?_⟩, False.elim, nofun⟩
  rintro u (rfl | ⟨⟨⟩⟩)
  exact hclean

end Within

/-- A rollback leaves the manager that was there before the transaction, with nothing to write and
nothing to give away. -/
theorem rollback_restores {f : DbFile} (hf : f.image.len = 0 ∨ f.Sound) (steps : List Step)
    {m0 : TransactionManager} (hrun : (Db.closed f).run steps = .opened m0)
    (hidle : m0.activeTxn = false) {ops : List Op} (hw : (m0.after .begin).within ops = true) :
    let m := ((m0.after .begin).afterAll ops).after .rollback
    m = { m0 with
      cache := m.cache, currentRoots := m0.committedRoots, freemap := m0.freemap.begin.rollback
      txnPages := .empty, packer := m0.packer.begin, savepoints := [], txnFreedPages := [] } ∧
    m.cache.store.hot = ∅ ∧ m.cache.io.pageCount = m0.committedRoots.totalPages ∧
    m.record = m0.record ∧ ∀ x, Reachable m0.cache.store.view m0.committedRoots x →
      m.cache.store.view x = m0.cache.store.view x := by
  obtain ⟨hactive, hp1⟩ := within_start hw
  have hp : m0.poisoned = false := by
    by_contra hpo
    rw [after_of_poisoned _ (Bool.eq_true_of_not_eq_false hpo), hidle] at hactive
    cases hactive
  cases (dbOk_unknown hf).reaches hrun with
  | running hR => exact absurd (hidle.symm.trans hR.active) nofun
  | dead hpo => exact absurd (hp.symm.trans hpo) nofun
  | @idle v t lost hO _ hclean =>
    have hbegin : m0.cache.io.readOnly = false ∧ m0.after .begin = m0.begun ∨
      m0.after .begin = m0 :=
      of_wp_perform (P := fun _ m' => m0.cache.io.readOnly = false ∧ m' = m0.begun ∨ m' = m0)
        (wp_mono (hO.wp_begin hp) (fun _ _ h => .inl h) fun _ _ h => .inr h)
    rcases hbegin with ⟨hro, hbegun⟩ | hsame
    rotate_left
    · rw [hsame, hidle] at hactive
      cases hactive
    rw [hbegun] at hw ⊢
    have hR := hO.begun hclean hro
    obtain ⟨hpm, past, g, hR'⟩ := hR.afterAll hw
    set m := m0.begun.afterAll ops
    have hroll := hR'.wp_rollback hpm
    cases hx : perform .rollback m with
    | error e m' => exact ((wp_error hx).mp hroll).elim
    | ok r m' =>
      obtain ⟨c, hwf, hst, rfl, hO'⟩ := (wp_ok hx).mp hroll
      rw [show m.after .rollback = m.rolledBack v c by simp only [TransactionManager.after, hx]]
      have a := hR'.txn.core.anchored
      have htotal : m.committedRoots = m0.committedRoots := a.committed
      refine ⟨?_, hO'.cold, ?_, hO'.shown.record_eq.trans hO.shown.record_eq.symm, fun x hx => ?_⟩
      · have hpacker : m.packer.rollback = m0.packer.begin := by
          unfold SlotPacker.rollback SlotPacker.begin
          rw [a.liveSlots]
          rfl
        have hmap : m.freemap.rollback = m0.freemap.begin.rollback := by
          unfold FreemapRecycle.rollback
          rw [a.hintAtBegin, a.pendingFrees]
          rfl
        unfold TransactionManager.rolledBack
        rw [htotal, hpacker, hmap, hpm, a.counter, a.superblocks, a.header, hidle, hp,
          ← hO.tied.depth, ← hO.tied.outer]
        rfl
      · change c.store.io.pageCount = _
        rw [hst, pageCount_cut _
          (show m.cache.store.settled.io.Aligned from hR'.txn.core.wf.io_aligned), htotal]
      · have hpos := hR.committedSpan.owned hx
        have hlt := (hO.toIdle.pages_lt hpos).2
        change c.store.view x = _
        rw [hst]
        change (if x < m.committedRoots.totalPages then m.cache.store.disk x else none) = _
        rw [if_pos (htotal ▸ Nat.lt_of_lt_of_le hlt hO.next_le), hR'.txn.disk_committed hpos]

def oneValue : List Step := [.open {}, .op .begin, .op (.allocate [1]), .op .commit]

theorem rollback_restores_delete : ∃ m, (Db.closed .empty).run oneValue = .opened m ∧
    ((m.after .begin).after (.delete 1)).record 1 = none ∧
    (((m.after .begin).after (.delete 1)).after .rollback).record 1 = some ([1], 0, 0) := by
  have hend : ((Db.closed .empty).run oneValue).holds (fun m => !m.activeTxn &&
      (m.after .begin).within [.delete 1] && m.record 1 = some ([1], 0, 0) &&
      ((m.after .begin).after (.delete 1)).record 1 = none) = true := by decide +kernel
  obtain ⟨m, hm, hp⟩ := Db.of_holds hend
  simp only [Bool.and_eq_true, Bool.not_eq_true', decide_eq_true_eq] at hp
  obtain ⟨⟨⟨hidle, hw⟩, hrecord⟩, hgone⟩ := hp
  have h := rollback_restores (.inl rfl) _ hm hidle hw
  exact ⟨m, hm, hgone, (congrFun h.2.2.2.1 1).trans hrecord⟩

end Chisel
