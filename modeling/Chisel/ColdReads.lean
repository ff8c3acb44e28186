import Chisel.Reach
import Chisel.Reopen

/-! The committed pages on disk. Whatever way a page took through memory and spillway, once the
superblock that leads to it is written it is in the file with a checksum that matches, and it stays
so for as long as it is committed. -/

namespace Chisel

open StateError PageCache TransactionManager RadixTree Ledger Device

/-- What a cell of the file holds, whether its checksum matches or not. -/
def rawView (cipher : Option Dek) (cell : Nat → DiskUnit) (x : Nat) : Option Page :=
  (openUnit cipher x (cell x)).toOption.map Buf.page

section Files

variable {cipher : Option Dek} {cell : Nat → DiskUnit} {x : Nat} {p : Page}

theorem openUnit_of_fileView (h : fileView cipher cell x = some p) :
    ∃ buf, openUnit cipher x (cell x) = .ok buf ∧ buf.stamped = true ∧ buf.page = p := by
  unfold fileView at h
  cases hu : openUnit cipher x (cell x) with
  | error e =>
    rw [hu] at h
    cases h
  | ok buf =>
    rw [hu] at h
    change buf.contents = some p at h
    unfold Buf.contents at h
    split at h
    · next hs => exact ⟨buf, rfl, hs, Option.some.inj h⟩
    · cases h

theorem rawView_of_fileView (h : fileView cipher cell x = some p) :
    rawView cipher cell x = some p := by
  obtain ⟨buf, hopen, -, rfl⟩ := openUnit_of_fileView h
  unfold rawView
  rw [hopen]
  rfl

variable {h : Head} {v : Version} {t : PageTree Bool}

theorem OnDisk.page (hd : OnDisk h cell v t) (hx : 0 < v.own x + t.count fmShape x) :
    ∃ p, fileView h.cipher cell x = some p := by
  by_cases hown : 0 < v.own x
  · obtain ⟨p, hp, -⟩ := hd.ok.page hown
    exact ⟨p, hp⟩
  · obtain ⟨k, hk⟩ := hd.map.exists_cell (show 0 < t.count fmShape x by omega)
    unfold fmRead at hk
    obtain ⟨p, hp, -⟩ := Option.bind_eq_some_iff.mp hk
    exact ⟨p, hp⟩

/-- The newest superblock leads to the version, also where no checksum is looked at. -/
theorem OnDisk.span (hd : OnDisk h cell v t) : h.roots.Span (rawView h.cipher cell) v t := by
  have hview : ∀ x, 0 < v.own x + t.count fmShape x →
      rawView h.cipher cell x = fileView h.cipher cell x := by
    intro x hx
    obtain ⟨p, hp⟩ := hd.page hx
    rw [hp, rawView_of_fileView hp]
  have hlt : ∀ x, 0 < v.own x + t.count fmShape x → x ≠ pageIdNone := by
    intro x hx
    have hb := (hd.bounds hx).2
    have ht := hd.total_le
    unfold pageIdNone
    omega
  refine .of_ne_none (hd.ok.frame fun x hx => hview x (by omega)) hd.tied.table hd.tied.index
    (hd.map.frame fun x hx => ?_) ⟨hd.map_nil, hd.map_eq⟩ hlt
  unfold fmRead
  rw [hview x (by omega)]

end Files

section Handles

variable {past : Past} {m : TransactionManager} {x : Nat}

/-- Between two transactions every committed page can be read. -/
theorem Opened.readable {ex : Prop} {v : Version} {t : PageTree Bool} {lost : Nat → Nat}
    (h : Opened ex m v t lost) (hx : 0 < v.own x + t.count fmShape x) :
    x < m.cache.store.next ∧ ∃ p, m.cache.store.view x = some p := by
  refine ⟨(h.toIdle.pages_lt hx).2, ?_⟩
  obtain ⟨p, hp⟩ := h.onDisk.page hx
  refine ⟨p, ?_⟩
  have hcold : x ∉ m.cache.store.hot := by
    rw [h.cold]
    exact Finset.notMem_empty x
  rw [h.wf.view_of_cold hcold, Store.disk_eq h.wf.io_aligned]
  exact hp

/-- The committed state is on disk, and its pages can be read through the cache. -/
theorem Sane.committed (h : Sane past m)
    (halive : m.poisoned = false ∨ m.activeTxn = false) :
    ∃ v t, OnDisk m.head m.cache.io.image.cell v t ∧ m.cache.WF ∧
      ∀ x, 0 < v.own x + t.count fmShape x →
        x < m.cache.store.next ∧ ∃ p, m.cache.store.view x = some p := by
  cases h with
  | idle hO => exact ⟨_, _, hO.onDisk, hO.wf, fun x hx => hO.readable hx⟩
  | running hR =>
    have hdisk := hR.txn.onDisk hR.base
    rw [← hR.txn.head_eq] at hdisk
    refine ⟨_, _, hdisk, hR.txn.core.alloc.sound.wf, fun x hx => ?_⟩
    obtain ⟨hlt, p, hp⟩ := hR.base.readable hx
    -- the transaction has not touched the page
    have hfrozen := hR.txn.core.frozen x hx
    exact ⟨Nat.lt_of_lt_of_le hlt hR.txn.core.next_ge, p, hfrozen.view.trans hp⟩
  | dead hp ha =>
    rcases halive with halive | hidle
    · exact absurd (halive.symm.trans hp) nofun
    · exact absurd (hidle.symm.trans ha) nofun

end Handles

/-- Every page that the committed roots lead to is in the file with a checksum that matches, and
reading it, cold or not, fails only if memory ran out. -/
def TransactionManager.CommittedReadable (m : TransactionManager) : Prop :=
  ∀ x, Reachable (rawView m.cache.cipher m.cache.io.image.cell) m.committedRoots x →
    (∃ buf, m.cache.io.readPageUnit x = .ok (m.cache.io.image.cell x) ∧
      openUnit m.cache.cipher x (m.cache.io.image.cell x) = .ok buf ∧ buf.stamped = true) ∧
    ∀ e c, fetch x m.cache = .error e c → e.isCapacity = true

theorem Sane.committedReadable {past : Past} {m : TransactionManager} (h : Sane past m)
    (halive : m.poisoned = false ∨ m.activeTxn = false) : m.CommittedReadable := by
  intro x hx
  obtain ⟨v, t, hdisk, hwf, hread⟩ := h.committed halive
  have hown := hdisk.span.owned hx
  obtain ⟨hlt, p, hp⟩ := hread x hown
  obtain ⟨q, hq⟩ := hdisk.page hown
  obtain ⟨buf, hopen, hstamped, -⟩ := openUnit_of_fileView hq
  refine ⟨⟨buf, ?_, hopen, hstamped⟩, fun e c herr => ?_⟩
  · -- a cell behind the end of the file is blank and does not open
    have hlen : x < m.cache.io.image.len := by
      by_contra hge
      have hblank := m.cache.io.image.blank_above x (by omega)
      rw [hblank] at hopen
      cases hopen
    have hstride : m.cache.io.stride = m.cache.io.fileStride := hwf.io_aligned
    unfold PageIo.readPageUnit PageIo.pageCount
    rw [if_pos hstride, if_neg (by omega), if_pos (.inl hstride)]
  · obtain ⟨-, -, hmissed⟩ := (wp_error herr).mp (wp_fetch hwf hlt)
    rcases hmissed with ⟨hcap, -⟩ | ⟨-, hnone⟩
    · exact hcap
    · rw [hp] at hnone
      cases hnone

/-- After every commit that succeeds, and from then on in every state in which the handle is not
poisoned, the committed pages can be read cold. -/
theorem committed_pages_stamped {f : DbFile} {steps : List Step} {m : TransactionManager}
    (hf : f.image.len = 0 ∨ f.Sound) (hrun : (Db.closed f).run steps = .opened m) :
    (∀ r, m.answer .commit = .ok r → (m.after .commit).CommittedReadable) ∧
      (m.poisoned = false → m.CommittedReadable) := by
  have hsane := (dbOk_unknown hf).reaches hrun
  refine ⟨fun r hok => ?_, fun halive => hsane.committedReadable (.inl halive)⟩
  obtain ⟨v, t, lost, hO⟩ := (hsane.published rfl hok).opened
  exact (hsane.after .commit).committedReadable (.inr hO.inactive)

/-- A value that is committed. -/
theorem committed_pages_stamped_first : ∃ (m : TransactionManager) (buf : Buf),
    (Db.closed .empty).run [.open {}, .op .begin, .op (.allocate [1])] = .opened m ∧
      (m.after .commit).committedRoots.handleTablePage = 4 ∧
      openUnit none 4 ((m.after .commit).cache.io.image.cell 4) = .ok buf ∧ buf.stamped = true := by
  have hend : ((Db.closed .empty).run [.open {}, .op .begin, .op (.allocate [1])]).holds
      (fun m => (m.answer .commit).isOk && decide ((m.after .commit).cache.cipher = none ∧
        (m.after .commit).committedRoots.handleTablePage = 4)) = true := by decide +kernel
  obtain ⟨m, hm, hp⟩ := Db.of_holds hend
  rw [Bool.and_eq_true, decide_eq_true_iff] at hp
  obtain ⟨hok, hcipher, hroot⟩ := hp
  obtain ⟨hread, -⟩ := committed_pages_stamped (.inl rfl) hm
  cases ha : m.answer .commit with
  | error e =>
    rw [ha] at hok
    cases hok
  | ok r =>
    have hreach : Reachable (rawView (m.after .commit).cache.cipher
        (m.after .commit).cache.io.image.cell) (m.after .commit).committedRoots 4 := by
      refine .table ⟨?_, ?_⟩
      · rw [hroot]
        decide
      · rw [hroot]
        exact .root
    obtain ⟨⟨buf, -, hopen, hstamped⟩, -⟩ := hread r ha 4 hreach
    rw [hcipher] at hopen
    exact ⟨m, buf, hm, hroot, hopen, hstamped⟩

end Chisel
