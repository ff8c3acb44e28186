import Chisel.Runs

/-! Closing a database and opening it again. What the manager keeps in memory only is found again
from the pages, and a superblock that was written is one that recovery reads back. -/

namespace Chisel

open StateError PageCache TransactionManager RadixTree Ledger Device

variable {steps : List Step} {op : Op} {r : Reply}

/-- The credential opens the database of the manager. -/
def TransactionManager.accepts (m : TransactionManager) (key : Option Key) : Bool :=
  match m.cryptoHeader, key with
  | none, none => true
  | some header, some k => (header.unlock k).isOk
  | _, _ => false

section Reopening

variable {ex : Prop} {m m' : TransactionManager} {v : Version} {t : PageTree Bool}
  {lost : Nat → Nat} {options : Options}

theorem gate_of_accepts {key : Option Key} (h : m.accepts key = true) :
    m.head.gate key = .ok () := by
  unfold accepts at h
  unfold Head.gate TransactionManager.head
  cases hh : m.cryptoHeader with
  | none =>
    cases key with
    | none => rfl
    | some k => simp [hh] at h
  | some header =>
    cases key with
    | none => simp [hh] at h
    | some k =>
      cases hu : header.unlock k with
      | ok r => simp only [hu]; rfl
      | error e => simp [hh, hu, Except.isOk, Except.toBool] at h

theorem Opened.answer_read (h : Opened ex m v t lost) (hp : m.poisoned = false) (r : ReadOp) :
    m.answer r.toOp = v.reply r := by
  have hfits : m.cache.store.Fits := by
    unfold Store.Fits
    rw [h.cold]
    exact Nat.zero_le _
  have hwp := h.shown.wp_perform hp r
  unfold answer
  cases hx : perform r.toOp m with
  | ok a m' => exact ((wp_ok hx).mp hwp).2.symm
  | error e m' =>
    obtain ⟨-, he | ⟨-, hfull⟩⟩ := (wp_error hx).mp hwp
    · exact he.symm
    · exact absurd hfits hfull

theorem Opened.revive (h : Opened ex m v t lost) :
    Opened ex { m with poisoned := false } v t lost :=
  h.reseat h.wf rfl rfl rfl rfl rfl rfl false

theorem Opened.openDb (h : Opened ex m v t lost) (hv : options.Valid)
    (hkey : m.accepts options.encryptionKey = true) :
    ∃ m', openDb options (.ofIo m.cache.io) = (.ok m', m'.cache.io) ∧
      Reopened m.head v t ⟨m.cache.io.image, m.cache.io.trace, options.readOnly,
        m.cache.io.fileStride, m.cache.io.fileStride⟩ m' := by
  have hrefusal : m.head.refusal options.encryptionKey m.cache.io.image.len = none := by
    have hle := h.total_le
    rw [h.len] at hle
    unfold Head.refusal
    rw [gate_of_accepts hkey]
    exact if_neg (Nat.not_lt.mpr hle)
  exact h.fileHolds.openDb_ok hv hrefusal

/-- A handle that is dropped between two transactions can be opened again. -/
theorem Opened.reopen (h : Opened ex m v t lost) (hv : options.Valid)
    (hkey : m.accepts options.encryptionKey = true) :
    ∃ m', (Db.opened m).run [.drop, .open options] = .opened m' ∧
      Reopened m.head v t ⟨m.cache.io.image, m.cache.io.trace, options.readOnly,
        m.cache.io.fileStride, m.cache.io.fileStride⟩ m' := by
  obtain ⟨m', heq, hm'⟩ := h.openDb hv hkey
  exact ⟨m', Db.step_open_ok heq, hm'⟩

/-- The manager that is read back has all that the dropped one had. -/
theorem reopen_same {steps : List Step} (hrun : (Db.closed .empty).run steps = .opened m)
    (hcalm : (Db.closed .empty).along Db.calm steps = true) (hidle : m.activeTxn = false)
    (hv : options.Valid) (hkey : m.accepts options.encryptionKey = true) :
    ∃ m', (Db.opened m).run [.drop, .open options] = .opened m' ∧
      m'.committedRoots = m.committedRoots ∧ m'.htDepth = m.htDepth ∧
      m'.outerDepth = m.outerDepth ∧
      (∀ x, m'.packer.committedLiveSlots.lookup x = m.packer.committedLiveSlots.lookup x) ∧
      m'.txnCounter = m.txnCounter ∧ m'.superblockCount = m.superblockCount ∧
      m'.cryptoHeader = m.cryptoHeader ∧ m'.cache.cipher = m.cache.cipher ∧
      ∀ r : ReadOp, m'.answer r.toOp = { m with poisoned := false }.answer r.toOp := by
  have hok := run_ok steps
  rw [hrun, hcalm] at hok
  cases hok with
  | opened hs =>
    cases hs with
    | running hR => exact absurd (hidle.symm.trans hR.active) nofun
    | dead hp ha => exact absurd (hidle.symm.trans ha) nofun
    | @idle v t lost hO hplain =>
      have hstray : v.strayed (fun _ => 0) = v := by
        unfold Version.strayed
        rw [← hplain rfl]
      obtain ⟨m', hopen, hm'⟩ := hO.reopen hv hkey
      obtain ⟨lost', hO'⟩ := hm'.opened
      rw [hstray] at hO'
      have hhead := hm'.head
      refine ⟨m', hopen, congrArg Head.roots hhead, hO'.tied.depth.trans hO.tied.depth.symm,
        hO'.tied.outer.trans hO.tied.outer.symm, fun x => ?_, congrArg Head.counter hhead,
        congrArg Head.slots hhead, congrArg Head.header hhead, congrArg Head.cipher hhead,
        fun r => ?_⟩
      · rw [hO'.counts x, hO.counts x]
      · rw [hO'.answer_read hm'.alive, hO.revive.answer_read rfl]

/-- A session that stores one value. -/
def savedRun : List Step :=
  [.open {}, .op .begin, .op (.allocateTagged [1, 2, 3] 7), .op .commit]

theorem reopen_same_saved :
    ∃ m m', (Db.closed .empty).run savedRun = .opened m ∧
      (Db.opened m).run [.drop, .open {}] = .opened m' ∧
      m'.committedRoots = m.committedRoots ∧ m'.htDepth = m.htDepth := by
  have hopen : ((Db.closed .empty).run savedRun).holds
      (fun m => !m.activeTxn && m.accepts none) = true := by decide +kernel
  obtain ⟨m, hrun, hm⟩ := Db.of_holds hopen
  rw [Bool.and_eq_true, Bool.not_eq_true'] at hm
  have hv : ({} : Options).Valid := ⟨by decide, by decide⟩
  obtain ⟨m', h, hroots, hdepth, -⟩ := reopen_same hrun (by decide +kernel) hm.1 hv hm.2
  exact ⟨m, m', hrun, h, hroots, hdepth⟩

/-! ### Superblocks that are written -/

/-- The operations that write a superblock. -/
def Op.writesSuperblock : Op → Bool
  | .commit | .addKey _ _ | .rotateKey _ _ | .removeKey _ => true
  | _ => false

/-- The operation wrote a superblock, and it is the newest one. -/
structure Published (op : Op) (m m' : TransactionManager) : Prop where
  opened : ∃ v t lost, Opened False m' v t lost
  leads : LeadsAt m'.head m'.cache.io.image.cell (m'.txnCounter % m'.superblockCount)
  counter : m'.txnCounter = m.txnCounter + 1
  next : m.cache.nextPageId ≤ m'.cache.nextPageId
  still : op ≠ .commit → m'.cache.nextPageId = m.cache.nextPageId
  total : m'.committedRoots.totalPages = max m.cache.filePageCount m'.cache.nextPageId

theorem IdleStep.published (hs : IdleStep m op none m') (h : Opened ex m v t lost)
    (hop : op.writesSuperblock = true) : Published op m m' := by
  cases hs with
  | looked hl | resized hl => cases op <;> first | (cases hl; done) | cases hop
  | began hl =>
    subst hl
    cases hop
  | rekeyed hl hk =>
    obtain ⟨hO, hleads⟩ := hk.opened h
    obtain ⟨header, header', c, -, -, -, hst, rfl⟩ := hk.edit
    have hnext : c.nextPageId = m.cache.nextPageId := congrArg Store.next hst
    refine ⟨⟨_, _, _, hO.weaken False.elim⟩, hleads, rfl, hnext.ge, fun _ => hnext, ?_⟩
    change m.cache.io.pageCount = max m.cache.io.pageCount c.nextPageId
    rw [hnext]
    exact (max_eq_left (h.next_le.trans h.total_le)).symm

theorem RunStep.published {past : Past} {m0 : TransactionManager} {lost0 : Nat → Nat} {g : Ghost}
    (hs : RunStep past m0 v t lost0 m g op none m')
    (h : Running past m0 v t lost0 m g) (hop : op.writesSuperblock = true) : Published op m m' := by
  cases hs with
  | committed hl hc =>
    obtain ⟨t', hO⟩ := hc.opened
    have hcounter : m.txnCounter = _ := h.txn.core.anchored.counter
    exact ⟨⟨_, _, _, hO.weaken False.elim⟩, hc.leads, hc.counter.trans (by rw [hcounter]; rfl),
      hc.next, fun hne => absurd hl hne, hc.total⟩
  | went hl | looked hl => cases op <;> first | (cases hl; done) | cases hop
  | saved hl | released hl | rewound hl | rolledBack hl =>
    subst hl
    cases hop

theorem TransactionManager.failure_of_answer (h : m.answer op = .ok r) :
    m.failure op = none := by
  unfold answer at h
  unfold TransactionManager.failure
  cases hx : perform op m with
  | ok a m' => rfl
  | error e m' => simp [hx] at h

theorem Sane.published {past : Past} (h : Sane past m) (hop : op.writesSuperblock = true)
    (hok : m.answer op = .ok r)
    : Published op m (m.after op) := by
  have hfail := failure_of_answer hok
  cases hp : m.poisoned with
  | true =>
    unfold TransactionManager.failure at hfail
    rw [refuses_perform op m hp] at hfail
    cases hfail
  | false =>
    cases h with
    | idle hO => exact (hfail ▸ hO.step hp op).published hO hop
    | running hR => exact (hfail ▸ hR.step hp op).published hR hop
    | dead hpo => exact absurd (hp.symm.trans hpo) nofun

def TransactionManager.superblock (m : TransactionManager) : Superblock :=
  buildSuperblock m.committedRoots m.committedRoots.totalPages m.txnCounter m.superblockCount
    m.cryptoHeader

/-- Whatever the database and the operations, the superblock that a commit or a key operation
wrote is one that passes all checks of recovery, and recovery picks it. -/
theorem superblock_read_back {f : DbFile} (hf : f.Sound) {steps : List Step}
    (hrun : (Db.closed f).run steps = .opened m) {op : Op} (hop : op.writesSuperblock = true)
    {r : Reply} (hok : m.answer op = .ok r) (hm' : m.after op = m') :
    m'.txnCounter = m.txnCounter + 1 ∧
      (∃ w, winner (validSlots 0 (readCandidates m'.cache.io)) = some w ∧
        w.slot = m'.txnCounter % m'.superblockCount ∧
        w.unit = m'.superblock.serialize m'.cache.cipher) ∧
      (Superblock.deserialize (m'.superblock.serialize m'.cache.cipher)).isSome = true ∧
      checkSuperblock m'.superblock = .ok () ∧ newerMinor m'.superblock = false ∧
      m'.superblock.totalPages ≤ m'.cache.filePageCount ∧
      ∀ options : Options, options.Valid → m'.accepts options.encryptionKey = true →
        ∃ m'', (Db.opened m').run [.drop, .open options] = .opened m'' ∧ m''.head = m'.head ∧
          m''.htDepth = m'.htDepth ∧ m''.outerDepth = m'.outerDepth := by
  obtain ⟨h, v0, t0, hf⟩ := hf
  have hdb : DbOk .unknown (.closed f) := .closed hf False.elim nofun
  have hw : Published op m m' := by
    rw [← hm']
    exact (hdb.reaches hrun).published hop hok
  obtain ⟨v, t, lost, hO⟩ := hw.opened
  obtain ⟨w, hwin, hslot, hunit, hsb⟩ := hw.leads.winner hO.headed hO.slots_le_len
  refine ⟨hw.counter, ⟨w, ?_, hslot, hunit⟩, ?_, hO.onDisk.checkSuperblock,
    OnDisk.newerMinor m'.head, hO.total_le, fun options hv hkey => ?_⟩
  · rw [readCandidates_eq hO.wf.io_aligned]
    exact hwin
  · exact Option.isSome_iff_exists.mpr ⟨w.sb, hsb⟩
  · obtain ⟨m'', hrun, hm''⟩ := hO.reopen hv hkey
    obtain ⟨lost'', hO''⟩ := hm''.opened
    exact ⟨m'', hrun, hm''.head, hO''.tied.depth.trans hO.tied.depth.symm,
      hO''.tied.outer.trans hO.tied.outer.symm⟩

/-- The commit of a deletion in a database with a handle table and tags. -/
theorem superblock_read_back_deletion :
    ∃ m : TransactionManager, m.answer .commit = .ok .unit ∧
      m.committedRoots.membershipIndexPage ≠ pageIdNone ∧
      (m.after .commit).txnCounter = m.txnCounter + 1 ∧
      checkSuperblock (m.after .commit).superblock = .ok () ∧
      (m.after .commit).superblock.totalPages ≤ (m.after .commit).cache.filePageCount := by
  have hf : ((Db.closed .empty).run savedRun).file.Sound :=
    (run_ok savedRun).sound (by decide +kernel)
  have hopen : ((Db.closed ((Db.closed .empty).run savedRun).file).run
      [.open {}, .op .begin, .op (.delete 1)]).holds (fun m => decide
        (m.answer .commit = .ok .unit ∧ m.committedRoots.membershipIndexPage ≠ pageIdNone)) =
          true := by
    decide +kernel
  obtain ⟨m, hrun, hm⟩ := Db.of_holds hopen
  obtain ⟨hok, hindex⟩ := of_decide_eq_true hm
  obtain ⟨hcounter, -, -, hcheck, -, hlen, -⟩ := superblock_read_back hf hrun rfl hok rfl
  exact ⟨m, hok, hindex, hcounter, hcheck, hlen⟩

/-! ### The end of the file

The superblock records how long the file is, not how many pages were given out. What a session left
behind the last committed page stays in use from then on. -/

/-- A commit or a key operation that finds nothing behind the pages given out so far records the
allocator's number of pages, and a key operation only then. What is recorded is never less than the
file that was found, and the next session goes on behind it. -/
theorem recorded_total_of_no_tail {f : DbFile} (hf : f.image.len = 0 ∨ f.Sound) {steps : List Step}
    (hrun : (Db.closed f).run steps = .opened m) {op : Op} (hop : op.writesSuperblock = true)
    {r : Reply} (hok : m.answer op = .ok r) (hm' : m.after op = m') :
    (m.cache.filePageCount ≤ m.cache.nextPageId →
        m'.superblock.totalPages = m'.cache.nextPageId) ∧
      (op ≠ .commit → m'.superblock.totalPages = m'.cache.nextPageId →
        m.cache.filePageCount ≤ m.cache.nextPageId) ∧
      m'.superblock.totalPages = max m.cache.filePageCount m'.cache.nextPageId ∧
      m.cache.nextPageId ≤ m'.cache.nextPageId ∧
      ∀ options : Options, options.Valid → m'.accepts options.encryptionKey = true →
        ∃ m'', (Db.opened m').run [.drop, .open options] = .opened m'' ∧
          m''.cache.nextPageId = m'.superblock.totalPages := by
  have hw : Published op m m' := by
    rw [← hm']
    exact ((dbOk_unknown hf).reaches hrun).published hop hok
  have htotal : m'.superblock.totalPages = max m.cache.filePageCount m'.cache.nextPageId := hw.total
  refine ⟨fun hle => ?_, fun hne hsame => ?_, htotal, hw.next, fun options hv hkey => ?_⟩
  · rw [htotal]
    exact max_eq_right (hle.trans hw.next)
  · -- a key operation gives out no page
    rw [htotal, max_eq_right_iff] at hsame
    exact hsame.trans (hw.still hne).le
  · obtain ⟨v, t, lost, hO⟩ := hw.opened
    obtain ⟨m'', hrun, hm''⟩ := hO.reopen hv hkey
    exact ⟨m'', hrun, hm''.next⟩

/-- A session after another one that committed and left nothing behind its pages. -/
theorem recorded_total_of_no_tail_deletion :
    ∃ m : TransactionManager, m.answer .commit = .ok .unit ∧
      (m.after .commit).superblock.totalPages = (m.after .commit).cache.nextPageId := by
  have hend : ((Db.closed .empty).run (savedRun ++ [.drop, .open {}, .op .begin,
    .op (.delete 1)])).holds
      (fun m => decide (m.answer .commit = .ok .unit ∧
        m.cache.filePageCount ≤ m.cache.nextPageId)) = true := by decide +kernel
  obtain ⟨m, hrun, hm⟩ := Db.of_holds hend
  obtain ⟨hok, hle⟩ := of_decide_eq_true hm
  exact ⟨m, hok, (recorded_total_of_no_tail (.inl rfl) hrun rfl hok rfl).1 hle⟩

/-- A commit can do without the condition: the free map that it makes here fills the tail. -/
example : ((Db.closed .empty).run [.open {}, .op .begin, .op (.allocate []), .op (.allocate []),
    .op (.savepoint "a"), .op (.rollbackTo "a"), .drop, .open {}, .op .begin, .op
    (.allocate [])]).holds (fun m => decide (m.cache.nextPageId < m.cache.filePageCount ∧
    m.answer .commit = .ok .unit ∧
      (m.after .commit).superblock.totalPages = (m.after .commit).cache.nextPageId)) = true := by
  decide +kernel

/-- A session that gives out pages and ends without a commit, and one that commits after it. -/
def abandonedRun : List Step :=
  [.open {}, .op .begin, .op (.allocate []), .op (.savepoint "a"), .op (.rollbackTo "a"), .drop,
    .open {}, .op .begin]

theorem abandonedRun_absorbs : ∃ m, (Db.closed .empty).run abandonedRun = .opened m ∧
    m.answer .commit = .ok .unit ∧ m.cache.nextPageId = 2 ∧
    (m.after .commit).cache.nextPageId = 2 ∧ (m.after .commit).superblock.totalPages = 5 := by
  have hend : ((Db.closed .empty).run abandonedRun).holds (fun m => decide
      (m.answer .commit = .ok .unit ∧ m.cache.nextPageId = 2 ∧
        (m.after .commit).cache.nextPageId = 2 ∧ (m.after .commit).superblock.totalPages = 5)) =
      true := by decide +kernel
  obtain ⟨m, hm, hp⟩ := Db.of_holds hend
  exact ⟨m, hm, of_decide_eq_true hp⟩

end Reopening

end Chisel
