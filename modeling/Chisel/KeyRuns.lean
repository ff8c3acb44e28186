import Chisel.Reopen

/-! The credentials of an encrypted database over whole runs: which of them open it, and what a key
operation does to that. The table of key slots is what counts; it is in the superblock that
recovery picks, and between two key operations it stays the same. -/

namespace Chisel

open StateError PageCache TransactionManager RadixTree Ledger Device

variable {f : DbFile} {v : Version} {t : PageTree Bool} {steps : List Step}

/-- The key-slot table that recovery finds in the file. -/
def DbFile.header (f : DbFile) : Option CryptoHeader :=
  (winner (validSlots 0 (PageIo.openFile f.image f.trace f.fileStride false).candidates)).bind
    fun w => w.sb.encryption

theorem FileHolds.header_eq {h : Head} (hf : FileHolds h f v t) : f.header = h.header := by
  set io := PageIo.openFile f.image f.trace f.fileStride false
  have hd : Headed h io.image.cell := hf.headed
  obtain ⟨w, hw, -, hsb⟩ := hd.winner hf.slots_le_len
  have hheader : w.sb.encryption = h.header := by
    unfold Head.unit Superblock.serialize Superblock.deserialize at hsb
    dsimp only at hsb
    split at hsb
    · rw [← Option.some.inj hsb]
      split <;> rfl
    · cases hsb
  change (winner (validSlots 0 io.candidates)).bind _ = _
  rw [hw]
  exact hheader

theorem DbFile.header_blank (h : f.image.len = 0) : f.header = none := by
  unfold DbFile.header PageIo.candidates PageIo.openFile
  rw [h]
  rfl

/-! ### One step -/

section Steps

variable {past : Past} {m m' : TransactionManager}

theorem Running.same_header {past' : Past} {m0 : TransactionManager} {lost0 : Nat → Nat}
    {g g' : Ghost} (h : Running past m0 v t lost0 m g)
    (h' : Running past' m0 v t lost0 m' g') : m'.cryptoHeader = m.cryptoHeader :=
  h'.txn.core.anchored.header.trans h.txn.core.anchored.header.symm

theorem Sane.header_after (h : Sane past m) (op : Op) :
    (m.after op).cryptoHeader = m.cryptoHeader ∨
      m.failure op = none ∧ ∃ k : KeyOp, op = k.toOp ∧ Rekeyed k m (m.after op) := by
  cases hp : m.poisoned with
  | true => exact .inl (congrArg cryptoHeader (after_of_poisoned op hp))
  | false =>
    cases h with
    | dead hpo => exact absurd (hp.symm.trans hpo) nofun
    | idle hO =>
      have hstep := hO.step hp op
      generalize m.failure op = failure at hstep ⊢
      generalize m.after op = m' at hstep ⊢
      cases hstep with
      | looked hop hl =>
        obtain ⟨c, -, rfl⟩ := hl
        exact .inl rfl
      | unkeyed hop hu => cases hu <;> exact .inl rfl
      | rekeyed hop hk => exact .inr ⟨rfl, _, hop, hk⟩
      | refused | resized | began => exact .inl rfl
    | running hR =>
      left
      have hstep := hR.step hp op
      generalize m.failure op = failure at hstep
      generalize m.after op = m' at hstep ⊢
      cases hstep with
      | looked hop hl =>
        obtain ⟨c, -, rfl⟩ := hl
        rfl
      | went hop hR' | stranded hop hR' | rewound hop hR' => exact hR.same_header hR'
      | committed hop hc => exact hc.header.trans hR.txn.core.anchored.header.symm
      | halted hop hpo ht hh => exact hh.header
      | refused | saved | released | rolledBack => rfl

theorem Sane.rekeyed (h : Sane past m) {k : KeyOp} (hok : m.failure k.toOp = none) :
    ∃ v t lost, Opened past.exact m v t lost ∧ Rekeyed k m (m.after k.toOp) := by
  have hfail : ∀ {e m'}, perform k.toOp m = .error e m' → False := by
    intro e m' hx
    unfold TransactionManager.failure at hok
    rw [hx] at hok
    cases hok
  cases hp : m.poisoned with
  | true => exact (hfail (refuses_perform k.toOp m hp)).elim
  | false =>
    cases h with
    | dead hpo => exact absurd (hp.symm.trans hpo) nofun
    | running hR =>
      obtain ⟨e, he⟩ : ∃ e, perform k.toOp m = .error e m := by
        cases k <;> exact hR.perform_busy hp rfl rfl
      exact (hfail he).elim
    | @idle v t lost hO =>
      refine ⟨v, t, lost, hO, ?_⟩
      unfold TransactionManager.after
      cases hx : perform k.toOp m with
      | ok r m' => exact (wp_ok hx).mp (hO.wp_keyOp hp k)
      | error e m' => exact (hfail hx).elim

end Steps

/-! ### Runs -/

/-- The key operation that an operation is. -/
def KeyOp.ofOp : Op → Option KeyOp
  | .addKey existing new => some (.add existing new)
  | .rotateKey old new => some (.rotate old new)
  | .removeKey key => some (.remove key)
  | _ => none

@[simp] theorem KeyOp.ofOp_toOp (k : KeyOp) : KeyOp.ofOp k.toOp = some k := by
  cases k <;> rfl

namespace Db

def header : Db → Option CryptoHeader
  | closed f => f.header
  | opened m => m.cryptoHeader

/-- The key operation of a step, if it goes through. -/
def rekeys : Db → Step → Option KeyOp
  | opened m, .op op => (KeyOp.ofOp op).filter fun _ => (m.failure op).isNone
  | _, _ => none

/-- The step is no key operation that takes a slot from the credential. -/
def keeps (key : Key) (db : Db) (s : Step) : Bool :=
  (db.rekeys s).all fun k => k.revokes != some key

/-- The step is no key operation that gives a slot to the credential. -/
def shuns (key : Key) (db : Db) (s : Step) : Bool :=
  (db.rekeys s).all fun k => k.adds != some key

end Db

section Tables

variable {past : Past} {db : Db} {header : CryptoHeader}

theorem DbOk.header_step (hdb : DbOk past db) (hh : db.header = some header) (s : Step) :
    ∃ header', (db.step s).header = some header' ∧
      (header' = header ∨ ∃ k, db.rekeys s = some k ∧ k.edit header = .ok header') := by
  cases hdb with
  | blank hempty => exact absurd (hh.symm.trans (DbFile.header_blank hempty)) nofun
  | @closed f h v t hf =>
    refine ⟨header, ?_, .inl rfl⟩
    have hhead : h.header = some header := hf.header_eq.symm.trans hh
    cases s with
    | «open» options =>
      by_cases hv : options.Valid
      · cases hr : h.refusal options.encryptionKey f.image.len with
        | none =>
          obtain ⟨m, heq, hm⟩ := hf.openDb_ok hv hr
          rw [Db.step_open_ok heq]
          exact (congrArg Head.header hm.head).trans hhead
        | some e =>
          rw [Db.step_open_error (hf.openDb_error hv hr)]
          exact hh
      · rw [Db.step_open_error (openDb_of_not_valid hv f), hf.openFile]
        exact hh
    | op | drop => exact hh
  | opened hs =>
    rename_i m
    cases s with
    | «open» options => exact ⟨header, hh, .inl rfl⟩
    | op op =>
      rcases hs.header_after op with hsame | ⟨hok, k, rfl, hk⟩
      · exact ⟨header, hsame.trans hh, .inl rfl⟩
      · obtain ⟨old, header', c, hold, hedit, -, -, hm'⟩ := hk.edit
        obtain rfl : old = header := Option.some.inj (hold.symm.trans hh)
        refine ⟨header', congrArg cryptoHeader hm', .inr ⟨k, ?_, hedit⟩⟩
        simp [Db.rekeys, hok]
    | drop =>
      obtain ⟨h, v, t, hf, ⟨hheader, -⟩, -⟩ := hs.fileHolds
      exact ⟨header, (hf.header_eq.trans hheader).trans hh, .inl rfl⟩

theorem DbOk.header_run {P : CryptoHeader → Prop} {p : Db → Step → Bool}
    (hP : ∀ db s k header header', p db s = true → db.rekeys s = some k →
      k.edit header = .ok header' → P header → P header')
    (hdb : DbOk past db) (hh : db.header = some header) (h : P header)
    (hp : db.along p steps = true) : ∃ header',
    (db.run steps).header = some header' ∧ P header' := by
  induction steps generalizing past db header with
  | nil => exact ⟨header, hh, h⟩
  | cons s rest ih =>
    rw [Db.along, Bool.and_eq_true] at hp
    obtain ⟨header', hh', hstep⟩ := hdb.header_step hh s
    refine ih (hdb.step s) hh' ?_ hp.2
    rcases hstep with rfl | ⟨k, hk, hedit⟩
    · exact h
    · exact hP db s k header header' hp.1 hk hedit h

end Tables

/-! ### Credentials that stay -/

/-- A table of key slots of a database with this data key. -/
structure KeyTableOk (dek : Dek) (header : CryptoHeader) : Prop where
  length : header.slots.length = keySlotCount
  active : 0 < header.activeCount
  wraps : Wraps (some dek) (some header)

/-- The credential opens the file that the manager leaves. -/
def TransactionManager.OpensWith (m : TransactionManager) (key : Key) : Prop :=
  ∀ options : Options, options.Valid → options.encryptionKey = some key →
    ∃ m', (Db.opened m).run [.drop, .open options] = .opened m'

section Credentials

variable {past : Past} {db : Db} {m m' : TransactionManager} {header header' : CryptoHeader}
  {key : Key} {dek : Dek} {k : KeyOp}

theorem KeyTableOk.edit (h : KeyTableOk dek header) (he : k.edit header = .ok header') :
    KeyTableOk dek header' :=
  ⟨(KeyOp.edit_length he).trans h.length, KeyOp.edit_active he, KeyOp.edit_wraps h.wraps he⟩

theorem createdHeader_ok (key : Key) (dek : Dek) (hh : createdHeader (some key) dek = some header) :
    KeyTableOk dek header := by
  have hw := wraps_createdHeader (some key) dek
  rw [hh] at hw
  obtain rfl := Option.some.inj hh
  exact ⟨rfl, Nat.zero_lt_one, hw⟩

theorem DbOk.keyTable (hdb : DbOk past db) (hh : db.header = some header)
    (h : KeyTableOk dek header) (steps : List Step) :
    ∃ header', (db.run steps).header = some header' ∧ KeyTableOk dek header' :=
  hdb.header_run (fun _ _ _ _ _ _ _ hedit hok => hok.edit hedit) hh h (db.along_true steps)

theorem DbOk.enrolled (hdb : DbOk past db) (hh : db.header = some header)
    (hpos : 0 < header.enrolled key) (hs : db.along (Db.keeps key) steps = true) :
    ∃ header', (db.run steps).header = some header' ∧ 0 < header'.enrolled key := by
  refine hdb.header_run (fun db s k header header' hp hk hedit hpos => ?_) hh hpos hs
  unfold Db.keeps at hp
  rw [hk] at hp
  have hne : k.revokes ≠ some key := by simpa using hp
  have hcount := KeyOp.edit_enrolled hedit key
  rw [if_neg hne] at hcount
  omega

theorem TransactionManager.accepts_iff (hh : m.cryptoHeader = some header) :
    m.accepts (some key) = true ↔ key ≠ [] ∧ 0 < header.enrolled key := by
  rw [← CryptoHeader.unlock_isOk_iff]
  unfold TransactionManager.accepts
  rw [hh]
  dsimp only
  cases header.unlock key with
  | ok r => exact ⟨fun _ => ⟨r, rfl⟩, fun _ => rfl⟩
  | error e => exact ⟨nofun, fun ⟨r, hr⟩ => nomatch hr⟩

theorem Opened.opensWith {ex : Prop} {lost : Nat → Nat}
    (h : Opened ex m v t lost) (hkey : m.accepts (some key) = true) : m.OpensWith key := by
  intro options hv ho
  rw [← ho] at hkey
  obtain ⟨m', hrun, -⟩ := h.reopen hv hkey
  exact ⟨m', hrun⟩

theorem KeyOp.holder_of_revokes {k : KeyOp} (h : k.revokes = some key) : k.holder = key := by
  cases k <;> first | exact Option.some.inj h | cases h

theorem Rekeyed.accepts (hk : Rekeyed k m m') {new : Key} (hadds : k.adds = some new) :
    m'.accepts (some new) = true := by
  obtain ⟨header, header', c, hh, hedit, -, -, rfl⟩ := hk.edit
  obtain ⟨i, dek, free, hu, hfree, -⟩ := KeyOp.edit_ok hedit
  have hcount := KeyOp.edit_enrolled hedit new
  rw [if_pos hadds] at hcount
  refine (accepts_iff rfl).mpr ⟨(hfree new hadds).2, ?_⟩
  by_cases hrev : k.revokes = some new
  · -- the slot that is cleared is not the only one that the credential had
    rw [if_pos hrev] at hcount
    have hold : 0 < header.enrolled new := by
      rw [← KeyOp.holder_of_revokes hrev]
      exact (CryptoHeader.unlock_isOk_iff.mp ⟨_, hu⟩).2
    omega
  · rw [if_neg hrev] at hcount
    omega

theorem KeyOp.refused (hh : m.cryptoHeader = some header) {e : ChiselError}
    (he : k.edit header = .error e) : m.failure k.toOp ≠ none ∧ m.after k.toOp = m := by
  obtain ⟨e', hx⟩ : ∃ e', perform k.toOp m = .error e' m := by
    rw [k.perform_toOp]
    suffices hk : ∃ e', k.run m = .error e' m from hk.imp fun e' he' => map_of_error he'
    rw [k.run_eq, hh]
    cases m.poisoned with
    | true => exact ⟨_, rfl⟩
    | false =>
      dsimp only
      rw [he]
      exact ⟨e, rfl⟩
  unfold TransactionManager.failure TransactionManager.after
  rw [hx]
  exact ⟨nofun, rfl⟩

theorem KeyOp.edit_add_full (hlen : header.slots.length = keySlotCount)
    (hfull : header.activeCount = keySlotCount) (existing new : Key) :
    ∃ e, (KeyOp.add existing new).edit header = .error e := by
  cases he : (KeyOp.add existing new).edit header with
  | error e => exact ⟨e, rfl⟩
  | ok header' =>
    have hcount := KeyOp.edit_activeCount he
    have hle : header'.activeCount ≤ header'.slots.length := by
      rw [CryptoHeader.activeCount_eq]
      exact List.countP_le_length
    rw [KeyOp.edit_length he] at hle
    change header'.activeCount + 0 = header.activeCount + 1 at hcount
    omega

theorem KeyOp.edit_remove_last (hone : header.activeCount = 1) (key : Key) :
    ∃ e, (KeyOp.remove key).edit header = .error e := by
  cases he : (KeyOp.remove key).edit header with
  | error e => exact ⟨e, rfl⟩
  | ok header' =>
    have hcount := KeyOp.edit_activeCount he
    have hpos := KeyOp.edit_active he
    change header'.activeCount + 1 = header.activeCount + 0 at hcount
    omega

theorem created_ok {options : Options} (hcreate : (Db.closed .empty).step (.open options) =
    .opened m) (hkey : options.encryptionKey = some key) :
    key ≠ [] ∧ m.cryptoHeader = createdHeader (some key) options.dek ∧
      DbOk .unknown (.opened m) := by
  by_cases hnew : options.Creates
  · obtain rfl : options.created .empty = m :=
      Db.opened.inj ((Db.step_open_ok (openDb_created rfl hnew)).symm.trans hcreate)
    have hne := hnew.key
    rw [hkey] at hne
    refine ⟨fun hnil => hne (congrArg some hnil), ?_,
      .opened (.idle ((hnew.opened rfl).1.weaken False.elim) nofun
        (Version.clean_of_stray rfl) nofun)⟩
    rw [← hkey]
    rfl
  · obtain ⟨e, io, heq, -⟩ := openDb_refused (f := .empty) rfl hnew
    exact absurd ((Db.step_open_error heq).symm.trans hcreate) nofun

/-- What becomes of the credentials of a database in the course of its sessions. -/
theorem credentials_kept {options : Options} {m0 : TransactionManager} {key0 : Key}
    (hcreate : (Db.closed .empty).step (.open options) = .opened m0)
    (hkey : options.encryptionKey = some key0) {before later : List Step}
    (hm : (Db.opened m0).run before = .opened m) (hm' : (Db.opened m).run later = .opened m')
    (hidle : m'.activeTxn = false) :
    m0.accepts (some key0) = true ∧
      m'.cache.cipher = some options.dek ∧
      (∀ key, m.accepts (some key) = true → (Db.opened m).along (Db.keeps key) later = true →
        m'.OpensWith key) ∧
      (∀ (k : KeyOp) (new : Key), k.adds = some new → m'.failure k.toOp = none →
        (m'.after k.toOp).OpensWith new) ∧
      ∃ header, m'.cryptoHeader = some header ∧ 0 < header.activeCount ∧
        (∀ key dek, .active key dek ∈ header.slots → dek = options.dek) ∧
        (header.activeCount = keySlotCount → ∀ existing new,
          m'.failure (.addKey existing new) ≠ none ∧ m'.after (.addKey existing new) = m') ∧
        (header.activeCount = 1 → ∀ key,
          m'.failure (.removeKey key) ≠ none ∧ m'.after (.removeKey key) = m') := by
  obtain ⟨hne, hh0, hdb0⟩ := created_ok hcreate hkey
  obtain ⟨header0, hheader0⟩ : ∃ header, m0.cryptoHeader = some header := ⟨_, hh0⟩
  have htable0 : KeyTableOk options.dek header0 := createdHeader_ok key0 _ (hh0.symm.trans hheader0)
  have hdb : DbOk .unknown (.opened m) := .opened (hdb0.reaches hm)
  obtain ⟨header, hheader, htable⟩ := hdb0.keyTable hheader0 htable0 before
  rw [hm] at hheader
  obtain ⟨header', hheader', htable'⟩ := hdb.keyTable hheader htable later
  rw [hm'] at hheader'
  have hs := hdb.reaches hm'
  obtain ⟨v, t, lost, hO, -⟩ := hs.opened hidle
  have hwraps : Wraps m'.cache.cipher (some header') := hheader' ▸ hO.headed.wraps
  refine ⟨?_, ?_, fun key hkey hkeeps => ?_, fun k new hadds hok => ?_, header', hheader',
    htable'.active, fun key dek hmem => ?_, fun hfull existing new => ?_, fun hone key => ?_⟩
  · refine (accepts_iff hheader0).mpr ⟨hne, ?_⟩
    rw [hh0] at hheader0
    obtain rfl := Option.some.inj hheader0
    exact List.countP_pos_iff.mpr ⟨.active key0 options.dek, List.mem_cons_self,
      decide_eq_true rfl⟩
  · obtain ⟨s, hmem, hact⟩ := List.countP_pos_iff.mp (header'.activeCount_eq ▸ htable'.active)
    cases s with
    | empty => cases hact
    | active key dek =>
      rw [hwraps.2 header' rfl key dek hmem]
      exact (htable'.wraps.2 header' rfl key dek hmem).symm
  · obtain ⟨hne, hpos⟩ := (accepts_iff hheader).mp hkey
    obtain ⟨header'', hh'', hpos''⟩ := hdb.enrolled hheader hpos hkeeps
    rw [hm'] at hh''
    exact hO.opensWith ((accepts_iff hh'').mpr ⟨hne, hpos''⟩)
  · obtain ⟨v', t', lost', hO', hk⟩ := hs.rekeyed hok
    exact (hk.opened hO').1.opensWith (hk.accepts hadds)
  · exact (Option.some.inj (htable'.wraps.2 header' rfl key dek hmem)).symm
  · obtain ⟨e, he⟩ := KeyOp.edit_add_full htable'.length hfull existing new
    exact KeyOp.refused hheader' he
  · obtain ⟨e, he⟩ := KeyOp.edit_remove_last hone key
    exact KeyOp.refused hheader' he

/-- A credential is replaced, and the database is closed and opened with another one. -/
def rotation : List Step :=
  [.op (.rotateKey [1] [3]), .op .begin, .op .commit, .drop, .open { encryptionKey := some [2] }]

theorem credentials_kept_rotation : ∃ m m' : TransactionManager,
    (Db.opened m).run rotation = .opened m' ∧ m'.OpensWith [2] ∧ m'.cache.cipher = some 7 := by
  have hopen : ((Db.closed .empty).step (.open { encryptionKey := some [1], dek := 7 })).holds
      (fun m0 => ((Db.opened m0).run [.op (.addKey [1] [2])]).holds fun m =>
        ((Db.opened m).run rotation).holds fun m' =>
          decide (m'.activeTxn = false ∧ m.accepts (some [2]) = true ∧
            (Db.opened m).along (Db.keeps [2]) rotation = true)) = true := by decide +kernel
  obtain ⟨m0, hcreate, h0⟩ := Db.of_holds hopen
  obtain ⟨m, hm, h⟩ := Db.of_holds h0
  obtain ⟨m', hm', h'⟩ := Db.of_holds h
  obtain ⟨hidle, hkey, hkeeps⟩ := of_decide_eq_true h'
  obtain ⟨-, hdek, hopens, -⟩ := credentials_kept hcreate rfl hm hm' hidle
  exact ⟨m, m', hm', hopens [2] hkey hkeeps, hdek⟩

end Credentials

/-! ### Revoked credentials -/

def TransactionManager.enrolled (m : TransactionManager) (key : Key) : Nat :=
  m.cryptoHeader.elim 0 fun header => header.enrolled key

section Revocation

variable {past : Past} {db : Db} {header : CryptoHeader} {key : Key} {options : Options}

theorem DbOk.refuses (hdb : DbOk past db) (hh : db.header = some header)
    (hnone : header.enrolled key = 0) (hv : options.Valid)
    (hkey : options.encryptionKey = some key) :
    (openDb options db.file).1 = .error .invalidEncryptionKey := by
  obtain ⟨h, v, t, hf, hheader⟩ : ∃ h v t, FileHolds h db.file v t ∧ h.header = some header := by
    cases hdb with
    | blank hempty => exact absurd (hh.symm.trans (DbFile.header_blank hempty)) nofun
    | closed hf => exact ⟨_, _, _, hf, hf.header_eq.symm.trans hh⟩
    | opened hs =>
      obtain ⟨h, v, t, hf, ⟨hheader, -⟩, -⟩ := hs.fileHolds
      exact ⟨h, v, t, hf, hheader.trans hh⟩
  have hrefusal : h.refusal options.encryptionKey db.file.image.len =
    some .invalidEncryptionKey := by
    unfold Head.refusal Head.gate
    rw [hheader, hkey]
    dsimp only
    rw [CryptoHeader.unlock_error_iff.mpr (.inr hnone)]
    rfl
  rw [hf.openDb_error hv hrefusal]

theorem DbOk.unenrolled (hdb : DbOk past db) (hh : db.header = some header)
    (hnone : header.enrolled key = 0) (hs : db.along (Db.shuns key) steps = true) :
    ∃ header', (db.run steps).header = some header' ∧ header'.enrolled key = 0 := by
  refine hdb.header_run (fun db s k header header' hp hk hedit h0 => ?_) hh hnone hs
  unfold Db.shuns at hp
  rw [hk] at hp
  have hne : k.adds ≠ some key := by simpa using hp
  have hcount := KeyOp.edit_enrolled hedit key
  rw [if_neg hne] at hcount
  omega

theorem Rekeyed.enrolled {k : KeyOp} {m m' : TransactionManager} (hk : Rekeyed k m m')
    (hrev : k.revokes = some key) (hnew : k.adds ≠ some key) :
    key ≠ [] ∧ ∃ header', m'.cryptoHeader = some header' ∧
      header'.enrolled key + 1 = m.enrolled key := by
  obtain ⟨header, header', c, hh, hedit, -, -, rfl⟩ := hk.edit
  obtain ⟨i, dek, free, hu, -⟩ := KeyOp.edit_ok hedit
  rw [KeyOp.holder_of_revokes hrev] at hu
  have hcount := KeyOp.edit_enrolled hedit key
  rw [if_pos hrev, if_neg hnew] at hcount
  refine ⟨(CryptoHeader.unlock_ok hu).1, header', rfl, ?_⟩
  unfold TransactionManager.enrolled
  rw [hh]
  exact hcount

/-- A credential that was revoked no longer opens the database, if it had one slot only. -/
theorem revoked_refused_iff {f : DbFile} (hf : f.Sound) {steps : List Step} {m : TransactionManager}
    (hrun : (Db.closed f).run steps = .opened m) {k : KeyOp} (hrev : k.revokes = some key)
    (hnew : k.adds ≠ some key) (hok : m.failure k.toOp = none) :
    (∀ later, (Db.opened (m.after k.toOp)).along (Db.shuns key) later = true →
      ∀ options : Options, options.Valid → options.encryptionKey = some key →
        (openDb options ((Db.opened (m.after k.toOp)).run later).file).1 =
          .error .invalidEncryptionKey) ↔
      m.enrolled key = 1 := by
  obtain ⟨h₀, v0, t0, hf⟩ := hf
  have hdb : DbOk .unknown (.closed f) := .closed hf False.elim nofun
  obtain ⟨v, t, lost, hO, hk⟩ := (hdb.reaches hrun).rekeyed hok
  obtain ⟨hO', -⟩ := hk.opened hO
  obtain ⟨hne, header', hh', hcount⟩ := hk.enrolled hrev hnew
  constructor
  · intro hall
    by_contra hmany
    have hpos : 0 < header'.enrolled key := by omega
    have hv : ({ encryptionKey := some key } : Options).Valid :=
      ⟨Nat.le_refl 2, (by decide : 2 ≤ 16)⟩
    obtain ⟨m'', heq, -⟩ := hO'.openDb hv ((accepts_iff hh').mpr ⟨hne, hpos⟩)
    have herr := hall [] rfl _ hv rfl
    change (openDb _ (.ofIo (m.after k.toOp).cache.io)).1 = _ at herr
    rw [heq] at herr
    cases herr
  · intro hone later hlater options hv hkey
    have hdb' : DbOk .unknown (.opened (m.after k.toOp)) :=
      .opened (((hdb.reaches hrun).after k.toOp).fade ⟨False.elim, False.elim, False.elim, nofun⟩)
    obtain ⟨header'', hh'', h0⟩ := hdb'.unenrolled hh' (by omega) hlater
    exact (hdb'.run later).refuses hh'' h0 hv hkey

/-- A database with one credential, and a handle on it. -/
def keyedFile : DbFile :=
  ((Db.closed .empty).run [.open { encryptionKey := some [1], dek := 7 }]).file

theorem keyedFile_sound : keyedFile.Sound :=
  (run_ok [.open { encryptionKey := some [1], dek := 7 }]).sound (by decide +kernel)

/-- A second credential is removed. -/
theorem revoked_refused_once :
    ∃ m, (Db.closed keyedFile).run [.open { encryptionKey := some [1] }, .op (.addKey [1] [2])] =
        .opened m ∧
      (openDb { encryptionKey := some [2] } (Db.opened (m.after (.removeKey [2]))).file).1 =
        .error .invalidEncryptionKey := by
  have hopen : ((Db.closed keyedFile).run
      [.open { encryptionKey := some [1] }, .op (.addKey [1] [2])]).holds
      (fun m => decide (m.failure (.removeKey [2]) = none ∧ m.enrolled [2] = 1)) = true := by
    decide +kernel
  obtain ⟨m, hrun, hm⟩ := Db.of_holds hopen
  obtain ⟨hok, hone⟩ := of_decide_eq_true hm
  have hrefused := (revoked_refused_iff keyedFile_sound hrun
    (k := .remove [2]) rfl nofun hok).mpr hone
  exact ⟨m, hrun, hrefused [] rfl { encryptionKey := some [2] } ⟨by decide, by decide⟩ rfl⟩

/-- A credential that was enrolled twice still opens the database after it was removed. -/
theorem revoked_accepted_twice :
    ∃ m, (Db.closed keyedFile).run [.open { encryptionKey := some [1] }, .op (.addKey [1] [1])] =
        .opened m ∧
      m.answer (.removeKey [1]) = .ok .unit ∧
      (openDb { encryptionKey := some [1] } (Db.opened (m.after (.removeKey [1]))).file).1.isOk =
        true := by
  have hopen : ((Db.closed keyedFile).run
      [.open { encryptionKey := some [1] }, .op (.addKey [1] [1])]).holds
      (fun m => decide (m.answer (.removeKey [1]) = .ok .unit ∧
        (openDb { encryptionKey := some [1] } (Db.opened (m.after (.removeKey [1]))).file).1.isOk =
          true)) = true := by
    decide +kernel
  obtain ⟨m, hrun, hm⟩ := Db.of_holds hopen
  exact ⟨m, hrun, of_decide_eq_true hm⟩

end Revocation

end Chisel
