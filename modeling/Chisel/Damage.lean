import Chisel.Hard
import Chisel.Opening
import Chisel.Reopen

/-! Opening a damaged file. Torn superblocks are passed over, whichever they are: recovery finds the
distance of the units from any slot that validates, and takes the newest of these. A file that lost
power while it was created is opened only if it got all its units. -/

namespace Chisel

open StateError PageCache TransactionManager RadixTree Ledger Device

/-! ### The choice of a superblock -/

/-- Some of the first `n` units were torn. -/
def Damaged (n : Nat) (image image' : Image DiskUnit) : Prop :=
  ∀ i, image'.cell i = image.cell i ∨ i < n ∧ DiskUnit.Tears (image.cell i) (image'.cell i)

/-- The slot validates, and no other one of the first `n` has a higher number. -/
structure Newest (n : Nat) (cell : Nat → DiskUnit) (w : Candidate) : Prop where
  lt : w.slot < n
  unit : w.unit = cell w.slot
  valid : Superblock.deserialize w.unit = some w.sb
  highest : ∀ i < n, ∀ sb, Superblock.deserialize (cell i) = some sb →
    sb.txnCounter ≤ w.sb.txnCounter

section Choosing

variable {n : Nat} {encrypted : Bool} {image image' : Image DiskUnit} {c : PageCache}
  {key : Option Key} {w : Candidate} {sb : Superblock} {cipher : Option Dek} {i : Nat}

theorem DiskUnit.Tears.not_super {u u' : DiskUnit} (h : u.Tears u') (sb : Superblock)
    (s : Option Dek) : u' ≠ .super sb s := by
  rcases h with rfl | ⟨table, rfl⟩ <;> exact nofun

theorem Slotted.damaged (hs : Slotted n encrypted image.cell) (hd : Damaged n image image') :
    Slotted n encrypted image'.cell := by
  refine ⟨hs.le_max, fun i hi sb s hc => ?_, fun i sb s hc => ?_⟩
  · rcases hd i with heq | ⟨hlt, -⟩
    · exact hs.page i hi sb s (heq.symm.trans hc)
    · omega
  · rcases hd i with heq | ⟨-, htear⟩
    · exact hs.kind i sb s (heq.symm.trans hc)
    · exact absurd hc (htear.not_super sb s)

theorem validSlots_eq_nil {units : List DiskUnit}
    (h : ∀ u ∈ units, Superblock.deserialize u = none) : validSlots i units = [] := by
  rw [List.eq_nil_iff_forall_not_mem]
  intro x hx
  obtain ⟨j, hj, -, hd⟩ := mem_validSlots.mp hx
  rw [h x.unit (List.mem_of_getElem? hj)] at hd
  cases hd

theorem readPageUnit_zero (hpos : 0 < c.io.image.len)
    (hstride : c.io.fileStride = if encrypted then encPageSize else pageSize)
    (hio : c.io.stride = pageSize) : c.io.readPageUnit 0 = .ok (c.io.image.cell 0) := by
  have hcipher : c.io.fileStride = strideOf (if encrypted then some 0 else none) := by
    rw [hstride]
    cases encrypted <;> rfl
  have hcount := PageIo.pageCount_pos hpos hcipher hio
  unfold PageIo.readPageUnit
  rw [if_neg (by omega), if_pos (.inr rfl)]

theorem Slotted.openExisting (hs : Slotted n encrypted c.io.image.cell)
    (hsb : Superblock.deserialize (c.io.image.cell i) = some sb)
    (hstride : c.io.fileStride = if encrypted then encPageSize else pageSize)
    (hio : c.io.stride = pageSize) (key : Option Key) :
    ∃ w, Newest n c.io.image.cell w ∧ TransactionManager.openExisting key c =
      openFrom key w { c with io := { c.io with stride := c.io.fileStride } } := by
  have hlen := lt_len_of_deserialize hsb
  have hmax := hs.le_max
  have hcell : ∀ j sb', Superblock.deserialize (c.io.image.cell j) = some sb' →
      c.io.candidates[j]? = some (c.io.image.cell j) := by
    intro j sb' hj
    have hlt := (hs.deserialize hj).1
    have hin := lt_len_of_deserialize hj
    rw [getElem?_candidates, if_pos]
    unfold maxSuperblocks
    omega
  have hmem : ∀ j sb', Superblock.deserialize (c.io.image.cell j) = some sb' →
      ⟨j, sb', c.io.image.cell j⟩ ∈ validSlots 0 c.io.candidates := fun j sb' hj =>
    mem_validSlots.mpr ⟨j, hcell j sb' hj, (Nat.zero_add j).symm, hj⟩
  obtain ⟨w, hw⟩ : ∃ w, winner (validSlots 0 c.io.candidates) = some w := by
    rw [← Option.isSome_iff_exists, Option.isSome_iff_ne_none, ne_eq, winner_eq_none_iff]
    exact List.ne_nil_of_mem (hmem i sb hsb)
  obtain ⟨j, hj, hslot, hvalid⟩ := mem_validSlots.mp (winner_mem hw)
  rw [Nat.zero_add] at hslot
  have hunit : w.unit = c.io.image.cell w.slot := by
    rw [getElem?_candidates] at hj
    split at hj
    · rw [hslot]
      exact (Option.some.inj hj).symm
    · cases hj
  have hlt : w.slot < n := (hs.deserialize (hunit ▸ hvalid)).1
  refine ⟨w, ⟨hlt, hunit, hvalid, fun k _ sb' hk => winner_newest hw _ (hmem k sb' hk)⟩, ?_⟩
  have hprobe := hs.probeStride hsb hstride hio
  have hread := readPageUnit_zero (Nat.zero_lt_of_lt hlen) hstride hio
  rw [openExisting_eq hread, hprobe]
  dsimp only
  rw [hw]

theorem Slotted.openExisting_none (hs : Slotted n encrypted c.io.image.cell)
    (hpos : 0 < c.io.image.len) (hnone : ∀ i < n, Superblock.deserialize (c.io.image.cell i) = none)
    (hstride : c.io.fileStride = if encrypted then encPageSize else pageSize)
    (hio : c.io.stride = pageSize) (key : Option Key) :
    ∃ c', TransactionManager.openExisting key c = .error .corruptSuperblock c' := by
  have hall : ∀ i, Superblock.deserialize (c.io.image.cell i) = none := by
    intro i
    cases hd : Superblock.deserialize (c.io.image.cell i) with
    | none => rfl
    | some sb => exact absurd (hd.symm.trans (hnone i (hs.deserialize hd).1)) nofun
  obtain ⟨io', hcand, himage⟩ := probeStride_candidates c.io (c.io.image.cell 0)
  have hnil : validSlots 0 (TransactionManager.probeStride c.io (c.io.image.cell 0)).2 = [] := by
    refine validSlots_eq_nil fun u hu => ?_
    rw [hcand] at hu
    rcases deserialize_readCandidates hu with ⟨i, rfl⟩ | rfl
    · rw [himage]
      exact hall i
    · rfl
  have hread := readPageUnit_zero hpos hstride hio
  rw [openExisting_eq hread, hnil]
  exact ⟨_, rfl⟩

theorem unlockFrom_not_corrupt {k : Key} {j : Nat} {slots : List KeySlot} {e : ChiselError}
    (h : CryptoHeader.unlockFrom k j slots = .error e) : e ≠ .corruptSuperblock := by
  induction slots generalizing j with
  | nil =>
    obtain rfl := Except.error.inj h
    exact nofun
  | cons s rest ih =>
    cases s with
    | empty => exact ih h
    | active k' dek =>
      unfold CryptoHeader.unlockFrom at h
      split at h
      · cases h
      · exact ih h

theorem unlockSuperblock_cases {r : Except ChiselError (Superblock × Option Dek)}
    (h : unlockSuperblock w key = r) :
    (w.sb.encryption = none ∧ r = .ok (w.sb, none)) ∨
    (∃ dek sb, Superblock.decryptBody dek w.unit = some sb ∧ r = .ok (sb, some dek)) ∨
    ∃ e, e ≠ .corruptSuperblock ∧ r = .error e := by
  subst h
  unfold unlockSuperblock
  cases he : w.sb.encryption with
  | none =>
    cases key with
    | none => exact .inl ⟨rfl, rfl⟩
    | some k => exact .inr (.inr ⟨.encryptionNotSupported, nofun, rfl⟩)
  | some header =>
    cases key with
    | none => exact .inr (.inr ⟨.noEncryptionKey, nofun, rfl⟩)
    | some k =>
      dsimp only
      cases hk : header.unlock k with
      | error e => exact .inr (.inr ⟨e, unlockFrom_not_corrupt hk, rfl⟩)
      | ok r =>
        simp only [bind, Except.bind]
        cases hd : Superblock.decryptBody r.2 w.unit with
        | none => exact .inr (.inr ⟨.decryptionFailed w.slot, nofun, rfl⟩)
        | some sb => exact .inr (.inl ⟨r.2, sb, hd, rfl⟩)

/-- The key gate lets through what the slot holds. -/
theorem unlockSuperblock_ok (hvalid : Superblock.deserialize w.unit = some w.sb)
    (h : unlockSuperblock w key = .ok (sb, cipher)) : ∃ sealedBy, w.unit = .super sb sealedBy := by
  rcases unlockSuperblock_cases h with ⟨he, heq⟩ | ⟨dek, sb1, hd, heq⟩ | ⟨e, -, heq⟩
  · obtain ⟨rfl, -⟩ := Prod.mk.inj (Except.ok.inj heq)
    cases hu : w.unit with
    | super sb' sealedBy =>
      rw [hu] at hvalid
      simp only [Superblock.deserialize, Option.ite_none_right_eq_some, Option.some.injEq] at hvalid
      cases henc : sb'.encryption with
      | none =>
        rw [henc] at hvalid
        have hsame : sb' = w.sb := hvalid.2
        exact ⟨sealedBy, by rw [hsame]⟩
      | some header =>
        rw [henc] at hvalid
        rw [← hvalid.2] at he
        cases he
    | _ =>
      rw [hu] at hvalid
      cases hvalid
  · obtain ⟨rfl, -⟩ := Prod.mk.inj (Except.ok.inj heq)
    cases hu : w.unit with
    | super sb' sealedBy =>
      rw [hu] at hd
      cases sealedBy with
      | none => cases hd
      | some s =>
        rw [Superblock.decryptBody, Option.ite_none_right_eq_some] at hd
        exact ⟨some s, by rw [Option.some.inj hd.2]⟩
    | _ =>
      rw [hu] at hd
      cases hd
  · cases heq

theorem checkSuperblock_not_corrupt : checkSuperblock sb ≠ .error .corruptSuperblock := by
  unfold checkSuperblock
  dsimp only
  split_ifs <;> exact nofun

/-- Once a slot was chosen, the file is not refused for want of one. -/
theorem openFrom_not_corrupt {c' : PageCache} :
    openFrom key w c ≠ .error .corruptSuperblock c' := by
  intro h
  have hwp : wp (openFrom key w) c _ (Rejected (fun e _ _ => e.isHard = true) key w c) :=
    wp_openFrom (fun _ _ => True) _
  generalize he : ChiselError.corruptSuperblock = e at h
  cases (wp_error h).mp hwp with
  | unlock hu =>
    rcases unlockSuperblock_cases hu with ⟨-, heq⟩ | ⟨_, _, -, heq⟩ | ⟨e', hne, heq⟩
    · cases heq
    · cases heq
    · exact hne (he.trans (Except.error.inj heq)).symm
  | check _ hc =>
    subst he
    exact checkSuperblock_not_corrupt hc
  | short => cases he
  | scan _ hs =>
    subst he
    cases hs

end Choosing

section Surviving

variable {m : TransactionManager} {past : Past} {f : DbFile} {steps : List Step}
  {image : Image DiskUnit} {c : PageCache}

theorem Sane.slotted (h : Sane past m) :
    Slotted m.superblockCount m.cryptoHeader.isSome m.cache.io.image.cell ∧
      m.cache.io.fileStride = if m.cryptoHeader.isSome then encPageSize else pageSize := by
  obtain ⟨hd, v, t, hf, ⟨hheader, hslots⟩, -⟩ := h.fileHolds
  rw [← hheader, ← hslots]
  refine ⟨hf.headed.slotted, hf.stride.trans ?_⟩
  rw [hf.headed.wraps.1]
  rfl

/-- Whichever slots of a file are torn, recovery reads it at the right distance and with the right
number of slots, from the newest slot that validates. It finds no superblock only where none of the
slots validates. The slot that is taken may still be refused, by its key or because the file is
shorter than its `total_pages`. -/
theorem open_takes_newest (hf : f.image.len = 0 ∨ f.Sound)
    (hrun : (Db.closed f).run steps = .opened m)
    (hdamage : Damaged m.superblockCount m.cache.io.image image) (hlen : 0 < image.len)
    {trace : List (Event DiskUnit)} {readOnly : Bool}
    (hc : c.io = PageIo.openFile image trace m.cache.io.fileStride readOnly) (key : Option Key) :
    m.cache.io.fileStride = (if m.cryptoHeader.isSome then encPageSize else pageSize) ∧
      ((∃ i < m.superblockCount, (Superblock.deserialize (image.cell i)).isSome) →
        ∃ w, Newest m.superblockCount image.cell w ∧
          openExisting key c =
            openFrom key w { c with io := { c.io with stride := m.cache.io.fileStride } } ∧
          ∀ m' c', openExisting key c = .ok m' c' →
            m'.superblockCount = m.superblockCount ∧ m'.txnCounter = w.sb.txnCounter) ∧
      ((∃ c', openExisting key c = .error .corruptSuperblock c') ↔
        ∀ i < m.superblockCount, Superblock.deserialize (image.cell i) = none) := by
  obtain ⟨hslotted, hstride⟩ := ((dbOk_unknown hf).reaches hrun).slotted
  have hs := hslotted.damaged hdamage
  have himage : c.io.image = image := by rw [hc]; rfl
  have hfile : c.io.fileStride = m.cache.io.fileStride := by
    rw [hc]
    exact if_neg (Nat.ne_of_gt hlen)
  have hio : c.io.stride = pageSize := by rw [hc]; rfl
  rw [← himage] at hs hlen ⊢
  have hfound : ∀ {i sb}, Superblock.deserialize (c.io.image.cell i) = some sb →
      ∃ w, Newest m.superblockCount c.io.image.cell w ∧ openExisting key c =
        openFrom key w { c with io := { c.io with stride := m.cache.io.fileStride } } := by
    intro i sb hsb
    obtain ⟨w, hw, heq⟩ := hs.openExisting hsb (hfile.trans hstride) hio key
    rw [hfile] at heq
    exact ⟨w, hw, heq⟩
  refine ⟨hstride, ?_, ?_, fun hnone => ?_⟩
  · rintro ⟨i, -, hsome⟩
    obtain ⟨sb, hsb⟩ := Option.isSome_iff_exists.mp hsome
    obtain ⟨w, hw, heq⟩ := hfound hsb
    refine ⟨w, hw, heq, fun m' c' hok => ?_⟩
    rw [heq] at hok
    obtain ⟨-, hadopted⟩ := (wp_ok hok).mp (wp_openFrom (fun _ _ => True)
      fun e _ _ => e.isHard = true)
    cases hadopted with
    | mk hunlock =>
      obtain ⟨sealedBy, hunit⟩ := unlockSuperblock_ok hw.valid hunlock
      refine ⟨(hs.kind w.slot _ sealedBy (hw.unit.symm.trans hunit)).2, ?_⟩
      obtain ⟨a, ha⟩ := recordOf_of_deserialize hw.valid
      rw [hunit] at ha
      exact (recordOf_super ha).symm
  · rintro ⟨c', herr⟩ i -
    cases hd : Superblock.deserialize (c.io.image.cell i) with
    | none => rfl
    | some sb =>
      obtain ⟨w, -, heq⟩ := hfound hd
      exact absurd (heq.symm.trans herr) openFrom_not_corrupt
  · exact hs.openExisting_none hlen hnone (hfile.trans hstride) hio key

/-- A new database whose first slot is torn. -/
theorem open_takes_newest_second : ∃ (m : TransactionManager) (c : PageCache) (w : Candidate),
    (Db.closed .empty).run [.open {}] = .opened m ∧ c.io.image.cell 0 = .torn ∧
      Newest 2 c.io.image.cell w ∧ ¬ ∃ c', openExisting none c = .error .corruptSuperblock c' := by
  have hopen : ((Db.closed .empty).run [.open {}]).holds (fun m => decide (m.superblockCount = 2 ∧
      ((Superblock.deserialize ((m.cache.io.image.write 0 .torn).cell 1)).isSome = true))) =
        true := by
    decide +kernel
  obtain ⟨m, hm, hp⟩ := Db.of_holds hopen
  obtain ⟨hn, hvalid⟩ := of_decide_eq_true hp
  set image := m.cache.io.image.write 0 .torn
  have hdamage : Damaged m.superblockCount m.cache.io.image image := by
    intro i
    by_cases hi : i = 0
    · subst hi
      exact .inr ⟨by omega, .inl (Image.write_cell_self ..)⟩
    · exact .inl (Image.write_cell_ne _ _ hi)
  set c := PageCache.new (PageIo.openFile image [] m.cache.io.fileStride false) 0 0 .lruTail
  obtain ⟨-, hfound, hnone⟩ := open_takes_newest (c := c) (.inl rfl) hm hdamage
    (Nat.lt_of_lt_of_le Nat.zero_lt_one (Nat.le_max_right ..)) rfl none
  obtain ⟨w, hw, -⟩ := hfound ⟨1, by omega, hvalid⟩
  rw [hn] at hw
  refine ⟨m, c, w, hm, Image.write_cell_self .., hw, fun herr => ?_⟩
  rw [hnone.mp herr 1 (by omega)] at hvalid
  cases hvalid

end Surviving

/-! ### Creation

`create_new` writes all slots and only then waits for the device, and what the slots record already
counts all of them. -/

section Creation

variable {n i : Nat} {header : Option CryptoHeader} {cipher : Option Dek} {options : Options}
  {f : DbFile} {m : TransactionManager} {image : Image DiskUnit} {es : List (Event DiskUnit)}

theorem created_survives (hempty : f.image.len = 0)
    (hs : f.image.Survives DiskUnit.Tears (createdWrites n header cipher ++ [.sync]) image) :
    (∀ i < n, image.cell i = (createdHead n header cipher i).unit ∨ (image.cell i).Dud) ∧
      (∀ i, n ≤ i → image.cell i = .blank) ∧ image.len ≤ n := by
  obtain ⟨es, rfl, hes⟩ := hs.events
  have hold : ∀ i, f.image.cell i = .blank := fun i => f.image.blank_above i (by omega)
  have hwrite : ∀ i u, .write i u ∈ createdWrites n header cipher ++ [Event.sync] →
      i < n ∧ u = (createdHead n header cipher i).unit := by
    intro i u hu
    rcases List.mem_append.mp hu with hu | hu
    · obtain ⟨j, hj, heq⟩ := List.mem_map.mp hu
      cases heq
      exact ⟨List.mem_range.mp hj, rfl⟩
    · cases List.mem_singleton.mp hu
  have hleft : ∀ i u, .write i u ∈ es →
      i < n ∧ (u = (createdHead n header cipher i).unit ∨ u.Dud) := by
    intro i u hu
    rcases hes _ hu with hu | ⟨j, w, u', heq, hw, htear⟩
    · exact ⟨(hwrite i u hu).1, .inl (hwrite i u hu).2⟩
    · cases heq
      refine ⟨(hwrite i w hw).1, .inr ?_⟩
      rcases htear with rfl | ⟨table, rfl⟩
      · exact .torn
      · exact .stale
  have hcut : ∀ k, .setLen k ∉ es := by
    intro k hk
    rcases hes _ hk with hk | ⟨_, _, _, heq, -⟩
    · rcases List.mem_append.mp hk with hk | hk
      · obtain ⟨j, -, heq⟩ := List.mem_map.mp hk
        cases heq
      · cases List.mem_singleton.mp hk
    · cases heq
  have hcell := Image.replay_cell (fun e he k heq => hcut k (heq ▸ he)) f.image
  refine ⟨fun i _ => ?_, fun i hi => ?_, ?_⟩
  · rcases hcell i with h | h
    · rw [h, hold]
      exact .inr .blank
    · exact (hleft i _ h).2
  · rcases hcell i with h | h
    · rw [h, hold]
    · have := (hleft i _ h).1
      omega
  · refine Image.replay_len_le (fun e he => ?_) f.image (by omega)
    cases e with
    | write i u => exact (hleft i u he).1
    | setLen k => exact absurd he (hcut k)
    | sync => trivial

theorem createdHead_valid (hn : 2 ≤ n) (hn' : n ≤ 16) (hi : i < n) :
    (Superblock.deserialize (createdHead n header cipher i).unit).isSome := by
  have hmax : n - 1 - i ≤ maxTxnCounter := (show n - 1 - i ≤ 16 by omega).trans (by decide)
  rw [← recordOf_isSome_iff, Head.recordOf_unit hn hn' hmax]
  rfl

theorem createdHead_super {u : DiskUnit} {sb : Superblock} {s : Option Dek}
    (hu : u = (createdHead n header cipher i).unit ∨ u.Dud) (hsb : u = .super sb s) :
    sb = (createdHead n header cipher i).superblock := by
  rcases hu with rfl | hdud
  · exact (DiskUnit.super.inj hsb).1.symm
  · subst hsb
    cases hdud

theorem slotted_created (hn' : n ≤ 16)
    (hslot : ∀ i < n, image.cell i = (createdHead n header cipher i).unit ∨ (image.cell i).Dud)
    (hpage : ∀ i, n ≤ i → image.cell i = .blank) : Slotted n header.isSome image.cell := by
  refine ⟨hn', fun i hi sb s hc => ?_, fun i sb s hc => ?_⟩
  · cases (hpage i hi).symm.trans hc
  · have hi : i < n := Nat.lt_of_not_le fun hle => by cases (hpage i hle).symm.trans hc
    rw [createdHead_super (hslot i hi) hc]
    exact ⟨rfl, rfl⟩

theorem onDisk_created (hn : 2 ≤ n) (hn' : n ≤ 16) (hw : Wraps cipher header)
    (hslot : ∀ i < n, image.cell i = (createdHead n header cipher i).unit ∨ (image.cell i).Dud)
    (hpage : ∀ i, n ≤ i → image.cell i = .blank)
    (hvalid : ∃ i < n, (Superblock.deserialize (image.cell i)).isSome) :
    ∃ p, OnDisk (createdHead n header cipher p) image.cell Version.empty .nil := by
  classical
  -- the first slot that validates has the highest number
  set p := Nat.find hvalid with hp
  obtain ⟨hlt, hsome⟩ := Nat.find_spec hvalid
  have hdud : ∀ i, (image.cell i).Dud → Superblock.deserialize (image.cell i) = none := by
    intro i hd
    generalize image.cell i = u at hd
    cases hd <;> rfl
  have hlead : image.cell p = (createdHead n header cipher p).unit := by
    rcases hslot p hlt with h | h
    · exact h
    · rw [hdud p h] at hsome
      cases hsome
  have hfirst : ∀ i < n, p ≤ i ∧ image.cell i = (createdHead n header cipher i).unit ∨
      (image.cell i).Dud := by
    intro i hi
    rcases hslot i hi with h | h
    · refine .inl ⟨Nat.le_of_not_lt fun hlt' => Nat.find_min hvalid hlt' ⟨hi, ?_⟩, h⟩
      rw [h]
      exact createdHead_valid hn hn' hi
    · exact .inr h
  refine ⟨p, (headed_created hn hn' hw hlt hlead hfirst hpage).1, Version.ok_empty _, ?_, trivial,
    Nat.zero_le _, fun _ => rfl, fun hne => absurd rfl hne, le_rfl, hn'.trans (by decide),
    fun x => ?_⟩
  · exact ⟨⟨fun _ => rfl, fun hne => absurd rfl hne⟩,
      ⟨fun _ => rfl, fun hne => absurd rfl hne⟩, rfl, rfl, nofun, show 1 ≤ maxNextHandle by decide⟩
  · rw [Version.own_empty, PageTree.content_nil]
    exact Nat.zero_le _

theorem Options.Creates.gate (h : options.Creates) (p : Nat) :
    (createdHead n (createdHeader options.encryptionKey options.dek) cipher p).gate
      options.encryptionKey = .ok () := by
  have hkey := h.key
  unfold Head.gate
  cases hk : options.encryptionKey with
  | none => rfl
  | some k =>
    have hne : k ≠ [] := fun hnil => hkey (hk.trans (congrArg some hnil))
    simp [createdHead, createdHeader, CryptoHeader.unlock, CryptoHeader.unlockFrom, keySlotCount,
      List.replicate, hne]

def OpensEmpty (options : Options) (f : DbFile) : Prop :=
  ∃ m, (Db.closed f).step (.open options) = .opened m ∧
    m.committedRoots = createdRoots options.superblockCount ∧ m.answer .handles = .ok (.handles [])

theorem Opened.opensEmpty {ex : Prop} {t : PageTree Bool} {lost : Nat → Nat}
    (hO : Opened ex m (Version.empty.strayed fun _ => 0) t lost) (hp : m.poisoned = false)
    (hstep : (Db.closed f).step (.open options) = .opened m)
    (hroots : m.committedRoots = createdRoots options.superblockCount) : OpensEmpty options f := by
  refine ⟨m, hstep, hroots, (hO.answer_read hp .handles).trans ?_⟩
  change Except.ok (Reply.handles ((∅ : Finset Nat).sort (· ≤ ·))) = _
  rw [Finset.sort_empty]

/-- After a power failure during creation the file opens as an empty database if nothing of it is
there, or if it has all its units and one of the slots validates; otherwise it is refused. -/
theorem creation_crash_iff {io : PageIo} (hempty : f.image.len = 0)
    (hcreate : openDb options f = (.ok m, io)) (hes : m.cache.io.trace = f.trace ++ es)
    (hs : f.image.Survives DiskUnit.Tears es image) (trace : List (Event DiskUnit)) :
    OpensEmpty options ⟨image, trace, m.cache.io.fileStride⟩ ↔
      image.len = 0 ∨ options.superblockCount ≤ image.len ∧
        ∃ i < options.superblockCount, (Superblock.deserialize (image.cell i)).isSome := by
  obtain ⟨hnew, rfl⟩ := openDb_empty hempty hcreate
  obtain ⟨hn, hn'⟩ : 2 ≤ options.superblockCount ∧ options.superblockCount ≤ 16 := hnew.valid
  obtain ⟨hO, -⟩ := hnew.opened hempty
  rw [(options.created_events f).2] at hes
  obtain rfl := List.append_cancel_left hes
  obtain ⟨hslot, hpage, hlen⟩ := created_survives hempty hs
  have hw : Wraps options.createdCipher (createdHeader options.encryptionKey options.dek) :=
    wraps_createdHeader options.encryptionKey options.dek
  have hstride : (options.created f).cache.io.fileStride = strideOf options.createdCipher :=
    hO.stride
  set g : DbFile := ⟨image, trace, (options.created f).cache.io.fileStride⟩
  rcases Nat.eq_zero_or_pos image.len with hzero | hpos
  · -- a second creation
    refine iff_of_true ?_ (.inl hzero)
    obtain ⟨hO', -⟩ := hnew.opened (f := g) hzero
    exact hO'.opensEmpty rfl (Db.step_open_ok (openDb_created hzero hnew)) rfl
  constructor
  · rintro ⟨m, hopen, -⟩
    have hslotted := slotted_created hn' hslot hpage
    have hfile : (freshCache options g).io.fileStride =
        if (createdHeader options.encryptionKey options.dek).isSome then encPageSize
        else pageSize := by
      change (if image.len = 0 then pageSize else (options.created f).cache.io.fileStride) = _
      rw [if_neg (by omega), hstride, strideOf, hw.1]
    obtain ⟨c, hok⟩ : ∃ c, openExisting options.encryptionKey (freshCache options g) = .ok m c := by
      simp only [Db.step, openDb_eq_openExisting (f := g) hpos hstride hnew.valid] at hopen
      cases hx : openExisting options.encryptionKey (freshCache options g) with
      | ok m' c =>
        rw [hx] at hopen
        exact ⟨c, by rw [Db.opened.inj hopen]⟩
      | error e c =>
        rw [hx] at hopen
        cases hopen
    by_cases hvalid : ∃ i < options.superblockCount, (Superblock.deserialize (image.cell i)).isSome
    · refine .inr ⟨?_, hvalid⟩
      obtain ⟨i, -, hsome⟩ := hvalid
      obtain ⟨sb, hsb⟩ := Option.isSome_iff_exists.mp hsome
      obtain ⟨w, hnewest, heq⟩ := Slotted.openExisting (c := freshCache options g) hslotted
        hsb hfile rfl options.encryptionKey
      rw [heq] at hok
      obtain ⟨-, hadopted⟩ :=
        (wp_ok hok).mp (wp_openFrom (fun _ _ => True) fun e _ _ => e.isHard = true)
      cases hadopted with
      | mk hunlock _ hfits =>
        obtain ⟨s, hunit⟩ := unlockSuperblock_ok hnewest.valid hunlock
        have hsb := createdHead_super (hslot w.slot hnewest.lt) (hnewest.unit.symm.trans hunit)
        rw [hsb] at hfits
        exact hfits.trans (if_pos rfl).le
    · have hnone : ∀ i < options.superblockCount,
          Superblock.deserialize (image.cell i) = none := fun i hi =>
        Option.not_isSome_iff_eq_none.mp fun hsome => hvalid ⟨i, hi, hsome⟩
      obtain ⟨c', herr⟩ := Slotted.openExisting_none (c := freshCache options g) hslotted hpos hnone
        hfile rfl options.encryptionKey
      cases hok.symm.trans herr
  · rintro (hzero | ⟨hle, hvalid⟩)
    · omega
    obtain ⟨p, hd⟩ := onDisk_created hn hn' hw hslot hpage hvalid
    have hfile : FileHolds _ g Version.empty .nil :=
      ⟨hd, hle, hlen.trans (hn'.trans (by decide)), hstride⟩
    have hrefusal : (createdHead options.superblockCount
        (createdHeader options.encryptionKey options.dek) options.createdCipher p).refusal
        options.encryptionKey g.image.len = none := by
      unfold Head.refusal
      rw [hnew.gate p]
      exact if_neg (Nat.not_lt.mpr hle)
    obtain ⟨m, heq, hm⟩ := hfile.openDb_ok hnew.valid hrefusal
    obtain ⟨lost, hO'⟩ := hm.opened
    exact hO'.opensEmpty hm.alive (Db.step_open_ok heq) (congrArg Head.roots hm.head)

theorem creates_default : Options.Creates {} := ⟨⟨le_rfl, by decide⟩, rfl, rfl, nofun⟩

theorem trace_default : (Options.created {} .empty).cache.io.trace =
    [.write 0 (createdHead 2 none none 0).unit, .write 1 (createdHead 2 none none 1).unit, .sync] :=
  rfl

/-- A new file whose second slot is torn. -/
theorem creation_crash_iff_torn :
    DbFile.empty.image.Survives DiskUnit.Tears (Options.created {} .empty).cache.io.trace
        ((Image.empty.write 0 (createdHead 2 none none 0).unit).write 1 .torn) ∧
      OpensEmpty {} ⟨(Image.empty.write 0 (createdHead 2 none none 0).unit).write 1 .torn, [],
        (Options.created {} .empty).cache.io.fileStride⟩ := by
  have hs : DbFile.empty.image.Survives DiskUnit.Tears (Options.created {} .empty).cache.io.trace
      ((Image.empty.write 0 (createdHead 2 none none 0).unit).write 1 .torn) := by
    rw [trace_default]
    exact ⟨[], [.write 0 _, .write 1 _], [.sync], [.write 0 _, .write 1 .torn], rfl,
      .keep nofun (.tear (.inl rfl) .nil), rfl⟩
  refine ⟨hs, (creation_crash_iff rfl (openDb_created rfl creates_default) rfl hs []).mpr ?_⟩
  exact .inr ⟨by decide, 0, by decide, by decide⟩

/-- A new file that lost its second slot. -/
theorem lostSlot_refused :
    DbFile.empty.image.Survives DiskUnit.Tears (Options.created {} .empty).cache.io.trace
        (Image.empty.write 0 (createdHead 2 none none 0).unit) ∧
      ¬ OpensEmpty {} ⟨Image.empty.write 0 (createdHead 2 none none 0).unit, [],
        (Options.created {} .empty).cache.io.fileStride⟩ := by
  constructor
  · rw [trace_default]
    exact ⟨[], [.write 0 _, .write 1 _], [.sync], [.write 0 _], rfl, .keep nofun (.lose nofun .nil),
      rfl⟩
  · rintro ⟨m, hopen, -⟩
    have hshut : ((Db.closed ⟨Image.empty.write 0 (createdHead 2 none none 0).unit, [],
        (Options.created {} .empty).cache.io.fileStride⟩).step (.open {})).holds (fun _ => true) =
        false := by decide +kernel
    rw [hopen] at hshut
    cases hshut

end Creation

end Chisel
