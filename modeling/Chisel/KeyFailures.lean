import Chisel.KeyRuns

/-! Key operations and power failures. A key operation writes one superblock, waits until it is
durable, and only then writes over the key tables of the others; whatever a power failure leaves of
these writes, the file holds the same content under the old table or under the new one. -/

namespace Chisel

open StateError PageCache TransactionManager RadixTree Ledger Device

/-! ### The slots -/

section Slots

variable {h h' : Head} {cell cell' : Nat → DiskUnit} {v : Version} {t : PageTree Bool}
  {image image' : Image DiskUnit} {header : CryptoHeader} {p n : Nat}

/-- Another superblock over the same pages. -/
theorem OnDisk.rehead (hd : OnDisk h cell v t) (hheaded : Headed h' cell')
    (hcell : ∀ i, h.slots ≤ i → cell' i = cell i) (hslots : h'.slots = h.slots)
    (hcipher : h'.cipher = h.cipher)
    (hroots : h'.roots = { h.roots with totalPages := h'.roots.totalPages })
    (hle : h.roots.totalPages ≤ h'.roots.totalPages) (hmax : h'.roots.totalPages ≤ u64Max) :
    OnDisk h' cell' v t := by
  have hview : ∀ x, 0 < v.own x + t.count fmShape x →
      fileView h'.cipher cell' x = fileView h.cipher cell x := by
    intro x hx
    unfold fileView
    rw [hcell x (hd.bounds hx).1, hcipher]
  have hdepth : h'.roots.freemapDepth = h.roots.freemapDepth := by rw [hroots]
  have hpage : h'.roots.freemapPage = h.roots.freemapPage := by rw [hroots]
  refine ⟨hheaded, hd.ok.frame fun x hx => hview x (by omega), ?_, ?_, hdepth ▸ hd.mapDepth_le,
    fun ht => hpage.trans (hd.map_nil ht), fun ht => hpage.trans (hd.map_eq ht), ?_, hmax,
    fun x => ?_⟩
  · rw [hroots]
    exact { hd.tied with }
  · rw [hdepth]
    refine hd.map.frame fun x hx => ?_
    unfold fmRead
    rw [hview x (by omega)]
  · rw [hslots]
    exact hd.slots_le.trans hle
  · rw [hdepth, hslots]
    have hx := hd.once x
    have hmono : between h.slots h.roots.totalPages x ≤ between h.slots h'.roots.totalPages x := by
      unfold between
      split_ifs <;> omega
    exact hx.trans hmono

/-- What is left of a scrub: the slot that was written before stays, and the others may be torn or
have the new table. -/
theorem scrub_survives
    (hs : image.Survives DiskUnit.Tears (scrubWrites header p image.cell (List.range n)) image') :
    image'.cell p = image.cell p ∧ (∀ i < n, Faded (image.cell i) (image'.cell i)) ∧
      ∀ i, n ≤ i → image'.cell i = image.cell i := by
  obtain ⟨es, rfl, hes⟩ := hs.events
  have hwrite : ∀ e ∈ scrubWrites header p image.cell (List.range n), ∃ i u, e = .write i u ∧
      i < n ∧ i ≠ p ∧ Faded (image.cell i) u := by
    intro e he
    obtain ⟨i, hi, hf⟩ := List.mem_filterMap.mp he
    split at hf
    · cases hf
    · next hne =>
      obtain ⟨u, hu, rfl⟩ := Option.map_eq_some_iff.mp hf
      obtain ⟨sb, sealedBy, hc, hv, rfl⟩ := overwriteSlotTable_some hu
      exact ⟨i, _, rfl, List.mem_range.mp hi, hne, .rekeyed hc hv⟩
  have hleft : ∀ e ∈ es, ∃ i u, e = .write i u ∧ i < n ∧ i ≠ p ∧ Faded (image.cell i) u := by
    intro e he
    rcases hes e he with h | ⟨i, u, u', rfl, hu, ht⟩
    · exact hwrite e h
    · obtain ⟨j, w, heq, hlt, hne, -⟩ := hwrite _ hu
      cases heq
      exact ⟨i, u', rfl, hlt, hne, ht.faded _⟩
  have hcell := Image.replay_cell (fun e he k => by
    obtain ⟨j, u, rfl, -⟩ := hleft e he
    exact nofun) image
  refine ⟨?_, fun i hi => ?_, fun i hi => ?_⟩
  · rcases hcell p with h | h
    · exact h
    · obtain ⟨j, u, heq, -, hne, -⟩ := hleft _ h
      cases heq
      exact absurd rfl hne
  · rcases hcell i with h | h
    · rw [h]
      exact .same
    · obtain ⟨j, u, heq, -, -, hf⟩ := hleft _ h
      cases heq
      exact hf
  · rcases hcell i with h | h
    · exact h
    · obtain ⟨j, u, heq, hlt, -⟩ := hleft _ h
      cases heq
      omega

theorem write_survives {u : DiskUnit} (hs : image.Survives DiskUnit.Tears [.write p u] image') :
    image'.cell = image.cell ∨ image'.cell = Function.update image.cell p u ∨
      ∃ u', DiskUnit.Tears u u' ∧ image'.cell = Function.update image.cell p u' := by
  obtain ⟨es, rfl, hes⟩ := hs.events
  have hleft : ∀ e ∈ es, ∃ u', e = .write p u' ∧ (u' = u ∨ DiskUnit.Tears u u') := by
    intro e he
    rcases hes e he with h | ⟨i, w, u', rfl, hw, ht⟩
    · exact ⟨u, List.mem_singleton.mp h, .inl rfl⟩
    · cases List.mem_singleton.mp hw
      exact ⟨u', rfl, .inr ht⟩
  have hcell := Image.replay_cell (fun e he k => by
    obtain ⟨u', rfl, -⟩ := hleft e he
    exact nofun) image
  have hother : ∀ i, i ≠ p → (image.replay es).cell i = image.cell i := by
    intro i hi
    rcases hcell i with h | h
    · exact h
    · obtain ⟨u', heq, -⟩ := hleft _ h
      cases heq
      exact absurd rfl hi
  have hupdate : (image.replay es).cell =
      Function.update image.cell p ((image.replay es).cell p) := by
    funext i
    by_cases hi : i = p
    · rw [hi, Function.update_self]
    · rw [Function.update_of_ne hi]
      exact hother i hi
  rcases hcell p with h | h
  · left
    rw [hupdate, h]
    exact Function.update_eq_self ..
  · obtain ⟨u', heq, hu'⟩ := hleft _ h
    cases heq
    rcases hu' with hu' | hu'
    · exact .inr (.inl (hupdate.trans (by rw [hu'])))
    · exact .inr (.inr ⟨_, hu', hupdate⟩)

end Slots

/-- The file of the manager after a power failure that left this image. -/
def TransactionManager.fileWith (m : TransactionManager) (image : Image DiskUnit) : DbFile :=
  ⟨image, [], m.cache.io.fileStride⟩

theorem Rekeyed.trace {k : KeyOp} {m m' : TransactionManager} (hk : Rekeyed k m m') : ∃ header',
    m'.cryptoHeader = some header' ∧
      m'.cache.io.trace = m.cache.io.trace ++ m.rekeyEvents header' ∧
      m'.cache.io.image = m.cache.io.image.replay (m.rekeyEvents header') := by
  obtain ⟨header, header', c, -, -, -, hst, rfl⟩ := hk.edit
  have hio : c.io = m.cache.io.recordAll (m.rekeyEvents header') := congrArg Store.io hst
  rw [PageIo.recordAll_fields] at hio
  exact ⟨header', rfl, congrArg PageIo.trace hio, congrArg PageIo.image hio⟩

/-! ### What is left of a revoked credential -/

/-- The key slots that can be read in a unit, whether it validates or not. -/
def DiskUnit.keyTable : DiskUnit → List KeySlot
  | .stale table => table
  | .super sb _ => sb.encryption.elim [] CryptoHeader.slots
  | _ => []

/-- The unit holds the data key, wrapped for the credential. -/
def DiskUnit.Reveals (u : DiskUnit) (key : Key) : Prop := ∃ dek, .active key dek ∈ u.keyTable

section Residue

variable {ex : Prop} {m m' : TransactionManager} {v : Version} {t : PageTree Bool}
  {lost : Nat → Nat} {key : Key} {header : CryptoHeader} {k : KeyOp}

theorem CryptoHeader.enrolled_eq_zero_iff :
    header.enrolled key = 0 ↔ ¬ ∃ dek, .active key dek ∈ header.slots := by
  unfold CryptoHeader.enrolled
  rw [List.countP_eq_zero]
  constructor
  · rintro h ⟨dek, hmem⟩
    exact h _ hmem (decide_eq_true rfl)
  · intro h s hs hfor
    cases s with
    | empty => cases hfor
    | active k dek =>
      obtain rfl : k = key := of_decide_eq_true hfor
      exact h ⟨dek, hs⟩

theorem overwriteSlotTable_none_iff {u : DiskUnit} :
    header.overwriteSlotTable u = none ↔ Superblock.deserialize u = none := by
  cases u with
  | super sb sealedBy =>
    unfold CryptoHeader.overwriteSlotTable Superblock.deserialize
    cases sb.valid <;> simp
  | _ => exact ⟨fun _ => rfl, fun _ => rfl⟩

/-- After a key operation a slot has the new table, unless it did not validate. -/
theorem Rekeyed.reveals_iff (hk : Rekeyed k m m') (h : Opened ex m v t lost) {i : Nat}
    (hi : i < m.superblockCount) :
    (m'.cache.io.image.cell i).Reveals key ↔
      if i ≠ (m.txnCounter + 1) % m.superblockCount ∧
          Superblock.deserialize (m.cache.io.image.cell i) = none
      then (m.cache.io.image.cell i).Reveals key else 0 < m'.enrolled key := by
  obtain ⟨header', hh', -, himage⟩ := hk.trace
  set q := (m.txnCounter + 1) % m.superblockCount with hq
  have hpos : 0 < m'.enrolled key ↔ ∃ dek, .active key dek ∈ header'.slots := by
    unfold TransactionManager.enrolled
    rw [hh', Nat.pos_iff_ne_zero, Option.elim_some, ne_eq,
      CryptoHeader.enrolled_eq_zero_iff, not_not]
  have hcell : m'.cache.io.image.cell i =
      scrubbed header' q m.superblockCount (m.rekeyedCells header') i := by
    have hio : (m.cache.io.recordAll (m.rekeyEvents header')).image =
        m.cache.io.image.replay (m.rekeyEvents header') := by rw [PageIo.recordAll_fields]
    rw [himage, ← hio, rekeyEvents_cell]
  rw [hcell]
  by_cases hne : i = q
  · rw [if_neg fun hc => hc.1 hne, hpos, scrubbed, if_neg fun hc => hc.2 hne, hne]
    unfold TransactionManager.rekeyedCells
    rw [Function.update_self]
    rfl
  · have hsame : m.rekeyedCells header' i = m.cache.io.image.cell i := Function.update_of_ne hne ..
    rw [scrubbed, if_pos ⟨hi, hne⟩, hsame]
    cases hu : header'.overwriteSlotTable (m.cache.io.image.cell i) with
    | none =>
      rw [if_pos ⟨hne, overwriteSlotTable_none_iff.mp hu⟩]
      rfl
    | some u =>
      have hsome : Superblock.deserialize (m.cache.io.image.cell i) ≠ none := fun hd =>
        absurd (hu.symm.trans (overwriteSlotTable_none_iff.mpr hd)) (by simp)
      rw [if_neg fun hc => hsome hc.2, hpos]
      obtain ⟨sb, sealedBy, hc, -, rfl⟩ := overwriteSlotTable_some hu
      -- all superblocks of an encrypted file have a table
      have hkind := (h.headed.kind i sb sealedBy hc).1
      obtain ⟨header, -, -, hh, -⟩ := hk.edit
      change _ = m.cryptoHeader.isSome at hkind
      rw [hh] at hkind
      obtain ⟨old, hold⟩ := Option.isSome_iff_exists.mp hkind
      unfold DiskUnit.Reveals DiskUnit.keyTable
      rw [hold]
      rfl

/-- A revoked credential leaves no trace in the superblocks if it had one slot only and no
superblock that fails validation holds one. -/
theorem revoked_scrubbed_iff {f : DbFile} (hf : f.Sound) {steps : List Step}
    (hrun : (Db.closed f).run steps = .opened m) (hrev : k.revokes = some key)
    (hok : m.failure k.toOp = none) :
    (∀ i < m.superblockCount, ¬ ((m.after k.toOp).cache.io.image.cell i).Reveals key) ↔
      k.adds ≠ some key ∧ m.enrolled key = 1 ∧
        ∀ i < m.superblockCount, i ≠ (m.txnCounter + 1) % m.superblockCount →
          Superblock.deserialize (m.cache.io.image.cell i) = none →
            ¬ (m.cache.io.image.cell i).Reveals key := by
  obtain ⟨h₀, v0, t0, hf⟩ := hf
  have hdb : DbOk .unknown (.closed f) := .closed hf False.elim nofun
  obtain ⟨v, t, lost, hO, hk⟩ := (hdb.reaches hrun).rekeyed hok
  set m' := m.after k.toOp
  have hcount : m'.enrolled key + 1 = m.enrolled key + if k.adds = some key then 1 else 0 := by
    obtain ⟨header, header', c, hh, hedit, -, -, hm'⟩ := hk.edit
    have hedit := KeyOp.edit_enrolled hedit key
    rw [if_pos hrev] at hedit
    have hh' : m'.cryptoHeader = some header' := congrArg cryptoHeader hm'
    unfold TransactionManager.enrolled
    rw [hh, hh']
    exact hedit
  have hpos : 0 < m.enrolled key := by
    obtain ⟨header, header', c, hh, hedit, -⟩ := hk.edit
    obtain ⟨i, dek, free, hu, -⟩ := KeyOp.edit_ok hedit
    rw [KeyOp.holder_of_revokes hrev] at hu
    unfold TransactionManager.enrolled
    rw [hh]
    exact (CryptoHeader.unlock_isOk_iff.mp ⟨_, hu⟩).2
  have hq : (m.txnCounter + 1) % m.superblockCount < m.superblockCount :=
    Nat.mod_lt _ (by have : 2 ≤ m.superblockCount := hO.headed.two_le; omega)
  constructor
  · intro hall
    have h0 : m'.enrolled key = 0 := by
      have hwritten := hall _ hq
      rw [hk.reveals_iff hO hq, if_neg fun hc => hc.1 rfl] at hwritten
      omega
    have hadds : k.adds ≠ some key := by
      intro hadds
      rw [if_pos hadds] at hcount
      omega
    rw [if_neg hadds] at hcount
    refine ⟨hadds, by omega, fun i hi hne hnone hr => ?_⟩
    have hclean := hall i hi
    rw [hk.reveals_iff hO hi, if_pos ⟨hne, hnone⟩] at hclean
    exact hclean hr
  · rintro ⟨hadds, hone, hclean⟩ i hi hr
    rw [if_neg hadds] at hcount
    rw [hk.reveals_iff hO hi] at hr
    split at hr
    · next hc => exact hclean i hi hc.1 hc.2 hr
    · omega

/-- A second credential is removed, and all superblocks are in order. -/
theorem revoked_scrubbed_once :
    ∃ m, (Db.closed keyedFile).run [.open { encryptionKey := some [1] }, .op (.addKey [1] [2])] =
        .opened m ∧ ∀ i < m.superblockCount,
      ¬ ((m.after (.removeKey [2])).cache.io.image.cell i).Reveals [2] := by
  have hopen : ((Db.closed keyedFile).run
      [.open { encryptionKey := some [1] }, .op (.addKey [1] [2])]).holds
      (fun m => decide (m.failure (.removeKey [2]) = none ∧ m.enrolled [2] = 1 ∧
        ∀ i < m.superblockCount,
          (Superblock.deserialize (m.cache.io.image.cell i)).isSome = true)) = true := by
    decide +kernel
  obtain ⟨m, hrun, hm⟩ := Db.of_holds hopen
  obtain ⟨hok, hone, hvalid⟩ := of_decide_eq_true hm
  refine ⟨m, hrun, (revoked_scrubbed_iff keyedFile_sound hrun (k := .remove [2]) rfl hok).mpr
    ⟨nofun, hone, fun i hi _ hnone => ?_⟩⟩
  have hsome := hvalid i hi
  rw [hnone] at hsome
  cases hsome

/-- Four slots and two credentials. -/
def fourSlots : List Step :=
  [.open { superblockCount := 4, encryptionKey := some [1], dek := 7 }, .op (.addKey [1] [2])]

/-- The writes of a rotation. -/
def rotationEvents (m : TransactionManager) : List (Event DiskUnit) :=
  (m.after (.rotateKey [1] [3])).cache.io.trace.drop m.cache.io.trace.length

/-- The power failed during the rotation: the last slot is torn, and its bytes still hold the old
table of key slots. -/
def tornScrub (m : TransactionManager) : Image DiskUnit :=
  (m.cache.io.image.replay ((rotationEvents m).take 5)).write 3
    (.stale (m.cryptoHeader.elim [] CryptoHeader.slots))

/-- The sixth write of the rotation goes to the last slot. -/
def writesLast (m : TransactionManager) : Bool :=
  match (rotationEvents m)[5]? with
  | some (Event.write i _) => i == 3
  | _ => false

theorem tornScrub_survives {m : TransactionManager} (h : writesLast m = true) :
    m.cache.io.image.Survives DiskUnit.Tears (rotationEvents m) (tornScrub m) := by
  unfold writesLast at h
  split at h
  · next i u hu =>
    obtain rfl : i = 3 := eq_of_beq h
    exact .of_tear hu (.inr ⟨_, rfl⟩)
  · cases h

/-- After the file was opened again and the second credential removed, the torn slot still holds
the data key wrapped for it. -/
theorem revoked_left_in_torn_slot : ∃ m m2 : TransactionManager,
    (Db.closed .empty).run fourSlots = .opened m ∧
      m.cache.io.image.Survives DiskUnit.Tears (rotationEvents m) (tornScrub m) ∧
      (Db.closed (m.fileWith (tornScrub m))).run [.open { encryptionKey := some [3] }] =
        .opened m2 ∧
      m2.answer (.removeKey [2]) = .ok .unit ∧ 3 < m2.superblockCount ∧
      ((m2.after (.removeKey [2])).cache.io.image.cell 3).Reveals [2] := by
  have hopen : ((Db.closed .empty).run fourSlots).holds (fun m => writesLast m &&
      ((Db.closed (m.fileWith (tornScrub m))).run [.open { encryptionKey := some [3] }]).holds
        fun m2 => decide (m2.answer (.removeKey [2]) = .ok .unit ∧ 3 < m2.superblockCount ∧
          .active [2] 7 ∈ ((m2.after (.removeKey [2])).cache.io.image.cell 3).keyTable)) =
            true := by
    decide +kernel
  obtain ⟨m, hrun, hm⟩ := Db.of_holds hopen
  rw [Bool.and_eq_true] at hm
  obtain ⟨m2, hrun2, hm2⟩ := Db.of_holds hm.2
  obtain ⟨hok, hslots, hmem⟩ := of_decide_eq_true hm2
  exact ⟨m, m2, hrun, tornScrub_survives hm.1, hrun2, hok, hslots, 7, hmem⟩

end Residue

end Chisel
