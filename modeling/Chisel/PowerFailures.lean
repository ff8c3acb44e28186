import Chisel.Damage
import Chisel.KeyFailures

/-! Power failures. A failure keeps what a sync has completed and any part of what came after it,
also of what earlier operations left without a sync. Over any number of sessions and failures, the
file holds the state that was committed last or the one that was being written, unless there are
two superblocks and both were torn. -/

namespace Chisel

open StateError PageCache TransactionManager RadixTree Ledger Device

/-- What a power failure during an operation can leave of a file on which a run began when the
device held `b`: at least everything up to the last sync before the operation. -/
def TransactionManager.Leaves (m : TransactionManager) (b : Image DiskUnit) (op : Op)
    (image : Image DiskUnit) : Prop :=
  b.SurvivesPast DiskUnit.Tears (synced m.cache.io.trace).length (m.after op).cache.io.trace image

/-- What a superblock says, apart from its number. -/
def Head.content (h : Head) : Superblock := { h.superblock with txnCounter := 0 }

/-! ### The file -/

section Files

variable {b image : Image DiskUnit} {h : Head} {v : Version} {t : PageTree Bool} {f f' : DbFile}
  {es : List (Event DiskUnit)}

/-- A failure among events that spare the file leaves it. -/
theorem FileHolds.survives (hf : FileHolds h f v t) (hp : Poised h f.image.cell)
    (hes : ∀ e ∈ es, h.Spared v t e) (hs : f.image.Survives DiskUnit.Tears es f'.image)
    (hstride : f'.fileStride = f.fileStride) :
    FileHolds h f' v t ∧ Poised h f'.image.cell := by
  obtain ⟨es', himage, hes'⟩ := hs.events
  have hleft : ∀ e ∈ es', h.Spared v t e := by
    intro e he
    rcases hes' e he with he | ⟨i, u, u', rfl, hu, htear⟩
    · exact hes e he
    · obtain ⟨hspares, -, hbelow⟩ := hes _ hu
      exact ⟨hspares, htear.not_super, hbelow⟩
  obtain ⟨hslot, hsuper⟩ := replay_spared hleft f.image
  refine ⟨hf.spared hleft himage hstride, ?_⟩
  rw [himage]
  exact hp.frame hslot hsuper

/-- A failure among events that only write to the slots keeps the length of the file. -/
theorem survives_len {n : Nat} (hs : f.image.Survives DiskUnit.Tears es image)
    (hn : n ≤ f.image.len) (hes : ∀ e ∈ es, e = .sync ∨ ∃ i u, i < n ∧ e = .write i u) :
    image.len = f.image.len := by
  obtain ⟨es', rfl, hes'⟩ := hs.events
  refine replay_len_of_slots _ hn fun e he => ?_
  rcases hes' e he with he | ⟨i, u, u', rfl, hu, -⟩
  · exact hes e he
  · rcases hes _ hu with heq | ⟨j, w, hlt, heq⟩
    · cases heq
    · cases heq
      exact .inr ⟨_, u', hlt, rfl⟩

/-- A superblock is being written: it is there, or the file holds what it held before; with two
slots and one that validates, it can be that none is left. -/
theorem FileHolds.write_survives (hf : FileHolds h f v t) (hp : Poised h f.image.cell) (h' : Head)
    (f' : DbFile) (hslots : h'.slots = h.slots) (hcounter : h'.counter = h.counter + 1)
    (hs : f.image.Survives DiskUnit.Tears [.write (h'.counter % h'.slots) h'.unit] f'.image)
    (hstride : f'.fileStride = f.fileStride) :
    f'.image.cell = Function.update f.image.cell (h'.counter % h'.slots) h'.unit ∨
      (∃ counter, FileHolds { h with counter } f' v t ∧ Poised { h with counter } f'.image.cell) ∨
      h.slots = 2 ∧ h.counter = 0 ∧ Slotted h.slots h.header.isSome f'.image.cell ∧
        ∀ i < 2, recordOf (f'.image.cell i) = none := by
  have hn := hf.two_le
  have hlt : (h.counter + 1) % h.slots < h.slots := Nat.mod_lt _ (by omega)
  rw [hcounter, hslots] at hs ⊢
  have hlen : f'.image.len = f.image.len := by
    refine survives_len hs hf.slots_le_len fun e he => .inr ?_
    rw [List.mem_singleton.mp he]
    exact ⟨_, _, hlt, rfl⟩
  have hold : ∀ counter, Headed { h with counter } f'.image.cell →
      (∀ i, h.slots ≤ i → f'.image.cell i = f.image.cell i) →
      FileHolds { h with counter } f' v t :=
    fun counter hd hpages => ⟨hf.toOnDisk.rehead hd hpages rfl rfl rfl le_rfl hf.total_le,
      hlen ▸ hf.slots_le_len, hlen.trans_le hf.len_le, hstride.trans hf.stride⟩
  rcases Chisel.write_survives hs with hc | hc | ⟨u, hu, hc⟩
  · rw [hc]
    exact .inr (.inl ⟨h.counter, hold _ (hc ▸ hf.headed) fun i _ => congrFun hc i, hp⟩)
  · exact .inl hc
  · right
    have hpages : ∀ i, h.slots ≤ i → f'.image.cell i = f.image.cell i := fun i hi =>
      (congrFun hc i).trans (Function.update_of_ne (by omega) ..)
    by_cases hsafe : h.slots = 2 ∧ h.counter = 0
    · refine .inr ⟨hsafe.1, hsafe.2, ?_, fun i hi => ?_⟩
      · have hdamage : Damaged h.slots f.image f'.image := by
          intro i
          rw [hc]
          by_cases hi : i = (h.counter + 1) % h.slots
          · rw [hi, Function.update_self]
            exact .inr ⟨hlt, hu⟩
          · exact .inl (Function.update_of_ne hi ..)
        exact hf.headed.slotted.damaged hdamage
      · rw [hc]
        exact hp.torn_none hsafe.1 hsafe.2 hu hi
    · obtain ⟨counter, hd, hp'⟩ := hp.torn hf.headed hsafe hu
      rw [← hc] at hd hp'
      exact .inl ⟨counter, hold counter hd hpages, hp'⟩

/-- The file as it was last synced, and what happened to it since. -/
theorem Moored.base (hm : Moored b h v t f) :
    FileHolds h { f with image := b.replay (synced f.trace) } v t ∧
      Poised h (b.replay (synced f.trace)).cell ∧ ∀ e ∈ unsynced f.trace, h.Spared v t e := by
  obtain ⟨kept, tail, heq, hsync, hf, hp, htail⟩ := hm.kept
  have hsplit : synced f.trace = kept ++ synced tail := by rw [heq, synced_append hsync]
  have hrest : tail = synced tail ++ unsynced f.trace := by
    have hall := synced_append_unsynced f.trace
    rw [hsplit, List.append_assoc] at hall
    exact List.append_cancel_left (heq.symm.trans hall.symm)
  have hdone : ∀ e ∈ synced tail, h.Spared v t e := fun e he =>
    htail e (hrest ▸ List.mem_append_left _ he)
  obtain ⟨hslot, hsuper⟩ := replay_spared hdone (b.replay kept)
  rw [hsplit, Image.replay_append]
  exact ⟨hf.spared hdone rfl rfl, hp.frame hslot hsuper, fun e he =>
    htail e (hrest ▸ List.mem_append_right _ he)⟩

theorem Moored.survives (hm : Moored b h v t f) (hes : ∀ e ∈ es, h.Spared v t e) {k : Nat}
    {f' : DbFile} (hk : (synced f.trace).length ≤ k)
    (hs : b.SurvivesPast DiskUnit.Tears k (f.trace ++ es) f'.image)
    (hstride : f'.fileStride = f.fileStride) : FileHolds h f' v t ∧ Poised h f'.image.cell := by
  obtain ⟨hf, hp, hrest⟩ := hm.base
  refine hf.survives hp (fun e he => ?_) (hs.of_unsynced hk) hstride
  rcases List.mem_append.mp he with he | he
  · exact hrest e he
  · exact hes e he

end Files

/-! ### The handle -/

/-- There are two slots, and none of them validates. -/
structure Lost (m : TransactionManager) (image : Image DiskUnit) : Prop where
  slots : m.superblockCount = 2
  counter : m.txnCounter = 0
  slotted : Slotted 2 m.cryptoHeader.isSome image.cell
  none : ∀ i < 2, recordOf (image.cell i) = none
  pos : 0 < image.len

/-- What a power failure leaves of an operation that leads to the manager `m'`. -/
inductive Left (m : TransactionManager) (op : Op) (failure : Option ChiselError)
    (m' : TransactionManager) (image : Image DiskUnit) : Prop
  | held {hd : Head} {v : Version} {t : PageTree Bool} (file : FileHolds hd (m.fileWith image) v t)
    (poised : Poised hd image.cell) (slots : hd.slots = m.superblockCount)
    (content : m.poisoned = false → hd.content = m.head.content ∨ hd.content = m'.head.content)
  | lost (wrote : op.writesSuperblock = true) (done : failure = none) (lost : Lost m image)

/-- The image holds what the manager committed, under the superblock `hd`. -/
structure HeldBy (m : TransactionManager) (v : Version) (t : PageTree Bool)
    (image : Image DiskUnit) (hd : Head) : Prop extends FileHolds hd (m.fileWith image) v t where
  roots : hd.roots = { m.committedRoots with totalPages := hd.roots.totalPages }
  fits : hd.roots.totalPages ≤ image.len

section Handles

variable {ex ex0 : Prop} {past : Past} {m m' m0 : TransactionManager} {v : Version}
  {t : PageTree Bool} {lost lost0 : Nat → Nat} {g : Ghost} {op : Op} {failure : Option ChiselError}
  {b image : Image DiskUnit} {header : CryptoHeader}

/-- What a power failure during the rewrite of the superblocks leaves. -/
theorem Opened.rekey_survives (h : Opened ex m v t lost) (hp : Poised m.head m.cache.io.image.cell)
    (hk : m.cryptoHeader.isSome = true) (hw : Wraps m.cache.cipher (some header))
    (hle : m.txnCounter + 1 ≤ maxTxnCounter)
    (hs : m.cache.io.image.Survives DiskUnit.Tears (m.rekeyEvents header).tail image) :
    (∃ hd, HeldBy m v t image hd ∧ Poised hd image.cell ∧
      (hd = { m.head with counter := hd.counter } ∨ hd = m.rekeyedHead header)) ∨
      Lost m image := by
  have hn : 2 ≤ m.superblockCount := h.headed.two_le
  set q := (m.txnCounter + 1) % m.superblockCount with hq
  have hqlt : q < m.superblockCount := Nat.mod_lt _ (by omega)
  have hlen : image.len = m.cache.io.image.len :=
    survives_len (f := .ofIo m.cache.io) hs h.slots_le_len fun e he =>
      rekeyEvents_slots hn e (List.mem_of_mem_tail he)
  have htotal : m.cache.io.pageCount = m.cache.io.image.len := h.len
  have hput : Headed (m.rekeyedHead header) (m.rekeyedCells header) :=
    h.headed.put rfl rfl hle hw hk.symm
  have hlead : LeadsAt (m.rekeyedHead header) (m.rekeyedCells header) q :=
    h.headed.put_leads rfl rfl
  have hpages : ∀ i, m.superblockCount ≤ i →
      m.rekeyedCells header i = m.cache.io.image.cell i :=
    fun i hi => Function.update_of_ne (by change i ≠ q; omega) ..
  -- the new superblock over the same pages
  have hnew : Headed (m.rekeyedHead header) image.cell →
      LeadsAt (m.rekeyedHead header) image.cell q →
      (∀ i, m.superblockCount ≤ i → image.cell i = m.cache.io.image.cell i) →
      HeldBy m v t image (m.rekeyedHead header) ∧ Poised (m.rekeyedHead header) image.cell := by
    intro hd hl hcell
    refine ⟨⟨⟨h.onDisk.rehead hd hcell rfl rfl rfl h.total_le h.bounded, ?_, ?_, h.stride⟩,
      rfl, ?_⟩, hd.poised hl (Nat.succ_pos _)⟩
    · exact h.slots_le_len.trans hlen.ge
    · exact hlen.trans_le (htotal.symm.trans_le h.bounded)
    · exact (htotal.trans hlen.symm).le
  change m.cache.io.image.Survives _ ([.write q (m.rekeyedHead header).unit] ++
    .sync :: (scrubWrites header q (m.rekeyedCells header) (List.range m.superblockCount) ++
      .sync :: [])) image at hs
  rcases hs.of_sync with hs | hs
  · -- the new superblock is not durable yet
    rcases h.fileHolds.write_survives hp (m.rekeyedHead header) (m.fileWith image) rfl rfl hs rfl
      with hc | ⟨counter, hf, hp'⟩ | ⟨htwo, hzero, hslotted, hnone⟩
    · have hc : image.cell = m.rekeyedCells header := hc
      obtain ⟨hheld, hp'⟩ := hnew (hc ▸ hput) (hc ▸ hlead) fun i hi =>
        (congrFun hc i).trans (hpages i hi)
      exact .inl ⟨_, hheld, hp', .inr rfl⟩
    · exact .inl ⟨_, ⟨hf, rfl, (h.total_le.trans htotal.le).trans hlen.ge⟩, hp', .inl rfl⟩
    · have htwo : m.superblockCount = 2 := htwo
      refine .inr ⟨htwo, hzero, htwo ▸ hslotted, hnone, ?_⟩
      rw [hlen]
      have := h.slots_le_len
      omega
  · -- it is durable, and the others no longer matter
    have hs : (m.cache.io.image.write q (m.rekeyedHead header).unit).Survives DiskUnit.Tears
        (scrubWrites header q (m.rekeyedCells header) (List.range m.superblockCount)) image := by
      rcases hs.of_sync with hs | hs
      · exact hs
      · rw [hs.nil]
        exact ⟨_, [], [], [], by simp, .nil, rfl⟩
    obtain ⟨hsame, hfaded, habove⟩ := scrub_survives hs
    have hpage : ∀ i, m.superblockCount ≤ i → ∀ sb s, image.cell i ≠ .super sb s := by
      intro i hi sb s
      rw [habove i hi]
      exact hput.page i hi sb s
    obtain ⟨hd, hl⟩ := hput.weather hlead hsame hfaded hpage
    obtain ⟨hheld, hp'⟩ := hnew hd hl fun i hi => (habove i hi).trans (hpages i hi)
    exact .inl ⟨_, hheld, hp', .inr rfl⟩

/-- What a power failure during a key operation leaves. -/
theorem Rekeyed.survives {k : KeyOp} (hk : Rekeyed k m m') (hO : Opened ex m v t lost)
    (hm : Moored b m.head v t (.ofIo m.cache.io))
    (hsurv : b.SurvivesPast DiskUnit.Tears (synced m.cache.io.trace).length
    m'.cache.io.trace image) :
    (b.replay (synced m.cache.io.trace)).Survives DiskUnit.Tears (unsynced m.cache.io.trace) image ∨
      (∃ hd, HeldBy m v t image hd ∧ Poised hd image.cell ∧
        (hd = { m.head with counter := hd.counter } ∨ hd = m'.head)) ∨ Lost m image := by
  obtain ⟨header, header', c, hh, he, hwf, hst, rfl⟩ := hk.edit
  have hio : c.io = m.cache.io.recordAll (m.rekeyEvents header') := congrArg Store.io hst
  have hcipher : c.cipher = m.cache.cipher := congrArg Store.cipher hst
  have hhead : (m.rekeyed c header').head = m.rekeyedHead header' := by
    change (⟨_, _, c.cipher, _, _⟩ : Head) = ⟨_, _, m.cache.cipher, _, _⟩
    rw [hcipher]
    rfl
  have himage : m.cache.io.image = b.replay m.cache.io.trace := hm.image
  change b.SurvivesPast _ _ c.io.trace image at hsurv
  rw [hio, PageIo.recordAll_fields] at hsurv
  have hs : (b.replay (synced m.cache.io.trace)).Survives DiskUnit.Tears
      (unsynced m.cache.io.trace ++ .sync :: (m.rekeyEvents header').tail) image :=
    hsurv.of_unsynced le_rfl
  rcases hs.of_sync with hs | hs
  · exact .inl hs
  · rw [← Image.replay_append, synced_append_unsynced, ← himage] at hs
    have hw : Wraps m.cache.cipher (some header) := hh ▸ hO.headed.wraps
    rw [hhead]
    exact .inr (hO.rekey_survives hm.poised (by rw [hh]; rfl)
      (KeyOp.edit_wraps hw he) hk.counter hs)

theorem IdleStep.left (hs : IdleStep m op failure m') (hO : Opened ex m v t lost)
    (hm : Moored b m.head v t (.ofIo m.cache.io))
    (hsurv : b.SurvivesPast DiskUnit.Tears (synced m.cache.io.trace).length
    m'.cache.io.trace image) :
    Left m op failure m' image := by
  have hstay : ∀ es, m'.cache.io.trace = m.cache.io.trace ++ es →
      (∀ e ∈ es, m.head.Spared v t e) → Left m op failure m' image := by
    intro es htrace hes
    rw [htrace] at hsurv
    have hleft : FileHolds m.head (m.fileWith image) v t ∧ Poised m.head image.cell :=
      hm.survives hes le_rfl hsurv rfl
    exact .held hleft.1 hleft.2 rfl fun _ => .inl rfl
  cases hs with
  | refused => exact hstay [] (List.append_nil _).symm nofun
  | looked _ hl =>
    obtain ⟨c, hc, rfl⟩ := hl
    have htrace : c.io.trace = m.cache.io.trace := congrArg (PageIo.trace ∘ Store.io) hc.2
    exact hstay [] (htrace.trans (List.append_nil _).symm) nofun
  | @resized c _ _ hst =>
    obtain ⟨room, hst⟩ := hst
    have htrace : c.io.trace = m.cache.io.trace := congrArg (PageIo.trace ∘ Store.io) hst
    exact hstay [] (htrace.trans (List.append_nil _).symm) nofun
  | began => exact hstay [] (List.append_nil _).symm nofun
  | @rekeyed k m' hop hk =>
    rcases hk.survives hO hm hsurv with hs | ⟨hd, hheld, hp, hhead⟩ | hlost
    · obtain ⟨hf, hp, hrest⟩ := hm.base
      have hleft : FileHolds m.head (m.fileWith image) v t ∧ Poised m.head image.cell :=
        hf.survives hp hrest hs rfl
      exact .held hleft.1 hleft.2 rfl fun _ => .inl rfl
    · refine .held hheld.toFileHolds hp ?_ fun _ => ?_
      · rcases hhead with hhead | hhead
        · rw [hhead]
          rfl
        · obtain ⟨header, header', c, -, -, -, -, hm'⟩ := hk.edit
          rw [hhead, hm']
          rfl
      · rcases hhead with hhead | hhead
        · rw [hhead]
          exact .inl rfl
        · rw [hhead]
          exact .inr rfl
    · exact .lost (by subst hop; cases k <;> rfl) rfl hlost
  | unkeyed _ hu =>
    cases hu with
    | refused => exact hstay [] (List.append_nil _).symm nofun
    | @exhausted c _ _ hst =>
      have hio : c.io = m.cache.store.io.record .sync := congrArg Store.io hst
      have htrace : c.io.trace = m.cache.io.trace ++ [.sync] := by rw [hio]; rfl
      refine hstay [.sync] htrace fun e he => ?_
      rw [List.mem_singleton.mp he]
      exact ⟨trivial, trivial, trivial⟩

/-- What a power failure during a commit leaves. `io` is what the flushes made of the file. -/
theorem Committed.survives {io : PageIo} (hc : Committed ex m0 v t m g m')
    (hf : FileHolds m0.head (.ofIo io) v t) (hp : Poised m0.head io.image.cell)
    (hhead : m.head = m0.head) (hstride : m.cache.io.fileStride = io.fileStride)
    (hio : m'.cache.io = io.recordAll
      [.sync, .write (m'.txnCounter % m'.superblockCount) m'.head.unit, .sync])
    (hs : io.image.Survives DiskUnit.Tears
      [.write (m'.txnCounter % m'.superblockCount) m'.head.unit, .sync] image) :
    Left m .commit none m' image := by
  have hslots : m0.head.slots = m.superblockCount := congrArg Head.slots hhead.symm
  have hn := hf.two_le
  have hle : m0.head.slots ≤ io.image.len := hf.slots_le_len
  set q := m'.txnCounter % m'.superblockCount with hq
  have hlt : q < m0.head.slots := by
    have hsame : m'.superblockCount = m0.head.slots := hc.superblocks
    rw [hq, hsame]
    exact Nat.mod_lt _ (by omega)
  have hlen : image.len = io.image.len := by
    refine survives_len (f := .ofIo io) hs hle fun e he => ?_
    rcases List.mem_cons.mp he with rfl | he
    · exact .inr ⟨_, _, hlt, rfl⟩
    · exact .inl (List.mem_singleton.mp he)
  have hnew : image.cell = Function.update io.image.cell q m'.head.unit →
      Left m .commit none m' image := by
    intro hcell
    obtain ⟨t', hO⟩ := hc.opened
    have hsame : image.cell = m'.cache.io.image.cell := by
      rw [hcell, hio, PageIo.recordAll_fields]
      rfl
    have hheaded : Headed m'.head image.cell := hsame ▸ hO.headed
    have hfile' : FileHolds m'.head (m.fileWith image) g.cur t' := by
      refine ⟨hsame ▸ hO.onDisk, ?_, hlen.trans_le hf.len_le, ?_⟩
      · change m'.superblockCount ≤ image.len
        rw [hc.superblocks, hlen]
        exact hle
      · have hcipher : m'.cache.cipher = m0.cache.cipher := hc.cipher
        change m.cache.io.fileStride = strideOf m'.cache.cipher
        rw [hstride, hcipher]
        exact hf.stride
    refine .held hfile' (hheaded.poised (hsame ▸ hc.leads) ?_) ?_ fun _ => .inr rfl
    · change 0 < m'.txnCounter
      rw [hc.counter]
      exact Nat.succ_pos _
    · exact hc.superblocks.trans hslots
  change io.image.Survives _ ([.write q m'.head.unit] ++ .sync :: []) image at hs
  rcases hs.of_sync with hs | hs
  · rcases hf.write_survives hp m'.head (m.fileWith image) hc.superblocks hc.counter hs hstride with
      hcell | ⟨counter, hf', hp'⟩ | ⟨htwo, hzero, hslotted, hnone⟩
    · exact hnew hcell
    · exact .held hf' hp' hslots fun _ => .inl (by rw [hhead]; rfl)
    · have htwo : m.superblockCount = 2 := hslots ▸ htwo
      have hheader : m0.head.header = m.cryptoHeader := congrArg Head.header hhead.symm
      have hcounter : m0.head.counter = m.txnCounter := congrArg Head.counter hhead.symm
      rw [hslots, htwo, hheader] at hslotted
      exact .lost rfl rfl ⟨htwo, hcounter ▸ hzero, hslotted, hnone, by omega⟩
  · exact hnew (congrArg Image.cell hs.nil)

/-- Before its commit a transaction only cuts the file. -/
theorem Running.synced_eq (h : Running past m0 v t lost0 m g) :
    synced m.cache.io.trace = synced m0.cache.io.trace := by
  obtain ⟨cuts, hio, -⟩ := h.txn.core.anchored.io
  have htrace : m.cache.io.trace = m0.cache.io.trace ++ cuts.map .setLen := by
    refine (congrArg PageIo.trace hio).trans ?_
    rw [PageIo.recordAll_fields]
    rfl
  rw [htrace, synced_append_of_notMem (by simp)]

theorem RunStep.left (hs : RunStep past m0 v t lost0 m g op failure m')
    (h : Running past m0 v t lost0 m g) (hm : Moored b m0.head v t (.ofIo m0.cache.io))
    (hsurv : b.SurvivesPast DiskUnit.Tears (synced m.cache.io.trace).length
    m'.cache.io.trace image) :
    Left m op failure m' image := by
  have hhead : m.head = m0.head := h.txn.head_eq
  have hslots : m0.head.slots = m.superblockCount := congrArg Head.slots hhead.symm
  have hstride : m.cache.io.fileStride = m0.cache.io.fileStride :=
    (h.txn.fileHolds h.base).stride.trans h.base.stride.symm
  have hk : (synced m0.cache.io.trace).length ≤ (synced m.cache.io.trace).length :=
    (congrArg List.length h.synced_eq).ge
  obtain ⟨hf, hp, hrest⟩ := hm.base
  have hold : ∀ {es}, (∀ e ∈ es, m0.head.Spared v t e) →
      (b.replay (synced m0.cache.io.trace)).Survives DiskUnit.Tears
        (unsynced m0.cache.io.trace ++ es) image → Left m op failure m' image := by
    intro es hes hs
    have hleft : FileHolds m0.head (m.fileWith image) v t ∧ Poised m0.head image.cell := by
      refine hf.survives hp (fun e he => ?_) hs hstride
      rcases List.mem_append.mp he with he | he
      · exact hrest e he
      · exact hes e he
    exact .held hleft.1 hleft.2 hslots fun _ => .inl (by rw [hhead])
  have hstay : Touched (m0.origin v t) m'.cache.io → Left m op failure m' image := by
    rintro ⟨es, hio, hes⟩
    have htrace : m'.cache.io.trace = m0.cache.io.trace ++ es := by
      rw [hio, PageIo.recordAll_fields]
      rfl
    rw [htrace] at hsurv
    exact hold hes (hsurv.of_unsynced hk)
  cases hs with
  | refused => exact hstay (h.txn.core.anchored.touched h.base.toIdle)
  | looked _ hl =>
    have hR := h.looked hl
    exact hstay (hR.txn.core.anchored.touched hR.base.toIdle)
  | went _ hR | saved _ _ hR | released _ _ hR | rewound _ hR | stranded _ hR =>
    exact hstay (hR.txn.core.anchored.touched hR.base.toIdle)
  | rolledBack _ _ hst => exact hstay (Txn.rolledBack_touched h.base h.txn hst)
  | halted _ _ htouched => exact hstay htouched
  | committed hop hc =>
    subst hop
    obtain ⟨io, htouched, hio⟩ := hc.file
    have hfile := h.base.fileHolds_touched htouched
    have hmoored := hm.touched htouched
    obtain ⟨es, hes, hspared⟩ := htouched
    have htrace : m'.cache.io.trace = m0.cache.io.trace ++ (es ++
        [.sync, .write (m'.txnCounter % m'.superblockCount) m'.head.unit, .sync]) := by
      change m'.cache.store.io.trace = _
      rw [hio, hes, ← PageIo.recordAll_append, PageIo.recordAll_fields]
      rfl
    rw [htrace] at hsurv
    have hs := hsurv.of_unsynced hk
    rw [← List.append_assoc] at hs
    rcases hs.of_sync with hs | hs
    · exact hold hspared hs
    · have himage : (b.replay (synced m0.cache.io.trace)).replay
          (unsynced m0.cache.io.trace ++ es) = io.image := by
        rw [← Image.replay_append, ← List.append_assoc, synced_append_unsynced]
        refine Eq.trans ?_ hmoored.image.symm
        rw [hes, PageIo.recordAll_fields]
        rfl
      rw [himage] at hs
      refine hc.survives hfile hmoored.poised hhead ?_ hio hs
      exact (h.txn.fileHolds h.base).stride.trans hfile.stride.symm

/-- What a power failure during any operation leaves. -/
theorem Sane.left (h : Sane past m) (hb : b ∈ past.base) (hs : m.Leaves b op image) :
    Left m op (m.failure op) (m.after op) image := by
  unfold TransactionManager.Leaves at hs
  cases hp : m.poisoned with
  | true =>
    rw [after_of_poisoned op hp] at hs ⊢
    obtain ⟨hd, v, t, hf, ⟨-, hslots⟩, -, hm⟩ := h.fileHolds
    have hnil := List.append_nil m.cache.io.trace
    have hleft : FileHolds hd (m.fileWith image) v t ∧ Poised hd image.cell :=
      (hm b hb).survives (List.forall_mem_nil _) le_rfl (hnil.symm ▸ hs) rfl
    exact .held hleft.1 hleft.2 hslots fun hno => absurd (hp.symm.trans hno) nofun
  | false =>
    cases h with
    | idle hO _ _ hm => exact (hO.step hp op).left hO (hm b hb) hs
    | running hR => exact (hR.step hp op).left hR (hR.moored b hb) hs
    | dead hpo => exact absurd (hp.symm.trans hpo) nofun

/-- A file without a superblock cannot be opened. -/
theorem Sane.lost_refused (h : Sane past m) (hl : Lost m image) (options : Options)
    (m' : TransactionManager) (io : PageIo) :
    openDb options (m.fileWith image) ≠ (.ok m', io) := by
  intro heq
  obtain ⟨hd, v, t, hf, -⟩ := h.fileHolds
  have hpos : 0 < (m.fileWith image).image.len := hl.pos
  by_cases hv : options.Valid
  · rw [openDb_eq_openExisting hpos hf.stride hv] at heq
    have hfile : (freshCache options (m.fileWith image)).io.fileStride =
        if m.cryptoHeader.isSome then encPageSize else pageSize :=
      (if_neg (Nat.ne_of_gt hl.pos)).trans h.slotted.2
    have hnone : ∀ i < 2, Superblock.deserialize (image.cell i) = none := by
      intro i hi
      rw [← Option.not_isSome_iff_eq_none, ← recordOf_isSome_iff, hl.none i hi]
      exact Bool.false_ne_true
    obtain ⟨c', herr⟩ := Slotted.openExisting_none (c := freshCache options (m.fileWith image))
      hl.slotted hl.pos hnone hfile rfl options.encryptionKey
    rw [herr] at heq
    cases heq
  · rw [openDb_of_not_valid hv] at heq
    cases heq

end Handles

/-! ### Sessions and failures -/

/-- The files that sessions and power failures lead to, as long as they can be opened again. -/
inductive DbFile.Reached : DbFile → Prop
  | empty : Reached .empty
  | failed {f : DbFile} {steps : List Step} {m m' : TransactionManager} {op : Op}
    {image : Image DiskUnit} {options : Options} {io : PageIo} (reached : Reached f)
    (run : (Db.closed f).run steps = .opened m) (left : m.Leaves f.image op image)
    (opens : openDb options (m.fileWith image) = (.ok m', io)) : Reached (m.fileWith image)

section Histories

variable {f : DbFile} {steps : List Step} {m : TransactionManager} {op : Op}
  {image : Image DiskUnit} {h : Head} {cell : Nat → DiskUnit}

theorem DbFile.Reached.ok (hf : f.Reached) :
    DbOk ⟨False, False, False, some f.image⟩ (.closed f) := by
  induction hf with
  | empty =>
    refine .blank rfl fun b hb => ?_
    obtain rfl := Option.some.inj hb
    exact ⟨rfl, rfl⟩
  | @failed f steps m m' op image options io _ hrun hleft hopens ih =>
    have hok := ih.run steps
    rw [hrun] at hok
    cases hok with
    | opened hs =>
      cases hs.left rfl hleft with
      | held hf hp =>
        refine .closed hf False.elim fun b hb => ?_
        obtain rfl := Option.some.inj hb
        exact moored_of_synced rfl rfl hf hp
      | lost _ _ hl => exact absurd hopens (hs.lost_refused hl options m' io)

theorem DbFile.Reached.sane (hf : f.Reached) (hrun : (Db.closed f).run steps = .opened m) :
    ∃ past : Past, f.image ∈ past.base ∧ Sane past m := by
  have hok := hf.ok.run steps
  rw [hrun] at hok
  cases hok with
  | opened hs => exact ⟨_, rfl, hs⟩

theorem Headed.newest (hd : Headed h cell) : ∃ w, Newest h.slots cell w ∧
    recordOf w.unit = some (h.counter, h.content) ∧ ∀ w', Newest h.slots cell w' → w' = w := by
  obtain ⟨p, hp⟩ := hd.leads
  have hrec : recordOf (cell p) = some (h.counter, h.content) :=
    hp.unit ▸ Head.recordOf_unit hd.two_le hd.le_max hd.counter_le
  have hvalid : (Superblock.deserialize (cell p)).isSome := by
    rw [← recordOf_isSome_iff, hrec]
    rfl
  obtain ⟨sb, hsb⟩ := Option.isSome_iff_exists.mp hvalid
  have hcount : sb.txnCounter = h.counter := by
    obtain ⟨a, ha⟩ := recordOf_of_deserialize hsb
    exact congrArg Prod.fst (Option.some.inj (ha.symm.trans hrec))
  have hle : ∀ i < h.slots, i ≠ p → ∀ sb', Superblock.deserialize (cell i) = some sb' →
      sb'.txnCounter < sb.txnCounter := by
    intro i hi hne sb' hsb'
    obtain ⟨a, ha⟩ := recordOf_of_deserialize hsb'
    exact hcount ▸ hp.older i hi hne _ ha
  refine ⟨⟨p, sb, cell p⟩, ⟨hp.lt, rfl, hsb, fun i hi sb' hsb' => ?_⟩, hrec, fun w' hw => ?_⟩
  · by_cases hne : i = p
    · subst hne
      exact (congrArg Superblock.txnCounter (Option.some.inj (hsb'.symm.trans hsb))).le
    · exact (hle i hi hne sb' hsb').le
  · obtain ⟨slot, sb', unit⟩ := w'
    have hunit : unit = cell slot := hw.unit
    have hvalid' : Superblock.deserialize (cell slot) = some sb' := hunit ▸ hw.valid
    by_cases hne : slot = p
    · subst hne
      rw [hunit, Option.some.inj (hvalid'.symm.trans hsb)]
    · exact absurd (hw.highest p hp.lt sb hsb) (Nat.not_le.mpr (hle slot hw.lt hne sb' hvalid'))

/-- Recovery of the image goes on from its newest superblock, which says `a`. -/
def TransactionManager.Recovers (m : TransactionManager) (image : Image DiskUnit) (a : Superblock) :
    Prop :=
  ∃ w counter, Newest m.superblockCount image.cell w ∧ recordOf w.unit = some (counter, a) ∧
    ∀ key readOnly (c : PageCache),
      c.io = PageIo.openFile image [] m.cache.io.fileStride readOnly →
        openExisting key c =
          openFrom key w { c with io := { c.io with stride := m.cache.io.fileStride } }

theorem FileHolds.recovers {v : Version} {t : PageTree Bool}
    (hf : FileHolds h (m.fileWith image) v t) (hslots : h.slots = m.superblockCount) :
    m.Recovers image h.content := by
  obtain ⟨w, hw, hrec, huniq⟩ := hf.headed.newest
  change Newest h.slots image.cell w at hw
  rw [hslots] at hw huniq
  refine ⟨w, h.counter, hw, hrec, fun key readOnly c hc => ?_⟩
  have hpos : image.len ≠ 0 := by
    have h1 := hf.two_le
    have h2 : h.slots ≤ image.len := hf.slots_le_len
    omega
  have hfile : c.io.fileStride = m.cache.io.fileStride := by
    rw [hc]
    exact if_neg hpos
  have hstride : m.cache.io.fileStride = if h.header.isSome then encPageSize else pageSize := by
    refine hf.stride.trans ?_
    rw [hf.headed.wraps.1]
    rfl
  have himage : c.io.image = image := by rw [hc]; rfl
  have hslotted : Slotted h.slots h.header.isSome c.io.image.cell := by
    rw [himage]
    exact hf.headed.slotted
  have hsb : Superblock.deserialize (c.io.image.cell w.slot) = some w.sb := by
    rw [himage, ← hw.unit]
    exact hw.valid
  obtain ⟨w', hw', heq⟩ := hslotted.openExisting hsb (hfile.trans hstride) (by rw [hc]; rfl) key
  rw [himage, hslots] at hw'
  rw [huniq w' hw', hfile] at heq
  exact heq

end Histories

/-! ### Key operations -/

/-- The credential opens the file. -/
def DbFile.OpensWith (f : DbFile) (key : Key) : Prop :=
  ∀ options : Options, options.Valid → options.encryptionKey = some key →
    ∃ m io, openDb options f = (.ok m, io)

/-- The file can be opened with all credentials from before the key operation or with all from
after it, in any case with those that are not revoked, and its content is the same. -/
structure KeyOp.Safe (k : KeyOp) (m : TransactionManager) (f : DbFile) : Prop where
  kept : ∀ key, m.accepts (some key) = true → k.revokes ≠ some key → f.OpensWith key
  either : (∀ key, m.accepts (some key) = true → f.OpensWith key) ∨
    ∀ key, (m.after k.toOp).accepts (some key) = true → f.OpensWith key
  same : ∀ options m' io, openDb options f = (.ok m', io) →
    (∀ r : ReadOp, m'.answer r.toOp = { m with poisoned := false }.answer r.toOp) ∧
      m'.committedRoots.namedRoots = m.committedRoots.namedRoots ∧
      m'.committedRoots.nextHandle = m.committedRoots.nextHandle

section Keys

variable {ex : Prop} {m m' : TransactionManager} {v : Version} {t : PageTree Bool}
  {lost : Nat → Nat} {b image : Image DiskUnit} {hd : Head} {key : Key} {k : KeyOp} {f : DbFile}

theorem Sane.accepts_after {past : Past} (h : Sane past m) {k : KeyOp} {key : Key}
    (hkey : m.accepts (some key) = true) (hk : k.revokes ≠ some key) :
    (m.after k.toOp).accepts (some key) = true := by
  rcases h.header_after k.toOp with hsame | ⟨-, k', heq, hr⟩
  · unfold TransactionManager.accepts at hkey ⊢
    rw [hsame]
    exact hkey
  · obtain rfl : k = k' := by
      have hof := congrArg KeyOp.ofOp heq
      simpa using hof
    obtain ⟨header, header', c, hh, he, -, -, hm'⟩ := hr.edit
    have hh' : (m.after k.toOp).cryptoHeader = some header' := congrArg cryptoHeader hm'
    obtain ⟨hne, hpos⟩ := (accepts_iff hh).mp hkey
    have hcount := KeyOp.edit_enrolled he key
    rw [if_neg hk] at hcount
    exact (accepts_iff hh').mpr ⟨hne, by omega⟩

theorem HeldBy.opensWith (hh : HeldBy m v t image hd) (hheader : hd.header = m'.cryptoHeader)
    (hkey : m'.accepts (some key) = true) : (m.fileWith image).OpensWith key := by
  intro options hv ho
  have hrefusal : hd.refusal options.encryptionKey (m.fileWith image).image.len = none := by
    have hgate := gate_of_accepts hkey
    unfold Head.gate TransactionManager.head at hgate
    unfold Head.refusal Head.gate
    rw [ho, hheader]
    rw [hgate]
    exact if_neg (Nat.not_lt.mpr hh.fits)
  obtain ⟨m'', heq, -⟩ := hh.toFileHolds.openDb_ok hv hrefusal
  exact ⟨m'', _, heq⟩

theorem HeldBy.same (hh : HeldBy m v t image hd) (h : Opened ex m v t lost) {options : Options}
    {io : PageIo} (hopen : openDb options (m.fileWith image) = (.ok m', io)) :
    (∀ r : ReadOp, m'.answer r.toOp = { m with poisoned := false }.answer r.toOp) ∧
      m'.committedRoots.namedRoots = m.committedRoots.namedRoots ∧
      m'.committedRoots.nextHandle = m.committedRoots.nextHandle := by
  have hf := hh.toFileHolds
  have hv : options.Valid := by
    by_contra hv
    rw [openDb_of_not_valid hv] at hopen
    cases hopen
  cases hr : hd.refusal options.encryptionKey (m.fileWith image).image.len with
  | some e =>
    rw [hf.openDb_error hv hr] at hopen
    cases hopen
  | none =>
    obtain ⟨m'', heq, hm⟩ := hf.openDb_ok hv hr
    rw [heq] at hopen
    cases hopen
    obtain ⟨lost', hO'⟩ := hm.opened
    have hroots : m'.committedRoots = hd.roots := congrArg Head.roots hm.head
    refine ⟨fun r => ?_, ?_, ?_⟩
    · rw [hO'.answer_read hm.alive, h.revive.answer_read rfl]
      rfl
    · rw [hroots, hh.roots]
    · rw [hroots, hh.roots]

theorem HeldBy.safe (hh : HeldBy m v t image hd) {past : Past} (hs : Sane past m)
    (hO : Opened ex m v t lost)
    (hheader : hd.header = m.cryptoHeader ∨ hd.header = (m.after k.toOp).cryptoHeader) :
    k.Safe m (m.fileWith image) where
  kept key hkey hrev := by
    rcases hheader with hheader | hheader
    · exact hh.opensWith hheader hkey
    · exact hh.opensWith hheader (hs.accepts_after hkey hrev)
  either := hheader.imp (fun hheader _ => hh.opensWith hheader)
    fun hheader _ => hh.opensWith hheader
  same _ _ _ hopen := hh.same hO hopen

/-- A file that can be opened is as long as its superblock says. -/
theorem FileHolds.le_len_of_opensWith {h : Head} (hf : FileHolds h f v t) (ho : f.OpensWith key) :
    h.roots.totalPages ≤ f.image.len := by
  by_contra hlt
  have hv : ({ encryptionKey := some key } : Options).Valid :=
    ⟨le_rfl, show 2 ≤ maxSuperblocks by decide⟩
  obtain ⟨m, io, heq⟩ := ho _ hv rfl
  obtain ⟨e, hr⟩ : ∃ e, h.refusal (some key) f.image.len = some e := by
    unfold Head.refusal
    cases h.gate (some key) with
    | error e => exact ⟨e, rfl⟩
    | ok => exact ⟨_, if_pos (Nat.not_le.mp hlt)⟩
  rw [hf.openDb_error hv hr] at heq
  cases heq

/-- What a key operation does to the file. -/
theorem Opened.keyOp_trace (hO : Opened ex m v t lost) (k : KeyOp) :
    (m.after k.toOp).cache.io.trace = m.cache.io.trace ∨
      (m.after k.toOp).cache.io.trace = m.cache.io.trace ++ [.sync] ∨
      Rekeyed k m (m.after k.toOp) := by
  cases hp : m.poisoned with
  | true =>
    rw [after_of_poisoned k.toOp hp]
    exact .inl rfl
  | false =>
    have hwp := hO.wp_keyOp hp k
    unfold TransactionManager.after
    cases hx : perform k.toOp m with
    | error e m' =>
      have hu : Unkeyed k m e m' := (wp_error hx).mp hwp
      cases hu with
      | refused => exact .inl rfl
      | @exhausted c he hwf hst =>
        have hio : c.io = m.cache.io.recordAll [.sync] := congrArg Store.io hst
        refine .inr (.inl ?_)
        change c.io.trace = _
        rw [hio]
        rfl
    | ok r m' => exact .inr (.inr ((wp_ok hx).mp hwp))

theorem Opened.heldBy (h : Opened ex m v t lost) : HeldBy m v t m.cache.io.image m.head :=
  ⟨⟨h.onDisk, h.slots_le_len, h.len ▸ h.bounded, h.stride⟩, rfl, h.total_le.trans h.len.le⟩

/-- What a power failure at any point of a key operation leaves. -/
theorem Opened.keyOp_survives (hO : Opened ex m v t lost)
    (hm : Moored b m.head v t (.ofIo m.cache.io)) (hs : m.Leaves b k.toOp image) :
    (b.replay (synced m.cache.io.trace)).Survives DiskUnit.Tears (unsynced m.cache.io.trace) image ∨
      (∃ hd, HeldBy m v t image hd ∧
        (hd.header = m.cryptoHeader ∨ hd.header = (m.after k.toOp).cryptoHeader)) ∨
      Lost m image := by
  unfold TransactionManager.Leaves at hs
  rcases hO.keyOp_trace k with htrace | htrace | hk
  · have hs : b.SurvivesPast DiskUnit.Tears (synced m.cache.io.trace).length
        (m.cache.io.trace ++ []) image := by
      rw [htrace] at hs
      rw [List.append_nil]
      exact hs
    have hs := hs.of_unsynced le_rfl
    rw [List.append_nil] at hs
    exact .inl hs
  · rw [htrace] at hs
    rcases (hs.of_unsynced le_rfl).of_sync with hs | hs
    · exact .inl hs
    · have himage : m.cache.io.image = b.replay m.cache.io.trace := hm.image
      rw [← Image.replay_append, synced_append_unsynced, ← himage] at hs
      rw [hs.nil]
      exact .inr (.inl ⟨_, hO.heldBy, .inl rfl⟩)
  · rcases hk.survives hO hm hs with hs | ⟨hd, hheld, -, hhead⟩ | hlost
    · exact .inl hs
    · refine .inr (.inl ⟨hd, hheld, hhead.imp ?_ ?_⟩)
      · exact congrArg Head.header
      · exact congrArg Head.header
    · exact .inr (.inr hlost)

/-- A failure before the first sync of the operation. -/
theorem Opened.leaves_unsynced (hO : Opened ex m v t lost) (k : KeyOp)
    {es : List (Event DiskUnit)}
    (hes : Remains DiskUnit.Tears (unsynced m.cache.io.trace) es) :
    m.Leaves b k.toOp ((b.replay (synced m.cache.io.trace)).replay es) := by
  obtain ⟨rest, htrace⟩ : ∃ rest, (m.after k.toOp).cache.io.trace = m.cache.io.trace ++ rest := by
    rcases hO.keyOp_trace k with h | h | h
    · exact ⟨[], h.trans (List.append_nil _).symm⟩
    · exact ⟨_, h⟩
    · obtain ⟨header', -, h, -⟩ := h.trace
      exact ⟨_, h⟩
  refine ⟨_, _, rest, es, ?_, Nat.le_add_right _ _, hes, rfl⟩
  rw [htrace, ← List.append_assoc, synced_append_unsynced]

/-- A cut of the file that was not synced can be all that is left of what followed it. -/
theorem Opened.cut_refused (hO : Opened ex m v t lost)
    (hm : Moored b m.head v t (.ofIo m.cache.io)) (k : KeyOp) {e : Event DiskUnit}
    (he : e ∈ unsynced m.cache.io.trace) (hcut : ¬ e.AtLeast m.committedRoots.totalPages) :
    ∃ image, m.Leaves b k.toOp image ∧ ∀ key, ¬ (m.fileWith image).OpensWith key := by
  obtain ⟨hf, hp, hrest⟩ := hm.base
  refine ⟨_, hO.leaves_unsynced k (.only sync_notMem_unsynced he), fun key ho => hcut ?_⟩
  have hfile : FileHolds m.head (m.fileWith ((b.replay (synced m.cache.io.trace)).replay [e])) v
    t :=
    hf.spared (fun e' he' => List.mem_singleton.mp he' ▸ hrest e he) rfl rfl
  have hle := hfile.le_len_of_opensWith ho
  cases e with
  | setLen n => exact hle
  | write | sync => trivial

/-- Wherever the power fails during a key operation, the file stays safe, if it is as long as its
superblock says where it was last synced, and no later cut makes it shorter. Otherwise a failure
can leave a file that is too short to be opened. -/
theorem keyOp_crash_safe_iff (hf : f.Reached) {steps : List Step}
    (hrun : (Db.closed f).run steps = .opened m) (hidle : m.activeTxn = false)
    (hspare : m.superblockCount = 2 → m.txnCounter ≠ 0) {key' : Key}
    (hbefore : m.accepts (some key) = true)
    (hafter : (m.after k.toOp).accepts (some key') = true) :
    (∀ image, m.Leaves f.image k.toOp image → k.Safe m (m.fileWith image)) ↔
      m.committedRoots.totalPages ≤ (f.image.replay (synced m.cache.io.trace)).len ∧
        ∀ e ∈ unsynced m.cache.io.trace, e.AtLeast m.committedRoots.totalPages := by
  obtain ⟨past, hb, hs⟩ := hf.sane hrun
  obtain ⟨v, t, lost, hO, -, hm⟩ := hs.opened hidle
  have hm := hm _ hb
  obtain ⟨hfile, hp, hrest⟩ := hm.base
  constructor
  · intro hsafe
    have hopens : ∀ image, m.Leaves f.image k.toOp image →
      ∃ key, (m.fileWith image).OpensWith key := by
      intro image hleft
      rcases (hsafe image hleft).either with h | h
      · exact ⟨key, h key hbefore⟩
      · exact ⟨key', h key' hafter⟩
    refine ⟨?_, fun e he => ?_⟩
    · obtain ⟨key, ho⟩ := hopens _ (hO.leaves_unsynced k (.lose_all sync_notMem_unsynced))
      have hfile' : FileHolds m.head (m.fileWith (f.image.replay (synced m.cache.io.trace))) v t :=
        hfile.spared (List.forall_mem_nil _) rfl rfl
      exact hfile'.le_len_of_opensWith ho
    · by_contra hcut
      obtain ⟨image, hleft, hno⟩ := hO.cut_refused hm k he hcut
      obtain ⟨key, ho⟩ := hopens image hleft
      exact hno key ho
  · rintro ⟨hlen, hcuts⟩ image hleft
    rcases hO.keyOp_survives hm hleft with hsurv | ⟨hd, hheld, hheader⟩ | hlost
    · have hleft : FileHolds m.head (m.fileWith image) v t ∧ Poised m.head image.cell :=
        hfile.survives hp hrest hsurv rfl
      have hheld : HeldBy m v t image m.head := by
        refine ⟨hleft.1, rfl, ?_⟩
        obtain ⟨es, rfl, hes⟩ := hsurv.events
        refine Image.le_replay_len (fun e he => ?_) _ hlen
        rcases hes e he with he | ⟨i, u, u', rfl, -⟩
        · exact hcuts e he
        · trivial
      exact hheld.safe hs hO (.inl rfl)
    · exact hheld.safe hs hO hheader
    · exact absurd hlost.counter (hspare hlost.slots)

/-- Three slots and two credentials, and a transaction that was rolled back. -/
def twoKeys : List Step :=
  [.open { superblockCount := 3, encryptionKey := some [1], dek := 7 }, .op (.addKey [1] [2]),
    .op .begin, .op (.allocate [5]), .op .rollback]

theorem keyOp_crash_safe_iff_rotation : ∃ m : TransactionManager,
    (Db.closed .empty).run twoKeys = .opened m ∧ unsynced m.cache.io.trace ≠ [] ∧
      ∀ image, m.Leaves DbFile.empty.image (.rotateKey [1] [3]) image →
        (KeyOp.rotate [1] [3]).Safe m (m.fileWith image) := by
  have hopen : ((Db.closed .empty).run twoKeys).holds (fun m => decide (m.activeTxn = false ∧
      m.superblockCount = 3 ∧ m.accepts (some [2]) = true ∧
      (m.after (.rotateKey [1] [3])).accepts (some [2]) = true ∧
      (unsynced m.cache.io.trace).length = 1 ∧
      m.committedRoots.totalPages ≤ (DbFile.empty.image.replay (synced m.cache.io.trace)).len ∧
      ∀ e ∈ unsynced m.cache.io.trace, e.AtLeast m.committedRoots.totalPages)) = true := by
    decide +kernel
  obtain ⟨m, hrun, hm⟩ := Db.of_holds hopen
  obtain ⟨hidle, hthree, hbefore, hafter, hone, hcond⟩ := of_decide_eq_true hm
  refine ⟨m, hrun, List.ne_nil_of_length_eq_add_one hone, (keyOp_crash_safe_iff .empty hrun hidle ?_
    hbefore (k := .rotate [1] [3]) hafter).mpr hcond⟩
  omega

/-- The committed end of the file is beyond its pages, and a transaction cut it there before it was
rolled back. -/
def cutRun : List Step :=
  [.open { encryptionKey := some [1], dek := 7 }, .op .begin, .op (.allocate [5]),
    .op (.savepoint "a"), .op (.rollbackTo "a"), .drop, .open { encryptionKey := some [1] },
    .op .begin, .op .commit, .op .begin, .op (.savepoint "b"), .op (.rollbackTo "b"), .op .rollback]

/-- The file is extended again without a sync, and the cut can be all that is left. -/
theorem cutRun_refused : ∃ m : TransactionManager, (Db.closed .empty).run cutRun = .opened m ∧
    m.txnCounter = 2 ∧ m.accepts (some [1]) = true ∧ m.failure (.addKey [1] [2]) = none ∧
    ∃ image, m.Leaves DbFile.empty.image (.addKey [1] [2]) image ∧
      ∀ key, ¬ (m.fileWith image).OpensWith key := by
  have hopen : ((Db.closed .empty).run cutRun).holds (fun m => decide (m.activeTxn = false ∧
      m.txnCounter = 2 ∧ m.accepts (some [1]) = true ∧ m.failure (.addKey [1] [2]) = none ∧
      ∃ e ∈ unsynced m.cache.io.trace, ¬ e.AtLeast m.committedRoots.totalPages)) = true := by
    decide +kernel
  obtain ⟨m, hrun, hm⟩ := Db.of_holds hopen
  obtain ⟨hidle, hcounter, hkey, hok, e, he, hcut⟩ := of_decide_eq_true hm
  obtain ⟨past, hb, hs⟩ := DbFile.Reached.empty.sane hrun
  obtain ⟨v, t, lost, hO, -, hmoored⟩ := hs.opened hidle
  exact ⟨m, hrun, hcounter, hkey, hok, hO.cut_refused (hmoored _ hb) (.add [1] [2]) he hcut⟩

end Keys

end Chisel
