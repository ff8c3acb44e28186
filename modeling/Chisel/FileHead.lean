import Chisel.Idle
import Chisel.NewFile

/-! What the file says about the committed state: the superblock that recovery picks, and the
version and the free map that its roots lead to. -/

namespace Chisel

open StateError PageCache TransactionManager RadixTree Ledger Device

/-- What a superblock records. -/
structure Head where
  slots : Nat
  counter : Nat
  cipher : Option Dek
  header : Option CryptoHeader
  roots : Roots

namespace Head

def superblock (h : Head) : Superblock :=
  buildSuperblock h.roots h.roots.totalPages h.counter h.slots h.header

def unit (h : Head) : DiskUnit := h.superblock.serialize h.cipher

end Head

/-- The head of the state that the manager committed last. -/
def TransactionManager.head (m : TransactionManager) : Head :=
  ⟨m.superblockCount, m.txnCounter, m.cache.cipher, m.cryptoHeader, m.committedRoots⟩

/-- All active key slots wrap the key that the pages are sealed under. -/
def Wraps (cipher : Option Dek) (header : Option CryptoHeader) : Prop :=
  header.isSome = cipher.isSome ∧
    ∀ h, header = some h → ∀ key dek, KeySlot.active key dek ∈ h.slots → cipher = some dek

/-- The slot `p` holds the newest superblock. -/
structure LeadsAt (h : Head) (cell : Nat → DiskUnit) (p : Nat) : Prop where
  lt : p < h.slots
  unit : cell p = h.unit
  older : ∀ i < h.slots, i ≠ p → ∀ r, recordOf (cell i) = some r → r.1 < h.counter

/-- The superblock slots of a file: the newest one is `h`, the slots hold no pages, and nothing
behind them looks like a superblock. -/
structure Headed (h : Head) (cell : Nat → DiskUnit) : Prop where
  two_le : 2 ≤ h.slots
  le_max : h.slots ≤ 16
  counter_le : h.counter ≤ maxTxnCounter
  wraps : Wraps h.cipher h.header
  leads : ∃ p, LeadsAt h cell p
  slot : ∀ i < h.slots, ∀ sealedFor buf, cell i ≠ .page sealedFor buf
  page : ∀ i, h.slots ≤ i → ∀ sb sealedBy, cell i ≠ .super sb sealedBy
  kind : ∀ i sb sealedBy, cell i = .super sb sealedBy →
    sb.encryption.isSome = h.header.isSome ∧ sb.superblockCount = h.slots

section Heading

variable {h h' : Head} {cell cell' : Nat → DiskUnit}

theorem Head.recordOf_unit (hn : 2 ≤ h.slots) (hn' : h.slots ≤ 16)
    (hc : h.counter ≤ maxTxnCounter) :
    recordOf h.unit = some (h.counter, { h.superblock with txnCounter := 0 }) := by
  simp [Head.unit, Head.superblock, Superblock.serialize, recordOf, buildSuperblock,
    Superblock.valid, minSuperblocks, maxSuperblocks, hn, hn', hc]

/-- The next superblock goes to the slot of its counter and leads from then on. -/
theorem Headed.put_leads (hd : Headed h cell) (hslots : h'.slots = h.slots)
    (hcounter : h'.counter = h.counter + 1) :
    LeadsAt h' (Function.update cell (h'.counter % h'.slots) h'.unit) (h'.counter % h'.slots) := by
  have hn := hd.two_le
  obtain ⟨p, hp⟩ := hd.leads
  refine ⟨Nat.mod_lt _ (by omega), Function.update_self .., fun i hi hne r hr => ?_⟩
  rw [Function.update_of_ne hne] at hr
  by_cases hip : i = p
  · subst hip
    rw [hp.unit, Head.recordOf_unit hn hd.le_max hd.counter_le, Option.some.injEq] at hr
    rw [← hr]
    omega
  · have := hp.older i (by omega) hip r hr
    omega

theorem Headed.put (hd : Headed h cell) (hslots : h'.slots = h.slots)
    (hcounter : h'.counter = h.counter + 1) (hle : h'.counter ≤ maxTxnCounter)
    (hwraps : Wraps h'.cipher h'.header) (hkind : h'.header.isSome = h.header.isSome) :
    Headed h' (Function.update cell (h'.counter % h'.slots) h'.unit) := by
  have hn := hd.two_le
  have hlt : h'.counter % h'.slots < h'.slots := Nat.mod_lt _ (by omega)
  refine ⟨by omega, by rw [hslots]; exact hd.le_max, hle, hwraps,
    ⟨_, hd.put_leads hslots hcounter⟩, fun i hi s b => ?_, fun i hi sb s => ?_,
    fun i sb s hi => ?_⟩
  · by_cases hne : i = h'.counter % h'.slots
    · rw [hne, Function.update_self]
      exact nofun
    · rw [Function.update_of_ne hne]
      exact hd.slot i (by omega) s b
  · rw [Function.update_of_ne (by omega)]
    exact hd.page i (by omega) sb s
  · by_cases hne : i = h'.counter % h'.slots
    · rw [hne, Function.update_self] at hi
      obtain ⟨rfl, -⟩ : h'.superblock = sb ∧ h'.cipher = s := by
        simpa [Head.unit, Superblock.serialize] using hi
      exact ⟨rfl, rfl⟩
    · rw [Function.update_of_ne hne] at hi
      rw [hkind, hslots]
      exact hd.kind i sb s hi

/-! ### Damage -/

/-- What a power failure can make of a write: a unit without a valid checksum, which may still
hold a table of key slots. -/
def DiskUnit.Tears (_ u' : DiskUnit) : Prop := u' = .torn ∨ ∃ table, u' = .stale table

/-- What can become of a superblock that is not the newest: it is torn, or its key table is
replaced. -/
inductive Faded (u : DiskUnit) : DiskUnit → Prop
  | same : Faded u u
  | torn : Faded u .torn
  | stale {table : List KeySlot} : Faded u (.stale table)
  | rekeyed {sb : Superblock} {sealedBy : Option Dek} {header : CryptoHeader}
    (hu : u = .super sb sealedBy) (hv : sb.valid = true) :
    Faded u (.super { sb with encryption := sb.encryption.map fun _ => header } sealedBy)

theorem DiskUnit.Tears.faded {u u' : DiskUnit} (h : DiskUnit.Tears u u') (u0 : DiskUnit) :
    Faded u0 u' := by
  rcases h with rfl | ⟨table, rfl⟩
  · exact .torn
  · exact .stale

/-- As long as the newest superblock is there, the others do not matter. -/
theorem Headed.weather (hd : Headed h cell) {p : Nat} (hp : LeadsAt h cell p)
    (hlead : cell' p = cell p) (hslot : ∀ i < h.slots, Faded (cell i) (cell' i))
    (hpage : ∀ i, h.slots ≤ i → ∀ sb sealedBy, cell' i ≠ .super sb sealedBy) :
    Headed h cell' ∧ LeadsAt h cell' p := by
  have hlead' : LeadsAt h cell' p := by
    refine ⟨hp.lt, hlead.trans hp.unit, fun i hi hne r hr => ?_⟩
    have hf := hslot i hi
    generalize hu' : cell' i = u' at hf hr
    cases hf with
    | same => exact hp.older i hi hne r hr
    | torn | stale => cases hr
    | rekeyed hu hv =>
      rename_i sb sealedBy header
      have hold : recordOf (cell i) = some (sb.txnCounter, { sb with txnCounter := 0 }) := by
        rw [hu]
        exact if_pos hv
      rw [recordOf_super hr]
      exact hp.older i hi hne _ hold
  refine ⟨⟨hd.two_le, hd.le_max, hd.counter_le, hd.wraps, ⟨p, hlead'⟩, fun i hi s b hc => ?_,
    hpage, fun i sb s hc => ?_⟩, hlead'⟩
  · have hf := hslot i hi
    rw [hc] at hf
    generalize hu : cell i = u at hf
    cases hf
    exact hd.slot i hi s b hu
  · have hi : i < h.slots := Nat.lt_of_not_le fun hle => hpage i hle sb s hc
    have hf := hslot i hi
    rw [hc] at hf
    generalize hu : cell i = u at hf
    cases hf with
    | same => exact hd.kind i sb s hu
    | rekeyed hsb hv =>
      subst hsb
      obtain ⟨henc, hcount⟩ := hd.kind i _ s hu
      exact ⟨Option.isSome_map.trans henc, hcount⟩

theorem Headed.frame (hd : Headed h cell) (hslot : ∀ i < h.slots, cell' i = cell i)
    (hsuper : ∀ i sb s, cell' i = .super sb s → cell i = .super sb s) : Headed h cell' := by
  obtain ⟨p, hp⟩ := hd.leads
  refine (hd.weather hp (hslot p hp.lt) (fun i hi => ?_) fun i hi sb s hc => ?_).1
  · rw [hslot i hi]
    exact .same
  · exact hd.page i hi sb s (hsuper i sb s hc)

theorem LeadsAt.frame {p : Nat} (hp : LeadsAt h cell p)
    (hslot : ∀ i < h.slots, cell' i = cell i) : LeadsAt h cell' p where
  lt := hp.lt
  unit := (hslot p hp.lt).trans hp.unit
  older i hi hne r hr := hp.older i hi hne r (hslot i hi ▸ hr)

/-- A torn slot may hold another damaged unit. -/
theorem Headed.retear {p q : Nat} {u u' : DiskUnit} (hd : Headed h (Function.update cell q .torn))
    (hp : LeadsAt h (Function.update cell q .torn) p) (hu : DiskUnit.Tears u u') :
    Headed h (Function.update cell q u') ∧ LeadsAt h (Function.update cell q u') p := by
  have hpq : p ≠ q := by
    rintro rfl
    have hunit := hp.unit
    rw [Function.update_self] at hunit
    cases hunit
  refine hd.weather hp ?_ (fun i hi => ?_) fun i hi sb s hc => ?_
  · rw [Function.update_of_ne hpq, Function.update_of_ne hpq]
  · by_cases hi : i = q
    · rw [hi, Function.update_self, Function.update_self]
      exact hu.faded _
    · rw [Function.update_of_ne hi, Function.update_of_ne hi]
      exact .same
  · by_cases hiq : i = q
    · rw [hiq, Function.update_self] at hc
      rcases hu with rfl | ⟨table, rfl⟩ <;> cases hc
    · have hpage := hd.page i hi sb s
      rw [Function.update_of_ne hiq] at hc hpage
      exact hpage hc

/-- The slots between two writes. The next write spares the newest superblock; or the database is
new, and without its first slot the second one leads; or there are two slots, and the next write
goes to the only one that validates. -/
inductive Poised (h : Head) (cell : Nat → DiskUnit) : Prop
  | anchored {p : Nat} (pos : 0 < h.counter) (leads : LeadsAt h cell p)
    (spared : (h.counter + 1) % h.slots ≠ p)
  | seeded (counter : h.counter + 1 = h.slots)
    (headed : Headed { h with counter := h.slots - 2 } (Function.update cell 0 .torn))
    (leads : LeadsAt { h with counter := h.slots - 2 } (Function.update cell 0 .torn) 1)
  | cornered (slots : h.slots = 2) (counter : h.counter = 0) (leads : LeadsAt h cell 1)

/-- A superblock in the slot of its counter is not the one that is written next. -/
theorem Headed.poised (hd : Headed h cell) (hp : LeadsAt h cell (h.counter % h.slots))
    (hpos : 0 < h.counter) : Poised h cell :=
  .anchored hpos hp (succ_mod_ne hd.two_le h.counter)

theorem Poised.frame (hb : Poised h cell) (hslot : ∀ i < h.slots, cell' i = cell i)
    (hsuper : ∀ i sb s, cell' i = .super sb s → cell i = .super sb s) : Poised h cell' := by
  cases hb with
  | anchored hpos hleads hspared => exact .anchored hpos (hleads.frame hslot) hspared
  | cornered hslots hcounter hleads => exact .cornered hslots hcounter (hleads.frame hslot)
  | seeded hcounter hheaded hleads =>
    have hslot' : ∀ i < h.slots,
        Function.update cell' 0 .torn i = Function.update cell 0 .torn i := by
      intro i hi
      by_cases h0 : i = 0
      · rw [h0, Function.update_self, Function.update_self]
      · rw [Function.update_of_ne h0, Function.update_of_ne h0]
        exact hslot i hi
    refine .seeded hcounter (hheaded.frame hslot' fun i sb s hc => ?_) (hleads.frame hslot')
    by_cases h0 : i = 0
    · rw [h0, Function.update_self] at hc
      cases hc
    · rw [Function.update_of_ne h0] at hc ⊢
      exact hsuper i sb s hc

/-- The next write is torn. -/
theorem Poised.torn (hb : Poised h cell) (hd : Headed h cell)
    (hsafe : ¬ (h.slots = 2 ∧ h.counter = 0)) {u u' : DiskUnit} (hu : DiskUnit.Tears u u') :
    ∃ counter, Headed { h with counter } (Function.update cell ((h.counter + 1) % h.slots) u') ∧
      Poised { h with counter } (Function.update cell ((h.counter + 1) % h.slots) u') := by
  have hn := hd.two_le
  have hlt : (h.counter + 1) % h.slots < h.slots := Nat.mod_lt _ (by omega)
  cases hb with
  | @anchored p hpos hleads hspared =>
    have hw : Headed h (Function.update cell ((h.counter + 1) % h.slots) u') ∧
        LeadsAt h (Function.update cell ((h.counter + 1) % h.slots) u') p := by
      refine hd.weather hleads (Function.update_of_ne hspared.symm ..) (fun i _ => ?_)
        fun i hi sb s => ?_
      · by_cases hne : i = (h.counter + 1) % h.slots
        · rw [hne, Function.update_self]
          exact hu.faded _
        · rw [Function.update_of_ne hne]
          exact .same
      · rw [Function.update_of_ne (by omega)]
        exact hd.page i hi sb s
    exact ⟨h.counter, hw.1, .anchored hpos hw.2 hspared⟩
  | seeded hcounter hheaded hleads =>
    rw [hcounter, Nat.mod_self]
    obtain ⟨hd', hleads'⟩ := hheaded.retear hleads hu
    refine ⟨h.slots - 2, hd', ?_⟩
    by_cases htwo : h.slots = 2
    · exact .cornered htwo (by change h.slots - 2 = 0; omega) hleads'
    · refine .anchored (by change 0 < h.slots - 2; omega) hleads' ?_
      change (h.slots - 2 + 1) % h.slots ≠ 1
      rw [Nat.mod_eq_of_lt (by omega)]
      omega
  | cornered hslots hcounter => exact absurd ⟨hslots, hcounter⟩ hsafe

/-- Two slots, one of which validates: when the next write is torn, none is left. -/
theorem Poised.torn_none (hb : Poised h cell) (hslots : h.slots = 2) (hcounter : h.counter = 0)
    {u u' : DiskUnit} (hu : DiskUnit.Tears u u') {i : Nat} (hi : i < 2) :
    recordOf (Function.update cell ((h.counter + 1) % h.slots) u' i) = none := by
  cases hb with
  | anchored hpos => omega
  | seeded hseeded => omega
  | cornered _ _ hleads =>
    rw [hslots, hcounter]
    change recordOf (Function.update cell 1 u' i) = none
    by_cases hi1 : i = 1
    · rw [hi1, Function.update_self]
      rcases hu with rfl | ⟨table, rfl⟩ <;> rfl
    · rw [Function.update_of_ne hi1]
      cases hr : recordOf (cell i) with
      | none => rfl
      | some r => exact absurd (hleads.older i (by omega) hi1 r hr) (by omega)

end Heading

def strideOf (cipher : Option Dek) : Nat := if cipher.isSome then encPageSize else pageSize

/-- A manager between two transactions, on a file whose newest superblock is what it committed
last. -/
structure Opened (ex : Prop) (m : TransactionManager) (v : Version) (t : PageTree Bool)
    (lost : Nat → Nat) : Prop extends Idle ex m v t lost where
  headed : Headed m.head m.cache.io.image.cell
  stride : m.cache.io.fileStride = strideOf m.cache.cipher

/-- Another cache with the same pages, and another superblock over them. -/
theorem Idle.reseat {ex : Prop} {m : TransactionManager} {v : Version} {t : PageTree Bool}
    {lost : Nat → Nat} {c : PageCache} (h : Idle ex m v t lost) (hwf : c.WF)
    (hview : c.store.view = m.cache.store.view) (hhot : c.store.hot = ∅)
    (hnext : c.store.next = m.cache.store.next)
    (hlen : c.store.io.pageCount = m.cache.store.io.pageCount) {total : Nat}
    (hle : m.cache.store.next ≤ total) (hge : total ≤ m.cache.store.io.pageCount) (counter : Nat)
    (header : Option CryptoHeader) (poisoned : Bool) :
    Idle ex { m with
      cache := c, committedRoots.totalPages := total, txnCounter := counter
      cryptoHeader := header, poisoned := poisoned } v t lost := by
  refine ⟨h.inactive, hhot, ?_, ?_, ?_, fun x => ?_, h.exact, h.counts, ?_, ?_, ?_, fun he => ?_,
    h.map⟩
  · have hmax := h.alloc.sound.next_le
    exact h.alloc.transfer hwf hnext.ge (hnext.trans_le hmax) (fun x _ => congrFun hview x) rfl rfl
      rfl rfl
  · change v.Ok c.store.view
    rw [hview]
    exact h.ok
  · exact { h.tied with }
  · change _ = between m.superblockCount c.store.next x
    rw [hnext]
    exact h.ledger x
  · exact hnext.trans_le hle
  · exact hge.trans hlen.ge
  · exact hlen.trans_le h.bounded
  · change c.store.io.pageCount ≤ c.store.next
    rw [hlen, hnext]
    exact h.short he

/-! ### Writing a superblock -/

section Writing

variable {c : PageCache} {id : Nat}

theorem PageCache.WF.onDisk_of_slot (h : c.WF)
    (hcell : ∀ sealedFor buf, c.io.image.cell id ≠ .page sealedFor buf) : c.onDisk id = none := by
  refine (diskBuf_cell h.io_aligned).trans ?_
  cases hu : c.io.image.cell id with
  | page s b => exact absurd hu (hcell s b)
  | _ => rfl

theorem wp_writeSuperblock (h : c.WF) (hro : c.io.readOnly = false) (sb : Superblock)
    (hhot : sb.txnCounter % sb.superblockCount ∉ c.store.hot)
    (hcell : ∀ sealedFor buf,
      c.io.image.cell (sb.txnCounter % sb.superblockCount) ≠ .page sealedFor buf)
    {E : ChiselError → PageCache → Prop} :
    wp (writeSuperblock sb) c
      (fun _ c' => c'.WF ∧ c'.store = { c.store with
        io := c.io.recordAll
          [.write (sb.txnCounter % sb.superblockCount) (sb.serialize c.cipher), .sync] }) E := by
  obtain ⟨hwf1, hst1⟩ := h.writeSlot (u := sb.serialize c.cipher) hhot (h.onDisk_of_slot hcell) rfl
  obtain ⟨hwf2, hst2⟩ := hwf1.sync
  simp only [writeSuperblock, onIo, wp_bind, wp_get, PageIo.writePageUnit, hro, Bool.false_eq_true,
    if_false, wp_set, PageIo.fsync]
  have hro' : (c.io.record (.write (sb.txnCounter % sb.superblockCount)
      (sb.serialize c.cipher))).readOnly = false := hro
  simp only [hro', Bool.false_eq_true, if_false, wp_set]
  refine ⟨hwf2, ?_⟩
  rw [hst2, hst1]
  rfl

end Writing

end Chisel
