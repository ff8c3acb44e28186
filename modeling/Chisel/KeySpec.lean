import Chisel.KeyTable
import Chisel.OnDisk

/-! What a key operation does to the file: a new superblock with the new table of key slots, and
then the new table in all other slots that validate. -/

namespace Chisel

open StateError PageCache TransactionManager RadixTree Ledger Device

/-! ### The scrub -/

def scrubWrites (header : CryptoHeader) (written : Nat) (cell : Nat → DiskUnit) (slots : List Nat) :
    List (Event DiskUnit) :=
  slots.filterMap fun i =>
    if i = written then none else (header.overwriteSlotTable (cell i)).map (.write i)

def scrubbed (header : CryptoHeader) (written n : Nat) (cell : Nat → DiskUnit) (i : Nat) :
    DiskUnit :=
  if i < n ∧ i ≠ written then (header.overwriteSlotTable (cell i)).getD (cell i) else cell i

section Scrubbing

variable {header : CryptoHeader} {written n : Nat} {cell : Nat → DiskUnit} {c : PageCache}
  {slots : List Nat} {u u' : DiskUnit}

theorem overwriteSlotTable_some (h : header.overwriteSlotTable u = some u') :
    ∃ sb sealedBy, u = .super sb sealedBy ∧ sb.valid = true ∧
      u' = .super { sb with encryption := sb.encryption.map fun _ => header } sealedBy := by
  cases u with
  | super sb sealedBy =>
    simp only [CryptoHeader.overwriteSlotTable, Option.ite_none_right_eq_some,
      Option.some.injEq] at h
    exact ⟨sb, sealedBy, rfl, h.1, h.2.symm⟩
  | _ => cases h

theorem scrubWrites_congr {cell' : Nat → DiskUnit} (h : ∀ i ∈ slots, cell' i = cell i) :
    scrubWrites header written cell' slots = scrubWrites header written cell slots :=
  List.filterMap_congr fun i hi => by rw [h i hi]

theorem wp_scrubSlots (h : c.WF) (hro : c.io.readOnly = false) (hnodup : slots.Nodup)
    (hlt : ∀ i ∈ slots, i < c.io.image.len) (hhot : ∀ i ∈ slots, i ∉ c.store.hot)
    (hcell : ∀ i ∈ slots, ∀ sealedFor buf, c.io.image.cell i ≠ .page sealedFor buf)
    {E : ChiselError → PageCache → Prop} :
    wp (scrubSlots header written slots) c
      (fun _ c' => c'.WF ∧ c'.store = { c.store with
        io := c.io.recordAll (scrubWrites header written c.io.image.cell slots) }) E := by
  induction slots generalizing c with
  | nil => exact wp_ret ⟨h, rfl⟩
  | cons i rest ih =>
    obtain ⟨hi, hnodup'⟩ := List.nodup_cons.mp hnodup
    have hskip : (if i = written then none
          else (header.overwriteSlotTable (c.io.image.cell i)).map (Event.write i)) = none →
        wp (scrubSlots header written rest) c
          (fun _ c' => c'.WF ∧ c'.store = { c.store with
            io := c.io.recordAll (scrubWrites header written c.io.image.cell (i :: rest)) }) E := by
      intro hnone
      have heq : scrubWrites header written c.io.image.cell (i :: rest) =
          scrubWrites header written c.io.image.cell rest := List.filterMap_cons_none hnone
      rw [heq]
      exact ih h hro hnodup' (fun j hj => hlt j (List.mem_cons_of_mem _ hj))
        (fun j hj => hhot j (List.mem_cons_of_mem _ hj))
        fun j hj => hcell j (List.mem_cons_of_mem _ hj)
    unfold scrubSlots
    by_cases hw : i = written
    · rw [if_neg (not_not.mpr hw)]
      exact hskip (if_pos hw)
    rw [if_pos hw]
    have hread : c.io.readPageUnit i = .ok (c.io.image.cell i) := by
      rw [h.io_aligned.readPageUnit, if_neg (Nat.not_le.mpr (hlt i List.mem_cons_self))]
    rw [wp_bind, wp_get]
    dsimp only
    rw [hread]
    dsimp only
    cases hu : header.overwriteSlotTable (c.io.image.cell i) with
    | none =>
      refine hskip ?_
      rw [if_neg hw, hu]
      rfl
    | some u =>
      dsimp only
      obtain ⟨sb, sealedBy, -, -, rfl⟩ := overwriteSlotTable_some hu
      set u : DiskUnit := .super { sb with encryption := sb.encryption.map fun _ => header }
        sealedBy
      obtain ⟨hwf, hst⟩ := h.writeSlot (u := u) (hhot i List.mem_cons_self)
        (h.onDisk_of_slot (hcell i List.mem_cons_self)) rfl
      simp only [onIo, wp_bind, wp_get, PageIo.writePageUnit, hro, Bool.false_eq_true, if_false,
        wp_set]
      set c1 : PageCache := { c with io := c.io.record (.write i u) }
      have hother : ∀ j ∈ rest, c1.io.image.cell j = c.io.image.cell j := by
        intro j hj
        exact c.io.image.write_cell_ne _ (by rintro rfl; exact hi hj)
      refine wp_mono (ih hwf hro hnodup' (fun j hj => ?_) (fun j hj => ?_) fun j hj => ?_) ?_
        fun _ _ he => he
      · have := hlt j (List.mem_cons_of_mem _ hj)
        change j < max c.io.image.len (i + 1)
        omega
      · rw [hst]
        exact hhot j (List.mem_cons_of_mem _ hj)
      · rw [hother j hj]
        exact hcell j (List.mem_cons_of_mem _ hj)
      · rintro _ c' ⟨hwf', hst'⟩
        refine ⟨hwf', ?_⟩
        have heq : scrubWrites header written c.io.image.cell (i :: rest) =
            .write i u :: scrubWrites header written c1.io.image.cell rest := by
          rw [scrubWrites_congr hother]
          refine List.filterMap_cons_some ?_
          rw [if_neg hw, hu]
          rfl
        rw [hst', hst, heq]
        rfl

theorem replay_scrubWrites (header : CryptoHeader) (written : Nat) (image : Image DiskUnit)
    {slots : List Nat} (hnodup : slots.Nodup) (i : Nat) :
    (image.replay (scrubWrites header written image.cell slots)).cell i =
      if i ∈ slots ∧ i ≠ written then (header.overwriteSlotTable (image.cell i)).getD (image.cell i)
      else image.cell i := by
  induction slots generalizing image with
  | nil => rw [if_neg fun h => List.not_mem_nil h.1]; rfl
  | cons j rest ih =>
    obtain ⟨hj, hnodup'⟩ := List.nodup_cons.mp hnodup
    cases hf : (if j = written then none
        else (header.overwriteSlotTable (image.cell j)).map (Event.write j)) with
    | none =>
      have heq : scrubWrites header written image.cell (j :: rest) =
          scrubWrites header written image.cell rest := List.filterMap_cons_none hf
      rw [heq, ih image hnodup']
      by_cases hij : i = j
      · subst hij
        rw [if_neg fun h => hj h.1]
        by_cases hw : i = written
        · rw [if_neg fun h => h.2 hw]
        · rw [if_pos ⟨List.mem_cons_self, hw⟩]
          rw [if_neg hw, Option.map_eq_none_iff] at hf
          rw [hf]
          rfl
      · simp only [List.mem_cons, hij, false_or]
    | some e =>
      have hw : j ≠ written := by
        intro hw
        rw [if_pos hw] at hf
        cases hf
      have hf' := hf
      rw [if_neg hw, Option.map_eq_some_iff] at hf'
      obtain ⟨u, hu, rfl⟩ := hf'
      have hother : ∀ k ∈ rest, (image.write j u).cell k = image.cell k := by
        intro k hk
        exact image.write_cell_ne _ (by rintro rfl; exact hj hk)
      have heq : scrubWrites header written image.cell (j :: rest) =
          .write j u :: scrubWrites header written (image.write j u).cell rest := by
        rw [scrubWrites_congr hother]
        exact List.filterMap_cons_some hf
      rw [heq]
      change ((image.write j u).replay _).cell i = _
      rw [ih _ hnodup']
      by_cases hij : i = j
      · subst hij
        rw [if_neg fun h => hj h.1, if_pos ⟨List.mem_cons_self, hw⟩, Image.write_cell_self, hu]
        rfl
      · rw [Image.write_cell_ne _ _ hij]
        simp only [List.mem_cons, hij, false_or]

theorem faded_scrubbed (header : CryptoHeader) (written n : Nat) (cell : Nat → DiskUnit) (i : Nat) :
    Faded (cell i) (scrubbed header written n cell i) := by
  unfold scrubbed
  split
  · cases hu : header.overwriteSlotTable (cell i) with
    | none => exact .same
    | some u =>
      obtain ⟨sb, sealedBy, hc, hv, rfl⟩ := overwriteSlotTable_some hu
      exact .rekeyed hc hv
  · exact .same

theorem Headed.scrub (header : CryptoHeader) {h : Head} (hd : Headed h cell) {p : Nat}
    (hp : LeadsAt h cell p) :
    Headed h (scrubbed header p h.slots cell) ∧ LeadsAt h (scrubbed header p h.slots cell) p := by
  refine hd.weather hp (if_neg fun hi => hi.2 rfl) (fun i _ => faded_scrubbed header p _ cell i)
    fun i hi sb s => ?_
  rw [scrubbed, if_neg (by omega)]
  exact hd.page i hi sb s

end Scrubbing

/-! ### The rewrite -/

theorem PageCache.Flush.of_cold {s s' : Store} (hf : Flush s s') (hhot : s.hot = ∅) :
    s' = { s with io := s.io.record .sync } := by
  obtain ⟨ws, hio, hws, -⟩ := hf.events
  obtain rfl : ws = [] := by
    cases ws with
    | nil => rfl
    | cons w rest =>
      have := (hws w List.mem_cons_self).1
      rw [hhot] at this
      exact absurd this (Finset.notMem_empty _)
  exact Store.ext hf.view (hf.hot.trans hhot.symm) hio hf.next hf.room hf.cipher

def TransactionManager.rekeyedHead (m : TransactionManager) (header : CryptoHeader) : Head :=
  ⟨m.superblockCount, m.txnCounter + 1, m.cache.cipher, some header,
    { m.committedRoots with totalPages := m.cache.io.pageCount }⟩

/-- The cells of the file after the new superblock was written and before the scrub. -/
def TransactionManager.rekeyedCells (m : TransactionManager) (header : CryptoHeader) :
    Nat → DiskUnit :=
  Function.update m.cache.io.image.cell ((m.txnCounter + 1) % m.superblockCount)
    (m.rekeyedHead header).unit

/-- Everything a key operation does to the file. -/
def TransactionManager.rekeyEvents (m : TransactionManager) (header : CryptoHeader) :
    List (Event DiskUnit) :=
  [.sync, .write ((m.txnCounter + 1) % m.superblockCount) (m.rekeyedHead header).unit, .sync] ++
    scrubWrites header ((m.txnCounter + 1) % m.superblockCount) (m.rekeyedCells header)
      (List.range m.superblockCount) ++ [.sync]

def TransactionManager.rekeyed (m : TransactionManager) (c : PageCache) (header : CryptoHeader) :
    TransactionManager :=
  { m with
    cache := c
    txnCounter := m.txnCounter + 1
    cryptoHeader := some header
    committedRoots.totalPages := m.cache.io.pageCount }

theorem nextTxnCounter_error {current : Nat} {e : ChiselError}
    (h : nextTxnCounter current = .error e) : e = .txnCounterExhausted current := by
  unfold nextTxnCounter at h
  dsimp only at h
  split at h
  · exact (Except.error.inj h).symm
  · cases h

section Rewriting

variable {ex : Prop} {m : TransactionManager} {v : Version} {t : PageTree Bool} {lost : Nat → Nat}
  {header : CryptoHeader} {c : PageCache}

theorem wp_onIo_fsync (h : c.WF) (hro : c.io.readOnly = false)
    {E : ChiselError → PageCache → Prop} :
    wp (onIo PageIo.fsync) c
      (fun _ c' => c'.WF ∧ c'.store = { c.store with io := c.store.io.record .sync }) E := by
  obtain ⟨hwf, hst⟩ := h.sync
  simp only [onIo, wp_bind, wp_get, PageIo.fsync, hro, Bool.false_eq_true, if_false, wp_set]
  exact ⟨hwf, hst⟩

/-- The rewrite of the superblocks goes through, unless the counter is exhausted. -/
theorem Opened.wp_rewriteCryptoHeaderInner (h : Opened ex m v t lost)
    (hro : m.cache.io.readOnly = false) :
    wp (rewriteCryptoHeaderInner header) m
      (fun _ m' => m.txnCounter + 1 ≤ maxTxnCounter ∧ ∃ c, c.WF ∧
        c.store = { m.cache.store with io := m.cache.io.recordAll (m.rekeyEvents header) } ∧
        m' = m.rekeyed c header)
      (fun e m' => e = .txnCounterExhausted m.txnCounter ∧ ∃ c, c.WF ∧
        c.store = { m.cache.store with io := m.cache.io.recordAll [.sync] } ∧
        m' = { m with cache := c }) := by
  have hn : 2 ≤ m.superblockCount := h.headed.two_le
  have hslot : (m.txnCounter + 1) % m.superblockCount < m.superblockCount :=
    Nat.mod_lt _ (by omega)
  have hcold : ∀ x, x ∉ m.cache.store.hot := fun x => by
    rw [h.cold]
    exact Finset.notMem_empty x
  unfold rewriteCryptoHeaderInner
  rw [wp_bind, wp_withCache]
  refine wp_mono (wp_flush h.wf hro (E := fun _ _ => False)) ?_ fun _ _ hf => hf.elim
  intro _ c1 ⟨hwf1, hf1⟩
  have hst1 := hf1.of_cold h.cold
  have hio1 : c1.io = m.cache.io.record .sync := congrArg Store.io hst1
  have hcip1 : c1.cipher = m.cache.cipher := congrArg Store.cipher hst1
  have hro1 : c1.io.readOnly = false := by
    rw [hio1]
    exact hro
  rw [wp_bind, wp_get, wp_bind]
  refine wp_liftExcept (fun counter hc => ?_) fun e he => ?_
  swap
  · exact ⟨nextTxnCounter_error he, c1, hwf1, hst1, rfl⟩
  obtain ⟨rfl, hle⟩ := nextTxnCounter_ok hc
  rw [wp_bind, wp_modify, wp_bind, wp_get]
  dsimp only
  have htotal : c1.filePageCount = m.cache.io.pageCount := by
    unfold PageCache.filePageCount
    rw [hio1]
    rfl
  rw [wp_bind, wp_withCache, htotal]
  have hcell1 : ∀ i, c1.io.image.cell i = m.cache.io.image.cell i := fun i => by
    rw [hio1]
    rfl
  refine wp_mono (wp_writeSuperblock hwf1 hro1 _ ?_ ?_ (E := fun _ _ => False)) ?_
    fun _ _ hf => hf.elim
  · rw [hst1]
    exact hcold _
  · intro s b
    rw [hcell1]
    exact h.headed.slot _ hslot s b
  intro _ c2 ⟨hwf2, hst2⟩
  have hio2 : c2.io = m.cache.io.recordAll
      [.sync, .write ((m.txnCounter + 1) % m.superblockCount) (m.rekeyedHead header).unit,
        .sync] := by
    have := congrArg Store.io hst2
    rw [hio1, hcip1] at this
    exact this
  have hro2 : c2.io.readOnly = false := by
    rw [hio2]
    exact hro
  have hcell2 : c2.io.image.cell = m.rekeyedCells header := by
    rw [hio2]
    rfl
  have hlen2 : m.superblockCount ≤ c2.io.image.len := by
    have h1 := h.lo_le.trans (h.next_le.trans h.total_le)
    rw [show m.cache.store.io.pageCount = m.cache.io.image.len from h.wf.io_aligned.pageCount] at h1
    rw [hio2]
    change _ ≤ max m.cache.io.image.len _
    omega
  rw [wp_bind, wp_withCache]
  refine wp_mono (wp_scrubSlots hwf2 hro2 List.nodup_range (fun i hi => ?_) (fun i hi => ?_)
    (fun i hi s b => ?_) (E := fun _ _ => False)) ?_ fun _ _ hf => hf.elim
  · exact Nat.lt_of_lt_of_le (List.mem_range.mp hi) hlen2
  · rw [hst2, hst1]
    exact hcold i
  · rw [hcell2]
    unfold TransactionManager.rekeyedCells
    by_cases hi' : i = (m.txnCounter + 1) % m.superblockCount
    · rw [hi', Function.update_self]
      exact nofun
    · rw [Function.update_of_ne hi']
      exact h.headed.slot i (List.mem_range.mp hi) s b
  intro _ c3 ⟨hwf3, hst3⟩
  have hro3 : c3.io.readOnly = false := by
    rw [show c3.io = c2.io.recordAll _ from congrArg Store.io hst3, PageIo.recordAll_fields]
    exact hro2
  rw [wp_bind, wp_withCache]
  refine wp_mono (wp_onIo_fsync hwf3 hro3 (E := fun _ _ => False)) ?_ fun _ _ hf => hf.elim
  intro _ c4 ⟨hwf4, hst4⟩
  rw [wp_modify]
  refine ⟨hle, c4, hwf4, ?_, rfl⟩
  rw [hst4, hst3, hst2, hst1, hcell2, hio2]
  unfold TransactionManager.rekeyEvents
  rw [PageIo.recordAll_append, PageIo.recordAll_append]
  rfl

theorem rekeyEvents_cell (m : TransactionManager) (header : CryptoHeader) :
    (m.cache.io.recordAll (m.rekeyEvents header)).image.cell =
      scrubbed header ((m.txnCounter + 1) % m.superblockCount) m.superblockCount
        (m.rekeyedCells header) := by
  funext i
  unfold TransactionManager.rekeyEvents
  rw [PageIo.recordAll_fields]
  change (m.cache.io.image.replay _).cell i = _
  rw [Image.replay_append, Image.replay_append]
  have h := replay_scrubWrites header ((m.txnCounter + 1) % m.superblockCount)
    (m.cache.io.image.replay
      [.sync, .write ((m.txnCounter + 1) % m.superblockCount) (m.rekeyedHead header).unit, .sync])
    (@List.nodup_range m.superblockCount) i
  simp only [List.mem_range] at h
  exact h

theorem replay_len_of_slots {image : Image DiskUnit} {n : Nat} (es : List (Event DiskUnit))
    (hn : n ≤ image.len) (hes : ∀ e ∈ es, e = .sync ∨ ∃ i u, i < n ∧ e = .write i u) :
    (image.replay es).len = image.len := by
  induction es generalizing image with
  | nil => rfl
  | cons e es ih =>
    have hlen : (image.apply e).len = image.len := by
      rcases hes e List.mem_cons_self with rfl | ⟨i, u, hi, rfl⟩
      · rfl
      · change max image.len (i + 1) = image.len
        omega
    have hrest := ih (hlen ▸ hn) fun e' he' => hes e' (List.mem_cons_of_mem _ he')
    exact hrest.trans hlen

theorem rekeyEvents_slots (hn : 2 ≤ m.superblockCount) :
    ∀ e ∈ m.rekeyEvents header, e = .sync ∨ ∃ i u, i < m.superblockCount ∧ e = .write i u := by
  intro e he
  unfold TransactionManager.rekeyEvents at he
  rcases List.mem_append.mp he with he | he
  · rcases List.mem_append.mp he with he | he
    · simp only [List.mem_cons, List.not_mem_nil, or_false] at he
      rcases he with rfl | rfl | rfl
      · exact .inl rfl
      · exact .inr ⟨_, _, Nat.mod_lt _ (by omega), rfl⟩
      · exact .inl rfl
    · obtain ⟨i, hi, hf⟩ := List.mem_filterMap.mp he
      split at hf
      · cases hf
      · obtain ⟨u, -, rfl⟩ := Option.map_eq_some_iff.mp hf
        exact .inr ⟨i, u, List.mem_range.mp hi, rfl⟩
  · exact .inl (List.mem_singleton.mp he)

/-- The rewrite leaves the database open, with the new table and everything else as it was. -/
theorem Opened.rekeyed (h : Opened ex m v t lost) (hk : m.cryptoHeader.isSome = true)
    (hw : Wraps m.cache.cipher (some header)) (hle : m.txnCounter + 1 ≤ maxTxnCounter)
    (hwf : c.WF)
    (hst : c.store = { m.cache.store with io := m.cache.io.recordAll (m.rekeyEvents header) }) :
    Opened ex (m.rekeyed c header) v t lost ∧
      LeadsAt (m.rekeyed c header).head c.io.image.cell
        ((m.txnCounter + 1) % m.superblockCount) := by
  have hio : c.io = m.cache.io.recordAll (m.rekeyEvents header) := congrArg Store.io hst
  have hcip : c.cipher = m.cache.cipher := congrArg Store.cipher hst
  have hhead : (m.rekeyed c header).head = m.rekeyedHead header := by
    change (⟨_, _, c.cipher, _, _⟩ : Head) = ⟨_, _, m.cache.cipher, _, _⟩
    rw [hcip]
    rfl
  have hput : Headed (m.rekeyedHead header) (m.rekeyedCells header) :=
    h.headed.put rfl rfl hle hw hk.symm
  have hlead : LeadsAt (m.rekeyedHead header) (m.rekeyedCells header)
      ((m.txnCounter + 1) % m.superblockCount) := h.headed.put_leads rfl rfl
  obtain ⟨hscrub, hlead'⟩ := hput.scrub header hlead
  have hcell : c.io.image.cell = scrubbed header ((m.txnCounter + 1) % m.superblockCount)
      m.superblockCount (m.rekeyedCells header) := by
    rw [hio, rekeyEvents_cell]
  have hlen : c.store.io.pageCount = m.cache.store.io.pageCount := by
    have h1 := h.lo_le.trans (h.next_le.trans h.total_le)
    have hcount : m.cache.store.io.pageCount = m.cache.io.image.len := h.wf.io_aligned.pageCount
    rw [hcount] at h1 ⊢
    rw [show c.store.io.pageCount = c.io.image.len from hwf.io_aligned.pageCount, hio,
      PageIo.recordAll_fields]
    exact replay_len_of_slots _ h1 (rekeyEvents_slots h.headed.two_le)
  rw [hhead]
  refine ⟨⟨h.toIdle.reseat hwf ?_ ?_ ?_ hlen (h.next_le.trans h.total_le) le_rfl _ _ _, ?_, ?_⟩, ?_⟩
  · rw [hst]
  · rw [hst]
    exact h.cold
  · rw [hst]
  · rw [hhead]
    change Headed _ c.io.image.cell
    rw [hcell]
    exact hscrub
  · change c.io.fileStride = strideOf c.cipher
    rw [hio, hcip, PageIo.recordAll_fields]
    exact h.stride
  · rw [hcell]
    exact hlead'

end Rewriting

end Chisel
