import Chisel.OnDisk
import Chisel.Session

/-! Opening a file. The stride probe finds the superblocks, the newest one wins, and what the
manager keeps in memory besides the roots is read back from the trees. -/

namespace Chisel

open StateError PageCache TransactionManager RadixTree Ledger Device

/-! ### The superblocks -/

theorem filterMap_range (f : Nat → DiskUnit) (len n : Nat) :
    (List.range n).filterMap (fun i => if len ≤ i then none else some (f i)) =
      (List.range (min n len)).map f := by
  induction n with
  | zero => simp
  | succ n ih =>
    rw [List.range_succ, List.filterMap_append, ih]
    by_cases hn : len ≤ n
    · have h1 : min (n + 1) len = min n len := by omega
      simp [h1, hn]
    · have h1 : min (n + 1) len = n + 1 := by omega
      have h2 : min n len = n := by omega
      simp [h1, h2, hn, List.range_succ]

/-- The units that recovery looks at. -/
def PageIo.candidates (io : PageIo) : List DiskUnit :=
  (List.range (min maxSuperblocks io.image.len)).map io.image.cell

theorem readCandidates_eq {io : PageIo} (h : io.Aligned) : readCandidates io = io.candidates := by
  rw [PageIo.candidates, ← filterMap_range]
  unfold readCandidates
  congr 1
  funext i
  rw [h.readPageUnit]
  split <;> rfl

section Probing

/-- The superblock slots of a file: `n` of them, all of one kind, and no superblock behind them. -/
structure Slotted (n : Nat) (encrypted : Bool) (cell : Nat → DiskUnit) : Prop where
  le_max : n ≤ 16
  page : ∀ i, n ≤ i → ∀ sb sealedBy, cell i ≠ .super sb sealedBy
  kind : ∀ i sb sealedBy, cell i = .super sb sealedBy →
    sb.encryption.isSome = encrypted ∧ sb.superblockCount = n

variable {n : Nat} {encrypted : Bool} {h : Head} {io : PageIo} {i : Nat}

theorem Headed.slotted {cell : Nat → DiskUnit} (hd : Headed h cell) :
    Slotted h.slots h.header.isSome cell := ⟨hd.le_max, hd.page, hd.kind⟩

theorem Slotted.deserialize {cell : Nat → DiskUnit} (hs : Slotted n encrypted cell)
    {sb : Superblock} (hsb : Superblock.deserialize (cell i) = some sb) :
    i < n ∧ sb.encryption.isSome = encrypted ∧ sb.superblockCount = n := by
  cases hu : cell i with
  | super sb' sealedBy =>
    have hlt : i < n := Nat.lt_of_not_le fun hle => hs.page i hle sb' sealedBy hu
    obtain ⟨hkind, hcount⟩ := hs.kind i sb' sealedBy hu
    rw [hu] at hsb
    simp only [Superblock.deserialize, Option.ite_none_right_eq_some, Option.some.injEq] at hsb
    obtain ⟨-, rfl⟩ := hsb
    cases he : sb'.encryption with
    | none =>
      rw [he] at hkind
      exact ⟨hlt, (congrArg Option.isSome he).trans hkind, hcount⟩
    | some header =>
      rw [he] at hkind
      exact ⟨hlt, hkind, hcount⟩
  | _ =>
    rw [hu] at hsb
    cases hsb

theorem Slotted.encryption_of_plain (hs : Slotted n false io.image.cell) (i : Nat) :
    ((Superblock.deserialize (io.image.cell i)).bind Superblock.encryption).isSome = false := by
  cases hd : Superblock.deserialize (io.image.cell i) with
  | none => rfl
  | some sb => exact (hs.deserialize hd).2.1

theorem hasEncrypted_candidates_plain (hs : Slotted n false io.image.cell) :
    hasEncrypted io.candidates = false := by
  unfold hasEncrypted PageIo.candidates
  rw [List.any_eq_false]
  intro u hu
  obtain ⟨i, -, rfl⟩ := List.mem_map.mp hu
  rw [hs.encryption_of_plain i]
  decide

/-- At a foreign stride only the first unit can be a superblock. -/
theorem hasEncrypted_foreign (hs : io.stride ≠ io.fileStride)
    (h0 : Superblock.deserialize (io.image.cell 0) = none) :
    hasEncrypted (readCandidates io) = false := by
  unfold hasEncrypted readCandidates
  rw [List.any_eq_false]
  intro u hu
  obtain ⟨i, -, hi⟩ := List.mem_filterMap.mp hu
  unfold PageIo.readPageUnit at hi
  split at hi
  · cases hi
  · split at hi
    · next hc =>
      obtain rfl := hc.resolve_left hs
      obtain rfl : io.image.cell 0 = u := Option.some.inj hi
      rw [h0]
      decide
    · obtain rfl : DiskUnit.torn = u := Option.some.inj hi
      decide

theorem lt_len_of_deserialize {image : Image DiskUnit} {sb : Superblock}
    (hsb : Superblock.deserialize (image.cell i) = some sb) : i < image.len := by
  by_contra hle
  rw [image.blank_above i (Nat.not_lt.mp hle)] at hsb
  cases hsb

theorem hasEncrypted_candidates (hs : Slotted n true io.image.cell) {sb : Superblock}
    (hsb : Superblock.deserialize (io.image.cell i) = some sb) :
    hasEncrypted io.candidates = true := by
  obtain ⟨hlt, henc, -⟩ := hs.deserialize hsb
  have hlen := lt_len_of_deserialize hsb
  have hmax := hs.le_max
  unfold hasEncrypted
  rw [List.any_eq_true]
  refine ⟨_, List.mem_map.mpr ⟨i, ?_, rfl⟩, ?_⟩
  · rw [List.mem_range]
    unfold maxSuperblocks
    omega
  · rw [hsb]
    exact henc

theorem Slotted.probeStride (hs : Slotted n encrypted io.image.cell) {sb : Superblock}
    (hsb : Superblock.deserialize (io.image.cell i) = some sb)
    (hstride : io.fileStride = if encrypted then encPageSize else pageSize)
    (hio : io.stride = pageSize) :
    TransactionManager.probeStride io (io.image.cell 0) =
      ({ io with stride := io.fileStride }, io.candidates) := by
  have hpos : io.image.len ≠ 0 := Nat.ne_zero_of_lt (lt_len_of_deserialize hsb)
  cases encrypted with
  | false =>
    have hfile : io.fileStride = pageSize := hstride
    have hal : io.Aligned := hio.trans hfile.symm
    have hself : ({ io with stride := io.fileStride } : PageIo) = io := by
      cases io
      cases hal
      rfl
    unfold TransactionManager.probeStride
    simp only [hs.encryption_of_plain 0, Bool.false_eq_true, if_false, readCandidates_eq hal,
      hasEncrypted_candidates_plain hs, Bool.not_false, Bool.true_and]
    cases h0 : Superblock.deserialize (io.image.cell 0) with
    | some sb => simp [hself]
    | none =>
      have hforeign : hasEncrypted (readCandidates (io.setStride encPageSize)) = false := by
        refine hasEncrypted_foreign ?_ h0
        change encPageSize ≠ if io.image.len = 0 then encPageSize else io.fileStride
        rw [if_neg hpos, hfile]
        decide
      simp only [Option.isNone_none, if_true, hforeign, Bool.false_eq_true, if_false]
      simp [PageIo.setStride, hpos, hfile]
  | true =>
    have hfile : io.fileStride = encPageSize := hstride
    have hset : io.setStride encPageSize = { io with stride := io.fileStride } := by
      simp [PageIo.setStride, hpos, hfile]
    have hal : ({ io with stride := io.fileStride } : PageIo).Aligned := rfl
    have hread := readCandidates_eq hal
    unfold TransactionManager.probeStride
    cases h0 : Superblock.deserialize (io.image.cell 0) with
    | some sb =>
      have henc : (Option.bind (some sb) Superblock.encryption).isSome = true :=
        (hs.deserialize h0).2.1
      simp only [henc, if_true, hset, hread, Option.isNone_some, Bool.and_false, Bool.false_eq_true,
        if_false]
      rfl
    | none =>
      have hforeign : hasEncrypted (readCandidates io) = false := by
        refine hasEncrypted_foreign ?_ h0
        rw [hio, hfile]
        decide
      have hfound : hasEncrypted io.candidates = true := hasEncrypted_candidates hs hsb
      have hcand : ({ io with stride := io.fileStride } : PageIo).candidates = io.candidates := rfl
      simp only [Option.bind_none, Option.isSome_none, Bool.false_eq_true, if_false, hforeign,
        Bool.not_false, Option.isNone_none, Bool.and_self, if_true, hset, hread, hcand, hfound]

theorem probeStride_eq (hd : Headed h io.image.cell)
    (hstride : io.fileStride = strideOf h.cipher) (hio : io.stride = pageSize) :
    TransactionManager.probeStride io (io.image.cell 0) =
      ({ io with stride := io.fileStride }, io.candidates) := by
  obtain ⟨p, hp⟩ := hd.leads
  have hsome : (Superblock.deserialize h.unit).isSome := by
    rw [← recordOf_isSome_iff, Head.recordOf_unit hd.two_le hd.le_max hd.counter_le]
    rfl
  obtain ⟨sb, hsb⟩ := Option.isSome_iff_exists.mp hsome
  rw [← hp.unit] at hsb
  refine hd.slotted.probeStride hsb (hstride.trans ?_) hio
  rw [hd.wraps.1]
  rfl

end Probing

/-! ### The newest slot -/

section Winning

variable {h : Head} {io : PageIo} {cell : Nat → DiskUnit} {key : Option Key}

theorem LeadsAt.leads {p : Nat} (hd : Headed h cell) (hp : LeadsAt h cell p) :
    Leads h.slots cell p h.counter { h.superblock with txnCounter := 0 } where
  lt := hp.lt
  holds := by
    rw [hp.unit]
    exact Head.recordOf_unit hd.two_le hd.le_max hd.counter_le
  older := hp.older

theorem getElem?_candidates (i : Nat) : io.candidates[i]? =
    if i < min maxSuperblocks io.image.len then some (io.image.cell i) else none := by
  unfold PageIo.candidates
  rw [List.getElem?_map]
  split
  · next hi => rw [List.getElem?_range hi]; rfl
  · next hi => rw [List.getElem?_eq_none (List.length_range.trans_le (Nat.not_lt.mp hi))]; rfl

theorem LeadsAt.winner {p : Nat} (hp : LeadsAt h io.image.cell p) (hd : Headed h io.image.cell)
    (hlen : h.slots ≤ io.image.len) :
    ∃ w, TransactionManager.winner (validSlots 0 io.candidates) = some w ∧ w.slot = p ∧
      w.unit = h.unit ∧ Superblock.deserialize h.unit = some w.sb := by
  have hmax := hd.le_max
  have hslots : ∀ i < h.slots, io.candidates[i]? = some (io.image.cell i) := by
    intro i hi
    rw [getElem?_candidates, if_pos]
    unfold maxSuperblocks
    omega
  have hbehind : ∀ i, h.slots ≤ i → ∀ u, io.candidates[i]? = some u → recordOf u = none := by
    intro i hi u hu
    rw [getElem?_candidates] at hu
    split at hu
    · obtain rfl := Option.some.inj hu
      cases hc : io.image.cell i with
      | super sb sealedBy => exact absurd hc (hd.page i hi sb sealedBy)
      | _ => rfl
    · cases hu
  obtain ⟨w, hw, hslot, -, hu⟩ := winner_of_leads (hp.leads hd) hslots hbehind
  have hunit : w.unit = h.unit := hu.trans hp.unit
  obtain ⟨j, -, -, hd⟩ := mem_validSlots.mp (winner_mem hw)
  exact ⟨w, hw, hslot, hunit, hunit ▸ hd⟩

theorem Headed.winner (hd : Headed h io.image.cell) (hlen : h.slots ≤ io.image.len) :
    ∃ w, TransactionManager.winner (validSlots 0 io.candidates) = some w ∧ w.unit = h.unit ∧
      Superblock.deserialize h.unit = some w.sb := by
  obtain ⟨p, hp⟩ := hd.leads
  obtain ⟨w, hw, -, hunit, hsb⟩ := hp.winner hd hlen
  exact ⟨w, hw, hunit, hsb⟩

/-- What the key gate says to a credential. -/
def Head.gate (h : Head) (key : Option Key) : Except ChiselError Unit :=
  match h.header, key with
  | none, none => .ok ()
  | some _, none => .error .noEncryptionKey
  | none, some _ => .error .encryptionNotSupported
  | some header, some k => (fun _ => ()) <$> header.unlock k

theorem unlockFrom_mem {k : Key} {i j : Nat} {slots : List KeySlot} {dek : Dek}
    (hu : CryptoHeader.unlockFrom k i slots = .ok (j, dek)) : KeySlot.active k dek ∈ slots := by
  induction slots generalizing i with
  | nil => cases hu
  | cons s rest ih =>
    cases s with
    | empty => exact List.mem_cons_of_mem _ (ih hu)
    | active k' dek' =>
      unfold CryptoHeader.unlockFrom at hu
      split at hu
      · next hk =>
        obtain ⟨rfl, -⟩ := hk
        cases hu
        exact List.mem_cons_self
      · exact List.mem_cons_of_mem _ (ih hu)

theorem Headed.unlockSuperblock (hd : Headed h cell) {w : Candidate} (hu : w.unit = h.unit)
    (hsb : Superblock.deserialize h.unit = some w.sb) :
    TransactionManager.unlockSuperblock w key =
      (fun _ => (h.superblock, h.cipher)) <$> h.gate key := by
  have hkind : h.header.isSome = h.cipher.isSome := hd.wraps.1
  unfold Head.unit Superblock.serialize at hsb
  simp only [Superblock.deserialize, Option.ite_none_right_eq_some, Option.some.injEq] at hsb
  obtain ⟨-, hsb'⟩ := hsb
  cases hh : h.header with
  | none =>
    rw [hh] at hkind
    rw [show h.superblock.encryption = none from hh] at hsb'
    have hcipher : h.cipher = none := by simpa using hkind.symm
    have henc : w.sb.encryption = none := by
      rw [← hsb']
      exact hh
    unfold TransactionManager.unlockSuperblock Head.gate
    rw [henc, hh, hcipher]
    cases key with
    | none => rw [← hsb']; rfl
    | some k => rfl
  | some header =>
    rw [show h.superblock.encryption = some header from hh] at hsb'
    have henc : w.sb.encryption = some header := by
      rw [← hsb']
    unfold TransactionManager.unlockSuperblock Head.gate
    rw [henc, hh]
    cases key with
    | none => rfl
    | some k =>
      dsimp only
      cases hk : header.unlock k with
      | error e => rfl
      | ok r =>
        obtain ⟨j, dek⟩ := r
        have hcipher := hd.wraps.2 header hh k dek (unlockFrom_mem hk)
        rw [hu, Head.unit, Superblock.serialize, hcipher]
        simp [Superblock.decryptBody, bind, Except.bind]

end Winning

/-! ### An empty cache -/

theorem PageCache.Bare.view {c : PageCache} (h : c.Bare) :
    c.store.view = fileView c.cipher c.io.image.cell := by
  refine Eq.trans ?_ (Store.disk_eq (s := c.store) h.aligned)
  funext x
  refine h.wf.view_of_cold ?_
  rw [h.hot]
  exact Finset.notMem_empty x

/-! ### The live slots -/

/-- The slots that the entries of a list use. -/
def slotsOf (entries : List (Nat × HandleEntry)) (x : Nat) : Nat :=
  (entries.map fun e => e.2.slotAt x).sum

theorem counts_foldl {entries : List (Nat × HandleEntry)} {live : AList fun _ : Nat => Nat}
    {n : Nat → Nat} (h : Counts live n) :
    Counts (entries.foldl (fun live e =>
      if e.2.flags = .live then SlotPacker.countUp live e.2.pageId else live) live)
      fun x => n x + slotsOf entries x := by
  induction entries generalizing live n with
  | nil => exact h
  | cons e rest ih =>
    have hstep : Counts (if e.2.flags = .live then SlotPacker.countUp live e.2.pageId else live)
        fun x => n x + e.2.slotAt x := by
      by_cases hf : e.2.flags = .live
      · rw [if_pos hf]
        exact (h.countUp _).congr fun x => by rw [e.2.slotAt_of_live hf]
      · rw [if_neg hf]
        exact h.congr fun x => by rw [e.2.slotAt_of_not_live hf, Nat.add_zero]
    refine (ih hstep).congr fun x => ?_
    simp only [slotsOf, List.map_cons, List.sum_cons]
    omega

theorem counts_countLiveSlots (entries : List (Nat × HandleEntry)) :
    Counts (countLiveSlots entries) (slotsOf entries) :=
  (counts_foldl (n := fun _ => 0) fun _ => rfl).congr fun _ => (Nat.zero_add _).symm

theorem Version.Ok.slotsOf_listing {v : Version} {view : Nat → Option Page} (h : v.Ok view)
    (x : Nat) :
    slotsOf (PageTree.listing handleLayout.shape handleLayout.isAbsent v.depth 0 v.table) x =
      ∑ handle ∈ v.live, (v.entry handle).slotAt x := by
  set l := PageTree.listing handleLayout.shape handleLayout.isAbsent v.depth 0 v.table
  have hnodup : (l.map Prod.fst).Nodup :=
    (PageTree.sorted_listing handleLayout_lawful.absent_gone).imp Nat.ne_of_lt
  have hlive : (l.map Prod.fst).toFinset = v.live := by
    rw [h.listing_eq]
    exact Finset.sort_toFinset v.live _
  have hvals : l.map (fun e => e.2.slotAt x) =
      (l.map Prod.fst).map fun handle => (v.entry handle).slotAt x := by
    rw [List.map_map]
    refine List.map_congr_left fun e he => ?_
    rw [Function.comp_apply, (h.mem_listing.mp he).2]
  rw [slotsOf, hvals, ← hlive, List.sum_toFinset _ hnodup]

/-! ### Opening -/

section Opening

variable {h : Head} {cell : Nat → DiskUnit} {v : Version} {t : PageTree Bool} {io : PageIo}
  {key : Option Key} {c : PageCache}

theorem Version.own_bare_le (v : Version) (x : Nat) : (v.strayed fun _ => 0).own x ≤ v.own x := by
  have hle : (v.strayed fun _ => 0).slots x ≤ v.slots x := by
    change (∑ handle ∈ v.live, (v.entry handle).slotAt x) + 0 ≤
      (∑ handle ∈ v.live, (v.entry handle).slotAt x) + v.stray x
    omega
  change v.table.count handleLayout.shape x + v.index.count x +
    min 1 ((v.strayed fun _ => 0).slots x) + v.chained x ≤ _
  unfold own
  omega

theorem OnDisk.checkSuperblock (hd : OnDisk h cell v t) :
    TransactionManager.checkSuperblock h.superblock = .ok () := by
  have h1 : h.superblock.freemapDepth ≤ FreeMapTree.maxDepth := hd.mapDepth_le
  have h2 : h.superblock.nextHandle ≤ maxNextHandle := hd.tied.next_le
  have h3 : h.superblock.formatVersion =
      if h.superblock.encryption.isSome then formatVersionEncrypted else Chisel.formatVersion := rfl
  have h4 : h.superblock.pageSize = Chisel.pageSize := rfl
  unfold TransactionManager.checkSuperblock
  rw [if_neg (not_not.mpr (congrArg formatMajor h3)), if_neg (not_not.mpr h4),
    if_neg (Nat.not_lt.mpr h1), if_neg (Nat.not_lt.mpr h2)]

theorem OnDisk.newerMinor (h : Head) : TransactionManager.newerMinor h.superblock = false := by
  have h3 : h.superblock.formatVersion =
      if h.superblock.encryption.isSome then formatVersionEncrypted else Chisel.formatVersion := rfl
  unfold TransactionManager.newerMinor
  exact decide_eq_false (Nat.not_lt.mpr (congrArg formatMinor h3).le)

theorem OnDisk.rootsOf (hd : OnDisk h cell v t) :
    TransactionManager.rootsOf h.superblock = h.roots := by
  have hne : h.roots.membershipIndexPage ≠ 0 := by
    by_cases hnil : v.index.outer = .nil
    · rw [hd.tied.index.nil hnil]
      decide
    · rw [hd.tied.index.eq hnil]
      have hpos := PageTree.count_root_pos (S := radixU64.shape) hnil
      have hle := (v.index.outer_le v.index.outer.root).trans Version.index_le_own
      have h1 := (hd.bounds (x := v.index.outer.root) (by omega)).1
      have h2 := hd.two_le
      omega
  have hroot : (if h.superblock.rootMembershipIndexPage = 0 then pageIdNone
      else h.superblock.rootMembershipIndexPage) = h.roots.membershipIndexPage := if_neg hne
  unfold TransactionManager.rootsOf
  rw [hroot]
  rfl

theorem PageIo.pageCount_native (io : PageIo) :
    PageIo.pageCount { io with stride := io.fileStride } = io.image.len := if_pos rfl

/-- What opening a file gives. -/
structure Reopened (h : Head) (v : Version) (t : PageTree Bool) (io : PageIo)
    (m : TransactionManager) : Prop where
  head : m.head = h
  current : m.currentRoots = h.roots
  next : m.cache.nextPageId = h.roots.totalPages
  opened : ∃ lost, Opened False m (v.strayed fun _ => 0) t lost
  io : m.cache.io = io
  alive : m.poisoned = false

/-- Opening only reads once the superblock is known. -/
theorem OnDisk.reopened {c1 : PageCache} (hd : OnDisk h io.image.cell v t) (hbare : c1.Bare)
    (hio : c1.io = { io with stride := io.fileStride }) (hcipher1 : c1.cipher = h.cipher)
    (hnext1 : c1.nextPageId = h.roots.totalPages) (hc : Reads c1 c)
    (hlen : h.roots.totalPages ≤ io.image.len) (hmax : io.image.len ≤ u64Max)
    (hstride : io.fileStride = strideOf h.cipher) :
    Reopened h v t { io with stride := io.fileStride } (ofRoots c h.roots v.depth v.outerDepth
      h.counter h.slots
      (countLiveSlots (PageTree.listing handleLayout.shape handleLayout.isAbsent v.depth 0 v.table))
      h.header) := by
  set m := ofRoots c h.roots v.depth v.outerDepth h.counter h.slots
    (countLiveSlots (PageTree.listing handleLayout.shape handleLayout.isAbsent v.depth 0 v.table))
    h.header
  have hio4 : c.io = { io with stride := io.fileStride } := (congrArg Store.io hc.2).trans hio
  have hcipher : c.cipher = h.cipher := (congrArg Store.cipher hc.2).trans hcipher1
  have hnext : c.nextPageId = h.roots.totalPages := (congrArg Store.next hc.2).trans hnext1
  have hview : c.store.view = fileView h.cipher io.image.cell := by
    rw [hc.2, hbare.view, hio, hcipher1]
  have hhead : m.head = h := by
    change (⟨h.slots, h.counter, c.cipher, h.header, h.roots⟩ : Head) = h
    rw [hcipher]
  have hnext' : m.cache.store.next = h.roots.totalPages := hnext
  have htally : ∀ x, tally m.begun.takeTree t x = t.count fmShape x +
      (PageTree.content fmShape false h.roots.freemapDepth t x).toNat := fun _ => rfl
  have honce : ∀ x, (v.strayed fun _ => 0).own x + tally m.begun.takeTree t x ≤
      between h.slots m.cache.store.next x := by
    intro x
    have h1 := hd.once x
    have h2 := v.own_bare_le x
    have h3 := htally x
    rw [hnext']
    omega
  have hlo : h.slots ≤ m.cache.store.next := by
    rw [hnext']
    exact hd.slots_le
  refine ⟨hhead, rfl, hnext, ⟨fun x => between h.slots m.cache.store.next x -
    ((v.strayed fun _ => 0).own x + tally m.begun.takeTree t x), ?_⟩, hio4, rfl⟩
  refine ⟨⟨rfl, (congrArg Store.hot hc.2).trans hbare.hot, ⟨⟨⟨⟨hc.1, ?_⟩, ?_, hlo, ?_,
    fun x => ?_⟩, hd.mapDepth_le, hd.map_nil, hd.map_eq⟩, fun x => ?_,
    fun x hx => absurd hx (Finset.notMem_empty x), fun x hx => absurd hx List.not_mem_nil,
    fun x _ => Nat.zero_le x⟩, ?_, ?_, fun x => ?_, False.elim, ?_, hnext'.le, ?_, ?_, False.elim, ⟨rfl, rfl⟩⟩, ?_, ?_⟩
  · exact hnext'.trans_le hd.total_le
  · have := hd.two_le
    change 0 < h.slots
    omega
  · change PageTree.Rep fmShape (fmRead c.store.view) _ t
    rw [hview]
    exact hd.map
  · have h1 := honce x
    have h2 := htally x
    change t.count fmShape x + 0 + 0 ≤ between h.slots m.cache.store.next x
    omega
  · have h1 := honce x
    change _ ≤ between h.slots m.cache.store.next x
    omega
  · change (v.strayed fun _ => 0).Ok c.store.view
    rw [hview]
    exact hd.ok.strayed fun x hx => absurd hx (Nat.lt_irrefl 0)
  · exact hd.tied.strayed _
  · have h1 := honce x
    change _ = between h.slots m.cache.store.next x
    omega
  · refine (counts_countLiveSlots _).congr fun x => ?_
    rw [hd.ok.slotsOf_listing]
    rfl
  · change _ ≤ c.io.pageCount
    rw [hio4, PageIo.pageCount_native]
    exact hlen
  · change c.io.pageCount ≤ _
    rw [hio4, PageIo.pageCount_native]
    exact hmax
  · rw [hhead]
    change Headed h c.io.image.cell
    rw [hio4]
    exact hd.headed
  · change c.io.fileStride = strideOf c.cipher
    rw [hio4, hcipher]
    exact hstride

/-- The error of opening a file, if there is one. -/
def Head.refusal (h : Head) (key : Option Key) (len : Nat) : Option ChiselError :=
  match h.gate key with
  | .error e => some e
  | .ok _ =>
    if len < h.roots.totalPages then
      some (.fileSizeMismatch (satMul h.roots.totalPages (strideOf h.cipher))
        (satMul len (strideOf h.cipher)))
    else none

theorem Resides.wp_tableListing (hr : Resides c v) {root : Nat} (hroot : RootedAt root v.table) :
    wp (HandleTable.iterLive v.depth root) c (fun l c' => Reads c c' ∧
      l = PageTree.listing handleLayout.shape handleLayout.isAbsent v.depth 0 v.table)
      (Crowded c) :=
  wp_iter handleLayout_lawful hr.ok.table.depth_le ⟨hr.wf, hr.ok.table.rep, fun x hx => hr.lt x
    (Nat.lt_of_lt_of_le hx Version.table_le_own)⟩ hr.next_le hroot hr.ok.table.keys

theorem PageIo.pageCount_pos {cipher : Option Dek} (hlen : 0 < io.image.len)
    (hstride : io.fileStride = strideOf cipher) (hio : io.stride = pageSize) :
    0 < io.pageCount := by
  unfold PageIo.pageCount
  split
  · exact hlen
  · have hge : pageSize ≤ io.fileStride := by
      rw [hstride]
      unfold strideOf
      split <;> decide
    rw [hio]
    exact Nat.div_pos (hge.trans (Nat.le_mul_of_pos_left _ hlen)) (by decide)

/-- The outcome of opening a file that holds what its superblock says. -/
theorem OnDisk.wp_openExisting (hd : OnDisk h io.image.cell v t) (hlen : h.slots ≤ io.image.len)
    (hmax : io.image.len ≤ u64Max) (hstride : io.fileStride = strideOf h.cipher)
    (hio : io.stride = pageSize) (cacheMaxBytes spillwayMaxBytes : Nat) (policy : DrainInsertion) :
    wp (openExisting key) (PageCache.new io cacheMaxBytes spillwayMaxBytes policy)
      (fun m c' => h.refusal key io.image.len = none ∧
        Reopened h v t { io with stride := io.fileStride } m ∧ c'.io = m.cache.io)
      (fun e c' => h.refusal key io.image.len = some e ∧
        c'.io = { io with stride := io.fileStride }) := by
  set c0 := PageCache.new io cacheMaxBytes spillwayMaxBytes policy
  have hread : io.readPageUnit 0 = .ok (io.image.cell 0) := by
    have h2 := hd.two_le
    have hpos := PageIo.pageCount_pos (show 0 < io.image.len by omega) hstride hio
    unfold PageIo.readPageUnit
    rw [if_neg (by omega), if_pos (.inr rfl)]
  obtain ⟨w, hw, hunit, hsb⟩ := hd.headed.winner hlen
  have hgate : unlockSuperblock w key = (fun _ => (h.superblock, h.cipher)) <$> h.gate key :=
    hd.headed.unlockSuperblock hunit hsb
  unfold openExisting
  simp only [wp_bind, wp_get]
  change wp (liftCache (io.readPageUnit 0)) c0 _ _
  rw [hread]
  refine wp_ret ?_
  have hprobe : probeStride c0.io (io.image.cell 0) =
      ({ io with stride := io.fileStride }, io.candidates) :=
    probeStride_eq hd.headed hstride hio
  simp only [wp_modify, hprobe, hw]
  unfold openFrom
  simp only [wp_bind, wp_modify, hgate]
  cases hg : h.gate key with
  | error e =>
    refine wp_fail ⟨?_, rfl⟩
    unfold Head.refusal
    rw [hg]
  | ok u =>
  refine wp_ret ?_
  dsimp only
  rw [hd.checkSuperblock]
  refine wp_ret ?_
  rw [OnDisk.newerMinor, if_neg Bool.false_ne_true, wp_bind, wp_get]
  have hcount : ∀ c : PageCache, c.io = { io with stride := io.fileStride } →
      c.filePageCount = io.image.len := fun c hc =>
    (congrArg PageIo.pageCount hc).trans io.pageCount_native
  rw [hcount _ rfl]
  refine wp_ite (fun hlt => ?_) fun hge => ?_
  · rw [wp_bind, wp_get, wp_bind]
    refine wp_fail ⟨?_, rfl⟩
    unfold Head.refusal
    rw [hg, hstride]
    exact if_pos hlt
  rw [wp_bind, wp_modify, hd.rootsOf]
  set c1 : PageCache :=
    { c0 with
      io := { io with stride := io.fileStride }
      cipher := h.cipher
      nextPageId := h.superblock.totalPages } with hc1
  have hbare : c1.Bare := ⟨rfl, rfl, rfl, rfl, rfl,
    Nat.lt_of_lt_of_le Nat.one_pos (le_max_right _ _)⟩
  have hres : Resides c1 v := by
    refine ⟨hbare.wf, hd.total_le, ?_, fun x hx => ?_⟩
    · rw [hbare.view]
      exact hd.ok
    · exact (hd.bounds (x := x) (by omega)).2
  have hcalm : ∀ {c e c'}, Reads c1 c → Crowded c e c' → False := by
    intro c e c' hc hcr
    refine hcr.2.2.2 ?_
    rw [hc.2]
    exact hbare.fits
  rw [wp_bind]
  refine wp_mono (hres.wp_tableDepth hd.tied.table) ?_ fun e c' hcr =>
    (hcalm ⟨hres.wf, rfl⟩ hcr).elim
  rintro _ c2 ⟨hc2, rfl⟩
  rw [wp_bind]
  refine wp_mono ((hres.of_reads hc2).wp_indexDepth hd.tied.index) ?_
    fun e c' hcr => (hcalm hc2 hcr).elim
  rintro _ c3 ⟨hc3, rfl⟩
  rw [wp_bind]
  refine wp_mono ((hres.of_reads (hc2.trans hc3)).wp_tableListing hd.tied.table) ?_
    fun e c' hcr => (hcalm (hc2.trans hc3) hcr).elim
  rintro _ c4 ⟨hc4, rfl⟩
  rw [wp_bind, wp_get]
  have hc := (hc2.trans hc3).trans hc4
  refine wp_ret ⟨?_, hd.reopened hbare rfl rfl rfl hc (Nat.not_lt.mp hge) hmax hstride,
    rfl⟩
  unfold Head.refusal
  rw [hg]
  exact if_neg hge

end Opening

end Chisel
