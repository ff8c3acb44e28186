import Chisel.Recovery

/-! Creating a database: an empty file gets its superblocks, and the manager starts with nothing
stored. -/

namespace Chisel

open StateError PageCache TransactionManager RadixTree Ledger Device

def Version.empty : Version where
  table := .nil
  depth := 0
  index := ⟨.nil, ∅, fun _ => .nil, fun _ => 0⟩
  outerDepth := 0
  live := ∅
  value _ := []
  chain _ := []
  stray _ := 0

theorem Version.own_empty (x : Nat) : Version.empty.own x = 0 := rfl

theorem Version.ok_empty (view : Nat → Option Page) : Version.empty.Ok view where
  table := ⟨Nat.zero_le _, trivial, fun _ => rfl, fun h => absurd rfl h,
    keysOk_nil handleLayout_lawful 0⟩
  index :=
    { ok := Index.ok_none
      outer := trivial
      inner := nofun }
  live_iff handle := by
    have habsent : Version.empty.entry handle = handleLayout.absent := PageTree.content_nil ..
    rw [habsent]
    exact ⟨nofun, fun h => absurd rfl h⟩
  chain_nil _ _ := rfl
  placed := nofun
  tag_le := nofun
  tags tag handle := by
    rw [if_neg fun h => absurd h.1 (Finset.notMem_empty handle)]
    exact PageTree.content_nil ..
  apart := nofun
  stray_page _ h := absurd h (Nat.lt_irrefl 0)

/-! ### The first superblocks -/

section Slots

variable {n : Nat} {header : Option CryptoHeader} {cipher : Option Dek} {io : PageIo}

theorem initialSlots_fields (sb : Superblock) (cipher : Option Dek) (io : PageIo)
    (slots : List Nat) : (initialSlots sb cipher io slots).stride = io.stride ∧
      (initialSlots sb cipher io slots).fileStride = io.fileStride := by
  induction slots generalizing io with
  | nil => exact ⟨rfl, rfl⟩
  | cons j rest ih => exact ih _

theorem initialSlots_len (sb : Superblock) (cipher : Option Dek) (io : PageIo) (n : Nat) :
    (initialSlots sb cipher io (List.range n)).image.len = max io.image.len n := by
  induction n with
  | zero => exact (Nat.max_zero _).symm
  | succ n ih =>
    have hsplit : initialSlots sb cipher io (List.range (n + 1)) =
        (initialSlots sb cipher io (List.range n)).record (.write n (initialUnit sb cipher n)) := by
      unfold initialSlots
      rw [List.range_succ, List.foldl_append]
      rfl
    rw [hsplit]
    change max (initialSlots sb cipher io (List.range n)).image.len (n + 1) = _
    rw [ih]
    omega

/-- The superblock of a new database in the slot `i`. -/
def createdHead (n : Nat) (header : Option CryptoHeader) (cipher : Option Dek) (i : Nat) : Head :=
  ⟨n, n - 1 - i, cipher, header, createdRoots n⟩

theorem initialUnit_eq (i : Nat) : initialUnit (createdSuperblock n header) cipher i =
    (createdHead n header cipher i).unit := by
  cases header <;> rfl

/-- A unit without a superblock or a page. -/
inductive DiskUnit.Dud : DiskUnit → Prop
  | blank : Dud .blank
  | torn : Dud .torn
  | stale {table : List KeySlot} : Dud (.stale table)

/-- The first slot that creation wrote is the newest, whatever became of the others. -/
theorem headed_created {cell : Nat → DiskUnit} {p : Nat} (hn : 2 ≤ n) (hn' : n ≤ 16)
    (hw : Wraps cipher header) (hp : p < n) (hlead : cell p = (createdHead n header cipher p).unit)
    (hslot : ∀ i < n, p ≤ i ∧ cell i = (createdHead n header cipher i).unit ∨ (cell i).Dud)
    (hpage : ∀ i, n ≤ i → cell i = .blank) :
    Headed (createdHead n header cipher p) cell ∧ LeadsAt
    (createdHead n header cipher p) cell p := by
  have hmax : n - 1 - p ≤ maxTxnCounter := (show n - 1 - p ≤ 16 by omega).trans (by decide)
  have hleads : LeadsAt (createdHead n header cipher p) cell p := by
    refine ⟨hp, hlead, fun i hi hne r hr => ?_⟩
    rcases hslot i hi with ⟨hle, hc⟩ | hdud
    · rw [hc] at hr
      rw [recordOf_super hr]
      change n - 1 - i < n - 1 - p
      change i < n at hi
      omega
    · generalize cell i = u at hdud hr
      cases hdud <;> cases hr
  refine ⟨⟨hn, hn', hmax, hw, ⟨p, hleads⟩, fun i hi s b hc => ?_, fun i hi sb s hc => ?_,
    fun i sb s hc => ?_⟩, hleads⟩
  · rcases hslot i hi with ⟨-, hu⟩ | hdud
    · cases hu.symm.trans hc
    · rw [hc] at hdud
      cases hdud
  · cases (hpage i hi).symm.trans hc
  · by_cases hi : i < n
    · rcases hslot i hi with ⟨-, hu⟩ | hdud
      · have heq : (createdHead n header cipher i).unit = .super sb s := hu.symm.trans hc
        obtain ⟨rfl, -⟩ : (createdHead n header cipher i).superblock = sb ∧ cipher = s := by
          simpa [Head.unit, Superblock.serialize, createdHead] using heq
        exact ⟨rfl, rfl⟩
      · rw [hc] at hdud
        cases hdud
    · cases (hpage i (Nat.le_of_not_lt hi)).symm.trans hc

theorem initialSlots_cells (n : Nat) (header : Option CryptoHeader) (cipher : Option Dek)
    (hblank : ∀ i, io.image.cell i = .blank) (i : Nat) :
    (initialSlots (createdSuperblock n header) cipher io (List.range n)).image.cell i =
      if i < n then (createdHead n header cipher i).unit else .blank := by
  rw [initialSlots_cell, hblank, initialUnit_eq]
  simp only [List.mem_range]

theorem headed_initialSlots (hn : 2 ≤ n) (hn' : n ≤ 16) (hw : Wraps cipher header)
    (hblank : ∀ i, io.image.cell i = .blank) :
    Headed (createdHead n header cipher 0)
      (initialSlots (createdSuperblock n header) cipher io (List.range n)).image.cell := by
  have hcell := initialSlots_cells n header cipher hblank
  refine (headed_created (p := 0) hn hn' hw (by omega) ?_ (fun i hi => .inl ⟨i.zero_le, ?_⟩)
    fun i hi => ?_).1
  · rw [hcell, if_pos (by omega)]
  · rw [hcell, if_pos hi]
  · rw [hcell, if_neg (by omega)]

/-- Without the first slot of a new file the second one says the same. -/
theorem poised_initialSlots (hn : 2 ≤ n) (hn' : n ≤ 16) (hw : Wraps cipher header)
    (hblank : ∀ i, io.image.cell i = .blank) :
    Poised (createdHead n header cipher 0)
      (initialSlots (createdSuperblock n header) cipher io (List.range n)).image.cell := by
  have hcell := initialSlots_cells n header cipher hblank
  set cell := (initialSlots (createdSuperblock n header) cipher io (List.range n)).image.cell
  have hsecond : Headed (createdHead n header cipher 1) (Function.update cell 0 .torn) ∧
      LeadsAt (createdHead n header cipher 1) (Function.update cell 0 .torn) 1 := by
    refine headed_created hn hn' hw (by omega) ?_ (fun i hi => ?_) fun i hi => ?_
    · rw [Function.update_of_ne (by decide), hcell, if_pos (by omega)]
    · by_cases hi0 : i = 0
      · rw [hi0, Function.update_self]
        exact .inr .torn
      · rw [Function.update_of_ne hi0, hcell, if_pos hi]
        exact .inl ⟨by omega, rfl⟩
    · rw [Function.update_of_ne (by omega), hcell, if_neg (by omega)]
  exact .seeded (show n - 1 - 0 + 1 = n by omega) hsecond.1 hsecond.2

end Slots

/-! ### The new manager -/

section Creating

variable {n : Nat} {key : Option Key} {dek : Dek} {c : PageCache}

theorem wraps_createdHeader (key : Option Key) (dek : Dek) :
    Wraps (if (createdHeader key dek).isSome then some dek else none) (createdHeader key dek) := by
  cases key with
  | none => exact ⟨rfl, nofun⟩
  | some k =>
    refine ⟨rfl, fun h hh k' dek' hm => ?_⟩
    obtain rfl := Option.some.inj hh
    rcases List.mem_or_eq_of_mem_set hm with hm | hm
    · cases List.eq_of_mem_replicate hm
    · cases hm
      rfl

/-- What creation leaves is a manager with nothing stored, on a file that says so. -/
theorem opened_created (hn : 2 ≤ n) (hn' : n ≤ 16) (hc : c.Bare) (hcipher : c.cipher = none)
    (hlen : c.io.image.len = 0) (hstride : c.io.stride = pageSize) :
    Opened True (ofRoots (createdCache n (createdHeader key dek) dek c) (createdRoots n) 0 0
    (n - 1) n
      ∅ (createdHeader key dek)) Version.empty .nil (fun _ => 0) ∧
    Poised (createdHead n (createdHeader key dek) (createdCache n
    (createdHeader key dek) dek c).cipher
      0) (createdCache n (createdHeader key dek) dek c).io.image.cell := by
  set header := createdHeader key dek
  set c' := createdCache n header dek c with hc'
  set m := ofRoots c' (createdRoots n) 0 0 (n - 1) n ∅ header
  set io := if header.isSome then c.io.setStride encPageSize else c.io with hio
  have hcip : c'.cipher = if header.isSome then some dek else none := by
    rw [← hcipher]
    rfl
  have himage : io.image = c.io.image := by
    rw [hio]
    split <;> rfl
  have hcio : c'.io = (initialSlots (createdSuperblock n header) c'.cipher io
      (List.range n)).record .sync := rfl
  -- the stride is that of the first unit written
  have hio' : io.stride = strideOf c'.cipher ∧ io.fileStride = strideOf c'.cipher := by
    rw [hcip, hio]
    cases hs : header.isSome with
    | true => exact ⟨rfl, if_pos hlen⟩
    | false => exact ⟨hstride, hc.aligned.symm.trans hstride⟩
  have hstr := initialSlots_fields (createdSuperblock n header) c'.cipher io (List.range n)
  have hal : c'.io.Aligned := by
    change c'.io.stride = c'.io.fileStride
    rw [hcio]
    change (initialSlots _ _ _ _).stride = (initialSlots _ _ _ _).fileStride
    rw [hstr.1, hstr.2, hio'.1, hio'.2]
  have hbare : c'.Bare := ⟨hc.entries, hc.lru, hc.dirtyCount, hc.spillway, hal, hc.max_pos⟩
  have hcount : c'.io.pageCount = n := by
    rw [hal.pageCount, hcio]
    change (initialSlots _ _ _ _).image.len = n
    rw [initialSlots_len, himage, hlen]
    exact Nat.zero_max n
  have hmax : n ≤ u64Max := hn'.trans (by decide)
  have htally : ∀ x, tally m.begun.takeTree .nil x = 0 := by
    intro x
    have hbit : fmBits m.begun.takeTree .nil x = false := PageTree.content_nil ..
    unfold tally
    rw [hbit]
    rfl
  have hw : Wraps c'.cipher header := by
    rw [hcip]
    exact wraps_createdHeader key dek
  have hblank : ∀ i, io.image.cell i = .blank := by
    intro i
    rw [himage]
    exact c.io.image.blank_above i (by omega)
  refine ⟨⟨⟨rfl, hbare.hot, ⟨⟨⟨⟨hbare.wf, hmax⟩, show 0 < n by omega, le_rfl, trivial, fun x => ?_⟩,
    Nat.zero_le _, fun _ => rfl, fun hne => absurd rfl hne⟩, fun x => ?_,
    fun x hx => absurd hx (Finset.notMem_empty x), fun x hx => absurd hx List.not_mem_nil,
    fun x _ => Nat.zero_le x⟩, Version.ok_empty _, ⟨⟨fun _ => rfl, fun hne => absurd rfl hne⟩,
      ⟨fun _ => rfl, fun hne => absurd rfl hne⟩, rfl, rfl, nofun, ?_⟩, fun x => ?_, fun _ _ => rfl,
    fun x => rfl, le_rfl, hcount.ge, hcount.trans_le hmax, fun _ => hcount.le, ⟨rfl, rfl⟩⟩,
    headed_initialSlots hn hn' hw hblank, ?_⟩, poised_initialSlots hn hn' hw hblank⟩
  · exact Nat.zero_le _
  · rw [htally]
    exact Nat.zero_le _
  · change 1 ≤ maxNextHandle
    decide
  · rw [Version.own_empty, htally]
    exact (between_self n x).symm
  · change c'.io.fileStride = strideOf c'.cipher
    rw [hcio]
    exact hstr.2.trans hio'.2

def createdWrites (n : Nat) (header : Option CryptoHeader) (cipher : Option Dek) :
    List (Event DiskUnit) :=
  (List.range n).map fun i => .write i (createdHead n header cipher i).unit

def Options.createdCipher (options : Options) : Option Dek :=
  if (createdHeader options.encryptionKey options.dek).isSome then some options.dek else none

theorem initialSlots_eq (sb : Superblock) (cipher : Option Dek) (io : PageIo) (slots : List Nat) :
    initialSlots sb cipher io slots =
      io.recordAll (slots.map fun i => .write i (initialUnit sb cipher i)) :=
  List.foldl_map.symm

theorem Options.created_events (options : Options) (f : DbFile) :
    (options.created f).cache.io.image = f.image.replay (createdWrites options.superblockCount
        (createdHeader options.encryptionKey options.dek) options.createdCipher ++ [.sync]) ∧
      (options.created f).cache.io.trace = f.trace ++ (createdWrites options.superblockCount
        (createdHeader options.encryptionKey options.dek) options.createdCipher ++ [.sync]) := by
  have hwrites : (List.range options.superblockCount).map (fun i => Event.write i (initialUnit
      (createdSuperblock options.superblockCount (createdHeader options.encryptionKey options.dek))
        options.createdCipher i)) = createdWrites options.superblockCount
        (createdHeader options.encryptionKey options.dek) options.createdCipher := by
    unfold createdWrites
    simp only [initialUnit_eq]
  rw [← hwrites]
  constructor
  · change (initialSlots _ options.createdCipher _ _).image = _
    rw [initialSlots_eq, PageIo.recordAll_fields, Image.replay_append]
    dsimp only
    split <;> rfl
  · change (initialSlots _ options.createdCipher _ _).trace ++ [.sync] = _
    rw [initialSlots_eq, PageIo.recordAll_fields, ← List.append_assoc]
    dsimp only
    split <;> rfl

end Creating

end Chisel
