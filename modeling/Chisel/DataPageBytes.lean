import Chisel.Lib.Bytes
import Chisel.Values

/-! The slotted data page (`data_page.rs`) byte by byte. A directory of slots grows from the header
upwards, the values grow from the checksum field downwards, and a value is refused when the gap
between the two is too small for it and one more slot. -/

namespace Chisel

open ByteLayout

namespace Raw.DataPage

def pageTypeData : UInt8 := 2

def pageVersion : UInt8 := 0

def slotFlagLive : Nat := 1

def u8At (buf : Bytes) (off : Nat) : Nat := decodeLe (slice buf off 1)

def u16At (buf : Bytes) (off : Nat) : Nat := decodeLe (slice buf off 2)

def initPage (buf : Bytes) : Bytes :=
  patch (List.replicate buf.length 0) [(0, [pageTypeData]), (1, [pageVersion]),
    (4, encodeLe 2 dataPageHeaderSize), (6, encodeLe 2 checksumOffset)]

/-- The end of the directory, the start of the values and the number of slots, if the header is that
of a data page. -/
def validateHeader (buf : Bytes) : Option (Nat × Nat × Nat) :=
  if u8At buf 0 ≠ pageTypeData.toNat then none
  else
    let slotCount := u16At buf 2
    let freeStart := u16At buf 4
    let freeEnd := u16At buf 6
    if freeStart < dataPageHeaderSize then none
    else if freeEnd > checksumOffset then none
    else if freeStart > freeEnd then none
    else if dataPageHeaderSize + slotCount * DataPage.slotEntrySize > freeStart then none
    else some (freeStart, freeEnd, slotCount)

/-- The slot of the value and the page with it, if it fits. -/
def insert (buf value : Bytes) : Option (Nat × Bytes) :=
  match validateHeader buf with
  | none => none
  | some (freeStart, freeEnd, slotCount) =>
    let needed := DataPage.slotEntrySize + value.length
    if freeEnd - freeStart < needed then none
    else
      let dataOffset := freeEnd - value.length
      some (slotCount, patch buf [(dataOffset, value),
        (freeStart, encodeLe 2 dataOffset), (freeStart + 2, encodeLe 2 value.length),
        (freeStart + 4, encodeLe 2 slotFlagLive), (2, encodeLe 2 (slotCount + 1)),
        (4, encodeLe 2 (freeStart + DataPage.slotEntrySize)), (6, encodeLe 2 dataOffset)])

/-- Offset, length and flags of a slot whose value lies in the body of the page. -/
def readSlotEntry (buf : Bytes) (slot : Nat) : Option (Nat × Nat × Nat) :=
  let base := dataPageHeaderSize + slot * DataPage.slotEntrySize
  if base + DataPage.slotEntrySize > checksumOffset then none
  else
    let offset := u16At buf base
    let length := u16At buf (base + 2)
    let flags := u16At buf (base + 4)
    if offset < dataPageHeaderSize then none
    else if offset + length > checksumOffset then none
    else some (offset, length, flags)

def read (buf : Bytes) (slot : Nat) : Option Bytes :=
  match validateHeader buf with
  | none => none
  | some (_, _, slotCount) =>
    if slot ≥ slotCount then none
    else match readSlotEntry buf slot with
      | none => none
      | some (offset, length, flags) =>
        if flags ≠ slotFlagLive then none else some (slice buf offset length)

/-! ### The values of a page -/

def total (slots : List Bytes) : Nat := (slots.map List.length).sum

/-- Where the value of slot `i` starts: the values are packed downwards from the checksum field. -/
def offsetOf (slots : List Bytes) (i : Nat) : Nat := checksumOffset - total (slots.take (i + 1))

/-- The page holds the values in its slots. -/
structure Holds (buf : Bytes) (slots : List Bytes) : Prop where
  size : buf.length = pageSize
  tag : u8At buf 0 = pageTypeData.toNat
  count : u16At buf 2 = slots.length
  start : u16At buf 4 = dataPageHeaderSize + DataPage.slotEntrySize * slots.length
  stop : u16At buf 6 = checksumOffset - total slots
  room : dataPageHeaderSize + DataPage.slotEntrySize * slots.length + total slots ≤ checksumOffset
  entry : ∀ i value, slots[i]? = some value →
    u16At buf (dataPageHeaderSize + i * DataPage.slotEntrySize) = offsetOf slots i ∧
    u16At buf (dataPageHeaderSize + i * DataPage.slotEntrySize + 2) = value.length ∧
    u16At buf (dataPageHeaderSize + i * DataPage.slotEntrySize + 4) = slotFlagLive
  value : ∀ i value, slots[i]? = some value → slice buf (offsetOf slots i) value.length = value

section Values

variable {buf buf' : Bytes} {slots : List Bytes} {value : Bytes} {i j : Nat}

theorem total_append (l r : List Bytes) : total (l ++ r) = total l + total r := by
  rw [total, List.map_append, List.sum_append]
  rfl

theorem total_take_le (slots : List Bytes) (i : Nat) : total (slots.take i) ≤ total slots := by
  have hsplit := total_append (slots.take i) (slots.drop i)
  rw [List.take_append_drop] at hsplit
  omega

theorem total_take_succ (h : slots[i]? = some value) :
    total (slots.take (i + 1)) = total (slots.take i) + value.length := by
  rw [List.take_add_one, h, total_append]
  rfl

theorem total_take_mono (slots : List Bytes) (h : i ≤ j) : total (slots.take i) ≤ total
    (slots.take j) := by
  have hle := total_take_le (slots.take j) i
  rwa [List.take_take, Nat.min_eq_left h] at hle

theorem Holds.region (h : Holds buf slots) (hi : slots[i]? = some value) :
    dataPageHeaderSize + DataPage.slotEntrySize * slots.length ≤ offsetOf slots i ∧
      checksumOffset - total slots ≤ offsetOf slots i ∧
      offsetOf slots i + value.length = checksumOffset - total (slots.take i) := by
  have hroom := h.room
  have hnext := total_take_succ hi
  have hle := total_take_le slots (i + 1)
  unfold offsetOf
  omega

theorem Holds.lt (hi : slots[i]? = some value) : i < slots.length :=
  (List.getElem?_eq_some_iff.mp hi).1

theorem Holds.validateHeader (h : Holds buf slots) :
    validateHeader buf = some (dataPageHeaderSize + DataPage.slotEntrySize * slots.length,
      checksumOffset - total slots, slots.length) := by
  have hroom := h.room
  have hcomm := Nat.mul_comm slots.length DataPage.slotEntrySize
  unfold DataPage.validateHeader
  rw [if_neg (not_not.mpr h.tag), h.count, h.start, h.stop]
  dsimp only
  rw [if_neg (by omega), if_neg (by omega), if_neg (by omega), if_neg (by omega)]

theorem Holds.readSlotEntry (h : Holds buf slots) (hi : slots[i]? = some value) :
    readSlotEntry buf i = some (offsetOf slots i, value.length, slotFlagLive) := by
  have hroom := h.room
  have hlt := Holds.lt hi
  obtain ⟨hoff, hlen, hflags⟩ := h.entry i value hi
  obtain ⟨habove, hbelow, hend⟩ := h.region hi
  have hdir : DataPage.slotEntrySize * (i + 1) ≤ DataPage.slotEntrySize * slots.length :=
    Nat.mul_le_mul_left _ hlt
  unfold DataPage.readSlotEntry
  unfold Chisel.DataPage.slotEntrySize dataPageHeaderSize at *
  dsimp only
  rw [if_neg (by omega), hoff, hlen, hflags, if_neg (by omega), if_neg (by omega)]

theorem Holds.read (h : Holds buf slots) (i : Nat) : read buf i = slots[i]? := by
  unfold DataPage.read
  rw [h.validateHeader]
  dsimp only
  cases hi : slots[i]? with
  | none => rw [if_pos (List.getElem?_eq_none_iff.mp hi)]
  | some value =>
    rw [if_neg (Nat.not_le.mpr (Holds.lt hi)), h.readSlotEntry hi]
    dsimp only
    rw [if_neg (not_not.mpr rfl), h.value i value hi]

end Values

/-! ### Filling a page -/

section Filling

variable {buf buf' : Bytes} {slots : List Bytes} {value : Bytes} {i : Nat}

theorem u16At_patch {ws : List (Nat × Bytes)} {off n : Nat}
    (hfits : ∀ w ∈ ws, w.1 + w.2.length ≤ buf.length) (hapart : ws.Pairwise Apart)
    (hw : (off, encodeLe 2 n) ∈ ws) (hn : n < 2 ^ 16) : u16At (patch buf ws) off = n := by
  have hread := slice_patch_of_mem hfits hapart hw
  rw [encodeLe_length] at hread
  rw [u16At, hread]
  exact decodeLe_encodeLe_of_lt hn

theorem u16At_patch_of_apart {ws : List (Nat × Bytes)} {off : Nat}
    (hfits : ∀ w ∈ ws, w.1 + w.2.length ≤ buf.length)
    (h : ∀ w ∈ ws, off + 2 ≤ w.1 ∨ w.1 + w.2.length ≤ off) : u16At
    (patch buf ws) off = u16At buf off := by
  rw [u16At, slice_patch_of_apart hfits h]
  rfl

theorem holds_initPage (hsize : buf.length = pageSize) : Holds (initPage buf) [] := by
  have hlen : (List.replicate buf.length (0 : UInt8)).length = pageSize := by
    rw [List.length_replicate, hsize]
  have hfits : ∀ w ∈ [(0, [pageTypeData]), (1, [pageVersion]), (4, encodeLe 2 dataPageHeaderSize),
      (6, encodeLe 2 checksumOffset)], w.1 + w.2.length ≤
        (List.replicate buf.length (0 : UInt8)).length := by
    rw [hlen]
    decide
  have hapart : [(0, [pageTypeData]), (1, [pageVersion]), (4, encodeLe 2 dataPageHeaderSize),
      (6, encodeLe 2 checksumOffset)].Pairwise Apart := by
    unfold Apart
    decide
  refine ⟨(patch_length hfits).trans hlen, ?_, ?_, ?_, ?_, by decide, nofun, nofun⟩
  · have hread := slice_patch_of_mem hfits hapart (w := (0, [pageTypeData])) (by decide)
    exact congrArg decodeLe hread
  · unfold initPage
    rw [u16At_patch_of_apart hfits (by decide), u16At, slice, List.drop_replicate,
      List.take_replicate, Nat.min_eq_left (by rw [hsize]; decide)]
    rfl
  · exact u16At_patch hfits hapart (by decide) (by decide)
  · exact u16At_patch hfits hapart (by decide) (by decide)

theorem freeSpace_eq (slots : List Bytes) :
    DataPage.freeSpace slots = checksumOffset - total slots - (dataPageHeaderSize +
    DataPage.slotEntrySize * slots.length) := rfl

theorem Holds.insert_none (h : Holds buf slots)
    (hfull : DataPage.freeSpace slots < DataPage.slotEntrySize + value.length) :
    insert buf value = none := by
  rw [freeSpace_eq] at hfull
  unfold insert
  rw [h.validateHeader]
  dsimp only
  rw [if_pos hfull]

theorem offsetOf_append (hi : i < slots.length) :
    offsetOf (slots ++ [value]) i = offsetOf slots i := by
  unfold offsetOf
  rw [List.take_append_of_le_length hi]

theorem offsetOf_append_self :
    offsetOf (slots ++ [value]) slots.length = checksumOffset - total slots - value.length := by
  unfold offsetOf
  rw [List.take_of_length_le (by simp), total_append]
  unfold total
  simp
  omega

theorem Holds.insert_some (h : Holds buf slots)
    (hfit : DataPage.slotEntrySize + value.length ≤ DataPage.freeSpace slots) :
    ∃ buf', insert buf value = some (slots.length, buf') ∧ Holds buf' (slots ++ [value]) := by
  rw [freeSpace_eq] at hfit
  have hroom := h.room
  have hsize := h.size
  set start := dataPageHeaderSize + DataPage.slotEntrySize * slots.length with hstart
  set dataOffset := checksumOffset - total slots - value.length with hdata
  set ws : List (Nat × Bytes) := [(dataOffset, value), (start, encodeLe 2 dataOffset),
    (start + 2, encodeLe 2 value.length), (start + 4, encodeLe 2 slotFlagLive),
    (2, encodeLe 2 (slots.length + 1)), (4, encodeLe 2 (start + DataPage.slotEntrySize)),
    (6, encodeLe 2 dataOffset)] with hws
  have hinsert : insert buf value = some (slots.length, patch buf ws) := by
    unfold insert
    rw [h.validateHeader]
    dsimp only
    rw [if_neg (by omega)]
  unfold dataPageHeaderSize checksumOffset at *
  unfold DataPage.slotEntrySize at *
  have hfits : ∀ w ∈ ws, w.1 + w.2.length ≤ buf.length := by
    rw [hsize, hws]
    simp only [List.forall_mem_cons, encodeLe_length, pageSize]
    refine ⟨by omega, by omega, by omega, by omega, by omega, by omega, by omega, nofun⟩
  have hapart : ws.Pairwise Apart := by
    rw [hws]
    simp only [List.pairwise_cons, List.forall_mem_cons, List.not_mem_nil, false_imp_iff,
      implies_true, and_true, List.Pairwise.nil, Apart, encodeLe_length]
    omega
  have hkeep : ∀ off n, off + n ≤ 2 ∨ 8 ≤ off ∧ off + n ≤ start ∨ 8184 - total slots ≤ off →
      slice (patch buf ws) off n = slice buf off n := by
    intro off n hoff
    refine slice_patch_of_apart hfits ?_
    rw [hws]
    simp only [List.forall_mem_cons, encodeLe_length]
    refine ⟨by omega, by omega, by omega, by omega, by omega, by omega, by omega, nofun⟩
  have htotal : total (slots ++ [value]) = total slots + value.length := by
    rw [total_append]
    rfl
  have hcount : (slots ++ [value]).length = slots.length + 1 := List.length_append
  -- the slot of an old value, or the new one
  have hslot : ∀ i v, (slots ++ [value])[i]? = some v →
      (i < slots.length ∧ slots[i]? = some v) ∨ (i = slots.length ∧ v = value) := by
    intro i v hi
    rcases Nat.lt_trichotomy i slots.length with hlt | rfl | hgt
    · rw [List.getElem?_append_left hlt] at hi
      exact .inl ⟨hlt, hi⟩
    · rw [List.getElem?_concat_length] at hi
      exact .inr ⟨rfl, (Option.some.inj hi).symm⟩
    · rw [List.getElem?_eq_none (by omega)] at hi
      cases hi
  refine ⟨patch buf ws, hinsert, (patch_length hfits).trans hsize, ?_, ?_, ?_, ?_, ?_, ?_, ?_⟩
  · rw [u8At, hkeep 0 1 (by omega)]
    exact h.tag
  · rw [hcount]
    exact u16At_patch hfits hapart (by simp [hws]) (by omega)
  · rw [hcount, u16At_patch hfits hapart (n := start + 6) (by simp [hws]) (by omega)]
    show start + 6 = 16 + 6 * (slots.length + 1)
    omega
  · rw [htotal, u16At_patch hfits hapart (n := dataOffset) (by simp [hws]) (by omega)]
    omega
  · rw [hcount, htotal]
    show 16 + 6 * (slots.length + 1) + (total slots + value.length) ≤ 8184
    omega
  · intro i v hi
    rcases hslot i v hi with ⟨hlt, hi⟩ | ⟨rfl, rfl⟩
    · rw [offsetOf_append hlt]
      have hentry := h.entry i v hi
      unfold u16At dataPageHeaderSize DataPage.slotEntrySize at hentry ⊢
      rw [hkeep _ 2 (by omega), hkeep _ 2 (by omega), hkeep _ 2 (by omega)]
      exact hentry
    · have hbase : 16 + slots.length * 6 = start := by omega
      rw [offsetOf_append_self]
      unfold dataPageHeaderSize DataPage.slotEntrySize
      rw [hbase]
      exact ⟨u16At_patch hfits hapart (by simp [hws, checksumOffset, hdata])
        (by unfold checksumOffset; omega), u16At_patch hfits hapart (by simp [hws]) (by omega),
        u16At_patch hfits hapart (by simp [hws]) (by decide)⟩
  · intro i v hi
    rcases hslot i v hi with ⟨hlt, hi⟩ | ⟨rfl, rfl⟩
    · have hregion := (h.region hi).2.1
      rw [offsetOf_append hlt, hkeep _ _ (.inr (.inr hregion))]
      exact h.value i v hi
    · rw [offsetOf_append_self]
      exact slice_patch_of_mem hfits hapart (w := (dataOffset, v)) (by simp [hws])

theorem Holds.insert (h : Holds buf slots) (value : Bytes) :
    match Chisel.DataPage.insert slots value with
    | none => insert buf value = none
    | some (slot, slots') => ∃ buf', insert buf value = some (slot, buf') ∧ Holds buf' slots' := by
  unfold Chisel.DataPage.insert
  split_ifs with hfull
  · exact h.insert_none hfull
  · exact h.insert_some (Nat.le_of_not_lt hfull)

/-- One more value, and the values that were stored. -/
def insertNext (page : Bytes × List Bytes) (value : Bytes) : Bytes × List Bytes :=
  match insert page.1 value with
  | none => page
  | some (_, buf) => (buf, page.2 ++ [value])

/-- The page after the values were inserted, and those that were stored. -/
def fill (buf : Bytes) (values : List Bytes) : Bytes × List Bytes :=
  values.foldl insertNext (initPage buf, [])

theorem Holds.insertNext (h : Holds buf slots) (value : Bytes) :
    Holds (insertNext (buf, slots) value).1 (insertNext (buf, slots) value).2 := by
  unfold DataPage.insertNext
  rcases Nat.lt_or_ge (DataPage.freeSpace slots) (DataPage.slotEntrySize +
    value.length) with hfull | hfit
  · rw [h.insert_none hfull]
    exact h
  · obtain ⟨buf', hinsert, hholds⟩ := h.insert_some hfit
    rw [hinsert]
    exact hholds

theorem holds_fill (hsize : buf.length = pageSize) (values : List Bytes) :
    Holds (fill buf values).1 (fill buf values).2 := by
  have hstart := holds_initPage hsize
  unfold fill
  generalize initPage buf = page, ([] : List Bytes) = stored at hstart
  induction values generalizing page stored with
  | nil => exact hstart
  | cons value values ih => exact ih _ _ (hstart.insertNext value)

end Filling

/-- A data page after any sequence of inserts. A value is taken just if it and one more slot fit in
the gap; every slot reads the value that was stored in it; the regions of the values are apart from
each other and lie between the directory and the checksum field. -/
theorem data_page_law (buf : Vector UInt8 pageSize) (values : List Bytes) :
    let page := (fill buf.toList values).1
    let stored := (fill buf.toList values).2
    (∃ freeStart freeEnd, validateHeader page = some (freeStart, freeEnd, stored.length) ∧
      (∀ value, (∃ page', insert page value = some (stored.length, page')) ↔
        value.length + DataPage.slotEntrySize ≤ freeEnd - freeStart) ∧
      (∀ value, insert page value = none ↔
        ¬ value.length + DataPage.slotEntrySize ≤ freeEnd - freeStart) ∧
      ∃ offset : Nat → Nat, (∀ i value, stored[i]? = some value →
          readSlotEntry page i = some (offset i, value.length, slotFlagLive) ∧
          freeStart ≤ offset i ∧ offset i + value.length ≤ checksumOffset) ∧
        ∀ i j value value', stored[i]? = some value → stored[j]? = some value' → i ≠ j →
          offset i + value.length ≤ offset j ∨ offset j + value'.length ≤ offset i) ∧
    (∀ i, read page i = stored[i]?) ∧
    ∀ value : Bytes, value.length ≤ maxInlineValue →
      ∃ page', insert (initPage buf.toList) value = some (0, page') := by
  intro page stored
  have hsize : buf.toList.length = pageSize := Vector.length_toList
  have h : Holds page stored := holds_fill hsize values
  have hgap : ∀ value : Bytes, value.length + DataPage.slotEntrySize ≤
    checksumOffset - total stored -
      (dataPageHeaderSize + DataPage.slotEntrySize * stored.length) ↔
        DataPage.slotEntrySize + value.length ≤ DataPage.freeSpace stored := fun value => by
    rw [freeSpace_eq, Nat.add_comm]
  refine ⟨⟨_, _, h.validateHeader, fun value => ?_, fun value => ?_, offsetOf stored,
    fun i value hi => ?_, fun i j value value' hi hj hne => ?_⟩, h.read, fun value hle => ?_⟩
  · rw [hgap]
    constructor
    · intro ⟨page', hinsert⟩
      by_contra hfull
      rw [h.insert_none (Nat.lt_of_not_le hfull)] at hinsert
      cases hinsert
    · intro hfit
      obtain ⟨page', hinsert, -⟩ := h.insert_some hfit
      exact ⟨page', hinsert⟩
  · rw [hgap]
    constructor
    · intro hnone hfit
      obtain ⟨page', hinsert, -⟩ := h.insert_some hfit
      rw [hnone] at hinsert
      cases hinsert
    · intro hfull
      exact h.insert_none (Nat.lt_of_not_le hfull)
  · obtain ⟨habove, -, hend⟩ := h.region hi
    refine ⟨h.readSlotEntry hi, habove, ?_⟩
    omega
  · -- the later of the two lies below the earlier one
    have hi' := (h.region hi).2.2
    have hj' := (h.region hj).2.2
    rcases Nat.lt_or_gt_of_ne hne with hlt | hlt
    · right
      have hmono := total_take_mono stored (show i + 1 ≤ j from hlt)
      have hroom := h.room
      have hle := total_take_le stored j
      rw [hj']
      unfold offsetOf
      omega
    · left
      have hmono := total_take_mono stored (show j + 1 ≤ i from hlt)
      have hroom := h.room
      have hle := total_take_le stored i
      rw [hi']
      unfold offsetOf
      omega
  · have hempty := holds_initPage hsize
    have hfit : DataPage.slotEntrySize + value.length ≤ DataPage.freeSpace [] := by
      change value.length ≤ 8162 at hle
      show 6 + value.length ≤ 8168
      omega
    obtain ⟨page', hinsert, -⟩ := hempty.insert_some hfit
    exact ⟨page', hinsert⟩

end Raw.DataPage

end Chisel
