import Chisel.Lib.Bytes
import Chisel.PageCache

/-! The spillway (`spillway.rs`) byte by byte: slots of equal size in one backing store, each with
the id of its page, a checksum and the payload. A slot is written over when its page is spilled
again; otherwise every spill takes a new one. -/

namespace Chisel

open StateError ByteLayout

namespace Raw

/-- The backing store is a file or a vector; both grow with zeros when a slot beyond the end is
written. -/
structure Spillway where
  backing : Bytes
  slots : AList fun _ : Nat => Nat
  nextSlotIndex : Nat
  maxBytes : Nat
  payloadSize : Nat

abbrev SpillM := EStateM ChiselError Spillway

def slotHeaderSize : Nat := 16

namespace Spillway

def openEmpty (maxBytes payloadSize : Nat) : Spillway := ⟨[], ∅, 0, maxBytes, payloadSize⟩

def slotCount (s : Spillway) : Nat := s.slots.keys.length

def slotSize (s : Spillway) : Nat := slotHeaderSize + s.payloadSize

section Programs

-- the checksum of a slot: XXH3 over the id and the payload
variable (slotChecksum : Nat → Bytes → UInt64)

def slotBytes (id : Nat) (blob : Bytes) : Bytes :=
  encodeLe 8 id ++ encodeLe 8 (slotChecksum id blob).toNat ++ blob

def writeSlot (s : Spillway) (i id : Nat) (blob : Bytes) : Spillway :=
  let offset := i * s.slotSize
  let grown := s.backing ++ List.replicate (offset + s.slotSize - s.backing.length) 0
  { s with backing := splice grown offset (slotBytes slotChecksum id blob) }

/-- The id, the checksum and the payload of a slot. -/
def readSlot (s : Spillway) (i : Nat) : Except ChiselError (Nat × Nat × Bytes) :=
  let offset := i * s.slotSize
  if s.backing.length < offset + s.slotSize then .error .ioError
  else .ok (decodeLe (slice s.backing offset 8), decodeLe (slice s.backing (offset + 8) 8),
    slice s.backing (offset + slotHeaderSize) s.payloadSize)

def spill (id : Nat) (blob : Bytes) : SpillM Unit := do
  let s ← get
  match s.slots.lookup id with
  | some i => set (s.writeSlot slotChecksum i id blob)
  | none =>
    if (s.slotCount + 1) * s.payloadSize > s.maxBytes then throw (.spillwayFull s.maxBytes)
    let i := s.nextSlotIndex
    let s := { s with nextSlotIndex := i + 1, slots := s.slots.insert id i }
    set (s.writeSlot slotChecksum i id blob)

def truncate (s : Spillway) : Spillway := { s with slots := ∅, nextSlotIndex := 0, backing := [] }

def drainBatch (s : Spillway) (batchSize : Nat) : List Nat := s.slots.keys.take batchSize

def forget (s : Spillway) (id : Nat) : Spillway := { s with slots := s.slots.erase id }

def forgetAll (s : Spillway) (ids : List Nat) : Spillway := ids.foldl forget s

/-- `forget_above`; the map keeps the ids below `n`. -/
def forgetAbove (s : Spillway) (n : Nat) : Spillway :=
  s.forgetAll (s.slots.keys.filter fun id => ¬ id < n)

def rehydrate (id : Nat) : SpillM Bytes := do
  let s ← get
  match s.slots.lookup id with
  | none => throw (.invalidPageId id)
  | some i =>
    match s.readSlot i with
    | .error e => throw e
    | .ok (storedId, storedChecksum, blob) =>
      if storedId ≠ id then throw (.checksumMismatch id)
      if (slotChecksum id blob).toNat ≠ storedChecksum then throw (.checksumMismatch id)
      return blob

end Programs

/-! ### What the slots hold -/

/-- `held` has the payload of each resident page: the pages have slots of their own, and each slot
has the bytes of its page. -/
structure Shelved (slotChecksum : Nat → Bytes → UInt64) (s : Spillway) (held : Nat → Option Bytes) :
    Prop where
  size : s.backing.length = s.nextSlotIndex * s.slotSize
  apart : ∀ id id' i, s.slots.lookup id = some i → s.slots.lookup id' = some i → id = id'
  cell : ∀ id i, s.slots.lookup id = some i → i < s.nextSlotIndex ∧ id < 2 ^ 64 ∧
    ∃ blob, held id = some blob ∧ blob.length = s.payloadSize ∧
      slice s.backing (i * s.slotSize) s.slotSize = slotBytes slotChecksum id blob
  absent : ∀ id, s.slots.lookup id = none → held id = none

section Shelves

variable {slotChecksum : Nat → Bytes → UInt64} {s s' : Spillway} {held : Nat → Option Bytes}
  {id i n : Nat} {blob : Bytes}

theorem slotBytes_length : (slotBytes slotChecksum id blob).length = slotHeaderSize +
    blob.length := by
  rw [slotBytes, List.length_append, List.length_append, encodeLe_length, encodeLe_length]
  rfl

theorem slice_slotBytes (slotChecksum : Nat → Bytes → UInt64) (blob : Bytes) (hid : id < 2 ^ 64) :
    decodeLe (slice (slotBytes slotChecksum id blob) 0 8) = id ∧
    decodeLe (slice (slotBytes slotChecksum id blob) 8 8) = (slotChecksum id blob).toNat ∧
    slice (slotBytes slotChecksum id blob) slotHeaderSize blob.length = blob := by
  have hsum : (slotChecksum id blob).toNat < 256 ^ 8 := (slotChecksum id blob).toNat_lt
  refine ⟨?_, ?_, ?_⟩
  · rw [slotBytes, List.append_assoc, slice, List.drop_zero,
      List.take_append_of_le_length (encodeLe_length ..).ge, List.take_of_length_le
        (encodeLe_length ..).le]
    exact decodeLe_encodeLe_of_lt hid
  · rw [slotBytes, List.append_assoc, slice, List.drop_append_of_le_length (encodeLe_length ..).ge,
      List.drop_of_length_le (encodeLe_length ..).le, List.nil_append,
      List.take_append_of_le_length (encodeLe_length ..).ge, List.take_of_length_le
        (encodeLe_length ..).le]
    exact decodeLe_encodeLe_of_lt hsum
  · have hlen : (encodeLe 8 id ++ encodeLe 8 (slotChecksum id blob).toNat).length =
      slotHeaderSize := by
      rw [List.length_append, encodeLe_length, encodeLe_length]
      rfl
    rw [slotBytes, slice, List.drop_append_of_le_length hlen.ge, List.drop_of_length_le hlen.le,
      List.nil_append, List.take_length]

theorem slots_apart {w j : Nat} (h : i ≠ j) : i * w + w ≤ j * w ∨ j * w + w ≤ i * w := by
  rcases Nat.lt_or_gt_of_ne h with hlt | hlt
  · left
    calc i * w + w = (i + 1) * w := by ring
      _ ≤ j * w := Nat.mul_le_mul_right _ hlt
  · right
    calc j * w + w = (j + 1) * w := by ring
      _ ≤ i * w := Nat.mul_le_mul_right _ hlt

theorem Shelved.openEmpty (maxBytes payloadSize : Nat) :
    Shelved slotChecksum (openEmpty maxBytes payloadSize) fun _ => none where
  size := by simp [Spillway.openEmpty]
  apart _ _ _ h := by simp [Spillway.openEmpty] at h
  cell _ _ h := by simp [Spillway.openEmpty] at h
  absent _ _ := rfl

theorem Shelved.truncate (s : Spillway) : Shelved slotChecksum s.truncate fun _ => none where
  size := by simp [Spillway.truncate]
  apart _ _ _ h := by simp [Spillway.truncate] at h
  cell _ _ h := by simp [Spillway.truncate] at h
  absent _ _ := rfl

theorem Shelved.held_iff (h : Shelved slotChecksum s held) : held id ≠ none ↔ id ∈ s.slots := by
  rw [← AList.lookup_isSome, Option.isSome_iff_ne_none]
  constructor
  · intro hne hno
    exact hne (h.absent id hno)
  · intro hne
    obtain ⟨i, hi⟩ := Option.ne_none_iff_exists'.mp hne
    obtain ⟨-, -, blob, hblob, -⟩ := h.cell id i hi
    rw [hblob]
    exact nofun

theorem Shelved.rehydrate (h : Shelved slotChecksum s held) (id : Nat) :
    rehydrate slotChecksum id s = match held id with
      | some blob => .ok blob s
      | none => .error (.invalidPageId id) s := by
  unfold Spillway.rehydrate
  rw [get_bind_apply]
  cases hi : s.slots.lookup id with
  | none =>
    rw [h.absent id hi]
    rfl
  | some i =>
    obtain ⟨hlt, hid, blob, hblob, hlen, hcell⟩ := h.cell id i hi
    obtain ⟨hstored, hsum, hpayload⟩ := slice_slotBytes slotChecksum blob hid
    have hend : i * s.slotSize + s.slotSize ≤ s.backing.length := by
      rw [h.size]
      calc i * s.slotSize + s.slotSize = (i + 1) * s.slotSize := by ring
        _ ≤ _ := Nat.mul_le_mul_right _ hlt
    have hpart : ∀ k n, k + n ≤ s.slotSize →
        slice s.backing (i * s.slotSize + k) n = slice (slotBytes slotChecksum id blob) k n := by
      intro k n hk
      rw [← hcell, slice_slice hk]
    have hread : s.readSlot i = .ok (id, (slotChecksum id blob).toNat, blob) := by
      unfold readSlot
      rw [if_neg (by omega), hpart 8 8 (by unfold slotSize slotHeaderSize; omega), hsum,
        hpart slotHeaderSize s.payloadSize le_rfl, ← hlen, hpayload]
      have h0 := hpart 0 8 (by unfold slotSize slotHeaderSize; omega)
      rw [Nat.add_zero] at h0
      rw [h0, hstored]
    rw [hblob]
    dsimp only
    rw [hread]
    dsimp only
    rw [if_neg (by simp), if_neg (by simp)]
    rfl

/-- What a written slot does to the backing store: it has the bytes, and the other slots are as they
were. The slot is one of the first `n`, or the next one. -/
theorem writeSlot_spec (slotChecksum : Nat → Bytes → UInt64) (id : Nat)
    (hsize : s.backing.length = n * s.slotSize) (hi : i ≤ n) (hlen : blob.length = s.payloadSize) :
    (s.writeSlot slotChecksum i id blob).backing.length = max n (i + 1) * s.slotSize ∧
    slice (s.writeSlot slotChecksum i id blob).backing (i * s.slotSize) s.slotSize =
      slotBytes slotChecksum id blob ∧
    ∀ j < n, j ≠ i → slice (s.writeSlot slotChecksum i id blob).backing
    (j * s.slotSize) s.slotSize =
      slice s.backing (j * s.slotSize) s.slotSize := by
  set w := s.slotSize with hw
  set grown := s.backing ++ List.replicate (i * w + w - s.backing.length) 0 with hgrown
  have hdata : (slotBytes slotChecksum id blob).length = w := by
    rw [slotBytes_length, hlen]
    rfl
  have hnext : i * w + w = (i + 1) * w := by ring
  have hlength : grown.length = max n (i + 1) * w := by
    rw [hgrown, List.length_append, List.length_replicate, hsize, hnext]
    rcases Nat.lt_or_ge i n with hlt | hge
    · have hle : (i + 1) * w ≤ n * w := Nat.mul_le_mul_right _ hlt
      rw [Nat.max_eq_left hlt]
      omega
    · obtain rfl : i = n := by omega
      have hle : i * w ≤ (i + 1) * w := Nat.mul_le_mul_right _ (Nat.le_add_right i 1)
      rw [Nat.max_eq_right (Nat.le_add_right i 1)]
      omega
  have hfits : i * w + (slotBytes slotChecksum id blob).length ≤ grown.length := by
    rw [hdata, hlength, hnext]
    exact Nat.mul_le_mul_right _ (Nat.le_max_right ..)
  have hbacking : (s.writeSlot slotChecksum i id blob).backing =
      splice grown (i * w) (slotBytes slotChecksum id blob) := rfl
  rw [hbacking]
  refine ⟨?_, ?_, fun j hj hne => ?_⟩
  · rw [splice_length hfits, hlength]
  · have hself := slice_splice_self hfits
    rw [hdata] at hself
    exact hself
  · rw [slice_splice_of_apart _ (by omega), hgrown, slice_append_left]
    · rw [hsize]
      calc j * w + w = (j + 1) * w := by ring
        _ ≤ n * w := Nat.mul_le_mul_right _ hj
    · rw [hdata]
      exact slots_apart hne

theorem Shelved.rewrite (h : Shelved slotChecksum s held) (hi : s.slots.lookup id = some i)
    (hlen : blob.length = s.payloadSize) :
    Shelved slotChecksum (s.writeSlot slotChecksum i id blob)
      (Function.update held id (some blob)) := by
  obtain ⟨hlt, hid, -⟩ := h.cell id i hi
  obtain ⟨hsize, hself, hother⟩ :=
    writeSlot_spec slotChecksum id h.size hlt.le hlen
  rw [Nat.max_eq_left hlt] at hsize
  refine ⟨hsize, h.apart, fun x j hx => ?_, fun x hx => ?_⟩
  · obtain ⟨hj, hx64, blob', hheld, hlen', hcell⟩ := h.cell x j hx
    refine ⟨hj, hx64, ?_⟩
    by_cases hxi : x = id
    · subst hxi
      obtain rfl : i = j := Option.some.inj (hi.symm.trans hx)
      exact ⟨blob, Function.update_self .., hlen, hself⟩
    · refine ⟨blob', (Function.update_of_ne hxi ..).trans hheld, hlen', ?_⟩
      exact (hother j hj fun hji => hxi (h.apart x id i (hji ▸ hx) hi)).trans hcell
  · have hne : x ≠ id := by
      rintro rfl
      exact absurd (hi.symm.trans hx) nofun
    rw [Function.update_of_ne hne]
    exact h.absent x hx

theorem Shelved.append (h : Shelved slotChecksum s held) (hi : s.slots.lookup id = none)
    (hid : id < 2 ^ 64) (hlen : blob.length = s.payloadSize) :
    Shelved slotChecksum (writeSlot slotChecksum { s with
        nextSlotIndex := s.nextSlotIndex + 1, slots := s.slots.insert id s.nextSlotIndex }
      s.nextSlotIndex id blob) (Function.update held id (some blob)) := by
  obtain ⟨hsize, hself, hother⟩ :=
    writeSlot_spec slotChecksum id h.size le_rfl hlen
  rw [Nat.max_eq_right (Nat.le_succ _)] at hsize
  have hold : ∀ {x j}, x ≠ id → (s.slots.insert id s.nextSlotIndex).lookup x = some j →
      s.slots.lookup x = some j := fun hne hx => (AList.lookup_insert_ne hne).symm.trans hx
  have hnew : ∀ {j}, (s.slots.insert id s.nextSlotIndex).lookup id = some j → s.nextSlotIndex = j :=
    fun hx => Option.some.inj ((AList.lookup_insert _).symm.trans hx)
  refine ⟨hsize, fun x y j hx hy => ?_, fun x j hx => ?_, fun x hx => ?_⟩
  · by_cases hxi : x = id
    · by_cases hyi : y = id
      · rw [hxi, hyi]
      · subst hxi
        have hlt := (h.cell y j (hold hyi hy)).1
        exact absurd (hnew hx) (by omega)
    · by_cases hyi : y = id
      · subst hyi
        have hlt := (h.cell x j (hold hxi hx)).1
        exact absurd (hnew hy) (by omega)
      · exact h.apart x y j (hold hxi hx) (hold hyi hy)
  · by_cases hxi : x = id
    · subst hxi
      obtain rfl := hnew hx
      exact ⟨Nat.lt_succ_self _, hid, blob, Function.update_self .., hlen, hself⟩
    · obtain ⟨hj, hx64, blob', hheld, hlen', hcell⟩ := h.cell x j (hold hxi hx)
      exact ⟨Nat.lt_succ_of_lt hj, hx64, blob', (Function.update_of_ne hxi ..).trans hheld, hlen',
        (hother j hj (by omega)).trans hcell⟩
  · have hne : x ≠ id := by
      rintro rfl
      exact absurd ((AList.lookup_insert _).symm.trans hx) nofun
    rw [Function.update_of_ne hne]
    exact h.absent x ((AList.lookup_insert_ne hne).symm.trans hx)

theorem Shelved.restrict {slots : AList fun _ : Nat => Nat} {held' : Nat → Option Bytes}
    (h : Shelved slotChecksum s held)
    (hsub : ∀ x, slots.lookup x = s.slots.lookup x ∧ held' x = held x ∨
      slots.lookup x = none ∧ held' x = none) :
    Shelved slotChecksum { s with slots } held' := by
  have hold : ∀ {x j}, slots.lookup x = some j → s.slots.lookup x = some j ∧ held' x = held x := by
    intro x j hx
    rcases hsub x with ⟨heq, hheld⟩ | ⟨hno, -⟩
    · exact ⟨heq.symm.trans hx, hheld⟩
    · exact absurd (hx.symm.trans hno) nofun
  refine ⟨h.size, fun x y j hx hy => h.apart x y j (hold hx).1 (hold hy).1, fun x j hx => ?_,
    fun x hx => ?_⟩
  · obtain ⟨hx, hheld⟩ := hold hx
    obtain ⟨hj, hx64, blob, hblob, hcell⟩ := h.cell x j hx
    exact ⟨hj, hx64, blob, hheld.trans hblob, hcell⟩
  · rcases hsub x with ⟨heq, hheld⟩ | ⟨-, hno⟩
    · exact hheld.trans (h.absent x (heq.symm.trans hx))
    · exact hno

theorem Shelved.forget (h : Shelved slotChecksum s held) (id : Nat) :
    Shelved slotChecksum (s.forget id) (Function.update held id none) := by
  refine h.restrict fun x => ?_
  by_cases hx : x = id
  · subst hx
    exact .inr ⟨AList.lookup_erase .., Function.update_self ..⟩
  · exact .inl ⟨AList.lookup_erase_ne hx, Function.update_of_ne hx ..⟩

theorem forgetAll_eq (s : Spillway) (ids : List Nat) :
    s.forgetAll ids = { s with slots := ids.foldl (fun slots id => slots.erase id) s.slots } := by
  induction ids generalizing s with
  | nil => rfl
  | cons id ids ih => exact ih (s.forget id)

theorem lookup_forgetAll (s : Spillway) (ids : List Nat) (x : Nat) :
    (s.forgetAll ids).slots.lookup x = if x ∈ ids then none else s.slots.lookup x := by
  induction ids generalizing s with
  | nil => rfl
  | cons id ids ih =>
    have hstep := ih (s.forget id)
    change (s.forgetAll (id :: ids)).slots.lookup x = _ at hstep
    rw [hstep]
    by_cases hx : x = id
    · subst hx
      have hgone : (s.forget x).slots.lookup x = none := AList.lookup_erase ..
      simp [hgone]
    · have hkept : (s.forget id).slots.lookup x = s.slots.lookup x := AList.lookup_erase_ne hx
      simp [hkept, hx]

theorem lookup_forgetAbove (s : Spillway) (n x : Nat) :
    (s.forgetAbove n).slots.lookup x = if n ≤ x then none else s.slots.lookup x := by
  rw [forgetAbove, lookup_forgetAll]
  simp only [List.mem_filter, decide_eq_true_eq, Nat.not_lt]
  by_cases hn : n ≤ x
  · rw [if_pos hn]
    split
    · rfl
    · next hno =>
      exact AList.lookup_eq_none.mpr fun hin => hno ⟨AList.mem_keys.mp hin, hn⟩
  · rw [if_neg hn, if_neg fun h => hn h.2]

theorem Shelved.forgetAbove (h : Shelved slotChecksum s held) (n : Nat) :
    Shelved slotChecksum (s.forgetAbove n) fun x => if n ≤ x then none else held x := by
  have hlook := s.lookup_forgetAbove n
  rw [Spillway.forgetAbove, forgetAll_eq] at hlook ⊢
  refine h.restrict fun x => ?_
  by_cases hn : n ≤ x
  · exact .inr ⟨(hlook x).trans (if_pos hn), if_pos hn⟩
  · exact .inl ⟨(hlook x).trans (if_neg hn), if_neg hn⟩

end Shelves

/-! ### Slots as cells -/

/-- The bytes hold what the cells of `t` say, each unit as the bytes that `enc` gives for it. -/
structure Models (slotChecksum : Nat → Bytes → UInt64) (enc : DiskUnit → Bytes)
    (t : Chisel.Spillway) (s : Spillway) : Prop where
  slots : s.slots = t.slots
  next : s.nextSlotIndex = t.nextSlotIndex
  max : s.maxBytes = t.maxBytes
  payload : s.payloadSize = t.payloadSize
  cells : ∀ id i, t.slots.lookup id = some i → ∃ u, t.cells i = some (id, u)
  shelved : Shelved slotChecksum s fun id => (t.rehydrate id).toOption.map enc

section Cells

variable {slotChecksum : Nat → Bytes → UInt64} {enc : DiskUnit → Bytes} {t t' : Chisel.Spillway}
  {s : Spillway} {id : Nat} {u : DiskUnit}

theorem rehydrate_of_lookup {i : Nat} (hi : t.slots.lookup id = some i)
    (hu : t.cells i = some (id, u)) : t.rehydrate id = .ok u := by
  simp [Chisel.Spillway.rehydrate, hi, hu]

theorem rehydrate_of_none (hi : t.slots.lookup id = none) :
    t.rehydrate id = .error (.invalidPageId id) := by
  simp [Chisel.Spillway.rehydrate, hi]

theorem Models.openEmpty (maxBytes payloadSize : Nat) :
    Models slotChecksum enc (.new maxBytes payloadSize) (openEmpty maxBytes payloadSize) where
  slots := rfl
  next := rfl
  max := rfl
  payload := rfl
  cells _ _ h := by simp [Chisel.Spillway.new] at h
  shelved := .openEmpty maxBytes payloadSize

theorem Models.rehydrate (h : Models slotChecksum enc t s) (id : Nat) :
    rehydrate slotChecksum id s = match t.rehydrate id with
      | .ok u => .ok (enc u) s
      | .error e => .error e s := by
  rw [h.shelved.rehydrate]
  cases hi : t.slots.lookup id with
  | none =>
    rw [rehydrate_of_none hi]
    rfl
  | some i =>
    obtain ⟨u, hu⟩ := h.cells id i hi
    rw [rehydrate_of_lookup hi hu]
    rfl

theorem rehydrate_congr (hslot : t'.slots.lookup id = t.slots.lookup id)
    (hcell : ∀ i, t.slots.lookup id = some i → t'.cells i = t.cells i) :
    t'.rehydrate id = t.rehydrate id := by
  unfold Chisel.Spillway.rehydrate
  rw [hslot]
  cases hi : t.slots.lookup id with
  | none => rfl
  | some i =>
    dsimp only
    rw [hcell i hi]

theorem held_update (hself : t'.rehydrate id = .ok u)
    (hother : ∀ x ≠ id, t'.rehydrate x = t.rehydrate x) :
    (fun x => (t'.rehydrate x).toOption.map enc) =
      Function.update (fun x => (t.rehydrate x).toOption.map enc) id (some (enc u)) := by
  funext x
  by_cases hx : x = id
  · subst hx
    rw [Function.update_self, hself]
    rfl
  · rw [Function.update_of_ne hx, hother x hx]

section

variable (h : Models slotChecksum enc t s)

include h

theorem Models.rewrite {i : Nat} (hi : t.slots.lookup id = some i)
    (hlen : (enc u).length = t.payloadSize) :
    Models slotChecksum enc { t with
        cells := Function.update t.cells i (some (id, u)), log := t.log ++ [(id, u)] }
      (s.writeSlot slotChecksum i id (enc u)) := by
  have hi' : s.slots.lookup id = some i := h.slots ▸ hi
  have hne : ∀ {x j}, x ≠ id → t.slots.lookup x = some j → j ≠ i := fun hx hj hji =>
    hx (h.shelved.apart _ id i (h.slots ▸ hji ▸ hj) hi')
  refine ⟨h.slots, h.next, h.max, h.payload, fun x j hx => ?_, ?_⟩
  · by_cases hxi : x = id
    · subst hxi
      obtain rfl := Option.some.inj (hi.symm.trans hx)
      exact ⟨u, Function.update_self ..⟩
    · obtain ⟨w, hw⟩ := h.cells x j hx
      exact ⟨w, (Function.update_of_ne (hne hxi hx) ..).trans hw⟩
  · set t' : Chisel.Spillway := { t with
      cells := Function.update t.cells i (some (id, u)), log := t.log ++ [(id, u)] }
    have hself : t'.rehydrate id = .ok u := rehydrate_of_lookup hi (Function.update_self ..)
    have hother : ∀ x ≠ id, t'.rehydrate x = t.rehydrate x := fun x hx =>
      rehydrate_congr rfl fun j hj => Function.update_of_ne (hne hx hj) ..
    rw [held_update hself hother]
    exact h.shelved.rewrite hi' (hlen.trans h.payload.symm)

theorem Models.append (hi : t.slots.lookup id = none)
    (hid : id < 2 ^ 64) (hlen : (enc u).length = t.payloadSize) :
    Models slotChecksum enc { t with
        slots := t.slots.insert id t.nextSlotIndex
        cells := Function.update t.cells t.nextSlotIndex (some (id, u))
        nextSlotIndex := t.nextSlotIndex + 1, log := t.log ++ [(id, u)] }
      (writeSlot slotChecksum { s with
        nextSlotIndex := s.nextSlotIndex + 1, slots := s.slots.insert id s.nextSlotIndex }
        s.nextSlotIndex id (enc u)) := by
  have hi' : s.slots.lookup id = none := h.slots ▸ hi
  have hne : ∀ {x j}, t.slots.lookup x = some j → j ≠ t.nextSlotIndex := fun hj =>
    h.next ▸ (h.shelved.cell _ _ (h.slots ▸ hj)).1.ne
  refine ⟨?_, ?_, h.max, h.payload, fun x j hx => ?_, ?_⟩
  · show s.slots.insert id s.nextSlotIndex = t.slots.insert id t.nextSlotIndex
    rw [h.slots, h.next]
  · show s.nextSlotIndex + 1 = t.nextSlotIndex + 1
    rw [h.next]
  · by_cases hxi : x = id
    · subst hxi
      obtain rfl := Option.some.inj ((AList.lookup_insert _).symm.trans hx)
      exact ⟨u, Function.update_self ..⟩
    · have hx' := (AList.lookup_insert_ne hxi).symm.trans hx
      obtain ⟨w, hw⟩ := h.cells x j hx'
      exact ⟨w, (Function.update_of_ne (hne hx') ..).trans hw⟩
  · rw [held_update (rehydrate_of_lookup (AList.lookup_insert _) (Function.update_self ..))
      fun x hx =>
      rehydrate_congr (AList.lookup_insert_ne hx) fun j hj => Function.update_of_ne (hne hj) ..]
    exact h.shelved.append hi' hid (hlen.trans h.payload.symm)

theorem Models.spill (hid : id < 2 ^ 64)
    (hlen : (enc u).length = t.payloadSize) :
    match t.spill id u with
    | .ok t' => ∃ s', spill slotChecksum id (enc u) s = .ok () s' ∧ Models slotChecksum enc t' s'
    | .error e => spill slotChecksum id (enc u) s = .error e s := by
  have hcount : s.slotCount = t.slotCount := by
    unfold slotCount Chisel.Spillway.slotCount
    rw [h.slots]
  unfold Chisel.Spillway.spill Spillway.spill
  rw [get_bind_apply]
  cases hi : t.slots.lookup id with
  | some i =>
    rw [show s.slots.lookup id = some i from h.slots ▸ hi]
    exact ⟨_, rfl, h.rewrite hi hlen⟩
  | none =>
    rw [show s.slots.lookup id = none from h.slots ▸ hi]
    dsimp only
    by_cases hfull : (t.slotCount + 1) * t.payloadSize > t.maxBytes
    · rw [if_pos hfull, if_pos (by rwa [hcount, h.payload, h.max]), h.max]
      rfl
    · rw [if_neg hfull, if_neg (by rwa [hcount, h.payload, h.max])]
      exact ⟨_, rfl, h.append hi hid hlen⟩

theorem Models.truncate :
    Models slotChecksum enc t.truncate s.truncate where
  slots := rfl
  next := rfl
  max := h.max
  payload := h.payload
  cells _ _ hx := by simp [Chisel.Spillway.truncate] at hx
  shelved := .truncate s

theorem Models.forget (id : Nat) :
    Models slotChecksum enc (t.forget id) (s.forget id) := by
  have hold : ∀ {x i}, (t.slots.erase id).lookup x = some i → x ≠ id ∧
    t.slots.lookup x = some i := by
    intro x i hx
    have hne : x ≠ id := by
      rintro rfl
      rw [AList.lookup_erase] at hx
      cases hx
    exact ⟨hne, (AList.lookup_erase_ne hne).symm.trans hx⟩
  refine ⟨?_, h.next, h.max, h.payload, fun x i hx => h.cells x i (hold hx).2, ?_⟩
  · show s.slots.erase id = t.slots.erase id
    rw [h.slots]
  · convert h.shelved.forget id using 1
    funext x
    by_cases hx : x = id
    · subst hx
      rw [Function.update_self, rehydrate_of_none (AList.lookup_erase ..)]
      rfl
    · rw [Function.update_of_ne hx]
      congr 2
      exact rehydrate_congr (AList.lookup_erase_ne hx) fun _ _ => rfl

theorem Models.forgetAll (ids : List Nat) :
    Models slotChecksum enc (t.forgetAll ids) (s.forgetAll ids) := by
  induction ids generalizing t s with
  | nil => exact h
  | cons id ids ih => exact ih (h.forget id)

theorem Models.forgetAbove (n : Nat) :
    Models slotChecksum enc (t.forgetAbove n) (s.forgetAbove n) := by
  unfold Spillway.forgetAbove Chisel.Spillway.forgetAbove
  rw [h.slots]
  simp only [Nat.not_lt]
  exact h.forgetAll _

theorem Models.drainBatch (n : Nat) :
    s.drainBatch n = t.drainBatch n := by
  unfold Spillway.drainBatch Chisel.Spillway.drainBatch
  rw [h.slots]

end

end Cells

/-! ### Runs -/

/-- A call. A page id is a `u64`, and a payload has the size that the spillway was opened with. -/
inductive Op (payloadSize : Nat)
  | spill (id : UInt64) (blob : Vector UInt8 payloadSize)
  | rehydrate (id : UInt64)
  | forget (id : UInt64)
  | forgetAbove (n : UInt64)
  | drainBatch (batchSize : Nat)
  | truncate

section Runs

variable (slotChecksum : Nat → Bytes → UInt64) {payloadSize : Nat}

def Op.run : Op payloadSize → SpillM Unit
  | .spill id blob => Spillway.spill slotChecksum id.toNat blob.toList
  | .rehydrate id => do let _ ← Spillway.rehydrate slotChecksum id.toNat
  | .forget id => modify fun s => s.forget id.toNat
  | .forgetAbove n => modify fun s => s.forgetAbove n.toNat
  | .drainBatch batchSize => do let _ := (← get).drainBatch batchSize
  | .truncate => modify Spillway.truncate

/-- A spillway, and the payload of the last successful spill of each page that was not forgotten and
not truncated away since. -/
structure History where
  state : Spillway
  held : Nat → Option Bytes

/-- What becomes of the payloads when a call returns. -/
def Op.keep (held : Nat → Option Bytes) : Op payloadSize → Nat → Option Bytes
  | .spill id blob => Function.update held id.toNat (some blob.toList)
  | .rehydrate _ => held
  | .forget id => Function.update held id.toNat none
  | .forgetAbove n => fun x => if n.toNat ≤ x then none else held x
  | .drainBatch _ => held
  | .truncate => fun _ => none

def History.step (h : History) (op : Op payloadSize) : History :=
  match op.run slotChecksum h.state with
  | .ok _ s => ⟨s, op.keep h.held⟩
  | .error _ s => ⟨s, h.held⟩

def history (maxBytes : Nat) (ops : List (Op payloadSize)) : History :=
  ops.foldl (History.step slotChecksum) ⟨openEmpty maxBytes payloadSize, fun _ => none⟩

/-- Batches of the given sizes, each forgotten before the next one is asked for: their pages, and
the spillway that is left. -/
def drained (s : Spillway) : List Nat → List Nat × Spillway
  | [] => ([], s)
  | n :: sizes =>
    let batch := s.drainBatch n
    let (rest, s') := (s.forgetAll batch).drained sizes
    (batch ++ rest, s')

end Runs

section Law

variable {slotChecksum : Nat → Bytes → UInt64} {s s' : Spillway} {held : Nat → Option Bytes}
  {payloadSize : Nat}

/-- A spill returns, or it is refused and nothing changed. It is refused just if the page is not
resident and one more page is too many. -/
theorem Shelved.spill (h : Shelved slotChecksum s held) {id : Nat} {blob : Bytes}
    (hid : id < 2 ^ 64) (hlen : blob.length = s.payloadSize) :
    wp (Spillway.spill slotChecksum id blob) s
      (fun _ s' => Shelved slotChecksum s' (Function.update held id (some blob)) ∧
        s'.payloadSize = s.payloadSize ∧ s'.maxBytes = s.maxBytes ∧
        ¬ (id ∉ s.slots ∧ s.maxBytes < (s.slotCount + 1) * s.payloadSize))
      (fun e s' => e = .spillwayFull s.maxBytes ∧ s' = s ∧
        id ∉ s.slots ∧ s.maxBytes < (s.slotCount + 1) * s.payloadSize) := by
  unfold Spillway.spill
  rw [wp_bind, wp_get]
  cases hi : s.slots.lookup id with
  | some i =>
    have hin : id ∈ s.slots := AList.lookup_isSome.mp (by rw [hi]; rfl)
    dsimp only
    rw [wp_set]
    exact ⟨h.rewrite hi hlen, rfl, rfl, fun hno => hno.1 hin⟩
  | none =>
    have hnot : id ∉ s.slots := AList.lookup_eq_none.mp hi
    dsimp only
    refine wp_ite (fun hfull => ?_) fun hroom => ?_
    · rw [wp_bind]
      exact wp_fail ⟨rfl, rfl, hnot, hfull⟩
    · rw [wp_set]
      exact ⟨h.append hi hid hlen, rfl, rfl, fun hno => hroom hno.2⟩

theorem foldl_erase_append (l r : List Nat) : l.foldl List.erase (l ++ r) = r := by
  induction l with
  | nil => rfl
  | cons a l ih =>
    rw [List.foldl_cons, List.cons_append, List.erase_cons_head]
    exact ih

theorem keys_forgetAll (s : Spillway) (ids : List Nat) :
    (s.forgetAll ids).slots.keys = ids.foldl List.erase s.slots.keys := by
  induction ids generalizing s with
  | nil => rfl
  | cons id ids ih =>
    have hstep := ih (s.forget id)
    rw [show (s.forget id).slots.keys = s.slots.keys.erase id from AList.keys_erase ..] at hstep
    exact hstep

theorem drained_keys (s : Spillway) (sizes : List Nat) :
    (s.drained sizes).1 = s.slots.keys.take sizes.sum ∧
      (s.drained sizes).2.slots.keys = s.slots.keys.drop sizes.sum := by
  induction sizes generalizing s with
  | nil => exact ⟨rfl, rfl⟩
  | cons n sizes ih =>
    have hkeys : (s.forgetAll (s.drainBatch n)).slots.keys = s.slots.keys.drop n := by
      have herase := foldl_erase_append (s.slots.keys.take n) (s.slots.keys.drop n)
      rw [List.take_append_drop] at herase
      rw [keys_forgetAll]
      exact herase
    obtain ⟨htake, hdrop⟩ := ih (s.forgetAll (s.drainBatch n))
    rw [hkeys] at htake hdrop
    rw [List.sum_cons]
    constructor
    · show s.drainBatch n ++ ((s.forgetAll (s.drainBatch n)).drained sizes).1 = _
      rw [htake, List.take_add]
      rfl
    · show ((s.forgetAll (s.drainBatch n)).drained sizes).2.slots.keys = _
      rw [hdrop, List.drop_drop]

/-- What every run keeps. -/
structure History.Ok (slotChecksum : Nat → Bytes → UInt64) (maxBytes payloadSize : Nat)
    (h : History) :
    Prop where
  shelved : Shelved slotChecksum h.state h.held
  payload : h.state.payloadSize = payloadSize
  max : h.state.maxBytes = maxBytes

theorem History.Ok.step {maxBytes : Nat} {h : History}
    (hok : h.Ok slotChecksum maxBytes payloadSize) (op : Op payloadSize) :
    (h.step slotChecksum op).Ok slotChecksum maxBytes payloadSize := by
  obtain ⟨hs, hp, hm⟩ := hok
  unfold History.step
  cases op with
  | spill id blob =>
    have hlen : blob.toList.length = h.state.payloadSize :=
      Vector.length_toList.trans hp.symm
    have hwp := hs.spill id.toNat_lt hlen
    cases hrun : Spillway.spill slotChecksum id.toNat blob.toList h.state with
    | ok _ s =>
      obtain ⟨hs', hp', hm', -⟩ := (wp_ok hrun).mp hwp
      simp only [Op.run, hrun]
      exact ⟨hs', hp'.trans hp, hm'.trans hm⟩
    | error e s =>
      obtain ⟨-, rfl, -⟩ := (wp_error hrun).mp hwp
      simp only [Op.run, hrun]
      exact ⟨hs, hp, hm⟩
  | rehydrate id =>
    have hrun := hs.rehydrate id.toNat
    cases hheld : h.held id.toNat with
    | some blob =>
      rw [hheld] at hrun
      simp only [Op.run, bind_of_ok hrun]
      exact ⟨hs, hp, hm⟩
    | none =>
      rw [hheld] at hrun
      simp only [Op.run, bind_of_error hrun]
      exact ⟨hs, hp, hm⟩
  | forget id => exact ⟨hs.forget id.toNat, hp, hm⟩
  | forgetAbove n =>
    have hrest := h.state.forgetAll_eq (h.state.slots.keys.filter fun id => ¬ id < n.toNat)
    refine ⟨hs.forgetAbove n.toNat, ?_, ?_⟩
    · show (h.state.forgetAbove n.toNat).payloadSize = payloadSize
      rw [forgetAbove, hrest]
      exact hp
    · show (h.state.forgetAbove n.toNat).maxBytes = maxBytes
      rw [forgetAbove, hrest]
      exact hm
  | drainBatch batchSize => exact ⟨hs, hp, hm⟩
  | truncate => exact ⟨.truncate h.state, hp, hm⟩

theorem history_ok (maxBytes : Nat) (ops : List (Op payloadSize)) :
    (history slotChecksum maxBytes ops).Ok slotChecksum maxBytes payloadSize := by
  have hstart : History.Ok slotChecksum maxBytes payloadSize
      ⟨openEmpty maxBytes payloadSize, fun _ => none⟩ := ⟨.openEmpty maxBytes payloadSize, rfl, rfl⟩
  unfold history
  generalize (⟨openEmpty maxBytes payloadSize, fun _ => none⟩ : History) = h at hstart ⊢
  induction ops generalizing h with
  | nil => exact hstart
  | cons op ops ih => exact ih _ (hstart.step op)

end Law

/-- Every run of a spillway. A page is read back with the payload of its last spill, or it is absent
if that was forgotten or truncated away. Two resident pages have two slots. A spill is refused just
if the page is not resident and the payloads would exceed the bound. Batches that are forgotten one
after the other have every page once. -/
theorem spillway_store_law (slotChecksum : Nat → Bytes → UInt64) (maxBytes payloadSize : Nat)
    (ops : List (Op payloadSize)) :
    let h := history slotChecksum maxBytes ops
    (∀ id, rehydrate slotChecksum id h.state = match h.held id with
      | some blob => .ok blob h.state
      | none => .error (.invalidPageId id) h.state) ∧
    (∀ id id' i, h.state.slots.lookup id = some i → h.state.slots.lookup id' = some i → id = id') ∧
    (∀ (id : UInt64) (blob : Vector UInt8 payloadSize),
      (spill slotChecksum id.toNat blob.toList h.state = .error (.spillwayFull maxBytes) h.state ↔
        h.held id.toNat = none ∧ maxBytes < (Set.ncard {x | h.held x ≠ none} + 1) * payloadSize) ∧
      ∀ e s, spill slotChecksum id.toNat blob.toList h.state = .error e s →
        e = .spillwayFull maxBytes ∧ s = h.state) ∧
    (∀ sizes, ((h.state.drained sizes).1 ++ (h.state.drained sizes).2.slots.keys).Nodup ∧
      (∀ x, x ∈ (h.state.drained sizes).1 ++ (h.state.drained sizes).2.slots.keys ↔
        h.held x ≠ none) ∧
      ((∀ n ∈ sizes, 0 < n) → h.state.slotCount ≤ sizes.length →
        (h.state.drained sizes).2.slots.keys = [])) ∧
    ∀ n x, (h.state.forgetAbove n).slots.lookup x = if n ≤
      x then none else h.state.slots.lookup x := by
  intro h
  obtain ⟨hs, hp, hm⟩ : h.Ok slotChecksum maxBytes payloadSize := history_ok maxBytes ops
  have hcount : h.state.slotCount = Set.ncard {x | h.held x ≠ none} := by
    have hset : {x | h.held x ≠ none} = (h.state.slots.keys.toFinset : Set Nat) := by
      ext x
      rw [Finset.mem_coe, List.mem_toFinset, ← AList.mem_keys]
      exact hs.held_iff
    rw [hset, Set.ncard_coe_finset, List.toFinset_card_of_nodup (AList.keys_nodup _)]
    rfl
  refine ⟨hs.rehydrate, hs.apart, fun id blob => ?_, fun sizes => ?_, h.state.lookup_forgetAbove⟩
  · have hlen : blob.toList.length = h.state.payloadSize :=
      Vector.length_toList.trans hp.symm
    have hwp := hs.spill id.toNat_lt hlen
    rw [hp, hm, hcount, ← hs.held_iff, not_ne_iff] at hwp
    cases hrun : spill slotChecksum id.toNat blob.toList h.state with
    | ok _ s =>
      obtain ⟨-, -, -, hno⟩ := (wp_ok hrun).mp hwp
      exact ⟨iff_of_false nofun hno, nofun⟩
    | error e s =>
      obtain ⟨rfl, rfl, hfull⟩ := (wp_error hrun).mp hwp
      refine ⟨iff_of_true rfl hfull, fun e s heq => ?_⟩
      cases heq
      exact ⟨rfl, rfl⟩
  · obtain ⟨htake, hdrop⟩ := h.state.drained_keys sizes
    rw [htake, hdrop, List.take_append_drop]
    refine ⟨AList.keys_nodup _, fun x => ?_, fun hpos hle => ?_⟩
    · rw [hs.held_iff, AList.mem_keys]
    · have hsum : sizes.length ≤ sizes.sum := by
        clear * - hpos
        induction sizes with
        | nil => exact le_rfl
        | cons n sizes ih =>
          have hn := hpos n List.mem_cons_self
          have hrest := ih fun k hk => hpos k (List.mem_cons_of_mem _ hk)
          rw [List.length_cons, List.sum_cons]
          omega
      exact List.drop_of_length_le (hle.trans hsum)

end Spillway

end Raw

end Chisel
