import Chisel.FreeMapOps

/-! A bitmap page byte by byte (`freemap.rs`). A set bit is a free page, and bit `i` of the map is
bit `i % 8` of byte `i / 8` of the body. The search reads a byte at a time: the first byte is masked
below the bound, and in the first byte that is not zero the trailing zeros count up to the answer.
That the bytes do what `FreeMap.markFree`, `FreeMap.clearBit` and `FreeMap.firstFreeBitFrom` do to
the bits is proved here. The checksum is stamped by the caller. -/

namespace Chisel

/-- A buffer as the source has it: `[u8; PAGE_SIZE]`. -/
abbrev PageBuf := Vector UInt8 pageSize

namespace Raw.Bitmap

def bitmapOffset : Nat := dataPageHeaderSize

/-- The byte of the body, and the bit in it. -/
def bitPosition (pageId : Nat) : Nat × Nat := (pageId / 8, pageId % 8)

theorem body_lt {i : Nat} (h : i < pageBodySize) : bitmapOffset + i < pageSize := by
  simp only [bitmapOffset, dataPageHeaderSize, pageBodySize, pageSize] at h ⊢
  omega

def isFree (buf : PageBuf) (pageId : Nat) : Bool :=
  let pos := bitPosition pageId
  if h : pos.1 < pageBodySize then
    have := body_lt h
    (buf[bitmapOffset + pos.1] >>> UInt8.ofNat pos.2) &&& 1 == 1
  else false

/-- The byte that holds a bit is changed; a bit that no byte of the body holds is ignored. -/
def editByte (buf : PageBuf) (pageId : Nat) (g : UInt8 → UInt8) : PageBuf :=
  let pos := bitPosition pageId
  if h : pos.1 < pageBodySize then
    have := body_lt h
    buf.set (bitmapOffset + pos.1) (g buf[bitmapOffset + pos.1])
  else buf

def markFree (buf : PageBuf) (pageId : Nat) : PageBuf :=
  editByte buf pageId (· ||| 1 <<< UInt8.ofNat (bitPosition pageId).2)

def clearBit (buf : PageBuf) (pageId : Nat) : PageBuf :=
  editByte buf pageId (· &&& ~~~(1 <<< UInt8.ofNat (bitPosition pageId).2))

def trailingZeros (byte : UInt8) : Nat := byte.toBitVec.ctz.toNat

/-- The bits below `startBit` cleared. -/
def maskBelow (byte : UInt8) (startBit : Nat) : UInt8 :=
  byte &&& ~~~((1 <<< UInt8.ofNat startBit) - 1)

/-- The loop of the search from `byteIdx` on, `left` bytes before the end of the body. -/
def scanBytes (buf : PageBuf) (startByte startBit : Nat) (byteIdx left : Nat)
    (h : byteIdx + left = pageBodySize) : Option Nat :=
  match left with
  | 0 => none
  | left + 1 =>
    have := body_lt (show byteIdx < pageBodySize by omega)
    let byte := buf[bitmapOffset + byteIdx]
    let byte := if byteIdx = startByte then maskBelow byte startBit else byte
    if byte ≠ 0 then some (byteIdx * 8 + trailingZeros byte)
    else scanBytes buf startByte startBit (byteIdx + 1) left (by omega)

def firstFreeBitFrom (buf : PageBuf) (lo : Nat) : Option Nat :=
  let startByte := lo / 8
  if h : pageBodySize ≤ startByte then none
  else scanBytes buf startByte (lo % 8) startByte (pageBodySize - startByte) (by omega)

/-! ### Bits of a byte -/

theorem shifted_and_one (byte : UInt8) {k : Nat} (hk : k < 8) :
    ((byte >>> UInt8.ofNat k) &&& 1 == 1) = byte.toBitVec.getLsbD k := by
  have key : ∀ k < 8, ∀ v : BitVec 8,
      ((UInt8.ofBitVec v >>> UInt8.ofNat k) &&& 1 == 1) = v.getLsbD k := by decide +kernel
  exact key k hk byte.toBitVec

theorem getLsbD_bit (id : Nat) {j : Nat} (hj : j < 8) :
    ((1 : UInt8) <<< UInt8.ofNat (bitPosition id).2).toBitVec.getLsbD j = decide (j = id % 8) := by
  have key : ∀ k < 8, ∀ j < 8,
      ((1 : UInt8) <<< UInt8.ofNat k).toBitVec.getLsbD j = decide (j = k) := by decide
  exact key _ (Nat.mod_lt _ (by decide)) j hj

theorem getLsbD_maskBelow (byte : UInt8) {s j : Nat} (hs : s < 8) (hj : j < 8) :
    (maskBelow byte s).toBitVec.getLsbD j = (byte.toBitVec.getLsbD j && decide (s ≤ j)) := by
  have hmask : ∀ s < 8, ∀ j < 8,
      (~~~(((1 : UInt8) <<< UInt8.ofNat s) - 1)).toBitVec.getLsbD j = decide (s ≤ j) := by decide
  rw [maskBelow, UInt8.toBitVec_and, BitVec.getLsbD_and, hmask s hs j hj]

theorem maskBelow_zero (byte : UInt8) : maskBelow byte 0 = byte := UInt8.and_neg_one

theorem trailingZeros_spec {byte : UInt8} (h : byte ≠ 0) :
    trailingZeros byte < 8 ∧ byte.toBitVec.getLsbD (trailingZeros byte) = true ∧
      ∀ j < trailingZeros byte, byte.toBitVec.getLsbD j = false := by
  have hne : byte.toBitVec ≠ 0#8 := fun h0 => h (UInt8.toBitVec_inj.mp h0)
  have hset := BitVec.getLsbD_true_ctz_of_ne_zero hne
  exact ⟨BitVec.lt_of_getLsbD hset, hset, fun j hj => BitVec.getLsbD_false_of_lt_ctz hj⟩

/-! ### Bits of the map -/

section

variable (buf : PageBuf) {id x : Nat}

/-- Byte `i` of the body, where there is one. -/
def bodyByte (i : Nat) : UInt8 := buf[bitmapOffset + i]?.getD 0

theorem bodyByte_eq {i : Nat} (h : bitmapOffset + i < pageSize) :
    buf[bitmapOffset + i] = bodyByte buf i := by
  simp [bodyByte, h]

theorem byte_lt_iff : x / 8 < pageBodySize ↔ x < FreeMap.leafCapacity := by
  rw [Nat.div_lt_iff_lt_mul (by decide), FreeMap.leafCapacity]

theorem isFree_eq (x : Nat) : isFree buf x =
    (decide (x < FreeMap.leafCapacity) && (bodyByte buf (x / 8)).toBitVec.getLsbD (x % 8)) := by
  by_cases hx : x / 8 < pageBodySize
  · simp [isFree, bitPosition, hx, byte_lt_iff.mp hx, bodyByte_eq,
      shifted_and_one _ (Nat.mod_lt x (show 8 > 0 by decide))]
  · simp [isFree, bitPosition, hx, mt byte_lt_iff.mpr hx]

theorem isFree_byte {i k : Nat} (hi : i < pageBodySize) (hk : k < 8) :
    isFree buf (i * 8 + k) = (bodyByte buf i).toBitVec.getLsbD k := by
  have hcap : i * 8 + k < FreeMap.leafCapacity := byte_lt_iff.mp (by omega)
  rw [isFree_eq, show (i * 8 + k) / 8 = i by omega, show (i * 8 + k) % 8 = k by omega]
  simp [hcap]

theorem editByte_eq {g : UInt8 → UInt8} (hid : id / 8 < pageBodySize) : editByte buf id g =
    buf.set (bitmapOffset + id / 8) (g (bodyByte buf (id / 8))) (body_lt hid) := by
  rw [← bodyByte_eq buf (body_lt hid)]
  exact dif_pos hid

/-- A byte put back with one bit changed changes that bit of the map. -/
theorem isFree_editByte {g : UInt8 → UInt8} {v : Bool} (hid : id < FreeMap.leafCapacity)
    (hg : ∀ byte : UInt8, ∀ j < 8, (g byte).toBitVec.getLsbD j =
      if j = id % 8 then v else byte.toBitVec.getLsbD j) :
    isFree (editByte buf id g) = Function.update (isFree buf) id v := by
  have hbyte : ∀ i, bodyByte (editByte buf id g) i =
      if i = id / 8 then g (bodyByte buf (id / 8)) else bodyByte buf i := by
    have hlt := byte_lt_iff.mpr hid
    intro i
    rw [editByte_eq buf hlt]
    by_cases hi : i = id / 8
    · simp [bodyByte, hi, body_lt hlt]
    · simp [bodyByte, hi, Ne.symm hi]
  funext x
  rw [isFree_eq, hbyte]
  by_cases hx : x = id
  · rw [hx, Function.update_self, if_pos rfl, hg _ _ (Nat.mod_lt _ (by decide)), if_pos rfl]
    simp [hid]
  · rw [Function.update_of_ne hx, isFree_eq]
    by_cases hq : x / 8 = id / 8
    · -- Another bit of the same byte.
      have hr : x % 8 ≠ id % 8 := fun hr => hx (by omega)
      rw [if_pos hq, hg _ _ (Nat.mod_lt _ (by decide)), if_neg hr, hq]
    · rw [if_neg hq]

theorem isFree_markFree (h : id < FreeMap.leafCapacity) :
    isFree (markFree buf id) = FreeMap.markFree (isFree buf) id := by
  refine isFree_editByte buf h fun byte j hj => ?_
  rw [UInt8.toBitVec_or, BitVec.getLsbD_or, getLsbD_bit id hj]
  by_cases hjk : j = id % 8 <;> simp [hjk]

theorem isFree_clearBit (h : id < FreeMap.leafCapacity) :
    isFree (clearBit buf id) = FreeMap.clearBit (isFree buf) id := by
  refine isFree_editByte buf h fun byte j hj => ?_
  rw [UInt8.toBitVec_and, BitVec.getLsbD_and, UInt8.toBitVec_not, BitVec.getLsbD_not,
    getLsbD_bit id hj]
  by_cases hjk : j = id % 8 <;> simp [hjk, hj]

theorem editByte_beyond {g : UInt8 → UInt8} (h : ¬ id < FreeMap.leafCapacity) :
    editByte buf id g = buf := dif_neg (mt byte_lt_iff.mp h)

/-- Bytes outside the body are never written. -/
theorem editByte_outside {g : UInt8 → UInt8} {k : Nat}
    (hk : k < bitmapOffset ∨ bitmapOffset + pageBodySize ≤ k) :
    (editByte buf id g)[k]? = buf[k]? := by
  by_cases hid : id < FreeMap.leafCapacity
  · have hlt := byte_lt_iff.mpr hid
    rw [editByte_eq buf hlt, Vector.getElem?_set, if_neg (by omega)]
  · rw [editByte_beyond buf hid]

/-! ### The search -/

/-- One byte of the search: its bits from `s` on. -/
theorem find_byte {i s : Nat} (hi : i < pageBodySize) (hs : s < 8) :
    (List.range' (i * 8 + s) (8 - s)).find? (isFree buf) =
      if maskBelow (bodyByte buf i) s ≠ 0 then
        some (i * 8 + trailingZeros (maskBelow (bodyByte buf i) s)) else none := by
  have hbit : ∀ x, i * 8 + s ≤ x → x < i * 8 + 8 →
      isFree buf x = (maskBelow (bodyByte buf i) s).toBitVec.getLsbD (x - i * 8) := by
    intro x hlo hx
    rw [getLsbD_maskBelow _ hs (by omega), decide_eq_true (by omega), Bool.and_true,
      ← isFree_byte buf hi (by omega), show i * 8 + (x - i * 8) = x by omega]
  split
  · next hne =>
    obtain ⟨hlt, hset, hbelow⟩ := trailingZeros_spec hne
    have hge := hset
    rw [getLsbD_maskBelow _ hs hlt, Bool.and_eq_true, decide_eq_true_iff] at hge
    refine List.find?_range'_eq_some.mpr ⟨?_, List.mem_range'_1.mpr ⟨?_, ?_⟩, fun j h1 h2 => ?_⟩
    · rw [hbit _ (by omega) (by omega), Nat.add_sub_cancel_left, hset]
    · omega
    · omega
    · rw [hbit j h1 (by omega), hbelow _ (by omega)]
      rfl
  · next hzero =>
    refine List.find?_range'_eq_none.mpr fun j h1 h2 => ?_
    rw [hbit j h1 (by omega), not_not.mp hzero]
    simp

/-- From any byte on, the loop is the search of the bits: the first byte is searched from `startBit`
on, the later ones whole. -/
theorem scanBytes_eq {startByte startBit byteIdx left lo : Nat} (hbit : startBit < 8)
    (h : byteIdx + left = pageBodySize) (hstart : startByte ≤ byteIdx)
    (hlo : lo = byteIdx * 8 + if byteIdx = startByte ∧ 0 < left then startBit else 0) :
    scanBytes buf startByte startBit byteIdx left h =
      FreeMap.firstFreeBitFrom (isFree buf) lo := by
  induction left generalizing byteIdx lo with
  | zero =>
    have hend : FreeMap.leafCapacity - lo = 0 := by rw [FreeMap.leafCapacity]; omega
    rw [FreeMap.firstFreeBitFrom, hend]
    rfl
  | succ left ih =>
    have hi : byteIdx < pageBodySize := by omega
    obtain ⟨s, hs, hs8⟩ : ∃ s, (if byteIdx = startByte then startBit else 0) = s ∧ s < 8 :=
      ⟨_, rfl, by split <;> omega⟩
    have hbyte : (if byteIdx = startByte then maskBelow (bodyByte buf byteIdx) startBit
        else bodyByte buf byteIdx) = maskBelow (bodyByte buf byteIdx) s := by
      rw [← hs]
      split
      · rfl
      · rw [maskBelow_zero]
    have hsplit : List.range' lo (FreeMap.leafCapacity - lo) =
        List.range' (byteIdx * 8 + s) (8 - s) ++
          List.range' ((byteIdx + 1) * 8) (FreeMap.leafCapacity - (byteIdx + 1) * 8) := by
      rw [show lo = byteIdx * 8 + s by simp [hlo, hs],
        show (byteIdx + 1) * 8 = byteIdx * 8 + s + (8 - s) by omega, List.range'_append_1,
        FreeMap.leafCapacity]
      congr 1
      omega
    simp only [scanBytes, bodyByte_eq, hbyte]
    rw [FreeMap.firstFreeBitFrom, hsplit, List.find?_append, find_byte buf hi hs8]
    split
    · rfl
    · exact ih (by omega) (by omega) (by rw [if_neg (by omega)]; rfl)

theorem firstFreeBitFrom_eq (lo : Nat) :
    firstFreeBitFrom buf lo = FreeMap.firstFreeBitFrom (isFree buf) lo := by
  rw [firstFreeBitFrom]
  split
  · next hge =>
    have hend : FreeMap.leafCapacity - lo = 0 := by rw [FreeMap.leafCapacity]; omega
    rw [FreeMap.firstFreeBitFrom, hend]
    rfl
  · refine scanBytes_eq buf (Nat.mod_lt lo (by decide)) (by omega) le_rfl ?_
    rw [if_pos (by omega), Nat.div_add_mod' lo 8]

end

/-! ### Sequences of calls -/

inductive BitOp where
  | markFree (pageId : Nat)
  | clearBit (pageId : Nat)

def BitOp.apply (buf : PageBuf) : BitOp → PageBuf
  | .markFree pageId => Bitmap.markFree buf pageId
  | .clearBit pageId => Bitmap.clearBit buf pageId

/-- What a call does to the set of the marked bits. A page holds `leafCapacity` bits; a call for
any other is ignored. -/
def BitOp.effect (marked : Set Nat) : BitOp → Set Nat
  | .markFree pageId => {x | x ∈ marked ∨ x = pageId ∧ pageId < FreeMap.leafCapacity}
  | .clearBit pageId => marked \ {pageId}

def marked (buf : PageBuf) : Set Nat := {x | isFree buf x = true}

theorem marked_lt {buf : PageBuf} {x : Nat} (h : x ∈ marked buf) : x < FreeMap.leafCapacity := by
  rw [marked, Set.mem_ofPred_eq, isFree_eq, Bool.and_eq_true, decide_eq_true_iff] at h
  exact h.1

theorem marked_apply (buf : PageBuf) (op : BitOp) :
    marked (op.apply buf) = op.effect (marked buf) := by
  ext x
  cases op with
  | markFree id =>
    by_cases hid : id < FreeMap.leafCapacity
    · simp only [marked, BitOp.apply, BitOp.effect, isFree_markFree buf hid, FreeMap.markFree,
        Function.update_apply, Set.mem_ofPred_eq, hid, and_true]
      split <;> simp [*]
    · simp [marked, BitOp.apply, BitOp.effect, markFree, editByte_beyond buf hid, hid]
  | clearBit id =>
    by_cases hid : id < FreeMap.leafCapacity
    · simp only [marked, BitOp.apply, BitOp.effect, isFree_clearBit buf hid, FreeMap.clearBit,
        Function.update_apply, Set.mem_ofPred_eq, Set.mem_sdiff, Set.mem_singleton_iff]
      split <;> simp [*]
    · rw [BitOp.apply, clearBit, editByte_beyond buf hid, BitOp.effect, Set.mem_sdiff]
      exact ⟨fun h => ⟨h, fun heq => hid (heq ▸ marked_lt h)⟩, fun h => h.1⟩

/-- What a sequence of calls leaves: the bits as the calls say, and the bytes outside the body. -/
theorem marked_foldl (ops : List BitOp) (buf : PageBuf) :
    marked (ops.foldl BitOp.apply buf) = ops.foldl BitOp.effect (marked buf) ∧
      ∀ k, k < bitmapOffset ∨ bitmapOffset + pageBodySize ≤ k →
        (ops.foldl BitOp.apply buf)[k]? = buf[k]? := by
  induction ops generalizing buf with
  | nil => exact ⟨rfl, fun _ _ => rfl⟩
  | cons op ops ih =>
    obtain ⟨hmarked, hout⟩ := ih (op.apply buf)
    rw [marked_apply] at hmarked
    refine ⟨hmarked, fun k hk => (hout k hk).trans ?_⟩
    cases op <;> exact editByte_outside buf hk

/-- After any sequence of calls on any page, each of which changes the bit it names and nothing
else, the search from any bound answers the least marked bit from there on, or that the page has
none. -/
theorem bitmap_search_exact (buf : PageBuf) (ops : List BitOp) :
    (∀ lo b, firstFreeBitFrom (ops.foldl BitOp.apply buf) lo = some b ↔
      IsLeast {x | lo ≤ x ∧ x ∈ ops.foldl BitOp.effect (marked buf)} b) ∧
    (∀ lo, firstFreeBitFrom (ops.foldl BitOp.apply buf) lo = none ↔
      ∀ x, lo ≤ x → x < FreeMap.leafCapacity → x ∉ ops.foldl BitOp.effect (marked buf)) ∧
    (∀ x, isFree (ops.foldl BitOp.apply buf) x = true ↔
      x ∈ ops.foldl BitOp.effect (marked buf)) ∧
    (∀ k, k < bitmapOffset ∨ bitmapOffset + pageBodySize ≤ k →
      (ops.foldl BitOp.apply buf)[k]? = buf[k]?) := by
  obtain ⟨hmarked, hout⟩ := marked_foldl ops buf
  rw [← hmarked]
  set buf' := ops.foldl BitOp.apply buf
  have hsome : ∀ {lo b}, firstFreeBitFrom buf' lo = some b →
      IsLeast {x | lo ≤ x ∧ x ∈ marked buf'} b := by
    intro lo b h
    rw [firstFreeBitFrom_eq] at h
    obtain ⟨hbit, -, hge, hleast⟩ := firstFreeBitFrom_some h
    exact ⟨⟨hge, hbit⟩, fun x hx => hleast x hx.1 hx.2⟩
  have hnone : ∀ {lo}, firstFreeBitFrom buf' lo = none → ∀ x, lo ≤ x → x ∉ marked buf' := by
    intro lo h x hlo hx
    rw [firstFreeBitFrom_eq] at h
    exact absurd hlo (Nat.not_le.mpr (firstFreeBitFrom_none h (marked_lt hx) hx))
  refine ⟨fun lo b => ⟨hsome, fun h => ?_⟩, fun lo => ⟨fun h x hlo _ => hnone h x hlo, fun h => ?_⟩,
    fun x => Iff.rfl, hout⟩
  · cases hr : firstFreeBitFrom buf' lo with
    | none => exact absurd h.1.2 (hnone hr b h.1.1)
    | some b' => exact congrArg some ((hsome hr).unique h)
  · cases hr : firstFreeBitFrom buf' lo with
    | none => rfl
    | some b => exact absurd (hsome hr).1.2 (h b (hsome hr).1.1 (marked_lt (hsome hr).1.2))

end Raw.Bitmap

end Chisel
