import Mathlib.Data.List.Chain
import Mathlib.Tactic.Common
import Mathlib.Tactic.Ring

/-! Byte buffers with fields at fixed offsets: little-endian numbers, the bytes of a region, and a
buffer with a region written over. A region that is read back is what was written there, and a
region that does not meet the one written over is unchanged. -/

namespace ByteLayout

/-! ### Little-endian numbers -/

def encodeLe : Nat → Nat → List UInt8
  | 0, _ => []
  | k + 1, n => UInt8.ofNat n :: encodeLe k (n / 256)

def decodeLe : List UInt8 → Nat
  | [] => 0
  | b :: bs => 256 * decodeLe bs + b.toNat

@[simp] theorem encodeLe_length (k n : Nat) : (encodeLe k n).length = k := by
  induction k generalizing n with
  | zero => rfl
  | succ k ih => rw [encodeLe, List.length_cons, ih]

theorem decodeLe_encodeLe (k n : Nat) : decodeLe (encodeLe k n) = n % 256 ^ k := by
  induction k generalizing n with
  | zero => exact (Nat.mod_one n).symm
  | succ k ih =>
    have hdigit : (UInt8.ofNat n).toNat = n % 256 := UInt8.toNat_ofNat'
    rw [encodeLe, decodeLe, ih, hdigit, Nat.pow_succ, Nat.mul_comm (256 ^ k), Nat.mod_mul]
    exact Nat.add_comm ..

theorem decodeLe_encodeLe_of_lt {k n : Nat} (h : n < 256 ^ k) : decodeLe (encodeLe k n) = n := by
  rw [decodeLe_encodeLe, Nat.mod_eq_of_lt h]

/-! ### Regions -/

section Regions

variable {α : Type} {bs data : List α} {off off' n : Nat}

def slice (bs : List α) (off n : Nat) : List α := (bs.drop off).take n

/-- The buffer with `data` written over what was at `off`. -/
def splice (bs : List α) (off : Nat) (data : List α) : List α :=
  bs.take off ++ data ++ bs.drop (off + data.length)

theorem slice_length (h : off + n ≤ bs.length) : (slice bs off n).length = n := by
  rw [slice, List.length_take, List.length_drop]
  omega

theorem splice_length (h : off + data.length ≤ bs.length) :
    (splice bs off data).length = bs.length := by
  rw [splice, List.length_append, List.length_append, List.length_take, List.length_drop]
  omega

theorem slice_splice_inside {i : Nat} (h : off + data.length ≤ bs.length)
    (hi : i + n ≤ data.length) :
    slice (splice bs off data) (off + i) n = slice data i n := by
  have htake : (bs.take off).length = off := by
    rw [List.length_take]
    omega
  rw [slice, splice, List.append_assoc, List.drop_append, htake, Nat.add_sub_cancel_left,
    List.drop_of_length_le (by omega), List.nil_append, List.drop_append_of_le_length (by omega),
    List.take_append_of_le_length (by rw [List.length_drop]; omega)]
  rfl

theorem slice_splice_self (h : off + data.length ≤ bs.length) :
    slice (splice bs off data) off data.length = data := by
  have hall := slice_splice_inside (i := 0) (n := data.length) h (by omega)
  rw [Nat.add_zero] at hall
  rw [hall, slice, List.drop_zero, List.take_length]

theorem slice_splice_before (h : off' + n ≤ off) (hoff : off ≤ bs.length) :
    slice (splice bs off data) off' n = slice bs off' n := by
  have htake : (bs.take off).length = off := by
    rw [List.length_take]
    omega
  rw [slice, splice, List.append_assoc, List.drop_append_of_le_length (by omega),
    List.take_append_of_le_length (by rw [List.length_drop, htake]; omega), List.drop_take,
    List.take_take, Nat.min_eq_left (by omega)]
  rfl

theorem slice_splice_after (h : off + data.length ≤ off') (hoff : off ≤ bs.length) :
    slice (splice bs off data) off' n = slice bs off' n := by
  have hfront : (bs.take off ++ data).length = off + data.length := by
    rw [List.length_append, List.length_take]
    omega
  rw [slice, splice, List.drop_append, hfront, List.drop_of_length_le (by omega), List.nil_append,
    List.drop_drop, Nat.add_sub_cancel' h]
  rfl

theorem slice_splice_of_apart (h : off' + n ≤ off ∨ off + data.length ≤ off')
    (hoff : off ≤ bs.length) :
    slice (splice bs off data) off' n = slice bs off' n :=
  h.elim (slice_splice_before · hoff) (slice_splice_after · hoff)

theorem slice_append_left (h : off + n ≤ bs.length) :
    slice (bs ++ data) off n = slice bs off n := by
  rw [slice, List.drop_append_of_le_length (by omega),
    List.take_append_of_le_length (by rw [List.length_drop]; omega)]
  rfl

theorem slice_append_right {i : Nat} (h : off = bs.length + i) :
    slice (bs ++ data) off n = slice data i n := by
  rw [slice, h, List.drop_length_add_append]
  rfl

theorem slice_all (h : bs.length = n) : slice bs 0 n = bs := by
  rw [slice, List.drop_zero, List.take_of_length_le h.le]

theorem slice_append_self (hoff : off = bs.length) (hn : data.length = n) :
    slice (bs ++ data) off n = data := by
  rw [slice_append_right (i := 0) hoff, slice_all hn]

theorem slice_slice {i k : Nat} (h : i + k ≤ n) :
    slice (slice bs off n) i k = slice bs (off + i) k := by
  rw [slice, slice, List.drop_take, List.take_take, Nat.min_eq_left (by omega), List.drop_drop]
  rfl

end Regions

/-! ### Several regions -/

section Patches

variable {α : Type} {bs : List α} {ws : List (Nat × List α)} {off n : Nat}

/-- The buffer with regions written over, one after the other. -/
def patch (bs : List α) (ws : List (Nat × List α)) : List α :=
  ws.foldl (fun bs w => splice bs w.1 w.2) bs

def Apart (w w' : Nat × List α) : Prop := w.1 + w.2.length ≤ w'.1 ∨ w'.1 + w'.2.length ≤ w.1

theorem patch_length (h : ∀ w ∈ ws, w.1 + w.2.length ≤ bs.length) :
    (patch bs ws).length = bs.length := by
  induction ws generalizing bs with
  | nil => rfl
  | cons w ws ih =>
    have hw := splice_length (h w List.mem_cons_self)
    have hrest : (patch (splice bs w.1 w.2) ws).length = (splice bs w.1 w.2).length :=
      ih fun w' hw' => by
        rw [hw]
        exact h w' (List.mem_cons_of_mem _ hw')
    exact hrest.trans hw

theorem slice_patch_of_apart (hfits : ∀ w ∈ ws, w.1 + w.2.length ≤ bs.length)
    (h : ∀ w ∈ ws, off + n ≤ w.1 ∨ w.1 + w.2.length ≤ off) :
    slice (patch bs ws) off n = slice bs off n := by
  induction ws generalizing bs with
  | nil => rfl
  | cons w ws ih =>
    have hw := hfits w List.mem_cons_self
    have hlen := splice_length hw
    have hrest : slice (patch (splice bs w.1 w.2) ws) off n = slice (splice bs w.1 w.2) off n :=
      ih (fun w' hw' => by rw [hlen]; exact hfits w' (List.mem_cons_of_mem _ hw'))
        fun w' hw' => h w' (List.mem_cons_of_mem _ hw')
    exact hrest.trans (slice_splice_of_apart (h w List.mem_cons_self) (by omega))

/-- Every region that was written is read back if no two of them meet. -/
theorem slice_patch_of_mem (hfits : ∀ w ∈ ws, w.1 + w.2.length ≤ bs.length)
    (hapart : ws.Pairwise Apart) {w : Nat × List α} (hw : w ∈ ws) : slice
    (patch bs ws) w.1 w.2.length = w.2 := by
  induction ws generalizing bs with
  | nil => cases hw
  | cons v ws ih =>
    obtain ⟨hhead, htail⟩ := List.pairwise_cons.mp hapart
    have hv := hfits v List.mem_cons_self
    have hfits' : ∀ w' ∈ ws, w'.1 + w'.2.length ≤ (splice bs v.1 v.2).length := fun w' hw' => by
      rw [splice_length hv]
      exact hfits w' (List.mem_cons_of_mem _ hw')
    rcases List.mem_cons.mp hw with rfl | hw
    · have hkeep : slice (patch (splice bs w.1 w.2) ws) w.1 w.2.length =
          slice (splice bs w.1 w.2) w.1 w.2.length := slice_patch_of_apart hfits' hhead
      exact hkeep.trans (slice_splice_self hv)
    · exact ih hfits' htail hw

def Before (w w' : Nat × List α) : Prop := w.1 + w.2.length ≤ w'.1

instance : Trans (Before (α := α)) Before Before where
  trans := by
    intro a b c hab hbc
    unfold Before at *
    omega

theorem apart_of_ascending (h : ws.IsChain Before) : ws.Pairwise Apart :=
  h.pairwise.imp fun hlt => .inl hlt

end Patches

/-! ### Tables -/

section Tables

variable {α ι : Type} {write : ι → List α → List α} {width off off' n : Nat} {es : List ι}
  {bs : List α}

/-- The buffer with the entries of a table rewritten one after the other, each in its own region. -/
def writeTable (write : ι → List α → List α) (width : Nat) : Nat → List ι → List α → List α
  | _, [], bs => bs
  | off, e :: es, bs =>
    writeTable write width (off + width) es (splice bs off (write e (slice bs off width)))

/-- An entry is rewritten within its region. -/
def WritesWithin (write : ι → List α → List α) (width : Nat) : Prop :=
  ∀ e bs, bs.length = width → (write e bs).length = width

theorem WritesWithin.slice_length (h : WritesWithin write width) (e : ι)
    (hfit : off + width ≤ bs.length) : (write e (slice bs off width)).length = width :=
  h e _ (ByteLayout.slice_length hfit)

theorem writeTable_length (h : WritesWithin write width)
    (hfit : off + width * es.length ≤ bs.length) :
    (writeTable write width off es bs).length = bs.length := by
  induction es generalizing off bs with
  | nil => rfl
  | cons e es ih =>
    rw [List.length_cons, Nat.mul_succ] at hfit
    have hlen := h.slice_length e (show off + width ≤ bs.length by omega)
    have hsplice := splice_length (show off + (write e (slice bs off width)).length ≤
      bs.length by omega)
    rw [writeTable, ih (by omega), hsplice]

theorem slice_writeTable_of_apart (h : WritesWithin write width)
    (hfit : off + width * es.length ≤ bs.length)
    (hapart : off' + n ≤ off ∨ off + width * es.length ≤ off') :
    slice (writeTable write width off es bs) off' n = slice bs off' n := by
  induction es generalizing off bs with
  | nil => rfl
  | cons e es ih =>
    rw [List.length_cons, Nat.mul_succ] at hfit hapart
    have hlen := h.slice_length e (show off + width ≤ bs.length by omega)
    have hsplice := splice_length (show off + (write e (slice bs off width)).length ≤
      bs.length by omega)
    rw [writeTable, ih (by omega) (by omega), slice_splice_of_apart (by omega) (by omega)]

theorem slice_writeTable (h : WritesWithin write width)
    (hfit : off + width * es.length ≤ bs.length) {i : Nat} {e : ι} (he : es[i]? = some e) :
    slice (writeTable write width off es bs) (off + width * i) width =
      write e (slice bs (off + width * i) width) := by
  induction es generalizing off bs i with
  | nil => cases he
  | cons e' es ih =>
    rw [List.length_cons, Nat.mul_succ] at hfit
    have hlen := h.slice_length e' (show off + width ≤ bs.length by omega)
    have hfits : off + (write e' (slice bs off width)).length ≤ bs.length := by omega
    have hsplice := splice_length hfits
    cases i with
    | zero =>
      cases he
      rw [Nat.mul_zero, Nat.add_zero, writeTable,
        slice_writeTable_of_apart h (by omega) (.inl (Nat.le_refl _))]
      have hself := slice_splice_self hfits
      rwa [hlen] at hself
    | succ i =>
      have hnext : off + width * (i + 1) = off + width + width * i := by rw [Nat.mul_succ]; omega
      rw [hnext, writeTable, ih (by omega) he, slice_splice_of_apart (by omega) (by omega)]

theorem slice_flatMap {f : ι → List α} (h : ∀ e, (f e).length = width) {i : Nat} {e : ι}
    (he : es[i]? = some e) : slice (es.flatMap f) (width * i) width = f e := by
  induction es generalizing i with
  | nil => cases he
  | cons e' es ih =>
    cases i with
    | zero =>
      cases he
      rw [Nat.mul_zero, List.flatMap_cons, slice_append_left (by rw [h, Nat.zero_add]),
        slice_all (h e)]
    | succ i =>
      have hnext : width * (i + 1) = (f e').length + width * i := by rw [h, Nat.mul_succ]; omega
      rw [List.flatMap_cons, slice_append_right hnext, ih he]

end Tables

end ByteLayout
