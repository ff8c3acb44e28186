import Chisel.Session

/-! Key management (`transaction/keys.rs`) in two parts: a change of the key-slot table, which
touches nothing else, and the rewrite of the superblock slots with the new table. -/

namespace Chisel

open StateError PageCache TransactionManager

inductive KeyOp
  | add (existing new : Key)
  | rotate (old new : Key)
  | remove (key : Key)

namespace CryptoHeader

/-- Wrap the data key for a credential in the first free slot. -/
def wrapFree (header : CryptoHeader) (new : Key) (dek : Dek) : Except ChiselError CryptoHeader :=
  match header.freeSlot with
  | none => .error .noFreeKeySlot
  | some free => header.wrapInto free new dek

def clear (header : CryptoHeader) (i : Nat) : CryptoHeader :=
  { header with slots := header.slots.set i .empty }

end CryptoHeader

namespace TransactionManager

theorem liftExcept_pure {α : Type} (a : α) : liftExcept (pure a) = pure a := rfl

theorem liftExcept_bind {α β : Type} (x : Except ChiselError α) (f : α → Except ChiselError β) :
    liftExcept (x >>= f) = liftExcept x >>= fun a => liftExcept (f a) := by
  cases x <;> rfl

theorem liftExcept_wrapFree (header : CryptoHeader) (new : Key) (dek : Dek) :
    liftExcept (header.wrapFree new dek) = wrapInFreeSlot header new dek := by
  unfold CryptoHeader.wrapFree wrapInFreeSlot
  cases header.freeSlot <;> rfl

section KeyHeader

variable {m : TransactionManager} {header : CryptoHeader}

theorem keyHeader_of_poisoned (hp : m.poisoned = true) :
    keyHeader m = .error .poisoned m := by
  simp [keyHeader, get_bind_apply, hp, throw_bind_apply]

theorem keyHeader_of_none (hp : m.poisoned = false) (hh : m.cryptoHeader = none) :
    keyHeader m = .error .encryptionNotSupported m := by
  simp [keyHeader, get_bind_apply, hp, hh, throw_apply]

theorem keyHeader_of_some (hp : m.poisoned = false) (hh : m.cryptoHeader = some header) :
    keyHeader m = .ok header m := by
  simp [keyHeader, get_bind_apply, hp, hh, pure_apply]

/-- Past its four checks the rewrite poisons on every failure. -/
theorem rewriteCryptoHeader_eq (hp : m.poisoned = false) (ha : m.activeTxn = false)
    (hc : m.cache.cipher.isNone = false) (hr : m.cache.io.readOnly = false) :
    rewriteCryptoHeader header m =
      onError (rewriteCryptoHeaderInner header) (fun m => { m with poisoned := true }) m := by
  simp only [rewriteCryptoHeader, get_bind_apply, hp, ha, hc, hr, Bool.false_eq_true, if_false]

end KeyHeader

end TransactionManager

namespace KeyOp

def toOp : KeyOp → Op
  | add existing new => .addKey existing new
  | rotate old new => .rotateKey old new
  | remove key => .removeKey key

def run : KeyOp → TxnM Unit
  | add existing new => addKey existing new
  | rotate old new => rotateKey old new
  | remove key => removeKey key

/-- The new table of a key operation, or the reason why there is none. -/
def edit (header : CryptoHeader) : KeyOp → Except ChiselError CryptoHeader
  | add existing new => do
    let (_, dek) ← header.unlock existing
    header.wrapFree new dek
  | rotate old new => do
    let (oldIdx, dek) ← header.unlock old
    let header ← header.wrapFree new dek
    return header.clear oldIdx
  | remove key => do
    let (idx, _) ← header.unlock key
    if header.activeCount ≤ 1 then throw .lastKeySlot
    return header.clear idx

theorem perform_toOp (k : KeyOp) : perform k.toOp = quietly k.run := by
  cases k <;> rfl

/-- A key operation checks the manager, edits a copy of the table and hands it to the rewrite. -/
theorem run_eq_bind (k : KeyOp) : k.run =
    keyHeader >>= fun header =>
      TransactionManager.liftExcept (k.edit header) >>= rewriteCryptoHeader := by
  cases k with
  | add existing new =>
    simp only [run, addKey, edit, liftExcept_bind, liftExcept_wrapFree, bind_assoc]
  | rotate old new =>
    simp only [run, rotateKey, edit, liftExcept_bind, liftExcept_wrapFree, bind_assoc,
      liftExcept_pure, pure_bind, CryptoHeader.clear]
  | remove key =>
    simp only [run, removeKey, edit, liftExcept_bind, bind_assoc]
    congr! 4
    split
    · rfl
    · simp only [liftExcept_pure, pure_bind, CryptoHeader.clear]

theorem run_eq (k : KeyOp) (m : TransactionManager) : k.run m =
    if m.poisoned then .error .poisoned m
    else match m.cryptoHeader with
      | none => .error .encryptionNotSupported m
      | some header =>
        match k.edit header with
        | .error e => .error e m
        | .ok header' => rewriteCryptoHeader header' m := by
  rw [run_eq_bind]
  cases hp : m.poisoned with
  | true => rw [bind_of_error (keyHeader_of_poisoned hp), if_pos rfl]
  | false =>
    simp only [Bool.false_eq_true, if_false]
    cases hh : m.cryptoHeader with
    | none => rw [bind_of_error (keyHeader_of_none hp hh)]
    | some header =>
      rw [bind_of_ok (keyHeader_of_some hp hh)]
      dsimp only
      cases he : k.edit header with
      | error e | ok header' => rfl

end KeyOp

end Chisel
