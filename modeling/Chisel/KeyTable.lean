import Chisel.KeyOps
import Chisel.FileHead

/-! The key-slot table of an encrypted database: which credentials it accepts, and what a key
operation makes of it. A table is described by how many slots each credential has. -/

namespace Chisel

open StateError PageCache TransactionManager

/-- The slot wraps the data key for the credential. -/
def KeySlot.isFor (key : Key) : KeySlot → Bool
  | .active k _ => k = key
  | .empty => false

@[simp] theorem KeySlot.isFor_active (k key : Key) (dek : Dek) :
    ((KeySlot.active k dek).isFor key).toNat = if k = key then 1 else 0 := by
  by_cases hk : k = key <;> simp [KeySlot.isFor, hk]

@[simp] theorem KeySlot.isFor_empty (key : Key) : (KeySlot.empty.isFor key).toNat = 0 := rfl

namespace CryptoHeader

variable {h : CryptoHeader} {key : Key} {dek : Dek} {i : Nat}

def enrolled (h : CryptoHeader) (key : Key) : Nat := h.slots.countP (KeySlot.isFor key)

theorem unlockFrom_ok {slots : List KeySlot} {i j : Nat}
    (hu : unlockFrom key i slots = .ok (j, dek)) :
    key ≠ [] ∧ ∃ n, j = i + n ∧ slots[n]? = some (.active key dek) := by
  induction slots generalizing i with
  | nil => cases hu
  | cons s rest ih =>
    have hrest : ∀ {i}, unlockFrom key (i + 1) rest = .ok (j, dek) →
        key ≠ [] ∧ ∃ n, j = i + n ∧ (s :: rest)[n]? = some (.active key dek) := by
      intro i hr
      obtain ⟨hk, n, hn, hs⟩ := ih hr
      exact ⟨hk, n + 1, by omega, hs⟩
    cases s with
    | empty => exact hrest hu
    | active k d =>
      unfold unlockFrom at hu
      split at hu
      · next hk =>
        cases hu
        exact ⟨hk.2, 0, rfl, by rw [hk.1]; rfl⟩
      · exact hrest hu

theorem unlockFrom_error {slots : List KeySlot} {i : Nat} {e : ChiselError}
    (hu : unlockFrom key i slots = .error e) :
    e = .invalidEncryptionKey ∧ (key = [] ∨ slots.countP (KeySlot.isFor key) = 0) := by
  induction slots generalizing i with
  | nil =>
    cases hu
    exact ⟨rfl, .inr rfl⟩
  | cons s rest ih =>
    cases s with
    | empty => exact ih hu
    | active k d =>
      unfold unlockFrom at hu
      split at hu
      · cases hu
      · next hk =>
        obtain ⟨he, h0⟩ := ih hu
        refine ⟨he, ?_⟩
        by_cases hnil : key = []
        · exact .inl hnil
        · right
          rw [List.countP_cons, h0.resolve_left hnil]
          have hne : k ≠ key := fun hkk => hk ⟨hkk, hnil⟩
          simp [KeySlot.isFor, hne]

theorem unlock_isOk_iff : (∃ r, h.unlock key = .ok r) ↔ key ≠ [] ∧ 0 < h.enrolled key := by
  constructor
  · rintro ⟨⟨j, dek⟩, hu⟩
    obtain ⟨hk, n, -, hs⟩ := unlockFrom_ok hu
    refine ⟨hk, List.countP_pos_iff.mpr ⟨_, List.mem_of_getElem? hs, ?_⟩⟩
    simp [KeySlot.isFor]
  · rintro ⟨hk, hpos⟩
    cases hu : h.unlock key with
    | ok r => exact ⟨r, rfl⟩
    | error e =>
      obtain ⟨-, hz⟩ := unlockFrom_error hu
      have h0 : h.enrolled key = 0 := hz.resolve_left hk
      omega

theorem unlock_error_iff : h.unlock key = .error .invalidEncryptionKey ↔
    key = [] ∨ h.enrolled key = 0 := by
  constructor
  · intro hu
    exact (unlockFrom_error hu).2
  · intro h0
    cases hu : h.unlock key with
    | ok r =>
      obtain ⟨hk, hpos⟩ := unlock_isOk_iff.mp ⟨r, hu⟩
      exact h0.elim (fun hn => absurd hn hk) fun hn => absurd hn (by omega)
    | error e => rw [(unlockFrom_error hu).1]

theorem unlock_ok (hu : h.unlock key = .ok (i, dek)) :
    key ≠ [] ∧ h.slots[i]? = some (.active key dek) := by
  obtain ⟨hk, n, hn, hs⟩ := unlockFrom_ok hu
  rw [Nat.zero_add] at hn
  exact ⟨hk, hn ▸ hs⟩

theorem freeSlot_some (hf : h.freeSlot = some i) : h.slots[i]? = some .empty := by
  unfold freeSlot at hf
  rw [List.findIdx?_eq_some_iff_getElem] at hf
  obtain ⟨hlt, hs, -⟩ := hf
  rw [List.getElem?_eq_getElem hlt]
  cases hc : h.slots[i] with
  | empty => rfl
  | active k d =>
    rw [hc] at hs
    cases hs

theorem countP_set_add {slots : List KeySlot} {s : KeySlot} (hs : slots[i]? = some s) (s' : KeySlot)
    (p : KeySlot → Bool) :
    (slots.set i s').countP p + (p s).toNat = slots.countP p + (p s').toNat := by
  obtain ⟨hlt, hget⟩ := List.getElem?_eq_some_iff.mp hs
  have hle : (p s).toNat ≤ slots.countP p := by
    cases hp : p s with
    | false => exact Nat.zero_le _
    | true => exact List.countP_pos_iff.mpr ⟨s, List.mem_of_getElem? hs, hp⟩
  have hset : (slots.set i s').countP p = slots.countP p - (p s).toNat + (p s').toNat := by
    rw [List.countP_set hlt, hget]
    cases p s <;> cases p s' <;> rfl
  omega

theorem activeCount_eq (h : CryptoHeader) : h.activeCount = h.slots.countP KeySlot.isActive :=
  List.countP_eq_length_filter.symm

end CryptoHeader

/-! ### What a key operation does to the table -/

namespace KeyOp

variable {k : KeyOp} {h h' : CryptoHeader} {key : Key}

/-- The credential that the operation is authorised by. -/
def holder : KeyOp → Key
  | add existing _ => existing
  | rotate old _ => old
  | remove key => key

/-- The credential that the operation enrols. -/
def adds : KeyOp → Option Key
  | add _ new => some new
  | rotate _ new => some new
  | remove _ => none

/-- The credential that the operation takes a slot from. -/
def revokes : KeyOp → Option Key
  | add _ _ => none
  | rotate old _ => some old
  | remove key => some key

/-- The new table, from the slot of the holder and the slot for the new credential. -/
def rebuild (k : KeyOp) (h : CryptoHeader) (i : Nat) (dek : Dek) (free : Nat) : CryptoHeader :=
  match k with
  | add _ new => { h with slots := h.slots.set free (.active new dek) }
  | rotate _ new => { h with slots := (h.slots.set free (.active new dek)).set i .empty }
  | remove _ => { h with slots := h.slots.set i .empty }

theorem wrapFree_ok {new : Key} {dek : Dek} (hw : h.wrapFree new dek = .ok h') :
    ∃ free, h.freeSlot = some free ∧ new ≠ [] ∧
      h' = { h with slots := h.slots.set free (.active new dek) } := by
  unfold CryptoHeader.wrapFree at hw
  split at hw
  · cases hw
  · next free hf =>
    unfold CryptoHeader.wrapInto at hw
    split at hw
    · cases hw
    · next hk =>
      cases hw
      exact ⟨free, hf, hk, rfl⟩

/-- An operation that goes through found the slot of its holder, and a free one if it needs it. -/
theorem edit_ok (he : k.edit h = .ok h') : ∃ i dek free, h.unlock k.holder = .ok (i, dek) ∧
    (∀ new, k.adds = some new → h.freeSlot = some free ∧ new ≠ []) ∧
    (k.adds = none → 1 < h.activeCount) ∧ h' = k.rebuild h i dek free := by
  cases k with
  | add existing new =>
    simp only [edit] at he
    cases hu : h.unlock existing with
    | error e => rw [hu] at he; cases he
    | ok r =>
      obtain ⟨i, dek⟩ := r
      rw [hu] at he
      obtain ⟨free, hf, hk, rfl⟩ := wrapFree_ok he
      exact ⟨i, dek, free, hu, fun n hn => ⟨hf, Option.some.inj hn ▸ hk⟩, by simp [adds], rfl⟩
  | rotate old new =>
    simp only [edit] at he
    cases hu : h.unlock old with
    | error e => rw [hu] at he; cases he
    | ok r =>
      obtain ⟨i, dek⟩ := r
      rw [hu] at he
      cases hw : h.wrapFree new dek with
      | error e =>
        simp [bind, Except.bind, hw] at he
      | ok h1 =>
        obtain ⟨free, hf, hk, rfl⟩ := wrapFree_ok hw
        simp only [bind, Except.bind, hw, pure, Except.pure, Except.ok.injEq] at he
        exact ⟨i, dek, free, hu, fun n hn => ⟨hf, Option.some.inj hn ▸ hk⟩, by simp [adds], he.symm⟩
  | remove key =>
    simp only [edit] at he
    cases hu : h.unlock key with
    | error e => rw [hu] at he; cases he
    | ok r =>
      obtain ⟨i, dek⟩ := r
      rw [hu] at he
      by_cases hc : h.activeCount ≤ 1
      · simp [bind, Except.bind, hc, throw, throwThe, MonadExceptOf.throw] at he
      · simp only [bind, Except.bind, hc, if_false, pure, Except.pure, Except.ok.injEq] at he
        exact ⟨i, dek, 0, hu, by simp [adds], fun _ => by omega, he.symm⟩

/-- The new table has the slots of the old one, one more for the credential that is added and one
less for the one that is revoked. -/
theorem edit_countP (he : k.edit h = .ok h') : ∃ dek, .active k.holder dek ∈ h.slots ∧
    ∀ p : KeySlot → Bool, p .empty = false →
      h'.slots.countP p + k.revokes.elim 0 (fun key => (p (.active key dek)).toNat) =
        h.slots.countP p + k.adds.elim 0 (fun key => (p (.active key dek)).toNat) := by
  obtain ⟨i, dek, free, hu, hadds, -, rfl⟩ := edit_ok he
  obtain ⟨-, hi⟩ := CryptoHeader.unlock_ok hu
  refine ⟨dek, List.mem_of_getElem? hi, fun p hp => ?_⟩
  have hp' : (p .empty).toNat = 0 := by rw [hp]; rfl
  cases k with
  | add existing new =>
    have h1 := CryptoHeader.countP_set_add (CryptoHeader.freeSlot_some (hadds new rfl).1)
      (.active new dek) p
    rw [hp'] at h1
    exact h1
  | rotate old new =>
    have hfree := CryptoHeader.freeSlot_some (hadds new rfl).1
    have hne : free ≠ i := by
      rintro rfl
      rw [hfree] at hi
      cases hi
    have hi' : (h.slots.set free (.active new dek))[i]? = some (.active old dek) := by
      rw [List.getElem?_set_ne hne]
      exact hi
    have h1 := CryptoHeader.countP_set_add hfree (.active new dek) p
    have h2 := CryptoHeader.countP_set_add hi' .empty p
    rw [hp'] at h1 h2
    change (((h.slots.set free (.active new dek)).set i .empty).countP p) +
      (p (.active old dek)).toNat = _ + (p (.active new dek)).toNat
    omega
  | remove key =>
    have h1 := CryptoHeader.countP_set_add hi .empty p
    rw [hp'] at h1
    exact h1

theorem edit_enrolled (he : k.edit h = .ok h') (key : Key) :
    h'.enrolled key + (if k.revokes = some key then 1 else 0) =
      h.enrolled key + (if k.adds = some key then 1 else 0) := by
  obtain ⟨dek, -, hcount⟩ := edit_countP he
  have h1 := hcount (KeySlot.isFor key) rfl
  cases k <;> simpa [revokes, adds, CryptoHeader.enrolled] using h1

theorem edit_activeCount (he : k.edit h = .ok h') :
    h'.activeCount + k.revokes.toList.length = h.activeCount + k.adds.toList.length := by
  obtain ⟨dek, -, hcount⟩ := edit_countP he
  have h1 := hcount KeySlot.isActive rfl
  rw [← CryptoHeader.activeCount_eq, ← CryptoHeader.activeCount_eq] at h1
  cases k <;> exact h1

theorem mem_rebuild {i free : Nat} {dek : Dek} {s : KeySlot}
    (hs : s ∈ (k.rebuild h i dek free).slots) (hact : s.isActive = true) :
    s ∈ h.slots ∨ ∃ new, k.adds = some new ∧ s = .active new dek := by
  cases k with
  | add existing new => exact (List.mem_or_eq_of_mem_set hs).imp_right fun he => ⟨new, rfl, he⟩
  | rotate old new =>
    rcases List.mem_or_eq_of_mem_set hs with hs | rfl
    · exact (List.mem_or_eq_of_mem_set hs).imp_right fun he => ⟨new, rfl, he⟩
    · cases hact
  | remove key =>
    rcases List.mem_or_eq_of_mem_set hs with hs | rfl
    · exact .inl hs
    · cases hact

theorem edit_wraps {cipher : Option Dek} (hw : Wraps cipher (some h)) (he : k.edit h = .ok h') :
    Wraps cipher (some h') := by
  obtain ⟨i, dek, free, hu, -, -, rfl⟩ := edit_ok he
  obtain ⟨-, hi⟩ := CryptoHeader.unlock_ok hu
  have hdek : cipher = some dek := hw.2 h rfl _ _ (List.mem_of_getElem? hi)
  refine ⟨hw.1, fun header hh key dek' hm => ?_⟩
  obtain rfl := Option.some.inj hh
  rcases mem_rebuild hm rfl with hold | ⟨new, -, heq⟩
  · exact hw.2 h rfl key dek' hold
  · cases heq
    exact hdek

theorem edit_length (he : k.edit h = .ok h') : h'.slots.length = h.slots.length := by
  obtain ⟨i, dek, free, -, -, -, rfl⟩ := edit_ok he
  cases k <;> simp [rebuild]

theorem edit_active (he : k.edit h = .ok h') : 0 < h'.activeCount := by
  have hcount := edit_activeCount he
  obtain ⟨i, dek, free, hu, -, hmany, -⟩ := edit_ok he
  obtain ⟨-, hi⟩ := CryptoHeader.unlock_ok hu
  have hpos : 0 < h.activeCount := by
    rw [CryptoHeader.activeCount_eq]
    exact List.countP_pos_iff.mpr ⟨_, List.mem_of_getElem? hi, rfl⟩
  cases k with
  | add existing new =>
    change h'.activeCount + 0 = h.activeCount + 1 at hcount
    omega
  | rotate old new =>
    change h'.activeCount + 1 = h.activeCount + 1 at hcount
    omega
  | remove key =>
    change h'.activeCount + 1 = h.activeCount + 0 at hcount
    have := hmany rfl
    omega

end KeyOp

end Chisel
