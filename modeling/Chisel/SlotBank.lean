import Chisel.Commit

/-! The superblock slots as numbered records, and the one that recovery picks: a writer stores each
superblock in the slot of its number, modulo the number of slots, and recovery takes the slot that
validates and has the highest number. -/

namespace Chisel

open StateError PageCache TransactionManager Device

/-- Two writes in a row go to different slots. -/
theorem succ_mod_ne {n : Nat} (hn : 2 ≤ n) (c : Nat) : (c + 1) % n ≠ c % n := by
  intro h
  have hd := Nat.div_add_mod c n
  have hd' := Nat.div_add_mod (c + 1) n
  have hlt := Nat.mod_lt c (show 0 < n by omega)
  rcases Nat.lt_or_ge (c / n) ((c + 1) / n) with hq | hq
  · have := Nat.mul_le_mul_left n hq
    rw [Nat.mul_succ] at this
    omega
  · have := Nat.mul_le_mul_left n hq
    omega

/-- The number and the content of a slot that validates. -/
def recordOf : DiskUnit → Option (Nat × Superblock)
  | .super sb _ => if sb.valid then some (sb.txnCounter, { sb with txnCounter := 0 }) else none
  | _ => none

theorem recordOf_super {sb : Superblock} {sealedBy : Option Dek} {r : Nat × Superblock}
    (h : recordOf (.super sb sealedBy) = some r) : r.1 = sb.txnCounter := by
  simp only [recordOf, Option.ite_none_right_eq_some, Option.some.injEq] at h
  rw [← h.2]

theorem recordOf_isSome_iff (u : DiskUnit) :
    (recordOf u).isSome ↔ (Superblock.deserialize u).isSome := by
  cases u <;> simp [recordOf, Superblock.deserialize]

theorem recordOf_of_deserialize {u : DiskUnit} {sb : Superblock}
    (h : Superblock.deserialize u = some sb) : ∃ a, recordOf u = some (sb.txnCounter, a) := by
  cases u with
  | super sb' sealedBy =>
    simp only [Superblock.deserialize, Option.ite_none_right_eq_some, Option.some.injEq] at h
    obtain ⟨hv, rfl⟩ := h
    refine ⟨{ sb' with txnCounter := 0 }, ?_⟩
    simp only [recordOf, hv, if_true]
    cases sb'.encryption <;> rfl
  | _ => simp [Superblock.deserialize] at h

theorem mem_validSlots {x : Candidate} {i : Nat} {units : List DiskUnit} :
    x ∈ validSlots i units ↔
      ∃ j, units[j]? = some x.unit ∧ x.slot = i + j ∧
        Superblock.deserialize x.unit = some x.sb := by
  induction units generalizing i with
  | nil => simp [validSlots]
  | cons u rest ih =>
    have shift : (∃ j, (u :: rest)[j]? = some x.unit ∧ x.slot = i + j ∧
          Superblock.deserialize x.unit = some x.sb) ↔
        (u = x.unit ∧ x.slot = i ∧ Superblock.deserialize x.unit = some x.sb) ∨
          x ∈ validSlots (i + 1) rest := by
      rw [ih]
      constructor
      · rintro ⟨j, hj, hs, hd⟩
        cases j with
        | zero => exact .inl ⟨by simpa using hj, hs, hd⟩
        | succ j => exact .inr ⟨j, by simpa using hj, by omega, hd⟩
      · rintro (⟨rfl, hs, hd⟩ | ⟨j, hj, hs, hd⟩)
        · exact ⟨0, by simp, by omega, hd⟩
        · exact ⟨j + 1, by simpa using hj, by omega, hd⟩
    rw [shift, validSlots]
    cases hu : Superblock.deserialize u with
    | none =>
      refine (or_iff_right ?_).symm
      rintro ⟨rfl, -, hd⟩
      rw [hu] at hd
      cases hd
    | some sb =>
      simp only [List.mem_cons]
      refine or_congr_left ⟨?_, ?_⟩
      · rintro rfl
        exact ⟨rfl, rfl, hu⟩
      · rintro ⟨rfl, hs, hd⟩
        rw [hu, Option.some.injEq] at hd
        cases x
        simp_all

theorem winner_eq_none_iff {l : List Candidate} : winner l = none ↔ l = [] := by
  cases l with
  | nil => simp [winner]
  | cons c rest =>
    simp only [winner, reduceCtorEq, iff_false]
    split
    · simp
    · split <;> simp

theorem winner_mem {l : List Candidate} {w : Candidate} (h : winner l = some w) : w ∈ l := by
  induction l with
  | nil => simp [winner] at h
  | cons c rest ih =>
    simp only [winner] at h
    split at h
    · simp_all
    · next w' hw =>
      split at h
      · simp_all
      · simp_all

theorem winner_newest {l : List Candidate} {w : Candidate} (h : winner l = some w) :
    ∀ x ∈ l, x.sb.txnCounter ≤ w.sb.txnCounter := by
  induction l generalizing w with
  | nil => exact nofun
  | cons c rest ih =>
    intro x hx
    simp only [winner] at h
    split at h
    · next hw =>
      obtain rfl := Option.some.inj h
      rw [winner_eq_none_iff.mp hw, List.mem_singleton] at hx
      rw [hx]
    · next w' hw =>
      have hrest := ih hw
      split at h
      · next hle =>
        obtain rfl := Option.some.inj h
        rcases List.mem_cons.mp hx with rfl | hx
        · exact hle
        · exact hrest x hx
      · next hlt =>
        obtain rfl := Option.some.inj h
        rcases List.mem_cons.mp hx with rfl | hx
        · exact le_rfl
        · exact (hrest x hx).trans (Nat.le_of_not_le hlt)

theorem winner_eq_of_lt {l : List Candidate} {w : Candidate} (hm : w ∈ l)
    (h : ∀ x ∈ l, x ≠ w → x.sb.txnCounter < w.sb.txnCounter) : winner l = some w := by
  induction l with
  | nil => simp at hm
  | cons c rest ih =>
    by_cases hr : w ∈ rest
    · have hw := ih hr fun x hx => h x (List.mem_cons_of_mem _ hx)
      simp only [winner, hw]
      by_cases hc : c = w
      · simp [hc]
      · simp [Nat.le_of_lt (h c List.mem_cons_self hc)]
    · obtain rfl : w = c := by simpa [hr] using hm
      cases hw : winner rest with
      | none => simp [winner, hw]
      | some x =>
        have hx := winner_mem hw
        have hlt := h x (List.mem_cons_of_mem _ hx) (by rintro rfl; exact hr hx)
        simp [winner, hw, Nat.not_le.mpr hlt]

/-- Slot `p` holds the content `a` with the number `c`, and the other slots have lower numbers. -/
structure Leads (n : Nat) (slots : Nat → DiskUnit) (p c : Nat) (a : Superblock) : Prop where
  lt : p < n
  holds : recordOf (slots p) = some (c, a)
  older : ∀ i < n, i ≠ p → ∀ r, recordOf (slots i) = some r → r.1 < c

/-- Recovery picks the leading slot, whatever follows the slots in the list of candidates. -/
theorem winner_of_leads {n p c : Nat} {a : Superblock} {slots : Nat → DiskUnit}
    (h : Leads n slots p c a) {units : List DiskUnit}
    (hu : ∀ i < n, units[i]? = some (slots i))
    (ht : ∀ i, n ≤ i → ∀ u, units[i]? = some u → recordOf u = none) :
    ∃ w, winner (validSlots 0 units) = some w ∧ w.slot = p ∧ w.sb.txnCounter = c ∧
      w.unit = slots p := by
  have hsome : (Superblock.deserialize (slots p)).isSome := by
    rw [← recordOf_isSome_iff]
    exact Option.isSome_iff_exists.mpr ⟨_, h.holds⟩
  obtain ⟨sb, hsb⟩ := Option.isSome_iff_exists.mp hsome
  have hc : sb.txnCounter = c := by
    obtain ⟨a', ha'⟩ := recordOf_of_deserialize hsb
    have := ha'.symm.trans h.holds
    simp_all
  refine ⟨⟨p, sb, slots p⟩, winner_eq_of_lt ?_ ?_, rfl, hc, rfl⟩
  · exact mem_validSlots.mpr ⟨p, hu p h.lt, by simp, hsb⟩
  · intro x hx hne
    obtain ⟨j, hj, hs, hd⟩ := mem_validSlots.mp hx
    obtain ⟨a', ha'⟩ := recordOf_of_deserialize hd
    by_cases hjn : j < n
    · have hxu : x.unit = slots j := by simpa [hu j hjn] using hj.symm
      have hjp : j ≠ p := by
        rintro rfl
        rw [hxu, hsb, Option.some.injEq] at hd
        cases x
        simp_all
      have := h.older j hjn hjp _ (hxu ▸ ha')
      simp only at this ⊢
      omega
    · rw [ht j (by omega) _ hj] at ha'
      cases ha'

end Chisel
