import Mathlib.Algebra.BigOperators.Group.Finset.Basic
import Mathlib.Data.List.Count
import Mathlib.Tactic.Common

/-! Ownership by counting. How often each name is owned is a function from names to numbers, owners
add up, and a claim that something moved from one owner to another is an equation between sums, for
every name. -/

namespace Ledger

/-- One owner of `a`. -/
def one (a x : Nat) : Nat := if a = x then 1 else 0

/-- One owner of each name from `a` up to `b`. -/
def between (a b x : Nat) : Nat := if a ≤ x ∧ x < b then 1 else 0

variable {a b c x : Nat} {l : List Nat}

@[simp] theorem one_self (a : Nat) : one a a = 1 := by simp [one]

theorem one_of_ne (h : a ≠ x) : one a x = 0 := by simp [one, h]

theorem one_le (a x : Nat) : one a x ≤ 1 := by
  unfold one
  split <;> omega

theorem one_pos : 0 < one a x ↔ a = x := by
  unfold one
  split <;> simp_all

@[simp] theorem between_self (a x : Nat) : between a a x = 0 := by
  unfold between
  split <;> omega

theorem between_le (a b x : Nat) : between a b x ≤ 1 := by
  unfold between
  split <;> omega

theorem between_pos : 0 < between a b x ↔ a ≤ x ∧ x < b := by
  unfold between
  split <;> simp_all

theorem between_succ (a x : Nat) : between a (a + 1) x = one a x := by
  unfold between one
  split <;> split <;> omega

theorem between_add (hab : a ≤ b) (hbc : b ≤ c) (x : Nat) :
    between a b x + between b c x = between a c x := by
  unfold between
  split <;> split <;> split <;> omega

theorem between_of_lt (h : x < a) (b : Nat) : between a b x = 0 := by
  unfold between
  split <;> omega

theorem between_of_ge (h : b ≤ x) (a : Nat) : between a b x = 0 := by
  unfold between
  split <;> omega

theorem between_of_mem (ha : a ≤ x) (hb : x < b) : between a b x = 1 := by
  simp [between, ha, hb]

theorem count_singleton (a x : Nat) : [a].count x = one a x := by
  simp [one, List.count_singleton]

theorem count_cons (a x : Nat) (l : List Nat) : (a :: l).count x = one a x + l.count x := by
  unfold one
  rw [List.count_cons]
  simp only [beq_iff_eq, Nat.add_comm]

theorem count_concat (l : List Nat) (a x : Nat) : (l ++ [a]).count x = l.count x + one a x := by
  rw [List.count_append, count_singleton]

theorem count_dropLast (h : l.getLast? = some a) (x : Nat) :
    l.count x = l.dropLast.count x + one a x := by
  obtain ⟨init, rfl⟩ := List.getLast?_eq_some_iff.mp h
  rw [List.dropLast_concat, count_concat]

theorem sum_insert_update {T : Finset Nat} {f : Nat → Nat} {a : Nat} (v : Nat)
    (ha : a ∉ T → f a = 0) :
    (∑ i ∈ insert a T, Function.update f a v i) + f a = (∑ i ∈ T, f i) + v := by
  have hrest : ∑ i ∈ T.erase a, Function.update f a v i = ∑ i ∈ T.erase a, f i :=
    Finset.sum_congr rfl fun i hi => Function.update_of_ne (Finset.ne_of_mem_erase hi) ..
  have hins : insert a T = insert a (T.erase a) := by
    ext i
    by_cases hi : i = a <;> simp [hi]
  rw [hins, Finset.sum_insert (Finset.notMem_erase a T), Function.update_self, hrest]
  by_cases hm : a ∈ T
  · have := Finset.sum_erase_add T f hm
    omega
  · have := ha hm
    rw [Finset.erase_eq_of_notMem hm]
    omega

theorem sum_erase_update {T : Finset Nat} {f : Nat → Nat} {a : Nat} (v : Nat) (ha : a ∈ T) :
    (∑ i ∈ T.erase a, Function.update f a v i) + f a = ∑ i ∈ T, f i := by
  have hrest : ∑ i ∈ T.erase a, Function.update f a v i = ∑ i ∈ T.erase a, f i :=
    Finset.sum_congr rfl fun i hi => Function.update_of_ne (Finset.ne_of_mem_erase hi) ..
  rw [hrest]
  exact Finset.sum_erase_add T f ha

theorem count_pos {l : List Nat} : 0 < l.count x ↔ x ∈ l := List.count_pos_iff

end Ledger
