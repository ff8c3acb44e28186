import Mathlib.Data.List.Infix
import Mathlib.Data.List.Nodup

/-! Lists that follow a pointer from one element to the next until it stops. Such a list is
determined by its first element, so no element comes twice. -/

namespace Links

variable {α : Type} {next : α → Option α} {stop x y : α} {l l' : List α}

/-- Each element points to the next one, and the last one points to `stop`. -/
inductive Follows (next : α → Option α) (stop : α) : List α → Prop
  | last {x : α} (end_ : next x = some stop) : Follows next stop [x]
  | step {x y : α} {l : List α} (link : next x = some y) (ne : y ≠ stop)
    (rest : Follows next stop (y :: l)) : Follows next stop (x :: y :: l)

namespace Follows

theorem unique (h : Follows next stop (x :: l)) (h' : Follows next stop (x :: l')) : l = l' := by
  induction l generalizing x l' with
  | nil =>
    cases h with
    | last hend =>
      cases h' with
      | last => rfl
      | step link ne => exact absurd (Option.some.inj (link.symm.trans hend)) ne
  | cons y l ih =>
    cases h with
    | step link ne rest =>
      cases h' with
      | last hend => exact absurd (Option.some.inj (link.symm.trans hend)) ne
      | step link' ne' rest' =>
        obtain rfl := Option.some.inj (link.symm.trans link')
        rw [ih rest rest']

theorem tail_from (h : Follows next stop (x :: l)) (hy : y ∈ l) :
    ∃ l', (y :: l') <:+ l ∧ Follows next stop (y :: l') := by
  induction l generalizing x with
  | nil => cases hy
  | cons z l ih =>
    cases h with
    | step _ _ rest =>
      rcases List.mem_cons.mp hy with rfl | hy
      · exact ⟨l, List.suffix_refl _, rest⟩
      · obtain ⟨l', hsuf, hl'⟩ := ih rest hy
        exact ⟨l', hsuf.trans (List.suffix_cons z l), hl'⟩

/-- A pointer back into the list would lead round forever. -/
theorem nodup (h : Follows next stop l) : l.Nodup := by
  induction h with
  | last => exact List.nodup_singleton _
  | @step x y l link ne rest ih =>
    refine List.nodup_cons.mpr ⟨fun hx => ?_, ih⟩
    obtain ⟨l', hsuf, hl'⟩ := (Follows.step link ne rest).tail_from hx
    rw [hl'.unique (.step link ne rest)] at hsuf
    exact Nat.not_succ_le_self _ hsuf.length_le

end Follows

end Links
