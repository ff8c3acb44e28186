import Chisel.CacheLaw

/-! Which errors a page operation can raise. The cache, the trees and the values fail only because
memory ran out or because the file is damaged; an operation that is refused for what was asked
raises its error itself. -/

namespace Chisel

open StateError PageCache

/-- Every error of `x` is a hard one. -/
def Hard {σ α : Type} (x : EStateM ChiselError σ α) : Prop :=
  ∀ s, wp x s (fun _ _ => True) (fun e _ => e.isHard = true)

instance {σ : Type} :
    Composes (fun _ _ : σ => True) (fun (e : ChiselError) _ _ => e.isHard = true) :=
  ⟨fun _ => trivial, fun _ _ => trivial, fun _ h => h⟩

section Rules

variable {σ α β : Type} {x y : EStateM ChiselError σ α} {f : α → EStateM ChiselError σ β}

theorem hard_pure (a : α) : Hard (pure a : EStateM ChiselError σ α) := stays_pure a

theorem hard_throw_bind {e : ChiselError} (h : e.isHard = true) :
    Hard ((throw e : EStateM ChiselError σ α) >>= f) := stays_throw_bind fun _ => h

theorem hard_bind (hx : Hard x) (hf : ∀ a, Hard (f a)) : Hard (x >>= f) := stays_bind hx hf

theorem hard_get : Hard (get : EStateM ChiselError σ σ) := stays_get

theorem hard_set (s' : σ) : Hard (set s' : EStateM ChiselError σ PUnit) := fun _ =>
  (wp_set s').mpr trivial

theorem hard_modify (g : σ → σ) : Hard (modify g : EStateM ChiselError σ PUnit) :=
  stays_modify fun _ => trivial

theorem hard_ite {c : Prop} [Decidable c] (hx : Hard x) (hy : Hard y) :
    Hard (if c then x else y) := stays_ite hx hy

end Rules

/-! ### Cache -/

theorem hard_maybeEvict : Hard maybeEvict := by
  refine fun c => wp_mono (wp_maybeEvict 0) (fun _ _ _ => trivial) ?_
  rintro e c' ⟨-, ⟨hcap, -⟩ | ⟨hard, -⟩⟩
  · exact ChiselError.isHard_of_capacity hcap
  · exact hard

theorem hard_fetch (id : Nat) : Hard (fetch id) := by
  refine fun c => wp_mono (wp_fetch_steps id) (fun _ _ _ => trivial) ?_
  rintro e c' ⟨-, hdenied⟩
  cases hdenied with
  | crowded hcap => exact ChiselError.isHard_of_capacity hcap
  | unread _ _ hr => exact (readDisk_error hr).1.1
  | broken hard => exact hard

theorem hard_getMut (id : Nat) (f : Buf → Buf) : Hard (getMut id f) :=
  hard_bind (hard_fetch id) fun _ => hard_modify _

theorem hard_getMutDeferredStamp (id : Nat) (f : Buf → Buf) : Hard (getMutDeferredStamp id f) :=
  hard_bind (hard_fetch id) fun _ => hard_modify _

theorem hard_newPage : Hard newPage :=
  hard_bind hard_get fun _ => hard_ite (hard_throw_bind rfl)
    (hard_bind (hard_set _) fun _ => hard_bind hard_maybeEvict fun _ => hard_pure _)

theorem hard_reissuePage (id : Nat) : Hard (reissuePage id) :=
  hard_bind (hard_modify _) fun _ => hard_maybeEvict

instance hardLaw : CacheLaw (fun _ _ => True) (fun e _ _ => e.isHard = true) where
  refl _ := trivial
  trans _ _ := trivial
  fail _ h := h
  raise h := h
  fetch := hard_fetch
  getMut := hard_getMut
  getMutDeferredStamp := hard_getMutDeferredStamp
  newPage := hard_newPage
  reissuePage := hard_reissuePage

end Chisel
