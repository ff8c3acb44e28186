import Chisel.Poison
import Chisel.TxnRun

/-! The reading operations of the public interface. In a transaction or not, they answer with what
the version that the manager shows holds, and they change nothing but the cache. -/

namespace Chisel

open StateError PageCache TransactionManager RadixTree

inductive ReadOp
  | read (handle : UInt64)
  | tag (handle : UInt64)
  | clientByte (handle : UInt64)
  | handles
  | handlesWithTag (tag : UInt32)

def ReadOp.toOp : ReadOp → Op
  | read handle => .read handle
  | tag handle => .tag handle
  | clientByte handle => .clientByte handle
  | handles => .handles
  | handlesWithTag t => .handlesWithTag t

namespace Version

def ofLive (v : Version) (handle : Nat) (reply : Reply) : Except ChiselError Reply :=
  if handle ∈ v.live then .ok reply else .error (.invalidHandle handle)

def reply (v : Version) : ReadOp → Except ChiselError Reply
  | .read handle => v.ofLive handle.toNat (.bytes (v.value handle.toNat))
  | .tag handle => v.ofLive handle.toNat (.tag (v.entry handle.toNat).tag)
  | .clientByte handle => v.ofLive handle.toNat (.byte (v.entry handle.toNat).clientByte)
  | .handles => .ok (.handles (v.live.sort (· ≤ ·)))
  | .handlesWithTag tag => .ok (.handles ((v.withTag tag.toNat).sort (· ≤ ·)))

end Version

section Reading

variable {m m' : TransactionManager} {v : Version} {α : Type} {x : TxnM α}
  {reply : Except ChiselError Reply}

theorem toNat_le_u64Max (n : UInt64) : n.toNat ≤ u64Max := by
  have := n.toNat_lt
  unfold u64Max
  omega

theorem toNat_le_u64Max' (n : UInt32) : n.toNat ≤ u64Max := by
  have := n.toNat_lt
  unfold u64Max
  omega

/-- A reading operation fails as the version says, or because the pages that were written do not
fit. -/
def Unread (m : TransactionManager) (reply : Except ChiselError Reply) (e : ChiselError)
    (m' : TransactionManager) : Prop :=
  Looked m m' ∧ (reply = .error e ∨ e.isCapacity = true ∧ ¬ m.cache.store.Fits)

theorem Refused.unread {v : Version} {handle : Nat} {r : Reply} {e : ChiselError}
    (h : Refused m (NotLive v handle) e m') : Unread m
    (v.ofLive handle r) e m' ∧ e.isFatal = false := by
  obtain ⟨hl, ⟨rfl, hdead⟩ | ⟨hcap, hfull⟩⟩ := h
  · exact ⟨⟨hl, .inl (if_neg hdead)⟩, rfl⟩
  · refine ⟨⟨hl, .inr ⟨hcap, hfull⟩⟩, ?_⟩
    cases e <;> simp_all [ChiselError.isCapacity, ChiselError.isFatal]

theorem Refused.unread_never {e : ChiselError} (h : Refused m (fun _ => False) e m') :
    Unread m reply e m' ∧ e.isFatal = false := by
  obtain ⟨hl, hf | ⟨hcap, hfull⟩⟩ := h
  · exact hf.elim
  · refine ⟨⟨hl, .inr ⟨hcap, hfull⟩⟩, ?_⟩
    cases e <;> simp_all [ChiselError.isCapacity, ChiselError.isFatal]

theorem wp_reading {f : α → Reply} (hp : m.poisoned = false)
    (hx : wp x m (fun a m' => Looked m m' ∧ reply = .ok (f a))
      (fun e m' => Unread m reply e m' ∧ e.isFatal = false)) :
    wp (f <$> guarded x) m (fun a m' => Looked m m' ∧ reply = .ok a) (Unread m reply) := by
  rw [wp_map]
  refine wp_guarded (fun hpo => absurd (hp.symm.trans hpo) nofun) fun _ => ?_
  refine wp_mono hx (fun _ _ h => h) fun e m' ⟨hu, hf⟩ => ?_
  rw [hf]
  exact hu

theorem Version.ofLive_pos {v : Version} {handle : Nat} (h : handle ∈ v.live) (r : Reply) :
    v.ofLive handle r = .ok r := if_pos h

theorem Shown.wp_perform (h : Shown m v) (hp : m.poisoned = false) (r : ReadOp) :
    wp (perform r.toOp) m (fun a m' => Looked m m' ∧ v.reply r = .ok a) (Unread m (v.reply r)) := by
  cases r with
  | read handle =>
    refine wp_reading hp (wp_mono (h.wp_readInner (toNat_le_u64Max handle)) ?_
      fun e m' he => he.unread)
    rintro b m' ⟨hl, hin, rfl⟩
    exact ⟨hl, v.ofLive_pos hin _⟩
  | tag handle | clientByte handle =>
    refine wp_reading hp ?_
    rw [wp_bind]
    refine wp_mono (h.wp_lookupLive (toNat_le_u64Max handle)) ?_ fun e m' he => he.unread
    rintro b m' ⟨hl, hin, rfl⟩
    exact wp_ret ⟨hl, v.ofLive_pos hin _⟩
  | handles =>
    refine wp_reading hp ?_
    rw [wp_bind, wp_get, wp_bind]
    refine wp_mono h.wp_iterLive ?_ fun e m' he => he.unread_never
    rintro l m' ⟨hl, rfl⟩
    refine wp_ret ⟨hl, ?_⟩
    rw [h.ok.listing_eq]
    rfl
  | handlesWithTag tag =>
    refine wp_reading hp ?_
    rw [wp_bind, wp_get]
    refine wp_mono (h.wp_handlesForTag (toNat_le_u64Max' tag)) ?_ fun e m' he => he.unread_never
    rintro l m' ⟨hl, rfl⟩
    refine ⟨hl, ?_⟩
    rw [h.ok.members_eq]
    rfl

end Reading

end Chisel
