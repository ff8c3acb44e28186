import Mathlib.Data.List.DropRight
import Mathlib.Logic.Function.Basic
import Mathlib.Tactic.Common
import Mathlib.Order.Basic

/-! A block device with a write cache: an array of cells with a length, the events that change it,
and what a power failure can leave of them. Everything before a completed sync is kept; of the
events after it, each one is kept or lost on its own, and a write may also be torn. -/

namespace Device

variable {U : Type} [Inhabited U]

/-- The contents of a device: cells from 0 to `len`, and blanks above. -/
@[ext] structure Image (U : Type) [Inhabited U] where
  cell : Nat → U
  len : Nat
  blank_above : ∀ i, len ≤ i → cell i = default

inductive Event (U : Type)
  | write (i : Nat) (u : U)
  | setLen (n : Nat)
  | sync

/-- The event with its unit replaced. -/
def Event.map {V : Type} (f : U → V) : Event U → Event V
  | .write i u => .write i (f u)
  | .setLen n => .setLen n
  | .sync => .sync

namespace Image

def empty : Image U := ⟨fun _ => default, 0, fun _ _ => rfl⟩

/-- Store `u` in cell `i`, extending the device with blanks if it is shorter. -/
def write (m : Image U) (i : Nat) (u : U) : Image U where
  cell := Function.update m.cell i u
  len := max m.len (i + 1)
  blank_above j hj := by
    rw [Function.update_of_ne (by omega)]
    exact m.blank_above j (by omega)

/-- Cut the device at `n`, or extend it with blanks up to `n`. -/
def setLen (m : Image U) (n : Nat) : Image U where
  cell j := if j < n then m.cell j else default
  len := n
  blank_above j hj := by simp [Nat.not_lt.mpr hj]

def apply (m : Image U) : Event U → Image U
  | .write i u => m.write i u
  | .setLen n => m.setLen n
  | .sync => m

/-- The device after the events, all of them visible. -/
def replay (m : Image U) (events : List (Event U)) : Image U := events.foldl apply m

@[simp] theorem write_len (m : Image U) (i : Nat) (u : U) :
    (m.write i u).len = max m.len (i + 1) := rfl

@[simp] theorem write_cell_self (m : Image U) (i : Nat) (u : U) : (m.write i u).cell i = u :=
  Function.update_self ..

theorem write_cell_ne (m : Image U) {i j : Nat} (u : U) (h : j ≠ i) :
    (m.write i u).cell j = m.cell j :=
  Function.update_of_ne h ..

@[simp] theorem setLen_len (m : Image U) (n : Nat) : (m.setLen n).len = n := rfl

theorem setLen_cell_lt (m : Image U) {n j : Nat} (h : j < n) : (m.setLen n).cell j = m.cell j := by
  simp [setLen, h]

@[simp] theorem replay_nil (m : Image U) : m.replay [] = m := rfl

@[simp] theorem replay_cons (m : Image U) (e : Event U) (es : List (Event U)) :
    m.replay (e :: es) = (m.apply e).replay es := rfl

theorem replay_append (m : Image U) (es es' : List (Event U)) :
    m.replay (es ++ es') = (m.replay es).replay es' := by
  simp [replay, List.foldl_append]

end Image

/-! ### Events that spare some cells -/

/-- The event makes the device no longer than `n` cells. -/
def Event.Below (n : Nat) : Event U → Prop
  | .write i _ => i < n
  | .setLen k => k ≤ n
  | .sync => True

/-- The event does not cut the device below `n` cells. -/
def Event.AtLeast (n : Nat) : Event U → Prop
  | .setLen k => n ≤ k
  | _ => True

instance (n : Nat) (e : Event U) : Decidable (e.AtLeast n) :=
  match e with
  | .setLen k => inferInstanceAs (Decidable (n ≤ k))
  | .write _ _ | .sync => .isTrue trivial

/-- The event leaves the cells of `K` alone. -/
def Event.Spares (K : Nat → Prop) : Event U → Prop
  | .write i _ => ¬ K i
  | .setLen n => ∀ i, K i → i < n
  | .sync => True

namespace Image

variable {K : Nat → Prop} {i : Nat}

theorem apply_cell_of_spares {e : Event U} (he : e.Spares K) (m : Image U) (hi : K i) :
    (m.apply e).cell i = m.cell i := by
  cases e with
  | write j u =>
    have hne : i ≠ j := by
      rintro rfl
      exact he hi
    exact m.write_cell_ne u hne
  | setLen n => exact m.setLen_cell_lt (he i hi)
  | sync => rfl

theorem replay_cell_of_spares {es : List (Event U)} (hes : ∀ e ∈ es, e.Spares K) (m : Image U)
    (hi : K i) : (m.replay es).cell i = m.cell i := by
  induction es generalizing m with
  | nil => rfl
  | cons e es ih =>
    rw [replay_cons, ih fun e' he' => hes e' (List.mem_cons_of_mem _ he')]
    exact apply_cell_of_spares (hes e List.mem_cons_self) m hi

/-- What every event of a list keeps, the whole list keeps. -/
theorem replay_keeps {P : Image U → Prop} {es : List (Event U)}
    (hes : ∀ e ∈ es, ∀ m : Image U, P m → P (m.apply e)) (m : Image U) (hm : P m) :
    P (m.replay es) := by
  induction es generalizing m with
  | nil => exact hm
  | cons e es ih =>
    exact ih (fun e' he' => hes e' (List.mem_cons_of_mem _ he')) _ (hes e List.mem_cons_self m hm)

theorem replay_len_le {es : List (Event U)} {n : Nat} (hes : ∀ e ∈ es, e.Below n) (m : Image U)
    (hm : m.len ≤ n) : (m.replay es).len ≤ n := by
  refine replay_keeps (P := fun m => m.len ≤ n) (fun e he m hm => ?_) m hm
  cases e with
  | write i u => exact Nat.max_le.mpr ⟨hm, hes _ he⟩
  | setLen k => exact hes _ he
  | sync => exact hm

theorem le_replay_len {es : List (Event U)} {n : Nat} (hes : ∀ e ∈ es, e.AtLeast n) (m : Image U)
    (hm : n ≤ m.len) : n ≤ (m.replay es).len := by
  refine replay_keeps (P := fun m => n ≤ m.len) (fun e he m hm => ?_) m hm
  cases e with
  | write i u => exact hm.trans (Nat.le_max_left ..)
  | setLen k => exact hes _ he
  | sync => exact hm

theorem replay_len_gt {es : List (Event U)} {n : Nat} (hes : ∀ e ∈ es, e.Spares K) (hn : K n)
    (m : Image U) (hm : n < m.len) : n < (m.replay es).len := by
  refine replay_keeps (P := fun m => n < m.len) (fun e he m hm => ?_) m hm
  cases e with
  | write i u => exact Nat.lt_of_lt_of_le hm (Nat.le_max_left ..)
  | setLen k => exact hes _ he n hn
  | sync => exact hm

end Image

/-! ### What is synced -/

def Event.isSync : Event U → Bool
  | .sync => true
  | _ => false

/-- The events up to the last sync. -/
def synced (es : List (Event U)) : List (Event U) := es.rdropWhile fun e => !e.isSync

/-- The events after the last sync. -/
def unsynced (es : List (Event U)) : List (Event U) := es.rtakeWhile fun e => !e.isSync

section Syncs

variable {es es' : List (Event U)}

omit [Inhabited U]

theorem synced_append_unsynced (es : List (Event U)) : synced es ++ unsynced es = es :=
  List.rdropWhile_append_rtakeWhile

theorem synced_synced (es : List (Event U)) : synced (synced es) = synced es :=
  List.rdropWhile_idempotent _ _

theorem sync_notMem_unsynced : Event.sync ∉ unsynced es := fun h =>
  absurd (List.mem_rtakeWhile_imp h) (by simp [Event.isSync])

theorem synced_length_le (es : List (Event U)) : (synced es).length ≤ es.length :=
  (List.rdropWhile_prefix _ es).length_le

theorem synced_concat_sync (es : List (Event U)) : synced (es ++ [.sync]) = es ++ [.sync] :=
  List.rdropWhile_concat_neg _ _ _ (by simp [Event.isSync])

theorem synced_append_of_notMem (h : Event.sync ∉ es') : synced (es ++ es') = synced es := by
  induction es' using List.reverseRecOn with
  | nil => rw [List.append_nil]
  | append_singleton l e ih =>
    rw [List.mem_append, not_or, List.mem_singleton] at h
    rw [← List.append_assoc, ← ih h.1]
    refine List.rdropWhile_concat_pos _ _ _ ?_
    cases e with
    | sync => exact absurd rfl h.2
    | write | setLen => rfl

theorem synced_append (h : synced es = es) (es' : List (Event U)) :
    synced (es ++ es') = es ++ synced es' := by
  induction es' using List.reverseRecOn with
  | nil => rw [List.append_nil, h]; exact (List.append_nil es).symm
  | append_singleton l e ih =>
    rw [← List.append_assoc]
    by_cases he : Event.sync ∈ [e]
    · obtain rfl := List.mem_singleton.mp he
      rw [synced_concat_sync, synced_concat_sync, List.append_assoc]
    · rw [synced_append_of_notMem he, synced_append_of_notMem he, ih]

end Syncs

/-! ### Power failures -/

/-- What a power failure can leave of events that no sync has completed. -/
inductive Remains (Tears : U → U → Prop) : List (Event U) → List (Event U) → Prop
  | nil : Remains Tears [] []
  | keep {e : Event U} {es es' : List (Event U)} (he : e ≠ .sync) (h : Remains Tears es es') :
    Remains Tears (e :: es) (e :: es')
  | lose {e : Event U} {es es' : List (Event U)} (he : e ≠ .sync) (h : Remains Tears es es') :
    Remains Tears (e :: es) es'
  | tear {i : Nat} {u u' : U} {es es' : List (Event U)} (hu : Tears u u')
    (h : Remains Tears es es') : Remains Tears (.write i u :: es) (.write i u' :: es')

/-- The device after a power failure at some point of the events: what was done before the last
completed sync is there, and what remains of the rest. -/
def Image.Survives (Tears : U → U → Prop) (m : Image U) (events : List (Event U)) (m' : Image U) :
    Prop :=
  ∃ done pending rest pending', events = done ++ (pending ++ rest) ∧
    Remains Tears pending pending' ∧ m' = (m.replay done).replay pending'

/-- The same, when the failure comes after at least `k` of the events. -/
def Image.SurvivesPast (Tears : U → U → Prop) (m : Image U) (k : Nat) (events : List (Event U))
    (m' : Image U) : Prop :=
  ∃ done pending rest pending', events = done ++ (pending ++ rest) ∧
    k ≤ done.length + pending.length ∧ Remains Tears pending pending' ∧
    m' = (m.replay done).replay pending'

section Failures

variable {Tears : U → U → Prop} {es es' : List (Event U)} {m m' : Image U}

omit [Inhabited U] in
theorem Remains.sync_not_mem (h : Remains Tears es es') : Event.sync ∉ es := by
  induction h with
  | nil => exact List.not_mem_nil
  | keep he _ ih | lose he _ ih =>
    intro hmem
    rcases List.mem_cons.mp hmem with h | h
    · exact he h.symm
    · exact ih h
  | tear _ _ ih =>
    intro hmem
    rcases List.mem_cons.mp hmem with h | h
    · cases h
    · exact ih h

omit [Inhabited U] in
theorem Remains.lose_all (h : Event.sync ∉ es) : Remains Tears es [] := by
  induction es with
  | nil => exact .nil
  | cons e es ih =>
    rw [List.mem_cons, not_or] at h
    exact .lose (Ne.symm h.1) (ih h.2)

omit [Inhabited U] in
/-- One of the events is kept, and all others are lost. -/
theorem Remains.only {e : Event U} (h : Event.sync ∉ es) (he : e ∈ es) : Remains Tears es [e] := by
  induction es with
  | nil => cases he
  | cons e' es ih =>
    rw [List.mem_cons, not_or] at h
    rcases List.mem_cons.mp he with rfl | he
    · exact .keep (Ne.symm h.1) (.lose_all h.2)
    · exact .lose (Ne.symm h.1) (ih h.2 he)

omit [Inhabited U] in
/-- What remains is part of what was written, or torn. -/
theorem Remains.mem (h : Remains Tears es es') {e : Event U} (he : e ∈ es') :
    e ∈ es ∨ ∃ i u u', e = .write i u' ∧ .write i u ∈ es ∧ Tears u u' := by
  induction h with
  | nil => cases he
  | keep _ _ ih =>
    rcases List.mem_cons.mp he with rfl | he
    · exact .inl List.mem_cons_self
    · rcases ih he with h | ⟨i, u, u', rfl, hu, ht⟩
      · exact .inl (List.mem_cons_of_mem _ h)
      · exact .inr ⟨i, u, u', rfl, List.mem_cons_of_mem _ hu, ht⟩
  | lose _ _ ih =>
    rcases ih he with h | ⟨i, u, u', rfl, hu, ht⟩
    · exact .inl (List.mem_cons_of_mem _ h)
    · exact .inr ⟨i, u, u', rfl, List.mem_cons_of_mem _ hu, ht⟩
  | tear hu _ ih =>
    rcases List.mem_cons.mp he with rfl | he
    · exact .inr ⟨_, _, _, rfl, List.mem_cons_self, hu⟩
    · rcases ih he with h | ⟨i, u, u', rfl, hu, ht⟩
      · exact .inl (List.mem_cons_of_mem _ h)
      · exact .inr ⟨i, u, u', rfl, List.mem_cons_of_mem _ hu, ht⟩

/-- A power failure comes before a sync has completed or after it. -/
theorem Image.Survives.of_sync (h : m.Survives Tears (es ++ .sync :: es') m') :
    m.Survives Tears es m' ∨ (m.replay es).Survives Tears es' m' := by
  obtain ⟨done, pending, rest, pending', heq, hrem, rfl⟩ := h
  have hsync := hrem.sync_not_mem
  rcases List.append_eq_append_iff.mp heq with ⟨a, rfl, ha⟩ | ⟨a, rfl, ha⟩
  · -- all of the first events are done
    cases a with
    | nil =>
      cases pending with
      | nil =>
        cases hrem
        exact .inr ⟨[], [], es', [], rfl, .nil, by rw [List.append_nil]; rfl⟩
      | cons e pending =>
        obtain ⟨rfl, -⟩ := List.cons.inj ha
        exact absurd List.mem_cons_self hsync
    | cons e a =>
      obtain ⟨rfl, rfl⟩ := List.cons.inj ha
      refine .inr ⟨a, pending, rest, pending', rfl, hrem, ?_⟩
      rw [replay_append]
      rfl
  · -- the failure comes among them
    left
    rcases List.append_eq_append_iff.mp ha with ⟨b, rfl, hb⟩ | ⟨b, rfl, hb⟩
    · exact ⟨done, pending, b, pending', rfl, hrem, rfl⟩
    · cases b with
      | nil => exact ⟨done, a, [], pending', by rw [List.append_nil], by simpa using hrem, rfl⟩
      | cons e b =>
        obtain ⟨rfl, -⟩ := List.cons.inj hb
        exact absurd (List.mem_append_right a List.mem_cons_self) hsync

/-- A failure that comes after a sync leaves everything before it. -/
theorem Image.SurvivesPast.of_synced {k : Nat} (h : m.SurvivesPast Tears k (es ++ es') m')
    (hsync : synced es = es) (hk : es.length ≤ k) : (m.replay es).Survives Tears es' m' := by
  obtain ⟨done, pending, rest, pending', heq, hle, hrem, rfl⟩ := h
  rcases List.append_eq_append_iff.mp heq with ⟨a, rfl, ha⟩ | ⟨a, rfl, ha⟩
  · refine ⟨a, pending, rest, pending', ha, hrem, ?_⟩
    rw [replay_append]
  · -- no sync is pending, so that the first events end where the pending ones begin
    have hpre : a <+: pending := by
      refine List.prefix_of_prefix_length_le ⟨es', ha.symm⟩ ⟨rest, rfl⟩ ?_
      rw [List.length_append] at hk
      omega
    have hnot : Event.sync ∉ a := fun hmem => hrem.sync_not_mem (hpre.subset hmem)
    rw [synced_append_of_notMem hnot] at hsync
    have hlen := synced_length_le done
    obtain rfl : a = [] := by
      have := congrArg List.length hsync
      rw [List.length_append] at this
      exact List.eq_nil_of_length_eq_zero (by omega)
    refine ⟨[], pending, rest, pending', ha.symm, hrem, ?_⟩
    rw [List.append_nil]
    rfl

theorem Image.SurvivesPast.of_unsynced {k : Nat} (h : m.SurvivesPast Tears k (es ++ es') m')
    (hk : (synced es).length ≤ k) :
    (m.replay (synced es)).Survives Tears (unsynced es ++ es') m' := by
  refine Image.SurvivesPast.of_synced (k := k) ?_ (synced_synced es) hk
  rw [← List.append_assoc, synced_append_unsynced]
  exact h

/-- The power fails during one write, and what came before it was kept. -/
theorem Image.Survives.of_tear {k i : Nat} {u u' : U} (h : es[k]? = some (.write i u))
    (hu : Tears u u') : m.Survives Tears es ((m.replay (es.take k)).write i u') := by
  obtain ⟨hlt, hget⟩ := List.getElem?_eq_some_iff.mp h
  refine ⟨es.take k, [.write i u], es.drop (k + 1), [.write i u'], ?_, .tear hu .nil, rfl⟩
  rw [List.singleton_append, ← hget, ← List.drop_eq_getElem_cons, List.take_append_drop]

theorem Image.SurvivesPast.of_tear {k i : Nat} {u u' : U} (hk : k ≤ es.length) (hu : Tears u u') :
    m.SurvivesPast Tears k (es ++ .write i u :: es') ((m.replay es).write i u') :=
  ⟨es, [.write i u], es', [.write i u'], rfl, by omega, .tear hu .nil, rfl⟩

theorem Image.Survives.nil (h : m.Survives Tears [] m') : m' = m := by
  obtain ⟨done, pending, rest, pending', heq, hrem, rfl⟩ := h
  obtain ⟨rfl, heq'⟩ := List.append_eq_nil_iff.mp heq.symm
  obtain ⟨rfl, -⟩ := List.append_eq_nil_iff.mp heq'
  cases hrem
  rfl

/-- The device is what some events make of it, each one of those that happened or torn. -/
theorem Image.Survives.events (h : m.Survives Tears es m') : ∃ es', m' = m.replay es' ∧
    ∀ e ∈ es', e ∈ es ∨ ∃ i u u', e = .write i u' ∧ .write i u ∈ es ∧ Tears u u' := by
  obtain ⟨done, pending, rest, pending', rfl, hrem, rfl⟩ := h
  refine ⟨done ++ pending', (replay_append _ _ _).symm, fun e he => ?_⟩
  rcases List.mem_append.mp he with he | he
  · exact .inl (List.mem_append_left _ he)
  · rcases hrem.mem he with h | ⟨i, u, u', heq, hu, ht⟩
    · exact .inl (List.mem_append_right _ (List.mem_append_left _ h))
    · exact .inr ⟨i, u, u', heq, List.mem_append_right _ (List.mem_append_left _ hu), ht⟩

/-- A cell after some events holds what it held or what one of them wrote. -/
theorem Image.replay_cell (hes : ∀ e ∈ es, ∀ n, e ≠ .setLen n) (m : Image U) (i : Nat) :
    (m.replay es).cell i = m.cell i ∨ .write i ((m.replay es).cell i) ∈ es := by
  induction es generalizing m with
  | nil => exact .inl rfl
  | cons e es ih =>
    have hrest := ih (fun e' he' => hes e' (List.mem_cons_of_mem _ he')) (m.apply e)
    rw [replay_cons]
    rcases hrest with h | h
    · rw [h]
      cases e with
      | write j u =>
        by_cases hij : i = j
        · subst hij
          right
          rw [show (m.apply (.write i u)).cell i = u from m.write_cell_self i u]
          exact List.mem_cons_self
        · exact .inl (m.write_cell_ne u hij)
      | setLen n => exact absurd rfl (hes _ List.mem_cons_self n)
      | sync => exact .inl rfl
    · exact .inr (List.mem_cons_of_mem _ h)

end Failures

end Device
