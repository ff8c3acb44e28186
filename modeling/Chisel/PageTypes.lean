import Chisel.DataPageBytes
import Chisel.RadixBytes
import Chisel.TableMap

/-! Page types on the way through the radix trees. The membership index checks every node that it
reads, so a node that does not fit its position ends the call and is not queued for reuse. The
handle table checks the interior nodes of a lookup and nothing else. -/

namespace Chisel

open StateError

namespace Raw

variable {S V : Type} {A : PageAccess S} {R : RadixLayout V} {B : RadixBytes R}

/-- The node is of the type that its position asks for. -/
def RadixBytes.Fits (B : RadixBytes R) (r : Reading) : Prop := B.fits r.level r.buf = true

/-! ### Careful walks -/

/-- A node of this page was read at a position that it fits. -/
def RadixBytes.Saw (B : RadixBytes R) (w : Walk S) (id : Nat) : Prop :=
  ∃ r ∈ w.read, r.id = id ∧ B.Fits r

/-- What was read since `w` fits its position, and the pages that were queued have been seen to
fit. -/
def Careful (B : RadixBytes R) (w w' : Walk S) : Prop :=
  ∃ new gone, w'.read = w.read ++ new ∧ w'.freed = w.freed ++ gone ∧ (∀ r ∈ new, B.Fits r) ∧
    ∀ id ∈ gone, B.Saw w' id

/-- As `Careful`, but the last node may be one that does not fit, and then the error names it. -/
def Caught (B : RadixBytes R) (e : ChiselError) (w w' : Walk S) : Prop :=
  ∃ new gone, w'.read = w.read ++ new ∧ w'.freed = w.freed ++ gone ∧
    (∀ r ∈ new, ¬ B.Fits r → e = .corruptPage r.id ∧ new.getLast? = some r) ∧
    ∀ id ∈ gone, B.Saw w' id

theorem Careful.read_subset {w w' : Walk S} (h : Careful B w w') : w.read ⊆ w'.read := by
  obtain ⟨new, -, hread, -⟩ := h
  rw [hread]
  exact List.subset_append_left ..

theorem RadixBytes.Saw.mono {w w' : Walk S} {id : Nat} (h : B.Saw w id) (hsub : w.read ⊆ w'.read) :
    B.Saw w' id := by
  obtain ⟨r, hr, hid, hfits⟩ := h
  exact ⟨r, hsub hr, hid, hfits⟩

theorem Careful.of_eq {w w' : Walk S} (hread : w'.read = w.read) (hfreed : w'.freed = w.freed) :
    Careful B w w' :=
  ⟨[], [], by rw [hread, List.append_nil], by rw [hfreed, List.append_nil], nofun, nofun⟩

theorem Careful.caught {w w' : Walk S} (h : Careful B w w') (e : ChiselError) :
    Caught B e w w' := by
  obtain ⟨new, gone, hread, hfreed, hfits, hsaw⟩ := h
  exact ⟨new, gone, hread, hfreed, fun r hr hn => absurd (hfits r hr) hn, hsaw⟩

instance careful_composes : Composes (Careful (S := S) B) (Caught B) where
  refl w := .of_eq rfl rfl
  trans := by
    intro w w' w'' h h'
    have hsub := h'.read_subset
    obtain ⟨new, gone, hread, hfreed, hfits, hsaw⟩ := h
    obtain ⟨new', gone', hread', hfreed', hfits', hsaw'⟩ := h'
    refine ⟨new ++ new', gone ++ gone', by rw [hread', hread, List.append_assoc],
      by rw [hfreed', hfreed, List.append_assoc], fun r hr => ?_, fun id hid => ?_⟩
    · exact (List.mem_append.mp hr).elim (hfits r) (hfits' r)
    · exact (List.mem_append.mp hid).elim (fun h => (hsaw id h).mono hsub) (hsaw' id)
  fail := by
    intro e w w' w'' h h'
    obtain ⟨new, gone, hread, hfreed, hfits, hsaw⟩ := h
    obtain ⟨new', gone', hread', hfreed', hcaught, hsaw'⟩ := h'
    have hsub : w'.read ⊆ w''.read := by
      rw [hread']
      exact List.subset_append_left ..
    refine ⟨new ++ new', gone ++ gone', by rw [hread', hread, List.append_assoc],
      by rw [hfreed', hfreed, List.append_assoc], fun r hr hn => ?_, fun id hid => ?_⟩
    · obtain ⟨he, hlast⟩ := hcaught r
        ((List.mem_append.mp hr).resolve_left fun h => hn (hfits r h)) hn
      exact ⟨he, by rw [List.getLast?_append, hlast, Option.some_or]⟩
    · exact (List.mem_append.mp hid).elim (fun h => (hsaw id h).mono hsub) (hsaw' id)

/-- A walk that is careful whatever the pages are. -/
abbrev IsCareful (B : RadixBytes R) {α : Type} (x : WalkM S α) : Prop := Stays (Careful B)
    (Caught B) x

theorem careful_onPages {α : Type} (x : EStateM ChiselError S α) : IsCareful B (onPages x) :=
    fun w => by
  rw [onPages, wp_zoom]
  exact wp_mono wp_true (fun _ _ _ => .of_eq rfl rfl) fun e _ _ => (Careful.of_eq rfl rfl).caught e

theorem careful_throw {α : Type} (e : ChiselError) : IsCareful B (throw e : WalkM S α) :=
  stays_throw fun _ => (Careful.of_eq rfl rfl).caught e

/-- A node that is read and checked: what follows may rely on its type. -/
theorem wp_check {α : Type} {level id : Nat} {w : Walk S} {k : Bytes → WalkM S α}
    (hk : ∀ buf w', B.Saw w' id → wp (k buf) w' (fun _ => Careful B w') (fun e => Caught B e w')) :
    wp (getNode A level id >>= fun buf => checkTypeAt B buf id level >>= fun _ => k buf) w
      (fun _ => Careful B w) (fun e => Caught B e w) := by
  rw [wp_bind, wp_getNode]
  refine wp_mono wp_true (fun buf s _ => ?_) fun e _ _ => (Careful.of_eq rfl rfl).caught e
  set r : Reading := ⟨level, id, buf⟩
  set w1 : Walk S := ⟨s, w.freed, w.read ++ [r]⟩
  rw [wp_bind, checkTypeAt]
  refine wp_ite (fun hfits => ?_) fun hmis => wp_fail ?_
  · have hcare : Careful B w w1 :=
      ⟨[r], [], rfl, (List.append_nil _).symm, fun _ h => List.mem_singleton.mp h ▸ hfits, nofun⟩
    have hsaw : B.Saw w1 id := ⟨r, List.mem_append_right _ (List.mem_singleton_self r), rfl, hfits⟩
    rw [wp_pure]
    exact wp_mono (hk buf w1 hsaw) (fun _ _ h => careful_composes.trans hcare h)
      fun _ _ h => careful_composes.fail hcare h
  · refine ⟨[r], [], rfl, (List.append_nil _).symm, fun r' h _ => ?_, nofun⟩
    rw [List.mem_singleton.mp h]
    exact ⟨rfl, rfl⟩

theorem wp_free {w : Walk S} {id : Nat} (h : B.Saw w id) :
    wp (free id) w (fun _ => Careful B w) (fun e => Caught B e w) := by
  rw [free, wp_modify]
  refine ⟨[], [id], (List.append_nil _).symm, rfl, nofun, fun id' hid => ?_⟩
  rw [List.mem_singleton.mp hid]
  exact h

theorem wp_bind_saw {α β : Type} {x : WalkM S α} {f : α → WalkM S β} {w : Walk S} {id : Nat}
    (hx : IsCareful B x) (hsaw : B.Saw w id)
    (hf : ∀ a w', B.Saw w' id → wp (f a) w' (fun _ => Careful B w') (fun e => Caught B e w')) :
    wp (x >>= f) w (fun _ => Careful B w) (fun e => Caught B e w) :=
  wp_bind_of (P := fun _ w' => B.Saw w' id)
    (wp_mono (hx w) (fun _ _ h => ⟨h, hsaw.mono h.read_subset⟩) fun _ _ h => h)
    fun a w' _ h => hf a w' h

theorem careful_copyPage (src dst : Nat) : IsCareful B (copyPage A src dst) :=
  stays_bind (careful_onPages _) fun _ => careful_onPages _

theorem careful_initPage (level : Nat) : IsCareful B (initPage A B level) :=
  stays_bind (careful_onPages _) fun _ => stays_bind (careful_onPages _) fun _ => stays_pure _

theorem careful_childOr (level child : Nat) : IsCareful B (childOr A B level child) :=
  stays_ite (careful_initPage _) (stays_pure _)

theorem careful_findLeafFrom (level current remaining : Nat) :
    IsCareful B (findLeafFrom A B level current remaining) := by
  induction level generalizing current remaining with
  | zero => exact stays_pure _
  | succ level ih =>
    refine stays_ite (stays_pure _) fun w => wp_check fun buf w' _ => ?_
    exact wp_ite (fun _ => stays_pure none w') fun _ => ih _ _ w'

section Checked

variable (hc : R.checksFirst = true)

include hc

/-- A tree that checks its nodes sees to it that they fit. -/
theorem wp_look {α : Type} {level id : Nat} {w : Walk S} {k : Bytes → WalkM S α}
    (hk : ∀ buf w', B.Saw w' id → wp (k buf) w' (fun _ => Careful B w') (fun e => Caught B e w')) :
    wp (look A B level id >>= k) w (fun _ => Careful B w) (fun e => Caught B e w) := by
  have hlook : (look A B level id >>= k) =
      getNode A level id >>= fun buf => checkTypeAt B buf id level >>= fun _ => k buf := by
    simp only [look, hc, if_true, bind_assoc, pure_bind]
  rw [hlook]
  exact wp_check hk

theorem careful_lookup (depth root key : Nat) : IsCareful B (lookup A B depth root key) := by
  refine stays_ite (stays_pure _) (stays_ite (stays_pure _) ?_)
  refine stays_bind (careful_findLeafFrom _ _ _) fun found => ?_
  split
  · exact stays_pure _
  · exact fun w => wp_look hc fun buf w' _ => stays_pure _ w'

theorem careful_cow (level page : Nat) : IsCareful B (cow A B level page) := by
  intro w
  rw [cow, if_pos hc]
  refine wp_check fun buf w1 hsaw => wp_bind_saw (careful_onPages _) hsaw fun newPage w2 hsaw => ?_
  refine wp_bind_saw (careful_copyPage _ _) hsaw fun _ w3 hsaw => ?_
  exact wp_stays_bind (wp_free hsaw) fun _ => stays_pure _

theorem careful_insertRecursive (value : V) (level page key : Nat) :
    IsCareful B (insertRecursive A B value level page key) := by
  induction level generalizing page key with
  | zero =>
    exact stays_bind (careful_cow hc _ _) fun _ => stays_bind (careful_onPages _)
      fun _ => stays_pure _
  | succ level ih =>
    refine stays_bind (careful_cow hc _ _) fun _ => stays_bind (careful_onPages _) fun _ => ?_
    refine stays_bind (careful_childOr _ _) fun _ => ?_
    exact stays_bind (ih _ _) fun _ => stays_bind (careful_onPages _) fun _ => stays_pure _

omit hc in
theorem careful_growTo (key rounds depth root : Nat) :
    IsCareful B (growTo A B key rounds depth root) := by
  induction rounds generalizing depth root with
  | zero => exact stays_pure _
  | succ rounds ih =>
    have hgrow : IsCareful B (grow A B root) :=
      stays_bind (careful_onPages _) fun _ => stays_bind (careful_onPages _) fun _ => stays_pure _
    exact stays_ite (stays_bind hgrow fun _ => ih _ _) (stays_pure _)

theorem careful_insert (depth root key : Nat) (value : V) :
    IsCareful B (insert A B depth root key value) :=
  stays_bind (careful_growTo _ _ _ _) fun _ =>
    stays_bind (careful_insertRecursive hc _ _ _ _) fun _ => stays_pure _

theorem wp_replace {w : Walk S} {page : Nat} {change : Bytes → Bytes} (hsaw : B.Saw w page) :
    wp (replace A R page change) w (fun _ => Careful B w) (fun e => Caught B e w) := by
  simp only [replace, hc, if_true]
  refine wp_bind_saw (careful_onPages _) hsaw fun newPage w1 hsaw => ?_
  refine wp_bind_saw (careful_copyPage _ _) hsaw fun _ w2 hsaw => ?_
  refine wp_bind_saw (careful_onPages _) hsaw fun _ w3 hsaw => ?_
  exact wp_stays_bind (wp_free hsaw) fun _ => stays_pure _

theorem careful_deleteRecursive (level page key : Nat) :
    IsCareful B (deleteRecursive A B level page key) := by
  induction level generalizing page key with
  | zero =>
    refine fun w => wp_look hc fun buf w1 hsaw => wp_ite (fun _ => stays_pure _ w1) fun _ => ?_
    exact wp_stays_bind (wp_replace hc hsaw) fun _ => stays_pure _
  | succ level ih =>
    refine fun w => wp_look hc fun buf w1 hsaw => wp_ite (fun _ => stays_pure _ w1) fun _ => ?_
    refine wp_bind_saw (ih _ _) hsaw fun found w2 hsaw => ?_
    obtain ⟨newChild, prev⟩ := found
    cases prev with
    | none => exact stays_pure _ w2
    | some prev => exact wp_stays_bind (wp_replace hc hsaw) fun _ => stays_pure _

theorem careful_delete (depth root key : Nat) : IsCareful B (delete A B depth root key) :=
  stays_ite (stays_pure _) (stays_ite (stays_pure _) (careful_deleteRecursive hc _ _ _))

theorem careful_iterRecursive (level page base : Nat) :
    IsCareful B (iterRecursive A B level page base) := by
  induction level generalizing page base with
  | zero => exact fun w => wp_look hc fun buf w1 _ => stays_pure _ w1
  | succ level ih =>
    refine fun w => wp_look hc fun buf w1 _ => ?_
    exact stays_foldlM (fun out i => stays_bind (ih _ _) fun _ => stays_pure _) [] w1

theorem careful_iter (depth root : Nat) : IsCareful B (iter A B depth root) :=
  stays_ite (stays_pure _) (careful_iterRecursive hc _ _ _)

theorem careful_iterBoundedRecursive (limit level page base : Nat) (out : List (Nat × V)) :
    IsCareful B (iterBoundedRecursive A B limit level page base out) := by
  induction level generalizing page base out with
  | zero => exact stays_ite (stays_pure _) fun w => wp_look hc fun buf w1 _ => stays_pure _ w1
  | succ level ih =>
    refine stays_ite (stays_pure _) fun w => wp_look hc fun buf w1 _ => ?_
    exact stays_foldlM (fun out i => stays_ite (stays_pure _) (ih _ _ _)) out w1

theorem careful_iterBounded (depth root limit : Nat) :
    IsCareful B (iterBounded A B depth root limit) :=
  stays_ite (stays_pure _) (careful_iterBoundedRecursive hc _ _ _ _ _)

theorem careful_anyPresent (depth root : Nat) : IsCareful B (anyPresent A B depth root) := by
  have hrec : ∀ level page, IsCareful B (anyRecursive A B level page) := by
    intro level
    induction level with
    | zero => exact fun page w => wp_look hc fun buf w1 _ => stays_pure _ w1
    | succ level ih => exact fun page w => wp_look hc fun buf w1 _ => stays_anyM (fun i => ih _) w1
  exact stays_ite (stays_pure _) (hrec _ _)

/-- A page is queued after its children have been, and it was read before them. -/
theorem careful_freeSubtreeFrom (level page : Nat) : IsCareful B
    (freeSubtreeFrom A B level page) := by
  induction level generalizing page with
  | zero => exact fun w => wp_look hc fun buf w1 hsaw => wp_free hsaw
  | succ level ih =>
    refine fun w => wp_look hc fun buf w1 hsaw => ?_
    exact wp_bind_saw (stays_forM fun i => ih _) hsaw fun _ w2 hsaw => wp_free hsaw

theorem careful_freeSubtree (depth root : Nat) : IsCareful B (freeSubtree A B depth root) :=
  stays_ite (stays_pure _) (careful_freeSubtreeFrom hc _ _)

end Checked

/-! ### The membership index -/

inductive IndexCall
  | insert (tag handle : Nat)
  | remove (tag handle : Nat)
  | contains (tag handle : Nat)
  | handlesForTag (tag : Nat)
  | handlesForTagBounded (tag limit : Nat)
  | freeSubtree (depth root : Nat)

/-- The call on an index, or for `freeSubtree` on an inner tree, as far as it matters whether it
returns. -/
def IndexCall.run (A : PageAccess S) (outerDepth outerRoot : Nat) : IndexCall → WalkM S Unit
  | insert tag handle => discard (MembershipIndex.insert A outerDepth outerRoot tag handle)
  | remove tag handle => discard (MembershipIndex.remove A outerDepth outerRoot tag handle)
  | contains tag handle => discard (MembershipIndex.contains A outerDepth outerRoot tag handle)
  | handlesForTag tag => discard (MembershipIndex.handlesForTag A outerDepth outerRoot tag)
  | handlesForTagBounded tag limit =>
    discard (MembershipIndex.handlesForTagBounded A outerDepth outerRoot tag limit)
  | freeSubtree depth root => Raw.freeSubtree A MembershipIndex.bytes depth root

namespace MembershipIndex

theorem careful_rootOr (missing root depth : Nat) : IsCareful bytes (rootOr A missing root depth) :=
  stays_ite (stays_bind (careful_initPage _) fun _ => stays_pure _) (stays_pure _)

theorem careful_innerOf (outerDepth outerRoot tag : Nat) :
    IsCareful bytes (innerOf A outerDepth outerRoot tag) :=
  stays_bind (careful_lookup rfl _ _ _) fun _ =>
    stays_ite (stays_bind (careful_throw _) fun _ => stays_pure _) (stays_pure _)

theorem careful_pack (root depth : Nat) : IsCareful bytes (pack root depth : WalkM S Nat) := by
  unfold pack
  split
  · exact stays_pure _
  · exact careful_throw _

theorem careful_insert (outerDepth outerRoot tag handle : Nat) :
    IsCareful bytes (insert A outerDepth outerRoot tag handle) :=
  stays_bind (careful_rootOr _ _ _) fun _ => stays_bind (careful_innerOf _ _ _) fun _ =>
    stays_bind (careful_rootOr _ _ _) fun _ => stays_bind (Raw.careful_insert rfl _ _ _ _) fun _ =>
      stays_bind (careful_pack _ _) fun _ => Raw.careful_insert rfl _ _ _ _

theorem careful_onInner {α : Type} {missing : α} {k : Nat → Nat → WalkM S α}
    (hk : ∀ depth root, IsCareful bytes (k depth root)) (outerDepth outerRoot tag : Nat) :
    IsCareful bytes (onInner A outerDepth outerRoot tag missing k) :=
  stays_ite (stays_pure _) (stays_bind (careful_innerOf _ _ _) fun _ =>
    stays_ite (stays_pure _) (hk _ _))

theorem careful_remove (outerDepth outerRoot tag handle : Nat) :
    IsCareful bytes (remove A outerDepth outerRoot tag handle) := by
  refine careful_onInner (fun innerDepth innerRoot => ?_) _ _ _
  refine stays_bind (careful_delete rfl _ _ _) fun found => ?_
  obtain ⟨newInner, prev⟩ := found
  cases prev with
  | none => exact stays_pure _
  | some prev =>
    refine stays_bind (careful_anyPresent rfl _ _) fun _ => stays_ite ?_ ?_
    · exact stays_bind (careful_pack _ _) fun _ =>
        stays_bind (Raw.careful_insert rfl _ _ _ _) fun _ => stays_pure _
    · exact stays_bind (careful_freeSubtree rfl _ _) fun _ =>
        stays_bind (careful_delete rfl _ _ _) fun _ => stays_pure _

end MembershipIndex

theorem IndexCall.careful (call : IndexCall) (outerDepth outerRoot : Nat) :
    IsCareful MembershipIndex.bytes (call.run A outerDepth outerRoot) := by
  cases call with
  | insert tag handle => exact stays_map (MembershipIndex.careful_insert _ _ _ _)
  | remove tag handle => exact stays_map (MembershipIndex.careful_remove _ _ _ _)
  | contains tag handle =>
    exact stays_map (MembershipIndex.careful_onInner
      (fun _ _ => stays_bind (careful_lookup rfl _ _ _) fun _ => stays_pure _) _ _ _)
  | handlesForTag tag =>
    exact stays_map (MembershipIndex.careful_onInner
      (fun _ _ => stays_bind (careful_iter rfl _ _) fun _ => stays_pure _) _ _ _)
  | handlesForTagBounded tag limit =>
    exact stays_map (MembershipIndex.careful_onInner
      (fun _ _ => stays_bind (careful_iterBounded rfl _ _ _) fun _ => stays_pure _) _ _ _)
  | freeSubtree depth root => exact careful_freeSubtree rfl depth root

/-- Every call on the membership index checks the nodes it reads, whatever the pages hold: if one of
them does not fit its position, the call fails with `CorruptPage` for it and reads nothing further.
A page is queued for reuse only if the call read it at a position that it fits. -/
theorem MembershipIndex.misfit_refused (A : PageAccess S) (call : IndexCall)
    (outerDepth outerRoot : Nat) (s : S) (freed : List Nat) :
    ∃ w', endState (call.run A outerDepth outerRoot) ⟨s, freed, []⟩ = w' ∧
      (∀ r ∈ w'.read, ¬ bytes.Fits r →
        call.run A outerDepth outerRoot ⟨s, freed, []⟩ = .error (.corruptPage r.id) w' ∧
        w'.read.getLast? = some r) ∧
      ∃ gone, w'.freed = freed ++ gone ∧ ∀ id ∈ gone, bytes.Saw w' id := by
  have hcare := wp_def.mp (call.careful (A := A) outerDepth outerRoot ⟨s, freed, []⟩)
  cases hrun : call.run A outerDepth outerRoot ⟨s, freed, []⟩ with
  | ok a w' =>
    obtain ⟨new, gone, hread, hfreed, hfits, hsaw⟩ := hcare.1 a w' hrun
    rw [List.nil_append] at hread
    exact ⟨w', endState_of_ok hrun, fun r hr hn => absurd (hfits r (hread ▸ hr)) hn, gone,
      hfreed, hsaw⟩
  | error e w' =>
    obtain ⟨new, gone, hread, hfreed, hcaught, hsaw⟩ := hcare.2 e w' hrun
    rw [List.nil_append] at hread
    refine ⟨w', endState_of_error hrun, fun r hr hn => ?_, gone, hfreed, hsaw⟩
    obtain ⟨he, hlast⟩ := hcaught r (hread ▸ hr) hn
    exact ⟨by rw [he], hread ▸ hlast⟩

/-- Pages in memory, and an allocator that adds to them. -/
structure Memory where
  pages : List (Nat × Bytes)
  next : Nat

def Memory.access : PageAccess Memory where
  get id m := match m.pages.lookup id with
    | some buf => .ok buf m
    | none => .error (.invalidPageId id) m
  getMut id f m := match m.pages.lookup id with
    | some buf => .ok () { m with pages := (id, f buf) :: m.pages }
    | none => .error (.invalidPageId id) m
  alloc m := .ok m.next ⟨(m.next, List.replicate pageSize 0) :: m.pages, m.next + 1⟩

/-- An index of one tag, 7. The inner tree of the tag has page 3 as its root, and page 3 again as
one of the leaves below it. -/
def looped : Walk Memory :=
  let node := MembershipIndex.bytes.blank
  ⟨⟨[(2, setChildAt 7 (3 + 2 ^ 58) (node 0)), (3, setChildAt 1 3 (setChildAt 0 4 (node 1))),
    (4, setChildAt 5 1 (node 0))], 5⟩, [], []⟩

/-- The page that does not fit can have been queued before, for a position that it fits. -/
theorem MembershipIndex.misfit_queued : ∃ w',
    (IndexCall.insert 7 1021).run Memory.access 0 2 looped = .error (.corruptPage 3) w' ∧
      w'.freed = [3] ∧ ∃ r ∈ w'.read, r.id = 3 ∧ ¬ bytes.Fits r := by
  have hend : (match (IndexCall.insert 7 1021).run Memory.access 0 2 looped with
      | .error (.corruptPage id) w => id == 3 && w.freed == [3] &&
        w.read.any fun r => r.id == 3 && !bytes.fits r.level r.buf
      | _ => false) = true := by decide +kernel
  split at hend
  · next id w hrun =>
    simp only [Bool.and_eq_true, List.any_eq_true, beq_iff_eq, Bool.not_eq_true'] at hend
    obtain ⟨⟨rfl, hfreed⟩, r, hr, hid, hmis⟩ := hend
    exact ⟨w, hrun, hfreed, r, hr, hid, by rw [RadixBytes.Fits, hmis]; simp⟩
  · cases hend

/-! ### The handle table -/

/-- No access of the cache or of the allocator fails with `CorruptPage` for this page. -/
structure PageAccess.Silent (A : PageAccess S) (id : Nat) : Prop where
  get : ∀ x s, wp (A.get x) s (fun _ _ => True) (fun e _ => e ≠ .corruptPage id)
  getMut : ∀ x f s, wp (A.getMut x f) s (fun _ _ => True) (fun e _ => e ≠ .corruptPage id)
  alloc : ∀ s, wp A.alloc s (fun _ _ => True) (fun e _ => e ≠ .corruptPage id)

/-- The walk may end in any way but one. -/
abbrev NeverBlames {α : Type} (id : Nat) (x : WalkM S α) : Prop :=
  Stays (fun _ _ => True) (fun e _ _ => e ≠ .corruptPage id) x

instance (id : Nat) :
    Composes (fun _ _ : Walk S => True) (fun (e : ChiselError) _ _ => e ≠ .corruptPage id) :=
  ⟨fun _ => trivial, fun _ _ => trivial, fun _ h => h⟩

theorem neverBlames_onPages {α : Type} {id : Nat} {x : EStateM ChiselError S α}
    (hx : ∀ s, wp x s (fun _ _ => True) (fun e _ => e ≠ .corruptPage id)) :
    NeverBlames id (onPages x) := fun w => by
  rw [onPages, wp_zoom]
  exact hx w.pages

section Unchecked

variable {id : Nat} (hA : A.Silent id)

include hA

theorem neverBlames_getNode (level x : Nat) : NeverBlames id (getNode A level x) :=
  stays_bind (neverBlames_onPages (hA.get x)) fun _ =>
    stays_bind (stays_modify fun _ => trivial) fun _ => stays_pure _

theorem neverBlames_getMut (x : Nat) (f : Bytes → Bytes) : NeverBlames id
    (onPages (A.getMut x f)) :=
  neverBlames_onPages (hA.getMut x f)

theorem neverBlames_alloc : NeverBlames id (onPages A.alloc) := neverBlames_onPages hA.alloc

theorem neverBlames_initPage (level : Nat) : NeverBlames id (initPage A B level) :=
  stays_bind (neverBlames_alloc hA) fun _ => stays_bind (neverBlames_getMut hA _ _)
    fun _ => stays_pure _

theorem neverBlames_growTo (key rounds depth root : Nat) :
    NeverBlames id (growTo A B key rounds depth root) := by
  induction rounds generalizing depth root with
  | zero => exact stays_pure _
  | succ rounds ih =>
    have hgrow : NeverBlames id (grow A B root) := stays_bind (neverBlames_alloc hA) fun _ =>
      stays_bind (neverBlames_getMut hA _ _) fun _ => stays_pure _
    exact stays_ite (stays_bind hgrow fun _ => ih _ _) (stays_pure _)

variable (hc : R.checksFirst = false)

include hc

theorem neverBlames_look (level x : Nat) : NeverBlames id (look A B level x) := by
  have hlook : look A B level x = getNode A level x := by
    simp only [look, hc, Bool.false_eq_true, if_false, bind_pure]
  rw [hlook]
  exact neverBlames_getNode hA level x

theorem neverBlames_insertRecursive (value : V) (level page key : Nat) :
    NeverBlames id (insertRecursive A B value level page key) := by
  have hcow : ∀ level page, NeverBlames id (cow A B level page) := fun level page => by
    rw [cow, if_neg (by rw [hc]; exact Bool.false_ne_true)]
    exact stays_bind (neverBlames_alloc hA) fun _ => stays_bind
      (neverBlames_getNode hA _ _) fun _ =>
      stays_bind (neverBlames_getMut hA _ _) fun _ =>
        stays_bind (stays_modify fun _ => trivial) fun _ => stays_pure _
  induction level generalizing page key with
  | zero =>
    exact stays_bind (hcow _ _) fun _ => stays_bind (neverBlames_getMut hA _ _)
      fun _ => stays_pure _
  | succ level ih =>
    refine stays_bind (hcow _ _) fun _ => stays_bind (neverBlames_onPages (hA.get _)) fun _ => ?_
    refine stays_bind (stays_ite (neverBlames_initPage hA _) (stays_pure _)) fun _ => ?_
    exact stays_bind (ih _ _) fun _ => stays_bind (neverBlames_getMut hA _ _) fun _ => stays_pure _

theorem neverBlames_insert (depth root key : Nat) (value : V) :
    NeverBlames id (insert A B depth root key value) :=
  stays_bind (neverBlames_growTo hA _ _ _ _) fun _ =>
    stays_bind (neverBlames_insertRecursive hA hc _ _ _ _) fun _ => stays_pure _

theorem neverBlames_delete (depth root key : Nat) : NeverBlames id (delete A B depth root key) := by
  have hreplace : ∀ page change, NeverBlames id (replace A R page change) := fun page change => by
    simp only [replace, hc, Bool.false_eq_true, if_false]
    exact stays_bind (neverBlames_alloc hA) fun _ =>
      stays_bind (stays_bind (neverBlames_onPages (hA.get _)) fun _ => neverBlames_getMut hA _ _)
        fun _ =>
        stays_bind (stays_modify fun _ => trivial) fun _ =>
          stays_bind (neverBlames_getMut hA _ _) fun _ => stays_pure _
  have hrec : ∀ level page key, NeverBlames id (deleteRecursive A B level page key) := by
    intro level
    induction level with
    | zero =>
      exact fun page key => stays_bind (neverBlames_look hA hc _ _) fun _ =>
        stays_ite (stays_pure _) (stays_bind (hreplace _ _) fun _ => stays_pure _)
    | succ level ih =>
      refine fun page key => stays_bind (neverBlames_look hA hc _ _)
        fun _ => stays_ite (stays_pure _) ?_
      refine stays_bind (ih _ _) fun found => ?_
      obtain ⟨newChild, prev⟩ := found
      cases prev with
      | none => exact stays_pure _
      | some prev => exact stays_bind (hreplace _ _) fun _ => stays_pure _
  exact stays_ite (stays_pure _) (stays_ite (stays_pure _) (hrec _ _ _))

theorem neverBlames_iter (depth root : Nat) : NeverBlames id (iter A B depth root) := by
  have hrec : ∀ level page base, NeverBlames id (iterRecursive A B level page base) := by
    intro level
    induction level with
    | zero => exact fun page base => stays_bind (neverBlames_look hA hc _ _) fun _ => stays_pure _
    | succ level ih =>
      exact fun page base => stays_bind (neverBlames_look hA hc _ _) fun _ =>
        stays_foldlM (fun out i => stays_bind (ih _ _) fun _ => stays_pure _) []
  exact stays_ite (stays_pure _) (hrec _ _ _)

end Unchecked

/-- The nodes that `find_leaf` reads are interior ones, and one that does not fit ends it. -/
theorem findLeafFrom_reads (level current remaining : Nat) (w : Walk S) :
    wp (findLeafFrom A B level current remaining) w
      (fun _ w' => ∃ new, w'.read = w.read ++ new ∧ w'.freed = w.freed ∧
        ∀ r ∈ new, r.level ≠ 0 ∧ B.Fits r)
      (fun e w' => ∃ new, w'.read = w.read ++ new ∧ w'.freed = w.freed ∧
        ∀ r ∈ new, r.level ≠ 0 ∧ (¬ B.Fits r → e = .corruptPage r.id)) := by
  have hnil : ∀ w' : Walk S, w'.read = w'.read ++ [] := fun w' => (List.append_nil _).symm
  induction level generalizing current remaining w with
  | zero => exact wp_ret ⟨[], hnil w, rfl, nofun⟩
  | succ level ih =>
    refine wp_ite (fun _ => wp_ret ⟨[], hnil w, rfl, nofun⟩) fun _ => ?_
    rw [wp_bind, wp_getNode]
    refine wp_mono wp_true (fun buf s _ => ?_) fun e s _ => ⟨[], (List.append_nil _).symm,
      rfl, nofun⟩
    set r : Reading := ⟨level + 1, current, buf⟩
    rw [wp_bind, checkTypeAt]
    refine wp_ite (fun hfits => ?_) fun hmis => wp_fail ⟨[r], rfl, rfl, fun r' hr => ?_⟩
    · rw [wp_pure]
      refine wp_ite (fun _ => wp_ret ⟨[r], rfl, rfl, fun r' hr => ?_⟩) fun _ => ?_
      · rw [List.mem_singleton.mp hr]
        exact ⟨Nat.succ_ne_zero level, hfits⟩
      · refine wp_mono (ih _ _ _) ?_ ?_
        · intro found w' ⟨new, hread, hfreed, hnew⟩
          refine ⟨r :: new, by rw [hread, List.append_assoc]; rfl, hfreed, fun r' hr => ?_⟩
          rcases List.mem_cons.mp hr with rfl | hr
          · exact ⟨Nat.succ_ne_zero level, hfits⟩
          · exact hnew r' hr
        · intro e w' ⟨new, hread, hfreed, hnew⟩
          refine ⟨r :: new, by rw [hread, List.append_assoc]; rfl, hfreed, fun r' hr => ?_⟩
          rcases List.mem_cons.mp hr with rfl | hr
          · exact ⟨Nat.succ_ne_zero level, fun hn => absurd hfits hn⟩
          · exact hnew r' hr
    · rw [List.mem_singleton.mp hr]
      exact ⟨Nat.succ_ne_zero level, fun _ => rfl⟩

/-- A lookup in a tree that does not check its leaves. -/
theorem lookup_reads (hc : R.checksFirst = false) (depth root key : Nat) (w : Walk S) :
    wp (lookup A B depth root key) w
      (fun _ w' => ∃ new, w'.read = w.read ++ new ∧ w'.freed = w.freed ∧
        ∀ r ∈ new, r.level ≠ 0 → B.Fits r)
      (fun e w' => ∃ new, w'.read = w.read ++ new ∧ w'.freed = w.freed ∧
        ∀ r ∈ new, r.level ≠ 0 ∧ (¬ B.Fits r → e = .corruptPage r.id)) := by
  have hnone : ∃ new, w.read = w.read ++ new ∧ w.freed = w.freed ∧ ∀ r ∈ new, r.level ≠ 0 →
    B.Fits r :=
    ⟨[], (List.append_nil _).symm, rfl, nofun⟩
  refine wp_ite (fun _ => wp_ret hnone) fun _ => wp_ite (fun _ => wp_ret hnone) fun _ => ?_
  rw [wp_bind]
  refine wp_imp (findLeafFrom_reads _ _ _ _) ?_
  intro found w1 ⟨new, hread, hfreed, hnew⟩
  cases found with
  | none => exact wp_ret ⟨new, hread, hfreed, fun r hr _ => (hnew r hr).2⟩
  | some place =>
    simp only [look, hc, Bool.false_eq_true, if_false, bind_pure, wp_bind, wp_getNode, wp_pure]
    refine wp_mono wp_true (fun buf s _ => ?_) fun e s _ => ?_
    · refine ⟨new ++ [⟨0, place.1, buf⟩], by rw [hread,
        List.append_assoc], hfreed, fun r hr hne => ?_⟩
      rcases List.mem_append.mp hr with hr | hr
      · exact (hnew r hr).2
      · rw [List.mem_singleton.mp hr] at hne
        exact absurd rfl hne
    · exact ⟨new, hread, hfreed, fun r hr => ⟨(hnew r hr).1, fun hn => absurd (hnew r hr).2 hn⟩⟩

namespace HandleTable

def run (A : PageAccess S) (depth root : Nat) : TableCall → WalkM S TableAnswer
  | .insert handle entry => (fun _ => .done) <$> insert A bytes depth root handle entry
  | .delete handle => (fun res => .entry res.2) <$> delete A bytes depth root handle
  | .lookup handle => (fun e => .entry e.shown) <$> lookup A bytes depth root handle
  | .iterLive => .entries <$> iter A bytes depth root

/-- A call of the handle table that has read a node which does not fit its position is refused with
`CorruptPage` for it exactly if the call is a lookup and the node stands above the leaves. -/
theorem misfit_refused_iff (A : PageAccess S) (call : TableCall) (depth root : Nat) (s : S)
    (freed : List Nat) {r : Reading} (hA : A.Silent r.id)
    (hread : r ∈ (endState (run A depth root call) ⟨s, freed, []⟩).read) (hmis : ¬ bytes.Fits r) :
    (∃ w', run A depth root call ⟨s, freed, []⟩ = .error (.corruptPage r.id) w' ∧
      ∃ gone, w'.freed = freed ++ gone ∧ r.id ∉ gone) ↔
    (∃ handle, call = .lookup handle) ∧ r.level ≠ 0 := by
  have hnever : ∀ {x : WalkM S TableAnswer}, NeverBlames r.id x → ∀ w',
      x ⟨s, freed, []⟩ ≠ .error (.corruptPage r.id) w' := fun hx w' hrun =>
    (wp_error hrun).mp (hx ⟨s, freed, []⟩) rfl
  cases call with
  | insert handle entry =>
    refine iff_of_false (fun ⟨w', hrun, _⟩ => ?_) fun h => by simp at h
    exact hnever (stays_map (neverBlames_insert hA rfl _ _ _ _)) w' hrun
  | delete handle =>
    refine iff_of_false (fun ⟨w', hrun, _⟩ => ?_) fun h => by simp at h
    exact hnever (stays_map (neverBlames_delete hA rfl _ _ _)) w' hrun
  | iterLive =>
    refine iff_of_false (fun ⟨w', hrun, _⟩ => ?_) fun h => by simp at h
    exact hnever (stays_map (neverBlames_iter hA rfl _ _)) w' hrun
  | lookup handle =>
    have hspec := lookup_reads (A := A) (B := bytes) rfl depth root handle ⟨s, freed, []⟩
    cases hrun : lookup A bytes depth root handle ⟨s, freed, []⟩ with
    | ok e w' =>
      have hok : run A depth root (.lookup handle) ⟨s, freed, []⟩ = .ok (.entry e.shown) w' :=
        map_of_ok hrun
      rw [endState_of_ok hok] at hread
      obtain ⟨new, hnew, -, hfits⟩ := (wp_ok hrun).mp hspec
      rw [hnew, List.nil_append] at hread
      rw [hok]
      refine iff_of_false (by rintro ⟨w, hw, -⟩; cases hw) fun h => hmis (hfits r hread h.2)
    | error e w' =>
      have herr : run A depth root (.lookup handle) ⟨s, freed, []⟩ = .error e w' :=
        map_of_error hrun
      rw [endState_of_error herr] at hread
      obtain ⟨new, hnew, hfreed, hcaught⟩ := (wp_error hrun).mp hspec
      rw [hnew, List.nil_append] at hread
      obtain ⟨hlevel, he⟩ := hcaught r hread
      rw [herr, he hmis]
      exact iff_of_true ⟨w', rfl, [], by rw [hfreed, List.append_nil], List.not_mem_nil⟩
        ⟨⟨handle, rfl⟩, hlevel⟩

end HandleTable

theorem Memory.silent (id : Nat) : Memory.access.Silent id where
  get x m := by
    refine wp_def.mpr ⟨fun _ _ _ => trivial, fun e m' h => ?_⟩
    cases hx : m.pages.lookup x <;> simp only [access, hx] at h <;> cases h
    exact nofun
  getMut x f m := by
    refine wp_def.mpr ⟨fun _ _ _ => trivial, fun e m' h => ?_⟩
    cases hx : m.pages.lookup x <;> simp only [access, hx] at h <;> cases h
    exact nofun
  alloc m := wp_def.mpr ⟨fun _ _ _ => trivial, fun e m' h => by cases h⟩

/-- A data page where the superblock says that the root of the handle table is. -/
def spliced : Walk Memory := ⟨⟨[(2, DataPage.initPage (List.replicate pageSize 0))], 3⟩, [], []⟩

namespace HandleTable

/-- In a table of one level more, a lookup finds out about the data page. -/
theorem misfit_refused_iff_spliced : ∃ w',
    run Memory.access 1 2 (.lookup 1) spliced = .error (.corruptPage 2) w' ∧ 2 ∉ w'.freed := by
  have hend : (match (endState (run Memory.access 1 2 (.lookup 1)) spliced).read with
      | [r] => r.id == 2 && r.level == 1 && !bytes.fits r.level r.buf
      | _ => false) = true := by decide +kernel
  split at hend
  · next r hread =>
    simp only [Bool.and_eq_true, beq_iff_eq, Bool.not_eq_true'] at hend
    obtain ⟨⟨hid, hlevel⟩, hfits⟩ := hend
    have hmem : r ∈ (endState (run Memory.access 1 2 (.lookup 1)) spliced).read := by
      rw [hread]
      exact List.mem_singleton_self r
    obtain ⟨w', hrun, gone, hfreed, hgone⟩ := (misfit_refused_iff Memory.access (.lookup 1) 1 2
      spliced.pages [] (Memory.silent r.id) hmem (by rw [RadixBytes.Fits, hfits]; exact nofun)).mpr
      ⟨⟨1, rfl⟩, by omega⟩
    rw [hid] at hrun hgone
    exact ⟨w', hrun, by rwa [hfreed]⟩
  · cases hend

/-- An insertion takes the data page for a leaf: it copies it, writes an entry over the copy and
queues the data page for reuse. -/
theorem data_page_taken_for_leaf : ∃ w',
    run Memory.access 0 2 (.insert 1 ⟨9, 0, .live, 0, 0⟩) spliced = .ok .done w' ∧ w'.freed = [2] ∧
      ∃ r ∈ w'.read, r.id = 2 ∧ ¬ bytes.Fits r := by
  have hend : gives (insert Memory.access bytes 0 2 1 ⟨9, 0, .live, 0, 0⟩) (fun _ w' =>
      w'.freed == [2] && w'.read.any fun r => r.id == 2 && !bytes.fits r.level r.buf) spliced =
        true := by
    decide +kernel
  obtain ⟨a, w', hrun, hend⟩ := exists_of_gives hend
  simp only [Bool.and_eq_true, List.any_eq_true, beq_iff_eq, Bool.not_eq_true'] at hend
  obtain ⟨hfreed, r, hr, hid, hmis⟩ := hend
  exact ⟨w', map_of_ok hrun, hfreed, r, hr, hid, by rw [RadixBytes.Fits, hmis]; simp⟩

end HandleTable

end Raw

end Chisel
