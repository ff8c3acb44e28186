import Chisel.CacheSteps
import Chisel.HandleTable
import Chisel.Values

/-! What holds of the cache whatever is done with it. The trees, the allocator and the values reach
the pages only through the operations of the cache, so a relation that each of those respects is
respected by every program over pages. -/

namespace Chisel

open StateError PageCache

/-- A relation that every access to a page respects: `R` when it succeeds, `F` when it fails. A
program may raise a hard error of its own. -/
class CacheLaw (R : PageCache → PageCache → Prop)
    (F : ChiselError → PageCache → PageCache → Prop) : Prop extends Composes R F where
  raise : ∀ {e c}, e.isHard = true → F e c c
  fetch : ∀ id, Stays R F (fetch id)
  getMut : ∀ id f, Stays R F (getMut id f)
  getMutDeferredStamp : ∀ id f, Stays R F (getMutDeferredStamp id f)
  newPage : Stays R F newPage
  reissuePage : ∀ id, Stays R F (reissuePage id)

variable {R : PageCache → PageCache → Prop} {F : ChiselError → PageCache → PageCache → Prop}

/-- The relation holds between the caches of two allocation states. -/
abbrev Allocs {α : Type} (R : PageCache → PageCache → Prop)
    (F : ChiselError → PageCache → PageCache → Prop) (x : AllocM α) : Prop :=
  Stays (InvImage R AllocCtx.cache) (fun e => InvImage (F e) AllocCtx.cache) x

theorem stays_onCache {α : Type} {x : CacheM α} (hx : Stays R F x) : Allocs R F (onCache x) :=
  stays_zoom (fun _ _ => rfl) hx

variable [CacheLaw R F]

open CacheLaw

theorem stays_getBuf (id : Nat) : Stays R F (getBuf id) :=
  stays_bind (fetch id) fun _ => stays_pure _

theorem stays_getPage (id : Nat) : Stays R F (getPage id) :=
  stays_bind (fetch id) fun _ => stays_pure _

theorem stays_writeStamped (id : Nat) (p : Page) : Stays R F (writeStamped id p) :=
  CacheLaw.getMut id _

theorem stays_copyPage (src dst : Nat) : Stays R F (copyPage src dst) :=
  stays_bind (stays_getBuf src) fun _ => CacheLaw.getMut dst _

/-! ### Free map -/

theorem stays_frame {g : AllocCtx → AllocCtx} (h : ∀ s, (g s).cache = s.cache) :
    Allocs R F (modify g) :=
  stays_modify fun s => show R s.cache (g s).cache from h s ▸ Composes.refl F _

theorem stays_structuralExtend : Allocs R F structuralExtend := by
  intro s
  rw [structuralExtend, wp_bind, wp_get]
  split
  · -- the list of pages is no part of the cache
    rw [wp_bind, wp_set]
    exact stays_bind (stays_onCache (CacheLaw.reissuePage _)) (fun _ => stays_pure _)
      { s with structuralReuse := s.structuralReuse.dropLast }
  · exact stays_onCache CacheLaw.newPage s

namespace FreeMapTree

theorem stays_getLeaf (id : Nat) : Stays R F (FreeMapTree.getLeaf id) := by
  refine stays_bind (stays_getPage id) fun p => ?_
  split
  · exact stays_pure _
  · exact stays_throw fun _ => raise R rfl

theorem stays_getInterior (id : Nat) : Stays R F (FreeMapTree.getInterior id) := by
  refine stays_bind (stays_getPage id) fun p => ?_
  split
  · exact stays_pure _
  · exact stays_throw fun _ => raise R rfl

theorem stays_checkDepth (t : FreeMapTree) : Stays R F t.checkDepth :=
  stays_ite (stays_throw fun _ => raise R rfl) (stays_pure _)

theorem stays_own (id : Nat) : Allocs R F (FreeMapTree.own id) := stays_frame fun _ => rfl

theorem stays_initNode {id level : Nat} : Allocs R F (onCache (writeStamped id (initNode level))) :=
  stays_onCache (stays_writeStamped _ _)

theorem stays_createKeeping : Allocs R F FreeMapTree.createKeeping :=
  stays_bind stays_get fun _ => stays_bind (stays_frame fun _ => rfl) fun _ => stays_bind
    (stays_bind stays_structuralExtend fun _ =>
      stays_bind stays_initNode fun _ => stays_frame fun _ => rfl)
    fun _ => stays_frame fun _ => rfl

theorem stays_grow : Allocs R F FreeMapTree.grow :=
  stays_bind stays_get fun _ => stays_ite (stays_pure _) (stays_bind stays_structuralExtend fun _ =>
    stays_bind (stays_onCache (stays_writeStamped _ _)) fun _ => stays_bind (stays_own _) fun _ =>
      stays_frame fun _ => rfl)

theorem stays_cowNode (id level : Nat) : Allocs R F (FreeMapTree.cowNode id level) := by
  refine stays_bind stays_get fun _ => stays_ite (stays_pure _) ?_
  refine stays_bind (stays_onCache (stays_getPage id)) fun p =>
    stays_ite (stays_throw_bind fun _ => raise R rfl) ?_
  exact stays_bind stays_structuralExtend fun _ => stays_bind (stays_onCache (stays_copyPage _ _))
    fun _ => stays_bind (stays_own _) fun _ =>
      stays_bind (stays_frame fun _ => rfl) fun _ => stays_pure _

theorem stays_ownChild (child level : Nat) : Allocs R F (FreeMapTree.ownChild child level) :=
  stays_ite (stays_bind stays_structuralExtend fun _ => stays_bind stays_initNode fun _ =>
    stays_bind (stays_own _) fun _ => stays_pure _) (stays_cowNode child level)

theorem stays_cowDescendFrom (leafOp : (Nat → Bool) → Nat → Nat → Bool) (level current k : Nat) :
    Allocs R F (FreeMapTree.cowDescendFrom leafOp level current k) := by
  induction level generalizing current k with
  | zero =>
    exact stays_bind (stays_onCache (CacheLaw.getMut _ _)) fun _ =>
      stays_bind (stays_onCache (stays_getLeaf _)) fun _ => stays_onCache (stays_writeStamped _ _)
  | succ level ih =>
    refine stays_ite (stays_throw_bind fun _ => raise R rfl) ?_
    exact stays_bind (stays_onCache (stays_getInterior _)) fun _ => stays_bind (stays_ownChild _ _)
      fun _ => stays_bind (stays_onCache (CacheLaw.getMut _ _)) fun _ => ih _ _

theorem stays_cowDescend (leafOp : (Nat → Bool) → Nat → Nat → Bool) (id : Nat) :
    Allocs R F (FreeMapTree.cowDescend leafOp id) :=
  stays_bind stays_get fun _ => stays_bind (stays_onCache (stays_checkDepth _)) fun _ =>
    stays_ite (stays_throw_bind fun _ => raise R rfl)
    (stays_bind (stays_cowNode _ _) fun _ => stays_bind (stays_frame fun _ => rfl) fun _ =>
      stays_cowDescendFrom _ _ _ _)

theorem stays_growTo (id rounds : Nat) : Allocs R F (FreeMapTree.growTo id rounds) := by
  induction rounds with
  | zero => exact stays_pure _
  | succ rounds ih =>
    exact stays_bind stays_get fun _ => stays_ite (stays_bind stays_grow fun _ => ih) (stays_pure _)

theorem stays_markFreeGrowing (id : Nat) : Allocs R F (FreeMapTree.markFreeGrowing id) :=
  stays_bind stays_get fun _ => stays_bind (stays_onCache (stays_checkDepth _)) fun _ =>
    stays_bind (stays_growTo id _) fun _ => stays_cowDescend _ id

theorem stays_scanNode (lo level page base : Nat) :
    Stays R F (FreeMapTree.scanNode lo level page base) := by
  induction level generalizing page base with
  | zero => exact stays_bind (stays_getLeaf page) fun _ => stays_pure _
  | succ level ih =>
    exact stays_bind (stays_getInterior page) fun _ => stays_findSomeM? fun _ =>
      stays_ite (stays_pure _) (ih _ _)

theorem stays_allocateFirst : Allocs R F FreeMapTree.allocateFirst := by
  refine stays_bind stays_get fun s => stays_bind (stays_onCache
    (stays_bind (stays_checkDepth _) fun _ => stays_scanNode _ _ _ _)) fun r => ?_
  split
  · exact stays_pure _
  · exact stays_bind (stays_cowDescend _ _) fun _ =>
      stays_bind (stays_frame fun _ => rfl) fun _ => stays_pure _

theorem stays_findLeafFrom (level current k : Nat) :
    Stays R F (FreeMapTree.findLeafFrom level current k) := by
  induction level generalizing current k with
  | zero => exact stays_bind (stays_getLeaf _) fun _ => stays_pure _
  | succ level ih =>
    exact stays_bind (stays_getInterior _) fun _ =>
      stays_ite (stays_pure _) (stays_ite (stays_pure _) (ih _ _))

theorem stays_isFree (t : FreeMapTree) (id : Nat) : Stays R F (t.isFree id) := by
  refine stays_bind (stays_checkDepth t) fun _ => stays_ite (stays_pure _) ?_
  refine stays_bind (stays_findLeafFrom _ _ _) fun r => ?_
  split
  · exact stays_pure _
  · exact stays_bind (stays_getLeaf _) fun _ => stays_pure _

theorem stays_reachablePages (t : FreeMapTree) : Stays R F t.reachablePages := by
  have hcollect : ∀ level page, Stays R F (FreeMapTree.collectReachable level page) := by
    intro level
    induction level with
    | zero => exact fun page => stays_bind (stays_getLeaf page) fun _ => stays_pure _
    | succ level ih =>
      exact fun page => stays_bind (stays_getInterior page) fun _ =>
        stays_foldlM (fun _ _ => stays_bind (ih _) fun _ => stays_pure _) _
  exact stays_bind (stays_checkDepth t) fun _ => stays_ite (stays_pure _) (hcollect _ _)

end FreeMapTree

/-! ### Allocation -/

theorem stays_cowAlloc (r : Bool) : Allocs R F (cowAlloc r) := by
  have hrecord : ∀ id, Allocs R F (recordAllocated id) := fun id =>
    stays_bind (stays_frame fun _ => rfl) fun _ => stays_pure _
  have hdraw : Allocs R F drawRecyclable := by
    refine stays_bind stays_get fun s => ?_
    split
    · exact stays_pure _
    · exact stays_bind (stays_onCache (CacheLaw.reissuePage _)) fun _ =>
        stays_bind (stays_frame fun _ => rfl) fun _ => stays_pure _
  have hreuse : Allocs R F reuseAlloc := by
    refine stays_bind hdraw fun o => ?_
    split
    · exact stays_pure _
    · refine stays_bind stays_get fun s => stays_ite (stays_pure _) ?_
      refine stays_bind FreeMapTree.stays_allocateFirst fun o => ?_
      split
      · exact stays_pure _
      · exact stays_bind (stays_onCache (CacheLaw.reissuePage _)) fun _ => stays_pure _
  refine stays_bind (stays_ite hreuse (stays_pure _)) fun o => ?_
  split
  · exact hrecord _
  · exact stays_bind (stays_onCache CacheLaw.newPage) fun _ => hrecord _

/-! ### Radix trees -/

namespace RadixLayout

variable {V : Type} (L : RadixLayout V) {alloc : AllocM Nat}

theorem isHard_misfit (id : Nat) : (L.misfit id).isHard = true := by
  unfold misfit
  split <;> rfl

theorem stays_getLeaf (id : Nat) : Stays R F (L.getLeaf id) := by
  refine stays_bind (stays_getPage id) fun p => ?_
  split
  · exact stays_pure _
  · exact stays_throw fun _ => raise R (L.isHard_misfit id)

theorem stays_interiorOr {err : ChiselError} (h : err.isHard = true) (id : Nat) :
    Stays R F (L.interiorOr err id) := by
  refine stays_bind (stays_getPage id) fun p => ?_
  split
  · exact stays_pure _
  · exact stays_throw fun _ => raise R h

theorem stays_getInterior (id : Nat) : Stays R F (L.getInterior id) :=
  L.stays_interiorOr (L.isHard_misfit id) id

theorem stays_checkFirst (level id : Nat) : Allocs R F (L.checkFirst level id) := by
  refine stays_ite (stays_onCache ?_) (stays_pure _)
  cases level with
  | zero => exact stays_map (L.stays_getLeaf id)
  | succ level => exact stays_map (L.stays_getInterior id)

theorem stays_initPage (level : Nat) (ha : Allocs R F alloc) :
    Allocs R F (L.initPage level alloc) :=
  stays_bind ha fun _ => stays_bind (stays_onCache (stays_writeStamped _ _)) fun _ => stays_pure _

theorem stays_rootOr (missing root depth : Nat) (ha : Allocs R F alloc) :
    Allocs R F (L.rootOr alloc missing root depth) :=
  stays_ite (stays_bind (L.stays_initPage 0 ha) fun _ => stays_pure _) (stays_pure _)

theorem stays_childOr (level child : Nat) (ha : Allocs R F alloc) :
    Allocs R F (L.childOr alloc level child) :=
  stays_ite (L.stays_initPage level ha) (stays_pure _)

theorem stays_findLeafFrom (level current k : Nat) :
    Stays R F (L.findLeafFrom level current k) := by
  induction level generalizing current k with
  | zero => exact stays_pure _
  | succ level ih =>
    exact stays_ite (stays_pure _) (stays_bind (L.stays_interiorOr rfl _) fun _ =>
      stays_ite (stays_pure _) (ih _ _))

theorem stays_lookup (depth root k : Nat) : Stays R F (L.lookup depth root k) := by
  refine stays_ite (stays_pure _) (stays_ite (stays_pure _) ?_)
  refine stays_bind (L.stays_findLeafFrom depth root k) fun r => ?_
  split
  · exact stays_pure _
  · exact stays_bind (L.stays_getLeaf _) fun _ => stays_pure _

theorem stays_growTo (k rounds depth root : Nat) (ha : Allocs R F alloc) :
    Allocs R F (L.growTo alloc k rounds depth root) := by
  induction rounds generalizing depth root with
  | zero => exact stays_pure _
  | succ rounds ih =>
    have hgrow : Allocs R F (L.grow alloc root) := stays_bind ha fun _ =>
      stays_bind (stays_onCache (stays_writeStamped _ _)) fun _ => stays_pure _
    exact stays_ite (stays_bind hgrow fun _ => ih _ _) (stays_pure _)

theorem stays_insertRecursive (v : V) (level page k : Nat) (ha : Allocs R F alloc) :
    Allocs R F (L.insertRecursive alloc v level page k) := by
  induction level generalizing page k with
  | zero =>
    exact stays_bind (L.stays_checkFirst _ _) fun _ => stays_bind ha fun _ =>
      stays_bind (stays_onCache (stays_copyPage _ _)) fun _ =>
      stays_bind (stays_onCache (L.stays_getLeaf _)) fun _ =>
      stays_bind (stays_onCache (stays_writeStamped _ _)) fun _ => stays_pure _
  | succ level ih =>
    exact stays_bind (L.stays_checkFirst _ _) fun _ => stays_bind ha fun _ =>
      stays_bind (stays_onCache (stays_copyPage _ _)) fun _ =>
      stays_bind (stays_onCache (L.stays_getInterior _)) fun _ =>
      stays_bind (L.stays_childOr _ _ ha) fun _ => stays_bind (ih _ _) fun _ =>
      stays_bind (stays_onCache (CacheLaw.getMut _ _)) fun _ => stays_pure _

theorem stays_insert (depth root k : Nat) (v : V) (ha : Allocs R F alloc) :
    Allocs R F (L.insert alloc depth root k v) :=
  stays_bind (L.stays_growTo _ _ _ _ ha) fun _ =>
    stays_bind (L.stays_insertRecursive _ _ _ _ ha) fun _ => stays_pure _

theorem stays_deleteRecursive (level page k : Nat) (ha : Allocs R F alloc) :
    Allocs R F (L.deleteRecursive alloc level page k) := by
  induction level generalizing page k with
  | zero =>
    exact stays_bind (stays_onCache (L.stays_getLeaf _)) fun _ => stays_ite (stays_pure _)
      (stays_bind ha fun _ => stays_bind (stays_onCache (stays_copyPage _ _)) fun _ =>
      stays_bind (stays_onCache (L.stays_getLeaf _)) fun _ =>
      stays_bind (stays_onCache (stays_writeStamped _ _)) fun _ => stays_pure _)
  | succ level ih =>
    refine stays_bind (stays_onCache (L.stays_getInterior _)) fun _ => stays_ite (stays_pure _) ?_
    refine stays_bind (ih _ _) fun r => ?_
    dsimp only
    split
    · exact stays_pure _
    · exact stays_bind ha fun _ => stays_bind (stays_onCache (stays_copyPage _ _)) fun _ =>
        stays_bind (stays_onCache (CacheLaw.getMut _ _)) fun _ => stays_pure _

theorem stays_delete (depth root k : Nat) (ha : Allocs R F alloc) :
    Allocs R F (L.delete alloc depth root k) :=
  stays_ite (stays_pure _) (stays_ite (stays_pure _) (L.stays_deleteRecursive _ _ _ ha))

theorem stays_anyPresent (depth root : Nat) : Stays R F (L.anyPresent depth root) := by
  refine stays_ite (stays_pure _) ?_
  induction depth generalizing root with
  | zero => exact stays_bind (L.stays_getLeaf _) fun _ => stays_pure _
  | succ depth ih => exact stays_bind (L.stays_getInterior _) fun _ => stays_anyM fun _ => ih _

theorem stays_freeSubtree (depth root : Nat) : Stays R F (L.freeSubtree depth root) := by
  refine stays_ite (stays_pure _) ?_
  induction depth generalizing root with
  | zero => exact stays_bind (L.stays_getLeaf _) fun _ => stays_pure _
  | succ depth ih =>
    exact stays_bind (L.stays_getInterior _) fun _ => stays_bind
      (stays_foldlM (fun _ _ => stays_bind (ih _) fun _ => stays_pure _) _) fun _ => stays_pure _

theorem stays_iter (depth root : Nat) : Stays R F (L.iter depth root) := by
  have hrec : ∀ level page base, Stays R F (L.iterRecursive level page base) := by
    intro level
    induction level with
    | zero => exact fun page _ => stays_bind (L.stays_getLeaf page) fun _ => stays_pure _
    | succ level ih =>
      exact fun page _ => stays_bind (L.stays_getInterior page) fun _ =>
        stays_foldlM (fun _ _ => stays_bind (ih _ _) fun _ => stays_pure _) _
  exact stays_ite (stays_pure _) (hrec _ _ _)

theorem stays_iterBounded (depth root limit : Nat) :
    Stays R F (L.iterBounded depth root limit) := by
  have hrec : ∀ level page base out,
      Stays R F (L.iterBoundedRecursive limit level page base out) := by
    intro level
    induction level with
    | zero =>
      exact fun page _ _ => stays_ite (stays_pure _)
        (stays_bind (L.stays_getLeaf page) fun _ => stays_pure _)
    | succ level ih =>
      exact fun page _ _ => stays_ite (stays_pure _) (stays_bind (L.stays_getInterior page) fun _ =>
        stays_foldlM (fun _ _ => stays_ite (stays_pure _) (ih _ _ _)) _)
  exact stays_ite (stays_pure _) (hrec _ _ _ _)

theorem stays_recoverDepth (root : Nat) : Stays R F (L.recoverDepth root) := by
  have hrec : ∀ rounds depth current, Stays R F (L.recoverDepthFrom rounds depth current) := by
    intro rounds
    induction rounds with
    | zero => exact fun _ _ => stays_pure _
    | succ rounds ih =>
      intro depth current
      refine stays_bind (stays_getPage _) fun p => ?_
      split
      · exact stays_pure _
      · exact stays_ite (stays_throw_bind fun _ => raise R rfl) (stays_ite (stays_pure _) (ih _ _))
  exact stays_ite (stays_pure _) (hrec _ _ _)

end RadixLayout

namespace HandleTable

theorem stays_createRoot : Stays R F HandleTable.createRoot :=
  stays_bind CacheLaw.newPage fun _ => stays_bind (stays_writeStamped _ _) fun _ => stays_pure _

theorem stays_lookup (depth root handle : Nat) : Stays R F (HandleTable.lookup depth root handle) :=
  stays_bind (handleLayout.stays_lookup _ _ _) fun _ => stays_pure _

end HandleTable

namespace MembershipIndex

variable {alloc : AllocM Nat}

theorem stays_innerOf (depth root tag : Nat) : Stays R F (MembershipIndex.innerOf depth root tag) :=
  stays_bind (radixU64.stays_lookup _ _ _) fun _ =>
    stays_ite (stays_throw_bind fun _ => raise R rfl) (stays_pure _)

theorem stays_packInner (root depth : Nat) :
    Allocs R F (MembershipIndex.liftExcept (MembershipIndex.packInner root depth)) := by
  unfold MembershipIndex.packInner
  split
  · exact stays_throw fun _ => raise R rfl
  · exact stays_pure _

theorem stays_insert (depth root tag handle : Nat) (ha : Allocs R F alloc) :
    Allocs R F (MembershipIndex.insert alloc depth root tag handle) :=
  stays_bind (radixU64.stays_rootOr _ _ _ ha) fun _ =>
    stays_bind (stays_onCache (stays_innerOf _ _ _)) fun _ =>
    stays_bind (radixU64.stays_rootOr _ _ _ ha) fun _ =>
    stays_bind (radixU64.stays_insert _ _ _ _ ha) fun _ => stays_bind (stays_packInner _ _) fun _ =>
    stays_bind (radixU64.stays_insert _ _ _ _ ha) fun _ => stays_pure _

theorem stays_remove (depth root tag handle : Nat) (ha : Allocs R F alloc) :
    Allocs R F (MembershipIndex.remove alloc depth root tag handle) := by
  refine stays_ite (stays_pure _) (stays_bind (stays_onCache (stays_innerOf _ _ _)) fun _ => ?_)
  refine stays_ite (stays_pure _) (stays_bind (radixU64.stays_delete _ _ _ ha) fun _ => ?_)
  dsimp only
  split
  · exact stays_pure _
  · refine stays_bind (stays_onCache (radixU64.stays_anyPresent _ _)) fun _ => stays_ite ?_ ?_
    · exact stays_bind (stays_packInner _ _) fun _ =>
        stays_bind (radixU64.stays_insert _ _ _ _ ha) fun _ => stays_pure _
    · exact stays_bind (stays_onCache (radixU64.stays_freeSubtree _ _)) fun _ =>
        stays_bind (radixU64.stays_delete _ _ _ ha) fun _ => stays_pure _

theorem stays_handlesForTag (depth root tag : Nat) :
    Stays R F (MembershipIndex.handlesForTag depth root tag) :=
  stays_ite (stays_pure _) (stays_bind (stays_innerOf _ _ _) fun _ =>
    stays_ite (stays_pure _) (stays_bind (radixU64.stays_iter _ _) fun _ => stays_pure _))

theorem stays_handlesForTagBounded (depth root tag limit : Nat) :
    Stays R F (MembershipIndex.handlesForTagBounded depth root tag limit) :=
  stays_ite (stays_pure _) (stays_bind (stays_innerOf _ _ _) fun _ =>
    stays_ite (stays_pure _) (stays_bind (radixU64.stays_iterBounded _ _ _) fun _ => stays_pure _))

end MembershipIndex

/-! ### Values -/

theorem stays_overflowWrite (value : Bytes) : Stays R F (Overflow.write value) := by
  have hnew : ∀ n, Stays R F (Overflow.newPages n) := by
    intro n
    induction n with
    | zero => exact stays_pure _
    | succ n ih => exact stays_bind CacheLaw.newPage fun _ => stays_bind ih fun _ => stays_pure _
  have hfill : ∀ ids total rest, Stays R F (Overflow.fillPages total ids rest) := by
    intro ids
    induction ids with
    | nil => exact fun _ _ => stays_pure _
    | cons id ids ih => exact fun _ _ => stays_bind (stays_writeStamped _ _) fun _ => ih _ _
  refine stays_bind (hnew _) fun ids => stays_bind (hfill _ _ _) fun _ => ?_
  split
  · exact stays_throw fun _ => raise R rfl
  · exact stays_pure _

theorem stays_chainLength (first : Nat) : Stays R F (Overflow.chainLength first) := by
  refine stays_bind (stays_getPage _) fun p => ?_
  split
  · exact stays_ite (stays_throw_bind fun _ => raise R rfl) (stays_bind stays_get fun _ =>
      stays_ite (stays_throw_bind fun _ => raise R rfl) (stays_pure _))
  · exact stays_throw fun _ => raise R rfl

theorem stays_collectChainPages (first : Nat) : Stays R F (Overflow.collectChainPages first) := by
  have hcollect : ∀ fuel current freed,
      Stays R F (Overflow.collectFrom first fuel current freed) := by
    intro fuel
    induction fuel with
    | zero => exact fun _ _ => stays_throw fun _ => raise R rfl
    | succ fuel ih =>
      intro current freed
      refine stays_bind (stays_getPage _) fun p => ?_
      split
      · exact stays_ite (stays_pure _) (ih _ _)
      · exact stays_throw fun _ => raise R rfl
  exact stays_bind (stays_chainLength _) fun _ => hcollect _ _ _

theorem stays_overflowRead (first : Nat) : Stays R F (Overflow.read first) := by
  have hread : ∀ total fuel current result,
      Stays R F (Overflow.readFrom first total fuel current result) := by
    intro total fuel
    induction fuel with
    | zero => exact fun _ _ => stays_throw fun _ => raise R rfl
    | succ fuel ih =>
      intro current result
      refine stays_bind (stays_getPage _) fun p => ?_
      split
      · refine stays_ite (stays_throw_bind fun _ => raise R rfl) (stays_ite ?_ (ih _ _))
        exact stays_ite (stays_pure _) (stays_throw fun _ => raise R rfl)
      · exact stays_throw fun _ => raise R rfl
  exact stays_bind (stays_chainLength _) fun _ => hread _ _ _ _

theorem stays_packerInsert (p : SlotPacker) (alloc : AllocM Nat) (packing : Bool) (value : Bytes)
    (ha : Allocs R F alloc) : Allocs R F (p.insert alloc packing value) := by
  have hcursor : ∀ o, Allocs R F (SlotPacker.insertAtCursor value o) := by
    intro o
    cases o with
    | none => exact stays_pure _
    | some cursor =>
      refine stays_bind (stays_onCache (stays_getPage _)) fun q => ?_
      split
      · split
        · exact stays_bind (stays_onCache (CacheLaw.getMutDeferredStamp _ _)) fun _ => stays_pure _
        · exact stays_bind (stays_onCache (CacheLaw.getMutDeferredStamp _ _)) fun _ => stays_pure _
      · exact stays_bind (stays_onCache (CacheLaw.getMutDeferredStamp _ _)) fun _ => stays_pure _
  refine stays_bind (hcursor _) fun o => ?_
  split
  · exact stays_pure _
  · refine stays_bind ha fun id => ?_
    split
    · exact stays_throw fun _ => raise R rfl
    · exact stays_bind (stays_onCache (stays_writeStamped _ _)) fun _ => stays_pure _

end Chisel
