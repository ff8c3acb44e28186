import Chisel.CacheLaw
import Chisel.KeyOps
import Chisel.TxnRun

/-! What holds of the cache of a handle whatever is asked of it. The transaction manager reaches the
file through its cache and through the superblock slots only; a relation that those respect is
respected by every operation of the public interface. -/

namespace Chisel

open StateError PageCache TransactionManager

/-- A relation that every access to the cache and to the `slots` superblock slots respects. A
refusal leaves the cache as it is, and only running out of memory is not recovered from. -/
class ManagerLaw (slots : Nat) (encrypted : Bool) (R : PageCache → PageCache → Prop)
    (F : ChiselError → PageCache → PageCache → Prop) : Prop extends CacheLaw R F where
  refuse : ∀ {e c}, F e c c
  recover : ∀ {e c c'}, e.isCapacity = false → F e c c' → R c c'
  discardAllDirty : Stays R F discardAllDirty
  truncate : ∀ n, Stays R F (PageCache.truncate n)
  flush : Stays R F flush
  fsync : Stays R F (onIo PageIo.fsync)
  writeSuperblock : ∀ sb : Superblock, sb.superblockCount = slots →
    sb.encryption.isSome = encrypted → Stays R F (writeSuperblock sb)
  scrubSlots : ∀ header written list, (∀ i ∈ list, i < slots) →
    Stays R F (scrubSlots header written list)

/-- The manager writes superblocks for `slots` slots, with or without a crypto header. -/
def Shaped (slots : Nat) (encrypted : Bool) (m : TransactionManager) : Prop :=
  m.superblockCount = slots ∧ m.cryptoHeader.isSome = encrypted

/-- The relation holds between the caches of two managers. -/
def CacheMoves (slots : Nat) (encrypted : Bool) (R : PageCache → PageCache → Prop)
    (m m' : TransactionManager) : Prop :=
  Shaped slots encrypted m → Shaped slots encrypted m' ∧ R m.cache m'.cache

/-- An operation of a manager moves its cache as the law says. -/
abbrev Manages {α : Type} (slots : Nat) (encrypted : Bool) (R : PageCache → PageCache → Prop)
    (F : ChiselError → PageCache → PageCache → Prop) (x : TxnM α) : Prop :=
  Stays (CacheMoves slots encrypted R) (fun e => CacheMoves slots encrypted (F e)) x

variable {slots : Nat} {encrypted : Bool} {R : PageCache → PageCache → Prop}
  {F : ChiselError → PageCache → PageCache → Prop}

instance [h : Composes R F] :
    Composes (CacheMoves slots encrypted R) (fun e => CacheMoves slots encrypted (F e)) where
  refl m hm := ⟨hm, h.refl m.cache⟩
  trans h1 h2 hm := ⟨(h2 (h1 hm).1).1, h.trans (h1 hm).2 (h2 (h1 hm).1).2⟩
  fail h1 h2 hm := ⟨(h2 (h1 hm).1).1, h.fail (h1 hm).2 (h2 (h1 hm).1).2⟩

section Rules

variable {α β : Type} {x : TxnM α}

theorem manages_withCache {y : CacheM α} (hy : Stays R F y) :
    Manages slots encrypted R F (withCache y) := fun m => by
  rw [wp_withCache]
  exact wp_mono (hy m.cache) (fun _ _ h hm => ⟨hm, h⟩) fun _ _ h hm => ⟨hm, h⟩

theorem manages_withTree {y : AllocM α} (hy : Allocs R F y) :
    Manages slots encrypted R F (withTree y) := fun m => by
  rw [wp_withTree]
  exact wp_mono (hy m.takeTree) (fun _ _ h hm => ⟨hm, h⟩) fun _ _ h hm => ⟨hm, h⟩

/-- Neither the cache nor what goes into a superblock's header changes. -/
def CacheAside (m m' : TransactionManager) : Prop :=
  m'.cache = m.cache ∧ m'.superblockCount = m.superblockCount ∧ m'.cryptoHeader = m.cryptoHeader

theorem CacheMoves.aside {Q : PageCache → PageCache → Prop} {m m' m'' : TransactionManager}
    (h : CacheMoves slots encrypted Q m m') (ha : CacheAside m' m'') :
    CacheMoves slots encrypted Q m m'' := by
  intro hm
  obtain ⟨hs, hq⟩ := h hm
  exact ⟨⟨ha.2.1.trans hs.1, by rw [ha.2.2]; exact hs.2⟩, by rw [ha.1]; exact hq⟩

theorem manages_onError {cleanup : TransactionManager → TransactionManager}
    (hx : Manages slots encrypted R F x) (hc : ∀ m, CacheAside m (cleanup m)) :
    Manages slots encrypted R F (onError x cleanup) :=
  stays_onError hx fun _ _ _ h => h.aside (hc _)

theorem manages_guarded [ManagerLaw slots encrypted R F] (hx : Manages slots encrypted R F x) :
    Manages slots encrypted R F (guarded x) := fun m => by
  refine wp_guarded (fun _ hm => ⟨hm, ManagerLaw.refuse slots encrypted R⟩) fun _ => ?_
  refine wp_mono (hx m) (fun _ _ h => h) fun e m' h => ?_
  split
  · exact h.aside ⟨rfl, rfl, rfl⟩
  · exact h

theorem manages_of_shaped (h : ∀ m, Shaped slots encrypted m →
    wp x m (fun _ => CacheMoves slots encrypted R m)
    (fun e => CacheMoves slots encrypted (F e) m)) :
    Manages slots encrypted R F x := fun m => by
  by_cases hm : Shaped slots encrypted m
  · exact h m hm
  · exact wp_mono wp_true (fun _ _ _ hs => absurd hs hm) fun _ _ _ hs => absurd hs hm

variable [ManagerLaw slots encrypted R F]

theorem manages_throw (e : ChiselError) : Manages slots encrypted R F (throw e : TxnM α) :=
  stays_throw fun _ hm => ⟨hm, ManagerLaw.refuse slots encrypted R⟩

theorem manages_throw_bind (e : ChiselError) {k : α → TxnM β} :
    Manages slots encrypted R F ((throw e : TxnM α) >>= k) :=
  stays_throw_bind fun _ hm => ⟨hm, ManagerLaw.refuse slots encrypted R⟩

theorem manages_modify {g : TransactionManager → TransactionManager} (h : ∀ m, CacheAside m (g m)) :
    Manages slots encrypted R F (modify g : TxnM PUnit) :=
  stays_modify fun m => CacheMoves.aside (Composes.refl
    (fun e => CacheMoves slots encrypted (F e)) m) (h m)

theorem manages_liftExcept (x : Except ChiselError α) :
    Manages slots encrypted R F (TransactionManager.liftExcept x) := by
  cases x with
  | ok a => exact stays_pure a
  | error e => exact manages_throw e

theorem manages_requireActive : Manages slots encrypted R F requireActive :=
  stays_bind stays_get fun _ => stays_ite (manages_throw _) (stays_pure _)

end Rules

/-! ### Operations -/

section Operations

variable [ManagerLaw slots encrypted R F]

theorem manages_recoverDepths : Manages slots encrypted R F recoverDepths :=
  stays_bind stays_get fun _ =>
    stays_bind (manages_withCache (radixU64.stays_recoverDepth _)) fun _ =>
    stays_bind (manages_modify fun _ => ⟨rfl, rfl, rfl⟩) fun _ => stays_bind stays_get fun _ =>
    stays_bind (manages_withCache (handleLayout.stays_recoverDepth _)) fun _ =>
    manages_modify fun _ => ⟨rfl, rfl, rfl⟩

theorem manages_begin : Manages slots encrypted R F begin := by
  refine manages_guarded fun m => ?_
  rw [beginInner, wp_bind, wp_get]
  refine wp_ite (fun _ => manages_throw_bind _ m) fun _ => ?_
  refine wp_ite (fun _ => manages_throw_bind _ m) fun _ => ?_
  exact (wp_set _).mpr fun hm => ⟨hm, Composes.refl F _⟩

theorem manages_rollback : Manages slots encrypted R F rollback :=
  manages_guarded (stays_bind manages_requireActive fun _ =>
    stays_bind (manages_withCache (ManagerLaw.discardAllDirty slots encrypted)) fun _ =>
    stays_bind stays_get fun _ =>
    stays_bind (manages_withCache (ManagerLaw.truncate slots encrypted _)) fun _ =>
    stays_bind (manages_modify fun _ => ⟨rfl, rfl, rfl⟩) fun _ =>
    stays_bind manages_recoverDepths fun _ => manages_modify fun _ => ⟨rfl, rfl, rfl⟩)

theorem manages_savepoint (name : String) : Manages slots encrypted R F (savepoint name) := by
  refine manages_guarded (stays_bind manages_requireActive fun _ m => ?_)
  rw [wp_bind, wp_get]
  refine wp_ite (fun _ => manages_throw_bind _ m) fun _ => ?_
  exact (wp_set _).mpr fun hm => ⟨hm, Composes.refl F _⟩

theorem manages_findSavepoint (name : String) :
    Manages slots encrypted R F (findSavepoint name) := by
  refine stays_bind stays_get fun m => ?_
  split
  · exact manages_throw _
  · split
    · exact manages_throw _
    · exact stays_pure _

theorem manages_rollbackTo (name : String) : Manages slots encrypted R F (rollbackTo name) :=
  manages_guarded (stays_bind manages_requireActive fun _ =>
    stays_bind (manages_findSavepoint name) fun _ =>
    stays_bind (manages_withCache (ManagerLaw.truncate slots encrypted _)) fun _ =>
    stays_bind (manages_modify fun _ => ⟨rfl, rfl, rfl⟩) fun _ =>
    stays_bind manages_recoverDepths fun _ => manages_modify fun _ => ⟨rfl, rfl, rfl⟩)

theorem manages_release (name : String) : Manages slots encrypted R F (release name) :=
  manages_guarded (stays_bind manages_requireActive fun _ =>
    stays_bind (manages_findSavepoint name) fun _ => manages_modify fun _ => ⟨rfl, rfl, rfl⟩)

/-! #### Reading -/

theorem manages_lookupLive (handle : Nat) : Manages slots encrypted R F (lookupLive handle) := by
  refine stays_bind stays_get fun m =>
    stays_bind (manages_withCache (HandleTable.stays_lookup _ _ _)) fun r => ?_
  split
  · exact stays_pure _
  · exact manages_throw _

theorem manages_read (handle : Nat) : Manages slots encrypted R F (read handle) := by
  refine manages_guarded (stays_bind (manages_lookupLive handle) fun entry => ?_)
  split
  · refine stays_bind (manages_withCache (stays_getPage _)) fun p => ?_
    split
    · exact stays_pure _
    · exact manages_throw _
  · exact manages_withCache (stays_overflowRead _)
  · exact manages_throw _

theorem manages_handles : Manages slots encrypted R F handles :=
  manages_guarded (stays_bind stays_get fun _ =>
    stays_bind (manages_withCache (handleLayout.stays_iter _ _)) fun _ => stays_pure _)

theorem manages_handlesWithTag (tag : Nat) : Manages slots encrypted R F (handlesWithTag tag) :=
  manages_guarded (stays_bind stays_get fun _ =>
    manages_withCache (MembershipIndex.stays_handlesForTag _ _ _))

/-! #### Staging -/

theorem cacheAside_retireSuperseded (freed : List Nat) (m m' : TransactionManager)
    (h : CacheAside m m') : CacheAside m (m'.retireSuperseded freed) := h

theorem cacheAside_releaseInline (inline : Option Nat) (m m' : TransactionManager)
    (h : CacheAside m m') : CacheAside m (m'.releaseInline inline) := by
  cases inline <;> exact h

theorem cacheAside_applyRelease (r : OldRelease) (m m' : TransactionManager)
    (h : CacheAside m m') : CacheAside m (m'.applyRelease r) := by
  cases r <;> exact h

theorem manages_storeValue (value : Bytes) (tag : Nat) (byte : UInt8) :
    Manages slots encrypted R F (storeValue value tag byte) :=
  stays_ite (stays_bind (manages_withCache (stays_overflowWrite value)) fun _ => stays_pure _)
    (stays_bind (stays_bind stays_get fun _ =>
      stays_bind (manages_withTree (stays_packerInsert _ _ _ _ (stays_cowAlloc _))) fun _ =>
      stays_bind (manages_modify fun _ => ⟨rfl, rfl, rfl⟩) fun _ => stays_pure _)
      fun _ => stays_pure _)

theorem manages_ensureHandleTable : Manages slots encrypted R F ensureHandleTable :=
  stays_bind stays_get fun _ => stays_ite
    (stays_bind (manages_withCache HandleTable.stays_createRoot) fun _ =>
      manages_modify fun _ => ⟨rfl, rfl, rfl⟩)
    (stays_pure _)

theorem manages_handleTableInsertCandidate (handle : Nat) (entry : HandleEntry) :
    Manages slots encrypted R F (handleTableInsertCandidate handle entry) :=
  stays_bind stays_get fun _ =>
    stays_bind (manages_withTree (handleLayout.stays_insert _ _ _ _ (stays_cowAlloc _))) fun _ =>
    stays_bind (manages_modify fun _ => ⟨rfl, rfl, rfl⟩) fun _ => stays_pure _

theorem manages_membershipInsertCandidate (tag handle : Nat) :
    Manages slots encrypted R F (membershipInsertCandidate tag handle) :=
  stays_bind stays_get fun _ =>
    stays_bind (manages_withTree (MembershipIndex.stays_insert _ _ _ _ (stays_cowAlloc _))) fun _ =>
    stays_bind (manages_modify fun _ => ⟨rfl, rfl, rfl⟩) fun _ => stays_pure _

theorem manages_membershipRemoveCandidate (tag handle : Nat) :
    Manages slots encrypted R F (membershipRemoveCandidate tag handle) :=
  stays_bind stays_get fun _ =>
    stays_bind (manages_withTree (MembershipIndex.stays_remove _ _ _ _ (stays_cowAlloc _))) fun _ =>
    stays_bind (manages_modify fun _ => ⟨rfl, rfl, rfl⟩) fun _ => stays_pure _

theorem manages_allocateInner (value : Bytes) (tag : Nat) :
    Manages slots encrypted R F (allocateInner value tag) := by
  refine stays_bind manages_requireActive fun _ => stays_bind stays_get fun _ =>
    stays_bind (manages_liftExcept _) fun _ => stays_bind (manages_storeValue _ _ _) fun r => ?_
  refine stays_bind stays_get fun saved => stays_bind manages_ensureHandleTable fun _ => ?_
  have habort : ∀ m, CacheAside m (abortAllocatePrepare saved.currentRoots.handleTablePage
      saved.htDepth r.2 m) := fun m => cacheAside_releaseInline _ _ _ ⟨rfl, rfl, rfl⟩
  refine stays_bind (manages_onError (manages_handleTableInsertCandidate _ _) habort) fun _ => ?_
  have hrest : ∀ (freed : List Nat) (g : TransactionManager → TransactionManager),
      (∀ m, CacheAside m (g m)) → Manages slots encrypted R F (modify fun m =>
        retireSuperseded freed (g m) : TxnM PUnit) :=
    fun freed g hg => manages_modify fun m => cacheAside_retireSuperseded freed m _ (hg m)
  refine stays_ite (stays_bind (stays_map (manages_onError
    (manages_membershipInsertCandidate _ _) habort)) fun o => ?_)
    (stays_bind (stays_pure _) fun o => ?_)
  all_goals
    refine stays_bind (hrest _ _ fun _ => ⟨rfl, rfl, rfl⟩) fun _ => ?_
    split
    · exact stays_pure _
    · exact stays_bind (hrest _ _ fun _ => ⟨rfl, rfl, rfl⟩) fun _ => stays_pure _

theorem manages_setClientByte (handle : Nat) (byte : UInt8) :
    Manages slots encrypted R F (setClientByte handle byte) :=
  manages_guarded (stays_bind manages_requireActive fun _ =>
    stays_bind (manages_lookupLive handle) fun _ =>
    stays_bind (manages_handleTableInsertCandidate _ _) fun _ =>
    manages_modify fun m => cacheAside_retireSuperseded _ m _ ⟨rfl, rfl, rfl⟩)

/-! #### Mutation -/

theorem manages_collectRelease (entry : HandleEntry) :
    Manages slots encrypted R F (collectRelease entry) := by
  unfold collectRelease
  split
  · exact stays_pure _
  · exact stays_bind (manages_withCache (stays_collectChainPages _)) fun _ => stays_pure _
  · exact manages_throw _

theorem manages_update (handle : Nat) (value : Bytes) :
    Manages slots encrypted R F (update handle value) := by
  refine manages_guarded (stays_bind manages_requireActive fun _ =>
    stays_bind (manages_lookupLive handle) fun _ => stays_bind (manages_storeValue _ _ _) fun r =>
    stays_bind stays_get fun saved => ?_)
  refine stays_bind (manages_onError (manages_handleTableInsertCandidate _ _)
    fun m => cacheAside_releaseInline _ m m ⟨rfl, rfl, rfl⟩) fun _ => ?_
  refine stays_bind (manages_onError (manages_collectRelease _) fun m =>
    cacheAside_releaseInline r.2 m m ⟨rfl, rfl, rfl⟩) fun _ => ?_
  exact manages_modify fun m => cacheAside_applyRelease _ m _ ⟨rfl, rfl, rfl⟩

theorem manages_deleteInner (handle : Nat) :
    Manages slots encrypted R F (deleteInner handle) := by
  refine stays_bind manages_requireActive fun _ => stays_bind stays_get fun _ =>
    stays_bind (manages_withTree (handleLayout.stays_delete _ _ _ (stays_cowAlloc _))) fun r => ?_
  dsimp only
  split
  · exact manages_throw _
  · refine stays_bind (manages_collectRelease _) fun old => ?_
    refine stays_ite (stays_bind (stays_map (manages_membershipRemoveCandidate _ _)) fun o => ?_)
      (stays_bind (stays_pure _) fun o => ?_)
    all_goals
      refine stays_bind (manages_modify fun m => cacheAside_applyRelease _ m _ ⟨rfl, rfl, rfl⟩)
        fun _ => ?_
      split
      · exact stays_pure _
      · exact manages_modify fun m => cacheAside_retireSuperseded _ m _ ⟨rfl, rfl, rfl⟩

theorem manages_deleteTagged (handle tag : Nat) :
    Manages slots encrypted R F (deleteTagged handle tag) :=
  manages_guarded (stays_bind manages_requireActive fun _ =>
    stays_bind (manages_lookupLive handle) fun _ =>
    stays_ite (manages_throw_bind _) (manages_deleteInner handle))

theorem manages_deleteWithTag (tag max : Nat) :
    Manages slots encrypted R F (deleteWithTag tag max) :=
  manages_guarded (stays_bind manages_requireActive fun _ => stays_ite (stays_pure _)
    (stays_bind stays_get fun _ =>
      stays_bind (manages_withCache (MembershipIndex.stays_handlesForTagBounded _ _ _ _)) fun _ =>
      stays_bind (stays_forM manages_deleteInner) fun _ => stays_pure _))

theorem manages_deleteMany (handles : List Nat) :
    Manages slots encrypted R F (deleteMany handles) :=
  manages_guarded (stays_bind manages_requireActive fun _ => stays_forM manages_deleteInner)

/-! #### Named roots -/

theorem manages_setRootName (name : Bytes) (handle : Nat) :
    Manages slots encrypted R F (setRootName name handle) := by
  refine manages_guarded (stays_bind manages_requireActive fun _ =>
    stays_bind (manages_liftExcept _) fun _ => stays_bind stays_get fun _ => ?_)
  dsimp only
  split
  · exact manages_modify fun _ => ⟨rfl, rfl, rfl⟩
  · exact manages_throw _

theorem manages_clearRootName (name : Bytes) :
    Manages slots encrypted R F (clearRootName name) := by
  refine manages_guarded (stays_bind manages_requireActive fun _ =>
    stays_bind (manages_liftExcept _) fun _ => stays_bind stays_get fun _ => ?_)
  dsimp only
  split
  · exact manages_modify fun _ => ⟨rfl, rfl, rfl⟩
  · exact stays_pure _

/-! #### Commit -/

theorem manages_markFreeCommittedPath (id : Nat) :
    Manages slots encrypted R F (markFreeCommittedPath id) := by
  refine stays_finally' (manages_withTree (stays_bind stays_get fun _ => ?_))
    (fun _ _ h => h.aside ⟨rfl, rfl, rfl⟩) fun _ _ _ h => h.aside ⟨rfl, rfl, rfl⟩
  exact stays_ite (stays_bind FreeMapTree.stays_createKeeping fun _ =>
    FreeMapTree.stays_markFreeGrowing id) (FreeMapTree.stays_markFreeGrowing id)

theorem manages_writeSuperblock {roots : Roots} {totalPages counter : Nat}
    {header : Option CryptoHeader} {m : TransactionManager} (hs : Shaped slots encrypted m)
    (hh : header.isSome = encrypted) :
    wp (withCache (writeSuperblock
        (buildSuperblock roots totalPages counter m.superblockCount header))) m
      (fun _ => CacheMoves slots encrypted R m) (fun e => CacheMoves slots encrypted (F e) m) :=
  manages_withCache (ManagerLaw.writeSuperblock _ hs.1 hh) m

theorem manages_runCommit : Manages slots encrypted R F runCommit := by
  have hflush : Manages slots encrypted R F (withCache PageCache.flush) :=
    manages_withCache (ManagerLaw.flush slots encrypted)
  refine stays_bind stays_get fun _ => stays_bind (manages_liftExcept _) fun counter =>
    stays_bind (manages_modify fun _ => ⟨rfl, rfl, rfl⟩) fun _ => stays_bind hflush fun _ =>
    stays_bind stays_get fun _ => stays_bind (stays_forM manages_markFreeCommittedPath) fun _ =>
    stays_bind hflush fun _ => stays_bind (manages_modify fun _ => ⟨rfl, rfl, rfl⟩) fun _ => ?_
  refine manages_of_shaped fun m hm => ?_
  rw [wp_bind, wp_get]
  exact wp_stays_bind (manages_writeSuperblock hm hm.2) fun _ =>
    manages_modify fun _ => ⟨rfl, rfl, rfl⟩

theorem manages_commit : Manages slots encrypted R F commit :=
  stays_bind stays_get fun _ => stays_ite (manages_throw_bind _) (stays_ite (manages_throw_bind _)
    (manages_onError manages_runCommit fun _ => ⟨rfl, rfl, rfl⟩))

/-! #### Keys -/

theorem manages_rewriteCryptoHeaderInner (header : CryptoHeader) (henc : encrypted = true) :
    Manages slots encrypted R F (rewriteCryptoHeaderInner header) := by
  refine stays_bind (manages_withCache (ManagerLaw.flush slots encrypted)) fun _ =>
    stays_bind stays_get fun _ => stays_bind (manages_liftExcept _) fun counter =>
    stays_bind (manages_modify fun _ => ⟨rfl, rfl, rfl⟩) fun _ => manages_of_shaped fun m hm => ?_
  rw [wp_bind, wp_get]
  refine wp_stays_bind (manages_writeSuperblock hm (by rw [henc]; rfl)) fun _ => ?_
  have hlist : ∀ i ∈ List.range m.superblockCount, i < slots := fun i hi =>
    hm.1 ▸ List.mem_range.mp hi
  exact stays_bind (manages_withCache (ManagerLaw.scrubSlots encrypted _ _ _ hlist)) fun _ =>
    stays_bind (manages_withCache (ManagerLaw.fsync slots encrypted)) fun _ =>
    stays_modify fun m hm => ⟨⟨hm.1, henc.symm⟩, Composes.refl F _⟩

theorem manages_rewriteCryptoHeader (header : CryptoHeader) (henc : encrypted = true) :
    Manages slots encrypted R F (rewriteCryptoHeader header) :=
  stays_bind stays_get fun _ => stays_ite (manages_throw_bind _) (stays_ite (manages_throw_bind _)
    (stays_ite (manages_throw_bind _) (stays_ite (manages_throw_bind _)
      (manages_onError (manages_rewriteCryptoHeaderInner header henc) fun _ => ⟨rfl, rfl, rfl⟩))))

theorem wp_keyHeader (m : TransactionManager) :
    wp keyHeader m (fun header m' => m' = m ∧ m.cryptoHeader = some header)
    (fun _ m' => m' = m) := by
  cases hp : m.poisoned with
  | true => exact (wp_error (keyHeader_of_poisoned hp)).mpr rfl
  | false =>
    cases hh : m.cryptoHeader with
    | none => exact (wp_error (keyHeader_of_none hp hh)).mpr rfl
    | some header => exact (wp_ok (keyHeader_of_some hp hh)).mpr ⟨rfl, rfl⟩

theorem manages_keyOp (k : KeyOp) : Manages slots encrypted R F k.run := by
  rw [k.run_eq_bind]
  refine manages_of_shaped fun m hm => ?_
  rw [wp_bind]
  refine wp_mono (wp_keyHeader m) ?_ ?_
  · rintro header _ ⟨rfl, hh⟩
    have henc : encrypted = true := by
      rw [← hm.2, hh]
      rfl
    exact stays_bind (manages_liftExcept _) (fun header' =>
      manages_rewriteCryptoHeader header' henc) _
  · rintro e _ rfl
    exact fun hm => ⟨hm, ManagerLaw.refuse slots encrypted R⟩

/-! #### Defragmentation -/

theorem stays_findOrphans (slots : Nat) (encrypted : Bool) [ManagerLaw slots encrypted R F]
    (tree : FreeMapTree) (reachable excluded ids : List Nat) :
    Stays R F (findOrphans tree reachable excluded ids) := by
  induction ids with
  | nil => exact stays_pure _
  | cons id rest ih =>
    refine stays_ite ih fun c => ?_
    rw [wp_bind, wp_attempt]
    have hget : Stays R F (getPage id) := stays_getPage id
    refine wp_mono (hget c) (fun p c' hR => ?_) fun e c' hF => ?_
    · have hrest : ∀ isOrphan : Bool, Stays R F (do
          let orphans ← findOrphans tree reachable excluded rest
          return if isOrphan then id :: orphans else orphans) :=
        fun _ => stays_bind ih fun _ => stays_pure _
      exact wp_mono (stays_ite (stays_bind (stays_map (FreeMapTree.stays_isFree tree id)) hrest)
        (stays_bind (stays_pure _) hrest) c') (fun _ _ h => Composes.trans F hR h)
        fun _ _ h => Composes.fail hR h
    · -- only a page that cannot be read is passed over
      have hpass : e.isCapacity = false → wp (findOrphans tree reachable excluded rest) c'
          (fun _ => R c) (fun e => F e c) := by
        intro he
        have hR : R c c' := ManagerLaw.recover slots encrypted he hF
        exact wp_mono (ih c') (fun _ _ h => Composes.trans F hR h) fun _ _ h => Composes.fail hR h
      split
      · next he => cases he; exact hpass rfl
      · next he => cases he; exact hpass rfl
      · next he => cases he; exact wp_fail hF
      · next he => cases he

theorem manages_reclaimFreemapOrphans : Manages slots encrypted R F reclaimFreemapOrphans := by
  refine manages_guarded (stays_bind manages_requireActive fun _ => stays_bind stays_get
    fun m => ?_)
  refine stays_ite (stays_pure _) (stays_ite (stays_pure _) ?_)
  exact stays_bind (manages_withCache (stays_bind (FreeMapTree.stays_reachablePages _) fun _ =>
      stays_findOrphans slots encrypted _ _ _ _)) fun _ =>
    stays_bind (stays_forM manages_markFreeCommittedPath) fun _ => stays_pure _

theorem manages_sparseDataPages (threshold : Option Threshold) :
    Manages slots encrypted R F (sparseDataPages threshold) := by
  have hsparse : ∀ below live ids, Stays R F (sparseOf below live ids) := by
    intro below live ids
    induction ids with
    | nil => exact stays_pure _
    | cons id rest ih =>
      rw [sparseOf]
      split
      · exact ih
      · exact ih
      · exact stays_bind (stays_map (stays_getPage id)) fun _ => stays_bind ih fun _ => stays_pure _
  refine manages_guarded ?_
  split
  · exact stays_pure _
  · exact stays_bind stays_get fun _ => manages_withCache (hsparse _ _ _)

theorem manages_handleLivePageId (handle : Nat) :
    Manages slots encrypted R F (handleLivePageId handle) := by
  refine manages_guarded (stays_bind stays_get fun m =>
    stays_bind (manages_withCache (HandleTable.stays_lookup _ _ _)) fun r => ?_)
  split
  · exact stays_pure _
  · exact stays_pure _

theorem manages_relocate (sparse : List Nat) (maxValues : Nat) (hs examined : List Nat)
    (moved : Nat) : Manages slots encrypted R F (relocate sparse maxValues hs examined moved) := by
  induction hs generalizing examined moved with
  | nil => exact stays_pure _
  | cons handle rest ih =>
    refine stays_ite (stays_pure _) (stays_bind (manages_handleLivePageId handle) fun page => ?_)
    cases page with
    | none => exact ih _ _
    | some id =>
      exact stays_ite (stays_bind (manages_read handle) fun _ =>
        stays_bind (manages_update handle _) fun _ => ih _ _) (ih _ _)

theorem manages_compact (sparse : List Nat) (maxValues : Nat) :
    Manages slots encrypted R F (compact sparse maxValues) := by
  have hrest : ∀ stats : DefragStats, Manages slots encrypted R F do
      let reclaimed ← reclaimFreemapOrphans
      return { stats with freemapOrphansReclaimed := reclaimed } :=
    fun _ => stays_bind manages_reclaimFreemapOrphans fun _ => stays_pure _
  refine stays_ite (stays_bind (stays_pure _) hrest) ?_
  exact stays_bind stays_get fun _ => stays_bind manages_handles fun hs =>
    stays_bind (manages_relocate sparse maxValues hs [] 0) fun _ => stays_bind stays_get fun _ =>
    stays_bind (stays_pure _) hrest

theorem manages_defrag (threshold : Option Threshold) (maxValues : Nat) :
    Manages slots encrypted R F (defrag threshold maxValues) :=
  stays_bind stays_get fun _ => stays_ite (manages_throw_bind _)
    (stays_ite (manages_throw_bind _) (stays_ite (stays_pure _)
      (stays_bind (manages_sparseDataPages threshold) fun sparse =>
        manages_compact sparse maxValues)))

/-! #### Every operation -/

/-- The operation changes how much the cache may hold or where drained pages go. -/
def Op.tunes : Op → Bool
  | .setCacheMaxBytes _ | .setSpillwayMaxBytes _ | .setDrainInsertion _ => true
  | _ => false

theorem manages_perform {op : Op} (h : op.tunes = false) :
    Manages slots encrypted R F (perform op) := by
  cases op with
  | begin => exact stays_map manages_begin
  | commit => exact stays_map manages_commit
  | rollback => exact stays_map manages_rollback
  | savepoint name => exact stays_map (manages_savepoint name)
  | rollbackTo name => exact stays_map (manages_rollbackTo name)
  | release name => exact stays_map (manages_release name)
  | allocate value => exact stays_map (manages_guarded (manages_allocateInner value 0))
  | allocateTagged value tag => exact stays_map (manages_guarded (manages_allocateInner value _))
  | update handle value => exact stays_map (manages_update _ value)
  | delete handle => exact stays_map (manages_guarded (manages_deleteInner _))
  | deleteTagged handle tag => exact stays_map (manages_deleteTagged _ _)
  | deleteWithTag tag max => exact stays_map (manages_deleteWithTag _ _)
  | deleteMany handles => exact stays_map (manages_deleteMany _)
  | setClientByte handle byte => exact stays_map (manages_setClientByte _ byte)
  | read handle => exact stays_map (manages_read _)
  | tag handle | clientByte handle =>
    exact stays_map (manages_guarded (stays_bind (manages_lookupLive _) fun _ => stays_pure _))
  | handles => exact stays_map manages_handles
  | handlesWithTag tag => exact stays_map (manages_handlesWithTag _)
  | setRootName name handle => exact stays_map (manages_setRootName name _)
  | getRootName name =>
    exact stays_map (manages_guarded (stays_bind (manages_liftExcept _) fun _ =>
      stays_bind stays_get fun _ => stays_pure _))
  | clearRootName name => exact stays_map (manages_clearRootName name)
  | defrag threshold maxValues => exact stays_map (manages_defrag threshold maxValues)
  | addKey existing new => exact stays_map (manages_keyOp (.add existing new))
  | rotateKey old new => exact stays_map (manages_keyOp (.rotate old new))
  | removeKey key => exact stays_map (manages_keyOp (.remove key))
  | setCacheMaxBytes | setSpillwayMaxBytes | setDrainInsertion => cases h
  | stats | fileSizeBytes =>
    have hcount : Manages slots encrypted R F filePageCount :=
      manages_guarded (stays_bind stays_get fun _ => stays_pure _)
    first
    | exact stays_map (stays_bind hcount fun _ => stays_bind stays_get fun _ => stays_pure _)
    | exact stays_map (stays_bind manages_handles fun _ => stays_bind hcount fun _ =>
        stays_bind (manages_guarded (stays_bind stays_get fun _ => stays_pure _)) fun _ =>
        stays_bind stays_get fun _ => stays_pure _)
  | counters => exact stays_map (manages_guarded (stays_pure _))

end Operations

/-- The cache is tuned between two transactions, and nothing else happens to it. -/
theorem wp_tune {g : PageCache → PageCache} {m : TransactionManager}
    {Q : TransactionManager → Prop} (hm : Q m)
    (hg : m.activeTxn = false → Q { m with cache := g m.cache }) :
    wp (quietly (betweenTransactions (modify g))) m (fun _ => Q) (fun _ => Q) := by
  refine (wp_map _).mpr ?_
  unfold betweenTransactions
  rw [wp_bind, wp_get]
  refine wp_ite (fun _ => ?_) fun _ => wp_ite (fun _ => ?_) fun hidle => ?_
  · rw [wp_bind]
    exact wp_fail hm
  · rw [wp_bind]
    exact wp_fail hm
  · rw [wp_withCache, wp_modify]
    exact hg (Bool.eq_false_of_not_eq_true hidle)

end Chisel
