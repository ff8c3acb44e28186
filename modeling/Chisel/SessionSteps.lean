import Chisel.Reads
import Chisel.Sessions

/-! One operation on a handle, whatever it is and whatever it answers. -/

namespace Chisel

open StateError PageCache TransactionManager RadixTree Ledger Device

/-! ### Kinds of operations -/

/-- The operations that work on a transaction and leave its savepoints alone. -/
def Op.mutates : Op → Bool
  | .allocate _ | .allocateTagged _ _ | .update _ _ | .delete _ | .deleteTagged _ _
  | .deleteWithTag _ _ | .deleteMany _ | .setClientByte _ _ | .setRootName _ _
  | .clearRootName _ | .defrag _ _ => true
  | _ => false

/-- The operations that need a transaction. -/
def Op.needsTxn : Op → Bool
  | .commit | .rollback | .savepoint _ | .rollbackTo _ | .release _ => true
  | op => op.mutates

/-- The operations that change nothing but the cache. -/
def Op.looks : Op → Bool
  | .read _ | .tag _ | .clientByte _ | .handles | .handlesWithTag _ | .getRootName _ | .stats
  | .counters | .fileSizeBytes => true
  | _ => false

/-- The operations that change the limits of the cache. -/
def Op.configures : Op → Bool
  | .setCacheMaxBytes _ | .setSpillwayMaxBytes _ | .setDrainInsertion _ => true
  | _ => false

section Kinds

variable {α β : Type} {x : TxnM α} {P : α → Prop} {m m' : TransactionManager} {v : Version}
  {op : Op}

theorem Goes.map (hx : Goes x P) (f : α → β) : Goes (f <$> x) fun _ => True := by
  intro ex o m g h
  rw [wp_map]
  exact wp_mono (hx ex o m g h) (fun _ _ h' => ⟨trivial, h'.2⟩) fun _ _ h' => h'

theorem goes_perform (h : op.mutates = true) : Goes (perform op) fun _ => True := by
  cases op with
  | allocate value => exact (goes_allocateInner value (Nat.zero_le _)).guarded.map _
  | allocateTagged value tag =>
    exact (goes_allocateInner value (toNat_le_u64Max' tag)).guarded.map _
  | update handle value => exact (goes_updateInner value (toNat_le_u64Max handle)).guarded.map _
  | delete handle => exact (goes_deleteInner (toNat_le_u64Max handle)).guarded.map _
  | deleteTagged handle tag => exact (goes_deleteTaggedInner (toNat_le_u64Max handle)).guarded.map _
  | deleteWithTag tag max =>
    exact (goes_deleteWithTagInner max.toNat (toNat_le_u64Max' tag)).guarded.map _
  | deleteMany handles =>
    refine (goes_deleteManyInner ?_).guarded.map _
    intro handle hh
    obtain ⟨n, -, rfl⟩ := List.mem_map.mp hh
    exact toNat_le_u64Max n
  | setClientByte handle byte =>
    exact (goes_setClientByteInner byte (toNat_le_u64Max handle)).guarded.map _
  | setRootName name handle => exact (goes_setRootNameInner name handle.toNat).guarded.map _
  | clearRootName name => exact (goes_clearRootNameInner name).guarded.map _
  | defrag threshold maxValues => exact (goes_defrag threshold maxValues).map _
  | _ => cases h

theorem requireActive_inactive (h : m.activeTxn = false) :
    requireActive m = .error .noActiveTransaction m := by
  simp [requireActive, get_bind_apply, h, throw_apply]

theorem guarded_inactive {f : PUnit → TxnM α} (hp : m.poisoned = false) (h : m.activeTxn = false) :
    guarded (requireActive >>= f) m = .error .noActiveTransaction m := by
  unfold guarded
  rw [bind_of_error (requireActive_inactive h), hp]
  rfl

theorem perform_inactive (hop : op.needsTxn = true) (hp : m.poisoned = false)
    (h : m.activeTxn = false) : perform op m = .error .noActiveTransaction m := by
  cases op with
  | commit =>
    refine map_of_error ?_
    simp [TransactionManager.commit, get_bind_apply, hp, h, throw_bind_apply]
  | defrag threshold maxValues =>
    refine map_of_error ?_
    simp [TransactionManager.defrag, get_bind_apply, hp, h, throw_bind_apply]
  | rollback | savepoint | rollbackTo | release | allocate | allocateTagged | update | delete
  | deleteTagged | deleteWithTag | deleteMany | setClientByte | setRootName | clearRootName =>
    exact map_of_error (guarded_inactive hp h)
  | _ => cases hop

theorem Shown.wp_looks (h : Shown m v) (hp : m.poisoned = false) (hop : op.looks = true) :
    wp (perform op) m (fun _ m' => Looked m m') (fun _ m' => Looked m m') := by
  have hread : ∀ r : ReadOp, wp (perform r.toOp) m (fun _ m' => Looked m m')
      (fun _ m' => Looked m m') := fun r =>
    wp_mono (h.wp_perform hp r) (fun _ _ h' => h'.1) fun _ _ h' => h'.1
  have hstay : ∀ {γ : Type} {y : TxnM γ} {m' : TransactionManager}, Looked m m' →
      wp y m' (fun _ m'' => m'' = m') (fun e m'' => m'' = m' ∧ e.isFatal = false) →
      wp (guarded y) m' (fun _ m'' => Looked m m'') (fun _ m'' => Looked m m'') := by
    intro γ y m' hl hy
    refine wp_guarded (fun _ => hl) fun _ => wp_mono hy ?_ ?_
    · rintro - m'' rfl
      exact hl
    · rintro e m'' ⟨rfl, hf⟩
      rw [hf]
      exact hl
  cases op with
  | read handle => exact hread (.read handle)
  | tag handle => exact hread (.tag handle)
  | clientByte handle => exact hread (.clientByte handle)
  | handles => exact hread .handles
  | handlesWithTag tag => exact hread (.handlesWithTag tag)
  | getRootName name =>
    refine (wp_map _).mpr (hstay h.refl_looked ?_)
    rw [wp_bind]
    refine wp_liftExcept (fun a _ => ?_) fun e he => ?_
    · rw [wp_bind, wp_get]
      exact wp_ret rfl
    · refine ⟨rfl, ?_⟩
      unfold encodeRootName at he
      split_ifs at he <;> cases he <;> rfl
  | stats =>
    have hhandles := hread .handles
    change wp (Reply.handles <$> handles) m _ _ at hhandles
    rw [wp_map] at hhandles
    refine (wp_map _).mpr ?_
    unfold TransactionManager.stats
    rw [wp_bind]
    refine wp_mono hhandles (fun l m1 hl1 => ?_) fun _ _ hl => hl
    rw [wp_bind]
    refine wp_mono (hstay hl1 ?_) (fun n m2 hl2 => ?_) fun _ _ hl => hl
    · rw [wp_bind, wp_get]
      exact wp_ret rfl
    rw [wp_bind]
    refine wp_mono (hstay hl2 ?_) (fun n m3 hl3 => ?_) fun _ _ hl => hl
    · rw [wp_bind, wp_get]
      exact wp_ret rfl
    rw [wp_bind, wp_get]
    exact wp_ret hl3
  | counters =>
    refine (wp_map _).mpr (hstay h.refl_looked ?_)
    exact wp_ret rfl
  | fileSizeBytes =>
    refine (wp_map _).mpr ?_
    unfold TransactionManager.fileSizeBytes
    rw [wp_bind]
    refine wp_mono (hstay h.refl_looked ?_) (fun n m1 hl1 => ?_) fun _ _ hl => hl
    · rw [wp_bind, wp_get]
      exact wp_ret rfl
    rw [wp_bind, wp_get]
    exact wp_ret hl1
  | _ => cases hop

end Kinds

def TransactionManager.failure (m : TransactionManager) (op : Op) : Option ChiselError :=
  match perform op m with
  | .ok _ _ => none
  | .error e _ => some e

theorem of_wp_perform {m : TransactionManager} {op : Op}
    {P : Option ChiselError → TransactionManager → Prop}
    (h : wp (perform op) m (fun _ m' => P none m') (fun e m' => P (some e) m')) :
    P (m.failure op) (m.after op) := by
  unfold TransactionManager.failure TransactionManager.after
  cases hp : perform op m with
  | ok r m' => exact (wp_ok hp).mp h
  | error e m' => exact (wp_error hp).mp h

/-! ### Between two transactions -/

/-- What a key operation that succeeds has done. -/
structure Rekeyed (k : KeyOp) (m m' : TransactionManager) : Prop where
  edit : ∃ header header' c, m.cryptoHeader = some header ∧ k.edit header = .ok header' ∧ c.WF ∧
    c.store = { m.cache.store with io := m.cache.io.recordAll (m.rekeyEvents header') } ∧
    m' = m.rekeyed c header'
  counter : m.txnCounter + 1 ≤ maxTxnCounter
  writes : m.cache.io.readOnly = false

/-- A key operation failed: it was refused, or the counter had no successor. -/
inductive Unkeyed (k : KeyOp) (m : TransactionManager) (e : ChiselError) : TransactionManager → Prop
  | refused : Unkeyed k m e m
  | exhausted {c : PageCache} (error : e = .txnCounterExhausted m.txnCounter) (wf : c.WF)
    (store : c.store = { m.cache.store with io := m.cache.io.recordAll [.sync] }) :
    Unkeyed k m e { m with cache := c, poisoned := true }

section Between

variable {ex : Prop} {m m' : TransactionManager} {v : Version} {t : PageTree Bool}
  {lost : Nat → Nat} {k : KeyOp}

theorem Opened.wp_begin (h : Opened ex m v t lost) (hp : m.poisoned = false) :
    wp (perform .begin) m (fun _ m' => m.cache.io.readOnly = false ∧ m' = m.begun)
      (fun _ m' => m' = m) := by
  refine (wp_map _).mpr (wp_guarded (fun hpo => absurd (hp.symm.trans hpo) nofun) fun _ => ?_)
  unfold beginInner
  rw [wp_bind, wp_get]
  refine wp_ite (fun _ => wp_fail rfl) fun hro => ?_
  rw [if_neg (by simp [h.inactive]), wp_set]
  exact ⟨Bool.eq_false_of_not_eq_true hro, rfl⟩

theorem Opened.spillSet (h : Opened ex m v t lost) : m.cache.spillSet = ∅ := by
  refine Finset.subset_empty.mp ?_
  rw [← h.cold]
  exact Finset.subset_union_right

theorem Opened.wp_keyOp (h : Opened ex m v t lost) (hp : m.poisoned = false) (k : KeyOp) :
    wp (perform k.toOp) m (fun _ m' => Rekeyed k m m') (fun e m' => Unkeyed k m e m') := by
  rw [k.perform_toOp]
  refine (wp_map _).mpr ?_
  rw [k.run_eq_bind, wp_bind]
  cases hh : m.cryptoHeader with
  | none => exact (wp_error (keyHeader_of_none hp hh)).mpr .refused
  | some header =>
    rw [wp_ok (keyHeader_of_some hp hh), wp_bind]
    refine wp_liftExcept (fun header' he => ?_) fun _ _ => .refused
    unfold rewriteCryptoHeader
    simp only [wp_bind, wp_get, hp, h.inactive, Bool.false_eq_true, if_false]
    refine wp_ite (fun _ => wp_fail .refused) fun _ => wp_ite (fun _ => wp_fail .refused)
      fun hro => ?_
    have hro' := Bool.eq_false_of_not_eq_true hro
    rw [wp_onError]
    refine wp_mono (h.wp_rewriteCryptoHeaderInner hro') ?_ ?_
    · rintro - m' ⟨hle, c, hwf, hst, rfl⟩
      exact ⟨⟨header, header', c, hh, he, hwf, hst, rfl⟩, hle, hro'⟩
    · rintro e m' ⟨he, c, hwf, hst, rfl⟩
      exact .exhausted he hwf hst

theorem Rekeyed.opened (hk : Rekeyed k m m') (h : Opened ex m v t lost) :
    Opened ex m' v t lost ∧ LeadsAt m'.head m'.cache.io.image.cell
      ((m.txnCounter + 1) % m.superblockCount) := by
  obtain ⟨header, header', c, hh, he, hwf, hst, rfl⟩ := hk.edit
  have hw : Wraps m.cache.cipher (some header) := hh ▸ h.headed.wraps
  exact h.rekeyed (by rw [hh]; rfl) (KeyOp.edit_wraps hw he) hk.counter hwf hst

theorem Unkeyed.opened {e : ChiselError} (hu : Unkeyed k m e m') (h : Opened ex m v t lost) :
    Opened ex m' v t lost := by
  cases hu with
  | refused => exact h
  | exhausted he hwf hst =>
    rename_i c
    have hio : c.io = m.cache.io.record .sync := congrArg Store.io hst
    refine h.reseat hwf ?_ ?_ ?_ (congrArg Store.cipher hst) (by rw [hio]; rfl) (by rw [hio]; rfl)
      true
    all_goals rw [hst]

/-- What an operation can do between two transactions. -/
inductive IdleStep (m : TransactionManager) (op : Op) :
    Option ChiselError → TransactionManager → Prop
  | refused {e : ChiselError} : IdleStep m op (some e) m
  | looked {failure : Option ChiselError} {m' : TransactionManager} (hop : op.looks = true)
    (h : Looked m m') : IdleStep m op failure m'
  | resized {c : PageCache} (hop : op.configures = true) (wf : c.WF)
    (store : ∃ room, c.store = { m.cache.store with room }) :
    IdleStep m op none { m with cache := c }
  | began (hop : op = .begin) (writes : m.cache.io.readOnly = false) : IdleStep m op none m.begun
  | rekeyed {k : KeyOp} {m' : TransactionManager} (hop : op = k.toOp) (h : Rekeyed k m m') :
    IdleStep m op none m'
  | unkeyed {k : KeyOp} {e : ChiselError} {m' : TransactionManager} (hop : op = k.toOp)
    (h : Unkeyed k m e m') : IdleStep m op (some e) m'

theorem Opened.wp_betweenTransactions {f : PageCache → PageCache} (h : Opened ex m v t lost)
    (hp : m.poisoned = false)
    (hf : (f m.cache).WF ∧ ∃ room, (f m.cache).store = { m.cache.store with room }) {op : Op}
    (hop : op.configures = true) :
    wp (quietly (betweenTransactions (modify f))) m (fun _ m' => IdleStep m op none m')
      (fun e m' => IdleStep m op (some e) m') := by
  refine (wp_map _).mpr ?_
  unfold betweenTransactions
  rw [wp_bind, wp_get, if_neg (by simp [hp]), if_neg (by simp [h.inactive]), wp_withCache,
    wp_modify]
  exact .resized hop hf.1 hf.2

theorem Opened.wp_perform (h : Opened ex m v t lost) (hp : m.poisoned = false) (op : Op) :
    wp (perform op) m (fun _ m' => IdleStep m op none m')
      (fun e m' => IdleStep m op (some e) m') := by
  by_cases hneeds : op.needsTxn = true
  · exact (wp_error (perform_inactive hneeds hp h.inactive)).mpr .refused
  by_cases hlooks : op.looks = true
  · exact wp_mono (h.shown.wp_looks hp hlooks) (fun _ _ hl => .looked hlooks hl)
      fun e _ hl => .looked hlooks hl
  have hkeys : ∀ k : KeyOp, wp (perform k.toOp) m (fun _ m' => IdleStep m k.toOp none m')
      (fun e m' => IdleStep m k.toOp (some e) m') := fun k =>
    wp_mono (h.wp_keyOp hp k) (fun _ _ hk => .rekeyed rfl hk) fun _ _ hu => .unkeyed rfl hu
  cases op with
  | begin =>
    refine wp_mono (h.wp_begin hp) ?_ ?_
    · rintro - m' ⟨hro, rfl⟩
      exact .began rfl hro
    · rintro e m' rfl
      exact .refused
  | addKey existing new => exact hkeys (.add existing new)
  | rotateKey old new => exact hkeys (.rotate old new)
  | removeKey key => exact hkeys (.remove key)
  | setCacheMaxBytes bytes =>
    have hpos : 0 < max (bytes.toNat / pageSize) 1 :=
      Nat.lt_of_lt_of_le Nat.one_pos (Nat.le_max_right ..)
    have hf := h.wf.setCacheMaxBytes hpos
    exact h.wp_betweenTransactions (f := fun c =>
      evictCleanToCap c.size { c with maxPages := max (bytes.toNat / pageSize) 1 }) hp hf rfl
  | setSpillwayMaxBytes bytes =>
    exact h.wp_betweenTransactions hp (h.wf.setSpillwayMaxBytes h.spillSet rfl) rfl
  | setDrainInsertion policy =>
    have hwf : ({ m.cache with drainInsertion := policy } : PageCache).WF :=
      { h.wf with }
    exact h.wp_betweenTransactions hp ⟨hwf, m.cache.store.room, rfl⟩ rfl
  | _ => first | exact absurd rfl hneeds | exact absurd rfl hlooks

theorem Opened.step (h : Opened ex m v t lost) (hp : m.poisoned = false) (op : Op) :
    IdleStep m op (m.failure op) (m.after op) :=
  of_wp_perform (h.wp_perform hp op)

theorem Opened.resized (h : Opened ex m v t lost) {c : PageCache} (hwf : c.WF)
    (hst : ∃ room, c.store = { m.cache.store with room }) :
    Opened ex { m with cache := c } v t lost := by
  obtain ⟨room, hst⟩ := hst
  have hio : c.io = m.cache.io := congrArg Store.io hst
  refine h.reseat hwf ?_ ?_ ?_ (congrArg Store.cipher hst) (congrArg PageIo.image hio)
    (congrArg PageIo.fileStride hio) m.poisoned
  all_goals rw [hst]

end Between

/-! ### Inside a transaction -/

section Inside

variable {past past' : Past} {m m' m0 : TransactionManager} {v : Version} {t : PageTree Bool}
  {lost0 : Nat → Nat} {g g' : Ghost} {op : Op}

theorem Running.committed_eq (h : Running past m0 v t lost0 m g) :
    m.committedRoots = m0.committedRoots := h.txn.core.anchored.committed

theorem Running.active (h : Running past m0 v t lost0 m g) : m.activeTxn = true :=
  h.txn.core.anchored.active

theorem Running.onward {leaks dies : Prop} (h : Running past m0 v t lost0 m g)
    (hT : Txn past'.exact (m0.origin v t) m' g') (hw : Onward leaks dies m g m' g')
    (hf : past.Fades past') (hlive : m'.poisoned = false → ¬ dies)
    (hsafe : past'.plain → m'.poisoned = false → ¬ leaks) :
    Running past' m0 v t lost0 m' g' := by
  have halive : m'.poisoned = false → m.poisoned = false := fun hpo =>
    (hw.poisoned.resolve_left (hlive hpo)).symm.trans hpo
  refine ⟨h.base.weaken hf.exact, hT, fun hp hpo => ?_, fun hpo => ?_, fun hp => ?_,
    fun b hb => h.moored b (hf.base b hb)⟩
  · have hplain := h.plain (hf.plain hp) (halive hpo)
    rintro u (rfl | rfl | hu)
    · exact hplain u (.inl rfl)
    · rw [hw.stray.resolve_left (hsafe hp hpo)]
      exact hplain g.cur (.inr (.inl rfl))
    · rw [hw.saves] at hu
      exact hplain u (.inr (.inr hu))
  · obtain ⟨htidy, hclean⟩ := h.tidy (halive hpo)
    refine ⟨hw.tidy.resolve_left (hlive hpo) htidy, ?_⟩
    rw [hw.saves]
    exact hclean
  · have hcommitted : m'.committedRoots = m.committedRoots :=
      hT.core.anchored.committed.trans h.committed_eq.symm
    have hio : m'.cache.io = m.cache.io := hw.io
    rw [hcommitted, hio]
    exact h.full (hf.full hp)

/-- An error that is neither fatal nor for want of memory is not hard. -/
theorem ChiselError.not_hard {e : ChiselError} (hf : e.isFatal = false)
    (hc : e.isCapacity = false) :
    ¬ e.isHard = true := by
  cases e <;> simp_all [isHard]

/-- An operation on the values goes on with the transaction. -/
theorem Running.wp_mutates (h : Running past m0 v t lost0 m g) (hop : op.mutates = true) :
    wp (perform op) m
      (fun _ m' => ∃ g', Running past m0 v t lost0 m' g' ∧ Onward False False m g m' g')
      (fun e m' => ∃ g', Running (past.after m op (some e)) m0 v t lost0 m' g' ∧
        Went m g m' g') := by
  refine wp_mono (wp_and (goes_perform hop _ _ m g h.txn) (poisons_perform op m)) ?_ ?_
  · rintro a m' ⟨⟨-, g', hT, hw⟩, -⟩
    exact ⟨g', h.onward hT hw (.refl past) (fun _ => id) fun _ _ => id, hw⟩
  · rintro e m' ⟨⟨g', hT, hw⟩, hfatal⟩
    have hnf : m'.poisoned = false → e.isFatal = false := by
      intro hpo
      cases hef : e.isFatal with
      | false => rfl
      | true => rw [hfatal hef] at hpo; cases hpo
    refine ⟨g', h.onward (hT.weaken fun he => ⟨he.1, he.2 e rfl⟩) hw (past.fades_after m op _)
      (fun hpo => by rw [hnf hpo]; nofun) fun hp hpo => ?_, hw.toWent⟩
    exact ChiselError.not_hard (hnf hpo) (hp.2 e rfl)

theorem Running.looked (h : Running past m0 v t lost0 m g) (hl : Looked m m') :
    Running past m0 v t lost0 m' g :=
  h.onward (h.txn.looked hl) (h.txn.onward_looked hl).toOnward (.refl past) (fun _ => id)
    fun _ _ => id

theorem Running.perform_busy (h : Running past m0 v t lost0 m g) (hp : m.poisoned = false)
    (hneeds : op.needsTxn = false) (hlooks : op.looks = false) :
    ∃ e, perform op m = .error e m := by
  have hkeys : ∀ k : KeyOp, ∃ e, perform k.toOp m = .error e m := by
    intro k
    rw [k.perform_toOp]
    suffices hk : ∃ e, k.run m = .error e m from hk.imp fun e he => map_of_error he
    rw [k.run_eq, hp]
    cases m.cryptoHeader with
    | none => exact ⟨_, rfl⟩
    | some header =>
      cases hk : k.edit header with
      | error e => exact ⟨e, by simp [hk]⟩
      | ok header' =>
        refine ⟨.transactionInProgress, ?_⟩
        simp [hk, rewriteCryptoHeader, get_bind_apply, throw_bind_apply, hp, h.active]
  have hconf : ∀ f : PageCache → PageCache,
      betweenTransactions (modify f) m = .error .transactionInProgress m := by
    intro f
    simp [betweenTransactions, get_bind_apply, throw_bind_apply, hp, h.active]
  cases op with
  | begin =>
    have hro : m.cache.io.readOnly = false := h.txn.core.anchored.writes
    refine ⟨.transactionAlreadyActive, map_of_error ?_⟩
    simp [TransactionManager.begin, guarded, beginInner, get_bind_apply, throw_bind_apply, hp, hro,
      h.active, ChiselError.isFatal]
  | addKey existing new => exact hkeys (.add existing new)
  | rotateKey old new => exact hkeys (.rotate old new)
  | removeKey key => exact hkeys (.remove key)
  | setCacheMaxBytes | setSpillwayMaxBytes | setDrainInsertion => exact ⟨_, map_of_error (hconf _)⟩
  | _ => first | (cases hneeds; done) | cases hlooks

theorem TransactionManager.savepoints_ne_nil {name : String} {i : Nat}
    (hi : m.savepointIdx name = some i) : m.savepoints ≠ [] := by
  intro hnil
  rw [savepointIdx, hnil] at hi
  cases hi

theorem Running.wp_savepoint (h : Running past m0 v t lost0 m g) (hp : m.poisoned = false)
    (name : String) :
    wp (perform (.savepoint name)) m
      (fun _ m' => m.savepointIdx name = none ∧ m' = m.saving name ∧
        ∃ g', Running past m0 v t lost0 m' g' ∧ g'.cur = g.cur ∧ g'.saves = g.saves ++ [g.cur])
      (fun _ m' => m' = m) := by
  refine (wp_map _).mpr (wp_guarded (fun hpo => absurd (hp.symm.trans hpo) nofun) fun _ => ?_)
  refine wp_mono (h.txn.wp_savepointInner name) ?_ ?_
  · rintro - m' ⟨hidx, rfl, k, hT⟩
    refine ⟨hidx, rfl, _, ⟨h.base, hT, fun hpl hpo u hu => ?_, fun hpo => ?_, h.full, h.moored⟩,
      rfl, rfl⟩
    · refine h.plain hpl hpo u ?_
      rcases hu with hu | hu | hu
      · exact .inl hu
      · exact .inr (.inl hu)
      · rcases List.mem_append.mp hu with hu | hu
        · exact .inr (.inr hu)
        · exact .inr (.inl (List.mem_singleton.mp hu))
    · obtain ⟨htidy, hclean⟩ := h.tidy hpo
      refine ⟨⟨htidy.clean, fun x hx => absurd (hT.core.cursor x hx).1 (by simp [saving])⟩,
        fun u hu => ?_⟩
      rcases hu with hu | hu
      · exact hclean u (.inl hu)
      · rcases List.mem_append.mp hu with hu | hu
        · exact hclean u (.inr hu)
        · rw [List.mem_singleton.mp hu]
          exact htidy.clean
  · rintro e m' ⟨rfl, rfl⟩
    rfl

theorem Running.wp_release (h : Running past m0 v t lost0 m g) (hp : m.poisoned = false)
    (name : String) :
    wp (perform (.release name)) m
      (fun _ m' => ∃ i, m.savepointIdx name = some i ∧ m' = m.releasing i ∧
        ∃ g', Running past m0 v t lost0 m' g' ∧ g'.cur = g.cur ∧ g'.saves = g.saves.take i)
      (fun _ m' => m' = m) := by
  refine (wp_map _).mpr (wp_guarded (fun hpo => absurd (hp.symm.trans hpo) nofun) fun _ => ?_)
  refine wp_mono (h.txn.wp_releaseInner name) ?_ ?_
  · rintro - m' ⟨i, hidx, rfl, hT⟩
    refine ⟨i, hidx, rfl, _, ⟨h.base, hT, fun hpl hpo u hu => ?_, fun hpo => ?_, h.full, h.moored⟩,
      rfl, rfl⟩
    · refine h.plain hpl hpo u ?_
      rcases hu with hu | hu | hu
      · exact .inl hu
      · exact .inr (.inl hu)
      · exact .inr (.inr (List.mem_of_mem_take hu))
    · obtain ⟨htidy, hclean⟩ := h.tidy hpo
      refine ⟨⟨htidy.clean, fun x hx => ?_⟩,
        fun u hu => hclean u (hu.imp_right List.mem_of_mem_take)⟩
      exact absurd (h.txn.core.cursor x hx).1 (savepoints_ne_nil hidx)
  · rintro e m' ⟨rfl, rfl⟩
    rfl

theorem TransactionManager.savepointIdx_name {name : String} {i : Nat} {sp : Savepoint}
    (hi : m.savepointIdx name = some i) (hsp : m.savepoints[i]? = some sp) : sp.name = name := by
  obtain ⟨hlt, hname, -⟩ := List.findIdx?_eq_some_iff_getElem.mp hi
  obtain ⟨-, rfl⟩ := List.getElem?_eq_some_iff.mp hsp
  exact eq_of_beq hname

/-- A cut that spares the committed pages. -/
theorem Past.full_cut {name : String} {i : Nat} {sp : Savepoint}
    (hi : m.savepointIdx name = some i) (hsp : m.savepoints[i]? = some sp) (m' : TransactionManager)
    (hcommitted : m'.committedRoots = m.committedRoots)
    (hst : m'.cache.store = m.cache.store.cut sp.watermark) {failure : Option ChiselError} :
    (past.after m (.rollbackTo name) failure).full →
      m'.committedRoots.totalPages ≤ m'.cache.io.image.len := by
  intro hp
  have hle : m.committedRoots.totalPages ≤ sp.watermark := by
    have hall := List.all_eq_true.mp hp.2 sp (List.mem_of_getElem? hsp)
    simpa [savepointIdx_name hi hsp] using hall
  have hio : m'.cache.io = m.cache.io.record (.setLen sp.watermark) := congrArg Store.io hst
  rw [hcommitted, hio]
  exact hle

/-- What a `rollback_to` that succeeds has done. -/
structure Rewound (m : TransactionManager) (g : Ghost) (name : String) (m' : TransactionManager)
    (g' : Ghost) : Prop where
  moved : ∃ i sp u c, m.savepointIdx name = some i ∧ m.savepoints[i]? = some sp ∧
    g.saves[i]? = some u ∧ c.WF ∧ c.store = m.cache.store.cut sp.watermark ∧
    m' = m.rewound i sp u c ∧ g'.cur = u ∧ g'.saves = g.saves.take (i + 1)
  tree : g'.tree = g.tree

theorem Running.wp_rollbackTo (h : Running past m0 v t lost0 m g) (hp : m.poisoned = false)
    (name : String) :
    wp (perform (.rollbackTo name)) m
      (fun _ m' => ∃ g', Running (past.after m (.rollbackTo name) none) m0 v t lost0 m' g' ∧
        Rewound m g name m' g')
      (fun e m' => ∃ g', Running (past.after m (.rollbackTo name) (some e)) m0 v t lost0 m'
        g') := by
  refine (wp_map _).mpr (wp_guarded (fun hpo => absurd (hp.symm.trans hpo) nofun) fun _ => ?_)
  refine wp_mono (h.txn.wp_rollbackToInner name) ?_ ?_
  · rintro - m' ⟨i, sp, u, c, hi, hsp, hu, hwf, hst, rfl, g', hT, hcur, htree, hsaves⟩
    refine ⟨g', ⟨h.base.weaken And.left, hT.weaken And.left, fun hpl hpo w hw => ?_, fun hpo => ?_,
      Past.full_cut hi hsp (m.rewound i sp u c) rfl hst, h.moored⟩,
      ⟨i, sp, u, c, hi, hsp, hu, hwf, hst, rfl, hcur, hsaves⟩, htree⟩
    · refine h.plain hpl.1 hpo w ?_
      rcases hw with hw | hw | hw
      · exact .inl hw
      · rw [hcur] at hw
        subst hw
        exact .inr (.inr (List.mem_of_getElem? hu))
      · rw [hsaves] at hw
        exact .inr (.inr (List.mem_of_mem_take hw))
    · obtain ⟨-, hclean⟩ := h.tidy hpo
      refine ⟨⟨?_, nofun⟩, fun w hw => hclean w (hw.imp_right fun hw => ?_)⟩
      · rw [hcur]
        exact hclean u (.inr (List.mem_of_getElem? hu))
      · rw [hsaves] at hw
        exact List.mem_of_mem_take hw
  · rintro e m' ⟨hm', hpo', g', hT, hcur, hsaves⟩
    have hcommitted : m'.committedRoots = m.committedRoots :=
      hT.core.anchored.committed.trans h.committed_eq.symm
    have hfull : (past.after m (.rollbackTo name) (some e)).full →
        m'.committedRoots.totalPages ≤ m'.cache.io.image.len := by
      rcases hm' with ⟨rfl, -⟩ | ⟨i, sp, hi, hsp, hst⟩
      · exact fun hf => h.full hf.1
      · exact Past.full_cut hi hsp m' hcommitted hst
    have hT' : Txn (past.after m (.rollbackTo name) (some e)).exact (m0.origin v t) m' g' :=
      hT.weaken fun he => ⟨he.1, he.2 e rfl⟩
    split
    · exact ⟨g', h.base.weaken And.left, hT'.poison.1, nofun, nofun, hfull, h.moored⟩
    · refine ⟨g', h.base.weaken And.left, hT', fun hpl hpo u hu => ?_, fun hpo => ?_, hfull,
        h.moored⟩
      · rw [hcur, hsaves] at hu
        exact h.plain hpl.1 (hpo'.symm.trans hpo) u hu
      · obtain ⟨htidy, hclean⟩ := h.tidy (hpo'.symm.trans hpo)
        refine ⟨⟨hcur ▸ htidy.clean, fun x hx hpos => ?_⟩, hsaves ▸ hclean⟩
        rcases hm' with ⟨rfl, -⟩ | ⟨i, sp, hi, hsp, hst⟩
        · rw [hcur] at hpos ⊢
          exact htidy.cursor x hx hpos
        · have hlen := hT.core.saves.length
          rw [hsaves, h.txn.core.saves.length, (hT.core.cursor x hx).1] at hlen
          exact absurd (List.length_eq_zero_iff.mp hlen) (savepoints_ne_nil hi)

theorem Running.wp_rollback (h : Running past m0 v t lost0 m g) (hp : m.poisoned = false) :
    wp (perform .rollback) m
      (fun _ m' => ∃ c, c.WF ∧
        c.store = m.cache.store.settled.cut m.committedRoots.totalPages ∧ m' = m.rolledBack v c ∧
        Opened past.exact m' v t fun x => lost0 x + between m0.cache.store.next c.store.next x)
      (fun _ _ => False) := by
  refine (wp_map _).mpr (wp_guarded (fun hpo => absurd (hp.symm.trans hpo) nofun) fun _ => ?_)
  refine wp_mono (h.txn.wp_rollbackInner h.base.toIdle) ?_ fun _ _ hf => hf.elim
  rintro - m' ⟨c, hwf, hst, rfl, -⟩
  exact ⟨c, hwf, hst, rfl, h.base.rolledBack h.txn hwf hst⟩

/-- What an operation can do inside a transaction. -/
inductive RunStep (past : Past) (m0 : TransactionManager) (v : Version) (t : PageTree Bool)
    (lost0 : Nat → Nat) (m : TransactionManager) (g : Ghost) (op : Op) :
    Option ChiselError → TransactionManager → Prop
  | went {failure : Option ChiselError} {m' : TransactionManager} {g' : Ghost}
    (hop : op.mutates = true) (h : Running (past.after m op failure) m0 v t lost0 m' g')
    (onward : Went m g m' g') : RunStep past m0 v t lost0 m g op failure m'
  | refused {e : ChiselError} : RunStep past m0 v t lost0 m g op (some e) m
  | looked {failure : Option ChiselError} {m' : TransactionManager} (hop : op.looks = true)
    (h : Looked m m') : RunStep past m0 v t lost0 m g op failure m'
  | saved {name : String} {g' : Ghost} (hop : op = .savepoint name)
    (fresh : m.savepointIdx name = none) (h : Running past m0 v t lost0 (m.saving name) g')
    (cur : g'.cur = g.cur) (saves : g'.saves = g.saves ++ [g.cur]) :
    RunStep past m0 v t lost0 m g op none (m.saving name)
  | released {name : String} {i : Nat} {g' : Ghost} (hop : op = .release name)
    (found : m.savepointIdx name = some i) (h : Running past m0 v t lost0 (m.releasing i) g')
    (cur : g'.cur = g.cur) (saves : g'.saves = g.saves.take i) :
    RunStep past m0 v t lost0 m g op none (m.releasing i)
  | rewound {name : String} {m' : TransactionManager} {g' : Ghost} (hop : op = .rollbackTo name)
    (h : Running (past.after m op none) m0 v t lost0 m' g') (rewound : Rewound m g name m' g') :
    RunStep past m0 v t lost0 m g op none m'
  | stranded {name : String} {e : ChiselError} {m' : TransactionManager} {g' : Ghost}
    (hop : op = .rollbackTo name) (h : Running (past.after m op (some e)) m0 v t lost0 m' g') :
    RunStep past m0 v t lost0 m g op (some e) m'
  | rolledBack {c : PageCache} (hop : op = .rollback) (wf : c.WF)
    (store : c.store = m.cache.store.settled.cut m.committedRoots.totalPages)
    (opened : Opened past.exact (m.rolledBack v c) v t
      fun x => lost0 x + between m0.cache.store.next c.store.next x) :
    RunStep past m0 v t lost0 m g op none (m.rolledBack v c)
  | committed {m' : TransactionManager} (hop : op = .commit)
    (h : Committed past.exact m0 v t m g m') : RunStep past m0 v t lost0 m g op none m'
  | halted {e : ChiselError} {m' : TransactionManager} (hop : op = .commit)
    (poisoned : m'.poisoned = true) (touched : Touched (m0.origin v t) m'.cache.io)
    (halted : Halted m m') : RunStep past m0 v t lost0 m g op (some e) m'

theorem Running.wp_perform (h : Running past m0 v t lost0 m g) (hp : m.poisoned = false) (op : Op) :
    wp (perform op) m (fun _ m' => RunStep past m0 v t lost0 m g op none m')
      (fun e m' => RunStep past m0 v t lost0 m g op (some e) m') := by
  by_cases hmut : op.mutates = true
  · refine wp_mono (h.wp_mutates hmut) ?_ ?_
    · rintro - m' ⟨g', hR, hw⟩
      exact .went hmut (hR.fade (past.fades_after m op none)) hw.toWent
    · rintro e m' ⟨g', hR, hw⟩
      exact .went hmut hR hw
  by_cases hlooks : op.looks = true
  · exact wp_mono (h.txn.shown.wp_looks hp hlooks) (fun _ _ hl => .looked hlooks hl)
      fun e _ hl => .looked hlooks hl
  by_cases hneeds : op.needsTxn = true
  rotate_left
  · obtain ⟨e, he⟩ := h.perform_busy hp (Bool.eq_false_of_not_eq_true hneeds)
      (Bool.eq_false_of_not_eq_true hlooks)
    exact (wp_error he).mpr (.refused)
  cases op with
  | commit =>
    refine (wp_map _).mpr (wp_mono (h.txn.wp_commit h.base hp) (fun _ _ hc => .committed rfl hc) ?_)
    rintro e m' ⟨hpo, htouched, hhalt⟩
    exact .halted rfl hpo htouched hhalt
  | rollback =>
    refine wp_mono (h.wp_rollback hp) ?_ fun _ _ hf => hf.elim
    rintro - m' ⟨c, hwf, hst, rfl, hO⟩
    exact .rolledBack rfl hwf hst hO
  | savepoint name =>
    refine wp_mono (h.wp_savepoint hp name) ?_ ?_
    · rintro - m' ⟨hfresh, rfl, g', hR, hcur, hsaves⟩
      exact .saved rfl hfresh hR hcur hsaves
    · rintro e m' rfl
      exact .refused
  | rollbackTo name =>
    refine wp_mono (h.wp_rollbackTo hp name) ?_ ?_
    · rintro - m' ⟨g', hR, hrew⟩
      exact .rewound rfl hR hrew
    · rintro e m' ⟨g', hR⟩
      exact .stranded rfl hR
  | release name =>
    refine wp_mono (h.wp_release hp name) ?_ ?_
    · rintro - m' ⟨i, hfound, rfl, g', hR, hcur, hsaves⟩
      exact .released rfl hfound hR hcur hsaves
    · rintro e m' rfl
      exact .refused
  | _ => first | exact absurd rfl hmut | cases hneeds

theorem Running.step (h : Running past m0 v t lost0 m g) (hp : m.poisoned = false) (op : Op) :
    RunStep past m0 v t lost0 m g op (m.failure op) (m.after op) :=
  of_wp_perform (h.wp_perform hp op)

/-- A commit that failed leaves the file with the state committed before. -/
theorem Running.halted (h : Running past m0 v t lost0 m g) (hpo : m'.poisoned = true)
    (htouched : Touched (m0.origin v t) m'.cache.io) (hhalt : Halted m m') : Sane past m' := by
  have hheader : m.cryptoHeader = m0.cryptoHeader := h.txn.core.anchored.header
  have hslots : m.superblockCount = m0.superblockCount := h.txn.core.anchored.superblocks
  refine .dead hpo (hhalt.active.trans h.active) hhalt.wf (hheader.symm.trans hhalt.header.symm)
    (hslots.symm.trans hhalt.slots.symm) hhalt.alloc (h.base.fileHolds_touched htouched)
      (fun hf => ?_)
    fun b hb => (h.moored b hb).touched htouched
  have hfull := h.full hf
  rw [h.committed_eq] at hfull
  exact hfull.trans hhalt.len

end Inside

/-! ### Any operation -/

section Any

variable {past : Past} {m m' m0 : TransactionManager} {v : Version} {t : PageTree Bool}
  {lost lost0 : Nat → Nat} {g : Ghost} {op : Op} {failure : Option ChiselError}

theorem IdleStep.sane (hs : IdleStep m op failure m') (hO : Opened past.exact m v t lost)
    (hplain : past.plain → v.stray = fun _ => 0) (hclean : v.Clean)
    (hb : ∀ b ∈ past.base, Moored b m.head v t (.ofIo m.cache.io)) : Sane past m' := by
  have hsame : ∀ {c : PageCache} (poisoned : Bool), c.store.cipher = m.cache.store.cipher →
      Touched (m.origin v t) c.io → ∀ b ∈ past.base,
        Moored b { m with cache := c, poisoned := poisoned }.head v t (.ofIo c.io) := by
    intro c poisoned hcipher ht b hbase
    have hm := (hb b hbase).touched ht
    unfold TransactionManager.head at hm ⊢
    change Moored b ⟨_, _, c.store.cipher, _, _⟩ v t _
    rw [hcipher]
    exact hm
  cases hs with
  | refused => exact .idle hO hplain hclean hb
  | looked hop hl =>
    obtain ⟨c, hc, rfl⟩ := hl
    exact .idle (hO.looked ⟨c, hc, rfl⟩) hplain hclean (hsame _ (congrArg Store.cipher hc.2)
      ⟨[], congrArg Store.io hc.2, nofun⟩)
  | resized hop hwf hst =>
    obtain ⟨room, hst'⟩ := hst
    exact .idle (hO.resized hwf ⟨room, hst'⟩) hplain hclean (hsame _ (by rw [hst'])
      ⟨[], congrArg Store.io hst', nofun⟩)
  | began hop hro =>
    refine .running ⟨hO, hO.toIdle.begun hro, fun hpl _ u hu => ?_, fun _ => ⟨⟨hclean, nofun⟩, ?_⟩,
      fun _ => ?_, hb⟩
    · rcases hu with rfl | rfl | hu
      · exact hplain hpl
      · exact hplain hpl
      · cases hu
    · rintro u (rfl | hu)
      · exact hclean
      · cases hu
    · have hlen := hO.total_le
      rw [hO.len] at hlen
      exact hlen
  | rekeyed hop hk =>
    obtain ⟨hO', hleads⟩ := hk.opened hO
    obtain ⟨header, header', c, -, -, -, hst, rfl⟩ := hk.edit
    exact .idle hO' hplain hclean fun b hbase =>
      hO'.moored (hb b hbase).image (congrArg Store.io hst) ⟨_, rfl⟩ hleads (Nat.succ_pos _)
  | unkeyed hop hu =>
    have hO' := hu.opened hO
    cases hu with
    | refused => exact .idle hO hplain hclean hb
    | @exhausted c he hwf hst =>
      refine .idle hO' hplain hclean (hsame true (by rw [hst]) ?_)
      have hio : c.io = m.cache.store.io.record .sync := congrArg Store.io hst
      rw [hio]
      exact Touched.sync ⟨[], rfl, nofun⟩

theorem RunStep.sane (hs : RunStep past m0 v t lost0 m g op failure m')
    (h : Running past m0 v t lost0 m g) (hp : m.poisoned = false) :
    Sane (past.after m op failure) m' := by
  have hfade : ∀ {m'}, Sane past m' → Sane (past.after m op failure) m' := fun hs =>
    hs.fade (past.fades_after m op failure)
  cases hs with
  | went hop hR => exact .running hR
  | refused => exact hfade (.running h)
  | looked hop hl => exact hfade (.running (h.looked hl))
  | saved hop hfresh hR | released hop hfound hR => exact hfade (.running hR)
  | rewound hop hR | stranded hop hR => exact .running hR
  | rolledBack hop hwf hst hO =>
    refine hfade (.idle hO (fun hpl => h.plain hpl hp v (.inl rfl)) ((h.tidy hp).2 v (.inl rfl))
      fun b hb => ?_)
    rw [h.txn.rolledBack_head hst]
    exact (h.moored b hb).touched (Txn.rolledBack_touched h.base h.txn hst)
  | committed hop hc =>
    obtain ⟨t', hO⟩ := hc.opened
    refine hfade (.idle hO (fun hpl => h.plain hpl hp g.cur (.inr (.inl rfl))) (h.tidy hp).1.clean
      fun b hb => ?_)
    obtain ⟨io, htouched, hio⟩ := hc.file
    have hpos : 0 < m'.txnCounter := by
      rw [hc.counter]
      exact Nat.succ_pos _
    exact hO.moored ((h.moored b hb).touched htouched).image hio ⟨[_, _], rfl⟩ hc.leads hpos
  | halted hop hpo htouched hhalt => exact hfade (h.halted hpo htouched hhalt)

theorem after_of_poisoned (op : Op) (hp : m.poisoned = true) : m.after op = m := by
  unfold TransactionManager.after
  rw [refuses_perform op m hp]

/-- Every operation leads from one state of a handle to another. -/
theorem Sane.after (h : Sane past m) (op : Op) :
    Sane (past.after m op (m.failure op)) (m.after op) := by
  cases hp : m.poisoned with
  | true =>
    rw [after_of_poisoned op hp]
    exact h.fade (past.fades_after m op _)
  | false =>
    cases h with
    | idle hO hplain hclean hb =>
      exact ((hO.step hp op).sane hO hplain hclean hb).fade (past.fades_after m op _)
    | running hR => exact (hR.step hp op).sane hR hp
    | dead hpo => exact absurd (hp.symm.trans hpo) nofun

end Any

end Chisel
