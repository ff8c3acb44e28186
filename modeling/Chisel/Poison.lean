import Chisel.KeyOps

/-! Poisoning: an error that leaves the state of the database in doubt shuts the handle down. Every
entry point tests the flag before it does anything, so a poisoned handle stays as it is. -/

namespace Chisel

open StateError PageCache TransactionManager

variable {m : TransactionManager} {e : ChiselError} {c : Prop} {op : Op}

/-- A poisoned manager answers `Poisoned` and does not move. -/
def Refuses {α : Type} (x : TxnM α) : Prop :=
  ∀ m : TransactionManager, m.poisoned = true → x m = .error .poisoned m

/-- A fatal error leaves the manager poisoned. -/
def Poisons {α : Type} (x : TxnM α) : Prop :=
  ∀ m, wp x m (fun _ _ => True) (fun e m' => e.isFatal = true → m'.poisoned = true)

/-! ### Refusal -/

section Refusal

variable {α β : Type} {x : TxnM α} {f : α → TxnM β}

theorem refuses_guarded (x : TxnM α) : Refuses (guarded x) := fun m hm => by
  simp [guarded, hm]

theorem Refuses.map (h : Refuses x) (g : α → β) : Refuses (g <$> x) := fun m hm =>
  map_of_error (h m hm)

theorem Refuses.bind (h : Refuses x) : Refuses (x >>= f) := fun m hm =>
  bind_of_error (h m hm)

theorem refuses_test (k : TransactionManager → PUnit → TxnM α) (y : TransactionManager → TxnM α) :
    Refuses (get >>= fun m => if m.poisoned then throw .poisoned >>= k m else y m) := fun m hm => by
  rw [get_bind_apply, if_pos hm, throw_bind_apply]

theorem refuses_keyOp (k : KeyOp) : Refuses k.run := fun m hm => by
  rw [k.run_eq, if_pos hm]

end Refusal

theorem refuses_perform (op : Op) : Refuses (perform op) := by
  cases op with
  | commit | defrag => exact (refuses_test _ _).map _
  | addKey existing new => exact (refuses_keyOp (.add existing new)).map _
  | rotateKey old new => exact (refuses_keyOp (.rotate old new)).map _
  | removeKey key => exact (refuses_keyOp (.remove key)).map _
  | setCacheMaxBytes | setSpillwayMaxBytes | setDrainInsertion => exact (refuses_test _ _).map _
  | stats | fileSizeBytes => exact (refuses_guarded _).bind.map _
  | _ => exact (refuses_guarded _).map _

theorem afterAll_of_poisoned (hm : m.poisoned = true) (ops : List Op) :
    m.afterAll ops = m := by
  induction ops with
  | nil => rfl
  | cons op rest ih =>
    have hstep : m.after op = m := by simp [after, refuses_perform op m hm]
    change (m.after op).afterAll rest = m
    rw [hstep, ih]

theorem answer_of_poisoned (hm : m.poisoned = true) (op : Op) :
    m.answer op = .error .poisoned := by
  simp [answer, refuses_perform op m hm]

/-! ### Fatal errors -/

section Fatal

variable {α β : Type} {x y : TxnM α} {f : α → TxnM β}

theorem poisons_pure (a : α) : Poisons (pure a : TxnM α) := fun _ => wp_ret trivial

theorem poisons_throw (h : e.isFatal = false) : Poisons (throw e : TxnM α) :=
  fun _ => wp_fail fun he => absurd he (by simp [h])

theorem poisons_get : Poisons (get : TxnM TransactionManager) := fun _ => wp_get.mpr trivial

theorem Poisons.bind (hx : Poisons x) (hf : ∀ a, Poisons (f a)) : Poisons (x >>= f) := fun m => by
  rw [wp_bind]
  exact wp_mono (hx m) (fun a m' _ => hf a m') fun _ _ h => h

theorem Poisons.map (hx : Poisons x) (g : α → β) : Poisons (g <$> x) := fun m => by
  rw [wp_map]
  exact hx m

theorem poisons_ite [Decidable c] (hx : Poisons x) (hy : Poisons y) :
    Poisons (if c then x else y) := fun m => wp_ite (fun _ => hx m) fun _ => hy m

theorem poisons_check [Decidable c] {k : PUnit → TxnM β} {y : TxnM β}
    (he : e.isFatal = false) (hy : Poisons y) :
    Poisons (if c then (throw e : TxnM PUnit) >>= k else y) :=
  poisons_ite (fun m => by rw [wp_bind]; exact wp_fail fun h => absurd h (by simp [he])) hy

theorem poisons_guarded (x : TxnM α) : Poisons (guarded x) := fun m => by
  refine wp_def.mpr ⟨fun _ _ _ => trivial, fun e m' h he => ?_⟩
  unfold guarded at h
  split at h
  · cases h
    cases he
  · split at h
    · cases h
    · cases h
      simp [he]

theorem poisons_onError (x : TxnM α) :
    Poisons (onError x fun m => { m with poisoned := true }) := fun _ =>
  wp_onError.mpr (wp_def.mpr ⟨fun _ _ _ => trivial, fun _ _ _ _ => rfl⟩)

end Fatal

theorem poisons_commit : Poisons commit :=
  poisons_get.bind fun _ => poisons_check rfl (poisons_check rfl (poisons_onError _))

theorem poisons_rewriteCryptoHeader (header : CryptoHeader) :
    Poisons (rewriteCryptoHeader header) :=
  poisons_get.bind fun _ => poisons_check rfl (poisons_check rfl (poisons_check rfl
    (poisons_check rfl (poisons_onError _))))

/-! ### Key operations -/

/-- A pure check whose errors are all harmless. -/
def Mild {α : Type} (x : Except ChiselError α) : Prop := ∀ e, x = .error e → e.isFatal = false

section Mild

variable {α β : Type} {x y : Except ChiselError α} {f : α → Except ChiselError β}

theorem mild_ok (a : α) : Mild (.ok a : Except ChiselError α) := nofun

theorem mild_error (h : e.isFatal = false) :
    Mild (.error e : Except ChiselError α) := by
  rintro _ ⟨⟩
  exact h

theorem Mild.bind (hx : Mild x) (hf : ∀ a, Mild (f a)) : Mild (x >>= f) := by
  cases x with
  | ok a => exact hf a
  | error e =>
    rintro _ ⟨⟩
    exact hx e rfl

theorem mild_ite [Decidable c] (hx : Mild x) (hy : Mild y) :
    Mild (if c then x else y) := by
  split <;> assumption

end Mild

namespace CryptoHeader

theorem mild_unlock (header : CryptoHeader) (key : Key) : Mild (header.unlock key) := by
  unfold unlock
  fun_induction unlockFrom key 0 header.slots with
  | case1 => exact mild_error rfl
  | case2 _ _ ih => exact ih
  | case3 => exact mild_ok _
  | case4 _ _ _ _ _ ih => exact ih

theorem mild_wrapFree (header : CryptoHeader) (new : Key) (dek : Dek) :
    Mild (header.wrapFree new dek) := by
  unfold wrapFree wrapInto
  split
  · exact mild_error rfl
  · exact mild_ite (mild_error rfl) (mild_ok _)

end CryptoHeader

/-- Editing the table fails only for what was asked. -/
theorem KeyOp.mild_edit (k : KeyOp) (header : CryptoHeader) : Mild (k.edit header) := by
  cases k with
  | add existing new =>
    exact (header.mild_unlock existing).bind fun r => header.mild_wrapFree new r.2
  | rotate old new =>
    exact (header.mild_unlock old).bind fun r =>
      (header.mild_wrapFree new r.2).bind fun _ => mild_ok _
  | remove key =>
    exact (header.mild_unlock key).bind fun r =>
      mild_ite (Mild.bind (mild_error rfl) fun _ => mild_ok _) (mild_ok _)

theorem poisons_keyOp (k : KeyOp) : Poisons k.run := by
  rw [k.run_eq_bind]
  refine Poisons.bind ?_ fun header => Poisons.bind ?_ poisons_rewriteCryptoHeader
  · refine poisons_get.bind fun m => poisons_check rfl ?_
    cases m.cryptoHeader with
    | none => exact poisons_throw rfl
    | some header => exact poisons_pure header
  · cases h : k.edit header with
    | error e => exact poisons_throw (k.mild_edit header e h)
    | ok header' => exact poisons_pure header'

/-! ### Every operation -/

theorem poisons_betweenTransactions (g : PageCache → PageCache) :
    Poisons (betweenTransactions (modify g)) :=
  poisons_get.bind fun _ => poisons_check rfl (poisons_check rfl fun _ =>
    wp_zoom.mpr ((wp_modify g).mpr trivial))

theorem poisons_stats : Poisons stats :=
  (poisons_guarded _).bind fun _ => (poisons_guarded _).bind
    fun _ => (poisons_guarded _).bind fun _ =>
    poisons_get.bind fun _ => poisons_pure _

theorem poisons_fileSizeBytes : Poisons fileSizeBytes :=
  (poisons_guarded _).bind fun _ => poisons_get.bind fun _ => poisons_pure _

theorem poisons_relocate (sparse : List Nat) (maxValues : Nat) (hs examined : List Nat)
    (moved : Nat) : Poisons (relocate sparse maxValues hs examined moved) := by
  induction hs generalizing examined moved with
  | nil => exact poisons_pure _
  | cons handle rest ih =>
    refine poisons_ite (poisons_pure _) ((poisons_guarded _).bind fun page => ?_)
    cases page with
    | none => exact ih examined moved
    | some id =>
      exact poisons_ite ((poisons_guarded _).bind fun _ => (poisons_guarded _).bind fun _ => ih _ _)
        (ih examined moved)

/-- Every step of a defragmentation is an entry point of its own. -/
theorem poisons_defrag (threshold : Option Threshold) (maxValues : Nat) :
    Poisons (defrag threshold maxValues) := by
  refine poisons_get.bind fun m => poisons_check rfl (poisons_check rfl
    (poisons_ite (poisons_pure _) ((poisons_guarded _).bind fun sparse => ?_)))
  have hrest : ∀ stats : DefragStats, Poisons do
      let reclaimed ← reclaimFreemapOrphans
      return { stats with freemapOrphansReclaimed := reclaimed } :=
    fun _ => (poisons_guarded _).bind fun _ => poisons_pure _
  refine poisons_ite ((poisons_pure _).bind hrest) ?_
  refine poisons_get.bind fun _ => (poisons_guarded _).bind fun hs =>
    (poisons_relocate sparse maxValues hs [] 0).bind fun _ => poisons_get.bind fun _ => ?_
  exact (poisons_pure _).bind hrest

theorem poisons_perform (op : Op) : Poisons (perform op) := by
  cases op with
  | commit => exact poisons_commit.map _
  | defrag threshold maxValues => exact (poisons_defrag threshold maxValues).map _
  | addKey existing new => exact (poisons_keyOp (.add existing new)).map _
  | rotateKey old new => exact (poisons_keyOp (.rotate old new)).map _
  | removeKey key => exact (poisons_keyOp (.remove key)).map _
  | setCacheMaxBytes | setSpillwayMaxBytes | setDrainInsertion =>
    exact (poisons_betweenTransactions _).map _
  | stats => exact poisons_stats.map _
  | fileSizeBytes => exact poisons_fileSizeBytes.map _
  | _ => exact (poisons_guarded _).map _

/-! ### The end of a handle -/

/-- The error a key operation raises inside `rewrite_crypto_header_inner`, if it gets there. -/
def KeyOp.raisedInside (k : KeyOp) (m : TransactionManager) : Option ChiselError :=
  if m.poisoned ∨ m.activeTxn ∨ m.cache.cipher.isNone ∨ m.cache.io.readOnly then none
  else do
    let header ← m.cryptoHeader
    let header' ← (k.edit header).toOption
    match rewriteCryptoHeaderInner header' m with
    | .ok _ _ => none
    | .error e _ => some e

/-- The operation fails in a way that leaves the state of the database in doubt. -/
inductive Fails (m : TransactionManager) : Op → ChiselError → Prop
  | fatal {op : Op} {e : ChiselError} (h : m.answer op = .error e) (he : e.isFatal = true) :
    Fails m op e
  | commit {e : ChiselError} (h : m.answer .commit = .error e) (he : e ≠ .noActiveTransaction) :
    Fails m .commit e
  | rewrite {k : KeyOp} {e : ChiselError} (h : m.answer k.toOp = .error e)
    (he : k.raisedInside m = some e) : Fails m k.toOp e

theorem after_of_answer (h : m.answer op = .error e) : perform op m = .error e (m.after op) := by
  unfold answer at h
  unfold after
  cases hp : perform op m with
  | ok r m' => simp [hp] at h
  | error e' m' => simp_all

/-- `commit` checks the flag and the transaction; every later failure poisons. -/
theorem commit_error {m' : TransactionManager} (h : commit m = .error e m')
    (he : e ≠ .noActiveTransaction) : m'.poisoned = true := by
  have hwp : wp commit m (fun _ _ => True)
      (fun e m' => e ≠ .noActiveTransaction → m'.poisoned = true) := by
    rw [commit, wp_bind, wp_get]
    refine wp_ite (fun hp => ?_) fun _ => wp_ite (fun _ => ?_) fun _ => ?_
    · rw [wp_bind, wp_throw]
      exact fun _ => hp
    · rw [wp_bind, wp_throw]
      exact fun h => absurd rfl h
    · exact wp_onError.mpr (wp_def.mpr ⟨fun _ _ _ => trivial, fun _ _ _ _ => rfl⟩)
  exact (wp_error h).mp hwp he

theorem KeyOp.raisedInside_spec {k : KeyOp}
    (h : k.raisedInside m = some e) : ∃ m', k.run m = .error e m' ∧ m'.poisoned = true := by
  unfold raisedInside at h
  split at h
  · cases h
  · next hg =>
    simp only [not_or, Bool.not_eq_true] at hg
    obtain ⟨hp, ha, hc, hr⟩ := hg
    rw [k.run_eq, hp]
    cases hh : m.cryptoHeader with
    | none => simp [hh] at h
    | some header =>
      cases hk : k.edit header with
      | error e' => simp [hh, hk, Except.toOption] at h
      | ok header' =>
        cases hi : rewriteCryptoHeaderInner header' m with
        | ok a m' => simp [hh, hk, hi, Except.toOption] at h
        | error e' m' =>
          obtain rfl : e' = e := by simpa [hh, hk, hi, Except.toOption] using h
          refine ⟨{ m' with poisoned := true }, ?_, rfl⟩
          simp only [hk, Bool.false_eq_true, if_false]
          rw [rewriteCryptoHeader_eq hp ha hc hr]
          simp only [onError, hi]

theorem Fails.poisoned (h : Fails m op e) :
    (m.after op).poisoned = true := by
  cases h with
  | fatal h he => exact (wp_error (after_of_answer h)).mp (poisons_perform op m) he
  | commit h he =>
    have hrun := after_of_answer h
    cases hc : TransactionManager.commit m with
    | ok a m' => simp [perform, quietly, Functor.map, EStateM.map, hc] at hrun
    | error e' m' =>
      rw [perform, quietly, map_of_error hc] at hrun
      cases hrun
      exact commit_error hc he
  | @rewrite k _ h he =>
    obtain ⟨m', hrun, hp⟩ := k.raisedInside_spec he
    have := after_of_answer h
    rw [k.perform_toOp, quietly, map_of_error hrun] at this
    cases this
    exact hp

/-- Once an operation has failed in such a way, every later operation on the handle answers
`Poisoned`, and the file stays as the failure left it. -/
theorem poisoned_for_good {m : TransactionManager} {op : Op} {e : ChiselError} (h : Fails m op e)
    (later : List Op) :
    (∀ next, ((m.after op).afterAll later).answer next = .error .poisoned) ∧
      ((m.after op).afterAll later).cache.io = (m.after op).cache.io := by
  rw [afterAll_of_poisoned h.poisoned]
  exact ⟨answer_of_poisoned h.poisoned, rfl⟩

/-- A transaction on a database that has used up its counter. -/
def exhausted : TransactionManager :=
  { ofRoots (PageCache.new (.openFile .empty [] pageSize false) 0 0 .lruTail)
      (rootsOf (.newEmpty 2)) 0 0 maxTxnCounter 2 ∅ none with activeTxn := true }

theorem exhausted_commit :
    exhausted.answer .commit = .error (.txnCounterExhausted maxTxnCounter) := by
  decide +kernel

theorem poisoned_for_good_exhausted :
    exhausted.answer .commit = .error (.txnCounterExhausted maxTxnCounter) ∧
      (∀ next, ((exhausted.after .commit).afterAll [.rollback, .begin]).answer next =
        .error .poisoned) ∧
      ((exhausted.after .commit).afterAll [.rollback, .begin]).cache.io =
        (exhausted.after .commit).cache.io :=
  ⟨exhausted_commit, poisoned_for_good (.commit exhausted_commit nofun) [.rollback, .begin]⟩

end Chisel
