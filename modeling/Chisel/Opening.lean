import Chisel.CacheLaw
import Chisel.SlotBank

/-! Opening a file from a superblock on, whatever the pages behind it are. The key gate and the
checks come first; after them the trees are read, and these are the only pages that recovery
looks at. -/

namespace Chisel

open StateError PageCache TransactionManager

section Opening

variable {c : PageCache} {key : Option Key} {w : Candidate}

theorem wp_liftCache {α : Type} {x : Except ChiselError α} {Q : α → PageCache → Prop}
    {E : ChiselError → PageCache → Prop} (hQ : ∀ a, x = .ok a → Q a c)
    (hE : ∀ e, x = .error e → E e c) : wp (liftCache x) c Q E := by
  cases x with
  | ok a => exact wp_ret (hQ a rfl)
  | error e => exact wp_fail (hE e rfl)

/-- Recovery is the probe, the choice of a slot, and what follows from that slot. -/
theorem openExisting_eq {page0 : DiskUnit} (hread : c.io.readPageUnit 0 = .ok page0) :
    openExisting key c =
      match winner (validSlots 0 (probeStride c.io page0).2) with
      | none => .error .corruptSuperblock { c with io := (probeStride c.io page0).1 }
      | some w => openFrom key w { c with io := (probeStride c.io page0).1 } := by
  unfold openExisting
  rw [get_bind_apply, hread]
  change (match winner (validSlots 0 (probeStride c.io page0).2) with
    | none => throw .corruptSuperblock
    | some w => openFrom key w : CacheM TransactionManager)
      { c with io := (probeStride c.io page0).1 } = _
  cases winner (validSlots 0 (probeStride c.io page0).2) <;> rfl

theorem deserialize_readCandidates {io : PageIo} {u : DiskUnit} (hu : u ∈ readCandidates io) :
    (∃ i, u = io.image.cell i) ∨ u = .torn := by
  obtain ⟨i, -, hi⟩ := List.mem_filterMap.mp hu
  unfold PageIo.readPageUnit at hi
  split at hi
  · cases hi
  · split at hi
    · exact .inl ⟨i, (Option.some.inj hi).symm⟩
    · exact .inr (Option.some.inj hi).symm

theorem probeStride_candidates (io : PageIo) (page0 : DiskUnit) :
    ∃ io' : PageIo, (probeStride io page0).2 = readCandidates io' ∧ io'.image = io.image := by
  unfold probeStride
  dsimp only
  split_ifs <;> exact ⟨_, rfl, rfl⟩

theorem probeStride_file (io : PageIo) (page0 : DiskUnit) :
    (probeStride io page0).1.image = io.image ∧ (probeStride io page0).1.trace = io.trace := by
  unfold probeStride
  dsimp only
  split_ifs <;> exact ⟨rfl, rfl⟩

/-- The cache at the moment the trees are read. -/
def PageCache.loading (c : PageCache) (sb : Superblock) (cipher : Option Dek) : PageCache :=
  { c with
    io := if newerMinor sb then c.io.forceReadOnly else c.io
    nextPageId := sb.totalPages
    cipher := cipher }

/-- The manager took over a superblock; `R` holds of what reading the trees did to the cache. -/
inductive Adopted (R : PageCache → PageCache → Prop) (key : Option Key) (w : Candidate)
    (c : PageCache) : TransactionManager → Prop
  | mk {sb : Superblock} {cipher : Option Dek} {c' : PageCache} {htDepth outerDepth : Nat}
    {live : AList fun _ : Nat => Nat} (unlock : unlockSuperblock w key = .ok (sb, cipher))
    (check : checkSuperblock sb = .ok ()) (fits : sb.totalPages ≤ c.filePageCount)
    (scan : R (c.loading sb cipher) c') :
    Adopted R key w c (ofRoots c' (rootsOf sb) htDepth outerDepth sb.txnCounter sb.superblockCount
      live sb.encryption)

/-- A superblock was not taken over. -/
inductive Rejected (F : ChiselError → PageCache → PageCache → Prop) (key : Option Key)
    (w : Candidate) (c : PageCache) : ChiselError → PageCache → Prop
  | unlock {e : ChiselError} (h : unlockSuperblock w key = .error e) : Rejected F key w c e c
  | check {sb : Superblock} {cipher : Option Dek} {e : ChiselError}
    (unlock : unlockSuperblock w key = .ok (sb, cipher)) (h : checkSuperblock sb = .error e) :
    Rejected F key w c e { c with cipher }
  | short {sb : Superblock} {cipher : Option Dek} {c' : PageCache} {expected actual : Nat}
    (unlock : unlockSuperblock w key = .ok (sb, cipher))
    (h : { c' with nextPageId := sb.totalPages } = c.loading sb cipher) :
    Rejected F key w c (.fileSizeMismatch expected actual) c'
  | scan {sb : Superblock} {cipher : Option Dek} {c' : PageCache} {e : ChiselError}
    (unlock : unlockSuperblock w key = .ok (sb, cipher)) (h : F e (c.loading sb cipher) c') :
    Rejected F key w c e c'

theorem wp_openFrom (R : PageCache → PageCache → Prop)
    (F : ChiselError → PageCache → PageCache → Prop) [CacheLaw R F] :
    wp (openFrom key w) c (fun m c' => c' = m.cache ∧ Adopted R key w c m)
      (Rejected F key w c) := by
  unfold openFrom
  rw [wp_bind]
  refine wp_liftCache (fun r hr => ?_) fun e he => .unlock he
  obtain ⟨sb, cipher⟩ := r
  dsimp only
  rw [wp_bind, wp_modify, wp_bind]
  refine wp_liftCache (fun _ hcheck => ?_) fun e he => .check hr he
  -- the trees are read one after the other, and the relation composes on the way
  have hscan : ∀ {α : Type} {x : CacheM α} {c1 : PageCache} {Q : α → PageCache → Prop},
      Stays R F x → R (c.loading sb cipher) c1 → (∀ a c2, R (c.loading sb cipher) c2 → Q a c2) →
      wp x c1 Q (Rejected F key w c) := by
    intro α x c1 Q hx hc1 hQ
    refine wp_mono (hx c1) (fun a c2 hc2 => hQ a c2 (Composes.trans F hc1 hc2)) fun e c' he => ?_
    exact .scan hr (Composes.fail hc1 he)
  have hrest : ∀ c1 : PageCache, c1.filePageCount = c.filePageCount →
      { c1 with nextPageId := sb.totalPages } = c.loading sb cipher → wp (do
        let pageCount := (← get).filePageCount
        if pageCount < sb.totalPages then
          let stride := (← get).io.stride
          throw (.fileSizeMismatch (satMul sb.totalPages stride) (satMul pageCount stride))
        modify fun c => { c with nextPageId := sb.totalPages }
        let roots := rootsOf sb
        let htDepth ← HandleTable.recoverDepth sb.rootHandleTablePage
        let outerDepth ← MembershipIndex.recoverDepth roots.membershipIndexPage
        let entries ← HandleTable.iterLive htDepth sb.rootHandleTablePage
        return ofRoots (← get) roots htDepth outerDepth sb.txnCounter sb.superblockCount
          (countLiveSlots entries) sb.encryption) c1
        (fun m c' => c' = m.cache ∧ Adopted R key w c m) (Rejected F key w c) := by
    intro c1 hcount hc1
    rw [wp_bind, wp_get]
    refine wp_ite (fun _ => ?_) fun hfits => ?_
    · rw [wp_bind, wp_get, wp_bind]
      exact wp_fail (.short hr hc1)
    rw [wp_bind, wp_modify, wp_bind, hc1]
    refine hscan (handleLayout.stays_recoverDepth _) (Composes.refl F _) fun htDepth c2 hc2 => ?_
    rw [wp_bind]
    refine hscan (radixU64.stays_recoverDepth _) hc2 fun outerDepth c3 hc3 => ?_
    rw [wp_bind]
    refine hscan (handleLayout.stays_iter _ _) hc3 fun entries c4 hc4 => ?_
    rw [wp_bind, wp_get]
    exact wp_ret ⟨rfl, .mk hr hcheck (hcount ▸ Nat.not_lt.mp hfits) hc4⟩
  cases hminor : newerMinor sb with
  | true =>
    rw [if_pos rfl, wp_bind, wp_modify]
    refine hrest _ rfl ?_
    unfold PageCache.loading
    rw [hminor, if_pos rfl]
  | false =>
    rw [if_neg Bool.false_ne_true]
    refine hrest _ rfl ?_
    unfold PageCache.loading
    rw [hminor, if_neg Bool.false_ne_true]

theorem wp_openExisting_adopts (R : PageCache → PageCache → Prop)
    (F : ChiselError → PageCache → PageCache → Prop) [CacheLaw R F] :
    wp (openExisting key) c (fun m _ => ∃ io w i, io.image = c.io.image ∧ io.trace = c.io.trace ∧
      w.unit = c.io.image.cell i ∧ Superblock.deserialize w.unit = some w.sb ∧
        Adopted R key w { c with io } m) (fun _ _ => True) := by
  unfold openExisting
  rw [wp_bind, wp_get, wp_bind]
  refine wp_liftCache (fun page0 _ => ?_) fun _ _ => trivial
  obtain ⟨io', hcand, himage⟩ := probeStride_candidates c.io page0
  obtain ⟨hio, htrace⟩ := probeStride_file c.io page0
  rw [wp_bind, wp_get]
  generalize probeStride c.io page0 = probed at hcand hio htrace
  obtain ⟨io, candidates⟩ := probed
  dsimp only at hcand hio htrace ⊢
  rw [wp_bind, wp_modify]
  split
  · exact wp_fail trivial
  next w hw =>
  obtain ⟨j, hj, -, hvalid⟩ := mem_validSlots.mp (winner_mem hw)
  refine wp_mono (wp_openFrom R F) ?_ fun _ _ _ => trivial
  rintro m c' ⟨-, hadopted⟩
  rcases deserialize_readCandidates (hcand ▸ List.mem_of_getElem? hj) with ⟨i, hi⟩ | htorn
  · exact ⟨io, w, i, hio, htrace, hi.trans (by rw [himage]), hvalid, hadopted⟩
  · rw [htorn] at hvalid
    cases hvalid

end Opening

end Chisel
