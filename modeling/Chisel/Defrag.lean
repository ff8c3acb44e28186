import Chisel.Content
import Chisel.Orphans

/-! The defragmentation pass. It moves the values of the sparse data pages, one after the other, by
an update with the value itself, and then it sweeps for orphans of the free map. What the handles
show is the same after each of these steps. -/

namespace Chisel

open StateError PageCache TransactionManager RadixTree Ledger Device

/-! ### The pass -/

/-- What is left of a manager after an error. -/
def TransactionManager.afterError (m : TransactionManager) (e : ChiselError) : TransactionManager :=
  if e.isFatal then { m with poisoned := true } else m

theorem TransactionManager.afterError_of_capacity {e : ChiselError} (h : e.isCapacity = true)
    (m : TransactionManager) : m.afterError e = m := by
  cases e with
  | cacheFull | spillwayFull => rfl
  | _ => cases h

section Programs

variable {α : Type} {x : TxnM α} {m : TransactionManager} {threshold : Option Threshold}
  {maxValues : Nat}

theorem defrag_eq (hp : m.poisoned = false) (ha : m.activeTxn = true) :
    defrag threshold maxValues m =
      if m.currentRoots.handleTablePage = pageIdNone ∧ m.currentRoots.freemapPage = pageIdNone then
        .ok ⟨0, 0, 0, 0⟩ m
      else (sparseDataPages threshold >>= fun sparse => compact sparse maxValues) m := by
  unfold defrag
  rw [get_bind_apply, hp, ha]
  rw [if_neg Bool.false_ne_true, if_neg (by decide)]
  by_cases hroots : m.currentRoots.handleTablePage = pageIdNone ∧
    m.currentRoots.freemapPage = pageIdNone
  · rw [if_pos hroots, if_pos hroots]
    rfl
  · rw [if_neg hroots, if_neg hroots]

theorem wp_alive {Q : α → TransactionManager → Prop} {E : ChiselError → TransactionManager → Prop}
    (hp : m.poisoned = false) (hx : wp x m Q fun e m' => E e (m'.afterError e)) :
    wp (guarded x) m Q E :=
  wp_guarded (fun hpo => absurd (hp.symm.trans hpo) nofun) fun _ => hx

end Programs

/-! ### Moving values -/

def Version.On (v : Version) (pages : List Nat) (handle : Nat) : Prop :=
  (v.entry handle).flags = .live ∧ (v.entry handle).pageId ∈ pages

/-- What holds of a pass over the handles `hs` when it is done with the first of them: looking keeps
it, passing over a handle that is on no sparse page keeps it, and so does the update of one that
is. -/
structure PassInv (ex : Prop) (o : Origin) (sparse hs : List Nat)
    (I : List Nat → TransactionManager → Ghost → Prop) : Prop where
  alive : ∀ {done m g}, I done m g → m.poisoned = false
  live : ∀ {done m g}, I done m g → ∀ handle ∈ hs, handle ∈ g.cur.live
  look : ∀ {done m g m'}, Txn ex o m g → I done m g → Looked m m' → I done m' g
  skip : ∀ {done handle rest m g}, hs = done ++ handle :: rest → I done m g →
    ¬ g.cur.On sparse handle → I (done ++ [handle]) m g
  move : ∀ {done handle rest m g m' g' e}, hs = done ++ handle :: rest → Txn ex o m g → I done m g →
    g.cur.On sparse handle → SameNames m m' → Became m g m' g' handle e (g.cur.content handle) →
    Restored m g (g.cur.value handle) e m' g' → I (done ++ [handle]) m' g'

/-- The pass ran out of memory on the way. -/
def Stopped (ex : Prop) (o : Origin) (I : List Nat → TransactionManager → Ghost → Prop)
    (e : ChiselError) (m' : TransactionManager) : Prop :=
  ∃ done m1 g1 m2 g2, Txn ex o m1 g1 ∧ I done m1 g1 ∧ Aborted ex o m1 g1 e m2 g2 ∧
    Exhausted e m2.cache.store ∧ m' = m2.afterError e

section Relocation

variable {ex : Prop} {o : Origin} {m m' : TransactionManager} {g : Ghost} {handle maxValues : Nat}
  {sparse hs done : List Nat} {I : List Nat → TransactionManager → Ghost → Prop}

theorem Stopped.of_refused {soft : ChiselError → Prop} {e : ChiselError} (h : Txn ex o m g)
    (hI : I done m g) (hr : Refused m soft e m') (hsoft : ¬ soft e) :
    Stopped ex o I e (m'.afterError e) :=
  ⟨done, m, g, m', g, h, hI, h.refused hr.1, hr.cause.resolve_right hsoft, rfl⟩

theorem Txn.wp_handleLivePageId (h : Txn ex o m g) (hI : I done m g) (hp : m.poisoned = false)
    (hhandle : handle ≤ u64Max) (hin : handle ∈ g.cur.live) :
    wp (handleLivePageId handle) m
      (fun r m' => Looked m m' ∧
        r = if (g.cur.entry handle).flags = .live then some (g.cur.entry handle).pageId else none)
      (Stopped ex o I) := by
  refine wp_alive hp ?_
  rw [wp_bind, wp_get, wp_bind]
  refine wp_mono (h.shown.wp_lookup hhandle) ?_ fun e m' hr => .of_refused h hI hr id
  rintro r m' ⟨hl, rfl⟩
  rw [if_pos hin]
  exact wp_ret ⟨hl, rfl⟩

theorem Txn.wp_read (h : Txn ex o m g) (hI : I done m g) (hp : m.poisoned = false)
    (hhandle : handle ≤ u64Max) (hin : handle ∈ g.cur.live) :
    wp (TransactionManager.read handle) m
      (fun b m' => Looked m m' ∧ b = g.cur.value handle) (Stopped ex o I) := by
  refine wp_alive hp (wp_mono (h.shown.wp_readInner hhandle) (fun _ _ h' => ⟨h'.1, h'.2.2⟩) ?_)
  intro e m' hr
  exact .of_refused h hI hr fun hno => hno.2 hin

theorem Txn.wp_rewrite (h : Txn ex o m g) (hI : I done m g) (hp : m.poisoned = false)
    (hhandle : handle ≤ u64Max) (hin : handle ∈ g.cur.live) :
    wp (update handle (g.cur.value handle)) m
      (fun _ m' => SameNames m m' ∧ ∃ g' e, Txn ex o m' g' ∧
        Became m g m' g' handle e (g.cur.content handle) ∧
        Restored m g (g.cur.value handle) e m' g') (Stopped ex o I) := by
  have hcontent : g.cur.content handle = some (g.cur.value handle, (g.cur.entry handle).tag,
      (g.cur.entry handle).clientByte) := if_pos hin
  rw [hcontent]
  refine wp_alive hp (wp_mono (h.wp_updateInner hhandle) (fun _ _ h' => h'.2) ?_)
  rintro e m' ⟨hcause, g', ha⟩
  exact ⟨done, m, g, m', g', h, hI, ha, hcause.resolve_right fun hno => hno.2 hin, rfl⟩

/-- The relocation loop, for anything that holds on the way. -/
theorem PassInv.wp_relocate (hI : PassInv ex o sparse hs I) (hle : ∀ handle ∈ hs, handle ≤ u64Max)
    {rest : List Nat} (hsplit : hs = done ++ rest) (h : Txn ex o m g) (hm : I done m g)
    (examined : List Nat) (moved : Nat) :
    wp (relocate sparse maxValues rest examined moved) m
      (fun r m' => (0 < maxValues → moved ≤ maxValues → r.2 ≤ maxValues) ∧
        ∃ done' g', (maxValues = 0 → done' = hs) ∧ Txn ex o m' g' ∧ I done' m' g')
      (Stopped ex o I) := by
  induction rest generalizing done m g examined moved with
  | nil =>
    rw [List.append_nil] at hsplit
    exact wp_ret ⟨fun _ hle => hle, done, g, fun _ => hsplit.symm, h, hm⟩
  | cons handle rest ih =>
    have hmem : handle ∈ hs := by
      rw [hsplit]
      exact List.mem_append_right _ List.mem_cons_self
    have hhandle := hle handle hmem
    have hsplit' : hs = (done ++ [handle]) ++ rest := by
      rw [hsplit, List.append_assoc]
      rfl
    unfold relocate
    refine wp_ite (fun hcap => wp_ret ⟨fun _ hle => hle, done, g, fun h0 => ?_, h, hm⟩)
      fun hcap => ?_
    · omega
    rw [wp_bind]
    refine wp_imp (h.wp_handleLivePageId hm (hI.alive hm) hhandle (hI.live hm handle hmem)) ?_
    rintro page m1 ⟨hl1, hpage⟩
    have h1 := h.looked hl1
    have hm1 := hI.look h hm hl1
    by_cases hon : g.cur.On sparse handle
    · rw [if_pos hon.1] at hpage
      subst hpage
      dsimp only
      rw [if_pos hon.2, wp_bind]
      refine wp_imp (h1.wp_read hm1 (hI.alive hm1) hhandle (hI.live hm1 handle hmem)) ?_
      rintro value m2 ⟨hl2, rfl⟩
      have h2 := h1.looked hl2
      have hm2 := hI.look h1 hm1 hl2
      rw [wp_bind]
      refine wp_imp (h2.wp_rewrite hm2 (hI.alive hm2) hhandle (hI.live hm2 handle hmem)) ?_
      rintro - m3 ⟨hnames, g3, e, h3, hbecame, hrestored⟩
      have hm3 := hI.move hsplit h2 hm2 hon hnames hbecame hrestored
      refine wp_imp (ih hsplit' h3 hm3 _ (moved + 1)) ?_
      rintro r m4 ⟨hcount, hrest⟩
      exact ⟨fun hpos hmoved => hcount hpos (by omega), hrest⟩
    · have hm2 := hI.skip hsplit hm1 hon
      have hnot : ∀ id, page = some id → id ∉ sparse := by
        rintro id rfl hid
        by_cases hf : (g.cur.entry handle).flags = .live
        · rw [if_pos hf] at hpage
          exact hon ⟨hf, Option.some.inj hpage ▸ hid⟩
        · rw [if_neg hf] at hpage
          cases hpage
      have hnext := ih hsplit' h1 hm2 examined moved
      cases page with
      | none => exact hnext
      | some id =>
        dsimp only
        rw [if_neg (hnot id rfl)]
        exact hnext

end Relocation

/-! ### The whole pass -/

/-- The sweep at the end of the pass failed. -/
def Unswept (ex : Prop) (o : Origin) (I : List Nat → TransactionManager → Ghost → Prop)
    (e : ChiselError) (m' : TransactionManager) : Prop :=
  ∃ done m1 g1 m2 g2, Txn ex o m1 g1 ∧ I done m1 g1 ∧ m1.savepoints = [] ∧
    Txn (ex ∧ e.isHard = false) o m2 g2 ∧
    MapOnward (e.isHard = true) (e.isFatal = true) m1 g1 m2 g2 ∧ SweepFailed m1 g1.tree e m2 ∧
    m1.currentRoots.freemapPage ≠ pageIdNone ∧ m' = m2.afterError e

section Pass

variable {ex : Prop} {o : Origin} {m m' : TransactionManager} {g : Ghost} {maxValues : Nat}
  {sparse hs done : List Nat} {I : List Nat → TransactionManager → Ghost → Prop}

theorem Txn.wp_handles (h : Txn ex o m g) (hI : I done m g) (hp : m.poisoned = false) :
    wp handles m (fun l m' => Looked m m' ∧ l = g.cur.live.sort (· ≤ ·)) (Stopped ex o I) := by
  refine wp_alive hp ?_
  rw [wp_bind, wp_get, wp_bind]
  refine wp_mono h.shown.wp_iterLive ?_ fun e m' hr => .of_refused h hI hr id
  rintro l m' ⟨hl, rfl⟩
  exact wp_ret ⟨hl, h.core.cur.listing_eq⟩

theorem Txn.wp_orphans (h : Txn ex o m g) (hI : I done m g) (hp : m.poisoned = false) :
    wp reclaimFreemapOrphans m
      (fun _ m' => ∃ g', Txn ex o m' g' ∧ MapOnward False False m g m' g') (Unswept ex o I) := by
  have ha := h.core.anchored.active
  by_cases hsave : m.savepoints = []
  · by_cases hroot : m.currentRoots.freemapPage = pageIdNone
    · refine wp_mono (wp_sweep_of_none hp ha hroot) ?_ fun _ _ => False.elim
      rintro n m' ⟨-, rfl⟩
      exact ⟨g, h, .refl m' g⟩
    refine wp_alive hp ?_
    rw [wp_bind, wp_requireActive ha]
    refine wp_mono (h.wp_reclaimOrphans hsave) ?_ ?_
    · rintro n m' ⟨g', h', hw, -⟩
      exact ⟨g', h', hw⟩
    · rintro e m' ⟨⟨g', h', hw⟩, hcause⟩
      exact ⟨done, m, g, m', g', h, hI, hsave, h', hw, hcause, hroot, rfl⟩
  · -- inside a savepoint nothing is swept
    refine wp_alive hp ?_
    rw [wp_bind, wp_requireActive ha]
    unfold reclaimOrphans
    rw [wp_bind, wp_get]
    refine wp_ite (fun _ => wp_ret ⟨g, h, .refl m g⟩) fun hsp => ?_
    exact absurd (by simpa using hsp) hsave

theorem SweepFailed.hard_or {t : PageTree Bool} {e : ChiselError} (h : SweepFailed m t e m') :
    e.isCapacity = true ∨ e = .panicked ∧ 2 ^ 58 ≤ m'.cache.nextPageId ∨
      ∃ x, Sealed m t x ∧ m.cache.store.Fits ∧ e = .decryptionFailed x := by
  rcases h with ⟨hcap, -⟩ | hx | ⟨⟨hcap, -⟩ | hmany, -⟩
  · exact .inl hcap
  · exact .inr (.inr hx)
  · exact .inl hcap
  · exact .inr (.inl hmany)

/-- The pass from the choice of the sparse pages on. -/
theorem PassInv.wp_compact (hI : PassInv ex o sparse (g.cur.live.sort (· ≤ ·)) I) (h : Txn ex o m g)
    (hm : I [] m g) :
    wp (compact sparse maxValues) m
      (fun stats m' => (0 < maxValues → stats.valuesMoved ≤ maxValues) ∧
        stats.pagesFreed = (m.packer.currentLiveSlots.keys.filter
          fun x => x ∉ m'.packer.currentLiveSlots.keys).length ∧
        ∃ done m1 g1 g', (maxValues = 0 → sparse ≠ [] → done = g.cur.live.sort (· ≤ ·)) ∧
          Txn ex o m1 g1 ∧ I done m1 g1 ∧ Txn ex o m' g' ∧ MapOnward False False m1 g1 m' g')
      (fun e m' => Stopped ex o I e m' ∨ Unswept ex o I e m') := by
  have hend : ∀ {done m1 g1} (stats : DefragStats), Txn ex o m1 g1 → I done m1 g1 →
      wp (do
        let reclaimed ← reclaimFreemapOrphans
        pure { stats with freemapOrphansReclaimed := reclaimed }) m1
      (fun stats' m' => stats'.valuesMoved = stats.valuesMoved ∧
        stats'.pagesFreed = stats.pagesFreed ∧ ∃ g', Txn ex o m' g' ∧
          MapOnward False False m1 g1 m' g')
      (fun e m' => Stopped ex o I e m' ∨ Unswept ex o I e m') := by
    intro done m1 g1 stats h1 hm1
    rw [wp_bind]
    refine wp_mono (h1.wp_orphans hm1 (hI.alive hm1)) ?_ fun e m' he => .inr he
    intro n m' hafter
    exact wp_ret ⟨rfl, rfl, hafter⟩
  unfold compact
  dsimp only
  by_cases hsparse : sparse = []
  · rw [if_pos (by rw [hsparse]; rfl), wp_bind]
    refine wp_ret (wp_mono (hend _ h hm) ?_ fun _ _ he => he)
    rintro stats m' ⟨hmoved, hfreed, g', h', hw⟩
    refine ⟨fun _ => by rw [hmoved]; exact Nat.zero_le _, ?_, [], m, g, g',
      fun _ hne => absurd hsparse hne, h, hm, h', hw⟩
    rw [hfreed, hw.packer, List.filter_eq_nil_iff.mpr fun x hx => by simpa using hx]
    rfl
  · rw [if_neg (by simpa using hsparse), wp_bind, wp_get, wp_bind]
    refine wp_mono (h.wp_handles hm (hI.alive hm)) ?_ fun _ _ he => .inl he
    rintro hs m1 ⟨hl, rfl⟩
    have h1 := h.looked hl
    have hle : ∀ handle ∈ g.cur.live.sort (· ≤ ·), handle ≤ u64Max := fun handle hh =>
      h.core.cur.live_le ((Finset.mem_sort _).mp hh)
    rw [wp_bind]
    refine wp_mono (hI.wp_relocate hle rfl h1 (hI.look h hm hl) [] 0) ?_ fun _ _ he => .inl he
    rintro ⟨examined, moved⟩ m2 ⟨hcount, done, g2, hdone, h2, hm2⟩
    rw [wp_bind, wp_get, wp_bind]
    refine wp_ret (wp_mono (hend _ h2 hm2) ?_ fun _ _ he => he)
    rintro stats m' ⟨hmoved, hfreed, g', h', hw⟩
    refine ⟨fun hpos => by rw [hmoved]; exact hcount hpos (Nat.zero_le _), ?_, done, m2, g2, g',
      fun h0 _ => hdone h0, h2, hm2, h', hw⟩
    rw [hfreed, hw.packer]

end Pass

section Choice

variable {ex : Prop} {o : Origin} {m : TransactionManager} {g : Ghost} {maxValues : Nat}
  {threshold : Option Threshold} {Q : DefragStats → TransactionManager → Prop}
  {E : ChiselError → TransactionManager → Prop}

theorem Txn.wp_sparseDataPages (h : Txn ex o m g) (hp : m.poisoned = false) :
    wp (sparseDataPages threshold) m
      (fun sparse m' => Looked m m' ∧ ∀ x ∈ sparse, 0 < g.cur.slots x)
      (fun e m' => Looked m m' ∧ e.isCapacity = true) := by
  refine wp_alive hp ?_
  cases threshold with
  | none => exact wp_ret ⟨⟨m.cache, ⟨h.core.wf, rfl⟩, rfl⟩, nofun⟩
  | some below =>
    rw [wp_bind, wp_get, wp_withCache]
    refine wp_mono (wp_sparseOf h below _ ⟨h.core.wf, rfl⟩) ?_ ?_
    · intro sparse c ⟨hc, hslots⟩
      exact ⟨⟨c, hc, rfl⟩, hslots⟩
    · intro e c ⟨hc, hcap, _⟩
      rw [afterError_of_capacity hcap]
      exact ⟨⟨c, hc, rfl⟩, hcap⟩

/-- `defrag`, from what the rest of the pass does. -/
theorem Txn.wp_defrag (h : Txn ex o m g) (hp : m.poisoned = false)
    (hnone : m.currentRoots.handleTablePage = pageIdNone →
      m.currentRoots.freemapPage = pageIdNone → Q ⟨0, 0, 0, 0⟩ m)
    (hpass : ∀ sparse m1, sparseDataPages threshold m = .ok sparse m1 → Looked m m1 →
      (∀ x ∈ sparse, 0 < g.cur.slots x) → wp (compact sparse maxValues) m1 Q E)
    (hfull : ∀ e m', e.isCapacity = true → Looked m m' → E e m') :
    wp (defrag threshold maxValues) m Q E := by
  have hchoice : wp (sparseDataPages threshold) m _ _ := h.wp_sparseDataPages hp
  have heq : defrag threshold maxValues m = _ := defrag_eq hp h.core.anchored.active
  split_ifs at heq with hroots
  · exact (wp_ok heq).mpr (hnone hroots.1 hroots.2)
  rw [wp_congr heq, wp_bind]
  refine wp_def.mpr ⟨fun sparse m1 hok => ?_, fun e m' herr => ?_⟩
  · obtain ⟨hl, hslots⟩ := (wp_ok hok).mp hchoice
    exact hpass sparse m1 hok hl hslots
  · obtain ⟨hl, hcap⟩ := (wp_error herr).mp hchoice
    exact hfull e m' hcap hl

end Choice

/-! ### The content -/

/-- A state of the pass: every handle shows what it showed. -/
structure Moving (m0 : TransactionManager) (g0 : Ghost) (m : TransactionManager) (g : Ghost) : Prop
    extends Onward False False m0 g0 m g where
  names : SameNames m0 m
  content : g.cur.content = g0.cur.content

section Content

variable {ex : Prop} {o : Origin} {m m' m0 : TransactionManager} {g g' g0 : Ghost} {maxValues : Nat}
  {sparse : List Nat} {x handle : Nat} {v v' : Version}

theorem Version.mem_live_iff_content : handle ∈ v.live ↔ v.content handle ≠ none := by
  unfold Version.content
  split <;> simp_all

theorem Version.withTag_congr (h : v'.content = v.content) : v'.withTag = v.withTag := by
  funext tag
  ext handle
  have hc := congrFun h handle
  unfold Version.content at hc
  unfold Version.withTag
  rw [Finset.mem_filter, Finset.mem_filter]
  by_cases hin : handle ∈ v.live <;> by_cases hin' : handle ∈ v'.live <;>
    simp only [hin, hin', if_true, if_false, Option.some.injEq, Prod.mk.injEq, reduceCtorEq] at hc
  · simp [hin, hin', hc.2.1]
  · simp [hin, hin']

theorem Moving.refl (m : TransactionManager) (g : Ghost) : Moving m g m g :=
  ⟨.refl m g, ⟨rfl, rfl, rfl⟩, rfl⟩

theorem Moving.alive (h : Moving m0 g0 m g) (hp : m0.poisoned = false) : m.poisoned = false :=
  (h.poisoned.resolve_left id).trans hp

theorem Moving.mem_live (h : Moving m0 g0 m g) (hh : handle ∈ g0.cur.live.sort (· ≤ ·)) :
    handle ∈ g.cur.live := by
  rw [Version.mem_live_iff_content, h.content, ← Version.mem_live_iff_content]
  exact (Finset.mem_sort _).mp hh

theorem Moving.looked (h : Moving m0 g0 m g) (ht : Txn ex o m g) (hl : Looked m m') :
    Moving m0 g0 m' g :=
  ⟨h.toOnward.trans (ht.onward_looked hl).toOnward, h.names.trans hl.sameRoots.toSameNames,
    h.content⟩

theorem Moving.became (h : Moving m0 g0 m g) (hn : SameNames m m') {e : HandleEntry}
    (hb : Became m g m' g' handle e (g.cur.content handle)) : Moving m0 g0 m' g' := by
  refine ⟨h.toOnward.trans hb.onward, h.names.trans hn, ?_⟩
  rw [hb.content, Function.update_eq_self, h.content]

theorem Moving.mapped (h : Moving m0 g0 m g) (hw : MapOnward False False m g m' g') :
    Moving m0 g0 m' g' := by
  refine ⟨h.toOnward.trans hw.toOnward, h.names.trans hw.roots.toSameNames, ?_⟩
  rw [hw.cur, h.content]

theorem passInv_moving (hp : m0.poisoned = false) :
    PassInv ex o sparse (g0.cur.live.sort (· ≤ ·)) (fun _ m g => Moving m0 g0 m g) where
  alive hm := hm.alive hp
  live hm _ hh := hm.mem_live hh
  look ht hm hl := hm.looked ht hl
  skip _ hm _ := hm
  move _ _ hm _ hn hb _ := hm.became hn hb

end Content

/-- The value of the handle is in a slot of the data page. -/
def TransactionManager.LivesOn (m : TransactionManager) (handle x : Nat) : Prop :=
  (m.entryOf handle).flags = .live ∧ (m.entryOf handle).pageId = x

/-- Two states with the same content: the live handles with their values, tags and client bytes, the
index of the tags, the named roots and the next handle. -/
structure SameContent (m m' : TransactionManager) : Prop where
  record : m'.record = m.record
  indexed : m'.indexed = m.indexed
  names : m'.currentRoots.namedRoots = m.currentRoots.namedRoots
  next : m'.currentRoots.nextHandle = m.currentRoots.nextHandle

section Result

variable {ex ex' : Prop} {o : Origin} {m m' : TransactionManager} {g g' : Ghost} {maxValues : Nat}
  {sparse : List Nat} {x handle : Nat} {v v' : Version}

theorem SameContent.of_versions (h : Shown m v) (h' : Shown m' v') (hn : SameNames m m')
    (hc : v'.content = v.content) : SameContent m m' := by
  refine ⟨?_, ?_, hn.names, hn.next⟩
  · rw [h.record_eq, h'.record_eq, hc]
  · funext tag handle
    rw [Bool.eq_iff_iff, h.indexed_iff, h'.indexed_iff, Version.withTag_congr hc]

theorem Version.slots_pos_iff (h : v.Ok m.cache.store.view) :
    0 < v.slots x ↔ (∃ handle, (v.entry handle).flags = .live ∧ (v.entry handle).pageId = x) ∨
      0 < v.stray x := by
  constructor
  · intro hx
    exact (Version.exists_slot hx).imp_left fun ⟨handle, _, hon⟩ => ⟨handle, hon⟩
  · rintro (⟨handle, hf, rfl⟩ | hs)
    · have hin : handle ∈ v.live := by
        rw [h.live_iff, hf]
        exact nofun
      have hle := Finset.single_le_sum (f := fun k => (v.entry k).slotAt (v.entry handle).pageId)
        (fun k _ => Nat.zero_le _) hin
      rw [HandleEntry.slotAt_of_live hf, one_self] at hle
      unfold Version.slots
      omega
    · unfold Version.slots
      omega

theorem Version.Clean.stray_eq_zero (h : v.Clean) (hf : (v.entry handle).flags = .live) :
    v.stray (v.entry handle).pageId = 0 := by
  by_contra hne
  have hslot := h _ (Nat.pos_of_ne_zero hne) handle
  rw [HandleEntry.slotAt_of_live hf, one_self] at hslot
  cases hslot

theorem Counts.mem_keys {live : AList fun _ : Nat => Nat} {n : Nat → Nat} (h : Counts live n) :
    x ∈ live.keys ↔ 0 < n x := by
  have hx := h x
  rw [← AList.mem_keys, ← AList.lookup_isSome, hx]
  by_cases h0 : n x = 0
  · simp [h0]
  · simp [h0, Nat.pos_of_ne_zero h0]

theorem Txn.pagesFreed_eq (h : Txn ex o m g) (h' : Txn ex' o m' g') (hclean : g.cur.Clean)
    (hstray : g'.cur.stray = g.cur.stray) :
    (m.packer.currentLiveSlots.keys.filter fun x => x ∉ m'.packer.currentLiveSlots.keys).length =
      Set.ncard {x | (∃ handle, m.LivesOn handle x) ∧ ¬ ∃ handle, m'.LivesOn handle x} := by
  have hset : {x | (∃ handle, m.LivesOn handle x) ∧ ¬ ∃ handle, m'.LivesOn handle x} =
      ((m.packer.currentLiveSlots.keys.filter
        fun x => x ∉ m'.packer.currentLiveSlots.keys).toFinset : Set Nat) := by
    ext x
    rw [Finset.mem_coe, List.mem_toFinset, List.mem_filter, decide_eq_true_iff,
      h.core.counts.mem_keys, h'.core.counts.mem_keys, Version.slots_pos_iff h.core.cur,
      Version.slots_pos_iff h'.core.cur, hstray, Set.mem_ofPred_eq]
    unfold TransactionManager.LivesOn
    rw [h.shown.entryOf_eq, h'.shown.entryOf_eq]
    constructor
    · rintro ⟨⟨handle, hf, rfl⟩, hno⟩
      refine ⟨.inl ⟨handle, hf, rfl⟩, ?_⟩
      rintro (hon | hpos)
      · exact hno hon
      · rw [hclean.stray_eq_zero hf] at hpos
        exact absurd hpos (Nat.lt_irrefl 0)
    · rintro ⟨hon | hpos, hno⟩
      · exact ⟨hon, fun hon' => hno (.inl hon')⟩
      · exact absurd (.inr hpos) hno
  have hnodup : m.packer.currentLiveSlots.keys.Nodup := m.packer.currentLiveSlots.nodupKeys
  rw [hset, Set.ncard_coe_finset, List.toFinset_card_of_nodup (hnodup.filter _)]

end Result

/-- What the pass reports, and the transaction that it leaves. -/
def Compacted (ex : Prop) (o : Origin) (maxValues : Nat) (m : TransactionManager) (g : Ghost)
    (stats : DefragStats) (m' : TransactionManager) : Prop :=
  (0 < maxValues → stats.valuesMoved ≤ maxValues) ∧
    stats.pagesFreed = (m.packer.currentLiveSlots.keys.filter
      fun x => x ∉ m'.packer.currentLiveSlots.keys).length ∧
    ∃ g', Txn ex o m' g' ∧ Moving m g m' g'

section Preservation

variable {ex : Prop} {o : Origin} {m m1 : TransactionManager} {g : Ghost} {maxValues : Nat}
  {pass : TxnM DefragStats}

/-- What the pass keeps when it returns, and when memory runs out. -/
theorem Txn.wp_compact_content (h : Txn ex o m g) (hp : m.poisoned = false) (hl : Looked m m1)
    (sparse : List Nat) :
    wp (compact sparse maxValues) m1 (Compacted ex o maxValues m g)
      (fun e m' => e.isCapacity = true → SameContent m m') := by
  have hI : PassInv ex o sparse (g.cur.live.sort (· ≤ ·)) fun _ m' g' => Moving m g m' g' :=
    passInv_moving hp
  have hpacker : m1.packer = m.packer := (h.onward_looked hl).packer
  refine wp_mono (hI.wp_compact (h.looked hl) ((Moving.refl m g).looked h hl)) ?_ ?_
  · rintro stats m' ⟨hmoved, hfreed, -, m2, g2, g', -, -, hm2, h', hw⟩
    rw [hpacker] at hfreed
    exact ⟨hmoved, hfreed, g', h', hm2.mapped hw⟩
  · rintro e m' (⟨-, m2, g2, m3, g3, h2, hm2, ha, -, rfl⟩ |
      ⟨-, m2, g2, m3, g3, h2, hm2, -, h3, hw, -, -, rfl⟩) hcap
    · rw [afterError_of_capacity hcap]
      obtain ⟨more, hcur⟩ := ha.cur
      refine .of_versions h.shown (ha.txn h2).shown (hm2.names.trans ha.roots.toSameNames) ?_
      rw [hcur, Version.content_strayed, hm2.content]
    · rw [afterError_of_capacity hcap]
      refine .of_versions h.shown h3.shown (hm2.names.trans hw.roots.toSameNames) ?_
      rw [hw.cur, hm2.content]

theorem Txn.wp_defrag_content (h : Txn ex o m g) (hp : m.poisoned = false)
    (threshold : Option Threshold) :
    wp (defrag threshold maxValues) m (Compacted ex o maxValues m g)
      (fun e m' => e.isCapacity = true → SameContent m m') := by
  refine h.wp_defrag hp (fun _ _ => ⟨fun _ => Nat.zero_le _, ?_, g, h, .refl m g⟩)
    (fun sparse m1 _ hl _ => h.wp_compact_content hp hl sparse) fun e m' _ hl _ => ?_
  · rw [List.filter_eq_nil_iff.mpr fun x hx => by simpa using hx]
    rfl
  · exact .of_versions h.shown (h.looked hl).shown hl.sameRoots.toSameNames rfl

theorem compact_poisoned (hpo : m.poisoned = true) (sparse : List Nat) :
    compact sparse maxValues m = .error .poisoned m := by
  unfold compact
  dsimp only
  split
  · exact (refuses_guarded _).bind m hpo
  · rw [get_bind_apply]
    exact (refuses_guarded _).bind m hpo

end Preservation

/-- A pass of the defragmentation in a transaction, with or without savepoints, whether it chooses
the sparse pages itself or is given them: if it returns, then the content is the same, it moved no
more values than it may, and it counts the data pages that held a value before and hold none now. If
it runs out of memory, then the content is the same as well. -/
theorem defrag_keeps_content {f : DbFile} (hf : f.image.len = 0 ∨ f.Sound) (steps : List Step)
    {m : TransactionManager} (hrun : (Db.closed f).run steps = .opened m)
    (hactive : m.activeTxn = true) {pass : TxnM DefragStats} {maxValues : Nat}
    (hpass : (∃ threshold, pass = defrag threshold maxValues) ∨
      ∃ sparse, pass = compact sparse maxValues) :
    (∀ stats m', pass m = .ok stats m' → SameContent m m' ∧
      (maxValues ≠ 0 → stats.valuesMoved ≤ maxValues) ∧
      stats.pagesFreed =
        Set.ncard {x | (∃ handle, m.LivesOn handle x) ∧ ¬ ∃ handle, m'.LivesOn handle x}) ∧
    (∀ e m', pass m = .error e m' → e.isCapacity = true → SameContent m m') := by
  have hs : Sane .unknown m := (dbOk_unknown hf).reaches hrun
  by_cases hpo : m.poisoned = true
  · have hrefuse : pass m = .error .poisoned m := by
      rcases hpass with ⟨threshold, rfl⟩ | ⟨sparse, rfl⟩
      · exact refuses_test _ _ m hpo
      · exact compact_poisoned hpo sparse
    rw [hrefuse]
    refine ⟨nofun, fun e m' herr hcap => ?_⟩
    cases herr
    cases hcap
  have hp : m.poisoned = false := Bool.eq_false_of_not_eq_true hpo
  cases hs with
  | idle hO => exact absurd (hactive.symm.trans hO.inactive) nofun
  | dead hpo' => exact absurd hpo' hpo
  | running hR =>
    rename_i m0 v t lost0 g
    have h := hR.txn
    have hwp : wp pass m (Compacted Past.unknown.exact (m0.origin v t) maxValues m g)
        (fun e m' => e.isCapacity = true → SameContent m m') := by
      rcases hpass with ⟨threshold, rfl⟩ | ⟨sparse, rfl⟩
      · exact h.wp_defrag_content hp threshold
      · exact h.wp_compact_content hp ⟨m.cache, ⟨h.core.wf, rfl⟩, rfl⟩ sparse
    refine ⟨fun stats m' hok => ?_, fun e m' herr => (wp_error herr).mp hwp⟩
    obtain ⟨hmoved, hfreed, g', h', hm⟩ := (wp_ok hok).mp hwp
    refine ⟨.of_versions h.shown h'.shown hm.names hm.content,
      fun hne => hmoved (Nat.pos_of_ne_zero hne), ?_⟩
    rw [hfreed]
    exact h.pagesFreed_eq h' (hR.tidy hp).1.clean (hm.stray.resolve_left id)

/-- Inside a savepoint both values of the only data page move to a new one. -/
theorem defrag_keeps_content_moved :
    ∃ m stats m', (Db.closed .empty).run [.open {}, .op .begin, .op (.allocate [1]),
        .op (.allocate [2]), .op (.savepoint "a")] = .opened m ∧
      defrag (some fun _ _ => true) 2 m = .ok stats m' ∧ SameContent m m' ∧ stats.valuesMoved = 2 ∧
      Set.ncard {x | (∃ handle, m.LivesOn handle x) ∧ ¬ ∃ handle, m'.LivesOn handle x} = 1 := by
  have hend : ((Db.closed .empty).run [.open {}, .op .begin, .op (.allocate [1]),
      .op (.allocate [2]), .op (.savepoint "a")]).holds (fun m => m.activeTxn &&
        gives (defrag (some fun _ _ => true) 2)
          (fun stats _ => stats.valuesMoved == 2 && stats.pagesFreed == 1) m) = true := by
            decide +kernel
  obtain ⟨m, hm, hp⟩ := Db.of_holds hend
  rw [Bool.and_eq_true] at hp
  obtain ⟨stats, m', hok, hpass⟩ := exists_of_gives hp.2
  rw [Bool.and_eq_true, beq_iff_eq, beq_iff_eq] at hpass
  obtain ⟨hsame, -, hfreed⟩ :=
    (defrag_keeps_content (.inl rfl) _ hm hp.1 (.inl ⟨_, rfl⟩)).1 stats m' hok
  exact ⟨m, stats, m', hm, hok, hsame, hpass.1, hfreed.symm.trans hpass.2⟩

/-! ### Draining -/

/-- The first value that the pass moves goes back to a sparse page: new values go to a page that is
sparse itself, and that page has room for it. -/
def TransactionManager.Returns (m : TransactionManager) (sparse : List Nat) : Prop :=
  ∃ handle value tag byte, m.record handle = some (value, tag, byte) ∧
    (∃ x ∈ sparse, m.LivesOn handle x) ∧ (∀ k < handle, ∀ x ∈ sparse, ¬ m.LivesOn k x) ∧
    m.cursorTakes value ∧ ∃ x ∈ sparse, m.packer.insertCursor = some x

/-- The same of a version: `handle` is the first one on a sparse page. -/
def Version.FirstOn (v : Version) (sparse : List Nat) (handle : Nat) : Prop :=
  v.On sparse handle ∧ ∀ k < handle, ¬ v.On sparse k

theorem TransactionManager.waiting_pos_of_freed (m : TransactionManager) {x : Nat}
    (hx : x ∈ m.txnFreedPages) : 0 < m.waiting x := by
  have hcount := count_pos.mpr hx
  unfold TransactionManager.waiting
  omega

section Draining

variable {ex : Prop} {o : Origin} {m m' m0 : TransactionManager} {g g' g0 : Ghost} {v : Version}
  {sparse done rest : List Nat} {x handle first page : Nat} {value : Bytes} {e : HandleEntry}

theorem Version.On.mem_live {view : Nat → Option Page} (h : v.On sparse handle) (hok : v.Ok view) :
    handle ∈ v.live := by
  rw [hok.live_iff, h.1]
  exact nofun

theorem Shown.exists_livesOn (h : Shown m v) : (∃ x ∈ sparse, m.LivesOn handle x) ↔
    v.On sparse handle := by
  unfold TransactionManager.LivesOn
  rw [h.entryOf_eq]
  constructor
  · rintro ⟨x, hx, hf, rfl⟩
    exact ⟨hf, hx⟩
  · rintro ⟨hf, hx⟩
    exact ⟨_, hx, hf, rfl⟩

theorem Shown.returns_iff (h : Shown m v) : m.Returns sparse ↔
    ∃ first, v.FirstOn sparse first ∧ m.cursorTakes (v.value first) ∧
      ∃ x ∈ sparse, m.packer.insertCursor = some x := by
  have hbefore : ∀ k, (∀ x ∈ sparse, ¬ m.LivesOn k x) ↔ ¬ v.On sparse k := by
    intro k
    rw [← h.exists_livesOn]
    simp only [not_exists, not_and]
  unfold TransactionManager.Returns Version.FirstOn
  rw [h.record_eq]
  simp only [h.exists_livesOn, hbefore]
  constructor
  · rintro ⟨first, value, tag, byte, hrec, hon, hleast, htakes, hcursor⟩
    rw [Version.content, if_pos (hon.mem_live h.ok)] at hrec
    cases hrec
    exact ⟨first, ⟨hon, hleast⟩, htakes, hcursor⟩
  · rintro ⟨first, ⟨hon, hleast⟩, htakes, hcursor⟩
    exact ⟨first, _, _, _, if_pos (hon.mem_live h.ok), hon, hleast, htakes, hcursor⟩

theorem mem_of_lt_of_sort {s : Finset Nat} (hsplit : s.sort (· ≤ ·) = done ++ handle :: rest)
    {k : Nat} (hk : k ∈ s) (hlt : k < handle) : k ∈ done := by
  have hsorted : (done ++ handle :: rest).Pairwise (· ≤ ·) :=
    hsplit ▸ Finset.pairwise_sort s (· ≤ ·)
  have hmem : k ∈ done ++ handle :: rest := hsplit ▸ (Finset.mem_sort _).mpr hk
  rcases List.mem_append.mp hmem with hin | hin
  · exact hin
  · have hle : handle ≤ k := by
      rcases List.mem_cons.mp hin with rfl | hin
      · exact le_rfl
      · exact List.rel_of_pairwise_cons (List.pairwise_append.mp hsorted).2.1 hin
    omega

theorem not_mem_of_sort {s : Finset Nat} (hsplit : s.sort (· ≤ ·) = done ++ handle :: rest) :
    handle ∉ done := by
  have hnodup : (done ++ handle :: rest).Nodup := hsplit ▸ Finset.sort_nodup s (· ≤ ·)
  intro hin
  exact (List.disjoint_of_nodup_append hnodup) hin List.mem_cons_self

theorem Restored.live (h : Txn ex o m g) (hf : (g.cur.entry handle).flags = .live)
    (hr : Restored m g (g.cur.value handle) e m' g') : e.flags = .live := by
  have hin : handle ∈ g.cur.live := by
    rw [h.core.cur.live_iff, hf]
    exact nofun
  exact hr.long.mpr ((h.core.cur.placed handle hin).short hf)

theorem Looked.cursorTakes_iff (hl : Looked m m') : m'.cursorTakes value ↔ m.cursorTakes value := by
  obtain ⟨c, hc, rfl⟩ := hl
  unfold TransactionManager.cursorTakes
  change CursorTakes c.store.view _ _ ↔ _
  rw [hc.2]

/-- A state of a pass that drains the sparse pages: the handles that it came by are not on one.
Until the first value moved nothing has changed; from then on the page for new values is not a
sparse one. -/
structure Draining (m0 : TransactionManager) (g0 : Ghost) (sparse done : List Nat)
    (m : TransactionManager) (g : Ghost) : Prop extends Moving m0 g0 m g where
  held : ∀ x ∈ sparse, 0 < g.cur.slots x ∨ x ∈ m.txnFreedPages
  settled : ∀ handle ∈ done, ¬ g.cur.On sparse handle
  cursor : (Looked m0 m ∧ g = g0) ∨ ∀ x ∈ sparse, m.packer.insertCursor ≠ some x

theorem Draining.lands (hm : Draining m0 g0 sparse done m g) (h : Txn ex o m g)
    (hsplit : g0.cur.live.sort (· ≤ ·) = done ++ handle :: rest)
    (hno : ∀ first, g0.cur.FirstOn sparse first → m0.cursorTakes (g0.cur.value first) →
      ∀ x ∈ sparse, m0.packer.insertCursor ≠ some x)
    (hon : g.cur.On sparse handle) (hr : Restored m g (g.cur.value handle) e m' g') :
    e.pageId ∉ sparse := by
  intro hin
  rcases hr.lands (hr.live h hon.1) with ⟨htakes, hcursor⟩ | ⟨-, hw⟩
  · rcases hm.cursor with ⟨hl, rfl⟩ | hcursor'
    · have hfirst : g.cur.FirstOn sparse handle := ⟨hon, fun k hk hon' =>
        hm.settled k (mem_of_lt_of_sort hsplit (hon'.mem_live h.core.cur) hk) hon'⟩
      have hpacker : m.packer = m0.packer := by
        obtain ⟨c, -, rfl⟩ := hl
        rfl
      exact hno handle hfirst (hl.cursorTakes_iff.mp htakes) e.pageId hin (hpacker ▸ hcursor)
    · exact hcursor' e.pageId hin hcursor
  · -- a sparse page is in use, or it waits for the commit
    refine h.core.not_writable ?_ hw
    rcases hm.held e.pageId hin with hslots | hfreed
    · have := Version.own_pos_of_slots hslots
      omega
    · have := m.waiting_pos_of_freed hfreed
      omega

theorem Draining.moved (hm : Draining m0 g0 sparse done m g) (h : Txn ex o m g)
    (hland : e.pageId ∉ sparse) (hon : g.cur.On sparse handle) (hn : SameNames m m')
    (hb : Became m g m' g' handle e (g.cur.content handle))
    (hr : Restored m g (g.cur.value handle) e m' g') :
    Draining m0 g0 sparse (done ++ [handle]) m' g' := by
  have hentry : ∀ k, g'.cur.On sparse k → k ≠ handle ∧ g.cur.On sparse k := by
    intro k
    unfold Version.On
    rw [hb.entry]
    by_cases hk : k = handle
    · subst hk
      rw [Function.update_self]
      exact fun hon' => absurd hon'.2 hland
    · rw [Function.update_of_ne hk]
      exact fun hon' => ⟨hk, hon'⟩
  refine ⟨hm.toMoving.became hn hb, fun x hx => ?_, fun k hk hon' => ?_,
    .inr fun x hx hcursor => ?_⟩
  · by_cases h0 : g'.cur.slots x = 0
    · rcases hm.held x hx with hslots | hfreed
      · exact .inr (hr.drained x hslots h0)
      · exact .inr (hr.freed x hfreed)
    · exact .inl (Nat.pos_of_ne_zero h0)
  · obtain ⟨hne, hon'⟩ := hentry k hon'
    rcases List.mem_append.mp hk with hk | hk
    · exact hm.settled k hk hon'
    · exact hne (List.mem_singleton.mp hk)
  · rcases hr.cursor x hcursor with rfl | ⟨-, hlong⟩
    · exact hland hx
    · exact hlong (hr.live h hon.1)

theorem passInv_draining (hp : m0.poisoned = false)
    (hno : ∀ first, g0.cur.FirstOn sparse first → m0.cursorTakes (g0.cur.value first) →
      ∀ x ∈ sparse, m0.packer.insertCursor ≠ some x) :
    PassInv ex o sparse (g0.cur.live.sort (· ≤ ·)) (Draining m0 g0 sparse) where
  alive hm := hm.alive hp
  live hm _ hh := hm.mem_live hh
  look ht hm hl := by
    have hw := ht.onward_looked hl
    refine ⟨hm.toMoving.looked ht hl, ?_, hm.settled, ?_⟩
    · rw [hw.freed]
      exact hm.held
    · rw [hw.packer]
      exact hm.cursor.imp_left fun h => ⟨h.1.trans hl, h.2⟩
  skip _ hm hon := by
    refine ⟨hm.toMoving, hm.held, fun k hk => ?_, hm.cursor⟩
    rcases List.mem_append.mp hk with hk | hk
    · exact hm.settled k hk
    · rw [List.mem_singleton.mp hk]
      exact hon
  move hsplit h hm hon hn hb hr := hm.moved h (hm.lands h hsplit hno hon hr) hon hn hb hr

/-- A state of a pass whose first value goes back to a sparse page: it stays there. -/
structure Returning (m0 : TransactionManager) (g0 : Ghost) (page first : Nat) (done : List Nat)
    (m : TransactionManager) (g : Ghost) : Prop extends Moving m0 g0 m g where
  state : (first ∉ done ∧ Looked m0 m ∧ g = g0) ∨
    first ∈ done ∧ (g.cur.entry first).flags = .live ∧ (g.cur.entry first).pageId = page

theorem Returning.moved (hm : Returning m0 g0 page first done m g) (h : Txn ex o m g)
    (hsplit : g0.cur.live.sort (· ≤ ·) = done ++ handle :: rest)
    (hfirst : g0.cur.FirstOn sparse first) (htakes : m0.cursorTakes (g0.cur.value first))
    (hcursor : m0.packer.insertCursor = some page) (hon : g.cur.On sparse handle)
    (hn : SameNames m m') (hb : Became m g m' g' handle e (g.cur.content handle))
    (hr : Restored m g (g.cur.value handle) e m' g') :
    Returning m0 g0 page first (done ++ [handle]) m' g' := by
  refine ⟨hm.toMoving.became hn hb, .inr ?_⟩
  rw [hb.entry]
  rcases hm.state with ⟨hnot, hl, rfl⟩ | ⟨hin, hpage⟩
  · -- this is the first value that moves
    obtain rfl : first = handle := by
      rcases Nat.lt_trichotomy first handle with hlt | heq | hgt
      · exact absurd (mem_of_lt_of_sort hsplit (hfirst.1.mem_live h.core.cur) hlt) hnot
      · exact heq
      · exact absurd hon (hfirst.2 handle hgt)
    rw [Function.update_self]
    have hlive := hr.live h hon.1
    refine ⟨List.mem_append_right _ (List.mem_singleton_self _), hlive, ?_⟩
    rcases hr.lands hlive with ⟨-, hpage⟩ | ⟨hno, -⟩
    · obtain ⟨c, -, rfl⟩ := hl
      exact Option.some.inj (hpage.symm.trans hcursor)
    · exact absurd (hl.cursorTakes_iff.mpr htakes) hno
  · have hne : first ≠ handle := fun heq => not_mem_of_sort hsplit (heq ▸ hin)
    rw [Function.update_of_ne hne]
    exact ⟨List.mem_append_left _ hin, hpage⟩

theorem passInv_returning (hp : m0.poisoned = false) (hfirst : g0.cur.FirstOn sparse first)
    (htakes : m0.cursorTakes (g0.cur.value first)) (hcursor : m0.packer.insertCursor = some page) :
    PassInv ex o sparse (g0.cur.live.sort (· ≤ ·)) (Returning m0 g0 page first) where
  alive hm := hm.alive hp
  live hm _ hh := hm.mem_live hh
  look ht hm hl :=
    ⟨hm.toMoving.looked ht hl, hm.state.imp_left fun h => ⟨h.1, h.2.1.trans hl, h.2.2⟩⟩
  skip _ hm hon := by
    refine ⟨hm.toMoving, ?_⟩
    rcases hm.state with ⟨hnot, hl, rfl⟩ | ⟨hin, hpage⟩
    · refine .inl ⟨fun hin => ?_, hl, rfl⟩
      rcases List.mem_append.mp hin with hin | hin
      · exact hnot hin
      · exact hon (List.mem_singleton.mp hin ▸ hfirst.1)
    · exact .inr ⟨List.mem_append_left _ hin, hpage⟩
  move hsplit h hm hon hn hb hr := hm.moved h hsplit hfirst htakes hcursor hon hn hb hr

end Draining

section Drained

variable {ex : Prop} {o : Origin} {m m1 m' : TransactionManager} {g : Ghost} {sparse : List Nat}
  {first page : Nat}

/-- What is left of the sparse pages: no value is on one, and all of them wait for the commit. -/
def TransactionManager.Drained (m : TransactionManager) (sparse : List Nat) : Prop :=
  ∀ x ∈ sparse, (¬ ∃ handle, m.LivesOn handle x) ∧ x ∈ m.txnFreedPages

theorem Txn.stray_of_freed (h : Txn ex o m g) {x : Nat} (hx : x ∈ m.txnFreedPages) :
    g.cur.stray x = 0 := by
  by_contra hne
  have hown : 0 < g.cur.own x := Version.own_pos_of_slots (by unfold Version.slots; omega)
  have hwaits := m.waiting_pos_of_freed hx
  have hl := h.core.ledger x
  have hone := between_le o.lo m.cache.store.next x
  omega

theorem Txn.not_livesOn (h : Txn ex o m g) (hnone : m.currentRoots.handleTablePage = pageIdNone)
    (handle x : Nat) : ¬ m.LivesOn handle x := by
  have hnil := (h.tied.table.none_iff h.shown.table_holds h.core.next_le).mp hnone
  unfold TransactionManager.LivesOn
  rw [h.shown.entryOf_eq, Version.entry, hnil, PageTree.content_nil]
  rintro ⟨⟨⟩, -⟩

theorem Txn.livesOn_of_drained {g' : Ghost} (h : Txn ex o m g) (h' : Txn ex o m' g')
    (hstray : g'.cur.stray = g.cur.stray) (hslots : ∀ x ∈ sparse, 0 < g.cur.slots x)
    (hd : m'.Drained sparse) : ∀ x ∈ sparse, ∃ handle, m.LivesOn handle x := by
  intro x hx
  have h0 := h'.stray_of_freed (hd x hx).2
  rw [hstray] at h0
  unfold TransactionManager.LivesOn
  rw [h.shown.entryOf_eq]
  exact ((Version.slots_pos_iff h.core.cur).mp (hslots x hx)).resolve_right (by omega)

theorem Txn.wp_compact_drains (h : Txn ex o m g) (hp : m.poisoned = false) (hl : Looked m m1)
    (hclean : g.cur.Clean) (hslots : ∀ x ∈ sparse, 0 < g.cur.slots x)
    (hlive : ∀ x ∈ sparse, ∃ handle, m.LivesOn handle x) (hno : ¬ m.Returns sparse) :
    wp (compact sparse 0) m1 (fun _ m' => m'.Drained sparse) (fun _ _ => True) := by
  have hcursor : ∀ first, g.cur.FirstOn sparse first → m.cursorTakes (g.cur.value first) →
      ∀ x ∈ sparse, m.packer.insertCursor ≠ some x := fun first hfirst htakes x hx hc =>
    hno (h.shown.returns_iff.mpr ⟨first, hfirst, htakes, x, hx, hc⟩)
  have hI : PassInv ex o sparse (g.cur.live.sort (· ≤ ·)) (Draining m g sparse) :=
    passInv_draining hp hcursor
  have hstart : Draining m g sparse [] m1 g :=
    ⟨(Moving.refl m g).looked h hl, fun x hx => .inl (hslots x hx), nofun, .inl ⟨hl, rfl⟩⟩
  refine wp_mono (hI.wp_compact (h.looked hl) hstart) ?_ fun _ _ _ => trivial
  rintro stats m' ⟨-, -, done, m2, g2, g', hdone, -, hm2, h', hw⟩ x hx
  have hnone : ¬ ∃ handle, m'.LivesOn handle x := by
    rintro ⟨handle, hon⟩
    have hon' : g2.cur.On sparse handle := by
      rw [← hw.cur]
      exact h'.shown.exists_livesOn.mp ⟨x, hx, hon⟩
    refine hm2.settled handle ?_ hon'
    rw [hdone rfl (List.ne_nil_of_mem hx), Finset.mem_sort, Version.mem_live_iff_content,
      ← hm2.content, ← Version.mem_live_iff_content, ← hw.cur]
    exact (hw.cur ▸ hon').mem_live h'.core.cur
  refine ⟨hnone, ?_⟩
  rw [hw.freed]
  refine (hm2.held x hx).resolve_left fun hpos => ?_
  rw [← hw.cur, Version.slots_pos_iff h'.core.cur, hw.cur, hm2.stray.resolve_left id] at hpos
  rcases hpos with hon | hstray
  · refine hnone ?_
    unfold TransactionManager.LivesOn
    rw [h'.shown.entryOf_eq, hw.cur]
    exact hon
  · obtain ⟨handle, hf, rfl⟩ := hlive x hx
    rw [h.shown.entryOf_eq] at hf hstray
    rw [hclean.stray_eq_zero hf] at hstray
    exact absurd hstray (Nat.lt_irrefl 0)

theorem Txn.wp_compact_returns (h : Txn ex o m g) (hp : m.poisoned = false) (hl : Looked m m1)
    (hret : m.Returns sparse) :
    wp (compact sparse 0) m1 (fun _ m' => ¬ m'.Drained sparse) (fun _ _ => True) := by
  obtain ⟨first, hfirst, htakes, page, hpage, hcursor⟩ := h.shown.returns_iff.mp hret
  have hI : PassInv ex o sparse (g.cur.live.sort (· ≤ ·)) (Returning m g page first) :=
    passInv_returning hp hfirst htakes hcursor
  have hstart : Returning m g page first [] m1 g :=
    ⟨(Moving.refl m g).looked h hl, .inl ⟨nofun, hl, rfl⟩⟩
  refine wp_mono (hI.wp_compact (h.looked hl) hstart) ?_ fun _ _ _ => trivial
  rintro stats m' ⟨-, -, done, m2, g2, g', hdone, -, hm2, h', hw⟩ hd
  have hin : first ∈ done := by
    rw [hdone rfl (List.ne_nil_of_mem hpage), Finset.mem_sort]
    exact hfirst.1.mem_live h.core.cur
  rcases hm2.state with ⟨hnot, -⟩ | ⟨-, hon⟩
  · exact hnot hin
  · refine (hd page hpage).1 ⟨first, ?_⟩
    unfold TransactionManager.LivesOn
    rw [h'.shown.entryOf_eq, hw.cur]
    exact hon

end Drained

/-- A pass without a cap that returns leaves no value on the pages that it chose, and has all of
them freed, just if each of them held a value and the first value to move does not go back to one of
them. -/
theorem defrag_drains_iff {f : DbFile} (hf : f.image.len = 0 ∨ f.Sound) (steps : List Step)
    {m : TransactionManager} (hrun : (Db.closed f).run steps = .opened m)
    {threshold : Option Threshold} {sparse : List Nat} {m1 m' : TransactionManager}
    {stats : DefragStats} (hsparse : sparseDataPages threshold m = .ok sparse m1)
    (hok : defrag threshold 0 m = .ok stats m') :
    m'.Drained sparse ↔ (∀ x ∈ sparse, ∃ handle, m.LivesOn handle x) ∧ ¬ m.Returns sparse := by
  have hs : Sane .unknown m := (dbOk_unknown hf).reaches hrun
  have hp : m.poisoned = false := by
    by_contra hpo
    rw [defrag, refuses_test _ _ m (Bool.eq_true_of_not_eq_false hpo)] at hok
    cases hok
  cases hs with
  | idle hO =>
    have heq : defrag threshold 0 m = .error .noActiveTransaction m := by
      unfold defrag
      rw [get_bind_apply, hp, hO.inactive]
      rfl
    rw [heq] at hok
    cases hok
  | dead hpo => exact absurd (hp.symm.trans hpo) (by simp)
  | running hR =>
    rename_i g
    have h := hR.txn
    obtain ⟨-, hslots⟩ := (wp_ok hsparse).mp (h.wp_sparseDataPages hp)
    obtain ⟨-, -, g', h', hm⟩ := (wp_ok hok).mp (h.wp_defrag_content hp threshold)
    have hcompact : ∀ Q : TransactionManager → Prop,
        (m.currentRoots.handleTablePage = pageIdNone → Q m) →
        (Looked m m1 → wp (compact sparse 0) m1 (fun _ m' => Q m') (fun _ _ => True)) → Q m' := by
      intro Q hnone hpass
      refine (wp_ok hok).mp (h.wp_defrag (Q := fun _ m' => Q m') (E := fun _ _ => True) hp
        (fun hnone' _ => hnone hnone') ?_
        fun _ _ _ _ => trivial)
      intro sparse' m2 heq hl _
      rw [hsparse] at heq
      cases heq
      exact hpass hl
    constructor
    · intro hd
      refine ⟨h.livesOn_of_drained h' (hm.stray.resolve_left id) hslots hd, fun hret => ?_⟩
      refine hcompact (fun m' => ¬ m'.Drained sparse) (fun hnone => ?_)
        (fun hl => h.wp_compact_returns hp hl hret) hd
      obtain ⟨handle, _, _, _, _, ⟨x, _, hon⟩, _⟩ := hret
      exact absurd hon (h.not_livesOn hnone handle x)
    · rintro ⟨hlive, hno⟩
      refine hcompact (fun m' => m'.Drained sparse) (fun hnone x hx => ?_)
        fun hl => h.wp_compact_drains hp hl (hR.tidy hp).1.clean hslots hlive hno
      obtain ⟨handle, hon⟩ := hlive x hx
      exact absurd hon (h.not_livesOn hnone handle x)

/-- Inside a savepoint values go to a new page, and the sparse one is drained. -/
theorem defrag_drains_iff_savepoint :
    ∃ m x m1 stats m', (Db.closed .empty).run [.open {}, .op .begin, .op (.allocate [1]),
        .op (.allocate [2]), .op (.delete 1), .op (.savepoint "a")] = .opened m ∧
      sparseDataPages (some fun live stored => live < stored) m = .ok [x] m1 ∧
      defrag (some fun live stored => live < stored) 0 m = .ok stats m' ∧ m'.Drained [x] := by
  have hend : ((Db.closed .empty).run [.open {}, .op .begin, .op (.allocate [1]),
      .op (.allocate [2]), .op (.delete 1), .op (.savepoint "a")]).holds (fun m =>
        gives (sparseDataPages (some fun live stored => live < stored))
          (fun l _ => l == [(m.entryOf 2).pageId]) m &&
        returns (defrag (some fun live stored => live < stored) 0) m &&
        m.packer.insertCursor.isNone && decide ((m.entryOf 2).flags = .live)) = true := by
          decide +kernel
  obtain ⟨m, hm, hp⟩ := Db.of_holds hend
  simp only [Bool.and_eq_true, Option.isNone_iff_eq_none, decide_eq_true_iff] at hp
  obtain ⟨⟨⟨hsparse, hpass⟩, hnone⟩, hlive⟩ := hp
  obtain ⟨l, m1, hsparse, hl⟩ := exists_of_gives hsparse
  obtain ⟨stats, m', hok⟩ := exists_ok hpass
  rw [eq_of_beq hl] at hsparse
  have hdrained := (defrag_drains_iff (.inl rfl) _ hm hsparse hok).mpr ⟨fun y hy => ?_, ?_⟩
  · exact ⟨m, _, m1, stats, m', hm, hsparse, hok, hdrained⟩
  · rw [List.mem_singleton.mp hy]
    exact ⟨2, hlive, rfl⟩
  · rintro ⟨_, _, _, _, _, _, _, _, y, _, hcursor⟩
    rw [hnone] at hcursor
    cases hcursor

/-- Two values in one page, of which one goes again: the pass moves the other one within the
page. -/
theorem defrag_keeps_sparse_page :
    ∃ m sparse m1 stats m', (Db.closed .empty).run [.open {}, .op .begin, .op (.allocate [1]),
        .op (.allocate [2]), .op (.delete 1)] = .opened m ∧
      sparseDataPages (some fun live stored => live < stored) m = .ok sparse m1 ∧
      defrag (some fun live stored => live < stored) 0 m = .ok stats m' ∧ ¬ m'.Drained sparse := by
  have hend : ((Db.closed .empty).run [.open {}, .op .begin, .op (.allocate [1]),
      .op (.allocate [2]), .op (.delete 1)]).holds (fun m =>
        gives (sparseDataPages (some fun live stored => live < stored)) (fun l _ =>
          gives (defrag (some fun live stored => live < stored) 0)
            (fun _ m' => l.any (· ∉ m'.txnFreedPages)) m) m) = true := by decide +kernel
  obtain ⟨m, hm, hp⟩ := Db.of_holds hend
  obtain ⟨l, m1, hsparse, hp⟩ := exists_of_gives hp
  obtain ⟨stats, m', hok, hp⟩ := exists_of_gives hp
  obtain ⟨x, hx, hfreed⟩ := List.any_eq_true.mp hp
  exact ⟨m, l, m1, stats, m', hm, hsparse, hok, fun hd => of_decide_eq_true hfreed (hd x hx).2⟩

/-! ### Dead pages -/

/-- Every page that the free map does not account for opens under the key of the file, if there is
one; without a free map no page needs to. -/
def TransactionManager.DeadPagesOpen (m : TransactionManager) : Prop :=
  m.currentRoots.freemapPage = pageIdNone ∨
    ∀ x, m.superblockCount ≤ x → x < m.cache.nextPageId →
      ¬ InMap m.cache.store.view m.currentRoots x →
      x ∉ m.freemap.structuralReuse → x ∉ m.freemap.structuralSuperseded →
      x ∉ m.freemap.pendingStructuralFrees → ¬ m.cache.store.Locked x

/-- The pass does not break the handle: it fails for want of memory only, or because there are more
pages than a packed pointer can name. -/
def TransactionManager.DefragSafe (m : TransactionManager) (threshold : Option Threshold)
    (maxValues : Nat) : Prop :=
  wp (defrag threshold maxValues) m (fun _ m' => m'.poisoned = false)
    (fun e m' => e.isFatal = false ∧ m'.poisoned = false ∨
      e = .panicked ∧ 2 ^ 58 ≤ m'.cache.nextPageId)

section DeadPages

variable {ex : Prop} {o : Origin} {m m' m1 : TransactionManager} {g g' : Ghost}
  {threshold : Option Threshold} {maxValues x : Nat} {e : ChiselError}

theorem Txn.deadPagesOpen_iff (h : Txn ex o m g) : m.DeadPagesOpen ↔
    (m.currentRoots.freemapPage ≠ pageIdNone → ∀ x, ¬ Sealed m g.tree x) := by
  unfold TransactionManager.DeadPagesOpen
  rw [Decidable.or_iff_not_imp_left]
  refine imp_congr_right fun _ => ⟨fun hall x hx => ?_,
    fun hno x hge hlt hmap hr hs hp hlocked => ?_⟩
  · have hu := hx.unknown
    unfold Accounted at hu
    simp only [not_or] at hu
    exact hall x hx.ge hx.lt (mt h.span.inMap_iff.mp hu.1) hu.2.1 hu.2.2.1 hu.2.2.2 hx.locked
  · refine hno x ⟨hge, hlt, ?_, hlocked⟩
    rintro (hcount | hin | hin | hin)
    · exact hmap (h.span.inMap_iff.mpr hcount)
    · exact hr hin
    · exact hs hin
    · exact hp hin

/-- What does not open after the values moved did not open before. -/
theorem Sealed.before (h : Txn ex o m g) (h' : Txn ex o m' g') (hw : Went m g m' g')
    (hx : Sealed m' g'.tree x) : Sealed m g.tree x := by
  obtain ⟨hcold, hcipher, hdisk⟩ := hx.locked
  obtain ⟨hlt, hunknown⟩ := (hw.known x hx.lt).resolve_left fun hk => hk.elim hx.unknown hcold
  have hlo : m'.superblockCount = m.superblockCount :=
    h'.core.anchored.superblocks.trans h.core.anchored.superblocks.symm
  have hkey : m'.cache.store.cipher = m.cache.store.cipher :=
    h'.core.anchored.cipher.trans h.core.anchored.cipher.symm
  rw [hkey] at hcipher hdisk
  rw [hw.io] at hdisk
  exact ⟨hlo ▸ hx.ge, hlt, fun ha => hunknown (.inl ha), fun hhot => hunknown (.inr hhot),
    hcipher, hdisk⟩

theorem safe_of_exhausted (hp : m.poisoned = false)
    (h : e.isCapacity = true ∨ e = .panicked ∧ 2 ^ 58 ≤ m.cache.nextPageId) :
    e.isFatal = false ∧ (m.afterError e).poisoned = false ∨
      e = .panicked ∧ 2 ^ 58 ≤ (m.afterError e).cache.nextPageId := by
  rcases h with hcap | ⟨rfl, hmany⟩
  · rw [afterError_of_capacity hcap]
    refine .inl ⟨?_, hp⟩
    cases e with
    | cacheFull | spillwayFull => rfl
    | _ => cases hcap
  · exact .inr ⟨rfl, hmany⟩

theorem Txn.defragSafe (h : Txn ex o m g) (hp : m.poisoned = false)
    (hopen : m.cache.store.Fits → m.DeadPagesOpen) (threshold : Option Threshold)
    (maxValues : Nat) : m.DefragSafe threshold maxValues := by
  refine h.wp_defrag hp (fun _ _ => hp) (fun sparse m1 _ hl _ => ?_) fun e m' hcap hl => ?_
  · have hI : PassInv ex o sparse (g.cur.live.sort (· ≤ ·)) fun _ m' g' => Moving m g m' g' :=
      passInv_moving hp
    refine wp_mono (hI.wp_compact (h.looked hl) ((Moving.refl m g).looked h hl)) ?_ ?_
    · rintro stats m' ⟨-, -, -, m2, g2, g', -, -, hm2, -, hw⟩
      exact (hm2.mapped hw).alive hp
    · rintro e m' (⟨-, m2, g2, m3, g3, h2, hm2, ha, hcause, rfl⟩ |
        ⟨-, m2, g2, m3, g3, h2, hm2, -, h3, hw, hcause, hroot, rfl⟩)
      · exact safe_of_exhausted (ha.poisoned.trans (hm2.alive hp)) (hcause.imp_left And.left)
      · rcases hcause.hard_or with hcap | hmany | ⟨x, hx, hfits, -⟩
        · refine safe_of_exhausted ((hw.poisoned.resolve_left fun hf => ?_).trans (hm2.alive hp))
            (.inl hcap)
          cases e with
          | cacheFull | spillwayFull => cases hf
          | _ => cases hcap
        · obtain ⟨rfl, hmany⟩ := hmany
          exact .inr ⟨rfl, hmany⟩
        · -- the page was there before, with room to load it, and there was a free map
          refine absurd (hx.before h h2 hm2.toWent) (h.deadPagesOpen_iff.mp
            (hopen (hm2.fits hfits)) (fun hnone => hroot ?_) x)
          have hnil := h.core.alloc.rooted.nil_iff.mpr hnone
          exact h2.core.alloc.rooted.root_nil (hm2.dry hnil)
  · refine .inl ⟨?_, (h.onward_looked hl).poisoned.resolve_left id ▸ hp⟩
    cases e with
    | cacheFull | spillwayFull => rfl
    | _ => cases hcap

/-- With enough memory the sweep comes to a page that does not open. -/
theorem Txn.deadPagesOpen_of_safe (h : Txn ex o m g) (hp : m.poisoned = false)
    (hsave : m.savepoints = []) (hfits : m.cache.store.Fits) (hsafe : m.DefragSafe none 0) :
    m.DeadPagesOpen := by
  refine h.deadPagesOpen_iff.mpr fun hroot x hx => ?_
  have hfail : wp (defrag none 0) m (fun _ _ => False) (fun e _ => ∃ x,
    e = .decryptionFailed x) := by
    have heq : defrag none 0 m = _ := defrag_eq hp h.core.anchored.active
    rw [if_neg fun hnone => hroot hnone.2] at heq
    rw [wp_congr heq, wp_bind]
    refine wp_alive hp (wp_ret ?_)
    unfold compact
    dsimp only
    rw [if_pos List.isEmpty_nil, wp_bind]
    refine wp_ret ?_
    rw [wp_bind]
    refine wp_mono (h.wp_sweep hsave) ?_ ?_
    · intro n m' ⟨_, _, _, _, _, hr⟩
      exact (hr.opens hroot x hx).elim
    · rintro e m' (⟨-, hpo⟩ | ⟨m1, ⟨-, hfull⟩ | ⟨y, -, -, rfl⟩ | ⟨-, -, hno⟩⟩)
      · exact absurd (hp.symm.trans hpo) nofun
      · exact absurd hfits hfull
      · exact ⟨y, rfl⟩
      · exact absurd hx (hno x)
  cases hrun : defrag none 0 m with
  | ok stats m' => exact (wp_ok hrun).mp hfail
  | error e m' =>
    obtain ⟨y, rfl⟩ := (wp_error hrun).mp hfail
    rcases (wp_error hrun).mp hsafe with ⟨hfatal, -⟩ | ⟨hpanic, -⟩
    · cases hfatal
    · cases hpanic

end DeadPages

/-- In a transaction without savepoints no pass breaks the handle, just if every page that the free
map does not account for opens under the key, or memory is so full that no page can be loaded. -/
theorem defrag_safe_iff {f : DbFile} (hf : f.image.len = 0 ∨ f.Sound) (steps : List Step)
    {m : TransactionManager} (hrun : (Db.closed f).run steps = .opened m)
    (hactive : m.activeTxn = true) (halive : m.poisoned = false) (hsave : m.savepoints = []) :
    (∀ threshold maxValues, m.DefragSafe threshold maxValues) ↔
      (m.cache.store.Fits → m.DeadPagesOpen) := by
  have hs : Sane .unknown m := (dbOk_unknown hf).reaches hrun
  cases hs with
  | idle hO => exact absurd (hactive.symm.trans hO.inactive) nofun
  | dead hpo => exact absurd (halive.symm.trans hpo) nofun
  | running hR =>
    exact ⟨fun hsafe hfits => hR.txn.deadPagesOpen_of_safe halive hsave hfits (hsafe none 0),
      fun hopen => hR.txn.defragSafe halive hopen⟩

/-- A session leaves pages behind that were never written, the next one makes them part of the file,
and the third one commits a value and a free map. The file has no key. -/
def deadPagesRun : List Step :=
  [.open {}, .op .begin, .op (.allocate [1]), .op (.savepoint "a"), .op (.rollbackTo "a"), .drop,
    .open {}, .op .begin, .op .commit, .drop, .open {}, .op .begin, .op (.allocate [2]),
    .op .commit, .op .begin]

/-- Page 2 cannot be read, but without a key no pass breaks the handle. -/
theorem defrag_safe_iff_plain :
    ∃ m, (Db.closed .empty).run deadPagesRun = .opened m ∧
      m.currentRoots.freemapPage ≠ pageIdNone ∧ m.cache.store.view 2 = none ∧
      ∀ threshold maxValues, m.DefragSafe threshold maxValues := by
  have hend : ((Db.closed .empty).run deadPagesRun).holds (fun m =>
      m.activeTxn && !m.poisoned && m.savepoints.isEmpty && m.cache.cipher.isNone &&
        m.currentRoots.freemapPage != pageIdNone && (m.cache.store.view 2).isNone) = true := by
    decide +kernel
  obtain ⟨m, hm, hp⟩ := Db.of_holds hend
  simp only [Bool.and_eq_true, Bool.not_eq_true', List.isEmpty_iff, bne_iff_ne,
    Option.isNone_iff_eq_none] at hp
  obtain ⟨⟨⟨⟨⟨hactive, halive⟩, hsave⟩, hkey⟩, hroot⟩, hdead⟩ := hp
  refine ⟨m, hm, hroot, hdead, (defrag_safe_iff (.inl rfl) _ hm hactive halive hsave).mpr
    fun _ => .inr fun x _ _ _ _ _ _ hlocked => ?_⟩
  have hsome : m.cache.cipher.isSome = true := hlocked.2.1
  rw [hkey] at hsome
  cases hsome

/-- The power fails while the first page of the commit is written. -/
def withTornPage (m : TransactionManager) : Image DiskUnit := m.cache.io.image.write 4 .torn

/-- The first event of the commit is the write of page 4. -/
def writesPage (m : TransactionManager) : Bool :=
  match (commitEvents m)[0]? with
  | some (Event.write i _) => i == 4
  | _ => false

theorem withTornPage_survives {m : TransactionManager} (h : writesPage m = true) :
    m.cache.io.image.Survives DiskUnit.Tears (commitEvents m) (withTornPage m) := by
  unfold writesPage at h
  split at h
  · next i u hu =>
    obtain rfl : i = 4 := eq_of_beq h
    exact .of_tear hu (.inl rfl)
  · cases h

/-- The first commit of an encrypted database is torn. The next session commits nothing, which makes
the pages of the torn commit part of the file, and the session after it commits a value. The pages
of this value, of the handle table and of the free map can be read, but the sweep reads page 2,
which was never written, and the handle is lost. -/
theorem defrag_breaks_on_dead_page : ∃ m m1 m2 : TransactionManager,
    (Db.closed .empty).run [.open { encryptionKey := some [1], dek := 7 }, .op .begin,
        .op (.allocate [1])] = .opened m ∧
      m.cache.io.image.Survives DiskUnit.Tears (commitEvents m) (withTornPage m) ∧
      (Db.closed (m.fileWith (withTornPage m))).run [.open { encryptionKey := some [1] },
        .op .begin, .op .commit, .drop, .open { encryptionKey := some [1] }, .op .begin, .op
          (.allocate [2]),
        .op .commit, .op .begin] = .opened m1 ∧
      m1.savepoints = [] ∧ m1.poisoned = false ∧
      (∀ x, 5 ≤ x → x < m1.cache.nextPageId → ∃ p, m1.cache.store.view x = some p) ∧
      defrag none 0 m1 = .error (.decryptionFailed 2) m2 ∧ m2.poisoned = true := by
  have hend : ((Db.closed .empty).run [.open { encryptionKey := some [1], dek := 7 }, .op .begin,
      .op (.allocate [1])]).holds (fun m => writesPage m &&
        ((Db.closed (m.fileWith (withTornPage m))).run [.open { encryptionKey := some [1] },
          .op .begin, .op .commit, .drop, .open { encryptionKey := some [1] }, .op .begin, .op
            (.allocate [2]),
          .op .commit, .op .begin]).holds fun m1 =>
            m1.savepoints.isEmpty && !m1.poisoned && m1.cache.nextPageId == 9 &&
            (m1.cache.store.view 5).isSome && (m1.cache.store.view 6).isSome &&
            (m1.cache.store.view 7).isSome && (m1.cache.store.view 8).isSome &&
            match defrag none 0 m1 with
            | .error e m2 => e == .decryptionFailed 2 && m2.poisoned
            | .ok _ _ => false) = true := by decide +kernel
  obtain ⟨m, hm, hp⟩ := Db.of_holds hend
  rw [Bool.and_eq_true] at hp
  obtain ⟨m1, hm1, hp1⟩ := Db.of_holds hp.2
  simp only [Bool.and_eq_true, Bool.not_eq_true', List.isEmpty_iff, beq_iff_eq,
    Option.isSome_iff_exists] at hp1
  obtain ⟨⟨⟨⟨⟨⟨⟨hsave, halive⟩, hnext⟩, h5⟩, h6⟩, h7⟩, h8⟩, hpass⟩ := hp1
  split at hpass
  · next e m2 herr =>
    rw [Bool.and_eq_true, beq_iff_eq] at hpass
    refine ⟨m, m1, m2, hm, withTornPage_survives hp.1, hm1, hsave, halive, fun x hge hlt => ?_,
      hpass.1 ▸ herr, hpass.2⟩
    obtain rfl | rfl | rfl | rfl : x = 5 ∨ x = 6 ∨ x = 7 ∨ x = 8 := by omega
    · exact h5
    · exact h6
    · exact h7
    · exact h8
  · cases hpass

end Chisel
