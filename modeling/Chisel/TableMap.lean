import Chisel.CacheFlush
import Chisel.TxnPrepare

/-! The radix trees as maps. An operation leaves the tree it started from as it was, and the pages
it supersedes are exactly those that the new tree does without; the handle table is then a map from
handles to entries, whatever happens to the other pages between its calls. -/

namespace Chisel

open StateError PageCache RadixTree Ledger

/-! ### Copying a path -/

section Copies

variable {V G : Type} {R : RadixLayout V} {A : Allocator G} {s s' : AllocCtx} {g g' : G}
  {h h' root root' k : Nat} {sub sub' : PageTree V} {ids freed : List Nat}

/-- A well-formed tree with its root in the field `root`: its nodes lie on different pages, and the
allocator owns none of them. -/
structure Stands (R : RadixLayout V) (A : Allocator G) (s : AllocCtx) (g : G) (h root : Nat)
    (sub : PageTree V) : Prop where
  rests : Rests R A s g h sub
  rooted : RootedAt root sub
  apart : ∀ x, sub.count R.shape x ≤ 1
  depth_le : h ≤ R.maxDepth

theorem Stands.mapAt_eq (hs : Stands R A s g h root sub) (hinv : A.Inv s g) :
    R.mapAt s.store.view h root = PageTree.content R.shape R.absent h sub :=
  RadixLayout.mapAt_eq (hs.rests.holds hinv) (A.sound hinv).next_le hs.rooted

/-- `sub'` takes the place of `sub`: the old tree is where it was, and `freed` are the pages of the
old tree and the pages that the allocator issued, less those of the new tree. -/
structure Supersedes (R : RadixLayout V) (A : Allocator G) (s : AllocCtx) (g : G) (h : Nat)
    (sub : PageTree V) (ids freed : List Nat) (s' : AllocCtx) (g' : G) (h' root' : Nat)
    (sub' : PageTree V) : Prop where
  issued : A.Issued s g ids s' g'
  stands : Stands R A s' g' h' root' sub'
  kept : ∀ x, 0 < sub.count R.shape x → s'.store.view x = s.store.view x
  old : Rests R A s' g' h sub
  pages : ∀ x, 0 < sub'.count R.shape x → 0 < sub.count R.shape x ∨ x ∈ ids
  nodup : freed.Nodup
  mem_freed : ∀ x, x ∈ freed ↔ (0 < sub.count R.shape x ∨ x ∈ ids) ∧ sub'.count R.shape x = 0

theorem Stands.count_add_le (hs : Stands R A s g h root sub) (hi : A.Issued s g ids s' g')
    (x : Nat) :
    sub.count R.shape x + ids.count x ≤ 1 := by
  have hsub := hs.apart x
  have hids := List.nodup_iff_count_le_one.mp hi.nodup x
  by_cases hx : x ∈ ids
  · have := hs.rests.not_issued hi hx
    omega
  · have := List.count_eq_zero_of_not_mem hx
    omega

theorem Stands.supersedes (hs : Stands R A s g h root sub)
    (hr : Replaced R A s g h sub ids freed s' g' h' sub') (hd : h' ≤ R.maxDepth)
    (hroot : root' = sub'.root) : Supersedes R A s g h sub ids freed s' g' h' root' sub' := by
  have hone := fun x => hs.count_add_le hr.issued x
  refine ⟨hr.issued, ⟨hr.rests, ⟨fun hnil => absurd hnil hr.ne_nil, fun _ => hroot⟩,
    fun x => ?_, hd⟩, fun x hx => hr.issued.view (hs.rests.fixed x hx), hs.rests.mono hr.issued,
      fun x hx => ?_,
    List.nodup_iff_count_le_one.mpr fun x => ?_, fun x => ?_⟩
  all_goals
    have h1 := hone x
    have h2 := hr.count x
  · omega
  · rw [← count_pos]
    omega
  · omega
  · rw [← count_pos, ← count_pos]
    omega

theorem Stands.unchanged (hs : Stands R A s g h root sub) (hinv : A.Inv s g) (hp : Peeked s s') :
    Supersedes R A s g h sub [] [] s' g h root sub where
  issued := (Allocator.Issued.refl hinv).peek hp
  stands := ⟨hs.rests.peek hp, hs.rooted, hs.apart, hs.depth_le⟩
  kept _ _ := by rw [hp.store]
  old := hs.rests.peek hp
  pages _ hx := .inl hx
  nodup := List.nodup_nil
  mem_freed x := by
    have hnil : x ∉ ([] : List Nat) := List.not_mem_nil
    simp only [hnil, false_iff, or_false]
    omega

theorem Stands.wp_insert (hR : R.Lawful) (hinv : A.Inv s g) (hs : Stands R A s g h root sub)
    (hne : sub ≠ .nil) (hk : k ≤ u64Max) (v : V) :
    wp (R.insert A.alloc h root k v) s
      (fun res s' => ∃ ids g' sub',
        Supersedes R A s g h sub ids res.freed s' g' res.depth res.root sub' ∧
        (PageTree.Spine h sub → PageTree.Spine res.depth sub') ∧
        PageTree.content R.shape R.absent res.depth sub' =
          Function.update (PageTree.content R.shape R.absent h sub) k v)
      (fun e s' => A.Refuses s g e s') := by
  rw [hs.rooted.eq hne]
  refine wp_imp (Chisel.wp_insert hR hs.depth_le hinv hs.rests hne hk) ?_
  intro res s' ⟨ids, g', sub', _, hr, hroot, hd, hc⟩
  exact ⟨ids, g', sub', hs.supersedes hr hd hroot, hr.spine, hc⟩

theorem Stands.wp_delete (hR : R.Lawful) (hinv : A.Inv s g) (hs : Stands R A s g h root sub)
    (hk : k ≤ u64Max) :
    wp (R.delete A.alloc h root k) s
      (fun res s' => ∃ ids g' sub',
        Supersedes R A s g h sub ids res.2.2 s' g' h res.1 sub' ∧
        (PageTree.Spine h sub → PageTree.Spine h sub') ∧
        (res.2.1 = none → R.isAbsent (PageTree.content R.shape R.absent h sub k) = true ∧
          sub' = sub) ∧
        ∀ v, res.2.1 = some v → R.isAbsent v = false ∧
          v = PageTree.content R.shape R.absent h sub k ∧
          PageTree.content R.shape R.absent h sub' =
            Function.update (PageTree.content R.shape R.absent h sub) k R.absent)
      (fun e s' => A.Refuses s g e s') := by
  refine wp_imp (Chisel.wp_delete hR hs.depth_le hinv hs.rests hs.rooted hk) ?_
  intro ⟨root', prev, freed⟩ s' hrem
  cases prev with
  | none =>
    obtain ⟨hp, habs, hroot, hfreed⟩ := hrem.missing rfl
    dsimp only at hroot hfreed
    subst hroot hfreed
    exact ⟨[], g, sub, hs.unchanged hinv hp, fun h => h, fun _ => ⟨habs, rfl⟩, nofun⟩
  | some v =>
    obtain ⟨hv, hpres, ids, g', sub', -, hr, hroot, hc⟩ := hrem.found v rfl
    refine ⟨ids, g', sub', hs.supersedes hr hs.depth_le hroot, hr.spine, nofun, ?_⟩
    intro v' hv'
    obtain rfl := Option.some.inj hv'
    exact ⟨hpres, hv, hc⟩

/-- An insertion or a deletion in a radix tree leaves every page of the old tree as it was, so that
the old root stands for the map it stood for; and it reports, without duplicates, exactly the pages
of the old tree and of its own allocations that the new tree does not use. -/
theorem radix_persistent (hR : R.Lawful) (hinv : A.Inv s g) (hs : Stands R A s g h root sub)
    (hk : k ≤ u64Max) :
    (∀ v res s', sub ≠ .nil → R.insert A.alloc h root k v s = .ok res s' →
      ∃ ids g' sub', Supersedes R A s g h sub ids res.freed s' g' res.depth res.root sub' ∧
        R.mapAt s'.store.view h root = R.mapAt s.store.view h root) ∧
    ∀ res s', R.delete A.alloc h root k s = .ok res s' →
      ∃ ids g' sub', Supersedes R A s g h sub ids res.2.2 s' g' h res.1 sub' ∧
        R.mapAt s'.store.view h root = R.mapAt s.store.view h root := by
  have hsame : ∀ {ids s' g'}, A.Issued s g ids s' g' → Rests R A s' g' h sub →
      R.mapAt s'.store.view h root = R.mapAt s.store.view h root := fun {ids s' g'} hi hold =>
    have hs' : Stands R A s' g' h root sub := ⟨hold, hs.rooted, hs.apart, hs.depth_le⟩
    (hs'.mapAt_eq hi.inv).trans (hs.mapAt_eq hinv).symm
  constructor
  · intro v res s' hne hrun
    obtain ⟨ids, g', sub', hsup, -⟩ := (wp_ok hrun).mp (hs.wp_insert hR hinv hne hk v)
    exact ⟨ids, g', sub', hsup, hsame hsup.issued hsup.old⟩
  · intro res s' hrun
    obtain ⟨ids, g', sub', hsup, -⟩ := (wp_ok hrun).mp (hs.wp_delete hR hinv hk)
    exact ⟨ids, g', sub', hsup, hsame hsup.issued hsup.old⟩

theorem stands_initPage (hR : R.Lawful) (hinv : A.Inv s g)
    (hrun : R.initPage 0 A.alloc s = .ok root s') :
    ∃ g', A.Inv s' g' ∧ Stands R A s' g' 0 root (PageTree.empty R.absent 0 root) := by
  obtain ⟨g', hi, hrests⟩ := (wp_ok hrun).mp (wp_initPage hR hinv)
  refine ⟨g', hi.inv, hrests, ⟨fun hnil => absurd hnil (PageTree.empty_ne_nil _ _), fun _ => ?_⟩,
    fun x => ?_, Nat.zero_le _⟩
  · rw [PageTree.root_empty]
  · rw [PageTree.count_empty]
    exact one_le _ _

end Copies

/-- Room for 64 pages of an empty file, page 0 of which is not used. -/
def blank : AllocCtx where
  cache := { PageCache.new (.openFile .empty [] pageSize false) (64 * pageSize) 0 .lruTail with
    nextPageId := 1 }
  tree := ⟨pageIdNone, 0, [], ∅⟩
  hint := 0
  structuralReuse := []
  pool := ⟨∅, []⟩

theorem blank_inv : AllocInv 1 blank .nil := by
  have hwf : blank.cache.WF := PageCache.Bare.wf ⟨rfl, rfl, rfl, rfl, rfl, by decide⟩
  have htally : ∀ x, tally blank .nil x = 0 := fun x => by
    simp [tally, fmBits, blank]
  refine ⟨⟨⟨⟨hwf, by decide⟩, by decide, Nat.le_refl 1, trivial, fun x => ?_⟩, by decide,
    fun _ => rfl, fun hne => absurd rfl hne⟩, fun x => ?_, by simp [blank], by simp [blank],
    fun x _ => Nat.zero_le x⟩
  · exact Nat.zero_le _
  · rw [htally]
    exact Nat.zero_le _

/-- The theorem at the first insertion into a handle table, and at the deletion that undoes the
first insertion into a tree of the index, both with the allocator of a transaction. -/
theorem radix_persistent_first :
    (∃ root s res s', handleLayout.initPage 0 (cowAlloc true) blank = .ok root s ∧
      handleLayout.insert (cowAlloc true) 0 root u64Max ⟨9, 0, .live, 0, 0⟩ s = .ok res s' ∧
      res.freed.Nodup ∧
      handleLayout.mapAt s'.store.view 0 root = handleLayout.mapAt s.store.view 0 root) ∧
    ∃ root s mid s1 res s', radixU64.initPage 0 (cowAlloc true) blank = .ok root s ∧
      radixU64.insert (cowAlloc true) 0 root 7 1 s = .ok mid s1 ∧
      radixU64.delete (cowAlloc true) mid.depth mid.root 7 s1 = .ok res s' ∧ res.2.2.Nodup ∧
      radixU64.mapAt s'.store.view mid.depth mid.root =
        radixU64.mapAt s1.store.view mid.depth mid.root := by
  have hinsert : returns (handleLayout.initPage 0 (cowAlloc true) >>= fun root =>
      handleLayout.insert (cowAlloc true) 0 root u64Max ⟨9, 0, .live, 0, 0⟩) blank = true := by
    decide +kernel
  have hdelete : returns (radixU64.initPage 0 (cowAlloc true) >>= fun root =>
      radixU64.insert (cowAlloc true) 0 root 7 1 >>= fun mid =>
        radixU64.delete (cowAlloc true) mid.depth mid.root 7) blank = true := by decide +kernel
  constructor
  · obtain ⟨root, s, res, s', hroot, hrun⟩ := exists_ok_bind hinsert
    obtain ⟨t, hinv, hs⟩ := stands_initPage (A := cow true 1) handleLayout_lawful blank_inv hroot
    obtain ⟨ids, t', sub', hsup, hsame⟩ := (radix_persistent (A := cow true 1) handleLayout_lawful
      hinv hs (Nat.le_refl u64Max)).1 _ res s' (PageTree.empty_ne_nil _ _) hrun
    exact ⟨root, s, res, s', hroot, hrun, hsup.nodup, hsame⟩
  · obtain ⟨root, s, res, s', hroot, hrest⟩ := exists_ok_bind hdelete
    have hrest' : returns (radixU64.insert (cowAlloc true) 0 root 7 1 >>= fun mid =>
        radixU64.delete (cowAlloc true) mid.depth mid.root 7) s = true := by
      rw [returns, hrest]
    obtain ⟨mid, s1, res, s', hmid, hrun⟩ := exists_ok_bind hrest'
    obtain ⟨t, hinv, hs⟩ := stands_initPage (A := cow true 1) radixU64_lawful blank_inv hroot
    have hkey : 7 ≤ u64Max := by decide
    obtain ⟨ids, t1, sub1, hfirst, -⟩ := (radix_persistent (A := cow true 1) radixU64_lawful
      hinv hs hkey).1 1 mid s1 (PageTree.empty_ne_nil _ _) hmid
    obtain ⟨ids', t', sub', hsup, hsame⟩ := (radix_persistent (A := cow true 1) radixU64_lawful
      hfirst.issued.inv hfirst.stands hkey).2 res s' hrun
    exact ⟨root, s, mid, s1, res, s', hroot, hmid, hrun, hsup.nodup, hsame⟩

/-! ### The depth of a handle table -/

theorem wp_growWhile {alloc : AllocM Nat} {handle rounds root : Nat} {t : TableCtx}
    {Q : Nat → TableCtx → Prop} {E : ChiselError → AllocCtx → Prop} :
    wp (HandleTable.growWhile alloc handle rounds root) t Q (fun e t' => E e t'.pages) ↔
      wp (handleLayout.growTo alloc handle rounds t.depth root) t.pages
        (fun r s => Q r.1 ⟨s, r.2⟩) E := by
  induction rounds generalizing root t with
  | zero => simp only [HandleTable.growWhile, RadixLayout.growTo, wp_pure]
  | succ rounds ih =>
    simp only [HandleTable.growWhile, RadixLayout.growTo, wp_bind, wp_get]
    split
    · simp only [HandleTable.growDeeper, HandleTable.onPages, wp_bind, wp_zoom, wp_modify, wp_pure,
        ih]
    · simp only [wp_pure]

/-- The method is the function on the depth, and a failure leaves the depth as it was. -/
theorem wp_insertIn {alloc : AllocM Nat} {root handle : Nat} {entry : HandleEntry} {t : TableCtx}
    {Q : Nat × List Nat → TableCtx → Prop} {E : ChiselError → TableCtx → Prop} :
    wp (HandleTable.insertIn alloc root handle entry) t Q E ↔
      wp (HandleTable.insert alloc t.depth root handle entry) t.pages
        (fun res s => Q (res.root, res.freed) ⟨s, res.depth⟩) (fun e s => E e ⟨s, t.depth⟩) := by
  simp only [HandleTable.insertIn, HandleTable.insert, RadixLayout.insert, wp_bind, wp_get,
    wp_onError, wp_pure]
  refine (wp_growWhile (E := fun e s => E e ⟨s, t.depth⟩)).trans ?_
  simp only [HandleTable.onPages, wp_zoom]

/-! ### The handle table as a map -/

/-- What a slot of the table shows. -/
def HandleEntry.shown (e : HandleEntry) : Option HandleEntry :=
  if e.flags = .deleted then none else some e

/-- A tree in use: the user keeps the root, and collects the superseded pages. -/
structure TreeUse extends TableCtx where
  root : Nat
  superseded : List Nat

/-- The map that the pages make of the root of a handle table. -/
def TreeUse.map (t : TreeUse) (handle : Nat) : Option HandleEntry :=
  (handleLayout.mapAt t.pages.store.view t.depth t.root handle).shown

inductive TableCall
  | insert (handle : Nat) (entry : HandleEntry)
  | delete (handle : Nat)
  | lookup (handle : Nat)
  | iterLive

inductive TableAnswer
  | done
  | entry (e : Option HandleEntry)
  | entries (l : List (Nat × HandleEntry))

namespace TableCall

/-- Handles are 64 bits wide. -/
def Valid : TableCall → Prop
  | insert handle _ | delete handle | lookup handle => handle ≤ u64Max
  | iterLive => True

/-- A call on the table. The user installs the root of a call that succeeds. -/
def exec (alloc : AllocM Nat) : TableCall → EStateM ChiselError TreeUse TableAnswer
  | insert handle entry => do
    let t ← get
    let (root, freed) ← zoom TreeUse.toTableCtx (fun c t => { t with toTableCtx := c })
      (HandleTable.insertIn alloc t.root handle entry)
    modify fun t => { t with root, superseded := t.superseded ++ freed }
    return .done
  | delete handle => do
    let t ← get
    let (root, prev, freed) ← zoom (·.pages) (fun s t => { t with pages := s })
      (HandleTable.delete alloc t.depth t.root handle)
    modify fun t => { t with root, superseded := t.superseded ++ freed }
    return .entry prev
  | lookup handle => do
    let t ← get
    let e ← zoom (·.pages) (fun s t => { t with pages := s })
      (onCache (HandleTable.lookup t.depth t.root handle))
    return .entry e
  | iterLive => do
    let t ← get
    let l ← zoom (·.pages) (fun s t => { t with pages := s })
      (onCache (HandleTable.iterLive t.depth t.root))
    return .entries l

def effect : TableCall → (Nat → Option HandleEntry) → Nat → Option HandleEntry
  | insert handle entry, M => Function.update M handle entry.shown
  | delete handle, M => Function.update M handle none
  | lookup _, M | iterLive, M => M

def Answers : TableCall → (Nat → Option HandleEntry) → TableAnswer → Prop
  | insert _ _, _, a => a = .done
  | delete handle, M, a | lookup handle, M, a => a = .entry (M handle)
  | iterLive, M, a => ∃ l, a = .entries l ∧ (l.map Prod.fst).Pairwise (· < ·) ∧
      ∀ handle entry, (handle, entry) ∈ l ↔ M handle = some entry

end TableCall

section Calls

variable {G : Type} {A : Allocator G} {t t' : TreeUse} {M : Nat → Option HandleEntry}

/-- The allocator may have got pages of `old` back, all but `old'`, and what was neither its own nor
in `old` has kept its contents. -/
structure Released (A : Allocator G) (s : AllocCtx) (g : G) (old : List Nat)
    (s' : AllocCtx) (g' : G) (old' : List Nat) : Prop where
  inv : A.Inv s' g'
  owns : ∀ x, A.Owns s' g' x → A.Owns s g x ∨ x ∈ old ∧ x ∉ old'
  view : ∀ x, ¬ A.Owns s g x → x ∉ old → s'.store.view x = s.store.view x

/-- What may happen to the pages between two calls. -/
def Elsewhere (A : Allocator G) (s : AllocCtx) (old : List Nat) (s' : AllocCtx) (old' : List Nat) :
    Prop :=
  old' ⊆ old ∧ ∀ g, A.Inv s g → (∀ x ∈ old, ¬ A.Owns s g x) → ∃ g', Released A s g old s' g' old'

theorem Rests.released {V : Type} {R : RadixLayout V} {s s' : AllocCtx} {g g' : G} {h : Nat}
    {sub : PageTree V} {old old' : List Nat} (hs : Rests R A s g h sub)
    (hr : Released A s g old s' g' old') (hold : ∀ x ∈ old, sub.count R.shape x = 0) :
    Rests R A s' g' h sub := by
  have hout : ∀ x, 0 < sub.count R.shape x → x ∉ old := fun x hx hin => by
    have := hold x hin
    omega
  refine ⟨hs.rep.frame fun x hx => ?_, fun x hx ho => ?_⟩
  · rw [cellsOf, hr.view x (hs.fixed x hx) (hout x hx)]
    rfl
  · rcases hr.owns x ho with ho | ⟨hin, -⟩
    · exact hs.fixed x hx ho
    · exact hout x hx hin

theorem Released.not_owned {s s' : AllocCtx} {g g' : G} {old old' : List Nat} {x : Nat}
    (hr : Released A s g old s' g' old') (hx : x ∈ old') (ho : ¬ A.Owns s g x) : ¬ A.Owns s' g' x :=
  fun ho' => (hr.owns x ho').elim ho fun hin => hin.2 hx

/-- The tables that calls lead to from a new one, with the map that the calls make. A call that
failed counts for nothing. -/
inductive TableRun (A : Allocator G) : TreeUse → (Nat → Option HandleEntry) → Prop
  | fresh {s : AllocCtx} {root : Nat} {c : PageCache} {g : G} (sound : s.Sound)
    (made : HandleTable.createRoot s.cache = .ok root c) (inv : A.Inv { s with cache := c } g)
    (out : ¬ A.Owns { s with cache := c } g root) :
    TableRun A ⟨⟨{ s with cache := c }, 0⟩, root, []⟩ fun _ => none
  | returned {t t' : TreeUse} {M : Nat → Option HandleEntry} {call : TableCall} {a : TableAnswer}
    (h : TableRun A t M) (valid : call.Valid) (run : call.exec A.alloc t = .ok a t') :
    TableRun A t' (call.effect M)
  | failed {t t' : TreeUse} {M : Nat → Option HandleEntry} {call : TableCall} {e : ChiselError}
    (h : TableRun A t M) (valid : call.Valid) (run : call.exec A.alloc t = .error e t') :
    TableRun A t' M
  | elsewhere {t : TreeUse} {M : Nat → Option HandleEntry} {s' : AllocCtx} {old' : List Nat}
    (h : TableRun A t M) (step : Elsewhere A t.pages t.superseded s' old') :
    TableRun A { t with pages := s', superseded := old' } M

/-- The table stands for the map, and no superseded page is one of its own or of the allocator's. -/
structure TableOk (A : Allocator G) (t : TreeUse) (M : Nat → Option HandleEntry) (g : G)
    (sub : PageTree HandleEntry) : Prop where
  inv : A.Inv t.pages g
  stands : Stands handleLayout A t.pages g t.depth t.root sub
  spine : PageTree.Spine t.depth sub
  keys : KeysOk handleLayout t.depth sub
  old : ∀ x ∈ t.superseded, ¬ A.Owns t.pages g x ∧ sub.count handleLayout.shape x = 0
  shown : ∀ k, (PageTree.content handleLayout.shape handleLayout.absent t.depth sub k).shown = M k

namespace TableOk

variable {g g' : G} {sub sub' : PageTree HandleEntry} {s' : AllocCtx}

section

variable (h : TableOk A t M g sub)

include h

theorem steady (hs : Steady A.Inv A.Owns t.pages g s' g') :
    TableOk A { t with pages := s' } M g' sub where
  inv := hs.inv
  stands := ⟨h.stands.rests.steady hs, h.stands.rooted, h.stands.apart, h.stands.depth_le⟩
  spine := h.spine
  keys := h.keys
  old x hx := ⟨fun ho => (h.old x hx).1 (hs.owns_le x ho), (h.old x hx).2⟩
  shown := h.shown

theorem peek (hp : Peeked t.pages s') :
    TableOk A { t with pages := s' } M g sub :=
  h.steady ((Allocator.Issued.refl h.inv).peek hp).frame.1

theorem supersede {ids freed : List Nat} {depth root : Nat} {M' : Nat → Option HandleEntry}
    (hs : Supersedes handleLayout A t.pages g t.depth sub ids freed s' g' depth root sub')
    (hspine : PageTree.Spine depth sub') (hkeys : KeysOk handleLayout depth sub')
    (hshown : ∀ k,
      (PageTree.content handleLayout.shape handleLayout.absent depth sub' k).shown = M' k) :
    TableOk A ⟨⟨s', depth⟩, root, t.superseded ++ freed⟩ M' g' sub' where
  inv := hs.issued.inv
  stands := hs.stands
  spine := hspine
  keys := hkeys
  old x hx := by
    rcases List.mem_append.mp hx with hx | hx
    · obtain ⟨hown, hcount⟩ := h.old x hx
      refine ⟨hs.issued.fixed hown, Nat.eq_zero_of_not_pos fun hpos => ?_⟩
      rcases hs.pages x hpos with hin | hin
      · omega
      · exact hown (hs.issued.owned hin)
    · obtain ⟨hin | hin, hcount⟩ := (hs.mem_freed x).mp hx
      · exact ⟨hs.issued.fixed (h.stands.rests.fixed x hin), hcount⟩
      · exact ⟨hs.issued.given hin, hcount⟩
  shown := hshown

theorem insert {handle : Nat} (hv : handle ≤ u64Max)
    (entry : HandleEntry) :
    wp ((TableCall.insert handle entry).exec A.alloc) t
      (fun a t' => a = .done ∧
        ∃ g' sub', TableOk A t' (Function.update M handle entry.shown) g' sub')
      (fun _ t' => t'.depth = t.depth ∧ t'.root = t.root ∧ ∃ g', TableOk A t' M g' sub) := by
  simp only [TableCall.exec, wp_bind, wp_get, wp_zoom, wp_insertIn, wp_modify, wp_pure]
  refine wp_mono (h.stands.wp_insert handleLayout_lawful h.inv h.spine.ne_nil hv entry) ?_ ?_
  · rintro res s' ⟨ids, g', sub', hsup, hspine, hc⟩
    refine ⟨trivial, g', sub', h.supersede hsup (hspine h.spine)
      (h.keys.update handleLayout_lawful hv hc) fun k => ?_⟩
    rw [hc, Function.update_apply, Function.update_apply]
    split
    · rfl
    · exact h.shown k
  · intro e s' hr
    obtain ⟨g', hs⟩ := hr.steady
    exact ⟨trivial, trivial, g', h.steady hs⟩

theorem delete {handle : Nat} (hv : handle ≤ u64Max) :
    wp ((TableCall.delete handle).exec A.alloc) t
      (fun a t' => a = .entry (M handle) ∧
        ∃ g' sub', TableOk A t' (Function.update M handle none) g' sub')
      (fun _ t' => t'.depth = t.depth ∧ t'.root = t.root ∧ ∃ g', TableOk A t' M g' sub) := by
  simp only [TableCall.exec, HandleTable.delete, wp_bind, wp_get, wp_zoom, wp_modify, wp_pure]
  refine wp_mono (h.stands.wp_delete handleLayout_lawful h.inv hv) ?_ ?_
  · rintro ⟨root, prev, freed⟩ s' ⟨ids, g', sub', hsup, hspine, hnone, hsome⟩
    cases prev with
    | none =>
      obtain ⟨habs, rfl⟩ := hnone rfl
      have hM : M handle = none := by
        rw [← h.shown, HandleEntry.shown, if_pos (beq_iff_eq.mp habs)]
      refine ⟨by rw [hM], g', sub', h.supersede hsup (hspine h.spine) h.keys fun k => ?_⟩
      rw [← hM, Function.update_eq_self]
      exact h.shown k
    | some v =>
      obtain ⟨hpres, hv', hc⟩ := hsome v rfl
      have hlive : v.flags ≠ .deleted := fun hd => by
        have hgone : handleLayout.isAbsent v = true := beq_iff_eq.mpr hd
        rw [hgone] at hpres
        cases hpres
      refine ⟨?_, g', sub', h.supersede hsup (hspine h.spine)
        (h.keys.update handleLayout_lawful hv hc) fun k => ?_⟩
      · rw [← h.shown, ← hv', HandleEntry.shown, if_neg hlive]
      · rw [hc, Function.update_apply, Function.update_apply]
        split
        · rfl
        · exact h.shown k
  · intro e s' hr
    obtain ⟨g', hs⟩ := hr.steady
    exact ⟨trivial, trivial, g', h.steady hs⟩

theorem read {α : Type} {x : CacheM α} {P : α → Prop}
    (hx : wp x t.pages.cache (fun a c' => Reads t.pages.cache c' ∧ P a)
      (fun e c' => Crowded t.pages.cache e c')) :
    wp (onCache x) t.pages
      (fun a s' => P a ∧ TableOk A { t with pages := s' } M g sub)
      (fun _ s' => TableOk A { t with pages := s' } M g sub) :=
  wp_mono (wp_peek hx) (fun _ _ ⟨hp, ha⟩ => ⟨ha, h.peek hp⟩) fun _ _ hb => h.peek hb.peeked

theorem lookup {handle : Nat} (hv : handle ≤ u64Max) :
    wp ((TableCall.lookup handle).exec A.alloc) t
      (fun a t' => a = .entry (M handle) ∧ TableOk A t' M g sub)
      (fun _ t' => t'.depth = t.depth ∧ t'.root = t.root ∧ TableOk A t' M g sub) := by
  have hlook : wp (HandleTable.lookup t.depth t.root handle) t.pages.cache
      (fun e c' => Reads t.pages.cache c' ∧ e = M handle)
      (fun e c' => Crowded t.pages.cache e c') := by
    rw [HandleTable.lookup, wp_bind]
    refine wp_imp (wp_lookup handleLayout_lawful h.stands.depth_le (h.stands.rests.holds h.inv)
      (A.sound h.inv).next_le h.stands.rooted hv) ?_
    rintro e c' ⟨hreads, he⟩
    refine wp_ret ⟨hreads, ?_⟩
    rw [← h.shown, ← he]
    rfl
  simp only [TableCall.exec, wp_bind, wp_get, wp_zoom, wp_pure]
  refine wp_mono (h.read hlook) ?_ fun _ _ h => ⟨trivial, trivial, h⟩
  rintro e s' ⟨he, h'⟩
  exact ⟨by rw [he], h'⟩

theorem iterLive :
    wp (TableCall.iterLive.exec A.alloc) t
      (fun a t' => TableCall.iterLive.Answers M a ∧ TableOk A t' M g sub)
      (fun _ t' => t'.depth = t.depth ∧ t'.root = t.root ∧ TableOk A t' M g sub) := by
  have hiter := wp_iter handleLayout_lawful h.stands.depth_le (h.stands.rests.holds h.inv)
    (A.sound h.inv).next_le h.stands.rooted h.keys
  simp only [TableCall.exec, HandleTable.iterLive, wp_bind, wp_get, wp_zoom, wp_pure]
  refine wp_mono (h.read hiter) ?_ fun _ _ h => ⟨trivial, trivial, h⟩
  rintro l s' ⟨hl, h'⟩
  refine ⟨⟨l, rfl, ?_, fun handle entry => ?_⟩, h'⟩
  · rw [hl]
    exact PageTree.sorted_listing handleLayout_lawful.absent_gone
  · rw [hl, PageTree.mem_listing_content handleLayout_lawful.absent_gone, ← h.shown,
      HandleEntry.shown]
    have habs : handleLayout.isAbsent entry = false ↔ entry.flags ≠ .deleted := by
      change (entry.flags == .deleted) = false ↔ _
      rw [beq_eq_false_iff_ne]
    rw [habs]
    split
    · next hdel =>
      refine iff_of_false ?_ (by simp)
      rintro ⟨rfl, hlive⟩
      exact hlive hdel
    · next hlive =>
      rw [Option.some_inj]
      constructor
      · intro he
        exact he.1.symm
      · rintro rfl
        exact ⟨rfl, hlive⟩

theorem exec {call : TableCall} (hv : call.Valid) :
    wp (call.exec A.alloc) t
      (fun a t' => call.Answers M a ∧ ∃ g' sub', TableOk A t' (call.effect M) g' sub')
      (fun _ t' => t'.depth = t.depth ∧ t'.root = t.root ∧ ∃ g', TableOk A t' M g' sub) := by
  cases call with
  | insert handle entry => exact h.insert hv entry
  | delete handle => exact h.delete hv
  | lookup handle =>
    exact wp_mono (h.lookup hv) (fun _ _ h => ⟨h.1, g, sub, h.2⟩)
      fun _ _ h => ⟨h.1, h.2.1, g, h.2.2⟩
  | iterLive =>
    exact wp_mono h.iterLive (fun _ _ h => ⟨h.1, g, sub, h.2⟩) fun _ _ h => ⟨h.1, h.2.1, g, h.2.2⟩

theorem map_eq : t.map = M := by
  funext k
  rw [TreeUse.map, h.stands.mapAt_eq h.inv]
  exact h.shown k

/-- Pages that are neither the table's nor superseded by it may change, and superseded pages may go
back to the allocator. -/
theorem elsewhere {old' : List Nat}
    (hs : Elsewhere A t.pages t.superseded s' old') :
    ∃ g', TableOk A { t with pages := s', superseded := old' } M g' sub := by
  obtain ⟨hsub, hstep⟩ := hs
  obtain ⟨g', hr⟩ := hstep g h.inv fun x hx => (h.old x hx).1
  have hrests := h.stands.rests.released hr fun x hx => (h.old x hx).2
  refine ⟨g', hr.inv, ⟨hrests, h.stands.rooted, h.stands.apart, h.stands.depth_le⟩, h.spine, h.keys,
    fun x hx => ?_, h.shown⟩
  obtain ⟨hown, hcount⟩ := h.old x (hsub hx)
  exact ⟨hr.not_owned hx hown, hcount⟩

end

end TableOk

theorem wp_createRoot_view {c : PageCache} (hwf : c.WF) :
    wp HandleTable.createRoot c
      (fun id c' => c'.store.view id = some (handleLayout.initNode 0)) (fun _ _ => True) := by
  simp only [HandleTable.createRoot, wp_bind, wp_pure]
  refine wp_mono (wp_newPage hwf) ?_ fun _ _ _ => trivial
  rintro id c1 ⟨hid, _, hwf1, hst, _⟩
  subst hid
  have hblank : c1.store.view c.nextPageId = none := by
    rw [hst]
    exact Function.update_self ..
  have hlt : c.nextPageId < c1.store.next := by
    rw [hst]
    exact Nat.lt_succ_self _
  refine wp_mono (wp_writeStamped hwf1 hlt (fun q hq => absurd (hblank.symm.trans hq) (by simp)) _)
    ?_ fun _ _ _ => trivial
  rintro _ c2 ⟨_, hst2⟩
  rw [hst2]
  exact Store.put_view_self ..

theorem tableOk_fresh {s : AllocCtx} {root : Nat} {c : PageCache} {g : G} (hs : s.Sound)
    (hmade : HandleTable.createRoot s.cache = .ok root c) (hinv : A.Inv { s with cache := c } g)
    (hout : ¬ A.Owns { s with cache := c } g root) :
    TableOk A ⟨⟨{ s with cache := c }, 0⟩, root, []⟩ (fun _ => none) g
      (PageTree.empty handleLayout.absent 0 root) where
  inv := hinv
  stands :=
    { rests :=
        { rep := rep_initNode handleLayout_lawful (fun hz => hout (hz ▸ A.zero hinv))
            ((wp_ok hmade).mp (wp_createRoot_view hs.wf))
          fixed := fun x hx => by
            rw [PageTree.count_empty] at hx
            obtain rfl := one_pos.mp hx
            exact hout }
      rooted := ⟨fun hnil => absurd hnil (PageTree.empty_ne_nil _ _), fun _ => rfl⟩
      apart := fun x => one_le _ _
      depth_le := Nat.zero_le _ }
  spine := trivial
  keys k _ hk := by
    rw [PageTree.get_empty, handleLayout_lawful.absent_gone] at hk
    cases hk
  old := nofun
  shown k := by
    rw [PageTree.content_empty]
    rfl

theorem TableRun.ok (h : TableRun A t M) : ∃ g sub, TableOk A t M g sub := by
  induction h with
  | fresh sound made inv out => exact ⟨_, _, tableOk_fresh sound made inv out⟩
  | returned _ valid run ih =>
    obtain ⟨g, sub, h⟩ := ih
    exact ((wp_ok run).mp (h.exec valid)).2
  | failed _ valid run ih =>
    obtain ⟨g, sub, h⟩ := ih
    obtain ⟨-, -, g', h'⟩ := (wp_error run).mp (h.exec valid)
    exact ⟨g', sub, h'⟩
  | elsewhere _ step ih =>
    obtain ⟨g, sub, h⟩ := ih
    obtain ⟨g', h'⟩ := h.elsewhere step
    exact ⟨g', sub, h'⟩

/-- The handle table refines a partial map: after any calls, and whatever happened to other pages
between them, the pages hold the map of the calls; the next call answers about this map and changes
it as it should, or fails and leaves the depth, the root and what is read through it unchanged. -/
theorem handle_table_refines_map (h : TableRun A t M) {call : TableCall} (hv : call.Valid) :
    t.map = M ∧
    (∀ a t', call.exec A.alloc t = .ok a t' → call.Answers M a ∧ t'.map = call.effect M) ∧
    ∀ e t', call.exec A.alloc t = .error e t' →
      t'.depth = t.depth ∧ t'.root = t.root ∧ t'.map = M := by
  obtain ⟨g, sub, hok⟩ := h.ok
  have hrun := wp_def.mp (hok.exec hv)
  refine ⟨hok.map_eq, fun a t' ha => ?_, fun e t' he => ?_⟩
  · obtain ⟨hans, g', sub', h'⟩ := hrun.1 a t' ha
    exact ⟨hans, h'.map_eq⟩
  · obtain ⟨hd, hr, g', h'⟩ := hrun.2 e t' he
    exact ⟨hd, hr, h'.map_eq⟩

end Calls

/-- The theorem at a lookup after the largest handle has been inserted into a new table. -/
theorem handle_table_refines_map_max : ∃ t t',
    TableRun (cow true 1) t
      (Function.update (fun _ => none) u64Max (some ⟨9, 0, .live, 3, 0⟩)) ∧
    (TableCall.lookup u64Max).exec (cowAlloc true) t =
      .ok (.entry (some ⟨9, 0, .live, 3, 0⟩)) t' := by
  set insert := TableCall.insert u64Max ⟨9, 0, .live, 3, 0⟩
  have hall : gives HandleTable.createRoot (fun root c => returns
    (insert.exec (cowAlloc true) >>= fun _ =>
      (TableCall.lookup u64Max).exec (cowAlloc true)) ⟨⟨{ blank with cache := c }, 0⟩, root, []⟩)
      blank.cache = true := by decide +kernel
  obtain ⟨root, c, hmade, hall⟩ := exists_of_gives hall
  obtain ⟨a, t, b, t', hinsert, hlookup⟩ := exists_ok_bind hall
  obtain ⟨g, hl, hrests, -⟩ :=
    (wp_ok hmade).mp (wp_onCache.mp (wp_createRoot (r := true) blank_inv))
  have hout := hrests.fixed root (by simp)
  have hfresh := TableRun.fresh (A := cow true 1) blank_inv.sound hmade hl.inv hout
  have hv : insert.Valid := Nat.le_refl u64Max
  have hrun := hfresh.returned hv hinsert
  have hanswer := ((handle_table_refines_map hrun
    (show (TableCall.lookup u64Max).Valid from Nat.le_refl u64Max)).2.1 b t' hlookup).1
  refine ⟨t, t', hrun, hlookup.trans ?_⟩
  rw [show b = .entry (insert.effect (fun _ => none) u64Max) from hanswer]
  rfl

end Chisel
