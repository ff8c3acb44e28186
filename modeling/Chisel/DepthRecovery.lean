import Chisel.RadixBytes
import Chisel.TagSets

/-! The depth of a radix tree. It is kept in memory only and read back from the left spine: growth
puts the old root under position 0 of the new one, so the spine of a tree that was built by calls is
as long as the tree is deep. On arbitrary pages the walk down the spine is cut off at the maximal
depth. -/

namespace Chisel

open StateError PageCache RadixTree

namespace Raw

variable {S V : Type} {A : PageAccess S} {R : RadixLayout V} {B : RadixBytes R}

/-- Whatever the pages hold, the walk ends within as many rounds as there can be levels. -/
theorem wp_recoverDepthFrom {rounds depth current : Nat} {s : S} (hd : depth ≤ R.maxDepth)
    (hr : R.maxDepth < depth + rounds) :
    wp (recoverDepthFrom A B rounds depth current) s (fun r _ => ∃ d ≤ R.maxDepth, r = some d)
      (fun _ _ => True) := by
  induction rounds generalizing depth current s with
  | zero => omega
  | succ rounds ih =>
    rw [recoverDepthFrom, wp_bind]
    refine wp_mono wp_true (fun buf s' _ => ?_) fun _ _ _ => trivial
    split
    · exact wp_fail trivial
    · exact wp_ret ⟨depth, hd, rfl⟩
    · refine wp_ite (fun _ => by rw [wp_bind]; exact wp_fail trivial) fun hmax => ?_
      refine wp_ite (fun _ => wp_ret ⟨depth + 1, by omega, rfl⟩) fun _ => ?_
      exact ih (by omega) (by omega)

theorem wp_recoverDepth_le {rounds root : Nat} {s : S} (hr : R.maxDepth < rounds) :
    wp (recoverDepth A B rounds root) s (fun r _ => ∃ d ≤ R.maxDepth, r = some d)
    (fun _ _ => True) :=
  wp_ite (fun _ => wp_ret ⟨0, Nat.zero_le _, rfl⟩) fun _ =>
    wp_recoverDepthFrom (Nat.zero_le _) (by omega)

/-! ### Pages and their bytes -/

def RadixBytes.cell (B : RadixBytes R) (buf : Bytes) : Option (Cell V) :=
  if B.isLeaf buf then some (.leaf (B.readSlot buf))
  else if B.isInterior buf then some (.node (childAt buf)) else none

/-- The walk of `recover_depth` tells the nodes apart. -/
structure RadixBytes.Lawful (B : RadixBytes R) : Prop where
  leaf : ∀ id buf, B.isLeaf buf = true → B.spine id buf = .ok false
  interior : ∀ id buf, B.isInterior buf = true → B.spine id buf = .ok true

theorem HandleTable.bytes_lawful : HandleTable.bytes.Lawful where
  leaf id buf h := by
    have hflag : byteAt buf 1 = flagLeaf := by simpa [bytes] using (Bool.and_eq_true_iff.mp h).2
    simp only [bytes]
    rw [if_pos (by rw [hflag]; decide)]
  interior id buf h := by
    obtain ⟨htype, hflag⟩ := Bool.and_eq_true_iff.mp h
    simp only [bytes]
    rw [if_neg (not_not.mpr (beq_iff_eq.mp hflag)), if_neg (not_not.mpr (beq_iff_eq.mp htype))]

theorem MembershipIndex.bytes_lawful : MembershipIndex.bytes.Lawful where
  leaf id buf h := by
    have htype : byteAt buf 0 = typeMembershipLeaf := beq_iff_eq.mp h
    simp only [bytes, htype]
    rfl
  interior id buf h := congrArg Except.ok h

/-- The cache gives out the bytes of the nodes in `view`. -/
def PageAccess.Presents (A : PageAccess S) (B : RadixBytes R) (view : Nat → Option Page) : Prop :=
  ∀ id k, cellsOf R.cell view id = some k → ∀ s, ∃ buf s', A.get id s = .ok buf s' ∧
    B.cell buf = some k

theorem RadixBytes.cell_leaf {buf : Bytes} {vals : Nat → V} (h : B.cell buf = some (.leaf vals)) :
    B.isLeaf buf = true ∧ B.readSlot buf = vals := by
  unfold cell at h
  split at h
  · next hleaf => exact ⟨hleaf, by simpa using h⟩
  · split at h <;> simp at h

theorem RadixBytes.cell_node {buf : Bytes} {ptrs : Nat → Nat} (h : B.cell buf = some (.node ptrs)) :
    B.isInterior buf = true ∧ childAt buf = ptrs := by
  unfold cell at h
  split at h
  · simp at h
  · split at h
    · next hint => exact ⟨hint, by simpa using h⟩
    · simp at h

section Presented

variable {c : PageCache} {h root : Nat} {sub : PageTree V}

/-- On the bytes of a tree with a whole left spine, the walk finds its depth. -/
theorem wp_recoverDepth_bytes (hB : B.Lawful) (hp : A.Presents B c.store.view)
    (hs : Holds R c h sub) (hmax : c.store.next ≤ u64Max) (hroot : RootedAt root sub)
    (hzero : sub = .nil → h = 0) (hspine : sub ≠ .nil → PageTree.Spine h sub) (hh : h ≤ R.maxDepth)
    {rounds : Nat} (hr : h < rounds) (s : S) :
    wp (recoverDepth A B rounds root) s (fun r _ => r = some h) (fun _ _ => False) := by
  have hfrom : ∀ {h rounds depth sub s}, Holds R c h sub → PageTree.Spine h sub → h < rounds →
      depth + h ≤ R.maxDepth → wp (recoverDepthFrom A B rounds depth sub.root) s
        (fun r _ => r = some (depth + h)) (fun _ _ => False) := by
    intro h
    induction h with
    | zero =>
      intro rounds depth sub s hs hspine hr _
      obtain ⟨rounds, rfl⟩ := Nat.exists_eq_succ_of_ne_zero (Nat.ne_of_gt hr)
      obtain ⟨vals, -, hcell⟩ := hs.rep.leaf_of_zero hspine.ne_nil
      obtain ⟨buf, s', hrun, hbuf⟩ := hp _ _ hcell s
      rw [recoverDepthFrom, wp_bind, wp_ok hrun, hB.leaf _ _ (RadixBytes.cell_leaf hbuf).1]
      exact wp_ret rfl
    | succ h ih =>
      intro rounds depth sub s hs hspine hr hd
      obtain ⟨rounds, rfl⟩ := Nat.exists_eq_succ_of_ne_zero (Nat.ne_of_gt (Nat.zero_lt_of_lt hr))
      obtain ⟨kids, ptrs, hsub, hcell, hptrs, hkids⟩ := hs.rep.node_of_succ hspine.ne_nil
      obtain ⟨buf, s', hrun, hbuf⟩ := hp _ _ hcell s
      obtain ⟨hint, hchild⟩ := RadixBytes.cell_node hbuf
      have hkid : Holds R c h (kids 0) := hs.at hsub ⟨hs.wf, rfl⟩ R.shape.fanout_pos
      have hspine' : PageTree.Spine h (kids 0) := by
        rw [hsub] at hspine
        exact hspine
      rw [recoverDepthFrom, wp_bind, wp_ok hrun, hB.interior _ _ hint]
      dsimp only
      refine wp_ite (fun hgt => absurd hgt (by omega)) fun _ => ?_
      rw [hchild, hptrs 0 R.shape.fanout_pos]
      refine wp_ite (fun hz => absurd hz (hkid.rep.root_ne_zero hspine'.ne_nil)) fun _ => ?_
      refine wp_mono (ih hkid hspine' (by omega) (by omega)) (fun r _ hres => ?_) fun _ _ h => h
      rw [hres]
      congr 1
      omega
  refine wp_ite (fun hn => wp_ret ?_) fun hn => ?_
  · rw [hzero ((hroot.none_iff hs hmax).mp hn)]
  · have hne : sub ≠ .nil := mt (hroot.none_iff hs hmax).mpr hn
    rw [hroot.eq hne]
    have hall := @hfrom h rounds 0 sub s hs (hspine hne) hr (by omega)
    rwa [Nat.zero_add] at hall

end Presented

end Raw

/-! ### Trees that were built by calls -/

section Built

variable {G S : Type} {A : Allocator G} {t : TreeUse}

/-- `recover_depth` finds the depth of the tree in use, in the cache unless memory runs out, and
from any source of its pages' bytes. -/
structure Recovers {V : Type} {R : RadixLayout V} (B : Raw.RadixBytes R) (t : TreeUse)
    (P : Raw.PageAccess S) (rounds : Nat) : Prop where
  cached : wp (R.recoverDepth t.root) t.pages.cache (fun d _ => d = t.depth)
    (fun e _ => e.isCapacity = true ∧ ¬ t.pages.store.Fits)
  bytes : P.Presents B t.pages.store.view → ∀ s,
    wp (Raw.recoverDepth P B rounds t.root) s (fun d _ => d = some t.depth) (fun _ _ => False)

theorem recovers {V : Type} {R : RadixLayout V} {B : Raw.RadixBytes R} {sub : PageTree V}
    {P : Raw.PageAccess S} {rounds : Nat} (hR : R.Lawful) (hB : B.Lawful)
    (hs : Holds R t.pages.cache t.depth sub) (hmax : t.pages.store.next ≤ u64Max)
    (hroot : RootedAt t.root sub) (hd : t.depth ≤ R.maxDepth) (hzero : sub = .nil → t.depth = 0)
    (hspine : sub ≠ .nil → PageTree.Spine t.depth sub) (hr : R.maxDepth < rounds) :
    Recovers B t P rounds where
  cached := by
    refine wp_mono (wp_recoverDepth hR hs hd hroot hzero hspine hmax) (fun _ _ h => h.2) ?_
    intro e c ⟨_, _, hcap, hfull⟩
    exact ⟨hcap, hfull⟩
  bytes hp s := Raw.wp_recoverDepth_bytes hB hp hs hmax hroot hzero hspine hd (by omega) s

theorem TableRun.recovers {M : Nat → Option HandleEntry} (h : TableRun A t M) {P : Raw.PageAccess S}
    {rounds : Nat} (hr : handleLayout.maxDepth < rounds) :
    Recovers Raw.HandleTable.bytes t P rounds := by
  obtain ⟨g, sub, hok⟩ := h.ok
  exact Chisel.recovers handleLayout_lawful Raw.HandleTable.bytes_lawful
    (hok.stands.rests.holds hok.inv) (A.sound hok.inv).next_le hok.stands.rooted hok.stands.depth_le
    (fun hnil => absurd hnil hok.spine.ne_nil) (fun _ => hok.spine) hr

theorem TagRun.recovers {F : Nat → Finset Nat} (h : TagRun A t F) {P : Raw.PageAccess S}
    {rounds : Nat} (hr : radixU64.maxDepth < rounds) :
    Recovers Raw.MembershipIndex.bytes t P rounds := by
  obtain ⟨a, g, hok⟩ := h.ok
  exact Chisel.recovers radixU64_lawful Raw.MembershipIndex.bytes_lawful
    (hok.rests.outer.holds hok.inv) (A.sound hok.inv).next_le hok.rooted hok.ok.outer_le
    hok.ok.outer_zero hok.ok.outer_spine hr

/-- The depth of a tree that was built by calls is read back from its left spine; and whatever the
pages hold, the walk down the spine ends within seven rounds, with a depth of at most six or an
error. -/
theorem depth_recovered (A : Allocator G) (P : Raw.PageAccess S) {rounds : Nat}
    (hr : handleLayout.maxDepth < rounds) :
    (∀ t M, TableRun A t M → Recovers Raw.HandleTable.bytes t P rounds) ∧
    (∀ t F, TagRun A t F → Recovers Raw.MembershipIndex.bytes t P rounds) ∧
    ∀ root s,
      wp (Raw.recoverDepth P Raw.HandleTable.bytes rounds root) s
        (fun r _ => ∃ d ≤ handleLayout.maxDepth, r = some d) (fun _ _ => True) ∧
      wp (Raw.recoverDepth P Raw.MembershipIndex.bytes rounds root) s
        (fun r _ => ∃ d ≤ radixU64.maxDepth, r = some d) (fun _ _ => True) :=
  ⟨fun _ _ h => h.recovers hr, fun _ _ h => h.recovers hr, fun _ _ =>
    ⟨Raw.wp_recoverDepth_le hr, Raw.wp_recoverDepth_le hr⟩⟩

end Built

/-- The theorem at a table that the handle 510 has made grow. -/
theorem depth_recovered_grown : ∃ t c M, TableRun (cow true 1) t M ∧
    HandleTable.recoverDepth t.root t.pages.cache = .ok 1 c := by
  set insert := TableCall.insert 510 ⟨9, 0, .live, 3, 0⟩
  have hall : gives HandleTable.createRoot (fun root c => gives (insert.exec (cowAlloc true))
      (fun _ t => t.depth == 1 && returns (HandleTable.recoverDepth t.root) t.pages.cache)
      ⟨⟨{ blank with cache := c }, 0⟩, root, []⟩) blank.cache = true := by decide +kernel
  obtain ⟨root, c, hmade, hall⟩ := exists_of_gives hall
  obtain ⟨a, t, hinsert, hall⟩ := exists_of_gives hall
  obtain ⟨hdepth, hret⟩ := Bool.and_eq_true_iff.mp hall
  obtain ⟨g, hl, hrests, -⟩ :=
    (wp_ok hmade).mp (wp_onCache.mp (wp_createRoot (r := true) blank_inv))
  have hfresh := TableRun.fresh (A := cow true 1) blank_inv.sound hmade hl.inv
    (hrests.fixed root (by simp))
  have hvalid : insert.Valid := show 510 ≤ u64Max by decide
  have hrun := hfresh.returned hvalid hinsert
  obtain ⟨d, c', hrec⟩ := exists_ok hret
  let none : Raw.PageAccess Unit :=
    ⟨fun id => throw (.invalidPageId id), fun id _ => throw (.invalidPageId id),
      throw (.cacheFull 0)⟩
  have hd := (wp_ok hrec).mp
    ((depth_recovered (cow true 1) none (show handleLayout.maxDepth < 7 by decide)).1 t _
      hrun).cached
  rw [hd, beq_iff_eq.mp hdepth] at hrec
  exact ⟨t, c', _, hrun, hrec⟩

end Chisel
