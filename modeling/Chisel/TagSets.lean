import Chisel.TableMap

/-! The membership index as a map from tags to finite sets of handles. -/

namespace Chisel

open StateError PageCache RadixTree Ledger

/-! ### Pages of the index -/

namespace Index

variable {G : Type} {A : Allocator G} {g g' : Index} {h root : Nat} {s s' : AllocCtx} {a a' : G}
  {ids : List Nat} {x : Nat}

theorem count_pos_cases (hx : 0 < g.count x) : 0 < g.outer.count radixU64.shape x ∨
    ∃ tag ∈ g.tags, 0 < (g.inner tag).count radixU64.shape x := by
  unfold count at hx
  by_cases ho : 0 < g.outer.count radixU64.shape x
  · exact .inl ho
  · have hsum : 0 < ∑ tag ∈ g.tags, (g.inner tag).count radixU64.shape x := by omega
    obtain ⟨tag, ht, hpos⟩ := Finset.exists_ne_zero_of_sum_ne_zero hsum.ne'
    exact .inr ⟨tag, ht, Nat.pos_of_ne_zero hpos⟩

theorem RestsIn.fixed (hg : RestsIn A s a h g) (hx : 0 < g.count x) : ¬ A.Owns s a x := by
  rcases count_pos_cases hx with ho | ⟨tag, ht, hi⟩
  · exact hg.outer.fixed x ho
  · exact (hg.inner tag ht).fixed x hi

theorem RestsIn.steady (hg : RestsIn A s a h g) (hs : Steady A.Inv A.Owns s a s' a') :
    RestsIn A s' a' h g :=
  ⟨hg.outer.steady hs, fun tag ht => (hg.inner tag ht).steady hs⟩

theorem RestsIn.count_add_le (hg : RestsIn A s a h g) (hone : ∀ y, g.count y ≤ 1)
    (hi : A.Issued s a ids s' a') (x : Nat) : g.count x + ids.count x ≤ 1 := by
  have hg1 := hone x
  have hids := List.nodup_iff_count_le_one.mp hi.nodup x
  by_cases hx : x ∈ ids
  · have : g.count x = 0 := Nat.eq_zero_of_not_pos fun hpos => hg.fixed hpos (hi.owned hx)
    omega
  · have := List.count_eq_zero_of_not_mem hx
    omega

end Index

/-! ### Calls -/

inductive TagCall
  | insert (tag handle : Nat)
  | remove (tag handle : Nat)
  | contains (tag handle : Nat)
  | handlesForTag (tag : Nat)

inductive TagAnswer
  | done
  | present (b : Bool)
  | handles (l : List Nat)

namespace TagCall

/-- Tags are 32 bits wide and handles 64. -/
def Valid : TagCall → Prop
  | insert tag handle | remove tag handle | contains tag handle => tag < 2 ^ 32 ∧ handle ≤ u64Max
  | handlesForTag tag => tag < 2 ^ 32

/-- A call on the index. The user installs the root of a call that succeeds. -/
def exec (alloc : AllocM Nat) : TagCall → EStateM ChiselError TreeUse TagAnswer
  | insert tag handle => do
    let t ← get
    let res ← zoom (·.pages) (fun s t => { t with pages := s })
      (MembershipIndex.insert alloc t.depth t.root tag handle)
    modify fun t => { t with
      depth := res.depth, root := res.root, superseded := t.superseded ++ res.freed }
    return .done
  | remove tag handle => do
    let t ← get
    let (res, found) ← zoom (·.pages) (fun s t => { t with pages := s })
      (MembershipIndex.remove alloc t.depth t.root tag handle)
    modify fun t => { t with
      depth := res.depth, root := res.root, superseded := t.superseded ++ res.freed }
    return .present found
  | contains tag handle => do
    let t ← get
    let b ← zoom (·.pages) (fun s t => { t with pages := s })
      (onCache (MembershipIndex.contains t.depth t.root tag handle))
    return .present b
  | handlesForTag tag => do
    let t ← get
    let l ← zoom (·.pages) (fun s t => { t with pages := s })
      (onCache (MembershipIndex.handlesForTag t.depth t.root tag))
    return .handles l

def effect : TagCall → (Nat → Finset Nat) → Nat → Finset Nat
  | insert tag handle, F => Function.update F tag (Insert.insert handle (F tag))
  | remove tag handle, F => Function.update F tag ((F tag).erase handle)
  | contains _ _, F | handlesForTag _, F => F

def answer : TagCall → (Nat → Finset Nat) → TagAnswer
  | insert _ _, _ => .done
  | remove tag handle, F | contains tag handle, F => .present (handle ∈ F tag)
  | handlesForTag tag, F => .handles ((F tag).sort (· ≤ ·))

end TagCall

/-! ### The index and its sets -/

section Sets

variable {G : Type} {A : Allocator G} {t t' : TreeUse} {F : Nat → Finset Nat} {a a' : G}
  {g g' : Index} {s' : AllocCtx} {tag handle : Nat}

/-- The word of a tag in the outer tree, as the pages have it. -/
def TreeUse.word (t : TreeUse) (tag : Nat) : Nat :=
    radixU64.mapAt t.pages.store.view t.depth t.root tag

/-- A page of the tree of a tag, as the pages have it. -/
def TreeUse.OfTag (t : TreeUse) (tag x : Nat) : Prop :=
  t.word tag ≠ 0 ∧ Under radixU64.shape (cellsOf radixU64.cell t.pages.store.view)
    (MembershipIndex.unpackInner (t.word tag)).1 x

/-- The outer tree has a word for the tags with members only, and the word of a tag is the root and
the depth of a tree that holds its members. -/
def TreeUse.Names (t : TreeUse) (F : Nat → Finset Nat) : Prop :=
  ∀ tag, (t.word tag = 0 ↔ F tag = ∅) ∧ (t.word tag ≠ 0 → ∀ handle, handle ∈ F tag ↔
    radixU64.mapAt t.pages.store.view (MembershipIndex.unpackInner (t.word tag)).2
      (MembershipIndex.unpackInner (t.word tag)).1 handle ≠ 0)

/-- The tables that calls lead to from a new index, with the sets that the calls make. -/
inductive TagRun (A : Allocator G) : TreeUse → (Nat → Finset Nat) → Prop
  | fresh {s : AllocCtx} {a : G} (inv : A.Inv s a) :
    TagRun A ⟨⟨s, 0⟩, pageIdNone, []⟩ fun _ => ∅
  | returned {t t' : TreeUse} {F : Nat → Finset Nat} {call : TagCall} {ans : TagAnswer}
    (h : TagRun A t F) (valid : call.Valid) (run : call.exec A.alloc t = .ok ans t') :
    TagRun A t' (call.effect F)
  | failed {t t' : TreeUse} {F : Nat → Finset Nat} {call : TagCall} {e : ChiselError}
    (h : TagRun A t F) (valid : call.Valid) (run : call.exec A.alloc t = .error e t') :
    TagRun A t' F
  | elsewhere {t : TreeUse} {F : Nat → Finset Nat} {s' : AllocCtx} {old' : List Nat}
    (h : TagRun A t F) (step : Elsewhere A t.pages t.superseded s' old') :
    TagRun A { t with pages := s', superseded := old' } F

/-- The index stands for the sets, and no superseded page is one of its own or of the
allocator's. -/
structure TagsOk (A : Allocator G) (t : TreeUse) (F : Nat → Finset Nat) (a : G) (g : Index) :
    Prop where
  inv : A.Inv t.pages a
  ok : g.Ok t.depth
  rests : g.RestsIn A t.pages a t.depth
  rooted : RootedAt t.root g.outer
  apart : ∀ x, g.count x ≤ 1
  old : ∀ x ∈ t.superseded, ¬ A.Owns t.pages a x ∧ g.count x = 0
  full : ∀ tag ∈ g.tags, ∃ handle, g.word tag handle ≠ 0
  members : ∀ tag handle, g.word tag handle ≠ 0 ↔ handle ∈ F tag

namespace TagsOk

section

variable (h : TagsOk A t F a g)

include h

theorem steady (hs : Steady A.Inv A.Owns t.pages a s' a') :
    TagsOk A { t with pages := s' } F a' g where
  inv := hs.inv
  ok := h.ok
  rests := h.rests.steady hs
  rooted := h.rooted
  apart := h.apart
  old x hx := ⟨fun ho => (h.old x hx).1 (hs.owns_le x ho), (h.old x hx).2⟩
  full := h.full
  members := h.members

theorem peek (hp : Peeked t.pages s') :
    TagsOk A { t with pages := s' } F a g :=
  h.steady ((Allocator.Issued.refl h.inv).peek hp).frame.1

theorem mem_tags : tag ∈ g.tags ↔ F tag ≠ ∅ := by
  rw [← Finset.nonempty_iff_ne_empty]
  constructor
  · intro ht
    obtain ⟨handle, hw⟩ := h.full tag ht
    exact ⟨handle, (h.members tag handle).mp hw⟩
  · rintro ⟨handle, hm⟩
    by_contra ht
    have hw := (h.members tag handle).mpr hm
    rw [Index.word, (h.ok.nil_iff tag).mpr ht, PageTree.content_nil] at hw
    exact hw rfl

theorem change {F' : Nat → Finset Nat} {ids : List Nat} {res : RadixLayout.Inserted}
    (hc : Index.Changed A t.pages a g ids res s' a' g')
    (hfull : ∀ tag ∈ g'.tags, ∃ handle, g'.word tag handle ≠ 0)
    (hmem : ∀ tag handle, g'.word tag handle ≠ 0 ↔ handle ∈ F' tag) :
    TagsOk A ⟨⟨s', res.depth⟩, res.root, t.superseded ++ res.freed⟩ F' a' g' where
  inv := hc.issued.inv
  ok := hc.ok
  rests := hc.rests
  rooted := hc.rooted
  apart x := by
    have h1 := h.rests.count_add_le h.apart hc.issued x
    have h2 := hc.count x
    omega
  old x hx := by
    have h1 := h.rests.count_add_le h.apart hc.issued x
    have h2 := hc.count x
    rcases List.mem_append.mp hx with hx | hx
    · obtain ⟨hown, hcount⟩ := h.old x hx
      have hids : ids.count x = 0 :=
        List.count_eq_zero_of_not_mem fun hin => hown (hc.issued.owned hin)
      exact ⟨hc.issued.fixed hown, by omega⟩
    · have hfreed := count_pos.mpr hx
      refine ⟨?_, by omega⟩
      by_cases hin : x ∈ ids
      · exact hc.issued.given hin
      · have hids := List.count_eq_zero_of_not_mem hin
        exact hc.issued.fixed (h.rests.fixed (by omega))
  full := hfull
  members := hmem

theorem insert (htag : tag < 2 ^ 32) (hhandle : handle ≤ u64Max) :
    wp ((TagCall.insert tag handle).exec A.alloc) t
      (fun ans t' => ans = .done ∧
        ∃ a' g', TagsOk A t' ((TagCall.insert tag handle).effect F) a' g')
      (fun _ t' => t'.depth = t.depth ∧ t'.root = t.root ∧ ∃ a', TagsOk A t' F a' g) := by
  have htag' : tag ≤ u64Max := Nat.le_of_lt (Nat.lt_of_lt_of_le htag (by decide))
  simp only [TagCall.exec, wp_bind, wp_get, wp_zoom, wp_modify, wp_pure]
  refine wp_mono (wp_membershipInsert h.inv h.ok h.rests h.rooted htag' hhandle) ?_ ?_
  · rintro res s' ⟨ids, a', g', hc, htags, hword⟩
    refine ⟨trivial, a', g', h.change hc (fun τ hτ => ?_) fun τ k => ?_⟩
    · rw [htags, Finset.mem_insert] at hτ
      rcases hτ with rfl | hτ
      · exact ⟨handle, by rw [hword, if_pos ⟨rfl, rfl⟩]; exact Nat.one_ne_zero⟩
      · obtain ⟨k, hk⟩ := h.full τ hτ
        refine ⟨k, ?_⟩
        rw [hword]
        split
        · exact Nat.one_ne_zero
        · exact hk
    · rw [hword, TagCall.effect, Function.update_apply]
      by_cases hτ : τ = tag
      · subst hτ
        rw [if_pos rfl, Finset.mem_insert, ← h.members τ k]
        by_cases hk : k = handle
        · simp [hk]
        · simp [hk]
      · rw [if_neg fun hcon => hτ hcon.1, if_neg hτ]
        exact h.members τ k
  · intro e s' hr
    obtain ⟨a', hs⟩ := hr.steady
    exact ⟨trivial, trivial, a', h.steady hs⟩

/-- The tags that have a handle after a removal are those of the index. -/
theorem full_remove {freed : List Nat} (hthere : g.word tag handle ≠ 0)
    (hword : ∀ τ k, g'.word τ k = if τ = tag ∧ k = handle then 0 else g.word τ k)
    (hclear : g.Cleared tag freed g') : ∀ τ ∈ g'.tags, ∃ k, g'.word τ k ≠ 0 := by
  have hother : ∀ τ ∈ g.tags, τ ≠ tag → ∃ k, g'.word τ k ≠ 0 := fun τ hτ hne => by
    obtain ⟨k, hk⟩ := h.full τ hτ
    exact ⟨k, by rwa [hword, if_neg fun hc => hne hc.1]⟩
  have htag : tag ∈ g.tags := h.mem_tags.mpr fun hempty => by
    have hm := (h.members tag handle).mp hthere
    rw [hempty] at hm
    exact absurd hm (Finset.notMem_empty _)
  intro τ hτ
  by_cases hgone : ∀ k, g'.word tag k = 0
  · rw [(hclear.gone hgone htag).1, Finset.mem_erase] at hτ
    exact hother τ hτ.2 hτ.1
  · obtain ⟨k, hk⟩ := not_forall.mp hgone
    by_cases hne : τ = tag
    · exact ⟨k, hne ▸ hk⟩
    · rw [hclear.stays k hk] at hτ
      exact hother τ hτ hne

theorem remove (htag : tag < 2 ^ 32) (hhandle : handle ≤ u64Max) :
    wp ((TagCall.remove tag handle).exec A.alloc) t
      (fun ans t' => ans = .present (handle ∈ F tag) ∧
        (∃ a' g', TagsOk A t' ((TagCall.remove tag handle).effect F) a' g') ∧
        ∃ freed, t'.superseded = t.superseded ++ freed ∧ freed.Nodup ∧
          (F tag = {handle} → ∀ x, 0 < (g.inner tag).count radixU64.shape x → freed.count x = 1))
      (fun _ t' => t'.depth = t.depth ∧ t'.root = t.root ∧ ∃ a', TagsOk A t' F a' g) := by
  have htag' : tag ≤ u64Max := Nat.le_of_lt (Nat.lt_of_lt_of_le htag (by decide))
  simp only [TagCall.exec, wp_bind, wp_get, wp_zoom, wp_modify, wp_pure]
  refine wp_mono (wp_membershipRemove h.inv h.ok h.rests h.rooted htag' hhandle) ?_ ?_
  · rintro ⟨res, found⟩ s' ⟨ids, a', g', hc, hword, hfound, hsame, hclear⟩
    rw [h.members] at hfound
    have hmem : ∀ τ k, g'.word τ k ≠ 0 ↔ k ∈ (TagCall.remove tag handle).effect F τ := by
      intro τ k
      rw [hword, TagCall.effect, Function.update_apply]
      by_cases hτ : τ = tag
      · subst hτ
        rw [if_pos rfl, Finset.mem_erase, ← h.members τ k]
        by_cases hk : k = handle
        · simp [hk]
        · simp [hk]
      · rw [if_neg fun hcon => hτ hcon.1, if_neg hτ]
        exact h.members τ k
    have hfull : ∀ τ ∈ g'.tags, ∃ k, g'.word τ k ≠ 0 := by
      cases found with
      | false =>
        rw [hsame rfl]
        exact h.full
      | true => exact h.full_remove ((h.members _ _).mpr (hfound.mp rfl)) hword (hclear rfl)
    refine ⟨?_, ⟨a', g', h.change hc hfull hmem⟩, res.freed, rfl, ?_, fun hlast x hx => ?_⟩
    · congr 1
      rw [Bool.eq_iff_iff, hfound, decide_eq_true_iff]
    · refine List.nodup_iff_count_le_one.mpr fun x => ?_
      have h1 := h.rests.count_add_le h.apart hc.issued x
      have h2 := hc.count x
      dsimp only at h2
      omega
    · have hin : handle ∈ F tag := hlast ▸ Finset.mem_singleton_self handle
      have hempty : ∀ k, g'.word tag k = 0 := fun k => by
        by_contra hk
        have hk' := (hmem tag k).mp hk
        rw [TagCall.effect, Function.update_self, hlast, Finset.erase_singleton] at hk'
        exact absurd hk' (Finset.notMem_empty _)
      have hgone := ((hclear (hfound.mpr hin)).gone hempty
        (h.mem_tags.mpr (Finset.ne_empty_of_mem hin))).2 x
      have h1 := h.rests.count_add_le h.apart hc.issued x
      have h2 := hc.count x
      dsimp only at hgone h2
      omega
  · intro e s' hr
    obtain ⟨a', hs⟩ := hr.steady
    exact ⟨trivial, trivial, a', h.steady hs⟩

theorem read {α : Type} {x : CacheM α} {P : α → Prop}
    (hx : wp x t.pages.cache (fun b c' => Reads t.pages.cache c' ∧ P b)
      (fun e c' => Crowded t.pages.cache e c')) :
    wp (onCache x) t.pages
      (fun b s' => P b ∧ TagsOk A { t with pages := s' } F a g)
      (fun _ s' => TagsOk A { t with pages := s' } F a g) :=
  wp_mono (wp_peek hx) (fun _ _ ⟨hp, hb⟩ => ⟨hb, h.peek hp⟩) fun _ _ hb => h.peek hb.peeked

theorem contains (htag : tag < 2 ^ 32) (hhandle : handle ≤ u64Max) :
    wp ((TagCall.contains tag handle).exec A.alloc) t
      (fun ans t' => ans = .present (handle ∈ F tag) ∧ TagsOk A t' F a g)
      (fun _ t' => t'.depth = t.depth ∧ t'.root = t.root ∧ TagsOk A t' F a g) := by
  have htag' : tag ≤ u64Max := Nat.le_of_lt (Nat.lt_of_lt_of_le htag (by decide))
  have hread := wp_contains h.ok (h.rests.held h.inv) h.rooted (A.sound h.inv).next_le htag' hhandle
  simp only [TagCall.exec, wp_bind, wp_get, wp_zoom, wp_pure]
  refine wp_mono (h.read hread) ?_ fun _ _ h => ⟨trivial, trivial, h⟩
  rintro b s' ⟨hb, h'⟩
  refine ⟨?_, h'⟩
  congr 1
  rw [Bool.eq_iff_iff, hb, h.members, decide_eq_true_iff]

theorem members_eq : g.members tag = (F tag).sort (· ≤ ·) := by
  have hgone : radixU64.isAbsent 0 = true := rfl
  have hsorted : (g.members tag).Pairwise (· < ·) := PageTree.sorted_listing hgone
  have hmem : ∀ k, k ∈ g.members tag ↔ k ∈ F tag := fun k => by
    rw [← h.members, Index.members, List.mem_map]
    constructor
    · rintro ⟨⟨k, v⟩, hin, rfl⟩
      obtain ⟨rfl, hv⟩ := (PageTree.mem_listing_content hgone).mp hin
      exact beq_eq_false_iff_ne.mp hv
    · intro hk
      exact ⟨(k, g.word tag k), (PageTree.mem_listing_content hgone).mpr
        ⟨rfl, beq_eq_false_iff_ne.mpr hk⟩, rfl⟩
  have hset : F tag = (g.members tag).toFinset := by
    ext k
    rw [List.mem_toFinset, hmem]
  rw [hset]
  exact ((List.toFinset_sort (· ≤ ·) hsorted.nodup).mpr (hsorted.imp Nat.le_of_lt)).symm

theorem handlesForTag (htag : tag < 2 ^ 32) :
    wp ((TagCall.handlesForTag tag).exec A.alloc) t
      (fun ans t' => ans = .handles ((F tag).sort (· ≤ ·)) ∧ TagsOk A t' F a g)
      (fun _ t' => t'.depth = t.depth ∧ t'.root = t.root ∧ TagsOk A t' F a g) := by
  have htag' : tag ≤ u64Max := Nat.le_of_lt (Nat.lt_of_lt_of_le htag (by decide))
  have hread := wp_handlesForTag h.ok (h.rests.held h.inv) h.rooted (A.sound h.inv).next_le htag'
  simp only [TagCall.exec, wp_bind, wp_get, wp_zoom, wp_pure]
  refine wp_mono (h.read hread) ?_ fun _ _ h => ⟨trivial, trivial, h⟩
  rintro l s' ⟨hl, h'⟩
  exact ⟨by rw [hl, h.members_eq], h'⟩

theorem exec {call : TagCall} (hv : call.Valid) :
    wp (call.exec A.alloc) t
      (fun ans t' => ans = call.answer F ∧ ∃ a' g', TagsOk A t' (call.effect F) a' g')
      (fun _ t' => t'.depth = t.depth ∧ t'.root = t.root ∧ ∃ a', TagsOk A t' F a' g) := by
  cases call with
  | insert tag handle => exact h.insert hv.1 hv.2
  | remove tag handle =>
    exact wp_mono (h.remove hv.1 hv.2) (fun _ _ h => ⟨h.1, h.2.1⟩) fun _ _ h => h
  | contains tag handle =>
    exact wp_mono (h.contains hv.1 hv.2) (fun _ _ h => ⟨h.1, a, g, h.2⟩)
      fun _ _ h => ⟨h.1, h.2.1, a, h.2.2⟩
  | handlesForTag tag =>
    exact wp_mono (h.handlesForTag hv) (fun _ _ h => ⟨h.1, a, g, h.2⟩)
      fun _ _ h => ⟨h.1, h.2.1, a, h.2.2⟩

theorem word_eq :
    t.word tag = PageTree.content radixU64.shape 0 t.depth g.outer tag :=
  congrFun (RadixLayout.mapAt_eq (h.rests.outer.holds h.inv) (A.sound h.inv).next_le h.rooted) tag

theorem unpack_eq :
    MembershipIndex.unpackInner (t.word tag) = g.entry tag := by
  rw [h.word_eq]
  exact h.ok.unpack tag

theorem word_eq_zero : t.word tag = 0 ↔ tag ∉ g.tags := by
  rw [h.word_eq, h.ok.names]
  split
  · next ht =>
    have := (h.ok.root_bounds tag ht).1
    exact iff_of_false (by omega) (not_not.mpr ht)
  · next ht => exact iff_of_true rfl ht

theorem names : t.Names F := by
  intro tag
  rw [Ne, h.word_eq_zero, h.unpack_eq, not_not, h.mem_tags, not_not]
  refine ⟨Iff.rfl, fun hne handle => ?_⟩
  have ht := h.mem_tags.mpr hne
  have hmap := RadixLayout.mapAt_eq ((h.rests.inner tag ht).holds h.inv) (A.sound h.inv).next_le
    (h.ok.rootedAt ht)
  rw [Index.entry, if_pos ht, ← h.members]
  exact not_congr (Eq.congr_left (congrFun hmap handle)).symm

theorem ofTag_iff {x : Nat} (ht : tag ∈ g.tags) :
    t.OfTag tag x ↔ 0 < (g.inner tag).count radixU64.shape x := by
  rw [TreeUse.OfTag, h.unpack_eq, Ne, h.word_eq_zero, not_not, Index.entry, if_pos ht]
  exact (and_iff_right ht).trans ((h.rests.inner tag ht).rep.under_iff (h.ok.ne_nil ht))

theorem elsewhere {old' : List Nat}
    (hs : Elsewhere A t.pages t.superseded s' old') :
    ∃ a', TagsOk A { t with pages := s', superseded := old' } F a' g := by
  obtain ⟨hsub, hstep⟩ := hs
  obtain ⟨a', hr⟩ := hstep a h.inv fun x hx => (h.old x hx).1
  have hrests : g.RestsIn A s' a' t.depth :=
    ⟨h.rests.outer.released hr fun x hx => by
      have h1 := (h.old x hx).2
      have h2 := g.outer_le x
      omega, fun tag ht => (h.rests.inner tag ht).released hr fun x hx => by
      have h1 := (h.old x hx).2
      have h2 := g.inner_le x ht
      omega⟩
  refine ⟨a', hr.inv, h.ok, hrests, h.rooted, h.apart, fun x hx => ?_, h.full, h.members⟩
  obtain ⟨hown, hcount⟩ := h.old x (hsub hx)
  exact ⟨hr.not_owned hx hown, hcount⟩

end

end TagsOk

theorem tagsOk_fresh {s : AllocCtx} (hinv : A.Inv s a) :
    TagsOk A ⟨⟨s, 0⟩, pageIdNone, []⟩ (fun _ => ∅) a .none where
  inv := hinv
  ok := Index.ok_none
  rests := ⟨⟨PageTree.rep_nil, fun _ hx => absurd hx (Nat.lt_irrefl 0)⟩, nofun⟩
  rooted := ⟨fun _ => rfl, fun hne => absurd rfl hne⟩
  apart x := Nat.zero_le 1
  old := nofun
  full := nofun
  members tag handle := by
    rw [Index.word, Index.none, PageTree.content_nil]
    simp

theorem TagRun.ok (h : TagRun A t F) : ∃ a g, TagsOk A t F a g := by
  induction h with
  | fresh inv => exact ⟨_, _, tagsOk_fresh inv⟩
  | returned _ valid run ih =>
    obtain ⟨a, g, h⟩ := ih
    exact ((wp_ok run).mp (h.exec valid)).2
  | failed _ valid run ih =>
    obtain ⟨a, g, h⟩ := ih
    obtain ⟨-, -, a', h'⟩ := (wp_error run).mp (h.exec valid)
    exact ⟨a', g, h'⟩
  | elsewhere _ step ih =>
    obtain ⟨a, g, h⟩ := ih
    obtain ⟨a', h'⟩ := h.elsewhere step
    exact ⟨a', g, h'⟩

/-- The membership index refines a map from tags to finite sets of handles: after any calls, and
whatever happened to other pages between them, the words of the outer tree name the trees of exactly
the tags with members; the next call answers as the sets do and changes one of them, or fails and
changes none; and a removal that empties a tag frees every page of its tree once, and no page that
it copied on the way more than once. -/
theorem membership_index_refines_sets (h : TagRun A t F) {call : TagCall} (hv : call.Valid) :
    t.Names F ∧
    (∀ ans t', call.exec A.alloc t = .ok ans t' →
      ans = call.answer F ∧ t'.Names (call.effect F) ∧
      ∀ tag handle, call = .remove tag handle → F tag = {handle} → t'.word tag = 0 ∧
        ∃ freed, t'.superseded = t.superseded ++ freed ∧ freed.Nodup ∧
          ∀ x, t.OfTag tag x → freed.count x = 1) ∧
    ∀ e t', call.exec A.alloc t = .error e t' →
      t'.depth = t.depth ∧ t'.root = t.root ∧ t'.Names F := by
  obtain ⟨a, g, hok⟩ := h.ok
  have hrun := wp_def.mp (hok.exec hv)
  refine ⟨hok.names, fun ans t' hans => ?_, fun e t' he => ?_⟩
  · obtain ⟨heq, a', g', h'⟩ := hrun.1 ans t' hans
    refine ⟨heq, h'.names, fun tag handle hcall hlast => ⟨?_, ?_⟩⟩
    · rw [(h'.names tag).1, hcall, TagCall.effect, Function.update_self, hlast,
        Finset.erase_singleton]
    · subst hcall
      obtain ⟨-, -, freed, hs, hnodup, hfreed⟩ := (wp_ok hans).mp (hok.remove hv.1 hv.2)
      have ht : tag ∈ g.tags := hok.mem_tags.mpr (hlast ▸ Finset.singleton_ne_empty handle)
      exact ⟨freed, hs, hnodup, fun x hx => hfreed hlast x ((hok.ofTag_iff ht).mp hx)⟩
  · obtain ⟨hd, hr, a', h'⟩ := hrun.2 e t' he
    exact ⟨hd, hr, h'.names⟩

end Sets

/-- The theorem at the removal of the only handle of a tag. -/
theorem membership_index_refines_sets_last : ∃ t t',
    TagRun (cow true 1) t (Function.update (fun _ => ∅) 5 {u64Max}) ∧
    (TagCall.remove 5 u64Max).exec (cowAlloc true) t = .ok (.present true) t' ∧ t'.word 5 = 0 := by
  set insert := TagCall.insert 5 u64Max
  have hall : returns (insert.exec (cowAlloc true) >>= fun _ =>
      (TagCall.remove 5 u64Max).exec (cowAlloc true)) ⟨⟨blank, 0⟩, pageIdNone, []⟩ = true := by
    decide +kernel
  obtain ⟨a, t, b, t', hinsert, hremove⟩ := exists_ok_bind hall
  have hfresh := TagRun.fresh (A := cow true 1) blank_inv
  have hv : (TagCall.remove 5 u64Max).Valid := ⟨by decide, Nat.le_refl u64Max⟩
  have hrun := hfresh.returned (show insert.Valid from hv) hinsert
  have hsets : insert.effect (fun _ => ∅) = Function.update (fun _ => ∅) 5 {u64Max} := rfl
  rw [hsets] at hrun
  obtain ⟨hans, -, hlast⟩ := (membership_index_refines_sets hrun hv).2.1 b t' hremove
  refine ⟨t, t', hrun, hremove.trans ?_, (hlast 5 u64Max rfl (Function.update_self ..)).1⟩
  rw [hans, TagCall.answer]
  simp

end Chisel
