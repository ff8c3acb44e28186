import Chisel.Content
import Chisel.Reopen

/-! Dropping a tag. `delete_with_tag` deletes the smallest handles that carry a tag, at most so many
in one pass, and says whether it is done; passes that follow each other, in one transaction or in
several, go through the handles in ascending order. -/

namespace Chisel

open StateError PageCache TransactionManager RadixTree Ledger

/-! ### One pass -/

section OnePass

variable {ex : Prop} {o : Origin} {m : TransactionManager} {g : Ghost} {v : Version}
  {past : Past} {tag max : Nat}

theorem Txn.wp_deleteAll (h : Txn ex o m g) {l : List Nat} (hl : ∀ handle ∈ l, handle ≤ u64Max) :
    wp (l.forM deleteInner) m
      (fun _ m' => m'.poisoned = m.poisoned ∧ ∃ g', Txn ex o m' g' ∧
        ∀ k, g'.cur.content k = if k ∈ l then none else g.cur.content k)
      (fun _ _ => True) := by
  refine wp_forM (fun done m' => m'.poisoned = m.poisoned ∧ ∃ g', Txn ex o m' g' ∧
    ∀ k, g'.cur.content k = if k ∈ done then none else g.cur.content k) ⟨rfl, g, h, fun k => ?_⟩ ?_
  · rw [if_neg List.not_mem_nil]
  · rintro done handle rest m1 hsplit ⟨hp, g1, h1, hcontent⟩
    have hle : handle ≤ u64Max := hl handle (by rw [hsplit]; simp)
    refine wp_mono (h1.wp_deleteInner hle) ?_ fun _ _ _ => trivial
    intro _ m2 ⟨_, _, g2, h2, hbecame⟩
    refine ⟨hbecame.poisoned.trans hp, g2, h2, fun k => ?_⟩
    rw [hbecame.content]
    by_cases hk : k = handle
    · rw [hk, Function.update_self, if_pos (by simp)]
    · rw [Function.update_of_ne hk, hcontent]
      simp [hk]

theorem Shown.card_withTag_lt (h : Shown m v) : (v.withTag tag).card < u64Max := by
  have hsub : v.withTag tag ⊆ Finset.range m.readRoots.nextHandle := by
    intro handle hin
    exact Finset.mem_range.mpr (h.tied.fresh handle (Finset.mem_filter.mp hin).1)
  have hcard := Finset.card_le_card hsub
  have hmax : maxNextHandle < u64Max := by decide
  rw [Finset.card_range] at hcard
  exact Nat.lt_of_le_of_lt (hcard.trans h.tied.next_le) hmax

/-- One more member than may be deleted is asked for, unless that number is the largest there is:
then all members are listed. -/
theorem pass_complete {l : List Nat} (hl : l.length < u64Max) (hmax : max ≤ u64Max) :
    (l.take (satAdd max 1)).take max = l.take max ∧
      ((l.take (satAdd max 1)).length ≤ max ↔ l.length ≤ max) := by
  unfold satAdd
  rw [List.take_take, List.length_take]
  refine ⟨congrArg l.take ?_, ?_⟩
  · omega
  · omega

theorem Txn.wp_deleteWithTagInner (h : Txn ex o m g) (hpos : 0 < max) (hmax : max ≤ u64Max)
    (htag : tag ≤ u64Max) :
    wp (deleteWithTagInner tag max) m
      (fun r m' => r.1 = ((g.cur.withTag tag).sort (· ≤ ·)).take max ∧
        (r.2 = true ↔ (g.cur.withTag tag).card ≤ max) ∧ m'.poisoned = m.poisoned ∧
        ∃ g', Txn ex o m' g' ∧
          ∀ k, g'.cur.content k = if k ∈ r.1 then none else g.cur.content k)
      (fun _ _ => True) := by
  have hmembers : g.cur.index.members tag = (g.cur.withTag tag).sort (· ≤ ·) :=
    h.core.cur.members_eq tag
  have hcard : ((g.cur.withTag tag).sort (· ≤ ·)).length = (g.cur.withTag tag).card :=
    Finset.length_sort _
  obtain ⟨htake, hcomplete⟩ := pass_complete (hcard.trans_lt h.shown.card_withTag_lt) hmax
  unfold deleteWithTagInner
  rw [wp_bind, wp_requireActive h.core.anchored.active, if_neg (by omega), wp_bind, wp_get, wp_bind]
  refine wp_mono (wp_looking (P := fun l => l = (g.cur.index.members tag).take (satAdd max 1))
    (fun _ => False) ?_) ?_ fun _ _ _ => trivial
  · rw [h.tied.outer]
    exact wp_handlesForTagBounded h.core.cur.index.ok h.shown.index_held h.tied.index
      h.core.next_le htag
  · rintro l m1 ⟨hl, rfl⟩
    have hle : ∀ handle ∈ ((g.cur.index.members tag).take (satAdd max 1)).take max, handle ≤
      u64Max :=
      fun handle hm => h.core.cur.index.ok.members_le (List.mem_of_mem_take
        (List.mem_of_mem_take hm))
    dsimp only
    rw [wp_bind]
    refine wp_mono ((h.looked hl).wp_deleteAll hle) ?_ fun _ _ _ => trivial
    intro _ m2 ⟨hp, g2, h2, hcontent⟩
    rw [hmembers, htake] at hcontent ⊢
    refine wp_ret ⟨rfl, ?_, hp.trans (h.drawn_looked hl).poisoned, g2, h2, hcontent⟩
    rw [decide_eq_true_iff, hcomplete, hcard]

structure Passed (m : TransactionManager) (S : Finset Nat) (max : Nat) (r : Reply)
    (m' : TransactionManager) : Prop where
  reply : ∃ complete, r = .progress ((S.sort (· ≤ ·)).take max) complete ∧
    (complete = true ↔ S.card ≤ max)
  alive : m'.poisoned = false
  record : ∀ k, m'.record k = if k ∈ (S.sort (· ≤ ·)).take max then none else m.record k

theorem Sane.passed {tag : UInt32} {max : UInt64} {S : Finset Nat} {r : Reply}
    {m' : TransactionManager} (h : Sane past m) (htag : tag ≠ 0) (hmax : 0 < max.toNat)
    (hS : ∀ handle, handle ∈ S ↔ m.hasTag tag.toNat handle)
    (hok : perform (.deleteWithTag tag max) m = .ok r m') : Passed m S max.toNat r m' := by
  have hp : m.poisoned = false := by
    by_contra hpo
    rw [refuses_perform _ m (Bool.eq_true_of_not_eq_false hpo)] at hok
    cases hok
  cases h with
  | idle hO =>
    rw [perform_inactive rfl hp hO.inactive] at hok
    cases hok
  | running hR =>
    rename_i g
    have htag' : tag.toNat ≠ 0 := fun h0 => htag (UInt32.toNat_inj.mp h0)
    have hset : g.cur.withTag tag.toNat = S :=
      Finset.ext fun handle => ((hS handle).trans (hR.txn.shown.hasTag_iff htag')).symm
    have hinner := hR.txn.wp_deleteWithTagInner hmax (toNat_le_u64Max max) (toNat_le_u64Max' tag)
    have hrun : wp (perform (.deleteWithTag tag max)) m (fun r m' => Passed m S max.toNat r m')
        (fun _ _ => True) := by
      refine (wp_map _).mpr (wp_guarded (fun _ => trivial) fun _ => ?_)
      refine wp_mono hinner ?_ fun _ _ _ => trivial
      intro res m1 ⟨htaken, hcomplete, hp1, g1, h1, hcontent⟩
      rw [hset] at htaken hcomplete
      refine ⟨⟨res.2, by rw [htaken], hcomplete⟩, hp1.trans hp, fun k => ?_⟩
      rw [h1.shown.record_eq, hR.txn.shown.record_eq, ← htaken]
      exact hcontent k
    exact (wp_ok hok).mp hrun
  | dead hpo => exact absurd (hp.symm.trans hpo) nofun

end OnePass

/-! ### Passes in a row -/

section Passes

variable {m m' : TransactionManager} {past : Past} {op : Op} {ops : List Op}

/-- All operations succeed, each on the manager that it finds. -/
def TransactionManager.succeeds : TransactionManager → List Op → Bool
  | _, [] => true
  | m, op :: rest => (m.failure op).isNone && (m.after op).succeeds rest

def Op.dropsTag : Op → Bool
  | .deleteWithTag _ _ => true
  | _ => false

theorem perform_of_failure (h : m.failure op = none) : ∃ r, perform op m = .ok r (m.after op) := by
  unfold TransactionManager.failure at h
  unfold TransactionManager.after
  cases hx : perform op m with
  | ok r m' => exact ⟨r, rfl⟩
  | error e m' => simp [hx] at h

/-- Between the passes a transaction ends and the next one begins; this changes no value. -/
theorem Sane.record_between (h : Sane past m) (hp : m.poisoned = false)
    (hop : op = .commit ∨ op = .begin) (hf : m.failure op = none) :
    (m.after op).poisoned = false ∧ (m.after op).record = m.record := by
  cases h with
  | idle hO =>
    have hstep := hO.step hp op
    rw [hf] at hstep
    generalize m.after op = m' at hstep ⊢
    cases hstep with
    | began _ hro =>
      exact ⟨hp, ((hO.toIdle.begun hro).shown.record_eq).trans hO.shown.record_eq.symm⟩
    | looked hlooks => rcases hop with rfl | rfl <;> cases hlooks
    | resized hconf => rcases hop with rfl | rfl <;> cases hconf
    | @rekeyed k _ hk =>
      subst hk
      cases k <;> rcases hop with hop | hop <;> cases hop
  | running hR =>
    have hstep := hR.step hp op
    rw [hf] at hstep
    generalize m.after op = m' at hstep ⊢
    cases hstep with
    | committed _ hc =>
      obtain ⟨t', hO⟩ := hc.opened
      exact ⟨hc.poisoned.trans hp, hO.shown.record_eq.trans hR.txn.shown.record_eq.symm⟩
    | went hmut => rcases hop with rfl | rfl <;> cases hmut
    | looked hlooks => rcases hop with rfl | rfl <;> cases hlooks
    | saved hname | released hname | rewound hname | rolledBack hname =>
        subst hname; rcases hop with hop | hop <;> cases hop
  | dead hpo => exact absurd (hp.symm.trans hpo) nofun

theorem TransactionManager.hasTag_congr {m' : TransactionManager} (h : m'.record = m.record)
    (tag handle : Nat) : m'.hasTag tag handle ↔ m.hasTag tag handle := by
  unfold TransactionManager.hasTag
  rw [h]

theorem sort_drop {S : Finset Nat} {n : Nat} :
    (S.sort (· ≤ ·)).drop n = (S.filter (· ∉ (S.sort (· ≤ ·)).take n)).sort (· ≤ ·) := by
  have hsorted : (S.sort (· ≤ ·)).Pairwise (· < ·) := S.sortedLT_sort.pairwise
  refine eq_sort_of_sorted (hsorted.sublist (List.drop_sublist _ _)) fun x => ?_
  have hdisj : List.Disjoint ((S.sort (· ≤ ·)).take n) ((S.sort (· ≤ ·)).drop n) :=
    List.disjoint_take_drop (Finset.sort_nodup S _) le_rfl
  have hmem : x ∈ S ↔ x ∈ (S.sort (· ≤ ·)).take n ∨ x ∈ (S.sort (· ≤ ·)).drop n := by
    rw [← List.mem_append, List.take_append_drop, Finset.mem_sort]
  rw [Finset.mem_filter, hmem]
  constructor
  · intro hx
    exact ⟨.inr hx, fun ht => hdisj ht hx⟩
  · rintro ⟨hx | hx, hno⟩
    · exact absurd hx hno
    · exact hx

/-- The handles that still carry the tag when the first ones are gone. -/
theorem TransactionManager.hasTag_left {S : Finset Nat} {n tag : Nat}
    (hS : ∀ handle, handle ∈ S ↔ m.hasTag tag handle)
    (hrecord : ∀ k, m'.record k = if k ∈ (S.sort (· ≤ ·)).take n then none else m.record k)
    (handle : Nat) :
    handle ∈ S.filter (· ∉ (S.sort (· ≤ ·)).take n) ↔ m'.hasTag tag handle := by
  rw [Finset.mem_filter, hS]
  unfold TransactionManager.hasTag
  rw [hrecord]
  by_cases hin : handle ∈ (S.sort (· ≤ ·)).take n
  · simp [hin]
  · simp [hin]

theorem TransactionManager.none_left_iff {S : Finset Nat} {n tag : Nat}
    (hS : ∀ handle, handle ∈ S ↔ m.hasTag tag handle)
    (hrecord : ∀ k, m'.record k = if k ∈ (S.sort (· ≤ ·)).take n then none else m.record k) :
    (∀ handle, ¬ m'.hasTag tag handle) ↔ S.card ≤ n := by
  have hleft := hasTag_left hS hrecord
  have hlen : ((S.sort (· ≤ ·)).drop n).length = S.card - n := by
    rw [List.length_drop, Finset.length_sort]
  rw [sort_drop, Finset.length_sort] at hlen
  calc (∀ handle, ¬ m'.hasTag tag handle)
      ↔ S.filter (· ∉ (S.sort (· ≤ ·)).take n) = ∅ := by
        rw [Finset.eq_empty_iff_forall_notMem]
        exact forall_congr' fun handle => not_congr (hleft handle).symm
    _ ↔ S.card ≤ n := by
        rw [← Finset.card_eq_zero, hlen]
        omega

/-- Each pass goes on where the one before it stopped. -/
theorem Sane.passes {tag : UInt32} {max : UInt64} {S : Finset Nat} (h : Sane past m)
    (hp : m.poisoned = false) (htag : tag ≠ 0) (hmax : 0 < max.toNat)
    (hS : ∀ handle, handle ∈ S ↔ m.hasTag tag.toNat handle)
    (hops : ∀ op ∈ ops, op = .deleteWithTag tag max ∨ op = .commit ∨ op = .begin)
    (hok : m.succeeds ops = true) (k : Nat) :
    (m.afterAll ops).record k =
      if k ∈ (S.sort (· ≤ ·)).take (ops.countP Op.dropsTag * max.toNat) then none else m.record
        k := by
  induction ops generalizing past m S with
  | nil => simp [afterAll]
  | cons op rest ih =>
    rw [TransactionManager.succeeds, Bool.and_eq_true, Option.isNone_iff_eq_none] at hok
    obtain ⟨hf, hrest⟩ := hok
    have hops' : ∀ op ∈ rest, op = .deleteWithTag tag max ∨ op = .commit ∨ op = .begin :=
      fun op hm => hops op (List.mem_cons_of_mem _ hm)
    change ((m.after op).afterAll rest).record k = _
    rcases hops op List.mem_cons_self with rfl | hop
    · obtain ⟨r, hperform⟩ := perform_of_failure hf
      have hpass := h.passed htag hmax hS hperform
      have hS' := hasTag_left hS hpass.record
      rw [ih (h.after _) hpass.alive hS' hops' hrest, ← sort_drop, hpass.record,
        List.countP_cons_of_pos rfl, Nat.succ_mul, Nat.add_comm, List.take_add]
      simp only [List.mem_append]
      by_cases h1 : k ∈ (S.sort (· ≤ ·)).take max.toNat
      · simp [h1]
      · simp [h1]
    · obtain ⟨hp', hrecord⟩ := h.record_between hp hop hf
      have hnot : ¬ op.dropsTag = true := by rcases hop with rfl | rfl <;> exact nofun
      have hS' : ∀ handle, handle ∈ S ↔ (m.after op).hasTag tag.toNat handle := fun handle =>
        (hS handle).trans (hasTag_congr hrecord _ _).symm
      rw [ih (h.after _) hp' hS' hops' hrest, hrecord, List.countP_cons_of_neg hnot]

end Passes

/-- A pass of `delete_with_tag` that succeeds deletes the smallest handles with the tag, as many as
it may, and answers with them; it says that it is done just when no live handle with the tag is
left, and every other handle keeps its value, tag and byte. Passes in a row, in one transaction or
in several, end with all handles of the tag deleted as soon as they may delete that many. -/
theorem delete_with_tag_drops {f : DbFile} (hf : f.image.len = 0 ∨ f.Sound) (steps : List Step)
    {m : TransactionManager} (hrun : (Db.closed f).run steps = .opened m) (hp : m.poisoned = false)
    (tag : UInt32) (htag : tag ≠ 0) (max : UInt64) (hmax : max ≠ 0) :
    (∀ t handle, t ≠ 0 → (m.indexed t handle = true ↔ m.hasTag t handle)) ∧
    ∃ S : Finset Nat, (∀ handle, handle ∈ S ↔ m.hasTag tag.toNat handle) ∧
      (∀ taken complete, m.answer (.deleteWithTag tag max) = .ok (.progress taken complete) →
        taken = (S.sort (· ≤ ·)).take max.toNat ∧ taken.length = min max.toNat S.card ∧
        (complete = true ↔
          ∀ handle, ¬ (m.after (.deleteWithTag tag max)).hasTag tag.toNat handle) ∧
        ∀ handle, (m.after (.deleteWithTag tag max)).record handle =
          if handle ∈ taken then none else m.record handle) ∧
      ∀ ops, (∀ op ∈ ops, op = .deleteWithTag tag max ∨ op = .commit ∨ op = .begin) →
        m.succeeds ops = true →
        (∀ handle, (m.afterAll ops).record handle =
          if handle ∈ (S.sort (· ≤ ·)).take (ops.countP Op.dropsTag * max.toNat) then none
          else m.record handle) ∧
        ((∀ handle, ¬ (m.afterAll ops).hasTag tag.toNat handle) ↔
          S.card ≤ ops.countP Op.dropsTag * max.toNat) := by
  have hs : Sane .unknown m := (dbOk_unknown hf).reaches hrun
  obtain ⟨v, hv⟩ := hs.shown hp
  have htag' : tag.toNat ≠ 0 := fun h0 => htag (UInt32.toNat_inj.mp h0)
  have hmax' : 0 < max.toNat := Nat.pos_of_ne_zero fun h0 => hmax (UInt64.toNat_inj.mp h0)
  have hS : ∀ handle, handle ∈ v.withTag tag.toNat ↔ m.hasTag tag.toNat handle :=
    fun handle => (hv.hasTag_iff htag').symm
  refine ⟨fun t handle ht => hv.indexed_iff.trans (hv.hasTag_iff ht).symm, v.withTag tag.toNat, hS,
    fun taken complete hanswer => ?_, fun ops hops hok => ?_⟩
  · obtain ⟨r, hperform⟩ := perform_of_failure (failure_of_answer hanswer)
    have hpass := hs.passed htag hmax' hS hperform
    obtain ⟨complete', hr, hcomplete⟩ := hpass.reply
    unfold answer at hanswer
    rw [hperform, hr] at hanswer
    cases hanswer
    refine ⟨rfl, ?_, hcomplete.trans (none_left_iff hS hpass.record).symm, hpass.record⟩
    rw [List.length_take, Finset.length_sort]
  · have hrecord := fun k => hs.passes hp htag hmax' hS hops hok k
    exact ⟨hrecord, none_left_iff hS hrecord⟩

/-- Three handles carry tag 7 and one carries tag 8, and they share a data page. The first pass
deletes two, the second one, in the next transaction, finds the third. -/
theorem delete_with_tag_drops_shared :
    ∃ m, (Db.closed .empty).run [.open {}, .op .begin, .op (.allocateTagged [1] 7),
        .op (.allocateTagged [2] 7), .op (.allocateTagged [3] 8), .op (.allocateTagged [4] 7),
        .op (.deleteWithTag 7 2), .op .commit, .op .begin] = .opened m ∧
      m.answer (.deleteWithTag 7 2) = .ok (.progress [4] true) ∧
      (m.after (.deleteWithTag 7 2)).record 3 = m.record 3 ∧
      ∀ handle, ¬ (m.after (.deleteWithTag 7 2)).hasTag 7 handle := by
  have hend : ((Db.closed .empty).run [.open {}, .op .begin, .op (.allocateTagged [1] 7),
      .op (.allocateTagged [2] 7), .op (.allocateTagged [3] 8), .op (.allocateTagged [4] 7),
      .op (.deleteWithTag 7 2), .op .commit, .op .begin]).holds (fun m => !m.poisoned &&
        decide (m.answer (.deleteWithTag 7 2) = .ok (.progress [4] true))) = true := by
          decide +kernel
  obtain ⟨m, hm, hp⟩ := Db.of_holds hend
  rw [Bool.and_eq_true, Bool.not_eq_true', decide_eq_true_iff] at hp
  obtain ⟨hp, hanswer⟩ := hp
  obtain ⟨-, S, -, hpass, -⟩ := delete_with_tag_drops (.inl rfl) _ hm hp 7 (by decide) 2
    (by decide)
  obtain ⟨-, -, hcomplete, hrecord⟩ := hpass [4] true hanswer
  exact ⟨m, hm, hanswer, hrecord 3, hcomplete.mp rfl⟩

end Chisel
