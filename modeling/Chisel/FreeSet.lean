import Chisel.TableMap

/-! The free map as a finite set of page ids. Marking a page adds it, an allocation takes the least
page from a hint on, and neither the growth of the tree nor what happens to other pages between the
calls changes the set. -/

namespace Chisel

open StateError PageCache RadixTree Ledger

/-! ### Calls -/

inductive MapCall
  | markFreeGrowing (id : Nat)
  | allocateFirst (hint : Nat)
  | isFree (id : Nat)
  | grow
  | markFree (id : Nat)
  | clearBit (id : Nat)

inductive MapAnswer
  | done
  | taken (r : Option Nat)
  | free (b : Bool)

namespace MapCall

/-- Page ids and hints are below the largest word, which stands for no page. -/
def Valid : MapCall → Prop
  | markFreeGrowing n | allocateFirst n | isFree n | markFree n | clearBit n => n < u64Max
  | grow => True

def exec : MapCall → AllocM MapAnswer
  | markFreeGrowing id => do
    FreeMapTree.markFreeGrowing id
    return .done
  | allocateFirst hint => do
    modify fun s => { s with hint }
    return .taken (← FreeMapTree.allocateFirst)
  | isFree id => do
    let s ← get
    return .free (← onCache (s.tree.isFree id))
  | grow => do
    FreeMapTree.grow
    return .done
  | markFree id => do
    FreeMapTree.markFree id
    return .done
  | clearBit id => do
    FreeMapTree.clearBit id
    return .done

/-- What a call that answers `a` does to the set. -/
def effect : MapCall → MapAnswer → Finset Nat → Finset Nat
  | markFreeGrowing id, _, F | markFree id, _, F => insert id F
  | clearBit id, _, F | allocateFirst _, .taken (some id), F => F.erase id
  | _, _, F => F

/-- What a call answers about the set. -/
def Answers : MapCall → Finset Nat → MapAnswer → Prop
  | allocateFirst hint, F, a => ∃ r, a = .taken r ∧
      (∀ x, r = some x → IsLeast {y | hint ≤ y ∧ y ∈ F} x) ∧ (r = none → ∀ y ∈ F, y < hint)
  | isFree id, F, a => a = .free (id ∈ F)
  | _, _, a => a = .done

end MapCall

/-! ### The tree and its set -/

/-- The id is beyond the reach of a tree of this depth. -/
def FreeMapTree.Beyond (tree : FreeMapTree) (id : Nat) : Prop :=
  FreeMapTree.capacity tree.depth ≠ u64Max ∧ FreeMapTree.capacity tree.depth ≤ id

/-- What may happen between two calls: the root is the same, the pages below it are untouched, and
they are neither spare nor waiting to be freed. The nodes that were made in a transaction may be
forgotten, so that later calls copy them. -/
structure MapAside (s s' : AllocCtx) : Prop where
  sound : s'.Sound
  next_le : s.store.next ≤ s'.store.next
  root : s'.tree.root = s.tree.root
  depth : s'.tree.depth = s.tree.depth
  view : ∀ x, Under fmShape (fmRead s.store.view) s.tree.root x → s'.store.view x = s.store.view x
  once : ∀ x, s'.structuralReuse.count x + s'.tree.pendingSuperseded.count x ≤
    between 1 s'.store.next x
  apart : ∀ x, Under fmShape (fmRead s.store.view) s.tree.root x →
    x ∉ s'.structuralReuse ∧ x ∉ s'.tree.pendingSuperseded

/-- The trees that calls lead to from a new one, with the set that the calls make. -/
inductive MapRun : AllocCtx → Finset Nat → Prop
  | fresh {s s' : AllocCtx} (sound : s.Sound) (pos : 0 < s.store.next)
    (reuse : ∀ x, s.structuralReuse.count x ≤ between 1 s.store.next x)
    (none : s.tree = ⟨pageIdNone, 0, [], ∅⟩) (made : FreeMapTree.create s = .ok () s') : MapRun s' ∅
  | returned {s s' : AllocCtx} {F : Finset Nat} {call : MapCall} {a : MapAnswer} (h : MapRun s F)
    (valid : call.Valid) (run : call.exec s = .ok a s') : MapRun s' (call.effect a F)
  | failed {s s' : AllocCtx} {F : Finset Nat} {call : MapCall} {e : ChiselError} (h : MapRun s F)
    (valid : call.Valid) (run : call.exec s = .error e s') : MapRun s' F
  | aside {s s' : AllocCtx} {F : Finset Nat} (h : MapRun s F) (step : MapAside s s') : MapRun s' F

/-- The tree stands for the set. -/
structure MapOk (s : AllocCtx) (F : Finset Nat) (t : PageTree Bool) : Prop where
  rooted : Rooted 1 s t
  ne_nil : t ≠ .nil
  bits : ∀ x, fmBits s t x = true ↔ x ∈ F
  le : ∀ x ∈ F, x ≤ u64Max

namespace MapOk

variable {s s' : AllocCtx} {F : Finset Nat} {t : PageTree Bool} {id : Nat} {e : ChiselError}

section

variable (h : MapOk s F t)

include h

theorem failed (hf : TreeFailed 1 s t e s') : ∃ t', MapOk s' F t' := by
  obtain ⟨-, junk, t', hr, -, hbits, hne⟩ := hf
  exact ⟨t', hr, hne h.ne_nil, fun x => by rw [hbits]; exact h.bits x, h.le⟩

theorem insert {t' : PageTree Bool} (hr : Rooted 1 s' t') (hne : t' ≠ .nil)
    (hid : id ≤ u64Max) (hb : fmBits s' t' = Function.update (fmBits s t) id true) :
    MapOk s' (insert id F) t' where
  rooted := hr
  ne_nil := hne
  bits x := by
    rw [hb, Finset.mem_insert, Function.update_apply]
    split
    · next hx => exact iff_of_true rfl (.inl hx)
    · next hx => rw [h.bits, or_iff_right hx]
  le x hx := by
    rcases Finset.mem_insert.mp hx with rfl | hx
    · exact hid
    · exact h.le x hx

theorem erase {t' : PageTree Bool} (hr : Rooted 1 s' t') (hne : t' ≠ .nil)
    (hb : fmBits s' t' = Function.update (fmBits s t) id false) : MapOk s' (F.erase id) t' where
  rooted := hr
  ne_nil := hne
  bits x := by
    rw [hb, Finset.mem_erase, Function.update_apply]
    split
    · next hx => exact iff_of_false nofun fun hm => hm.1 hx
    · next hx => rw [h.bits, and_iff_right hx]
  le x hx := h.le x (Finset.mem_of_mem_erase hx)

theorem reads {c : PageCache} (hr : Reads s.cache c) :
    MapOk { s with cache := c } F t :=
  ⟨h.rooted.of_store hr.1 hr.2 rfl rfl, h.ne_nil, h.bits, h.le⟩

theorem beyond_iff (hid : id ≤ u64Max) :
    s.tree.Beyond id ↔ fmShape.span s.tree.depth ≤ id := refused_iff h.rooted.depth_le hid

theorem not_mem_of_beyond (hid : id ≤ u64Max) (hb : s.tree.Beyond id) :
    id ∉ F := fun hm => by
  have h1 := lt_span_of_fmBits ((h.bits id).mpr hm)
  have h2 := (h.beyond_iff hid).mp hb
  omega

theorem cowDescend_beyond (hb : s.tree.Beyond id)
    (leafOp : (Nat → Bool) → Nat → Nat → Bool) :
    FreeMapTree.cowDescend leafOp id s = .error (.corruptPage s.tree.root) s := by
  unfold FreeMapTree.Beyond at hb
  have hpure : onCache (pure ()) = (pure () : AllocM Unit) := rfl
  rw [FreeMapTree.cowDescend, get_bind_apply]
  dsimp only
  rw [FreeMapTree.checkDepth_of_le h.rooted.depth_le, hpure, pure_bind, if_pos hb]
  rfl

theorem isFree_beyond (hb : s.tree.Beyond id) :
    s.tree.isFree id s.cache = .ok false s.cache := by
  unfold FreeMapTree.Beyond at hb
  rw [FreeMapTree.isFree, FreeMapTree.checkDepth_of_le h.rooted.depth_le, pure_bind, if_pos hb]
  rfl

theorem markFreeGrowing (hid : id < u64Max) :
    wp (MapCall.markFreeGrowing id).exec s
      (fun a s' => a = .done ∧ ∃ t', MapOk s' (Insert.insert id F) t')
      (fun _ s' => ∃ t', MapOk s' F t') := by
  simp only [MapCall.exec, wp_bind, wp_pure]
  refine wp_mono (wp_markFreeGrowing h.rooted h.ne_nil hid.le) ?_ fun _ _ hf => h.failed hf
  rintro _ s' ⟨t', hr, hne, _, hb⟩
  exact ⟨trivial, t', h.insert hr hne hid.le hb⟩

theorem grow :
    wp MapCall.grow.exec s (fun a s' => a = .done ∧ ∃ t', MapOk s' F t')
      (fun _ s' => ∃ t', MapOk s' F t') := by
  simp only [MapCall.exec, wp_bind, wp_pure]
  by_cases hd : s.tree.depth < FreeMapTree.maxDepth
  · refine wp_mono (wp_grow h.rooted h.ne_nil hd) ?_ fun _ _ hf => h.failed hf
    rintro _ s' ⟨t', hr, _⟩
    exact ⟨trivial, t', hr.rooted, hr.ne_nil, fun x => by rw [hr.bits]; exact h.bits x, h.le⟩
  · simp only [FreeMapTree.grow, wp_bind, wp_get]
    exact wp_ite (fun _ => wp_ret ⟨trivial, t, h⟩) fun hn => absurd hn (by omega)

theorem allocateFirst {hint : Nat} (hh : hint < u64Max) :
    wp (MapCall.allocateFirst hint).exec s
      (fun a s' => (MapCall.allocateFirst hint).Answers F a ∧
        ∃ t', MapOk s' ((MapCall.allocateFirst hint).effect a F) t')
      (fun _ s' => ∃ t', MapOk s' F t') := by
  simp only [MapCall.exec, wp_bind, wp_modify, wp_pure]
  have h1 : MapOk { s with hint } F t :=
    ⟨h.rooted.of_store h.rooted.ok.sound.wf rfl rfl rfl, h.ne_nil, h.bits, h.le⟩
  refine wp_mono (wp_allocateFirst_bits h1.rooted h1.ne_nil
    fun x hx => h1.le x ((h1.bits x).mp hx)) ?_ fun _ _ hf => h1.failed hf.2
  rintro r s' ⟨hscan, _, t', hr, hne, _, _, hb⟩
  refine ⟨⟨r, rfl, fun x hx => ?_, fun hn y hy => ?_⟩, t', ?_⟩
  · have hleast := hscan.least hh x hx
    have hset : {y | hint ≤ y ∧ y ∈ F} =
        {y | hint ≤ y ∧ fmBits { s with hint } t y = true} := by
      ext y
      show hint ≤ y ∧ y ∈ F ↔ hint ≤ y ∧ fmBits { s with hint } t y = true
      rw [h1.bits]
    rw [hset]
    exact hleast
  · exact hscan.none hh hn y ((h1.bits y).mpr hy)
  · cases r with
    | none => exact ⟨hr, hne, fun x => by rw [hb]; exact h1.bits x, h.le⟩
    | some x => exact h1.erase hr hne hb

theorem isFree (hid : id < u64Max) :
    wp (MapCall.isFree id).exec s
      (fun a s' => a = .free (id ∈ F) ∧ ∃ t', MapOk s' F t') (fun _ s' => ∃ t', MapOk s' F t') := by
  simp only [MapCall.exec, wp_bind, wp_get, wp_pure, wp_onCache]
  refine wp_mono (wp_isFree h.rooted h.ne_nil hid.le) ?_
    fun e c hc => ⟨t, h.reads ⟨hc.1, hc.2.1⟩⟩
  rintro b c ⟨hreads, hb⟩
  refine ⟨?_, t, h.reads hreads⟩
  congr 1
  rw [hb, Bool.eq_iff_iff, h.bits, decide_eq_true_iff]

theorem cowDescend (hid : id < u64Max) {v : Bool}
    {leafOp : (Nat → Bool) → Nat → Nat → Bool}
    (hop : ∀ bits k, leafOp bits k = Function.update bits k v) :
    wp (FreeMapTree.cowDescend leafOp id) s
      (fun _ s' => ∃ t', Rooted 1 s' t' ∧ t' ≠ .nil ∧
        fmBits s' t' = Function.update (fmBits s t) id v)
      (fun _ s' => ∃ t', MapOk s' F t') := by
  by_cases hb : s.tree.Beyond id
  · rw [wp_error (h.cowDescend_beyond hb leafOp)]
    exact ⟨t, h⟩
  · have hlt : id < fmShape.span s.tree.depth :=
      Nat.lt_of_not_le fun hge => hb ((h.beyond_iff hid.le).mpr hge)
    refine wp_mono (wp_cowDescend hop h.rooted h.ne_nil hlt) ?_ ?_
    · intro _ s' ⟨t', hr, hne, _, hbits⟩
      exact ⟨t', hr, hne, hbits⟩
    · intro e s' ⟨hex, junk, t', hr, hne, hstep, hbits⟩
      exact h.failed ⟨hex, junk, t', hr, hstep, hbits, fun _ => hne⟩

theorem exec {call : MapCall} (hv : call.Valid) :
    wp call.exec s (fun a s' => call.Answers F a ∧ ∃ t', MapOk s' (call.effect a F) t')
      (fun _ s' => ∃ t', MapOk s' F t') := by
  cases call with
  | markFreeGrowing id => exact h.markFreeGrowing hv
  | allocateFirst hint => exact h.allocateFirst hv
  | isFree id => exact h.isFree hv
  | grow => exact h.grow
  | markFree id =>
    simp only [MapCall.exec, FreeMapTree.markFree, wp_bind, wp_pure]
    refine wp_imp (h.cowDescend hv (v := true) fun _ _ => rfl) ?_
    rintro _ s' ⟨t', hr, hne, hb⟩
    exact ⟨rfl, t', h.insert hr hne hv.le hb⟩
  | clearBit id =>
    simp only [MapCall.exec, FreeMapTree.clearBit, wp_bind, wp_pure]
    refine wp_imp (h.cowDescend hv (v := false) fun _ _ => rfl) ?_
    rintro _ s' ⟨t', hr, hne, hb⟩
    exact ⟨rfl, t', h.erase hr hne hb⟩

theorem free_iff (x : Nat) :
    freeAt s.store.view s.tree.depth s.tree.root x = true ↔ x ∈ F := by
  rw [h.rooted.freeAt_eq]
  exact h.bits x

theorem aside (ha : MapAside s s') : MapOk s' F t := by
  have hunder : ∀ {x}, 0 < t.count fmShape x → Under fmShape (fmRead s.store.view) s.tree.root x :=
    fun hx => h.rooted.root_eq h.ne_nil ▸ (h.rooted.ok.rep.under_iff h.ne_nil).mpr hx
  have hrep : PageTree.Rep fmShape (fmRead s'.store.view) s.tree.depth t :=
    h.rooted.ok.rep.frame fun x hx => by
      rw [fmRead, ha.view x (hunder hx)]
      rfl
  refine ⟨⟨⟨ha.sound, Nat.one_pos, h.rooted.ok.lo_le.trans ha.next_le, ?_, fun x => ?_⟩,
    ?_, ?_, ?_⟩, h.ne_nil, fun x => ?_, h.le⟩
  · rw [ha.depth]
    exact hrep
  · have h1 := ha.once x
    by_cases hx : 0 < t.count fmShape x
    · obtain ⟨hr, hp⟩ := ha.apart x (hunder hx)
      have h2 := h.rooted.ok.once x
      have h3 := List.count_eq_zero_of_not_mem hr
      have h4 := List.count_eq_zero_of_not_mem hp
      have h5 := h.rooted.ok.bounds hx
      have h6 := between_of_mem h5.1 (Nat.lt_of_lt_of_le h5.2 ha.next_le)
      have h7 := between_le 1 s.store.next x
      omega
    · omega
  · rw [ha.depth]
    exact h.rooted.depth_le
  · rw [ha.root]
    exact h.rooted.root_nil
  · rw [ha.root]
    exact h.rooted.root_eq
  · rw [← h.bits x, fmBits, ha.depth]
    rfl

end

end MapOk

theorem mapOk_fresh {s s' : AllocCtx} (hs : s.Sound) (hpos : 0 < s.store.next)
    (hreuse : ∀ x, s.structuralReuse.count x ≤ between 1 s.store.next x)
    (hnone : s.tree = ⟨pageIdNone, 0, [], ∅⟩) (hmade : FreeMapTree.create s = .ok () s') :
    ∃ t, MapOk s' ∅ t := by
  have hr : Rooted 1 s .nil := by
    refine ⟨⟨hs, Nat.one_pos, hpos, PageTree.rep_nil, fun x => ?_⟩, ?_, fun _ => ?_,
      fun hne => absurd rfl hne⟩
    · rw [hnone, PageTree.count_nil, List.count_nil, Nat.zero_add]
      exact hreuse x
    · rw [hnone]
      exact Nat.zero_le _
    · rw [hnone]
  obtain ⟨t, ht⟩ := (wp_ok hmade).mp (wp_create hr (by rw [hnone]) (by rw [hnone]))
  refine ⟨t, ht.rooted, ht.ne_nil, fun x => ?_, by simp⟩
  rw [ht.bits, fmBits, PageTree.content_nil]
  exact iff_of_false (by simp) (Finset.notMem_empty x)

theorem MapRun.ok {s : AllocCtx} {F : Finset Nat} (h : MapRun s F) : ∃ t, MapOk s F t := by
  induction h with
  | fresh sound pos reuse none made => exact mapOk_fresh sound pos reuse none made
  | returned _ valid run ih =>
    obtain ⟨t, h⟩ := ih
    exact ((wp_ok run).mp (h.exec valid)).2
  | failed _ valid run ih =>
    obtain ⟨t, h⟩ := ih
    exact (wp_error run).mp (h.exec valid)
  | aside _ step ih =>
    obtain ⟨t, h⟩ := ih
    exact ⟨t, h.aside step⟩

/-- The free map refines a finite set of page ids: after any calls the pages hold the set of the ids
marked and not taken since; the next call answers about this set and changes it as it should, or
fails and leaves it; and an id beyond the reach of the tree is not in the set, is answered as not
free, and is refused by the calls that would write its bit. -/
theorem free_map_refines_set {s : AllocCtx} {F : Finset Nat} (h : MapRun s F) {call : MapCall}
    (hv : call.Valid) :
    (∀ x, freeAt s.store.view s.tree.depth s.tree.root x = true ↔ x ∈ F) ∧
    (∀ a s', call.exec s = .ok a s' → call.Answers F a ∧
      ∀ x, freeAt s'.store.view s'.tree.depth s'.tree.root x = true ↔ x ∈ call.effect a F) ∧
    (∀ e s', call.exec s = .error e s' →
      ∀ x, freeAt s'.store.view s'.tree.depth s'.tree.root x = true ↔ x ∈ F) ∧
    ∀ id ≤ u64Max, s.tree.Beyond id → id ∉ F ∧ s.tree.isFree id s.cache = .ok false s.cache ∧
      FreeMapTree.markFree id s = .error (.corruptPage s.tree.root) s ∧
      FreeMapTree.clearBit id s = .error (.corruptPage s.tree.root) s := by
  obtain ⟨t, hok⟩ := h.ok
  have hrun := wp_def.mp (hok.exec hv)
  refine ⟨hok.free_iff, fun a s' ha => ?_, fun e s' he => ?_, fun id hid hb => ?_⟩
  · obtain ⟨hans, t', h'⟩ := hrun.1 a s' ha
    exact ⟨hans, h'.free_iff⟩
  · obtain ⟨t', h'⟩ := hrun.2 e s' he
    exact h'.free_iff
  · exact ⟨hok.not_mem_of_beyond hid hb, hok.isFree_beyond hb, hok.cowDescend_beyond hb _,
      hok.cowDescend_beyond hb _⟩

/-- The theorem at the allocation of a page whose bit made the tree grow. -/
theorem free_map_refines_set_grown : ∃ s s' r,
    MapRun s {65350} ∧ (MapCall.allocateFirst 65344).exec s = .ok (.taken r) s' ∧
    (∀ x, r = some x → IsLeast {y | 65344 ≤ y ∧ y ∈ ({65350} : Finset Nat)} x) ∧
    (r = none → 65350 < 65344) := by
  set mark := MapCall.markFreeGrowing 65350
  have hall : returns (FreeMapTree.create >>= fun _ => mark.exec >>= fun _ =>
      (MapCall.allocateFirst 65344).exec) blank = true := by decide +kernel
  obtain ⟨_, s1, _, _, hmade, hrest⟩ := exists_ok_bind hall
  have hrest' : returns (mark.exec >>= fun _ => (MapCall.allocateFirst 65344).exec) s1 = true := by
    rw [returns, hrest]
  obtain ⟨a, s, b, s', hmark, hrun⟩ := exists_ok_bind hrest'
  have hfresh := MapRun.fresh blank_inv.sound (by decide) (fun _ => Nat.zero_le _) rfl hmade
  have hv : mark.Valid := show 65350 < u64Max by decide
  have hs : MapRun s {65350} := hfresh.returned hv hmark
  have hv' : (MapCall.allocateFirst 65344).Valid := show 65344 < u64Max by decide
  obtain ⟨r, rfl, hsome, hnone⟩ := ((free_map_refines_set hs hv').2.1 b s' hrun).1
  exact ⟨s, s', r, hs, hrun, hsome, fun hn => hnone hn _ (Finset.mem_singleton_self _)⟩

end Chisel
