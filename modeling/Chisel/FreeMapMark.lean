import Chisel.AllocSpec
import Chisel.Commit

/-! Marking a page free outside of an allocation, as the commit and the search for orphans do it.
The page joins the allocator, and nothing but the free map's own pages is written. -/

namespace Chisel

open StateError PageCache RadixTree Ledger

/-- The free map took the page `id` in. The books are in order once the hint is lowered to it. -/
structure Marks (lo id : Nat) (s : AllocCtx) (t : PageTree Bool) (s' : AllocCtx)
    (t' : PageTree Bool) :
    Prop where
  inv : AllocInv lo { s' with hint := min s'.hint id } t'
  step : FmStep (fun _ => 0) s t s' t'
  bits : fmBits s' t' = Function.update (fmBits s t) id true

/-- The free map failed to take a page in; it may have lost pages of its own. -/
structure Unmarked (lo : Nat) (s : AllocCtx) (t : PageTree Bool) (s' : AllocCtx) (junk : Nat → Nat)
    (t' : PageTree Bool) : Prop where
  inv : AllocInv lo s' t'
  step : FmStep junk s t s' t'
  bits : fmBits s' t' = fmBits s t

section Marking

variable {lo id : Nat} {s s' : AllocCtx} {t t' : PageTree Bool} {junk : Nat → Nat}

theorem AllocInv.session_of_fmStep (h : AllocInv lo s t) (hs : FmStep junk s t s' t') :
    ∀ x ∈ s'.tree.sessionOwned, 0 < t'.count fmShape x := by
  intro x hx
  rcases hs.session_le x hx with h1 | h1
  · exact hs.session_kept x h1 (h.session x h1)
  · exact h1.2

theorem FmStep.evolve_mark (hs : FmStep (fun _ => 0) s t s' t')
    (hb : fmBits s' t' = Function.update (fmBits s t) id true) (h0 : tally s t id = 0) :
    Evolve true (fun _ => 0) (one id) s t s' t' := by
  have hbits : ∀ x, (fmBits s' t' x).toNat + (fun _ => 0 : Nat → Nat) x =
      (fmBits s t x).toNat + one id x := by
    intro x
    rw [hb]
    by_cases hx : id = x
    · subst hx
      have hfree : (fmBits s t id).toNat = 0 := by
        unfold tally at h0
        omega
      simp [hfree]
    · rw [Function.update_of_ne (Ne.symm hx), one_of_ne hx]
  exact .of_fmStep hs hbits

theorem Rooted.marks (hr : Rooted lo s' t') (hinv : AllocInv lo s t) (h0 : tally s t id = 0)
    (hlo : lo ≤ id) (hlt : id < s.store.next) (hs : FmStep (fun _ => 0) s t s' t')
    (hb : fmBits s' t' = Function.update (fmBits s t) id true) : Marks lo id s t s' t' := by
  have hsess := hinv.session_of_fmStep hs
  have hdead := hinv.dead_of_fmStep hs
  refine ⟨⟨hr.of_store hr.ok.sound.wf rfl rfl rfl, fun x => ?_, hsess, hdead, fun x hx => ?_⟩, hs,
    hb⟩
  · have hev := hs.evolve_mark hb h0
    have h1 := hev.tally x
    have h2 := hinv.once x
    have h3 := between_add hinv.rooted.ok.lo_le hev.next_le x
    change tally s' t' x ≤ between lo s'.store.next x
    by_cases hx : id = x
    · subst hx
      have h4 : between lo s.store.next id = 1 := between_of_mem hlo hlt
      rw [one_self] at h1
      omega
    · rw [one_of_ne hx] at h1
      omega
  · change fmBits s' t' x = true at hx
    obtain ⟨taken, dead, htk, -⟩ := hs.moves
    change min s'.hint id ≤ x
    rw [hb] at hx
    by_cases hxid : x = id
    · omega
    · rw [Function.update_of_ne hxid] at hx
      have := hinv.hinted x hx
      rw [htk.hint]
      omega

theorem wp_markFree (hinv : AllocInv lo s t) (hpend : s.tree.pendingSuperseded = [])
    (h0 : tally s t id = 0) (hlo : lo ≤ id) (hlt : id < s.store.next) :
    wp (do
        if (← get).tree.root = pageIdNone then FreeMapTree.createKeeping
        FreeMapTree.markFreeGrowing id) s
      (fun _ s' => ∃ t', Marks lo id s t s' t')
      (fun e s' => Exhausted e s'.store ∧ ∃ junk t', Unmarked lo s t s' junk t') := by
  have hr := hinv.rooted
  have hid : id ≤ u64Max := (Nat.le_of_lt hlt).trans hinv.sound.next_le
  have hfail : ∀ e s', TreeFailed lo s t e s' →
      Exhausted e s'.store ∧ ∃ junk t', Unmarked lo s t s' junk t' := by
    rintro e s' ⟨hex, junk, t', hr', hs, hb, -⟩
    have hbits : ∀ x, (fmBits s' t' x).toNat + (fun _ => 0 : Nat → Nat) x = (fmBits s t x).toNat :=
      fun x => by rw [hb]; rfl
    exact ⟨hex, junk, t', hinv.of_fmStep hr' hs hbits, hs, hb⟩
  simp only [wp_bind, wp_get]
  by_cases hnil : t = .nil
  · subst hnil
    rw [if_pos (hr.root_nil rfl)]
    have hsess : s.tree.sessionOwned = ∅ := by
      refine Finset.eq_empty_of_forall_notMem fun x hx => ?_
      have := hinv.session x hx
      rw [PageTree.count_nil] at this
      omega
    rw [wp_bind]
    refine wp_mono (wp_createKeeping hr hsess hpend) ?_ hfail
    rintro - s1 ⟨t1, h1⟩
    refine wp_mono (wp_markFreeGrowing h1.rooted h1.ne_nil hid) ?_ ?_
    · rintro - s2 ⟨t2, hr2, -, hs2, hb2⟩
      have hs := h1.step.trans hs2
      exact ⟨t2, hr2.marks hinv h0 hlo hlt (by simpa using hs) (by rw [hb2, h1.bits])⟩
    · rintro e s2 ⟨hex, junk, t2, hr2, hs2, hb2, -⟩
      exact hfail e s2 ⟨hex, _, t2, hr2, h1.step.trans hs2, hb2.trans h1.bits,
        fun hn => absurd rfl hn⟩
  · rw [if_neg (hr.root_ne_none hnil)]
    refine wp_mono (wp_markFreeGrowing hr hnil hid) ?_ hfail
    rintro - s2 ⟨t2, hr2, -, hs2, hb2⟩
    exact ⟨t2, hr2.marks hinv h0 hlo hlt hs2 hb2⟩

theorem Unmarked.evolve (h : Unmarked lo s t s' junk t') :
    Evolve true junk (fun _ => 0) s t s' t' := by
  have hbits : ∀ x, (fmBits s' t' x).toNat + (fun _ => 0 : Nat → Nat) x =
      (fmBits s t x).toNat + (fun _ => 0 : Nat → Nat) x := fun x => by rw [h.bits]
  exact .of_fmStep h.step hbits

theorem AllocInv.rehint (h : AllocInv lo s t) {n : Nat} (hn : n ≤ s.hint) :
    AllocInv lo { s with hint := n } t :=
  h.of_pool rfl rfl rfl (fun _ => Nat.le_refl _) fun x hx => hn.trans (h.hinted x hx)

theorem Evolve.rehint {lent given : Nat → Nat} (h : Evolve true lent given s t s' t') (n : Nat) :
    Evolve true lent given s t { s' with hint := n } t' :=
  { h with quiet := nofun }

end Marking

end Chisel
