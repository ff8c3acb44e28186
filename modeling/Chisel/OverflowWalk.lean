import Chisel.CacheRuns
import Chisel.Lib.Links
import Chisel.ValueSpec

/-! Overflow chains over any cache. A walk over a chain asks for one page after the other and is
bounded by the length that the first page declares, whatever the pages hold; a chain that was
written is found again, byte for byte, as long as its pages are left alone. -/

namespace Chisel

open StateError PageCache Links

variable {id n : Nat} {ids : List Nat} {p : Page} {value : Bytes}

namespace Overflow

variable {c c' : PageCache} {first current total fuel : Nat}

def asks : List Nat → CacheM Unit
  | [] => pure ()
  | id :: ids => do
    let _ ← getPage id
    asks ids

/-- The pages that a walk over a chain asks for. -/
def requests : Nat → Nat → PageCache → List Nat
  | 0, _, _ => []
  | fuel + 1, current, c => current :: match getPage current c with
    | .ok (.overflow _ next _) c' => if next = 0 then [] else requests fuel next c'
    | _ => []

theorem length_requests (fuel current : Nat) (c : PageCache) :
    (requests fuel current c).length ≤ fuel := by
  induction fuel generalizing current c with
  | zero => exact Nat.le_refl 0
  | succ fuel ih =>
    unfold requests
    rw [List.length_cons, Nat.add_le_add_iff_right]
    split
    · split
      · exact Nat.zero_le _
      · exact ih ..
    · exact Nat.zero_le _

theorem asks_of_ok (h : getPage id c = .ok p c') :
    asks (id :: ids) c = asks ids c' := bind_of_ok h

theorem endState_asks_of_error {e : ChiselError}
    (h : getPage id c = .error e c') : endState (asks (id :: ids)) c = c' :=
  endState_of_error (bind_of_error h)

theorem endState_asks_of_ok (h : getPage id c = .ok p c') :
    endState (asks (id :: ids)) c = endState (asks ids) c' := by
  unfold endState
  rw [asks_of_ok h]

/-- What the loop of `collect_chain_pages` comes to. -/
theorem collectFrom_spec (first fuel current : Nat) (freed : List Nat) (c : PageCache) :
    endState (collectFrom first fuel current freed) c = endState
    (asks (requests fuel current c)) c ∧
      ∀ ids c', collectFrom first fuel current freed c = .ok ids c' →
        ids = freed ++ requests fuel current c ∧ asks (requests fuel current c) c = .ok () c' := by
  induction fuel generalizing current freed c with
  | zero => exact ⟨rfl, fun ids c' h => by cases h⟩
  | succ fuel ih =>
    cases hg : getPage current c with
    | error e c1 =>
      have hrun : collectFrom first (fuel + 1) current freed c = .error e c1 := bind_of_error hg
      refine ⟨?_, fun ids c' h => ?_⟩
      · rw [endState_of_error hrun, requests, endState_asks_of_error hg]
      · rw [hrun] at h
        cases h
    | ok p c1 =>
      have hrun : collectFrom first (fuel + 1) current freed c = _ := bind_of_ok hg
      have hend : ∀ ids, endState (asks (current :: ids)) c = endState (asks ids) c1 := fun ids =>
        endState_asks_of_ok hg
      cases p with
      | overflow t next payload =>
        unfold requests
        simp only [hg]
        dsimp only at hrun
        by_cases hnext : next = 0
        · rw [if_pos hnext] at hrun ⊢
          rw [endState_of_ok hrun, hend]
          refine ⟨rfl, fun ids c' h => ?_⟩
          rw [hrun] at h
          cases h
          exact ⟨rfl, asks_of_ok hg⟩
        · rw [if_neg hnext] at hrun ⊢
          obtain ⟨h1, h2⟩ := ih next (freed ++ [current]) c1
          refine ⟨?_, fun ids c' h => ?_⟩
          · rw [hend, ← h1]
            unfold endState
            rw [hrun]
          · rw [hrun] at h
            obtain ⟨h3, h4⟩ := h2 ids c' h
            rw [h3, List.append_assoc]
            exact ⟨rfl, (asks_of_ok hg).trans h4⟩
      | _ =>
        unfold requests
        simp only [hg]
        refine ⟨?_, fun ids c' h => ?_⟩
        · rw [endState_of_error hrun, hend]
          rfl
        · rw [hrun] at h
          cases h

theorem pagesFor_zero : pagesFor 0 = 0 := Nat.div_eq_of_lt (by decide)

theorem pagesFor_pos (h : 0 < n) : pagesFor n = pagesFor (n - payloadSize) + 1 := by
  have hne : List.replicate n (0 : UInt8) ≠ [] := by
    intro h0
    rw [List.replicate_eq_nil_iff] at h0
    omega
  simpa using pagesFor_drop hne

theorem pagesFor_le {m : Nat} (h : n ≤ m * payloadSize) : pagesFor n ≤ m := by
  have hp := payloadSize_pos
  unfold pagesFor
  refine Nat.le_of_lt_succ ((Nat.div_lt_iff_lt_mul hp).mpr ?_)
  rw [Nat.succ_mul]
  omega

theorem length_chunk (payload : Bytes) (h : n ≤ payloadSize) :
    ((padded payload).take n).length = n := by
  rw [List.length_take, padded, List.length_append, List.length_replicate]
  omega

/-- What the loop of `read` comes to. The bytes that are still missing decide how many more pages it
may ask for, so it never meets a page with nothing left to read. -/
theorem readFrom_spec (first total fuel current : Nat) (result : Bytes) (c : PageCache)
    (hlen : result.length ≤ total) (hfuel : fuel = pagesFor (total - result.length)) :
    endState (readFrom first total fuel current result) c = endState
    (asks (requests fuel current c)) c ∧
      ∀ value c', readFrom first total fuel current result c = .ok value c' → value.length = total ∧
        ∀ freed, collectFrom first fuel current freed c = .ok
          (freed ++ requests fuel current c) c' := by
  induction fuel generalizing current result c with
  | zero => exact ⟨rfl, fun value c' h => by cases h⟩
  | succ fuel ih =>
    have hrem : total - result.length ≠ 0 := by
      intro h0
      rw [h0, pagesFor_zero] at hfuel
      cases hfuel
    cases hg : getPage current c with
    | error e c1 =>
      have hrun : readFrom first total (fuel + 1) current result c = .error e c1 := bind_of_error hg
      refine ⟨?_, fun value c' h => ?_⟩
      · rw [endState_of_error hrun, requests, endState_asks_of_error hg]
      · rw [hrun] at h
        cases h
    | ok p c1 =>
      have hrun : readFrom first total (fuel + 1) current result c = _ := bind_of_ok hg
      have hcollect : ∀ freed, collectFrom first (fuel + 1) current freed c = _ :=
        fun freed => bind_of_ok hg
      have hend : ∀ ids, endState (asks (current :: ids)) c = endState (asks ids) c1 := fun ids =>
        endState_asks_of_ok hg
      cases p with
      | overflow t next payload =>
        unfold requests
        simp only [hg]
        dsimp only at hrun hcollect
        rw [if_neg hrem] at hrun
        set chunk := (padded payload).take (min (total - result.length) payloadSize) with hchunk
        have hclen : chunk.length = min (total - result.length) payloadSize :=
          length_chunk payload (Nat.min_le_right ..)
        have hlen' : (result ++ chunk).length ≤ total := by
          rw [List.length_append, hclen]
          omega
        have hfuel' : fuel = pagesFor (total - (result ++ chunk).length) := by
          have hpages := pagesFor_pos (Nat.pos_of_ne_zero hrem)
          rw [List.length_append, hclen]
          rw [show total - (result.length + min (total - result.length) payloadSize) =
            total - result.length - payloadSize by omega]
          omega
        by_cases hnext : next = 0
        · simp only [if_pos hnext] at hrun hcollect ⊢
          by_cases hdone : (result ++ chunk).length = total
          · rw [if_pos hdone] at hrun
            rw [endState_of_ok hrun, hend]
            refine ⟨rfl, fun value c' h => ?_⟩
            rw [hrun] at h
            cases h
            exact ⟨hdone, hcollect⟩
          · rw [if_neg hdone] at hrun
            rw [endState_of_error hrun, hend]
            refine ⟨rfl, fun value c' h => ?_⟩
            rw [hrun] at h
            cases h
        · simp only [if_neg hnext] at hrun hcollect ⊢
          obtain ⟨h1, h2⟩ := ih next (result ++ chunk) c1 hlen' hfuel'
          refine ⟨?_, fun value c' h => ?_⟩
          · rw [hend, ← h1]
            unfold endState
            rw [hrun]
          · rw [hrun] at h
            obtain ⟨h3, h4⟩ := h2 value c' h
            refine ⟨h3, fun freed => ?_⟩
            rw [hcollect, h4, List.append_assoc]
            rfl
      | _ =>
        unfold requests
        simp only [hg]
        refine ⟨?_, fun value c' h => ?_⟩
        · rw [endState_of_error hrun, hend]
          rfl
        · rw [hrun] at h
          cases h

def link (s : Shelf) (id : Nat) : Option Nat :=
  match s.page id with
  | some ⟨.overflow _ next _, _⟩ => some next
  | _ => none

theorem getPage_ok (h : c.Sound) (hg : getPage id c = .ok p c') :
    c'.Sound ∧ c'.shelf = c.shelf ∧ ∃ stamped, c.shelf.page id = some ⟨p, stamped⟩ := by
  obtain ⟨h1, h2, b, hb, rfl⟩ := (wp_ok hg).mp (wp_getPage_sound h id)
  exact ⟨h1, h2, b.stamped, hb⟩

/-- The pages of a walk that reaches the end of the chain are linked. -/
theorem follows_of_collectFrom (h : c.Sound) {freed : List Nat}
    (hrun : collectFrom first fuel current freed c = .ok ids c') :
    Follows (link c.shelf) 0 (requests fuel current c) := by
  induction fuel generalizing current freed c with
  | zero => cases hrun
  | succ fuel ih =>
    cases hg : getPage current c with
    | error e c1 =>
      have hstep : collectFrom first (fuel + 1) current freed c = .error e c1 := bind_of_error hg
      rw [hstep] at hrun
      cases hrun
    | ok p c1 =>
      obtain ⟨h1, hshelf, stamped, hpage⟩ := getPage_ok h hg
      have hstep : collectFrom first (fuel + 1) current freed c = _ := bind_of_ok hg
      rw [hstep] at hrun
      cases p with
      | overflow t next payload =>
        have hlink : link c.shelf current = some next := by
          unfold link
          rw [hpage]
        unfold requests
        simp only [hg]
        dsimp only at hrun
        by_cases hnext : next = 0
        · rw [if_pos hnext]
          exact .last (hnext ▸ hlink)
        · rw [if_neg hnext] at hrun ⊢
          have hrest := ih h1 hrun
          rw [hshelf] at hrest
          cases fuel with
          | zero => cases hrun
          | succ fuel => exact .step hlink hnext hrest
      | _ => cases hrun

theorem not_panicked_of_misses {s : Shelf} {e : ChiselError} (h : s.Misses id e) :
    e ≠ .panicked := by
  rintro rfl
  rcases h with h | h
  · cases h
  · exact h.1 rfl

theorem wp_readFrom_safe (h : c.Sound) {result : Bytes} :
    wp (readFrom first total fuel current result) c (fun _ _ => True)
    (fun e _ => e ≠ .panicked) := by
  induction fuel generalizing current result c with
  | zero => exact wp_fail (by simp)
  | succ fuel ih =>
    rw [readFrom, wp_bind]
    refine wp_mono (wp_getPage_sound h current) ?_ fun e _ h' => not_panicked_of_misses h'.2.2
    rintro p c1 ⟨h1, _, _⟩
    split
    · refine wp_ite (fun _ => wp_fail (by simp)) fun _ => ?_
      refine wp_ite (fun _ => ?_) fun _ => ih h1
      exact wp_ite (fun _ => wp_ret trivial) fun _ => wp_fail (by simp)
    · exact wp_fail (by simp)

theorem wp_collectFrom_safe (h : c.Sound) {freed : List Nat} :
    wp (collectFrom first fuel current freed) c (fun _ _ => True) (fun e _ => e ≠ .panicked) := by
  induction fuel generalizing current freed c with
  | zero => exact wp_fail (by simp)
  | succ fuel ih =>
    rw [collectFrom, wp_bind]
    refine wp_mono (wp_getPage_sound h current) ?_ fun e _ h' => not_panicked_of_misses h'.2.2
    rintro p c1 ⟨h1, _, _⟩
    split
    · exact wp_ite (fun _ => wp_ret trivial) fun _ => ih h1
    · exact wp_fail (by simp)

theorem chainLength_cases (h : c.Sound) (first : Nat) :
    (∃ total c', chainLength first c = .ok total c' ∧ c'.Sound ∧ c'.shelf = c.shelf ∧
      (∃ next payload, getPage first c = .ok (.overflow total next payload) c') ∧
      total ≤ c.nextPageId * payloadSize) ∨
    ∃ e c', chainLength first c = .error e c' ∧ e ≠ .panicked ∧ endState
    (getPage first) c = c' := by
  cases hg : getPage first c with
  | error e c1 =>
    have hmiss := (wp_error hg).mp (wp_getPage_sound h first)
    exact .inr ⟨e, c1, bind_of_error hg, not_panicked_of_misses hmiss.2.2, endState_of_error hg⟩
  | ok p c1 =>
    obtain ⟨h1, hshelf, -⟩ := getPage_ok h hg
    have hstep : chainLength first c = _ := bind_of_ok hg
    have hend := endState_of_ok hg
    cases p with
    | overflow t next payload =>
      dsimp only at hstep
      by_cases hzero : t = 0
      · rw [if_pos hzero] at hstep
        exact .inr ⟨_, c1, hstep, by simp, hend⟩
      · rw [if_neg hzero] at hstep
        by_cases hbig : c1.nextPageId * payloadSize < t
        · refine .inr ⟨.corruptPage first, c1, hstep.trans ?_, by simp, hend⟩
          rw [get_bind_apply, if_pos hbig]
          rfl
        · refine .inl ⟨t, c1, hstep.trans ?_, h1, hshelf, ⟨next, payload, rfl⟩, ?_⟩
          · rw [get_bind_apply, if_neg hbig]
            rfl
          · rw [← show c1.nextPageId = c.nextPageId from congrArg Shelf.next hshelf]
            exact Nat.le_of_not_lt hbig
    | _ => exact .inr ⟨_, c1, hstep, by simp, hend⟩

/-- The cache is left as if the first page and then the pages `seen` had been asked for. -/
def Saw (first : Nat) (c c' : PageCache) (seen : List Nat) : Prop :=
  seen.length ≤ c.nextPageId ∧ c' = endState (asks (first :: seen)) c

/-- A program that follows the chain after the check of its first page. -/
theorem endState_walk {α : Type} (h : c.Sound) {x : CacheM α} {walk : Nat → CacheM α}
    (hx : x = chainLength first >>= walk)
    (hwalk : ∀ total c', endState (walk total) c' = endState
    (asks (requests (pagesFor total) first c')) c') :
    ∃ seen, Saw first c (endState x c) seen := by
  subst hx
  rcases chainLength_cases h first with ⟨total, c1, hlen, -, -, ⟨next, payload, hg⟩, hle⟩ |
    ⟨e, c1, herr, -, hend⟩
  · refine ⟨requests (pagesFor total) first c1, (length_requests ..).trans (pagesFor_le hle), ?_⟩
    rw [endState_asks_of_ok hg, ← hwalk]
    unfold endState
    rw [bind_of_ok hlen]
  · refine ⟨[], Nat.zero_le _, ?_⟩
    rw [endState_of_error (bind_of_error herr), ← hend]
    cases hg : getPage first c with
    | ok p c2 => rw [endState_of_ok hg, endState_asks_of_ok hg]; rfl
    | error e c2 => rw [endState_of_error hg, endState_asks_of_error hg]

/-- Overflow chains over arbitrary pages, in any sound cache. Both walks end after at most
`next_page_id` pages and do not panic, and the bytes that `read` makes room for are no more than the
pages that were handed out hold. What `read` returns has the length that the first page declares,
and then `collect_chain_pages` returns exactly the pages that `read` visited. -/
theorem overflow_traversal (hs : c.Sound) (first : Nat) :
    (∃ seen, Saw first c (endState (Overflow.read first) c) seen) ∧
    (∃ seen, Saw first c (endState (collectChainPages first) c) seen) ∧
    (∀ e c', (Overflow.read first c = .error e c' ∨ collectChainPages first c = .error e c') →
      e ≠ .panicked) ∧
    (∀ total c', chainLength first c = .ok total c' → total ≤ c.nextPageId * payloadSize) ∧
    (∀ value c', Overflow.read first c = .ok value c' →
      (∃ next payload stamped,
        c.shelf.page first = some ⟨.overflow value.length next payload, stamped⟩) ∧
      ∃ seen, Saw first c c' seen ∧ asks (first :: seen) c = .ok () c' ∧
        collectChainPages first c = .ok seen c') ∧
    ∀ ids c', collectChainPages first c = .ok ids c' → ids.Nodup := by
  have hread : ∀ total c1, _ := fun total c1 =>
    readFrom_spec first total (pagesFor total) first [] c1 (Nat.zero_le _) rfl
  have hcollect : ∀ total c1, _ := fun total c1 => collectFrom_spec first
    (pagesFor total) first [] c1
  refine ⟨endState_walk hs rfl fun total c1 => (hread total c1).1,
    endState_walk hs rfl fun total c1 => (hcollect total c1).1, ?_⟩
  rcases chainLength_cases hs first with ⟨total, c1, hlen, h1, hshelf, ⟨next, payload, hg⟩, hle⟩ |
    ⟨e, c1, herr, hne, -⟩
  · have hr : Overflow.read first c = readFrom first total (pagesFor total) first [] c1 :=
      bind_of_ok hlen
    have hc : collectChainPages first c = collectFrom first (pagesFor total) first [] c1 :=
      bind_of_ok hlen
    rw [hr, hc]
    refine ⟨fun e c' he => ?_, fun t c' ht => ?_, fun value c' hv => ?_, fun ids c' hids => ?_⟩
    · rcases he with he | he
      · exact (wp_error he).mp (wp_readFrom_safe h1)
      · exact (wp_error he).mp (wp_collectFrom_safe h1)
    · rw [hlen] at ht
      cases ht
      exact hle
    · obtain ⟨hvlen, hsame⟩ := (hread total c1).2 value c' hv
      have hsame := hsame []
      obtain ⟨-, -, stamped, hpage⟩ := getPage_ok hs hg
      obtain ⟨-, hasks⟩ := (hcollect total c1).2 _ c' hsame
      have hasks : asks (first :: requests (pagesFor total) first c1) c = .ok () c' :=
        (asks_of_ok hg).trans hasks
      exact ⟨⟨next, payload, stamped, hvlen ▸ hpage⟩, _,
        ⟨(length_requests ..).trans (pagesFor_le hle), (endState_of_ok hasks).symm⟩, hasks, hsame⟩
    · obtain ⟨rfl, -⟩ := (hcollect total c1).2 ids c' hids
      exact (follows_of_collectFrom h1 hids).nodup
  · have hr : Overflow.read first c = .error e c1 := bind_of_error herr
    have hc : collectChainPages first c = .error e c1 := bind_of_error herr
    rw [hr, hc, herr]
    refine ⟨fun e' c' he => ?_, fun t c' ht => (by cases ht), fun value c' hv => (by cases hv),
      fun ids c' hids => (by cases hids)⟩
    rcases he with he | he
    · cases he
      exact hne
    · cases he
      exact hne

/-- Page 0 declares the longest value that there can be, and page 1 points to itself. -/
def knotted : PageCache := [CacheOp.newPage, .getMut 0 fun _ => ⟨.overflow u64Max 0 [], true⟩,
  .newPage, .getMut 1 fun _ => ⟨.overflow (2 * payloadSize) 1 [], true⟩].foldl CacheOp.after
    CacheOp.tight

theorem overflow_traversal_knotted :
    knotted.Reachable ∧ (∃ seen, Saw 1 knotted (endState (Overflow.read 1) knotted) seen) ∧
      ∀ ids c', collectChainPages 1 knotted = .ok ids c' → ids.Nodup := by
  have htight : CacheOp.tight.Reachable :=
    .fresh (show PageIo.Aligned (.openFile .empty [] pageSize false) from rfl) ..
  have h : knotted.Reachable := htight.calls ⟨trivial, trivial, trivial, trivial, trivial⟩
  have ht := overflow_traversal h.sound.1 1
  exact ⟨h, ht.1, ht.2.2.2.2.2⟩

/-! ### Chains that were written -/

def contents (s : Shelf) (id : Nat) : Option Page := (s.page id).bind Buf.contents

theorem contents_put_self (s : Shelf) (id : Nat) (p : Page) : contents
    (s.put id ⟨p, true⟩) id = some p := by
  simp [contents, Shelf.put, Buf.contents]

theorem contents_put_ne (s : Shelf) {x : Nat} (b : Buf) (hx : x ≠ id) :
    contents (s.put id b) x = contents s x := by
  simp [contents, Shelf.put, Function.update_of_ne hx]

theorem serves_sound {s : Shelf} (hlen : ids.length ≤ s.next) :
    Serves (fun c => c.Sound ∧ c.shelf = s) (fun e _ => e.isCapacity = true) (contents s) ids where
  get {c id p} h _ hp := by
    obtain ⟨hs, rfl⟩ := h
    refine wp_mono (wp_getPage_sound hs id) ?_ ?_
    · rintro q c' ⟨h1, h2, b, hb, hq⟩
      refine ⟨⟨h1, h2⟩, ?_⟩
      rw [contents, hb, Option.bind_some, Buf.contents] at hp
      split at hp
      · exact hq.symm.trans (Option.some.inj hp)
      · cases hp
    · rintro e c' ⟨_, _, hmiss⟩
      refine hmiss.resolve_right ?_
      rintro ⟨_, hno⟩
      cases hb : c.shelf.page id with
      | none =>
        rw [contents, hb] at hp
        cases hp
      | some b =>
        rw [contents, hb, Option.bind_some, Buf.contents, hno b hb] at hp
        cases hp
  next {c} h := by
    obtain ⟨-, rfl⟩ := h
    exact hlen

theorem wp_newPages_sound (h : c.Sound) (hw : c.Within) (n : Nat) :
    wp (newPages n) c
      (fun ids c' => c'.Sound ∧ c'.Within ∧ ids = List.range' c.nextPageId n ∧
        c'.nextPageId = c.nextPageId + n) (fun _ _ => True) := by
  induction n generalizing c with
  | zero => exact wp_ret ⟨h, hw, rfl, rfl⟩
  | succ n ih =>
    rw [newPages, wp_bind]
    refine wp_mono (wp_newPage_sound h) ?_ fun _ _ _ => trivial
    rintro _ c1 ⟨h1, rfl, hshelf⟩
    have hnext : c1.nextPageId = c.nextPageId + 1 := congrArg Shelf.next hshelf
    have hw1 : c1.Within := hw.of_disk (by rw [hshelf]; rfl) (by omega)
    rw [wp_bind]
    refine wp_mono (ih h1 hw1) ?_ fun _ _ _ => trivial
    rintro ids c2 ⟨h2, hw2, rfl, hnext2⟩
    refine wp_ret ⟨h2, hw2, ?_, by omega⟩
    rw [hnext, List.range'_succ]

theorem wp_fillPages_sound (total : Nat) {rest : Bytes} (h : c.Sound)
    (hw : c.Within) (hids : ∀ x ∈ ids, x < c.nextPageId) (hnd : ids.Nodup)
    (hlen : ids.length = pagesFor rest.length) :
    wp (fillPages total ids rest) c
      (fun _ c' => c'.Sound ∧ c'.Within ∧ c'.nextPageId = c.nextPageId ∧
        ChainRep (contents c'.shelf) total ids rest ∧
        ∀ x ∉ ids, contents c'.shelf x = contents c.shelf x) (fun _ _ => True) := by
  induction ids generalizing c rest with
  | nil =>
    refine wp_ret ⟨h, hw, rfl, ?_, fun _ _ => rfl⟩
    have hle := le_pagesFor_mul rest.length
    rw [← hlen, List.length_nil, Nat.zero_mul] at hle
    exact List.length_eq_zero_iff.mp (Nat.le_zero.mp hle)
  | cons id ids ih =>
    obtain ⟨hnid, hnd⟩ := List.nodup_cons.mp hnd
    have hne : rest ≠ [] := by
      rintro rfl
      rw [List.length_cons, List.length_nil, pagesFor_zero] at hlen
      cases hlen
    rw [fillPages, wp_bind]
    refine wp_mono (wp_getMut_sound h (hids id List.mem_cons_self) _) ?_ fun _ _ _ => trivial
    rintro _ c1 ⟨e, hwrote⟩
    have hshelf : c1.shelf = c.shelf.put id ⟨.overflow total (ids.headD 0) (rest.take payloadSize),
      true⟩ := by
      rw [hwrote.shelf]
      congr 1
      unfold CacheEntry.stampDeferred
      split <;> rfl
    have hnext : c1.nextPageId = c.nextPageId := congrArg Shelf.next hshelf
    have hlen' : ids.length = pagesFor (rest.drop payloadSize).length := by
      have hstep := pagesFor_drop hne
      rw [List.length_cons] at hlen
      omega
    refine wp_mono (ih hwrote.sound (CacheOp.within_of_put hw hwrote)
      (fun x hx => hnext ▸ hids x (List.mem_cons_of_mem _ hx)) hnd hlen') ?_ fun _ _ _ => trivial
    rintro _ c2 ⟨h2, hw2, hnext2, hrep, hframe⟩
    refine ⟨h2, hw2, hnext2.trans hnext, ⟨hne, ?_, hrep⟩, fun x hx => ?_⟩
    · rw [hframe id hnid, hshelf]
      exact contents_put_self ..
    · obtain ⟨hxid, hxids⟩ := not_or.mp fun hc => hx (List.mem_cons.mpr hc)
      rw [hframe x hxids, hshelf]
      exact contents_put_ne _ _ hxid

/-- The value is held by the pages from `first` on. -/
structure Holds (c : PageCache) (first : Nat) (value : Bytes) : Prop where
  sound : c.Sound
  within : c.Within
  lt : ∀ x ∈ List.range' first (pagesFor value.length), x < c.nextPageId
  chain : ChainRep (contents c.shelf) value.length (List.range' first (pagesFor value.length)) value

theorem wp_write_holds (h : c.Sound) (hw : c.Within) (hne : value ≠ []) :
    wp (Overflow.write value) c
      (fun first c' => first = c.nextPageId ∧ c'.nextPageId = c.nextPageId + pagesFor value.length ∧
        Holds c' first value) (fun _ _ => True) := by
  rw [Overflow.write, wp_bind]
  refine wp_mono (wp_newPages_sound h hw _) ?_ fun _ _ _ => trivial
  rintro ids c1 ⟨h1, hw1, rfl, hnext⟩
  have hlt : ∀ x ∈ List.range' c.nextPageId (pagesFor value.length), x < c1.nextPageId :=
    fun x hx => by
    rw [List.mem_range'_1] at hx
    omega
  rw [wp_bind]
  refine wp_mono (wp_fillPages_sound value.length h1 hw1 hlt List.nodup_range' List.length_range')
    ?_ fun _ _ _ => trivial
  rintro _ c2 ⟨h2, hw2, hnext2, hrep, _⟩
  have hpos := pagesFor_pos (List.length_pos_iff.mpr hne)
  have hholds : Holds c2 c.nextPageId value := ⟨h2, hw2, fun x hx => hnext2 ▸ hlt x hx, hrep⟩
  rw [hpos, List.range'_succ]
  exact wp_ret ⟨rfl, by omega, hholds⟩

end Overflow

theorem CacheOp.Shows.spared {op : CacheOp} {c c' : PageCache} {a : CacheAnswer}
    (h : op.Shows c c' a) (hret : returns op.perform c = true)
    (hid : id < c.nextPageId) (hr : ¬ op.Replaces c id) :
    c'.shelf.page id = c.shelf.page id ∧ id < c'.nextPageId := by
  have hsame : c'.shelf = c.shelf → c'.shelf.page id = c.shelf.page id ∧ id < c'.nextPageId :=
    fun hs =>
    ⟨by rw [hs], (show c'.nextPageId = c.nextPageId from congrArg Shelf.next hs) ▸ hid⟩
  have hput : ∀ i b, i ≠ id → c'.shelf = c.shelf.put i b →
      c'.shelf.page id = c.shelf.page id ∧ id < c'.nextPageId := fun i b hi hs => by
    refine ⟨?_, (show c'.nextPageId = c.nextPageId from congrArg Shelf.next hs) ▸ hid⟩
    rw [hs]
    exact Function.update_of_ne (Ne.symm hi) ..
  cases op with
  | get i =>
    obtain ⟨e, -, -, -, hs, -⟩ := h
    exact hsame hs
  | getMut i f | getMutDeferredStamp i f =>
    obtain ⟨e, -, hw⟩ := h
    exact hput i _ (fun hi => hr ⟨hi, hret⟩) hw.shelf
  | newPage =>
    obtain ⟨-, hs, -⟩ := h
    refine ⟨?_, (show c'.nextPageId = c.nextPageId + 1 from congrArg Shelf.next hs) ▸
      Nat.lt_succ_of_lt hid⟩
    rw [hs]
    exact Function.update_of_ne (Nat.ne_of_lt hid) ..
  | claimPage i | reclaimDeadTxnPage i => exact hput i _ hr h.1
  | copyPage src dst =>
    obtain ⟨e, e', -, -, -, hw⟩ := h
    exact hput dst _ (fun hi => hr ⟨hi, hret⟩) hw.shelf
  | flush => exact ⟨congrFun h.page id, (show c'.nextPageId = c.nextPageId from h.next) ▸ hid⟩
  | discardAllDirty => exact absurd trivial hr
  | truncate n =>
    have hlt : id < n := Nat.lt_of_not_le hr
    refine ⟨(h.1.page id).trans (if_pos hlt), ?_⟩
    rw [show c'.nextPageId = min c.nextPageId n from h.1.next]
    exact Nat.lt_min.mpr ⟨hid, hlt⟩
  | setCacheMaxBytes bytes | setSpillwayMaxBytes bytes | setDrainInsertion policy => exact hsame h.1

/-- Calls that return and leave these pages alone, with the file flushed and opened again at
times. -/
inductive LeftAlone (ids : List Nat) : PageCache → PageCache → Prop
  | refl (c : PageCache) : LeftAlone ids c c
  | call {c c' c'' : PageCache} {op : CacheOp} {a : CacheAnswer} (h : LeftAlone ids c c')
    (handed : op.handed c') (spared : ∀ id ∈ ids, ¬ op.Replaces c' id)
    (ok : op.perform c' = .ok a c'') : LeftAlone ids c c''
  | reopen {c c' c'' : PageCache} {io : PageIo} (h : LeftAlone ids c c')
    (flushed : flush c' = .ok () c'') (aligned : io.Aligned) (image : io.image = c''.io.image)
    (cacheMaxBytes spillwayMaxBytes : Nat)
    (drainInsertion : DrainInsertion) :
    LeftAlone ids c (reopened io cacheMaxBytes spillwayMaxBytes drainInsertion c''.cipher
      c''.nextPageId)

theorem LeftAlone.calls {ops : List CacheOp} {answers : List CacheAnswer} {c c' : PageCache}
    (hops : ∀ op ∈ ops, ∀ c, op.handed c ∧ ∀ id ∈ ids, ¬ op.Replaces c id)
    (hrun : ops.mapM CacheOp.perform c = .ok answers c') : LeftAlone ids c c' := by
  suffices h : ∀ c0, LeftAlone ids c0 c → LeftAlone ids c0 c' from h c (.refl c)
  intro c0 h0
  induction ops generalizing c answers with
  | nil =>
    cases hrun
    exact h0
  | cons op ops ih =>
    rw [List.mapM_cons] at hrun
    cases hp : op.perform c with
    | error e c1 => cases (bind_of_error hp).symm.trans hrun
    | ok a c1 =>
      rw [bind_of_ok hp] at hrun
      cases hrest : ops.mapM CacheOp.perform c1 with
      | error e c2 => cases (bind_of_error hrest).symm.trans hrun
      | ok as c2 =>
        cases (bind_of_ok hrest).symm.trans hrun
        obtain ⟨hh, hspared⟩ := hops op List.mem_cons_self c
        exact ih (fun op hop => hops op (List.mem_cons_of_mem _ hop)) hrest
          (h0.call hh hspared hp)

namespace Overflow

variable {c c' : PageCache} {first : Nat}

theorem Holds.leftAlone (h : Holds c first value)
    (hrun : LeftAlone (List.range' first (pagesFor value.length)) c c') : Holds c' first value := by
  induction hrun with
  | refl => exact h
  | @call c1 c2 op a _ handed spared ok ih =>
    obtain ⟨h2, hw2, hshow⟩ := (wp_ok ok).mp (CacheOp.perform_spec op ih.sound ih.within handed)
    have hret : returns op.perform c1 = true := by simp only [returns, ok]
    have hspared := fun x hx => hshow.spared hret (ih.lt x hx) (spared x hx)
    refine ⟨h2, hw2, fun x hx => (hspared x hx).2, ih.chain.frame fun x hx => ?_⟩
    rw [contents, (hspared x hx).1, contents]
  | reopen _ flushed aligned image _ _ _ ih =>
    obtain ⟨h2, hw2, hpage, hnext⟩ := ih.sound.reopen ih.within flushed aligned image _ _ _
    refine ⟨h2, hw2, fun x hx => hnext ▸ ih.lt x hx, ih.chain.frame fun x _ => ?_⟩
    rw [contents, hpage, contents]

/-- A value written to overflow pages is read back, whatever is done with other pages in between.
Its chain has the fewest pages that hold it: those that `write` was handed out, in their order. A
read fails only when memory runs out. -/
theorem overflow_round_trip (h : c.Reachable) {value : Bytes} (hne : value ≠ []) {c1 c2 : PageCache}
    (hwrite : Overflow.write value c = .ok first c1)
    (hrun : LeftAlone (List.range' first (pagesFor value.length)) c1 c2) :
    (first = c.nextPageId ∧ c1.nextPageId = c.nextPageId + pagesFor value.length) ∧
    (value.length ≤ pagesFor value.length * payloadSize ∧
      ∀ n, value.length ≤ n * payloadSize → pagesFor value.length ≤ n) ∧
    (∀ v c3, Overflow.read first c2 = .ok v c3 → v = value) ∧
    (∀ ids c3, collectChainPages first c2 = .ok ids c3 →
    ids = List.range' first (pagesFor value.length)) ∧
    ∀ e c3, (Overflow.read first c2 = .error e c3 ∨ collectChainPages first c2 = .error e c3) →
      e.isCapacity = true := by
  obtain ⟨hs, hw⟩ := h.sound
  obtain ⟨hfirst, hnext, hholds1⟩ := (wp_ok hwrite).mp (wp_write_holds hs hw hne)
  have hholds := hholds1.leftAlone hrun
  have hlen : (List.range' first (pagesFor value.length)).length ≤ c2.shelf.next :=
    length_le_of_nodup List.nodup_range' hholds.lt
  have hpages := pagesFor_pos (List.length_pos_iff.mpr hne)
  have htail : ∀ x ∈ (List.range' first (pagesFor value.length)).tail, x ≠ 0 := by
    intro x hx
    rw [hpages, List.range'_succ, List.tail_cons, List.mem_range'_1] at hx
    omega
  have hhead : (List.range' first (pagesFor value.length)).head? = some first := by
    rw [hpages, List.range'_succ]
    rfl
  have hread := wp_read_serves (serves_sound hlen) ⟨hholds.sound, rfl⟩ hholds.chain htail hhead
  have hcollect := wp_collect_serves (serves_sound hlen) ⟨hholds.sound,
    rfl⟩ hholds.chain htail hhead
  refine ⟨⟨hfirst, hnext⟩, ⟨le_pagesFor_mul _, fun n hn => pagesFor_le hn⟩, fun v c3 hv => ?_,
    fun ids c3 hids => ?_, fun e c3 he => ?_⟩
  · exact ((wp_ok hv).mp hread).2
  · exact ((wp_ok hids).mp hcollect).2
  · rcases he with he | he
    · exact (wp_error he).mp hread
    · exact (wp_error he).mp hcollect

/-- A value that does not fit in one overflow page. -/
def longValue : Bytes := List.replicate (payloadSize + 1) 7

/-- Another page is handed out and written, which takes the room of the chain's pages, and all of it
goes to the file. -/
def otherCalls : List CacheOp := [.newPage, .getMut 2 fun _ => ⟨.data [[1]], true⟩, .flush]

theorem overflow_round_trip_tight :
    ∃ first c1 answers c2, Overflow.write longValue CacheOp.tight = .ok first c1 ∧
      pagesFor longValue.length = 2 ∧ otherCalls.mapM CacheOp.perform c1 = .ok answers c2 ∧
      ∀ v c3, Overflow.read first c2 = .ok v c3 → v = longValue := by
  have htight : CacheOp.tight.Reachable :=
    .fresh (show PageIo.Aligned (.openFile .empty [] pageSize false) from rfl) ..
  have hpages : pagesFor longValue.length = 2 := by
    rw [longValue, List.length_replicate]
    decide
  have hboth : returns (do let _ ← Overflow.write longValue; otherCalls.mapM CacheOp.perform)
      CacheOp.tight = true := by decide +kernel
  obtain ⟨first, c1, answers, c2, hwrite, hcalls⟩ := exists_ok_bind hboth
  have hfirst : first = 0 := ((wp_ok hwrite).mp (wp_write_holds htight.sound.1 htight.sound.2
    (by simp [longValue]))).1
  have hspared : ∀ op ∈ otherCalls, ∀ c, op.handed c ∧
      ∀ id ∈ List.range' first (pagesFor longValue.length), ¬ op.Replaces c id := by
    rw [hfirst, hpages]
    intro op hop c
    simp only [otherCalls, List.mem_cons, List.not_mem_nil, or_false] at hop
    rcases hop with rfl | rfl | rfl
    · exact ⟨trivial, fun _ _ h => h⟩
    · refine ⟨trivial, fun id hid h => ?_⟩
      rw [← h.1] at hid
      simp at hid
    · exact ⟨trivial, fun _ _ h => h⟩
  exact ⟨first, c1, answers, c2, hwrite, hpages, hcalls,
    (overflow_round_trip htight (by simp [longValue]) hwrite
      (LeftAlone.calls hspared hcalls)).2.2.1⟩

end Overflow

end Chisel
