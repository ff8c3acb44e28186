import Chisel.RadixWrite
import Chisel.Values

/-! Values in the store: chains of overflow pages, slots of data pages, and the packer that hands
them out. -/

namespace Chisel

open StateError PageCache RadixTree Ledger

variable {total id first : Nat} {rest : Bytes}

/-! ### Overflow chains -/

/-- The pages `ids` hold the bytes `rest`, the last part of a value of `total` bytes. -/
def ChainRep (view : Nat → Option Page) (total : Nat) : List Nat → Bytes → Prop
  | [], rest => rest = []
  | id :: ids, rest => rest ≠ [] ∧
    view id = some (.overflow total (ids.headD 0) (rest.take Overflow.payloadSize)) ∧
    ChainRep view total ids (rest.drop Overflow.payloadSize)

/-- The chain `ids` holds the value. -/
structure Chain (view : Nat → Option Page) (value : Bytes) (ids : List Nat) : Prop where
  rep : ChainRep view value.length ids value
  ne_nil : ids ≠ []
  nodup : ids.Nodup
  pos : ∀ x ∈ ids, x ≠ 0

theorem ChainRep.frame {view view' : Nat → Option Page} {ids : List Nat}
    (h : ChainRep view total ids rest) (hv : ∀ x ∈ ids, view' x = view x)
    :
    ChainRep view' total ids rest := by
  induction ids generalizing rest with
  | nil => exact h
  | cons id ids ih =>
    obtain ⟨hne, hpage, hrest⟩ := h
    refine ⟨hne, ?_, ih hrest fun x hx => hv x (List.mem_cons_of_mem _ hx)⟩
    rw [hv id List.mem_cons_self]
    exact hpage

theorem Chain.frame {view view' : Nat → Option Page} {value : Bytes} {ids : List Nat}
    (h : Chain view value ids) (hv : ∀ x ∈ ids, view' x = view x) : Chain view' value ids :=
  ⟨h.rep.frame hv, h.ne_nil, h.nodup, h.pos⟩

theorem payloadSize_pos : 0 < Overflow.payloadSize := by decide

theorem pagesFor_drop (hne : rest ≠ []) : Overflow.pagesFor rest.length =
    Overflow.pagesFor (rest.drop Overflow.payloadSize).length + 1 := by
  have hp := payloadSize_pos
  have hpos : 0 < rest.length := List.length_pos_iff.mpr hne
  rw [List.length_drop]
  unfold Overflow.pagesFor
  rcases Nat.lt_or_ge Overflow.payloadSize rest.length with hlt | hge
  · rw [show rest.length + Overflow.payloadSize - 1 =
      (rest.length - Overflow.payloadSize + Overflow.payloadSize - 1) +
        Overflow.payloadSize by omega,
      Nat.add_div_right _ hp]
  · rw [show rest.length - Overflow.payloadSize = 0 by omega, Nat.zero_add,
      show rest.length + Overflow.payloadSize - 1 = (rest.length - 1) +
        Overflow.payloadSize by omega,
      Nat.add_div_right _ hp, Nat.div_eq_of_lt (by omega), Nat.div_eq_of_lt (by omega)]

theorem ChainRep.length {view : Nat → Option Page} {ids : List Nat}
    (h : ChainRep view total ids rest) : ids.length = Overflow.pagesFor rest.length := by
  have hp := payloadSize_pos
  induction ids generalizing rest with
  | nil =>
    obtain rfl := h
    simp only [List.length_nil, Overflow.pagesFor, Nat.zero_add]
    exact (Nat.div_eq_of_lt (by omega)).symm
  | cons id ids ih =>
    obtain ⟨hne, -, hrest⟩ := h
    rw [List.length_cons, ih hrest, pagesFor_drop hne]

theorem le_pagesFor_mul (n : Nat) : n ≤ Overflow.pagesFor n * Overflow.payloadSize := by
  have hp := payloadSize_pos
  unfold Overflow.pagesFor
  have h1 := Nat.div_add_mod (n + Overflow.payloadSize - 1) Overflow.payloadSize
  have h2 := Nat.mod_lt (n + Overflow.payloadSize - 1) hp
  rw [Nat.mul_comm] at h1
  omega

theorem length_le_of_nodup {ids : List Nat} {n : Nat} (hnd : ids.Nodup) (hlt : ∀ x ∈ ids, x < n) :
    ids.length ≤ n := by
  have hcard := Finset.card_le_card (s := ids.toFinset) (t := Finset.range n) fun x hx =>
    Finset.mem_range.mpr (hlt x (List.mem_toFinset.mp hx))
  rwa [List.toFinset_card_of_nodup hnd, Finset.card_range] at hcard

section ReadChain

variable {I : PageCache → Prop} {F : ChiselError → PageCache → Prop} {view : Nat → Option Page}
  {value : Bytes} {ids : List Nat} {c : PageCache}

/-- In a cache of `I` the pages `ids` are found as `view` has them, or a read fails as `F` says.
There are at least as many pages as ids. -/
structure Serves (I : PageCache → Prop) (F : ChiselError → PageCache → Prop)
    (view : Nat → Option Page) (ids : List Nat) : Prop where
  get : ∀ {c id p}, I c → id ∈ ids → view id = some p →
    wp (getPage id) c (fun q c' => I c' ∧ q = p) F
  next : ∀ {c}, I c → ids.length ≤ c.nextPageId

theorem Serves.tail (h : Serves I F view (id :: ids)) : Serves I F view ids :=
  ⟨fun hI hid => h.get hI (List.mem_cons_of_mem _ hid), fun hI => (Nat.le_succ _).trans (h.next hI)⟩

theorem wp_chainLength (hs : Serves I F view ids) (hI : I c)
    (hc : ChainRep view value.length ids value) (hfirst : ids.head? = some first) :
    wp (Overflow.chainLength first) c (fun n c' => I c' ∧ n = value.length) F := by
  cases ids with
  | nil => cases hfirst
  | cons id ids =>
    obtain rfl := Option.some.inj hfirst
    have hrep := hc
    obtain ⟨hne, hpage, -⟩ := hrep
    simp only [Overflow.chainLength, wp_bind]
    refine wp_imp (hs.get hI List.mem_cons_self hpage) ?_
    rintro p c' ⟨hI', rfl⟩
    have hpos : 0 < value.length := List.length_pos_iff.mpr hne
    refine wp_ite (fun h0 => absurd h0 (by omega)) fun _ => ?_
    rw [wp_bind, wp_get]
    refine wp_ite (fun hbig => ?_) fun _ => wp_ret ⟨hI', rfl⟩
    -- there are at least as many pages as ids, so the value fits in
    exfalso
    have hlen := hc.length
    have h1 := le_pagesFor_mul value.length
    have h2 := Nat.mul_le_mul_right Overflow.payloadSize (hlen ▸ hs.next hI')
    omega

theorem padded_take :
    (Overflow.padded (rest.take Overflow.payloadSize)).take
      (min rest.length Overflow.payloadSize) = rest.take Overflow.payloadSize := by
  unfold Overflow.padded
  have hlen : (rest.take Overflow.payloadSize).length = min rest.length Overflow.payloadSize := by
    rw [List.length_take, Nat.min_comm]
  rw [List.take_append_of_le_length (le_of_eq hlen.symm), ← hlen, List.take_length]

theorem wp_readFrom (fuel first : Nat) (result rest : Bytes)
    (hs : Serves I F view ids) (hI : I c) (hc : ChainRep view total ids rest) (hne : ids ≠ [])
    (hpos : ∀ x ∈ ids.tail, x ≠ 0) (hsum : result.length + rest.length = total)
    (hfuel : ids.length ≤ fuel) :
    wp (Overflow.readFrom first total fuel (ids.headD 0) result) c
      (fun v c' => I c' ∧ v = result ++ rest) F := by
  induction ids generalizing c fuel result rest with
  | nil => exact absurd rfl hne
  | cons id ids ih =>
    rw [List.length_cons] at hfuel
    obtain ⟨fuel, rfl⟩ := Nat.exists_eq_succ_of_ne_zero (n := fuel) (by omega)
    obtain ⟨hrne, hpage, hrep⟩ := hc
    have hrpos : 0 < rest.length := List.length_pos_iff.mpr hrne
    simp only [Overflow.readFrom, List.headD_cons, wp_bind]
    refine wp_imp (hs.get hI List.mem_cons_self hpage) ?_
    rintro p c' ⟨hI', rfl⟩
    have hrem : total - result.length = rest.length := by omega
    simp only [hrem, padded_take]
    refine wp_ite (fun h0 => absurd h0 (by omega)) fun _ => ?_
    refine wp_ite (fun hz => ?_) fun hz => ?_
    · -- the last page of the chain
      have hnil : ids = [] := by
        cases ids with
        | nil => rfl
        | cons id' ids => exact absurd hz (hpos id' List.mem_cons_self)
      subst hnil
      have hdrop : rest.drop Overflow.payloadSize = [] := hrep
      have htake : rest.take Overflow.payloadSize = rest := by
        have := List.take_append_drop Overflow.payloadSize rest
        rwa [hdrop, List.append_nil] at this
      rw [htake]
      refine wp_ite (fun _ => wp_ret ⟨hI', rfl⟩) fun hlen => ?_
      rw [List.length_append] at hlen
      exact absurd hsum hlen
    · have hids : ids ≠ [] := by
        rintro rfl
        exact hz rfl
      have hlen := List.length_take (i := Overflow.payloadSize) (l := rest)
      have hlen' := List.length_drop (i := Overflow.payloadSize) (l := rest)
      refine wp_mono (ih fuel (result ++ rest.take Overflow.payloadSize)
        (rest.drop Overflow.payloadSize) hs.tail hI' hrep hids
          (fun x hx => hpos x (List.mem_of_mem_tail hx))
        (by rw [List.length_append]; omega) (by omega)) ?_ fun _ _ h => h
      rintro v c2 ⟨hI2, rfl⟩
      rw [List.append_assoc, List.take_append_drop]
      exact ⟨hI2, rfl⟩

theorem headD_of_head? (hfirst : ids.head? = some first) : ids.headD 0 = first := by
  rw [List.headD_eq_head?_getD, hfirst]
  rfl

theorem wp_read_serves (hs : Serves I F view ids) (hI : I c)
    (hc : ChainRep view value.length ids value) (hpos : ∀ x ∈ ids.tail, x ≠ 0)
    (hfirst : ids.head? = some first) :
    wp (Overflow.read first) c (fun v c' => I c' ∧ v = value) F := by
  simp only [Overflow.read, wp_bind]
  refine wp_imp (wp_chainLength hs hI hc hfirst) ?_
  rintro n c' ⟨hI', rfl⟩
  have hne : ids ≠ [] := by
    rintro rfl
    cases hfirst
  have hrun := wp_readFrom _ first [] value hs hI' hc hne hpos (Nat.zero_add _) (le_of_eq hc.length)
  rwa [headD_of_head? hfirst] at hrun

theorem wp_collectFrom (fuel first : Nat) (freed : List Nat)
    (hs : Serves I F view ids) (hI : I c) (hc : ChainRep view total ids rest) (hne : ids ≠ [])
    (hpos : ∀ x ∈ ids.tail, x ≠ 0) (hfuel : ids.length ≤ fuel) :
    wp (Overflow.collectFrom first fuel (ids.headD 0) freed) c
    (fun l c' => I c' ∧ l = freed ++ ids) F := by
  induction ids generalizing c fuel freed rest with
  | nil => exact absurd rfl hne
  | cons id ids ih =>
    rw [List.length_cons] at hfuel
    obtain ⟨fuel, rfl⟩ := Nat.exists_eq_succ_of_ne_zero (n := fuel) (by omega)
    obtain ⟨-, hpage, hrep⟩ := hc
    simp only [Overflow.collectFrom, List.headD_cons, wp_bind]
    refine wp_imp (hs.get hI List.mem_cons_self hpage) ?_
    rintro p c' ⟨hI', rfl⟩
    refine wp_ite (fun hz => ?_) fun hz => ?_
    · have hnil : ids = [] := by
        cases ids with
        | nil => rfl
        | cons id' ids => exact absurd hz (hpos id' List.mem_cons_self)
      subst hnil
      exact wp_ret ⟨hI', rfl⟩
    · have hids : ids ≠ [] := by
        rintro rfl
        exact hz rfl
      refine wp_imp (ih _ _ hs.tail hI' hrep hids (fun x hx => hpos x (List.mem_of_mem_tail hx))
        (by omega)) ?_
      rintro l c2 ⟨hI2, rfl⟩
      rw [List.append_assoc]
      exact ⟨hI2, rfl⟩

theorem wp_collect_serves (hs : Serves I F view ids) (hI : I c)
    (hc : ChainRep view value.length ids value) (hpos : ∀ x ∈ ids.tail, x ≠ 0)
    (hfirst : ids.head? = some first) :
    wp (Overflow.collectChainPages first) c (fun l c' => I c' ∧ l = ids) F := by
  simp only [Overflow.collectChainPages, wp_bind]
  refine wp_imp (wp_chainLength hs hI hc hfirst) ?_
  rintro n c' ⟨hI', rfl⟩
  have hne : ids ≠ [] := by
    rintro rfl
    cases hfirst
  have hrun := wp_collectFrom _ first [] hs hI' hc hne hpos (le_of_eq hc.length)
  rwa [headD_of_head? hfirst] at hrun

theorem serves_store (hc : Chain c.store.view value ids) (hlt : ∀ x ∈ ids, x < c.store.next) :
    Serves (Reads c) (Crowded c) c.store.view ids where
  get {c' id p} hr hid hp := by
    refine wp_mono (wp_getPage_of_view hr.1 ?_ (hr.2 ▸ hp)) ?_ ?_
    · rw [show c'.nextPageId = c.store.next from congrArg Store.next hr.2]
      exact hlt id hid
    · exact fun q c2 ⟨h1, h2, h3⟩ => ⟨hr.trans ⟨h1, h2⟩, h3⟩
    · exact fun e c2 hcr => Crowded.of_reads hr hcr
  next {c'} hr := by
    rw [show c'.nextPageId = c.store.next from congrArg Store.next hr.2]
    exact length_le_of_nodup hc.nodup hlt

theorem wp_overflowRead (hwf : c.WF) (hc : Chain c.store.view value ids)
    (hlt : ∀ x ∈ ids, x < c.store.next) (hfirst : ids.head? = some first) :
    wp (Overflow.read first) c
      (fun v c' => Reads c c' ∧ v = value) (Crowded c) :=
  wp_read_serves (serves_store hc hlt) ⟨hwf, rfl⟩ hc.rep
    (fun x hx => hc.pos x (List.mem_of_mem_tail hx)) hfirst

theorem wp_collectChainPages (hwf : c.WF) (hc : Chain c.store.view value ids)
    (hlt : ∀ x ∈ ids, x < c.store.next) (hfirst : ids.head? = some first) :
    wp (Overflow.collectChainPages first) c
      (fun l c' => Reads c c' ∧ l = ids) (Crowded c) :=
  wp_collect_serves (serves_store hc hlt) ⟨hwf, rfl⟩ hc.rep
    (fun x hx => hc.pos x (List.mem_of_mem_tail hx)) hfirst

end ReadChain

section WriteChain

variable {r : Bool} {lo : Nat} {lent : Nat → Nat} {s s' : AllocCtx} {t t' : PageTree Bool}

theorem Fresh.mono {x : Nat} (hf : Fresh s x) (hx : ¬ Writable r s t x)
    (hl : Lends r lo lent s t s' t') : Fresh s' x :=
  ⟨Nat.lt_of_lt_of_le hf.lt hl.step.next_le, hl.step.hot_ge hf.hot, (hl.view hx).trans hf.view⟩

theorem Fresh.write {x : Nat} {p : Page} (hf : Fresh s x) (hw : Wrote id p s s') (hx : x ≠ id) :
    Fresh s' x where
  lt := by
    rw [hw.store]
    exact hf.lt
  hot := by
    rw [hw.store]
    exact Finset.mem_insert_of_mem hf.hot
  view := by
    rw [hw.store, Store.put_view_ne _ _ hx]
    exact hf.view

theorem wp_newPages (hinv : AllocInv lo s t) (n : Nat) :
    wp (onCache (Overflow.newPages n)) s
      (fun ids s' => ids.length = n ∧ Lends r lo (fun x => ids.count x) s t s' t ∧
        (∀ x ∈ ids, Fresh s' x) ∧ s'.pool = s.pool ∧ (n ≠ 0 → s.store.Fits))
      (fun e s' => Denied r lo s t e s') := by
  induction n generalizing s with
  | zero =>
    rw [wp_onCache]
    exact wp_ret ⟨rfl, Lends.refl hinv, nofun, rfl, fun h0 => absurd rfl h0⟩
  | succ n ih =>
    rw [wp_onCache, Overflow.newPages, wp_bind]
    refine wp_imp (wp_onCache.mp (wp_onCache_newPage (r := r) hinv)) ?_
    rintro id c1 ⟨h1, -⟩
    have hrun := wp_onCache.mp (ih h1.lends.inv)
    rw [wp_bind]
    refine wp_mono hrun ?_ fun e c2 hl => h1.lends.trans_denied hl
    rintro ids c2 ⟨hlen, h2, hfresh, -⟩
    refine wp_ret ⟨by rw [List.length_cons, hlen], ?_, ?_, rfl, fun _ => h1.lends.fits h1.fits⟩
    · simp only [count_cons]
      exact h1.lends.trans h2
    · intro x hx
      rcases List.mem_cons.mp hx with rfl | hx
      · exact h1.fresh.mono (h1.lends.lent_fixed (by simp)) h2
      · exact hfresh x hx

theorem wp_fillPages (total : Nat) {ids : List Nat}
    (hl : Lends r lo lent s t s' t') (hids : ∀ x ∈ ids, 0 < lent x) (hnd : ids.Nodup)
    (hfresh : ∀ x ∈ ids, Fresh s' x) (hlen : ids.length = Overflow.pagesFor rest.length) :
    wp (onCache (Overflow.fillPages total ids rest)) s'
      (fun _ s'' => Lends r lo lent s t s'' t' ∧ ChainRep s''.store.view total ids rest ∧
        (∀ x, x ∉ ids → s''.store.view x = s'.store.view x) ∧ s''.pool = s'.pool)
      (fun e s'' => Denied r lo s t e s'') := by
  have hp := payloadSize_pos
  induction ids generalizing s' rest with
  | nil =>
    rw [wp_onCache]
    refine wp_ret ⟨hl, ?_, fun _ _ => rfl, rfl⟩
    have hle := le_pagesFor_mul rest.length
    rw [← hlen, List.length_nil, Nat.zero_mul] at hle
    exact List.length_eq_zero_iff.mp (Nat.le_zero.mp hle)
  | cons id ids ih =>
    obtain ⟨hnid, hnd⟩ := List.nodup_cons.mp hnd
    have hne : rest ≠ [] := by
      rintro rfl
      rw [List.length_cons, List.length_nil, Overflow.pagesFor, Nat.zero_add,
        Nat.div_eq_of_lt (by omega)] at hlen
      omega
    have hlen' : ids.length = Overflow.pagesFor (rest.drop Overflow.payloadSize).length := by
      have hstep := pagesFor_drop hne
      rw [List.length_cons] at hlen
      omega
    have hf := hfresh id List.mem_cons_self
    rw [wp_onCache, Overflow.fillPages, wp_bind]
    refine wp_mono (wp_onCache.mp (wp_write hl.inv.sound.wf hf.lt (.inl hf.hot)
      (fun q hq => absurd (hf.view.symm.trans hq) (by simp)) _ rfl)) ?_ fun _ _ hb => hl.denied hb
    intro _ c1 hw
    have hl1 := hl.write (hids id List.mem_cons_self) hw
    have hfresh1 : ∀ x ∈ ids, Fresh { s' with cache := c1 } x := fun x hx =>
      (hfresh x (List.mem_cons_of_mem _ hx)).write hw fun he => hnid (he ▸ hx)
    have hrun := wp_onCache.mp (ih hl1 (fun x hx => hids x (List.mem_cons_of_mem _ hx)) hnd hfresh1
      hlen')
    refine wp_imp hrun ?_
    rintro - c2 ⟨hl2, hrep, hframe, -⟩
    refine ⟨hl2, ⟨hne, ?_, hrep⟩, fun x hx => ?_, rfl⟩
    · refine (hframe id hnid).trans ?_
      rw [hw.store]
      exact Store.put_view_self ..
    · obtain ⟨hxid, hxids⟩ := not_or.mp fun hc => hx (List.mem_cons.mpr hc)
      refine (hframe x hxids).trans ?_
      rw [hw.store, Store.put_view_ne _ _ hxid]

theorem wp_overflowWrite (hinv : AllocInv lo s t) {value : Bytes} (hne : value ≠ []) :
    wp (onCache (Overflow.write value)) s
      (fun id s' => ∃ ids, ids.head? = some id ∧ Lends r lo (fun x => ids.count x) s t s' t ∧
        Chain s'.store.view value ids ∧ s'.pool = s.pool ∧ s.store.Fits)
      (fun e s' => Denied r lo s t e s') := by
  rw [wp_onCache, Overflow.write, wp_bind]
  refine wp_imp (wp_onCache.mp (wp_newPages (r := r) hinv _)) ?_
  rintro ids c1 ⟨hlen, h1, hfresh, -, hfits⟩
  have hnd : ids.Nodup := List.nodup_iff_count_le_one.mpr fun x => by
    exact Nat.le_trans (Nat.le_add_left ..) ((h1.step.once hinv x).trans (between_le ..))
  have hrun := wp_onCache.mp (wp_fillPages value.length h1 (fun x hx => count_pos.mpr hx) hnd
    hfresh hlen)
  rw [wp_bind]
  refine wp_imp hrun ?_
  rintro - c2 ⟨h2, hrep, -, -⟩
  have hids : ids ≠ [] := by
    rintro rfl
    exact hne hrep
  obtain ⟨id, rest, rfl⟩ := List.exists_cons_of_ne_nil hids
  rw [List.length_cons] at hlen
  exact wp_ret ⟨_, rfl, h2, ⟨hrep, hids, hnd, fun x hx =>
    h2.ne_zero (count_pos.mpr hx)⟩, rfl, hfits (by omega)⟩

end WriteChain

/-! ### Data pages -/

theorem insert_empty {value : Bytes} (h : value.length ≤ maxInlineValue) :
    DataPage.insert [] value = some (0, [value]) := by
  have hfree : DataPage.freeSpace [] = maxInlineValue + DataPage.slotEntrySize := rfl
  unfold DataPage.insert
  rw [if_neg (by omega)]
  rfl

theorem insert_slots {slots slots' : List Bytes} {value : Bytes} {slot : Nat}
    (h : DataPage.insert slots value = some (slot, slots')) :
    slot = slots.length ∧ slots' = slots ++ [value] := by
  unfold DataPage.insert at h
  split at h
  · cases h
  · obtain ⟨rfl, rfl⟩ := Prod.mk.inj (Option.some.inj h)
    exact ⟨rfl, rfl⟩

theorem insert_isSome {slots : List Bytes} {value : Bytes} :
    (DataPage.insert slots value).isSome = true ↔
      DataPage.slotEntrySize + value.length ≤ DataPage.freeSpace slots := by
  unfold DataPage.insert
  split
  · next hlt => exact iff_of_false nofun (Nat.not_le.mpr hlt)
  · next hle => exact iff_of_true rfl (Nat.le_of_not_lt hle)

theorem Store.put_same {s : Store} {p : Option Page} (hv : s.view id = p)
    (hm : id ∈ s.hot) : s.put id p = s := by
  ext1
  · subst hv
    exact Function.update_eq_self ..
  · exact Finset.insert_eq_self.mpr hm
  all_goals rfl

/-- A data page of this transaction that takes values. -/
structure CursorAt (s : AllocCtx) (t : PageTree Bool) (x : Nat) : Prop where
  lt : x < s.store.next
  hot : x ∈ s.store.hot
  data : ∃ slots, s.store.view x = some (.data slots)
  owned : tally s t x = 0

/-- The cursor is on a data page with space for the value. -/
def CursorTakes (view : Nat → Option Page) (cursor : Option Nat) (value : Bytes) : Prop :=
  ∃ x slots, cursor = some x ∧ view x = some (.data slots) ∧
    DataPage.slotEntrySize + value.length ≤ DataPage.freeSpace slots

/-- The value is in a new slot of the cursor page. -/
structure Appended (value : Bytes) (s : AllocCtx) (id slot : Nat) (slots : List Bytes)
    (s' : AllocCtx) : Prop where
  page : s.store.view id = some (.data slots)
  slot : slot = slots.length
  wrote : Wrote id (.data (slots ++ [value])) s s'

section Packing

variable {r : Bool} {lo : Nat} {s s' : AllocCtx} {t t' : PageTree Bool} {value : Bytes}

theorem isFreeMap_of_isData {q : Page} (hd : q.isData = true) : q.isFreeMap = false := by
  cases q <;> first | rfl | cases hd

theorem wp_deferred {q : Page} (hwf : s.cache.WF) (hlt : id < s.store.next)
    (hhot : id ∈ s.store.hot) (hd : q.isData = true) {f : Buf → Buf}
    (hf : ∀ b : Buf, (∀ q, s.store.view id = some q → b.page = q) → (f b).page = q) :
    wp (onCache (getMutDeferredStamp id f)) s
      (fun _ s' => Wrote id q s s') (Blocked s) := by
  rw [wp_onCache]
  refine wp_mono (wp_getMutDeferredStamp hwf hlt hd hf) ?_ ?_
  · intro _ c ⟨hwf', hst⟩
    exact ⟨hwf', hst, isFreeMap_of_isData hd, rfl, rfl, rfl, rfl⟩
  · intro e c ⟨hwf', hst, hm⟩
    exact ⟨.of_cache hwf' hst, .inl (hm.not_fits_of_hot hhot)⟩

theorem wp_insertAtCursor (hinv : AllocInv lo s t) {cursor : Option Nat}
    (hc : ∀ x, cursor = some x → CursorAt s t x) :
    wp (SlotPacker.insertAtCursor value cursor) s
      (fun o s' => (o = none → Peeked s s' ∧ ¬ CursorTakes s.store.view cursor value) ∧
        ∀ id slot, o = some (id, slot) → cursor = some id ∧ CursorTakes s.store.view cursor value ∧
          ∃ slots, Appended value s id slot slots s')
      (Blocked s) := by
  have hpeek : Peeked s s := .of_cache hinv.sound.wf rfl
  cases cursor with
  | none => exact wp_ret ⟨fun _ => ⟨hpeek, by simp [CursorTakes]⟩, by simp⟩
  | some x =>
    obtain ⟨hlt, hhot, ⟨slots, hdata⟩, -⟩ := hc x rfl
    have htakes : CursorTakes s.store.view (some x) value ↔
        (DataPage.insert slots value).isSome = true := by
      rw [insert_isSome]
      constructor
      · rintro ⟨y, slots', hy, hpage, hfits⟩
        obtain rfl := Option.some.inj hy
        obtain rfl := Page.data.inj (Option.some.inj (hpage.symm.trans hdata))
        exact hfits
      · exact fun hfits => ⟨x, slots, rfl, hdata, hfits⟩
    have hread : wp (getPage x) s.cache (fun p c' => Reads s.cache c' ∧ p = .data slots)
        (fun e c' => Crowded s.cache e c') :=
      wp_mono (wp_getPage_of_view hinv.sound.wf hlt hdata)
        (fun _ _ h => ⟨⟨h.1, h.2.1⟩, h.2.2⟩) fun _ _ h => h
    rw [SlotPacker.insertAtCursor, wp_bind]
    refine wp_imp (wp_peek hread) ?_
    rintro p s1 ⟨hp, rfl⟩
    have hdata1 : s1.store.view x = some (.data slots) := hp.store ▸ hdata
    have hlt1 : x < s1.store.next := hp.store ▸ hlt
    have hhot1 : x ∈ s1.store.hot := hp.store ▸ hhot
    dsimp only
    cases hins : DataPage.insert slots value with
    | none =>
      simp only [wp_bind]
      refine wp_mono (wp_deferred (q := .data slots) (f := id) hp.wf hlt1 hhot1 rfl
        (fun b hb => hb _ hdata1)) ?_ fun _ _ hb => hb.of_peeked hp
      rintro - s2 hw
      have hst : s2.store = s1.store := by
        rw [hw.store, Store.put_same hdata1 hhot1]
      refine wp_ret ⟨fun _ => ⟨hp.trans ⟨hw.wf, hst, hw.tree, hw.hint, hw.reuse, hw.pool⟩,
        ?_⟩, by simp⟩
      rw [htakes, hins]
      simp
    | some found =>
      obtain ⟨slot, slots'⟩ := found
      obtain ⟨rfl, rfl⟩ := insert_slots hins
      simp only [wp_bind]
      refine wp_mono (wp_deferred (q := .data (slots ++ [value])) hp.wf hlt1 hhot1 rfl
        (fun b _ => rfl)) ?_ fun _ _ hb => hb.of_peeked hp
      rintro - s2 hw
      refine wp_ret ⟨by simp, fun id slot hid => ?_⟩
      obtain ⟨rfl, rfl⟩ := Prod.mk.inj (Option.some.inj hid)
      refine ⟨rfl, htakes.mpr (by rw [hins]; rfl), ?_⟩
      exact ⟨slots, hdata, rfl, hw.wf, hp.store ▸ hw.store, hw.plain, hw.tree.trans hp.tree,
        hw.hint.trans hp.hint, hw.reuse.trans hp.reuse, hw.pool.trans hp.pool⟩

/-- The value is alone on a page that the allocator has lent. -/
structure OnNewPage (r : Bool) (lo : Nat) (value : Bytes) (s : AllocCtx) (t : PageTree Bool)
    (id slot : Nat) (s' : AllocCtx) (t' : PageTree Bool) : Prop where
  lends : Lends r lo (one id) s t s' t'
  slot : slot = 0
  page : s'.store.view id = some (.data [value])
  hot : id ∈ s'.store.hot
  allocated : id ∈ s'.pool.allocated
  fits : s.store.Fits

theorem wp_packerInsert (hinv : AllocInv lo s t) {p : SlotPacker}
    (hc : ∀ x, p.insertCursor = some x → CursorAt s t x) (packing : Bool)
    (hv : value.length ≤ maxInlineValue) :
    wp (p.insert (cowAlloc r) packing value) s
      (fun res s' => res.2.2.committedLiveSlots = p.committedLiveSlots ∧
        res.2.2.currentLiveSlots = SlotPacker.countUp p.currentLiveSlots res.1 ∧
        ((p.insertCursor = some res.1 ∧ CursorTakes s.store.view p.insertCursor value ∧
            res.2.2.insertCursor = p.insertCursor ∧
              ∃ slots, Appended value s res.1 res.2.1 slots s') ∨
          ¬ CursorTakes s.store.view p.insertCursor value ∧
            (res.2.2.insertCursor = if packing then some res.1 else p.insertCursor) ∧
            ∃ t', OnNewPage r lo value s t res.1 res.2.1 s' t'))
      (fun e s' => Denied r lo s t e s') := by
  rw [SlotPacker.insert, wp_bind]
  refine wp_mono (wp_insertAtCursor hinv hc) ?_ fun e s1 hb => (Lends.refl hinv).denied hb
  rintro o s1 ⟨hnone, hsome⟩
  cases o with
  | some found =>
    obtain ⟨id, slot⟩ := found
    obtain ⟨hcur, htakes, hslots⟩ := hsome id slot rfl
    exact wp_ret ⟨rfl, rfl, .inl ⟨hcur, htakes, rfl, hslots⟩⟩
  | none =>
    obtain ⟨hpeeked, hfull⟩ := hnone rfl
    have h1 : Lends r lo (fun _ => 0) s t s1 t := (Lends.refl hinv).peek hpeeked
    rw [wp_bind]
    refine wp_mono (wp_cowAlloc h1.inv) ?_ fun e s2 hl => h1.trans_denied hl
    rintro id s2 ⟨⟨t2, h2, hmem⟩, -⟩
    have h3 : Lends r lo (one id) s t s2 t2 := by simpa using h1.trans h2.lends
    rw [insert_empty hv]
    simp only [wp_bind]
    refine wp_mono (wp_write h3.inv.sound.wf h2.fresh.lt (.inl h2.fresh.hot)
      (fun q hq => absurd (h2.fresh.view.symm.trans hq) (by simp)) _ rfl) ?_
      fun _ _ hb => h3.denied hb
    intro _ s3 hw
    have hfits : s.store.Fits := h1.fits (h2.lends.fits h2.fits)
    refine wp_ret ⟨rfl, rfl, .inr ⟨hfull, rfl, t2, h3.write (by simp) hw, rfl, ?_, ?_, ?_, hfits⟩⟩
    · rw [hw.store]
      exact Store.put_view_self ..
    · rw [hw.store]
      exact Finset.mem_insert_self ..
    · rw [hw.pool]
      exact hmem

end Packing

end Chisel
