import Chisel.SessionSteps

/-! Runs of sessions on one file. Whatever the steps are and wherever a handle is dropped, the file
holds the state that was committed last, and the next session finds it. -/

namespace Chisel

open StateError PageCache TransactionManager RadixTree Ledger Device

/-! ### Steps -/

namespace Db

/-- The step is no operation that runs out of memory. -/
def calm : Db → Step → Bool
  | .opened m, .op op => (m.failure op).all fun e => !e.isCapacity
  | _, _ => true

/-- The step is no operation that cuts off pages that were committed. -/
def spares : Db → Step → Bool
  | .opened m, .op op => m.sparesFile op
  | _, _ => true

/-- All steps of a run satisfy a condition, each on the state that it finds. -/
def along (p : Db → Step → Bool) : Db → List Step → Bool
  | _, [] => true
  | db, s :: rest => p db s && (db.step s).along p rest

theorem along_true (db : Db) (steps : List Step) : db.along (fun _ _ => true) steps = true := by
  induction steps generalizing db with
  | nil => rfl
  | cons s rest ih => exact ih (db.step s)

end Db

/-- A database between two steps. -/
inductive DbOk (past : Past) : Db → Prop
  | blank {f : DbFile} (empty : f.image.len = 0)
    (fresh : ∀ b ∈ past.base, f.image = b ∧ f.trace = []) : DbOk past (.closed f)
  | closed {f : DbFile} {h : Head} {v : Version} {t : PageTree Bool} (file : FileHolds h f v t)
    (full : past.full → h.roots.totalPages ≤ f.image.len)
    (moored : ∀ b ∈ past.base, Moored b h v t f) : DbOk past (.closed f)
  | opened {m : TransactionManager} (sane : Sane past m) : DbOk past (.opened m)

section Steps

variable {past : Past} {m : TransactionManager} {f : DbFile} {h : Head} {v : Version}
  {t : PageTree Bool} {options : Options}

def Past.unknown : Past := ⟨False, False, False, none⟩

theorem FileHolds.openFile (hf : FileHolds h f v t) (readOnly : Bool) :
    PageIo.openFile f.image f.trace f.fileStride readOnly =
      ⟨f.image, f.trace, readOnly, f.fileStride, pageSize⟩ := by
  have h1 := hf.two_le
  have h2 := hf.slots_le_len
  unfold PageIo.openFile
  rw [if_neg (by omega)]

theorem openDb_eq_openExisting {cipher : Option Dek} (hlen : 0 < f.image.len)
    (hstride : f.fileStride = strideOf cipher) (hv : options.Valid) :
    openDb options f =
      match openExisting options.encryptionKey (freshCache options f) with
      | .ok m c => (.ok m, c.io)
      | .error e c => (.error e, c.io) := by
  have hfile : (PageIo.openFile f.image f.trace f.fileStride options.readOnly).fileStride =
      strideOf cipher := (if_neg (by omega)).trans hstride
  have hpos : 0 < (PageIo.openFile f.image f.trace f.fileStride options.readOnly).pageCount :=
    PageIo.pageCount_pos hlen hfile rfl
  unfold openDb
  unfold Options.Valid at hv
  rw [if_neg (by omega), if_neg fun hmissing => hpos.ne' hmissing.1]
  dsimp only
  rw [if_pos hpos]
  rfl

theorem FileHolds.openDb_eq (hf : FileHolds h f v t) (hv : options.Valid) :
    openDb options f =
      match openExisting options.encryptionKey (PageCache.new
        ⟨f.image, f.trace, options.readOnly, f.fileStride, pageSize⟩ options.cacheMaxBytes.toNat
        options.spillwayMaxBytes.toNat options.drainInsertion) with
      | .ok m c => (.ok m, c.io)
      | .error e c => (.error e, c.io) := by
  have h1 := hf.two_le
  have h2 := hf.slots_le_len
  rw [openDb_eq_openExisting (by omega) hf.stride hv]
  unfold freshCache
  rw [hf.openFile]

theorem FileHolds.wp_openExisting (hf : FileHolds h f v t) (options : Options) :
    wp (openExisting options.encryptionKey) (PageCache.new
        ⟨f.image, f.trace, options.readOnly, f.fileStride, pageSize⟩ options.cacheMaxBytes.toNat
        options.spillwayMaxBytes.toNat options.drainInsertion)
      (fun m c' => h.refusal options.encryptionKey f.image.len = none ∧
        Reopened h v t ⟨f.image, f.trace, options.readOnly, f.fileStride, f.fileStride⟩ m ∧
        c'.io = m.cache.io)
      (fun e c' => h.refusal options.encryptionKey f.image.len = some e ∧
        c'.io = ⟨f.image, f.trace, options.readOnly, f.fileStride, f.fileStride⟩) :=
  OnDisk.wp_openExisting hf.toOnDisk hf.slots_le_len hf.len_le hf.stride rfl _ _ _

theorem FileHolds.openDb_ok (hf : FileHolds h f v t) (hv : options.Valid)
    (hr : h.refusal options.encryptionKey f.image.len = none) :
    ∃ m, openDb options f = (.ok m, m.cache.io) ∧
      Reopened h v t ⟨f.image, f.trace, options.readOnly, f.fileStride, f.fileStride⟩ m := by
  have hwp := hf.wp_openExisting options
  rw [hf.openDb_eq hv]
  split
  · next m c hx =>
    obtain ⟨-, hm, hio⟩ := (wp_ok hx).mp hwp
    exact ⟨m, by rw [hio], hm⟩
  · next e c hx =>
    rw [hr] at hwp
    exact absurd ((wp_error hx).mp hwp).1 nofun

theorem FileHolds.openDb_error (hf : FileHolds h f v t) (hv : options.Valid) {e : ChiselError}
    (hr : h.refusal options.encryptionKey f.image.len = some e) :
    openDb options f =
      (.error e, ⟨f.image, f.trace, options.readOnly, f.fileStride, f.fileStride⟩) := by
  have hwp := hf.wp_openExisting options
  rw [hf.openDb_eq hv]
  split
  · next m c hx =>
    rw [hr] at hwp
    exact absurd ((wp_ok hx).mp hwp).1 nofun
  · next e' c hx =>
    obtain ⟨he, hio⟩ := (wp_error hx).mp hwp
    rw [hr] at he
    obtain rfl := Option.some.inj he
    rw [hio]

theorem Options.Creates.opened (h : options.Creates) (hempty : f.image.len = 0) :
    Opened True (options.created f) Version.empty .nil (fun _ => 0) ∧
      Poised (options.created f).head (options.created f).cache.io.image.cell := by
  have hstride : (freshCache options f).io.fileStride = pageSize := if_pos hempty
  have hbare : (freshCache options f).Bare :=
    ⟨rfl, rfl, rfl, rfl, hstride.symm, Nat.lt_of_lt_of_le Nat.one_pos (le_max_right _ _)⟩
  exact opened_created h.valid.1 h.valid.2 hbare rfl hempty rfl

theorem Sane.opened (h : Sane past m) (hidle : m.activeTxn = false) :
    ∃ v t lost, Opened past.exact m v t lost ∧ (past.plain → v.stray = fun _ => 0) ∧
      ∀ b ∈ past.base, Moored b m.head v t (.ofIo m.cache.io) := by
  cases h with
  | idle hO hplain _ hb => exact ⟨_, _, _, hO, hplain, hb⟩
  | running hR => exact absurd (hidle.symm.trans hR.active) nofun
  | dead hp ha => exact absurd (hidle.symm.trans ha) nofun

theorem Db.step_open_ok {io : PageIo} (h : openDb options f = (.ok m, io)) :
    (Db.closed f).step (.open options) = .opened m := by
  simp only [Db.step, h]

theorem Db.step_open_error {e : ChiselError} {io : PageIo}
    (h : openDb options f = (.error e, io)) :
    (Db.closed f).step (.open options) = .closed (.ofIo io) := by
  simp only [Db.step, h]

theorem DbOk.fade {past' : Past} {db : Db} (hdb : DbOk past db) (hp : past.Fades past') :
    DbOk past' db := by
  cases hdb with
  | blank hempty hfresh => exact .blank hempty fun b hb => hfresh b (hp.base b hb)
  | closed hf hfull hb =>
    exact .closed hf (fun h => hfull (hp.full h)) fun b h => hb b (hp.base b h)
  | opened hs => exact .opened (hs.fade hp)

/-- What a run is known to have done after one more step. -/
def Past.step (past : Past) (db : Db) (s : Step) : Past :=
  ⟨False, past.plain ∧ db.calm s = true, past.full ∧ db.spares s = true, past.base⟩

/-- Every step leads from one state of a database to another. -/
theorem DbOk.step {db : Db} (hdb : DbOk past db) (s : Step) : DbOk (past.step db s)
    (db.step s) := by
  cases hdb with
  | blank hempty hfresh =>
    rename_i f
    cases s with
    | «open» options =>
      by_cases hnew : options.Creates
      · obtain ⟨hO, hp⟩ := hnew.opened hempty
        rw [Db.step_open_ok (openDb_created hempty hnew)]
        refine .opened (.idle (hO.weaken False.elim) (fun _ => rfl) (Version.clean_of_stray rfl)
          fun b hb => ?_)
        obtain ⟨rfl, htrace⟩ := hfresh b hb
        obtain ⟨himage, hes⟩ := options.created_events f
        rw [htrace, List.nil_append] at hes
        refine moored_of_synced (himage.trans (congrArg f.image.replay hes.symm)) ?_ hO.fileHolds hp
        change synced (options.created f).cache.io.trace = (options.created f).cache.io.trace
        rw [hes]
        exact synced_concat_sync _
      · obtain ⟨e, io, heq, himage, htrace⟩ := openDb_refused hempty hnew
        rw [Db.step_open_error heq]
        refine .blank ((congrArg Image.len himage).trans hempty) fun b hb => ?_
        obtain ⟨hb, ht⟩ := hfresh b hb
        exact ⟨himage.trans hb, htrace.trans ht⟩
    | op | drop => exact .blank hempty hfresh
  | @closed f h v t hf hfull hb =>
    cases s with
    | «open» options =>
      by_cases hv : options.Valid
      · cases hr : h.refusal options.encryptionKey f.image.len with
        | none =>
          obtain ⟨m, heq, hm⟩ := hf.openDb_ok hv hr
          obtain ⟨lost, hO⟩ := hm.opened
          rw [Db.step_open_ok heq]
          refine .opened (.idle hO (fun _ => rfl) (Version.clean_of_stray rfl) fun b h => ?_)
          rw [hm.head, hm.io]
          exact (hb b h).bare
        | some e =>
          rw [Db.step_open_error (hf.openDb_error hv hr)]
          exact .closed hf (fun hp => hfull hp.1) hb
      · rw [Db.step_open_error (openDb_of_not_valid hv f), hf.openFile]
        exact .closed hf (fun hp => hfull hp.1) hb
    | op | drop => exact .closed hf (fun hp => hfull hp.1) hb
  | opened hs =>
    rename_i m
    cases s with
    | «open» options => exact .opened (hs.fade ⟨False.elim, And.left, And.left, fun _ => id⟩)
    | op op =>
      refine .opened ((hs.after op).fade ⟨False.elim, fun ⟨hp, hcalm⟩ => ⟨hp, fun e he => ?_⟩, id,
        fun _ => id⟩)
      change (m.failure op).all _ = true at hcalm
      rw [Option.mem_def.mp he] at hcalm
      simpa using hcalm
    | drop =>
      obtain ⟨h, v, t, hf, -, hfull, hb⟩ := hs.fileHolds
      exact .closed hf (fun hp => hfull hp.1) hb

/-- Every run leads from one state of a database to another. -/
theorem DbOk.run {db : Db} (hdb : DbOk past db) (steps : List Step) :
    DbOk ⟨False, past.plain ∧ db.along Db.calm steps = true,
      past.full ∧ db.along Db.spares steps = true, past.base⟩ (db.run steps) := by
  induction steps generalizing past db with
  | nil => exact hdb.fade ⟨False.elim, And.left, And.left, fun _ => id⟩
  | cons s rest ih =>
    simp only [Db.along, Bool.and_eq_true]
    exact (ih (hdb.step s)).fade ⟨False.elim, and_assoc.mpr, and_assoc.mpr, fun _ => id⟩

/-- A handle that a run leads to. -/
theorem DbOk.reaches {db : Db} (hdb : DbOk past db) {steps : List Step}
    (hrun : db.run steps = .opened m) : Sane .unknown m := by
  have hok := hdb.run steps
  rw [hrun] at hok
  cases hok with
  | opened hs => exact hs.fade ⟨False.elim, False.elim, False.elim, nofun⟩

theorem run_ok (steps : List Step) :
    DbOk ⟨False, (Db.closed .empty).along Db.calm steps = true,
      (Db.closed .empty).along Db.spares steps = true, none⟩ ((Db.closed .empty).run steps) :=
  have hdb : DbOk ⟨False, True, True, none⟩ (.closed .empty) := .blank rfl nofun
  (hdb.run steps).fade ⟨id, fun h => ⟨trivial, h⟩, fun h => ⟨trivial, h⟩, fun _ => id⟩

end Steps

/-! ### Databases -/

/-- The file holds a database. -/
def DbFile.Sound (f : DbFile) : Prop := ∃ h v t, FileHolds h f v t

theorem dbOk_unknown {f : DbFile} (hf : f.image.len = 0 ∨ f.Sound) : DbOk .unknown (.closed f) := by
  rcases hf with hempty | ⟨h, v, t, hf⟩
  · exact .blank hempty nofun
  · exact .closed hf False.elim nofun

theorem DbOk.sound {past : Past} {db : Db} (h : DbOk past db) (hlen : 0 < db.file.image.len) :
    db.file.Sound := by
  cases h with
  | blank hempty => exact absurd hempty (Nat.pos_iff_ne_zero.mp hlen)
  | closed hf => exact ⟨_, _, _, hf⟩
  | opened hs =>
    obtain ⟨h, v, t, hf, -⟩ := hs.fileHolds
    exact ⟨h, v, t, hf⟩

/-- The handle is open, and its manager satisfies a condition. -/
def Db.holds (p : TransactionManager → Bool) : Db → Bool
  | .opened m => p m
  | .closed _ => false

theorem Db.of_holds {db : Db} {p : TransactionManager → Bool} (h : db.holds p = true) :
    ∃ m, db = .opened m ∧ p m = true := by
  cases db with
  | opened m => exact ⟨m, rfl, h⟩
  | closed f => cases h

end Chisel
