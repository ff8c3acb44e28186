import Mathlib.Tactic.Common

/-! Programs that keep their state when they fail, and the weakest preconditions of such programs.
A program is an `EStateM ε σ α`: it ends with a value or with an error, and in both cases with a
state. `wp x s Q E` says that `x`, started in `s`, ends with a value and a state that satisfy `Q`,
or with an error and a state that satisfy `E`. -/

namespace StateError

variable {ε σ τ α β : Type}

/-- `x` from `s` ends in `Q` when it returns and in `E` when it fails. -/
def wp (x : EStateM ε σ α) (s : σ) (Q : α → σ → Prop) (E : ε → σ → Prop) : Prop :=
  match x s with
  | .ok a s' => Q a s'
  | .error e s' => E e s'

/-- Run `x` on a part of the state. The part is written back when `x` fails, too. -/
def zoom (get : σ → τ) (set : τ → σ → σ) (x : EStateM ε τ α) : EStateM ε σ α := fun s =>
  match x (get s) with
  | .ok a t => .ok a (set t s)
  | .error e t => .error e (set t s)

/-- Run `x` and turn its outcome into a value. -/
def attempt (x : EStateM ε σ α) : EStateM ε σ (Except ε α) := fun s =>
  match x s with
  | .ok a s' => .ok (.ok a) s'
  | .error e s' => .ok (.error e) s'

/-- Run `x`; if it fails, run `cleanup` on the state and fail with the same error. -/
def onError (x : EStateM ε σ α) (cleanup : σ → σ) : EStateM ε σ α := fun s =>
  match x s with
  | .ok a s' => .ok a s'
  | .error e s' => .error e (cleanup s')

/-- Run `x` and apply `f` to the state it ends in, whether it returns or fails. -/
def finally' (x : EStateM ε σ α) (f : σ → σ) : EStateM ε σ α := fun s =>
  match x s with
  | .ok a s' => .ok a (f s')
  | .error e s' => .error e (f s')

section Rules

variable {x : EStateM ε σ α} {f : α → EStateM ε σ β} {s : σ}
variable {Q Q' : α → σ → Prop} {R : β → σ → Prop} {E E' : ε → σ → Prop}

theorem wp_ok {a : α} {s' : σ} (h : x s = .ok a s') : wp x s Q E ↔ Q a s' := by
  simp [wp, h]

theorem wp_error {e : ε} {s' : σ} (h : x s = .error e s') : wp x s Q E ↔ E e s' := by
  simp [wp, h]

theorem wp_def : wp x s Q E ↔
    (∀ a s', x s = .ok a s' → Q a s') ∧ (∀ e s', x s = .error e s' → E e s') := by
  unfold wp
  cases h : x s <;> simp

theorem wp_mono (h : wp x s Q E) (hQ : ∀ a s', Q a s' → Q' a s') (hE : ∀ e s', E e s' → E' e s') :
    wp x s Q' E' := by
  unfold wp at *
  cases h' : x s with
  | ok a s' => rw [h'] at h; exact hQ _ _ h
  | error e s' => rw [h'] at h; exact hE _ _ h

theorem wp_imp (h : wp x s Q E) (hQ : ∀ a s', Q a s' → Q' a s') : wp x s Q' E :=
  wp_mono h hQ fun _ _ he => he

theorem wp_congr {y : EStateM ε σ α} (h : x s = y s) : wp x s Q E ↔ wp y s Q E := by
  unfold wp
  rw [h]

theorem wp_true : wp x s (fun _ _ => True) (fun _ _ => True) :=
  wp_def.mpr ⟨fun _ _ _ => trivial, fun _ _ _ => trivial⟩

theorem wp_and (h : wp x s Q E) (h' : wp x s Q' E') :
    wp x s (fun a s' => Q a s' ∧ Q' a s') (fun e s' => E e s' ∧ E' e s') := by
  unfold wp at *
  cases hx : x s <;> simp_all

@[simp] theorem wp_pure (a : α) : wp (pure a : EStateM ε σ α) s Q E ↔ Q a s := Iff.rfl

theorem wp_ret {a : α} (h : Q a s) : wp (pure a : EStateM ε σ α) s Q E := h

theorem wp_fail {e : ε} (h : E e s) : wp (throw e : EStateM ε σ α) s Q E := h

@[simp] theorem wp_throw (e : ε) : wp (throw e : EStateM ε σ α) s Q E ↔ E e s := Iff.rfl

@[simp] theorem wp_bind :
    wp (x >>= f) s R E ↔ wp x s (fun a s' => wp (f a) s' R E) E := by
  unfold wp
  show (match EStateM.bind x f s with | .ok a s' => R a s' | .error e s' => E e s') ↔ _
  unfold EStateM.bind
  cases x s <;> rfl

@[simp] theorem wp_map (g : α → β) :
    wp (g <$> x) s R E ↔ wp x s (fun a s' => R (g a) s') E := by
  unfold wp
  show (match EStateM.map g x s with | .ok a s' => R a s' | .error e s' => E e s') ↔ _
  unfold EStateM.map
  cases x s <;> rfl

@[simp] theorem wp_get {R : σ → σ → Prop} :
    wp (get : EStateM ε σ σ) s R E ↔ R s s := Iff.rfl

@[simp] theorem wp_set {R : PUnit → σ → Prop} (s' : σ) :
    wp (set s' : EStateM ε σ PUnit) s R E ↔ R ⟨⟩ s' := Iff.rfl

@[simp] theorem wp_modify {R : PUnit → σ → Prop} (g : σ → σ) :
    wp (modify g : EStateM ε σ PUnit) s R E ↔ R ⟨⟩ (g s) := Iff.rfl

theorem wp_ite {c : Prop} [Decidable c] {y : EStateM ε σ α}
    (ht : c → wp x s Q E) (hf : ¬c → wp y s Q E) : wp (if c then x else y) s Q E := by
  split <;> [exact ht ‹_›; exact hf ‹_›]

theorem ite_bind {c : Prop} [Decidable c] (x y : EStateM ε σ α) (k : α → EStateM ε σ β) :
    (if c then x >>= k else y >>= k) = (if c then x else y) >>= k := by
  split <;> rfl

@[simp] theorem wp_zoom {get : σ → τ} {set : τ → σ → σ} {y : EStateM ε τ α} :
    wp (zoom get set y) s Q E ↔
      wp y (get s) (fun a t => Q a (set t s)) (fun e t => E e (set t s)) := by
  unfold wp zoom
  cases y (get s) <;> rfl

@[simp] theorem wp_attempt {R : Except ε α → σ → Prop} :
    wp (attempt x) s R E ↔ wp x s (fun a s' => R (.ok a) s') (fun e s' => R (.error e) s') := by
  unfold wp attempt
  cases x s <;> rfl

@[simp] theorem wp_onError {cleanup : σ → σ} :
    wp (onError x cleanup) s Q E ↔ wp x s Q (fun e s' => E e (cleanup s')) := by
  unfold wp onError
  cases x s <;> rfl

@[simp] theorem wp_finally' {g : σ → σ} :
    wp (finally' x g) s Q E ↔ wp x s (fun a s' => Q a (g s')) (fun e s' => E e (g s')) := by
  unfold wp finally'
  cases x s <;> rfl

end Rules

/-! ### Runs -/

section Runs

variable {x : EStateM ε σ α} {f : α → EStateM ε σ β} {s s' : σ}

theorem bind_of_ok {a : α} (h : x s = .ok a s') : (x >>= f) s = f a s' := by
  change EStateM.bind x f s = _
  simp [EStateM.bind, h]

theorem bind_of_error {e : ε} (h : x s = .error e s') : (x >>= f) s = .error e s' := by
  change EStateM.bind x f s = _
  simp [EStateM.bind, h]

theorem map_of_ok {g : α → β} {a : α} (h : x s = .ok a s') : (g <$> x) s = .ok (g a) s' := by
  change EStateM.map g x s = _
  simp [EStateM.map, h]

theorem map_of_error {g : α → β} {e : ε} (h : x s = .error e s') :
    (g <$> x) s = .error e s' := by
  change EStateM.map g x s = _
  simp [EStateM.map, h]

/-- The state that a program leaves, whether it returns or fails. -/
def endState (x : EStateM ε σ α) (s : σ) : σ :=
  match x s with
  | .ok _ s' => s'
  | .error _ s' => s'

theorem endState_of_ok {a : α} (h : x s = .ok a s') : endState x s = s' := by
  unfold endState
  rw [h]

theorem endState_of_error {e : ε} (h : x s = .error e s') : endState x s = s' := by
  unfold endState
  rw [h]

theorem get_bind_apply (f : σ → EStateM ε σ β) : (get >>= f) s = f s s := rfl

theorem throw_bind_apply (e : ε) : ((throw e : EStateM ε σ α) >>= f) s = .error e s := rfl

theorem throw_apply (e : ε) : (throw e : EStateM ε σ α) s = .error e s := rfl

theorem pure_apply (a : α) : (pure a : EStateM ε σ α) s = .ok a s := rfl

/-- `x` from `s` ends with a value. -/
def returns (x : EStateM ε σ α) (s : σ) : Bool :=
  match x s with
  | .ok _ _ => true
  | .error _ _ => false

theorem exists_ok (h : returns x s = true) : ∃ a s', x s = .ok a s' := by
  unfold returns at h
  split at h
  · next a s' hx => exact ⟨a, s', hx⟩
  · cases h

/-- The program returns, and its value and the state that it leaves pass a check. -/
def gives (x : EStateM ε σ α) (p : α → σ → Bool) (s : σ) : Bool :=
  match x s with
  | .ok a s' => p a s'
  | .error _ _ => false

theorem exists_of_gives {p : α → σ → Bool} (h : gives x p s = true) :
    ∃ a s', x s = .ok a s' ∧ p a s' = true := by
  unfold gives at h
  split at h
  · next a s' hx => exact ⟨a, s', hx, h⟩
  · cases h

theorem exists_ok_bind (h : returns (x >>= f) s = true) :
    ∃ a s1 b s2, x s = .ok a s1 ∧ f a s1 = .ok b s2 := by
  obtain ⟨b, s2, hrun⟩ := exists_ok h
  cases hx : x s with
  | ok a s1 => exact ⟨a, s1, b, s2, rfl, (bind_of_ok hx).symm.trans hrun⟩
  | error e s1 => cases (bind_of_error hx).symm.trans hrun

end Runs

-- programs are taken apart by the rules above, never by running them
attribute [irreducible] wp

/-! ### Loops over lists -/

section Loops

variable {l : List α} {s : σ} {E : ε → σ → Prop}

/-- A loop keeps an invariant that may mention the elements it is done with. -/
theorem wp_foldlM {f : β → α → EStateM ε σ β} {b : β} (I : List α → β → σ → Prop) (h0 : I [] b s)
    (hstep : ∀ done a rest b s, l = done ++ a :: rest → I done b s →
      wp (f b a) s (fun b' s' => I (done ++ [a]) b' s') E) :
    wp (l.foldlM f b) s (fun b' s' => I l b' s') E := by
  suffices h : ∀ rest done b s, l = done ++ rest → I done b s →
      wp (rest.foldlM f b) s (fun b' s' => I l b' s') E from h l [] b s rfl h0
  intro rest
  induction rest with
  | nil =>
    intro done b s hl hI
    rw [List.append_nil] at hl
    simpa [hl] using hI
  | cons a rest ih =>
    intro done b s hl hI
    rw [List.foldlM_cons, wp_bind]
    refine wp_imp (hstep done a rest b s hl hI) ?_
    intro b' s' hI'
    exact ih (done ++ [a]) b' s' (by simp [hl]) hI'

theorem wp_forM {f : α → EStateM ε σ PUnit} (I : List α → σ → Prop) (h0 : I [] s)
    (hstep : ∀ done a rest s, l = done ++ a :: rest → I done s →
      wp (f a) s (fun _ s' => I (done ++ [a]) s') E) :
    wp (l.forM f) s (fun _ s' => I l s') E := by
  suffices h : ∀ rest done s, l = done ++ rest → I done s →
      wp (rest.forM f) s (fun _ s' => I l s') E from h l [] s rfl h0
  intro rest
  induction rest with
  | nil =>
    intro done s hl hI
    rw [List.append_nil] at hl
    simpa [hl] using hI
  | cons a rest ih =>
    intro done s hl hI
    change wp (f a >>= fun _ => rest.forM f) s _ E
    rw [wp_bind]
    refine wp_imp (hstep done a rest s hl hI) ?_
    intro _ s' hI'
    exact ih (done ++ [a]) s' (by simp [hl]) hI'

/-- A search keeps `P` until it finds something. -/
theorem wp_findSomeM? {f : α → EStateM ε σ (Option β)} (P : List α → σ → Prop) {Q : β → σ → Prop}
    (h0 : P [] s)
    (hstep : ∀ done a rest s, l = done ++ a :: rest → P done s →
      wp (f a) s (fun r s' => (r = none → P (done ++ [a]) s') ∧ ∀ b, r = some b → Q b s') E) :
    wp (l.findSomeM? f) s (fun r s' => (r = none → P l s') ∧ ∀ b, r = some b → Q b s') E := by
  suffices h : ∀ rest done s, l = done ++ rest → P done s →
      wp (rest.findSomeM? f) s (fun r s' => (r = none → P l s') ∧ ∀ b, r = some b → Q b s') E from
    h l [] s rfl h0
  intro rest
  induction rest with
  | nil =>
    intro done s hl hP
    rw [List.append_nil] at hl
    simpa [List.findSomeM?, hl] using hP
  | cons a rest ih =>
    intro done s hl hP
    rw [List.findSomeM?, wp_bind]
    refine wp_imp (hstep done a rest s hl hP) ?_
    rintro r s' ⟨hnone, hsome⟩
    cases r with
    | none => exact ih (done ++ [a]) s' (by simp [hl]) (hnone rfl)
    | some b => simpa using hsome b rfl

/-- Every element is tried until one succeeds. -/
theorem wp_anyM {f : α → EStateM ε σ Bool} {P : σ → Prop} {Q : α → Prop} (h0 : P s)
    (hstep : ∀ a ∈ l, ∀ s, P s → wp (f a) s (fun r s' => P s' ∧ (r = true ↔ Q a)) E) :
    wp (l.anyM f) s (fun r s' => P s' ∧ (r = true ↔ ∃ a ∈ l, Q a)) E := by
  induction l generalizing s with
  | nil => simp [List.anyM, h0]
  | cons a rest ih =>
    rw [List.anyM, wp_bind]
    refine wp_imp (hstep a List.mem_cons_self s h0) ?_
    rintro r s' ⟨hP, hr⟩
    cases r with
    | true => simpa using ⟨hP, .inl (hr.mp rfl)⟩
    | false =>
      have hno : ¬ Q a := fun h => Bool.false_ne_true (hr.mpr h)
      refine wp_imp (ih hP fun a ha => hstep a (List.mem_cons_of_mem _ ha)) ?_
      rintro r s'' ⟨hP', hr'⟩
      exact ⟨hP', by simp [hr', hno]⟩

end Loops

/-! ### Relations that programs respect -/

/-- From every state, `x` ends in one that `R` relates to it, or fails in one that `F` does. -/
def Stays (R : σ → σ → Prop) (F : ε → σ → σ → Prop) (x : EStateM ε σ α) : Prop :=
  ∀ s, wp x s (fun _ s' => R s s') (fun e s' => F e s s')

/-- `R` is a preorder, and what fails after steps of `R` has failed from their start. -/
class Composes (R : σ → σ → Prop) (F : ε → σ → σ → Prop) : Prop where
  refl : ∀ s, R s s
  trans : ∀ {s s' s''}, R s s' → R s' s'' → R s s''
  fail : ∀ {e s s' s''}, R s s' → F e s' s'' → F e s s''

instance {R : σ → σ → Prop} {F : ε → σ → σ → Prop} [h : Composes R F] (p : τ → σ) :
    Composes (InvImage R p) (fun e => InvImage (F e) p) :=
  ⟨fun t => h.refl (p t), h.trans, h.fail⟩

section Relations

variable {R : σ → σ → Prop} {F : ε → σ → σ → Prop} {x y : EStateM ε σ α} {f : α → EStateM ε σ β}

theorem stays_throw {e : ε} (h : ∀ s, F e s s) : Stays R F (throw e : EStateM ε σ α) :=
  fun s => wp_fail (h s)

theorem stays_throw_bind {e : ε} (h : ∀ s, F e s s) :
    Stays R F ((throw e : EStateM ε σ α) >>= f) := fun s => by
  rw [wp_bind]
  exact wp_fail (h s)

theorem stays_map {g : α → β} (hx : Stays R F x) : Stays R F (g <$> x) := fun s => by
  rw [wp_map]
  exact hx s

theorem stays_modify {g : σ → σ} (h : ∀ s, R s (g s)) :
    Stays R F (modify g : EStateM ε σ PUnit) := fun s => (wp_modify g).mpr (h s)

theorem stays_ite {c : Prop} [Decidable c] (hx : Stays R F x) (hy : Stays R F y) :
    Stays R F (if c then x else y) := fun s => wp_ite (fun _ => hx s) fun _ => hy s

theorem stays_onError {cleanup : σ → σ} (hx : Stays R F x)
    (hc : ∀ e s s', F e s s' → F e s (cleanup s')) : Stays R F (onError x cleanup) := fun s =>
  wp_onError.mpr (wp_mono (hx s) (fun _ _ h => h) fun _ _ h => hc _ _ _ h)

theorem stays_finally' {g : σ → σ} (hx : Stays R F x) (hR : ∀ s s', R s s' → R s (g s'))
    (hF : ∀ e s s', F e s s' → F e s (g s')) : Stays R F (finally' x g) := fun s =>
  wp_finally'.mpr (wp_mono (hx s) (fun _ _ h => hR _ _ h) fun _ _ h => hF _ _ _ h)

/-- A part of the state moves as its own program moves it. -/
theorem stays_zoom {p : τ → σ} {put : σ → τ → τ} (hput : ∀ s t, p (put s t) = s)
    (hx : Stays R F x) :
    Stays (InvImage R p) (fun e => InvImage (F e) p) (zoom p put x) := fun t => by
  rw [wp_zoom]
  refine wp_mono (hx (p t)) (fun a s h => ?_) fun e s h => ?_
  · change R (p t) (p (put s t))
    rwa [hput]
  · change F e (p t) (p (put s t))
    rwa [hput]

variable [Composes R F]

theorem stays_pure (a : α) : Stays R F (pure a : EStateM ε σ α) :=
  fun s => wp_ret (Composes.refl F s)

theorem stays_get : Stays R F (get : EStateM ε σ σ) := fun s => wp_get.mpr (Composes.refl F s)

/-- The rest of a program may rely on what the first part has seen to. -/
theorem wp_bind_of {P : α → σ → Prop} {s : σ}
    (hx : wp x s (fun a s' => R s s' ∧ P a s') (fun e => F e s))
    (hf : ∀ a s', R s s' → P a s' → wp (f a) s' (fun _ => R s') (fun e => F e s')) :
    wp (x >>= f) s (fun _ => R s) (fun e => F e s) := by
  rw [wp_bind]
  refine wp_mono hx (fun a s' hR => ?_) fun _ _ h => h
  exact wp_mono (hf a s' hR.1 hR.2) (fun _ _ h => Composes.trans F hR.1 h)
    fun _ _ h => Composes.fail hR.1 h

theorem wp_stays_bind {s : σ} (hx : wp x s (fun _ => R s) (fun e => F e s))
    (hf : ∀ a, Stays R F (f a)) : wp (x >>= f) s (fun _ => R s) (fun e => F e s) :=
  wp_bind_of (P := fun _ _ => True) (wp_mono hx (fun _ _ h => ⟨h, trivial⟩) fun _ _ h => h)
    fun a s' _ _ => hf a s'

theorem stays_bind (hx : Stays R F x) (hf : ∀ a, Stays R F (f a)) : Stays R F (x >>= f) :=
  fun s => wp_stays_bind (hx s) hf

theorem stays_foldlM {l : List β} {g : α → β → EStateM ε σ α} (hg : ∀ a b, Stays R F (g a b))
    (a : α) : Stays R F (l.foldlM g a) := by
  induction l generalizing a with
  | nil => exact stays_pure a
  | cons b rest ih =>
    rw [List.foldlM_cons]
    exact stays_bind (hg a b) fun a' => ih a'

theorem stays_forM {l : List β} {g : β → EStateM ε σ PUnit} (hg : ∀ b, Stays R F (g b)) :
    Stays R F (l.forM g) := by
  induction l with
  | nil => exact stays_pure _
  | cons b rest ih => exact stays_bind (hg b) fun _ => ih

theorem stays_findSomeM? {l : List β} {g : β → EStateM ε σ (Option α)}
    (hg : ∀ b, Stays R F (g b)) : Stays R F (l.findSomeM? g) := by
  induction l with
  | nil => exact stays_pure none
  | cons b rest ih =>
    refine stays_bind (hg b) fun r => ?_
    cases r with
    | none => exact ih
    | some a => exact stays_pure (some a)

theorem stays_anyM {l : List β} {g : β → EStateM ε σ Bool} (hg : ∀ b, Stays R F (g b)) :
    Stays R F (l.anyM g) := by
  induction l with
  | nil => exact stays_pure false
  | cons b rest ih =>
    refine stays_bind (hg b) fun r => ?_
    cases r with
    | true => exact stays_pure true
    | false => exact ih

end Relations

end StateError
