import MmixBackend.Build

/-!
# Passes that cannot be told apart

Two passes are alike when, from every session, both succeed or both fail, leave the same names
and notes behind, and give related results or failures of the same wording.  A place in the
source and the number of a declaration show up in the wording of a failure, so they are left out
of the comparison: `Failure.plain` blanks them.

The rules follow the way passes are put together.  `Alike` is for passes over the shared session;
`Carries` is for passes with tables of their own, which start related and end related.
-/

namespace MmixBackend

/-! ## Failures -/

/-- A defect without the number of the declaration it is about. -/
def Defect.plain : Defect → Defect
  | .noFrame _ => .noFrame default
  | .noAccess _ => .noAccess default
  | d => d

/-- A failure without places in the source and numbers of declarations. -/
def Failure.plain : Failure → Failure
  | .internal _ d => .internal {} d.plain
  | .exhausted _ function what => .exhausted {} function what
  | e => e

namespace Build

/-! ## Passes over the session -/

section Alike

variable {α β γ α' β' : Type}

/-- The two passes cannot be told apart, up to `R` on what they return. -/
def Alike (R : α → β → Prop) (x : Build α) (y : Build β) : Prop :=
  ∀ s, match x s, y s with
    | .ok a s₁, .ok b s₂ => s₁ = s₂ ∧ R a b
    | .error e s₁, .error e' s₂ => s₁ = s₂ ∧ e.plain = e'.plain
    | _, _ => False

variable {R : α → β → Prop} {S : α' → β' → Prop} {x : Build α} {y : Build β} {f : α → Build α'}
  {g : β → Build β'}

theorem alike_refl (x : Build α) : Alike Eq x x := by
  intro s
  cases x s with
  | ok a s₁ => exact ⟨rfl, rfl⟩
  | error e s₁ => exact ⟨rfl, rfl⟩

theorem alike_pure {a : α} {b : β} (h : R a b) :
    Alike R (pure a) (pure b) := fun _ => ⟨rfl, h⟩

theorem alike_throw {e e' : Failure} (h : e.plain = e'.plain) :
    Alike R (throw e) (throw e') := fun _ => ⟨rfl, h⟩

theorem alike_defect {loc loc' : Location} {d d' : Defect}
    (h : d.plain = d'.plain) : Alike R (defect loc d) (defect loc' d') :=
  alike_throw (congrArg (Failure.internal {}) h)

theorem alike_throw_bind {e e' : Failure} (h : e.plain = e'.plain) :
    Alike S (throw e >>= f) (throw e' >>= g) := fun _ => ⟨rfl, h⟩

theorem alike_defect_bind {loc loc' : Location} {d d' : Defect} (h : d.plain = d'.plain) :
    Alike S (defect loc d >>= f) (defect loc' d' >>= g) :=
  alike_throw_bind (congrArg (Failure.internal {}) h)

theorem alike_ite {p : Prop} [Decidable p] {x x' : Build α} {y y' : Build β}
    (h : Alike R x y) (h' : Alike R x' y') :
    Alike R (if p then x else x') (if p then y else y') := by
  split
  · exact h
  · exact h'

theorem Alike.bind (h : Alike R x y) (hfg : ∀ a b, R a b → Alike S (f a) (g b)) :
    Alike S (x >>= f) (y >>= g) := by
  intro s
  have hs := h s
  show match EStateM.bind x f s, EStateM.bind y g s with
    | .ok a s₁, .ok b s₂ => s₁ = s₂ ∧ S a b
    | .error e s₁, .error e' s₂ => s₁ = s₂ ∧ e.plain = e'.plain
    | _, _ => False
  unfold EStateM.bind
  cases hx : x s with
  | ok a s₁ =>
    cases hy : y s with
    | ok b s₂ =>
      simp only [hx, hy] at hs
      obtain ⟨rfl, hab⟩ := hs
      exact hfg a b hab s₁
    | error e s₂ => simp only [hx, hy] at hs
  | error e s₁ =>
    cases hy : y s with
    | ok b s₂ => simp only [hx, hy] at hs
    | error e' s₂ =>
      simp only [hx, hy] at hs
      exact hs

theorem Alike.bind_eq {y : Build α} {g : α → Build β'} (h : Alike Eq x y)
    (hfg : ∀ a, Alike S (f a) (g a)) : Alike S (x >>= f) (y >>= g) := by
  refine h.bind ?_
  rintro a _ rfl
  exact hfg a

theorem Alike.mono {S : α → β → Prop} (h : Alike R x y) (hRS : ∀ a b, R a b → S a b) :
    Alike S x y := by
  have := h.bind fun a b hab => alike_pure (hRS a b hab)
  rwa [bind_pure, bind_pure] at this

theorem Alike.symm (h : Alike R x y) : Alike (fun b a => R a b) y x := by
  intro s
  have hs := h s
  cases hx : x s <;> cases hy : y s <;> simp only [hx, hy] at hs
  · exact ⟨hs.1.symm, hs.2⟩
  · exact ⟨hs.1.symm, hs.2.symm⟩

theorem Alike.trans {S : β → γ → Prop} {z : Build γ} (h : Alike R x y) (h' : Alike S y z) :
    Alike (fun a c => ∃ b, R a b ∧ S b c) x z := by
  intro s
  have hs := h s
  have hs' := h' s
  cases hx : x s <;> cases hy : y s <;> cases hz : z s <;> simp only [hx, hy, hz] at hs hs'
  · exact ⟨hs.1.trans hs'.1, _, hs.2, hs'.2⟩
  · exact ⟨hs.1.trans hs'.1, hs.2.trans hs'.2⟩

/-- Where one of the two succeeds, so does the other, with the same session. -/
theorem Alike.ok (h : Alike R x y) {s s' : Session} {a : α} (hx : x s = .ok a s') :
    ∃ b, y s = .ok b s' ∧ R a b := by
  have hs := h s
  rw [hx] at hs
  cases hy : y s with
  | error e s₂ => simp only [hy] at hs
  | ok b s₂ =>
    simp only [hy] at hs
    obtain ⟨rfl, hab⟩ := hs
    exact ⟨b, rfl, hab⟩

theorem alike_mapM {h : α → β} {k : α' → β'}
    (hfg : ∀ a, Alike (fun x y => y = k x) (f a) (g (h a))) (as : List α) :
    Alike (fun xs ys => ys = xs.map k) (as.mapM f) ((as.map h).mapM g) := by
  induction as with
  | nil => exact alike_pure rfl
  | cons a as ih =>
    rw [List.map_cons, List.mapM_cons, List.mapM_cons]
    refine (hfg a).bind ?_
    rintro x _ rfl
    refine ih.bind ?_
    rintro xs _ rfl
    exact alike_pure rfl

/-- Two exact computations that fail for the same cause, or give related results. -/
def Concur (R : α → β → Prop) : Except Overflow α → Except Overflow β → Prop
  | .ok a, .ok b => R a b
  | .error c, .error c' => c = c'
  | _, _ => False

theorem concur_refl (x : Except Overflow α) : Concur Eq x x := by
  cases x with
  | ok a => exact Eq.refl a
  | error c => exact Eq.refl c

theorem Concur.bind {x : Except Overflow α}
    {y : Except Overflow β} {f : α → Except Overflow α'} {g : β → Except Overflow β'}
    (h : Concur R x y) (hfg : ∀ a b, R a b → Concur S (f a) (g b)) :
    Concur S (x >>= f) (y >>= g) := by
  cases x <;> cases y
  · exact h
  · exact h.elim
  · exact h.elim
  · exact hfg _ _ h

theorem Concur.alike {x : Except Overflow α} {y : Except Overflow β}
    (h : Concur R x y) : Alike R (exactly x) (exactly y) := by
  cases x <;> cases y
  · cases h
    exact alike_throw rfl
  · exact h.elim
  · exact h.elim
  · exact alike_pure h

end Alike

/-! ## Passes with tables -/

section Carries

variable {σ τ α β α' β' : Type} {T : σ → τ → Prop} {R : α → β → Prop} {S : α' → β' → Prop}

/-- From related tables the two passes cannot be told apart, and their tables stay related. -/
def Carries (T : σ → τ → Prop) (R : α → β → Prop) (x : StateT σ Build α)
    (y : StateT τ Build β) : Prop :=
  ∀ t u, T t u → Alike (fun p q => R p.1 q.1 ∧ T p.2 q.2) (x t) (y u)

theorem carries_pure {a : α} {b : β} (h : R a b) :
    Carries T R (pure a) (pure b) := fun _ _ ht => alike_pure ⟨h, ht⟩

theorem Carries.bind {x : StateT σ Build α}
    {y : StateT τ Build β} {f : α → StateT σ Build α'} {g : β → StateT τ Build β'}
    (h : Carries T R x y) (hfg : ∀ a b, R a b → Carries T S (f a) (g b)) :
    Carries T S (x >>= f) (y >>= g) :=
  fun t u ht => (h t u ht).bind fun p q hpq => hfg p.1 q.1 hpq.1 p.2 q.2 hpq.2

theorem Carries.bind_eq {x : StateT σ Build α} {y : StateT τ Build α}
    {f : α → StateT σ Build α'} {g : α → StateT τ Build β'} (h : Carries T Eq x y)
    (hfg : ∀ a, Carries T S (f a) (g a)) : Carries T S (x >>= f) (y >>= g) := by
  refine h.bind ?_
  rintro a _ rfl
  exact hfg a

theorem Alike.carries {x : Build α} {y : Build β} (h : Alike R x y) :
    Carries T R (liftM x) (liftM y) :=
  fun _ _ ht => h.bind fun _ _ hab => alike_pure ⟨hab, ht⟩

theorem carries_lift (x : Build α) : Carries T Eq (liftM x) (liftM x) := (alike_refl x).carries

theorem carries_modify {f : σ → σ} {g : τ → τ} (h : ∀ t u, T t u → T (f t) (g u)) :
    Carries T Eq (modify f : StateT σ Build Unit) (modify g : StateT τ Build Unit) :=
  fun t u ht => alike_pure ⟨rfl, h t u ht⟩

theorem carries_get : Carries T T (get : StateT σ Build σ) (get : StateT τ Build τ) :=
  fun _ _ ht => alike_pure ⟨ht, ht⟩

theorem carries_set {t : σ} {u : τ} (h : T t u) :
    Carries T Eq (set t : StateT σ Build PUnit) (set u : StateT τ Build PUnit) :=
  fun _ _ _ => alike_pure ⟨rfl, h⟩

/-- Passes over a list and over its image, with a value that both hand along. -/
theorem carries_foldlM {γ : Type} {f : γ → α → StateT σ Build γ} {g : γ → β → StateT τ Build γ}
    {h : α → β} (hfg : ∀ c a, Carries T Eq (f c a) (g c (h a))) (as : List α) :
    ∀ c, Carries T Eq (as.foldlM f c) ((as.map h).foldlM g c) := by
  induction as with
  | nil =>
    intro c
    exact carries_pure rfl
  | cons a as ih =>
    intro c
    rw [List.map_cons, List.foldlM_cons, List.foldlM_cons]
    exact (hfg c a).bind_eq ih

end Carries

end Build

end MmixBackend
