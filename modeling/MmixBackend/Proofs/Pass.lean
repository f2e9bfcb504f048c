import MmixBackend.Lowering

/-!
# Passes

The passes are programs in a monad with state and failure.  What a proof needs of one that
succeeded is the list of the steps it took: each step succeeded, and the state went from one to
the next.  The lemmas here take a successful run apart in this way, one for each way of putting
passes together and one for each basic pass.

The names handed out only grow while passes run: `Names` is ordered by extension, and a label
that was found by its text stays the one with that text.  A pass that draws labels without a text
draws each of them once.

A pass may also decide something about a program.  `Build.Decides x P Q` says that `x` returns
exactly if `P`, with a result of which `Q` holds, and else reports a defect; only words that leave
their range may stop it early.
-/

namespace MmixBackend

/-! ## Exact arithmetic -/

/-- A computation that may fail succeeds when each of its steps does. -/
theorem except_bind_ok {ε α β : Type} {x : Except ε α} {f : α → Except ε β} {b : β} :
    (x >>= f) = .ok b ↔ ∃ a, x = .ok a ∧ f a = .ok b := by
  cases x with
  | error e => simp [bind, Except.bind]
  | ok a => simp [bind, Except.bind]

/-- What holds of the result of a computation can be found out by doing it. -/
instance decidableForallOk {ε α : Type} (x : Except ε α) (P : α → Prop) [DecidablePred P] :
    Decidable (∀ a, x = .ok a → P a) :=
  match x with
  | .ok a => decidable_of_iff (P a) ⟨fun h _ ha => Except.ok.inj ha ▸ h, fun h => h a rfl⟩
  | .error _ => isTrue fun _ ha => nomatch ha

instance decidableExistsOk {ε α : Type} (x : Except ε α) (P : α → Prop) [DecidablePred P] :
    Decidable (∃ a, x = .ok a ∧ P a) :=
  match x with
  | .ok a => decidable_of_iff (P a) ⟨fun h => ⟨a, rfl, h⟩, fun ⟨_, ha, h⟩ => Except.ok.inj ha ▸ h⟩
  | .error _ => isFalse fun ⟨_, ha, _⟩ => nomatch ha

instance decidableIsOk {ε α : Type} (x : Except ε α) : Decidable (∃ a, x = .ok a) :=
  match x with
  | .ok a => isTrue ⟨a, rfl⟩
  | .error _ => isFalse fun ⟨_, ha⟩ => nomatch ha

theorem Word.toInt_checkedAdd {a b c : Word} (h : Word.checkedAdd a b = .ok c) :
    c.toInt = a.toInt + b.toInt := by
  rw [Word.checkedAdd_eq] at h
  exact Word.exact_eq_ok_iff.mp h

theorem Word.toInt_checkedSub {a b c : Word} (h : Word.checkedSub a b = .ok c) :
    c.toInt = a.toInt - b.toInt := by
  rw [Word.checkedSub_eq] at h
  exact Word.exact_eq_ok_iff.mp h

theorem Word.toInt_checkedNeg {a b : Word} (h : Word.checkedNeg a = .ok b) :
    b.toInt = -a.toInt :=
  Word.exact_eq_ok_iff.mp h

/-- A value in range is that of a word. -/
theorem Word.exists_exact (cause : Overflow) (n : Int) (hlow : Int64.minValue.toInt ≤ n)
    (hhigh : n ≤ Int64.maxValue.toInt) : ∃ w, Word.exact cause n = .ok w ∧ w.toInt = n :=
  ⟨Int64.ofInt n, if_pos ⟨hlow, hhigh⟩,
    Int64.toInt_ofInt_of_le hlow (Int.lt_add_one_of_le hhigh)⟩

/-! ## Names grow -/

namespace Names

/-- Everything that was handed out still is, and the new labels come after the old ones. -/
instance : LE Names := ⟨fun n m => n.temps ≤ m.temps ∧ n.labels.toList <+: m.labels.toList⟩

theorem le_refl (n : Names) : n ≤ n := ⟨Nat.le_refl _, List.prefix_refl _⟩

theorem le_trans {n m k : Names} (h : n ≤ m) (h' : m ≤ k) : n ≤ k :=
  ⟨Nat.le_trans h.1 h'.1, h.2.trans h'.2⟩

theorem temps_le {n m : Names} (h : n ≤ m) : n.temps ≤ m.temps := h.1

theorem labels_le {n m : Names} (h : n ≤ m) : n.labels.size ≤ m.labels.size := by
  simpa using h.2.length_le

theorem le_newTemp (n : Names) : n ≤ n.newTemp.2 :=
  ⟨Nat.le_succ _, List.prefix_refl _⟩

theorem le_newLabel (n : Names) : n ≤ n.newLabel.2 := by
  refine ⟨Nat.le_refl _, ?_⟩
  simp only [newLabel_labels, Array.toList_push]
  exact List.prefix_append _ _

theorem lookup_eq (n : Names) (name : String) :
    n.lookup name = (n.labels.toList.findIdx? (· == some name)).map Label.mk := by
  rw [lookup, ← List.findIdx?_toArray, Array.toArray_toList]

theorem lookup_of_le {n m : Names} (h : n ≤ m) {name : String} {l : Label}
    (hl : n.lookup name = some l) : m.lookup name = some l := by
  obtain ⟨rest, hr⟩ := h.2
  rw [lookup_eq] at hl ⊢
  obtain ⟨i, hi, rfl⟩ := Option.map_eq_some_iff.mp hl
  rw [← hr, List.findIdx?_append, hi]
  rfl

/-- What was handed out keeps its text. -/
theorem getElem?_labels_of_le {n m : Names} (h : n ≤ m) {l : Label} (hl : n.HasLabel l) :
    m.labels[l.index]? = n.labels[l.index]? := by
  obtain ⟨rest, hr⟩ := h.2
  rw [← Array.getElem?_toList, ← Array.getElem?_toList, ← hr]
  exact List.getElem?_append_left (by simpa [HasLabel] using hl)

theorem getElem?_labels_of_lookup {n : Names} {name : String} {l : Label}
    (h : n.lookup name = some l) : n.labels[l.index]? = some (some name) := by
  obtain ⟨i, hi, rfl⟩ := Option.map_eq_some_iff.mp h
  obtain ⟨hlt, heq, -⟩ := Array.findIdx?_eq_some_iff_getElem.mp hi
  rw [Array.getElem?_eq_getElem hlt]
  exact congrArg some (by simpa using heq)

theorem textOf_of_lookup {n : Names} {name : String} {l : Label}
    (h : n.lookup name = some l) : n.textOf l = name := by
  simp only [textOf, getElem?_labels_of_lookup h]

theorem hasLabel_of_lookup {n : Names} {name : String} {l : Label}
    (h : n.lookup name = some l) : n.HasLabel l := by
  have hget := getElem?_labels_of_lookup h
  exact (Array.getElem?_eq_some_iff.mp hget).1

theorem named_lookup (n : Names) (name : String) :
    (n.named name).2.lookup name = some (n.named name).1 := by
  unfold named
  cases h : n.lookup name with
  | some l => exact h
  | none =>
    rw [lookup_eq] at h ⊢
    have hnone : n.labels.toList.findIdx? (· == some name) = none := by
      simpa using h
    simp only [Array.toList_push, List.findIdx?_append, hnone]
    simp [List.findIdx?_cons]

theorem le_named (n : Names) (name : String) : n ≤ (n.named name).2 := by
  unfold named
  cases n.lookup name with
  | some l => exact le_refl n
  | none =>
    refine ⟨Nat.le_refl _, ?_⟩
    simp only [Array.toList_push]
    exact List.prefix_append _ _

end Names

/-! ## Labels without a text -/

/-- Between these names, these labels were drawn, each once and without a text. -/
structure Names.Supplies (n n' : Names) (labels : List Label) : Prop where
  le : n ≤ n'
  nodup : labels.Nodup
  drawn : ∀ l ∈ labels, n.labels.size ≤ l.index ∧ n'.labels[l.index]? = some none

namespace Names

variable {n n₁ n' : Names} {labels labels' : List Label}

theorem supplies_nil (h : n ≤ n') : n.Supplies n' [] :=
  ⟨h, List.nodup_nil, fun _ hl => absurd hl List.not_mem_nil⟩

theorem supplies_newLabel (n : Names) : n.Supplies n.newLabel.2 [⟨n.labels.size⟩] where
  le := le_newLabel n
  nodup := by simp
  drawn l hl := by
    obtain rfl := List.mem_singleton.mp hl
    simp

namespace Supplies

theorem hasLabel (h : n.Supplies n' labels) {l : Label} (hl : l ∈ labels) : n'.HasLabel l :=
  (Array.getElem?_eq_some_iff.mp (h.drawn l hl).2).1

theorem not_mem (h : n.Supplies n' labels) {l : Label} (hl : n.HasLabel l) : l ∉ labels :=
  fun hmem => Nat.not_lt_of_le (h.drawn l hmem).1 hl

theorem perm (h : n.Supplies n' labels) (hp : labels.Perm labels') : n.Supplies n' labels' :=
  ⟨h.le, hp.nodup_iff.mp h.nodup, fun l hl => h.drawn l (hp.mem_iff.mpr hl)⟩

/-- Labels that are drawn later are others. -/
theorem append (h : n.Supplies n₁ labels) (h' : n₁.Supplies n' labels') :
    n.Supplies n' (labels ++ labels') where
  le := le_trans h.le h'.le
  nodup := by
    refine List.nodup_append.mpr ⟨h.nodup, h'.nodup, ?_⟩
    rintro l hl _ hl' rfl
    exact h'.not_mem (h.hasLabel hl) hl'
  drawn l hl := by
    rcases List.mem_append.mp hl with hl | hl
    · refine ⟨(h.drawn l hl).1, ?_⟩
      rw [getElem?_labels_of_le h'.le (h.hasLabel hl)]
      exact (h.drawn l hl).2
    · exact ⟨Nat.le_trans (labels_le h.le) (h'.drawn l hl).1, (h'.drawn l hl).2⟩

theorem of_le (h : n₁.Supplies n' labels) (hle : n ≤ n₁) : n.Supplies n' labels :=
  (supplies_nil hle).append h

theorem mono (h : n.Supplies n₁ labels) (hle : n₁ ≤ n') : n.Supplies n' labels := by
  have hall := h.append (supplies_nil hle)
  rwa [List.append_nil] at hall

end Supplies

end Names

/-! ## Steps of a pass -/

namespace Build

/-- What holds of the result of a pass can be found out by running the pass. -/
instance decidableResult {ε σ α : Type} {x : EStateM.Result ε σ α} {P : α → σ → Prop}
    [∀ a s, Decidable (P a s)] : Decidable (∃ a s, x = .ok a s ∧ P a s) :=
  match x with
  | .ok a s => decidable_of_iff (P a s)
      ⟨fun h => ⟨a, s, rfl, h⟩, fun ⟨_, _, heq, h⟩ => by cases heq; exact h⟩
  | .error _ _ => isFalse (by simp)

instance decidableSucceeds {ε σ α : Type} (x : EStateM.Result ε σ α) :
    Decidable (∃ a s, x = .ok a s) :=
  match x with
  | .ok a s => isTrue ⟨a, s, rfl⟩
  | .error _ _ => isFalse (by simp)

variable {α β : Type} {s s' : Session}

theorem ok_iff {x : Build α} {a b : α} {t : Session} (h : x s = .ok a t) :
    x s = .ok b s' ↔ b = a ∧ s' = t := by
  rw [h]
  constructor
  · rintro ⟨⟩
    exact ⟨rfl, rfl⟩
  · rintro ⟨rfl, rfl⟩
    rfl

theorem pure_ok {a b : α} : (pure a : Build α) s = .ok b s' ↔ b = a ∧ s' = s := ok_iff rfl

theorem bind_ok {x : Build α} {f : α → Build β} {b : β} :
    (x >>= f) s = .ok b s' ↔ ∃ a t, x s = .ok a t ∧ f a t = .ok b s' := by
  show EStateM.bind x f s = .ok b s' ↔ _
  unfold EStateM.bind
  cases x s with
  | ok a t =>
    constructor
    · exact fun h => ⟨a, t, rfl, h⟩
    · rintro ⟨_, _, h, h'⟩
      cases h
      exact h'
  | error e t =>
    constructor
    · intro h
      cases h
    · rintro ⟨_, _, h, -⟩
      cases h

theorem bind_of_ok {x : Build α} {f : α → Build β} {a : α} (h : x s = .ok a s') :
    (x >>= f) s = f a s' := by
  show EStateM.bind x f s = _
  rw [EStateM.bind, h]

theorem bind_of_error {x : Build α} {f : α → Build β} {e : Failure} (h : x s = .error e s') :
    (x >>= f) s = .error e s' := by
  show EStateM.bind x f s = _
  rw [EStateM.bind, h]

theorem newTemp_ok {t : Temp} :
    newTemp s = .ok t s' ↔
      t = ⟨s.names.temps⟩ ∧ s' = { s with names := s.names.newTemp.2 } := ok_iff rfl

theorem newLabel_ok {l : Label} :
    newLabel s = .ok l s' ↔
      l = ⟨s.names.labels.size⟩ ∧ s' = { s with names := s.names.newLabel.2 } := ok_iff rfl

theorem namedLabel_ok {name : String} {l : Label} :
    namedLabel name s = .ok l s' ↔
      l = (s.names.named name).1 ∧ s' = { s with names := (s.names.named name).2 } := ok_iff rfl

theorem textOf_ok {l : Label} {t : String} :
    textOf l s = .ok t s' ↔ t = s.names.textOf l ∧ s' = s := ok_iff rfl

theorem note_eq (n : Note) (s : Session) :
    note n s = .ok () { s with notes := n :: s.notes } := rfl

theorem note_ok {n : Note} {u : Unit} :
    note n s = .ok u s' ↔ s' = { s with notes := n :: s.notes } :=
  (ok_iff rfl).trans (and_iff_right rfl)

theorem defect_ok {loc : Location} {d : Defect} {a : α} :
    defect loc d s = .ok a s' ↔ False := ⟨nofun, False.elim⟩

theorem exactly_ok {x : Except Overflow α} {a : α} :
    exactly x s = .ok a s' ↔ x = .ok a ∧ s' = s := by
  cases x with
  | ok b => exact (ok_iff rfl).trans (and_congr_left' (by rw [Except.ok.injEq, eq_comm]))
  | error c => exact ⟨nofun, nofun⟩

end Build

/-! ## Steps of a pass that keeps tables -/

section Tables

variable {σ α β : Type} {t t' : σ} {s s' : Session}

theorem stateT_ok_iff {x : StateT σ Build α} {a b : α} {t₁ : σ} {s₁ : Session}
    (h : x t s = .ok (a, t₁) s₁) :
    x t s = .ok (b, t') s' ↔ b = a ∧ t' = t₁ ∧ s' = s₁ := by
  rw [Build.ok_iff h, Prod.mk.injEq, and_assoc]

theorem stateT_pure_ok {a b : α} :
    (pure a : StateT σ Build α) t s = .ok (b, t') s' ↔ b = a ∧ t' = t ∧ s' = s :=
  stateT_ok_iff rfl

theorem stateT_bind_ok {x : StateT σ Build α} {f : α → StateT σ Build β} {b : β} :
    (x >>= f) t s = .ok (b, t') s' ↔
      ∃ a t₁ s₁, x t s = .ok (a, t₁) s₁ ∧ f a t₁ s₁ = .ok (b, t') s' := by
  show (x t >>= fun p => f p.1 p.2) s = .ok (b, t') s' ↔ _
  rw [Build.bind_ok]
  constructor
  · rintro ⟨⟨a, t₁⟩, s₁, h, h'⟩
    exact ⟨a, t₁, s₁, h, h'⟩
  · rintro ⟨a, t₁, s₁, h, h'⟩
    exact ⟨(a, t₁), s₁, h, h'⟩

theorem stateT_lift_ok {x : Build α} {a : α} :
    (liftM x : StateT σ Build α) t s = .ok (a, t') s' ↔ x s = .ok a s' ∧ t' = t := by
  show (x >>= fun a => pure (a, t)) s = .ok (a, t') s' ↔ _
  rw [Build.bind_ok]
  constructor
  · rintro ⟨b, u, h, h'⟩
    obtain ⟨h₁, rfl⟩ := Build.pure_ok.mp h'
    cases h₁
    exact ⟨h, rfl⟩
  · rintro ⟨h, rfl⟩
    exact ⟨a, s', h, rfl⟩

theorem stateT_get_ok {a : σ} :
    (get : StateT σ Build σ) t s = .ok (a, t') s' ↔ a = t ∧ t' = t ∧ s' = s :=
  stateT_ok_iff rfl

theorem stateT_set_ok {a : σ} {u : PUnit} :
    (set a : StateT σ Build PUnit) t s = .ok (u, t') s' ↔ t' = a ∧ s' = s :=
  (stateT_ok_iff rfl).trans (and_iff_right rfl)

theorem stateT_modify_ok {f : σ → σ} {u : Unit} :
    (modify f : StateT σ Build Unit) t s = .ok (u, t') s' ↔ t' = f t ∧ s' = s :=
  (stateT_ok_iff rfl).trans (and_iff_right rfl)

end Tables

/-! ## Passes that decide -/

/-- A defect in the body of a function.  Collecting the chunks has two of its own. -/
def Defect.OfBody : Defect → Prop
  | .missingFrame _ | .notLowered _ => False
  | _ => True

/-- A failure that denies `P`: a defect in the body of a function.  Words that leave their range
say nothing about `P`. -/
def Failure.Denies (P : Prop) : Failure → Prop
  | .internal _ d => ¬ P ∧ d.OfBody
  | .overflow _ => True
  | _ => False

theorem Failure.Denies.mono {P P' : Prop} {e : Failure} (h : e.Denies P) (hP : P' → P) :
    e.Denies P' := by
  cases e with
  | internal loc d => exact ⟨fun hp => h.1 (hP hp), h.2⟩
  | overflow cause => trivial
  | exhausted | config | missingEntry => exact h

namespace Build

/-- A pass succeeds exactly if `P`, with a result of which `Q` holds, and else reports a defect in
the body of a function, unless a word leaves its range first. -/
def Decides {α : Type} (x : Build α) (P : Prop) (Q : α → Prop) : Prop :=
  ∀ s, match x s with
    | .ok a _ => P ∧ Q a
    | .error e _ => e.Denies P

section Decides

variable {α β : Type} {x : Build α} {f : α → Build β} {P P' : Prop} {Q Q₁ : α → Prop}
  {Q' : β → Prop} {s s' : Session}

theorem Decides.ok (h : Decides x P Q) {a : α} (hx : x s = .ok a s') : P ∧ Q a := by
  have hs := h s
  rwa [hx] at hs

theorem Decides.error (h : Decides x P Q) {e : Failure} (hx : x s = .error e s') :
    e.Denies P := by
  have hs := h s
  rwa [hx] at hs

theorem decides_of (hok : ∀ {s s' a}, x s = .ok a s' → P ∧ Q a)
    (herror : ∀ {s s' e}, x s = .error e s' → e.Denies P) : Decides x P Q := by
  intro s
  cases hx : x s with
  | ok a t => exact hok hx
  | error e t => exact herror hx

theorem decides_of_ok (h : ∀ s, ∃ a s', x s = .ok a s' ∧ Q a) : Decides x True Q := by
  intro s
  obtain ⟨a, s', hx, hQ⟩ := h s
  rw [hx]
  exact ⟨trivial, hQ⟩

/-- What holds of a result, with the run that gave it. -/
theorem Decides.run (h : Decides x P Q) :
    Decides x P fun a => Q a ∧ ∃ s s', x s = .ok a s' :=
  decides_of (fun hx => ⟨(h.ok hx).1, (h.ok hx).2, _, _, hx⟩) fun hx => h.error hx

theorem decides_accept {a : α} (hP : P) (hQ : Q a) : Decides (pure a) P Q := fun _ => ⟨hP, hQ⟩

theorem decides_pure {a : α} (h : Q a) : Decides (pure a) True Q := decides_accept trivial h

theorem decides_defect {loc : Location} {d : Defect} (h : ¬ P) (hd : d.OfBody) :
    Decides (defect loc d) P Q := fun _ => ⟨h, hd⟩

theorem decides_exactly (y : Except Overflow α) : Decides (exactly y) True (y = .ok ·) := by
  intro s
  cases y with
  | ok a => exact ⟨trivial, rfl⟩
  | error cause => trivial

theorem decides_newTemp : Decides newTemp True fun _ => True :=
  decides_of_ok fun _ => ⟨_, _, rfl, trivial⟩

theorem decides_newLabel : Decides newLabel True fun _ => True :=
  decides_of_ok fun _ => ⟨_, _, rfl, trivial⟩

theorem decides_namedLabel (name : String) : Decides (namedLabel name) True fun _ => True :=
  decides_of_ok fun _ => ⟨_, _, rfl, trivial⟩

theorem decides_textOf (l : Label) : Decides (textOf l) True fun _ => True :=
  decides_of_ok fun _ => ⟨_, _, rfl, trivial⟩

theorem decides_note (n : Note) : Decides (note n) True fun _ => True :=
  decides_of_ok fun _ => ⟨_, _, rfl, trivial⟩

/-- The rule of consequence. -/
theorem Decides.imp (h : Decides x P Q) (hP : P ↔ P') (hQ : ∀ a, Q a → Q₁ a) :
    Decides x P' Q₁ :=
  decides_of (fun hx => ⟨hP.mp (h.ok hx).1, hQ _ (h.ok hx).2⟩) fun hx => (h.error hx).mono hP.mpr

theorem Decides.congr (h : Decides x P Q) (hP : P ↔ P') : Decides x P' Q := h.imp hP fun _ hQ => hQ

/-- Two passes in order decide both conditions. -/
theorem Decides.bind (hx : Decides x P Q) (hf : ∀ a, Q a → Decides (f a) P' Q') :
    Decides (x >>= f) (P ∧ P') Q' := by
  intro s
  cases h : x s with
  | error e t =>
    rw [bind_of_error h]
    exact (hx.error h).mono And.left
  | ok a t =>
    obtain ⟨hP, hQ⟩ := hx.ok h
    rw [bind_of_ok h]
    cases h' : f a t with
    | error e u => exact ((hf a hQ).error h').mono And.right
    | ok b u => exact ⟨⟨hP, ((hf a hQ).ok h').1⟩, ((hf a hQ).ok h').2⟩

/-- The second pass decides alone if its condition needs that of the first. -/
theorem Decides.bind_of_imp (hx : Decides x P Q) (hP : P' → P)
    (hf : ∀ a, Q a → Decides (f a) P' Q') : Decides (x >>= f) P' Q' :=
  (hx.bind hf).congr (and_iff_right_of_imp hP)

/-- A pass that decides nothing before one that does. -/
theorem Decides.then (hx : Decides x True Q) (hf : ∀ a, Q a → Decides (f a) P' Q') :
    Decides (x >>= f) P' Q' :=
  hx.bind_of_imp (fun _ => trivial) hf

/-- A result is put together from that of a pass. -/
theorem Decides.map {g : α → β} (hx : Decides x P Q) (hg : ∀ a, Q a → Q' (g a)) :
    Decides (x >>= fun a => pure (g a)) P Q' :=
  (hx.bind fun a ha => decides_pure (hg a ha)).congr (iff_of_eq (and_true _))

/-! ### Passes that keep tables -/

variable {σ : Type} {t : σ}

/-- A pass that leaves its tables alone. -/
theorem Decides.lift (hx : Decides x P Q) :
    Decides ((liftM x : StateT σ Build α) t) P fun r => Q r.1 ∧ r.2 = t :=
  hx.map fun _ ha => ⟨ha, rfl⟩

/-- Two passes in order, the second of which gets the tables of the first. -/
theorem decides_stateT_bind {x : StateT σ Build α} {f : α → StateT σ Build β} {Q : α × σ → Prop}
    {Q' : β × σ → Prop} (hx : Decides (x t) P Q)
    (hf : ∀ a t', Q (a, t') → Decides (f a t') P' Q') : Decides ((x >>= f) t) (P ∧ P') Q' :=
  hx.bind fun r hr => hf r.1 r.2 hr

end Decides

end Build

end MmixBackend
