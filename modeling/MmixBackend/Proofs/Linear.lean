import MmixBackend.Machine.Image
import MmixBackend.Proofs.Canonical

/-!
# Where linear code stands

The machine finds its way by positions: a statement by its position, a label by the table of
positions.  `Occupies b p code q` says that the linear form of `code` stands in `b` from
position `p` up to `q`, and that its labels lead where they stand.

Main statement: when no label of the code of a chunk is repeated and its exit label is not among
them, the code of the chunk occupies its body from the start to the end.
-/

namespace MmixBackend

open Ir Build

/-! ## Linear code -/

/-- Does a statement fall through on zero? -/
def Ir.Stmt.isBranch : Stmt → Bool
  | .branch .. => true
  | _ => false

/-- The linear form of code, from these names to those.  A branch gets a label of its own behind it,
and a jump to the label that it went to on zero. -/
inductive Linearizes : Names → List Stmt → List Stmt → Names → Prop
  | nil {n : Names} : Linearizes n [] [] n
  | branch {n n' : Names} {c : Expr} {pos neg : Label} {ss lin : List Stmt} :
      Linearizes n.newLabel.2 ss lin n' → Linearizes n (.branch c pos neg :: ss)
        (.branch c pos ⟨n.labels.size⟩ :: .label ⟨n.labels.size⟩ :: .jump neg :: lin) n'
  | other {n n' : Names} {st : Stmt} {ss lin : List Stmt} : st.isBranch = false →
      Linearizes n ss lin n' → Linearizes n (st :: ss) (st :: lin) n'

theorem linearizes : ∀ {ss lin : List Stmt} {s s' : Session}, linearize ss s = .ok lin s' →
    Linearizes s.names ss lin s'.names
  | [], _, _, _, h => by
    simp only [linearize, pure_ok] at h
    obtain ⟨rfl, rfl⟩ := h
    exact .nil
  | .branch .. :: _, _, _, _, h => by
    simp only [linearize, bind_ok, newLabel_ok, pure_ok] at h
    obtain ⟨_, _, ⟨rfl, rfl⟩, _, _, hrest, rfl, rfl⟩ := h
    exact .branch (linearizes hrest)
  | .move .. :: _, _, _, _, h | .eval _ :: _, _, _, _, h | .jump _ :: _, _, _, _, h
  | .label _ :: _, _, _, _, h | .seq _ :: _, _, _, _, h => by
    simp only [linearize, bind_ok, pure_ok] at h
    obtain ⟨_, _, hrest, rfl, rfl⟩ := h
    exact .other rfl (linearizes hrest)

variable {ss lin : List Stmt}

/-- Linear code has the labels it was made from and those drawn for its branches. -/
theorem Linearizes.supplies {n n' : Names} (h : Linearizes n ss lin n') :
    ∃ fresh, n.Supplies n' fresh ∧
      (Stmt.listLabels lin).Perm (Stmt.listLabels ss ++ fresh) := by
  induction h with
  | nil => exact ⟨[], Names.supplies_nil (Names.le_refl _), List.Perm.refl _⟩
  | branch _ ih =>
    obtain ⟨fresh, hfresh, hperm⟩ := ih
    refine ⟨_, (Names.supplies_newLabel _).append hfresh, List.perm_iff_count.mpr fun l => ?_⟩
    have hcount := hperm.count_eq l
    simp only [Stmt.listLabels, Stmt.labels, List.count_append, List.count_cons,
      List.count_nil] at hcount ⊢
    omega
  | other _ _ ih =>
    obtain ⟨fresh, hfresh, hperm⟩ := ih
    refine ⟨fresh, hfresh, ?_⟩
    rw [Stmt.listLabels, Stmt.listLabels, List.append_assoc]
    exact hperm.append_left _

theorem Linearizes.le {n n' : Names} (h : Linearizes n ss lin n') :
    n ≤ n' := by
  obtain ⟨fresh, hfresh, -⟩ := h.supplies
  exact hfresh.le

/-! ## Positions -/

namespace Machine

variable {l : Label}

theorem targetsFrom_of_not_mem {ss : List Stmt} :
    ∀ {p : Nat} {found : Table Label Nat}, l ∉ Stmt.listLabels ss →
      (targetsFrom p found ss)[l]? = found[l]? := by
  induction ss with
  | nil =>
    intro p found _
    rfl
  | cons st ss ih =>
    intro p found h
    simp only [Stmt.listLabels, List.mem_append, not_or] at h
    cases st with
    | label l' =>
      have hne : l' ≠ l := by
        rintro rfl
        exact h.1 (by simp [Stmt.labels])
      rw [targetsFrom, ih h.2, Table.getElem?_insert_of_ne hne]
    | move | eval | jump | branch | seq => exact ih h.2

/-- A label that is not repeated leads to its position. -/
theorem targetsFrom_label {ss : List Stmt} :
    ∀ {p : Nat} {found : Table Label Nat} {i : Nat}, (Stmt.listLabels ss).Nodup →
      ss[i]? = some (.label l) → (targetsFrom p found ss)[l]? = some (p + i) := by
  induction ss with
  | nil =>
    intro p found i _ h
    cases h
  | cons st ss ih =>
    intro p found i hnd h
    obtain ⟨hnd₁, hnd₂, hdisj⟩ := List.nodup_append.mp hnd
    cases i with
    | zero =>
      obtain rfl : st = .label l := by simpa using h
      have hl : l ∉ Stmt.listLabels ss := fun hm =>
        hdisj l (by simp [Stmt.labels]) l hm rfl
      rw [targetsFrom, targetsFrom_of_not_mem hl, Std.ExtTreeMap.getElem?_insert_self]
      rfl
    | succ i =>
      have h' : ss[i]? = some (.label l) := by simpa using h
      have hnext : ∀ found : Table Label Nat,
          (targetsFrom (p + 1) found ss)[l]? = some (p + (i + 1)) := by
        intro found
        rw [ih hnd₂ h']
        congr 1
        omega
      cases st with
      | label | move | eval | jump | branch | seq => exact hnext _

/-- A label leads to a place where it stands. -/
theorem label_of_targetsFrom {j : Nat} {ss : List Stmt} :
    ∀ {p : Nat} {found : Table Label Nat}, (targetsFrom p found ss)[l]? = some j →
      (∃ i, ss[i]? = some (.label l) ∧ j = p + i) ∨ found[l]? = some j := by
  induction ss with
  | nil => exact Or.inr
  | cons st ss ih =>
    intro p found h
    have hlater : ∀ {found : Table Label Nat}, (targetsFrom (p + 1) found ss)[l]? = some j →
        (∃ i, (st :: ss)[i]? = some (.label l) ∧ j = p + i) ∨ found[l]? = some j := by
      intro found h
      rcases ih h with ⟨i, hi, rfl⟩ | hfound
      · exact Or.inl ⟨i + 1, by simpa using hi, by omega⟩
      · exact Or.inr hfound
    cases st with
    | move | eval | branch | jump | seq => exact hlater h
    | label l' =>
      rcases hlater h with hi | hfound
      · exact Or.inl hi
      · rcases Table.of_getElem?_insert hfound with ⟨rfl, rfl⟩ | ⟨-, hfound⟩
        · exact Or.inl ⟨0, rfl, rfl⟩
        · exact Or.inr hfound

theorem Body.label_of_target {c : CodeChunk} {j : Nat} (h : (Body.ofChunk c).targets[l]? = some j) :
    c.stmts[j]? = some (.label l) := by
  rcases label_of_targetsFrom h with ⟨i, hi, rfl⟩ | hfound
  · rwa [Nat.zero_add]
  · simp at hfound

/-- A label stands at a position, leads there, and is not the way out. -/
structure Body.Marks (b : Body) (l : Label) (p : Nat) : Prop where
  code : b.code[p]? = some (.label l)
  target : b.targets[l]? = some p
  inside : l ≠ b.chunk.exit

/-- The linear form of a statement stands at the positions from `p` up to `q`. -/
def Body.Holds (b : Body) (p : Nat) : Stmt → Nat → Prop
  | .branch c pos neg, q =>
    ∃ fall, b.code[p]? = some (.branch c pos fall) ∧ b.Marks fall (p + 1) ∧
      b.code[p + 2]? = some (.jump neg) ∧ q = p + 3
  | .label l, q => b.Marks l p ∧ q = p + 1
  | st, q => b.code[p]? = some st ∧ q = p + 1

/-- The linear form of code stands at the positions from `p` up to `q`. -/
def Body.Occupies (b : Body) : Nat → List Stmt → Nat → Prop
  | p, [], q => p = q
  | p, st :: ss, q => ∃ r, b.Holds p st r ∧ b.Occupies r ss q

theorem Body.occupies_append {b : Body} {ss ts : List Stmt} :
    ∀ {p q : Nat}, b.Occupies p (ss ++ ts) q ↔ ∃ r, b.Occupies p ss r ∧ b.Occupies r ts q := by
  induction ss with
  | nil =>
    intro p q
    constructor
    · exact fun h => ⟨p, rfl, h⟩
    · rintro ⟨r, rfl, h⟩
      exact h
  | cons st ss ih =>
    intro p q
    constructor
    · rintro ⟨r, hr, h⟩
      obtain ⟨r', h₁, h₂⟩ := ih.mp h
      exact ⟨r', ⟨r, hr, h₁⟩, h₂⟩
    · rintro ⟨r', ⟨r, hr, h₁⟩, h₂⟩
      exact ⟨r, hr, ih.mpr ⟨r', h₁, h₂⟩⟩

theorem Body.occupies_singleton {b : Body} {st : Stmt} {p q : Nat} :
    b.Occupies p [st] q ↔ b.Holds p st q := by
  constructor
  · rintro ⟨r, h, rfl⟩
    exact h
  · exact fun h => ⟨q, h, rfl⟩

/-- Linear code whose labels lead where they stand occupies its positions. -/
theorem Body.occupies_of_linearizes {b : Body} {n n' : Names}
    (hmarks : ∀ p l, b.code[p]? = some (.label l) → b.Marks l p) (h : Linearizes n ss lin n') :
    ∀ {p : Nat}, (∀ j, j < lin.length → b.code[p + j]? = lin[j]?) →
      b.Occupies p ss (p + lin.length) := by
  induction h with
  | nil => exact fun _ => rfl
  | @branch _ _ _ _ _ _ rest _ ih =>
    intro p hcode
    have h₀ := hcode 0 (by simp)
    have h₁ := hcode 1 (by simp)
    have h₂ := hcode 2 (by simp)
    refine ⟨p + 3, ⟨_, by simpa using h₀, hmarks _ _ (by simpa using h₁), by simpa using h₂, rfl⟩,
      ?_⟩
    have hlen : p + (rest.length + 1 + 1 + 1) = p + 3 + rest.length := by omega
    simp only [List.length_cons, hlen]
    refine ih fun j hj => ?_
    have := hcode (j + 3) (by simp only [List.length_cons]; omega)
    rw [Nat.add_assoc, Nat.add_comm 3 j, this]
    simp
  | @other _ _ st _ rest hst _ ih =>
    intro p hcode
    have h₀ : b.code[p]? = some st := by simpa using hcode 0 (by simp)
    have hhead : b.Holds p st (p + 1) := by
      cases st with
      | branch => cases hst
      | label l => exact ⟨hmarks p l h₀, rfl⟩
      | move | eval | jump | seq => exact ⟨h₀, rfl⟩
    refine ⟨p + 1, hhead, ?_⟩
    have hlen : p + (rest.length + 1) = p + 1 + rest.length := by omega
    simp only [List.length_cons, hlen]
    refine ih fun j hj => ?_
    have := hcode (j + 1) (by simp only [List.length_cons]; omega)
    rw [Nat.add_assoc, Nat.add_comm 1 j, this]
    simp

/-- The code of a chunk that repeats no label and does not have its exit label occupies its body
from the start. -/
theorem Body.occupies_ofChunk {c : CodeChunk} {code : List Stmt} {n n' : Names}
    (h : Linearizes n code c.stmts n') (hnd : (Stmt.listLabels c.stmts).Nodup)
    (hexit : c.exit ∉ Stmt.listLabels c.stmts) :
    (Body.ofChunk c).Occupies 0 code c.stmts.length := by
  have hmarks : ∀ p l, (Body.ofChunk c).code[p]? = some (.label l) →
      (Body.ofChunk c).Marks l p := by
    intro p l hp
    have hp' : c.stmts[p]? = some (.label l) := by simpa [Body.ofChunk] using hp
    refine ⟨hp, ?_, ?_⟩
    · have htarget : (targetsFrom 0 ∅ c.stmts)[l]? = some (0 + p) := targetsFrom_label hnd hp'
      simpa [Body.ofChunk] using htarget
    · rintro rfl
      exact hexit (Stmt.mem_listLabels (List.mem_of_getElem? hp') (List.mem_singleton_self _))
  have hocc := Body.occupies_of_linearizes hmarks h (p := 0)
    (fun j _ => by simp [Body.ofChunk])
  simpa using hocc

end Machine

end MmixBackend
