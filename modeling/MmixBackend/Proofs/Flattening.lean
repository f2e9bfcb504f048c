import MmixBackend.Proofs.Meaning

/-!
# Canonical form takes trees apart

Bringing a statement into canonical form leaves nothing nested, and what directs control (labels,
jumps and branches with their targets) stands in the code once each, in the order in which the tree
is evaluated: the address of a store before its value, operands and arguments from left to right,
and whatever stands in a condition before the branch on it.

The only thing that stops it is a move into something that is neither a temporary nor memory, and
that is reported with the place in the source that was given.
-/

namespace MmixBackend

namespace Ir

open Build

/-! ## Nothing stays nested -/

mutual

/-- No statement stands in the expression. -/
def Expr.isFlat : Expr → Bool
  | .const _ | .name _ | .temp _ => true
  | .mem e | .unary _ e => e.isFlat
  | .binary _ l r => l.isFlat && r.isFlat
  | .call _ _ args => Expr.allFlat args
  | .after .. => false

def Expr.allFlat : List Expr → Bool
  | [] => true
  | e :: es => e.isFlat && Expr.allFlat es

end

/-- No statement stands in the statement. -/
def Stmt.isFlat : Stmt → Bool
  | .move dst src => dst.isFlat && src.isFlat
  | .eval e | .branch e _ _ => e.isFlat
  | .jump _ | .label _ => true
  | .seq _ => false

theorem Expr.isFlat_of_isOperand {e : Expr} (h : e.isOperand) : e.isFlat := by
  cases e with
  | temp t => rfl
  | const | name | mem | binary | unary | call | after => cases h

theorem Expr.allFlat_of_isOperand {es : List Expr} (h : es.all Expr.isOperand) :
    Expr.allFlat es := by
  induction es with
  | nil => rfl
  | cons e es ih =>
    rw [List.all_cons, Bool.and_eq_true] at h
    rw [Expr.allFlat, Bool.and_eq_true]
    exact ⟨Expr.isFlat_of_isOperand h.1, ih h.2⟩

theorem Expr.isFlat_of_isValue : ∀ {e : Expr}, e.isValue → e.isFlat
  | .const _, _ | .name _, _ | .temp _, _ => rfl
  | .binary _ l r, h => by
    rw [Expr.isValue, Bool.and_eq_true] at h
    rw [Expr.isFlat, Bool.and_eq_true]
    exact ⟨Expr.isFlat_of_isOperand h.1, Expr.isFlat_of_isOperand h.2⟩
  | .unary _ e, h => by
    rw [Expr.isValue] at h
    rw [Expr.isFlat]
    exact Expr.isFlat_of_isValue h
  | .call _ _ args, h => by
    rw [Expr.isValue] at h
    rw [Expr.isFlat]
    exact Expr.allFlat_of_isOperand h

theorem Stmt.isFlat_of_isCanonical {st : Stmt} (h : st.isCanonical) : st.isFlat := by
  cases st with
  | label | jump => rfl
  | branch | eval => exact Expr.isFlat_of_isValue h
  | seq => cases h
  | move dst src =>
    rw [Stmt.isFlat, Bool.and_eq_true]
    cases dst with
    | mem addr =>
      rw [Stmt.isCanonical, Bool.and_eq_true] at h
      rw [Expr.isFlat]
      exact ⟨Expr.isFlat_of_isOperand h.1, Expr.isFlat_of_isOperand h.2⟩
    | temp t =>
      refine ⟨rfl, ?_⟩
      cases src with
      | mem addr =>
        rw [Expr.isFlat]
        exact Expr.isFlat_of_isValue h
      | const | name | temp | binary | unary | call | after => exact Expr.isFlat_of_isValue h
    | const | name | binary | unary | call | after => cases h

/-! ## What the code consists of -/

/-- What a statement itself directs. -/
def Stmt.transfer? : Stmt → Option Transfer
  | .label l => some (.label l)
  | .jump l => some (.jump l)
  | .branch _ pos neg => some (.branch pos neg)
  | .move .. | .eval _ | .seq _ => none

mutual

theorem Expr.transfers_of_isFlat : ∀ {e : Expr}, e.isFlat → e.transfers = []
  | .const _, _ | .name _, _ | .temp _, _ => rfl
  | .mem e, h | .unary _ e, h => by
    rw [Expr.isFlat] at h
    exact Expr.transfers_of_isFlat (e := e) h
  | .binary _ l r, h => by
    rw [Expr.isFlat, Bool.and_eq_true] at h
    rw [Expr.transfers, Expr.transfers_of_isFlat h.1, Expr.transfers_of_isFlat h.2,
      List.append_nil]
  | .call _ _ args, h => by
    rw [Expr.isFlat] at h
    exact Expr.listTransfers_of_allFlat args h

theorem Expr.listTransfers_of_allFlat :
    ∀ es : List Expr, Expr.allFlat es → Expr.listTransfers es = []
  | [], _ => rfl
  | e :: es, h => by
    rw [Expr.allFlat, Bool.and_eq_true] at h
    rw [Expr.listTransfers, Expr.transfers_of_isFlat h.1, Expr.listTransfers_of_allFlat es h.2,
      List.append_nil]

end

/-- A statement in which nothing is nested directs only what it itself directs. -/
theorem Stmt.transfers_of_isFlat {st : Stmt} (h : st.isFlat) :
    st.transfers = st.transfer?.toList := by
  cases st with
  | label | jump => rfl
  | branch c pos neg => rw [Stmt.transfers, Expr.transfers_of_isFlat h]; rfl
  | eval e => exact Expr.transfers_of_isFlat h
  | seq => cases h
  | move dst src =>
    rw [Stmt.isFlat, Bool.and_eq_true] at h
    rw [Stmt.transfers, Expr.transfers_of_isFlat h.1, Expr.transfers_of_isFlat h.2]
    rfl

theorem Stmt.listTransfers_of_isFlat {code : List Stmt} (h : ∀ st ∈ code, st.isFlat) :
    Stmt.listTransfers code = code.filterMap Stmt.transfer? := by
  induction code with
  | nil => rfl
  | cons st code ih =>
    obtain ⟨hst, hcode⟩ := List.forall_mem_cons.mp h
    rw [Stmt.listTransfers, ih hcode, Stmt.transfers_of_isFlat hst, List.filterMap_cons]
    cases st.transfer? <;> rfl

/-- A statement has canonical code exactly if all of its moves, however deep, go into temporaries
and memory.  Nothing is nested in the code, and what directs control in it is what does so in the
tree, in the order of evaluation.  Without canonical code, the failure is a move at the place in the
source that was given. -/
theorem Stmt.canonize_closed (loc : Location) (st : Stmt) (s : Session) :
    ((∃ code s', st.canonize loc s = .ok code s') ↔ st.isMovable = true) ∧
      (∀ code s', st.canonize loc s = .ok code s' →
        Ir.isCanonical code = true ∧ (∀ st' ∈ code, st'.isFlat = true) ∧
          code.filterMap Stmt.transfer? = st.transfers) ∧
      ∀ e s', st.canonize loc s = .error e s' →
        ∃ dst : Expr, dst.isPlace = false ∧ e = .internal loc (.moveInto dst) := by
  have haccepts := Stmt.accepts_canonize loc st
  refine ⟨⟨?_, fun hmovable => haccepts.exists_ok hmovable s⟩, ?_,
    fun e s' h => (haccepts.error h).2⟩
  · rintro ⟨code, s', h⟩
    exact haccepts.ok h
  · intro code s' h
    have hcanonical := Stmt.isCanonical_canonize h
    have hflat : ∀ st' ∈ code, st'.isFlat := fun st' hst' =>
      Stmt.isFlat_of_isCanonical (List.all_eq_true.mp hcanonical st' hst')
    exact ⟨hcanonical, hflat,
      (Stmt.listTransfers_of_isFlat hflat).symm.trans (Stmt.transfers_canonize h)⟩

/-- A store that decides where to go on while its address is found; the call below the address of
its value goes back while its argument is found. -/
def winding : Stmt :=
  .seq [.move
    (.mem (.after (.branch (.after (.label ⟨0⟩) (.temp ⟨0⟩)) ⟨1⟩ ⟨2⟩) (.temp ⟨0⟩)))
    (.mem (.unary .neg (.call ⟨9⟩ [0] [.after (.seq [.label ⟨1⟩, .jump ⟨0⟩]) (.const 3)]))),
    .label ⟨2⟩]

/-- Moves into a constant, while the argument of a call is found. -/
def unmovable : Stmt :=
  .eval (.call ⟨9⟩ [0] [.after (.seq [.label ⟨1⟩, .move (.const 0) (.const 1)]) (.const 3)])

theorem Stmt.canonize_closed_winding :
    (∃ code s', winding.canonize {} { names := { temps := 1 } } = .ok code s' ∧
      Ir.isCanonical code = true ∧
      code.filterMap Stmt.transfer? =
        [.label ⟨0⟩, .branch ⟨1⟩ ⟨2⟩, .label ⟨1⟩, .jump ⟨0⟩, .label ⟨2⟩]) ∧
      ∃ e s' dst, unmovable.canonize {} {} = .error e s' ∧ e = .internal {} (.moveInto dst) := by
  constructor
  · obtain ⟨htotal, hcode, -⟩ := Stmt.canonize_closed {} winding { names := { temps := 1 } }
    obtain ⟨code, s', h⟩ := htotal.mpr rfl
    obtain ⟨hcanonical, -, htransfers⟩ := hcode code s' h
    exact ⟨code, s', h, hcanonical, htransfers⟩
  · obtain ⟨htotal, -, herror⟩ := Stmt.canonize_closed {} unmovable {}
    cases h : unmovable.canonize {} {} with
    | ok code s' => cases htotal.mp ⟨code, s', h⟩
    | error e s' =>
      obtain ⟨dst, -, he⟩ := herror e s' h
      exact ⟨e, s', dst, rfl, he⟩

end Ir

end MmixBackend
