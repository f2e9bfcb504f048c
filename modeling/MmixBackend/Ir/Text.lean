import MmixBackend.Ir.Expr

/-!
# Intermediate code as text

Two notations.  `text` and `lines` are the readable one, with the texts of labels; a sequence is
indented below its head.  `form` spells a tree out constructor by constructor and is used where
a report has to show a tree exactly.
-/

namespace MmixBackend.Ir

mutual

def Expr.text (names : Names) : Expr → String
  | .const v => "CONST(" ++ Word.text v ++ ")"
  | .name l => "NAME(" ++ names.textOf l ++ ")"
  | .temp t => "TEMP(" ++ t.text ++ ")"
  | .mem a => "MEM(" ++ a.text names ++ ")"
  | .binary op l r =>
    "BINOP(" ++ op.mnemonic ++ "," ++ l.text names ++ "," ++ r.text names ++ ")"
  | .unary op e => "UNOP(" ++ op.mnemonic ++ "," ++ e.text names ++ ")"
  | .call f offsets args =>
    "CALL[" ++ names.textOf f ++ "](" ++
      String.intercalate "," (Expr.argTexts names offsets args) ++ ")"
  | .after s e =>
    "SEXPR(\x7b" ++ String.intercalate "; " (s.linesAt names "") ++ "\x7d," ++ e.text names ++ ")"

/-- Arguments with their offsets, as many as there are of both. -/
def Expr.argTexts (names : Names) : List Word → List Expr → List String
  | offset :: offsets, arg :: args =>
    (Word.text offset ++ ":" ++ arg.text names) :: Expr.argTexts names offsets args
  | _, _ => []

/-- The lines of a statement, each behind a margin. -/
def Stmt.linesAt (names : Names) (margin : String) : Stmt → List String
  | .move dst src => [margin ++ "MOVE(" ++ dst.text names ++ "," ++ src.text names ++ ")"]
  | .eval e => [margin ++ "ESTMT(" ++ e.text names ++ ")"]
  | .branch c pos neg =>
    [margin ++ "CJUMP(" ++ c.text names ++ "," ++ names.textOf pos ++ "," ++ names.textOf neg ++
      ")"]
  | .jump l => [margin ++ "JUMP(" ++ names.textOf l ++ ")"]
  | .label l => [margin ++ "LABEL(" ++ names.textOf l ++ ")"]
  | .seq ss => (margin ++ "SEQ") :: Stmt.listLinesAt names (margin ++ "  ") ss

def Stmt.listLinesAt (names : Names) (margin : String) : List Stmt → List String
  | [] => []
  | s :: ss => s.linesAt names margin ++ Stmt.listLinesAt names margin ss

end

def Stmt.lines (names : Names) (s : Stmt) : List String := s.linesAt names ""

/-! ## The constructor form -/

def tempForm (t : Temp) : String := "Temp(" ++ toString t.index ++ ")"

def labelForm (l : Label) : String := "Label(" ++ toString l.index ++ ")"

def unOpForm : UnOp → String
  | .neg => "Neg"
  | .not => "Not"

def fieldsForm (constructor : String) (fields : List (String × String)) : String :=
  constructor ++ " \x7b " ++ String.intercalate ", " (fields.map fun (k, v) => k ++ ": " ++ v) ++
    " \x7d"

def listForm (items : List String) : String := "[" ++ String.intercalate ", " items ++ "]"

mutual

def Expr.form : Expr → String
  | .const v => "Const(" ++ Word.text v ++ ")"
  | .name l => "Name(" ++ labelForm l ++ ")"
  | .temp t => "Temp(" ++ tempForm t ++ ")"
  | .mem a => "Mem(" ++ a.form ++ ")"
  | .binary op l r => fieldsForm "Binary" [("op", op.name), ("lhs", l.form), ("rhs", r.form)]
  | .unary op e => fieldsForm "Unary" [("op", unOpForm op), ("expr", e.form)]
  | .call f offsets args =>
    fieldsForm "Call" [("label", labelForm f), ("offsets", listForm (offsets.map Word.text)),
      ("args", listForm (Expr.listForms args))]
  | .after s e => "SExpr(" ++ s.form ++ ", " ++ e.form ++ ")"

def Expr.listForms : List Expr → List String
  | [] => []
  | e :: es => e.form :: Expr.listForms es

def Stmt.form : Stmt → String
  | .move dst src => fieldsForm "Move" [("dst", dst.form), ("src", src.form)]
  | .eval e => "Expr(" ++ e.form ++ ")"
  | .branch c pos neg =>
    fieldsForm "CJump" [("cond", c.form), ("pos", labelForm pos), ("neg", labelForm neg)]
  | .jump l => "Jump(" ++ labelForm l ++ ")"
  | .label l => "Label(" ++ labelForm l ++ ")"
  | .seq ss => "Seq(" ++ listForm (Stmt.listForms ss) ++ ")"

def Stmt.listForms : List Stmt → List String
  | [] => []
  | s :: ss => s.form :: Stmt.listForms ss

end

end MmixBackend.Ir
