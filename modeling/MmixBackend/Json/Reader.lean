import MmixBackend.Json.Basic

/-!
# Reading JSON

A text is cut into tokens, and the tokens drive a machine with a stack of open arrays and
objects.  Both walks go once over their list.  How deep values are kept is the caller's choice;
deeper ones have to be well-formed all the same.
-/

namespace MmixBackend.Json

/-! ## String literals -/

/-- A piece of a string literal: a character, or a UTF-16 unit from an escape. -/
inductive Piece where
  | char (c : Char)
  | unit (n : Nat)

def hexValue (c : Char) : Option Nat :=
  if '0' ≤ c ∧ c ≤ '9' then some (c.toNat - '0'.toNat)
  else if 'a' ≤ c ∧ c ≤ 'f' then some (c.toNat - 'a'.toNat + 10)
  else if 'A' ≤ c ∧ c ≤ 'F' then some (c.toNat - 'A'.toNat + 10)
  else none

def hexUnit (a b c d : Char) : Option Nat := do
  let a ← hexValue a
  let b ← hexValue b
  let c ← hexValue c
  let d ← hexValue d
  return ((a * 16 + b) * 16 + c) * 16 + d

/-- The character after a backslash, for the escapes of one letter. -/
def shortEscape (c : Char) : Option Char :=
  if c = '"' ∨ c = '\\' ∨ c = '/' then some c
  else if c = 'b' then some (Char.ofNat 8)
  else if c = 'f' then some (Char.ofNat 12)
  else if c = 'n' then some '\n'
  else if c = 'r' then some '\r'
  else if c = 't' then some '\t'
  else none

/-- The pieces of a literal up to its closing quote, and what follows the quote. -/
def scanString : List Char → Option (List Piece × List Char)
  | [] => none
  | '"' :: rest => some ([], rest)
  | '\\' :: 'u' :: a :: b :: c :: d :: rest => do
    let n ← hexUnit a b c d
    let (ps, rest) ← scanString rest
    return (.unit n :: ps, rest)
  | '\\' :: c :: rest => do
    let c ← shortEscape c
    let (ps, rest) ← scanString rest
    return (.char c :: ps, rest)
  | c :: rest =>
    if c.toNat < 0x20 then none
    else do
      let (ps, rest) ← scanString rest
      return (.char c :: ps, rest)

/-- The text of a literal's pieces.  A high surrogate and the low one after it are one
character; a surrogate on its own is no text. -/
def assemble : List Piece → Option (List Char)
  | [] => some []
  | .char c :: ps => (assemble ps).map (c :: ·)
  | .unit hi :: .unit lo :: ps =>
    if 0xd800 ≤ hi ∧ hi < 0xdc00 then
      if 0xdc00 ≤ lo ∧ lo < 0xe000 then
        (assemble ps).map (Char.ofNat (0x10000 + (hi - 0xd800) * 0x400 + (lo - 0xdc00)) :: ·)
      else none
    else if 0xdc00 ≤ hi ∧ hi < 0xe000 then none
    else (assemble (.unit lo :: ps)).map (Char.ofNat hi :: ·)
  | .unit n :: ps =>
    if 0xd800 ≤ n ∧ n < 0xe000 then none else (assemble ps).map (Char.ofNat n :: ·)

/-- A literal ends after it starts. -/
theorem scanString_length {cs rest : List Char} {ps : List Piece}
    (h : scanString cs = some (ps, rest)) : rest.length < cs.length := by
  fun_induction scanString cs generalizing ps rest with
  | case1 => cases h
  | case2 => cases h; simp
  | case3 a b c d tail ih =>
    simp only [bind, Option.bind_eq_some_iff, pure, Option.some.injEq, Prod.mk.injEq,
      Prod.exists] at h
    obtain ⟨_, _, ps', rest', h', _, rfl⟩ := h
    have := ih h'
    simp only [List.length_cons]
    omega
  | case4 c tail _ ih =>
    simp only [bind, Option.bind_eq_some_iff, pure, Option.some.injEq, Prod.mk.injEq,
      Prod.exists] at h
    obtain ⟨_, _, ps', rest', h', _, rfl⟩ := h
    have := ih h'
    simp only [List.length_cons]
    omega
  | case5 => cases h
  | case6 c tail _ _ _ _ ih =>
    simp only [bind, Option.bind_eq_some_iff, pure, Option.some.injEq, Prod.mk.injEq,
      Prod.exists] at h
    obtain ⟨ps', rest', h', _, rfl⟩ := h
    have := ih h'
    simp only [List.length_cons]
    omega

/-! ## Numbers and words -/

/-- A character that can be part of a number. -/
def isNumeric (c : Char) : Bool :=
  c.isDigit || c == '-' || c == '+' || c == '.' || c == 'e' || c == 'E'

def digitsValue (ds : List Char) : Nat := ds.foldl (fun n d => n * 10 + (d.toNat - '0'.toNat)) 0

def allDigits (ds : List Char) : Bool := !ds.isEmpty && ds.all Char.isDigit

def isExponent : List Char → Bool
  | [] => true
  | e :: '+' :: ds => (e == 'e' || e == 'E') && allDigits ds
  | e :: '-' :: ds => (e == 'e' || e == 'E') && allDigits ds
  | e :: ds => (e == 'e' || e == 'E') && allDigits ds

def isTail : List Char → Bool
  | '.' :: cs =>
    allDigits (cs.takeWhile Char.isDigit) && isExponent (cs.dropWhile Char.isDigit)
  | cs => isExponent cs

/-- A number from its characters.  Zero is the only number that starts with a zero. -/
def number (cs : List Char) : Option Json :=
  let (negative, body) := match cs with
    | '-' :: body => (true, body)
    | body => (false, body)
  let whole := body.takeWhile Char.isDigit
  let tail := body.dropWhile Char.isDigit
  let wellFormed := match whole with
    | [] => false
    | ['0'] => true
    | '0' :: _ => false
    | _ => true
  if wellFormed && isTail tail then
    let n := digitsValue whole
    if tail.isEmpty then
      if negative then (if n = 0 then some .unusable else some (.int (-(n : Int))))
      else some (.int n)
    else some .unusable
  else none

def word (cs : List Char) : Option Json :=
  let s := String.ofList cs
  if s = "null" then some .null
  else if s = "true" then some (.bool true)
  else if s = "false" then some (.bool false)
  else none

/-! ## Tokens -/

/-- A token: punctuation or a value without parts. -/
inductive Token where
  | openArr
  | closeArr
  | openObj
  | closeObj
  | comma
  | colon
  /-- A string literal, with its text if it has one. -/
  | text (s : Option String)
  /-- A number or a word. -/
  | leaf (v : Json)

def isSpace (c : Char) : Bool := c == ' ' || c == '\n' || c == '\r' || c == '\t'

/-- The punctuation mark that a character is. -/
def mark? (c : Char) : Option Token :=
  if c = '[' then some .openArr
  else if c = ']' then some .closeArr
  else if c = '\x7b' then some .openObj
  else if c = '\x7d' then some .closeObj
  else if c = ',' then some .comma
  else if c = ':' then some .colon
  else none

def literal (ps : List Piece) : Option String := (assemble ps).map String.ofList

theorem length_dropWhile_le (p : Char → Bool) (cs : List Char) :
    (cs.dropWhile p).length ≤ cs.length := (List.dropWhile_suffix p).length_le

/-- The tokens of a text, or `none` where it cannot be cut into tokens. -/
def tokens : List Char → Option (List Token)
  | [] => some []
  | c :: rest =>
    if isSpace c then tokens rest
    else match mark? c with
      | some t => (tokens rest).map (t :: ·)
      | none =>
        if c = '"' then
          match h : scanString rest with
          | some (ps, after) =>
            have : after.length < rest.length := scanString_length h
            (tokens after).map (.text (literal ps) :: ·)
          | none => none
        else if isNumeric c then
          have := length_dropWhile_le isNumeric rest
          match number (c :: rest.takeWhile isNumeric) with
          | some v => (tokens (rest.dropWhile isNumeric)).map (.leaf v :: ·)
          | none => none
        else
          have := length_dropWhile_le Char.isAlpha rest
          match word (c :: rest.takeWhile Char.isAlpha) with
          | some v => (tokens (rest.dropWhile Char.isAlpha)).map (.leaf v :: ·)
          | none => none
termination_by cs => cs.length

/-! ## Values -/

/-- A member of an object whose key may be a literal without a text. -/
abbrev RawMember := Option String × Json

/-- An open array or object with what it holds so far, last first.  An object waits for the
value of a key. -/
inductive Open where
  | arr (items : List Json)
  | obj (members : List RawMember) (key : Option String)

/-- What may come next. -/
inductive Expect where
  | value
  /-- The first item of an array, or its end. -/
  | first
  /-- A key of the object with these members. -/
  | key (members : List RawMember)
  /-- The first key of an object, or its end. -/
  | firstKey
  /-- The colon after a key. -/
  | colon (members : List RawMember) (key : Option String)
  /-- A comma, or the end of what is open, or of the text. -/
  | after (v : Json)

/-- The reader between two tokens. -/
structure Reader where
  stack : List Open
  expect : Expect

def ofText : Option String → Json
  | some s => .str s
  | none => .unusable

def ofMembers (members : List RawMember) : Json :=
  match members.mapM fun (key, v) => key.map (·, v) with
  | some members => .obj members
  | none => .unusable

/-- The array or object that `v` closes. -/
def Open.close (v : Json) : Open → Token → Option Json
  | .arr items, .closeArr => some (.arr (v :: items).reverse)
  | .obj members key, .closeObj => some (ofMembers ((key, v) :: members).reverse)
  | _, _ => none

/-- An array or object inside of `outer` others, if it does not nest too deep. -/
def kept (depth outer : Nat) (v : Json) : Json := if outer < depth then v else .unusable

/-- Starts a value inside of what is open. -/
def Reader.start (stack : List Open) : Token → Option Reader
  | .leaf v => some ⟨stack, .after v⟩
  | .text s => some ⟨stack, .after (ofText s)⟩
  | .openArr => some ⟨.arr [] :: stack, .first⟩
  | .openObj => some ⟨.obj [] none :: stack, .firstKey⟩
  | _ => none

/-- One token; arrays and objects are kept down to a depth. -/
def Reader.step (depth : Nat) (r : Reader) (t : Token) : Option Reader :=
  match r.expect, r.stack, t with
  | .value, stack, _ => start stack t
  | .first, .arr _ :: stack, .closeArr => some ⟨stack, .after (kept depth stack.length (.arr []))⟩
  | .first, stack, _ => start stack t
  | .firstKey, .obj _ _ :: stack, .closeObj =>
    some ⟨stack, .after (kept depth stack.length (.obj []))⟩
  | .firstKey, _ :: stack, .text k => some ⟨stack, .colon [] k⟩
  | .key ms, stack, .text k => some ⟨stack, .colon ms k⟩
  | .colon ms k, stack, .colon => some ⟨.obj ms k :: stack, .value⟩
  | .after v, .arr items :: stack, .comma => some ⟨.arr (v :: items) :: stack, .value⟩
  | .after v, .obj ms k :: stack, .comma => some ⟨stack, .key ((k, v) :: ms)⟩
  | .after v, o :: stack, t =>
    (o.close v t).map fun c => ⟨stack, .after (kept depth stack.length c)⟩
  | _, _, _ => none

/-- The JSON value that a text is, with arrays and objects kept `depth` deep. -/
def parse (depth : Nat) (s : String) : Option Json := do
  let ts ← tokens s.toList
  let r ← ts.foldlM (Reader.step depth) ⟨[], .value⟩
  match r with
  | ⟨[], .after v⟩ => some v
  | _ => none

end MmixBackend.Json
