import MmixBackend.Build
import MmixBackend.Frame
import MmixBackend.Typed.Walk

/-!
# Laying out memory

Variables at top level and string literals get addresses of their own.  Parameters lie one after
another from offset 8 of their function's frame, local variables one below the other under its
frame pointer, and the components of a record one after another from its start.  The area for
arguments is as large as the largest call in the body needs.

A record type is recognised by its first component: once that has a place, the type is done.
-/

namespace MmixBackend

open Typed

/-! ## Components -/

mutual

/-- Places the components of the records that a type mentions. -/
def Typed.Ty.place : Ty → Table DeclId Access → Except Overflow (Table DeclId Access)
  | .ptr target, places => target.place places
  | .array elem _, places => elem.place places
  | .record comps, places =>
    if comps.head?.any (places.contains ·.id) then .ok places
    else Typed.Component.placeFrom 0 comps places
  | .void, places | .char, places | .int, places | .bool, places => .ok places

/-- Places components one after another from an offset. -/
def Typed.Component.placeFrom (offset : Word) :
    List Component → Table DeclId Access → Except Overflow (Table DeclId Access)
  | [], places => .ok places
  | ⟨id, _, ty⟩ :: cs, places => do
    let places ← ty.place (places.insert id (.relative offset 0))
    let n ← ty.size
    let next ← Word.checkedAdd offset n
    Typed.Component.placeFrom next cs places

end

/-! ## Frames -/

abbrev Layouting := StateT Layout Build

namespace Layouting

def place (ty : Ty) : Layouting Unit := do
  let l ← get
  let accesses ← Build.exactly (ty.place l.accesses)
  set { l with accesses }

def access (id : DeclId) (a : Access) : Layouting Unit :=
  modify fun l => { l with accesses := l.accesses.insert id a }

def params (depth : Nat) : Word → List Param → Layouting Unit
  | _, [] => pure ()
  | offset, p :: ps => do
    place p.ty
    access p.id (.relative offset depth)
    let n ← Build.exactly p.ty.size
    params depth (← Build.exactly (Word.checkedAdd offset n)) ps

/-- Bytes of local variables and of arguments found so far in a body. -/
structure Extent where
  locals : Word := 0
  arguments : Word := 0

/-- Makes room for arguments of a total size. -/
def Extent.fit (x : Extent) (size : Word) : Extent :=
  if x.arguments < size then { x with arguments := size } else x

def argumentSizes (sum : Word) : List Expr → Except Overflow Word
  | [] => .ok sum
  | a :: as => do
    let n ← a.ty.size
    let sum ← Word.checkedAdd sum n
    argumentSizes sum as

def locals (depth : Nat) : Extent → List Decl → Layouting Extent
  | x, [] => pure x
  | x, .var v :: ds => do
    place v.ty
    let n ← Build.exactly v.ty.size
    let total ← Build.exactly (Word.checkedAdd x.locals n)
    access v.id (.relative (← Build.exactly (Word.checkedNeg total)) depth)
    locals depth { x with locals := total } ds
  | x, _ :: ds => locals depth x ds

/-- Bytes of a literal: a word for each octet of its text and one for the end. -/
def literalSize (s : String) : Word := Int64.ofNat ((s.utf8ByteSize + 1) * 8)

def visit (depth : Nat) (x : Extent) (e : Expr) : Layouting Extent := do
  place e.ty
  match e with
  | .atom node (.str s) =>
    let label ← Build.newLabel
    modify fun l =>
      { l with literals := l.literals.insert node.id (.absolute label (literalSize s) (some s)) }
    return x
  | .call _ _ args =>
    let total ← Build.exactly (argumentSizes 0 args)
    return x.fit (← Build.exactly (Word.checkedAdd Word.size total))
  | .unary _ .new _ | .unary _ .del _ => return x.fit 16
  | .cast _ ty _ =>
    place ty
    return x
  | .scope _ _ decls => locals depth x decls
  | _ => return x

mutual

/-- Lays out a function at a depth, and then the functions inside it. -/
def routine (depth : Nat) : Routine → Layouting Unit
  | .mk head body inner => do
    let label ← if depth = 0 then Build.namedLabel ("_" ++ head.name) else Build.newLabel
    params depth Word.size head.params
    place head.ret
    let x ← match body with
      | some body => body.within.foldlM (visit depth) {}
      | none => pure {}
    let fp ← Build.newTemp
    let rv ← Build.newTemp
    let frame ← Build.exactly (Frame.make label depth x.locals x.arguments fp rv)
    let text ← Build.textOf label
    Build.note (.framed text depth frame.locals frame.arguments frame.size)
    modify fun l => { l with frames := l.frames.insert head.id frame }
    routines (depth + 1) inner

def routines (depth : Nat) : List Routine → Layouting Unit
  | [] => pure ()
  | r :: rs => do
    routine depth r
    routines depth rs

end

def decl : Decl → Layouting Unit
  | .var v => do
    place v.ty
    let label ← Build.namedLabel ("_" ++ v.name)
    access v.id (.absolute label (← Build.exactly v.ty.size) none)
  | .foreign head => routine 0 (.mk head none [])
  | .fn head body => routine 0 (.mk head (some body) body.routines)

end Layouting

def Typed.Program.layout (p : Program) : Build Layout := do
  let (_, l) ← (p.decls.forM Layouting.decl).run {}
  return l

end MmixBackend
