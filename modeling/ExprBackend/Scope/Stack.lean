import ExprBackend.Node.Basic
import ExprBackend.Scope.Identifier
import ExprBackend.Value.Bindings

/-! # Scopes

A scope binds names to expressions. Scopes are stacked: a name is looked up from
the innermost scope outwards. The scopes that a stack was made with are its base
and stay.
-/

namespace ExprBackend

/-- Expressions by name, each name in normal form and once. -/
structure Scope where
  entries : List (Text × Node) := []

namespace Scope

def get? (s : Scope) (name : Text) : Option Node := s.entries.lookup name

def set (s : Scope) (name : Text) (n : Node) : Scope := ⟨Bindings.setEntry name n s.entries⟩

def merge (s other : Scope) : Scope :=
  other.entries.foldl (fun s (name, n) => s.set name n) s

/-- Adds names as they are written to a scope. `seen` holds the names before them, by their normal
form. -/
def normalizeInto (naming : Naming) (s : Scope) (seen : List (Text × Text)) :
    List (Text × Option Node) → Except Error Scope
  | [] => .ok s
  | (name, n) :: rest => do
    let normal ← naming.normalize name
    match n, seen.lookup normal with
    | none, _ => throw (.bind name .boundToNothing)
    | some _, some other => throw (.bind name (.sameIdentifier other))
    | some n, none => normalizeInto naming (s.set normal n) ((normal, name) :: seen) rest

/-- A scope from names as they are written. Every name has to be valid and bound to something, and
no two may have the same normal form. -/
def normalize (naming : Naming) (entries : List (Text × Option Node)) : Except Error Scope :=
  normalizeInto naming {} [] entries

end Scope

structure ScopeStack where
  scopes : List Scope
  /-- How many of them stay. -/
  base : Nat

/-- A request to a stack of scopes. What it has written is there even if it fails. -/
abbrev ScopeRequest := ExceptT Error (StateM ScopeStack)

namespace ScopeStack

def normalizeAll (naming : Naming) :
    List (List (Text × Option Node)) → Except Error (List Scope)
  | [] => .ok []
  | entries :: rest => do
    let s ← Scope.normalize naming entries
    return s :: (← normalizeAll naming rest)

/-- A stack whose base is the given scopes, the outermost first; without any it is an empty
scope. -/
def create (naming : Naming) (scopes : List (List (Text × Option Node))) :
    Except Error ScopeStack := do
  let scopes ← normalizeAll naming (if scopes.isEmpty then [[]] else scopes)
  return { scopes := scopes.reverse, base := scopes.length }

def depth (st : ScopeStack) : Nat := st.scopes.length

def resolve (naming : Naming) (st : ScopeStack) (name : Text) : Except Error Node := do
  let normal ← naming.normalize name
  match st.scopes.findSome? (·.get? normal) with
  | some n => return n
  | none => throw (.unresolved name)

def push (naming : Naming) (entries : List (Text × Option Node)) : ScopeRequest Unit := do
  let s ← Scope.normalize naming entries
  modify fun st => { st with scopes := s :: st.scopes }

/-- Takes the top scope off, unless it belongs to the base. -/
def pop : ScopeRequest Scope := do
  let st ← get
  if st.depth ≤ st.base then throw .scopeUnderflow
  else
    match st.scopes with
    | [] => throw .scopeUnderflow
    | top :: rest =>
      set { st with scopes := rest }
      return top

/-- Adds bindings to the top scope. -/
def bind (naming : Naming) (entries : List (Text × Option Node)) : ScopeRequest Unit := do
  let s ← Scope.normalize naming entries
  modify fun st => { st with scopes := st.scopes.modifyHead (·.merge s) }

end ScopeStack

end ExprBackend
