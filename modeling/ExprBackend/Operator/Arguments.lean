import ExprBackend.Operator.Comparison

/-! # Spreading arguments

Lists and tuples spread into positional arguments and dictionaries into keyword
arguments. A dictionary is built from keys and values that alternate.
-/

namespace ExprBackend.Run

def spreadArguments (v : Value) : Run (List Value) := do
  match (← get).items? v with
  | some items => pure items
  | none => fail (.starArguments v.kind)

/-- The keywords of dictionary entries whose keys are all texts. -/
def keywords : List Dict.Entry → Except RuntimeError (List Keyword)
  | [] => .ok []
  | entry :: rest =>
    match entry.key with
    | .str name => (keywords rest).map (⟨name, entry.value⟩ :: ·)
    | _ => .error .keywordKind

def spreadKeywords (v : Value) : Run (List Keyword) := do
  match v with
  | .dict r => ofExcept (keywords ((← get).dict r).entries)
  | v => fail (.doubleStarArguments v.kind)

def fillDict (d : Dict) : List Value → Run Dict
  | key :: value :: rest => do
    let hash ← dictKey key
    fillDict (d.set hash key value) rest
  | _ => pure d

/-- A new dictionary from keys and values that alternate. -/
def buildDict (items : List Value) : Run Value := do newDict (← fillDict .empty items)

end ExprBackend.Run
