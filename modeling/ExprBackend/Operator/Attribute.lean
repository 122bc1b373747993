import ExprBackend.Heap.Run

/-! # Attributes and methods

Slices have their bounds as attributes, objects their attributes and, bound to
themselves, their methods. Nothing else has attributes.
-/

namespace ExprBackend.Run

def bindMethod (r : Ref) (name : Text) (callee : Value) : Run Value := do
  match callee with
  | .function _ => newFunction (.bound (((← get).object r).name ++ "." ++ name) (.object r) callee)
  | v => stop (.wrongKind v.kind .function)

/-- The attribute of a value, if it has one of that name. -/
def attribute? (base : Value) (name : Text) : Run (Option Value) := do
  match base with
  | .slice r =>
    let (start, stop, step) := (← get).slice r
    return if name == Text.ofString "start" then some start
      else if name == Text.ofString "stop" then some stop
      else if name == Text.ofString "step" then some step
      else none
  | .object r =>
    let o := (← get).object r
    match o.attributes.get? name, o.methods.get? name with
    | some v, _ => return some v
    | none, some callee => return some (← bindMethod r name callee)
    | none, none => return none
  | _ => return none

def attributeOf (base : Value) (name : Text) : Run Value := do
  match ← attribute? base name with
  | some v => pure v
  | none => fail (.noAttribute base.kind name)

def hasAttribute (base : Value) (name : Text) : Run Bool := return (← attribute? base name).isSome

/-- The function to call for a method of a value, and whether the value is to be passed to it as
first argument. -/
def method (base : Value) (name : Text) : Run (Value × Bool) := do
  match base with
  | .object r =>
    let o := (← get).object r
    match o.methods.get? name, o.attributes.get? name with
    | some callee, none => return (callee, true)
    | _, _ => return (← attributeOf base name, false)
  | _ => return (← attributeOf base name, false)

end ExprBackend.Run
