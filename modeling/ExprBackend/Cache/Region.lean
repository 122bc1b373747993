import ExprBackend.Code.Emit

/-! # Cached expressions

A cache can take over the emission of the expressions it has marked. The code it
emits looks for the value in a dictionary that is new in every call, and computes
it only if it is not there. Expressions that depend on a volatile name, or give a
name a value, are never taken from the dictionary. Interceptors stand in a chain:
what one leaves alone the next may handle.
-/

namespace ExprBackend

/-- The hidden local that holds the dictionary of a call. -/
def cacheSlotName : Text := "<cache>"

def regionCountKey : Text := "cse.regions"

def cacheKey (signature : Text) (ordinal : Int) : Text := signature ++ "#" ++ Text.ofInt ordinal

/-- Whether an expression reads one of the names, or gives any name a value. -/
def Node.dependsOn (names : List Text) (n : Node) : Bool :=
  n.subexpressions.any fun
    | .var name => names.contains name
    | .store _ _ => true
    | _ => false

/-- A name that is given a value becomes volatile; answers given before no longer hold. -/
def Region.assign (r : Region) (name : Text) : Region :=
  if r.volatile.contains name then r
  else { r with volatile := name :: r.volatile, depends := [] }

/-- Whether an expression depends on a volatile name. An answer once given is kept. -/
def Region.readsVolatile (r : Region) (n : Node) : Bool × Region :=
  let signature := HashedText.ofText n.signature
  match r.depends.lookup signature with
  | some answer => (answer, r)
  | none =>
    let answer := n.dependsOn r.volatile
    (answer, { r with depends := (signature, answer) :: r.depends })

def Code.setRegion (c : Code) (id : Nat) (r : Region) : Code :=
  { c with regions := (id, r) :: c.regions.filter (·.1 != id) }

namespace Emit

/-- The region of a cache in the buffer, which is opened when the cache is first used. -/
def region (id : Nat) : Emit Region := do
  match (← get).regions.lookup id with
  | some r => pure r
  | none =>
    let ordinal ← match (← get).scratch.lookup regionCountKey with
      | none => pure 0
      | some (.count n) => pure n
      | some (.value _) => stop .foreignRegionCount
    let r : Region := { ordinal }
    modify fun c => (c.setScratch regionCountKey (.count (ordinal + 1))).setRegion id r
    pure r

/-- Installs a cache as the interceptor of the buffer. The interceptor that was there goes on to
handle what the cache leaves alone. -/
def attach (id : Nat) (volatile : List Text) : Emit Unit := do
  let r ← region id
  let r := match (← get).interceptor with
    | none => r
    | some previous =>
      if previous = Interceptor.cache id then r else { r with next := some previous }
  let r := { r with volatile := volatile ++ r.volatile }
  modify fun c => { c.setRegion id r with interceptor := some (.cache id) }

/-- The slot of the dictionary of a call. It is emptied before all other code when it is first
used. -/
def cacheSlot : Emit Nat := do
  match (← get).slot? cacheSlotName with
  | some slot => pure slot
  | none =>
    let slot ← localSlot cacheSlotName
    prologue do
      loadNone
      storeLocal slot
    pure slot

/-- Emits an expression so that its value is looked up first and kept when it is computed. -/
def cached (ordinal : Int) (n : Node) (emission : Emit Unit) : Emit Unit := do
  let key := cacheKey n.signature ordinal
  let slot ← cacheSlot
  report (.cached (← get).name key)
  let ready ← newLabel
  let miss ← newLabel
  let done ← newLabel
  loadLocal slot
  loadNone
  compare CompareOp.is.code
  jumpIfFalse ready
  buildDict 0
  storeLocal slot
  mark ready
  loadConst (.str key)
  loadLocal slot
  compare CompareOp.isIn.code
  jumpIfFalse miss
  loadLocal slot
  loadConst (.str key)
  getIndex
  jump done
  mark miss
  let before := (← get).depth
  emission
  if !(← get).reachable || height ((← get).depth - before) != 1 then
    fail (.cachedEffect n.signature)
  dup
  loadLocal slot
  loadConst (.str key)
  storeIndex
  mark done

/-- Whether the cache is to take over the emission of an expression. -/
def takesOver (id : Nat) (n : Node) : Emit Bool := do
  if (← read) id n.signature && (← get).reachable then
    let (volatile, r) := (← region id).readsVolatile n
    modify fun c => c.setRegion id r
    return !volatile
  else return false

/-- Lets a chain of interceptors, of at most the given length, take over the emission of an
expression, and tells whether one did. -/
def intercept (n : Node) (emission : Emit Unit) : (length : Nat) → Interceptor → Emit Bool
  | 0, _ => return false
  | _ + 1, .replacement signature v => do
    if n.signature == signature then
      loadConst v
      return true
    else return false
  | length + 1, .cache id => do
    let r ← region id
    if let .store name _ := n then modify fun c => c.setRegion id (r.assign name)
    if ← takesOver id n then
      cached r.ordinal n emission
      return true
    else
      match r.next with
      | some next => intercept n emission length next
      | none => return false

/-- Emits an expression with the given emission of its own, unless an interceptor takes over. -/
def interceptable (n : Node) (emission : Emit Unit) : Emit Unit := do
  let c ← get
  match c.interceptor with
  | none => emission
  | some first => if ← intercept n emission (c.regions.length + 2) first then pure () else emission

end Emit

end ExprBackend
