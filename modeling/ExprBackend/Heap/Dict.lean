import ExprBackend.Value.Basic

/-! # Ordered dictionaries

A dictionary has its keys in the order in which they were first set, their values in
the same order, and an index of the places of the keys. Keys are found by their
canonical text, which is the same for keys that count as equal.
-/

namespace ExprBackend

structure Dict.Parts where
  keys : Array Value
  values : Array Value
  /-- The places of the keys by their canonical texts, the last one first. -/
  index : List (Text × Nat)
  deriving DecidableEq

namespace Dict.Parts

def empty : Parts := ⟨#[], #[], []⟩

def find? (p : Parts) (hash : Text) : Option Value := (p.index.lookup hash).bind (p.values[·]?)

/-- Sets the value of a key; a key that is there already keeps its place and its spelling. -/
def set (p : Parts) (hash : Text) (key value : Value) : Parts :=
  match p.index.lookup hash with
  | some place => { p with values := p.values.setIfInBounds place value }
  | none =>
    { keys := p.keys.push key
      values := p.values.push value
      index := (hash, p.keys.size) :: p.index }

/-- There are as many values as keys, and the index has each place of a key once, under a text of
its own. -/
structure InStep (p : Parts) : Prop where
  paired : p.values.size = p.keys.size
  placed : p.index.map Prod.snd = (List.range p.keys.size).reverse
  distinct : (p.index.map Prod.fst).Nodup

theorem inStep_empty : empty.InStep := ⟨rfl, rfl, List.nodup_nil⟩

/-- Keys, values and index stay in step when a key is set. -/
theorem InStep.set {p : Parts} (h : p.InStep) (hash : Text) (key value : Value) :
    (p.set hash key value).InStep := by
  unfold Parts.set
  split
  next => exact ⟨by simp [h.paired], h.placed, h.distinct⟩
  next hnew =>
    refine ⟨by simp [h.paired], by simp [h.placed, List.range_succ], ?_⟩
    refine List.nodup_cons.mpr ⟨fun hmem => ?_, h.distinct⟩
    obtain ⟨entry, hentry, rfl⟩ := List.mem_map.mp hmem
    simpa using List.lookup_eq_none_iff.mp hnew entry hentry

end Dict.Parts

/-- Keys and values with an index, all in step. -/
structure Dict extends Dict.Parts where
  inStep : toParts.InStep
  deriving DecidableEq

structure Dict.Entry where
  /-- The canonical text of the key. -/
  hash : Text
  key : Value
  value : Value
  deriving DecidableEq

namespace Dict

def empty : Dict := ⟨.empty, Parts.inStep_empty⟩

def size (d : Dict) : Nat := d.keys.size

def set (d : Dict) (hash : Text) (key value : Value) : Dict :=
  ⟨d.toParts.set hash key value, d.inStep.set hash key value⟩

/-- The entries, the one whose key was set last first. -/
def latest (d : Dict) : List Entry :=
  d.index.map fun (hash, place) =>
    ⟨hash, d.keys[place]?.getD .none, d.values[place]?.getD .none⟩

/-- The entries in the order of their keys' first appearance. -/
def entries (d : Dict) : List Entry := d.latest.reverse

end Dict

end ExprBackend
