import ExprBackend.Code.Expression

/-! # Finding expressions worth caching

A cache is a set of marked signatures. Expressions can be marked one by one, or
by an analysis that marks those that occur again: under two different parents,
or twice under one parent in one tree. What the analysis has learned is kept, so
that trees can be analysed one after the other.
-/

namespace ExprBackend

structure Edge where
  parent : HashedText
  child : HashedText

/-- Equality of edges, whose texts are compared only if both hashes agree. -/
def Edge.same (a b : Edge) : Bool :=
  a.child.hash == b.child.hash && a.parent.same b.parent && a.child.same b.child

theorem Edge.same_iff {a b : Edge} : a.same b ↔ a = b := by
  constructor
  · intro h
    have both := Bool.and_eq_true_iff.1 h
    have first := Bool.and_eq_true_iff.1 both.1
    cases a
    cases b
    rw [Edge.mk.injEq]
    exact ⟨HashedText.same_iff.1 first.2, HashedText.same_iff.1 both.2⟩
  · intro h
    simp [h, Edge.same, HashedText.same]

instance : DecidableEq Edge := fun _ _ => decidable_of_iff _ Edge.same_iff

/-- What has been seen of the expressions with one signature. -/
structure Sighting where
  signature : HashedText
  /-- Whether each of them left one value. -/
  eligible : Bool
  /-- The signatures of their parents, each once. -/
  parents : List HashedText

/-- The marked expressions, and what analysis has learned so far. -/
structure Cache where
  marked : List HashedText := []
  sightings : List Sighting := []
  /-- How often a child was seen under a parent in one tree, at most. -/
  counts : List (Edge × Nat) := []

namespace Cache

def isMarked (c : Cache) (signature : Text) : Bool := c.marked.contains (.ofText signature)

def mark (c : Cache) (signature : Text) : Cache :=
  if c.isMarked signature then c else { c with marked := c.marked ++ [.ofText signature] }

def markNode (c : Cache) (n : Node) : Except CompileError Cache :=
  if n.effect = 1 then .ok (c.mark n.signature)
  else .error (.uncacheable n.signature n.effect)

def sighting? (c : Cache) (signature : HashedText) : Option Sighting :=
  c.sightings.find? (·.signature == signature)

def isEligible (c : Cache) (signature : HashedText) : Bool :=
  ((c.sighting? signature).map (·.eligible)).getD false

end Cache

def countEdge (e : Edge) : List (Edge × Nat) → List (Edge × Nat)
  | [] => [(e, 1)]
  | (e', n) :: rest => if e' = e then (e', n + 1) :: rest else (e', n) :: countEdge e rest

def raiseEdge (e : Edge) (n : Nat) : List (Edge × Nat) → List (Edge × Nat)
  | [] => [(e, n)]
  | (e', m) :: rest => if e' = e then (e', max m n) :: rest else (e', m) :: raiseEdge e n rest

def Sighting.add (s : Sighting) (good : Bool) (parent : Option HashedText) : Sighting :=
  { s with
    eligible := good && s.eligible
    parents := match parent with
      | none => s.parents
      | some p => if s.parents.contains p then s.parents else p :: s.parents }

def see (signature : HashedText) (good : Bool) (parent : Option HashedText) :
    List Sighting → List Sighting
  | [] => [Sighting.add ⟨signature, true, []⟩ good parent]
  | s :: rest =>
    if s.signature = signature then s.add good parent :: rest
    else s :: see signature good parent rest

def Cache.learn (c : Cache) (counts : List (Edge × Nat)) (o : Observation) :
    Cache × List (Edge × Nat) :=
  if o.child.isTerminal then (c, counts)
  else
    let signature := HashedText.ofText o.child.signature
    let good := o.net == 1 && o.reachable && o.child.effect == 1
    let parent := o.parent.map Thunk.get
    ({ c with sightings := see signature good parent c.sightings },
      match parent with
      | none => counts
      | some parent => countEdge ⟨parent, signature⟩ counts)

def Cache.learnAll (c : Cache) (observations : List Observation) : Cache × List (Edge × Nat) :=
  observations.foldl (fun (c, counts) o => c.learn counts o) (c, [])

/-- Emits a tree into a buffer of its own and learns from what is observed there. The counts of the
tree are kept only if it could be emitted. -/
def Cache.analyze (c : Cache) (root : Node) : Except Failure Unit × Cache × Array Event :=
  let (result, code) := root.emitInto (fun _ _ => false)
    { Code.create "cse.analysis" [] with observing := true }
  let (learned, counts) := c.learnAll code.observations.toList
  match result with
  | .error failure => (.error failure, learned, code.events)
  | .ok () =>
    let all := counts.foldl (fun all (e, n) => raiseEdge e n all) learned.counts
    (.ok (), { learned with counts := all }, code.events)

/-- Analyses trees one after the other, up to the first that cannot be emitted. -/
def Cache.analyzeAll (c : Cache) : List Node → Except Failure Unit × Cache × Array Event
  | [] => (.ok (), c, #[])
  | root :: rest =>
    match c.analyze root with
    | (.error failure, c, events) => (.error failure, c, events)
    | (.ok (), c, events) =>
      let (result, c, more) := c.analyzeAll rest
      (result, c, events ++ more)

/-- The signatures that occur often enough to be worth caching. -/
def Cache.repeated (c : Cache) : List HashedText :=
  (c.sightings.filter fun s => 2 ≤ s.parents.length).map (·.signature)
    ++ (c.counts.filter fun (_, n) => 2 ≤ n).map fun (e, _) => e.child

/-- Marks the expressions worth caching, and tells which are new. -/
def Cache.markRepeated (c : Cache) : Cache × Array Event :=
  (c.repeated.filter c.isEligible).foldl (fun (marked, events) s =>
    if marked.isMarked s.text then (marked, events)
    else (marked.mark s.text, events.push (.marked s.text))) (c, #[])

def Cache.maybeCache (c : Cache) (roots : List Node) :
    Except Failure Unit × Cache × Array Event :=
  match c.analyzeAll roots with
  | (.error failure, c, events) => (.error failure, c, events)
  | (.ok (), c, events) =>
    let (c, marks) := c.markRepeated
    (.ok (), c, events ++ marks)

end ExprBackend
