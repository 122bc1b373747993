import ExprBackend.Proofs.Annotation

/-! # The course of the stack

The code of an expression settles how high the stack is along it, and where it
can be reached. None of this depends on the buffer that the code goes into: the
labels of an expression are its own, but for the top of the dispatch loop. So the
course of the stack can be told from the expression alone, given the standing in
which the code starts. A course also tells at which heights code goes back to the
top of the loop, and whether each instruction finds its operands.
-/

namespace ExprBackend

/-- What is learnt along a stretch of code. -/
structure Log where
  size : Nat
  /-- Whether the instructions that can be reached find their operands. -/
  fed : Bool
  /-- The heights at which the code goes back to the top of the loop. -/
  transfers : List Int
  deriving DecidableEq

namespace Log

def empty : Log := ⟨0, true, []⟩

instance : Append Log :=
  ⟨fun a b => ⟨a.size + b.size, a.fed && b.fed, a.transfers ++ b.transfers⟩⟩

@[simp] theorem append_size (a b : Log) : (a ++ b).size = a.size + b.size := rfl

@[simp] theorem append_fed (a b : Log) : (a ++ b).fed = (a.fed && b.fed) := rfl

@[simp] theorem append_transfers (a b : Log) :
    (a ++ b).transfers = a.transfers ++ b.transfers := rfl

@[simp] theorem empty_size : empty.size = 0 := rfl

@[simp] theorem empty_fed : empty.fed = true := rfl

@[simp] theorem empty_transfers : empty.transfers = [] := rfl

@[simp] theorem append_empty (log : Log) : log ++ empty = log := by
  obtain ⟨size, fed, transfers⟩ := log
  change (⟨size + 0, fed && true, transfers ++ []⟩ : Log) = _
  rw [Nat.add_zero, Bool.and_true, List.append_nil]

@[simp] theorem empty_append (log : Log) : empty ++ log = log := by
  obtain ⟨size, fed, transfers⟩ := log
  change (⟨0 + size, true && fed, [] ++ transfers⟩ : Log) = _
  rw [Nat.zero_add, Bool.true_and, List.nil_append]

theorem append_assoc (a b c : Log) : a ++ b ++ c = a ++ (b ++ c) := by
  change (⟨a.size + b.size + c.size, a.fed && b.fed && c.fed,
    a.transfers ++ b.transfers ++ c.transfers⟩ : Log) = _
  rw [Nat.add_assoc, Bool.and_assoc, List.append_assoc]
  rfl

end Log

/-- A course leads from a standing to another, unless the code is refused. -/
def Course (α : Type) : Type := Standing → Option (α × Standing × Log)

namespace Course

variable {α β : Type} {x : Course α} {f : α → Course β} {s s' : Standing} {log : Log}

instance : Monad Course where
  pure a := fun s => some (a, s, .empty)
  bind x f := fun s => (x s).bind fun first => (f first.1 first.2.1).map fun second =>
    (second.1, second.2.1, first.2.2 ++ second.2.2)

theorem bind_apply (x : Course α) (f : α → Course β) (s : Standing) :
    (x >>= f) s = (x s).bind fun first => (f first.1 first.2.1).map fun second =>
      (second.1, second.2.1, first.2.2 ++ second.2.2) := rfl

theorem pure_apply (a : α) (s : Standing) : (pure a : Course α) s = some (a, s, .empty) := rfl

theorem bind_of_none (h : x s = none) : (x >>= f) s = none := by
  rw [bind_apply, h, Option.bind_none]

theorem bind_of_some {a : α} (h : x s = some (a, s', log)) :
    (x >>= f) s = (f a s').map fun second =>
      (second.1, second.2.1, log ++ second.2.2) := by
  rw [bind_apply, h, Option.bind_some]

theorem bind_eq_some {s'' : Standing} {b : β} :
    (x >>= f) s = some (b, s'', log) ↔ ∃ a s' first second, x s = some (a, s', first) ∧
      f a s' = some (b, s'', second) ∧ log = first ++ second := by
  constructor
  · intro h
    obtain ⟨⟨a, s', first⟩, hx, h⟩ := Option.bind_eq_some_iff.mp h
    obtain ⟨⟨b', t, second⟩, hf, heq⟩ := Option.map_eq_some_iff.mp h
    cases heq
    exact ⟨a, s', first, second, hx, hf, rfl⟩
  · rintro ⟨a, s', first, second, hx, hf, rfl⟩
    rw [bind_of_some hx, hf]
    rfl

theorem bind_assoc {γ : Type} (x : Course α) (f : α → Course β) (g : β → Course γ) :
    x >>= f >>= g = x >>= fun a => f a >>= g := by
  funext s
  simp only [bind_apply]
  cases x s with
  | none => rfl
  | some first =>
    simp only [Option.bind_some]
    cases f first.1 first.2.1 with
    | none => rfl
    | some second =>
      simp [Option.map_map, Function.comp_def, Log.append_assoc]

theorem pure_bind (a : α) (f : α → Course β) : pure a >>= f = f a := by
  funext s
  rw [bind_of_some (pure_apply a s)]
  cases f a s with
  | none => rfl
  | some r => simp

/-- An instruction that reads a number of operands and changes the height of the stack. -/
def step (reads : Nat) (change : Int) : Course Unit := fun s =>
  some ((), ⟨height (s.depth + change), s.reachable⟩,
    ⟨1, !s.reachable || decide ((reads : Int) ≤ s.depth), []⟩)

def halt : Course Unit := fun s => some ((), ⟨s.depth, false⟩, .empty)

/-- A jump to a label of which a height is known, or none as long as it is negative. It tells what
is known then. -/
def branch (known : Int) : Course Int := fun s =>
  if s.reachable then
    if 0 ≤ known ∧ known ≠ s.depth then none else some (s.depth, s, .empty)
  else some (known, s, .empty)

/-- The place of a label of which a height is known, or none as long as it is negative. -/
def place (known : Int) : Course Unit := fun s =>
  if s.reachable then
    if 0 ≤ known ∧ known ≠ s.depth then none else some ((), s, .empty)
  else if 0 ≤ known then some ((), ⟨known, true⟩, .empty)
  else some ((), s, .empty)

def jump (known : Int) : Course Int := do
  let known ← branch known
  step 0 0
  halt
  pure known

/-- A conditional jump that pops the value it looks at. -/
def popJump (known : Int) : Course Int := do
  step 1 (-1)
  branch known

/-- A conditional jump that pops the value it looks at only if it does not jump. -/
def jumpOrPop (known : Int) : Course Int := do
  let known ← branch known
  step 1 (-1)
  pure known

theorem jump_eq (known : Int) (s : Standing) :
    jump known s = if s.reachable = true ∧ 0 ≤ known ∧ known ≠ s.depth then none
      else some (if s.reachable then s.depth else known, ⟨height s.depth, false⟩,
        ⟨1, !s.reachable || decide (0 ≤ s.depth), []⟩) := by
  obtain ⟨depth, reachable⟩ := s
  cases reachable with
  | false => simp [jump, branch, step, halt, bind_apply, pure_apply]
  | true =>
    by_cases h : 0 ≤ known ∧ known ≠ depth <;>
      simp [jump, branch, step, halt, bind_apply, pure_apply, h]

theorem popJump_eq (known : Int) (s : Standing) :
    popJump known s =
      if s.reachable = true ∧ 0 ≤ known ∧ known ≠ height (s.depth - 1) then none
      else some (if s.reachable then height (s.depth - 1) else known,
        ⟨height (s.depth - 1), s.reachable⟩, ⟨1, !s.reachable || decide (1 ≤ s.depth), []⟩) := by
  obtain ⟨depth, reachable⟩ := s
  cases reachable with
  | false => simp [popJump, branch, step, bind_apply, Int.sub_eq_add_neg]
  | true =>
    by_cases h : 0 ≤ known ∧ known ≠ height (depth + -1) <;>
      simp [popJump, branch, step, bind_apply, h, Int.sub_eq_add_neg]

theorem jumpOrPop_eq (known : Int) (s : Standing) :
    jumpOrPop known s = if s.reachable = true ∧ 0 ≤ known ∧ known ≠ s.depth then none
      else some (if s.reachable then s.depth else known, ⟨height (s.depth - 1), s.reachable⟩,
        ⟨1, !s.reachable || decide (1 ≤ s.depth), []⟩) := by
  obtain ⟨depth, reachable⟩ := s
  cases reachable with
  | false => simp [jumpOrPop, branch, step, bind_apply, pure_apply, Int.sub_eq_add_neg]
  | true =>
    by_cases h : 0 ≤ known ∧ known ≠ depth <;>
      simp [jumpOrPop, branch, step, bind_apply, pure_apply, h, Int.sub_eq_add_neg]

def jumpLoop : Course Unit := fun s =>
  some ((), ⟨height s.depth, false⟩, ⟨1, true, if s.reachable then [s.depth] else []⟩)

/-- The pair on top of the stack is taken apart, and the code goes back to the top of the loop. -/
def transfer : Course Unit := do
  step 1 1
  step 1 (-1)
  step 1 (-1)
  jumpLoop

def reach (x : Course Unit) : Course Unit := fun s =>
  if s.reachable then x s else some ((), s, .empty)

/-- Code that has to change the height of the stack by a given number if it comes to its end. -/
def promised (effect : Int) (x : Course Unit) : Course Unit := fun s =>
  match x s with
  | none => none
  | some ((), s', log) =>
    if s'.reachable && height (s'.depth - s.depth) != effect then none else some ((), s', log)

theorem promised_eq_some {effect : Int} {x : Course Unit} :
    promised effect x s = some ((), s', log) ↔ x s = some ((), s', log) ∧
      (s'.reachable = true → height (s'.depth - s.depth) = effect) := by
  unfold promised
  cases hx : x s with
  | none => simp
  | some r =>
    obtain ⟨⟨⟩, t, log'⟩ := r
    by_cases hlive : t.reachable = true <;> by_cases hnet : height (t.depth - s.depth) = effect
    all_goals simp [hlive, hnet]
    all_goals grind

end Course

namespace Node

open Course

mutual

/-- The course of the stack along the code of an expression, without the check of its promise. -/
def ownCourse : Node → Course Unit
  | .const _ _ => step 0 1
  | .var _ => step 0 1
  | .unary _ operand => do
    promised operand.effect (ownCourse operand)
    step 1 0
  | .binary _ left right => do
    promised left.effect (ownCourse left)
    promised right.effect (ownCourse right)
    step 2 (-1)
  | .compare subject links => do
    promised subject.effect (ownCourse subject)
    match links with
    | [(_, operand)] => do
      promised operand.effect (ownCourse operand)
      step 2 (-1)
    | links => do
      let cleanup ← courseLinks (-1) links
      let done ← jump (-1)
      place cleanup
      step 2 0
      step 1 (-1)
      place done
  | .logical _ operands => do place (← courseOperands (-1) operands)
  | .cond test yes no => do
    promised test.effect (ownCourse test)
    let otherwise ← popJump (-1)
    promised yes.effect (ownCourse yes)
    let done ← jump (-1)
    place otherwise
    promised no.effect (ownCourse no)
    place done
  | .collection kind elements => do
    courseAll elements
    match kind with
    | .list | .tuple => step elements.length (1 - elements.length)
    | .dict => step (2 * (elements.length / 2)) (1 - 2 * (elements.length / 2 : Nat))
  | .subscript base index => do
    promised base.effect (ownCourse base)
    promised index.effect (ownCourse index)
    step 2 (-1)
  | .sliceObj start stop step' => do
    courseBound start
    courseBound stop
    courseBound step'
    step 3 (-2)
  | .slice base start stop step' => do
    promised base.effect (ownCourse base)
    courseBound start
    courseBound stop
    courseBound step'
    step 3 (-2)
    step 2 (-1)
  | .attr base _ => do
    promised base.effect (ownCourse base)
    step 1 0
  | .call callee args star keywords doubleStar method => do
    let withReceiver ← match callee, method with
      | .attr base _, true => do
        promised base.effect (ownCourse base)
        step 1 1
        pure true
      | callee, _ => do
        promised callee.effect (ownCourse callee)
        pure false
    courseAll args
    if star.isNone && doubleStar.isNone && keywords.isEmpty then
      if withReceiver then step (args.length + 2) (-args.length - 1)
      else step (args.length + 1) (-args.length)
    else
      step args.length (1 - args.length)
      courseStar star
      courseKeywords keywords
      step (2 * keywords.length) (1 - 2 * keywords.length)
      courseStar doubleStar
      if withReceiver then step 4 (-3) else step 3 (-2)
  | .store _ value => do
    promised value.effect (ownCourse value)
    step 1 (-1)
  | .sequence steps => courseSteps steps
  | .next pair => do
    promised pair.effect (ownCourse pair)
    transfer

def courseAll : List Node → Course Unit
  | [] => pure ()
  | n :: rest => do
    promised n.effect (ownCourse n)
    courseAll rest

/-- The course along a chain of comparisons. It tells what becomes known of the label at which the
chain is left. -/
def courseLinks (known : Int) : List (CompareOp × Node) → Course Int
  | [] => pure known
  | [(_, n)] => do
    promised n.effect (ownCourse n)
    step 2 (-1)
    pure known
  | (_, n) :: rest => do
    promised n.effect (ownCourse n)
    step 1 1
    step 3 0
    step 2 (-1)
    courseLinks (← jumpOrPop known) rest

/-- The course along a short-circuit chain. It tells what becomes known of its end. -/
def courseOperands (known : Int) : List Node → Course Int
  | [] => pure known
  | [n] => do
    promised n.effect (ownCourse n)
    pure known
  | n :: rest => do
    promised n.effect (ownCourse n)
    courseOperands (← jumpOrPop known) rest

def courseSteps : List Node → Course Unit
  | [] => pure ()
  | [n] => promised n.effect (ownCourse n)
  | n :: rest => do
    promised n.effect (ownCourse n)
    reach do
      if 0 < n.effect then step 1 (-1)
      courseSteps rest

def courseBound : Option Node → Course Unit
  | none => step 0 1
  | some n => promised n.effect (ownCourse n)

def courseStar : Option Node → Course Unit
  | none => pure ()
  | some n => do
    promised n.effect (ownCourse n)
    step 2 (-1)

def courseKeywords : List (Text × Node) → Course Unit
  | [] => pure ()
  | (_, n) :: rest => do
    step 0 1
    promised n.effect (ownCourse n)
    courseKeywords rest

end

/-- The course of the stack along the code of an expression. -/
def course (n : Node) : Course Unit := promised n.effect n.ownCourse

end Node

end ExprBackend
