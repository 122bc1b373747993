import ExprBackend.Cache.Region
import ExprBackend.Node.Eval

/-! # Subexpressions

An expression is reasoned about through its operands: what holds of an expression
whenever it holds of its operands holds of every expression, and a property of
all subexpressions is one of the expression itself and of all subexpressions of
its operands.
-/

namespace ExprBackend.Node

open List

attribute [simp] children

@[simp] theorem present_nil : present [] = [] := rfl

@[simp] theorem present_cons (bound : Option Node) (bounds : List (Option Node)) :
    present (bound :: bounds) = bound.toList ++ present bounds := by
  cases bound <;> rfl

theorem visited_eq {n : Node} (h : ∀ rest, n.under (fun _ => true) rest =
    n.children.flatMap subexpressions ++ rest) (rest : List Node) :
    visited (fun _ => true) n (n.under fun _ => true) rest = n.subexpressions ++ rest := by
  simp [subexpressions, walk, visited, h]

mutual

theorem under_eq : ∀ (n : Node) (rest : List Node),
    n.under (fun _ => true) rest = n.children.flatMap subexpressions ++ rest
  | .const _ _, _ | .var _, _ => by simp [under]
  | .unary _ operand, rest => by simp [under, visited_eq (under_eq operand)]
  | .binary _ left right, rest => by
    simp [under, visited_eq (under_eq left), visited_eq (under_eq right)]
  | .compare subject links, rest => by
    simp [under, visited_eq (under_eq subject), underLinks_eq links]
  | .logical _ operands, rest => by simp [under, underAll_eq operands]
  | .cond test yes no, rest => by
    simp [under, visited_eq (under_eq test), visited_eq (under_eq yes), visited_eq (under_eq no)]
  | .collection _ elements, rest => by simp [under, underAll_eq elements]
  | .subscript base index, rest => by
    simp [under, visited_eq (under_eq base), visited_eq (under_eq index)]
  | .sliceObj start stop step, rest => by
    simp [under, underBound_eq start, underBound_eq stop, underBound_eq step]
  | .slice base start stop step, rest => by
    simp [under, visited_eq (under_eq base), underBound_eq start, underBound_eq stop,
      underBound_eq step]
  | .attr base _, rest => by simp [under, visited_eq (under_eq base)]
  | .call callee args star keywords doubleStar _, rest => by
    simp [under, visited_eq (under_eq callee), underAll_eq args, underBound_eq star,
      underKeywords_eq keywords, underBound_eq doubleStar]
  | .store _ value, rest => by simp [under, visited_eq (under_eq value)]
  | .sequence steps, rest => by simp [under, underAll_eq steps]
  | .next pair, rest => by simp [under, visited_eq (under_eq pair)]

theorem underAll_eq : ∀ (ns rest : List Node),
    underAll (fun _ => true) ns rest = ns.flatMap subexpressions ++ rest
  | [], _ => by simp [underAll]
  | n :: ns, rest => by simp [underAll, visited_eq (under_eq n), underAll_eq ns]

theorem underLinks_eq : ∀ (links : List (CompareOp × Node)) (rest : List Node),
    underLinks (fun _ => true) links rest = (links.map Prod.snd).flatMap subexpressions ++ rest
  | [], _ => by simp [underLinks]
  | (_, n) :: links, rest => by simp [underLinks, visited_eq (under_eq n), underLinks_eq links]

theorem underKeywords_eq : ∀ (keywords : List (Text × Node)) (rest : List Node),
    underKeywords (fun _ => true) keywords rest =
      (keywords.map Prod.snd).flatMap subexpressions ++ rest
  | [], _ => by simp [underKeywords]
  | (_, n) :: keywords, rest => by
    simp [underKeywords, visited_eq (under_eq n), underKeywords_eq keywords]

theorem underBound_eq : ∀ (bound : Option Node) (rest : List Node),
    underBound (fun _ => true) bound rest = bound.toList.flatMap subexpressions ++ rest
  | none, _ => by simp [underBound]
  | some n, rest => by simp [underBound, visited_eq (under_eq n)]

end

/-- The subexpressions are the expression itself and those of its operands. -/
theorem subexpressions_eq (n : Node) :
    n.subexpressions = n :: n.children.flatMap subexpressions := by
  simp [subexpressions, walk, visited, under_eq]

theorem sizeOf_lt_of_mem_map_snd {α : Type} [SizeOf α] {m : Node} {pairs : List (α × Node)}
    (h : m ∈ pairs.map Prod.snd) : sizeOf m < sizeOf pairs := by
  obtain ⟨⟨a, m⟩, hmem, rfl⟩ := mem_map.mp h
  have hlt := sizeOf_lt_of_mem hmem
  simp only [Prod.mk.sizeOf_spec] at hlt ⊢
  omega

theorem sizeOf_lt_of_mem_toList {m : Node} {bound : Option Node} (h : m ∈ bound.toList) :
    sizeOf m < sizeOf bound := by
  obtain rfl := Option.mem_toList.mp h
  simp

theorem sizeOf_lt_of_mem_children {m n : Node} (h : m ∈ n.children) : sizeOf m < sizeOf n := by
  have hlist : ∀ {ns : List Node}, m ∈ ns → sizeOf m < sizeOf ns := sizeOf_lt_of_mem
  have hlinks := @sizeOf_lt_of_mem_map_snd CompareOp _ m
  have hkeywords := @sizeOf_lt_of_mem_map_snd Text _ m
  have hbound := @sizeOf_lt_of_mem_toList m
  cases n
  case const | var => cases h
  all_goals
    simp only [children, present_cons, present_nil, append_nil, mem_cons,
      mem_append, not_mem_nil, or_false] at h
    simp only [unary.sizeOf_spec, binary.sizeOf_spec, compare.sizeOf_spec, logical.sizeOf_spec,
      cond.sizeOf_spec, collection.sizeOf_spec, subscript.sizeOf_spec, sliceObj.sizeOf_spec,
      slice.sizeOf_spec, attr.sizeOf_spec, call.sizeOf_spec, store.sizeOf_spec,
      sequence.sizeOf_spec, next.sizeOf_spec]
    grind

/-- What holds of an expression whenever it holds of its operands, and of their operands, holds of
every expression. -/
theorem descent {P : Node → Prop}
    (h : ∀ n, (∀ m ∈ n.children, P m) → (∀ m ∈ n.children, ∀ k ∈ m.children, P k) → P n)
    (n : Node) : P n :=
  h n (fun m _ => descent h m) fun m _ k _ => descent h k
termination_by sizeOf n
decreasing_by
  · exact sizeOf_lt_of_mem_children (by assumption)
  · exact Nat.lt_trans (sizeOf_lt_of_mem_children (by assumption))
      (sizeOf_lt_of_mem_children (by assumption))

/-- The expression that is evaluated for the function of a call: of a method, what has it. -/
def origin : Node → Bool → Node
  | .attr base _, true => base
  | callee, _ => callee

/-- The expressions that are evaluated for an expression, in order. -/
def operands : Node → List Node
  | .call callee args star keywords doubleStar method =>
    callee.origin method :: (args ++ (star.toList ++ (keywords.map Prod.snd ++ doubleStar.toList)))
  | .slice base start stop step => base :: (start.toList ++ (stop.toList ++ step.toList))
  | n => n.children

/-- A property of an expression and of everything below it. -/
def Everywhere (P : Node → Prop) (n : Node) : Prop := ∀ m ∈ n.subexpressions, P m

instance (P : Node → Prop) [DecidablePred P] (n : Node) : Decidable (n.Everywhere P) :=
  inferInstanceAs (Decidable (∀ m ∈ n.subexpressions, P m))

theorem everywhere_iff {P : Node → Prop} {n : Node} :
    n.Everywhere P ↔ P n ∧ ∀ m ∈ n.children, m.Everywhere P := by
  simp only [Everywhere, subexpressions_eq n, forall_mem_cons, forall_mem_flatMap]

/-- The names that an expression gives a value to. -/
def assigned (n : Node) : List Text :=
  n.subexpressions.filterMap fun
    | .store name _ => some name
    | _ => none

mutual

theorem effect_eq : ∀ n : Node, n.effect = 0 ∨ n.effect = 1
  | .store _ _ => .inl rfl
  | .sequence steps => lastEffect_eq steps
  | .const _ _ | .var _ | .unary _ _ | .binary _ _ _ | .compare _ _ | .logical _ _ | .cond _ _ _
  | .collection _ _ | .subscript _ _ | .sliceObj _ _ _ | .slice _ _ _ _ | .attr _ _
  | .call _ _ _ _ _ _ | .next _ => .inr rfl

theorem lastEffect_eq : ∀ steps : List Node, lastEffect steps = 0 ∨ lastEffect steps = 1
  | [] => .inr rfl
  | [n] => effect_eq n
  | _ :: n :: rest => lastEffect_eq (n :: rest)

end

theorem lastEffect_cons (n m : Node) (rest : List Node) :
    lastEffect (n :: m :: rest) = lastEffect (m :: rest) := rfl

end ExprBackend.Node
