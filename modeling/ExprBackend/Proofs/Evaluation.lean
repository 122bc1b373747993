import ExprBackend.Proofs.Assignment

/-! # Parameters and settled names

Parameters have their arguments in the environment in which an expression is
evaluated. If every name that is assigned is a parameter, every name that is read
is settled.
-/

namespace ExprBackend

open List

variable {n : Node} {names : List Text}

/-- Of names that are bound together each has its own value. -/
theorem Bindings.get?_setAll (b : Bindings) (hnodup : names.Nodup) (values : List Value)
    (hlength : values.length = names.length) (name : Text) :
    (b.setAll (names.zip values)).get? name =
      if name ∈ names then some (((names.zip values).lookup name).getD .none) else b.get? name := by
  induction names generalizing b values with
  | nil => simp [setAll]
  | cons first rest ih =>
    match values, hlength with
    | v :: values, hlength =>
      rw [nodup_cons] at hnodup
      rw [length_cons, length_cons, Nat.add_right_cancel_iff] at hlength
      change ((b.set first v).setAll (rest.zip values)).get? name = _
      rw [ih (b.set first v) hnodup.2 values hlength, get?_set, zip_cons_cons, lookup_cons]
      by_cases hname : name = first
      · subst hname
        simp [hnodup.1]
      · simp [hname]

/-! ## Expressions -/

namespace Node

/-- The forms of expression that have a value, unlike a transfer, and whose code does not differ
from their evaluation. -/
def Plain (n : Node) : Prop := n.Regular ∧ n.isNext = false

instance : DecidablePred Plain := fun _ => instDecidableAnd

section Settled

variable {sight : Sight}

theorem after_subset (h : sight.touched ++ (n.assigned ++ names) ⊆ sight.sure) :
    (sight.after n).touched ++ names ⊆ (sight.after n).sure := by
  rw [Sight.after, append_assoc]
  exact Subset.trans h (subset_append_left _ _)

theorem settlesAll_of_subset {ns : List Node}
    (h : ∀ m ∈ ns, ∀ sight : Sight, sight.touched ++ m.assigned ⊆ sight.sure →
      m.settles sight = true)
    (hsight : sight.touched ++ ns.flatMap assigned ⊆ sight.sure) :
    settlesAll sight ns = true := by
  induction ns generalizing sight with
  | nil => rfl
  | cons n rest ih =>
    rw [forall_mem_cons] at h
    rw [flatMap_cons] at hsight
    rw [settlesAll, h.1 sight (by grind), ih h.2 (after_subset hsight)]
    rfl

/-- Where all names that are ever assigned have surely been given a value, every name is settled. -/
theorem settles_of_subset (n : Node) : ∀ sight : Sight,
    sight.touched ++ n.assigned ⊆ sight.sure → n.settles sight = true := by
  induction n using descent with
  | h n ih _ =>
  intro sight hsight
  cases n with
  | var name =>
    rw [settles, Sight.reads]
    by_cases hname : name ∈ sight.touched
    · simp [hsight (mem_append_left _ hname)]
    · simp [hname]
  | store name value =>
    rw [assigned_store] at hsight
    rw [settles]
    exact ih value (by simp) sight (by grind)
  | cond test yes no =>
    simp only [assigned_eq (n := .cond test yes no) (by simp), children, flatMap_cons,
      flatMap_nil, append_nil] at hsight
    have hsight1 := after_subset hsight
    rw [settles, ih test (by simp) sight (by grind), ih yes (by simp) _
      (by grind), ih no (by simp) _]
    · rfl
    · rw [Sight.beside, append_assoc]
      exact hsight1
  | _ =>
    rw [assigned_eq (by simp)] at hsight
    rw [settles_eq (by simp) (by simp)]
    exact settlesAll_of_subset ih hsight

end Settled

end Node

end ExprBackend
