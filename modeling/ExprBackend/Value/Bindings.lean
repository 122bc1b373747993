import ExprBackend.Value.Basic

/-! # Bindings

Values by name, in the order in which the names were first bound. A name has one
value; binding it again replaces the value.
-/

namespace ExprBackend

/-- Values by name. -/
structure Bindings where
  entries : List (Text × Value) := []
  deriving DecidableEq

namespace Bindings

def get? (b : Bindings) (name : Text) : Option Value := b.entries.lookup name

/-- Replaces what a name that is there stands for, and otherwise adds the name at the end. -/
def setEntry {α : Type} (name : Text) (value : α) : List (Text × α) → List (Text × α)
  | [] => [(name, value)]
  | (n, v) :: rest =>
    if n == name then (n, value) :: rest else (n, v) :: setEntry name value rest

theorem lookup_cons {κ α : Type} [BEq κ] [LawfulBEq κ] [DecidableEq κ] {entries : List (κ × α)}
    (key name : κ) (v : α) :
    ((key, v) :: entries).lookup name = if name = key then some v else entries.lookup name := by
  by_cases h : name = key <;> simp [List.lookup_cons, h, beq_eq_false_iff_ne.mpr]

theorem lookup_setEntry {α : Type} (name other : Text) (v : α) (entries : List (Text × α)) :
    (setEntry name v entries).lookup other =
      if other = name then some v else entries.lookup other := by
  induction entries with
  | nil => rw [setEntry, lookup_cons]
  | cons entry rest ih =>
    obtain ⟨key, w⟩ := entry
    rw [setEntry]
    by_cases hkey : key = name
    · rw [if_pos (by simpa using hkey), lookup_cons, lookup_cons, hkey]
      by_cases hother : other = name <;> simp [hother]
    · rw [if_neg (by simpa using hkey), lookup_cons, lookup_cons, ih]
      by_cases hother : other = key
      · rw [if_pos hother, if_neg fun h => hkey (hother.symm.trans h), if_pos hother]
      · rw [if_neg hother, if_neg hother]

def set (b : Bindings) (name : Text) (value : Value) : Bindings := ⟨setEntry name value b.entries⟩

/-- Binds several names one after the other, so that the last value of a name counts. -/
def setAll (b : Bindings) (entries : List (Text × Value)) : Bindings :=
  entries.foldl (fun b (name, value) => b.set name value) b

def ofList (entries : List (Text × Value)) : Bindings := setAll {} entries

end Bindings

end ExprBackend
