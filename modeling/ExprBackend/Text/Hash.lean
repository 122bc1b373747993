import ExprBackend.Text.Basic

/-! # Hashes of texts

A hash is a number that equal texts share. A text that is kept together with its
hash is quickly told apart from others, however much they have in common.
-/

namespace ExprBackend

abbrev TextHash := Text → UInt64

/-- The hash that multiplies by a prime after mixing in each byte. -/
def fnv1a : TextHash := fun t =>
  t.foldl (fun h b => (h ^^^ b.toUInt64) * 1099511628211) 14695981039346656037

structure HashedText where
  hash : UInt64
  text : Text
  hash_eq : hash = fnv1a text

namespace HashedText

def ofText (t : Text) : HashedText := ⟨fnv1a t, t, rfl⟩

@[simp] theorem text_ofText (t : Text) : (ofText t).text = t := rfl

/-- The text decides the hash. -/
theorem ext_text {a b : HashedText} (h : a.text = b.text) : a = b := by
  cases a with
  | mk hash text hash_eq =>
    cases b with
    | mk hash' text' hash_eq' =>
      cases h
      cases hash_eq
      cases hash_eq'
      rfl

@[simp] theorem ofText_inj {s t : Text} : ofText s = ofText t ↔ s = t :=
  ⟨fun h => congrArg HashedText.text h, fun h => congrArg ofText h⟩

/-- Equality of texts, which are compared only if their hashes agree. -/
def same (a b : HashedText) : Bool := a.hash == b.hash && a.text == b.text

theorem same_iff {a b : HashedText} : a.same b ↔ a = b :=
  ⟨fun h => ext_text (eq_of_beq (Bool.and_eq_true_iff.1 h).2), fun h => by simp [h, same]⟩

instance : DecidableEq HashedText := fun _ _ => decidable_of_iff _ same_iff

end HashedText

end ExprBackend
