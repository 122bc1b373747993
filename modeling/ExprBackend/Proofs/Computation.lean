import ExprBackend.Code.Compile

/-! # Running computations

Operations on the heap, evaluations and emissions all pass a state along and may
fail. The lemmas here run them one step at a time: the result of a sequence is
given by the result of its first part. An emission that succeeds has a relational
form, `Emit.Yields`, in which a sequence is a chain of buffers.
-/

namespace ExprBackend

section Application

variable {ε σ α β : Type} {x : ExceptT ε (StateM σ) α} {f : α → ExceptT ε (StateM σ) β} {s s' : σ}

theorem bind_apply (x : ExceptT ε (StateM σ) α) (f : α → ExceptT ε (StateM σ) β) (s : σ) :
    (x >>= f) s = match x s with
      | (.ok a, s') => f a s'
      | (.error e, s') => (.error e, s') := by
  change (match x s with | (a, s') => ExceptT.bindCont f a s') = _
  rcases x s with ⟨_ | a, s'⟩ <;> rfl

theorem pure_apply (a : α) (s : σ) : (pure a : ExceptT ε (StateM σ) α) s = (.ok a, s) := rfl

theorem throw_apply (e : ε) (s : σ) : (throw e : ExceptT ε (StateM σ) α) s = (.error e, s) := rfl

theorem get_apply (s : σ) : (get : ExceptT ε (StateM σ) σ) s = (.ok s, s) := rfl

theorem modify_apply (f : σ → σ) (s : σ) :
    (modify f : ExceptT ε (StateM σ) PUnit) s = (.ok ⟨⟩, f s) := rfl

/-- A sequence gives a result exactly if its first part does and the rest goes on from there. -/
theorem bind_eq_ok {b : β} :
    (x >>= f) s = (.ok b, s') ↔ ∃ a t, x s = (.ok a, t) ∧ f a t = (.ok b, s') := by
  rw [bind_apply]
  rcases x s with ⟨e | a, t⟩
  · constructor
    · intro h
      cases h
    · rintro ⟨a, t', hx, -⟩
      cases hx
  · constructor
    · intro h
      exact ⟨a, t, rfl, h⟩
    · rintro ⟨a', t', hx, hf⟩
      cases hx
      exact hf

theorem bind_of_ok {a : α} (h : x s = (.ok a, s')) : (x >>= f) s = f a s' := by
  rw [bind_apply, h]

theorem bind_of_error {e : ε} (h : x s = (.error e, s')) : (x >>= f) s = (.error e, s') := by
  rw [bind_apply, h]

/-- Sequences agree if their second parts agree on whatever the first part gives. -/
theorem bind_congr_of_ok {g : α → ExceptT ε (StateM σ) β}
    (h : ∀ a s', x s = (.ok a, s') → f a s' = g a s') : (x >>= f) s = (x >>= g) s := by
  rw [bind_apply, bind_apply]
  rcases hx : x s with ⟨_ | a, s'⟩
  · rfl
  · exact h a s' hx

end Application

namespace Emit

variable {α β : Type} {marks : Marks} {c c' : Code} {x : Emit α} {a : α}

/-- The emission succeeds: it gives a result and leaves another buffer. -/
def Yields (x : Emit α) (marks : Marks) (c : Code) (a : α) (c' : Code) : Prop :=
  (x marks c : Except Failure α × Code) = (.ok a, c')

theorem run_bind (x : Emit α) (f : α → Emit β) (marks : Marks) (c : Code) :
    ((x >>= f) marks c : Except Failure β × Code) =
      match (x marks c : Except Failure α × Code) with
      | (.ok a, c') => f a marks c'
      | (.error failure, c') => (.error failure, c') := by
  change ((x marks >>= fun a => f a marks) c : Except Failure β × Code) = _
  rw [bind_apply]
  rcases (x marks c : Except Failure α × Code) with ⟨_ | _, _⟩ <;> rfl

theorem run_get_bind (f : Code → Emit α) (marks : Marks) (c : Code) :
    (((get : Emit Code) >>= f) marks c : Except Failure α × Code) = f c marks c := rfl

theorem yields_bind {f : α → Emit β} {b : β} : (x >>= f).Yields marks c b c' ↔
      ∃ a d, x.Yields marks c a d ∧ (f a).Yields marks d b c' :=
  bind_eq_ok (x := x marks) (f := fun a => f a marks)

theorem yields_pure {b : α} : (pure a : Emit α).Yields marks c b c' ↔ a = b ∧ c = c' := by
  change (Except.ok a, c) = (Except.ok b, c') ↔ _
  simp

theorem yields_get {a : Code} : (get : Emit Code).Yields marks c a c' ↔ c = a ∧ c = c' := by
  change (Except.ok c, c) = (Except.ok a, c') ↔ _
  simp

/-- An emission that first looks at the buffer sees the one it starts with. -/
theorem yields_get_bind {f : Code → Emit α} :
    ((get : Emit Code) >>= f).Yields marks c a c' ↔ (f c).Yields marks c a c' := by
  simp [yields_bind, yields_get, and_assoc]

theorem yields_modify {f : Code → Code} {u : PUnit} :
    (modify f : Emit PUnit).Yields marks c u c' ↔ f c = c' := by
  change (Except.ok PUnit.unit, f c) = (Except.ok u, c') ↔ _
  simp

theorem yields_modifyGet {f : Code → α × Code} :
    (modifyGet f : Emit α).Yields marks c a c' ↔ f c = (a, c') := by
  change (Except.ok (f c).1, (f c).2) = (Except.ok a, c') ↔ _
  rw [Prod.mk.injEq, Except.ok.injEq, Prod.ext_iff]

theorem yields_throw {failure : Failure} :
    (throw failure : Emit α).Yields marks c a c' ↔ False := by
  change (Except.error failure, c) = (Except.ok a, c') ↔ _
  simp

theorem yields_fail {cause : CodeError} : (fail cause : Emit α).Yields marks c a c' ↔ False := by
  rw [fail, yields_bind]
  simp [yields_throw]

theorem yields_stop {f : Fault} : (stop f : Emit α).Yields marks c a c' ↔ False :=
  yields_throw

theorem yields_ite {p : Prop} [Decidable p] {y : Emit α} :
    (if p then x else y).Yields marks c a c' ↔
      p ∧ x.Yields marks c a c' ∨ ¬p ∧ y.Yields marks c a c' := by
  by_cases h : p <;> simp [h]

end Emit

end ExprBackend
