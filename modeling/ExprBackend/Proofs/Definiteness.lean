import ExprBackend.Proofs.EndlessComparison
import ExprBackend.Proofs.Perform

/-! # Operations that come to an end

Every operation on the heap comes to an end, but for a call and for the comparison
of a value that contains itself.
-/

namespace ExprBackend

open List

variable {P : Heap → Heap → Prop} {chunk : Chunk} {α β : Type} {x : Run α}

namespace Run

/-- Where an operation does not come to an end, its heaps before and after are related. -/
def Spends {α : Type} (P : Heap → Heap → Prop) (x : Run α) : Prop :=
  ∀ h h', x h = (.error .exhausted, h') → P h h'

/-- An operation that comes to an end. -/
abbrev Definite {α : Type} (x : Run α) : Prop := Spends (fun _ _ => False) x

section Spends

theorem Definite.spends (hx : Definite x) : Spends P x := fun h h' heq => (hx h h' heq).elim

theorem definite_pure (a : α) : Definite (pure a : Run α) := by
  intro h h' heq
  cases heq

theorem definite_throw {e : Failure} (he : decide (e = .exhausted) = false) :
    Definite (throw e : Run α) := by
  intro h h' heq
  cases heq
  cases he

theorem definite_fail (e : RuntimeError) : Definite (fail e : Run α) := definite_throw rfl

theorem definite_stop (f : Fault) : Definite (stop f : Run α) := definite_throw rfl

theorem definite_modify (f : Heap → Heap) : Definite (modify f : Run PUnit) := by
  intro h h' heq
  cases heq

theorem definite_alloc (cell : Cell) : Definite (alloc cell) := by
  intro h h' heq
  cases heq

theorem definite_ofExcept (x : Except RuntimeError α) : Definite (ofExcept x) := by
  cases x with
  | ok a => exact definite_pure a
  | error e => exact definite_fail e

theorem spends_bind {f : α → Run β} (hx : Spends P x) (hf : ∀ a, Definite (f a)) :
    Spends P (x >>= f) := by
  intro h h' heq
  rw [bind_apply] at heq
  rcases hrun : x h with ⟨e | a, h₁⟩
  · rw [hrun] at heq
    cases heq
    exact hx h h' hrun
  · rw [hrun] at heq
    exact (hf a h₁ h' heq).elim

theorem spends_get {f : Heap → Run β} (hf : ∀ h, Spends P (f h)) : Spends P (get >>= f) :=
  fun h => hf h h

theorem spends_ite {p : Prop} [Decidable p] {x y : Run β} (hx : Spends P x) (hy : Spends P y) :
    Spends P (if p then x else y) := by
  split <;> assumption

end Spends

/-! ### Operators -/

theorem definite_truthy (v : Value) : Definite (truthy v) := spends_get fun _ => definite_pure _

theorem definite_newList (items : List Value) : Definite (newList items) :=
  spends_bind (definite_alloc _) fun _ => definite_pure _

theorem definite_newTuple (items : List Value) : Definite (newTuple items) :=
  spends_bind (definite_alloc _) fun _ => definite_pure _

theorem definite_newSlice (start stop step : Value) : Definite (newSlice start stop step) :=
  spends_bind (definite_alloc _) fun _ => definite_pure _

theorem definite_unaryCode (code : UInt8) (v : Value) : Definite (unaryCode code v) := by
  unfold unaryCode
  split
  · unfold unary
    split
    · exact spends_bind (definite_truthy _) fun _ => definite_pure _
    all_goals first | exact definite_pure _ | exact definite_fail _
  · exact definite_stop _

theorem definite_repeatItems (count : Nat) (items : List α) : Definite (repeatItems count items) :=
  spends_ite (definite_fail _) (spends_ite (definite_pure _) (definite_pure _))

theorem definite_repeatSequence (sequence : Value) (count : Int64) :
    Definite (repeatSequence sequence count) := by
  unfold repeatSequence
  split
  · exact spends_bind (definite_repeatItems _ _) fun _ => definite_pure _
  · exact spends_get fun h => spends_bind (definite_repeatItems _ _) fun _ => definite_newList _
  · exact spends_get fun h => spends_bind (definite_repeatItems _ _) fun _ => definite_newTuple _
  · exact definite_fail _

theorem definite_concat (a b : Value) : Definite (concat a b) := by
  unfold concat
  split
  · exact definite_pure _
  · exact spends_get fun _ => spends_get fun _ => definite_newList _
  · exact spends_get fun _ => spends_get fun _ => definite_newTuple _
  · exact definite_fail _

theorem definite_binaryCode (code : UInt8) (a b : Value) : Definite (binaryCode code a b) := by
  unfold binaryCode
  split
  · unfold binary
    split
    · exact definite_ofExcept _
    · exact definite_ofExcept _
    · exact definite_ofExcept _
    · exact definite_ofExcept _
    · split
      · exact definite_concat _ _
      · exact definite_repeatSequence _ _
      · exact definite_repeatSequence _ _
      · exact definite_fail _
  · exact definite_stop _

theorem definite_dictKey (key : Value) : Definite (dictKey key) := by
  refine spends_get fun h => ?_
  split
  · exact definite_pure _
  · exact definite_fail _

theorem definite_dictGet? (r : Ref) (key : Value) : Definite (dictGet? r key) :=
  spends_bind (definite_dictKey key) fun _ => spends_get fun _ => definite_pure _

theorem definite_dictSet (r : Ref) (key value : Value) : Definite (dictSet r key value) :=
  spends_bind (definite_dictKey key) fun _ => definite_modify _

/-- A comparison without end, which goes on in the heap as it is. -/
theorem spends_comparison {x : Heap → Option α} {f : α → Run β} (hx : ∀ h, x h = none → P h h)
    (hf : ∀ a, Definite (f a)) : Spends P (get >>= fun h => ofComparison (x h) >>= f) := by
  intro h h' heq
  rw [bind_apply, get_apply] at heq
  dsimp only at heq
  cases hxh : x h with
  | none =>
    rw [hxh] at heq
    cases heq
    exact hx h hxh
  | some a =>
    rw [hxh] at heq
    exact (hf a h h' heq).elim

/-- Only a value that contains itself is compared without end. -/
def Turns (v : Value) (h h' : Heap) : Prop := h.Endless v ∧ h' = h

theorem spends_contains (container item : Value) :
    Spends (Turns container) (contains container item) := by
  have hany : ∀ h h', ofComparison (((h.view container).under []).anyM fun v => h.equal v item) h =
      (.error .exhausted, h') → Turns container h h' := by
    intro h h' heq
    cases hnone : ((h.view container).under []).anyM fun v => h.equal v item with
    | none =>
      rw [hnone] at heq
      cases heq
      exact ⟨Heap.endless_of_anyM hnone, rfl⟩
    | some found =>
      rw [hnone] at heq
      cases heq
  intro h h' heq
  rw [contains, bind_apply, get_apply] at heq
  dsimp only at heq
  split at heq
  · cases heq
  · exact hany h h' heq
  · exact hany h h' heq
  · exact (spends_bind (definite_dictGet? _ _) (fun _ => definite_pure _) h h' heq).elim
  · cases heq

theorem spends_compareCode (code : UInt8) (a b : Value) (ha : ∀ h, h.Endless a → P h h)
    (hb : ∀ h, h.Endless b → P h h) : Spends P (compareCode code a b) := by
  have horder : ∀ {f : Except RuntimeError Ordering → Run Value}, (∀ result, Definite (f result)) →
      Spends P (get >>= fun h => ofComparison (h.order a b) >>= f) :=
    spends_comparison fun h hnone => ha h (Heap.endless_of_order hnone)
  unfold compareCode
  split
  next op _ =>
    cases op with
    | eq | ne =>
      exact spends_comparison (fun h hnone => ha h (Heap.endless_of_equal hnone)) fun _ =>
        definite_pure _
    | is | isNot => exact (definite_pure _).spends
    | isIn | notIn =>
      exact spends_bind (fun h h' heq => by
        obtain ⟨hendless, rfl⟩ := spends_contains b a h h' heq
        exact hb _ hendless) fun _ => definite_pure _
    | lt | le | gt | ge =>
      refine horder fun result => ?_
      split
      · exact definite_pure _
      · exact definite_fail _
  next =>
    refine horder fun result => ?_
    split
    · exact definite_pure _
    · exact definite_stop _

theorem definite_itemAt (index : Int64) (items : Array α) (missing : RuntimeError) :
    Definite (itemAt index items missing) := by
  unfold itemAt
  split
  · exact definite_pure _
  · exact definite_fail _

theorem definite_indexOf (base index : Value) : Definite (indexOf base index) := by
  unfold indexOf
  split
  · exact definite_pure _
  · exact definite_pure _
  · exact definite_fail _

theorem definite_slice (base start stop step : Value) : Definite (slice base start stop step) := by
  unfold slice
  split
  · exact spends_get fun _ => spends_bind (definite_ofExcept _) fun _ => definite_newList _
  · exact spends_get fun _ => spends_bind (definite_ofExcept _) fun _ => definite_newTuple _
  · exact spends_bind (definite_ofExcept _) fun _ => definite_pure _
  · exact definite_fail _

theorem definite_index (base i : Value) : Definite (index base i) := by
  unfold index
  split
  · exact spends_get fun _ => definite_slice _ _ _ _
  · exact spends_bind (definite_indexOf _ _) fun _ => spends_bind (definite_itemAt _ _ _) fun _ =>
      definite_pure _
  · exact spends_bind (definite_indexOf _ _) fun _ => spends_get fun _ => definite_itemAt _ _ _
  · exact spends_bind (definite_indexOf _ _) fun _ => spends_get fun _ => definite_itemAt _ _ _
  · refine spends_bind (definite_dictGet? _ _) fun found => ?_
    split
    · exact definite_pure _
    · exact spends_get fun _ => definite_fail _
  · exact definite_fail _

theorem definite_setItem (container key value : Value) :
    Definite (setItem container key value) := by
  unfold setItem
  split
  · exact definite_dictSet _ _ _
  · refine spends_get fun h => ?_
    split
    · exact definite_modify _
    · exact definite_fail _
  · exact definite_fail _
  · exact definite_fail _

theorem definite_attribute? (base : Value) (name : Text) : Definite (attribute? base name) := by
  unfold attribute?
  split
  · exact spends_get fun _ => definite_pure _
  · refine spends_get fun h => ?_
    dsimp only
    split
    · exact definite_pure _
    · refine spends_bind ?_ fun _ => definite_pure _
      unfold bindMethod
      split
      · exact spends_get fun _ => spends_bind (definite_alloc _) fun _ => definite_pure _
      · exact definite_stop _
    · exact definite_pure _
  · exact definite_pure _

theorem definite_attributeOf (base : Value) (name : Text) : Definite (attributeOf base name) := by
  refine spends_bind (definite_attribute? base name) fun found => ?_
  split
  · exact definite_pure _
  · exact definite_fail _

theorem definite_method (base : Value) (name : Text) : Definite (method base name) := by
  unfold method
  split
  · refine spends_get fun h => ?_
    dsimp only
    split
    · exact definite_pure _
    · exact spends_bind (definite_attributeOf _ _) fun _ => definite_pure _
  · exact spends_bind (definite_attributeOf _ _) fun _ => definite_pure _

theorem definite_fillDict (d : Dict) : (items : List Value) → Definite (fillDict d items)
  | [] | [_] => definite_pure d
  | key :: _ :: rest => spends_bind (definite_dictKey key) fun _ => definite_fillDict _ rest

theorem definite_buildDict (items : List Value) : Definite (buildDict items) :=
  spends_bind (definite_fillDict _ _) fun _ => spends_bind (definite_alloc _) fun _ =>
    definite_pure _

theorem definite_spreadArguments (v : Value) : Definite (spreadArguments v) := by
  refine spends_get fun h => ?_
  split
  · exact definite_pure _
  · exact definite_fail _

theorem definite_spreadKeywords (v : Value) : Definite (spreadKeywords v) := by
  unfold spreadKeywords
  split
  · exact spends_get fun _ => definite_ofExcept _
  · exact definite_fail _

theorem definite_mergeKeywords (r : Ref) (keywords : List Keyword) :
    Definite (Machine.mergeKeywords r keywords) := by
  induction keywords with
  | nil => exact definite_pure ()
  | cons keyword rest ih =>
    refine spends_bind (definite_dictGet? _ _) fun found => ?_
    have hrest : Definite (do
        dictSet r (.str keyword.name) keyword.value
        Machine.mergeKeywords r rest) := spends_bind (definite_dictSet _ _ _) fun _ => ih
    exact spends_ite (spends_bind (definite_fail _) fun _ => hrest) hrest

end Run

namespace Machine

open Run

theorem definite_constant (index : Nat) : Definite (constant chunk index) := by
  unfold constant
  split
  · exact definite_pure _
  · exact definite_stop _

theorem definite_constantName (index : Nat) : Definite (constantName chunk index) :=
  spends_bind (definite_constant index) fun _ => definite_pure _

/-- With a stack something does not come to an end: a call of a value on it, or the comparison of a
value on it that contains itself. -/
inductive Hung (call : Caller) (stack : List Value) (h : Heap) : Heap → Prop
  | calls {callee : Value} {args : List Value} {keywords : List Keyword} {h' : Heap} :
      callee ∈ stack → call callee args keywords h = (.error .exhausted, h') → Hung call stack h h'
  | compares {v : Value} : v ∈ stack → h.Endless v → Hung call stack h h

end Machine

end ExprBackend
