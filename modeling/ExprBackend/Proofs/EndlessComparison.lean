import ExprBackend.Proofs.Likeness

/-! # Comparisons without end

A comparison goes down into both of its values at once, so it ends where one of them
does. Only two values that both contain themselves can be compared without end.
-/

namespace ExprBackend

open List

namespace View

variable {key? : Value → Option Text} {inner : Value → Value → Option Bool}
  {items items' : List Value} {a b : View} {α : Type}

/-- What a view shows under a canonical text: the value of a dictionary under it, and all parts of
anything else. -/
def under (hash : Text) : View → List Value
  | .dict _ d => (d.find? hash).toList
  | .list _ items | .tuple items => items
  | .slice start stop step => [start, stop, step]
  | _ => []

theorem allM_isSome {f : α → Option Bool} {l : List α} (h : ∀ x ∈ l, (f x).isSome = true) :
    (l.allM f).isSome = true := by
  induction l with
  | nil => rfl
  | cons x l ih =>
    obtain ⟨hx, hl⟩ := forall_mem_cons.mp h
    rcases hfirst : f x with _ | _ | _ <;> simp_all

theorem anyM_isSome {f : α → Option Bool} {l : List α} (h : ∀ x ∈ l, (f x).isSome = true) :
    (l.anyM f).isSome = true := by
  induction l with
  | nil => rfl
  | cons x l ih =>
    obtain ⟨hx, hl⟩ := forall_mem_cons.mp h
    rcases hfirst : f x with _ | _ | _ <;> simp_all

theorem equalItems_isSome (h : ∀ v ∈ items, ∀ w, (inner v w).isSome = true) :
    (equalItems inner items items').isSome = true := by
  rw [equalItems]
  split
  · exact allM_isSome fun p hp => h p.1 (of_mem_zip hp).1 p.2
  · rfl

/-- Equality of two views can be told if that of the parts of the first can. -/
theorem equal_isSome (h : ∀ hash, ∀ u ∈ a.under hash, ∀ w, (inner u w).isSome = true) :
    (a.equal key? inner b).isSome = true := by
  cases a with
  | list r items | tuple items | slice start stop step =>
    cases b with
    | list s items' | tuple items' | slice start' stop' step' =>
      first | exact equalItems_isSome (h []) | rfl
    | _ => rfl
  | dict r d =>
    cases b with
    | dict s e =>
      rw [equal, equalEntries]
      split
      · refine allM_isSome fun entry hentry => ?_
        have hfind : d.find? entry.hash = some entry.value :=
          Dict.find?_eq_some_iff.mpr ⟨entry, hentry, rfl, rfl⟩
        cases (key? entry.key).bind e.find? with
        | none => rfl
        | some other => exact h entry.hash _ (Option.mem_toList.mpr hfind) other
      · rfl
    | _ => rfl
  | _ => cases b <;> rfl

theorem orderItems_isSome {order : Value → Value → Option (Except RuntimeError Ordering)}
    (h : ∀ v ∈ items, ∀ w, (inner v w).isSome = true ∧ (order v w).isSome = true) :
    (orderItems inner order items items').isSome = true := by
  fun_induction orderItems inner order items items' with
  | case1 | case2 | case3 => rfl
  | case4 a as b bs _ ih => exact ih (forall_mem_cons.mp h).2
  | case5 a as b bs => exact (h a mem_cons_self b).2
  | case6 a as b bs hnone => simpa [hnone] using (h a mem_cons_self b).1

theorem order_isSome {order : Value → Value → Option (Except RuntimeError Ordering)}
    (h : ∀ hash, ∀ u ∈ a.under hash, ∀ w, (inner u w).isSome = true ∧ (order u w).isSome = true) :
    (a.order inner order b).isSome = true := by
  cases a with
  | list r items | tuple items =>
    cases b with
    | list s items' | tuple items' => first | exact orderItems_isSome (h []) | rfl
    | _ => rfl
  | _ => cases b <;> rfl

end View

namespace Heap

variable {h : Heap} {v u : Value} {level : Nat} {hash : Text}

/-- What a view of a value shows is in the value, except that a slice which is not in the heap shows
nothing three times. -/
theorem mem_contents_of_under (hu : u ∈ (h.view v).under hash) : u ∈ h.contents v ∨ u = .none := by
  cases v with
  | list r | tuple r | slice r =>
    simp only [view, View.under, list, listItems, tuple, slice] at hu
    simp only [contents, place]
    split at hu <;> simp_all
  | dict r =>
    simp only [view, View.under, dict] at hu
    simp only [contents, place]
    split at hu
    next d hcell =>
      obtain ⟨entry, hentry, -, rfl⟩ := Dict.find?_eq_some_iff.mp (Option.mem_toList.mp hu)
      simp only [hcell]
      exact .inl (mem_flatMap.mpr ⟨entry, mem_reverse.mp hentry, by simp⟩)
    next => exact absurd hu not_mem_nil
  | _ => exact absurd hu not_mem_nil

/-- A value that does not contain itself can be compared with every other. -/
theorem equalTo_isSome (hv : h.Within level v) (w : Value) :
    (h.equalTo (level + 1) v w).isSome = true := by
  induction level generalizing v w with
  | zero => exact hv.elim
  | succ level ih =>
    refine View.equal_isSome fun hash u hu w => ?_
    rcases mem_contents_of_under hu with hmem | rfl
    · exact ih (hv u hmem) w
    · cases w <;> rfl

theorem equal_isSome (hv : h.Within level v) (w : Value) : (h.equal v w).isSome = true := by
  obtain ⟨k, hk⟩ := Nat.exists_eq_add_of_lt h.levels_lt_pairLevels
  rw [equal, hk]
  exact equalTo_isSome (hv.levels.mono (Nat.le_add_right ..)) w

theorem orderTo_isSome (hv : h.Within level v) (w : Value) :
    (h.orderTo (level + 1) v w).isSome = true := by
  induction level generalizing v w with
  | zero => exact hv.elim
  | succ level ih =>
    refine View.order_isSome fun hash u hu w => ?_
    rcases mem_contents_of_under hu with hmem | rfl
    · exact ⟨equal_isSome (hv u hmem) w, ih (hv u hmem) w⟩
    · exact ⟨@equal_isSome h .none 1 nofun w, by cases w <;> rfl⟩

theorem order_isSome (hv : h.Within level v) (w : Value) : (h.order v w).isSome = true := by
  obtain ⟨k, hk⟩ := Nat.exists_eq_add_of_lt h.levels_lt_pairLevels
  rw [order, hk]
  exact orderTo_isSome (hv.levels.mono (Nat.le_add_right ..)) w

/-- A value that contains itself goes on without end. -/
def Endless (h : Heap) (v : Value) : Prop := ∀ level, ¬h.Within level v

theorem endless_of_equal {w : Value} (hnone : h.equal v w = none) : h.Endless v :=
  fun _ hv => by simpa [hnone] using equal_isSome hv w

theorem endless_of_order {w : Value} (hnone : h.order v w = none) : h.Endless v :=
  fun _ hv => by simpa [hnone] using order_isSome hv w

/-- If it cannot be told whether something is among the parts of a value, the value contains
itself. -/
theorem endless_of_anyM {w : Value}
    (hnone : (((h.view v).under hash).anyM fun u => h.equal u w) = none) : h.Endless v := by
  intro level hv
  cases level with
  | zero => exact hv
  | succ level =>
    have hall : (((h.view v).under hash).anyM fun u => h.equal u w).isSome = true := by
      refine View.anyM_isSome fun u hu => ?_
      rcases mem_contents_of_under hu with hmem | rfl
      · exact equal_isSome (hv u hmem) w
      · exact @equal_isSome h .none 1 nofun w
    simp [hnone] at hall

end Heap

end ExprBackend
