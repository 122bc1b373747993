import ExprBackend.Proofs.BufferUse

/-! # Where labels are placed

A label is placed at the end of the body as it is at the time, and the body only
grows; the prologue places no labels. So the labels of a buffer stay within its
body, whatever is emitted and whether or not it fails.
-/

namespace ExprBackend

variable {c : Code} {info : LabelInfo} {l : Label}

namespace Code

/-- Every label that is placed has its place in the body, or at its end. -/
def Placed (c : Code) : Prop :=
  ∀ info ∈ c.labels, ∀ p, info.position = some p → p ≤ c.body.size

/-- What emission does to the places of labels. -/
structure Places (c c' : Code) : Prop where
  inside : c'.inPrologue = c.inPrologue
  size_le : c.body.size ≤ c'.body.size
  placed : ∀ info ∈ c'.labels, ∀ p, info.position = some p →
    (∃ old ∈ c.labels, old.position = some p) ∨ c.inPrologue = false ∧ p ≤ c'.body.size

namespace Places

variable {c' c'' : Code}

theorem refl (c : Code) : c.Places c where
  inside := rfl
  size_le := Nat.le_refl _
  placed info hinfo _ hp := .inl ⟨info, hinfo, hp⟩

theorem trans (h : c.Places c') (h' : c'.Places c'') : c.Places c'' where
  inside := h'.inside.trans h.inside
  size_le := Nat.le_trans h.size_le h'.size_le
  placed info hinfo p hp := by
    rcases h'.placed info hinfo p hp with ⟨old, hold, hpos⟩ | ⟨houtside, hle⟩
    · rcases h.placed old hold p hpos with hfirst | ⟨houtside, hle⟩
      · exact .inl hfirst
      · exact .inr ⟨houtside, Nat.le_trans hle h'.size_le⟩
    · exact .inr ⟨h.inside ▸ houtside, hle⟩

/-- A change that leaves the labels alone and does not shorten the body. -/
theorem of_labels_eq (hinside : c'.inPrologue = c.inPrologue) (hsize : c.body.size ≤ c'.body.size)
    (hlabels : c'.labels = c.labels) : c.Places c' where
  inside := hinside
  size_le := hsize
  placed info hinfo _ hp := .inl ⟨info, hlabels ▸ hinfo, hp⟩

theorem labelled (c : Code) : c.Places c.labelled where
  inside := rfl
  size_le := Nat.le_refl _
  placed info hinfo p hp := by
    rcases Array.mem_push.mp hinfo with hold | rfl
    · exact .inl ⟨info, hold, hp⟩
    · cases hp

/-- What is known of a label may change if its place does not, or is the end of the body. -/
theorem withLabel (h : ∀ p, info.position = some p →
    (∃ old ∈ c.labels, old.position = some p) ∨ c.inPrologue = false ∧ p = c.body.size) :
    c.Places (c.withLabel l info) where
  inside := rfl
  size_le := Nat.le_refl _
  placed other hother p hp := by
    rcases Array.mem_or_eq_of_mem_setIfInBounds hother with hold | rfl
    · exact .inl ⟨other, hold, hp⟩
    · rcases h p hp with hold | ⟨houtside, rfl⟩
      · exact .inl hold
      · exact .inr ⟨houtside, Nat.le_refl _⟩

/-- Outside of the prologue labels stay within the body. -/
theorem keeps (h : c.Places c') (houtside : c.inPrologue = false) (hplaced : c.Placed) :
    c'.inPrologue = false ∧ c'.Placed := by
  refine ⟨h.inside.trans houtside, fun info hinfo p hp => ?_⟩
  rcases h.placed info hinfo p hp with ⟨old, hold, hpos⟩ | ⟨-, hle⟩
  · exact Nat.le_trans (hplaced old hold p hpos) h.size_le
  · exact hle

end Places

theorem mem_of_label? (h : c.label? l = some info) : info ∈ c.labels := by
  rw [label?] at h
  split at h
  · exact Array.mem_of_getElem? h
  · cases h

end Code

theorem Code.progress_places : Progress fun _ _ => Places where
  refl := .refl
  trans := .trans
  appended _ _ _ _ _ := .of_labels_eq rfl (by simp) rfl
  pooled _ _ := .of_labels_eq rfl (Nat.le_refl _) rfl
  labelled h := (Places.labelled _).trans h
  ended _ := .of_labels_eq rfl (Nat.le_refl _) rfl
  branches _ h := by
    cases h with
    | dead | backward => exact .refl _
    | forward _ hlabel _ _ => exact .withLabel fun p hp => .inl ⟨_, mem_of_label? hlabel, hp⟩
  marked {_ l c info} _ houtside _ _ _ := by
    have hplaced : c.Places (c.withLabel l ⟨some c.body.size, if c.reachable then c.depth
        else info.depth⟩) :=
      .withLabel fun p hp => .inr ⟨houtside, (Option.some.inj hp).symm⟩
    exact hplaced.trans (.of_labels_eq rfl (Nat.le_refl _) rfl)
  misplaced houtside _ _ := .withLabel fun p hp => .inr ⟨houtside, (Option.some.inj hp).symm⟩

theorem Code.places_called (c : Code) (namedLabels : List (Text × Label)) :
    c.Places { c with namedLabels } := .of_labels_eq rfl (Nat.le_refl _) rfl

theorem Code.places : Expansion fun _ _ => Places where
  toProgress := progress_places
  coded _ _ _ _ := .of_labels_eq rfl (by simp) rfl
  declared c name := by
    rw [c.declared_eq name]
    exact .of_labels_eq rfl (Nat.le_refl _) rfl
  noted _ _ _ _ _ := .of_labels_eq rfl (Nat.le_refl _) rfl
  within h := ⟨h.inside, h.size_le, h.placed⟩
  headed _ _ _ _ := .of_labels_eq rfl (Nat.le_refl _) rfl
  loop := @fun _ => progress_places.loop places_called

namespace Emit

open Code

/-- Whatever comes of an emission, it places labels at the end of the body only. -/
abbrev Placing {α : Type} (x : Emit α) : Prop := Always (fun _ _ => Places) [] x

/-- A prologue places no labels, and leaves the body as it is. -/
theorem placing_prologue {x : Emit Unit} (hx : Placing x) : Placing (prologue x) := by
  intro marks c result c' h
  cases hinside : c.inPrologue with
  | true =>
    rw [prologue_of_inside x marks hinside] at h
    exact hx h
  | false =>
    rcases hrun : (x marks c.opened : Except Failure Unit × Code) with ⟨inner_result, inner⟩
    have hinner := hx hrun
    have hclosed : c.Places (c.closed inner) := by
      refine ⟨hinside.symm, Nat.le_refl _, fun info hinfo p hp => ?_⟩
      rcases hinner.placed info hinfo p hp with hold | ⟨houtside, -⟩
      · exact .inl hold
      · exact nomatch houtside
    rw [prologue_of_outside x marks hinside, hrun] at h
    cases inner_result with
    | error => cases h; exact hclosed
    | ok =>
      dsimp only at h
      split at h <;> cases h <;> exact hclosed

theorem placing_attach (id : Nat) (volatile : List Text) : Placing (attach id volatile) := by
  refine places.bind (@Kept.region _ places.kept [] id) fun r => places.bind places.get fun c => ?_
  exact Progress.update fun _ => .of_labels_eq rfl (Nat.le_refl _) rfl

end Emit

/-- Emitting an expression places labels at the end of the body only. -/
theorem Node.placing_emitInto (n : Node) : Emit.Placing n.emitInto := Code.places.related n []

namespace BufferOp

open Code Emit

mutual

/-- An operation on a buffer places labels at the end of the body only. -/
theorem placing_emit : (op : BufferOp) → Placing op.emit
  | .newLabel => places.newLabel fun _ => places.pure ()
  | .namedLabel name => places.bind (places.namedLabel places_called name) fun _ => places.pure ()
  | .declareLocal name => places.bind (places.localSlot name) fun _ => places.pure ()
  | .mark l => places.markAny l
  | .prologue ops => placing_prologue (placing_emitAll ops)
  | .jump l => places.jumpAny l
  | .jumpIfFalse l | .jumpIfTrue l => places.popJumpAny rfl l
  | .jumpIfFalseOrPop l | .jumpIfTrueOrPop l => places.jumpOrPopAny rfl l
  | .jumpTable _ _ => places.jumpTable (fun _ _ => .of_labels_eq rfl (Nat.le_refl _) rfl) _ _
  | .loadConst v => places.loadConst v
  | .loadName name => places.loadName name
  | .storeName name => places.storeName name
  | .getAttr _ | .loadMethod _ =>
    places.bind (places.addConstant _) fun _ => places.append ..
  | .callEx method => places.callEx method
  | .ret => places.ret
  | .invalidAction => places.bind (places.append ..) fun _ => places.endReach
  | .loadNone | .loadLocal _ | .storeLocal _ | .pop | .dup | .rot2 | .rot3 | .unary _ | .binary _
  | .compare _ | .getIndex | .storeIndex | .buildSlice | .buildList _ | .buildTuple _ | .buildDict _
  | .listExtend | .dictMerge | .unpack _ | .call _ | .callMethod _ => places.append ..

theorem placing_emitAll : (ops : List BufferOp) → Placing (emitAll ops)
  | [] => places.pure ()
  | op :: rest => places.bind (placing_emit op) fun _ => placing_emitAll rest

end

end BufferOp

/-- A buffer that has come about by emitting into a new one. What is emitted may fail, and emission
may go on after that. -/
inductive Code.Made : Code → Prop
  | create (name : Text) (params : List Text) : Made (create name params)
  | operation {c : Code} (marks : Marks) (op : BufferOp) : Made c →
      Made (op.emit marks c : Except Failure Unit × Code).2
  | expression {c : Code} (marks : Marks) (n : Node) : Made c →
      Made (n.emitInto marks c : Except Failure Unit × Code).2
  | interceptor {c : Code} (interceptor : Option Interceptor) : Made c → Made { c with interceptor }
  | attach {c : Code} (marks : Marks) (id : Nat) (volatile : List Text) : Made c →
      Made (Emit.attach id volatile marks c : Except Failure Unit × Code).2

theorem Code.Made.emitAll (h : c.Made) (marks : Marks) (ops : List BufferOp) :
    Made (BufferOp.emitAll ops marks c : Except Failure Unit × Code).2 := by
  induction ops generalizing c with
  | nil => exact h
  | cons op rest ih =>
    have hop := h.operation marks op
    rcases hrun : (op.emit marks c : Except Failure Unit × Code) with ⟨_ | _, c'⟩
    · have herror : (BufferOp.emitAll (op :: rest) marks c : Except Failure Unit × Code) =
          (.error _, c') := bind_of_error hrun
      rw [herror]
      rw [hrun] at hop
      exact hop
    · have hok : (BufferOp.emitAll (op :: rest) marks c : Except Failure Unit × Code) =
          BufferOp.emitAll rest marks c' := bind_of_ok hrun
      rw [hok]
      rw [hrun] at hop
      exact ih hop

/-- Emission leaves a buffer outside of its prologue, with all labels in the body. -/
theorem Code.Made.placed (h : c.Made) : c.inPrologue = false ∧ c.Placed := by
  induction h with
  | create name params =>
    obtain ⟨locals, hcreate⟩ := exists_create_eq name params
    rw [hcreate]
    exact ⟨rfl, fun info hinfo => by simp at hinfo⟩
  | operation marks op _ ih => exact (BufferOp.placing_emit op rfl).keeps ih.1 ih.2
  | expression marks n _ ih => exact (n.placing_emitInto rfl).keeps ih.1 ih.2
  | interceptor i _ ih => exact ih
  | attach marks id volatile _ ih => exact (Emit.placing_attach id volatile rfl).keeps ih.1 ih.2

end ExprBackend
