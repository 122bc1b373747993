import ExprBackend.Proofs.Definiteness
import ExprBackend.Proofs.Execution

/-! # Heights of the operand stack

What an operation needs of the operand stack and what it does to its height is
settled by the operation and its operand, however the values are.
-/

namespace ExprBackend

open List Opcode

variable {count : Nat} {op : Opcode} {p : Prop} {stack : List Value} {α : Type}

namespace Opcode

/-- The number of operands that an operation reads. -/
def reads (op : Opcode) (operand : Nat) : Nat :=
  match op with
  | .loadConst | .loadNone | .loadLocal | .loadGlobal | .jump => 0
  | .storeLocal | .pop | .dup | .unary | .getAttr | .loadMethod | .unpack | .jumpIfFalse
  | .jumpIfTrue | .jumpIfFalseOrPop | .jumpIfTrueOrPop | .jumpTable | .ret | .invalidAction => 1
  | .rot2 | .binary | .compare | .getIndex | .listExtend | .dictMerge => 2
  | .rot3 | .storeIndex | .buildSlice => 3
  | .buildList | .buildTuple => operand
  | .buildDict => 2 * operand
  | .call => operand + 1
  | .callMethod => operand + 2
  | .callEx => if operand % 2 = 1 then 4 else 3

/-- By how much an operation changes the height of the stack for the operation behind it. -/
def change (op : Opcode) (operand : Nat) : Int :=
  match op with
  | .loadConst | .loadNone | .loadLocal | .loadGlobal | .dup | .loadMethod => 1
  | .rot2 | .rot3 | .unary | .getAttr | .jump => 0
  | .storeLocal | .pop | .binary | .compare | .getIndex | .listExtend | .dictMerge | .jumpIfFalse
  | .jumpIfTrue | .jumpIfFalseOrPop | .jumpIfTrueOrPop | .jumpTable | .ret | .invalidAction => -1
  | .buildSlice => -2
  | .storeIndex => -3
  | .buildList | .buildTuple => 1 - operand
  | .buildDict => 1 - 2 * operand
  | .unpack => operand - 1
  | .call => -operand
  | .callMethod => -operand - 1
  | .callEx => if operand % 2 = 1 then -3 else -2

/-- Whether an operation can lead to the one behind it. -/
def falls : Opcode → Bool
  | .jump | .jumpTable | .ret | .invalidAction => false
  | _ => true

/-- By how much an operation changes the height of the stack for the label it jumps to. -/
def jumpChange : Opcode → Int
  | .jump | .jumpIfFalseOrPop | .jumpIfTrueOrPop => 0
  | _ => -1

/-- What a jump does to the stack does not depend on where it leads. -/
theorem reads_of_isJump (hop : op.isJump = true) (m n : Nat) : op.reads m = op.reads n := by
  cases op <;> first | rfl | cases hop

theorem change_of_isJump (hop : op.isJump = true) (m n : Nat) : op.change m = op.change n := by
  cases op <;> first | rfl | cases hop

/-- An operation takes no more off the stack than it reads. -/
theorem reads_add_change (op : Opcode) (operand : Nat) :
    0 ≤ (op.reads operand : Int) + op.change operand := by
  cases op
  case callEx =>
    simp only [reads, change]
    split <;> omega
  all_goals
    simp only [reads, change]
    omega

end Opcode

/-! ## What an operation can do -/

/-- Whatever an operation on the heap gives has a property. -/
def Run.Ends {α : Type} (x : Run α) (P : α → Prop) : Prop := ∀ h a h', x h = (.ok a, h') → P a

namespace Machine

/-- What can follow a frame that is at an operation: the frame behind it, the frame at the target of
a jump, or the end. -/
inductive Led (chunk : Chunk) (op : Opcode) (operand : Nat) (frame : Frame) : Progress → Prop where
  | falls {next : Frame} : op.falls = true → next.offset = frame.offset →
      (next.stack.length : Int) = frame.stack.length + op.change operand →
      Led chunk op operand frame (.running next)
  | jumps {next : Frame} : op.isJump = true → next.offset = operand →
      (next.stack.length : Int) = frame.stack.length + op.jumpChange →
      Led chunk op operand frame (.running next)
  | looksUp {next : Frame} {table : JumpTable} {v : Value} : op = .jumpTable →
      chunk.tables[operand]? = some table → next.offset = table.lookup v →
      (next.stack.length : Int) = frame.stack.length + op.jumpChange →
      Led chunk op operand frame (.running next)
  | returns {v : Value} : Led chunk op operand frame (.returned v)

/-- The same with more values at the bottom of the stack. -/
def Frame.above (below : List Value) (frame : Frame) : Frame :=
  { frame with stack := frame.stack ++ below }

def Progress.above (below : List Value) : Progress → Progress
  | .running frame => .running (frame.above below)
  | .returned v => .returned v

/-- The second operation does what the first does, above more values. -/
def Lifts (below : List Value) (x y : Run Progress) : Prop :=
  ∀ h, y h = match x h with
    | (.ok p, h') => (.ok (p.above below), h')
    | (.error e, h') => (.error e, h')

/-- What holds of an operation on a stack, whatever the values are: what it leads to, when it does
not come to an end, and that it leaves what lies below so many operands alone. -/
structure Performs (need : Nat) (stack below : List Value) (P : Progress → Prop)
    (Q : Heap → Heap → Prop) (x y : Run Progress) : Prop where
  ends : Run.Ends x P
  spends : Run.Spends Q x
  lifts : need ≤ stack.length → Lifts below x y

open Run

section Performs

variable {need : Nat} {below : List Value} {P : Progress → Prop} {Q : Heap → Heap → Prop}

theorem performs_pure {p : Progress} (hp : P p) :
    Performs need stack below P Q (pure p) (pure (p.above below)) where
  ends h a h' heq := by
    cases heq
    exact hp
  spends := (definite_pure p).spends
  lifts _ _ := rfl

theorem performs_throw {e : Failure} (he : decide (e = .exhausted) = false) :
    Performs need stack below P Q (throw e) (throw e) where
  ends h a h' heq := by cases heq
  spends := (definite_throw he).spends
  lifts _ _ := rfl

theorem performs_missing (f : Fault) {y : Run Progress} (hfew : stack.length < need) :
    Performs need stack below P Q (stop f) y where
  ends h a h' heq := by cases heq
  spends := (definite_stop f).spends
  lifts hneed := absurd hneed (Nat.not_le.mpr hfew)

theorem performs_bind {x : Run α} {f g : α → Run Progress} (hx : Spends Q x)
    (hf : ∀ a, Performs need stack below P (fun _ _ => False) (f a) (g a)) :
    Performs need stack below P Q (x >>= f) (x >>= g) where
  ends h b h' heq := by
    obtain ⟨a, h1, -, hb⟩ := bind_eq_ok.mp heq
    exact (hf a).ends h1 b h' hb
  spends := spends_bind hx fun a => (hf a).spends
  lifts hneed h := by
    rw [bind_apply, bind_apply]
    rcases x h with ⟨_ | a, h'⟩
    · rfl
    · exact (hf a).lifts hneed h'

theorem performs_ite [Decidable p] {x y x' y' : Run Progress}
    (hx : Performs need stack below P Q x x') (hy : Performs need stack below P Q y y') :
    Performs need stack below P Q (if p then x else y) (if p then x' else y') := by
  split <;> assumption

/-- An operation whose result is all that is needed for what follows. -/
theorem performs_last {x : Run α} {f : α → Progress} (hx : Spends Q x) (hf : ∀ a, P (f a)) :
    Performs need stack below P Q (x >>= fun a => pure (f a))
      (x >>= fun a => pure ((f a).above below)) :=
  performs_bind hx fun a => performs_pure (hf a)

theorem performs_get {f g : Heap → Run Progress}
    (hf : ∀ h, Performs need stack below P Q (f h) (g h)) :
    Performs need stack below P Q (get >>= f) (get >>= g) where
  ends h := (hf h).ends h
  spends := spends_get fun h => (hf h).spends
  lifts hneed h := (hf h).lifts hneed h

/-- Spreading keyword arguments leaves the heap as it is. -/
theorem performs_spreadKeywords (v : Value) {f g : List Keyword → Run Progress}
    (hf : ∀ keywords, Performs need stack below P Q (f keywords) (g keywords)) :
    Performs need stack below P Q (spreadKeywords v >>= f) (spreadKeywords v >>= g) := by
  unfold spreadKeywords
  split
  next r =>
    rw [bind_assoc, bind_assoc]
    refine performs_get fun h => ?_
    cases keywords (h.dict r).entries with
    | ok found => exact hf found
    | error e => exact performs_throw rfl
  next => exact performs_throw rfl

theorem performs_pop {f g : Value × List Value → Run Progress}
    (hf : ∀ v rest, rest.length + 1 = stack.length → v ∈ stack → rest ⊆ stack →
      Performs need rest below P Q (f (v, rest)) (g (v, rest ++ below))) :
    Performs (need + 1) stack below P Q (pop stack >>= f) (pop (stack ++ below) >>= g) := by
  cases stack with
  | nil => exact performs_missing .stackUnderflow (Nat.succ_pos need)
  | cons v rest =>
    rw [cons_append, pop, pop, pure_bind, pure_bind]
    obtain ⟨hends, hspends, hlifts⟩ := hf v rest rfl mem_cons_self (subset_cons_self v rest)
    exact ⟨hends, hspends, fun hneed => hlifts (by simpa using hneed)⟩

theorem performs_popMany {f g : List Value × List Value → Run Progress} {total : Nat}
    (htotal : total = count + need)
    (hf : ∀ items rest, rest.length + count = stack.length → rest ⊆ stack →
      Performs need rest below P Q (f (items, rest)) (g (items, rest ++ below))) :
    Performs total stack below P Q (popMany count stack >>= f)
      (popMany count (stack ++ below) >>= g) := by
  by_cases hcount : count ≤ stack.length
  · have happend : count ≤ (stack ++ below).length := by
      rw [length_append]
      omega
    rw [popMany, popMany, if_pos hcount, if_pos happend, pure_bind, pure_bind,
      take_append_of_le_length hcount, drop_append_of_le_length hcount]
    have hlength : (stack.drop count).length + count = stack.length := by
      rw [length_drop]
      omega
    obtain ⟨hends, hspends, hlifts⟩ := hf (stack.take count).reverse _ hlength
      (drop_subset count stack)
    exact ⟨hends, hspends, fun hneed => hlifts (by omega)⟩
  · rw [popMany, if_neg hcount]
    exact performs_missing .stackUnderflow (by omega)

end Performs

variable {call : Caller} {closure : Closure} {chunk : Chunk}

/-- A call of a value on the stack. -/
theorem spends_call {callee : Value} {args : List Value} {keywords : List Keyword}
    (hcallee : callee ∈ stack) : Spends (Hung call stack) (call callee args keywords) :=
  fun _ _ heq => .calls hcallee heq

/-- An operation leads only to frames whose stacks are as high as it says, comes to an end unless it
is a call or a comparison that does not, and takes nothing from below its operands. -/
theorem execute_performs (op : Opcode) (operand : Nat) (frame : Frame) (below : List Value) :
    Performs (op.reads operand) frame.stack below (Led chunk op operand frame)
      (Hung call frame.stack) (execute call closure chunk op operand frame)
      (execute call closure chunk op operand (frame.above below)) := by
  cases op with
  | loadConst => exact performs_last (definite_constant operand).spends fun v => .falls rfl rfl rfl
  | loadNone => exact performs_pure (.falls rfl rfl rfl)
  | loadLocal =>
    rw [execute, execute]
    simp only [Frame.above]
    split
    next => exact performs_pure (.falls rfl rfl rfl)
    next => exact performs_throw rfl
  | loadGlobal =>
    refine performs_bind (definite_constantName operand).spends fun name => ?_
    split
    next => exact performs_pure (.falls rfl rfl rfl)
    next => exact performs_throw rfl
  | storeLocal =>
    refine performs_pop fun v rest hrest _ _ =>
      performs_ite (performs_pure (.falls rfl rfl ?_)) (performs_throw rfl)
    simp only [change]
    omega
  | pop =>
    refine performs_pop fun v rest hrest _ _ => performs_pure (.falls rfl rfl ?_)
    simp only [change]
    omega
  | dup => exact performs_pop fun v rest hrest _ _ => performs_pure (.falls rfl rfl rfl)
  | rot2 =>
    obtain ⟨locals, _ | ⟨a, _ | ⟨b, rest⟩⟩, offset⟩ := frame
    · exact performs_missing .stackUnderflow (by simp [reads])
    · exact performs_missing .stackUnderflow (by simp [reads])
    · exact performs_pure (.falls rfl rfl (by simp [change]))
  | rot3 =>
    obtain ⟨locals, _ | ⟨c, _ | ⟨b, _ | ⟨a, rest⟩⟩⟩, offset⟩ := frame
    · exact performs_missing .stackUnderflow (by simp [reads])
    · exact performs_missing .stackUnderflow (by simp [reads])
    · exact performs_missing .stackUnderflow (by simp [reads])
    · exact performs_pure (.falls rfl rfl (by simp [change]))
  | unary =>
    refine performs_pop fun v rest hrest _ _ =>
      performs_last (definite_unaryCode _ _).spends fun w => .falls rfl rfl ?_
    simp only [change, length_cons]
    omega
  | getAttr | loadMethod =>
    refine performs_bind (definite_constantName operand).spends fun name =>
      performs_pop fun v rest hrest _ _ => performs_last ?_ fun found => .falls rfl rfl ?_
    · first
      | exact definite_attributeOf _ _
      | exact definite_method _ _
    · simp only [change, length_cons]
      omega
  | binary | compare | getIndex =>
    refine performs_pop fun b rest hrest hb hsubset => performs_pop fun a rest' hrest' ha _ =>
      performs_last ?_ fun w => .falls rfl rfl ?_
    · first
      | exact (definite_binaryCode _ _ _).spends
      | exact (definite_index _ _).spends
      | exact spends_compareCode _ _ _ (fun _ => .compares (hsubset ha)) fun _ => .compares hb
    · simp only [change, length_cons]
      omega
  | storeIndex | buildSlice =>
    refine performs_pop fun c rest hrest _ _ => performs_pop fun b rest' hrest' _ _ =>
      performs_pop fun a rest'' hrest'' _ _ => performs_last ?_ fun w => .falls rfl rfl ?_
    · first
      | exact (definite_setItem _ _ _).spends
      | exact (definite_newSlice _ _ _).spends
    · simp only [change, length_cons]
      omega
  | buildList | buildTuple | buildDict =>
    refine performs_popMany (Nat.add_zero _).symm fun items rest hrest _ =>
      performs_last ?_ fun w => .falls rfl rfl ?_
    · first
      | exact (definite_newList _).spends
      | exact (definite_newTuple _).spends
      | exact (definite_buildDict _).spends
    · simp only [change, length_cons]
      omega
  | listExtend | dictMerge =>
    refine performs_pop fun v rest hrest _ _ => performs_bind ?_ fun items =>
      performs_pop fun top rest' hrest' _ _ => ?_
    · first
      | exact (definite_spreadArguments v).spends
      | exact (definite_spreadKeywords v).spends
    · cases top with
      | list r | dict r =>
        first
        | exact performs_throw rfl
        | refine performs_last ?_ fun _ => .falls rfl rfl ?_
          · first
            | exact definite_modify _
            | exact definite_mergeKeywords _ _
          · simp only [change]
            omega
      | _ => exact performs_throw rfl
  | unpack =>
    refine performs_pop fun v rest hrest _ _ => performs_get fun h => ?_
    split
    next items _ =>
      split
      next hlength =>
        rw [beq_iff_eq] at hlength
        rw [← append_assoc]
        refine performs_pure (.falls rfl rfl ?_)
        simp only [change, length_append]
        omega
      next => exact performs_throw rfl
    next => exact performs_throw rfl
  | call =>
    refine performs_popMany rfl fun args rest hrest hsubset =>
      performs_pop fun callee rest' hrest' hcallee _ =>
        performs_last (spends_call (hsubset hcallee)) fun w => .falls rfl rfl ?_
    simp only [change, length_cons]
    omega
  | callMethod =>
    refine performs_popMany rfl fun args rest hrest hsubset =>
      performs_pop fun receiver rest' hrest' _ hsubset' =>
        performs_pop fun callee rest'' hrest'' hcallee _ =>
          performs_last (spends_call (hsubset (hsubset' hcallee))) fun w => .falls rfl rfl ?_
    simp only [change, length_cons]
    omega
  | callEx =>
    by_cases hmethod : operand % 2 = 1
    · simp only [reads, execute, hmethod, if_true, beq_self_eq_true]
      refine performs_pop fun dict rest hrest _ hsubset =>
        performs_pop fun list rest' hrest' _ hsubset' =>
          performs_get fun h => performs_spreadKeywords _ fun keywords =>
            performs_pop fun receiver rest'' hrest'' _ hsubset'' =>
              performs_pop fun callee deep hdeep hcallee _ =>
                performs_last (spends_call (hsubset (hsubset' (hsubset'' hcallee)))) fun w =>
                  .falls rfl rfl ?_
      simp only [change, hmethod, if_true, length_cons]
      omega
    · simp only [reads, execute, hmethod, if_false, beq_iff_eq]
      refine performs_pop fun dict rest hrest _ hsubset =>
        performs_pop fun list rest' hrest' _ hsubset' =>
          performs_get fun h => performs_spreadKeywords _ fun keywords =>
            performs_pop fun callee deep hdeep hcallee _ =>
              performs_last (spends_call (hsubset (hsubset' hcallee))) fun w => .falls rfl rfl ?_
      simp only [change, hmethod, if_false, length_cons]
      omega
  | jump => exact performs_pure (.jumps rfl rfl (by simp [jumpChange]))
  | jumpIfFalse | jumpIfTrue | jumpIfFalseOrPop | jumpIfTrueOrPop =>
    refine performs_pop fun v rest hrest _ _ =>
      performs_bind (definite_truthy v).spends fun truth => ?_
    cases truth
    all_goals
      refine performs_pure ?_
      first
      | refine .falls rfl rfl ?_
      | refine .jumps rfl rfl ?_
      simp only [change, jumpChange]
      omega
  | jumpTable =>
    rw [execute, execute]
    split
    next table htable =>
      refine performs_pop fun v rest hrest _ _ => performs_pure (.looksUp rfl htable rfl ?_)
      simp only [jumpChange]
      omega
    next => exact performs_throw rfl
  | ret => exact performs_pop fun v rest hrest _ _ => performs_pure .returns
  | invalidAction =>
    exact performs_pop fun v rest hrest _ _ => performs_get fun h => performs_throw rfl

end Machine

end ExprBackend
