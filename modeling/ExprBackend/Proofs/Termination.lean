import ExprBackend.Proofs.Decoding
import ExprBackend.Proofs.OperandSupply

/-! # Compiled expressions come to an end

A jump in the code of an expression goes to a label that is placed later. Only an
action goes back, to the top of its loop, and outside a loop nothing places that
label. So an activation of a compiled expression visits no instruction twice, and
ends unless one of the calls that it makes does not, or it compares a value that
contains itself.
-/

namespace ExprBackend

open List Machine

variable {c : Code} {call : Caller} {chunk : Chunk} {closure : Closure}
  {f : Machine.Frame} {i : Nat}

/-- A step comes to an end, unless it makes a call or a comparison that does not. -/
theorem Machine.spends_step (frame : Frame) :
    Run.Spends (Hung call frame.stack) (step call closure chunk frame) := by
  refine Run.spends_ite (fun h h' heq => by cases heq) ?_
  split
  · exact (Run.definite_stop _).spends
  · split
    · exact (Run.definite_fail _).spends
    · split
      · exact (Run.definite_stop _).spends
      · exact (execute_performs _ _ _ []).spends

/-! ## Code that leads on -/

theorem codeOffset_lt {instrs : List Instr} {j : Nat} (hij : i < j) (hj : j ≤ instrs.length) :
    codeOffset instrs i < codeOffset instrs j := by
  induction j, hij using Nat.le_induction with
  | base =>
    rw [codeOffset_succ (getElem?_eq_getElem (by omega)), Instr.size]
    omega
  | succ j _ ih =>
    have := ih (by omega)
    rw [codeOffset_succ (getElem?_eq_getElem (by omega))]
    omega

/-- Code that ends with a return, and whose jumps all lead on to another instruction. -/
structure Code.LeadsOn (c : Code) : Prop where
  jumps : ∀ k i, c.body[k]? = some i → i.op.isJump = true →
    ∃ info p, c.label? i.operand = some info ∧ info.position = some p ∧ k < p ∧ p < c.body.size
  plain : ∀ i ∈ c.instrs, i.op ≠ .jumpTable
  straight : ∀ i ∈ c.prologue, i.op.isJump = false
  last : c.instrs.getLast? = some ⟨.ret, 0⟩

theorem Code.LeadsOn.length_pos (hc : c.LeadsOn) : 0 < c.instrs.length :=
  length_pos_iff.mpr fun hnil => by
    have hlast := hc.last
    rw [hnil] at hlast
    cases hlast

namespace Assembled

theorem length_listing (c : Code) : (listing c).length = c.instrs.length := by
  refine Nat.le_antisymm ?_ ?_
  · exact getElem?_eq_none_iff.mp (by rw [listing_getElem?]; simp)
  · rw [← getElem?_eq_none_iff]
    have hend := listing_getElem? c (listing c).length
    rw [getElem?_eq_none (Nat.le_refl _)] at hend
    exact Option.map_eq_none_iff.mp hend.symm

/-- A jump is read back with the offset of an instruction behind it. -/
theorem target_of_jump (h : Assembled c chunk) (hc : c.LeadsOn) {ins : Instr} {operand : Int}
    (hins : c.instrs[i]? = some ins) (hjump : ins.op.isJump = true)
    (hoperand : ins.resolved (c.labelOffset c.offsets) = .ok operand) :
    ∃ j, i < j ∧ j < c.instrs.length ∧ decoded ins.op.width operand = codeOffset c.instrs j := by
  have hbody : c.prologue.size ≤ i := by
    by_contra hlt
    rw [Code.instrs, getElem?_append_left (by simpa using hlt)] at hins
    have hstraight := hc.straight ins (Array.mem_toList_iff.mp (mem_of_getElem? hins))
    rw [hjump] at hstraight
    cases hstraight
  obtain ⟨k, rfl⟩ := Nat.exists_eq_add_of_le hbody
  rw [c.instrs_getElem?] at hins
  obtain ⟨info, p, hlabel, hposition, hkp, hp⟩ := hc.jumps k ins hins hjump
  have hlength : c.instrs.length = c.prologue.size + c.body.size := by simp [Code.instrs]
  refine ⟨c.prologue.size + p, by omega, by omega, ?_⟩
  have hwidth : ins.op.width = 2 := by
    revert hjump
    cases ins.op <;> decide
  rw [Instr.resolved, if_pos hjump, Code.labelOffset, hlabel] at hoperand
  simp only [hposition, c.offsets_getElem? (Nat.le_of_lt hp), Option.getD_some, Except.ok.injEq]
    at hoperand
  rw [← hoperand]
  exact decoded_word hwidth (h.place_le p)

/-- What is read from the code leads on. -/
theorem listing_leadsOn (h : Assembled c chunk) (hc : c.LeadsOn) {d : Decoded}
    (hd : d ∈ listing c) : d.op ≠ .jumpTable ∧ (d.op.isJump = true → d.offset < d.operand) := by
  obtain ⟨i, hi⟩ := mem_iff_getElem?.mp hd
  rw [listing_getElem?] at hi
  obtain ⟨ins, hins, rfl⟩ := Option.map_eq_some_iff.mp hi
  refine ⟨hc.plain ins (mem_of_getElem? hins), fun hjump => ?_⟩
  obtain ⟨operand, hoperand⟩ := (encodeAll_ok h.code).1 ins (mem_of_getElem? hins)
  obtain ⟨j, hij, hj, htarget⟩ := h.target_of_jump hc hins hjump hoperand
  rw [hoperand]
  change codeOffset c.instrs i < decoded ins.op.width operand
  rw [htarget]
  exact codeOffset_lt hij (Nat.le_of_lt hj)

variable {heap heap' : Heap} {g : Machine.Frame}

/-- A step from one instruction leads to another behind it. -/
theorem step_leadsOn (h : Assembled c chunk) (hc : c.LeadsOn) (hi : i < c.instrs.length)
    (hf : f.offset = codeOffset c.instrs i)
    (hstep : step call closure chunk f heap = (.ok (.running g), heap')) :
    ∃ j, i < j ∧ j < c.instrs.length ∧ g.offset = codeOffset c.instrs j := by
  obtain ⟨ins, hins⟩ : ∃ ins, c.instrs[i]? = some ins := ⟨_, getElem?_eq_getElem hi⟩
  obtain ⟨operand, hoperand, hexecute⟩ := h.step_eq hins
  obtain ⟨locals, stack, offset⟩ := f
  obtain rfl : offset = codeOffset c.instrs i := hf
  rw [hexecute] at hstep
  cases (execute_performs _ _ _ []).ends heap _ heap' hstep with
  | falls hfalls hoffset _ =>
    refine ⟨i + 1, by omega, ?_, hoffset⟩
    by_contra hend
    have hlast := hc.last
    rw [getLast?_eq_getElem?, show c.instrs.length - 1 = i by omega, hins] at hlast
    cases hlast
    cases hfalls
  | jumps hjump hoffset _ =>
    obtain ⟨j, hij, hj, htarget⟩ := h.target_of_jump hc hins hjump hoperand
    refine ⟨j, hij, hj, ?_⟩
    rw [hoffset, htarget]
  | looksUp htable => exact absurd htable (hc.plain ins (mem_of_getElem? hins))

/-- Steps lead through the code from instruction to instruction, and visit none again. -/
theorem reaches_leadsOn (h : Assembled c chunk) (hc : c.LeadsOn) {n : Nat}
    (hi : i < c.instrs.length) (hf : f.offset = codeOffset c.instrs i)
    (hreaches : Machine.Reaches (step call closure chunk) n f heap g heap') :
    ∃ j, i + n ≤ j ∧ j < c.instrs.length ∧ g.offset = codeOffset c.instrs j := by
  induction hreaches generalizing i with
  | refl => exact ⟨i, Nat.le_refl _, hi, hf⟩
  | head hstep _ ih =>
    obtain ⟨j, hij, hj, hoffset⟩ := h.step_leadsOn hc hi hf hstep
    obtain ⟨k, hjk, hk, hend⟩ := ih hj hoffset
    exact ⟨k, by omega, hk, hend⟩

/-- An activation ends after no more steps than there are instructions. -/
theorem finishes (h : Assembled c chunk) (hc : c.LeadsOn) (call : Caller) (closure : Closure)
    {f : Machine.Frame} {i : Nat} (hi : i < c.instrs.length) (hf : f.offset = codeOffset c.instrs i)
    (heap : Heap) : ∃ n result heap', i + n < c.instrs.length ∧
      Machine.Finishes (step call closure chunk) n f heap result heap' := by
  rcases hstep : step call closure chunk f heap with ⟨e | ⟨g⟩ | ⟨v⟩, heap₁⟩
  · exact ⟨0, .error e, heap₁, hi, f, heap, .refl f heap, hstep⟩
  · obtain ⟨j, hij, hj, hoffset⟩ := h.step_leadsOn hc hi hf hstep
    obtain ⟨n, result, heap', hn, hfinishes⟩ := h.finishes hc call closure hj hoffset heap₁
    exact ⟨1 + n, result, heap', by omega, (Machine.Reaches.single hstep).finishes hfinishes⟩
  · exact ⟨0, .ok v, heap₁, hi, f, heap, .refl f heap, hstep⟩
termination_by c.instrs.length - i

/-- An activation has one outcome for all limits that allow for as many steps as there are
instructions. If that is no end, a call has none. -/
theorem activate_ends (h : Assembled c chunk) (hc : c.LeadsOn) (call : Caller) (closure : Closure)
    (args : List Value) (keywords : List Keyword) (hheap : heap.chunk closure.chunk = chunk) :
    ∃ result heap', (∀ limit, c.instrs.length ≤ limit →
        activate call limit closure args keywords heap = (result, heap')) ∧
      (result = .error .exhausted → ∃ values k g heap₁,
        bindArguments closure.name closure.params args keywords = .ok values ∧
        Machine.Reaches (step call closure chunk) k (startFrame chunk values) heap g heap₁ ∧
        Machine.Hung call g.stack heap₁ heap') := by
  cases hbind : bindArguments closure.name closure.params args keywords with
  | error e =>
    refine ⟨.error (.runtime e), heap, fun limit _ => ?_, by rintro ⟨⟩⟩
    rw [activate, hbind]
    rfl
  | ok values =>
    by_cases hstack : chunk.maxStack < 0 ∨ largestStack < chunk.maxStack
    · refine ⟨.error (.fault .badStackSize), heap, fun limit _ => ?_, by rintro ⟨⟩⟩
      rw [activate, hbind]
      change (do
        if (heap.chunk closure.chunk).maxStack < 0 ∨
            largestStack < (heap.chunk closure.chunk).maxStack then Run.stop .badStackSize
        loop _ limit _ : Run Value) heap = _
      rw [hheap, if_pos hstack]
      rfl
    · obtain ⟨n, result, heap', hn, hfinishes⟩ := h.finishes hc call closure hc.length_pos
        (show (startFrame chunk values).offset = codeOffset c.instrs 0 from rfl) heap
      refine ⟨result, heap', fun limit hlimit => ?_, ?_⟩
      · rw [activate_eq call limit hbind (by rw [hheap]; omega) (by rw [hheap]; omega), hheap]
        exact loop_of_finishes hfinishes (by omega)
      · rintro rfl
        obtain ⟨g, heap₁, hreaches, hstep⟩ := hfinishes
        exact ⟨values, n, g, heap₁, rfl, hreaches, spends_step g heap₁ heap' hstep⟩

end Assembled

/-- The code of an expression that is compiled leads on. -/
theorem leadsOn_of_compileProgram {marks : Marks} {cache : Option Nat} {name : Text}
    {params : List Text} {n : Node} {p : Program} {code : Code}
    (hcompile : compileProgram marks (cache.map .cache) name params n = (.ok p, code)) :
    ∃ c : Code, Assembled c p.chunk ∧ c.LeadsOn := by
  let c₀ : Code := { Code.create name params with interceptor := cache.map .cache }
  obtain ⟨hc₀, -⟩ := Code.shows_intercepted cache name params
  obtain ⟨c₁, hemit, hassembled, -⟩ := toProgram_of_yields (c := c₀) hcompile
  refine ⟨_, hassembled, ?_⟩
  have hfirst := n.onCourse [] marks c₀ hc₀
  rw [hemit] at hfirst
  obtain ⟨⟨⟩, log, -, hc₁, hmoves⟩ := hfirst
  have hnone := hassembled.loop?_eq_none hemit
  obtain ⟨locals, heq⟩ := Code.exists_create_eq name params
  have hplaced : c₁.Placed := by
    have hplaces : c₀.Places c₁ := Node.placing_emitInto n hemit
    refine (hplaces.keeps hc₀.outside ?_).2
    simp only [c₀]
    rw [heq]
    exact nofun
  have honward : c₁.Onward := by
    refine hmoves.onward ?_
    simp only [c₀]
    rw [heq]
    exact ⟨nofun, nofun⟩
  have hbody : (c₁.appended .ret 0 (-1)).ended.body = c₁.body.push ⟨.ret, 0⟩ := rfl
  refine ⟨fun k i hi hjump => ?_, fun i hi => ?_, hc₁.straight, ?_⟩
  · rw [hbody, Array.getElem?_push] at hi
    split at hi
    · cases hi
      cases hjump
    · rcases hc₁.aims i (Array.mem_of_getElem? hi) hjump with
        hhand | hloop | ⟨info, hinfo, hposition⟩
      · cases hhand
      · rw [hnone] at hloop
        cases hloop
      · obtain ⟨p, hp⟩ := Option.isSome_iff_exists.mp hposition
        have hle := hplaced info (Code.mem_of_label? hinfo) p hp
        have hlt := honward.jumps k i info p hi hjump (by rw [hnone]; nofun) hinfo hp
        refine ⟨info, p, hinfo, hp, hlt, ?_⟩
        rw [hbody, Array.size_push]
        omega
  · have hi : i ∈ c₁.prologue.toList ++ (c₁.body.push ⟨.ret, 0⟩).toList := hi
    rw [Array.toList_push, ← append_assoc] at hi
    rcases mem_append.mp hi with hi | hi
    · exact honward.plain i hi
    · cases mem_singleton.mp hi
      nofun
  · rw [Code.instrs, hbody, Array.toList_push, ← append_assoc, getLast?_concat]

/-- **Compiled expressions cannot loop.** In the code of a compiled function, made with a cache or
without, every jump goes to an offset behind its own, and none goes by a table. So the steps before
the last one of an activation are fewer than the instructions, and there is one outcome for all
limits that allow for as many. If this is not an end, a call that the activation makes has none, or
a value that it compares contains itself. -/
theorem compiled_terminates {marks : Marks} {cache : Option Nat} {name : Text} {params : List Text}
    {n : Node} {globals : Bindings} {h₀ h₁ : Heap} {f : Value}
    (hcompile : compile marks (cache.map .cache) name params n globals h₀ = (.ok f, h₁)) :
    ∃ r closure chunk code, f = .function r ∧ h₁.function? r = some (.compiled closure) ∧
      h₁.chunk closure.chunk = chunk ∧ decodeFrom chunk.code 0 = some code ∧
      (∀ d ∈ code, d.op ≠ .jumpTable ∧ (d.op.isJump = true → d.offset < d.operand)) ∧
      ∀ (call : Caller) (h : Heap), h.chunk closure.chunk = chunk →
        (∀ values k g h', Machine.Reaches (step call closure chunk) k
          (startFrame chunk values) h g h' → k < code.length) ∧
        ∀ args keywords, ∃ result h',
          (∀ limit, code.length ≤ limit →
            activate call limit closure args keywords h = (result, h')) ∧
          (result = .error .exhausted → ∃ values k g h₂,
            bindArguments closure.name closure.params args keywords = .ok values ∧
            Machine.Reaches (step call closure chunk) k (startFrame chunk values) h g h₂ ∧
            Machine.Hung call g.stack h₂ h') := by
  obtain ⟨p, code, r, closure, hprogram, rfl, hfunction, -, -, hchunk⟩ := compile_of_ok hcompile
  obtain ⟨c, hassembled, hleads⟩ := leadsOn_of_compileProgram hprogram
  have hlength : (Assembled.listing c).length = c.instrs.length := Assembled.length_listing c
  refine ⟨r, closure, p.chunk, Assembled.listing c, rfl, hfunction, hchunk,
    hassembled.decodeFrom_zero, fun d hd => hassembled.listing_leadsOn hleads hd,
    fun call h hh => ⟨fun values k g h' hreaches => ?_, fun args keywords => ?_⟩⟩
  · obtain ⟨j, hj, hlt, -⟩ := hassembled.reaches_leadsOn hleads hleads.length_pos
      (show (startFrame p.chunk values).offset = codeOffset c.instrs 0 from rfl) hreaches
    omega
  · rw [hlength]
    exact hassembled.activate_ends hleads call closure args keywords hh

/-- A choice of a sum, or of the first of two values that is true. -/
def Node.branching : Node :=
  .cond (.var "x") (.binary .add (.var "x") (.const (.int 1) "int:1"))
    (.logical .or [.var "y", .const (.int 2) "int:2"])

theorem compiled_terminates_branching :
    ∃ h₁, compile (fun _ _ => false) (some (.cache 0)) "f" ["x", "y"] Node.branching {} {} =
        (.ok (.function 0), h₁) ∧
      ∃ closure, h₁.function? 0 = some (.compiled closure) ∧
        ∀ (call : Caller) (args : List Value) (keywords : List Keyword), ∃ steps result h',
          ∀ limit, steps ≤ limit → activate call limit closure args keywords h₁ = (result, h') := by
  generalize hresult : (compile (fun _ _ => false)
    (some (.cache 0)) "f" ["x", "y"] Node.branching {} {} : Except Failure Value × Heap) = outcome
  have hok : outcome.1 = .ok (.function 0) := by
    rw [← hresult]
    decide +kernel
  obtain ⟨_, h₁⟩ := outcome
  cases hok
  have hcompile : compile (fun _ _ => false)
      ((some 0).map .cache) "f" ["x", "y"] Node.branching {} {} = (.ok (.function 0), h₁) := hresult
  obtain ⟨r, closure, chunk, code, hr, hfunction, hchunk, -, -, hends⟩ :=
    compiled_terminates hcompile
  cases hr
  refine ⟨h₁, rfl, closure, hfunction, fun call args keywords => ?_⟩
  obtain ⟨result, h', houtcome, -⟩ := (hends call h₁ hchunk).2 args keywords
  exact ⟨code.length, result, h', houtcome⟩

end ExprBackend
