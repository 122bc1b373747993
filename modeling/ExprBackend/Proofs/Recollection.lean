import ExprBackend.Proofs.Interpretation

/-! # What actions remember

A walk in which the actions share one environment. It starts with the globals and
the parameters in front of them, and whatever an action assigns is there for all
later actions, in the same pass and in every other. A name is read from it when it
comes up: the last value assigned to it, else the parameter or the global of that
name, else it is unresolved.

Generated code resolves names when it is emitted, action after action as they are
registered. It walks in this way if its actions assign nothing but parameters.
-/

namespace ExprBackend

open List

namespace EvalState

/-- The value of a name that is known to have one. -/
def value (e : EvalState) (name : Text) : Value := (e.environment.get? name).getD .none

def handOver (pair : Value) (e : EvalState) : Turn EvalState :=
  match e.heap.items? pair with
  | some [action, argument] =>
    .again { e with environment := (e.environment.set actionName action).set argumentName argument }
  | _ => .over (.error (.runtime (.unpack (e.heap.text pair) 2))) e.heap

def carryOut (call : Caller) (e : EvalState) (n : Node) : Turn EvalState :=
  .carry handOver (n.attempt .gathering call e)

def pass (call : Caller) (t : ActionTable) (params : List Text) (e : EvalState) : Turn EvalState :=
  Walk.choose call t (e.value actionName) (e.value argumentName) (params.map e.value) e.heap
    (e.carryOut call)

end EvalState

namespace Scene.Agrees

variable {call : Caller} {globals : Bindings} {params : List Text} {s : Scene}
  {e : EvalState}

theorem value_eq {sight : Sight} (h : s.Agrees globals sight e) {name : Text}
    (hname : name ∈ sight.sure) : e.value name = s.locals name := by
  rw [EvalState.value, h.sure name hname, Option.getD_some]

/-- A pair is handed over alike. -/
theorem rel_handOver (h : s.Agrees globals ⟨walkNames params, walkNames params⟩ e) (pair : Value) :
    Turn.Rel (Scene.Agrees globals ⟨walkNames params, walkNames params⟩) (goOn (.ok pair, s))
      (e.handOver pair) := by
  rw [goOn, handOver_eq, EvalState.handOver, h.heap]
  cases hitems : s.heap.items? pair with
  | none => exact .over
  | some items =>
    rcases items with _ | ⟨action, _ | ⟨argument, _ | _⟩⟩
    · exact .over
    · exact .over
    · refine .again ⟨rfl, fun name hname => ?_, fun name hname => ?_⟩
      · rw [Bindings.get?_set, Bindings.get?_set, h.sure name hname]
        simp only
        split
        next => rfl
        next => split <;> rfl
      · have hother : name ≠ actionName ∧ name ≠ argumentName := by
          constructor <;> rintro rfl <;> exact hname (by simp [walkNames])
        rw [Bindings.get?_set, Bindings.get?_set, if_neg hother.2, if_neg hother.1]
        exact h.untouched name hname
    · exact .over

/-- A pass of the code is a pass in the environment. -/
theorem rel_pass {t : ActionTable}
    (ht : ∀ n ∈ t.actions.toList, n.Everywhere Node.Built ∧ n.assigned ⊆ params)
    (h : s.Agrees globals ⟨walkNames params, walkNames params⟩ e) :
    Turn.Rel (Scene.Agrees globals ⟨walkNames params, walkNames params⟩)
      (s.pass call globals t params) (e.pass call t params) := by
  have hparams : params.map e.value = params.map s.locals :=
    map_congr_left fun name hname => h.value_eq (mem_append_left _ hname)
  rw [pass, EvalState.pass, h.value_eq (by simp [walkNames]), h.value_eq (by simp [walkNames]),
    hparams, h.heap]
  exact Walk.rel_choose call _ _ _ _ fun n hn =>
    h.rel_carry (by rintro ⟨⟩) (ht n hn).1
    (ht n hn).2 fun pair _ _ hagrees => hagrees.rel_handOver pair

end Scene.Agrees

/-- Every action of a generated function sees what has been assigned before it, pass for pass: after
so many passes of the walk with one environment the function stands at the top of its loop with that
environment in its locals, or it has ended as the walk has. If the walk does not end, the function
does not return. -/
theorem generate_remembers {marks : Marks} {t : ActionTable} {root : Value} {name : Text}
    {params : List Text} {globals : Bindings} {h₀ h₁ : Heap} {f : Value}
    (ht : ∀ n ∈ t.actions.toList, n.Everywhere Node.Built ∧ n.Everywhere Node.Valued ∧
      n.assigned ⊆ params) (hnodup : params.Nodup)
    (hgenerate : t.generate marks none root name params globals h₀ = (.ok f, h₁)) :
    ∃ r closure top, f = .function r ∧ h₁.function? r = some (.compiled closure) ∧
      (∃ action argument, h₁.items? root = some [action, argument]) ∧
      ∀ (call : Caller) (h : Heap) (args : List Value) (action argument : Value),
        args.length = params.length → h.chunk closure.chunk = h₁.chunk closure.chunk →
        h.items? root = some [action, argument] →
        ∀ start : EvalState, start = ⟨h, globals.setAll
          ((walkNames params).zip (args ++ [action, argument]))⟩ →
        (∀ count e, Turn.passes (EvalState.pass call t params) count start = .again e →
          ∃ steps, count ≤ steps ∧
            Machine.Reaches (Machine.step call closure (h.chunk closure.chunk)) steps
              (Machine.startFrame (h.chunk closure.chunk) args) h
              ⟨((walkNames params).map e.value).toArray, [], top⟩ e.heap) ∧
        (∀ count result h', Turn.passes (EvalState.pass call t params) count start =
            .over result h' →
          ∃ steps, ∀ limit, steps ≤ limit →
            Machine.activate call limit closure args [] h = (result, h')) ∧
        ((∀ count, ∃ e, Turn.passes (EvalState.pass call t params) count start = .again e) →
          ∀ limit, (Machine.activate call limit closure args [] h).1 = .error .exhausted) := by
  obtain ⟨hnames, r, closure, top, rfl, hfunction, rfl, hpair, hbegins⟩ :=
    begins_of_generate hnodup ht hgenerate
  refine ⟨r, closure, top, rfl, hfunction, hpair,
    fun call h args action argument hargs hheld hroot start hstart => ?_⟩
  subst hstart
  exact (hbegins call h args action argument hargs hheld hroot).follows
    (fun s e hs => hs.rel_pass fun n hn => ⟨(ht n hn).1, (ht n hn).2.2⟩)
    (fun s e hs => map_congr_left fun name hname => (hs.value_eq hname).symm)
    (fun s e hs => hs.heap.symm) fun s hs => hs.agrees hnames

/-- The first action raises a number and goes on with the second, which doubles it. -/
def relay : ActionTable :=
  { actions := #[
      .sequence [.store "x" (.binary .add (.var "x") (.const (.int 1) "int:1")),
        .collection .tuple [.const (.int 2) "int:2", .var argumentName]],
      .sequence [.store "x" (.binary .add (.var "x") (.var "x")), .var argumentName]] }

theorem generate_remembers_relay :
    ∃ h₁ closure, relay.generate (fun _ _ => false) none (.tuple 2) "f" ["x"] {} smallTree =
        (.ok (.function 3), h₁) ∧
      h₁.function? 3 = some (.compiled closure) ∧
      ∃ steps, ∀ limit, steps ≤ limit →
        (Machine.activate (callWithin 1) limit closure [.int 3] [] h₁).1 = .ok (.int 8) := by
  generalize hresult : (relay.generate (fun _ _ => false) none (.tuple 2) "f" ["x"] {} smallTree :
    Except Failure Value × Heap) = outcome
  have hok : outcome.1 = .ok (.function 3) := by
    rw [← hresult]
    decide +kernel
  have hroot : outcome.2.items? (.tuple 2) = some [.int 1, .tuple 1] := by
    rw [← hresult]
    decide +kernel
  have hover : (Turn.passes (EvalState.pass (callWithin 1) relay ["x"]) 3 ⟨outcome.2,
      Bindings.setAll {} ((walkNames ["x"]).zip ([.int 3] ++ [.int 1, .tuple 1]))⟩).result? =
        some (.ok (.int 8)) := by
    rw [← hresult]
    decide +kernel
  obtain ⟨_, h₁⟩ := outcome
  cases hok
  obtain ⟨r, closure, top, hr, hfunction, -, hremembers⟩ :=
    generate_remembers (by decide) (by decide) hresult
  cases hr
  refine ⟨h₁, closure, rfl, hfunction, ?_⟩
  have hends :=
    (hremembers (callWithin 1) h₁ [.int 3] (.int 1) (.tuple 1) rfl rfl hroot _ rfl).2.1 3
  generalize Turn.passes (EvalState.pass (callWithin 1) relay ["x"]) 3 _ = turn at hover hends
  cases turn with
  | again e => cases hover
  | «over» result h' =>
    cases hover
    obtain ⟨steps, hsteps⟩ := hends _ _ rfl
    exact ⟨steps, fun limit hlimit => by rw [hsteps limit hlimit]⟩

/-- The first action reads a global, which the second one assigns. -/
def overtaken : ActionTable :=
  { actions := #[.collection .tuple [.const (.int 0) "int:0", .var "g"],
      .sequence [.store "g" (.const (.function 1) "tuple"), .var argumentName]] }

/-- A pair that leads from the second action to the first. -/
def backwardTree : Heap :=
  { cells := #[.function (.builtin "echo" .echo), .function (.builtin "tuple" .tuple),
      .tuple [.int 1, .none], .tuple [.int 2, .tuple 2]] }

/-- An assignment to a name that is not a parameter can be lost: the code of an action that is
registered before the one that assigns the name reads the global. The walk with one environment
makes a tuple of seven, the generated function gives seven itself. -/
theorem generate_overtaken_forgets :
    (∀ n ∈ overtaken.actions.toList, n.Everywhere Node.StoresAreSteps ∧ n.Everywhere Node.Built ∧
      n.Everywhere Node.Valued ∧ (ActionTable.check n).1 = .ok ()) ∧
      ∃ h₁, overtaken.generate (fun _ _ => false) none (.tuple 3) "f" ["x"]
          (Bindings.ofList [("g", .function 0)]) backwardTree = (.ok (.function 4), h₁) ∧
        (callWithin 65536 (.function 4) [.int 7] [] h₁).1 = .ok (.int 7) ∧
        (Turn.passes (EvalState.pass (callWithin 65535) overtaken ["x"]) 3 ⟨h₁,
          (Bindings.ofList [("g", .function 0)]).setAll
            ((walkNames ["x"]).zip [.int 7, .int 2, .tuple 2])⟩).result? =
              some (.ok (.tuple 6)) := by
  generalize hresult : (overtaken.generate (fun _ _ => false) none (.tuple 3) "f" ["x"]
    (Bindings.ofList [("g", .function 0)]) backwardTree : Except Failure Value × Heap) = outcome
  have hok : outcome.1 = .ok (.function 4) := by
    rw [← hresult]
    decide +kernel
  have hcall : (callWithin 65536 (.function 4) [.int 7] [] outcome.2).1 = .ok (.int 7) := by
    rw [← hresult]
    decide +kernel
  have hover : (Turn.passes (EvalState.pass (callWithin 65535) overtaken ["x"]) 3 ⟨outcome.2,
      (Bindings.ofList [("g", .function 0)]).setAll
        ((walkNames ["x"]).zip [.int 7, .int 2, .tuple 2])⟩).result? = some (.ok (.tuple 6)) := by
    rw [← hresult]
    decide +kernel
  obtain ⟨_, h₁⟩ := outcome
  cases hok
  exact ⟨by decide +kernel, h₁, rfl, hcall, hover⟩

end ExprBackend
