import ExprBackend.Proofs.Gathering

/-! # Two paths of arguments

A function that has been compiled from a call with starred or keyword arguments, or
from a slice, against the evaluation of the same expression. If the code of every
operand pushes the value of the operand, then both fail alike, or both call the same
function with the same arguments, or both come to the same value.

Code passes on every keyword once. Keywords that are written out more than once are
all passed on by evaluation; a compiled function refuses them.
-/

namespace ExprBackend

open List

variable {K : List Ref → List Keyword → List Keyword → Prop} {T : Tie} {call : Caller}
  {ctx : Context} {globals : Bindings} {ks : List Keyword} {name : Text} {params : List Text}

namespace Node

def spreads : Node → Bool
  | .call _ _ star keywords doubleStar _ => !(star.isNone && doubleStar.isNone && keywords.isEmpty)
  | _ => false

/-- The names of the keywords that are written out in a call. -/
def explicit : Node → List Text
  | .call _ _ _ keywords _ _ => keywords.map Prod.fst
  | _ => []

def isSlice : Node → Bool
  | .slice .. => true
  | _ => false

end Node

namespace Tie

variable {places : List Ref} {s : EvalState} {t : Scene}

/-- An evaluation and an activation end alike. -/
def Concludes (T : Tie) (places : List Ref) (Well : Outcomes Value Value)
    (o : Except Failure Value × EvalState) (o' : Except Failure Value × Heap) : Prop :=
  ∃ t : Scene, t.heap = o'.2 ∧ T.Ends places Well o (o'.1.mapError .failure, t)

/-- Calls whose keywords correspond in one way correspond in every weaker way. -/
theorem Ends.weaken {K' : List Ref → List Keyword → List Keyword → Prop}
    {o : Except Failure Value × EvalState} {o' : Except Exit Value × Scene}
    (h : T.Ends places (T.Calls call K) o o')
    (hK : ∀ {places : List Ref} {named named' : List Keyword}, K places named named' →
      K' places named named') : T.Ends places (T.Calls call K') o o' := by
  cases h with
  | failure f hplaces hholds => exact .failure f hplaces hholds
  | well hplaces hcalls =>
    obtain ⟨hholds, hfunction, hpositional, hnamed⟩ := hcalls
    exact .well hplaces (.intro hholds hfunction hpositional (hK hnamed))

/-- The tie of names: locals have the values of the names in the environment, and nothing is
required of callees. -/
def ofNames (names : List Text) : Tie where
  Holds places s t := s.heap.Moved places t.heap ∧
    (∀ (r : Ref) (d : Dict), s.heap.cells[r]? = some (.dict d) →
      (d.latest.map Dict.Entry.key).Nodup) ∧
    ∀ name ∈ names, ∃ v, s.environment.get? name = some v ∧ v.Moves places (t.locals name)
  moved h := h.1
  keyed h hcell := h.2.1 _ _ hcell
  veiled h hveils := ⟨h.1.veiled hveils, h.2⟩
  extended {places s t cell cell'} h hsequence hcells := by
    refine ⟨h.1.alloc hcells, fun r d hcell => ?_, fun name hname => ?_⟩
    · by_cases hlt : r < s.heap.cells.size
      · refine h.2.1 r d ?_
        rw [← hcell]
        exact (Array.getElem?_eq_getElem hlt).trans (Array.getElem?_push_lt hlt).symm
      · have hle := (Array.getElem?_eq_some_iff.mp hcell).1
        simp only [Heap.alloc, Array.size_push] at hle
        obtain rfl : r = s.heap.cells.size :=
          Nat.le_antisymm (Nat.le_of_lt_succ hle) (Nat.not_lt.mp hlt)
        obtain rfl : cell = .dict d := Option.some.inj (Array.getElem?_push_size.symm.trans hcell)
        cases hsequence
    · obtain ⟨v, hv, hmoves⟩ := h.2.2 name hname
      exact ⟨v, hv, hmoves.mono (prefix_append _ _)⟩

section OfNames

variable {names : List Text}

theorem pushes_var (hname : name ∈ names) (hlocal : name ∈ ctx.scope) :
    (ofNames names).Pushes call globals ctx (.var name) := by
  intro places hidden s t hat
  obtain ⟨v, hv, hmoves⟩ := hat.holds.2.2 name hname
  have heval : (Node.var name).eval call s = (.ok v, s) := by
    rw [Node.eval, Eval.name, bind_apply, get_apply]
    dsimp only
    rw [hv]
    rfl
  have hperform : (Node.var name).perform call globals Gate.opened ctx t =
      (.ok (t.locals name), t) := by
    rw [Node.perform, Gate.opened, Perform.name, if_pos hlocal]
    rfl
  rw [heval, hperform]
  exact ends_values hat hmoves

theorem pushes_int (i : Int64) (signature : Text) :
    T.Pushes call globals ctx (.const (.int i) signature) := by
  intro places hidden s t hat
  rw [Node.eval, Node.perform, Gate.opened]
  exact ends_values hat rfl

end OfNames

end Tie

/-- A compiled function ends as an evaluation that ends as its code. -/
theorem compile_concludes {marks : Marks} {n : Node} {h₀ h₁ : Heap} {f : Value}
    (hbuilt : n.Everywhere Node.Built) (hvalued : n.Everywhere Node.Valued)
    (hstraight : n.Everywhere fun m => m.isNext = false) (hnodup : params.Nodup)
    (hroom : (params ++ n.assigned).dedup.length ≤ 65536)
    (hcompile : compile marks none name params n globals h₀ = (.ok f, h₁)) :
    ∃ r closure, f = .function r ∧ h₁.function? r = some (.compiled closure) ∧
      (n.effect = 1 → ∀ {T : Tie} {call : Caller} {limit : Nat} {e : EvalState} {h : Heap}
        {args : List Value} {places : List Ref} {Well : Tie.Outcomes Value Value} {t : Scene},
        t = ⟨h, Setting.argument params args⟩ → args.length = params.length → 65535 ≤ limit →
        h.chunk closure.chunk = h₁.chunk closure.chunk → T.Holds places e t →
        (T.At places [] e t → T.Ends places Well (n.eval call e)
          (n.perform call globals Gate.opened ⟨params, []⟩ t)) →
        T.Concludes places Well (n.eval call e)
          (Machine.activate call limit closure args [] h)) := by
  obtain ⟨p, code, r, closure, hprogram, rfl, hfunction, hnames, rfl, hchunk⟩ :=
    compile_of_ok hcompile
  refine ⟨r, closure, rfl, hfunction,
    fun heffect T call limit e h args places Well t ht hargs hlimit hheld hholds hends => ?_⟩
  subst ht
  have hproper : n.Everywhere (Node.Proper (.direct none)) := fun m hm =>
    ⟨hbuilt m hm, hvalued m hm, fun _ _ => trivial,
      fun hnext => by cases (hstraight m hm).symm.trans hnext⟩
  obtain ⟨result, t, hperform, hactivate⟩ := activate_of_perform hprogram hproper heffect hnodup
    hroom call hnames (hheld.trans hchunk) hargs hlimit
  rw [hactivate]
  exact ⟨t, rfl, hperform ▸ hends ⟨hholds, fun hmem => absurd hmem not_mem_nil, nodup_nil⟩⟩

/-- A call with starred or keyword arguments, none of which is written out twice, gives a function
that fails as the evaluation of the call does or calls the same function with the same arguments,
receiver first, and keywords in the same order. A slice gives a function that fails as its
evaluation does or comes to the same value. The code of operands is taken to push what they are
evaluated to. -/
theorem compile_spreads {marks : Marks} {name : Text} {params : List Text} {n : Node}
    {globals : Bindings} {h₀ h₁ : Heap} {f : Value} (hbuilt : n.Everywhere Node.Built)
    (hvalued : n.Everywhere Node.Valued) (hstraight : n.Everywhere fun m => m.isNext = false)
    (hnodup : params.Nodup) (hroom : (params ++ n.assigned).dedup.length ≤ 65536)
    (hcompile : compile marks none name params n globals h₀ = (.ok f, h₁)) :
    ∃ r closure, f = .function r ∧ h₁.function? r = some (.compiled closure) ∧
      ∀ (T : Tie) (call : Caller) (limit : Nat) (e : EvalState) (h : Heap) (args : List Value)
        (places : List Ref), args.length = params.length → 65535 ≤ limit →
        h.chunk closure.chunk = h₁.chunk closure.chunk →
        T.Holds places e ⟨h, Setting.argument params args⟩ →
        T.PushesAll call globals ⟨params, []⟩ n.operands →
        (n.spreads = true → n.explicit.Nodup →
          T.Concludes places (T.Calls call fun places => Forall₂ (Keyword.Moves places))
            (n.eval call e) (Machine.activate call limit closure args [] h)) ∧
        (n.isSlice = true → T.Concludes places (T.Values [] Value.Moves) (n.eval call e)
          (Machine.activate call limit closure args [] h)) := by
  obtain ⟨r, closure, hf, hfunction, hconcludes⟩ :=
    compile_concludes hbuilt hvalued hstraight hnodup hroom hcompile
  refine ⟨r, closure, hf, hfunction,
    fun T call limit e h args places hargs hlimit hheld hholds hoperands => ?_⟩
  constructor
  · intro hspreads hdistinct
    cases n with
    | call callee positional star keywords doubleStar method =>
      refine hconcludes rfl rfl hargs hlimit hheld hholds fun hat =>
        (Tie.ends_call (Bool.not_inj hspreads) hoperands hat).weaken
          fun {_ named _} hcollapses => ?_
      -- Names that are written out differ, and so do all.
      obtain ⟨spread, hnames, hspread, hnew⟩ := hcollapses.names
      have hall : (Keyword.names named).Nodup := by
        rw [hnames]
        exact nodup_append'.mpr ⟨hdistinct, hspread, fun name hmem hname => hnew name hname hmem⟩
      have hmoves := hcollapses.moves
      rwa [Keyword.collapse_eq_self hall] at hmoves
    | _ => cases hspreads
  · intro hslice
    cases n with
    | slice base start stop step =>
      exact hconcludes rfl rfl hargs hlimit hheld hholds (Tie.ends_slice hoperands)
    | _ => cases hslice

/-- The call `g(1, *xs, k=2)`. -/
def Node.scattered : Node :=
  .call (.var "g") [.const (.int 1) "int:1"] (some (.var "xs"))
    [("k", .const (.int 2) "int:2")] none false

theorem compile_spreads_scattered :
    ∃ f h₁ r closure, compile (fun _ _ => false) none "f" ["g", "xs"] Node.scattered {} {} =
      (.ok f, h₁) ∧ f = .function r ∧ h₁.function? r = some (.compiled closure) ∧
      ∀ (call : Caller) (limit : Nat), 65535 ≤ limit →
        (Tie.ofNames ["g", "xs"]).Concludes [0, 1]
          ((Tie.ofNames ["g", "xs"]).Calls call fun places => Forall₂ (Keyword.Moves places))
          (Node.scattered.eval call ⟨(h₁.alloc (.list #[.int 5])).2,
            ({} : Bindings).setAll ([↑"g", ↑"xs"].zip [f, .list 1])⟩)
          (Machine.activate call limit closure [f, .list 1] [] (h₁.alloc (.list #[.int 5])).2) := by
  obtain ⟨h₁, hcompile, hcells⟩ :
      ∃ h₁, compile (fun _ _ => false) none "f" ["g", "xs"] Node.scattered {} {} =
      (.ok (.function 0), h₁) ∧ h₁.cells = #[.function (.compiled ⟨"f", ["g", "xs"], 0, {}⟩)] :=
    ⟨(compile (fun _ _ => false) none "f" ["g", "xs"] Node.scattered {} {}).2, by cbv, by cbv⟩
  obtain ⟨r, closure, hf, hfunction, hruns⟩ :=
    compile_spreads (by decide) (by decide) (by decide) (by decide) (by decide) hcompile
  refine ⟨_, h₁, r, closure, hcompile, hf, hfunction, fun call limit hlimit => ?_⟩
  have hheap : (h₁.alloc (.list #[.int 5])).2.cells =
      #[.function (.compiled ⟨"f", ["g", "xs"], 0, {}⟩), .list #[.int 5]] := by
    rw [Heap.alloc, hcells]
    rfl
  refine (hruns (Tie.ofNames ["g", "xs"]) call limit _ _ [.function 0, .list 1]
    [0, 1] rfl hlimit ?_ ?_ ?_).1 (by decide) (by decide)
  · rfl
  · -- The function and the list lie where they lay.
    refine ⟨⟨by rw [hheap]; rfl, by decide, fun {q q' cell} hcell hq => ?_⟩,
      fun q d hcell => ?_, ?_⟩
    · rw [hheap] at hcell ⊢
      rcases q with _ | _ | q
      · cases hq
        cases hcell
        exact ⟨_, rfl, .function (.compiled .nil)⟩
      · cases hq
        cases hcell
        exact ⟨_, rfl, .list (.cons rfl .nil)⟩
      · cases hq
    · rw [hheap] at hcell
      rcases q with _ | _ | q <;> cases hcell
    · intro name hname
      simp only [mem_cons, not_mem_nil, or_false] at hname
      rcases hname with rfl | rfl
      · exact ⟨.function 0, rfl, rfl⟩
      · exact ⟨.list 1, rfl, rfl⟩
  · intro p hp
    simp only [Node.scattered, Node.operands, Node.origin, Context.along, Option.toList,
      map_cons, map_nil, cons_append, nil_append, mem_cons, not_mem_nil, or_false] at hp
    rcases hp with rfl | rfl | rfl | rfl
    · exact Tie.pushes_var (by decide) (by decide)
    · exact Tie.pushes_int _ _
    · exact Tie.pushes_var (by decide) (by decide)
    · exact Tie.pushes_int _ _

/-! ## Keywords that are written out more than once -/

namespace Machine

/-- A keyword for a parameter that has its value is refused. -/
theorem bindKeywords_taken {function : Text} {slots : List (Option Value)} {k : Keyword}
    (hk : k ∈ ks)
    (htaken : ∀ place, params.findIdx? (· == k.name) = some place → slots[place]? ≠ some none) :
    ∃ e, bindKeywords function params ks slots = .error e := by
  induction ks generalizing slots with
  | nil => cases hk
  | cons first rest ih =>
    rw [bindKeywords]
    split
    next => exact ⟨_, rfl⟩
    next place hplace =>
      split
      next hfree =>
        rcases mem_cons.mp hk with rfl | hk
        · exact absurd hfree (htaken place hplace)
        · -- A slot that is taken stays taken.
          refine ih hk fun place' hplace' => ?_
          rw [getElem?_set]
          split
          next => split <;> nofun
          next => exact htaken place' hplace'
      next => exact ⟨_, rfl⟩

/-- Keywords of which two have one name are refused. -/
theorem bindKeywords_repeated (hks : ¬(Keyword.names ks).Nodup) (function : Text)
    (params : List Text) (slots : List (Option Value)) : ∃ e,
    bindKeywords function params ks slots = .error e := by
  induction ks generalizing slots with
  | nil => exact absurd nodup_nil hks
  | cons first rest ih =>
    rw [bindKeywords]
    split
    next => exact ⟨_, rfl⟩
    next place hplace =>
      split
      next =>
        by_cases hrest : (Keyword.names rest).Nodup
        · -- The first comes again, and finds its slot taken.
          have hmem : first.name ∈ Keyword.names rest := by
            by_contra hnew
            exact hks (nodup_cons.mpr ⟨hnew, hrest⟩)
          obtain ⟨again, hagain, hname⟩ := mem_map.mp hmem
          refine bindKeywords_taken hagain fun place' hplace' => ?_
          rw [hname, hplace] at hplace'
          obtain rfl := Option.some.inj hplace'
          rw [getElem?_set]
          split
          next => split <;> nofun
          next hne => exact absurd rfl hne
        · exact ih hrest _
      next => exact ⟨_, rfl⟩

theorem bindArguments_repeated (hks : ¬(Keyword.names ks).Nodup) (function : Text)
    (params : List Text) (args : List Value) :
    ∃ e, bindArguments function params args ks = .error e := by
  by_cases hmany : params.length < args.length
  · refine ⟨.tooManyArguments function params.length args.length, ?_⟩
    rw [bindArguments, if_pos hmany]
    rfl
  · obtain ⟨e, he⟩ := bindKeywords_repeated hks function params
      (args.map some ++ List.replicate (params.length - args.length) none)
    refine ⟨e, ?_⟩
    rw [bindArguments, if_neg hmany]
    dsimp only [pure_bind]
    rw [he]
    rfl

end Machine

/-- A call with starred or keyword arguments gives a function that fails as the evaluation of the
call does, or calls the same function with the same positional arguments and with the keywords of
the evaluation, each once: at its first place, with its last value. If a keyword is written out more
than once, no compiled function takes the keywords of the evaluation. -/
theorem compile_collapses {marks : Marks} {name : Text} {params : List Text} {n : Node}
    {globals : Bindings} {h₀ h₁ : Heap} {f : Value} (hbuilt : n.Everywhere Node.Built)
    (hvalued : n.Everywhere Node.Valued) (hstraight : n.Everywhere fun m => m.isNext = false)
    (hnodup : params.Nodup) (hroom : (params ++ n.assigned).dedup.length ≤ 65536)
    (hspreads : n.spreads = true)
    (hcompile : compile marks none name params n globals h₀ = (.ok f, h₁)) :
    ∃ r closure, f = .function r ∧ h₁.function? r = some (.compiled closure) ∧
      ∀ (T : Tie) (call : Caller) (limit : Nat) (e : EvalState) (h : Heap) (args : List Value)
        (places : List Ref), args.length = params.length → 65535 ≤ limit →
        h.chunk closure.chunk = h₁.chunk closure.chunk →
        T.Holds places e ⟨h, Setting.argument params args⟩ →
        T.PushesAll call globals ⟨params, []⟩ n.operands →
        T.Concludes places (T.Calls call fun places named named' =>
            Forall₂ (Keyword.Moves places) (Keyword.collapse named) named' ∧
              (¬n.explicit.Nodup → ∀ function params args,
                ∃ e, Machine.bindArguments function params args named = .error e))
          (n.eval call e) (Machine.activate call limit closure args [] h) := by
  obtain ⟨r, closure, hf, hfunction, hconcludes⟩ :=
    compile_concludes hbuilt hvalued hstraight hnodup hroom hcompile
  refine ⟨r, closure, hf, hfunction,
    fun T call limit e h args places hargs hlimit hheld hholds hoperands => ?_⟩
  cases n with
  | call callee positional star keywords doubleStar method =>
    refine hconcludes rfl rfl hargs hlimit hheld hholds fun hat =>
      (Tie.ends_call (Bool.not_inj hspreads) hoperands hat).weaken fun hcollapses => ?_
    refine ⟨hcollapses.moves, fun hrepeated => Machine.bindArguments_repeated fun hall => ?_⟩
    obtain ⟨spread, hnames, -, -⟩ := hcollapses.names
    rw [hnames] at hall
    exact hrepeated hall.of_append_left
  | _ => cases hspreads

/-- A call that gives one keyword twice, with 1 and with 2. The keyword is a quote, which is quoted
without a look at the table of printable characters. -/
def Node.doubled : Node :=
  .call (.var "g") [] none
    [("\"", .const (.int 1) "int:1"), ("\"", .const (.int 2) "int:2")] none false

theorem compile_collapses_doubled :
    ∃ f h₁ r closure, compile (fun _ _ => false) none "f" ["g"] Node.doubled {} {} = (.ok f, h₁) ∧
      f = .function r ∧ h₁.function? r = some (.compiled closure) ∧
      ∀ (call : Caller) (limit : Nat), 65535 ≤ limit →
        (Tie.ofNames ["g"]).Concludes [0] ((Tie.ofNames ["g"]).Calls call fun places named named' =>
            Forall₂ (Keyword.Moves places) (Keyword.collapse named) named' ∧
              (¬Node.doubled.explicit.Nodup → ∀ function params args,
                ∃ e, Machine.bindArguments function params args named = .error e))
          (Node.doubled.eval call ⟨h₁, ({} : Bindings).setAll ([↑"g"].zip [f])⟩)
          (Machine.activate call limit closure [f] [] h₁) := by
  obtain ⟨h₁, hcompile, hcells⟩ :
      ∃ h₁, compile (fun _ _ => false) none "f" ["g"] Node.doubled {} {} =
      (.ok (.function 0), h₁) ∧ h₁.cells = #[.function (.compiled ⟨"f", ["g"], 0, {}⟩)] :=
    ⟨(compile (fun _ _ => false) none "f" ["g"] Node.doubled {} {}).2, by cbv, by cbv⟩
  obtain ⟨r, closure, hf, hfunction, hruns⟩ :=
    compile_collapses (by decide) (by decide) (by decide) (by decide) (by decide)
      (by decide) hcompile
  refine ⟨_, h₁, r, closure, hcompile, hf, hfunction, fun call limit hlimit => ?_⟩
  refine hruns (Tie.ofNames ["g"]) call limit _ h₁ [.function 0] [0] rfl hlimit rfl ?_ ?_
  · refine ⟨⟨by rw [hcells]; rfl, by decide, fun {q q' cell} hcell hq => ?_⟩,
      fun q d hcell => ?_, ?_⟩
    · rw [hcells] at hcell ⊢
      rcases q with _ | q
      · cases hq
        cases hcell
        exact ⟨_, rfl, .function (.compiled .nil)⟩
      · cases hq
    · rw [hcells] at hcell
      rcases q with _ | q <;> cases hcell
    · intro name hname
      obtain rfl := mem_singleton.mp hname
      exact ⟨.function 0, rfl, rfl⟩
  · intro p hp
    simp only [Node.doubled, Node.operands, Node.origin, Context.along, Option.toList,
      map_cons, map_nil, nil_append, append_nil, mem_cons, not_mem_nil, or_false] at hp
    rcases hp with rfl | rfl | rfl
    · exact Tie.pushes_var (by decide) (by decide)
    all_goals exact Tie.pushes_int _ _

/-- Evaluation and code of a call that gives a keyword twice do not end alike: the function that is
called refuses the keywords of the evaluation and takes the last value from the code. -/
theorem compile_doubled_takes_last :
    ∃ h₁ h₂, compile (fun _ _ => false) none "g" ["\""] (.var "\"") {} {} =
      (.ok (.function 0), h₁) ∧
      compile (fun _ _ => false) none "f" ["g"] Node.doubled {} h₁ = (.ok (.function 1), h₂) ∧
      (Node.doubled.eval (callWithin 65535) ⟨h₂, ({} : Bindings).set "g" (.function 0)⟩).1 =
        .error (.runtime (.repeatedArgument "g" "\"")) ∧
      (callWithin 65536 (.function 1) [.function 0] [] h₂).1 = .ok (.int 2) := by
  refine ⟨(compile (fun _ _ => false) none "g" ["\""] (.var "\"") {} {}).2,
    (compile (fun _ _ => false) none "f" ["g"] Node.doubled {}
      (compile (fun _ _ => false) none "g" ["\""] (.var "\"") {} {}).2).2, by cbv, by cbv, ?_, ?_⟩
  · decide +kernel
  · decide +kernel

end ExprBackend
