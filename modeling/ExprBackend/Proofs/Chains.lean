import ExprBackend.Proofs.Folding

/-! # Chains of operands and of comparisons

A short-circuit chain is shortened when it is built: constants that cannot be the
result are left out, and all that follows one that ends the chain. Evaluating what
is left is the plain loop over all operands, as long as no constant changes sides
between the building and the moment the loop gets to it.

A chain of comparisons can be made longer by one link. This is the comparison with
all links, unless the chain was carried out when it was built and only its result is
left: then the result itself is compared.
-/

namespace ExprBackend

open List

variable {call : Caller} {code : UInt8} {ns : List Node} {op : CompareOp} {α : Type} {σ : EvalState}
  {x : Run α}

namespace Node

variable {junction : Junction}

/-! ## Short-circuit chains -/

/-- The plain loop over operands: they are evaluated one after the other until one fails or ends the
chain, and the last one counts in any case. -/
inductive ShortCircuits (call : Caller) (junction : Junction) :
    List Node → EvalState → Except Failure Value × EvalState → Prop
  | last (n : Node) (σ : EvalState) : ShortCircuits call junction [n] σ (n.eval call σ)
  | fails {n m : Node} {rest : List Node} {σ τ : EvalState} {failure : Failure} :
      n.eval call σ = (.error failure, τ) →
      ShortCircuits call junction (n :: m :: rest) σ (.error failure, τ)
  | ends {n m : Node} {rest : List Node} {σ τ : EvalState} {v : Value} :
      n.eval call σ = (.ok v, τ) → junction.endsWith (τ.heap.truthy v) = true →
      ShortCircuits call junction (n :: m :: rest) σ (.ok v, τ)
  | goesOn {n m : Node} {rest : List Node} {σ τ : EvalState} {v : Value}
      {outcome : Except Failure Value × EvalState} :
      n.eval call σ = (.ok v, τ) → junction.endsWith (τ.heap.truthy v) = false →
      ShortCircuits call junction (m :: rest) τ outcome →
      ShortCircuits call junction (n :: m :: rest) σ outcome

/-- Whenever the loop over operands gets to a constant, this is on the side on which it was in a
given heap. The last operand is not asked. -/
def Steady (call : Caller) (junction : Junction) (h : Heap) : List Node → EvalState → Prop
  | [], _ | [_], _ => True
  | n :: rest, σ =>
    (∀ v, n.constant? = some v → σ.heap.truthy v = h.truthy v) ∧
      ∀ v τ, n.eval call σ = (.ok v, τ) → junction.endsWith (τ.heap.truthy v) = false →
        Steady call junction h rest τ

theorem evalOperands_cons_apply (n m : Node) (rest : List Node) (σ : EvalState) :
    evalOperands call junction (n :: m :: rest) σ = match n.eval call σ with
      | (.ok v, τ) =>
        if junction.endsWith (τ.heap.truthy v) then (.ok v, τ)
        else evalOperands call junction (m :: rest) τ
      | (.error failure, τ) => (.error failure, τ) := by
  rw [evalOperands_cons call junction n (cons_ne_nil m rest), bind_apply]
  rcases n.eval call σ with ⟨failure | v, τ⟩
  · rfl
  · change (if junction.endsWith (τ.heap.truthy v) then _ else _ : Eval Value) τ =
      if junction.endsWith (τ.heap.truthy v) then _ else _
    split <;> rfl

/-- Evaluating operands is the plain loop. -/
theorem shortCircuits_evalOperands (hns : ns ≠ []) (σ : EvalState) :
    ShortCircuits call junction ns σ (evalOperands call junction ns σ) := by
  induction ns generalizing σ with
  | nil => exact absurd rfl hns
  | cons n rest ih =>
    cases rest with
    | nil => exact .last n σ
    | cons m rest =>
      rw [evalOperands_cons_apply]
      rcases heval : n.eval call σ with ⟨failure | v, τ⟩
      · exact .fails heval
      · dsimp only
        split
        next hends => exact .ends heval hends
        next hends =>
          exact .goesOn heval (Bool.eq_false_iff.mpr hends) (ih (cons_ne_nil m rest) τ)

/-- The plain loop comes to one end only. -/
theorem ShortCircuits.eq_evalOperands {outcome : Except Failure Value × EvalState}
    (hloop : ShortCircuits call junction ns σ outcome) :
    evalOperands call junction ns σ = outcome := by
  induction hloop with
  | last n σ => rfl
  | fails heval => rw [evalOperands_cons_apply, heval]
  | ends heval hends =>
    rw [evalOperands_cons_apply, heval]
    exact if_pos hends
  | goesOn heval hends _ ih =>
    rw [evalOperands_cons_apply, heval]
    dsimp only
    rw [hends, if_neg Bool.false_ne_true, ih]

/-- The operands that are left over are evaluated as all of them are. -/
theorem evalOperands_prune (h : Heap) (hsteady : Steady call junction h ns σ) :
    evalOperands call junction (Build.prune h junction ns) σ = evalOperands call junction ns σ := by
  induction ns generalizing σ with
  | nil => rfl
  | cons n rest ih =>
    cases rest with
    | nil => rfl
    | cons m rest =>
      obtain ⟨hside, hrest⟩ := hsteady
      rw [prune_cons h junction n (cons_ne_nil m rest), evalOperands_cons_apply]
      unfold Build.decides?
      cases hconst : n.constant? with
      | none =>
        dsimp only [Option.map_none]
        obtain ⟨first, others, hkept⟩ :=
          exists_cons_of_ne_nil (prune_ne_nil h junction (cons_ne_nil m rest))
        rw [hkept, evalOperands_cons_apply, ← hkept]
        rcases heval : n.eval call σ with ⟨failure | v, τ⟩
        · rfl
        · dsimp only
          split
          next => rfl
          next hends => exact ih (hrest v τ heval (Bool.eq_false_iff.mpr hends))
      | some v =>
        obtain ⟨signature, rfl⟩ := eq_const_of_constant? hconst
        have heval : eval call (.const v signature) σ = (.ok v, σ) := by
          rw [eval, pure_apply]
        have hsame := hside v hconst
        rw [heval, Option.map_some]
        dsimp only
        rw [hsame]
        -- the constant is taken, or passed by, here as in the loop
        cases hends : junction.endsWith (h.truthy v) with
        | true => exact heval
        | false => exact ih (hrest v σ heval (by rw [hsame, hends]))

/-- A short-circuit chain can be built of any operands, and evaluating it is the plain loop over all
of them: with the same value or failure, heap and environment, whatever calls do, as long as the
constants among the operands are then on the side on which they were when the chain was built. -/
theorem eval_logical_shortCircuits (junction : Junction) {operands : List Node}
    (hne : operands ≠ []) (h : Heap) :
    ∃ n, Build.logical junction operands h = (.ok n, h) ∧
      ∀ (call : Caller) (σ : EvalState), Steady call junction h operands σ → ∀ outcome,
        n.eval call σ = outcome ↔ ShortCircuits call junction operands σ outcome := by
  have hkept := prune_ne_nil h junction hne
  obtain ⟨n, hbuild, heval⟩ : ∃ n, Build.logical junction operands h = (.ok n, h) ∧
      ∀ call, n.eval call = evalOperands call junction (Build.prune h junction operands) := by
    rw [logical_apply]
    generalize Build.prune h junction operands = kept at hkept
    split
    · exact absurd rfl hkept
    · exact ⟨_, rfl, fun call => rfl⟩
    · exact ⟨_, rfl, fun call => by rw [eval]⟩
  refine ⟨n, hbuild, fun call σ hsteady outcome => ?_⟩
  rw [heval, evalOperands_prune h hsteady]
  constructor
  · rintro rfl
    exact shortCircuits_evalOperands hne σ
  · exact ShortCircuits.eq_evalOperands

def mixedOperands : List Node := [.var "x", .const (.bool true) "bool:True", .var "y"]

theorem eval_logical_shortCircuits_mixed :
    ∃ n, Build.logical .and mixedOperands {} = (.ok n, {}) ∧
      ∀ call outcome, n.eval call ⟨{}, ({} : Bindings).set "x" (.int 7)⟩ = outcome ↔
        ShortCircuits call .and mixedOperands ⟨{}, ({} : Bindings).set "x" (.int 7)⟩ outcome := by
  obtain ⟨n, hbuild, heval⟩ :=
    eval_logical_shortCircuits .and (cons_ne_nil (.var "x") mixedOperands.tail) {}
  refine ⟨n, hbuild, fun call => heval call _ ⟨nofun, fun v τ _ _ => ⟨?_, fun _ _ _ _ => trivial⟩⟩⟩
  rintro _ ⟨⟩
  rfl

/-- A call that fills an empty dictionary, the dictionary, and a number. -/
def fillingOperands : List Node :=
  [.call (.const (.function 1) "f") [.const (.dict 0) "d", .const (.int 1) "1",
    .const (.int 1) "1"] none [] none false,
    .const (.dict 0) "d", .const (.int 5) "5"]

/-- A heap with an empty dictionary and the function that sets an item. -/
def fillingHeap : Heap := { cells := #[.dict .empty, .function (.builtin "setitem" .setItem)] }

/-- A chain that was cut off behind an empty dictionary ends there, also when the dictionary has
been filled before the chain gets to it. The plain loop goes on to the next operand. -/
theorem eval_logical_filled_dict :
    ∃ n, Build.logical .and fillingOperands fillingHeap = (.ok n, fillingHeap) ∧
      (n.eval (callWithin 2) ⟨fillingHeap, {}⟩).1 = .ok (.dict 0) ∧
      ∃ σ, ShortCircuits (callWithin 2) .and fillingOperands ⟨fillingHeap, {}⟩
        (.ok (.int 5), σ) := by
  refine ⟨.logical .and (fillingOperands.take 2), by rfl, by decide +kernel,
    (evalOperands (callWithin 2) .and fillingOperands ⟨fillingHeap, {}⟩).2, ?_⟩
  have hvalue : (evalOperands (callWithin 2) .and fillingOperands ⟨fillingHeap, {}⟩).1 =
      .ok (.int 5) := by
    decide +kernel
  rw [← hvalue]
  exact shortCircuits_evalOperands (cons_ne_nil _ fillingOperands.tail) ⟨fillingHeap, {}⟩

end Node

/-! ## Comparisons -/

namespace Run

/-- An operation that leaves the heap as it is. -/
def Reads {α : Type} (x : Run α) : Prop := ∀ h, (x h).2 = h

section Reads

variable {β : Type}

theorem reads_pure (a : α) : Reads (pure a) := fun _ => rfl

theorem reads_throw (failure : Failure) : Reads (throw failure : Run α) := fun _ => rfl

theorem reads_bind {f : α → Run β} (hx : Reads x) (hf : ∀ a, Reads (f a)) : Reads (x >>= f) := by
  intro h
  have hstate := hx h
  rw [bind_apply]
  generalize x h = outcome at hstate
  obtain ⟨failure | a, h'⟩ := outcome
  · exact hstate
  · exact (hf a h').trans hstate

theorem reads_get_bind {f : Heap → Run β} (hf : ∀ h, Reads (f h)) : Reads (get >>= f) :=
  fun h => hf h h

theorem reads_ofComparison (x : Option α) : Reads (ofComparison x) := by
  cases x with
  | none => exact reads_throw _
  | some a => exact reads_pure a

theorem reads_contains (container item : Value) : Reads (contains container item) := by
  refine reads_get_bind fun h => ?_
  split
  · exact reads_pure _
  · exact reads_ofComparison _
  · exact reads_ofComparison _
  · refine reads_bind (reads_bind (reads_get_bind fun h => ?_) fun _ => ?_) fun _ => reads_pure _
    · split
      · exact reads_pure _
      · exact reads_throw _
    · exact reads_get_bind fun _ => reads_pure _
  · exact reads_throw _

theorem reads_order {f : Ordering → Value} {failure : Failure} (a b : Value) :
    Reads (do
      match ← ofComparison ((← get).order a b) with
      | .ok o => return f o
      | .error _ => throw failure) := by
  refine reads_get_bind fun h => reads_bind (reads_ofComparison _) fun result => ?_
  split
  · exact reads_pure _
  · exact reads_throw _

/-- Comparing changes nothing. -/
theorem reads_compareCode (code : UInt8) (a b : Value) : Reads (compareCode code a b) := by
  unfold compareCode
  split
  next op _ =>
    cases op with
    | is | isNot => exact fun _ => rfl
    | eq | ne =>
      exact reads_get_bind fun h => reads_bind (reads_ofComparison _) fun _ => reads_pure _
    | lt | le | gt | ge => exact reads_order a b
    | isIn | notIn => exact reads_bind (reads_contains b a) fun _ => reads_pure _
  next => exact reads_order a b

end Reads

end Run

theorem CompareOp.code_of_ofCode? (h : ofCode? code = some op) : op.code = code := by
  have hlt : code.toNat < 10 := (List.getElem?_eq_some_iff.mp h).1
  have hall : ∀ i < 10, ∀ op, all[i]? = some op → op.code.toNat = i := by decide
  exact UInt8.toNat_inj.mp (hall code.toNat hlt op h)

namespace Node

variable {links : List (UInt8 × Node)} {made : List (CompareOp × Node)} {h h' : Heap}
  {result left v : Value} {subject m right : Node} {operands : List Value}

/-- The links of a comparison give back the numbers that they were made of. -/
theorem codes_of_mapM
    (h : (links.mapM fun (code, n) => (CompareOp.ofCode? code).map (·, n)) = some made) :
    made.map (fun (op, n) => (op.code, n)) = links := by
  induction links generalizing made with
  | nil =>
    cases h
    rfl
  | cons link rest ih =>
    obtain ⟨code, n⟩ := link
    rw [mapM_cons] at h
    obtain ⟨first, hfirst, h⟩ := Option.bind_eq_some_iff.mp h
    obtain ⟨others, hothers, h⟩ := Option.bind_eq_some_iff.mp h
    obtain ⟨op, hop, rfl⟩ := Option.map_eq_some_iff.mp hfirst
    cases h
    obtain rfl := CompareOp.code_of_ofCode? hop
    exact congrArg _ (ih hothers)

/-- What comes of building a comparison: the result, if all operands are constants, or else a chain.
-/
inductive Compared (subject : Node) (links : List (UInt8 × Node)) (h : Heap) : Node → Prop
  | folded {v result : Value} {operands : List Value} : subject.constant? = some v →
      constants? (links.map Prod.snd) = some operands →
      Build.foldLinks (.bool true) v ((links.map Prod.fst).zip operands) h = (.ok result, h) →
      Compared subject links h (.const result (h.signature result))
  | chain {made : List (CompareOp × Node)} :
      (subject.constant? = none ∨ constants? (links.map Prod.snd) = none) →
      made.map (fun (op, n) => (op.code, n)) = links →
      Compared subject links h (.compare subject made)

theorem reads_folding (operation : Text) (hx : x.Reads) : (Build.folding operation x).Reads := by
  intro h
  have hstate := hx h
  rw [Build.folding_apply]
  generalize x h = outcome at hstate
  obtain ⟨failure | a, h'⟩ := outcome
  · exact hstate
  · exact hstate

theorem folding_eq_ok {operation : Text} {a : α} :
    Build.folding operation x h = (.ok a, h') ↔ x h = (.ok a, h') := by
  rw [Build.folding_apply]
  rcases x h with ⟨failure | b, h₁⟩
  · constructor <;> intro hok <;> cases hok
  · exact Iff.rfl

theorem reads_foldLinks (links : List (UInt8 × Value)) (result left : Value) :
    (Build.foldLinks result left links).Reads := by
  induction links generalizing result left with
  | nil => exact Run.reads_pure result
  | cons link rest ih =>
    refine Run.reads_bind (reads_folding _ (Run.reads_compareCode _ _ _)) fun value => ?_
    refine Run.reads_get_bind fun h => ?_
    split
    · exact ih value _
    · exact Run.reads_pure value

/-- A comparison that is carried out goes on with the next link as long as the result is true. -/
theorem foldLinks_cons_eq_ok {right : Value} {rest : List (UInt8 × Value)} :
    Build.foldLinks result left ((code, right) :: rest) h = (.ok v, h) ↔
      ∃ value, Run.compareCode code left right h = (.ok value, h) ∧
        if h.truthy value then Build.foldLinks value right rest h = (.ok v, h) else value = v := by
  rw [Build.foldLinks, bind_eq_ok]
  constructor
  · rintro ⟨value, t, hvalue, hrest⟩
    rw [folding_eq_ok] at hvalue
    have hstate := Run.reads_compareCode code left right h
    rw [hvalue] at hstate
    obtain rfl : t = h := hstate
    refine ⟨value, hvalue, ?_⟩
    change (if t.truthy value then _ else _ : Run Value) t = _ at hrest
    split at hrest
    next htrue => rwa [if_pos htrue]
    next hfalse =>
      rw [if_neg hfalse]
      cases hrest
      rfl
  · rintro ⟨value, hvalue, hrest⟩
    refine ⟨value, h, folding_eq_ok.mpr hvalue, ?_⟩
    change (if h.truthy value then _ else _ : Run Value) h = _
    split at hrest
    next htrue => rwa [if_pos htrue]
    next hfalse => rw [if_neg hfalse, hrest, pure_apply]

/-- What comes of building a comparison: the result, if all operands are constants, or else a chain.
-/
theorem compared_of_compareCodes (hm : (Build.compareCodes subject links h).1 = .ok m) :
    links ≠ [] ∧ Compared subject links h m := by
  unfold Build.compareCodes at hm
  by_cases hempty : links = []
  · subst hempty
    cases hm
  refine ⟨hempty, ?_⟩
  rw [if_neg (by simpa using hempty)] at hm
  split at hm
  next v operands hv hoperands =>
    have hstate := reads_foldLinks ((links.map Prod.fst).zip operands) (.bool true) v h
    dsimp only at hm
    rw [bind_apply] at hm
    rcases hfold : Build.foldLinks (.bool true) v ((links.map Prod.fst).zip operands) h with
      ⟨failure | result, h'⟩
    · rw [hfold] at hm
      cases hm
    · rw [hfold] at hm hstate
      obtain rfl : h' = h := hstate
      cases hm
      exact .folded hv hoperands hfold
  next hnot =>
    split at hm
    next made hmade =>
      cases hm
      refine .chain ?_ (codes_of_mapM hmade)
      by_contra hboth
      obtain ⟨hv, hoperands⟩ := not_or.mp hboth
      obtain ⟨v, hv⟩ := Option.ne_none_iff_exists'.mp hv
      obtain ⟨operands, hoperands⟩ := Option.ne_none_iff_exists'.mp hoperands
      exact hnot v operands hv hoperands
    next => cases hm

/-- Comparing with one more link, when all operands are constants. -/
theorem foldLinks_append {links : List (UInt8 × Value)} {r w : Value} (hresult : h.truthy result)
    (hlinks : Build.foldLinks result left links h = (.ok v, h))
    (hmore : Build.foldLinks result left (links ++ [(code, w)]) h = (.ok r, h)) :
    if h.truthy v then Run.compareCode code ((links.map Prod.snd).getLastD left) w h = (.ok r, h)
      else r = v := by
  induction links generalizing result left with
  | nil =>
    cases hlinks
    obtain ⟨value, hvalue, hrest⟩ := foldLinks_cons_eq_ok.mp hmore
    rw [if_pos hresult]
    split at hrest
    · cases hrest
      exact hvalue
    · exact hrest ▸ hvalue
  | cons link rest ih =>
    obtain ⟨first, right⟩ := link
    obtain ⟨value, hvalue, hrest⟩ := foldLinks_cons_eq_ok.mp hlinks
    obtain ⟨value', hvalue', hmore⟩ := foldLinks_cons_eq_ok.mp hmore
    cases hvalue.symm.trans hvalue'
    by_cases htrue : h.truthy value
    · rw [if_pos htrue] at hrest hmore
      have hlast := ih htrue hrest hmore
      rwa [map_cons, getLastD_cons]
    · rw [if_neg htrue] at hrest hmore
      rw [← hrest, if_neg htrue, hmore]

theorem evalLinks_single (op : CompareOp) (n : Node) (result left : Value) :
    evalLinks call result left [(op, n)] = (do
      let w ← n.eval call
      Eval.ofRun (Run.compare op left w)) := by
  rw [evalLinks]
  refine bind_congr fun w => funext fun σ => ?_
  rw [bind_apply]
  rcases Eval.ofRun (Run.compare op left w) σ with ⟨failure | value, τ⟩
  · rfl
  · change (if τ.heap.truthy value then _ else _ : Eval Value) τ = _
    split <;> rfl

theorem ofRun_eq {x : Run Value} {result : Except Failure Value}
    (hx : x σ.heap = (result, σ.heap)) : Eval.ofRun x σ = (result, σ) := by
  rw [Eval.ofRun, hx]

/-- Comparing constants goes as it went when they were compared before, and ends with the link that
is new. -/
theorem evalLinks_append (hresult : σ.heap.truthy result)
    (hoperands : constants? (made.map Prod.snd) = some operands)
    (hlinks : Build.foldLinks result left ((made.map fun link => link.1.code).zip operands) σ.heap =
      (.ok v, σ.heap)) : evalLinks call result left (made ++ [(op, right)]) σ =
      if σ.heap.truthy v then
        (do
          let w ← right.eval call
          Eval.ofRun (Run.compare op (operands.getLastD left) w)) σ
      else (.ok v, σ) := by
  induction made generalizing result left operands with
  | nil =>
    cases hoperands
    cases hlinks
    rw [if_pos hresult, nil_append, evalLinks_single]
    rfl
  | cons link rest ih =>
    obtain ⟨first, n⟩ := link
    rw [map_cons, constants?] at hoperands
    split at hoperands <;> cases hoperands
    next w ws hw hws =>
      obtain ⟨signature, rfl⟩ := eq_const_of_constant? hw
      obtain ⟨value, hvalue, hrest⟩ := foldLinks_cons_eq_ok.mp hlinks
      rw [compareCode_code] at hvalue
      have hcompare := ofRun_eq hvalue
      rw [cons_append, evalLinks, eval, pure_bind, bind_of_ok hcompare]
      change (if σ.heap.truthy value then _ else _ : Eval Value) σ = _
      split at hrest
      next htrue =>
        rw [if_pos htrue, ih htrue hws hrest, getLastD_cons]
      next hfalse =>
        rw [if_neg hfalse, ← hrest, if_neg hfalse, pure_apply]

theorem constants?_concat (ns : List Node) (n : Node) :
    constants? (ns ++ [n]) = (constants? ns).bind fun vs => n.constant?.map fun v => vs ++ [v] := by
  induction ns with
  | nil => cases hn : n.constant? <;> simp [constants?, hn]
  | cons m rest ih =>
    rw [cons_append, constants?, constants?, ih]
    cases m.constant? <;> cases constants? rest <;> cases n.constant? <;> rfl

theorem length_of_constants? {vs : List Value} (h : constants? ns = some vs) :
    vs.length = ns.length := by
  induction ns generalizing vs with
  | nil =>
    cases h
    rfl
  | cons n rest ih =>
    rw [constants?] at h
    split at h <;> cases h
    next _ hrest => rw [length_cons, length_cons, ih hrest]

/-- What a comparison of constants with one more link evaluates to, in the heap in which it was
built. -/
theorem Compared.eval_append {e : Node} {first : Value} (hsubject : subject.constant? = some first)
    (hoperands : constants? (links.map Prod.snd) = some operands)
    (hfold : Build.foldLinks (.bool true) first ((links.map Prod.fst).zip operands) σ.heap =
      (.ok v, σ.heap)) (he : Compared subject (links ++ [(code, right)]) σ.heap e) :
    e.eval call σ = if σ.heap.truthy v then (do
        let w ← right.eval call
        Eval.ofRun (Run.compareCode code (operands.getLastD first) w)) σ
      else (.ok v, σ) := by
  have hlength : (links.map Prod.fst).length = operands.length := by
    rw [length_of_constants? hoperands, length_map, length_map]
  cases he with
  | @folded first' result all hsubject' hall hmore =>
    cases hsubject.symm.trans hsubject'
    rw [map_append, map_cons, map_nil, constants?_concat, hoperands] at hall
    obtain ⟨w, hw, rfl⟩ := Option.map_eq_some_iff.mp hall
    obtain ⟨signature, rfl⟩ := eq_const_of_constant? hw
    rw [map_append, map_cons, map_nil, zip_append hlength] at hmore
    have hlast := foldLinks_append (by rfl) hfold hmore
    rw [map_snd_zip (Nat.le_of_eq hlength.symm)] at hlast
    rw [eval, pure_apply, eval, pure_bind]
    split at hlast
    next htrue => rw [if_pos htrue, ofRun_eq hlast]
    next hfalse => rw [if_neg hfalse, hlast]
  | @chain made _ hmade =>
    obtain ⟨before, added, rfl, hbefore, hadded⟩ := map_eq_append_iff.mp hmade
    obtain ⟨⟨op, n⟩, rfl, hlink⟩ := map_eq_singleton_iff.mp hadded
    obtain ⟨rfl, rfl⟩ := Prod.mk.inj hlink
    obtain ⟨signature, rfl⟩ := eq_const_of_constant? hsubject
    cases hbefore
    have hsnd : before.map Prod.snd = (before.map fun (op, n) => (op.code, n)).map Prod.snd := by
      rw [map_map]
      rfl
    have hfst : (before.map fun link => link.1.code) =
        (before.map fun (op, n) => (op.code, n)).map Prod.fst := by
      rw [map_map]
      rfl
    rw [eval, eval, pure_bind, evalLinks_append (by rfl) (hsnd ▸ hoperands) (hfst ▸ hfold)]
    simp only [compareCode_code]

theorem Compared.eq_of_chain {m' : Node}
    (hopen : subject.constant? = none ∨ constants? (links.map Prod.snd) = none)
    (hm : Compared subject links h m) (hm' : Compared subject links h' m') : m = m' := by
  have hinjective : Function.Injective fun link : CompareOp × Node => (link.1.code, link.2) := by
    rintro ⟨op, n⟩ ⟨op', n'⟩ hlink
    obtain ⟨hcode, hn⟩ := Prod.mk.inj hlink
    have hop := ofCode?_code op
    rw [show op.code = op'.code from hcode, ofCode?_code] at hop
    exact Prod.ext (Option.some.inj hop).symm hn
  rcases hm with ⟨hv, hoperands, _⟩ | ⟨_, hmade⟩
  · rcases hopen with hnone | hnone
    · cases hnone.symm.trans hv
    · cases hnone.symm.trans hoperands
  rcases hm' with ⟨hv, hoperands, _⟩ | ⟨_, hmade'⟩
  · rcases hopen with hnone | hnone
    · cases hnone.symm.trans hv
    · cases hnone.symm.trans hoperands
  rw [map_injective_iff.mpr hinjective (hmade.trans hmade'.symm)]

/-- A chain of comparisons that is made longer by one link evaluates as the comparison with all
links, unless it was carried out when it was built. Of a chain that was carried out only the result
is left: with one more link it is the result that is compared, also if it is false, where the
comparison with all links stops at a false result and else compares the last operand. -/
theorem chainCode_evaluates (subject : Node) (links : List (UInt8 × Node)) (code : UInt8)
    (right : Node) (h h₁ h₂ : Heap) {m chained extended : Node}
    (hm : (Build.compareCodes subject links h).1 = .ok m)
    (hchained : (Build.chainCode m code right h₁).1 = .ok chained)
    (hextended : (Build.compareCodes subject (links ++ [(code, right)]) h₂).1 = .ok extended) :
    (m.constant? = none → ∀ call σ, chained.eval call σ = extended.eval call σ) ∧
    ∀ v, m.constant? = some v → h₁ = h → h₂ = h →
      ∃ last, (links.getLast?.bind fun link => link.2.constant?) = some last ∧
        ∀ call σ, σ.heap = h →
          chained.eval call σ = (do
            let w ← right.eval call
            Eval.ofRun (Run.compareCode code v w)) σ ∧
          extended.eval call σ = if h.truthy v then (do
            let w ← right.eval call
            Eval.ofRun (Run.compareCode code last w)) σ
          else (.ok v, σ) := by
  obtain ⟨hne, hcompared⟩ := compared_of_compareCodes hm
  obtain ⟨-, hlonger⟩ := compared_of_compareCodes hextended
  cases hcompared with
  | @chain made hopen hmade =>
    refine ⟨fun _ call σ => ?_, nofun⟩
    change (Build.compareCodes subject (made.map (fun (op, n) => (op.code, n)) ++ _) h₁).1 =
        _ at hchained
    rw [hmade] at hchained
    have hopen' : subject.constant? = none ∨
        constants? ((links ++ [(code, right)]).map Prod.snd) = none := by
      rw [map_append, map_cons, map_nil, constants?_concat]
      exact hopen.imp_right fun hnone => by rw [hnone, Option.bind_none]
    rw [Compared.eq_of_chain hopen' (compared_of_compareCodes hchained).2 hlonger]
  | @folded first result operands hsubject hoperands hfold =>
    refine ⟨nofun, ?_⟩
    rintro _ ⟨⟩ rfl rfl
    obtain ⟨before, ⟨code', n⟩, rfl⟩ := (eq_nil_or_concat' links).resolve_left hne
    have hall := hoperands
    rw [map_append, map_cons, map_nil, constants?_concat] at hall
    obtain ⟨others, -, hmore⟩ := Option.bind_eq_some_iff.mp hall
    obtain ⟨last, hlast, rfl⟩ := Option.map_eq_some_iff.mp hmore
    refine ⟨last, by rw [getLast?_concat]; exact hlast, ?_⟩
    rintro call σ rfl
    constructor
    · have hnone : constants? (([] : List (UInt8 × Node)).map Prod.snd) = some [] := rfl
      exact Compared.eval_append rfl hnone rfl (compared_of_compareCodes hchained).2
    · rw [hlonger.eval_append hsubject hoperands hfold, getLastD_concat]

/-- A comparison of a name is extended; one of two with three is folded, and of three only its truth
is compared any further. -/
theorem chainCode_evaluates_names :
    (∃ m chained extended, (Build.compareCodes (.var "x") [(2, .const (.int 2) "2")] {}).1 = .ok m ∧
      (Build.chainCode m 2 (.var "y") {}).1 = .ok chained ∧
      (Build.compareCodes (.var "x") ([(2, .const (.int 2) "2")] ++ [(2, .var "y")]) {}).1 =
        .ok extended ∧
      m.constant? = none ∧ ∀ call σ, chained.eval call σ = extended.eval call σ) ∧
    ∃ m chained extended,
      (Build.compareCodes (.const (.int 2) "2") [(2, .const (.int 3) "3")] {}).1 = .ok m ∧
      (Build.chainCode m 2 (.var "y") {}).1 = .ok chained ∧
      (Build.compareCodes (.const (.int 2) "2")
        ([(2, .const (.int 3) "3")] ++ [(2, .var "y")]) {}).1 = .ok extended ∧
      m.constant? = some (.bool true) ∧ ∀ call σ, σ.heap = {} →
        chained.eval call σ = (do
          let w ← (Node.var "y").eval call
          Eval.ofRun (Run.compareCode 2 (.bool true) w)) σ ∧
        extended.eval call σ = (do
          let w ← (Node.var "y").eval call
          Eval.ofRun (Run.compareCode 2 (.int 3) w)) σ := by
  refine ⟨⟨.compare (.var "x") [(.lt, .const (.int 2) "2")], _, _, rfl, rfl, rfl, rfl, ?_⟩,
    .const (.bool true) (({} : Heap).signature (.bool true)), _, _, rfl, rfl, rfl, rfl, ?_⟩
  · exact (chainCode_evaluates (.var "x") [(2, .const (.int 2) "2")] 2 (.var "y") {} {} {} rfl rfl
      rfl).1 rfl
  · obtain ⟨last, hlast, heval⟩ := (chainCode_evaluates (.const (.int 2) "2")
      [(2, .const (.int 3) "3")] 2 (.var "y") {} {} {} rfl rfl rfl).2 (.bool true) rfl rfl rfl
    cases hlast
    exact heval

/-- Of the comparison of two with two only its truth is left, which is not equal to two. -/
theorem chain_folded_compares_result :
    ∃ m chained extended, (Build.compare (.const (.int 2) "2") [(.eq, .const (.int 2) "2")]
      {}).1 = .ok m ∧ (Build.chain m .eq (.const (.int 2) "2") {}).1 = .ok chained ∧
      (Build.compare (.const (.int 2) "2")
        ([(.eq, .const (.int 2) "2")] ++ [(.eq, .const (.int 2) "2")]) {}).1 = .ok extended ∧
      ∀ call σ, chained.eval call σ = (.ok (.bool false), σ) ∧
      extended.eval call σ = (.ok (.bool true), σ) :=
  ⟨_, _, _, rfl, rfl, rfl, fun _ _ => ⟨rfl, rfl⟩⟩

end Node

end ExprBackend
