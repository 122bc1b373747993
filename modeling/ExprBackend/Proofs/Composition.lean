import ExprBackend.Proofs.Emission
import ExprBackend.Proofs.Matching

/-! # Emissions made of parts

The code of an expression is put together of a few operations on the buffer and of
the code of its operands, which passes through a gate. A relation between
emissions that holds of those operations and is kept by sequences holds between
the codes of an expression emitted through two gates, if it holds between the
gates. It also holds between the codes of two expressions that match, if it holds
between those of their constants.
-/

namespace ExprBackend

open List

/-- The operations that read or write a variable. -/
def Opcode.named : Opcode → Bool
  | .loadLocal | .loadGlobal | .storeLocal => true
  | _ => false

/-- A relation between emissions that is kept by putting them together. It may depend on the labels
that are at hand: an emission makes labels of its own, and jumps to and places no others, apart from
the label of the dispatch loop. -/
structure Emit.Sequential (P : List Label → ∀ ⦃α : Type⦄, Emit α → Emit α → Prop) : Prop where
  pure : ∀ {own : List Label} {α : Type} (a : α), P own (Pure.pure a) (Pure.pure a)
  bind : ∀ {own : List Label} {α β : Type} {x y : Emit α} {f g : α → Emit β}, P own x y →
    (∀ a, P own (f a) (g a)) → P own (x >>= f) (y >>= g)
  instr : ∀ {own : List Label} {op operand change}, op.named = false →
    P own (append op operand change) (append op operand change)
  addName : ∀ {own : List Label} name, P own (addConstant (.str name)) (addConstant (.str name))
  newLabel : ∀ {own : List Label} {β : Type} {f g : Label → Emit β},
    (∀ l, P (l :: own) (f l) (g l)) → P own (newLabel >>= f) (newLabel >>= g)
  mark : ∀ {own : List Label} {l : Label}, l ∈ own → P own (mark l) (mark l)
  jump : ∀ {own : List Label} {l : Label}, l ∈ own → P own (jump l) (jump l)
  popJump : ∀ {own : List Label} op {l : Label}, l ∈ own → op.named = false →
    P own (popJump op l) (popJump op l)
  jumpOrPop : ∀ {own : List Label} op {l : Label}, l ∈ own → op.named = false →
    P own (jumpOrPop op l) (jumpOrPop op l)
  /-- What follows may depend on how high the stack is, and on whether it can be reached. -/
  look : ∀ {own : List Label} {β : Type} {f g : Code → Emit β}, (∀ c c', c'.name = c.name →
    c'.depth = c.depth → c'.reachable = c.reachable → P own (f c) (g c')) →
    P own (get >>= f) (get >>= g)
  fail : ∀ {own : List Label} {α : Type} (e : CodeError), P own (α := α) (fail e) (fail e)

/-- The relation holds also between operations on variables, whatever their names. -/
structure Emit.Compositional (P : List Label → ∀ ⦃α : Type⦄, Emit α → Emit α → Prop) : Prop
    extends Emit.Sequential P where
  append : ∀ {own : List Label} op operand change,
    P own (append op operand change) (append op operand change)
  instr _ := append ..
  localSlot : ∀ {own : List Label} name, P own (localSlot name) (localSlot name)
  loadName : ∀ {own : List Label} name, P own (loadName name) (loadName name)
  transfer : ∀ {own : List Label}, P own transfer transfer

/-- A relation of that kind between the emissions of any constant and of itself. -/
structure Emit.Congruence (P : List Label → ∀ ⦃α : Type⦄, Emit α → Emit α → Prop) : Prop
    extends Emit.Compositional P where
  addConstant : ∀ {own : List Label} v, P own (addConstant v) (addConstant v)
  addName name := addConstant (.str name)

namespace Emit.Sequential

variable {P : List Label → ∀ ⦃α : Type⦄, Emit α → Emit α → Prop} (hP : Sequential P)
  {own : List Label}

include hP

theorem loadString (s : Text) : P own (Emit.loadConst (.str s)) (Emit.loadConst (.str s)) :=
  hP.bind (hP.addName s) fun _ => hP.instr rfl

theorem getAttr (name : Text) : P own (Emit.getAttr name) (Emit.getAttr name) :=
  hP.bind (hP.addName name) fun _ => hP.instr rfl

theorem loadMethod (name : Text) : P own (Emit.loadMethod name) (Emit.loadMethod name) :=
  hP.bind (hP.addName name) fun _ => hP.instr rfl

theorem callEx (method : Bool) : P own (Emit.callEx method) (Emit.callEx method) := by
  cases method <;> exact hP.instr rfl

theorem popEffect (effect : Int) : P own (Emit.popEffect effect) (Emit.popEffect effect) := by
  rw [Emit.popEffect]
  split
  · exact hP.instr rfl
  · exact hP.pure ()

theorem leave (junction : Junction) {l : Label} (hl : l ∈ own) :
    P own (Emit.leave junction l) (Emit.leave junction l) := by
  cases junction <;> exact hP.jumpOrPop _ hl rfl

theorem reach {x y : Emit Unit} (h : P own x y) :
    P own (do if (← get).reachable then x) (do if (← get).reachable then y) := by
  refine hP.look fun c c' _ _ hlive => ?_
  rw [hlive]
  split
  · exact h
  · exact hP.pure ()

end Emit.Sequential

namespace Emit.Congruence

variable {P : List Label → ∀ ⦃α : Type⦄, Emit α → Emit α → Prop} (hP : Congruence P)
  {own : List Label}

include hP

theorem loadConst (own : List Label) (v : Value) : P own (Emit.loadConst v) (Emit.loadConst v) :=
  hP.bind (hP.addConstant v) fun _ => hP.append ..

/-- The code that looks up a value and keeps it is put together in the same way. -/
theorem cached (own : List Label) (hslot : ∀ own, P own cacheSlot cacheSlot)
    (hreport : ∀ own name key, P own (report (.cached name key)) (report (.cached name key)))
    (ordinal : Int) (n : Node) {x y : Emit Unit} (hx : ∀ own, P own x y) :
    P own (Emit.cached ordinal n x) (Emit.cached ordinal n y) := by
  have hkeep : ∀ (own : List Label) (slot : Nat) (done : Label), done ∈ own → P own
      (do dup; loadLocal slot; Emit.loadConst (.str (cacheKey n.signature ordinal))
          storeIndex; Emit.mark done)
      (do dup; loadLocal slot; Emit.loadConst (.str (cacheKey n.signature ordinal))
          storeIndex; Emit.mark done) :=
    fun own slot done hdone => hP.bind (hP.append ..) fun _ => hP.bind (hP.append ..) fun _ =>
      hP.bind (hP.loadConst ..) fun _ => hP.bind (hP.append ..) fun _ => hP.mark hdone
  refine hP.bind (hslot _) fun slot => hP.look fun c c' hname _ _ => ?_
  rw [hname]
  refine hP.bind (hreport ..) fun _ => hP.newLabel fun ready => hP.newLabel fun miss =>
    hP.newLabel fun done => hP.bind (hP.append ..) fun _ => hP.bind (hP.append ..) fun _ =>
    hP.bind (hP.append ..) fun _ => hP.bind (hP.popJump _ (by simp) rfl) fun _ =>
    hP.bind (hP.append ..) fun _ => hP.bind (hP.append ..) fun _ =>
    hP.bind (hP.mark (by simp)) fun _ => hP.bind (hP.loadConst ..) fun _ =>
    hP.bind (hP.append ..) fun _ => hP.bind (hP.append ..) fun _ =>
    hP.bind (hP.popJump _ (by simp) rfl) fun _ => hP.bind (hP.append ..) fun _ =>
    hP.bind (hP.loadConst ..) fun _ => hP.bind (hP.append ..) fun _ =>
    hP.bind (hP.jump (by simp)) fun _ => hP.bind (hP.mark (by simp)) fun _ =>
    hP.look fun c1 c1' _ hdepth1 _ => hP.bind (hx _) fun _ => hP.look fun c2 c2' _ _ hlive2 =>
    hP.look fun c3 c3' _ hdepth3 _ => ?_
  rw [hdepth1, hlive2, hdepth3]
  split
  · exact hP.bind (hP.fail _) fun _ => hkeep _ slot done (by simp)
  · exact hkeep _ slot done (by simp)

end Emit.Congruence

/-- A property of emissions that is kept by putting them together, and that does not depend on what
a buffer notes down beside the code. -/
structure Emit.Kept (P : List Label → ∀ ⦃α : Type⦄, Emit α → Prop) : Prop where
  congruence : Congruence fun own _ x _ => P own x
  read : ∀ {own : List Label}, P own (α := Marks) MonadReader.read
  stop : ∀ {own : List Label} {α : Type} (f : Fault), P own (α := α) (stop f)
  note : ∀ {own : List Label} {f : Code → Code}, (∀ c, ∃ scratch regions events observations,
    f c = { c with scratch, regions, events, observations }) → P own (α := PUnit) (modify f)
  within : ∀ {own : List Label} {n : Node} {x : Emit Unit}, P own x → P own (within n x)
  cacheSlot : ∀ {own : List Label}, P own cacheSlot

namespace Emit.Kept

variable {P : List Label → ∀ ⦃α : Type⦄, Emit α → Prop} (hP : Kept P)
  {own : List Label} {α β : Type} {n : Node} {x : Emit Unit}

include hP

theorem pure (a : α) : P own (Pure.pure a) := hP.congruence.pure a

theorem bind {x : Emit α} {f : α → Emit β} (hx : P own x) (hf : ∀ a, P own (f a)) :
    P own (x >>= f) :=
  hP.congruence.bind (y := x) (g := f) hx hf

theorem look {f : Code → Emit β} (hf : ∀ c, P own (f c)) : P own (get >>= f) :=
  hP.congruence.look (g := f) fun c _ _ _ _ => hf c

omit hP in
theorem ite {p : Prop} [Decidable p] {x y : Emit α} (hx : P own x) (hy : P own y) :
    P own (if p then x else y) := by
  split <;> assumption

theorem region (id : Nat) : P own (Emit.region id) := by
  have hopen : ∀ ordinal : Int, P own (do
      modify fun c => (c.setScratch regionCountKey (.count (ordinal + 1))).setRegion id { ordinal }
      Pure.pure ({ ordinal } : Region)) := fun ordinal =>
    hP.bind (hP.note fun c => ⟨_, _, _, _, rfl⟩) fun _ => hP.pure _
  refine hP.look fun c => ?_
  split
  · exact hP.pure _
  refine hP.look fun c => ?_
  split
  · exact hP.bind (hP.pure _) hopen
  · exact hP.bind (hP.pure _) hopen
  · exact hP.bind (hP.stop _) hopen

theorem setRegion (id : Nat) (r : Region) : P own (α := PUnit) (modify fun c => c.setRegion id r) :=
  hP.note fun _ => ⟨_, _, _, _, rfl⟩

theorem relay (hx : ∀ own, P own x) (id : Nat) (r : Region) (length : Nat)
    (hrest : ∀ next, P own (Emit.intercept n x length next)) :
    P own (Emit.relay id r n x length) := by
  have htakes : P own (takesOver id n) :=
    hP.bind hP.read fun marks => hP.look fun c => ite (hP.bind (hP.region id) fun r =>
      hP.bind (hP.setRegion ..) fun _ => hP.pure _) (hP.pure _)
  refine hP.bind htakes fun taken => ite (hP.bind ?_ fun _ => hP.pure _) ?_
  · exact hP.congruence.cached own (fun _ => hP.cacheSlot)
      (fun _ _ _ => hP.note fun _ => ⟨_, _, _, _, rfl⟩) r.ordinal n (y := x) hx
  · split
    · exact hrest _
    · exact hP.pure _

theorem intercept (hx : ∀ own, P own x) (length : Nat) (first : Interceptor) :
    P own (Emit.intercept n x length first) := by
  induction length generalizing first with
  | zero => exact hP.pure _
  | succ length ih =>
    cases first with
    | replacement signature v =>
      exact ite (hP.bind (hP.congruence.loadConst own v) fun _ => hP.pure _) (hP.pure _)
    | cache id =>
      refine hP.bind (hP.region id) fun r => ?_
      have hrest := hP.relay (n := n) hx id r length ih
      cases n with
      | store name value => exact hP.bind (hP.setRegion ..) fun _ => hrest
      | _ => exact hrest

theorem interceptable (hx : ∀ own, P own x) : P own (Emit.interceptable n x) := by
  refine hP.look fun c => ?_
  split
  · exact hx own
  · exact hP.bind (hP.intercept hx _ _) fun taken => ite (hP.pure _) (hx own)

/-- What the gate notes and checks keeps the property. -/
theorem gate (hx : P own (Emit.interceptable n x)) : P own (Emit.expression n x) := by
  have hcheck : ∀ p : Prop, [Decidable p] → ∀ e : CodeError,
      P own (if p then fail e else Pure.pure () : Emit Unit) := fun p _ e =>
    ite (hP.congruence.fail e) (hP.pure ())
  refine hP.look fun c => hP.look fun c => hP.bind (hP.within hx) fun _ => ?_
  refine hP.look fun c => hP.bind (hP.note fun _ => ⟨_, _, _, _, rfl⟩) fun _ => ?_
  exact ite (hP.bind (hP.note fun _ => ⟨_, _, _, _, rfl⟩) fun _ => hcheck _ _) (hcheck _ _)

/-- The gate keeps the property, whether or not a cache takes over. -/
theorem expression (hx : ∀ own, P own x) : P own (Emit.expression n x) :=
  hP.gate (hP.interceptable hx)

end Emit.Kept

namespace Node

variable {P : List Label → ∀ ⦃α : Type⦄, Emit α → Emit α → Prop}
  {gate gate' : Node → Emit Unit → Emit Unit} {own : List Label}

/-- The relation holds between the two ways to emit an operand, whatever labels are at hand. -/
def Related (P : List Label → ∀ ⦃α : Type⦄, Emit α → Emit α → Prop)
    (gate gate' : Node → Emit Unit → Emit Unit) (n : Node) : Prop :=
  ∀ own, P own (gate n (n.emitBy gate)) (gate' n (n.emitBy gate'))

/-- The relation holds between the codes of two operands, which make the same promise. -/
structure Paired (P : List Label → ∀ ⦃α : Type⦄, Emit α → Emit α → Prop)
    (gate gate' : Node → Emit Unit → Emit Unit) (n m : Node) : Prop where
  effect : n.effect = m.effect
  gated : ∀ own, P own (gate n (n.emitBy gate)) (gate' m (m.emitBy gate'))

theorem Related.paired {n : Node} (h : n.Related P gate gate') : Paired P gate gate' n n := ⟨rfl, h⟩

theorem rel_of_related {bound : Option Node} (h : ∀ m ∈ bound.toList, m.Related P gate gate') :
    Option.Rel (Paired P gate gate') bound bound := by
  cases bound with
  | none => exact .none
  | some n => exact .some (h n (by simp)).paired

/-- The relation holds between the operations on variables in the code of an expression itself. -/
structure Named (P : List Label → ∀ ⦃α : Type⦄, Emit α → Emit α → Prop) (n : Node) : Prop where
  var : ∀ {own name}, n = .var name → P own (Emit.loadName name) (Emit.loadName name)
  store : ∀ {own name value}, n = .store name value →
    P own (Emit.storeName name) (Emit.storeName name)
  next : ∀ {own pair}, n = .next pair → P own Emit.transfer Emit.transfer

theorem named (hP : Emit.Compositional P) (n : Node) : n.Named P where
  var _ := hP.loadName _
  store _ := hP.bind (hP.localSlot _) fun _ => hP.append ..
  next _ := hP.transfer

section Paired

variable (hP : Emit.Sequential P)

include hP

variable {ns ms : List Node} {a b : Option Node} {n m : Node}

theorem paired_emitAll (h : Forall₂ (Paired P gate gate') ns ms) :
    P own (emitAllBy gate ns) (emitAllBy gate' ms) := by
  induction h with
  | nil => exact hP.pure ()
  | cons hfirst _ ih => exact hP.bind (hfirst.gated _) fun _ => ih

theorem paired_emitLinks {cleanup : Label} (hcleanup : cleanup ∈ own)
    {links links' : List (CompareOp × Node)}
    (h : Forall₂ (fun k l => k.1 = l.1 ∧ Paired P gate gate' k.2 l.2) links links') :
    P own (emitLinksBy gate cleanup links) (emitLinksBy gate' cleanup links') := by
  induction h with
  | nil => exact hP.pure ()
  | @cons k l links links' hfirst hothers ih =>
    obtain ⟨op, n⟩ := k
    obtain ⟨op', m⟩ := l
    obtain ⟨rfl, hfirst⟩ := hfirst
    cases hothers with
    | nil => exact hP.bind (hfirst.gated _) fun _ => hP.instr rfl
    | cons _ _ =>
      exact hP.bind (hfirst.gated _) fun _ => hP.bind (hP.instr rfl) fun _ =>
        hP.bind (hP.instr rfl) fun _ => hP.bind (hP.instr rfl) fun _ =>
        hP.bind (hP.jumpOrPop _ hcleanup rfl) fun _ => ih

theorem paired_emitOperands (junction : Junction) {done : Label} (hdone : done ∈ own)
    (h : Forall₂ (Paired P gate gate') ns ms) :
    P own (emitOperandsBy gate junction done ns) (emitOperandsBy gate' junction done ms) := by
  induction h with
  | nil => exact hP.pure ()
  | cons hfirst hothers ih =>
    cases hothers with
    | nil => exact hfirst.gated _
    | cons _ _ => exact hP.bind (hfirst.gated _) fun _ => hP.bind (hP.leave _ hdone) fun _ => ih

theorem paired_emitSteps (h : Forall₂ (Paired P gate gate') ns ms) :
    P own (emitStepsBy gate ns) (emitStepsBy gate' ms) := by
  induction h with
  | nil => exact hP.pure ()
  | cons hfirst hothers ih =>
    cases hothers with
    | nil => exact hfirst.gated _
    | cons _ _ =>
      rw [emitStepsBy_cons, emitStepsBy_cons, hfirst.effect]
      exact hP.bind (hfirst.gated _) fun _ => hP.reach (hP.bind (hP.popEffect _) fun _ => ih)

theorem paired_emitBound (h : Option.Rel (Paired P gate gate') a b) :
    P own (emitBoundBy gate a) (emitBoundBy gate' b) := by
  cases h with
  | none => exact hP.instr rfl
  | some h => exact h.gated own

theorem paired_emitStar (h : Option.Rel (Paired P gate gate') a b) :
    P own (emitStarBy gate a) (emitStarBy gate' b) := by
  cases h with
  | none => exact hP.pure ()
  | some h => exact hP.bind (h.gated own) fun _ => hP.instr rfl

theorem paired_emitDoubleStar (h : Option.Rel (Paired P gate gate') a b) :
    P own (emitDoubleStarBy gate a) (emitDoubleStarBy gate' b) := by
  cases h with
  | none => exact hP.pure ()
  | some h => exact hP.bind (h.gated own) fun _ => hP.instr rfl

theorem paired_emitKeywords {keywords keywords' : List (Text × Node)}
    (h : Forall₂ (fun k l => k.1 = l.1 ∧ Paired P gate gate' k.2 l.2) keywords keywords') :
    P own (emitKeywordsBy gate keywords) (emitKeywordsBy gate' keywords') := by
  induction h with
  | nil => exact hP.pure ()
  | @cons k l _ _ hfirst _ ih =>
    obtain ⟨name, n⟩ := k
    obtain ⟨name', m⟩ := l
    obtain ⟨rfl, hfirst⟩ := hfirst
    exact hP.bind (hP.loadString _) fun _ => hP.bind (hfirst.gated _) fun _ => ih

/-- The relation holds between the codes of two expressions that are alike if it holds between those
of their operands, also where these are called. -/
theorem paired_emit (hnamed : n.Named P) (h : SameForm (fun a b => Paired P gate gate' a b ∧
      ∀ own method, P own (emitCalleeBy gate a method) (emitCalleeBy gate' b method)) n m) :
    P own (n.emitBy gate) (m.emitBy gate') := by
  have hpaired : SameForm (Paired P gate gate') n m :=
    h.of_children (h.children.imp fun _ _ hab => hab.1)
  cases hpaired with
  | var name => exact hnamed.var rfl
  | unary op ha => exact hP.bind (ha.gated _) fun _ => hP.instr rfl
  | binary op ha hb =>
    exact hP.bind (ha.gated _) fun _ => hP.bind (hb.gated _) fun _ => hP.instr rfl
  | @compare subject subject' links links' hsubject hops hlinks =>
    have hpairs := forall₂_pairs.mpr ⟨hops, hlinks⟩
    have hlength := hpairs.length_eq
    by_cases hsingle : links.length = 1
    · obtain ⟨⟨op, n⟩, rfl⟩ := length_eq_one_iff.mp hsingle
      obtain ⟨⟨op', m⟩, rfl⟩ := length_eq_one_iff.mp (hlength.symm.trans hsingle)
      obtain ⟨⟨rfl, hlink⟩, -⟩ := forall₂_cons.mp hpairs
      rw [emitBy_compare_single, emitBy_compare_single]
      exact hP.bind (hsubject.gated _) fun _ => hP.bind (hlink.gated _) fun _ => hP.instr rfl
    · rw [emitBy_compare_chain _ subject hsingle,
        emitBy_compare_chain _ subject' (hlength ▸ hsingle)]
      exact hP.bind (hsubject.gated _) fun _ =>
        hP.newLabel fun _ => hP.newLabel fun _ =>
        hP.bind (paired_emitLinks hP (by simp) hpairs) fun _ => hP.bind (hP.jump (by simp)) fun _ =>
        hP.bind (hP.mark (by simp)) fun _ => hP.bind (hP.instr rfl) fun _ =>
        hP.bind (hP.instr rfl) fun _ => hP.mark (by simp)
  | logical junction hns =>
    exact hP.newLabel fun _ =>
      hP.bind (paired_emitOperands hP junction (by simp) hns) fun _ => hP.mark (by simp)
  | cond ha hb hc =>
    exact hP.newLabel fun _ => hP.newLabel fun _ =>
      hP.bind (ha.gated _) fun _ => hP.bind (hP.popJump _ (by simp) rfl) fun _ =>
      hP.bind (hb.gated _) fun _ => hP.bind (hP.jump (by simp)) fun _ =>
      hP.bind (hP.mark (by simp)) fun _ => hP.bind (hc.gated _) fun _ => hP.mark (by simp)
  | collection kind hns =>
    refine hP.bind (paired_emitAll hP hns) fun _ => ?_
    rw [hns.length_eq]
    cases kind <;> exact hP.instr rfl
  | subscript ha hb =>
    exact hP.bind (ha.gated _) fun _ => hP.bind (hb.gated _) fun _ => hP.instr rfl
  | sliceObj ha hb hc =>
    exact hP.bind (paired_emitBound hP ha) fun _ => hP.bind (paired_emitBound hP hb) fun _ =>
      hP.bind (paired_emitBound hP hc) fun _ => hP.instr rfl
  | slice hbase ha hb hc =>
    exact hP.bind (hbase.gated _) fun _ => hP.bind (paired_emitBound hP ha) fun _ =>
      hP.bind (paired_emitBound hP hb) fun _ => hP.bind (paired_emitBound hP hc) fun _ =>
      hP.bind (hP.instr rfl) fun _ => hP.instr rfl
  | attr name ha => exact hP.bind (ha.gated _) fun _ => hP.getAttr name
  | @call method callee callee' args args' star star' doubleStar doubleStar' keywords keywords'
      _ hargs hstar hnames hkeywords hdoubleStar =>
      have hcallee := (forall₂_cons.mp h.children).1.2
      have hpairs := forall₂_pairs.mpr ⟨hnames, hkeywords⟩
      have hplain : (star.isNone && doubleStar.isNone && keywords.isEmpty) =
          (star'.isNone && doubleStar'.isNone && keywords'.isEmpty) := by
        cases hstar <;> cases hdoubleStar <;> cases hpairs <;> rfl
      rw [emitBy_call, emitBy_call, hplain, hargs.length_eq, hpairs.length_eq]
      refine hP.bind (hcallee own method) fun withReceiver =>
        hP.bind (paired_emitAll hP hargs) fun _ => ?_
      split
      · split <;> exact hP.instr rfl
      · exact hP.bind (hP.instr rfl) fun _ => hP.bind (paired_emitStar hP hstar) fun _ =>
          hP.bind (paired_emitKeywords hP hpairs) fun _ => hP.bind (hP.instr rfl) fun _ =>
          hP.bind (paired_emitDoubleStar hP hdoubleStar) fun _ => hP.callEx _
  | store name ha => exact hP.bind (ha.gated _) fun _ => hnamed.store rfl
  | sequence hns => exact paired_emitSteps hP hns
  | next ha => exact hP.bind (ha.gated _) fun _ => hnamed.next rfl

/-- What is called is paired if its own code is, and what a method belongs to. -/
theorem paired_emitCallee (h : Paired P gate gate' n m) (hform : n.Matches (fun _ _ => True) m)
    (hbelow : Forall₂ (Paired P gate gate') n.children m.children) (method : Bool) :
    P own (emitCalleeBy gate n method) (emitCalleeBy gate' m method) := by
  have hplain : P own (gate n (n.emitBy gate) >>= fun _ => pure false)
      (gate' m (m.emitBy gate') >>= fun _ => pure false) :=
        hP.bind (h.gated own) fun _ => hP.pure false
  cases hform with
  | const _ => exact hplain
  | operands hsame =>
    cases hsame with
    | attr name _ =>
      cases method with
      | false => exact hplain
      | true =>
        have hbase := (forall₂_cons.mp hbelow).1
        exact hP.bind (hbase.gated own) fun _ => hP.bind (hP.loadMethod name) fun _ => hP.pure true
    | _ => exact hplain

end Paired

/-- Expressions that match are paired if their constants are and the gates keep the relation. -/
theorem paired_of_matches (hP : Emit.Compositional P) {R : Value → Value → Prop}
    (hR : ∀ v w, R v w → ∀ own, P own (Emit.loadConst v) (Emit.loadConst w))
    (hgate : ∀ n m x y, n.Matches R m → (∀ own, P own x y) → ∀ own, P own (gate n x) (gate' m y))
    (n : Node) : ∀ m, n.Matches R m → Paired P gate gate' n m := by
  induction n using descent with
  | h n ih ihBelow =>
    intro m hmatches
    refine ⟨Matches.effect_eq n m hmatches, hgate n m _ _ hmatches fun own => ?_⟩
    cases hmatches with
    | const hvalue => exact hR _ _ hvalue own
    | operands hsame =>
      apply paired_emit hP.toSequential (named hP n)
      refine hsame.imp_mem fun a ha b _ hab => ⟨ih a ha b hab, fun own method => ?_⟩
      have hform := Matches.of_constants a b hab
        ((Matches.constants a b hab).imp fun _ _ _ => trivial)
      apply paired_emitCallee hP.toSequential (ih a ha b hab) hform
      cases hab with
      | const _ => exact .nil
      | operands hbelow => exact forall₂_imp_mem hbelow.children fun k hk l _ => ihBelow a ha k hk l

section Related

variable (hP : Emit.Congruence P)

include hP

theorem related_emitLinks {cleanup : Label} (hcleanup : cleanup ∈ own)
    {links : List (CompareOp × Node)} (h : ∀ m ∈ links.map Prod.snd, m.Related P gate gate') :
    P own (emitLinksBy gate cleanup links) (emitLinksBy gate' cleanup links) :=
  paired_emitLinks hP.toSequential hcleanup (forall₂_same.mpr fun link hlink =>
    ⟨rfl, (h link.2 (mem_map_of_mem hlink)).paired⟩)

theorem related_emitOperands (junction : Junction) {done : Label} (hdone : done ∈ own)
    {ns : List Node} (h : ∀ m ∈ ns, m.Related P gate gate') :
    P own (emitOperandsBy gate junction done ns) (emitOperandsBy gate' junction done ns) :=
  paired_emitOperands hP.toSequential junction hdone (forall₂_same.mpr fun m hm => (h m hm).paired)

theorem related_emitStar {star : Option Node} (h : ∀ m ∈ star.toList, m.Related P gate gate') :
    P own (emitStarBy gate star) (emitStarBy gate' star) :=
  paired_emitStar hP.toSequential (rel_of_related h)

theorem related_emitDoubleStar {doubleStar : Option Node}
    (h : ∀ m ∈ doubleStar.toList, m.Related P gate gate') :
    P own (emitDoubleStarBy gate doubleStar) (emitDoubleStarBy gate' doubleStar) :=
  paired_emitDoubleStar hP.toSequential (rel_of_related h)

theorem related_emitKeywords {keywords : List (Text × Node)}
    (h : ∀ m ∈ keywords.map Prod.snd, m.Related P gate gate') :
    P own (emitKeywordsBy gate keywords) (emitKeywordsBy gate' keywords) :=
  paired_emitKeywords hP.toSequential (forall₂_same.mpr fun keyword hkeyword =>
    ⟨rfl, (h keyword.2 (mem_map_of_mem hkeyword)).paired⟩)

end Related

section Sequential

variable (hP : Emit.Sequential P) (hconst : ∀ own v, P own (Emit.loadConst v) (Emit.loadConst v))

include hP hconst

/-- The relation holds between the codes of an expression if it holds between those of its
operands. -/
theorem related_emit {n : Node} (hnamed : n.Named P) (ih : ∀ m ∈ n.children, m.Related P gate gate')
    (ihBelow : ∀ m ∈ n.children, ∀ k ∈ m.children, k.Related P gate gate') :
    P own (n.emitBy gate) (n.emitBy gate') := by
  cases hvalue : n.constant? with
  | some v =>
    cases n <;> cases hvalue
    exact hconst own v
  | none =>
    apply paired_emit hP hnamed
    refine .refl hvalue fun a ha => ⟨(ih a ha).paired, fun own method => ?_⟩
    apply paired_emitCallee hP (ih a ha).paired (Matches.refl (fun _ => trivial) a)
    exact forall₂_same.mpr fun k hk => (ihBelow a ha k hk).paired

/-- Expressions that are emitted through two gates are related if the gates keep the relation. -/
theorem related {Q : Node → Prop} (hnamed : ∀ n, Q n → n.Named P)
    (hgate : ∀ n x y, Q n → (∀ own, P own x y) → ∀ own, P own (gate n x) (gate' n y)) (n : Node)
    (hn : n.Everywhere Q) : n.Related P gate gate' := by
  induction n using descent with
  | h n ih ihBelow =>
  have hparts := everywhere_iff.mp hn
  refine hgate n _ _ hparts.1 fun own =>
    related_emit hP hconst (hnamed n hparts.1) (fun m hm => ih m hm (hparts.2 m hm)) ?_
  exact fun m hm k hk => ihBelow m hm k hk ((everywhere_iff.mp (hparts.2 m hm)).2 k hk)

end Sequential

/-- A property that emissions keep holds of the code of an expression. -/
theorem related_of_kept {P : List Label → ∀ ⦃α : Type⦄, Emit α → Prop}
    (hP : Emit.Kept P) (n : Node) :
    n.Related (fun own _ x _ => P own x) Emit.expression Emit.expression :=
  related hP.congruence.toSequential hP.congruence.loadConst
    (fun n _ => named hP.congruence.toCompositional n)
    (fun _ _ _ _ hx own => @Emit.Kept.expression P hP own _ _ hx) n fun _ _ => trivial

end Node

end ExprBackend
