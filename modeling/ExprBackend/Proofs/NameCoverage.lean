import ExprBackend.Dispatch.Table
import ExprBackend.Proofs.Placement

/-! # The names that code touches

The code of an expression reads the variables that occur in it, and writes those that
it assigns and, where it goes on with another pair, the variables of the pair. All of
them are seen by walking through the expression. So a walk finds everything that can
make a value volatile, whatever form the expressions have.
-/

namespace ExprBackend

open List

namespace Code

variable {c c' c'' : Code} {reads writes reads' writes' : Text → Prop} {i : Instr} {name : Text}

/-- An instruction that reads or writes a variable does so with a variable of the given names. -/
def About (reads writes : Text → Prop) (c : Code) (i : Instr) : Prop :=
  match i.op with
  | .loadLocal => ∃ (slot : Nat) (name : Text), i.operand = slot ∧ c.locals[slot]? = some name ∧
      reads name
  | .storeLocal => ∃ (slot : Nat) (name : Text), i.operand = slot ∧ c.locals[slot]? = some name ∧
      writes name
  | .loadGlobal => ∃ (index : Nat) (name : Text), i.operand = index ∧
      c.chunk.constants[index]? = some (.str name) ∧ reads name
  | _ => True

/-- The code that has been added to a buffer without interceptor reads and writes no variables but
those of the given names, and declares no others. -/
structure Touches (reads writes : Text → Prop) (c c' : Code) : Prop where
  plain : c'.interceptor = none
  prologue : c'.prologue = c.prologue
  constants : c.chunk.constants.toList <+: c'.chunk.constants.toList
  locals : ∃ new, c'.locals = c.locals ++ new ∧ ∀ name ∈ new, writes name
  body : ∃ more, c'.body.toList = c.body.toList ++ more ∧ ∀ i ∈ more, c'.About reads writes i

theorem about_of_not_named (h : i.op.named = false) : c.About reads writes i := by
  rcases i with ⟨op, operand⟩
  cases op <;> trivial

theorem About.mono (h : c.About reads writes i) (hreads : ∀ name, reads name → reads' name)
    (hwrites : ∀ name, writes name → writes' name) (hlocals : c.locals <+: c'.locals)
    (hconstants : c.chunk.constants.toList <+: c'.chunk.constants.toList) :
    c'.About reads' writes' i := by
  unfold About at h ⊢
  split at h
  · obtain ⟨slot, name, hslot, hname, hread⟩ := h
    exact ⟨slot, name, hslot, getElem?_of_prefix hlocals hname, hreads name hread⟩
  · obtain ⟨slot, name, hslot, hname, hwrite⟩ := h
    exact ⟨slot, name, hslot, getElem?_of_prefix hlocals hname, hwrites name hwrite⟩
  · obtain ⟨index, name, hindex, hname, hread⟩ := h
    rw [← Array.getElem?_toList] at hname
    have hkept := getElem?_of_prefix hconstants hname
    exact ⟨index, name, hindex, by simpa using hkept, hreads name hread⟩
  · trivial

namespace Touches

theorem mono (h : c.Touches reads writes c') (hreads : ∀ name, reads name → reads' name)
    (hwrites : ∀ name, writes name → writes' name) : c.Touches reads' writes' c' := by
  obtain ⟨new, hlocals, hnew⟩ := h.locals
  obtain ⟨more, hbody, hmore⟩ := h.body
  exact ⟨h.plain, h.prologue, h.constants,
    ⟨new, hlocals, fun name hname => hwrites name (hnew name hname)⟩, more, hbody,
    fun i hi => (hmore i hi).mono hreads hwrites prefix_rfl prefix_rfl⟩

theorem trans (h : c.Touches reads writes c') (h' : c'.Touches reads writes c'') :
    c.Touches reads writes c'' := by
  obtain ⟨new, hlocals, hnew⟩ := h.locals
  obtain ⟨new', hlocals', hnew'⟩ := h'.locals
  obtain ⟨more, hbody, hmore⟩ := h.body
  obtain ⟨more', hbody', hmore'⟩ := h'.body
  refine ⟨h'.plain, h'.prologue.trans h.prologue, h.constants.trans h'.constants,
    ⟨new ++ new', by rw [hlocals', hlocals, append_assoc], forall_mem_append.mpr ⟨hnew, hnew'⟩⟩,
    more ++ more', by rw [hbody', hbody, append_assoc],
    forall_mem_append.mpr ⟨fun i hi => ?_, hmore'⟩⟩
  exact (hmore i hi).mono (fun _ => id) (fun _ => id) ⟨new', hlocals'.symm⟩ h'.constants

/-- An operation that declares nothing and adds at most one instruction. -/
theorem of_body (hplain : c'.interceptor = none) (hprologue : c'.prologue = c.prologue)
    (hconstants : c.chunk.constants.toList <+: c'.chunk.constants.toList)
    (hlocals : c'.locals = c.locals)
    (hbody : c'.body = c.body ∨ ∃ i, c'.body = c.body.push i ∧ c'.About reads writes i) :
    c.Touches reads writes c' := by
  refine ⟨hplain, hprologue, hconstants, ⟨[], by rw [hlocals, append_nil], nofun⟩, ?_⟩
  rcases hbody with hbody | ⟨i, hbody, hi⟩
  · exact ⟨[], by rw [hbody, append_nil], nofun⟩
  · exact ⟨[i], by rw [hbody, Array.toList_push], forall_mem_singleton.mpr hi⟩

end Touches

/-- Whatever has no interceptor before has none after, and touches the given names only. -/
theorem progress_touches (reads writes : Text → Prop) :
    Progress fun _ _ c c' => c.interceptor = none → c.Touches reads writes c' where
  refl _ hc := .of_body hc rfl prefix_rfl rfl (.inl rfl)
  trans h h' hc := (h hc).trans (h' (h hc).plain)
  appended _ op operand _ hop hc :=
    .of_body hc rfl prefix_rfl rfl (.inr ⟨⟨op, operand⟩, rfl, about_of_not_named hop⟩)
  pooled c v hc := .of_body hc rfl (c.grows_pooled v).constants rfl (.inl rfl)
  labelled {_ _ c _} h hc := by
    have hlabel : c.Touches reads writes c.labelled := .of_body hc rfl prefix_rfl rfl (.inl rfl)
    exact hlabel.trans (h hc)
  ended _ hc := .of_body hc rfl prefix_rfl rfl (.inl rfl)
  branches _ h hc := by
    cases h <;> exact .of_body hc rfl prefix_rfl rfl (.inl rfl)
  marked _ _ _ _ _ hc := .of_body hc rfl prefix_rfl rfl (.inl rfl)
  misplaced _ _ _ hc := .of_body hc rfl prefix_rfl rfl (.inl rfl)

end Code

namespace Emit

open Code

variable {reads writes : Text → Prop} {name : Text}

/-- Without interceptor, the emission touches the given names only, whatever comes of it. -/
abbrev Touching {α : Type} (reads writes : Text → Prop) (x : Emit α) : Prop :=
  Always (fun _ _ c c' => c.interceptor = none → c.Touches reads writes c') [] x

theorem touching_loadName (h : reads name) : Touching reads writes (loadName name) := by
  intro marks c result c' hrun hc
  rw [loadName, run_get_bind] at hrun
  cases hslot : c.slot? name with
  | some slot =>
    rw [hslot] at hrun
    cases hrun
    exact .of_body hc rfl prefix_rfl rfl (.inr ⟨⟨.loadLocal, slot⟩, rfl, slot, name, rfl,
      getElem?_of_slot? hslot, h⟩)
  | none =>
    rw [hslot] at hrun
    dsimp only at hrun
    rw [run_bind, run_addConstant] at hrun
    have hpooled := (c.grows_pooled (.str name)).constants
    split_ifs at hrun <;> cases hrun
    · have hfound : (c.pooled (.str name)).chunk.constants[c.constantIndex (.str name)]? =
          some (.str name) := Chunk.addConstant_getElem? fun w _ hw => by
        cases w <;> simp_all [Value.identical]
      exact .of_body hc rfl hpooled rfl
        (.inr ⟨⟨.loadGlobal, _⟩, rfl, _, name, rfl, hfound, h⟩)
    · exact .of_body hc rfl hpooled rfl (.inl rfl)

theorem touching_storeName (h : writes name) : Touching reads writes (storeName name) := by
  intro marks c result c' h' hc
  cases h'
  change c.Touches reads writes ((c.declared name).appended .storeLocal (c.declaredSlot name) (-1))
  have hdeclared : c.Touches reads writes (c.declared name) := by
    by_cases hmem : name ∈ c.locals
    · rw [declared_of_mem hmem]
      exact .of_body hc rfl prefix_rfl rfl (.inl rfl)
    · rw [(declared_of_not_mem hmem).1]
      exact ⟨hc, rfl, prefix_rfl, ⟨[name], rfl, forall_mem_singleton.mpr h⟩, [],
        (append_nil _).symm, nofun⟩
  exact hdeclared.trans (.of_body hdeclared.plain rfl prefix_rfl rfl
    (.inr ⟨⟨.storeLocal, _⟩, rfl, _, name, rfl, c.declared_getElem? name, h⟩))

/-- The gate adds nothing to the code where nothing intercepts. -/
theorem touching_expression (n : Node) {x : Emit Unit} (hx : Touching reads writes x) :
    Touching reads writes (expression n x) := by
  have hP := progress_touches reads writes
  have hnote : ∀ f : Code → Code, (∀ c, ∃ emitting events observations, f c =
      c.noted emitting events observations) → Touching reads writes (modify f : Emit PUnit) := by
    intro f hf
    refine Progress.update fun c hc => ?_
    obtain ⟨emitting, events, observations, heq⟩ := hf c
    rw [heq]
    exact .of_body hc rfl prefix_rfl rfl (.inl rfl)
  have hwithin : Touching reads writes (within n (interceptable n x)) := by
    intro marks c result c' h hc
    have hinner := @hx marks { c with emitting := n.lazySignature :: c.emitting } _ _ rfl hc
    have hrun : (interceptable n x marks { c with emitting := n.lazySignature :: c.emitting } :
        Except Failure Unit × Code) =
          x marks { c with emitting := n.lazySignature :: c.emitting } := by
      cases c
      cases hc
      rfl
    rw [within, hrun] at h
    cases h
    exact ⟨hinner.plain, hinner.prologue, hinner.constants, hinner.locals, hinner.body⟩
  have hcheck : ∀ (p : Prop) [Decidable p] (e : CodeError),
      Touching reads writes (if p then fail e else pure () : Emit Unit) := fun p _ e =>
    Progress.ite (hP.fail e) (hP.pure ())
  refine hP.bind hP.get fun _ => hP.bind hP.get fun _ => hP.bind hwithin fun _ => ?_
  refine hP.bind hP.get fun _ => hP.bind (hnote _ fun c => ⟨_, _, _, rfl⟩) fun _ => ?_
  exact Progress.ite (hP.bind (hnote _ fun c => ⟨_, _, _, rfl⟩) fun _ => hcheck ..) (hcheck ..)

end Emit

namespace Node

open Emit

variable {c c' : Code} {marks : Marks} {result : Except Failure Unit}

/-- The names of the variables that a walk through an expression visits. -/
def Reads (n : Node) (name : Text) : Prop := .var name ∈ n.walk fun _ => true

/-- The names that are assigned by what a walk visits. To go on with another pair assigns two. -/
def Writes (n : Node) (name : Text) : Prop :=
  (∃ value, .store name value ∈ n.walk fun _ => true) ∨
    name ∈ [actionName, argumentName] ∧ ∃ pair, .next pair ∈ n.walk fun _ => true

theorem touching_emitInto (n : Node) : Touching n.Reads n.Writes n.emitInto := by
  have hP := Code.progress_touches n.Reads n.Writes
  have hnamed : ∀ m ∈ n.subexpressions, m.Named fun _ _ x _ => Touching n.Reads n.Writes x := by
    refine fun m hm => ⟨?_, ?_, ?_⟩
    · rintro - name rfl
      exact touching_loadName hm
    · rintro - name value rfl
      exact touching_storeName (.inl ⟨value, hm⟩)
    · rintro - pair rfl
      have hstore : ∀ name ∈ [actionName, argumentName],
          Touching n.Reads n.Writes (storeName name) :=
        fun name hname => touching_storeName (.inr ⟨hname, pair, hm⟩)
      exact hP.bind (hP.instr rfl) fun _ => hP.bind (hstore _ (by simp)) fun _ =>
        hP.bind (hstore _ (by simp)) fun _ => hP.loop fun c _ hc =>
          .of_body hc rfl prefix_rfl rfl (.inl rfl)
  have hrelated : n.Related (fun _ _ x _ => Touching n.Reads n.Writes x) expression expression :=
    related hP.sequential (fun _ => hP.loadConst) hnamed
      (fun m _ _ _ hx own => touching_expression m (hx own)) n fun _ => id
  exact hrelated []

/-- A walk through an expression sees every name that its code touches. So code of which a cache
says that it depends on none of some names reads none of them and assigns nothing but a pair, and
the code of an action assigns volatile names only. -/
theorem walk_sees_names (n : Node) (hplain : c.interceptor = none)
    (hrun : (n.emitInto marks c : Except Failure Unit × Code) = (result, c')) :
    c.Touches n.Reads n.Writes c' ∧
    (∀ names, n.dependsOn names = false →
      c.Touches (· ∉ names) (· ∈ [actionName, argumentName]) c') ∧
    ∀ table : ActionTable, n ∈ table.actions → c.Touches n.Reads (· ∈ table.volatileNames) c' := by
  have hwalk := touching_emitInto n hrun hplain
  refine ⟨hwalk, fun names hdepends => ?_, fun table hn => ?_⟩
  · have hnone := any_eq_false.mp hdepends
    refine hwalk.mono (fun name hname hmem => ?_) fun name hname => ?_
    · exact hnone _ hname (by simpa using hmem)
    · rcases hname with ⟨value, hstore⟩ | ⟨hpair, -⟩
      · exact absurd rfl (hnone _ hstore)
      · exact hpair
  · refine hwalk.mono (fun _ => id) fun name hname => ?_
    rcases hname with ⟨value, hstore⟩ | ⟨hpair, -⟩
    · refine mem_append_right _ (mem_flatMap.mpr ⟨n, by simpa using hn, ?_⟩)
      exact mem_filterMap.mpr ⟨_, hstore, rfl⟩
    · exact mem_append_left _ hpair

/-- An assignment of one variable to another. -/
def copying : Node := .store "x" (.var "y")

theorem walk_sees_names_copying : (Code.create "f" ["y"]).Touches copying.Reads copying.Writes
    (copying.emitInto (fun _ _ => false) (Code.create "f" ["y"]) : Except Failure Unit × Code).2 :=
  (walk_sees_names copying rfl rfl).1

end Node

end ExprBackend
