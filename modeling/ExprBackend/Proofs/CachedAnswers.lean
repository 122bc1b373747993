import ExprBackend.Proofs.Composition
import ExprBackend.Proofs.Interception

/-! # The answers that a cache keeps

Before a cache takes over the emission of an expression it asks whether the
expression depends on a volatile name, and it keeps the answer. An answer is right
as long as no name becomes volatile after it was given. Assignments make a name
volatile and drop all answers; attaching the cache again makes names volatile and
keeps the answers. So the answers are right, at every moment, if names are declared
volatile before the first expression is emitted and no others are declared later.
-/

namespace ExprBackend

open List

/-! ## Emissions that leave a cache alone -/

/-- What caches and those who watch keep in a buffer. -/
structure Watch where
  regions : List (Nat × Region)
  interceptor : Option Interceptor
  events : Array Event

namespace Code

def watch (c : Code) : Watch := ⟨c.regions, c.interceptor, c.events⟩

/-- The buffer with something else kept in it. -/
def watched (c : Code) (w : Watch) : Code :=
  { c with regions := w.regions, interceptor := w.interceptor, events := w.events }

theorem watched_watch (c : Code) : c.watched c.watch = c := rfl

end Code

namespace Emit

section Blind

variable {α β : Type}

/-- The emission neither looks at what caches and watchers keep in the buffer nor changes it. -/
def Blind (x : Emit α) : Prop :=
  ∀ ⦃marks : Marks⦄ ⦃c : Code⦄ ⦃w : Watch⦄,
    (x marks (c.watched w) : Except Failure α × Code) = ((x marks c).1, (x marks c).2.watched w)

theorem Blind.watch_eq {x : Emit α} (h : Blind x) (marks : Marks) (c : Code) :
    (x marks c).2.watch = c.watch := by
  have hkept := @h marks c c.watch
  rw [c.watched_watch] at hkept
  rw [hkept]
  rfl

theorem blind_pure (a : α) : Blind (pure a : Emit α) := fun _ _ _ => rfl

theorem blind_fail (cause : CodeError) : Blind (fail cause : Emit α) := fun _ _ _ => rfl

theorem blind_modify {f : Code → Code} (h : ∀ c w, f (c.watched w) = (f c).watched w) :
    Blind (modify f) := by
  intro marks c w
  change (Except.ok PUnit.unit, f (c.watched w)) = (Except.ok PUnit.unit, (f c).watched w)
  rw [h]

theorem blind_modifyGet {f : Code → α × Code}
    (h : ∀ c w, f (c.watched w) = ((f c).1, (f c).2.watched w)) :
    Blind (modifyGet f) := by
  intro marks c w
  change (Except.ok (f (c.watched w)).1, (f (c.watched w)).2) =
    (Except.ok (f c).1, (f c).2.watched w)
  rw [h]

theorem blind_bind {x : Emit α} {f : α → Emit β} (hx : Blind x) (hf : ∀ a, Blind (f a)) :
    Blind (x >>= f) := by
  intro marks c w
  change ((x marks >>= fun a => f a marks) (c.watched w) : Except Failure β × Code) =
    (((x marks >>= fun a => f a marks) c).1, ((x marks >>= fun a => f a marks) c).2.watched w)
  rw [bind_apply, bind_apply, @hx marks c w]
  rcases x marks c with ⟨_ | a, c₁⟩
  · rfl
  · exact @hf a marks c₁ w

theorem blind_get {f : Code → Emit α} (h : ∀ c w, f (c.watched w) = f c) (hf : ∀ c, Blind (f c)) :
    Blind (get >>= f) := by
  intro marks c w
  change (f (c.watched w) marks (c.watched w) : Except Failure α × Code) =
    ((f c marks c).1, (f c marks c).2.watched w)
  rw [h]
  exact @hf c marks c w

theorem blind_ite {p : Prop} [Decidable p] {x y : Emit α} (hx : Blind x) (hy : Blind y) :
    Blind (if p then x else y) := by
  split
  · exact hx
  · exact hy

theorem blind_append (op : Opcode) (operand change : Int) : Blind (append op operand change) :=
  blind_modify fun _ _ => rfl

theorem blind_addConstant (v : Value) : Blind (addConstant v) := fun _ _ _ => rfl

theorem blind_localSlot (name : Text) : Blind (localSlot name) := by
  refine blind_modifyGet fun c w => ?_
  have hslot : (c.watched w).slot? name = c.slot? name := rfl
  rw [Code.declare, Code.declare, hslot]
  cases c.slot? name <;> rfl

theorem blind_loadName (name : Text) : Blind (loadName name) := by
  refine blind_get (fun _ _ => rfl) fun c => ?_
  cases c.slot? name with
  | none => exact blind_bind (blind_addConstant _) fun _ => blind_append ..
  | some slot => exact blind_append ..

theorem blind_newLabel : Blind newLabel := blind_modifyGet fun _ _ => rfl

theorem blind_namedLabel (name : Text) : Blind (namedLabel name) := by
  refine blind_get (fun _ _ => rfl) fun c => ?_
  cases c.namedLabels.lookup name with
  | none =>
    exact blind_bind blind_newLabel fun _ => blind_bind (blind_modify fun _ _ => rfl) fun _ =>
      blind_pure _
  | some l => exact blind_pure l

theorem blind_mark (l : Label) : Blind (mark l) := by
  intro marks c w
  rw [run_mark, run_mark]
  have hlabel : (c.watched w).label? l = c.label? l := rfl
  rw [hlabel, show (c.watched w).inPrologue = c.inPrologue from rfl]
  split_ifs
  · rfl
  · cases c.label? l with
    | none => rfl
    | some info =>
      dsimp only
      split_ifs <;> first | rfl | contradiction

theorem blind_branchTo (l : Label) (d : Int) : Blind (branchTo l d) := by
  intro marks c w
  rw [run_branchTo, run_branchTo]
  have hlabel : (c.watched w).label? l = c.label? l := rfl
  rw [hlabel, show (c.watched w).reachable = c.reachable from rfl]
  split_ifs
  · cases c.label? l with
    | none => rfl
    | some info =>
      dsimp only
      split_ifs <;> rfl
  · rfl

theorem blind_endReach : Blind endReach := blind_modify fun _ _ => rfl

theorem blind_jump (l : Label) : Blind (jump l) :=
  blind_get (fun _ _ => rfl) fun _ => blind_bind (blind_branchTo ..) fun _ =>
    blind_bind (blind_append ..) fun _ => blind_endReach

theorem blind_popJump (op : Opcode) (l : Label) : Blind (popJump op l) :=
  blind_bind (blind_append ..) fun _ => blind_get (fun _ _ => rfl) fun _ => blind_branchTo ..

theorem blind_jumpOrPop (op : Opcode) (l : Label) : Blind (jumpOrPop op l) :=
  blind_get (fun _ _ => rfl) fun _ => blind_bind (blind_branchTo ..) fun _ => blind_append ..

theorem blind_storeName (name : Text) : Blind (storeName name) :=
  blind_bind (blind_localSlot name) fun _ => blind_append ..

theorem blind_transfer : Blind transfer :=
  blind_bind (blind_append ..) fun _ => blind_bind (blind_storeName _) fun _ =>
    blind_bind (blind_storeName _) fun _ => blind_bind (blind_namedLabel _) blind_jump

theorem blind_prologue {x : Emit Unit} (hx : Blind x) : Blind (prologue x) := by
  intro marks c w
  have hkept : (c.watched w).inPrologue = c.inPrologue := rfl
  cases hinside : c.inPrologue with
  | true =>
    rw [prologue_of_inside x marks (hkept.trans hinside), prologue_of_inside x marks hinside]
    exact @hx marks c w
  | false =>
    rw [prologue_of_outside x marks (hkept.trans hinside), prologue_of_outside x marks hinside]
    have hinner := @hx marks c.opened w
    change (x marks (c.watched w).opened : Except Failure Unit × Code) = _ at hinner
    rw [hinner]
    rcases x marks c.opened with ⟨_ | _, inner⟩
    · rfl
    · by_cases hdepth : inner.depth = 0 <;> simp [Code.closed, Code.watched, hdepth]

theorem blind_cacheSlot : Blind cacheSlot := by
  refine blind_get (fun _ _ => rfl) fun c => ?_
  cases c.slot? cacheSlotName with
  | some slot => exact blind_pure slot
  | none =>
    exact blind_bind (blind_localSlot _) fun slot => blind_bind
      (blind_prologue (blind_bind (blind_append ..) fun _ => blind_append ..)) fun _ =>
      blind_pure slot

end Blind

end Emit

/-! ## Answers that are right -/

namespace Node

/-- Expressions of the same signature depend on the same names. -/
def Canonical (Q : Node → Prop) : Prop :=
  ∀ n m, Q n → Q m → n.signature = m.signature → ∀ names, n.dependsOn names = m.dependsOn names

/-- It only matters which names there are. -/
theorem dependsOn_congr {names others : List Text} (h : ∀ name, name ∈ names ↔ name ∈ others)
    (n : Node) : n.dependsOn names = n.dependsOn others := by
  have hcontains : ∀ name, names.contains name = others.contains name := fun name => by
    rw [Bool.eq_iff_iff, contains_iff_mem, contains_iff_mem]
    exact h name
  rw [dependsOn, dependsOn]
  congr 1
  funext m
  cases m <;> simp only [hcontains]

def stored : Node → List Text
  | .store name _ => [name]
  | _ => []

end Node

namespace Region

variable {Q : Node → Prop} {r : Region} {n : Node} {answers : List (HashedText × Bool)}

/-- The region with other answers. -/
def answering (r : Region) (answers : List (HashedText × Bool)) : Region :=
  { r with depends := answers }

/-- Every answer that is kept for one of the expressions is right. -/
def Right (Q : Node → Prop) (r : Region) (answers : List (HashedText × Bool)) : Prop :=
  ∀ n, Q n → ∀ answer, answers.lookup (.ofText n.signature) = some answer →
    answer = n.dependsOn r.volatile

theorem right_nil : r.Right Q [] := by
  intro n _ answer hanswer
  cases hanswer

/-- Where the answers that are kept are right, so is the one that is given, and it can be kept. -/
theorem Right.readsVolatile (hQ : Node.Canonical Q) (h : r.Right Q answers) (hn : Q n) :
    ∃ answers', r.Right Q answers' ∧
      (r.answering answers).readsVolatile n = (n.dependsOn r.volatile, r.answering answers') := by
  rw [Region.readsVolatile]
  cases hlookup : (r.answering answers).depends.lookup (.ofText n.signature) with
  | some answer => exact ⟨answers, h, by rw [h n hn answer hlookup]⟩
  | none =>
    refine ⟨(.ofText n.signature, n.dependsOn r.volatile) :: answers, ?_, rfl⟩
    intro m hm answer hanswer
    rw [lookup_cons] at hanswer
    split at hanswer
    next hsame =>
      have hsignature : m.signature = n.signature := congrArg HashedText.text (eq_of_beq hsame)
      rw [← Option.some.inj hanswer]
      exact hQ n m hn hm hsignature.symm _
    next => exact h m hm answer hanswer

/-- Answers are dropped when a name becomes volatile. -/
theorem Right.assign (h : r.Right Q answers) (name : Text) :
    ∃ answers', (r.assign name).Right Q answers' ∧
      (r.answering answers).assign name = (r.assign name).answering answers' := by
  rw [Region.assign, Region.assign]
  change ∃ answers', _ ∧ (if r.volatile.contains name then _ else _) = _
  split
  · exact ⟨answers, h, rfl⟩
  · exact ⟨[], right_nil, rfl⟩

theorem mem_assign {name other : Text} :
    other ∈ (r.assign name).volatile ↔ other = name ∨ other ∈ r.volatile := by
  rw [assign]
  split
  next hmem =>
    rw [contains_iff_mem] at hmem
    exact ⟨.inr, fun h => h.elim (fun heq => heq ▸ hmem) id⟩
  next => exact mem_cons

end Region

/-! ## Two buffers that differ in the answers -/

def Code.withRegion (c : Code) (id : Nat) (r : Region) : Code := { c with regions := [(id, r)] }

/-- The cache is the only interceptor of the buffer. The declared names, and those that expressions
have assigned, are volatile. -/
structure Code.Tended (id : Nat) (Q : Node → Prop) (declared : List Text) (r : Region) (c : Code) :
    Prop where
  interceptor : c.interceptor = some (.cache id)
  next : r.next = none
  volatile : declared ⊆ r.volatile
  source : ∀ name ∈ r.volatile, name ∈ declared ∨ ∃ value, Q (.store name value)
  stored : ∀ buffer name value net live,
    Event.emitted buffer (.store name value) net live ∈ c.events → name ∈ r.volatile

/-- The buffers differ at most in the answers that the cache has kept, which are right in both. -/
inductive Code.Twins (id : Nat) (Q : Node → Prop) (declared : List Text) : Code → Code → Prop where
  | intro {c : Code} {r : Region} {answers answers' : List (HashedText × Bool)} :
      c.Tended id Q declared r → r.Right Q answers → r.Right Q answers' →
      Twins id Q declared (c.withRegion id (r.answering answers))
        (c.withRegion id (r.answering answers'))

namespace Emit

section Agrees

variable {α β : Type} {id : Nat} {Q : Node → Prop} {declared : List Text} {marks : Marks}
  {c c' : Code} {n : Node} {x y : Emit Unit} {f g : α → Emit β} {event : Event} {r : Region}

/-- Two emissions have ended alike, in buffers that differ at most in the answers. -/
def Together (id : Nat) (Q : Node → Prop) (declared : List Text)
    (o o' : Except Failure α × Code) : Prop :=
  o.1 = o'.1 ∧ Code.Twins id Q declared o.2 o'.2

/-- Two emissions end alike in buffers that differ at most in the answers. -/
def Agrees (id : Nat) (Q : Node → Prop) (x y : Emit α) : Prop :=
  ∀ ⦃declared : List Text⦄ ⦃marks : Marks⦄ ⦃c c' : Code⦄, c.Twins id Q declared c' →
    Together id Q declared (x marks c) (y marks c')

theorem together_bind {x y : Emit α} (hx : Together id Q declared (x marks c) (y marks c'))
    (hf : ∀ a c₁ c₁', c₁.Twins id Q declared c₁' →
      Together id Q declared (f a marks c₁) (g a marks c₁')) :
    Together id Q declared ((x >>= f) marks c) ((y >>= g) marks c') := by
  change Together id Q declared ((x marks >>= fun a => f a marks) c)
    ((y marks >>= fun a => g a marks) c')
  rw [bind_apply, bind_apply]
  rcases hxc : (x marks c : Except Failure α × Code) with ⟨result, c₁⟩
  rcases hyc : (y marks c' : Except Failure α × Code) with ⟨result', c₁'⟩
  rw [hxc, hyc] at hx
  obtain ⟨hresult, htwins⟩ := hx
  cases hresult
  cases result with
  | error failure => exact ⟨rfl, htwins⟩
  | ok a => exact hf a c₁ c₁' htwins

theorem together_get {f g : Code → Emit α}
    (h : Together id Q declared (f c marks c) (g c' marks c')) :
    Together id Q declared ((get >>= f) marks c) ((get >>= g) marks c') := h

/-- An emission that leaves the cache alone does not tell the buffers apart. -/
theorem agrees_of_blind {x : Emit α} (hx : Blind x) : Agrees id Q x x := by
  rintro declared marks _ _ ⟨htended, hanswers, hanswers'⟩
  rename_i c r answers answers'
  have hrun : ∀ answers, (x marks (c.withRegion id (r.answering answers)) : _ × Code) =
      ((x marks c).1, (x marks c).2.withRegion id (r.answering answers)) := by
    intro answers
    change (x marks (c.watched { c.watch with regions := [(id, r.answering answers)] }) :
      _ × Code) = _
    rw [hx, ← hx.watch_eq marks c]
    rfl
  rw [Together, hrun, hrun]
  have hwatch := hx.watch_eq marks c
  refine ⟨rfl, .intro ⟨?_, htended.next, htended.volatile, htended.source, ?_⟩ hanswers hanswers'⟩
  · exact (congrArg Watch.interceptor hwatch).trans htended.interceptor
  · have hevents : (x marks c).2.events = c.events := congrArg Watch.events hwatch
    rw [hevents]
    exact htended.stored

theorem agrees_bind {x y : Emit α} (hx : Agrees id Q x y) (hf : ∀ a, Agrees id Q (f a) (g a)) :
    Agrees id Q (x >>= f) (y >>= g) :=
  fun _ _ _ _ htwins => together_bind (hx htwins) fun a _ _ htwins₁ => hf a htwins₁

/-- Emissions that do not tell the buffers apart can be put together. -/
theorem congruence_agrees : Congruence fun _ _ x y => Agrees id Q x y where
  pure a := agrees_of_blind (blind_pure a)
  bind := agrees_bind
  append op operand change := agrees_of_blind (blind_append op operand change)
  addConstant v := agrees_of_blind (blind_addConstant v)
  localSlot name := agrees_of_blind (blind_localSlot name)
  loadName name := agrees_of_blind (blind_loadName name)
  newLabel hf := agrees_bind (agrees_of_blind blind_newLabel) hf
  mark _ := agrees_of_blind (blind_mark _)
  jump _ := agrees_of_blind (blind_jump _)
  popJump op _ _ _ := agrees_of_blind (blind_popJump op _)
  jumpOrPop op _ _ _ := agrees_of_blind (blind_jumpOrPop op _)
  transfer htwins := agrees_of_blind blind_transfer htwins
  look hf _ _ c c' htwins := by
    have hseen : c'.name = c.name ∧ c'.depth = c.depth ∧ c'.reachable = c.reachable := by
      cases htwins
      exact ⟨rfl, rfl, rfl⟩
    exact together_get (hf c c' hseen.1 hseen.2.1 hseen.2.2 htwins)
  fail cause := agrees_of_blind (blind_fail cause)

theorem twins_report (htwins : c.Twins id Q declared c')
    (hstored : ∀ buffer name value net live, event = .emitted buffer (.store name value) net live →
      name ∈ declared) : Code.Twins id Q declared { c with events := c.events.push event }
      { c' with events := c'.events.push event } := by
  cases htwins with
  | @intro c r answers answers' htended hanswers hanswers' =>
    refine .intro (c := { c with events := c.events.push event }) { htended with stored := ?_ }
      hanswers hanswers'
    intro buffer name value net live hmem
    rcases Array.mem_push.mp hmem with hmem | heq
    · exact htended.stored buffer name value net live hmem
    · exact htended.volatile (hstored buffer name value net live heq.symm)

theorem twins_emitting (htwins : c.Twins id Q declared c') (emitting : List LazySignature) :
    Code.Twins id Q declared { c with emitting } { c' with emitting } := by
  cases htwins with
  | @intro c r answers answers' htended hanswers hanswers' =>
    exact .intro (c := { c with emitting }) { htended with } hanswers hanswers'

theorem twins_observed (htwins : c.Twins id Q declared c') (o : Bool → Observation) :
    Code.Twins id Q declared { c with observations := c.observations.push (o c.reachable) }
      { c' with observations := c'.observations.push (o c'.reachable) } := by
  cases htwins with
  | @intro c r answers answers' htended hanswers hanswers' =>
    exact .intro (c := { c with observations := c.observations.push (o c.reachable) })
      { htended with } hanswers hanswers'

/-- Names that expressions assign need not be declared. -/
theorem twins_of_append {names : List Text} (htwins : c.Twins id Q (names ++ declared) c')
    (h : ∀ name ∈ names, ∃ value, Q (.store name value)) : c.Twins id Q declared c' := by
  cases htwins with
  | intro htended hanswers hanswers' =>
    refine .intro { htended with volatile := ?_, source := fun name hname => ?_ } hanswers hanswers'
    · exact Subset.trans (subset_append_right names declared) htended.volatile
    · rcases htended.source name hname with hmem | hmem
      · rcases mem_append.mp hmem with hmem | hmem
        · exact .inr (h name hmem)
        · exact .inl hmem
      · exact .inr hmem

theorem region_withRegion (r : Region) :
    (region id marks (c.withRegion id r) : Except Failure Region × Code) =
      (.ok r, c.withRegion id r) := by
  have hlookup : (c.withRegion id r).regions.lookup id = some r := lookup_cons_self
  change (region id).Yields marks _ r _
  rw [region, yields_get_bind, hlookup]
  exact yields_pure.mpr ⟨rfl, rfl⟩

theorem setRegion_withRegion (r r' : Region) :
    (c.withRegion id r).setRegion id r' = c.withRegion id r' := by
  simp [Code.setRegion, Code.withRegion]

/-- The cache is asked, and keeps its answer. -/
theorem takesOver_withRegion (r : Region) :
    (takesOver id n marks (c.withRegion id r) : Except Failure Bool × Code) =
      if marks id n.signature && c.reachable then
        (.ok !(r.readsVolatile n).1, c.withRegion id (r.readsVolatile n).2)
      else (.ok false, c.withRegion id r) := by
  rw [run_takesOver (c := c.withRegion id r) lookup_cons_self, setRegion_withRegion]
  rfl

/-- However the buffers differ, the cache takes over the same expressions. -/
theorem agrees_takesOver (hQ : Node.Canonical Q) (hn : Q n) :
    Agrees id Q (takesOver id n) (takesOver id n) := by
  rintro declared marks _ _ ⟨htended, hanswers, hanswers'⟩
  rename_i c r answers answers'
  rw [takesOver_withRegion, takesOver_withRegion]
  split
  next =>
    obtain ⟨kept, hkept, hasked⟩ := hanswers.readsVolatile hQ hn
    obtain ⟨kept', hkept', hasked'⟩ := hanswers'.readsVolatile hQ hn
    rw [hasked, hasked']
    exact ⟨rfl, .intro htended hkept hkept'⟩
  next => exact ⟨rfl, .intro htended hanswers hanswers'⟩

theorem agrees_report (h : ∀ buffer n net live, event ≠ .emitted buffer n net live) :
    Agrees id Q (report event) (report event) :=
  fun _ _ _ _ htwins => ⟨rfl, twins_report htwins fun buffer _ _ net live heq =>
    (h buffer _ net live heq).elim⟩

/-- The code that looks up a value does not depend on the answers. -/
theorem agrees_cached (ordinal : Int) (n : Node) (hx : Agrees id Q x y) :
    Agrees id Q (cached ordinal n x) (cached ordinal n y) := by
  have hP : Congruence fun _ _ x y => Agrees id Q x y := congruence_agrees
  exact hP.cached [] (fun _ => agrees_of_blind blind_cacheSlot)
    (fun _ _ _ => agrees_report fun _ _ _ _ heq => by cases heq) ordinal n fun _ => hx

/-- What an expression assigns is volatile from then on. -/
theorem twins_assign {answers answers' : List (HashedText × Bool)} (n : Node)
    (htended : c.Tended id Q declared r) (hanswers : r.Right Q answers)
    (hanswers' : r.Right Q answers') : Code.Twins id Q (n.stored ++ declared)
      (c.withRegion id (n.stored.foldl Region.assign (r.answering answers)))
      (c.withRegion id (n.stored.foldl Region.assign (r.answering answers'))) := by
  cases n with
  | store name value =>
    change Code.Twins id Q (name :: declared) (c.withRegion id ((r.answering answers).assign name))
      (c.withRegion id ((r.answering answers').assign name))
    obtain ⟨kept, hkept, hassigned⟩ := hanswers.assign name
    obtain ⟨kept', hkept', hassigned'⟩ := hanswers'.assign name
    rw [hassigned, hassigned']
    refine .intro ⟨htended.interceptor, ?_, ?_, ?_, ?_⟩ hkept hkept'
    · rw [Region.assign_next]
      exact htended.next
    · intro other hother
      rcases mem_cons.mp hother with rfl | hother
      · exact Region.mem_assign.mpr (.inl rfl)
      · exact Region.mem_assign.mpr (.inr (htended.volatile hother))
    · intro other hother
      rcases Region.mem_assign.mp hother with rfl | hother
      · exact .inl mem_cons_self
      · exact (htended.source other hother).imp_left (mem_cons_of_mem _)
    · intro buffer other value net live hmem
      exact Region.mem_assign.mpr (.inr (htended.stored buffer other value net live hmem))
  | _ => exact .intro htended hanswers hanswers'

theorem agrees_offer (hQ : Node.Canonical Q) (hn : Q n) (ordinal : Int) (hx : Agrees id Q x y) :
    Agrees id Q (offer id ordinal n x) (offer id ordinal n y) := by
  refine agrees_bind (agrees_takesOver hQ hn) fun taken => ?_
  split
  · exact agrees_bind (agrees_cached ordinal n hx) fun _ => agrees_of_blind (blind_pure _)
  · exact agrees_of_blind (blind_pure _)

/-- An expression is intercepted alike, and what it assigns is volatile from then on. -/
theorem together_interceptable (hQ : Node.Canonical Q) (hn : Q n) (hx : Agrees id Q x y)
    (htwins : c.Twins id Q declared c') :
    Together id Q (n.stored ++ declared) (interceptable n x marks c)
      (interceptable n y marks c') := by
  cases htwins with
  | @intro c r answers answers' htended hanswers hanswers' =>
    have hrun : ∀ (z : Emit Unit) (answers : List (HashedText × Bool)),
        (interceptable n z marks (c.withRegion id (r.answering answers)) : _ × Code) =
          (do if ← offer id r.ordinal n z then pure () else z : Emit Unit) marks
            (c.withRegion id (n.stored.foldl Region.assign (r.answering answers))) := by
      intro z answers
      have hinterceptor : (c.withRegion id (r.answering answers)).interceptor = some (.cache id) :=
        htended.interceptor
      rw [interceptable_of_interceptor hinterceptor]
      change ((intercept n z 3 (.cache id) marks >>= _) _ : Except Failure Unit × Code) =
        (offer id r.ordinal n z marks >>= _) _
      have hnext : (r.answering answers).next = none := htended.next
      have hseen : (c.withRegion id (r.answering answers)).seeing id (r.answering answers) n =
          c.withRegion id (n.stored.foldl Region.assign (r.answering answers)) := by
        cases n with
        | store name value => exact setRegion_withRegion _ _
        | _ => rfl
      rw [bind_apply, bind_apply, run_intercept (region_withRegion _) hnext z 2, hseen]
      rfl
    rw [hrun, hrun]
    refine agrees_bind (agrees_offer hQ hn _ hx) (fun taken => ?_)
      (twins_assign n htended hanswers hanswers')
    cases taken with
    | true => exact agrees_of_blind (blind_pure _)
    | false => exact hx

/-- The gate lets expressions through alike. -/
theorem agrees_expression (hQ : Node.Canonical Q) (hn : Q n) (hx : Agrees id Q x y) :
    Agrees id Q (expression n x) (expression n y) := by
  intro declared marks c c' htwins
  have hstored : ∀ name ∈ n.stored, ∃ value, Q (.store name value) := by
    intro name hname
    cases n with
    | store other value =>
      cases mem_singleton.mp hname
      exact ⟨value, hn⟩
    | _ => cases hname
  suffices h : Together id Q (n.stored ++ declared) (expression n x marks c)
      (expression n y marks c') from ⟨h.1, twins_of_append h.2 hstored⟩
  have hsame : c'.emitting = c.emitting ∧ c'.depth = c.depth := by
    cases htwins
    exact ⟨rfl, rfl⟩
  have hwithin : Together id Q (n.stored ++ declared) (within n (interceptable n x) marks c)
      (within n (interceptable n y) marks c') := by
    have hinner : Together id Q (n.stored ++ declared)
        (interceptable n x marks { c with emitting := n.lazySignature :: c.emitting })
        (interceptable n y marks { c' with emitting := n.lazySignature :: c.emitting }) :=
      together_interceptable hQ hn hx (twins_emitting htwins _)
    rw [within, within, hsame.1]
    exact ⟨hinner.1, twins_emitting hinner.2 c.emitting⟩
  refine together_get (together_get (together_bind hwithin fun _ c₁ c₁' htwins₁ => ?_))
  rw [hsame.1, hsame.2]
  refine together_get ?_
  have hfields : c₁'.name = c₁.name ∧ c₁'.depth = c₁.depth ∧ c₁'.reachable = c₁.reachable ∧
      c₁'.observing = c₁.observing := by
    cases htwins₁
    exact ⟨rfl, rfl, rfl, rfl⟩
  rw [hfields.1, hfields.2.1, hfields.2.2.1, hfields.2.2.2]
  refine together_bind ⟨rfl, twins_report htwins₁ ?_⟩ fun _ c₂ c₂' htwins₂ => ?_
  · intro buffer name value net live heq
    cases heq
    exact mem_append_left _ mem_cons_self
  · have hcheck : Agrees id Q
        (if c₁.reachable && height (c₁.depth - c.depth) != n.effect then
          fail (.stackEffect n.signature (height (c₁.depth - c.depth)) n.effect)
        else pure PUnit.unit)
        (if c₁.reachable && height (c₁.depth - c.depth) != n.effect then
          fail (.stackEffect n.signature (height (c₁.depth - c.depth)) n.effect)
        else pure PUnit.unit) :=
      agrees_of_blind (blind_ite (blind_fail _) (blind_pure _))
    split
    · exact together_bind ⟨rfl, twins_observed htwins₂ fun live => ⟨_, _, _, live⟩⟩
        fun _ _ _ htwins₃ => hcheck htwins₃
    · exact hcheck htwins₂

end Agrees

end Emit

/-! ## Sessions -/

/-- The buffer in which a cache has forgotten its answers. -/
def Code.forget (id : Nat) (c : Code) : Code :=
  { c with regions := c.regions.map fun (key, r) => (key, if key = id then r.answering [] else r) }

/-- A gate at which the cache forgets its answers, so that it has to find each one anew. -/
def Emit.afresh (id : Nat) (n : Node) (x : Emit Unit) : Emit Unit := fun marks c =>
  expression n x marks (c.forget id)

/-- What can be asked of a buffer with a cache. -/
inductive Request where
  | attach (names : List Text)
  | expression (n : Node)

namespace Request

/-- What is emitted for a request, with expressions going through a gate. -/
def emitBy (gate : Node → Emit Unit → Emit Unit) (id : Nat) : Request → Emit Unit
  | .attach names => Emit.attach id names
  | .expression n => gate n (n.emitBy gate)

/-- After the first expression only names that are declared already are declared. -/
def orderly (declared : List Text) (asked : Bool) : List Request → Bool
  | [] => true
  | .attach names :: rest =>
    (!asked || names.all declared.contains) && orderly (names ++ declared) asked rest
  | .expression _ :: rest => orderly declared true rest

/-- One of the requests declares the name. -/
def Declares (requests : List Request) (name : Text) : Prop :=
  ∃ names, Request.attach names ∈ requests ∧ name ∈ names

/-- The expression is part of one that is to be emitted. -/
def Mentions (requests : List Request) (n : Node) : Prop :=
  ∃ root, Request.expression root ∈ requests ∧ n ∈ root.subexpressions

theorem orderly_mono {declared others : List Text} {asked : Bool} {requests : List Request}
    (h : declared ⊆ others) (horderly : orderly declared asked requests = true) :
    orderly others asked requests = true := by
  induction requests generalizing declared others asked with
  | nil => rfl
  | cons request rest ih =>
    cases request with
    | attach names =>
      simp only [orderly, Bool.and_eq_true, Bool.or_eq_true, all_eq_true,
        contains_iff_mem] at horderly ⊢
      refine ⟨horderly.1.imp_right fun hall name hname => h (hall name hname), ih ?_ horderly.2⟩
      exact append_subset.mpr ⟨subset_append_left names others,
        subset_append_of_subset_right names h⟩
    | expression n => exact ih h horderly

end Request

namespace Emit

/-- Carries out requests one after the other, whether or not they succeed. -/
def session (gate : Node → Emit Unit → Emit Unit) (id : Nat) (marks : Marks) :
    List Request → Code → List (Except Failure Unit) × Code
  | [], c => ([], c)
  | request :: rest, c =>
    let (result, c) := request.emitBy gate id marks c
    let (results, c) := session gate id marks rest c
    (result :: results, c)

section Sessions

variable {id : Nat} {Q : Node → Prop} {declared : List Text} {marks : Marks} {c c' : Code}

theorem agrees_afresh (hQ : Node.Canonical Q) {n : Node} (hn : Q n) {x y : Emit Unit}
    (hx : Agrees id Q x y) : Agrees id Q (expression n x) (afresh id n y) := by
  intro declared marks c c' htwins
  cases htwins with
  | @intro c r answers answers' htended hanswers hanswers' =>
    have hforget : (c.withRegion id (r.answering answers')).forget id =
        c.withRegion id (r.answering []) := by
      simp [Code.forget, Code.withRegion, Region.answering]
    rw [afresh, hforget]
    exact agrees_expression hQ hn hx (.intro htended hanswers Region.right_nil)

/-- The region of a cache that is attached to a buffer with an interceptor. -/
def attachedRegion (id : Nat) (names : List Text) (previous : Option Interceptor) (r : Region) :
    Region :=
  let r := match previous with
    | none => r
    | some previous =>
      if previous = Interceptor.cache id then r else { r with next := some previous }
  { r with volatile := names ++ r.volatile }

theorem attach_of_region {r : Region}
    (h : (region id marks c : Except Failure Region × Code) = (.ok r, c')) (names : List Text) :
    (attach id names marks c : Except Failure Unit × Code) =
      (.ok (), { c'.setRegion id (attachedRegion id names c'.interceptor r) with
        interceptor := some (.cache id) }) := by
  rw [attach]
  change ((region id marks >>= _) _ : Except Failure Unit × Code) = _
  rw [bind_of_ok h]
  rfl

/-- Attaching a cache that is attached declares names and nothing else. -/
theorem attach_withRegion (h : c.interceptor = some (.cache id)) (names : List Text) (r : Region) :
    (attach id names marks (c.withRegion id r) : Except Failure Unit × Code) =
      (.ok (), c.withRegion id { r with volatile := names ++ r.volatile }) := by
  have hinterceptor : (c.withRegion id r).interceptor = some (.cache id) := h
  have hregion : attachedRegion id names (some (.cache id)) r =
      { r with volatile := names ++ r.volatile } := by
    simp [attachedRegion]
  rw [attach_of_region (region_withRegion r), hinterceptor, hregion, setRegion_withRegion, ← h]
  rfl

theorem create_kept (name : Text) (params : List Text) :
    (Code.create name params).watch = ⟨[], none, #[]⟩ ∧ (Code.create name params).scratch = [] := by
  obtain ⟨locals, heq⟩ := Code.exists_create_eq name params
  rw [heq]
  exact ⟨rfl, rfl⟩

/-- The first time a cache is attached to a new buffer, the names are all it has. -/
theorem attach_create (name : Text) (params names : List Text) :
    ∃ (base : Code) (r : Region), base.Tended id Q names r ∧
      (attach id names marks (Code.create name params) : Except Failure Unit × Code) =
        (.ok (), base.withRegion id (r.answering [])) := by
  obtain ⟨hwatch, hscratch⟩ := create_kept name params
  generalize Code.create name params = c at hwatch hscratch ⊢
  have hregions : c.regions = [] := congrArg Watch.regions hwatch
  have hinterceptor : c.interceptor = none := congrArg Watch.interceptor hwatch
  have hevents : c.events = #[] := congrArg Watch.events hwatch
  have hregion : (region id).Yields marks c { ordinal := 0 }
      ((c.setScratch regionCountKey (.count 1)).setRegion id { ordinal := 0 }) := by
    rw [region, yields_get_bind, hregions]
    change (get >>= _ : Emit Region).Yields marks c _ _
    rw [yields_get_bind, hscratch]
    exact rfl
  refine ⟨{ c.setScratch regionCountKey (.count 1) with interceptor := some (.cache id) },
    { ordinal := 0, volatile := names }, ⟨rfl, rfl, Subset.refl _, fun _ h => .inl h, ?_⟩, ?_⟩
  · intro buffer other value net live hmem
    change _ ∈ c.events at hmem
    rw [hevents] at hmem
    exact absurd hmem (Array.not_mem_empty _)
  · rw [attach_of_region hregion]
    have hnone : ((c.setScratch regionCountKey (.count 1)).setRegion id
        { ordinal := 0 }).interceptor =
        none := hinterceptor
    rw [hnone]
    simp [Code.setRegion, Code.setScratch, Code.withRegion, hregions, attachedRegion,
      Region.answering]

theorem twins_attach {names : List Text} (hnames : names ⊆ declared)
    (htwins : c.Twins id Q declared c') :
    Together id Q declared (attach id names marks c) (attach id names marks c') := by
  cases htwins with
  | @intro c r answers answers' htended hanswers hanswers' =>
    have hsame : ∀ name, name ∈ r.volatile ↔ name ∈ names ++ r.volatile := fun name => by
      rw [mem_append]
      exact ⟨.inr, fun h => h.elim (fun hmem => htended.volatile (hnames hmem)) fun hmem => hmem⟩
    have hright : ∀ {answers}, r.Right Q answers →
        ({ r with volatile := names ++ r.volatile } : Region).Right Q answers :=
      fun h n hn answer hanswer =>
        (h n hn answer hanswer).trans (Node.dependsOn_congr hsame n)
    rw [attach_withRegion htended.interceptor, attach_withRegion htended.interceptor]
    refine ⟨rfl, .intro (r := { r with volatile := names ++ r.volatile }) ⟨htended.interceptor,
      htended.next, ?_, ?_, ?_⟩ (hright hanswers) (hright hanswers')⟩
    · exact subset_append_of_subset_right names htended.volatile
    · exact fun name hname => htended.source name ((hsame name).mpr hname)
    · exact fun buffer name value net live hmem =>
        mem_append_right names (htended.stored buffer name value net live hmem)

/-- Two sessions have given the same results, in buffers that differ at most in the answers. -/
def Alongside (id : Nat) (Q : Node → Prop) (declared : List Text)
    (o o' : List (Except Failure Unit) × Code) : Prop :=
  o.1 = o'.1 ∧ o.2.Twins id Q declared o'.2

theorem alongside_cons {request : Request} {rest : List Request}
    (hfirst : Together id Q declared (request.emitBy expression id marks c)
      (request.emitBy (afresh id) id marks c'))
    {later : List Text} (hrest : ∀ c₁ c₁' : Code, c₁.Twins id Q declared c₁' →
      Alongside id Q later (session expression id marks rest c₁)
        (session (afresh id) id marks rest c₁')) :
    Alongside id Q later (session expression id marks (request :: rest) c)
      (session (afresh id) id marks (request :: rest) c') := by
  obtain ⟨hresult, htwins⟩ := hfirst
  obtain ⟨hresults, htwins'⟩ := hrest _ _ htwins
  refine ⟨?_, htwins'⟩
  rw [session, session]
  exact cons_eq_cons.mpr ⟨hresult, hresults⟩

/-- An expression is emitted alike whether the cache relies on its answers or finds them anew. -/
theorem together_expression (hQ : Node.Canonical Q) {n : Node} (hn : n.Everywhere Q)
    (htwins : c.Twins id Q declared c') :
    Together id Q declared (expression n n.emit marks c)
      (afresh id n (n.emitBy (afresh id)) marks c') := by
  have hrelated : n.Related (fun _ _ x y => Agrees id Q x y) expression (afresh id) :=
    Node.related congruence_agrees.toSequential congruence_agrees.loadConst
      (fun m _ => m.named congruence_agrees.toCompositional) (fun m _ _ hm hx _ =>
        agrees_afresh hQ hm (hx [])) n hn
  exact hrelated [] htwins

/-- Once an expression has been emitted, no other names are declared. -/
theorem session_asked (hQ : Node.Canonical Q) (requests : List Request)
    (hmentions : ∀ n, Request.Mentions requests n → Q n)
    (horderly : Request.orderly declared true requests = true) (htwins : c.Twins id Q declared c') :
    Alongside id Q declared (session expression id marks requests c)
      (session (afresh id) id marks requests c') := by
  induction requests generalizing c c' with
  | nil => exact ⟨rfl, htwins⟩
  | cons request rest ih =>
    have hrest : ∀ n, Request.Mentions rest n → Q n := fun n ⟨root, hroot, hn⟩ =>
      hmentions n ⟨root, mem_cons_of_mem _ hroot, hn⟩
    cases request with
    | attach names =>
      simp only [Request.orderly, Bool.not_true, Bool.false_or, Bool.and_eq_true,
        all_eq_true, contains_iff_mem] at horderly
      refine alongside_cons (twins_attach horderly.1 htwins) fun c₁ c₁' htwins₁ => ?_
      refine ih hrest (Request.orderly_mono ?_ horderly.2) htwins₁
      exact append_subset.mpr ⟨horderly.1, Subset.refl _⟩
    | expression n =>
      have hn : n.Everywhere Q := fun m hm => hmentions m ⟨n, mem_cons_self, hm⟩
      refine alongside_cons ?_ fun c₁ c₁' htwins₁ => ih hrest horderly htwins₁
      rw [Request.emitBy, Request.emitBy]
      exact together_expression hQ hn htwins

theorem mem_of_orderly {requests : List Request}
    (horderly : Request.orderly declared true requests = true) {name : Text}
    (h : Request.Declares requests name) : name ∈ declared := by
  induction requests with
  | nil =>
    obtain ⟨names, hmem, -⟩ := h
    cases hmem
  | cons request rest ih =>
    obtain ⟨names, hmem, hname⟩ := h
    cases request with
    | attach others =>
      simp only [Request.orderly, Bool.not_true, Bool.false_or, Bool.and_eq_true,
        all_eq_true, contains_iff_mem] at horderly
      rcases mem_cons.mp hmem with heq | hmem
      · cases heq
        exact horderly.1 name hname
      · refine ih (Request.orderly_mono ?_ horderly.2) ⟨names, hmem, hname⟩
        exact append_subset.mpr ⟨horderly.1, Subset.refl _⟩
    | expression n =>
      rcases mem_cons.mp hmem with heq | hmem
      · cases heq
      · exact ih horderly ⟨names, hmem, hname⟩

/-- Until the first expression is emitted there are no answers, and any names may be declared. -/
theorem session_unasked (hQ : Node.Canonical Q) (requests : List Request)
    (hmentions : ∀ n, Request.Mentions requests n → Q n)
    (horderly : Request.orderly declared false requests = true) {r : Region}
    (htended : c.Tended id Q declared r) :
    ∃ later, (∀ name, name ∈ later ↔ name ∈ declared ∨ Request.Declares requests name) ∧
      Alongside id Q later (session expression id marks requests (c.withRegion id (r.answering [])))
        (session (afresh id) id marks requests (c.withRegion id (r.answering []))) := by
  induction requests generalizing declared r with
  | nil =>
    refine ⟨declared, fun name => ⟨.inl, fun h => ?_⟩, rfl, .intro htended Region.right_nil
      Region.right_nil⟩
    rcases h with h | ⟨names, hmem, -⟩
    · exact h
    · cases hmem
  | cons request rest ih =>
    cases request with
    | attach names =>
      simp only [Request.orderly, Bool.not_false, Bool.true_or, Bool.true_and] at horderly
      have htended' : c.Tended id Q (names ++ declared)
          { r with volatile := names ++ r.volatile } := by
        refine ⟨htended.interceptor, htended.next, ?_, ?_, ?_⟩
        · exact append_subset.mpr ⟨subset_append_left _ _,
            subset_append_of_subset_right _ htended.volatile⟩
        · intro name hname
          rcases mem_append.mp hname with hname | hname
          · exact .inl (mem_append_left _ hname)
          · exact (htended.source name hname).imp_left (mem_append_right _)
        · exact fun buffer name value net live hmem =>
            mem_append_right names (htended.stored buffer name value net live hmem)
      obtain ⟨later, hlater, hresults, htwins⟩ := ih (fun n ⟨root, hroot, hn⟩ =>
        hmentions n ⟨root, mem_cons_of_mem _ hroot, hn⟩) horderly htended'
      have hrun : ∀ gate, session gate id marks (.attach names :: rest)
          (c.withRegion id (r.answering [])) =
          (.ok () :: (session gate id marks rest (c.withRegion id
            (Region.answering { r with volatile := names ++ r.volatile } []))).1,
            (session gate id marks rest (c.withRegion id
              (Region.answering { r with volatile := names ++ r.volatile } []))).2) := by
        intro gate
        rw [session, Request.emitBy, attach_withRegion htended.interceptor]
        rfl
      refine ⟨later, fun name => ?_, ?_⟩
      · rw [hlater, mem_append]
        simp only [Request.Declares, mem_cons, Request.attach.injEq]
        grind
      · rw [Alongside, hrun, hrun]
        exact ⟨by rw [hresults], htwins⟩
    | expression n =>
      have htwins : Code.Twins id Q declared (c.withRegion id (r.answering []))
          (c.withRegion id (r.answering [])) :=
        .intro htended Region.right_nil Region.right_nil
      have hasked : Request.orderly declared true (.expression n :: rest) = true := horderly
      refine ⟨declared, fun name => ⟨.inl, fun h => ?_⟩, ?_⟩
      · exact h.elim (fun hmem => hmem) (mem_of_orderly hasked)
      · exact session_asked hQ _ hmentions hasked htwins

/-- In an orderly session, in which no names are declared anew after the first expression, the
answers of the cache are right at every moment: what is emitted is what a cache emits that finds
every answer anew. The names that were declared and those that were assigned are volatile, no others
are, and of the marked expressions in reach the cache takes over those that depend on none. -/
theorem session_answers {id : Nat} {names : List Text} {requests : List Request}
    (hcanonical : Node.Canonical (Request.Mentions requests))
    (horderly : Request.orderly names false requests = true) (marks : Marks) (name : Text)
    (params : List Text) :
    ∃ (results : List (Except Failure Unit)) (c : Code) (r : Region)
      (answers : List (HashedText × Bool)),
      session expression id marks (.attach names :: requests) (Code.create name params) =
        (results, c.withRegion id r) ∧
      session (afresh id) id marks (.attach names :: requests) (Code.create name params) =
        (results, c.withRegion id { r with depends := answers }) ∧
      (∀ e, Request.Mentions requests e →
        (r.readsVolatile e).1 = e.dependsOn r.volatile ∧
        ((takesOver id e marks (c.withRegion id r) : Except Failure Bool × Code).1 =
          .ok (marks id e.signature && c.reachable && !e.dependsOn r.volatile))) ∧
      (∀ x, Request.Declares (.attach names :: requests) x → x ∈ r.volatile) ∧
      (∀ buffer x value net live,
        Event.emitted buffer (.store x value) net live ∈ c.events → x ∈ r.volatile) ∧
      (∀ x ∈ r.volatile, Request.Declares (.attach names :: requests) x ∨
        ∃ value, Request.Mentions requests (.store x value)) := by
  obtain ⟨base, r₀, htended, hattach⟩ :=
    @attach_create id (Request.Mentions requests) marks name params names
  obtain ⟨later, hlater, hresults, htwins⟩ :=
    @session_unasked id _ _ marks _ hcanonical requests (fun _ h => h) horderly _ htended
  have hrun : ∀ gate, session gate id marks (.attach names :: requests) (Code.create name params) =
      (.ok () :: (session gate id marks requests (base.withRegion id (r₀.answering []))).1,
        (session gate id marks requests (base.withRegion id (r₀.answering []))).2) := by
    intro gate
    rw [session, Request.emitBy, hattach]
  have hdeclares : ∀ x, Request.Declares (.attach names :: requests) x ↔ x ∈ later := by
    intro x
    rw [hlater]
    simp only [Request.Declares, mem_cons, Request.attach.injEq]
    grind
  rw [hrun, hrun, hresults]
  generalize (session expression id marks requests (base.withRegion id (r₀.answering []))).2 = final
    at htwins ⊢
  generalize (session (afresh id) id marks requests (base.withRegion id (r₀.answering []))) = other
    at htwins ⊢
  obtain ⟨results, final'⟩ := other
  cases htwins with
  | @intro c r answers answers' htended' hanswers hanswers' =>
    refine ⟨.ok () :: results, c, r.answering answers, answers', rfl, rfl,
      fun e he => ?_, ?_, ?_, ?_⟩
    · obtain ⟨kept, -, hasked⟩ := hanswers.readsVolatile hcanonical he
      refine ⟨by rw [hasked]; rfl, ?_⟩
      rw [takesOver_withRegion, hasked]
      cases marks id e.signature && c.reachable <;> rfl
    · exact fun x hx => htended'.volatile ((hdeclares x).mp hx)
    · exact htended'.stored
    · exact fun x hx => (htended'.source x hx).imp_left (hdeclares x).mpr

end Sessions

end Emit

/-- The sum of a name and one. The name is a double quote: its quoted form is known without a look
at the table of printable characters. -/
def Node.successor : Node := .binary .add (.var "\"") (.const (.int 1) "int:1")

theorem Node.canonical_successor (requests : List Request)
    (h : ∀ n, Request.expression n ∈ requests → n = successor) :
    Canonical (Request.Mentions requests) := by
  have hmem : ∀ n, Request.Mentions requests n →
      n = successor ∨ n = .var "\"" ∨ n = .const (.int 1) "int:1" := by
    rintro n ⟨root, hroot, hn⟩
    rw [h root hroot, subexpressions_eq] at hn
    simpa [successor, children, subexpressions_eq] using hn
  -- The three expressions have different signatures.
  intro n m hn hm hsignature names
  rcases hmem n hn with rfl | rfl | rfl <;> rcases hmem m hm with rfl | rfl | rfl
  all_goals first | rfl | exact absurd hsignature (by decide)

theorem Emit.session_answers_successor :
    Request.orderly ["\""] false [.expression Node.successor, .attach ["\""],
        .expression Node.successor] = true ∧
      ∃ (results : List (Except Failure Unit)) (c : Code) (r : Region),
        session expression 0 (fun _ _ => true) [.attach ["\""], .expression Node.successor,
          .attach ["\""], .expression Node.successor] (Code.create "f" ["\""]) =
            (results, c.withRegion 0 r) ∧
        (r.readsVolatile Node.successor).1 = Node.successor.dependsOn r.volatile ∧
        ↑"\"" ∈ r.volatile := by
  have hcanonical : Node.Canonical (Request.Mentions [.expression Node.successor, .attach ["\""],
      .expression Node.successor]) :=
    Node.canonical_successor _ (by simp)
  have horderly : Request.orderly ["\""] false [.expression Node.successor, .attach ["\""],
      .expression Node.successor] = true := by decide
  obtain ⟨results, c, r, answers, hrun, -, hanswers, hdeclared, -⟩ :=
    @session_answers 0 _ _ hcanonical horderly (fun _ _ => true) "f" ["\""]
  have hmentions : Request.Mentions [.expression Node.successor, .attach ["\""],
      .expression Node.successor] Node.successor :=
    ⟨Node.successor, by simp, by rw [Node.subexpressions_eq]; exact mem_cons_self⟩
  exact ⟨horderly, results, c, r, hrun, (hanswers _ hmentions).1,
    hdeclared _ ⟨["\""], by simp, by simp⟩⟩

/-- A name that is declared after an expression that reads it has been emitted is volatile, but the
cache still gives the answer from before, and takes over the expression. -/
theorem Emit.session_stale_answer :
    Node.Canonical (Request.Mentions [.expression Node.successor, .attach ["\""]]) ∧
      ∃ c r, (session expression 0 (fun _ _ => true) [.attach [], .expression Node.successor,
          .attach ["\""]] (Code.create "f" ["\""])).2 = c ∧
        c.regions.lookup 0 = some r ∧ ↑"\"" ∈ r.volatile ∧
        Node.successor.dependsOn r.volatile = true ∧ (r.readsVolatile Node.successor).1 = false ∧
        (takesOver 0 Node.successor (fun _ _ => true) c : Except Failure Bool × Code).1 =
          .ok true := by
  refine ⟨Node.canonical_successor _ (by simp), ?_⟩
  generalize hfinal : (session expression 0 (fun _ _ => true) [.attach [],
    .expression Node.successor, .attach ["\""]] (Code.create "f" ["\""])).2 = c
  have hregion : (c.regions.lookup 0).any (fun r => r.volatile.contains "\"" &&
      Node.successor.dependsOn r.volatile && !(r.readsVolatile Node.successor).1) = true := by
    rw [← hfinal]
    decide +kernel
  have htaken : (takesOver 0 Node.successor (fun _ _ => true) c :
      Except Failure Bool × Code).1.toOption = some true := by
    rw [← hfinal]
    decide +kernel
  obtain ⟨r, hr, hanswer⟩ := (Option.any_eq_true _ _).mp hregion
  simp only [Bool.and_eq_true, contains_iff_mem, Bool.not_eq_true'] at hanswer
  replace htaken : (takesOver 0 Node.successor (fun _ _ => true) c : Except Failure Bool × Code).1 =
      .ok true := by
    generalize (takesOver 0 Node.successor (fun _ _ => true) c : Except Failure Bool × Code).1 =
      answer at htaken ⊢
    cases answer with
    | error failure => cases htaken
    | ok taken => exact congrArg Except.ok (Option.some.inj htaken)
  exact ⟨c, r, rfl, hr, hanswer.1.1, hanswer.1.2, hanswer.2, htaken⟩

end ExprBackend
