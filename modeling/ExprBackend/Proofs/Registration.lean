import ExprBackend.Proofs.Interpretation
import ExprBackend.Proofs.LoopCourse

/-! # Generation for registered actions

Registration emits an action into a buffer of its own, so it checks the course of
the action. A generated function is refused only where the course of one of its
actions is refused, or where an action goes back to the top of the loop while
operands of its own are on the stack: registration does not see the top of the
loop. Otherwise all labels are placed, and only the size of the code is left to
stop the assembly.
-/

namespace ExprBackend

open List

/-! ## Assembly of code whose labels are placed -/

variable {c : Code} {hash : TextHash} {n : Node} {ns : List Node} {t : ActionTable} {top : Label}
  {x : Course Unit}

variable {resolve : Label → Except Failure Int}

theorem resolveTargets_total {ls : List Label} (h : ∀ l ∈ ls, ∃ offset, resolve l = .ok offset) :
    ∃ targets, resolveTargets resolve ls = .ok targets := by
  induction ls with
  | nil => exact ⟨[], rfl⟩
  | cons l rest ih =>
    obtain ⟨targets, hrest⟩ := ih fun l' hl' => h l' (mem_cons_of_mem l hl')
    obtain ⟨offset, hoffset⟩ := h l mem_cons_self
    rw [resolveTargets_cons, hrest]
    by_cases hnone : l = Label.none
    · rw [if_pos hnone]
      exact ⟨_, rfl⟩
    · rw [if_neg hnone, hoffset]
      exact ⟨_, rfl⟩

theorem resolveTables_total {specs : List TableSpec}
    (h : ∀ t ∈ specs, ∀ l ∈ t.default :: t.targets, ∃ offset, resolve l = .ok offset) :
    ∃ tables, resolveTables resolve specs = (tables, .ok ()) := by
  induction specs with
  | nil => exact ⟨[], rfl⟩
  | cons t rest ih =>
    obtain ⟨tables, hrest⟩ := ih fun t' ht' => h t' (mem_cons_of_mem t ht')
    have hlabels := h t mem_cons_self
    obtain ⟨targets, htargets⟩ :=
      resolveTargets_total fun l hl => hlabels l (mem_cons_of_mem _ hl)
    obtain ⟨default, hdefault⟩ := hlabels t.default mem_cons_self
    have hspec : t.resolve resolve = .ok ⟨targets, default⟩ := by
      rw [TableSpec.resolve, htargets, hdefault]
      rfl
    rw [resolveTables, hspec, hrest]
    exact ⟨_, rfl⟩

theorem encodeAll_total {is : List Instr}
    (h : ∀ i ∈ is, ∃ operand, i.resolved resolve = .ok operand) (code : Array UInt8) :
    ∃ code', encodeAll resolve is code = (code', .ok ()) := by
  induction is generalizing code with
  | nil => exact ⟨code, rfl⟩
  | cons i rest ih =>
    obtain ⟨operand, hoperand⟩ := h i mem_cons_self
    rw [encodeAll, hoperand]
    exact ih (fun i' hi' => h i' (mem_cons_of_mem i hi')) _

theorem Code.le_room (slots : Nat) : slots ≤ room slots := by
  unfold room
  cases hfound : blocks.find? (slots ≤ ·) with
  | none => exact Nat.le_refl _
  | some size => simpa using find?_some hfound

/-- With no labels at hand and the top of the loop placed, every label that the code refers to has
an offset. -/
theorem Code.Looping.labelOffset {l : Label} (hlooping : c.Looping top) (haimed : c.Aimed [] l) :
    ∃ offset, c.labelOffset c.offsets l = .ok offset := by
  have hplaced : ∃ info, c.label? l = some info ∧ info.position.isSome := by
    rcases haimed with hhand | hloop | hplaced
    · exact absurd hhand not_mem_nil
    · obtain ⟨htop, p, hlabel⟩ := hlooping
      obtain rfl : top = l := Option.some_inj.mp (htop.symm.trans hloop)
      exact ⟨_, hlabel, rfl⟩
    · exact hplaced
  obtain ⟨⟨position, depth⟩, hlabel, hposition⟩ := hplaced
  obtain ⟨p, rfl⟩ := Option.isSome_iff_exists.mp hposition
  rw [Code.labelOffset, hlabel]
  exact ⟨_, rfl⟩

/-- Only its size stops the assembly of code whose labels are placed. -/
theorem Emit.run_program (marks : Marks) (hc : c.Shows []) (hlooping : c.Looping top)
    (hcount : c.paramCount ≤ c.locals.length) :
    (∃ p c', (program marks c : Except Failure Program × Code) = (.ok p, c')) ∨
      ∃ bytes c', 65535 < bytes ∧ (program marks c : Except Failure Program × Code) =
        (.error (.compile (.code c.name (.tooLarge bytes))), c') := by
  by_cases hsize : 65535 < c.size
  · right
    refine ⟨c.size, c, hsize, ?_⟩
    rw [program, run_bind, assemble, run_get_bind, if_pos hsize]
    rfl
  left
  obtain ⟨tables, htables⟩ := resolveTables_total fun t ht l hl =>
    hlooping.labelOffset (hc.tabled t ht l hl)
  obtain ⟨code, hcode⟩ : ∃ code, encodeAll (c.labelOffset c.offsets)
      (c.prologue.toList ++ c.body.toList) #[] = (code, .ok ()) := by
    refine encodeAll_total (fun i hi => ?_) #[]
    rw [Instr.resolved]
    by_cases hjump : i.op.isJump = true
    · rw [if_pos hjump]
      rcases mem_append.mp hi with hi | hi
      · have hstraight := hc.straight i (Array.mem_toList_iff.mp hi)
        rw [hjump] at hstraight
        cases hstraight
      · exact hlooping.labelOffset (hc.aims i (Array.mem_toList_iff.mp hi) hjump)
    · rw [if_neg hjump]
      exact ⟨_, rfl⟩
  obtain ⟨chunk, c', hassemble, hcount', hlocals'⟩ : ∃ chunk c',
      (assemble marks c : Except Failure Chunk × Code) = (.ok chunk, c') ∧
      c'.paramCount = c.paramCount ∧ c'.locals = c.locals := by
    rw [assemble, run_get_bind, if_neg hsize]
    dsimp only
    rw [htables, hcode]
    exact ⟨_, _, rfl, rfl, rfl⟩
  have hparams : ∃ names, c'.params? = some names := by
    rw [Code.params?, hcount', hlocals',
      if_pos (Nat.le_trans hcount (Code.le_room c.locals.length))]
    exact ⟨_, rfl⟩
  obtain ⟨names, hparams⟩ := hparams
  refine ⟨⟨c'.name, names, chunk⟩, c', ?_⟩
  rw [program, run_bind, hassemble]
  dsimp only
  rw [run_get_bind, run_bind, params, run_get_bind, hparams]
  rfl

/-! ## What registration finds out -/

namespace Node

/-- The heights at which an action goes back to the top of the loop by itself. -/
def transfers (n : Node) : List Int := ((n.course .start).map (·.2.2.transfers)).getD []

/-- The course of the action is not refused, and it leaves one value if it comes to its end. -/
def Accepted (n : Node) : Prop :=
  ∃ s log, n.course .start = some ((), s, log) ∧ (s.reachable = true → s.depth = 1)

theorem transfers_eq {s : Standing} {log : Log} (h : n.course .start = some ((), s, log)) :
    n.transfers = log.transfers := by
  rw [transfers, h]
  rfl

theorem accepted_of_check {events : Array Event} (h : ActionTable.check n = (.ok (), events)) :
    n.Accepted := by
  let c0 := Code.create "dispatch.check" []
  let c1 := (c0.declared actionName).declared argumentName
  have hc1 : c1.Shows [] := (Code.Alike.declared (c0.declared actionName) argumentName).shows
    ((Code.Alike.declared c0 actionName).shows (Emit.shows_create _ _))
  have hstanding : c1.standing = .start := by
    simp only [c1]
    rw [Code.declared_eq (c0.declared actionName), Code.declared_eq c0]
    rfl
  have hmeets := n.onCourse [] (fun _ _ => false) c1 hc1
  rw [hstanding] at hmeets
  have hcheck : ActionTable.check n = (fun outcome => (outcome.1, outcome.2.events))
      ((n.emitInto >>= fun _ => get >>= fun c =>
        if c.reachable ∧ c.depth ≠ 1 then throw (.compile (.actionDepth n.signature c.depth))
        else pure () : Emit Unit) (fun _ _ => false) c1 : Except Failure Unit × Code) := rfl
  rw [hcheck, Emit.run_bind, emitInto] at h
  cases hrun : (Emit.expression n n.emit (fun _ _ => false) c1 : Except Failure Unit × Code) with
  | mk result c2 =>
  rw [hrun] at h hmeets
  cases result with
  | error failure => cases h
  | ok _ =>
    obtain ⟨⟨⟩, log, hcourse, -, -⟩ := hmeets
    refine ⟨c2.standing, log, hcourse, fun hlive => ?_⟩
    by_contra hdepth
    dsimp only at h
    rw [Emit.run_get_bind, if_pos ⟨hlive, hdepth⟩] at h
    cases h

end Node

namespace ActionTable

/-- Tables that come about by registrations, whether these succeed or fail. -/
inductive Registered (hash : TextHash) : ActionTable → Prop
  | empty : Registered hash {}
  | register {t : ActionTable} (ht : Registered hash t) (action : Option Node) :
      Registered hash (t.registerWith hash action).2.1

theorem Registered.accepted (ht : t.Registered hash) : ∀ n ∈ t.actions, n.Accepted := by
  induction ht with
  | empty => exact fun n hn => absurd hn (Array.not_mem_empty n)
  | @register t _ action ih =>
    unfold registerWith
    cases action with
    | none => exact ih
    | some action =>
      dsimp only
      cases t.find? hash action.signature with
      | some id => exact ih
      | none =>
        dsimp only
        cases hcheck : check action with
        | mk result events =>
        cases result with
        | error failure => exact ih
        | ok _ =>
          intro n hn
          rcases Array.mem_push.mp hn with hn | rfl
          · exact ih n hn
          · exact Node.accepted_of_check hcheck

/-- The first action that is accepted becomes the only one. -/
theorem actions_first (hash : TextHash) (h : (check n).1 = .ok ()) :
    (({} : ActionTable).registerWith hash (some n)).2.1.actions = #[n] := by
  have hfind : find? hash {} n.signature = none := rfl
  unfold registerWith
  dsimp only
  rw [hfind]
  cases hcheck : check n with
  | mk result events =>
  rw [hcheck] at h
  cases h
  rfl

end ActionTable

/-! ## The course of a loop over accepted actions -/

namespace Course

/-- The code goes on to its end and back to the top of the loop nowhere. -/
def Plain (x : Course Unit) : Prop := ∀ s, ∃ s' log, x s = some ((), s', log) ∧ log.transfers = []

theorem plain_step (reads : Nat) (change : Int) : Plain (step reads change) :=
  fun _ => ⟨_, _, rfl, rfl⟩

theorem plain_bind {y : Course Unit} (hx : Plain x) (hy : Plain y) : Plain (x >>= fun _ => y) := by
  intro s
  obtain ⟨s1, log1, h1, htransfers1⟩ := hx s
  obtain ⟨s2, log2, h2, htransfers2⟩ := hy s1
  refine ⟨s2, log1 ++ log2, bind_leads h1 h2, ?_⟩
  rw [Log.append_transfers, htransfers1, htransfers2]
  rfl

theorem plain_slots (count : Nat) : Plain (slots count) := by
  induction count with
  | zero => exact fun s => ⟨s, .empty, rfl, rfl⟩
  | succ count ih => exact plain_bind (plain_step 0 1) ih

/-- Code at a label of the jump that ends the activation. -/
theorem ending_at (hx : Plain x) (d : Int) :
    ∃ d' log, (do place 0; x; halt : Course Unit) ⟨d, false⟩ = some ((), ⟨d', false⟩, log) ∧
      log.transfers = [] := by
  obtain ⟨s, log, hrun, htransfers⟩ := hx ⟨0, true⟩
  have hplace : place 0 ⟨d, false⟩ = some ((), ⟨0, true⟩, .empty) := by
    rw [place_dead, if_pos (Int.le_refl 0)]
  have hhalt : halt s = some ((), ⟨s.depth, false⟩, .empty) := rfl
  refine ⟨s.depth, _, bind_leads hplace (bind_leads hrun hhalt), ?_⟩
  rw [Log.append_transfers, Log.append_transfers, htransfers]
  rfl

theorem leaving_at (paramCount : Nat) (d : Int) :
    ∃ d' log, leaving paramCount ⟨d, false⟩ = some ((), ⟨d', false⟩, log) ∧ log.transfers = [] := by
  have hplain := plain_bind (plain_step 0 1) (plain_bind (plain_slots paramCount)
    (plain_bind (plain_step (paramCount + 1) (-paramCount)) (plain_step 1 (-1))))
  have hending := ending_at hplain d
  simp only [bind_assoc] at hending
  exact hending

theorem refusal_at (d : Int) :
    ∃ d' log, refusal ⟨d, false⟩ = some ((), ⟨d', false⟩, log) ∧ log.transfers = [] := by
  have hplain := plain_bind (plain_step 0 1) (plain_bind (plain_step 0 1)
    (plain_bind (plain_step 2 (-1)) (plain_step 1 (-1))))
  have hending := ending_at hplain d
  simp only [bind_assoc] at hending
  exact hending

/-- An action that is accepted goes back where it does so by itself, and at its end to an empty
stack. -/
theorem action_at (h : n.Accepted) (d : Int) :
    ∃ d' log, (do place 0; n.course; reach transfer : Course Unit) ⟨d, false⟩ =
        some ((), ⟨d', false⟩, log) ∧
      (log.transfers = n.transfers ∨ log.transfers = n.transfers ++ [0]) := by
  obtain ⟨⟨depth, live⟩, log, hcourse, hend⟩ := h
  have hplace : place 0 ⟨d, false⟩ = some ((), .start, .empty) := by
    rw [place_dead, if_pos (Int.le_refl 0)]
    rfl
  rw [Node.transfers_eq hcourse]
  cases live with
  | false =>
    have hreach : reach transfer ⟨depth, false⟩ = some ((), ⟨depth, false⟩, .empty) := rfl
    refine ⟨_, _, bind_leads hplace (bind_leads hcourse hreach), .inl ?_⟩
    rw [Log.empty_append, Log.append_empty]
  | true =>
    obtain rfl : depth = 1 := hend rfl
    obtain ⟨log', htransfer, htransfers, -, -⟩ := transfer_at (d := 1) (by omega) (by omega)
    have hreach : reach transfer ⟨1, true⟩ = some ((), ⟨0, false⟩, log') := htransfer
    refine ⟨_, _, bind_leads hplace (bind_leads hcourse hreach), .inr ?_⟩
    rw [Log.empty_append, Log.append_transfers, htransfers]
    rfl

/-- The heights at which actions go back by themselves, but for those that they go back at anyway.
-/
def Returns (ns : List Node) (transfers : List Int) : Prop :=
  ∀ d, d ≠ 0 → (d ∈ transfers ↔ ∃ n ∈ ns, d ∈ n.transfers)

theorem actions_at (h : ∀ n ∈ ns, n.Accepted) (d : Int) :
    ∃ d' log, actions ns ⟨d, false⟩ = some ((), ⟨d', false⟩, log) ∧ Returns ns log.transfers := by
  induction ns generalizing d with
  | nil => exact ⟨d, .empty, rfl, fun d _ => by simp⟩
  | cons n rest ih =>
    obtain ⟨d1, log1, hfirst, htransfers1⟩ := action_at (h n mem_cons_self) d
    obtain ⟨d2, log2, hrest, hreturns⟩ := ih (fun m hm => h m (mem_cons_of_mem n hm)) d1
    refine ⟨d2, log1 ++ log2, ?_, fun t ht => ?_⟩
    · have hall := bind_leads (f := fun _ => actions rest) hfirst hrest
      simp only [bind_assoc] at hall
      exact hall
    · have hmine : t ∈ log1.transfers ↔ t ∈ n.transfers := by
        rcases htransfers1 with heq | heq
        · rw [heq]
        · rw [heq, mem_append, mem_singleton, or_iff_left ht]
      rw [Log.append_transfers, mem_append, hmine, hreturns t ht]
      simp

theorem loop_at (paramCount : Nat) (h : ∀ n ∈ ns, n.Accepted) (d : Int) :
    ∃ s log, loop paramCount ns ⟨d, false⟩ = some ((), s, log) ∧ Returns ns log.transfers := by
  obtain ⟨d1, log1, hleaving, htransfers1⟩ := leaving_at paramCount d
  obtain ⟨d2, log2, hactions, hreturns⟩ := actions_at h d1
  obtain ⟨d3, log3, hrefusal, htransfers3⟩ := refusal_at d2
  refine ⟨_, _, bind_leads hleaving (bind_leads hactions hrefusal), ?_⟩
  rw [Log.append_transfers, Log.append_transfers, htransfers1, htransfers3, nil_append, append_nil]
  exact hreturns

end Course

/-! ## Generation -/

namespace ActionTable

variable {h : Heap} {root : Value} {params : List Text}

theorem generateProgram_eq (hroot : (h.items? root).map List.length = some 2)
    (hfree : ∀ param ∈ params, param ∉ reservedNames) (marks : Marks) (cache : Option Nat)
    (name : Text) : (t.generateProgram h marks cache root name params).1 =
      (Emit.interpreter root params.length cache t marks (Code.create name params) :
        Except Failure Program × Code).1 := by
  have hfind : params.find? (reservedNames.contains ·) = none := by
    refine find?_eq_none.mpr fun param hparam hcontains => hfree param hparam ?_
    simpa using hcontains
  rw [generateProgram, if_neg (not_not.mpr hroot), hfind]
  rfl

/-- What generation comes to for registered actions. -/
theorem generateProgram_registered (ht : t.Registered hash)
    (hroot : (h.items? root).map List.length = some 2) (hnodup : params.Nodup)
    (hfree : ∀ param ∈ params, param ∉ reservedNames) (marks : Marks) (name : Text)
    (hpool : (Emit.interpreter root params.length none t marks (Code.create name params) :
      Except Failure Program × Code).2.chunk.constants.size ≤ 65536) :
    ((∀ n ∈ t.actions, ∀ d ∈ n.transfers, d = 0) ∧
      ((∃ p, (t.generateProgram h marks none root name params).1 = .ok p) ∨
        ∃ bytes, 65535 < bytes ∧ (t.generateProgram h marks none root name params).1 =
          .error (.compile (.code name (.tooLarge bytes))))) ∨
    ∃ n ∈ t.actions, ∃ d ∈ n.transfers, d ≠ 0 ∧ ∃ l,
      (t.generateProgram h marks none root name params).1 =
        .error (.compile (.code name (.backJumpDepth l d 0))) := by
  rw [generateProgram_eq hroot hfree]
  obtain ⟨l, c, hlooping, hname, hcount, hlocals, hinterceptor, -, ⟨result, c'⟩, hmeets, hrun⟩ :=
    Emit.run_interpreter marks root none t name params
  have haccepted : ∀ n ∈ t.actions.toList, n.Accepted := fun n hn =>
    ht.accepted n (Array.mem_toList_iff.mp hn)
  obtain ⟨s, log, hloop, hreturns⟩ := Course.loop_at params.length haccepted 0
  rw [hloop] at hmeets
  rw [hrun] at hpool ⊢
  cases result with
  | error failure =>
    right
    obtain ⟨htop, p, hlabel⟩ := hlooping
    rcases hmeets hpool hinterceptor l p htop hlabel with
      hnone | ⟨_, _, log', d, hsome, hd, hne, rfl⟩
    · cases hnone
    · cases hsome
      obtain ⟨n, hn, hmem⟩ := (hreturns d hne).mp hd
      refine ⟨n, Array.mem_toList_iff.mp hn, d, hmem, hne, l, ?_⟩
      rw [hname]
  | ok _ =>
    left
    obtain ⟨⟨⟩, log', hsome, hc', hmoves⟩ := hmeets
    cases hsome
    obtain ⟨htop, p, hlabel⟩ := hlooping
    refine ⟨fun n hn d hd => ?_, ?_⟩
    · by_contra hne
      exact hne ((hmoves.atop l p htop hlabel).2 d
        ((hreturns d hne).mpr ⟨n, Array.mem_toList_iff.mpr hn, hd⟩))
    · have hcount' : c'.paramCount ≤ c'.locals.length := by
        rw [Code.create_eq name hnodup] at hlocals
        rw [hmoves.paramCount, hcount]
        exact Nat.le_trans hlocals hmoves.locals
      have hlooping' := Code.Looping.moves ⟨htop, p, hlabel⟩ hmoves
      dsimp only
      rw [Emit.finish, Emit.run_bind]
      rcases Emit.run_program marks hc' hlooping' hcount' with ⟨program, c'', hprogram⟩ |
        ⟨bytes, c'', hbytes, hprogram⟩
      · rw [hprogram]
        exact .inl ⟨program, rfl⟩
      · rw [hprogram, hmoves.name, hname]
        exact .inr ⟨bytes, hbytes, rfl⟩

theorem generate_eq (t : ActionTable) (marks : Marks) (cache : Option Nat) (root : Value)
    (name : Text) (params : List Text) (globals : Bindings) (h : Heap) :
    t.generate marks cache root name params globals h =
      match (t.generateProgram h marks cache root name params).1 with
      | .ok program => program.install globals h
      | .error failure => (.error failure, h) := by
  rw [generate, bind_apply, get_apply]
  dsimp only
  cases (t.generateProgram h marks cache root name params).1 <;> rfl

/-- Generation without a cache succeeds for registered actions whose constants have room in the
pool, unless the code gets too large, if every action goes back to the top of the loop with an empty
stack. If one of them goes back with operands left on it, that is the error. -/
theorem generate_registered {hash : TextHash} {t : ActionTable} (ht : t.Registered hash)
    {h : Heap} {root : Value} (hroot : (h.items? root).map List.length = some 2)
    {params : List Text} (hnodup : params.Nodup) (hfree : ∀ param ∈ params, param ∉ reservedNames)
    (marks : Marks) (name : Text)
    (hpool : (Emit.interpreter root params.length none t marks (Code.create name params) :
      Except Failure Program × Code).2.chunk.constants.size ≤ 65536) (globals : Bindings) :
    ((∀ n ∈ t.actions, ∀ d ∈ n.transfers, d = 0) ∧
      ((∃ r h', t.generate marks none root name params globals h = (.ok (.function r), h')) ∨
        ∃ bytes, 65535 < bytes ∧ t.generate marks none root name params globals h =
          (.error (.compile (.code name (.tooLarge bytes))), h))) ∨
    ∃ n ∈ t.actions, ∃ d ∈ n.transfers, d ≠ 0 ∧ ∃ l,
      t.generate marks none root name params globals h =
        (.error (.compile (.code name (.backJumpDepth l d 0))), h) := by
  rw [generate_eq]
  rcases generateProgram_registered ht hroot hnodup hfree marks name hpool with
    ⟨hzero, ⟨p, hp⟩ | ⟨bytes, hbytes, hp⟩⟩ | ⟨n, hn, d, hd, hne, l, hp⟩
  · rw [hp]
    exact .inl ⟨hzero, .inl ⟨_, _, rfl⟩⟩
  · rw [hp]
    exact .inl ⟨hzero, .inr ⟨bytes, hbytes, rfl⟩⟩
  · rw [hp]
    exact .inr ⟨n, hn, d, hd, hne, l, rfl⟩

theorem generate_registered_climb :
    Node.climb.transfers = [0] ∧
      let t := (({} : ActionTable).registerWith (fun _ => 0) (some Node.climb)).2.1
      t.actions = #[Node.climb] ∧
        ((∃ r h', t.generate (fun _ _ => false) none (.tuple 2) "f" ["x"] {} smallTree =
            (.ok (.function r), h')) ∨
          ∃ bytes, 65535 < bytes ∧ t.generate (fun _ _ => false) none (.tuple 2) "f" ["x"] {}
            smallTree = (.error (.compile (.code "f" (.tooLarge bytes))), smallTree)) := by
  have htransfers : Node.climb.transfers = [0] := by decide +kernel
  refine ⟨htransfers, ?_⟩
  intro t
  have hactions : t.actions = #[Node.climb] := actions_first _ (by decide +kernel)
  have hroot : (smallTree.items? (.tuple 2)).map List.length = some 2 := rfl
  have hfree : ∀ param ∈ (["x"] : List Text), param ∉ reservedNames := by decide
  have hregistered : t.Registered fun _ => 0 := .register .empty (some Node.climb)
  refine ⟨hactions, ?_⟩
  rcases generate_registered hregistered hroot (nodup_singleton _) hfree (fun _ _ => false) "f"
    (by decide +kernel) {} with ⟨-, hcome⟩ | ⟨n, hn, d, hd, hne, -⟩
  · exact hcome
  · obtain rfl : n = Node.climb := by
      rw [hactions] at hn
      simpa using hn
    rw [htransfers, mem_singleton] at hd
    exact absurd hd hne

end ActionTable

/-- Goes on from within a tuple, whose first element is on the stack already. -/
def Node.midway : Node := .collection .tuple [.const (.int 1) "int:1", .next (.var argumentName)]

/-- Registration accepts an action that goes on with an operand left on the stack, and generation
refuses it. -/
theorem generate_midway_refused :
    let t := (({} : ActionTable).registerWith (fun _ => 0) (some Node.midway)).2.1
    t.Registered (fun _ => 0) ∧
      (({} : ActionTable).registerWith (fun _ => 0) (some Node.midway)).1 = .ok 1 ∧
      (t.generate (fun _ _ => false) none (.tuple 2) "f" ["x"] {} smallTree).1 =
        .error (.compile (.code "f" (.backJumpDepth 0 1 0))) :=
  ⟨.register .empty _, by decide +kernel, by decide +kernel⟩

end ExprBackend
