import ExprBackend.Dispatch.Table

/-! # The numbers of actions

Whatever is asked of a table, and whatever the hash of signatures is, the table
numbers distinct signatures from one on without gaps. Registration gives the number
of a signature that is there, adds an action that is accepted behind all others,
and does nothing if it fails. So a number that has once been given means the same
action for ever.

The actions whose hashes collide share a list of candidates. What carries all of
this is that the candidates for a hash are the numbers of exactly the actions whose
signatures have that hash.
-/

namespace ExprBackend.ActionTable

open List

variable {hash : TextHash} {t : ActionTable} {id : Nat} {action other : Node} {signature : Text}
  {request : Option Node} {t' : ActionTable}

/-! ## What a table holds -/

/-- An action of the table has a signature. -/
def Holds (t : ActionTable) (id : Nat) (signature : Text) : Prop :=
  ∃ action, t.action? id = some action ∧ action.signature = signature

theorem action?_natCast (t : ActionTable) (id : Nat) :
    t.action? id = if 1 ≤ id then t.actions[id - 1]? else none := by
  unfold action?
  by_cases hid : 1 ≤ id
  · rw [if_pos hid, if_pos (by exact_mod_cast hid)]
    congr 1
    omega
  · rw [if_neg hid, if_neg (by exact_mod_cast hid)]

theorem action?_eq_some :
    t.action? id = some action ↔ ∃ i, id = i + 1 ∧ t.actions[i]? = some action := by
  rw [action?_natCast]
  cases id with
  | zero => simp
  | succ i => simp

/-- Whatever has a number in the table still has it when an action is added. -/
theorem action?_push (h : t.action? id = some action) :
    (t.push hash other).action? id = some action := by
  obtain ⟨i, rfl, hi⟩ := action?_eq_some.mp h
  have hlt : i < t.actions.size := (Array.getElem?_eq_some_iff.mp hi).1
  refine action?_eq_some.mpr ⟨i, rfl, ?_⟩
  rw [push, Array.getElem?_push, if_neg (Nat.ne_of_lt hlt), hi]

theorem action?_push_self (t : ActionTable) (action : Node) :
    (t.push hash action).action? (t.size + 1 : Nat) = some action := by
  refine action?_eq_some.mpr ⟨t.size, rfl, ?_⟩
  simp [push, size]

/-- An action of the longer table was there before, or is the one that has been added. -/
theorem action?_of_push (h : (t.push hash other).action? id = some action) :
    t.action? id = some action ∨ id = t.size + 1 ∧ action = other := by
  obtain ⟨i, rfl, hi⟩ := action?_eq_some.mp h
  rw [push, Array.getElem?_push] at hi
  split at hi
  next hlast => exact .inr ⟨by rw [hlast]; rfl, (Option.some.inj hi).symm⟩
  next => exact .inl (action?_eq_some.mpr ⟨i, rfl, hi⟩)

/-- The numbers of a table start from one and have no gaps. -/
theorem exists_action?_iff (t : ActionTable) (id : Nat) :
    (∃ action, t.action? id = some action) ↔ 1 ≤ id ∧ id ≤ t.size := by
  constructor
  · rintro ⟨action, h⟩
    obtain ⟨i, rfl, hi⟩ := action?_eq_some.mp h
    have hlt : i < t.actions.size := (Array.getElem?_eq_some_iff.mp hi).1
    exact ⟨Nat.succ_pos i, hlt⟩
  · rintro ⟨hpos, hle⟩
    obtain ⟨i, rfl⟩ := Nat.exists_eq_add_of_le' hpos
    exact ⟨t.actions[i], action?_eq_some.mpr ⟨i, rfl, Array.getElem?_eq_getElem hle⟩⟩

/-! ## The index -/

/-- A number is added to the candidates for its hash, and to no others. -/
theorem lookup_indexed (key other : UInt64) (id : Nat) (index : List (UInt64 × List Nat)) :
    ((indexed key id index).lookup other).getD [] =
      if other = key then ((index.lookup other).getD []) ++ [id]
      else (index.lookup other).getD [] := by
  induction index with
  | nil =>
    rw [indexed, Bindings.lookup_cons]
    by_cases hother : other = key <;> simp [hother]
  | cons entry rest ih =>
    obtain ⟨first, ids⟩ := entry
    rw [indexed]
    by_cases hfirst : first = key
    · rw [if_pos (by simpa using hfirst), Bindings.lookup_cons, Bindings.lookup_cons, hfirst]
      by_cases hother : other = key <;> simp [hother]
    · rw [if_neg (by simpa using hfirst), Bindings.lookup_cons, Bindings.lookup_cons]
      by_cases hother : other = first
      · simp [hother, hfirst]
      · rw [if_neg hother, if_neg hother, ih]

/-- The table has no signature twice, and its index leads to exactly the actions it should. -/
structure Indexed (hash : TextHash) (t : ActionTable) : Prop where
  distinct : ∀ {id id' : Nat} {signature : Text}, t.Holds id signature → t.Holds id' signature →
    id = id'
  candidates : ∀ (key : UInt64) (id : Nat),
    id ∈ t.candidates key ↔ ∃ signature, t.Holds id signature ∧ hash signature = key

theorem indexed_empty : Indexed hash {} where
  distinct := by
    rintro id id' signature ⟨action, h, -⟩ -
    obtain ⟨i, -, hi⟩ := action?_eq_some.mp h
    simp at hi
  candidates key id := by
    constructor
    · intro hid
      simp [ActionTable.candidates] at hid
    · rintro ⟨signature, ⟨action, h, -⟩, -⟩
      obtain ⟨i, -, hi⟩ := action?_eq_some.mp h
      simp at hi

/-- However hashes collide, a signature is found under its number if it is there. -/
theorem Indexed.find?_eq_some (ht : t.Indexed hash) :
    t.find? hash signature = some id ↔ t.Holds id signature := by
  constructor
  · intro hfound
    have hmatch := find?_some hfound
    cases haction : t.action? id with
    | none => simp [haction] at hmatch
    | some action => exact ⟨action, haction, by simpa [haction] using hmatch⟩
  · rintro ⟨action, haction, rfl⟩
    have hmem : id ∈ t.candidates (hash action.signature) :=
      (ht.candidates _ _).mpr ⟨_, ⟨action, haction, rfl⟩, rfl⟩
    -- There is a candidate that fits, so one is found; it fits as well, and so it is this one.
    cases hfound : t.find? hash action.signature with
    | none =>
      have hnone := find?_eq_none.mp hfound id hmem
      simp [haction] at hnone
    | some other =>
      have hmatch := find?_some hfound
      cases hother : t.action? other with
      | none => simp [hother] at hmatch
      | some action' =>
        have hsame : action'.signature = action.signature := by simpa [hother] using hmatch
        rw [ht.distinct ⟨action', hother, hsame⟩ ⟨action, haction, rfl⟩]

theorem Indexed.find?_eq_none (ht : t.Indexed hash) :
    t.find? hash signature = none ↔ ∀ id, ¬t.Holds id signature := by
  constructor
  · intro hnone id hid
    rw [ht.find?_eq_some.mpr hid] at hnone
    cases hnone
  · intro habsent
    cases hfound : t.find? hash signature with
    | none => rfl
    | some id => exact absurd (ht.find?_eq_some.mp hfound) (habsent id)

/-- An action with a new signature keeps the table in order. -/
theorem Indexed.push (ht : t.Indexed hash) (hnew : ∀ id, ¬t.Holds id action.signature) :
    (t.push hash action).Indexed hash := by
  have hholds : ∀ {id : Nat} {signature : Text}, (t.push hash action).Holds id signature ↔
      t.Holds id signature ∨ id = t.size + 1 ∧ signature = action.signature := by
    intro id signature
    constructor
    · rintro ⟨other, hother, rfl⟩
      rcases action?_of_push hother with hold | ⟨rfl, rfl⟩
      · exact .inl ⟨other, hold, rfl⟩
      · exact .inr ⟨rfl, rfl⟩
    · rintro (⟨other, hother, rfl⟩ | ⟨rfl, rfl⟩)
      · exact ⟨other, action?_push hother, rfl⟩
      · exact ⟨action, action?_push_self t action, rfl⟩
  constructor
  · intro id id' signature hid hid'
    rcases hholds.mp hid with hid | ⟨rfl, rfl⟩ <;> rcases hholds.mp hid' with hid' | ⟨rfl, hsame⟩
    · exact ht.distinct hid hid'
    · exact absurd (hsame ▸ hid) (hnew id)
    · exact absurd hid' (hnew id')
    · rfl
  · intro key id
    have hcandidates : (t.push hash action).candidates key =
        if key = hash action.signature then t.candidates key ++ [t.size + 1]
        else t.candidates key :=
      lookup_indexed _ _ _ _
    rw [hcandidates]
    by_cases hkey : key = hash action.signature
    · rw [if_pos hkey, mem_append, mem_singleton, ht.candidates]
      constructor
      · rintro (⟨signature, hid, hhash⟩ | rfl)
        · exact ⟨signature, hholds.mpr (.inl hid), hhash⟩
        · exact ⟨_, hholds.mpr (.inr ⟨rfl, rfl⟩), hkey.symm⟩
      · rintro ⟨signature, hid, hhash⟩
        rcases hholds.mp hid with hid | ⟨hlast, -⟩
        · exact .inl ⟨signature, hid, hhash⟩
        · exact .inr hlast
    · rw [if_neg hkey, ht.candidates]
      constructor
      · rintro ⟨signature, hid, hhash⟩
        exact ⟨signature, hholds.mpr (.inl hid), hhash⟩
      · rintro ⟨signature, hid, hhash⟩
        rcases hholds.mp hid with hid | ⟨-, rfl⟩
        · exact ⟨signature, hid, hhash⟩
        · exact absurd hhash.symm hkey

/-! ## Registrations -/

/-- What one registration may do to a table, without regard to how signatures are found. -/
inductive Registers (t : ActionTable) : Option Node → Except Failure Nat → ActionTable → Prop
  /-- There is nothing to register. -/
  | absent : Registers t none (.error (.compile .noAction)) t
  /-- The signature has a number already. -/
  | known {action : Node} {id : Nat} : t.Holds id action.signature →
      Registers t (some action) (.ok id) t
  /-- The action is new and not accepted. -/
  | rejected {action : Node} {failure : Failure} : (∀ id, ¬t.Holds id action.signature) →
      (check action).1 = .error failure → Registers t (some action) (.error failure) t
  /-- The action is new and accepted; it goes behind all others. -/
  | added {action : Node} {t' : ActionTable} : (∀ id, ¬t.Holds id action.signature) →
      (check action).1 = .ok () → t'.actions = t.actions.push action →
      Registers t (some action) (.ok (t.size + 1)) t'

/-- One registration does what it may, and keeps the table in order. -/
theorem Indexed.registerWith (ht : t.Indexed hash) (request : Option Node) :
    Registers t request (t.registerWith hash request).1 (t.registerWith hash request).2.1 ∧
      (t.registerWith hash request).2.1.Indexed hash := by
  cases request with
  | none => exact ⟨.absent, ht⟩
  | some action =>
    cases hfound : t.find? hash action.signature with
    | some id =>
      simp only [ActionTable.registerWith, hfound]
      exact ⟨.known (ht.find?_eq_some.mp hfound), ht⟩
    | none =>
      have hnew := ht.find?_eq_none.mp hfound
      rcases hcheck : check action with ⟨_ | _, events⟩
      · simp only [ActionTable.registerWith, hfound, hcheck]
        exact ⟨.rejected hnew (by rw [hcheck]), ht⟩
      · simp only [ActionTable.registerWith, hfound, hcheck]
        have hsize : (t.push hash action).size = t.size + 1 := Array.size_push ..
        rw [hsize]
        exact ⟨.added hnew (by rw [hcheck]) rfl, ht.push hnew⟩

/-- No registration takes a number from an action. -/
theorem Registers.action? {answer : Except Failure Nat} (h : Registers t request answer t')
    (hid : t.action? id = some action) : t'.action? id = some action := by
  cases h with
  | absent => exact hid
  | known _ => exact hid
  | rejected _ _ => exact hid
  | added _ _ hactions =>
    obtain ⟨i, rfl, hi⟩ := action?_eq_some.mp hid
    have hlt : i < t.actions.size := (Array.getElem?_eq_some_iff.mp hi).1
    refine action?_eq_some.mpr ⟨i, rfl, ?_⟩
    rw [hactions, Array.getElem?_push, if_neg (Nat.ne_of_lt hlt), hi]

/-- The number that is given is that of an action with the signature that was asked for. -/
theorem Registers.holds (h : Registers t request (.ok id) t') :
    ∃ action, request = some action ∧ t'.Holds id action.signature := by
  cases h with
  | known hid => exact ⟨_, rfl, hid⟩
  | @added action _ _ _ hactions =>
    refine ⟨action, rfl, action, action?_eq_some.mpr ⟨t.size, rfl, ?_⟩, rfl⟩
    rw [hactions, size, Array.getElem?_push, if_pos rfl]

theorem Registers.eq_of_error {failure : Failure} (h : Registers t request (.error failure) t') :
    t' = t := by
  cases h <;> rfl

def registerAll (hash : TextHash) (t : ActionTable) (requests : List (Option Node)) : ActionTable :=
  requests.foldl (fun t request => (t.registerWith hash request).2.1) t

theorem registerAll_append (hash : TextHash) (t : ActionTable) (past future : List (Option Node)) :
    registerAll hash t (past ++ future) = registerAll hash (registerAll hash t past) future :=
  foldl_append

/-- Through any number of registrations the table stays in order, and numbers stay with their
actions. -/
theorem Indexed.registerAll (ht : t.Indexed hash) (requests : List (Option Node)) :
    (registerAll hash t requests).Indexed hash ∧ ∀ {id : Nat} {action : Node},
      t.action? id = some action → (registerAll hash t requests).action? id = some action := by
  induction requests generalizing t with
  | nil => exact ⟨ht, fun hid => hid⟩
  | cons request rest ih =>
    obtain ⟨hregisters, hindexed⟩ := ht.registerWith request
    obtain ⟨hrest, hkept⟩ := ih hindexed
    exact ⟨hrest, fun hid => hkept (hregisters.action? hid)⟩

/-- **The table is a stable numbering of signatures.** After any registrations, with any hash of
signatures: the numbers in use are those from one to the size of the table, and no signature has
two; the next registration, whatever it is, gives the number of its signature if there is one,
otherwise adds an action that is accepted under the next number, and otherwise fails; if it fails it
leaves the whole table as it was; and a number that it gives means one action with the signature
that was asked for, through all registrations that follow. -/
theorem registrations_number (hash : TextHash) (past : List (Option Node)) :
    (∀ id : Nat, (∃ action, (registerAll hash {} past).action? id = some action) ↔
      1 ≤ id ∧ id ≤ (registerAll hash {} past).size) ∧
    (∀ (id id' : Nat) (signature : Text), (registerAll hash {} past).Holds id signature →
      (registerAll hash {} past).Holds id' signature → id = id') ∧
    ∀ request : Option Node,
      Registers (registerAll hash {} past) request
        ((registerAll hash {} past).registerWith hash request).1
        ((registerAll hash {} past).registerWith hash request).2.1 ∧
      (∀ failure, ((registerAll hash {} past).registerWith hash request).1 = .error failure →
        ((registerAll hash {} past).registerWith hash request).2.1 = registerAll hash {} past) ∧
      (∀ id, ((registerAll hash {} past).registerWith hash request).1 = .ok id →
        ∃ asked action, request = some asked ∧ action.signature = asked.signature ∧
          ∀ future, (registerAll hash {} (past ++ request :: future)).action? id =
            some action) := by
  have hindexed := (indexed_empty.registerAll past : Indexed hash _ ∧ _).1
  refine ⟨exists_action?_iff _, fun id id' signature => hindexed.distinct, fun request => ?_⟩
  obtain ⟨hregisters, hnext⟩ := hindexed.registerWith request
  refine ⟨hregisters, fun failure hfailure => ?_, fun id hid => ?_⟩
  · rw [hfailure] at hregisters
    exact hregisters.eq_of_error
  · rw [hid] at hregisters
    obtain ⟨asked, rfl, action, haction, hsame⟩ := hregisters.holds
    refine ⟨asked, action, rfl, hsame, fun future => ?_⟩
    rw [registerAll_append]
    exact (hnext.registerAll future).2 haction

end ExprBackend.ActionTable
