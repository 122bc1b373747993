import Mathlib.Data.List.Perm.Basic
import ExprBackend.Scope.Stack
import ExprBackend.Proofs.Computation

/-! # Nested scopes

A stack of scopes, whatever is asked of it, behaves like nested logs of bindings as
they were written: a name means what was bound last, in the innermost scope that is
left, under any spelling with the same normal form. The entries of a scope come in no
particular order, and the order in which they are visited decides nothing but which
fault of a refused scope is reported.
-/

namespace ExprBackend

open List

variable {e : Error} {n : Node} {name other : Text} {naming : Naming} {s : Scope}

/-- Bindings as they are written, with nothing for a name that is bound to nothing. -/
abbrev Entries := List (Text × Option Node)

variable {entries entries' : Entries}

namespace Scope

open Bindings (setEntry)

/-! ## Lookups -/

theorem get?_set (s : Scope) (name other : Text) (n : Node) :
    (s.set name n).get? other = if other = name then some n else s.get? other :=
  Bindings.lookup_setEntry name other n s.entries

/-- No name is bound twice. -/
def Tidy (s : Scope) : Prop := (s.entries.map Prod.fst).Nodup

theorem mem_keys_setEntry {bindings : List (Text × Node)} :
    other ∈ (setEntry name n bindings).map Prod.fst ↔
      other = name ∨ other ∈ bindings.map Prod.fst := by
  induction bindings with
  | nil => simp [setEntry]
  | cons binding rest ih =>
    obtain ⟨first, m⟩ := binding
    unfold setEntry
    by_cases hfirst : first = name
    · subst hfirst
      simp
    · rw [if_neg (by simpa using hfirst), map_cons, mem_cons, ih, map_cons, mem_cons]
      exact or_left_comm

theorem Tidy.set (hs : s.Tidy) (name : Text) (n : Node) : (s.set name n).Tidy := by
  obtain ⟨bindings⟩ := s
  change ((setEntry name n bindings).map Prod.fst).Nodup
  replace hs : (bindings.map Prod.fst).Nodup := hs
  induction bindings with
  | nil => simp [setEntry]
  | cons binding rest ih =>
    obtain ⟨first, m⟩ := binding
    obtain ⟨hnew, hrest⟩ := nodup_cons.mp hs
    unfold setEntry
    by_cases hfirst : first = name
    · rw [if_pos (by simpa using hfirst)]
      exact hs
    · rw [if_neg (by simpa using hfirst)]
      refine nodup_cons.mpr ⟨fun hmem => ?_, ih hrest⟩
      rcases mem_keys_setEntry.mp hmem with heq | hmem
      · exact hfirst heq
      · exact hnew hmem

/-- Bindings that are added come before those that were there. -/
theorem get?_merge {other : Scope} (hother : other.Tidy) (name : Text) :
    (s.merge other).get? name = (other.get? name).or (s.get? name) := by
  obtain ⟨bindings⟩ := other
  replace hother : (bindings.map Prod.fst).Nodup := hother
  change (bindings.foldl (fun s binding => s.set binding.1 binding.2) s).get? name =
    (bindings.lookup name).or (s.get? name)
  induction bindings generalizing s with
  | nil => rfl
  | cons binding rest ih =>
    obtain ⟨first, m⟩ := binding
    obtain ⟨hnew, hrest⟩ := nodup_cons.mp hother
    rw [foldl_cons, ih hrest, get?_set]
    by_cases hname : name = first
    · subst hname
      have hnone : rest.lookup name = none := by
        rw [lookup_eq_none_iff]
        intro binding hmem
        refine bne_iff_ne.mpr fun heq => hnew ?_
        exact mem_map.mpr ⟨binding, hmem, heq.symm⟩
      simp [hnone]
    · simp [lookup_cons, beq_eq_false_iff_ne.mpr hname, hname]

/-! ## Scopes as they are written -/

/-- Every name is valid and bound to something, and no two have the same normal form. -/
structure Acceptable (naming : Naming) (entries : Entries) : Prop where
  valid : ∀ entry ∈ entries, naming.valid (naming.normalForm entry.1)
  bound : ∀ entry ∈ entries, entry.2.isSome
  distinct : (entries.map fun entry => naming.normalForm entry.1).Nodup

theorem acceptable_iff : Acceptable naming entries ↔
    (∀ entry ∈ entries, naming.valid (naming.normalForm entry.1)) ∧
      (∀ entry ∈ entries, entry.2.isSome) ∧
        (entries.map fun entry => naming.normalForm entry.1).Nodup :=
  ⟨fun ⟨hvalid, hbound, hdistinct⟩ => ⟨hvalid, hbound, hdistinct⟩,
    fun ⟨hvalid, hbound, hdistinct⟩ => ⟨hvalid, hbound, hdistinct⟩⟩

instance : Decidable (Acceptable naming entries) := decidable_of_iff' _ acceptable_iff

theorem Acceptable.perm (h : Acceptable naming entries) (hperm : entries.Perm entries') :
    Acceptable naming entries' where
  valid entry hmem := h.valid entry (hperm.mem_iff.mpr hmem)
  bound entry hmem := h.bound entry (hperm.mem_iff.mpr hmem)
  distinct := (hperm.map _).nodup_iff.mp h.distinct

/-- What may be reported about entries that are refused. -/
inductive Fault (naming : Naming) (entries : Entries) : Error → Prop
  | invalid {name : Text} {n : Option Node} : (name, n) ∈ entries →
      naming.valid (naming.normalForm name) = false →
      Fault naming entries (.bind name .notIdentifier)
  | unbound {name : Text} : (name, none) ∈ entries →
      Fault naming entries (.bind name .boundToNothing)
  | twins {name other : Text} {n m : Option Node} {rest : Entries} :
      entries.Perm ((name, n) :: (other, m) :: rest) →
      naming.normalForm name = naming.normalForm other →
      Fault naming entries (.bind name (.sameIdentifier other))

theorem Fault.perm (h : Fault naming entries e) (hperm : entries.Perm entries') :
    Fault naming entries' e := by
  cases h with
  | invalid hmem hvalid => exact .invalid (hperm.mem_iff.mp hmem) hvalid
  | unbound hmem => exact .unbound (hperm.mem_iff.mp hmem)
  | twins htwins hsame => exact .twins (hperm.symm.trans htwins) hsame

theorem Fault.not_acceptable (h : Fault naming entries e) : ¬Acceptable naming entries := by
  intro haccept
  cases h with
  | invalid hmem hvalid => simpa [hvalid] using haccept.valid _ hmem
  | unbound hmem => simpa using haccept.bound _ hmem
  | twins htwins hsame =>
    have hdistinct := (haccept.perm htwins).distinct
    simp [hsame] at hdistinct

end Scope

/-- What a log of bindings, the newest first, says about a normal form: the newest binding of a name
that has it. -/
def Naming.latest (naming : Naming) (log : Entries) (normal : Text) : Option Node :=
  log.findSome? fun (name, n) => if naming.normalForm name = normal then n else none

namespace Scope

variable {normal : Text} {past : Entries}

theorem Acceptable.latest_eq_some (h : Acceptable naming entries) :
    naming.latest entries normal = some n ↔
      ∃ name, (name, some n) ∈ entries ∧ naming.normalForm name = normal := by
  induction entries with
  | nil => simp [Naming.latest]
  | cons entry rest ih =>
    obtain ⟨name, bound⟩ := entry
    obtain ⟨hnew, hdistinct⟩ := nodup_cons.mp h.distinct
    have hrest : Acceptable naming rest :=
      ⟨fun entry hmem => h.valid entry (.tail _ hmem), fun entry hmem =>
        h.bound entry (.tail _ hmem), hdistinct⟩
    obtain ⟨m, rfl⟩ := Option.isSome_iff_exists.mp (h.bound _ mem_cons_self)
    by_cases hname : naming.normalForm name = normal
    · -- No other entry has this normal form.
      have hothers : ∀ other, (other, some n) ∈ rest → naming.normalForm other ≠ normal := by
        intro other hmem heq
        exact hnew (mem_map.mpr ⟨_, hmem, heq.trans hname.symm⟩)
      have hlatest : naming.latest ((name, some m) :: rest) normal = some m := by
        simp [Naming.latest, hname]
      rw [hlatest]
      constructor
      · intro heq
        exact ⟨name, by rw [Option.some.inj heq]; exact mem_cons_self, hname⟩
      · rintro ⟨other, hmem, heq⟩
        rcases mem_cons.mp hmem with hfirst | hmem
        · exact (Prod.mk.inj hfirst).2.symm
        · exact absurd heq (hothers other hmem)
    · have hlatest : naming.latest ((name, some m) :: rest) normal = naming.latest rest normal := by
        simp [Naming.latest, hname]
      rw [hlatest, ih hrest]
      constructor
      · rintro ⟨other, hmem, heq⟩
        exact ⟨other, .tail _ hmem, heq⟩
      · rintro ⟨other, hmem, heq⟩
        rcases mem_cons.mp hmem with hfirst | hmem
        · exact absurd ((Prod.mk.inj hfirst).1 ▸ heq) hname
        · exact ⟨other, hmem, heq⟩

theorem Acceptable.latest_perm (h : Acceptable naming entries) (hperm : entries.Perm entries')
    (normal : Text) : naming.latest entries normal = naming.latest entries' normal := by
  apply Option.ext
  intro n
  rw [h.latest_eq_some, (h.perm hperm).latest_eq_some]
  simp only [hperm.mem_iff]

/-- The scope is what has been written. -/
structure Renders (naming : Naming) (entries : Entries) (s : Scope) : Prop where
  acceptable : Acceptable naming entries
  get? : ∀ normal, s.get? normal = naming.latest entries normal
  tidy : s.Tidy

theorem Renders.perm (h : Renders naming entries s) (hperm : entries.Perm entries') :
    Renders naming entries' s where
  acceptable := h.acceptable.perm hperm
  get? normal := (h.get? normal).trans (h.acceptable.latest_perm hperm normal)
  tidy := h.tidy

theorem renders_nil (naming : Naming) : Renders naming [] {} where
  acceptable := ⟨by simp, by simp, by simp⟩
  get? _ := rfl
  tidy := nodup_nil

/-- One more name, whose normal form is new. -/
theorem Renders.set (h : Renders naming entries s) (hvalid : naming.valid (naming.normalForm name))
    (hnew : naming.normalForm name ∉ entries.map fun entry => naming.normalForm entry.1) :
    Renders naming ((name, some n) :: entries) (s.set (naming.normalForm name) n) where
  acceptable := by
    refine ⟨forall_mem_cons.mpr ⟨hvalid, h.acceptable.valid⟩,
      forall_mem_cons.mpr ⟨rfl, h.acceptable.bound⟩, ?_⟩
    exact nodup_cons.mpr ⟨hnew, h.acceptable.distinct⟩
  get? normal := by
    rw [get?_set, h.get?]
    by_cases hname : naming.normalForm name = normal
    · simp [Naming.latest, hname]
    · simp [Naming.latest, hname, Ne.symm hname]
  tidy := h.tidy.set _ _

/-- The names that were seen, each with its normal form. -/
def seenIn (naming : Naming) (past : Entries) : List (Text × Text) :=
  past.map fun entry => (naming.normalForm entry.1, entry.1)

theorem lookup_seenIn_eq_none : (seenIn naming past).lookup normal = none ↔
      normal ∉ past.map fun entry => naming.normalForm entry.1 := by
  rw [lookup_eq_none_iff, seenIn]
  simp only [mem_map, forall_exists_index, and_imp, forall_apply_eq_imp_iff₂, not_exists, not_and,
    bne_iff_ne]
  exact forall₂_congr fun entry _ => not_congr eq_comm

theorem exists_of_lookup_seenIn (h : (seenIn naming past).lookup normal = some other) :
    ∃ n, (other, n) ∈ past ∧ naming.normalForm other = normal := by
  induction past with
  | nil => cases h
  | cons entry rest ih =>
    obtain ⟨name, n⟩ := entry
    by_cases hname : normal = naming.normalForm name
    · have : name = other := by simpa [seenIn, hname] using h
      exact ⟨n, this ▸ mem_cons_self, this ▸ hname.symm⟩
    · simp only [seenIn, map_cons, lookup_cons, beq_eq_false_iff_ne.mpr hname] at h
      obtain ⟨m, hmem, hnormal⟩ := ih h
      exact ⟨m, .tail _ hmem, hnormal⟩

/-- Visits keep to what has been seen so far: they end with the scope of all entries, or report a
fault of them. -/
theorem normalizeInto_outcome (rest : Entries) (hs : Renders naming past s) :
    (∀ s', normalizeInto naming s (seenIn naming past) rest = .ok s' →
      Renders naming (past ++ rest) s') ∧
    ∀ e, normalizeInto naming s (seenIn naming past) rest = .error e →
      Fault naming (past ++ rest) e := by
  induction rest generalizing s past with
  | nil =>
    rw [append_nil]
    refine ⟨fun s' h => ?_, fun e h => nomatch h⟩
    exact Except.ok.inj h ▸ hs
  | cons entry rest ih =>
    obtain ⟨name, n⟩ := entry
    have hmem : (name, n) ∈ past ++ (name, n) :: rest := by simp
    unfold normalizeInto Naming.normalize
    by_cases hvalid : naming.valid (naming.normalForm name)
    swap
    · refine ⟨fun s' h => ?_, fun e h => ?_⟩
      · simp [hvalid, bind, Except.bind] at h
      · simp only [hvalid, bind, Except.bind] at h
        obtain rfl := Except.error.inj h
        exact .invalid hmem (by simpa using hvalid)
    simp only [hvalid, if_true, bind, Except.bind]
    cases n with
    | none =>
      refine ⟨fun s' h => (nomatch h), fun e h => ?_⟩
      obtain rfl := Except.error.inj h
      exact .unbound hmem
    | some n =>
      cases hseen : (seenIn naming past).lookup (naming.normalForm name) with
      | some other =>
        refine ⟨fun s' h => (nomatch h), fun e h => ?_⟩
        obtain rfl := Except.error.inj h
        -- The other name is among the entries before; both are brought to the front.
        obtain ⟨m, hother, hsame⟩ := exists_of_lookup_seenIn hseen
        obtain ⟨before, after, rfl⟩ := append_of_mem hother
        have hfront : (before ++ (other, m) :: after ++ (name, some n) :: rest).Perm
            ((name, some n) :: (other, m) :: (before ++ (after ++ rest))) := by
          refine perm_middle.trans (.cons _ ?_)
          rw [append_assoc, cons_append]
          exact perm_middle
        exact .twins hfront hsame.symm
      | none =>
        have hnew := lookup_seenIn_eq_none.mp hseen
        obtain ⟨hok, herror⟩ := ih (hs.set (n := n) hvalid hnew)
        have hperm : ((name, some n) :: past ++ rest).Perm (past ++ (name, some n) :: rest) :=
          perm_middle.symm
        exact ⟨fun s' h => (hok s' h).perm hperm, fun e h => (herror e h).perm hperm⟩

/-- A scope is accepted just if its entries are, in whatever order they are visited. -/
theorem normalize_outcome (naming : Naming) {visited : Entries} (hvisited : visited.Perm entries) :
    (∃ s, normalize naming visited = .ok s ∧ Renders naming entries s) ∨
      ∃ e, normalize naming visited = .error e ∧ Fault naming entries e := by
  obtain ⟨hok, herror⟩ := normalizeInto_outcome visited (renders_nil naming)
  cases h : normalize naming visited with
  | ok s => exact .inl ⟨s, rfl, (hok s h).perm hvisited⟩
  | error e => exact .inr ⟨e, rfl, (herror e h).perm hvisited⟩

end Scope

/-! ## Requests -/

/-- A request to a stack of scopes. -/
inductive ScopeCall
  | push (entries : Entries)
  | pop
  | bind (entries : Entries)
  | resolve (name : Text)

/-- A request whose entries are visited in some order. -/
inductive ScopeCall.Visits : ScopeCall → ScopeCall → Prop
  | push {visited entries : Entries} : visited.Perm entries → Visits (.push visited) (.push entries)
  | pop : Visits .pop .pop
  | bind {visited entries : Entries} : visited.Perm entries → Visits (.bind visited) (.bind entries)
  | resolve {name : Text} : Visits (.resolve name) (.resolve name)

inductive ScopeAnswer
  | done
  | popped (top : Scope)
  | resolved (n : Node)

/-- What a request asks of the stack, and the answer. -/
def ScopeStack.perform (naming : Naming) : ScopeCall → ScopeRequest ScopeAnswer
  | .push entries => (fun _ => .done) <$> push naming entries
  | .pop => .popped <$> pop
  | .bind entries => (fun _ => .done) <$> bind naming entries
  | .resolve name => .resolved <$> (do (← get).resolve naming name)

def ScopeStack.run (naming : Naming) (st : ScopeStack) (calls : List ScopeCall) : ScopeStack :=
  calls.foldl (fun st call => (perform naming call st).2) st

/-! ## Nested logs -/

/-- Logs of bindings as they were written, the newest first in each, the innermost log first. -/
structure Nest where
  logs : List Entries
  base : Nat

namespace Nest

/-- The logs of the scopes that stay, of which there is at least one. -/
def create : List Entries → Nest
  | [] => { logs := [[]], base := 1 }
  | scopes => { logs := scopes.reverse, base := scopes.length }

/-- The newest binding in the innermost log that has one for the normal form. -/
def find? (naming : Naming) (nest : Nest) (normal : Text) : Option Node :=
  nest.logs.findSome? (naming.latest · normal)

def perform (naming : Naming) (nest : Nest) : ScopeCall → Nest
  | .push entries =>
    if Scope.Acceptable naming entries then { nest with logs := entries :: nest.logs } else nest
  | .pop => if nest.base < nest.logs.length then { nest with logs := nest.logs.tail } else nest
  | .bind entries =>
    if Scope.Acceptable naming entries then
      { nest with logs := nest.logs.modifyHead (entries ++ ·) }
    else nest
  | .resolve _ => nest

def run (naming : Naming) (nest : Nest) (calls : List ScopeCall) : Nest :=
  calls.foldl (perform naming) nest

@[simp] theorem base_create (scopes : List Entries) :
    (create scopes).base = max 1 scopes.length := by
  cases scopes with
  | nil => rfl
  | cons _ rest => simp [create]

@[simp] theorem base_perform (naming : Naming) (nest : Nest) (call : ScopeCall) :
    (nest.perform naming call).base = nest.base := by
  cases call with
  | resolve _ => rfl
  | push _ => simp only [perform]; split <;> rfl
  | pop => simp only [perform]; split <;> rfl
  | bind _ => simp only [perform]; split <;> rfl

@[simp] theorem base_run (naming : Naming) (nest : Nest) (calls : List ScopeCall) :
    (nest.run naming calls).base = nest.base := by
  induction calls generalizing nest with
  | nil => rfl
  | cons call rest ih => exact (ih _).trans (base_perform naming nest call)

end Nest

/-! ## The stack follows the logs -/

namespace ScopeStack

variable {st : ScopeStack} {nest : Nest} {visited scopes : List Entries} {call : ScopeCall}
  {calls : List ScopeCall} {upper lower : List Scope}

/-- Each scope says what its log says, and the base is there. -/
structure Follows (naming : Naming) (st : ScopeStack) (nest : Nest) : Prop where
  base : st.base = nest.base
  scopes : Forall₂ (fun s log => ∀ normal, s.get? normal = naming.latest log normal)
    st.scopes nest.logs
  positive : 1 ≤ nest.base
  grounded : nest.base ≤ nest.logs.length

theorem Follows.depth (h : Follows naming st nest) : st.depth = nest.logs.length :=
  h.scopes.length_eq

theorem findSome?_get? {scopes : List Scope} {logs : List Entries}
    (h : Forall₂ (fun s log => ∀ normal, s.get? normal = naming.latest log normal) scopes logs)
    (normal : Text) : scopes.findSome? (·.get? normal) =
    logs.findSome? (naming.latest · normal) := by
  induction h with
  | nil => rfl
  | cons hfirst _ ih => rw [findSome?_cons, findSome?_cons, hfirst normal, ih]

theorem normalizeAll_outcome (naming : Naming) (hvisited : Forall₂ List.Perm visited scopes) :
    (∃ made, normalizeAll naming visited = .ok made ∧
      Forall₂ (fun s entries => ∀ normal, s.get? normal = naming.latest entries normal)
        made scopes ∧
      ∀ entries ∈ scopes, Scope.Acceptable naming entries) ∨
    ∃ e entries, normalizeAll naming visited = .error e ∧ entries ∈ scopes ∧
      Scope.Fault naming entries e := by
  induction hvisited with
  | nil => exact .inl ⟨[], rfl, .nil, by simp⟩
  | @cons first entries rest scopes hfirst _ ih =>
    unfold normalizeAll
    rcases Scope.normalize_outcome naming hfirst with ⟨s, hs, hrenders⟩ | ⟨e, he, hfault⟩
    · rcases ih with ⟨made, hmade, hall, haccept⟩ | ⟨e, entries, he, hmem, hfault⟩
      · refine .inl ⟨s :: made, by rw [hs, hmade]; rfl, .cons hrenders.get? hall, ?_⟩
        exact forall_mem_cons.mpr ⟨hrenders.acceptable, haccept⟩
      · exact .inr ⟨e, entries, by rw [hs, he]; rfl, .tail _ hmem, hfault⟩
    · exact .inr ⟨e, entries, by rw [he]; rfl, mem_cons_self, hfault⟩

/-- A stack is made just if all its scopes are accepted, and then starts from their logs. -/
theorem create_outcome (naming : Naming) (hvisited : Forall₂ List.Perm visited scopes) :
    (∃ st, create naming visited = .ok st ∧ Follows naming st (Nest.create scopes) ∧
      ∀ entries ∈ scopes, Scope.Acceptable naming entries) ∨
    ∃ e entries, create naming visited = .error e ∧ entries ∈ scopes ∧
      Scope.Fault naming entries e := by
  cases hvisited with
  | nil =>
    refine .inl ⟨_, rfl, ⟨rfl, .cons (fun _ => rfl) .nil, Nat.le_refl 1, Nat.le_refl 1⟩, ?_⟩
    simp
  | @cons first entries rest scopes hfirst hrest =>
    rcases normalizeAll_outcome naming (.cons hfirst hrest) with
      ⟨made, hmade, hall, haccept⟩ | ⟨e, entries, he, hmem, hfault⟩
    · have hcreate : create naming (first :: rest) = .ok ⟨made.reverse, made.length⟩ := by
        unfold create
        rw [if_neg (by simp), hmade]
        rfl
      refine .inl ⟨_, hcreate, ⟨hall.length_eq, ?_, Nat.succ_pos _, ?_⟩, haccept⟩
      · exact forall₂_reverse_iff.mpr hall
      · simp [Nest.create]
    · refine .inr ⟨e, entries, ?_, hmem, hfault⟩
      unfold create
      rw [if_neg (by simp), he]
      rfl

/-! ## One request -/

/-- What is done with a scope is done just if its entries are accepted. -/
theorem edit_outcome (naming : Naming) (st : ScopeStack) (edit : Scope → ScopeStack → ScopeStack)
    {visited : Entries} (hvisited : visited.Perm entries) :
    let request : ScopeRequest Unit := do
      let s ← Scope.normalize naming visited
      modify (edit s)
    (∃ s, request st = (.ok (), edit s st) ∧ Scope.Renders naming entries s) ∨
    ∃ e, request st = (.error e, st) ∧ Scope.Fault naming entries e := by
  dsimp only
  rcases Scope.normalize_outcome naming hvisited with ⟨s, hs, hrenders⟩ | ⟨e, he, hfault⟩
  · exact .inl ⟨s, by rw [hs]; rfl, hrenders⟩
  · exact .inr ⟨e, by rw [he]; rfl, hfault⟩

theorem push_outcome (naming : Naming) (st : ScopeStack) {visited : Entries}
    (hvisited : visited.Perm entries) :
    (∃ s, push naming visited st = (.ok (), { st with scopes := s :: st.scopes }) ∧
      Scope.Renders naming entries s) ∨
    ∃ e, push naming visited st = (.error e, st) ∧ Scope.Fault naming entries e :=
  edit_outcome naming st (fun s st => { st with scopes := s :: st.scopes }) hvisited

/-- Bindings go into the top scope, where there is one, and nowhere else. -/
theorem bind_outcome (naming : Naming) (st : ScopeStack) {visited : Entries}
    (hvisited : visited.Perm entries) :
    (∃ s, bind naming visited st =
      (.ok (), { st with scopes := st.scopes.modifyHead (·.merge s) }) ∧
      Scope.Renders naming entries s) ∨
    ∃ e, bind naming visited st = (.error e, st) ∧ Scope.Fault naming entries e :=
  edit_outcome naming st (fun s st => { st with scopes := st.scopes.modifyHead (·.merge s) })
    hvisited

theorem pop_of_le (hle : st.depth ≤ st.base) : pop st = (.error .scopeUnderflow, st) := by
  change (if st.depth ≤ st.base then throw .scopeUnderflow else _ : ScopeRequest Scope) st = _
  rw [if_pos hle]
  rfl

theorem pop_of_lt {top : Scope} (hlt : ¬st.depth ≤ st.base) (hscopes : st.scopes = top :: upper) :
    pop st = (.ok top, { st with scopes := upper }) := by
  obtain ⟨scopes, base⟩ := st
  obtain rfl := hscopes
  change (if _ then throw Error.scopeUnderflow else _ : ScopeRequest Scope) _ = _
  rw [if_neg hlt]
  rfl

theorem Follows.pop_of_lt (h : Follows naming st nest) (hlt : nest.base < nest.logs.length) :
    ∃ top rest, st.scopes = top :: rest ∧ pop st = (.ok top, { st with scopes := rest }) := by
  have hdepth : ¬st.depth ≤ st.base := by
    rw [h.depth, h.base]
    exact Nat.not_le.mpr hlt
  cases hscopes : st.scopes with
  | nil => exact absurd (by simp [ScopeStack.depth, hscopes]) hdepth
  | cons top rest => exact ⟨top, rest, rfl, ScopeStack.pop_of_lt hdepth hscopes⟩

theorem Follows.pop_of_eq (h : Follows naming st nest) (heq : nest.logs.length = nest.base) :
    pop st = (.error .scopeUnderflow, st) :=
  pop_of_le (by rw [h.depth, h.base]; exact Nat.le_of_eq heq)

@[simp] theorem map_apply {α β : Type} (f : α → β) (x : ScopeRequest α) (st : ScopeStack) :
    (f <$> x) st = ((x st).1.map f, (x st).2) := by
  rw [map_eq_pure_bind, bind_apply]
  rcases x st with ⟨_ | _, _⟩ <;> rfl

/-- What a request does to the stack, it does to the logs. -/
theorem Follows.perform (h : Follows naming st nest) {visit : ScopeCall}
    (hvisit : visit.Visits call) :
    Follows naming (perform naming visit st).2 (nest.perform naming call) := by
  cases hvisit with
  | resolve =>
    rw [ScopeStack.perform, map_apply]
    exact h
  | push hvisited =>
    rw [ScopeStack.perform, Nest.perform, map_apply]
    rcases push_outcome naming st hvisited with ⟨s, hs, hrenders⟩ | ⟨e, he, hfault⟩
    · rw [hs, if_pos hrenders.acceptable]
      exact ⟨h.base, .cons hrenders.get? h.scopes, h.positive, Nat.le_succ_of_le h.grounded⟩
    · rw [he, if_neg hfault.not_acceptable]
      exact h
  | bind hvisited =>
    rw [ScopeStack.perform, Nest.perform, map_apply]
    rcases bind_outcome naming st hvisited with ⟨s, hs, hrenders⟩ | ⟨e, he, hfault⟩
    · rw [hs, if_pos hrenders.acceptable]
      refine ⟨h.base, ?_, h.positive, by simpa using h.grounded⟩
      obtain ⟨scopes, base⟩ := st
      obtain ⟨logs, base'⟩ := nest
      cases h.scopes with
      | nil => exact .nil
      | cons hfirst hrest =>
        refine .cons (fun normal => ?_) hrest
        rw [Scope.get?_merge hrenders.tidy, hrenders.get?, hfirst, Naming.latest, Naming.latest,
          Naming.latest, findSome?_append]
    · rw [he, if_neg hfault.not_acceptable]
      exact h
  | pop =>
    rw [ScopeStack.perform, Nest.perform, map_apply]
    by_cases hlt : nest.base < nest.logs.length
    · obtain ⟨top, rest, hscopes, hpop⟩ := h.pop_of_lt hlt
      rw [hpop, if_pos hlt]
      have hall := h.scopes
      rw [hscopes] at hall
      obtain ⟨log, logs, -, hrest, hlogs⟩ := forall₂_cons_left_iff.mp hall
      refine ⟨h.base, by rw [hlogs]; exact hrest, h.positive, ?_⟩
      rw [length_tail]
      exact Nat.le_pred_of_lt hlt
    · rw [h.pop_of_eq (Nat.le_antisymm (Nat.not_lt.mp hlt) h.grounded), if_neg hlt]
      exact h

/-- What requests do to the stack, they do to the logs. -/
theorem Follows.run (h : Follows naming st nest) {past : List ScopeCall}
    (hpast : Forall₂ ScopeCall.Visits past calls) :
    Follows naming (st.run naming past) (nest.run naming calls) := by
  induction hpast generalizing st nest with
  | nil => exact h
  | cons hvisit _ ih => exact ih (h.perform hvisit)

/-! ## Scopes below -/

/-- A request leaves all scopes below the top one as they are. -/
theorem perform_below (naming : Naming) {top : Scope} (hscopes : st.scopes = top :: upper ++ lower)
    (call : ScopeCall) : ∃ upper', (perform naming call st).2 = ⟨upper' ++ lower, st.base⟩ := by
  have hsame : st = ⟨top :: upper ++ lower, st.base⟩ := by
    rw [← hscopes]
  cases call with
  | resolve name =>
    rw [ScopeStack.perform, map_apply]
    exact ⟨_, hsame⟩
  | push entries =>
    rw [ScopeStack.perform, map_apply]
    rcases push_outcome naming st (.refl entries) with ⟨s, hs, -⟩ | ⟨e, he, -⟩
    · rw [hs, hscopes]
      exact ⟨s :: top :: upper, rfl⟩
    · rw [he]
      exact ⟨_, hsame⟩
  | bind entries =>
    rw [ScopeStack.perform, map_apply]
    rcases bind_outcome naming st (.refl entries) with ⟨s, hs, -⟩ | ⟨e, he, -⟩
    · rw [hs, hscopes]
      exact ⟨top.merge s :: upper, rfl⟩
    · rw [he]
      exact ⟨_, hsame⟩
  | pop =>
    rw [ScopeStack.perform, map_apply]
    by_cases hbase : st.depth ≤ st.base
    · rw [pop_of_le hbase]
      exact ⟨_, hsame⟩
    · rw [pop_of_lt hbase hscopes]
      exact ⟨upper, rfl⟩

/-- Requests that never go below a scope leave those under it as they are. -/
theorem run_below (naming : Naming) (hscopes : st.scopes = upper ++ lower)
    (habove : ∀ k, lower.length < (st.run naming (calls.take k)).depth) :
    ∃ upper', st.run naming calls = ⟨upper' ++ lower, st.base⟩ := by
  induction calls generalizing st upper with
  | nil =>
    refine ⟨upper, ?_⟩
    rw [← hscopes]
    rfl
  | cons call rest ih =>
    cases upper with
    | nil =>
      have hnow := habove 0
      simp [run, depth, hscopes] at hnow
    | cons top upper =>
      obtain ⟨upper', hnext⟩ := perform_below naming hscopes call
      have hrun : ∀ calls, st.run naming (call :: calls) =
          ScopeStack.run naming ⟨upper' ++ lower, st.base⟩ calls := by
        intro calls
        rw [← hnext]
        rfl
      rw [hrun]
      refine ih rfl fun k => ?_
      rw [← hrun]
      exact habove (k + 1)

/-! ## All requests -/

/-- What can be seen of a stack whose bindings are those of nested logs. -/
structure Nested (naming : Naming) (st : ScopeStack) (nest : Nest) : Prop where
  /-- A valid name means what its normal form means in the logs. Otherwise it is reported as it was
  written. -/
  resolve : ∀ name, st.resolve naming name =
    if naming.valid (naming.normalForm name) then
      match nest.find? naming (naming.normalForm name) with
      | some n => .ok n
      | none => .error (.unresolved name)
    else .error (.bind name .notIdentifier)
  depth : st.depth = nest.logs.length
  positive : 1 ≤ nest.base
  grounded : nest.base ≤ st.depth
  /-- Nothing but the base keeps a scope from being taken off. -/
  pop : ∀ e, (pop st).1 = .error e ↔ st.depth = nest.base ∧ e = .scopeUnderflow
  /-- Entries are accepted by what they are, in whatever order they are visited. -/
  push_accepts : ∀ {visited entries : Entries}, visited.Perm entries →
    ((push naming visited st).1 = .ok () ↔ Scope.Acceptable naming entries)
  bind_accepts : ∀ {visited entries : Entries}, visited.Perm entries →
    ((bind naming visited st).1 = .ok () ↔ Scope.Acceptable naming entries)
  /-- Bindings change the top scope only. -/
  bind_below : ∀ {entries : Entries} {st' : ScopeStack}, (bind naming entries st).2 = st' →
    st'.depth = st.depth ∧ st'.base = st.base ∧ st'.scopes.tail = st.scopes.tail
  /-- When a scope that was put on top is taken off, all is as it was before, whatever was done in
  between with the scope and those above it. -/
  pop_restores : ∀ {entries : Entries} {opened : ScopeStack} {inner : List ScopeCall},
    push naming entries st = (.ok (), opened) →
    (∀ k, opened.depth ≤ (opened.run naming (inner.take k)).depth) →
    (opened.run naming inner).depth = opened.depth →
    ∃ top, ScopeStack.pop (opened.run naming inner) = (.ok top, st)
  /-- A failed request changes nothing. -/
  failed : ∀ {call : ScopeCall} {e : Error}, (perform naming call st).1 = .error e →
    (perform naming call st).2 = st

theorem perform_of_error (h : (perform naming call st).1 = .error e) :
    (perform naming call st).2 = st := by
  cases call with
  | resolve _ =>
    rw [perform, map_apply]
    rfl
  | push entries =>
    rw [perform, map_apply] at h ⊢
    rcases push_outcome naming st (.refl entries) with ⟨s, hs, -⟩ | ⟨e, he, -⟩
    · rw [hs] at h
      cases h
    · rw [he]
  | bind entries =>
    rw [perform, map_apply] at h ⊢
    rcases bind_outcome naming st (.refl entries) with ⟨s, hs, -⟩ | ⟨e, he, -⟩
    · rw [hs] at h
      cases h
    · rw [he]
  | pop =>
    rw [perform, map_apply] at h ⊢
    by_cases hbase : st.depth ≤ st.base
    · rw [pop_of_le hbase]
    · obtain ⟨top, rest, hscopes⟩ : ∃ top rest, st.scopes = top :: rest :=
        exists_cons_of_length_pos (by unfold depth at hbase; omega)
      rw [pop_of_lt hbase hscopes] at h
      cases h

theorem Follows.pop_restores (h : Follows naming st nest) {opened : ScopeStack}
    {inner : List ScopeCall} (hpush : push naming entries st = (.ok (), opened))
    (habove : ∀ k, opened.depth ≤ (opened.run naming (inner.take k)).depth)
    (hdepth : (opened.run naming inner).depth = opened.depth) :
    ∃ top, pop (opened.run naming inner) = (.ok top, st) := by
  rcases push_outcome naming st (.refl entries) with ⟨s, hs, -⟩ | ⟨e, he, -⟩
  · obtain rfl := (Prod.mk.inj (hs.symm.trans hpush)).2
    obtain ⟨upper, hrun⟩ := run_below naming (show _ = [s] ++ st.scopes from rfl) habove
    -- The depth is back, so just one scope is left above the old ones.
    rw [hrun] at hdepth ⊢
    obtain ⟨top, rfl⟩ : ∃ top, upper = [top] := by
      apply length_eq_one_iff.mp
      simp only [ScopeStack.depth, length_append, length_cons] at hdepth
      omega
    have hbase : ¬st.scopes.length + 1 ≤ st.base := by
      have hgrounded := h.grounded
      have hlength := h.depth
      rw [h.base]
      unfold ScopeStack.depth at hlength
      omega
    exact ⟨top, ScopeStack.pop_of_lt (by simpa [ScopeStack.depth] using hbase) rfl⟩
  · rw [he] at hpush
    cases hpush

theorem Follows.nested (h : Follows naming st nest) : Nested naming st nest where
  resolve name := by
    unfold ScopeStack.resolve Naming.normalize
    by_cases hvalid : naming.valid (naming.normalForm name)
    · simp only [hvalid, if_true, Bind.bind, Except.bind, findSome?_get? h.scopes, Nest.find?]
      cases nest.logs.findSome? (naming.latest · (naming.normalForm name)) <;> rfl
    · simp only [hvalid]
      rfl
  depth := h.depth
  positive := h.positive
  grounded := h.depth ▸ h.grounded
  pop e := by
    rw [h.depth]
    by_cases hlt : nest.base < nest.logs.length
    · obtain ⟨top, rest, -, hpop⟩ := h.pop_of_lt hlt
      rw [hpop]
      exact ⟨fun h => (by cases h), fun h => absurd h.1 (Nat.ne_of_gt hlt)⟩
    · have heq := Nat.le_antisymm (Nat.not_lt.mp hlt) h.grounded
      rw [h.pop_of_eq heq]
      exact ⟨fun h => ⟨heq, (Except.error.inj h).symm⟩, fun h => h.2 ▸ rfl⟩
  push_accepts hvisited := by
    rcases push_outcome naming st hvisited with ⟨s, hs, hrenders⟩ | ⟨e, he, hfault⟩
    · exact ⟨fun _ => hrenders.acceptable, fun _ => hs ▸ rfl⟩
    · rw [he]
      exact ⟨by rintro ⟨⟩, fun haccept => absurd haccept hfault.not_acceptable⟩
  bind_accepts hvisited := by
    rcases bind_outcome naming st hvisited with ⟨s, hs, hrenders⟩ | ⟨e, he, hfault⟩
    · exact ⟨fun _ => hrenders.acceptable, fun _ => hs ▸ rfl⟩
    · rw [he]
      exact ⟨by rintro ⟨⟩, fun haccept => absurd haccept hfault.not_acceptable⟩
  bind_below {entries st'} hbind := by
    rcases bind_outcome naming st (.refl entries) with ⟨s, hs, -⟩ | ⟨e, he, -⟩
    · rw [← hbind, hs]
      exact ⟨by simp [ScopeStack.depth], rfl, by simp⟩
    · rw [← hbind, he]
      exact ⟨rfl, rfl, rfl⟩
  pop_restores := h.pop_restores
  failed := perform_of_error

/-- **Scopes nest.** Names may have any normal form, and any normal forms may be valid. The scopes
that a stack is made with, like those that come later, may be visited in any order. The stack is
made just if all its scopes are accepted. After that, whatever has been asked of it and whether it
succeeded or not, the stack shows the nested logs of what was written: names resolve to what was
bound last in the innermost scope that is left, under any spelling; the depth does not fall below
that of the base; scopes that were put on top leave nothing behind when they are taken off; and
failed requests do nothing. -/
theorem scopes_nest (naming : Naming) {visited scopes : List Entries}
    (hvisited : Forall₂ List.Perm visited scopes) :
    ((∃ st, create naming visited = .ok st) ↔
      ∀ entries ∈ scopes, Scope.Acceptable naming entries) ∧
    (Nest.create scopes).base = max 1 scopes.length ∧
    ∀ {st : ScopeStack} {past calls : List ScopeCall}, create naming visited = .ok st →
      Forall₂ ScopeCall.Visits past calls →
      Nested naming (st.run naming past) ((Nest.create scopes).run naming calls) ∧
      ((Nest.create scopes).run naming calls).base = (Nest.create scopes).base := by
  refine ⟨?_, Nest.base_create scopes, fun hcreate hpast => ?_⟩
  · rcases create_outcome naming hvisited with
      ⟨st, hst, -, haccept⟩ | ⟨e, entries, he, hmem, hfault⟩
    · exact ⟨fun _ => haccept, fun _ => ⟨st, hst⟩⟩
    · rw [he]
      exact ⟨by rintro ⟨_, ⟨⟩⟩, fun haccept => absurd (haccept _ hmem) hfault.not_acceptable⟩
  · rcases create_outcome naming hvisited with ⟨st, hst, hfollows, -⟩ | ⟨e, entries, he, -, -⟩
    · obtain rfl := Except.ok.inj (hst.symm.trans hcreate)
      exact ⟨(hfollows.run hpast).nested, Nest.base_run naming _ _⟩
    · rw [he] at hcreate
      cases hcreate

/-- Names that are compared without their underscores. -/
def looseNaming : Naming where
  normalForm name := name.filter (· ≠ 95)
  valid normal := !normal.isEmpty

/-- `x_` and `y` in a base scope that is visited from its end, `_x` in a scope on top, then bindings
that are refused, then one for `x__`: now `x` means the last one. Taking the scope off brings back
the first. -/
theorem scopes_nest_spellings :
    ∃ st, create looseNaming [[([121], some (.var [2])), ([120, 95], some (.var [1]))]] = .ok st ∧
      (st.run looseNaming [.push [([95, 120], some (.var [3]))], .bind [([122], none)],
        .bind [([120, 95, 95], some (.var [4]))]]).resolve looseNaming [120] = .ok (.var [4]) ∧
      (st.run looseNaming [.push [([95, 120], some (.var [3]))], .pop, .pop]).resolve looseNaming
        [120] = .ok (.var [1]) := by
  have hvisited : Forall₂ List.Perm
      [[(([121] : Text), some (Node.var [2])), ([120, 95], some (.var [1]))]]
      [[([120, 95], some (.var [1])), ([121], some (.var [2]))]] := .cons (.swap _ _ _) .nil
  obtain ⟨st, hst⟩ := (scopes_nest looseNaming hvisited).1.mpr (by decide)
  refine ⟨st, hst, ?_, ?_⟩
  · rw [((scopes_nest looseNaming hvisited).2.2 hst
      (.cons (.push (.refl _)) (.cons (.bind (.refl _)) (.cons (.bind (.refl _)) .nil)))).1.resolve]
    rfl
  · rw [((scopes_nest looseNaming hvisited).2.2 hst
      (.cons (.push (.refl _)) (.cons .pop (.cons .pop .nil)))).1.resolve]
    rfl

end ScopeStack

end ExprBackend
