import ExprBackend.Proofs.Emission

/-! # What a cache does with an expression

A cache that is alone in a buffer sees every expression before it is emitted. An
assignment makes its name volatile; then the cache takes the expression over or
leaves it alone. Until the first instruction is emitted nothing changes but what the
cache keeps.
-/

namespace ExprBackend

open List

variable {c c1 : Code} {id : Nat} {marks : Marks} {n : Node} {r : Region} {x : Emit Unit}

namespace Region

theorem readsVolatile_next (r : Region) (n : Node) : (r.readsVolatile n).2.next = r.next := by
  unfold readsVolatile
  dsimp only
  split <;> rfl

theorem assign_next (r : Region) (name : Text) : (r.assign name).next = r.next := by
  unfold assign
  split <;> rfl

/-- What is known after an expression was seen. -/
def sees (r : Region) : Node → Region
  | .store name _ => r.assign name
  | _ => r

theorem sees_next (r : Region) (n : Node) : (r.sees n).next = r.next := by
  cases n with
  | store name value => exact r.assign_next name
  | _ => rfl

/-- Whether an expression is taken over, and what is known afterwards. -/
def offered (r : Region) (n : Node) (marked : Bool) : Bool × Region :=
  if marked then (!((r.sees n).readsVolatile n).1, ((r.sees n).readsVolatile n).2)
  else (false, r.sees n)

theorem offered_next (r : Region) (n : Node) (marked : Bool) :
    (r.offered n marked).2.next = r.next := by
  cases marked with
  | false => exact r.sees_next n
  | true => exact ((r.sees n).readsVolatile_next n).trans (r.sees_next n)

theorem offered_taken {marked : Bool} (r : Region) (h : (r.offered n marked).1 = true) :
    marked = true := by
  cases marked with
  | false => cases h
  | true => rfl

end Region

/-- The buffer with something else kept for caches. -/
@[simps] def Code.regarded (c : Code) (scratch : List (Text × Scratch))
    (regions : List (Nat × Region)) : Code :=
  { c with scratch, regions }

/-- The buffer after a cache has seen an expression. -/
def Code.seeing (c : Code) (id : Nat) (r : Region) : Node → Code
  | .store name _ => c.setRegion id (r.assign name)
  | _ => c

namespace Emit

theorem lookup_setRegion (c : Code) (id id' : Nat) (r : Region) :
    (c.setRegion id r).regions.lookup id' = if id' = id then some r else c.regions.lookup id' := by
  have hfilter : ∀ regions : List (Nat × Region), id' ≠ id →
      (regions.filter (·.1 != id)).lookup id' = regions.lookup id' := by
    intro regions hne
    induction regions with
    | nil => rfl
    | cons first rest ih =>
      obtain ⟨key, found⟩ := first
      by_cases hkey : key = id
      · subst hkey
        have hother : (id' == key) = false := by simpa using hne
        simp [lookup_cons, hother, ih]
      · simp [lookup_cons, hkey, ih]
  rw [Code.setRegion]
  by_cases hid : id' = id
  · subst hid
    simp
  · have hother : (id' == id) = false := by simpa using hid
    simp [lookup_cons, hother, hid, hfilter _ hid]

/-- What is kept for caches, with the region of one of them. -/
def Opens (c : Code) (id : Nat) (r : Region) (regions : List (Nat × Region)) : Prop :=
  regions.lookup id = some r ∧ ∀ id', id' ≠ id → regions.lookup id' = c.regions.lookup id'

theorem Opens.setRegion {scratch : List (Text × Scratch)} {regions : List (Nat × Region)}
    (h : Opens c id r regions) (r' : Region) :
    Opens c id r' ((c.regarded scratch regions).setRegion id r').regions := by
  refine ⟨?_, fun id' hne => ?_⟩
  · rw [lookup_setRegion, if_pos rfl]
  · rw [lookup_setRegion, if_neg hne]
    exact h.2 id' hne

/-- The region of a cache is there, or is opened, unless something foreign stands in its way. -/
theorem run_region (marks : Marks) (id : Nat) (c : Code) :
    (c.regions.lookup id = none ∧ (∃ v, c.scratch.lookup regionCountKey = some (.value v)) ∧
      ∃ failure, (region id marks c : Except Failure Region × Code) = (.error failure, c)) ∨
    ∃ r scratch regions, (c.regions.lookup id = some r ∨ ∃ ordinal, r = { ordinal }) ∧
      Opens c id r regions ∧
      (region id marks c : Except Failure Region × Code) = (.ok r, c.regarded scratch regions) := by
  rw [region, run_get_bind]
  cases hlookup : c.regions.lookup id with
  | some r => exact .inr ⟨r, c.scratch, c.regions, .inl rfl, ⟨hlookup, fun _ _ => rfl⟩, rfl⟩
  | none =>
    have hopens : ∀ ordinal : Int, Opens c id { ordinal }
        ((c.setScratch regionCountKey (.count (ordinal + 1))).setRegion id { ordinal }).regions :=
      fun ordinal => ⟨by rw [lookup_setRegion, if_pos rfl], fun id' hne => by
        rw [lookup_setRegion, if_neg hne]
        rfl⟩
    dsimp only
    rw [run_get_bind]
    cases hcount : c.scratch.lookup regionCountKey with
    | none => exact .inr ⟨_, _, _, .inr ⟨0, rfl⟩, hopens 0, rfl⟩
    | some kept =>
      cases kept with
      | count ordinal => exact .inr ⟨_, _, _, .inr ⟨ordinal, rfl⟩, hopens ordinal, rfl⟩
      | value v => exact .inl ⟨rfl, ⟨v, rfl⟩, _, rfl⟩

theorem run_takesOver (hlookup : c.regions.lookup id = some r) :
    (takesOver id n marks c : Except Failure Bool × Code) =
      if (marks id n.signature && c.reachable) = true then
        (.ok !(r.readsVolatile n).1, c.setRegion id (r.readsVolatile n).2)
      else (.ok false, c) := by
  change (if marks id n.signature && c.reachable then _ else _ : Emit Bool) marks _ = _
  split
  · rw [region, bind_assoc, run_get_bind, hlookup]
    rfl
  · rfl

/-- What a cache does with an expression when no other is behind it. -/
def offer (id : Nat) (ordinal : Int) (n : Node) (x : Emit Unit) : Emit Bool := do
  if ← takesOver id n then
    cached ordinal n x
    return true
  else
    return false

theorem run_intercept (hregion : (region id marks c : Except Failure Region × Code) = (.ok r, c1))
    (hnext : r.next = none) (x : Emit Unit) (length : Nat) :
    (intercept n x (length + 1) (.cache id) marks c : Except Failure Bool × Code) =
      offer id r.ordinal n x marks (c1.seeing id r n) := by
  rw [intercept, run_bind, hregion]
  dsimp only
  rw [hnext]
  cases n <;> rfl

theorem run_offer {taken : Bool}
    (htakes : (takesOver id n marks c : Except Failure Bool × Code) = (.ok taken, c1))
    (ordinal : Int) (x : Emit Unit) :
    ((do if ← offer id ordinal n x then pure () else x : Emit Unit) marks c :
        Except Failure Unit × Code) = (if taken then cached ordinal n x else x) marks c1 := by
  rw [run_bind, offer, run_bind, htakes]
  cases taken with
  | false => rfl
  | true =>
    dsimp only
    rw [if_pos rfl, if_pos rfl, run_bind]
    rcases (cached ordinal n x marks c1 : Except Failure Unit × Code) with ⟨_ | _, _⟩ <;> rfl

/-- A single cache takes over the emission of an expression, or leaves it alone. -/
theorem run_interceptable (marks : Marks) (n : Node) (x : Emit Unit)
    (hcache : c.interceptor = some (.cache id))
    (hnext : ∀ r, c.regions.lookup id = some r → r.next = none) :
    (c.regions.lookup id = none ∧ (∃ v, c.scratch.lookup regionCountKey = some (.value v)) ∧
      ∃ failure, (interceptable n x marks c : Except Failure Unit × Code) = (.error failure, c)) ∨
    ∃ r scratch regions, (c.regions.lookup id = some r ∨ ∃ ordinal, r = { ordinal }) ∧
      Opens c id (r.offered n (marks id n.signature && c.reachable)).2 regions ∧
      (interceptable n x marks c : Except Failure Unit × Code) =
        (if (r.offered n (marks id n.signature && c.reachable)).1 then cached r.ordinal n x
          else x) marks (c.regarded scratch regions) := by
  rw [interceptable_of_interceptor hcache, run_bind]
  rcases run_region marks id c with ⟨hnone, hforeign, failure, hregion⟩ |
    ⟨r, scratch, regions, hr, hopens, hregion⟩
  · refine .inl ⟨hnone, hforeign, failure, ?_⟩
    rw [intercept, run_bind, hregion]
  · have hlast : r.next = none := by
      rcases hr with hr | ⟨ordinal, rfl⟩
      · exact hnext r hr
      · rfl
    rw [run_intercept hregion hlast, ← run_bind]
    -- An assignment makes its name volatile before the cache is asked.
    obtain ⟨regions1, hopens1, hseen⟩ : ∃ regions1, Opens c id (r.sees n) regions1 ∧
        (c.regarded scratch regions).seeing id r n = c.regarded scratch regions1 := by
      cases n with
      | store name value => exact ⟨_, hopens.setRegion _, rfl⟩
      | _ => exact ⟨regions, hopens, rfl⟩
    obtain ⟨regions2, hopens2, htakes⟩ : ∃ regions2,
        Opens c id (r.offered n (marks id n.signature && c.reachable)).2 regions2 ∧
        (takesOver id n marks (c.regarded scratch regions1) : Except Failure Bool × Code) =
          (.ok (r.offered n (marks id n.signature && c.reachable)).1,
            c.regarded scratch regions2) := by
      rw [run_takesOver (c := c.regarded scratch regions1) hopens1.1, Code.regarded_reachable]
      cases marks id n.signature && c.reachable with
      | false => exact ⟨regions1, hopens1, rfl⟩
      | true => exact ⟨_, hopens1.setRegion _, rfl⟩
    refine .inr ⟨r, scratch, regions2, hr, hopens2, ?_⟩
    rw [hseen]
    exact run_offer htakes r.ordinal x

end Emit

end ExprBackend
