import ExprBackend.Operator.Subscript
import ExprBackend.Proofs.Computation
import Mathlib.Algebra.Order.Ring.Int
import Mathlib.Data.List.Forall2

/-! # Resolving slices exactly

The positions that a slice selects are the terms of an arithmetic progression: it
starts at the resolved start and goes on as long as the resolved stop is not
reached. The walk is carried out on words. A copy of it that gives up at the first
sum or difference that does not fit, and where its tries run out, always comes to
the same positions, so that nothing overflows and the walk comes to its end.
-/

namespace ExprBackend.Slicing

open List

/-! ## Sums and differences that fit -/

def add? (a b : Int64) : Option Int64 :=
  if (a + b).toInt = a.toInt + b.toInt then some (a + b) else none

def sub? (a b : Int64) : Option Int64 :=
  if (a - b).toInt = a.toInt - b.toInt then some (a - b) else none

def length? (count : Nat) : Option Int64 :=
  if (Int64.ofNat count).toInt = count then some (.ofNat count) else none

variable {a b : Int64} {length i : Int} {α : Type} {items : List α} {places : List Int64} {h : Heap}
  {r : Ref}

theorem add?_of_fits (hlow : -2 ^ 63 ≤ a.toInt + b.toInt) (hhigh : a.toInt + b.toInt < 2 ^ 63) :
    add? a b = some (a + b) ∧ (a + b).toInt = a.toInt + b.toInt := by
  have hexact : (a + b).toInt = a.toInt + b.toInt := by
    rw [Int64.toInt_add]
    apply Int.bmod_eq_of_le <;> omega
  exact ⟨if_pos hexact, hexact⟩

theorem sub?_of_fits (hlow : -2 ^ 63 ≤ a.toInt - b.toInt) (hhigh : a.toInt - b.toInt < 2 ^ 63) :
    sub? a b = some (a - b) ∧ (a - b).toInt = a.toInt - b.toInt := by
  have hexact : (a - b).toInt = a.toInt - b.toInt := by
    rw [Int64.toInt_sub]
    apply Int.bmod_eq_of_le <;> omega
  exact ⟨if_pos hexact, hexact⟩

theorem length?_of_fits {count : Nat} (hcount : count < 2 ^ 63) :
    length? count = some (.ofNat count) ∧ (Int64.ofNat count).toInt = count := by
  have hexact : (Int64.ofNat count).toInt = count := Int64.toInt_ofNat_of_lt hcount
  exact ⟨if_pos hexact, hexact⟩

/-! ## Bounds -/

/-- The bound that a value stands for. -/
inductive Means : Value → Option Int64 → Prop
  | absent {v : Value} (hv : v.kind = .none) : Means v none
  | int (i : Int64) : Means (.int i) (some i)

theorem Means.bound {v : Value} {i : Option Int64} (h : Means v i) (what : Text) :
    bound what v = .ok i := by
  cases h with
  | absent hv =>
    cases v with
    | none | noReceiver => rfl
    | _ => cases hv
  | int i => rfl

/-- The place that an index means: a negative one counts from the end. -/
def fromEnd (length i : Int) : Int := if i < 0 then i + length else i

/-- A bound in a sequence of the given length, clamped to the places that a walk by the step can
start from or end at. -/
def resolved (length step i : Int) : Int :=
  if 0 < step then max 0 (min length (fromEnd length i))
  else max (-1) (min (length - 1) (fromEnd length i))

def first (length step : Int) : Option Int64 → Int
  | some i => resolved length step i.toInt
  | none => if 0 < step then 0 else length - 1

def limit (length step : Int) : Option Int64 → Int
  | some i => resolved length step i.toInt
  | none => if 0 < step then length else -1

/-- A bound within a sequence, unless an operation overflows. -/
def clamp? (length step i : Int64) : Option Int64 :=
  if i < 0 then
    (add? i length).map fun place => if place < 0 then (if step > 0 then 0 else -1) else place
  else if i ≥ length then
    if step > 0 then some length else sub? length 1
  else some i

theorem clamp?_eq {length step : Int64} (hlength : 0 ≤ length.toInt) (i : Int64) :
    clamp? length step i = some (clamp length step i) ∧
      (clamp length step i).toInt = resolved length.toInt step.toInt i.toInt := by
  have hup : step > 0 ↔ 0 < step.toInt := Int64.lt_iff_toInt_lt
  have hneg : i < 0 ↔ i.toInt < 0 := Int64.lt_iff_toInt_lt
  have hbehind : i ≥ length ↔ length.toInt ≤ i.toInt := Int64.le_iff_toInt_le
  have hhigh := length.toInt_lt
  have hzero : (0 : Int64).toInt = 0 := rfl
  have hbefore : (-1 : Int64).toInt = -1 := rfl
  unfold clamp? clamp resolved fromEnd
  simp only [hup, hneg, hbehind]
  split
  next hi =>
    have hlow := i.le_toInt
    obtain ⟨hfits, hsum⟩ := add?_of_fits (a := i) (b := length) (by omega) (by omega)
    have hbelow : i + length < 0 ↔ i.toInt + length.toInt < 0 := by
      rw [Int64.lt_iff_toInt_lt, hsum, hzero]
    simp only [hfits, Option.map_some, hbelow]
    refine ⟨trivial, ?_⟩
    split_ifs <;> omega
  next hi =>
    split
    next hi' =>
      have hone : (1 : Int64).toInt = 1 := rfl
      obtain ⟨hfits, hdiff⟩ := sub?_of_fits (a := length) (b := 1) (by omega) (by omega)
      rw [hfits]
      split_ifs with hs
      · exact ⟨rfl, by omega⟩
      · exact ⟨rfl, by omega⟩
    next hi' =>
      refine ⟨rfl, ?_⟩
      split_ifs <;> omega

/-! ## Walks -/

/-- Whether a place comes before another one in the direction of the step. -/
def Before (step i j : Int) : Prop := if 0 < step then i < j else j < i

instance (step i j : Int) : Decidable (Before step i j) := by
  unfold Before
  infer_instance

/-- Whether a walk by the step can start from the place or end at it. -/
def Inside (length step i : Int) : Prop :=
  if 0 < step then 0 ≤ i ∧ i ≤ length else -1 ≤ i ∧ i ≤ length - 1

theorem resolved_inside (hlength : 0 ≤ length) (step i : Int) :
    Inside length step (resolved length step i) := by
  unfold Inside resolved
  split_ifs <;> omega

theorem first_inside (hlength : 0 ≤ length) (step : Int) (start : Option Int64) :
    Inside length step (first length step start) := by
  cases start with
  | some i => exact resolved_inside hlength step i.toInt
  | none =>
    rw [Inside, first]
    split_ifs <;> omega

theorem limit_inside (hlength : 0 ≤ length) (step : Int) (stop : Option Int64) :
    Inside length step (limit length step stop) := by
  cases stop with
  | some i => exact resolved_inside hlength step i.toInt
  | none =>
    rw [Inside, limit]
    split_ifs <;> omega

/-- The places that a walk by the step comes to before the stop. -/
inductive Visits (step stop : Int) : Int → List Int → Prop
  | ended {i : Int} (hi : ¬Before step i stop) : Visits step stop i []
  | onward {i : Int} {places : List Int} (hi : Before step i stop)
      (hrest : Visits step stop (i + step) places) : Visits step stop i (i :: places)

/-- The terms of the progression from `i` on of which there are `count`. -/
def terms (i step : Int) (count : Nat) : List Int :=
  (List.range count).map fun k : Nat => i + k * step

theorem terms_succ (i step : Int) (count : Nat) :
    terms i step (count + 1) = i :: terms (i + step) step count := by
  rw [terms, terms, range_succ_eq_map, map_cons, map_map]
  congr 1
  · simp
  · apply map_congr_left
    intro k _
    simp only [Function.comp]
    push_cast
    rw [Int.add_mul]
    omega

theorem not_before_onward {step stop : Int} (hi : ¬Before step i stop) (k : Nat) :
    ¬Before step (i + k * step) stop := by
  induction k with
  | zero => simpa using hi
  | succ k ih =>
    unfold Before at ih ⊢
    push_cast
    rw [Int.add_mul]
    split_ifs at ih ⊢ <;> omega

/-- A walk comes to the terms before the stop, and to nothing else. -/
theorem Visits.eq_terms {step stop : Int} {places : List Int} (h : Visits step stop i places) :
    ∃ count, places = terms i step count ∧ ∀ k : Nat, k < count ↔
    Before step (i + k * step) stop := by
  induction h with
  | ended hi =>
    refine ⟨0, rfl, fun k => ?_⟩
    exact iff_of_false (Nat.not_lt_zero k) (not_before_onward hi k)
  | @onward i places hi hrest ih =>
    obtain ⟨count, hplaces, hcount⟩ := ih
    refine ⟨count + 1, by rw [terms_succ, hplaces], fun k => ?_⟩
    cases k with
    | zero => simpa using hi
    | succ k =>
      have hnext : i + ((k + 1 : Nat) : Int) * step = i + step + k * step := by
        push_cast
        rw [Int.add_mul]
        omega
      rw [hnext, ← hcount k]
      omega

/-- The places of a walk in either direction. -/
def walk (stop step : Int64) : (tries : Nat) → (i : Int64) → List Int64
  | 0, _ => []
  | tries + 1, i =>
    if Before step.toInt i.toInt stop.toInt then
      if Before step.toInt step.toInt (stop - i).toInt then i :: walk stop step tries (i + step)
        else [i]
    else []

theorem ascend_eq_walk (stop : Int64) {step : Int64} (hup : 0 < step.toInt) (tries : Nat)
    (i : Int64) : ascend stop step tries i = walk stop step tries i := by
  induction tries generalizing i with
  | zero => rfl
  | succ tries ih =>
    simp only [ascend, walk, Before, if_pos hup, ← Int64.lt_iff_toInt_lt, ih, ge_iff_le,
      ← Int64.not_lt, ite_not]

theorem descend_eq_walk (stop : Int64) {step : Int64} (hdown : ¬0 < step.toInt) (tries : Nat)
    (i : Int64) : descend stop step tries i = walk stop step tries i := by
  induction tries generalizing i with
  | zero => rfl
  | succ tries ih =>
    simp only [descend, walk, Before, if_neg hdown, ← Int64.lt_iff_toInt_lt, ih, gt_iff_lt,
      ← Int64.not_lt, ite_not]

/-- The places of a walk, unless an operation overflows or more places are left than tries. -/
def walk? (stop step : Int64) : (tries : Nat) → (i : Int64) → Option (List Int64)
  | 0, i => if Before step.toInt i.toInt stop.toInt then none else some []
  | tries + 1, i =>
    if Before step.toInt i.toInt stop.toInt then
      (sub? stop i).bind fun left =>
        if Before step.toInt step.toInt left.toInt then
          (add? i step).bind fun next => (walk? stop step tries next).map (i :: ·)
        else some [i]
    else some []

/-- Between two places inside a sequence lies no overflow: as long as the walk has tries for all the
places before the stop, it comes to each of them. -/
theorem walk?_visits (hlength : length < 2 ^ 63) {stop step : Int64} (hstep : step.toInt ≠ 0)
    (hstop : Inside length step.toInt stop.toInt) {tries : Nat} {i : Int64}
    (hi : Inside length step.toInt i.toInt) (htries : (stop.toInt - i.toInt).natAbs ≤ tries) :
    walk? stop step tries i = some (walk stop step tries i) ∧
      Visits step.toInt stop.toInt i.toInt ((walk stop step tries i).map Int64.toInt) ∧
      ∀ j ∈ walk stop step tries i, 0 ≤ j.toInt ∧ j.toInt < length := by
  induction tries generalizing i with
  | zero =>
    have hend : ¬Before step.toInt i.toInt stop.toInt := by
      unfold Before
      split_ifs <;> omega
    exact ⟨if_neg hend, .ended hend, fun j hj => absurd hj not_mem_nil⟩
  | succ tries ih =>
    rw [walk?, walk]
    by_cases hbefore : Before step.toInt i.toInt stop.toInt
    · rw [if_pos hbefore, if_pos hbefore]
      have hplace : 0 ≤ i.toInt ∧ i.toInt < length := by
        unfold Before at hbefore
        unfold Inside at hi hstop
        split_ifs at hbefore hi hstop <;> omega
      obtain ⟨hleft, hdiff⟩ : sub? stop i = some (stop - i) ∧
          (stop - i).toInt = stop.toInt - i.toInt := by
        unfold Inside at hi hstop
        apply sub?_of_fits <;> split_ifs at hi hstop <;> omega
      rw [hleft, Option.bind_some, hdiff]
      by_cases hshort : Before step.toInt step.toInt (stop.toInt - i.toInt)
      · -- the next place lies before the stop as well
        have hnext : 0 ≤ i.toInt + step.toInt ∧ i.toInt + step.toInt < length ∧
            (stop.toInt - (i.toInt + step.toInt)).natAbs ≤ tries := by
          unfold Before at hbefore hshort
          unfold Inside at hi hstop
          split_ifs at hbefore hshort hi hstop <;> omega
        obtain ⟨hadd, hsum⟩ := add?_of_fits (a := i) (b := step) (by omega) (by omega)
        have hinside : Inside length step.toInt (i + step).toInt := by
          unfold Inside
          split_ifs <;> omega
        obtain ⟨hrest, hvisits, hplaces⟩ := ih hinside (by omega)
        rw [if_pos hshort, if_pos hshort, hadd, Option.bind_some, hrest]
        rw [hsum] at hvisits
        exact ⟨rfl, .onward hbefore hvisits, forall_mem_cons.mpr ⟨hplace, hplaces⟩⟩
      · have hend : ¬Before step.toInt (i.toInt + step.toInt) stop.toInt := by
          unfold Before at hshort ⊢
          split_ifs at hshort ⊢ <;> omega
        rw [if_neg hshort, if_neg hshort]
        exact ⟨rfl, .onward hbefore (.ended hend), forall_mem_cons.mpr ⟨hplace, by simp⟩⟩
    · rw [if_neg hbefore, if_neg hbefore]
      exact ⟨rfl, .ended hbefore, fun j hj => absurd hj not_mem_nil⟩

/-! ## Positions -/

/-- The start and the stop of a slice that leaves them out. -/
def ends (length step : Int64) : Int64 × Int64 := if step > 0 then (0, length) else (length - 1, -1)

/-- The start and the stop of a slice that leaves them out, unless an operation overflows. -/
def ends? (length step : Int64) : Option (Int64 × Int64) :=
  if step > 0 then some (0, length) else (sub? length 1).map fun last => (last, -1)

/-- The positions that a slice selects, unless an operation overflows or the walk does not end. -/
def positions? (start stop : Option Int64) (step : Int64) (count : Nat) : Option (List Int64) :=
  (length? count).bind fun length =>
    (ends? length step).bind fun outermost =>
      (start.elim (some outermost.1) (clamp? length step)).bind fun i =>
        (stop.elim (some outermost.2) (clamp? length step)).bind fun j => walk? j step count i

theorem ends?_eq {length : Int64} (hlength : 0 ≤ length.toInt) (step : Int64) :
    ends? length step = some (ends length step) ∧
      (ends length step).1.toInt = first length.toInt step.toInt none ∧
      (ends length step).2.toInt = limit length.toInt step.toInt none := by
  have hup : step > 0 ↔ 0 < step.toInt := Int64.lt_iff_toInt_lt
  have hone : (1 : Int64).toInt = 1 := rfl
  have hhigh := length.toInt_lt
  obtain ⟨hfits, hdiff⟩ := sub?_of_fits (a := length) (b := 1) (by omega) (by omega)
  rw [ends?, ends, first, limit, hfits]
  simp only [hup]
  split
  · exact ⟨rfl, rfl, rfl⟩
  · exact ⟨rfl, hdiff, rfl⟩

theorem elim_clamp? {length : Int64} (hlength : 0 ≤ length.toInt) (step outermost : Int64)
    (i : Option Int64) :
    i.elim (some outermost) (clamp? length step) = some (i.elim outermost (clamp length step)) := by
  cases i with
  | none => rfl
  | some i => exact (clamp?_eq hlength i).1

variable {u v w : Value} {start stop step : Option Int64} {count : Nat}

theorem positions_eq_walk (hu : Means u start) (hv : Means v stop) (hw : Means w step)
    (hstep : step ≠ some 0) (count : Nat) :
    positions u v w count = .ok (walk
      (stop.elim (ends (.ofNat count) (step.getD 1)).2 (clamp (.ofNat count) (step.getD 1)))
      (step.getD 1) count
      (start.elim (ends (.ofNat count) (step.getD 1)).1 (clamp (.ofNat count) (step.getD 1)))) := by
  have hzero : (step.getD 1 == 0) = false := by
    cases step with
    | none => rfl
    | some i => exact beq_false_of_ne fun h => hstep (congrArg some h)
  unfold positions
  rw [hu.bound, hv.bound, hw.bound]
  simp only [bind, Except.bind, pure, Except.pure, hzero]
  rw [if_neg Bool.false_ne_true]
  by_cases hup : step.getD 1 > 0
  · rw [if_pos hup, ascend_eq_walk _ (Int64.lt_iff_toInt_lt.mp hup)]
    cases start <;> cases stop <;> rfl
  · rw [if_neg hup, descend_eq_walk _ fun h => hup (Int64.lt_iff_toInt_lt.mpr h)]
    cases start <;> cases stop <;> rfl

/-- The positions of a slice are found without overflow, and they are the places that the walk comes
to, all of them in the sequence. -/
theorem positions_visits (hu : Means u start) (hv : Means v stop) (hw : Means w step)
    (hstep : step ≠ some 0) (hcount : count < 2 ^ 63) :
    ∃ places, positions u v w count = .ok places ∧
      positions? start stop (step.getD 1) count = some places ∧
      Visits (step.getD 1).toInt (limit count (step.getD 1).toInt stop)
        (first count (step.getD 1).toInt start) (places.map Int64.toInt) ∧
      ∀ i ∈ places, 0 ≤ i.toInt ∧ i.toInt < count := by
  have hwalk := positions_eq_walk hu hv hw hstep count
  have hmoves : (step.getD 1).toInt ≠ 0 := by
    cases step with
    | none => decide
    | some i => exact fun h => hstep (congrArg some (Int64.toInt_inj.mp h))
  generalize step.getD 1 = step at hwalk hmoves ⊢
  obtain ⟨hlength, hexact⟩ := length?_of_fits hcount
  have hnonneg : 0 ≤ (Int64.ofNat count).toInt := by omega
  obtain ⟨hends, hlow, hhigh⟩ := ends?_eq hnonneg step
  have hfirst : (start.elim (ends (.ofNat count) step).1 (clamp (.ofNat count) step)).toInt =
      first count step.toInt start := by
    rw [← hexact]
    cases start with
    | none => exact hlow
    | some i => exact (clamp?_eq hnonneg i).2
  have hlimit : (stop.elim (ends (.ofNat count) step).2 (clamp (.ofNat count) step)).toInt =
      limit count step.toInt stop := by
    rw [← hexact]
    cases stop with
    | none => exact hhigh
    | some i => exact (clamp?_eq hnonneg i).2
  have hinside := first_inside (Int.natCast_nonneg count) step.toInt start
  have hinside' := limit_inside (Int.natCast_nonneg count) step.toInt stop
  -- both ends are inside the sequence, so that there are at most as many places as it is long
  have htries : (limit count step.toInt stop - first count step.toInt start).natAbs ≤ count := by
    unfold Inside at hinside hinside'
    split_ifs at hinside hinside' <;> omega
  rw [← hfirst] at hinside
  rw [← hlimit] at hinside'
  rw [← hfirst, ← hlimit] at htries
  obtain ⟨hsafe, hvisits, hplaces⟩ := walk?_visits (by omega) hmoves hinside' hinside htries
  refine ⟨_, hwalk, ?_, ?_, hplaces⟩
  · rw [positions?, hlength, Option.bind_some, hends, Option.bind_some, elim_clamp? hnonneg,
      Option.bind_some, elim_clamp? hnonneg, Option.bind_some, hsafe]
  · rw [← hfirst, ← hlimit]
    exact hvisits

/-! ## Items -/

/-- Places in a sequence select the items there, in their order. -/
theorem select_forall₂ (h : ∀ i ∈ places, 0 ≤ i.toInt ∧ i.toInt < items.length) :
    Forall₂ (fun i x => items[i.toInt.toNat]? = some x) places (select items.toArray places) := by
  induction places with
  | nil => exact .nil
  | cons i places ih =>
    obtain ⟨hi, hrest⟩ := forall_mem_cons.mp h
    have hlt : i.toInt.toNat < items.length := by omega
    have hitem : items[i.toInt.toNat]? = some items[i.toInt.toNat] := getElem?_eq_getElem hlt
    rw [select, filterMap_cons_some (by rw [getElem?_toArray]; exact hitem)]
    exact .cons hitem (ih hrest)

theorem items_of_positions (h : positions u v w items.length = .ok places) :
    Slicing.items u v w items = .ok (select items.toArray places) := by
  rw [Slicing.items, h]
  rfl

/-- A slice of a list is a new list of the selected items. -/
theorem slice_list {items : List Value} (hitems : Slicing.items u v w (h.list r) = .ok items) :
    Run.slice (.list r) u v w h = Run.newList items h := by
  rw [Run.slice, bind_apply, get_apply]
  dsimp only
  rw [bind_apply, hitems]
  rfl

/-- A slice of a tuple is a new tuple of the selected items. -/
theorem slice_tuple {items : List Value} (hitems : Slicing.items u v w (h.tuple r) = .ok items) :
    Run.slice (.tuple r) u v w h = Run.newTuple items h := by
  rw [Run.slice, bind_apply, get_apply]
  dsimp only
  rw [bind_apply, hitems]
  rfl

/-- A slice selects the terms of the progression from its resolved start by its step that lie before
its resolved stop. All of them are places of the sequence, nothing overflows while they are found,
and the slice of a list or a tuple holds the items at these places in their order. -/
theorem positions_exact (hu : Means u start) (hv : Means v stop) (hw : Means w step)
    (hstep : step ≠ some 0) (hcount : count < 2 ^ 63) :
    ∃ places n, positions u v w count = .ok places ∧
      positions? start stop (step.getD 1) count = some places ∧
      places.map Int64.toInt = terms (first count (step.getD 1).toInt start) (step.getD 1).toInt n ∧
      (∀ k : Nat, k < n ↔ Before (step.getD 1).toInt
        (first count (step.getD 1).toInt start + k * (step.getD 1).toInt)
        (limit count (step.getD 1).toInt stop)) ∧
      (∀ i ∈ places, 0 ≤ i.toInt ∧ i.toInt < count) ∧
      ∀ (h : Heap) (r : Ref),
        ((h.list r).length = count → ∃ items,
          Forall₂ (fun i x => (h.list r)[i.toInt.toNat]? = some x) places items ∧
          Run.slice (.list r) u v w h = Run.newList items h) ∧
        ((h.tuple r).length = count → ∃ items,
          Forall₂ (fun i x => (h.tuple r)[i.toInt.toNat]? = some x) places items ∧
          Run.slice (.tuple r) u v w h = Run.newTuple items h) := by
  obtain ⟨places, hpositions, hexact, hvisits, hplaces⟩ := positions_visits hu hv hw hstep hcount
  obtain ⟨n, hterms, hn⟩ := hvisits.eq_terms
  refine ⟨places, n, hpositions, hexact, hterms, hn, hplaces, fun h r => ⟨?_, ?_⟩⟩
  · rintro rfl
    exact ⟨_, select_forall₂ hplaces, slice_list (items_of_positions hpositions)⟩
  · rintro rfl
    exact ⟨_, select_forall₂ hplaces, slice_tuple (items_of_positions hpositions)⟩

/-- The largest step downwards selects the last item alone. -/
theorem positions_exact_lowest_step :
    Means .none none ∧ Means (.int Int64.minValue) (some Int64.minValue) ∧
    some Int64.minValue ≠ some 0 ∧
      ∃ places n, positions .none .none (.int Int64.minValue) 3 = .ok places ∧
        places.map Int64.toInt = terms 2 Int64.minValue.toInt n ∧
        ∀ k : Nat, k < n ↔ Before Int64.minValue.toInt (2 + k * Int64.minValue.toInt) (-1) := by
  obtain ⟨places, n, hpositions, -, hterms, hn, -⟩ := @positions_exact .none .none _ none none _ 3
    (.absent rfl) (.absent rfl) (.int Int64.minValue) (by decide) (by decide)
  exact ⟨.absent rfl, .int _, by decide, places, n, hpositions, hterms, hn⟩

end ExprBackend.Slicing
