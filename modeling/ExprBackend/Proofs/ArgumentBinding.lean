import Mathlib.Data.List.Nodup
import Mathlib.Tactic.Tauto
import ExprBackend.Machine.Call

/-! # Argument binding

The slots of an activation are told apart by the names of its parameters: they are the
parameters mapped by what is known of each. Giving a keyword argument to a parameter changes what is
known of that parameter alone, and in the end a value must be known of every one.
-/

namespace ExprBackend

open List

namespace Machine

variable {params : List Text} {function : Text} {known : Text → Option Value}
  {keywords keywords' : List Keyword} {args : List Value} {i : Nat}

/-- What is known of the parameters once a keyword argument is given. -/
def learn (known : Text → Option Value) (k : Keyword) : Text → Option Value :=
  Function.update known k.name (some k.value)

/-- Keyword arguments fit parameters of which nothing is known yet. -/
def Fits (params : List Text) (known : Text → Option Value) (keywords : List Keyword) : Prop :=
  (keywords.map (·.name)).Nodup ∧ ∀ k ∈ keywords, k.name ∈ params ∧ known k.name = none

theorem fits_cons {k : Keyword} : Fits params known (k :: keywords) ↔
    (k.name ∈ params ∧ known k.name = none) ∧ Fits params (learn known k) keywords := by
  have hlearn : (∀ k' ∈ keywords, k'.name ∈ params ∧ learn known k k'.name = none) ↔
      k.name ∉ keywords.map (·.name) ∧ ∀ k' ∈ keywords, k'.name ∈ params ∧
      known k'.name = none := by
    simp only [learn, Function.update_apply, mem_map, not_exists, not_and]
    grind
  simp only [Fits, map_cons, nodup_cons, forall_mem_cons, hlearn]
  tauto

theorem map_learn (hnodup : params.Nodup) (k : Keyword) (hi : params[i]? = some k.name) :
    (params.map known).set i (some k.value) = params.map (learn known k) := by
  refine ext_getElem? fun j => ?_
  rw [getElem?_set, getElem?_map, getElem?_map]
  obtain ⟨hlt, hname⟩ := List.getElem?_eq_some_iff.mp hi
  by_cases hij : i = j
  · subst hij
    simp [hlt, hname, learn]
  · rw [if_neg hij]
    refine Option.map_congr fun p hp => ?_
    have hne : p ≠ k.name := by
      rintro rfl
      exact hij ((getElem?_inj hlt hnodup).mp (hi.trans hp.symm))
    simp [learn, hne]

/-- Keyword arguments that fit are learned in their order, others are refused. -/
theorem bindKeywords_cases (function : Text) (hnodup : params.Nodup) (keywords : List Keyword)
    (known : Text → Option Value) :
    Fits params known keywords ∧ bindKeywords function params keywords (params.map known) =
        .ok (params.map (keywords.foldl learn known)) ∨
      ¬Fits params known keywords ∧ ∃ e, e.category = .typeMismatch ∧
        bindKeywords function params keywords (params.map known) = .error e := by
  induction keywords generalizing known with
  | nil => exact .inl ⟨⟨nodup_nil, nofun⟩, rfl⟩
  | cons k rest ih =>
    rw [bindKeywords, fits_cons]
    split
    next hnone =>
      have hmem : k.name ∉ params := by simpa using findIdx?_eq_none_iff.mp hnone k.name
      exact .inr ⟨fun h => hmem h.1.1, _, rfl, rfl⟩
    next i hi =>
      obtain ⟨hlt, heq, -⟩ := findIdx?_eq_some_iff_getElem.mp hi
      have hname : params[i]? = some k.name := by
        rw [getElem?_eq_getElem hlt, eq_of_beq heq]
      have hmem : k.name ∈ params := mem_of_getElem? hname
      rw [getElem?_map, hname, Option.map_some]
      cases hk : known k.name with
      | none =>
        simpa only [hmem, true_and, map_learn hnodup k hname, foldl_cons] using ih (learn known k)
      | some v => exact .inr ⟨nofun, _, rfl, rfl⟩

theorem boundValues_cases (function : Text) (known : Text → Option Value) (params : List Text) :
    (∀ p ∈ params, (known p).isSome) ∧ boundValues function params (params.map known) =
        .ok (params.map fun p => (known p).getD .none) ∨
      (¬∀ p ∈ params, (known p).isSome) ∧ ∃ e, e.category = .typeMismatch ∧
        boundValues function params (params.map known) = .error e := by
  induction params with
  | nil => exact .inl ⟨nofun, rfl⟩
  | cons p rest ih =>
    rw [map_cons, forall_mem_cons]
    cases hp : known p with
    | none => exact .inr ⟨nofun, _, rfl, rfl⟩
    | some v =>
      rw [boundValues]
      rcases ih with ⟨hrest, heq⟩ | ⟨hrest, e, hcategory, he⟩
      · exact .inl ⟨⟨rfl, hrest⟩, by simp [heq, hp, Except.map]⟩
      · exact .inr ⟨fun h => hrest h.2, e, hcategory, by rw [he]; rfl⟩

/-- The positional argument of a parameter. -/
def positional (params : List Text) (args : List Value) (name : Text) : Option Value :=
  args[params.idxOf name]?

theorem positional_getElem? (hnodup : params.Nodup) {p : Text} (hp : params[i]? = some p) :
    positional params args p = args[i]? := by
  obtain ⟨hlt, rfl⟩ := List.getElem?_eq_some_iff.mp hp
  rw [positional, hnodup.idxOf_getElem]

theorem map_positional (hnodup : params.Nodup) (hle : args.length ≤ params.length) :
    args.map some ++ List.replicate (params.length - args.length) none =
      params.map (positional params args) := by
  refine ext_getElem (by simp; omega) fun i hi hi' => ?_
  rw [getElem_map, positional_getElem? hnodup (getElem?_eq_getElem (by simpa using hi')),
    getElem_append]
  split
  next hlt => simp
  next hge => simpa using hge

theorem positional_eq_none_iff (hnodup : params.Nodup) {p : Text} (hp : p ∈ params) :
    positional params args p = none ↔ p ∈ params.drop args.length := by
  obtain ⟨i, hlt, rfl⟩ := getElem_of_mem hp
  rw [positional_getElem? hnodup (getElem?_eq_getElem hlt), getElem?_eq_none_iff,
    mem_drop_iff_getElem]
  constructor
  · intro hle
    exact ⟨i - args.length, by omega, by simp [Nat.add_sub_cancel' hle]⟩
  · rintro ⟨j, hj, heq⟩
    have := (hnodup.getElem_inj_iff).mp heq
    omega

/-- The arguments cover every parameter once: positional ones the first of them, keywords the
others. -/
def Covers (params : List Text) (args : List Value) (keywords : List Keyword) : Prop :=
  args.length ≤ params.length ∧ (keywords.map (·.name)).Nodup ∧
    ∀ name, name ∈ keywords.map (·.name) ↔ name ∈ params.drop args.length

theorem foldl_learn_of_not_mem {name : Text} (h : name ∉ keywords.map (·.name)) :
    keywords.foldl learn known name = known name := by
  induction keywords generalizing known with
  | nil => rfl
  | cons k rest ih =>
    rw [map_cons, mem_cons, not_or] at h
    rw [foldl_cons, ih h.2, learn, Function.update_of_ne h.1]

theorem foldl_learn_of_mem (hnodup : (keywords.map (·.name)).Nodup) {k : Keyword}
    (hk : k ∈ keywords) : keywords.foldl learn known k.name = some k.value := by
  induction keywords generalizing known with
  | nil => nomatch hk
  | cons k' rest ih =>
    rw [map_cons, nodup_cons] at hnodup
    rw [foldl_cons]
    rcases mem_cons.mp hk with rfl | hk
    · rw [foldl_learn_of_not_mem hnodup.1, learn, Function.update_self]
    · exact ih hnodup.2 hk

/-- Positional arguments cover the first parameters, so keywords that fit and leave none out are
those of the others. -/
theorem covers_iff (hnodup : params.Nodup) (hle : args.length ≤ params.length) :
    Covers params args keywords ↔ Fits params (positional params args) keywords ∧
      ∀ p ∈ params, (keywords.foldl learn (positional params args) p).isSome := by
  have hdrop : ∀ p, p ∈ params.drop args.length ↔ p ∈ params ∧ positional params args p = none :=
    fun p => ⟨fun h => have hp := mem_of_mem_drop h
      ⟨hp, (positional_eq_none_iff hnodup hp).mpr h⟩,
      fun h => (positional_eq_none_iff hnodup h.1).mp h.2⟩
  constructor
  · rintro ⟨-, hdistinct, hnames⟩
    refine ⟨⟨hdistinct, fun k hk => (hdrop _).mp ((hnames _).mp (mem_map_of_mem hk))⟩,
      fun p hp => ?_⟩
    by_cases hmem : p ∈ keywords.map (·.name)
    · obtain ⟨k, hk, rfl⟩ := mem_map.mp hmem
      rw [foldl_learn_of_mem hdistinct hk]
      rfl
    · rw [foldl_learn_of_not_mem hmem, Option.isSome_iff_ne_none]
      exact fun hnone => hmem ((hnames p).mpr ((hdrop p).mpr ⟨hp, hnone⟩))
  · rintro ⟨⟨hdistinct, hfits⟩, hall⟩
    refine ⟨hle, hdistinct, fun name => ⟨fun hmem => ?_, fun hmem => ?_⟩⟩
    · obtain ⟨k, hk, rfl⟩ := mem_map.mp hmem
      exact (hdrop _).mpr (hfits k hk)
    · by_contra hnot
      have hsome := hall name ((hdrop name).mp hmem).1
      rw [foldl_learn_of_not_mem hnot, ((hdrop name).mp hmem).2] at hsome
      nomatch hsome

/-- The values of the parameters. -/
def bound (params : List Text) (args : List Value) (keywords : List Keyword) : List Value :=
  params.map fun p => (keywords.foldl learn (positional params args) p).getD .none

/-- Arguments that cover the parameters are bound, others are refused. -/
theorem bindArguments_cases (function : Text) (hnodup : params.Nodup) (args : List Value)
    (keywords : List Keyword) :
    Covers params args keywords ∧ bindArguments function params args keywords =
        .ok (bound params args keywords) ∨
      ¬Covers params args keywords ∧ ∃ e, e.category = .typeMismatch ∧
        bindArguments function params args keywords = .error e := by
  rw [bindArguments]
  split
  next hlt => exact .inr ⟨fun h => by have := h.1; omega, _, rfl, rfl⟩
  next hle =>
    rw [Nat.not_lt] at hle
    rw [covers_iff hnodup hle, map_positional hnodup hle]
    dsimp only
    rcases bindKeywords_cases function hnodup keywords (positional params args) with
      ⟨hfits, heq⟩ | ⟨hfits, e, hcategory, he⟩
    · rw [heq]
      simp only [hfits, true_and]
      exact boundValues_cases function _ params
    · exact .inr ⟨fun h => hfits h.1, e, hcategory, by rw [he]; rfl⟩

/-- Keywords for different parameters are learned in any order. -/
theorem bound_perm (h : Covers params args keywords) (hperm : keywords'.Perm keywords) :
    bound params args keywords' = bound params args keywords := by
  have hcomm : ∀ k ∈ keywords, ∀ k' ∈ keywords, ∀ known,
      learn (learn known k) k' = learn (learn known k') k := by
    intro k hk k' hk' known
    by_cases hname : k.name = k'.name
    · rw [inj_on_of_nodup_map h.2.1 hk hk' hname]
    · exact Function.update_comm hname ..
  rw [bound, ← hperm.symm.foldl_eq' hcomm, bound]

theorem Covers.perm (h : Covers params args keywords) (hperm : keywords'.Perm keywords) :
    Covers params args keywords' :=
  ⟨h.1, (hperm.map _).nodup_iff.mpr h.2.1, fun name => (hperm.map _).mem_iff.trans (h.2.2 name)⟩

/-- Runs the code of a function from a frame on. -/
def runFrom (call : Caller) (limit : Nat) (closure : Closure) (start : Chunk → Frame) :
    Run Value := do
  let chunk := (← get).chunk closure.chunk
  if chunk.maxStack < 0 ∨ largestStack < chunk.maxStack then Run.stop .badStackSize
  loop (step call closure chunk) limit (start chunk)

/-- A frame at the start of the code: each parameter has its own argument, and all other locals are
`none`. -/
structure Starts (chunk : Chunk) (params : List Text) (args : List Value) (keywords : List Keyword)
    (frame : Frame) : Prop where
  size : frame.locals.size = max params.length chunk.localNames.length
  positional : ∀ i < args.length, frame.locals[i]? = args[i]?
  keyword : ∀ k ∈ keywords, ∀ i : Nat, params[i]? = some k.name → frame.locals[i]? = some k.value
  others : ∀ i, params.length ≤ i → i < frame.locals.size → frame.locals[i]? = some .none
  first : frame.offset = 0 ∧ frame.stack = []

theorem starts_startFrame (hnodup : params.Nodup) (h : Covers params args keywords)
    (chunk : Chunk) :
    Starts chunk params args keywords (startFrame chunk (bound params args keywords)) := by
  have hlength : (bound params args keywords).length = params.length := length_map ..
  have hvalue : ∀ {i : Nat} {p}, params[i]? = some p →
      (startFrame chunk (bound params args keywords)).locals[i]? =
        some ((keywords.foldl learn (positional params args) p).getD .none) := by
    intro i p hp
    have hlt := (List.getElem?_eq_some_iff.mp hp).1
    rw [startFrame, getElem?_toArray, getElem?_append_left (hlength.symm ▸ hlt), bound,
      getElem?_map, hp, Option.map_some]
  refine ⟨?_, fun i hi => ?_, fun k hk i hi => ?_, fun i hle hlt => ?_, rfl, rfl⟩
  · simp [startFrame, hlength]
    omega
  · have hlt : i < params.length := Nat.lt_of_lt_of_le hi h.1
    have hp := getElem?_eq_getElem hlt
    have hgiven : positional params args _ = args[i]? := positional_getElem? hnodup hp
    have hnot : params[i] ∉ keywords.map (·.name) := fun hmem => by
      have := (positional_eq_none_iff hnodup (mem_of_getElem? hp)).mpr ((h.2.2 _).mp hmem)
      simp [hgiven, hi] at this
    rw [hvalue hp, foldl_learn_of_not_mem hnot, hgiven, getElem?_eq_getElem hi]
    rfl
  · rw [hvalue hi, foldl_learn_of_mem h.2.1 hk]
    rfl
  · rw [← hlength] at hle
    simp only [startFrame, size_toArray, length_append, length_replicate] at hlt
    rw [startFrame, getElem?_toArray, getElem?_append_right hle]
    exact getElem?_replicate_of_lt (by omega)

/-- A function whose parameters differ runs its code exactly if the arguments cover the parameters,
from a frame where each parameter has its own argument, in whatever order keywords are given. Other
arguments are refused as a mismatch of types, whatever the code is, and the heap stays as it was. -/
theorem activate_iff_covers (closure : Closure) (hnodup : closure.params.Nodup) :
    (Covers closure.params args keywords → ∃ start : Chunk → Frame,
      (∀ chunk, Starts chunk closure.params args keywords (start chunk)) ∧
      ∀ keywords', keywords'.Perm keywords → ∀ call limit,
        activate call limit closure args keywords' = runFrom call limit closure start) ∧
    (¬Covers closure.params args keywords → ∃ e : RuntimeError, e.category = .typeMismatch ∧
      ∀ call limit h, activate call limit closure args keywords h = (.error (.runtime e), h)) := by
  constructor
  · intro hcovers
    refine ⟨fun chunk => startFrame chunk (bound closure.params args keywords),
      starts_startFrame hnodup hcovers, fun keywords' hperm call limit => ?_⟩
    rcases bindArguments_cases closure.name hnodup args keywords' with ⟨-, heq⟩ | ⟨hnot, -⟩
    · rw [activate, heq, bound_perm hcovers hperm]
      rfl
    · exact absurd (hcovers.perm hperm) hnot
  · intro hcovers
    rcases bindArguments_cases closure.name hnodup args keywords with ⟨h, -⟩ | ⟨-, e, hcategory, he⟩
    · exact absurd h hcovers
    · refine ⟨e, hcategory, fun call limit h => ?_⟩
      rw [activate, he]
      rfl

/-- A function of two parameters, of which the second is given by name. -/
theorem activate_iff_covers_pair : let closure : Closure := ⟨"f", ["a", "b"], 0, .ofList []⟩
    ∃ start : Chunk → Frame, (∀ chunk, Starts chunk ["a", "b"] [.int 1] [⟨"b", .int 2⟩]
      (start chunk)) ∧ ∀ call limit, activate call limit closure [.int 1] [⟨"b", .int 2⟩] =
        runFrom call limit closure start := by
  intro closure
  have hcovers : Covers closure.params [.int 1] [⟨"b", .int 2⟩] :=
    ⟨by decide, by decide, fun _ => .rfl⟩
  obtain ⟨start, hstarts, hruns⟩ := (activate_iff_covers closure (by decide)).1 hcovers
  exact ⟨start, hstarts, fun call limit => hruns _ (.refl _) call limit⟩

end Machine

end ExprBackend
