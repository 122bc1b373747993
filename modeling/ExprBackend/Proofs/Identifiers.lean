import ExprBackend.Scope.Identifier

/-! # Which names are accepted

Patterns are searched by an engine of which only its manual is known: a text start
and a text end, the latter also before a line end that ends the text, and kinds of
characters that are read once or any number of times. For every engine that keeps to
this, the pattern of identifiers accepts identifiers, and identifiers with one line end
behind them.
-/

namespace ExprBackend

namespace Pattern

/-- A pattern matches characters from their first on, which may be the first of the text. -/
inductive Reads : Pattern → (atStart : Bool) → List Char → Prop
  | nil {s cs} : Reads [] s cs
  | start {p cs} : Reads p true cs → Reads (.start :: p) true cs
  | one {kind p s c cs} : kind c = true → Reads p false cs → Reads (.one kind :: p) s (c :: cs)
  | less {kind p s cs} : Reads p s cs → Reads (.many kind :: p) s cs
  | more {kind p s c cs} : kind c = true → Reads (.many kind :: p) false cs →
      Reads (.many kind :: p) s (c :: cs)
  | finish {p s} : Reads p s [] → Reads (.finish :: p) s []
  | lineEnd {p s} : Reads p s ['\n'] → Reads (.finish :: p) s ['\n']

/-- A pattern matches somewhere in a text. -/
def Found (p : Pattern) (cs : List Char) : Prop :=
  ∃ before after, cs = before ++ after ∧ p.Reads before.isEmpty after

/-- An engine finds what patterns match. -/
def Lawful (search : Pattern → List Char → Bool) : Prop :=
  ∀ p cs, search p cs = true ↔ Found p cs

variable {atStart : Bool} {kind : Char → Bool} {cs : List Char} {p : Pattern}

/-- A repetition reads characters of its kind, which are the first of a text. -/
theorem reads_many_iff : Reads (.many kind :: p) atStart cs ↔
    ∃ count ≤ (cs.takeWhile kind).length, Reads p (atStart && count == 0) (cs.drop count) := by
  induction cs generalizing atStart with
  | nil =>
    constructor
    · rintro ⟨⟩
      exact ⟨0, Nat.le_refl _, by simpa⟩
    · rintro ⟨count, hcount, hrest⟩
      obtain rfl : count = 0 := Nat.le_zero.mp hcount
      exact .less (by simpa using hrest)
  | cons c cs ih =>
    constructor
    · intro h
      cases h with
      | less hrest => exact ⟨0, Nat.zero_le _, by simpa⟩
      | more hc hrest =>
        obtain ⟨count, hcount, hrest⟩ := ih.mp hrest
        rw [List.takeWhile_cons_of_pos hc]
        exact ⟨count + 1, Nat.succ_le_succ hcount, by simpa using hrest⟩
    · rintro ⟨count, hcount, hrest⟩
      cases count with
      | zero => exact .less (by simpa using hrest)
      | succ count =>
        by_cases hc : kind c = true
        · rw [List.takeWhile_cons_of_pos hc] at hcount
          exact .more hc (ih.mpr ⟨count, Nat.le_of_succ_le_succ hcount, by simpa using hrest⟩)
        · rw [List.takeWhile_cons_of_neg hc] at hcount
          cases hcount

theorem matchesFrom_iff : matchesFrom p atStart cs = true ↔ Reads p atStart cs := by
  induction p generalizing atStart cs with
  | nil => exact iff_of_true rfl .nil
  | cons item p ih =>
    cases item with
    | start =>
      rw [matchesFrom, Bool.and_eq_true, ih]
      constructor
      · rintro ⟨rfl, hrest⟩
        exact .start hrest
      · rintro ⟨⟩
        exact ⟨rfl, ‹_›⟩
    | one kind =>
      cases cs with
      | nil => exact iff_of_false Bool.false_ne_true (by rintro ⟨⟩)
      | cons c cs =>
        rw [matchesFrom, Bool.and_eq_true, ih]
        constructor
        · rintro ⟨hc, hrest⟩
          exact .one hc hrest
        · rintro ⟨⟩
          exact ⟨‹_›, ‹_›⟩
    | many kind =>
      rw [reads_many_iff]
      simp only [matchesFrom, List.any_eq_true, List.mem_reverse, List.mem_range, Nat.lt_succ_iff,
        ih]
    | finish =>
      rw [matchesFrom, Bool.and_eq_true, Bool.or_eq_true, beq_iff_eq, beq_iff_eq, ih]
      constructor
      · rintro ⟨rfl | rfl, hrest⟩
        · exact .finish hrest
        · exact .lineEnd hrest
      · rintro ⟨⟩
        · exact ⟨.inl rfl, ‹_›⟩
        · exact ⟨.inr rfl, ‹_›⟩

theorem search_lawful : Lawful search := by
  intro p cs
  simp only [search, List.any_eq_true, List.mem_range, matchesFrom_iff]
  constructor
  · rintro ⟨place, hplace, hreads⟩
    refine ⟨cs.take place, cs.drop place, (List.take_append_drop place cs).symm, ?_⟩
    have hstart : (cs.take place).isEmpty = (place == 0) := by
      cases place <;> cases cs <;> simp at *
    rw [hstart]
    exact hreads
  · rintro ⟨before, after, rfl, hreads⟩
    refine ⟨before.length, by rw [List.length_append]; omega, ?_⟩
    rw [List.drop_left]
    cases before <;> exact hreads

end Pattern

namespace Identifier

open Pattern

variable {atStart : Bool} {kind letter extender : Char → Bool} {cs : List Char}

/-- A letter or underscore, then letters and what may follow besides. -/
inductive Word (letter extender : Char → Bool) : List Char → Prop
  | mk {c : Char} {rest : List Char} : c = '_' ∨ letter c = true →
      (∀ d ∈ rest, letter d = true ∨ extender d = true) → Word letter extender (c :: rest)

/-- What a repetition reads up to the end of the text, or up to a line end that ends it. -/
theorem reads_tail_iff : Reads [.many kind, .finish] atStart cs ↔
    ∃ body, (∀ d ∈ body, kind d = true) ∧ (cs = body ∨ cs = body ++ ['\n']) := by
  constructor
  · intro h
    induction cs generalizing atStart with
    | nil => exact ⟨[], fun d hd => absurd hd List.not_mem_nil, .inl rfl⟩
    | cons c cs ih =>
      cases h with
      | less hend =>
        cases hend
        exact ⟨[], fun d hd => absurd hd List.not_mem_nil, .inr rfl⟩
      | more hc hrest =>
        obtain ⟨body, hbody, hcs⟩ := ih hrest
        refine ⟨c :: body, List.forall_mem_cons.mpr ⟨hc, hbody⟩, ?_⟩
        exact hcs.imp (congrArg (c :: ·)) (congrArg (c :: ·))
  · rintro ⟨body, hbody, hcs⟩
    induction body generalizing cs atStart with
    | nil =>
      rcases hcs with rfl | rfl
      · exact .less (.finish .nil)
      · exact .less (.lineEnd .nil)
    | cons c body ih =>
      obtain ⟨hc, hbody⟩ := List.forall_mem_cons.mp hbody
      rcases hcs with rfl | rfl
      · exact .more hc (ih hbody (.inl rfl))
      · exact .more hc (ih hbody (.inr rfl))

/-- The pattern of identifiers is found in words, and in words with one line end behind them. -/
theorem found_iff : Found (pattern letter extender) cs ↔
    Word letter extender cs ∨ ∃ body, Word letter extender body ∧ cs = body ++ ['\n'] := by
  have hextends : ∀ {body : List Char}, (∀ d ∈ body, (letter d || extender d) = true) ↔
      ∀ d ∈ body, letter d = true ∨ extender d = true := by
    simp
  constructor
  · rintro ⟨before, after, rfl, hreads⟩
    cases hbefore : before with
    | cons c before =>
      rw [hbefore] at hreads
      cases hreads
    | nil =>
      rw [hbefore] at hreads
      rcases hreads with _ | hreads
      rcases hreads with _ | _ | ⟨hstart, hreads⟩
      obtain ⟨body, hbody, hcs⟩ := reads_tail_iff.mp hreads
      have hword := Word.mk (by simpa using hstart) (hextends.mp hbody)
      rcases hcs with rfl | rfl
      · exact .inl hword
      · exact .inr ⟨_, hword, rfl⟩
  · rintro (⟨hstart, hrest⟩ | ⟨_, ⟨hstart, hrest⟩, rfl⟩)
    · exact ⟨[], _, rfl, .start (.one (by simpa using hstart)
        (reads_tail_iff.mpr ⟨_, hextends.mpr hrest, .inl rfl⟩))⟩
    · exact ⟨[], _, rfl, .start (.one (by simpa using hstart)
        (reads_tail_iff.mpr ⟨_, hextends.mpr hrest, .inr rfl⟩))⟩

/-- A name can be bound if its normal form is a word, or a word with one line end behind it, and
then it is bound under its normal form. All other names are refused by an error that tells the name
as it was given. That holds for every normal form, every table of letters and of characters that may
follow them, and every engine that keeps to its manual. -/
theorem normalize_accepts (normalForm : Text → Text) {search : Pattern → List Char → Bool}
    (hsearch : Lawful search) (letter extender : Char → Bool) (name : Text) :
    let accepted := Word letter extender (Text.chars (normalForm name)) ∨
      ∃ body, Word letter extender body ∧ Text.chars (normalForm name) = body ++ ['\n']
    (∀ normal, (namingBy normalForm search letter extender).normalize name = .ok normal ↔
      normal = normalForm name ∧ accepted) ∧
    ∀ e, (namingBy normalForm search letter extender).normalize name = .error e ↔
      e = .bind name .notIdentifier ∧ ¬accepted := by
  intro accepted
  have hvalid : search (pattern letter extender) (Text.chars (normalForm name)) = true ↔ accepted :=
    (hsearch _ _).trans found_iff
  have heq : (namingBy normalForm search letter extender).normalize name =
      if search (pattern letter extender) (Text.chars (normalForm name)) then .ok (normalForm name)
      else .error (.bind name .notIdentifier) := rfl
  rw [heq]
  by_cases haccepted : accepted
  · rw [if_pos (hvalid.mpr haccepted)]
    simp [haccepted, eq_comm]
  · rw [if_neg (mt hvalid.mp haccepted)]
    simp [haccepted, eq_comm]

theorem normalize_accepts_underscore : Lawful Pattern.search ∧ naming.normalize "_" = .ok "_" := by
  have hnormal : Text.normalForm "_" = "_" := by decide
  have hword : Word (Text.letters.contains ·.toNat) (Text.extenders.contains ·.toNat)
      (Text.chars "_") := by
    rw [show Text.chars "_" = ['_'] by decide]
    exact ⟨.inl rfl, fun d hd => absurd hd List.not_mem_nil⟩
  have haccepts := normalize_accepts Text.normalForm search_lawful (Text.letters.contains ·.toNat)
    (Text.extenders.contains ·.toNat) "_"
  rw [hnormal] at haccepts
  refine ⟨search_lawful, ?_⟩
  rw [naming]
  exact (haccepts.1 "_").mpr ⟨rfl, .inl hword⟩

/-- An underscore with a line end behind it is bound under this very name. -/
theorem normalize_keeps_lineEnd : naming.normalize "_\n" = .ok "_\n" := by
  have hnormal : naming.normalForm "_\n" = "_\n" := by
    rw [naming, namingBy]
    decide
  have hvalid : naming.valid "_\n" = true := by
    rw [naming, namingBy]
    apply (search_lawful _ _).mpr
    rw [found_iff, show Text.chars "_\n" = ['_', '\n'] by decide]
    exact .inr ⟨['_'], ⟨.inl rfl, fun d hd => absurd hd List.not_mem_nil⟩, rfl⟩
  rw [Naming.normalize, hnormal, if_pos hvalid]

end Identifier

end ExprBackend
