import Mathlib.Data.List.Forall2
import ExprBackend.Proofs.Subexpression

/-! # Expressions of the same form

Two expressions are alike if they differ at most in their operands, and those are
related in pairs. They match if they differ at most in the values of their
constants, and those are related in pairs.
-/

namespace ExprBackend.Node

open List

/-! ## Lists in pairs -/

section Pairs

variable {α : Type} {R S : α → α → Prop} {as bs : List α} {β : Type} {a b : Option α}

theorem forall₂_append {cs ds : List α} (hlength : as.length = cs.length) :
    Forall₂ R (as ++ bs) (cs ++ ds) ↔ Forall₂ R as cs ∧ Forall₂ R bs ds := by
  induction as generalizing cs with
  | nil =>
    obtain rfl := length_eq_zero_iff.mp hlength.symm
    simp
  | cons a as ih =>
    cases cs with
    | nil => cases hlength
    | cons c cs => simp [ih (Nat.succ.inj hlength), and_assoc]

theorem exists_of_forall₂ (h : Forall₂ R as bs) : ∀ a ∈ as, ∃ b, R a b := by
  induction h with
  | nil => exact fun a ha => absurd ha not_mem_nil
  | cons hfirst _ ih => exact forall_mem_cons.mpr ⟨⟨_, hfirst⟩, ih⟩

/-- What relates things in pairs may depend on where they come from. -/
theorem forall₂_imp_mem (h : Forall₂ R as bs) (himp : ∀ a ∈ as, ∀ b ∈ bs, R a b → S a b) :
    Forall₂ S as bs := by
  rw [forall₂_iff_zip] at h ⊢
  refine ⟨h.1, fun {a b} hab => ?_⟩
  obtain ⟨ha, hb⟩ := of_mem_zip hab
  exact himp a ha b hb (h.2 hab)

/-- Lists made of parts of the same lengths are related in pairs if the parts are. -/
theorem forall₂_of_flatMap {T : β → β → Prop} {f : α → List β}
    (hlength : Forall₂ (fun a b => (f a).length = (f b).length) as bs)
    (h : Forall₂ T (as.flatMap f) (bs.flatMap f)) :
    Forall₂ (fun a b => Forall₂ T (f a) (f b)) as bs := by
  induction hlength with
  | nil => exact .nil
  | cons hfirst _ ih =>
    rw [flatMap_cons, flatMap_cons, forall₂_append hfirst] at h
    exact .cons h.1 (ih h.2)

theorem rel_toList (h : Option.Rel R a b) : Forall₂ R a.toList b.toList := by
  cases h with
  | some h => exact .cons h .nil
  | none => exact .nil

theorem rel_of_toList (h : Option.Rel R a b) (hlist : Forall₂ S a.toList b.toList) :
    Option.Rel S a b := by
  cases h with
  | none => exact .none
  | some _ =>
    cases hlist with
    | cons hfirst _ => exact .some hfirst

theorem length_toList (h : Option.Rel R a b) : a.toList.length = b.toList.length :=
  (rel_toList h).length_eq

/-- Pairs are related if their first parts are equal and their second parts are related. -/
theorem forall₂_pairs {ks ls : List (β × α)} :
    Forall₂ (fun k l => k.1 = l.1 ∧ R k.2 l.2) ks ls ↔
      ks.map Prod.fst = ls.map Prod.fst ∧ Forall₂ R (ks.map Prod.snd) (ls.map Prod.snd) := by
  constructor
  · intro hall
    induction hall with
    | nil => exact ⟨rfl, .nil⟩
    | cons hfirst _ ih =>
      rw [map_cons, map_cons, hfirst.1, ih.1]
      exact ⟨rfl, .cons hfirst.2 ih.2⟩
  · rintro ⟨hfirsts, hseconds⟩
    induction ks generalizing ls with
    | nil =>
      obtain rfl := map_eq_nil_iff.mp hfirsts.symm
      exact .nil
    | cons k ks ih =>
      cases ls with
      | nil => cases hfirsts
      | cons l ls =>
        obtain ⟨hfirst, hothers⟩ := List.cons.inj hfirsts
        cases hseconds with
        | cons hsecond hmore => exact .cons ⟨hfirst, hsecond⟩ (ih hothers hmore)

end Pairs

/-! ## The same form -/

/-- Two expressions of the same form, with the same operators, names, flags and optional operands,
whose operands are related in pairs. -/
inductive SameForm (Q : Node → Node → Prop) : Node → Node → Prop
  | var (name : Text) : SameForm Q (.var name) (.var name)
  | unary (op : UnaryOp) {a a' : Node} (ha : Q a a') : SameForm Q (.unary op a) (.unary op a')
  | binary (op : BinaryOp) {a b a' b' : Node} (ha : Q a a') (hb : Q b b') :
      SameForm Q (.binary op a b) (.binary op a' b')
  | compare {subject subject' : Node} {links links' : List (CompareOp × Node)}
      (hsubject : Q subject subject') (hops : links.map Prod.fst = links'.map Prod.fst)
      (hlinks : Forall₂ Q (links.map Prod.snd) (links'.map Prod.snd)) :
      SameForm Q (.compare subject links) (.compare subject' links')
  | logical (junction : Junction) {ns ns' : List Node} (hns : Forall₂ Q ns ns') :
      SameForm Q (.logical junction ns) (.logical junction ns')
  | cond {a b c a' b' c' : Node} (ha : Q a a') (hb : Q b b') (hc : Q c c') :
      SameForm Q (.cond a b c) (.cond a' b' c')
  | collection (kind : CollectionKind) {ns ns' : List Node} (hns : Forall₂ Q ns ns') :
      SameForm Q (.collection kind ns) (.collection kind ns')
  | subscript {a b a' b' : Node} (ha : Q a a') (hb : Q b b') :
      SameForm Q (.subscript a b) (.subscript a' b')
  | sliceObj {a b c a' b' c' : Option Node} (ha : Option.Rel Q a a') (hb : Option.Rel Q b b')
      (hc : Option.Rel Q c c') : SameForm Q (.sliceObj a b c) (.sliceObj a' b' c')
  | slice {base base' : Node} {a b c a' b' c' : Option Node} (hbase : Q base base')
      (ha : Option.Rel Q a a') (hb : Option.Rel Q b b') (hc : Option.Rel Q c c') :
      SameForm Q (.slice base a b c) (.slice base' a' b' c')
  | attr (name : Text) {a a' : Node} (ha : Q a a') : SameForm Q (.attr a name) (.attr a' name)
  | call (method : Bool) {callee callee' : Node} {args args' : List Node}
      {star star' doubleStar doubleStar' : Option Node} {keywords keywords' : List (Text × Node)}
      (hcallee : Q callee callee') (hargs : Forall₂ Q args args') (hstar : Option.Rel Q star star')
      (hnames : keywords.map Prod.fst = keywords'.map Prod.fst)
      (hkeywords : Forall₂ Q (keywords.map Prod.snd) (keywords'.map Prod.snd))
      (hdoubleStar : Option.Rel Q doubleStar doubleStar') :
      SameForm Q (.call callee args star keywords doubleStar method)
        (.call callee' args' star' keywords' doubleStar' method)
  | store (name : Text) {a a' : Node} (ha : Q a a') : SameForm Q (.store name a) (.store name a')
  | sequence {ns ns' : List Node} (hns : Forall₂ Q ns ns') :
      SameForm Q (.sequence ns) (.sequence ns')
  | next {a a' : Node} (ha : Q a a') : SameForm Q (.next a) (.next a')

namespace SameForm

variable {Q Q' : Node → Node → Prop} {n m : Node}

theorem children (h : SameForm Q n m) : Forall₂ Q n.children m.children := by
  cases h with
  | var name => exact .nil
  | unary _ ha | attr _ ha | store _ ha | next ha => exact .cons ha .nil
  | binary _ ha hb | subscript ha hb => exact .cons ha (.cons hb .nil)
  | compare hsubject _ hlinks => exact .cons hsubject hlinks
  | logical _ hns | collection _ hns | sequence hns => exact hns
  | cond ha hb hc => exact .cons ha (.cons hb (.cons hc .nil))
  | sliceObj ha hb hc =>
    simp only [Node.children, present_cons, present_nil, append_nil]
    exact rel_append (rel_toList ha) (rel_append (rel_toList hb) (rel_toList hc))
  | slice hbase ha hb hc =>
    simp only [Node.children, present_cons, present_nil, append_nil]
    exact .cons hbase (rel_append (rel_toList ha) (rel_append (rel_toList hb) (rel_toList hc)))
  | call _ hcallee hargs hstar _ hkeywords hdoubleStar =>
    simp only [Node.children, present_cons, present_nil, append_nil]
    exact rel_append (rel_append (rel_append (.cons hcallee hargs) (rel_toList hstar))
      hkeywords) (rel_toList hdoubleStar)

/-- The operands may be related in another way. -/
theorem of_children (h : SameForm Q n m) (hchildren : Forall₂ Q' n.children m.children) :
    SameForm Q' n m := by
  cases h with
  | var name => exact .var name
  | unary op _ => exact .unary op (forall₂_cons.mp hchildren).1
  | attr name _ => exact .attr name (forall₂_cons.mp hchildren).1
  | store name _ => exact .store name (forall₂_cons.mp hchildren).1
  | next _ => exact .next (forall₂_cons.mp hchildren).1
  | binary op _ _ =>
    obtain ⟨ha, hrest⟩ := forall₂_cons.mp hchildren
    exact .binary op ha (forall₂_cons.mp hrest).1
  | subscript _ _ =>
    obtain ⟨ha, hrest⟩ := forall₂_cons.mp hchildren
    exact .subscript ha (forall₂_cons.mp hrest).1
  | compare _ hops _ =>
    obtain ⟨hsubject, hlinks⟩ := forall₂_cons.mp hchildren
    exact .compare hsubject hops hlinks
  | logical junction _ => exact .logical junction hchildren
  | collection kind _ => exact .collection kind hchildren
  | sequence _ => exact .sequence hchildren
  | cond _ _ _ =>
    obtain ⟨ha, hrest⟩ := forall₂_cons.mp hchildren
    obtain ⟨hb, hrest'⟩ := forall₂_cons.mp hrest
    exact .cond ha hb (forall₂_cons.mp hrest').1
  | sliceObj ha hb hc =>
    simp only [Node.children, present_cons, present_nil, append_nil,
      forall₂_append (length_toList ha), forall₂_append (length_toList hb)] at hchildren
    exact .sliceObj (rel_of_toList ha hchildren.1) (rel_of_toList hb hchildren.2.1)
      (rel_of_toList hc hchildren.2.2)
  | slice _ ha hb hc =>
    simp only [Node.children, present_cons, present_nil, append_nil, forall₂_cons,
      forall₂_append (length_toList ha), forall₂_append (length_toList hb)] at hchildren
    exact .slice hchildren.1 (rel_of_toList ha hchildren.2.1) (rel_of_toList hb hchildren.2.2.1)
      (rel_of_toList hc hchildren.2.2.2)
  | call method _ hargs hstar hnames hkeywords hdoubleStar =>
    simp only [Node.children, present_cons, present_nil, append_nil, cons_append,
      append_assoc, forall₂_cons, forall₂_append hargs.length_eq,
      forall₂_append (length_toList hstar), forall₂_append hkeywords.length_eq] at hchildren
    obtain ⟨hcallee, hargs', hstar', hkeywords', hdoubleStar'⟩ := hchildren
    exact .call method hcallee hargs' (rel_of_toList hstar hstar') hnames hkeywords'
      (rel_of_toList hdoubleStar hdoubleStar')

theorem imp_mem (h : SameForm Q n m) (himp : ∀ a ∈ n.children, ∀ b ∈ m.children, Q a b → Q' a b) :
    SameForm Q' n m :=
  h.of_children (forall₂_imp_mem h.children himp)

theorem constant?_eq (h : SameForm Q n m) : n.constant? = none ∧ m.constant? = none := by
  cases h <;> exact ⟨rfl, rfl⟩

/-- Every expression but a constant is like itself, if its operands are related to themselves. -/
theorem refl (hconst : n.constant? = none) (hchildren : ∀ a ∈ n.children, Q a a) :
    SameForm Q n n := by
  have hself : ∀ a : Option Node, Option.Rel (fun a b => a = b) a a := fun a => by
    cases a with
    | none => exact .none
    | some a => exact .some rfl
  have hlist : ∀ as : List Node, Forall₂ (fun a b => a = b) as as := fun as =>
    forall₂_same.mpr fun _ _ => rfl
  have hform : SameForm (fun a b => a = b) n n := by
    cases n with
    | const v s => cases hconst
    | var name => exact .var name
    | unary op a => exact .unary op rfl
    | binary op a b => exact .binary op rfl rfl
    | compare subject links => exact .compare rfl rfl (hlist _)
    | logical junction ns => exact .logical junction (hlist ns)
    | cond a b c => exact .cond rfl rfl rfl
    | collection kind ns => exact .collection kind (hlist ns)
    | subscript a b => exact .subscript rfl rfl
    | sliceObj a b c => exact .sliceObj (hself a) (hself b) (hself c)
    | slice base a b c => exact .slice rfl (hself a) (hself b) (hself c)
    | attr a name => exact .attr name rfl
    | call callee args star keywords doubleStar method =>
      exact .call method rfl (hlist args) (hself star) rfl (hlist _) (hself doubleStar)
    | store name a => exact .store name rfl
    | sequence ns => exact .sequence (hlist ns)
    | next a => exact .next rfl
  exact hform.of_children (forall₂_same.mpr hchildren)

end SameForm

/-! ## The same expression up to constants -/

/-- Two expressions that are the same, apart from constants, whose values are related. -/
inductive Matches (R : Value → Value → Prop) : Node → Node → Prop
  | const {v w : Value} {s t : Text} (hvalue : R v w) : Matches R (.const v s) (.const w t)
  | operands {n m : Node} (hform : SameForm (Matches R) n m) : Matches R n m

/-- The values of the constants in an expression, in the order of the text. -/
def constants (n : Node) : List Value := n.subexpressions.filterMap constant?

theorem constants_eq (n : Node) :
    n.constants = n.constant?.toList ++ n.children.flatMap constants := by
  have hflat : ∀ ns : List Node, (ns.flatMap subexpressions).filterMap constant? =
      ns.flatMap constants := by
    intro ns
    induction ns with
    | nil => rfl
    | cons n ns ih => rw [flatMap_cons, flatMap_cons, filterMap_append, ih, constants]
  rw [constants, subexpressions_eq, filterMap_cons, hflat]
  cases n.constant? <;> rfl

namespace Matches

variable {R S : Value → Value → Prop} {m : Node}

theorem constants (n : Node) : ∀ m, n.Matches R m → Forall₂ R n.constants m.constants := by
  induction n using descent with
  | h n ih _ =>
    intro m hmatches
    cases hmatches with
    | const hvalue => exact .cons hvalue .nil
    | operands hform =>
      have hparts : Forall₂ (fun a b => Forall₂ R a.constants b.constants) n.children m.children :=
        forall₂_imp_mem hform.children fun a ha b _ => ih a ha b
      rw [constants_eq, constants_eq, hform.constant?_eq.1, hform.constant?_eq.2]
      exact rel_flatMap hparts fun _ _ h => h

/-- The constants may be related in another way. -/
theorem of_constants (n : Node) : ∀ m, n.Matches R m → Forall₂ S n.constants m.constants →
    n.Matches S m := by
  induction n using descent with
  | h n ih _ =>
    intro m hmatches hconstants
    cases hmatches with
    | const hvalue =>
      cases hconstants with
      | cons hfirst _ => exact .const hfirst
    | operands hform =>
      rw [constants_eq, constants_eq, hform.constant?_eq.1, hform.constant?_eq.2] at hconstants
      have hlengths : Forall₂ (fun a b => a.constants.length = b.constants.length)
          n.children m.children :=
        hform.children.imp fun a b hab => (constants a b hab).length_eq
      have hparts := forall₂_of_flatMap hlengths hconstants
      have hboth := Forall₂.mp (fun a b hab hparts => (⟨hab, hparts⟩ :
        a.Matches R b ∧ Forall₂ S a.constants b.constants)) hform.children hparts
      exact .operands (hform.of_children
        (forall₂_imp_mem hboth fun a ha b _ hab => ih a ha b hab.1 hab.2))

theorem refl (hR : ∀ v, R v v) (n : Node) : n.Matches R n := by
  induction n using descent with
  | h n ih _ =>
    cases n with
    | const v s => exact .const (hR v)
    | _ => exact .operands (.refl rfl ih)

theorem lastEffect_eq {ns ms : List Node} (h : Forall₂ (fun a b => a.effect = b.effect) ns ms) :
    lastEffect ns = lastEffect ms := by
  induction h with
  | nil => rfl
  | cons hfirst hothers ih =>
    cases hothers with
    | nil => exact hfirst
    | cons hsecond hmore => exact ih

theorem effect_eq (n : Node) : ∀ m, n.Matches R m → n.effect = m.effect := by
  induction n using descent with
  | h n ih _ =>
    intro m hmatches
    cases hmatches with
    | const hvalue => rfl
    | operands hform =>
      have heffects := forall₂_imp_mem hform.children fun a ha b _ => ih a ha b
      cases hform with
      | sequence hns => exact lastEffect_eq heffects
      | _ => rfl

end Matches

end ExprBackend.Node
