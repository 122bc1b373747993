import ExprBackend.Proofs.ValueEquality

/-! # The order of values is consistent

Not all values are ordered, and sequences are ordered by the first items that differ,
so items behind these need not be. Where values are ordered, the order is total and
agrees with equality: it is turned around with its arguments, it goes on from one value
to the next, so that the values at the ends are ordered too, and it stays the same when
a value is replaced by an equal one.
-/

namespace ExprBackend

open List

/-- A partial order, which may fail or have no end, is consistent with an equality on everything
with a property. -/
structure OrderOn {α ε : Type} (P : α → Prop) (equal : α → α → Option Bool)
    (order : α → α → Option (Except ε Ordering)) : Prop where
  turn : ∀ {a b o}, P a → P b → order a b = some (.ok o) →
    order b a = some (.ok o.swap) ∧ (o = .eq ↔ equal a b = some true)
  trans : ∀ {a b c o o'}, P a → P b → P c → order a b = some (.ok o) → order b c = some (.ok o') →
    o.isLE = true → o'.isLE = true →
    ∃ p, order a c = some (.ok p) ∧ p.isLE = true ∧ (p = .eq → o = .eq ∧ o' = .eq)
  congr : ∀ {a a' b b'}, P a → P a' → P b → P b' → equal a a' = some true → equal b b' = some true →
    order a b = order a' b'

namespace OrderOn

/-- The order of scalars is consistent with their equality. -/
theorem compare {α ε : Type} [Ord α] [BEq α] [LawfulBEq α] [Std.TransOrd α] [Std.LawfulEqOrd α] :
    OrderOn (fun _ => True) (fun a b => some (a == b))
      (fun a b : α => some (.ok (Ord.compare a b) : Except ε Ordering)) where
  turn _ _ h := by
    cases h
    simp only [Std.LawfulEqOrd.compare_eq_iff_eq, Option.some.injEq, beq_iff_eq]
    exact ⟨congrArg Except.ok Std.OrientedCmp.eq_swap, trivial⟩
  trans {a b c o o'} _ _ _ h h' hle hle' := by
    cases h
    cases h'
    refine ⟨_, rfl, Std.TransOrd.isLE_trans hle hle', fun heq => ?_⟩
    -- What is not above and not below is equal.
    obtain rfl := Std.LawfulEqOrd.eq_of_compare heq
    have hswap : Ord.compare b a = (Ord.compare a b).swap := Std.OrientedOrd.eq_swap
    rw [hswap] at hle' ⊢
    cases hab : Ord.compare a b <;> simp_all
  congr _ _ _ _ ha hb := by
    rw [eq_of_beq (Option.some.inj ha), eq_of_beq (Option.some.inj hb)]

variable {P : Value → Prop} {equal : Value → Value → Option Bool}
  {inner : Value → Value → Option (Except RuntimeError Ordering)}

/-- The order of sequences is consistent if that of their items is. -/
theorem items (he : EquivOn P equal) (h : OrderOn P equal inner) :
    OrderOn (fun vs => ∀ v ∈ vs, P v) (View.equalItems equal) (View.orderItems equal inner) where
  turn {as bs o} has hbs hord := by
    rw [View.equalItems_iff]
    induction as generalizing bs with
    | nil => cases bs <;> cases hord <;> simp [View.orderItems]
    | cons a as ih =>
      cases bs with
      | nil =>
        cases hord
        simp [View.orderItems]
      | cons b bs =>
        obtain ⟨ha, has⟩ := forall_mem_cons.mp has
        obtain ⟨hb, hbs⟩ := forall_mem_cons.mp hbs
        rw [View.orderItems] at hord ⊢
        rw [he.comm hb ha, forall₂_cons]
        rcases heq : equal a b with _ | _ | _ <;> rw [heq] at hord
        · cases hord
        · obtain ⟨hswap, hzero⟩ := h.turn ha hb hord
          exact ⟨hswap, hzero.trans ⟨fun hab => absurd (heq.symm.trans hab) (by simp), by simp⟩⟩
        · obtain ⟨hswap, hzero⟩ := ih has hbs hord
          exact ⟨hswap, hzero.trans (and_iff_right rfl).symm⟩
  congr {as as' bs bs'} has has' hbs hbs' ha hb := by
    rw [View.equalItems_iff] at ha hb
    induction ha generalizing bs bs' with
    | nil => cases hb <;> rfl
    | @cons a a' as as' haa' hrest ih =>
      cases hb with
      | nil => rfl
      | @cons b b' bs bs' hbb' hrest' =>
        obtain ⟨ha, has⟩ := forall_mem_cons.mp has
        obtain ⟨ha', has'⟩ := forall_mem_cons.mp has'
        obtain ⟨hb, hbs⟩ := forall_mem_cons.mp hbs
        obtain ⟨hb', hbs'⟩ := forall_mem_cons.mp hbs'
        rw [View.orderItems, View.orderItems, he.congr ha ha' hb hb' haa' hbb',
          h.congr ha ha' hb hb' haa' hbb', ih has has' hbs hbs' hrest']
  trans {as bs cs o o'} has hbs hcs hab hbc hle hle' := by
    induction as generalizing bs cs with
    | nil =>
      cases bs with
      | nil =>
        cases hab
        exact ⟨o', hbc, hle', fun heq => ⟨rfl, heq⟩⟩
      | cons b bs =>
        cases cs with
        | nil =>
          cases hbc
          cases hle'
        | cons c cs => exact ⟨.lt, rfl, rfl, by simp⟩
    | cons a as ih =>
      cases bs with
      | nil =>
        cases hab
        cases hle
      | cons b bs =>
        cases cs with
        | nil =>
          cases hbc
          cases hle'
        | cons c cs =>
          obtain ⟨ha, has⟩ := forall_mem_cons.mp has
          obtain ⟨hb, hbs⟩ := forall_mem_cons.mp hbs
          obtain ⟨hc, hcs⟩ := forall_mem_cons.mp hcs
          rw [View.orderItems] at hab hbc ⊢
          -- The items at the ends are equal if both pairs are, and else the first pair that differs
          -- decides.
          rcases hfirst : equal a b with _ | _ | _ <;> rw [hfirst] at hab
          · cases hab
          · have hne : ¬equal a b = some true := by simp [hfirst]
            rcases hsecond : equal b c with _ | _ | _ <;> rw [hsecond] at hbc
            · cases hbc
            · have hne' : ¬equal b c = some true := by simp [hsecond]
              obtain ⟨p, hp, hple, hpeq⟩ := h.trans ha hb hc hab hbc hle hle'
              have hnot : ¬equal a c = some true := fun hac =>
                hne ((h.turn ha hb hab).2.mp (hpeq ((h.turn ha hc hp).2.mpr hac)).1)
              obtain ⟨same, hsame⟩ := Option.isSome_iff_exists.mp (he.total a c ha)
              obtain rfl : same = false := by simpa [hsame] using hnot
              rw [hsame]
              exact ⟨p, hp, hple, hpeq⟩
            · rw [← he.congr ha ha hb hc (he.refl a ha) hsecond, hfirst,
                ← h.congr ha ha hb hc (he.refl a ha) hsecond]
              exact ⟨o, hab, hle, fun hzero => absurd ((h.turn ha hb hab).2.mp hzero) hne⟩
          · rw [he.congr ha hb hc hc hfirst (he.refl c hc)]
            rcases hsecond : equal b c with _ | _ | _ <;> rw [hsecond] at hbc
            · cases hbc
            · have hne' : ¬equal b c = some true := by simp [hsecond]
              dsimp only
              rw [h.congr ha hb hc hc hfirst (he.refl c hc)]
              exact ⟨o', hbc, hle', fun hzero => absurd ((h.turn hb hc hbc).2.mp hzero) hne'⟩
            · exact ih has hbs hcs hab hbc

end OrderOn

/-! ## Views and values -/

namespace View

variable {P : Value → Prop} {key? : Value → Option Text} {equal : Value → Value → Option Bool}
  {inner : Value → Value → Option (Except RuntimeError Ordering)} {a b : View}

/-- The views that are ordered, if they show no floating point numbers. -/
inductive Ordered : View → View → Prop
  | bool (x y : Bool) : Ordered (.bool x) (.bool y)
  | int (x y : Int64) : Ordered (.int x) (.int y)
  | str (x y : Text) : Ordered (.str x) (.str y)
  | list (r s : Ref) (xs ys : List Value) : Ordered (.list r xs) (.list s ys)
  | tuple (xs ys : List Value) : Ordered (.tuple xs) (.tuple ys)

theorem ordered_of_ok {o : Ordering} (ha : a.Fit key? P) (hb : b.Fit key? P)
    (h : a.order equal inner b = some (.ok o)) : Ordered a b := by
  cases a with
  | float f => exact absurd rfl (ha.noFloat f)
  | _ =>
    cases b with
    | float f => exact absurd rfl (hb.noFloat f)
    | _ => first | constructor | cases h

/-- Apart from the items of sequences, the order depends on the bare views. -/
theorem order_eq (equal : Value → Value → Option Bool)
    (inner : Value → Value → Option (Except RuntimeError Ordering)) (a b : View) :
    a.order equal inner b =
      if a.bare.kind = b.bare.kind ∧ (a.bare.kind = .list ∨ a.bare.kind = .tuple) then
        orderItems equal inner (a.under []) (b.under [])
      else a.bare.order equal inner b.bare := by
  cases a <;> cases b <;> rfl

/-- The order of views is consistent if that of their parts is. -/
theorem order_orderOn (he : EquivOn P equal) (h : OrderOn P equal inner) :
    OrderOn (Fit key? P) (View.equal key? equal) (View.order equal inner) where
  turn ha hb hord := by
    cases ordered_of_ok ha hb hord with
    | bool x y | int x y | str x y => exact OrderOn.compare.turn trivial trivial hord
    | list r s xs ys | tuple xs ys =>
      exact (OrderOn.items he h).turn (ha.parts []) (hb.parts []) hord
  trans ha hb hc hord hord' := by
    cases ordered_of_ok ha hb hord with
    | bool x y | int x y | str x y =>
      cases ordered_of_ok hb hc hord'
      exact OrderOn.compare.trans trivial trivial trivial hord hord'
    | list r s xs ys | tuple xs ys =>
      cases ordered_of_ok hb hc hord'
      exact (OrderOn.items he h).trans (ha.parts []) (hb.parts []) (hc.parts []) hord hord'
  congr {a a' b b'} ha ha' hb hb' haa hbb := by
    obtain ⟨hbare, hparts⟩ := (equal_iff ha ha').mp haa
    obtain ⟨hbare', hparts'⟩ := (equal_iff hb hb').mp hbb
    rw [order_eq equal inner a b, order_eq equal inner a' b', hbare, hbare',
      (OrderOn.items he h).congr (ha.parts []) (ha'.parts []) (hb.parts [])
        (hb'.parts []) (hparts []) (hparts' [])]

end View

namespace Heap

variable {h : Heap} {a b c : Value}

theorem Plain.fit (ha : h.Plain a) : (h.view a).Fit h.key? h.Plain := by
  obtain ⟨k, hk⟩ := Nat.exists_eq_add_of_lt h.levels_lt_pairLevels
  have hseen := ha.seen
  rw [hk] at hseen
  exact ⟨hseen.fit.noFloat, hseen.fit.keyed, fun hash u hu => (hseen.fit.parts hash u hu).toPlain⟩

/-- One more level does not change whether values are equal. -/
theorem Plain.equal_view (ha : h.Plain a) (hb : h.Plain b) :
    (h.view a).equal h.key? h.equal (h.view b) = h.equal a b :=
  ha.seen.like.equalTo hb.seen.like (Nat.le_succ _) (Nat.le_refl _)

theorem orderTo_orderOn (h : Heap) (level : Nat) : OrderOn h.Plain h.equal (h.orderTo level) := by
  induction level with
  | zero =>
    exact ⟨fun _ _ hord => (by cases hord), fun _ _ _ hord => (by cases hord),
      fun _ _ _ _ _ _ => rfl⟩
  | succ level ih =>
    have hviews : OrderOn (View.Fit h.key? h.Plain) _ _ := View.order_orderOn h.equal_equivOn ih
    refine ⟨fun ha hb hord => ?_, fun ha hb hc => hviews.trans ha.fit hb.fit hc.fit,
      fun ha ha' hb hb' haa hbb => ?_⟩
    · rw [← ha.equal_view hb]
      exact hviews.turn ha.fit hb.fit hord
    · rw [← ha.equal_view ha'] at haa
      rw [← hb.equal_view hb'] at hbb
      exact hviews.congr ha.fit ha'.fit hb.fit hb'.fit haa hbb

/-- Where values are ordered, the order is total and agrees with equality. -/
theorem order_consistent {a' b' : Value} (ha : h.Plain a) (ha' : h.Plain a') (hb : h.Plain b)
    (hb' : h.Plain b') (hc : h.Plain c) :
    (h.order a b).isSome = true ∧
      (∀ o, h.order a b = some (.ok o) →
        h.order b a = some (.ok o.swap) ∧ (o = .eq ↔ h.equal a b = some true)) ∧
      (∀ o o', h.order a b = some (.ok o) → h.order b c = some (.ok o') → o.isLE = true →
        o'.isLE = true →
        ∃ p, h.order a c = some (.ok p) ∧ p.isLE = true ∧ (p = .eq → o = .eq ∧ o' = .eq)) ∧
      (h.equal a a' = some true → h.equal b b' = some true → h.order a b = h.order a' b') ∧
      ∀ v, (Run.compare .lt a b h).1 = .ok v → ∃ below same above : Bool,
        Run.compare .lt a b h = (.ok (.bool below), h) ∧
        Run.compare .eq a b h = (.ok (.bool same), h) ∧
        Run.compare .gt a b h = (.ok (.bool above), h) ∧ [below, same, above].count true = 1 := by
  have horder := h.orderTo_orderOn h.pairLevels
  have hends : (h.order a b).isSome = true := order_isSome ha.seen.like.within b
  refine ⟨hends, fun o => horder.turn ha hb, fun o o' => horder.trans ha hb hc,
    horder.congr ha ha' hb hb', fun v hv => ?_⟩
  obtain ⟨result, hresult⟩ := Option.isSome_iff_exists.mp hends
  have htest : ∀ symbol test, Run.compareOrder symbol test a b h =
      ((result.map fun o => .bool (test o)).mapError fun _ =>
        .runtime (.operands symbol [a.kind, b.kind]), h) := by
    intro symbol test
    rw [Run.compareOrder, bind_apply, get_apply]
    dsimp only
    rw [hresult]
    cases result <;> rfl
  have hlt : Run.compare .lt a b h = _ := htest _ _
  have hgt : Run.compare .gt a b h = _ := htest _ _
  rw [hlt] at hv
  cases result with
  | error e => cases hv
  | ok o =>
    have hequal : o = .eq ↔ h.equal a b = some true := (horder.turn ha hb hresult).2
    obtain ⟨same, hsame⟩ := Option.isSome_iff_exists.mp (h.equal_equivOn.total a b ha)
    have heq : Run.compare .eq a b h = (.ok (.bool same), h) := by
      rw [Run.compare, bind_apply, get_apply]
      dsimp only
      rw [hsame]
      rfl
    refine ⟨_, _, _, hlt, heq, hgt, ?_⟩
    rw [hsame, Option.some_inj] at hequal
    cases o with
    | eq => simp [hequal.mp rfl]
    | lt | gt =>
      have hnot : same = false := Bool.eq_false_iff.mpr fun heq => by cases hequal.mpr heq
      simp [hnot]

/-- Two lists of one number each. -/
def twoLists : Heap where
  cells := #[.list #[.int 1], .list #[.int 2]]

theorem plain_twoLists {r : Ref} (hr : r = 0 ∨ r = 1) : twoLists.Plain (.list r) := by
  have hitems : ∀ u, twoLists.Contains (.list r) u → u ∈ [.list r, .int 1, .int 2] := by
    rcases hr with rfl | rfl <;> exact fun u hu => hu.mem (by decide) (by simp)
  refine ⟨fun f hf => by simpa using hitems _ hf, Window.LikeBy.like ?_,
    fun s hs => absurd (hitems _ hs) (by simp)⟩
  rcases hr with rfl | rfl <;>
    exact .list ⟨rfl, nofun⟩ ⟨rfl, nofun⟩ (.cons ⟨1, .int _⟩ .nil)

theorem order_consistent_twoLists : twoLists.order (.list 0) (.list 1) = some (.ok .lt) ∧
    twoLists.order (.list 1) (.list 0) = some (.ok .gt) ∧
    twoLists.equal (.list 0) (.list 1) = some false := by
  have hone := plain_twoLists (.inl rfl)
  have htwo := plain_twoLists (.inr rfl)
  obtain ⟨-, hturn, -⟩ := order_consistent hone hone htwo htwo hone
  have hlt : twoLists.order (.list 0) (.list 1) = some (.ok .lt) := by decide +kernel
  obtain ⟨hswap, hequal⟩ := hturn .lt hlt
  refine ⟨hlt, hswap, ?_⟩
  obtain ⟨same, hsame⟩ := Option.isSome_iff_exists.mp
    (twoLists.equal_equivOn.total _ (.list 1) hone)
  cases same with
  | true => exact absurd (hequal.mpr hsame) (by decide)
  | false => exact hsame

end Heap

end ExprBackend
