import ExprBackend.Proofs.CanonicalKeys
import ExprBackend.Proofs.EndlessComparison

/-! # Equality of values is an equivalence

Sequences and slices are equal part by part. Dictionaries are equal if they have equal
values under the same keys: with as many keys on both sides, and each key of the one
among those of the other, no key is left over. So on values without floating point
numbers that do not contain themselves, equality is an equivalence, level by level.
-/

namespace ExprBackend

open List

/-- A test, which may have no end, is an equivalence on everything with a property. -/
structure EquivOn {α : Type} (P : α → Prop) (equal : α → α → Option Bool) : Prop where
  total : ∀ a b, P a → (equal a b).isSome = true
  refl : ∀ a, P a → equal a a = some true
  symm : ∀ a b, P a → P b → equal a b = some true → equal b a = some true
  trans : ∀ a b c, P a → P b → P c → equal a b = some true → equal b c = some true →
    equal a c = some true

namespace EquivOn

variable {α : Type} {P : α → Prop} {equal : α → α → Option Bool} {a b c : α}

theorem ext_true {x y : Option Bool} (hx : x.isSome = true) (hy : y.isSome = true)
    (h : x = some true ↔ y = some true) : x = y := by
  rcases x with _ | _ | _ <;> rcases y with _ | _ | _ <;> simp_all

theorem comm (h : EquivOn P equal) (ha : P a) (hb : P b) : equal a b = equal b a :=
  ext_true (h.total a b ha) (h.total b a hb) ⟨h.symm a b ha hb, h.symm b a hb ha⟩

/-- Equal arguments may take each other's place. -/
theorem congr {a' b' : α} (h : EquivOn P equal) (ha : P a) (ha' : P a') (hb : P b) (hb' : P b')
    (haa : equal a a' = some true) (hbb : equal b b' = some true) : equal a b = equal a' b' :=
  ext_true (h.total a b ha) (h.total a' b' ha')
    ⟨fun hab => h.trans a' b b' ha' hb hb'
      (h.trans a' a b ha' ha hb (h.symm a a' ha ha' haa) hab) hbb,
      fun hab => h.trans a b' b ha hb' hb (h.trans a a' b' ha ha' hb' haa hab)
        (h.symm b b' hb hb' hbb)⟩

/-- An equivalence goes on to sequences, item by item. -/
theorem items {P : Value → Prop} {equal : Value → Value → Option Bool} (h : EquivOn P equal) :
    EquivOn (fun vs => ∀ v ∈ vs, P v) (View.equalItems equal) where
  total vs ws hvs := View.equalItems_isSome fun v hv w => h.total v w (hvs v hv)
  refl vs hvs := View.equalItems_iff.mpr (forall₂_same.mpr fun v hv => h.refl v (hvs v hv))
  symm vs ws hvs hws heq := by
    have hsymm := Node.forall₂_imp_mem (View.equalItems_iff.mp heq) fun v hv w hw =>
      h.symm v w (hvs v hv) (hws w hw)
    exact View.equalItems_iff.mpr hsymm.flip
  trans us vs ws hus hvs hws heq heq' := by
    have hfirst := Node.forall₂_imp_mem (View.equalItems_iff.mp heq) fun u hu v hv huv =>
      And.intro (hus u hu) (And.intro (hvs v hv) huv)
    have hsecond := Node.forall₂_imp_mem (View.equalItems_iff.mp heq') fun v hv w hw hvw =>
      And.intro (hws w hw) hvw
    exact View.equalItems_iff.mpr (Window.forall₂_comp hfirst hsecond fun u v w huv hvw =>
      h.trans u v w huv.1 huv.2.1 hvw.1 huv.2.2 hvw.2)

end EquivOn

/-! ## Views -/

namespace View

/-- A view without its parts. -/
def bare : View → View
  | .list _ _ => .list 0 []
  | .tuple _ => .tuple []
  | .dict _ _ => .dict 0 .empty
  | .slice _ _ _ => .slice .none .none .none
  | .function r _ => .function r []
  | .object r _ => .object r []
  | v => v

variable {key? : Value → Option Text} {inner : Value → Value → Option Bool} {P : Value → Prop}
  {d e : Dict} {a b : View}

/-- Dictionaries are equal if they have equal values under the same canonical texts. -/
theorem equalEntries_iff (hkeyed : ∀ entry ∈ d.entries, key? entry.key = some entry.hash) :
    equalEntries key? inner d e = some true ↔
      ∀ hash, equalItems inner (d.find? hash).toList (e.find? hash).toList = some true := by
  have hlength : ∀ d : Dict, d.hashes.length = d.size := fun d => by
    simp [Dict.hashes, Dict.entries, Dict.size_eq]
  have hone : ∀ entry ∈ d.entries,
      ((key? entry.key).bind e.find?).elim (some false) (inner entry.value) = some true ↔
      equalItems inner (d.find? entry.hash).toList (e.find? entry.hash).toList = some true := by
    intro entry hentry
    rw [hkeyed entry hentry, Dict.find?_eq_some_iff.mpr ⟨entry, hentry, rfl, rfl⟩]
    cases hfind : e.find? entry.hash <;> simp [equalItems_iff, hfind]
  have hboth : ∀ hash, equalItems inner (d.find? hash).toList (e.find? hash).toList = some true →
      (hash ∈ d.hashes ↔ hash ∈ e.hashes) := by
    intro hash hequal
    rw [← Dict.find?_isSome_iff, ← Dict.find?_isSome_iff]
    cases hfind : d.find? hash <;> cases hfind' : e.find? hash <;>
      simp [hfind, hfind', equalItems_iff] at *
  rw [equalEntries]
  constructor
  · intro hequal hash
    split at hequal
    next hsize =>
      have hfound : ∀ hash ∈ d.hashes,
          equalItems inner (d.find? hash).toList (e.find? hash).toList = some true := by
        intro hash hhash
        obtain ⟨entry, hentry, rfl⟩ := mem_map.mp hhash
        exact (hone entry hentry).mp (allM_eq_true_iff.mp hequal entry hentry)
      -- Every text of the first dictionary is one of the second, which has as many and so no
      -- others.
      have hperm : d.hashes.Perm e.hashes :=
        (d.nodup_hashes.subperm fun hash hhash =>
          (hboth hash (hfound hash hhash)).mp hhash).perm_of_length_le
          (by rw [hlength, hlength, eq_of_beq hsize])
      by_cases hhash : hash ∈ d.hashes
      · exact hfound hash hhash
      · have hnone : ∀ {d : Dict}, hash ∉ d.hashes → d.find? hash = Option.none := fun hnot =>
          Option.not_isSome_iff_eq_none.mp (mt Dict.find?_isSome_iff.mp hnot)
        rw [hnone hhash, hnone fun hmem => hhash (hperm.mem_iff.mpr hmem)]
        rfl
    next => cases hequal
  · intro hall
    have hperm := (perm_ext_iff_of_nodup d.nodup_hashes e.nodup_hashes).mpr fun hash =>
      hboth hash (hall hash)
    rw [if_pos (by rw [← hlength, ← hlength, hperm.length_eq, beq_self_eq_true])]
    exact allM_eq_true_iff.mpr fun entry hentry => (hone entry hentry).mpr (hall entry.hash)

/-- A view shows no floating point number, the texts of a dictionary are those of its keys, and all
parts have a property. -/
structure Fit (key? : Value → Option Text) (P : Value → Prop) (v : View) : Prop where
  noFloat : ∀ f, v ≠ .float f
  keyed : ∀ r d, v = .dict r d → ∀ entry ∈ d.entries, key? entry.key = some entry.hash
  parts : ∀ hash, ∀ u ∈ v.under hash, P u

theorem equal_iff (ha : a.Fit key? P) (hb : b.Fit key? P) : a.equal key? inner b = some true ↔
    a.bare = b.bare ∧ ∀ hash, equalItems inner (a.under hash) (b.under hash) = some true := by
  cases a with
  | float f => exact absurd rfl (ha.noFloat f)
  | dict r d =>
    cases b with
    | dict s e =>
      simp [equal, bare, under, equalEntries_iff (ha.keyed r d rfl)]
    | float f => exact absurd rfl (hb.noFloat f)
    | _ => simp [equal, bare]
  | _ =>
    cases b with
    | float f => exact absurd rfl (hb.noFloat f)
    | _ => simp [equal, bare, under, equalItems_iff]

/-- An equivalence of parts is one of views. -/
theorem equal_equivOn (h : EquivOn P inner) : EquivOn (Fit key? P) (equal key? inner) where
  total a b ha := equal_isSome fun hash u hu w => h.total u w (ha.parts hash u hu)
  refl a ha := (equal_iff ha ha).mpr ⟨rfl, fun hash => h.items.refl _ (ha.parts hash)⟩
  symm a b ha hb hab := by
    obtain ⟨hbare, hparts⟩ := (equal_iff ha hb).mp hab
    exact (equal_iff hb ha).mpr ⟨hbare.symm, fun hash =>
      h.items.symm _ _ (ha.parts hash) (hb.parts hash) (hparts hash)⟩
  trans a b c ha hb hc hab hbc := by
    obtain ⟨hbare, hparts⟩ := (equal_iff ha hb).mp hab
    obtain ⟨hbare', hparts'⟩ := (equal_iff hb hc).mp hbc
    exact (equal_iff ha hc).mpr ⟨hbare.trans hbare', fun hash => h.items.trans _ _ _ (ha.parts hash)
      (hb.parts hash) (hc.parts hash) (hparts hash) (hparts' hash)⟩

end View

/-! ## Values that do not contain themselves -/

/-- What a view shows is related to something if the view is like another. -/
theorem View.Like.under {R : Value → Value → Prop} {a b : View} (h : a.Like R b) (hash : Text) :
    ∀ u ∈ a.under hash, ∃ w, R u w := by
  cases h with
  | list hitems | tuple hitems => exact Node.exists_of_forall₂ hitems
  | slice hstart hstop hstep =>
    exact Node.exists_of_forall₂ (.cons hstart (.cons hstop (.cons hstep .nil)))
  | dict hentries =>
    intro u hu
    rw [View.under, Dict.find?_eq, Option.mem_toList] at hu
    obtain ⟨e, hfind, rfl⟩ := Option.map_eq_some_iff.mp hu
    obtain ⟨e', hentry⟩ := Node.exists_of_forall₂ hentries e (mem_of_find?_eq_some hfind)
    exact ⟨_, hentry.value⟩
  | _ => exact fun u hu => absurd hu not_mem_nil

namespace Heap

variable {h : Heap} {v w u : Value} {level : Nat}

/-- A value without floating point numbers, all of which is in the heap, so that it does not contain
itself, and in which dictionaries are filled key by key. -/
structure Plain (h : Heap) (v : Value) : Prop where
  floatFree : h.FloatFree v
  whole : Window.Like h.window h.window v v
  filled : ∀ r, h.Contains v (.dict r) → ∃ calls, h.dict r = .ofSets (h.settings calls)

/-- All of such a value is seen on so many levels. -/
structure Seen (h : Heap) (level : Nat) (v : Value) : Prop extends h.Plain v where
  like : Window.LikeTo h.window h.window level v v

theorem Plain.seen (hv : h.Plain v) : h.Seen h.pairLevels v := by
  obtain ⟨level, hlevel⟩ := hv.whole
  exact ⟨hv, hlevel.of_within (hlevel.within.levels.mono h.levels_lt_pairLevels.le)⟩

theorem Seen.of_mem (hv : h.Seen (level + 1) v) (hu : u ∈ h.contents v)
    (hlike : Window.LikeTo h.window h.window level u w) : h.Seen level u where
  floatFree := hv.floatFree.of_mem hu
  whole := ⟨level, hlike.trans hlike.symm⟩
  filled r hr := hv.filled r (.head hu hr)
  like := hlike.trans hlike.symm

theorem Seen.fit (hv : h.Seen (level + 1) v) : (h.view v).Fit h.key? (h.Seen level) := by
  have hparts : Window.LikeBy h.window h.window (fun u _ => h.Seen level u) v v :=
    Window.LikeBy.imp_contents hv.like fun u hu _ => hv.of_mem hu
  refine ⟨?_, ?_, fun hash u hu => (hparts.view.under hash u hu).choose_spec⟩
  · intro f hview
    cases v <;> cases hview
    exact hv.floatFree f .refl
  · intro r d hview
    cases v <;> cases hview
    obtain ⟨calls, hcalls⟩ := hv.filled r .refl
    rw [hcalls]
    exact Dict.keyed_ofSets h calls

/-- Equality of values is an equivalence on every level. -/
theorem equalTo_equivOn (h : Heap) (level : Nat) : EquivOn (h.Seen level) (h.equalTo level) := by
  induction level with
  | zero =>
    exact ⟨fun _ _ ha => ha.like.elim, fun _ ha => ha.like.elim, fun _ _ ha => ha.like.elim,
      fun _ _ _ ha => ha.like.elim⟩
  | succ level ih =>
    have hviews : EquivOn (View.Fit h.key? (h.Seen level)) _ := View.equal_equivOn ih
    exact ⟨fun a b ha => hviews.total _ _ ha.fit, fun a ha => hviews.refl _ ha.fit, fun a b ha hb =>
      hviews.symm _ _ ha.fit hb.fit, fun a b c ha hb hc => hviews.trans _ _ _ ha.fit hb.fit hc.fit⟩

theorem equal_equivOn (h : Heap) : EquivOn h.Plain h.equal where
  total a b ha := (h.equalTo_equivOn _).total a b ha.seen
  refl a ha := (h.equalTo_equivOn _).refl a ha.seen
  symm a b ha hb := (h.equalTo_equivOn _).symm a b ha.seen hb.seen
  trans a b c ha hb hc := (h.equalTo_equivOn _).trans a b c ha.seen hb.seen hc.seen

/-- Dictionaries with the same entries in different orders are equal. -/
theorem equalTo_of_perm {r s : Ref} (hv : h.Seen (level + 1) (.dict r))
    (hw : h.Seen (level + 1) (.dict s)) (hperm : (h.dict r).entries.Perm (h.dict s).entries) :
    h.equalTo (level + 1) (.dict r) (.dict s) = some true := by
  refine (View.equal_iff hv.fit hw.fit).mpr ⟨rfl, fun hash => ?_⟩
  have hsame : (h.dict r).find? hash = (h.dict s).find? hash := by
    ext value
    rw [Dict.find?_eq_some_iff, Dict.find?_eq_some_iff]
    simp only [hperm.mem_iff]
  have hparts := hv.fit.parts hash
  simp only [view, View.under, hsame] at hparts ⊢
  exact (h.equalTo_equivOn level).items.refl _ hparts

/-- Equality is an equivalence on values without floating point numbers that do not contain
themselves, it can always be told, and dictionaries are equal in whatever order they were filled. -/
theorem equal_equivalence {a b c : Value} (ha : h.Plain a) (hb : h.Plain b) (hc : h.Plain c) :
    h.equal a a = some true ∧ (∃ same, h.equal a b = some same ∧ h.equal b a = some same) ∧
      (h.equal a b = some true → h.equal b c = some true → h.equal a c = some true) ∧
      ∀ r s, a = .dict r → b = .dict s → (h.dict r).entries.Perm (h.dict s).entries →
        h.equal a b = some true := by
  refine ⟨h.equal_equivOn.refl a ha, ?_, h.equal_equivOn.trans a b c ha hb hc, ?_⟩
  · obtain ⟨same, hsame⟩ := Option.isSome_iff_exists.mp (h.equal_equivOn.total a b ha)
    exact ⟨same, hsame, (h.equal_equivOn.comm hb ha).trans hsame⟩
  · rintro r s rfl rfl hperm
    exact equalTo_of_perm ha.seen hb.seen hperm

/-- Two dictionaries with the same keys and values, set in different orders. -/
def twoOrders : Heap where
  cells := #[.dict ((Dict.empty.set "n1" (.int 1) (.bool true)).set "n2" (.int 2) .none),
    .dict ((Dict.empty.set "n2" (.int 2) .none).set "n1" (.int 1) (.bool true))]

theorem plain_twoOrders {r : Ref} (hr : r = 0 ∨ r = 1) : twoOrders.Plain (.dict r) := by
  have hitems : ∀ u, twoOrders.Contains (.dict r) u →
      u ∈ [.dict r, .int 1, .int 2, .bool true, .none] := by
    rcases hr with rfl | rfl <;> exact fun u hu => hu.mem (by decide) (by simp)
  have hone : Dict.Entry.Like (twoOrders.window.Like twoOrders.window) ⟨"n1", .int 1, .bool true⟩
      ⟨"n1", .int 1, .bool true⟩ := ⟨rfl, ⟨1, .int 1⟩, ⟨1, .bool true⟩⟩
  have htwo : Dict.Entry.Like (twoOrders.window.Like twoOrders.window) ⟨"n2", .int 2, .none⟩
      ⟨"n2", .int 2, .none⟩ := ⟨rfl, ⟨1, .int 2⟩, ⟨1, .none⟩⟩
  refine ⟨fun f hf => by simpa using hitems _ hf, Window.LikeBy.like ?_, fun s hs => ?_⟩
  · rcases hr with rfl | rfl
    · exact .dict ⟨rfl, nofun⟩ ⟨rfl, nofun⟩ (.cons htwo (.cons hone .nil))
    · exact .dict ⟨rfl, nofun⟩ ⟨rfl, nofun⟩ (.cons hone (.cons htwo .nil))
  · obtain rfl : s = r := by simpa using hitems _ hs
    rcases hr with rfl | rfl
    · exact ⟨[(.int 1, .bool true), (.int 2, .none)], by decide⟩
    · exact ⟨[(.int 2, .none), (.int 1, .bool true)], by decide⟩

theorem equal_equivalence_twoOrders :
    twoOrders.equal (.dict 0) (.dict 1) = some true ∧
    twoOrders.equal (.dict 1) (.dict 0) = some true := by
  obtain ⟨-, ⟨same, hsame, hsymm⟩, -, horder⟩ := equal_equivalence (plain_twoOrders (.inl rfl))
    (plain_twoOrders (.inr rfl)) (plain_twoOrders (.inl rfl))
  have hequal := horder 0 1 rfl rfl (by decide)
  exact ⟨hequal, hsymm.trans (hsame.symm.trans hequal)⟩

end Heap

end ExprBackend
