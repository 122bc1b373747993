import ExprBackend.Proofs.Correspondence
import ExprBackend.Proofs.Dictionaries
import ExprBackend.Proofs.Invocation
import ExprBackend.Proofs.Relocation

/-! # Arguments that are gathered

The code of a call with starred or keyword arguments gathers the arguments in a
list and a dictionary of its own and spreads them again for the call; the code of a
slice makes a slice object first. Evaluation does without. The cells that code makes
are out of sight for everything else, so wherever operands do the same in both, the
call comes to the same function with the same arguments.

A dictionary has every key once. So of keywords that are given more than once code
passes on the last value, at the place of the first, where evaluation passes on all.
-/

namespace ExprBackend

open List

/-! ## Dictionaries of keywords -/

variable {a a' b b' c c' v w : Value} {d : Dict} {h : Heap} {k : Keyword} {ks spread : List Keyword}
  {places : List Ref} {r : Ref} {s : EvalState} {t : Scene} {α β : Type}

namespace Keyword

/-- Keywords with one more, which takes the place of one of its name. -/
def put (ks : List Keyword) (k : Keyword) : List Keyword :=
  if ks.any (·.name == k.name) then ks.map fun other => if other.name == k.name then k else other
  else ks ++ [k]

/-- Keywords of which each is there once, at its first place and with its last value. -/
def collapse (ks : List Keyword) : List Keyword := ks.foldl put []

def names (ks : List Keyword) : List Text := ks.map Keyword.name

variable {name : Text}

theorem any_name_iff : ks.any (·.name == name) = true ↔ name ∈ names ks := by
  simp [names]

/-- Putting a keyword in the place of one of its name changes no name. -/
theorem names_replace (ks : List Keyword) (k : Keyword) :
    names (ks.map fun other => if other.name == k.name then k else other) = names ks := by
  unfold names
  rw [map_map]
  refine map_congr_left fun other _ => ?_
  rw [Function.comp_apply]
  split
  next heq => exact (eq_of_beq heq).symm
  next => rfl

theorem mem_names_put : name ∈ names (put ks k) ↔ name ∈ names ks ∨ name = k.name := by
  unfold put
  by_cases hmem : ks.any (·.name == k.name) = true
  · rw [if_pos hmem, names_replace]
    constructor
    · exact .inl
    · rintro (h | rfl)
      · exact h
      · exact any_name_iff.mp hmem
  · rw [if_neg hmem]
    simp [names]

theorem nodup_put (h : (names ks).Nodup) (k : Keyword) : (names (put ks k)).Nodup := by
  unfold put
  by_cases hmem : ks.any (·.name == k.name) = true
  · rw [if_pos hmem, names_replace]
    exact h
  · rw [if_neg hmem]
    have hnew : k.name ∉ names ks := fun hname => hmem (any_name_iff.mpr hname)
    unfold names at *
    rw [map_append, map_singleton]
    exact nodup_append'.mpr ⟨h, nodup_singleton _, by simpa using hnew⟩

theorem put_of_not_mem (h : k.name ∉ names ks) : put ks k = ks ++ [k] := by
  rw [put, if_neg fun hany => h (any_name_iff.mp hany)]

/-- Keywords with different names that are not there yet go behind the others. -/
theorem foldl_put (hnodup : (names spread).Nodup) (hnew : ∀ name ∈ names spread, name ∉ names ks) :
    spread.foldl put ks = ks ++ spread := by
  induction spread generalizing ks with
  | nil => simp
  | cons k rest ih =>
    obtain ⟨hk, hrest⟩ := nodup_cons.mp hnodup
    rw [foldl_cons, put_of_not_mem (hnew k.name mem_cons_self), ih hrest]
    · simp
    · intro name hname hmem
      rw [names, map_append, mem_append, map_singleton, mem_singleton] at hmem
      rcases hmem with hmem | rfl
      · exact hnew name (mem_cons_of_mem _ hname) hmem
      · exact hk hname

/-- Keywords with different names are each there once. -/
theorem collapse_eq_self (h : (names ks).Nodup) : collapse ks = ks := by
  rw [collapse, foldl_put h fun _ _ => not_mem_nil, nil_append]

theorem mem_names_foldl_put {rest : List Keyword} :
    name ∈ names (rest.foldl put ks) ↔ name ∈ names ks ∨ name ∈ names rest := by
  induction rest generalizing ks with
  | nil => simp [names]
  | cons k rest ih =>
    rw [foldl_cons, ih, mem_names_put]
    simp only [names, map_cons, mem_cons]
    tauto

theorem mem_names_collapse : name ∈ names (collapse ks) ↔ name ∈ names ks := by
  rw [collapse, mem_names_foldl_put]
  simp [names]

/-- Keywords as names and values in turn. -/
def spelled (ks : List Keyword) : List Value := ks.flatMap fun k => [.str k.name, k.value]

/-- The entry of a keyword in a dictionary. -/
def entry (k : Keyword) : Dict.Entry := ⟨"s" ++ Text.quote k.name, .str k.name, k.value⟩

theorem hash_inj {x y : Text} (h : ("s" : Text) ++ Text.quote x = "s" ++ Text.quote y) : x = y := by
  have hquote := append_cancel_left h
  rw [← append_nil (Text.quote x), ← append_nil (Text.quote y)] at hquote
  exact (Text.quote_unique hquote).1

end Keyword

namespace Dict

open Keyword

/-- The entries of a dictionary are those of keywords with different names. -/
structure Spells (ks : List Keyword) (d : Dict) : Prop where
  entries : d.entries = ks.map Keyword.entry
  nodup : (names ks).Nodup

theorem spells_empty : Dict.empty.Spells [] := ⟨rfl, nodup_nil⟩

theorem Spells.latest (h : d.Spells ks) : d.latest = (ks.map Keyword.entry).reverse := by
  rw [← h.entries, Dict.entries, reverse_reverse]

theorem hash_entry (k : Keyword) (name : Text) :
    (k.entry.hash == "s" ++ Text.quote name) = (k.name == name) := by
  rw [Bool.eq_iff_iff, beq_iff_eq, beq_iff_eq]
  exact ⟨hash_inj, fun heq => by rw [← heq]; rfl⟩

theorem Spells.any (h : d.Spells ks) (name : Text) :
    d.latest.any (·.hash == "s" ++ Text.quote name) = ks.any (·.name == name) := by
  rw [h.latest, any_reverse, any_map]
  exact congrArg ks.any (funext fun k => hash_entry k name)

theorem Spells.find?_isSome (h : d.Spells ks) (name : Text) :
    (d.find? ("s" ++ Text.quote name)).isSome = ks.any (·.name == name) := by
  rw [← h.any name, Dict.find?_eq, Option.isSome_map, Bool.eq_iff_iff, List.find?_isSome,
    List.any_eq_true]

theorem Spells.set (h : d.Spells ks) (k : Keyword) :
    (d.set ("s" ++ Text.quote k.name) (.str k.name) k.value).Spells (Keyword.put ks k) := by
  refine ⟨?_, Keyword.nodup_put h.nodup k⟩
  rw [Dict.entries, Dict.latest_set, h.any, Keyword.put]
  split
  next =>
    rw [h.latest, map_reverse, reverse_reverse, map_map, map_map]
    refine map_congr_left fun other _ => ?_
    rw [Function.comp_apply, Function.comp_apply, hash_entry]
    split
    next hsame =>
      unfold Keyword.entry
      rw [eq_of_beq hsame]
    next => rfl
  next => rw [h.latest, reverse_cons, reverse_reverse, map_append]; rfl

/-- Its keywords are read off a dictionary. -/
theorem Spells.keywords (h : d.Spells ks) : Run.keywords d.entries = .ok ks := by
  rw [h.entries]
  clear h
  induction ks with
  | nil => rfl
  | cons k rest ih => rw [map_cons, Run.keywords, ih]; rfl

end Dict

namespace Run

/-- The canonical key of a text does not depend on the heap. -/
theorem dictKey_text (x : Text) (h : Heap) :
    dictKey (.str x) h = (.ok ("s" ++ Text.quote x), h) := rfl

/-- Keywords as names and values in turn fill a dictionary. -/
theorem fillDict_eq (hd : d.Spells ks) (named : List Keyword) (h : Heap) :
    ∃ d', fillDict d (Keyword.spelled named) h = (.ok d', h) ∧
      d'.Spells (named.foldl Keyword.put ks) := by
  induction named generalizing ks d with
  | nil => exact ⟨d, rfl, hd⟩
  | cons k rest ih =>
    obtain ⟨d', hfill, hspells⟩ := ih (hd.set k)
    refine ⟨d', ?_, hspells⟩
    rw [Keyword.spelled, flatMap_cons, cons_append, cons_append, nil_append, fillDict,
      bind_apply, dictKey_text]
    exact hfill

/-- A dictionary of keywords is made. -/
theorem buildDict_eq (named : List Keyword) (h : Heap) :
    ∃ d, buildDict (Keyword.spelled named) h =
        (.ok (.dict h.cells.size), (h.alloc (.dict d)).2) ∧ d.Spells (Keyword.collapse named) := by
  obtain ⟨d, hfill, hspells⟩ := fillDict_eq Dict.spells_empty named h
  refine ⟨d, ?_, hspells⟩
  rw [buildDict, bind_apply, hfill]
  rfl

end Run

/-- The change of a cell that holds a list. -/
theorem Heap.modifyList_eq {items : Array Value} (hcell : h.cells[r]? = some (.list items))
    (change : Array Value → Array Value) :
    h.modifyList r change = h.setCell r (.list (change items)) := by
  obtain ⟨hlt, heq⟩ := Array.getElem?_eq_some_iff.mp hcell
  unfold modifyList setCell
  congr 1
  refine Array.ext_getElem? fun i => ?_
  rw [Array.getElem?_modify, Array.getElem?_setIfInBounds]
  by_cases hi : r = i
  · subst hi
    rw [if_pos rfl, if_pos rfl, if_pos hlt, hcell]
    rfl
  · rw [if_neg hi, if_neg hi]

/-- Merging keywords into a dictionary stops at the first that is there already, and otherwise adds
them all. -/
theorem Machine.mergeKeywords_eq :
    ∀ {ks : List Keyword} {d : Dict} {h : Heap}, h.cells[r]? = some (.dict d) → d.Spells ks →
      (Keyword.names spread).Nodup → ∃ d',
        match spread.find? fun k => ks.any (·.name == k.name) with
        | some k => mergeKeywords r spread h =
            (.error (.runtime (.repeatedKeyword k.name)), h.setCell r (.dict d'))
        | none =>
          mergeKeywords r spread h = (.ok (), h.setCell r (.dict d')) ∧
          d'.Spells (ks ++ spread) := by
  induction spread with
  | nil =>
    intro ks d h hcell hd _
    refine ⟨d, ?_, by rwa [append_nil]⟩
    rw [Heap.setCell_same hcell]
    rfl
  | cons k rest ih =>
    intro ks d h hcell hd hnodup
    obtain ⟨hk, hrest⟩ := nodup_cons.mp hnodup
    have hget : Run.dictGet? r (.str k.name) h = (.ok (d.find? ("s" ++ Text.quote k.name)), h) := by
      rw [Run.dictGet?, bind_apply, Run.dictKey_text, ← Heap.dict_of_cell hcell]
      rfl
    rw [find?_cons]
    cases hmem : ks.any (·.name == k.name) with
    | true =>
      refine ⟨d, ?_⟩
      dsimp only
      rw [mergeKeywords, bind_apply, hget]
      dsimp only
      rw [if_pos (by rw [hd.find?_isSome, hmem]), Heap.setCell_same hcell]
      rfl
    | false =>
      have hnew : k.name ∉ Keyword.names ks := fun hname => by
        rw [Keyword.any_name_iff.mpr hname] at hmem
        cases hmem
      have hset : Run.dictSet r (.str k.name) k.value h =
          (.ok (), h.setCell r (.dict (d.set ("s" ++ Text.quote k.name)
            (.str k.name) k.value))) := by
        rw [Run.dictSet, bind_apply, Run.dictKey_text, ← Heap.dict_of_cell hcell]
        rfl
      -- The rest is merged into the dictionary with the first.
      obtain ⟨d', hmerge⟩ := ih (Heap.getElem?_setCell hcell _)
        (Keyword.put_of_not_mem hnew ▸ hd.set k) hrest
      have hsame : (rest.find? fun other => (ks ++ [k]).any (·.name == other.name)) =
          rest.find? fun other => ks.any (·.name == other.name) := by
        rw [← head?_filter, ← head?_filter]
        refine congrArg head? (filter_congr fun other hother => ?_)
        have hne : (k.name == other.name) = false :=
          beq_false_of_ne fun heq => hk (heq ▸ mem_map_of_mem hother)
        rw [any_append, any_cons, any_nil, hne, Bool.or_false, Bool.or_false]
      have hstep : mergeKeywords r (k :: rest) h = mergeKeywords r rest
          (h.setCell r (.dict (d.set ("s" ++ Text.quote k.name) (.str k.name) k.value))) := by
        rw [mergeKeywords, bind_apply, hget]
        dsimp only
        rw [if_neg (by rw [hd.find?_isSome, hmem]; decide), bind_apply, hset]
      refine ⟨d', ?_⟩
      rw [hsame] at hmerge
      dsimp only
      rw [hstep]
      rw [Heap.setCell_setCell] at hmerge
      cases hfind : rest.find? fun other => ks.any (·.name == other.name) with
      | some other =>
        rw [hfind] at hmerge
        exact hmerge
      | none =>
        rw [hfind] at hmerge
        rw [append_cons]
        exact hmerge

/-- The bound of a slice that has a name. -/
def Heap.bound? (h : Heap) (r : Ref) (name : Text) : Option Value :=
  if name == Text.ofString "start" then some (h.slice r).1
  else if name == Text.ofString "stop" then some (h.slice r).2.1
  else if name == Text.ofString "step" then some (h.slice r).2.2
  else none

/-- The method of a value, and whether the value is passed to it. -/
def Heap.method? (h : Heap) (v : Value) (name : Text) : Option (Value × Bool) :=
  match v with
  | .slice r => (h.bound? r name).map (·, false)
  | .object r =>
    match (h.object r).methods.get? name, (h.object r).attributes.get? name with
    | some callee, none => some (callee, true)
    | _, some v => some (v, false)
    | none, none => none
  | _ => none

/-! ## Spreading in two heaps -/

namespace Run

variable {h' : Heap}

theorem spreadArguments_apply (v : Value) (h : Heap) :
    spreadArguments v h = match h.items? v with
      | some items => (.ok items, h)
      | none => (.error (.runtime (.starArguments v.kind)), h) := by
  rw [spreadArguments, bind_apply, get_apply]
  dsimp only
  cases h.items? v <;> rfl

/-- A value spreads into the same positional arguments in both heaps, or in none. -/
theorem spreadArguments_moves (hmoved : h.Moved places h') (hv : v.Moves places w) :
    (∃ items items', spreadArguments v h = (.ok items, h) ∧
      spreadArguments w h' = (.ok items', h') ∧ Forall₂ (Value.Moves places) items items') ∨
      ∃ f, spreadArguments v h = (.error f, h) ∧ spreadArguments w h' = (.error f, h') := by
  have hitems := hmoved.items? hv
  rw [spreadArguments_apply, spreadArguments_apply]
  generalize h.items? v = found, h'.items? w = found' at hitems
  cases hitems with
  | none => exact .inr ⟨_, rfl, by rw [hv.kind]⟩
  | some hitems => exact .inl ⟨_, _, rfl, rfl, hitems⟩

/-- Entries with the same keys and values are the same keywords. -/
theorem keywords_moves {entries entries' : List Dict.Entry}
    (h : Forall₂ (Dict.Entry.Moves places) entries entries') :
    (∃ ks ks', keywords entries = .ok ks ∧ keywords entries' = .ok ks' ∧
        Forall₂ (Keyword.Moves places) ks ks' ∧
        entries.map Dict.Entry.key = (Keyword.names ks).map .str) ∨
      ∃ e, keywords entries = .error e ∧ keywords entries' = .error e := by
  induction h with
  | nil => exact .inl ⟨[], [], rfl, rfl, .nil, rfl⟩
  | @cons e e' rest rest' hentry _ ih =>
    obtain ⟨hash, key, value⟩ := e
    obtain ⟨hash', key', value'⟩ := e'
    obtain ⟨hkey, hvalue⟩ := hentry
    dsimp only at hkey hvalue
    rw [keywords, keywords]
    cases key with
    | str name =>
      obtain rfl : Value.str name = key' := Option.some.inj hkey
      dsimp only
      rcases ih with ⟨ks, ks', hks, hks', hmoves, hkeys⟩ | ⟨e, hks, hks'⟩
      · rw [hks, hks']
        refine .inl ⟨_, _, rfl, rfl, .cons ⟨rfl, hvalue⟩ hmoves, ?_⟩
        rw [map_cons, hkeys]
        rfl
      · rw [hks, hks']
        exact .inr ⟨e, rfl, rfl⟩
    | _ =>
      refine .inr ⟨.keywordKind, rfl, ?_⟩
      have hkind := hkey.kind
      cases key' <;> first | rfl | cases hkind

theorem spreadKeywords_dict (r : Ref) (h : Heap) :
    spreadKeywords (.dict r) h = match keywords (h.dict r).entries with
      | .ok ks => (.ok ks, h)
      | .error e => (.error (.runtime e), h) := by
  rw [spreadKeywords, bind_apply, get_apply]
  dsimp only
  cases keywords (h.dict r).entries <;> rfl

/-- A value spreads into the same keyword arguments in both heaps, with different names, or in
none. -/
theorem spreadKeywords_moves (hmoved : h.Moved places h') (hv : v.Moves places w)
    (hkeyed : ∀ {r : Ref} {d : Dict}, h.cells[r]? = some (.dict d) →
      (d.latest.map Dict.Entry.key).Nodup) :
    (∃ ks ks', spreadKeywords v h = (.ok ks, h) ∧ spreadKeywords w h' = (.ok ks', h') ∧
        Forall₂ (Keyword.Moves places) ks ks' ∧ (Keyword.names ks).Nodup) ∨
      ∃ f, spreadKeywords v h = (.error f, h) ∧ spreadKeywords w h' = (.error f, h') := by
  have hother : v.kind ≠ .dict → ∀ u : Value, u.kind = v.kind → ∀ g : Heap,
      spreadKeywords u g = (.error (.runtime (.doubleStarArguments v.kind)), g) := by
    intro hkind u hu g
    rw [← hu] at hkind ⊢
    cases u <;> first | rfl | exact absurd rfl hkind
  cases v with
  | dict r =>
    obtain ⟨r', hr, rfl⟩ := Option.map_eq_some_iff.mp hv
    have hentries : Forall₂ (Dict.Entry.Moves places) (h.dict r).entries (h'.dict r').entries :=
      rel_reverse (hmoved.dict hr)
    rw [spreadKeywords_dict, spreadKeywords_dict]
    rcases keywords_moves hentries with ⟨ks, ks', hks, hks', hmoves, hkeys⟩ | ⟨e, hks, hks'⟩
    · rw [hks, hks']
      refine .inl ⟨ks, ks', rfl, rfl, hmoves, ?_⟩
      -- A key that is a text is there once, so its name is.
      obtain ⟨cell, -, hcell, -, -⟩ := hmoved.cell hr
      have hnodup : ((h.dict r).entries.map Dict.Entry.key).Nodup := by
        rw [Dict.entries, map_reverse, nodup_reverse, Heap.dict, hcell]
        cases cell with
        | dict d => exact hkeyed hcell
        | _ => exact nodup_nil
      rw [hkeys] at hnodup
      exact hnodup.of_map _
    · rw [hks, hks']
      exact .inr ⟨_, rfl, rfl⟩
  | _ => exact .inr ⟨_, hother (by rintro ⟨⟩) _ rfl h, hother (by rintro ⟨⟩) _ hv.kind h'⟩

/-- Finding a method makes nothing new. -/
theorem method_eq (v : Value) (name : Text) (h : Heap) :
    method v name h = match h.method? v name with
      | some found => (.ok found, h)
      | none => (.error (.runtime (.noAttribute v.kind name)), h) := by
  cases v with
  | slice r =>
    have hattribute : attribute? (.slice r) name h = (.ok (h.bound? r name), h) := rfl
    have hmethod : method (.slice r) name h = (attributeOf (.slice r) name >>= fun v =>
        pure (v, false)) h := rfl
    rw [hmethod, Heap.method?, bind_apply, attributeOf, bind_apply, hattribute]
    cases h.bound? r name <;> rfl
  | object r =>
    rw [method, Heap.method?, bind_apply, get_apply]
    dsimp only
    cases hmethods : (h.object r).methods.get? name with
    | none =>
      cases hattributes : (h.object r).attributes.get? name <;>
        simp [attributeOf, attribute?, hmethods, hattributes, bind_apply, get_apply,
          pure_apply, fail, Value.kind, throw_apply]
    | some callee =>
      cases hattributes : (h.object r).attributes.get? name <;>
        simp [attributeOf, attribute?, hmethods, hattributes, bind_apply, get_apply, pure_apply]
  | _ => rfl

/-- A value has the same method in both heaps, or in none. Only an object is passed to its method.
-/
theorem method_moves (hmoved : h.Moved places h') (hv : v.Moves places w) (name : Text) :
    (∃ function function' bound, method v name h = (.ok (function, bound), h) ∧
        method w name h' = (.ok (function', bound), h') ∧ function.Moves places function' ∧
        (bound = true → w ≠ .noReceiver)) ∨
      ∃ f, method v name h = (.error f, h) ∧ method w name h' = (.error f, h') := by
  have hfound : Option.Rel (fun found found' => found.1.Moves places found'.1 ∧ found'.2 = found.2 ∧
      (found.2 = true → w ≠ .noReceiver)) (h.method? v name) (h'.method? w name) := by
    cases v with
    | slice r =>
      obtain ⟨r', hr, rfl⟩ := Option.map_eq_some_iff.mp hv
      obtain ⟨hstart, hstop, hstep⟩ := hmoved.slice hr
      simp only [Heap.method?, Heap.bound?]
      split
      next => exact .some ⟨hstart, rfl, nofun⟩
      next =>
        split
        next => exact .some ⟨hstop, rfl, nofun⟩
        next =>
          split
          next => exact .some ⟨hstep, rfl, nofun⟩
          next => exact .none
    | object r =>
      obtain ⟨r', hr, rfl⟩ := Option.map_eq_some_iff.mp hv
      obtain ⟨hattributes, hmethods⟩ := hmoved.object hr
      have hattribute := hattributes.get? name
      have hmethod := hmethods.get? name
      rw [Heap.method?, Heap.method?]
      generalize (h.object r).attributes.get? name = a,
        (h'.object r').attributes.get? name = a' at hattribute
      generalize (h.object r).methods.get? name = m,
        (h'.object r').methods.get? name = m' at hmethod
      cases hattribute with
      | none =>
        cases hmethod with
        | none => exact .none
        | some hm => exact .some ⟨hm, rfl, fun _ => nofun⟩
      | some ha => cases hmethod <;> exact .some ⟨ha, rfl, nofun⟩
    | list r | tuple r | dict r | function r =>
      obtain ⟨r', -, rfl⟩ := Option.map_eq_some_iff.mp hv
      exact .none
    | _ =>
      obtain rfl := Option.some.inj hv
      exact .none
  rw [method_eq, method_eq]
  generalize h.method? v name = found, h'.method? w name = found' at hfound
  cases hfound with
  | none => exact .inr ⟨_, rfl, by rw [hv.kind]⟩
  | @some found found' hmoves =>
    obtain ⟨function, bound⟩ := found
    obtain ⟨function', bound'⟩ := found'
    obtain ⟨hfunction, rfl, hbound⟩ := hmoves
    exact .inl ⟨function, function', bound', rfl, rfl, hfunction, hbound⟩

theorem bound_moves (what : Text) (hv : v.Moves places w) :
    Slicing.bound what w = Slicing.bound what v := by
  cases v with
  | list r | tuple r | dict r | slice r | function r | object r =>
    obtain ⟨r', -, rfl⟩ := Option.map_eq_some_iff.mp hv
    rfl
  | _ =>
    obtain rfl := Option.some.inj hv
    rfl

section Slice

/-- A slice selects the same items of sequences that are related. -/
theorem items_moves (ha : a.Moves places a') (hb : b.Moves places b') (hc : c.Moves places c')
    {R : α → α → Prop} {as bs : List α} (h : Forall₂ R as bs) :
    (∃ xs ys, Slicing.items a b c as = .ok xs ∧ Slicing.items a' b' c' bs = .ok ys ∧
      Forall₂ R xs ys) ∨
      ∃ e, Slicing.items a b c as = .error e ∧ Slicing.items a' b' c' bs = .error e := by
  have hpositions : Slicing.positions a' b' c' bs.length = Slicing.positions a b c as.length := by
    simp only [Slicing.positions, bound_moves _ ha, bound_moves _ hb, bound_moves _ hc, h.length_eq]
  rw [Slicing.items, Slicing.items, hpositions]
  cases Slicing.positions a b c as.length with
  | error e => exact .inr ⟨e, rfl, rfl⟩
  | ok chosen => exact .inl ⟨_, _, rfl, rfl, Window.rel_select h chosen⟩

/-- How slicing ends in two heaps: with the same failure, with a text, or with new sequences. -/
inductive Slices (places : List Ref) (h h' : Heap) :
    Except Failure Value × Heap → Except Failure Value × Heap → Prop
  | failure (f : Failure) : Slices places h h' (.error f, h) (.error f, h')
  | text (x : Text) : Slices places h h' (.ok (.str x), h) (.ok (.str x), h')
  | sequence {cell cell' : Cell} (make : Ref → Value) : cell.isSequence = true →
      cell.Moves places cell' →
      (∀ {places' : List Ref} {r r' : Ref}, places'[r]? = some r' →
        (make r).Moves places' (make r')) →
      Slices places h h' (.ok (make h.cells.size), (h.alloc cell).2) (.ok (make h'.cells.size),
        (h'.alloc cell').2)

theorem slice_moves (hmoved : h.Moved places h') (hv : v.Moves places w) (ha : a.Moves places a')
    (hb : b.Moves places b') (hc : c.Moves places c') :
    Slices places h h' (slice v a b c h) (slice w a' b' c' h') := by
  cases v with
  | list r =>
    obtain ⟨r', hr, rfl⟩ := Option.map_eq_some_iff.mp hv
    have hrun : ∀ (r : Ref) (a b c : Value) (g : Heap), slice (.list r) a b c g =
        match Slicing.items a b c (g.list r) with
        | .ok items => (.ok (.list g.cells.size), (g.alloc (.list items.toArray)).2)
        | .error e => (.error (.runtime e), g) := by
      intro r a b c g
      rw [slice, bind_apply, get_apply]
      dsimp only
      rw [bind_apply]
      cases Slicing.items a b c (g.list r) <;> rfl
    rw [hrun, hrun]
    rcases items_moves ha hb hc (hmoved.list hr) with ⟨xs, ys, hxs, hys, hitems⟩ | ⟨e, hxs, hys⟩
    · rw [hxs, hys]
      refine .sequence Value.list rfl (.list ?_) fun hplace =>
        congrArg (Option.map Value.list) hplace
      simpa using hitems
    · rw [hxs, hys]
      exact .failure _
  | tuple r =>
    obtain ⟨r', hr, rfl⟩ := Option.map_eq_some_iff.mp hv
    have hrun : ∀ (r : Ref) (a b c : Value) (g : Heap), slice (.tuple r) a b c g =
        match Slicing.items a b c (g.tuple r) with
        | .ok items => (.ok (.tuple g.cells.size), (g.alloc (.tuple items)).2)
        | .error e => (.error (.runtime e), g) := by
      intro r a b c g
      rw [slice, bind_apply, get_apply]
      dsimp only
      rw [bind_apply]
      cases Slicing.items a b c (g.tuple r) <;> rfl
    rw [hrun, hrun]
    rcases items_moves ha hb hc (hmoved.tuple hr) with ⟨xs, ys, hxs, hys, hitems⟩ | ⟨e, hxs, hys⟩
    · rw [hxs, hys]
      exact .sequence Value.tuple rfl (.tuple hitems) fun hplace =>
        congrArg (Option.map Value.tuple) hplace
    · rw [hxs, hys]
      exact .failure _
  | str x =>
    obtain rfl := Option.some.inj hv
    have hrun : ∀ (a b c : Value) (g : Heap), slice (.str x) a b c g =
        match Slicing.items a b c (Text.chars x) with
        | .ok items => (.ok (.str (Text.encode items)), g)
        | .error e => (.error (.runtime e), g) := by
      intro a b c g
      rw [slice, bind_apply]
      cases Slicing.items a b c (Text.chars x) <;> rfl
    have hsame : Forall₂ (· = ·) (Text.chars x) (Text.chars x) := forall₂_refl _
    rw [hrun, hrun]
    rcases items_moves ha hb hc hsame with ⟨xs, ys, hxs, hys, hitems⟩ | ⟨e, hxs, hys⟩
    · rw [forall₂_eq_eq_eq] at hitems
      subst hitems
      rw [hxs, hys]
      exact .text _
    · rw [hxs, hys]
      exact .failure _
  | dict r | slice r | function r | object r =>
    obtain ⟨r', -, rfl⟩ := Option.map_eq_some_iff.mp hv
    exact .failure _
  | _ =>
    obtain rfl := Option.some.inj hv
    exact .failure _

end Slice

end Run

/-! ## The parts of a call -/

section OfRun

variable {x : Run α} {a : α} {f : Failure}

theorem Eval.ofRun_of_ok (hx : x s.heap = (.ok a, h)) :
    Eval.ofRun x s = (.ok a, { s with heap := h }) := by
  rw [Eval.ofRun, hx]

theorem Eval.ofRun_of_error (hx : x s.heap = (.error f, h)) :
    Eval.ofRun x s = (.error f, { s with heap := h }) := by
  rw [Eval.ofRun, hx]

theorem Perform.ofRun_of_ok (hx : x t.heap = (.ok a, h)) :
    Perform.ofRun x t = (.ok a, { t with heap := h }) := by
  rw [Perform.ofRun, hx]

theorem Perform.ofRun_of_error (hx : x t.heap = (.error f, h)) :
    Perform.ofRun x t = (.error (.failure f), { t with heap := h }) := by
  rw [Perform.ofRun, hx]

theorem Perform.ofRun_bind_of_ok (hx : x t.heap = (.ok a, h)) (g : α → Perform β) :
    (Perform.ofRun x >>= g) t = g a { t with heap := h } := by
  rw [bind_apply, Perform.ofRun_of_ok hx]

end OfRun

/-- Expressions one after another, each with what is known before it. -/
def Context.along (ctx : Context) : List Node → List (Context × Node)
  | [] => []
  | n :: rest => (ctx, n) :: along (ctx.after n) rest

theorem Context.along_append (ctx : Context) (front back : List Node) :
    ctx.along (front ++ back) = ctx.along front ++ (ctx.afterAll front).along back := by
  induction front generalizing ctx with
  | nil => rfl
  | cons n rest ih => exact congrArg ((ctx, n) :: ·) (ih (ctx.after n))

namespace Node

theorem after_origin (ctx : Context) (callee : Node) (method : Bool) :
    ctx.after (callee.origin method) = ctx.after callee := by
  rw [origin.eq_def]
  split
  next base name => simp [Context.after, assigned_eq (n := .attr base name)]
  next => rfl

/-- The function of a call, and the receiver that is passed to it. -/
def evalCallee (call : Caller) (callee : Node) (method : Bool) : Eval (Value × List Value) :=
  match callee, method with
  | .attr base name, true => do
    let v ← eval call base
    let (function, bound) ← Eval.ofRun (Run.method v name)
    pure (function, if bound then [v] else [])
  | callee, _ => do
    let function ← eval call callee
    pure (function, [])

theorem eval_call (call : Caller) (callee : Node) (args : List Node) (star : Option Node)
    (keywords : List (Text × Node)) (doubleStar : Option Node) (method : Bool) :
    eval call (.call callee args star keywords doubleStar method) = (do
      let (function, receiver) ← evalCallee call callee method
      let positional ← evalAll call args
      let starred ← evalStar call star
      let named ← evalKeywords call keywords
      let named ← evalDoubleStar call named doubleStar
      Eval.ofRun (call function (receiver ++ positional ++ starred) named)) := by
  cases callee <;> cases method <;> simp only [eval, evalCallee, bind_assoc, pure_bind]

end Node

namespace Tie

open Node

open Keyword

variable {T : Tie} {call : Caller} {globals : Bindings} {ctx : Context} {hidden : List (Ref × Cell)}
  {Well : Outcomes α β} {keywords : List (Text × Node)} {ks' : List Keyword}
  {star doubleStar : Option Node} {list dict : Ref} {items : List Value} {g : Perform β}
  {args : List Node} {callee : Node} {method : Bool}

/-- The code of each of several expressions pushes its value. -/
def PushesAll (T : Tie) (call : Caller) (globals : Bindings) (ctx : Context) (ns : List Node) :
    Prop :=
  ∀ p ∈ ctx.along ns, T.Pushes call globals p.1 p.2

theorem PushesAll.split {front back : List Node}
    (h : T.PushesAll call globals ctx (front ++ back)) :
    T.PushesAll call globals ctx front ∧ T.PushesAll call globals (ctx.afterAll front) back := by
  rw [PushesAll, Context.along_append, forall_mem_append] at h
  exact h

theorem PushesAll.uncons {n : Node} {rest : List Node}
    (h : T.PushesAll call globals ctx (n :: rest)) :
    T.Pushes call globals ctx n ∧ T.PushesAll call globals (ctx.after n) rest :=
  forall_mem_cons.mp h

theorem follows_all {ns : List Node} (h : T.PushesAll call globals ctx ns) :
    T.Follows (fun places => Forall₂ (Value.Moves places)) (evalAll call ns)
      (performAll call globals Gate.opened ns ctx) := by
  induction ns generalizing ctx with
  | nil => exact fun hat => ends_values hat .nil
  | cons n rest ih =>
    obtain ⟨hn, hrest⟩ := h.uncons
    intro places hidden s t hat
    rw [evalAll, performAll]
    refine (hn hat).bind fun _ hat1 hv => (ih hrest hat1).bind fun hplaces hat2 hvs => ?_
    exact ends_values hat2 (.cons (hv.mono hplaces) hvs)

theorem follows_bound {bound : Option Node} (h : T.PushesAll call globals ctx bound.toList) :
    T.Follows Value.Moves (evalBound call bound)
      (performBound call globals Gate.opened bound ctx) := by
  cases bound with
  | none => exact fun hat => ends_values hat rfl
  | some n => exact h.uncons.1

theorem follows_keywords (h : T.PushesAll call globals ctx (keywords.map Prod.snd)) :
    T.Follows (fun places ks vs => names ks = keywords.map Prod.fst ∧
        ∃ ks', vs = spelled ks' ∧ Forall₂ (Keyword.Moves places) ks ks')
      (evalKeywords call keywords) (performKeywords call globals Gate.opened keywords ctx) := by
  induction keywords generalizing ctx with
  | nil => exact fun hat => ends_values hat ⟨rfl, [], rfl, .nil⟩
  | cons keyword rest ih =>
    obtain ⟨name, n⟩ := keyword
    obtain ⟨hn, hrest⟩ := PushesAll.uncons (n := n) h
    intro places hidden s t hat
    rw [evalKeywords, performKeywords]
    refine (hn hat).bind fun {_ _ w _ _} _ hat1 hv =>
      (ih hrest hat1).bind fun hplaces hat2 hks => ?_
    obtain ⟨hnames, ks', rfl, hmoves⟩ := hks
    exact ends_values hat2 ⟨congrArg (name :: ·) hnames, ⟨name, w⟩ :: ks', rfl,
      .cons ⟨rfl, hv.mono hplaces⟩ hmoves⟩

theorem names_eq (h : Forall₂ (Keyword.Moves places) ks ks') :
    names ks' = names ks := by
  induction h with
  | nil => rfl
  | cons hk _ ih => exact congrArg₂ List.cons hk.name ih

/-- Keywords are found by their names. -/
theorem find?_rel {ks ks' : List Keyword} (h : Forall₂ (Keyword.Moves places) ks ks')
    {p p' : Text → Bool} (hp : ∀ name, p name = p' name) :
    (ks'.find? fun k => p' k.name).map name = (ks.find? fun k => p k.name).map name := by
  induction h with
  | nil => rfl
  | @cons k k' rest rest' hk _ ih =>
    rw [find?_cons, find?_cons, hk.name, hp]
    cases p' k.name with
    | true => exact congrArg some hk.name
    | false => exact ih

/-- The items of a starred argument are added to the list of arguments. -/
theorem ends_star (hstar : T.PushesAll call globals ctx star.toList)
    (hat : T.At places ((r, .list items.toArray) :: hidden) s t) {f : List Value → Eval α}
    (hfg : ∀ {places' : List Ref} {spread spread' : List Value} {s' : EvalState} {t' : Scene},
      places <+: places' → T.At places' ((r, .list (items ++ spread').toArray) :: hidden) s' t' →
      Forall₂ (Value.Moves places') spread spread' → T.Ends places' Well (f spread s') (g t')) :
    T.Ends places Well ((evalStar call star >>= f) s)
      ((performStar call globals Gate.opened (.list r) star ctx >>= fun _ => g) t) := by
  cases star with
  | none =>
    have hsame : T.At places ((r, .list (items ++ []).toArray) :: hidden) s t := by
      rwa [append_nil]
    exact hfg (prefix_refl _) hsame .nil
  | some n =>
    rw [evalStar, bind_assoc, performStar, bind_assoc]
    refine (hstar.uncons.1 hat).bind fun {places' v w s' t'} hplaces hat' hv => ?_
    have hcell := (hat'.apart mem_cons_self).2
    rw [bind_apply, bind_apply]
    rcases Run.spreadArguments_moves (T.moved hat'.holds) hv with
      ⟨spread, spread', hspread, hspread', hmoves⟩ | ⟨failure, hspread, hspread'⟩
    · -- The list of the code gets the items that evaluation passes on.
      have hextend : Perform.extending (.list r) w t'.heap =
          (.ok (), t'.heap.setCell r (.list (items ++ spread').toArray)) := by
        rw [Perform.extending, bind_apply, hspread']
        dsimp only
        rw [modify_apply, Heap.modifyList_eq hcell, append_toArray]
      rw [Eval.ofRun_of_ok hspread, Perform.extend, Perform.ofRun_of_ok hextend]
      exact hfg hplaces (hat'.setCell _) hmoves
    · have hextend : Perform.extending (.list r) w t'.heap = (.error failure, t'.heap) := by
        rw [Perform.extending, bind_apply, hspread']
      rw [Eval.ofRun_of_error hspread, Perform.extend, Perform.ofRun_of_error hextend]
      exact .failure failure (prefix_refl _) hat'.holds

/-- The entries of a doubly starred argument are added to the dictionary of keywords. -/
theorem ends_doubleStar (hdoubleStar : T.PushesAll call globals ctx doubleStar.toList)
    {named named' : List Keyword} (hd : d.Spells (collapse named'))
    (hnamed : names named' = names named)
    (hat : T.At places ((r, .dict d) :: hidden) s t) {f : List Keyword → Eval α}
    (hfg : ∀ {places' : List Ref} {spread spread' : List Keyword} {d' : Dict} {s' : EvalState}
      {t' : Scene}, places <+: places' → T.At places' ((r, .dict d') :: hidden) s' t' →
      Forall₂ (Keyword.Moves places') spread spread' → (names spread).Nodup →
      (∀ name ∈ names spread, name ∉ names named) →
      d'.Spells (collapse named' ++ spread') →
      T.Ends places' Well (f (named ++ spread) s') (g t')) :
    T.Ends places Well ((evalDoubleStar call named doubleStar >>= f) s)
      ((performDoubleStar call globals Gate.opened (.dict r) doubleStar ctx >>= fun _ => g) t) := by
  cases doubleStar with
  | none =>
    rw [evalDoubleStar, performDoubleStar]
    have hsame : d.Spells (collapse named' ++ []) := by rwa [append_nil]
    have hends := hfg (prefix_refl _) hat .nil nodup_nil
      (fun _ hname => absurd hname not_mem_nil) hsame
    rw [append_nil] at hends
    exact hends
  | some n =>
    rw [evalDoubleStar, bind_assoc, performDoubleStar, bind_assoc]
    refine (hdoubleStar.uncons.1 hat).bind fun {places' v w s' t'} hplaces hat' hv => ?_
    have hcell := (hat'.apart mem_cons_self).2
    rw [bind_assoc, bind_apply, bind_apply, Perform.merge]
    rcases Run.spreadKeywords_moves (T.moved hat'.holds) hv (T.keyed hat'.holds) with
      ⟨spread, spread', hspread, hspread', hmoves, hnodup⟩ | ⟨failure, hspread, hspread'⟩
    · -- Evaluation and code look for the same names among the keywords.
      have hnames : names spread' = names spread := names_eq hmoves
      have hfound : (spread'.find? fun k => (collapse named').any (·.name == k.name)).map
          name = (spread.find? fun k => named.any (·.name == k.name)).map name := by
        refine @find?_rel _ _ _ hmoves (fun name => named.any (·.name == name))
          (fun name => (collapse named').any (·.name == name)) fun name => ?_
        rw [Bool.eq_iff_iff, any_name_iff, any_name_iff, mem_names_collapse, hnamed]
      obtain ⟨d', hmerge⟩ := Machine.mergeKeywords_eq hcell hd (hnames ▸ hnodup)
      have hmerging : ∀ {o : Except Failure Unit × Heap},
          Machine.mergeKeywords r spread' t'.heap = o →
          Perform.merging (.dict r) w t'.heap = o := by
        intro o ho
        rw [Perform.merging, bind_apply, hspread']
        exact ho
      rw [Eval.ofRun_of_ok hspread]
      dsimp only
      rw [bind_apply, Eval.mergeKeywords]
      cases hfirst : spread.find? fun k => named.any (·.name == k.name) with
      | none =>
        rw [hfirst, Option.map_none, Option.map_eq_none_iff] at hfound
        rw [hfound] at hmerge
        rw [Perform.ofRun_of_ok (hmerging hmerge.1)]
        refine hfg hplaces (hat'.setCell _) hmoves hnodup (fun name hname hmem => ?_) hmerge.2
        obtain ⟨k, hk, rfl⟩ := mem_map.mp hname
        exact find?_eq_none.mp hfirst k hk (any_name_iff.mpr hmem)
      | some k =>
        rw [hfirst, Option.map_some, Option.map_eq_some_iff] at hfound
        obtain ⟨k', hfound, hname⟩ := hfound
        rw [hfound] at hmerge
        dsimp only at hmerge
        rw [hname] at hmerge
        rw [Perform.ofRun_of_error (hmerging hmerge)]
        exact .failure _ (prefix_refl _) (hat'.setCell _).holds
    · have hmerging : Perform.merging (.dict r) w t'.heap = (.error failure, t'.heap) := by
        rw [Perform.merging, bind_apply, hspread']
      rw [Eval.ofRun_of_error hspread, Perform.ofRun_of_error hmerging]
      exact .failure failure (prefix_refl _) hat'.holds

theorem forall₂_put {k' : Keyword} (h : Forall₂ (Keyword.Moves places) ks ks')
    (hk : k.Moves places k') :
    Forall₂ (Keyword.Moves places) (put ks k) (put ks' k') := by
  have hany : ks'.any (·.name == k'.name) = ks.any (·.name == k.name) := by
    rw [Bool.eq_iff_iff, any_name_iff, any_name_iff, names_eq h, hk.name]
  rw [put, put, hany]
  split
  next =>
    refine forall₂_map_left_iff.mpr (forall₂_map_right_iff.mpr
      (h.imp fun other other' hother => ?_))
    rw [hother.name, hk.name]
    split
    next => exact hk
    next => exact hother
  next => exact rel_append h (.cons hk .nil)

theorem forall₂_collapse (h : Forall₂ (Keyword.Moves places) ks ks') :
    Forall₂ (Keyword.Moves places) (collapse ks) (collapse ks') := by
  have hfold : ∀ {front front' : List Keyword}, Forall₂ (Keyword.Moves places) front front' →
      Forall₂ (Keyword.Moves places) (ks.foldl put front) (ks'.foldl put front') := by
    induction h with
    | nil => exact id
    | cons hk _ ih => exact fun hfront => ih (forall₂_put hfront hk)
  exact hfold .nil

/-- Evaluation and code call the same function with the same positional arguments, and with keywords
that correspond. -/
inductive Calls (T : Tie) (call : Caller) (K : List Ref → List Keyword → List Keyword → Prop)
    (places : List Ref) : Except Failure Value × EvalState → Except Exit Value × Scene → Prop
  | intro {function function' : Value} {positional positional' : List Value}
      {named named' : List Keyword} {s : EvalState} {t : Scene} : T.Holds places s t →
      function.Moves places function' → Forall₂ (Value.Moves places) positional positional' →
      K places named named' →
      Calls T call K places (Eval.ofRun (call function positional named) s)
        (Perform.ofRun (call function' positional' named') t)

/-- Code passes on the keywords of the evaluation, each once. Those that have not been written out
have different names. -/
structure Collapses (explicit : List Text) (places : List Ref) (named named' : List Keyword) :
    Prop where
  moves : Forall₂ (Keyword.Moves places) (collapse named) named'
  names : ∃ spread, names named = explicit ++ spread ∧ spread.Nodup ∧ ∀ name ∈ spread,
    name ∉ explicit

/-- The arguments of a call are spread as they were gathered. -/
theorem spreading_eq (hlist : h.cells[list]? = some (.list items.toArray))
    (hdict : h.cells[dict]? = some (.dict d)) (hd : d.Spells ks)
    (invoke : List Value → List Keyword → Run Value) :
    Perform.spreading (.list list) (.dict dict) invoke h = invoke items ks h := by
  have hspread : Run.spreadKeywords (.dict dict) h = (.ok ks, h) := by
    rw [Run.spreadKeywords, bind_apply, get_apply]
    dsimp only
    rw [Heap.dict_of_cell hdict, hd.keywords]
    rfl
  have hitems : h.items? (.list list) = some items := by
    rw [Heap.items?, Heap.list, Heap.listItems, hlist]
  rw [Perform.spreading, bind_apply, get_apply]
  dsimp only
  rw [hitems, bind_apply, hspread]
  rfl

/-- What is passed on of a receiver. -/
def passed : Option Value → List Value
  | none => []
  | some receiver => Machine.withReceiver receiver []

theorem callSpread_eq (hlist : t.heap.cells[list]? = some (.list items.toArray))
    (hdict : t.heap.cells[dict]? = some (.dict d)) (hd : d.Spells ks) (function : Value)
    (receiver : Option Value) :
    Perform.callSpread call function receiver (.list list) (.dict dict) t =
      Perform.ofRun (call function (passed receiver ++ items) ks) t := by
  rw [Perform.callSpread, Perform.ofRun, Perform.ofRun, spreading_eq hlist hdict hd]
  cases receiver with
  | none => rfl
  | some receiver =>
    have hfront : Machine.withReceiver receiver items = passed (some receiver) ++ items := by
      rw [passed, Machine.withReceiver, Machine.withReceiver]
      split <;> rfl
    rw [← hfront]

/-- Evaluation and code supply a function with its arguments. -/
theorem ends_arguments (hspread : (star.isNone && doubleStar.isNone && keywords.isEmpty) = false)
    (hoperands : T.PushesAll call globals ctx
      (args ++ (star.toList ++ (keywords.map Prod.snd ++ doubleStar.toList))))
    {function function' : Value} {receiver : List Value} {receiver' : Option Value}
    (hat : T.At places hidden s t) (hfunction : function.Moves places function')
    (hreceiver : Forall₂ (Value.Moves places) receiver (passed receiver')) :
    T.Ends places (T.Calls call (Collapses (keywords.map Prod.fst))) ((do
        let positional ← evalAll call args
        let starred ← evalStar call star
        let named ← evalKeywords call keywords
        let named ← evalDoubleStar call named doubleStar
        Eval.ofRun (call function (receiver ++ positional ++ starred) named)) s)
      (performArguments call globals Gate.opened args star keywords doubleStar ctx function'
        receiver' t) := by
  obtain ⟨hargs, hoperands⟩ := hoperands.split
  obtain ⟨hstar, hoperands⟩ := hoperands.split
  obtain ⟨hkeywords, hdoubleStar⟩ := hoperands.split
  rw [performArguments]
  simp only [hspread, Bool.false_eq_true, if_false]
  refine (follows_all hargs hat).bind
    fun {_ positional positional' s1 t1} hplaces1 hat1 hpositional => ?_
  -- The list of positional arguments is out of sight from here on.
  have hlist : Run.newList positional' t1.heap =
      (.ok (.list t1.heap.cells.size), (t1.heap.alloc (.list positional'.toArray)).2) := rfl
  rw [Perform.ofRun_bind_of_ok hlist]
  refine ends_star hstar (hat1.alloc (.list positional'.toArray))
    fun {_ spread spread' _ _} hplaces2 hat2 hspread => ?_
  refine (follows_keywords hkeywords hat2).bind fun {_ named vs s3 t3} hplaces3 hat3 hnamed => ?_
  obtain ⟨hnames, named', rfl, hnamed⟩ := hnamed
  -- So is the dictionary of keywords.
  obtain ⟨d, hbuild, hd⟩ := Run.buildDict_eq named' t3.heap
  rw [Perform.ofRun_bind_of_ok hbuild]
  refine ends_doubleStar hdoubleStar hd (names_eq hnamed) (hat3.alloc (.dict d))
    fun {_ rest rest' d' s4 t4} hplaces4 hat4 hrest hnodup hnew hd' => ?_
  have hlater := hplaces3.trans hplaces4
  have hgathered := (hat4.apart (mem_cons_of_mem _ mem_cons_self)).2
  have hspelled := (hat4.apart mem_cons_self).2
  rw [callSpread_eq hgathered hspelled hd', append_assoc]
  refine .well (prefix_refl _) (.intro hat4.holds ?_ ?_ ⟨?_, ?_⟩)
  · exact hfunction.mono (hplaces1.trans (hplaces2.trans hlater))
  · have hfront := hreceiver.imp fun _ _ h => h.mono (hplaces1.trans (hplaces2.trans hlater))
    have hmiddle := hpositional.imp fun _ _ h => h.mono (hplaces2.trans hlater)
    exact rel_append hfront (rel_append hmiddle (hspread.imp fun _ _ h => h.mono hlater))
  · -- The keywords of a dictionary are new, so they are there once already.
    have hcollapse : collapse (named ++ rest) = collapse named ++ rest := by
      rw [collapse, foldl_append]
      exact foldl_put hnodup fun name hname hmem =>
        hnew name hname (mem_names_collapse.mp hmem)
    rw [hcollapse]
    have hfront := forall₂_collapse (hnamed.imp fun _ _ h =>
      Keyword.Moves.mk h.name (h.value.mono hplaces4))
    exact rel_append hfront hrest
  · refine ⟨names rest, ?_, hnodup, fun name hname => ?_⟩
    · rw [names, map_append, ← hnames]
      rfl
    · rw [← hnames]
      exact hnew name hname

/-- Evaluation and code find the function of a call, and its receiver. -/
theorem ends_callee (h : T.Pushes call globals ctx (callee.origin method))
    (hat : T.At places hidden s t) :
    T.Ends places (T.Values hidden fun places found found' => found.1.Moves places found'.1 ∧
        Forall₂ (Value.Moves places) found.2 (passed found'.2))
      (evalCallee call callee method s) (performCallee call globals Gate.opened callee
        method ctx t) := by
  by_cases hmethod : ∃ base name, callee = .attr base name ∧ method = true
  · obtain ⟨base, name, rfl, rfl⟩ := hmethod
    rw [evalCallee, performCallee]
    refine (h hat).bind fun {places' v w s' t'} hplaces hat' hv => ?_
    rw [bind_apply, bind_apply]
    rcases Run.method_moves (T.moved hat'.holds) hv name with
      ⟨function, function', bound, hfound, hfound', hfunction, hbound⟩ | ⟨failure, hfound, hfound'⟩
    · rw [Eval.ofRun_of_ok hfound, Perform.ofRun_of_ok hfound']
      refine ends_values hat' ⟨hfunction, ?_⟩
      cases bound with
      | false => exact .nil
      | true =>
        have hpassed : passed (some w) = [w] := if_neg (hbound rfl)
        rw [if_pos rfl, if_pos rfl, hpassed]
        exact .cons hv .nil
    · rw [Eval.ofRun_of_error hfound, Perform.ofRun_of_error hfound']
      exact .failure failure (prefix_refl _) hat'.holds
  · have heval : evalCallee call callee method = (do
        let function ← callee.eval call
        pure (function, [])) := by
      rw [evalCallee]
      exact fun base name heq htrue => hmethod ⟨base, name, heq, htrue⟩
    have hperform : performCallee call globals Gate.opened callee method ctx = (do
        let function ← callee.perform call globals Gate.opened ctx
        pure (function, none)) := by
      rw [performCallee]
      exact fun base name heq htrue => hmethod ⟨base, name, heq, htrue⟩
    have horigin : callee.origin method = callee := by
      rw [origin]
      exact fun base name heq htrue => hmethod ⟨base, name, heq, htrue⟩
    rw [heval, hperform]
    rw [horigin] at h
    exact (h hat).bind fun _ hat' hfunction => ends_values hat' ⟨hfunction, .nil⟩

/-- Evaluation and code of a call with starred or keyword arguments fail alike, or call the same
function with the same arguments. -/
theorem ends_call (hspread : (star.isNone && doubleStar.isNone && keywords.isEmpty) = false)
    (hoperands : T.PushesAll call globals ctx
      (Node.call callee args star keywords doubleStar method).operands)
    (hat : T.At places hidden s t) :
    T.Ends places (T.Calls call (Collapses (keywords.map Prod.fst)))
      ((Node.call callee args star keywords doubleStar method).eval call s)
      ((Node.call callee args star keywords doubleStar method).perform call globals
        Gate.opened ctx t) := by
  obtain ⟨hcallee, harguments⟩ := hoperands.uncons
  rw [after_origin] at harguments
  rw [eval_call, perform_call, Gate.opened]
  refine (ends_callee hcallee hat).bind fun {_ found found' _ _} _ hat' hfound => ?_
  exact ends_arguments hspread harguments hat' hfound.1 hfound.2

/-- A slice that is made out of sight selects what its bounds do. -/
theorem ends_newSlice (hat : T.At places hidden s t) (hv : v.Moves places w)
    (ha : a.Moves places a') (hb : b.Moves places b') (hc : c.Moves places c') :
    T.Ends places (T.Values hidden Value.Moves) (Eval.ofRun (Run.slice v a b c) s)
      ((Perform.ofRun (Run.newSlice a' b' c') >>= fun x => Perform.ofRun (Run.index w x)) t) := by
  have hnew : Run.newSlice a' b' c' t.heap =
      (.ok (.slice t.heap.cells.size), (t.heap.alloc (.slice a' b' c')).2) := rfl
  have hindex : Run.index w (.slice t.heap.cells.size) (t.heap.alloc (.slice a' b' c')).2 =
      Run.slice w a' b' c' (t.heap.alloc (.slice a' b' c')).2 := by
    have hbounds : (t.heap.alloc (.slice a' b' c')).2.slice t.heap.cells.size = (a', b', c') := by
      simp [Heap.slice, Heap.alloc]
    rw [Run.index, bind_apply, get_apply]
    dsimp only
    rw [hbounds]
  rw [Perform.ofRun_bind_of_ok hnew, Eval.ofRun, Perform.ofRun, hindex]
  have hat' := (hat.alloc (.slice a' b' c')).drop
  have hslices := Run.slice_moves (T.moved hat'.holds) hv ha hb hc
  generalize Run.slice v a b c s.heap = o,
    Run.slice w a' b' c' (t.heap.alloc (.slice a' b' c')).2 = o' at hslices
  cases hslices with
  | failure f => exact .failure f (prefix_refl _) hat'.holds
  | text x => exact ends_values hat' rfl
  | sequence make hsequence hcells hmake =>
    have hextended := hat'.extended hsequence hcells
    refine .well (prefix_append _ _) (.intro hextended (hmake ?_))
    rw [← (T.moved hat'.holds).length]
    exact getElem?_concat_length ..

/-- Evaluation and code of a slice fail alike, or come to the same value. -/
theorem ends_slice {base : Node} {start stop step : Option Node}
    (hoperands : T.PushesAll call globals ctx (Node.slice base start stop step).operands)
    (hat : T.At places hidden s t) :
    T.Ends places (T.Values hidden Value.Moves) ((Node.slice base start stop step).eval call s)
      ((Node.slice base start stop step).perform call globals Gate.opened ctx t) := by
  obtain ⟨hbase, hoperands⟩ := hoperands.uncons
  obtain ⟨hstart, hoperands⟩ := hoperands.split
  obtain ⟨hstop, hstep⟩ := hoperands.split
  rw [eval, perform, Gate.opened]
  refine (hbase hat).bind fun _ hat1 hv => (follows_bound hstart hat1).bind fun hplaces2 hat2 ha =>
    (follows_bound hstop hat2).bind fun hplaces3 hat3 hb =>
      (follows_bound hstep hat3).bind fun hplaces4 hat4 hc => ?_
  have hlater := hplaces3.trans hplaces4
  exact ends_newSlice hat4 (hv.mono (hplaces2.trans hlater)) (ha.mono hlater) (hb.mono hplaces4) hc

end Tie

end ExprBackend
