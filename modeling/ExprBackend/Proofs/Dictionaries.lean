import Mathlib.Data.List.Induction
import Mathlib.Data.List.Nodup
import ExprBackend.Operator.Comparison
import ExprBackend.Proofs.Computation

/-! # Dictionaries keep the order of their keys

A dictionary that is filled key by key, also with values that cannot be keys, has its
keys in the order in which they were first set. A key that is set again keeps its
place and its spelling and gets the new value, and a value that cannot be a key changes
nothing. So keys, values and canonical texts stay in step, and what is found under a
key is what was set last.
-/

namespace ExprBackend

open List

variable {d : Dict} {h : Heap} {hash : Text} {i : Nat} {r : Ref}

namespace Dict

variable {value : Value} {sets : List Entry}

/-- The canonical texts of the keys, in order of first appearance. -/
def hashes (d : Dict) : List Text := d.entries.map (·.hash)

/-- A dictionary in which one more entry is set. -/
def put (d : Dict) (e : Entry) : Dict := d.set e.hash e.key e.value

/-- The dictionary in which entries are set one after the other. -/
def ofSets (sets : List Entry) : Dict := sets.foldl put .empty

/-! ## The index -/

theorem hashes_eq (d : Dict) : d.hashes = (d.index.map Prod.fst).reverse := by
  simp [hashes, entries, latest, Function.comp_def]

theorem nodup_hashes (d : Dict) : d.hashes.Nodup := by
  rw [hashes_eq]
  exact nodup_reverse.mpr d.inStep.distinct

theorem mem_hashes_iff : hash ∈ d.hashes ↔ d.latest.any (·.hash == hash) = true := by
  simp [hashes, entries]

theorem size_eq (d : Dict) : d.size = d.latest.length := by
  simpa [latest, size] using (congrArg length d.inStep.placed).symm

theorem lt_size {entry : Text × Nat} (hentry : entry ∈ d.index) : entry.2 < d.keys.size := by
  have hplace := d.inStep.placed ▸ mem_map_of_mem hentry
  simpa using hplace

/-- The index has a place under a text if it is looked up there. -/
theorem lookup_eq_some_iff : d.index.lookup hash = some i ↔ (hash, i) ∈ d.index := by
  rw [List.lookup_eq_some_iff]
  constructor
  · rintro ⟨before, after, heq, -⟩
    rw [heq]
    exact mem_append_right _ mem_cons_self
  · intro hmem
    obtain ⟨before, after, heq⟩ := append_of_mem hmem
    refine ⟨before, after, heq, fun entry hentry => ?_⟩
    have hdistinct := heq ▸ d.inStep.distinct
    rw [map_append, map_cons, nodup_append] at hdistinct
    simpa using Ne.symm (hdistinct.2.2 _ (mem_map_of_mem hentry) _ mem_cons_self)

theorem lookup_eq_none_iff : d.index.lookup hash = none ↔ hash ∉ d.hashes := by
  rw [List.lookup_eq_none_iff, hashes_eq, mem_reverse, mem_map]
  exact ⟨fun h ⟨entry, hentry, heq⟩ => by simpa [heq] using h entry hentry,
    fun h entry hentry => bne_iff_ne.mpr fun heq => h ⟨entry, hentry, heq.symm⟩⟩

theorem mem_hashes_of_lookup (h : d.index.lookup hash = some i) : hash ∈ d.hashes := by
  rw [hashes_eq, mem_reverse]
  exact mem_map_of_mem (lookup_eq_some_iff.mp h)

theorem find?_eq (d : Dict) (hash : Text) :
    d.find? hash = (d.latest.find? (·.hash == hash)).map (·.value) := by
  cases hlookup : d.index.lookup hash with
  | none =>
    have hnone : d.latest.find? (·.hash == hash) = none := by
      simpa [mem_hashes_iff] using lookup_eq_none_iff.mp hlookup
    rw [Parts.find?, hlookup, hnone]
    rfl
  | some i =>
    have hmem := lookup_eq_some_iff.mp hlookup
    have hlt : i < d.values.size := d.inStep.paired ▸ lt_size hmem
    have hfind : d.index.find? (·.1 == hash) = some (hash, i) := by
      have hsome : (d.index.find? (·.1 == hash)).isSome = true :=
        find?_isSome.mpr ⟨(hash, i), hmem, beq_self_eq_true hash⟩
      obtain ⟨entry, hentry⟩ := Option.isSome_iff_exists.mp hsome
      have hhash : entry.1 = hash := by simpa using find?_some hentry
      rw [hentry, inj_on_of_nodup_map d.inStep.distinct (mem_of_find?_eq_some hentry) hmem hhash]
    rw [Parts.find?, hlookup, latest, find?_map]
    simp only [Function.comp_def, hfind]
    simp [hlt]

/-! ## One setting -/

/-- A key that is there gets the value, and another goes before all that were set earlier. -/
theorem latest_set (d : Dict) (hash : Text) (key value : Value) : (d.set hash key value).latest =
    if d.latest.any (·.hash == hash) then
      d.latest.map fun e => if e.hash == hash then { e with value } else e
    else ⟨hash, key, value⟩ :: d.latest := by
  cases hlookup : d.index.lookup hash with
  | none =>
    rw [if_neg (mt mem_hashes_iff.mpr (lookup_eq_none_iff.mp hlookup))]
    simp only [latest, set, Parts.set, hlookup, map_cons]
    have hvalues : d.keys.size = d.values.size := d.inStep.paired.symm
    have hpushed : (d.values.push value)[d.keys.size]? = some value := by
      rw [hvalues, Array.getElem?_push_size]
    congr 1
    · simp [hpushed]
    · refine map_congr_left fun entry hentry => ?_
      have hlt := lt_size hentry
      simp [Array.getElem?_push, Nat.ne_of_lt hlt, ← hvalues]
  | some i =>
    have hmem := lookup_eq_some_iff.mp hlookup
    have hlt : i < d.values.size := d.inStep.paired ▸ lt_size hmem
    have hplaces : (d.index.map Prod.snd).Nodup :=
      d.inStep.placed ▸ nodup_reverse.mpr nodup_range
    rw [if_pos (mem_hashes_iff.mp (mem_hashes_of_lookup hlookup))]
    simp only [latest, set, Parts.set, hlookup, map_map]
    refine map_congr_left fun entry hentry => ?_
    by_cases hhash : entry.1 = hash
    · obtain rfl : entry = (hash, i) := inj_on_of_nodup_map d.inStep.distinct hentry hmem hhash
      simp [hlt]
    · have hplace : i ≠ entry.2 := fun heq =>
        hhash (congrArg Prod.fst (inj_on_of_nodup_map hplaces hentry hmem heq.symm))
      simp [hhash, hplace]

/-- A key that is there gets the value, and another goes behind all others. -/
theorem entries_put (d : Dict) (e : Entry) : (d.put e).entries =
    if e.hash ∈ d.hashes then
      d.entries.map fun other => if other.hash == e.hash then { other with value := e.value }
      else other
    else d.entries ++ [e] := by
  rw [put, entries, latest_set, entries]
  by_cases hmem : e.hash ∈ d.hashes
  · rw [if_pos hmem, if_pos (mem_hashes_iff.mp hmem), map_reverse]
  · rw [if_neg hmem, if_neg (mt mem_hashes_iff.mpr hmem), reverse_cons]

theorem hashes_put (d : Dict) (e : Entry) :
    (d.put e).hashes = if e.hash ∈ d.hashes then d.hashes else d.hashes ++ [e.hash] := by
  rw [hashes, entries_put]
  split
  next =>
    rw [map_map]
    refine map_congr_left fun other _ => ?_
    rw [Function.comp_apply]
    split <;> rfl
  next => rw [map_append, map_singleton, hashes]

/-- Keys are added with their values, or a value takes the place of another. -/
theorem parts_put (d : Dict) (e : Entry) :
    if e.hash ∈ d.hashes then
      (d.put e).keys = d.keys ∧ ∀ i : Nat, (d.put e).values[i]? =
        if d.index.lookup e.hash = some i then some e.value else d.values[i]?
    else (d.put e).keys = d.keys.push e.key ∧ (d.put e).values = d.values.push e.value := by
  cases hlookup : d.index.lookup e.hash with
  | none =>
    rw [if_neg (lookup_eq_none_iff.mp hlookup)]
    simp [put, set, Parts.set, hlookup]
  | some place =>
    have hlt := d.inStep.paired ▸ lt_size (lookup_eq_some_iff.mp hlookup)
    rw [if_pos (mem_hashes_of_lookup hlookup)]
    simp only [put, set, Parts.set, hlookup, Option.some.injEq, true_and]
    intro i
    rw [Array.getElem?_setIfInBounds, if_pos hlt]

/-- The index has the place of every text. -/
theorem lookup_eq_iff_hashes : d.index.lookup hash = some i ↔ d.hashes[i]? = some hash := by
  have hplace : ∀ {i : Nat} {entry : Text × Nat}, d.index.reverse[i]? = some entry →
      entry.2 = i := by
    intro i entry hentry
    have hsnd : (d.index.reverse.map Prod.snd)[i]? =
        some entry.2 := by rw [getElem?_map, hentry]; rfl
    rw [map_reverse, d.inStep.placed, reverse_reverse] at hsnd
    obtain ⟨hlt, heq⟩ := List.getElem?_eq_some_iff.mp hsnd
    simpa using heq.symm
  rw [lookup_eq_some_iff, hashes_eq, ← map_reverse, getElem?_map, Option.map_eq_some_iff]
  constructor
  · intro hmem
    obtain ⟨j, hj⟩ := mem_iff_getElem?.mp (mem_reverse.mpr hmem)
    obtain rfl : i = j := hplace hj
    exact ⟨_, hj, rfl⟩
  · rintro ⟨entry, hentry, rfl⟩
    obtain rfl := hplace hentry
    exact mem_reverse.mp (mem_of_getElem? hentry)

theorem keys_eq (d : Dict) : d.keys.toList = d.entries.map (·.key) := by
  have hplaces : d.index.reverse.map Prod.snd = range d.keys.size := by
    rw [map_reverse, d.inStep.placed, reverse_reverse]
  have hkeys : d.entries.map (·.key) = (d.index.reverse.map Prod.snd).map fun i =>
      d.keys[i]?.getD .none := by
    simp [entries, latest, Function.comp_def]
  rw [hkeys, hplaces]
  apply ext_getElem?
  intro i
  by_cases hi : i < d.keys.size <;> simp [hi]

/-- What is found under a text is the value of the entry with it. -/
theorem find?_eq_some_iff :
    d.find? hash = some value ↔ ∃ e ∈ d.entries, e.hash = hash ∧ e.value = value := by
  rw [find?_eq, Option.map_eq_some_iff]
  constructor
  · rintro ⟨e, hfind, rfl⟩
    exact ⟨e, mem_reverse.mpr (mem_of_find?_eq_some hfind), by simpa using find?_some hfind, rfl⟩
  · rintro ⟨e, he, rfl, rfl⟩
    obtain ⟨e', hfind⟩ : ∃ e', d.latest.find? (·.hash == e.hash) = some e' :=
      Option.isSome_iff_exists.mp (find?_isSome.mpr ⟨e, mem_reverse.mp he, beq_self_eq_true _⟩)
    have hmem := mem_reverse.mpr (mem_of_find?_eq_some hfind)
    refine ⟨e', hfind, congrArg Entry.value (inj_on_of_nodup_map d.nodup_hashes hmem he ?_)⟩
    simpa using find?_some hfind

theorem find?_isSome_iff : (d.find? hash).isSome = true ↔ hash ∈ d.hashes := by
  rw [find?_eq]
  simp [hashes, entries]

/-- The value that is set is found under its text, and under every other text what was there. -/
theorem find?_put (d : Dict) (e : Entry) (hash : Text) :
    (d.put e).find? hash = if e.hash = hash then some e.value else d.find? hash := by
  have hsame : ∀ other : Entry, (if other.hash == e.hash then { other with value := e.value }
      else other).hash = other.hash := fun other => by split <;> rfl
  rw [find?_eq, find?_eq, put, latest_set]
  split
  next hmem =>
    simp only [find?_map, Function.comp_def, hsame]
    cases hfind : d.latest.find? (·.hash == hash) with
    | none =>
      have hnone := find?_eq_none.mp hfind
      rw [if_neg]
      · rfl
      · rintro rfl
        obtain ⟨other, hother, heq⟩ := any_eq_true.mp hmem
        exact hnone other hother heq
    | some other =>
      have hhash : other.hash = hash := by simpa using find?_some hfind
      by_cases heq : e.hash = hash
      · simp [heq, hhash]
      · simp [heq, hhash, Ne.symm heq]
  next => by_cases heq : e.hash = hash <;> simp [heq]

/-! ## Many settings -/

theorem ofSets_append (sets : List Entry) (e : Entry) :
    ofSets (sets ++ [e]) = (ofSets sets).put e := by
  simp [ofSets]

/-- Keys stand in the order in which they were first set. -/
theorem hashes_ofSets (sets : List Entry) :
    (ofSets sets).hashes = (sets.map (·.hash)).eraseDups := by
  induction sets using reverseRecOn with
  | nil => rfl
  | append_singleton sets e ih =>
    rw [ofSets_append, hashes_put, ih, map_append, map_singleton, eraseDups_append]
    generalize sets.map (·.hash) = hashes
    by_cases hmem : e.hash ∈ hashes <;> simp [removeAll, eraseDups_cons, hmem]

/-- A key is spelled as it was when it was first set. -/
theorem key_of_mem_ofSets {e : Entry} (he : e ∈ (ofSets sets).entries) :
    (sets.find? (·.hash == e.hash)).map (·.key) = some e.key := by
  induction sets using reverseRecOn generalizing e with
  | nil => exact absurd he not_mem_nil
  | append_singleton sets last ih =>
    have hgrown : ∀ old ∈ (ofSets sets).entries,
        ((sets ++ [last]).find? (·.hash == old.hash)).map (·.key) = some old.key := by
      intro old hold
      obtain ⟨first, hfirst, hkey⟩ := Option.map_eq_some_iff.mp (ih hold)
      rw [find?_append, hfirst]
      exact congrArg some hkey
    rw [ofSets_append, entries_put] at he
    split at he
    next =>
      obtain ⟨old, hold, rfl⟩ := mem_map.mp he
      split <;> exact hgrown old hold
    next hnew =>
      rcases mem_append.mp he with hold | hlast
      · exact hgrown e hold
      · obtain rfl := mem_singleton.mp hlast
        have hnone : sets.find? (·.hash == e.hash) = none := by
          simpa [hashes_ofSets, mem_eraseDups] using hnew
        simp [find?_append, hnone]

/-- What is found is what was set last. -/
theorem find?_ofSets (sets : List Entry) (hash : Text) :
    (ofSets sets).find? hash = (sets.reverse.find? (·.hash == hash)).map (·.value) := by
  induction sets using reverseRecOn with
  | nil => rfl
  | append_singleton sets e ih =>
    rw [ofSets_append, find?_put, ih, reverse_append, reverse_singleton, singleton_append]
    by_cases heq : e.hash = hash <;> simp [heq]

end Dict

/-! ## Dictionaries in the heap -/

namespace Heap

variable {cell : Cell}

theorem setCell_same (hcell : h.cells[r]? = some cell) : h.setCell r cell = h := by
  obtain ⟨hlt, heq⟩ := Array.getElem?_eq_some_iff.mp hcell
  rw [setCell, Array.setIfInBounds, dif_pos hlt, ← heq, Array.set_getElem_self]

theorem setCell_setCell (h : Heap) (r : Ref) (cell cell' : Cell) :
    (h.setCell r cell).setCell r cell' = h.setCell r cell' := by
  simp [setCell]

theorem getElem?_setCell (hcell : h.cells[r]? = some cell) (cell' : Cell) :
    (h.setCell r cell').cells[r]? = some cell' := by
  have hlt := (Array.getElem?_eq_some_iff.mp hcell).1
  simp [setCell, hlt]

theorem dict_of_cell (hcell : h.cells[r]? = some (.dict d)) : h.dict r = d := by
  rw [dict, hcell]

/-- A dictionary is no part of a key, so keys do not change with it. -/
theorem key?_setCell (hcell : h.cells[r]? = some (.dict d)) (d' : Dict) (v : Value) :
    (h.setCell r (.dict d')).key? v = h.key? v := by
  have htuple : ∀ s, (h.setCell r (.dict d')).tuple s = h.tuple s := by
    intro s
    by_cases hs : r = s
    · subst hs
      rw [tuple, tuple, getElem?_setCell hcell, hcell]
    · simp [tuple, setCell, hs]
  have hlevel : ∀ level v, (h.setCell r (.dict d')).keyTo? level v = h.keyTo? level v := by
    intro level
    induction level with
    | zero => exact fun _ => rfl
    | succ level ih =>
      intro v
      cases v with
      | tuple s => rw [keyTo?, keyTo?, funext ih, view, view, htuple]
      | _ => rfl
  rw [key?, key?, levels, levels, setCell, Array.size_setIfInBounds]
  exact hlevel _ v

/-- The entries that are set by calls with keys and values: those whose key can be one. -/
def settings (h : Heap) (calls : List (Value × Value)) : List Dict.Entry :=
  calls.filterMap fun (key, value) => (h.key? key).map fun hash => ⟨hash, key, value⟩

theorem settings_cons (h : Heap) (key value : Value) (calls : List (Value × Value)) :
    h.settings ((key, value) :: calls) = match h.key? key with
      | some hash => ⟨hash, key, value⟩ :: h.settings calls
      | none => h.settings calls := by
  rw [settings, filterMap_cons]
  dsimp only
  cases h.key? key <;> rfl

/-- The heap after calls that set keys and values of a dictionary, of which some may have failed. -/
def setAll (r : Ref) (h : Heap) (calls : List (Value × Value)) : Heap :=
  calls.foldl (fun h (key, value) => (Run.dictSet r key value h).2) h

end Heap

namespace Run

theorem dictKey_apply (key : Value) (h : Heap) : dictKey key h = (match h.key? key with
    | some hash => .ok hash
    | none => .error (.runtime (.unhashable key.kind)), h) := by
  rw [dictKey, bind_apply, get_apply]
  dsimp only
  cases h.key? key <;> rfl

theorem dictGet?_apply (r : Ref) (key : Value) (h : Heap) :
    dictGet? r key h = (match h.key? key with
    | some hash => .ok ((h.dict r).find? hash)
    | none => .error (.runtime (.unhashable key.kind)), h) := by
  rw [dictGet?, bind_apply, dictKey_apply]
  cases h.key? key <;> rfl

theorem dictSet_apply (r : Ref) (key value : Value) (h : Heap) : dictSet r key value h =
    match h.key? key with
    | some hash => (.ok (), h.setCell r (.dict ((h.dict r).put ⟨hash, key, value⟩)))
    | none => (.error (.runtime (.unhashable key.kind)), h) := by
  rw [dictSet, bind_apply, dictKey_apply]
  cases h.key? key <;> rfl

end Run

/-- Calls that set keys change the dictionary by the settings that succeed, and nothing else. -/
theorem Heap.setAll_eq (hcell : h.cells[r]? = some (.dict d)) (calls : List (Value × Value)) :
    h.setAll r calls = h.setCell r (.dict ((h.settings calls).foldl Dict.put d)) := by
  induction calls generalizing h d with
  | nil => exact (setCell_same hcell).symm
  | cons call calls ih =>
    obtain ⟨key, value⟩ := call
    change setAll r (Run.dictSet r key value h).2 calls = _
    rw [Run.dictSet_apply, dict_of_cell hcell, settings_cons]
    cases h.key? key with
    | none => exact ih hcell
    | some hash =>
      have hsame : ∀ d', (h.setCell r (.dict d')).settings calls = h.settings calls := fun d' => by
        simp only [settings, key?_setCell hcell]
      dsimp only
      rw [ih (getElem?_setCell hcell _), setCell_setCell, hsame]
      rfl

/-- The texts of entries are those of their keys. -/
theorem Dict.keyed_ofSets (h : Heap) (calls : List (Value × Value)) :
    ∀ e ∈ (ofSets (h.settings calls)).entries, h.key? e.key = some e.hash := by
  intro e he
  obtain ⟨first, hfirst, hkey⟩ := Option.map_eq_some_iff.mp (key_of_mem_ofSets he)
  obtain ⟨call, -, hcall⟩ := mem_filterMap.mp (mem_of_find?_eq_some hfirst)
  obtain ⟨hash, hhash, rfl⟩ := Option.map_eq_some_iff.mp hcall
  have heq : hash = e.hash := by simpa using find?_some hfirst
  rw [← hkey, ← heq]
  exact hhash

namespace Heap

variable {h' : Heap} {calls : List (Value × Value)}

/-- A dictionary that starts empty and is filled by calls, of which some may fail, is a map in the
order of its keys' first appearance: its keys, values and index stay in step, the last value of a
key counts, and a call that fails changes nothing. -/
theorem setAll_in_order (hnew : h.cells[r]? = some (.dict .empty))
    (hcalls : h.setAll r calls = h') :
    ∃ d, h'.cells[r]? = some (.dict d) ∧ (∀ v, h'.key? v = h.key? v) ∧
      (d.keys.size = d.values.size ∧
        (∀ (i : Nat) key, d.keys[i]? = some key →
          ∃ hash, h'.key? key = some hash ∧ d.index.lookup hash = some i) ∧
        (∀ hash i, d.index.lookup hash = some i →
          ∃ key, d.keys[i]? = some key ∧ h'.key? key = some hash) ∧
        ∀ (i j : Nat) key key', d.keys[i]? = some key → d.keys[j]? = some key' →
          h'.key? key = h'.key? key' → i = j) ∧
      (d.keys.toList.map h'.key? = (((h.settings calls).map (·.hash)).eraseDups).map some ∧
        ∀ key ∈ d.keys, ∃ hash, h'.key? key = some hash ∧
          ((h.settings calls).find? (·.hash == hash)).map (·.key) = some key) ∧
      (∀ key, Run.dictGet? r key h' = (match h'.key? key with
        | some hash => .ok (((h.settings calls).reverse.find? (·.hash == hash)).map (·.value))
        | none => .error (.runtime (.unhashable key.kind)), h')) ∧
      ∀ key value, match h'.key? key with
        | some hash => ∃ d', Run.dictSet r key value h' = (.ok (), h'.setCell r (.dict d')) ∧
            if (d.index.lookup hash).isSome then
              d'.keys = d.keys ∧ ∀ i : Nat, d'.values[i]? =
                if d.index.lookup hash = some i then some value else d.values[i]?
            else d'.keys = d.keys.push key ∧ d'.values = d.values.push value
        | none => Run.dictSet r key value h' = (.error (.runtime (.unhashable key.kind)), h') ∧
            (RuntimeError.unhashable key.kind).category = .typeMismatch := by
  obtain rfl : h' = h.setCell r (.dict (.ofSets (h.settings calls))) :=
    hcalls ▸ setAll_eq hnew calls
  have hcell := getElem?_setCell hnew (.dict (.ofSets (h.settings calls)))
  have hkeys := funext (key?_setCell hnew (.ofSets (h.settings calls)))
  have hkeyed := Dict.keyed_ofSets h calls
  have hfirst := @Dict.key_of_mem_ofSets (h.settings calls)
  have hhashes := Dict.hashes_ofSets (h.settings calls)
  have hfound := Dict.find?_ofSets (h.settings calls)
  simp only [hkeys]
  generalize Dict.ofSets (h.settings calls) = d at *
  have htexts : d.keys.toList.map h.key? = d.hashes.map some := by
    rw [Dict.keys_eq, Dict.hashes, map_map, map_map]
    exact map_congr_left hkeyed
  have hplaced : ∀ (i : Nat) key, d.keys[i]? = some key →
      ∃ hash, h.key? key = some hash ∧ d.index.lookup hash = some i := by
    intro i key hkey
    have hi : (d.keys.toList.map h.key?)[i]? = some (h.key? key) := by simp [hkey]
    rw [htexts, getElem?_map, Option.map_eq_some_iff] at hi
    obtain ⟨hash, hhash, heq⟩ := hi
    exact ⟨hash, heq.symm, Dict.lookup_eq_iff_hashes.mpr hhash⟩
  refine ⟨d, hcell, fun _ => trivial, ⟨d.inStep.paired.symm, hplaced, fun hash i hi => ?_,
    fun i j key key' hi hj heq => ?_⟩, ⟨hhashes ▸ htexts, fun key hkey => ?_⟩, fun key => ?_,
    fun key value => ?_⟩
  · have hi : (d.keys.toList.map h.key?)[i]? = some (some hash) := by
      rw [htexts, getElem?_map, Dict.lookup_eq_iff_hashes.mp hi]
      rfl
    simpa using hi
  · obtain ⟨hash, hhash, hlookup⟩ := hplaced i key hi
    obtain ⟨hash', hhash', hlookup'⟩ := hplaced j key' hj
    obtain rfl : hash = hash' := Option.some.inj (hhash.symm.trans (heq.trans hhash'))
    exact Option.some.inj (hlookup.symm.trans hlookup')
  · rw [← Array.mem_toList_iff, Dict.keys_eq] at hkey
    obtain ⟨e, he, rfl⟩ := mem_map.mp hkey
    exact ⟨e.hash, hkeyed e he, hfirst he⟩
  · rw [Run.dictGet?_apply, dict_of_cell hcell, hkeys]
    simp only [hfound]
  · rw [Run.dictSet_apply, dict_of_cell hcell, hkeys]
    split
    next hash hkey =>
      refine ⟨_, rfl, ?_⟩
      have hparts := d.parts_put ⟨hash, key, value⟩
      have hsome : hash ∈ d.hashes ↔ (d.index.lookup hash).isSome = true := by
        rw [Option.isSome_iff_ne_none, ne_eq, Dict.lookup_eq_none_iff, not_not]
      simpa only [hsome] using hparts
    next => exact ⟨rfl, rfl⟩

/-- A heap with an empty dictionary. -/
def blank : Heap where
  cells := #[.dict .empty]

/-- A key is set twice, and after the first time a dictionary is tried as a key. -/
def attempts : List (Value × Value) :=
  [(.int 1, .none), (.dict 0, .none), (.int 2, .int 5), (.int 1, .bool true)]

theorem setAll_in_order_attempts : ∃ d, (blank.setAll 0 attempts).cells[0]? = some (.dict d) ∧
    d.keys.toList.map (blank.setAll 0 attempts).key? = ["n1", "n2"].map (some <| Text.ofString ·) ∧
    (Run.dictGet? 0 (.int 1) (blank.setAll 0 attempts)).1 = .ok (some (.bool true)) := by
  obtain ⟨d, hcell, hkeys, -, ⟨hhashes, -⟩, hget, -⟩ :=
    setAll_in_order (h := blank) (r := 0) rfl (Eq.refl (blank.setAll 0 attempts))
  refine ⟨d, hcell, hhashes.trans (by decide), ?_⟩
  rw [hget, hkeys]
  decide

end Heap

end ExprBackend
