import Mathlib.Data.List.Perm.Subperm
import ExprBackend.Proofs.Growth

/-! # The constant pool

A pool keeps one entry for all values that are identical to each other, however many of
them are added and in whatever order. Entries stay where they are.
-/

namespace ExprBackend

open List

namespace Value

variable {u v w : Value}

theorem identical_comm : v.identical w = w.identical v := by
  cases v <;> cases w <;> simp [identical, Bool.beq_comm]

theorem identical_trans (huv : u.identical v = true) (hvw : v.identical w = true) :
    u.identical w = true := by
  cases u <;> cases v <;> cases w <;> simp_all [identical]

end Value

namespace Chunk

variable {c : Chunk} {v w : Value} {vs : List Value}

/-- The places that values have in a pool, and the pool, if it could take any number of them. -/
def placeAll (c : Chunk) : List Value → List Nat × Chunk
  | [] => ([], c)
  | v :: vs =>
    let (indices, c') := (c.addConstant v).2.placeAll vs
    (c.place v :: indices, c')

/-- No two entries of the pool are identical. -/
def Distinct (c : Chunk) : Prop :=
  c.constants.toList.Pairwise fun v w => v.identical w = false

/-- An entry for a value stands at an index of the pool. -/
def Pools (c : Chunk) (i : Nat) (v : Value) : Prop :=
  ∃ w, c.constants.toList[i]? = some w ∧ w.identical v = true

theorem pools_addConstant (c : Chunk) (v : Value) : (c.addConstant v).2.Pools (c.place v) v := by
  rcases c.addConstant_cases v with ⟨heq, w, hw, hidentical⟩ | ⟨hplace, heq, -⟩
  · exact ⟨w, by rw [heq, Array.getElem?_toList, hw], hidentical⟩
  · exact ⟨v, by simp [heq, hplace], v.identical_self⟩

theorem Distinct.addConstant (h : c.Distinct) (v : Value) : (c.addConstant v).2.Distinct := by
  rcases c.addConstant_cases v with ⟨heq, -⟩ | ⟨-, heq, hnew⟩
  · rwa [heq]
  · rw [Distinct, heq, Array.toList_push, pairwise_append]
    exact ⟨h, pairwise_singleton .., by simpa using hnew⟩

/-- One entry alone stands for a value. -/
theorem Distinct.index_eq {i j : Nat} (h : c.Distinct) (hi : c.Pools i v) (hj : c.Pools j w)
    (hidentical : v.identical w = true) : i = j := by
  obtain ⟨a, ha, hav⟩ := hi
  obtain ⟨b, hb, hbw⟩ := hj
  have hab : a.identical b = true :=
    Value.identical_trans (Value.identical_trans hav hidentical) (Value.identical_comm.trans hbw)
  obtain ⟨hilt, rfl⟩ := List.getElem?_eq_some_iff.mp ha
  obtain ⟨hjlt, rfl⟩ := List.getElem?_eq_some_iff.mp hb
  rw [Distinct, List.pairwise_iff_getElem] at h
  rcases Nat.lt_trichotomy i j with hlt | heq | hgt
  · cases (h i j hilt hjlt hlt).symm.trans hab
  · exact heq
  · cases (h j i hjlt hilt hgt).symm.trans (Value.identical_comm.trans hab)

theorem placeAll_grows (vs : List Value) (c : Chunk) :
    c.constants.toList <+: (c.placeAll vs).2.constants.toList := by
  induction vs generalizing c with
  | nil => exact prefix_rfl
  | cons v vs ih => exact (c.addConstant_grows v).trans (ih _)

theorem Distinct.placeAll (vs : List Value) (h : c.Distinct) :
    (c.placeAll vs).2.Distinct := by
  induction vs generalizing c with
  | nil => exact h
  | cons v vs ih => exact ih (h.addConstant v)

/-- The pool holds what it held before and values that were added. -/
theorem mem_placeAll (hw : w ∈ (c.placeAll vs).2.constants) : w ∈ c.constants ∨ w ∈ vs := by
  induction vs generalizing c with
  | nil => exact .inl hw
  | cons v vs ih =>
    rcases ih hw with hpool | hvs
    · exact (mem_addConstant hpool).imp_right fun heq => by simp [heq]
    · exact .inr (mem_cons_of_mem v hvs)

theorem placeAll_take (vs : List Value) (c : Chunk) (j : Nat) :
    (c.placeAll (vs.take j)).1 = (c.placeAll vs).1.take j := by
  induction vs generalizing c j with
  | nil => simp [placeAll]
  | cons v vs ih =>
    cases j with
    | zero => rfl
    | succ j => exact congrArg _ (ih _ j)

/-- Each value has an entry at the index it was given. -/
theorem pools_placeAll {i : Nat} (c : Chunk) (hv : vs[i]? = some v) :
    ∃ index, (c.placeAll vs).1[i]? = some index ∧ (c.placeAll vs).2.Pools index v := by
  induction vs generalizing c i with
  | nil => simp at hv
  | cons u vs ih =>
    cases i with
    | zero =>
      obtain rfl : u = v := by simpa using hv
      obtain ⟨w, hw, hidentical⟩ := c.pools_addConstant u
      exact ⟨_, rfl, w, getElem?_of_prefix (placeAll_grows vs _) hw, hidentical⟩
    | succ i => exact ih _ (by simpa using hv)

/-- Every value is given its place if an operand can hold all of them. -/
theorem addConstants_eq (hsize : (c.placeAll vs).2.constants.size ≤ 65536) :
    c.addConstants vs = (.ok (c.placeAll vs).1, (c.placeAll vs).2) := by
  induction vs generalizing c with
  | nil => rfl
  | cons v vs ih =>
    have hfits : (c.addConstant v).2.constants.size ≤ 65536 :=
      Nat.le_trans (by simpa [placeAll] using (placeAll_grows vs (c.addConstant v).2).length_le)
        hsize
    have hadd : c.addConstant v = (.ok (c.place v), (c.addConstant v).2) := by
      rw [addConstant] at hfits ⊢
      rw [place]
      cases hplace : c.constants.findIdx? (·.identical v) with
      | some i => rfl
      | none =>
        simp only [hplace, Array.size_push] at hfits
        rw [if_pos (by omega)]
        rfl
    rw [addConstants, hadd]
    dsimp only
    rw [ih hsize]
    rfl

/-- A pool has as many entries as there are values that differ. -/
theorem placeAll_size_le (hfew : ∀ ws ⊆ vs,
    (ws.Pairwise fun (v w : Value) => v.identical w = false) →
      ws.length ≤ 65536) : (({} : Chunk).placeAll vs).2.constants.size ≤ 65536 := by
  have hdistinct : (({} : Chunk).placeAll vs).2.Distinct := Distinct.placeAll vs List.Pairwise.nil
  simpa using hfew _ (fun w hw => (mem_placeAll (by simpa using hw)).resolve_left
    (by simp)) hdistinct

/-- Values among which at most 65536 differ from each other are all put into the pool, and each gets
an index that an operand can hold. The entry there is identical to it at once and after all later
additions, no two entries are identical, and two values share an index exactly if they are
identical. So values that are equal without being identical never do. -/
theorem addConstants_exact
    (hfew : ∀ ws ⊆ vs, (ws.Pairwise fun (v w : Value) => v.identical w = false) →
      ws.length ≤ 65536) :
    ∃ indices c, ({} : Chunk).addConstants vs = (.ok indices, c) ∧ c.Distinct ∧
      (∀ (i : Nat) v, vs[i]? = some v → ∃ index < 65536, indices[i]? = some index ∧
        ∀ j, i < j → (({} : Chunk).addConstants (vs.take j)).2.Pools index v) ∧
      ∀ (i j : Nat) v w, vs[i]? = some v → vs[j]? = some w →
        (indices[i]? = indices[j]? ↔ v.identical w = true) := by
  have hsize := placeAll_size_le hfew
  have hdistinct : (({} : Chunk).placeAll vs).2.Distinct := Distinct.placeAll vs List.Pairwise.nil
  refine ⟨_, _, addConstants_eq hsize, hdistinct, fun i v hv => ?_, fun i j v w hv hw => ?_⟩
  · obtain ⟨index, hindex, u, hu, -⟩ := pools_placeAll {} hv
    have hlt := (List.getElem?_eq_some_iff.mp hu).1
    rw [Array.length_toList] at hlt
    refine ⟨index, by omega, hindex, fun j hj => ?_⟩
    -- The indices of the first additions are the first indices.
    have hfirst := placeAll_size_le fun ws hws =>
      hfew ws fun w hw => take_subset j vs (hws hw)
    obtain ⟨index', hindex', hpools⟩ :=
      pools_placeAll {} (show (vs.take j)[i]? = some v by rw [getElem?_take_of_lt hj, hv])
    rw [placeAll_take, getElem?_take_of_lt hj, hindex] at hindex'
    obtain rfl := Option.some.inj hindex'
    rw [addConstants_eq hfirst]
    exact hpools
  · obtain ⟨index, hindex, hpools⟩ := pools_placeAll {} hv
    obtain ⟨index', hindex', hpools'⟩ := pools_placeAll {} hw
    rw [hindex, hindex', Option.some.injEq]
    constructor
    · rintro rfl
      obtain ⟨u, hu, huv⟩ := hpools
      obtain ⟨u', hu', huw⟩ := hpools'
      obtain rfl := Option.some.inj (hu.symm.trans hu')
      exact Value.identical_trans (Value.identical_comm.trans huv) huw
    · exact hdistinct.index_eq hpools hpools'

/-- The integer 1 and the truth value are not identical, and keep their own entries. -/
theorem addConstants_exact_oneTrue :
    ∃ c, ({} : Chunk).addConstants [.int 1, .bool true, .int 1] = (.ok [0, 1, 0], c) ∧
    c.Distinct := by
  obtain ⟨indices, c, hadd, hdistinct, -⟩ :=
    @addConstants_exact [.int 1, .bool true, .int 1] fun ws hws hpairwise => by
      have hnodup : ws.Nodup :=
        hpairwise.imp fun hne heq => by simp [heq, Value.identical_self] at hne
      exact (hnodup.subperm hws).length_le.trans (by decide)
  have hindices : (({} : Chunk).addConstants [.int 1, .bool true, .int 1]).1 = .ok [0, 1, 0] := by
    decide +kernel
  rw [hadd] at hindices
  cases hindices
  exact ⟨c, hadd, hdistinct⟩

end Chunk

end ExprBackend
