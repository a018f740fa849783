import Mathlib.Data.List.Basic
import Mathlib.Data.List.Pairwise

/-!
# Unordered maps

A map whose keys have a hash and an equality of their own, as the standard containers have. A key
is looked for among the entries that have its hash. No entry is ever erased here, so the place of
an entry in the order of the insertions is a reference that stays good (`emplace_prefix`).

When equal keys hash equally, the lookup is by the equality alone (`find?_eq`), the map has one
entry at most for a class of equal keys (`Distinct.emplace`), and two lookups, whenever they are
made, find the same entry exactly if their keys are equal (`Distinct.eq_iff`).
-/

/-- The hash and the equality of the keys. -/
structure KeyTraits (κ η : Type*) where
  hash : κ → η
  equal : κ → κ → Bool

variable {κ η ν : Type*}

/-- What an unordered map asks of its keys. -/
structure KeyTraits.Lawful (K : KeyTraits κ η) : Prop where
  refl : ∀ a, K.equal a a = true
  symm : ∀ a b, K.equal a b = true → K.equal b a = true
  trans : ∀ a b c, K.equal a b = true → K.equal b c = true → K.equal a c = true
  hash : ∀ a b, K.equal a b = true → K.hash a = K.hash b

namespace UnorderedMap

/-- No two entries have equal keys. -/
def Distinct (K : KeyTraits κ η) (m : List (κ × ν)) : Prop :=
  m.Pairwise fun a b => K.equal a.1 b.1 = false

theorem Distinct.congr {K : KeyTraits κ η} {m m' : List (κ × ν)} (h : Distinct K m)
    (hkeys : m'.map Prod.fst = m.map Prod.fst) : Distinct K m' := by
  have hmap : ∀ m : List (κ × ν), Distinct K m ↔
      (m.map Prod.fst).Pairwise fun a b => K.equal a b = false := by
    intro m
    rw [List.pairwise_map]
    rfl
  rw [hmap, hkeys, ← hmap]
  exact h

/-- Two entries whose keys are equal are the same. -/
theorem Distinct.unique {K : KeyTraits κ η} (hK : K.Lawful) {m : List (κ × ν)}
    (h : Distinct K m) {i j : Nat} {a b : κ × ν} (ha : m[i]? = some a) (hb : m[j]? = some b)
    (hab : K.equal a.1 b.1 = true) : i = j := by
  obtain ⟨hi, rfl⟩ := List.getElem?_eq_some_iff.mp ha
  obtain ⟨hj, rfl⟩ := List.getElem?_eq_some_iff.mp hb
  have hpairs := List.pairwise_iff_getElem.mp h
  rcases Nat.lt_trichotomy i j with hlt | heq | hlt
  · rw [hpairs i j hi hj hlt] at hab
    cases hab
  · exact heq
  · have hba := hK.symm _ _ hab
    rw [hpairs j i hj hi hlt] at hba
    cases hba

/-- The entries of two keys are the same exactly if the keys are equal. -/
theorem Distinct.eq_iff {K : KeyTraits κ η} (hK : K.Lawful) {m : List (κ × ν)}
    (h : Distinct K m) {i j : Nat} {k k' : κ} {a b : κ × ν} (ha : m[i]? = some a)
    (hak : K.equal a.1 k = true) (hb : m[j]? = some b) (hbk : K.equal b.1 k' = true) :
    i = j ↔ K.equal k k' = true := by
  constructor
  · rintro rfl
    rw [ha] at hb
    cases hb
    exact hK.trans _ _ _ (hK.symm _ _ hak) hbk
  · intro hkk
    refine h.unique hK ha hb ?_
    exact hK.trans _ _ _ hak (hK.trans _ _ _ hkk (hK.symm _ _ hbk))

/-! ## Operations -/

variable [DecidableEq η] (K : KeyTraits κ η)

/-- The entry of a key. -/
def find? (m : List (κ × ν)) (k : κ) : Option Nat :=
  m.findIdx? fun e => K.hash e.1 = K.hash k && K.equal e.1 k

def contains (m : List (κ × ν)) (k : κ) : Bool := (find? K m k).isSome

/-- An entry that is there already is left as it is. -/
def emplace (m : List (κ × ν)) (k : κ) (v : ν) : List (κ × ν) :=
  if contains K m k then m else m ++ [(k, v)]

/-- The value of entry `i` is changed. -/
def put (m : List (κ × ν)) (i : Nat) (v : ν) : List (κ × ν) := m.modify i fun e => (e.1, v)

variable {K} {m : List (κ × ν)} {k : κ} {i : Nat}

theorem getElem?_put (v : ν) (j : Nat) :
    (put m i v)[j]? = m[j]?.map fun e => if i = j then (e.1, v) else e := by
  rw [put, List.getElem?_modify]
  by_cases hij : i = j
  · simp only [if_pos hij]
    rfl
  · simp only [if_neg hij, Option.map_id']
    cases m[j]? <;> rfl

theorem map_fst_put (v : ν) : (put m i v).map Prod.fst = m.map Prod.fst := by
  apply List.ext_getElem?
  intro j
  rw [List.getElem?_map, List.getElem?_map, getElem?_put, Option.map_map]
  congr 1
  ext e
  rw [Function.comp_apply]
  split <;> rfl

theorem find?_append {m' : List (κ × ν)} : find? K (m ++ m') k =
    (find? K m k).or ((find? K m' k).map fun i => i + m.length) := by
  rw [find?, List.findIdx?_append]
  rfl

theorem emplace_prefix (v : ν) : m <+: emplace K m k v := by
  unfold emplace
  split
  · exact List.prefix_rfl
  · exact List.prefix_append _ _

/-! ## Keys that hash as they compare -/

variable (hK : K.Lawful)

include hK

/-- The hash does not show. -/
theorem find?_eq : find? K m k = m.findIdx? fun e => K.equal e.1 k := by
  unfold find?
  congr 1
  ext e
  cases hequal : K.equal e.1 k with
  | false => rw [Bool.and_false]
  | true => rw [hK.hash e.1 k hequal, decide_eq_true rfl, Bool.and_true]

/-- A key has an entry once it was put in. -/
theorem contains_emplace (v : ν) : contains K (emplace K m k v) k = true := by
  unfold emplace
  split
  · assumption
  · rw [contains, find?_append]
    have hself : find? K [(k, v)] k = some 0 := by
      rw [find?_eq hK, List.findIdx?_cons, if_pos (hK.refl k)]
    rw [hself, Option.map_some]
    cases find? K m k <;> rfl

theorem equal_of_find? (h : find? K m k = some i) :
    ∃ e, m[i]? = some e ∧ K.equal e.1 k = true := by
  rw [find?_eq hK, List.findIdx?_eq_some_iff_getElem] at h
  obtain ⟨hi, hequal, -⟩ := h
  exact ⟨m[i], List.getElem?_eq_getElem hi, hequal⟩

theorem Distinct.emplace (h : Distinct K m) (v : ν) : Distinct K (emplace K m k v) := by
  unfold UnorderedMap.emplace
  split
  · exact h
  · rename_i hnone
    rw [Bool.not_eq_true, contains, Option.isSome_eq_false_iff, Option.isNone_iff_eq_none,
      find?_eq hK, List.findIdx?_eq_none_iff] at hnone
    refine List.pairwise_append.mpr ⟨h, List.pairwise_singleton _ _, ?_⟩
    intro a ha b hb
    rw [List.mem_singleton.mp hb]
    exact hnone a ha

end UnorderedMap
