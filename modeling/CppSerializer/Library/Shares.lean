import Mathlib.Data.List.Perm.Basic

/-!
# What parties hold together

The parties are the entries of a list, and `f` says what an entry holds, so that
`l.flatMap f` is all that they hold. `count_set` is what an entry that changes does to how often
something is held, and `flatMap_set_perm` what it does to the whole, up to the order.
`exists_filter_set` is what it does to the parties of its kind.
-/

namespace Shares

variable {α β : Type*} {f : α → List β} {l : List α} {i : Nat} {a : α}

theorem flatMap_perm (h : l[i]? = some a) :
    (l.flatMap f).Perm (f a ++ (l.eraseIdx i).flatMap f) := by
  obtain ⟨hi, rfl⟩ := List.getElem?_eq_some_iff.mp h
  have hperm := (List.getElem_cons_eraseIdx_perm hi).symm.flatMap_right f
  rwa [List.flatMap_cons] at hperm

theorem flatMap_set_perm (h : l[i]? = some a) (a' : α) :
    ((l.set i a').flatMap f).Perm (f a' ++ (l.eraseIdx i).flatMap f) := by
  obtain ⟨hi, -⟩ := List.getElem?_eq_some_iff.mp h
  have hperm := flatMap_perm (f := f) (l := l.set i a') (List.getElem?_set_self hi)
  rwa [List.eraseIdx_set_eq] at hperm

/-- Where no entry holds more, all of them do not. -/
theorem length_flatMap_le {γ : Type*} {g : α → List γ} {l : List α}
    (h : ∀ a ∈ l, (f a).length ≤ (g a).length) :
    (l.flatMap f).length ≤ (l.flatMap g).length := by
  induction l with
  | nil => exact Nat.le_refl 0
  | cons a l ih =>
    have hfirst := h a List.mem_cons_self
    have hrest := ih fun b hb => h b (List.mem_cons_of_mem a hb)
    rw [List.flatMap_cons, List.flatMap_cons, List.length_append, List.length_append]
    omega

/-- One thing at most has no order. -/
theorem eq_of_perm {l' : List α} (h : l.Perm l') (hl : l.length ≤ 1) : l = l' := by
  cases l with
  | nil => exact h.nil_eq
  | cons a l =>
    rw [List.length_cons] at hl
    obtain rfl : l = [] := List.length_eq_zero_iff.mp (by omega)
    exact (List.perm_singleton.mp h.symm).symm

/-- Entries that hold one thing at most. -/
theorem filterMap_perm {g : α → Option β} (h : l[i]? = some a) :
    (l.filterMap g).Perm ((g a).toList ++ (l.eraseIdx i).filterMap g) := by
  rw [List.filterMap_eq_flatMap_toList, List.filterMap_eq_flatMap_toList]
  exact flatMap_perm h

theorem filterMap_set_perm {g : α → Option β} (h : l[i]? = some a) (a' : α) :
    ((l.set i a').filterMap g).Perm ((g a').toList ++ (l.eraseIdx i).filterMap g) := by
  rw [List.filterMap_eq_flatMap_toList, List.filterMap_eq_flatMap_toList]
  exact flatMap_set_perm h a'

theorem map_set_eq {γ : Type*} {g : α → γ} {a' : α} (h : l[i]? = some a) (hg : g a' = g a) :
    (l.set i a').map g = l.map g := by
  have hmap : (l.map g)[i]? = some (g a) := by rw [List.getElem?_map, h]; rfl
  obtain ⟨hi, hget⟩ := List.getElem?_eq_some_iff.mp hmap
  rw [List.map_set, hg, ← hget, List.set_getElem_self]

/-- An entry that goes on to hold the same changes nothing. -/
theorem flatMap_set_eq {a' : α} (h : l[i]? = some a) (hf : f a' = f a) :
    (l.set i a').flatMap f = l.flatMap f := by
  rw [List.flatMap_def, List.flatMap_def, map_set_eq h hf]

/-- An entry that holds more adds it to what all hold. -/
theorem flatMap_set_append {a' : α} {bs : List β} (h : l[i]? = some a) (hf : f a' = f a ++ bs) :
    ((l.set i a').flatMap f).Perm (bs ++ l.flatMap f) := by
  have hafter := flatMap_set_perm (f := f) h a'
  rw [hf, List.append_assoc] at hafter
  refine hafter.trans ?_
  refine List.perm_append_comm_assoc _ _ _ |>.trans ?_
  exact ((flatMap_perm h).symm).append_left bs

/-! ## Parties of one kind -/

variable {p : α → Bool}

theorem filter_set_eq {a' : α} (h : l[i]? = some a) (ha : p a = false) (ha' : p a' = false) :
    (l.set i a').filter p = l.filter p := by
  induction l generalizing i with
  | nil => rfl
  | cons b l ih =>
    cases i with
    | zero =>
      cases h
      rw [List.set_cons_zero, List.filter_cons_of_neg (by simp [ha']),
        List.filter_cons_of_neg (by simp [ha])]
    | succ i =>
      rw [List.set_cons_succ, List.filter_cons, List.filter_cons, ih h]

/-- An entry has a place among those of its kind, where it changes as long as it is of the
kind. -/
theorem exists_filter_set (h : l[i]? = some a) (ha : p a = true) :
    ∃ k, (l.filter p)[k]? = some a ∧
      ∀ a', p a' = true → (l.set i a').filter p = (l.filter p).set k a' := by
  induction l generalizing i with
  | nil => cases h
  | cons b l ih =>
    cases i with
    | zero =>
      cases h
      refine ⟨0, ?_, ?_⟩
      · rw [List.filter_cons_of_pos ha]
        rfl
      · intro a' ha'
        rw [List.set_cons_zero, List.filter_cons_of_pos ha', List.filter_cons_of_pos ha,
          List.set_cons_zero]
    | succ i =>
      obtain ⟨k, hk, hset⟩ := ih h
      cases hb : p b with
      | false =>
        refine ⟨k, ?_, ?_⟩
        · rwa [List.filter_cons_of_neg (by simp [hb])]
        · intro a' ha'
          rw [List.set_cons_succ, List.filter_cons_of_neg (by simp [hb]),
            List.filter_cons_of_neg (by simp [hb]), hset a' ha']
      | true =>
        refine ⟨k + 1, ?_, ?_⟩
        · rwa [List.filter_cons_of_pos hb, List.getElem?_cons_succ]
        · intro a' ha'
          rw [List.set_cons_succ, List.filter_cons_of_pos hb, List.filter_cons_of_pos hb,
            hset a' ha', List.set_cons_succ]

variable [DecidableEq β]

theorem count_set (h : l[i]? = some a) (a' : α) (b : β) :
    ((l.set i a').flatMap f).count b + (f a).count b = (l.flatMap f).count b + (f a').count b := by
  rw [(flatMap_perm h).count_eq, (flatMap_set_perm h a').count_eq, List.count_append,
    List.count_append]
  omega

end Shares
