import Mathlib.Data.List.Basic

/-!
# Parties of which at most one has something left to do

The parties are the entries of a list, and `f` says what an entry has left to do.
`OnlyLeft f l xs` says that at most one entry has anything left, and that it is `xs`. An entry
that performs something is therefore that one (`OnlyLeft.set`), whichever place it has.
-/

variable {α β : Type*}

/-- Of the lists `f a` at most one is not empty, and that one is `xs`. -/
def OnlyLeft (f : α → List β) (l : List α) (xs : List β) : Prop :=
  (l.map f).filter (fun ys => !ys.isEmpty) = [xs].filter (fun ys => !ys.isEmpty)

namespace OnlyLeft

theorem exists_split {l : List α} {i : Nat} {a : α} (h : l[i]? = some a) :
    ∃ before after, l = before ++ a :: after ∧ before.length = i := by
  obtain ⟨hi, rfl⟩ := List.getElem?_eq_some_iff.mp h
  refine ⟨l.take i, l.drop (i + 1), ?_, List.length_take_of_le (Nat.le_of_lt hi)⟩
  rw [← List.drop_eq_getElem_cons hi, List.take_append_drop]

variable {f : α → List β} {l : List α} {xs : List β} {i : Nat} {a : α}

theorem nil_iff : OnlyLeft f l [] ↔ ∀ a ∈ l, f a = [] := by
  simp [OnlyLeft]

/-- The entries beside one that has something left have nothing left. -/
theorem split (h : OnlyLeft f l xs) (ha : l[i]? = some a) (hne : f a ≠ []) :
    ∃ before after, l = before ++ a :: after ∧ before.length = i ∧ f a = xs ∧
      (∀ b ∈ before, f b = []) ∧ ∀ b ∈ after, f b = [] := by
  obtain ⟨before, after, rfl, rfl⟩ := exists_split ha
  simp only [OnlyLeft, List.map_append, List.map_cons, List.filter_append, List.filter_cons,
    List.isEmpty_eq_false_iff.mpr hne, Bool.not_false, if_true, List.filter_nil] at h
  split at h
  · have hlength := congrArg List.length h
    simp only [List.length_append, List.length_cons, List.length_nil] at hlength
    have hbefore := List.eq_nil_of_length_eq_zero
      (l := (before.map f).filter fun ys => !ys.isEmpty) (by omega)
    have hafter := List.eq_nil_of_length_eq_zero
      (l := (after.map f).filter fun ys => !ys.isEmpty) (by omega)
    rw [hbefore, hafter, List.nil_append] at h
    refine ⟨before, after, rfl, rfl, (List.cons.inj h).1, ?_, ?_⟩
    · simpa [List.filter_eq_nil_iff] using hbefore
    · simpa [List.filter_eq_nil_iff] using hafter
  · exact absurd (List.append_eq_nil_iff.mp h).2 (List.cons_ne_nil _ _)

/-- An entry that has something left has all that is left. -/
theorem set (h : OnlyLeft f l xs) (ha : l[i]? = some a) (hne : f a ≠ []) :
    f a = xs ∧ ∀ b, OnlyLeft f (l.set i b) (f b) := by
  obtain ⟨before, after, rfl, rfl, hall, hbefore, hafter⟩ := h.split ha hne
  refine ⟨hall, fun b => ?_⟩
  have hnone : ∀ rest : List α, (∀ c ∈ rest, f c = []) →
      (rest.map f).filter (fun ys => !ys.isEmpty) = [] := by
    intro rest hrest
    simpa [List.filter_eq_nil_iff] using hrest
  simp only [OnlyLeft, List.set_append_right _ _ (Nat.le_refl _), Nat.sub_self,
    List.set_cons_zero, List.map_append, List.map_cons, List.filter_append, List.filter_cons,
    hnone before hbefore, hnone after hafter, List.nil_append, List.filter_nil]

/-- What only parties with something left hold is held by the one that has. -/
theorem flatMap_eq {γ : Type*} {g : α → List γ} (hg : ∀ a, f a = [] → g a = [])
    (h : OnlyLeft f l xs) (ha : l[i]? = some a) (hne : f a ≠ []) : l.flatMap g = g a := by
  obtain ⟨before, after, rfl, -, -, hbefore, hafter⟩ := h.split ha hne
  have hnone : ∀ rest : List α, (∀ c ∈ rest, f c = []) → rest.flatMap g = [] := by
    intro rest hrest
    exact List.flatMap_eq_nil_iff.mpr fun c hc => hg c (hrest c hc)
  rw [List.flatMap_append, List.flatMap_cons, hnone before hbefore, hnone after hafter,
    List.append_nil, List.nil_append]

theorem keep {b : α} (h : OnlyLeft f l xs) (ha : l[i]? = some a) (hb : f b = f a) :
    OnlyLeft f (l.set i b) xs := by
  obtain ⟨before, after, rfl, rfl⟩ := exists_split ha
  simpa only [OnlyLeft, List.set_append_right _ _ (Nat.le_refl _), Nat.sub_self,
    List.set_cons_zero, List.map_append, List.map_cons, hb] using h

theorem concat (h : OnlyLeft f l []) (b : α) : OnlyLeft f (l ++ [b]) (f b) := by
  have hl : (l.map f).filter (fun ys => !ys.isEmpty) = [] := h
  simp only [OnlyLeft, List.map_append, List.filter_append, hl, List.nil_append, List.map_cons,
    List.map_nil]

theorem unique {k : Nat} {b : α} (h : OnlyLeft f l xs) (ha : l[i]? = some a) (hne : f a ≠ [])
    (hb : l[k]? = some b) (hbne : f b ≠ []) : k = i := by
  obtain ⟨before, after, rfl, rfl, -, hbefore, hafter⟩ := h.split ha hne
  rcases Nat.lt_trichotomy k before.length with hlt | heq | hlt
  · rw [List.getElem?_append_left hlt] at hb
    exact absurd (hbefore b (List.mem_of_getElem? hb)) hbne
  · exact heq
  · obtain ⟨m, rfl⟩ := Nat.exists_eq_add_of_lt hlt
    rw [List.getElem?_append_right (Nat.le_of_lt hlt), Nat.add_assoc, Nat.add_sub_cancel_left,
      List.getElem?_cons_succ] at hb
    exact absurd (hafter b (List.mem_of_getElem? hb)) hbne

theorem exists_entry (h : OnlyLeft f l xs) (hne : xs ≠ []) :
    ∃ (i : Nat) (a : α), l[i]? = some a ∧ f a = xs := by
  have hmem : xs ∈ (l.map f).filter fun ys => !ys.isEmpty := by
    rw [h]
    simpa using hne
  obtain ⟨a, ha, rfl⟩ := List.mem_map.mp (List.mem_filter.mp hmem).1
  obtain ⟨i, hi⟩ := List.getElem?_of_mem ha
  exact ⟨i, a, hi, rfl⟩

end OnlyLeft
