import Mathlib.Data.List.Perm.Basic

/-!
# Operations in progress

The asynchronous operations that were started on an object and have not completed yet, in the
order in which they were started. Any of them may complete next; it is taken out, and what its
completion handler starts comes last.
-/

namespace Completion

variable {α : Type*} {ops rest : List α} {op : α} {n : Nat}

/-- Operation `n` completes: the operation, and those that are still in progress. -/
def complete (ops : List α) (n : Nat) : Option (α × List α) :=
  ops[n]?.map fun op => (op, ops.eraseIdx n)

theorem complete_eq_some :
    complete ops n = some (op, rest) ↔ ops[n]? = some op ∧ rest = ops.eraseIdx n := by
  unfold complete
  rw [Option.map_eq_some_iff]
  constructor
  · rintro ⟨op', hop, he⟩
    cases he
    exact ⟨hop, rfl⟩
  · rintro ⟨hop, rfl⟩
    exact ⟨op, hop, rfl⟩

theorem perm_of_complete (h : complete ops n = some (op, rest)) : ops.Perm (op :: rest) := by
  obtain ⟨hop, rfl⟩ := complete_eq_some.mp h
  obtain ⟨hn, rfl⟩ := List.getElem?_eq_some_iff.mp hop
  exact (List.getElem_cons_eraseIdx_perm hn).symm

theorem mem_of_complete (h : complete ops n = some (op, rest)) : op ∈ ops :=
  (perm_of_complete h).mem_iff.mpr List.mem_cons_self

theorem mem_of_mem_rest (h : complete ops n = some (op, rest)) {x : α} (hx : x ∈ rest) :
    x ∈ ops :=
  (perm_of_complete h).mem_iff.mpr (List.mem_cons_of_mem op hx)

theorem countP_complete (h : complete ops n = some (op, rest)) (p : α → Bool) :
    ops.countP p = rest.countP p + if p op then 1 else 0 := by
  rw [(perm_of_complete h).countP_eq, List.countP_cons]

/-- The operation started last completes. -/
theorem complete_concat (ops : List α) (op : α) :
    complete (ops ++ [op]) ops.length = some (op, ops) := by
  refine complete_eq_some.mpr ⟨?_, ?_⟩
  · rw [List.getElem?_append_right (Nat.le_refl _), Nat.sub_self]
    rfl
  · rw [List.eraseIdx_append_of_length_le (Nat.le_refl _), Nat.sub_self]
    simp

/-- What is started later does not keep an operation from completing. -/
theorem complete_append (h : complete ops n = some (op, rest)) (later : List α) :
    complete (ops ++ later) n = some (op, rest ++ later) := by
  obtain ⟨hop, rfl⟩ := complete_eq_some.mp h
  have hn := (List.getElem?_eq_some_iff.mp hop).1
  refine complete_eq_some.mpr ⟨?_, ?_⟩
  · rw [List.getElem?_append_left hn]
    exact hop
  · exact (List.eraseIdx_append_of_lt_length hn later).symm

theorem exists_complete (h : op ∈ ops) : ∃ n rest, complete ops n = some (op, rest) := by
  obtain ⟨n, hn⟩ := List.mem_iff_getElem?.mp h
  exact ⟨n, _, complete_eq_some.mpr ⟨hn, rfl⟩⟩

end Completion
