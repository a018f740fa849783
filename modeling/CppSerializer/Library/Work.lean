import CppSerializer.Library.Transition
import Mathlib.Algebra.BigOperators.Group.List.Basic
import Mathlib.Algebra.GroupWithZero.Nat

/-!
# Work that is left

A system whose steps of some kind use up work takes only finitely many of them one after
another (`Transition.length_le_work`), and comes to a state where none of them is enabled
(`Transition.exists_rest`).

The work is mostly the `weight` of lists: `f` says what an entry has left to do, and the list
has left to do what its entries have.
-/

namespace Work

variable {α β : Type*} {f : α → Nat} {l : List α} {i : Nat} {a : α}

/-- What the entries of a list have left to do. -/
def weight (f : α → Nat) (l : List α) : Nat := (l.map f).sum

@[simp] theorem weight_nil (f : α → Nat) : weight f [] = 0 := rfl

@[simp] theorem weight_cons (f : α → Nat) (a : α) (l : List α) :
    weight f (a :: l) = f a + weight f l := List.sum_cons

@[simp] theorem weight_append (f : α → Nat) (l l' : List α) :
    weight f (l ++ l') = weight f l + weight f l' := by
  rw [weight, weight, weight, List.map_append, List.sum_append]

theorem weight_eraseIdx (h : l[i]? = some a) : weight f (l.eraseIdx i) + f a = weight f l := by
  induction l generalizing i with
  | nil => cases h
  | cons b l ih =>
    cases i with
    | zero =>
      cases h
      rw [List.eraseIdx_cons_zero, weight_cons, Nat.add_comm]
    | succ i =>
      have hrest := ih h
      rw [List.eraseIdx_cons_succ, weight_cons, weight_cons]
      omega

/-- An entry that changes changes the weight by what it changes. -/
theorem weight_modify (h : l[i]? = some a) (g : α → α) :
    weight f (l.modify i g) + f a = weight f l + f (g a) := by
  induction l generalizing i with
  | nil => cases h
  | cons b l ih =>
    cases i with
    | zero =>
      cases h
      rw [List.modify_zero_cons, weight_cons, weight_cons]
      omega
    | succ i =>
      have hrest := ih h
      rw [List.modify_succ_cons, weight_cons, weight_cons]
      omega

theorem weight_set (h : l[i]? = some a) (b : α) :
    weight f (l.set i b) + f a = weight f l + f b := by
  have hmodify := weight_modify (f := f) h fun _ => b
  rwa [← List.set_eq_modify] at hmodify

theorem weight_congr {l' : List α} (h : l.map f = l'.map f) : weight f l = weight f l' := by
  rw [weight, weight, h]

theorem weight_congr_left {f' : α → Nat} (h : ∀ a ∈ l, f a = f' a) : weight f l = weight f' l := by
  rw [weight, weight, List.map_congr_left h]

/-- The entries change in a way that does not matter for what they have left to do. -/
theorem weight_of_getElem? {l' : List α} {g : Nat → α → α}
    (h : ∀ i : Nat, l'[i]? = l[i]?.map (g i)) (hf : ∀ i a, f (g i a) = f a) :
    weight f l' = weight f l := by
  apply weight_congr
  apply List.ext_getElem?
  intro i
  rw [List.getElem?_map, List.getElem?_map, h i, Option.map_map]
  congr 1
  funext a
  exact hf i a

theorem weight_eq_zero (h : ∀ a ∈ l, f a = 0) : weight f l = 0 := by
  rw [weight_congr_left h]
  exact List.sum_map_zero

/-- What one of the entries stands for changes. -/
theorem weight_update [DecidableEq α] {f : β → Nat} (hl : l.Nodup) (ha : a ∈ l) (m : α → β)
    (b : β) : weight (fun x => f (Function.update m a b x)) l + f (m a) =
      weight (fun x => f (m x)) l + f b := by
  induction l with
  | nil => cases ha
  | cons x l ih =>
    obtain ⟨hx, hl⟩ := List.nodup_cons.mp hl
    rw [weight_cons, weight_cons]
    rcases List.mem_cons.mp ha with rfl | ha
    · have hrest : weight (fun x => f (Function.update m a b x)) l =
          weight (fun x => f (m x)) l := by
        refine weight_congr_left fun y hy => ?_
        rw [Function.update_of_ne (ne_of_mem_of_not_mem hy hx)]
      rw [hrest, Function.update_self]
      omega
    · have hrest := ih hl ha
      rw [Function.update_of_ne (ne_of_mem_of_not_mem ha hx).symm]
      omega

theorem weight_replicate (n : Nat) (a : α) : weight f (List.replicate n a) = n * f a := by
  rw [weight, List.map_replicate, List.sum_replicate_nat]

end Work

namespace Transition

variable {σ α : Type*} {step : σ → α → Option σ} {work : σ → Nat} {J : σ → Prop}
  {G : σ → α → Prop}

/-- The steps that satisfy `G` keep `J` and use up work. -/
def Uses (step : σ → α → Option σ) (J : σ → Prop) (G : σ → α → Prop) (work : σ → Nat) : Prop :=
  ∀ s a t, J s → G s a → step s a = some t → J t ∧ work t < work s

/-- As many steps as there is work, at most. -/
theorem Uses.length_le_work (h : Uses step J G work) {as : List α} {s t : σ} (hs : J s)
    (hrun : run step s as = some t) (hG : Guarded step G s as) :
    J t ∧ as.length + work t ≤ work s := by
  revert hG
  refine run_induction (P := fun as t => Guarded step G s as →
    J t ∧ as.length + work t ≤ work s) ?_ ?_ as t hrun
  · intro _
    exact ⟨hs, Nat.le_of_eq (Nat.zero_add _)⟩
  · intro as t a u ht ih hu hG
    obtain ⟨hJ, hle⟩ := ih hG.prefix
    obtain ⟨hJ', hlt⟩ := h t a u hJ (hG.last ht) hu
    refine ⟨hJ', ?_⟩
    rw [List.length_append, List.length_singleton]
    omega

/-- Some steps lead to a state where no step is left to take. -/
theorem Uses.exists_rest (h : Uses step J G work) {s : σ} (hs : J s) :
    ∃ as t, run step s as = some t ∧ Guarded step G s as ∧ ∀ a, G t a → step t a = none := by
  induction hn : work s using Nat.strongRecOn generalizing s with
  | ind n ih =>
    by_cases hrest : ∀ a, G s a → step s a = none
    · exact ⟨[], s, rfl, guarded_nil G s, hrest⟩
    · simp only [not_forall] at hrest
      obtain ⟨a, ha, hstep⟩ := hrest
      obtain ⟨t, ht⟩ := Option.ne_none_iff_exists'.mp hstep
      obtain ⟨hJ, hlt⟩ := h s a t hs ha ht
      obtain ⟨as, u, hu, hG, hnone⟩ := ih (work t) (hn ▸ hlt) hJ rfl
      refine ⟨a :: as, u, ?_, guarded_cons ha fun t' ht' => ?_, hnone⟩
      · rw [run_cons, ht]
        exact hu
      · rw [ht] at ht'
        cases ht'
        exact hG

/-- A condition on the actions alone. -/
theorem Guarded.forall_mem {p : α → Prop} {s t : σ} {as : List α}
    (h : Guarded step (fun _ a => p a) s as) (hrun : run step s as = some t) :
    ∀ a ∈ as, p a := by
  intro a ha
  obtain ⟨pre, post, rfl⟩ := List.append_of_mem ha
  obtain ⟨u, hu, -⟩ := run_append_some hrun
  exact h pre a post u rfl hu

end Transition
