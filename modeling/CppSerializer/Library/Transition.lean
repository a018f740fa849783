import Mathlib.Data.List.Induction
import Mathlib.Logic.Relation

/-!
# Runs of a step function with named actions

A system is a partial step function `step : σ → α → Option σ`: `none` says that the
action is not enabled in the state. A run is a list of actions. An interleaving of
concurrent parties is such a list, so a statement about all interleavings is a statement
about all lists of actions.

`run_induction` is the induction rule for facts that relate a state to the actions that
led to it, `Reachable.invariant` the usual rule for invariants, and `run_guarded` the rule
for invariants that only steps of a certain kind preserve.
-/

namespace Transition

variable {σ α : Type*}

/-- Perform the actions in order. -/
def run (step : σ → α → Option σ) : σ → List α → Option σ
  | s, [] => some s
  | s, a :: as => (step s a).bind fun t => run step t as

variable {step : σ → α → Option σ}

@[simp] theorem run_nil (s : σ) : run step s [] = some s := rfl

theorem run_cons (s : σ) (a : α) (as : List α) :
    run step s (a :: as) = (step s a).bind fun t => run step t as := rfl

theorem run_append (s : σ) (as bs : List α) :
    run step s (as ++ bs) = (run step s as).bind fun t => run step t bs := by
  induction as generalizing s with
  | nil => rfl
  | cons a as ih =>
    rw [List.cons_append, run_cons, run_cons, Option.bind_assoc]
    exact Option.bind_congr fun t _ => ih t

theorem run_append_some {s t : σ} {as bs : List α} (h : run step s (as ++ bs) = some t) :
    ∃ m, run step s as = some m ∧ run step m bs = some t := by
  rw [run_append] at h
  exact Option.bind_eq_some_iff.mp h

theorem run_concat {s t u : σ} {as : List α} {a : α} (h : run step s as = some t)
    (hstep : step t a = some u) : run step s (as ++ [a]) = some u := by
  rw [run_append, h, Option.bind_some, run_cons, hstep]
  rfl

theorem run_concat_some {s u : σ} {as : List α} {a : α}
    (h : run step s (as ++ [a]) = some u) :
    ∃ t, run step s as = some t ∧ step t a = some u := by
  obtain ⟨t, ht, hrest⟩ := run_append_some h
  refine ⟨t, ht, ?_⟩
  rw [run_cons] at hrest
  obtain ⟨u', hu, hnil⟩ := Option.bind_eq_some_iff.mp hrest
  rw [hu]
  exact hnil

/-- Induction over a run from its first state, the last action last. -/
theorem run_induction {init : σ} {P : List α → σ → Prop} (hinit : P [] init)
    (hstep : ∀ as s a t, run step init as = some s → P as s → step s a = some t →
      P (as ++ [a]) t) :
    ∀ as s, run step init as = some s → P as s := by
  intro as
  induction as using List.reverseRecOn with
  | nil =>
    intro s hrun
    cases hrun
    exact hinit
  | append_singleton as a ih =>
    intro s hrun
    obtain ⟨m, hm, ha⟩ := run_concat_some hrun
    exact hstep as m a s hm (ih m hm) ha

/-! ## What a run gives out -/

/-- What the steps of a run give out, in order; `out` says it for one step. -/
def trace {β : Type*} (step : σ → α → Option σ) (out : σ → α → List β) : σ → List α → List β
  | _, [] => []
  | s, a :: as => out s a ++ (step s a).elim [] fun t => trace step out t as

theorem trace_concat {β : Type*} {out : σ → α → List β} {s t : σ} {as : List α}
    (h : run step s as = some t) (a : α) :
    trace step out s (as ++ [a]) = trace step out s as ++ out t a := by
  induction as generalizing s with
  | nil =>
    cases h
    change out t a ++ (step t a).elim [] (fun _ => []) = [] ++ out t a
    cases step t a <;> exact List.append_nil _
  | cons b as ih =>
    rw [run_cons] at h
    obtain ⟨u, hu, h⟩ := Option.bind_eq_some_iff.mp h
    have hrest := ih h
    simp only [List.cons_append, trace, hu, Option.elim_some, hrest, List.append_assoc]

/-! ## Reachable states -/

/-- The states that some run from `init` ends in. -/
def Reachable (step : σ → α → Option σ) (init s : σ) : Prop :=
  ∃ as, run step init as = some s

theorem Reachable.refl (init : σ) : Reachable step init init := ⟨[], rfl⟩

theorem Reachable.tail {init s t : σ} {a : α} (h : Reachable step init s)
    (hstep : step s a = some t) : Reachable step init t := by
  obtain ⟨as, has⟩ := h
  exact ⟨as ++ [a], run_concat has hstep⟩

/-- A property of the first state that every step preserves holds in every reachable
state. -/
theorem Reachable.invariant {init : σ} {I : σ → Prop} (hinit : I init)
    (hstep : ∀ s a t, I s → step s a = some t → I t) {s : σ} (h : Reachable step init s) :
    I s := by
  obtain ⟨as, has⟩ := h
  exact run_induction (P := fun _ s => I s) hinit
    (fun _ s a t _ hs ht => hstep s a t hs ht) as s has

/-! ## Runs whose steps meet a condition -/

/-- Every action of the run is taken in a state that satisfies `G` for it. -/
def Guarded (step : σ → α → Option σ) (G : σ → α → Prop) (init : σ) (as : List α) : Prop :=
  ∀ pre a post s, as = pre ++ a :: post → run step init pre = some s → G s a

theorem Guarded.prefix {G : σ → α → Prop} {init : σ} {as bs : List α}
    (h : Guarded step G init (as ++ bs)) : Guarded step G init as := by
  intro pre b post s has hrun
  exact h pre b (post ++ bs) s (by rw [has]; simp) hrun

theorem Guarded.rest {G : σ → α → Prop} {init s : σ} {as bs : List α}
    (h : Guarded step G init (as ++ bs)) (hrun : run step init as = some s) :
    Guarded step G s bs := by
  rintro pre a post t rfl ht
  refine h (as ++ pre) a post t (by simp) ?_
  rw [run_append, hrun]
  exact ht

theorem Guarded.last {G : σ → α → Prop} {init s : σ} {as : List α} {a : α}
    (h : Guarded step G init (as ++ [a])) (hrun : run step init as = some s) : G s a :=
  h as a [] s rfl hrun

theorem Guarded.mono {G G' : σ → α → Prop} {init : σ} {as : List α}
    (h : Guarded step G init as) (himp : ∀ s a, G s a → G' s a) : Guarded step G' init as := by
  intro pre a post s has hrun
  exact himp s a (h pre a post s has hrun)

theorem guarded_nil (G : σ → α → Prop) (init : σ) : Guarded step G init [] := by
  intro pre a post s h _
  simp at h

theorem Guarded.concat {G : σ → α → Prop} {init s : σ} {as : List α} {a : α}
    (h : Guarded step G init as) (hrun : run step init as = some s) (hlast : G s a) :
    Guarded step G init (as ++ [a]) := by
  intro pre b post t heq ht
  rcases List.eq_nil_or_concat post with rfl | ⟨post', c, rfl⟩
  · obtain ⟨rfl, hb⟩ := List.append_inj' heq rfl
    cases hb
    rw [hrun] at ht
    cases ht
    exact hlast
  · have hsplit : as ++ [a] = (pre ++ b :: post') ++ [c] := by
      rw [heq]
      simp
    obtain ⟨rfl, -⟩ := List.append_inj' hsplit rfl
    exact h pre b post' t rfl ht

theorem guarded_cons {G : σ → α → Prop} {init : σ} {a : α} {as : List α} (hfirst : G init a)
    (hrest : ∀ t, step init a = some t → Guarded step G t as) :
    Guarded step G init (a :: as) := by
  intro pre b post s has hs
  cases pre with
  | nil =>
    cases has
    cases hs
    exact hfirst
  | cons c pre =>
    obtain ⟨rfl, hsplit⟩ := List.cons.inj has
    rw [run_cons] at hs
    obtain ⟨t, ht, hs⟩ := Option.bind_eq_some_iff.mp hs
    exact hrest t ht pre b post s hsplit hs

theorem guarded_of_forall {G : σ → α → Prop} {init : σ} {as : List α}
    (h : ∀ a ∈ as, ∀ s, G s a) : Guarded step G init as := by
  rintro pre a post s rfl _
  exact h a (by simp) s

theorem Guarded.append {G : σ → α → Prop} {init : σ} {as bs : List α}
    (h : Guarded step G init as)
    (hrest : ∀ t, run step init as = some t → Guarded step G t bs) :
    Guarded step G init (as ++ bs) := by
  induction as generalizing init with
  | nil => exact hrest init rfl
  | cons a as ih =>
    refine guarded_cons (h [] a as init rfl rfl) fun t ht => ih ?_ ?_
    · intro pre b post u has hu
      refine h (a :: pre) b post u (by rw [has]; rfl) ?_
      rw [run_cons, ht]
      exact hu
    · intro u hu
      apply hrest
      rw [run_cons, ht]
      exact hu

/-- `Guarded`, as a test of a given run. -/
def checkGuarded (step : σ → α → Option σ) (G : σ → α → Prop) [∀ s a, Decidable (G s a)] :
    σ → List α → Bool
  | _, [] => true
  | s, a :: as => decide (G s a) && (step s a).all fun t => checkGuarded step G t as

theorem guarded_of_check {G : σ → α → Prop} [∀ s a, Decidable (G s a)] {init : σ} {as : List α}
    (h : checkGuarded step G init as = true) : Guarded step G init as := by
  induction as generalizing init with
  | nil => exact guarded_nil G init
  | cons a as ih =>
    rw [checkGuarded, Bool.and_eq_true, decide_eq_true_eq] at h
    refine guarded_cons h.1 fun t ht => ih ?_
    have hrest := h.2
    rwa [ht] at hrest

/-- An invariant that the steps satisfying `G` preserve holds at the end of every run all
of whose steps satisfy `G`. -/
theorem run_guarded {G : σ → α → Prop} {init : σ} {I : σ → Prop} (hinit : I init)
    (hstep : ∀ s a t, I s → G s a → step s a = some t → I t) {as : List α} {s : σ}
    (hrun : run step init as = some s) (hG : Guarded step G init as) : I s := by
  revert hG
  refine run_induction (P := fun as s => Guarded step G init as → I s) (fun _ => hinit)
    ?_ as s hrun
  intro as s a t hs ih ht hG
  exact hstep s a t (ih hG.prefix) (hG.last hs) ht

/-- A property that the steps of a run keep exactly as long as they satisfy `G` holds at its end
if and only if all of its steps satisfy `G`. -/
theorem run_guarded_iff {G : σ → α → Prop} {init : σ} {Q : σ → Prop} (hinit : Q init)
    {as : List α} {u : σ} (hrun : run step init as = some u)
    (hstep : ∀ pre a post s t, as = pre ++ a :: post → run step init pre = some s →
      step s a = some t → (Q t ↔ Q s ∧ G s a)) :
    Q u ↔ Guarded step G init as := by
  induction as using List.reverseRecOn generalizing u with
  | nil =>
    cases hrun
    exact ⟨fun _ => guarded_nil G init, fun _ => hinit⟩
  | append_singleton as a ih =>
    obtain ⟨s, hs, ht⟩ := run_concat_some hrun
    have hold := ih hs fun pre b post s t has => hstep pre b (post ++ [a]) s t (by simp [has])
    rw [hstep as a [] s u rfl hs ht, hold]
    constructor
    · exact fun h => h.1.concat hs h.2
    · intro h
      have hbefore := h.prefix
      exact ⟨hbefore, h.last hs⟩

end Transition
