import CppSerializer.Library.ExactRead
import Mathlib.Data.List.Infix

/-!
# What a reader does with a stream

`follow` reads a stream that has come as a whole, and goes on at once when it waits for a signal.
A session of the same reader, which is given the stream in chunks and is signalled at any time,
does the same things in the same order, as far as it has come (`run_follow`): neither the chunks
nor the timing are seen in what it does. Things that depend on a signal, or on a failure, are not
counted. What a reader that gives its stream away leaves of it is a function of the stream, too
(`run_unread`).
-/

namespace ExactRead

variable {σ α ρ ε β : Type*} {R : Reader σ α ρ ε}

/-- A reader that does not go on for ever without reading. A signal takes it to `next`, whatever
the signal says. -/
structure Productive (R : Reader σ α ρ ε) where
  next : σ → σ
  rank : σ → Nat
  resumed : ∀ s r, R.wait s = .signal → (R.resumed s r).1 = next s
  signal : ∀ s, R.wait s = .signal → rank (next s) < rank s
  read : ∀ s, R.wait s = .read 0 → rank (R.got s []).1 < rank s

/-- What the reader does with a stream from the state on. -/
def follow (P : Productive R) (s : σ) (l : List α) : List ε :=
  match _wait : R.wait s with
  | .read n =>
    if _hn : n ≤ l.length then
      (R.got s (l.take n)).2 ++ follow P (R.got s (l.take n)).1 (l.drop n)
    else []
  | .signal => follow P (P.next s) l
  | .handedOver | .dead => []
termination_by (l.length, P.rank s)
decreasing_by
  · rw [Prod.lex_def, List.length_drop]
    cases n with
    | zero => exact Or.inr ⟨rfl, P.read s _wait⟩
    | succ n => exact Or.inl (by omega)
  · exact Prod.Lex.right _ (P.signal s _wait)

variable {P : Productive R} {s : σ}

theorem follow_read {n : Nat} (hwait : R.wait s = .read n) {l : List α} (hn : n ≤ l.length) :
    follow P s l = (R.got s (l.take n)).2 ++ follow P (R.got s (l.take n)).1 (l.drop n) := by
  rw [follow]
  split
  · rename_i m hm
    rw [hwait] at hm
    cases hm
    exact dif_pos hn
  · simp_all
  · simp_all
  · simp_all

/-- What is read stands in front. -/
theorem follow_append {front : List α} (hwait : R.wait s = .read front.length) (l : List α) :
    follow P s (front ++ l) = (R.got s front).2 ++ follow P (R.got s front).1 l := by
  have hn : front.length ≤ (front ++ l).length := by
    rw [List.length_append]
    exact Nat.le_add_right _ _
  rw [follow_read hwait hn, List.take_left, List.drop_left]

theorem follow_short {n : Nat} (hwait : R.wait s = .read n) {l : List α} (hn : l.length < n) :
    follow P s l = [] := by
  rw [follow]
  split
  · rename_i m hm
    rw [hwait] at hm
    cases hm
    exact dif_neg (Nat.not_le_of_lt hn)
  · simp_all
  · simp_all
  · simp_all

theorem follow_signal (hwait : R.wait s = .signal) (l : List α) :
    follow P s l = follow P (P.next s) l := by
  rw [follow]
  split
  · simp_all
  · rfl
  · simp_all
  · simp_all

theorem follow_stop (hwait : R.wait s = .handedOver ∨ R.wait s = .dead) (l : List α) :
    follow P s l = [] := by
  rw [follow]
  split
  · simp_all
  · simp_all
  · rfl
  · rfl

/-- More elements make the reader do more, after what it did before. -/
theorem follow_mono (P : Productive R) (s : σ) (l more : List α) :
    follow P s l <+: follow P s (l ++ more) := by
  induction s, l using follow.induct P with
  | case1 s l n hwait hn ih =>
    rw [follow_read hwait hn, follow_read hwait (Nat.le_trans hn (by simp)),
      List.take_append_of_le_length hn, List.drop_append_of_le_length hn]
    exact (List.prefix_append_right_inj _).mpr ih
  | case2 s l n hwait hn =>
    rw [follow_short hwait (Nat.lt_of_not_le hn)]
    exact List.nil_prefix
  | case3 s l hwait ih =>
    rw [follow_signal hwait, follow_signal hwait]
    exact ih
  | case4 s l hwait =>
    rw [follow_stop (Or.inl hwait)]
    exact List.nil_prefix
  | case5 s l hwait =>
    rw [follow_stop (Or.inr hwait)]
    exact List.nil_prefix

/-! ## What is left of a stream -/

/-- What the reader leaves of a stream: too few elements for its next read, or what comes after
it has given the stream away. -/
def unread (P : Productive R) (s : σ) (l : List α) : List α :=
  match _wait : R.wait s with
  | .read n =>
    if _hn : n ≤ l.length then unread P (R.got s (l.take n)).1 (l.drop n) else l
  | .signal => unread P (P.next s) l
  | .handedOver | .dead => l
termination_by (l.length, P.rank s)
decreasing_by
  · rw [Prod.lex_def, List.length_drop]
    cases n with
    | zero => exact Or.inr ⟨rfl, P.read s _wait⟩
    | succ n => exact Or.inl (by omega)
  · exact Prod.Lex.right _ (P.signal s _wait)

theorem unread_read {n : Nat} (hwait : R.wait s = .read n) {l : List α} (hn : n ≤ l.length) :
    unread P s l = unread P (R.got s (l.take n)).1 (l.drop n) := by
  rw [unread]
  split
  · rename_i m hm
    rw [hwait] at hm
    cases hm
    exact dif_pos hn
  · simp_all
  · simp_all
  · simp_all

theorem unread_append {front : List α} (hwait : R.wait s = .read front.length) (l : List α) :
    unread P s (front ++ l) = unread P (R.got s front).1 l := by
  have hn : front.length ≤ (front ++ l).length := by
    rw [List.length_append]
    exact Nat.le_add_right _ _
  rw [unread_read hwait hn, List.take_left, List.drop_left]

theorem unread_signal (hwait : R.wait s = .signal) (l : List α) :
    unread P s l = unread P (P.next s) l := by
  rw [unread]
  split
  · simp_all
  · rfl
  · simp_all
  · simp_all

theorem unread_stop (hwait : R.wait s = .handedOver ∨ R.wait s = .dead) (l : List α) :
    unread P s l = l := by
  rw [unread]
  split
  · simp_all
  · simp_all
  · rfl
  · rfl

/-! ## Sessions -/

/-- What is counted of the things that are done: nothing that depends on a signal or on a
failure, after which nothing more is done. -/
structure Counts (R : Reader σ α ρ ε) (obs : ε → Option β) : Prop where
  resumed : ∀ s r, (R.resumed s r).2.filterMap obs = []
  failed : ∀ s, R.wait (R.failed s).1 = .dead ∧ (R.failed s).2.filterMap obs = []

def Session.counted (obs : ε → Option β) (t : Session σ α ε) : List β := t.events.filterMap obs

theorem counted_after (obs : ε → Option β) (t : Session σ α ε) (buffer : List α)
    (r : σ × List ε) :
    (t.after buffer r).counted obs = t.counted obs ++ r.2.filterMap obs := List.filterMap_append

/-- What is counted of a session that was given `l`: it has the rest of `l` still to do, or it has
failed. -/
inductive Follows (P : Productive R) (obs : ε → Option β) (s : σ) (l : List α)
    (t : Session σ α ε) : Prop
  | going (rest : ∀ more, (follow P s (l ++ more)).filterMap obs =
      t.counted obs ++ (follow P t.state (t.buffer ++ more)).filterMap obs) : Follows P obs s l t
  | failed (dead : R.wait t.state = .dead)
      (before : t.counted obs <+: (follow P s l).filterMap obs) : Follows P obs s l t

variable {obs : ε → Option β} {l : List α} {t u : Session σ α ε}

theorem Follows.counted_prefix (h : Follows P obs s l t) :
    t.counted obs <+: (follow P s l).filterMap obs := by
  cases h with
  | going rest =>
    have hall := rest []
    rw [List.append_nil] at hall
    rw [hall]
    exact List.prefix_append _ _
  | failed dead before => exact before

theorem Follows.step (hcounts : Counts R obs) (h : Follows P obs s l t) {a : Action α ρ}
    (hstep : ExactRead.step R t a = some u) : Follows P obs s (l ++ a.chunk) u := by
  cases a with
  | arrive chunk =>
    cases hstep
    cases h with
    | going rest =>
      refine .going fun more => ?_
      rw [Action.chunk, List.append_assoc, List.append_assoc]
      exact rest (chunk ++ more)
    | failed dead before =>
      exact .failed dead (before.trans ((follow_mono P s l chunk).filterMap obs))
  | read =>
    rw [Action.chunk, List.append_nil]
    obtain ⟨n, hwait, hn, rfl⟩ := step_read_some hstep
    cases h with
    | going rest =>
      refine .going fun more => ?_
      have hlong : n ≤ (t.buffer ++ more).length :=
        Nat.le_trans hn (by rw [List.length_append]; exact Nat.le_add_right _ _)
      rw [rest, follow_read hwait hlong, List.take_append_of_le_length hn,
        List.drop_append_of_le_length hn, List.filterMap_append, counted_after, List.append_assoc]
      rfl
    | failed dead before =>
      rw [dead] at hwait
      cases hwait
  | resume r =>
    rw [Action.chunk, List.append_nil]
    simp only [ExactRead.step] at hstep
    split at hstep
    · rename_i hwait
      cases hstep
      cases h with
      | going rest =>
        refine .going fun more => ?_
        rw [rest, follow_signal hwait, counted_after, hcounts.resumed, List.append_nil,
          ← P.resumed t.state r hwait]
        rfl
      | failed dead before =>
        rw [dead] at hwait
        cases hwait
    · cases hstep
  | fail =>
    rw [Action.chunk, List.append_nil]
    obtain ⟨hdead, hnone⟩ := hcounts.failed t.state
    rw [step_fail_some hstep]
    refine .failed hdead ?_
    rw [counted_after, hnone, List.append_nil]
    exact h.counted_prefix

theorem run_follows (P : Productive R) (hcounts : Counts R obs) {as : List (Action α ρ)}
    (hrun : Transition.run (ExactRead.step R) (Session.start s) as = some t) :
    Follows P obs s (arrived as) t := by
  refine Transition.run_induction (P := fun as t => Follows P obs s (arrived as) t) ?_ ?_ as t hrun
  · exact .going fun more => rfl
  intro as t a u _ ih hstep
  have hsingle : arrived [a] = a.chunk := List.flatMap_singleton _ _
  rw [arrived_append, hsingle]
  exact ih.step hcounts hstep

/-- Whatever chunks the stream came in, a session has done the first things that `follow` does
with it, and all of them when it has come to an end for now. -/
theorem run_follow (P : Productive R) (hcounts : Counts R obs) {as : List (Action α ρ)}
    (hrun : Transition.run (ExactRead.step R) (Session.start s) as = some t) :
    t.counted obs <+: (follow P s (arrived as)).filterMap obs ∧
      (Settled R t → t.counted obs = (follow P s (arrived as)).filterMap obs) := by
  have hfollows := run_follows P hcounts hrun
  refine ⟨hfollows.counted_prefix, ?_⟩
  intro hsettled
  rw [Settled] at hsettled
  cases hfollows with
  | going rest =>
    have hall := rest []
    rw [List.append_nil, List.append_nil] at hall
    cases hwait : R.wait t.state with
    | read n =>
      rw [hwait] at hsettled
      rw [hall, follow_short hwait hsettled, List.filterMap_nil, List.append_nil]
    | handedOver =>
      rw [hall, follow_stop (Or.inl hwait), List.filterMap_nil, List.append_nil]
    | signal | dead =>
      rw [hwait] at hsettled
      exact hsettled.elim
  | failed dead before =>
    rw [dead] at hsettled
    exact hsettled.elim

/-- A session that has not failed leaves what is left of its buffer. -/
theorem run_unread (P : Productive R) (hfailed : ∀ s, R.wait (R.failed s).1 = .dead)
    {as : List (Action α ρ)}
    (hrun : Transition.run (ExactRead.step R) (Session.start s) as = some t) :
    R.wait t.state = .dead ∨ ∀ more,
      unread P s (arrived as ++ more) = unread P t.state (t.buffer ++ more) := by
  refine Transition.run_induction (P := fun as t => R.wait t.state = .dead ∨ ∀ more,
    unread P s (arrived as ++ more) = unread P t.state (t.buffer ++ more)) ?_ ?_ as t hrun
  · exact Or.inr fun more => rfl
  intro as t a u _ ih hstep
  have hsingle : arrived [a] = a.chunk := List.flatMap_singleton _ _
  rw [arrived_append, hsingle]
  cases a with
  | arrive chunk =>
    cases hstep
    refine ih.imp_right fun rest more => ?_
    rw [Action.chunk, List.append_assoc, List.append_assoc]
    exact rest (chunk ++ more)
  | read =>
    obtain ⟨n, hwait, hn, rfl⟩ := step_read_some hstep
    rcases ih with dead | rest
    · rw [dead] at hwait
      cases hwait
    · refine Or.inr fun more => ?_
      have hlong : n ≤ (t.buffer ++ more).length :=
        Nat.le_trans hn (by rw [List.length_append]; exact Nat.le_add_right _ _)
      rw [Action.chunk, List.append_nil, rest, unread_read hwait hlong,
        List.take_append_of_le_length hn, List.drop_append_of_le_length hn]
      rfl
  | resume r =>
    simp only [ExactRead.step] at hstep
    split at hstep
    · rename_i hwait
      cases hstep
      rcases ih with dead | rest
      · rw [dead] at hwait
        cases hwait
      · refine Or.inr fun more => ?_
        rw [Action.chunk, List.append_nil, rest, unread_signal hwait, ← P.resumed t.state r hwait]
        rfl
    · cases hstep
  | fail =>
    rw [step_fail_some hstep]
    exact Or.inl (hfailed t.state)

end ExactRead
