import CppSerializer.Trigger.Invoker

/-!
# The retries of a request

A write that fails is tried again while `retried_` is below 3. The counter is one of the invoker:
a failure increments it, whichever request failed, a request that is given up resets it, and a
write that succeeds leaves it as it is. So the failures of a request that was written in the end
are held against the requests after it.

Every request gets its full quota exactly if each failure finds in `retried_` what the number of
the request's own failures would say (`fullQuota_iff`).
-/

namespace CppSerializer.Trigger.Invoker

open Pack Completion Transition

/-! ## The account of a request -/

/-- The operations of the request that are in progress. -/
def stages (i : Invoker) (q : Nat) : Nat := i.pending.countP fun op => op.request? = some q

/-- The writes of the request that are in progress. -/
def writing (i : Invoker) (q : Nat) : Nat := i.pending.countP fun op => op.writes? = some q

/-- The writes of the request that were started. -/
def written (i : Invoker) (q : Nat) : Nat := i.log.writes.countP fun w => w.request = q

def failures (i : Invoker) (q : Nat) : Nat := i.log.outcomes.count (q, false)

def successes (i : Invoker) (q : Nat) : Nat := i.log.outcomes.count (q, true)

/-! ## The property and the condition -/

/-- The request is on its way until its first success or until four attempts have failed, and it
is not written more often. -/
structure FullQuota (i : Invoker) (q : Nat) : Prop where
  inProgress : 0 < i.stages q ↔ i.successes q = 0 ∧ i.failures q < 4
  written : i.written q ≤ 4

/-- No stage of a request but its write fails. -/
def StagesSucceed (i : Invoker) : Action → Prop
  | .startPost _ tlsext => tlsext = true
  | .complete n ok tlsext =>
    tlsext = true ∧ (ok = false → ∀ op ∈ i.pending[n]?, op.writes? = op.request?)
  | .registerOnRead _ | .close => True

instance (i : Invoker) : (a : Action) → Decidable (i.StagesSucceed a)
  | .startPost _ tlsext => inferInstanceAs (Decidable (tlsext = true))
  | .complete n ok tlsext => inferInstanceAs (Decidable
    (tlsext = true ∧ (ok = false → ∀ op ∈ i.pending[n]?, op.writes? = op.request?)))
  | .registerOnRead _ | .close => .isTrue trivial

/-- A write that fails finds `retried_` below 3 if and only if fewer than three writes of the same
request have failed before. -/
def OwnCount (i : Invoker) : Action → Prop
  | .complete n false _ => ∀ op ∈ i.pending[n]?, ∀ q ∈ op.writes?,
    (i.retried < 3 ↔ i.failures q < 3)
  | _ => True

/-! ## What the functions do to the account -/

section Account

variable (i : Invoker) (q : Nat) (op : Op) (req : Request)

theorem stages_start : (i.start op).stages q =
    i.stages q + if op.request? = some q then 1 else 0 := by
  simp [stages, start, List.countP_append, List.countP_singleton]

theorem writing_start : (i.start op).writing q =
    i.writing q + if op.writes? = some q then 1 else 0 := by
  simp [writing, start, List.countP_append, List.countP_singleton]

theorem stages_startWrite : (i.startWrite req).stages q =
    i.stages q + if req.number = q then 1 else 0 := by
  simp [stages, startWrite, start, List.countP_append, List.countP_singleton, Op.request?]

theorem writing_startWrite : (i.startWrite req).writing q =
    i.writing q + if req.number = q then 1 else 0 := by
  simp [writing, startWrite, start, List.countP_append, List.countP_singleton, Op.writes?]

theorem written_startWrite : (i.startWrite req).written q =
    i.written q + if req.number = q then 1 else 0 := by
  simp [written, startWrite, start, List.countP_append, List.countP_singleton]

end Account

/-- What a completion does to the account of a request; the index says that a write of it has
failed. -/
inductive Moves (i t : Invoker) (q : Nat) : Bool → Prop
  | same (stages : t.stages q = i.stages q) (writing : t.writing q = i.writing q)
      (written : t.written q = i.written q) (failures : t.failures q = i.failures q)
      (successes : t.successes q = i.successes q) : Moves i t q false
  | startWrite (stages : t.stages q = i.stages q) (onWay : 0 < i.stages q)
      (writing : t.writing q = i.writing q + 1) (written : t.written q = i.written q + 1)
      (failures : t.failures q = i.failures q) (successes : t.successes q = i.successes q) :
      Moves i t q false
  | success (stages : t.stages q + 1 = i.stages q) (writing : t.writing q + 1 = i.writing q)
      (written : t.written q = i.written q) (failures : t.failures q = i.failures q)
      (successes : t.successes q = i.successes q + 1) : Moves i t q false
  | again (below : i.retried < 3) (stages : t.stages q = i.stages q) (onWay : 0 < i.stages q)
      (writing : t.writing q + 1 = i.writing q) (written : t.written q = i.written q)
      (failures : t.failures q = i.failures q + 1) (successes : t.successes q = i.successes q) :
      Moves i t q true
  | givenUp (reached : ¬ i.retried < 3) (stages : t.stages q + 1 = i.stages q)
      (writing : t.writing q + 1 = i.writing q) (written : t.written q = i.written q)
      (failures : t.failures q = i.failures q + 1) (successes : t.successes q = i.successes q) :
      Moves i t q true

/-- The last stage before the write completes. -/
theorem moves_startWrite {i j : Invoker} {q : Nat} {req : Request}
    (hstages : i.stages q = j.stages q + if some req.number = some q then 1 else 0)
    (hwriting : j.writing q = i.writing q) (hwritten : j.written q = i.written q)
    (hfailures : j.failures q = i.failures q) (hsuccesses : j.successes q = i.successes q) :
    Moves i (j.startWrite req) q false := by
  simp only [Option.some.injEq] at hstages
  have hstages' := stages_startWrite j q req
  have hwriting' := writing_startWrite j q req
  have hwritten' := written_startWrite j q req
  split at hstages
  · next hq =>
    rw [if_pos hq] at hstages' hwriting' hwritten'
    exact .startWrite (by omega) (by omega) (by omega) (by omega) hfailures hsuccesses
  · next hq =>
    rw [if_neg hq] at hstages' hwriting' hwritten'
    exact .same (by omega) (by omega) (by omega) hfailures hsuccesses

theorem moves_write {i j t : Invoker} {q : Nat} {req : Request} {ok : Bool}
    (hstages : i.stages q = j.stages q + if some req.number = some q then 1 else 0)
    (hwriting : i.writing q = j.writing q + if some req.number = some q then 1 else 0)
    (houtcomes : t.log.outcomes = i.log.outcomes ++ [(req.number, ok)])
    (hwritten : t.written q = i.written q) (hwriting' : t.writing q = j.writing q)
    (hnext : t.stages q = j.stages q ∧ (ok = true ∨ ¬ i.retried < 3) ∨
      t.stages q = i.stages q ∧ ok = false ∧ i.retried < 3) :
    Moves i t q (decide (ok = false ∧ some req.number = some q)) := by
  have hfailures : t.failures q = i.failures q + if ok = false ∧ req.number = q then 1 else 0 := by
    rw [failures, houtcomes, List.count_append, List.count_singleton]
    simp [failures, and_comm]
  have hsuccesses : t.successes q =
      i.successes q + if ok = true ∧ req.number = q then 1 else 0 := by
    rw [successes, houtcomes, List.count_append, List.count_singleton]
    simp [successes, and_comm]
  by_cases hq : req.number = q
  · simp only [hq, and_true, if_true] at *
    cases ok with
    | true =>
      simp at hfailures hsuccesses hnext
      exact .success (by omega) (by omega) (by omega) (by omega) (by omega)
    | false =>
      simp at hfailures hsuccesses hnext
      rcases hnext with ⟨hst, hreached⟩ | ⟨hst, hbelow⟩
      · exact .givenUp (by omega) (by omega) (by omega) (by omega) (by omega) (by omega)
      · exact .again hbelow (by omega) (by omega) (by omega) (by omega) (by omega) (by omega)
  · simp only [Option.some.injEq, hq, and_false, if_false, decide_false] at *
    exact .same (by omega) (by omega) (by omega) (by omega) (by omega)

/-- Another operation takes the place of the one that has completed. -/
theorem moves_start {i j : Invoker} {q : Nat} {op : Op} (hop : op.writes? = none)
    (hstages : i.stages q = j.stages q + if op.request? = some q then 1 else 0)
    (hwriting : j.writing q = i.writing q) (hwritten : j.written q = i.written q)
    (hfailures : j.failures q = i.failures q) (hsuccesses : j.successes q = i.successes q) :
    Moves i (j.start op) q false := by
  refine .same ?_ ?_ hwritten hfailures hsuccesses
  · rw [stages_start, hstages]
  · rw [writing_start, hop, hwriting]
    simp

/-- The completion handler of a write that has failed. -/
theorem moves_write_failed {T : StreamType} {i j : Invoker} {q : Nat} {req : Request}
    (hstages : i.stages q = j.stages q + if some req.number = some q then 1 else 0)
    (hwriting : i.writing q = j.writing q + if some req.number = some q then 1 else 0)
    (hlog : j.log = i.log) (hretried : j.retried = i.retried) :
    Moves i (completed T false true j (.write req)) q
      (decide (false = false ∧ some req.number = some q)) := by
  have houtcomes : (j.outcome req false).log.outcomes = i.log.outcomes ++ [(req.number, false)] :=
    congrArg (fun log : Log => log.outcomes ++ [(req.number, false)]) hlog
  have hwritten : (j.outcome req false).written q = i.written q := by
    change j.log.writes.countP _ = i.log.writes.countP _
    rw [hlog]
  by_cases hbelow : j.retried < 3
  · have hagain : completed T false true j (.write req) =
        { (j.outcome req false).start (.resolve req) with retried := j.retried + 1 } := by
      simp [completed, hbelow, startResolve]
    rw [hagain]
    refine moves_write hstages hwriting houtcomes hwritten ?_
      (Or.inr ⟨?_, rfl, hretried ▸ hbelow⟩)
    · exact writing_start _ q (.resolve req)
    · exact (stages_start _ q (.resolve req)).trans hstages.symm
  · have hgivenUp : completed T false true j (.write req) =
        { j.outcome req false with retried := 0 } := by
      simp [completed, hbelow]
    rw [hgivenUp]
    exact moves_write hstages hwriting houtcomes hwritten rfl
      (Or.inl ⟨rfl, Or.inr (hretried ▸ hbelow)⟩)

theorem moves_of_complete {T : StreamType} {i : Invoker} {n : Nat} {ok tlsext : Bool} {op : Op}
    {rest : List Op} (htaken : complete i.pending n = some (op, rest))
    (hsucceed : i.StagesSucceed (.complete n ok tlsext)) (q : Nat) :
    Moves i (completed T ok tlsext { i with pending := rest } op) q
      (decide (ok = false ∧ op.writes? = some q)) := by
  obtain ⟨rfl, hok⟩ := hsucceed
  replace hok := fun h => hok h op (complete_eq_some.mp htaken).1
  have hstages := countP_complete htaken (fun op => op.request? = some q)
  have hwriting := countP_complete htaken (fun op => op.writes? = some q)
  simp only [decide_eq_true_eq] at hstages hwriting
  cases op with
  | resolve req =>
    cases ok with
    | true => exact moves_start rfl hstages hwriting.symm rfl rfl rfl
    | false => cases hok rfl
  | connect req =>
    cases ok with
    | true =>
      cases T with
      | ssl => exact moves_start rfl hstages hwriting.symm rfl rfl rfl
      | tcp => exact moves_startWrite hstages hwriting.symm rfl rfl rfl
    | false => cases hok rfl
  | handshake req connection =>
    cases ok with
    | true => exact moves_startWrite hstages hwriting.symm rfl rfl rfl
    | false => cases hok rfl
  | write req =>
    cases ok with
    | true =>
      refine moves_write (j := { i with pending := rest }) hstages hwriting rfl rfl ?_
        (Or.inl ⟨?_, Or.inl rfl⟩)
      · exact writing_start { i with pending := rest } q .read
      · exact stages_start { i with pending := rest } q .read
    | false => exact moves_write_failed (j := { i with pending := rest }) hstages hwriting rfl rfl
  | read =>
    cases ok <;> exact .same hstages.symm hwriting.symm rfl rfl rfl

/-! ## What holds of the account -/

/-- A request is in at most one stage, and in none after it has succeeded. -/
structure Accounted (i : Invoker) (q : Nat) : Prop where
  once : i.stages q + i.successes q ≤ 1
  written : i.written q = i.failures q + i.successes q + i.writing q
  fresh : i.requests ≤ q → i.stages q = 0 ∧ i.written q = 0

theorem writing_le_stages (i : Invoker) (q : Nat) : i.writing q ≤ i.stages q := by
  refine List.countP_mono_left fun op _ hop => ?_
  cases op with
  | write req => exact hop
  | resolve | connect | handshake | read => simp [Op.writes?] at hop

theorem Accounted.moves {i t : Invoker} {q : Nat} {fails : Bool} (h : i.Accounted q)
    (hrequests : t.requests = i.requests) (hm : Moves i t q fails) : t.Accounted q := by
  obtain ⟨honce, hwritten, hfresh⟩ := h
  have hle := writing_le_stages i q
  refine ⟨?_, ?_, fun hq => ?_⟩
  · cases hm <;> omega
  · cases hm <;> omega
  · have hnone := hfresh (hrequests ▸ hq)
    cases hm <;> omega

/-- A completion keeps the property exactly if it is not a failed write of the request, or
`retried_` says what the request's own failures say. -/
theorem fullQuota_moves {i t : Invoker} {q : Nat} {fails : Bool} (h : i.Accounted q)
    (hm : Moves i t q fails) : t.FullQuota q ↔
      i.FullQuota q ∧ (fails = true → (i.retried < 3 ↔ i.failures q < 3)) := by
  obtain ⟨honce, hwritten, -⟩ := h
  have hle := writing_le_stages i q
  have hle' := writing_le_stages t q
  constructor
  · rintro ⟨hin, hmost⟩
    cases hm with
    | same | startWrite | success => exact ⟨⟨by omega, by omega⟩, fun h => nomatch h⟩
    | again | givenUp => exact ⟨⟨by omega, by omega⟩, fun _ => by omega⟩
  · rintro ⟨⟨hin, hmost⟩, hown⟩
    cases hm with
    | same | startWrite | success => exact ⟨by omega, by omega⟩
    | again | givenUp =>
      have := hown rfl
      exact ⟨by omega, by omega⟩

/-! ## Posts -/

/-- A post puts its own request on its way, and no other. -/
theorem account_startPost (T : StreamType) (i : Invoker) (body : Bytes) (q : Nat) :
    (i.startPost T true body).stages q = i.stages q + (if i.requests = q then 1 else 0) ∧
    (i.startPost T true body).failures q = i.failures q ∧
    (i.startPost T true body).successes q = i.successes q ∧
    (i.startPost T true body).requests = i.requests + 1 ∧
    ∃ n, n ≤ (if i.requests = q then 1 else 0) ∧
      (i.startPost T true body).written q = i.written q + n ∧
      (i.startPost T true body).writing q = i.writing q + n := by
  have hresolve : ∀ j req, startResolve T true j req = j.start (.resolve req) :=
    fun _ _ => if_neg (by simp)
  simp only [startPost]
  split
  · refine ⟨stages_startWrite _ q _, rfl, rfl, rfl, _, Nat.le_refl _,
      written_startWrite _ q _, writing_startWrite _ q _⟩
  · rw [hresolve]
    refine ⟨(stages_start _ q _).trans ?_, rfl, rfl, rfl, 0, Nat.zero_le _, rfl, ?_⟩
    · simp only [Op.request?, Option.some.injEq]
      rfl
    · exact writing_start _ q _

theorem Accounted.startPost {i : Invoker} {q : Nat} (h : i.Accounted q) (T : StreamType)
    (body : Bytes) : (i.startPost T true body).Accounted q := by
  obtain ⟨hstages, hfailures, hsuccesses, hrequests, n, hn, hwritten, hwriting⟩ :=
    account_startPost T i body q
  obtain ⟨honce, hsum, hfresh⟩ := h
  by_cases hq : i.requests = q
  · rw [if_pos hq] at hstages hn
    have := hfresh (Nat.le_of_eq hq)
    exact ⟨by omega, by omega, fun h => by omega⟩
  · rw [if_neg hq] at hstages hn
    exact ⟨by omega, by omega, fun h => by have := hfresh (by omega); omega⟩

theorem fullQuota_startPost {i : Invoker} {q : Nat} (h : i.Accounted q) (T : StreamType)
    (body : Bytes) :
    (i.startPost T true body).FullQuota q ↔ i.requests = q ∨ i.FullQuota q := by
  obtain ⟨hstages, hfailures, hsuccesses, -, n, hn, hwritten, hwriting⟩ :=
    account_startPost T i body q
  obtain ⟨honce, hsum, hfresh⟩ := h
  by_cases hq : i.requests = q
  · rw [if_pos hq] at hstages hn
    have := hfresh (Nat.le_of_eq hq)
    exact ⟨fun _ => Or.inl hq, fun _ => ⟨by omega, by omega⟩⟩
  · rw [if_neg hq] at hstages hn
    constructor
    · rintro ⟨hin, hmost⟩
      exact Or.inr ⟨by omega, by omega⟩
    · rintro (he | ⟨hin, hmost⟩)
      · exact absurd he hq
      · exact ⟨by omega, by omega⟩

/-! ## Runs -/

theorem requests_completed (T : StreamType) (ok tlsext : Bool) (i : Invoker) (op : Op) :
    (completed T ok tlsext i op).requests = i.requests := by
  have hresolve : ∀ (j : Invoker) req, (startResolve T tlsext j req).requests = j.requests := by
    intro j req
    unfold startResolve
    split <;> rfl
  cases ok with
  | true => cases op <;> cases T <;> rfl
  | false =>
    cases op with
    | write req =>
      simp only [completed, Bool.false_eq_true, if_false]
      split
      · exact hresolve _ req
      · rfl
    | _ => rfl

theorem Accounted.step {T : StreamType} {i t : Invoker} {a : Action} (h : ∀ q, i.Accounted q)
    (hsucceed : i.StagesSucceed a) (hstep : step T i a = some t) (q : Nat) : t.Accounted q := by
  cases step_cases hstep with
  | registerOnRead f after | close after =>
    subst after
    exact ⟨(h q).once, (h q).written, (h q).fresh⟩
  | startPost body tlsext after =>
    subst after
    cases hsucceed
    exact (h q).startPost T body
  | complete n ok tlsext op rest taken after =>
    subst after
    exact (h q).moves (requests_completed T ok tlsext _ op) (moves_of_complete taken hsucceed q)

theorem run_accounted {T : StreamType} {as : List Action} {t : Invoker}
    (hrun : run (step T) init as = some t) (hsucceed : Guarded (step T) StagesSucceed init as)
    (q : Nat) : t.Accounted q := by
  refine run_guarded (I := fun i => ∀ q, i.Accounted q) ?_ ?_ hrun hsucceed q
  · exact fun q => ⟨Nat.zero_le 1, rfl, fun _ => ⟨rfl, rfl⟩⟩
  · exact fun i a t hi hg ht => Accounted.step hi hg ht

/-- The condition, for each request apart. -/
theorem ownCount_iff {i : Invoker} (h : ∀ q, i.Accounted q) {n : Nat} {op : Op} {rest : List Op}
    (htaken : complete i.pending n = some (op, rest)) (ok tlsext : Bool) :
    i.OwnCount (.complete n ok tlsext) ↔ ∀ q < i.requests,
      decide (ok = false ∧ op.writes? = some q) = true → (i.retried < 3 ↔ i.failures q < 3) := by
  have hop := (complete_eq_some.mp htaken).1
  cases ok with
  | true => simp [OwnCount]
  | false =>
    simp only [OwnCount, hop, Option.mem_def, Option.some.injEq, forall_eq', true_and,
      decide_eq_true_eq]
    constructor
    · exact fun hall q _ hq => hall q hq
    · intro hall q hq
      refine hall q (Nat.lt_of_not_le fun hle => ?_) hq
      -- the operation is one of a request that was posted
      have hnone := ((h q).fresh hle).1
      have hwriting := writing_le_stages i q
      have hpos : 0 < i.writing q :=
        List.countP_pos_iff.mpr ⟨op, mem_of_complete htaken, by simpa using hq⟩
      omega

/-- What one step does to the property. -/
theorem fullQuota_step {T : StreamType} {i t : Invoker} {a : Action} (h : ∀ q, i.Accounted q)
    (hsucceed : i.StagesSucceed a) (hstep : step T i a = some t) :
    (∀ q < t.requests, t.FullQuota q) ↔ (∀ q < i.requests, i.FullQuota q) ∧ i.OwnCount a := by
  cases step_cases hstep with
  | registerOnRead f after | close after =>
    subst after
    constructor
    · exact fun hall => ⟨fun q hq => ⟨(hall q hq).inProgress, (hall q hq).written⟩, trivial⟩
    · exact fun ⟨hall, _⟩ q hq => ⟨(hall q hq).inProgress, (hall q hq).written⟩
  | startPost body tlsext after =>
    subst after
    cases hsucceed
    have hrequests := (account_startPost T i body 0).2.2.2.1
    rw [hrequests]
    refine Iff.trans ?_ (and_iff_left trivial).symm
    constructor
    · intro hall q hq
      refine ((fullQuota_startPost (h q) T body).mp (hall q (by omega))).resolve_left ?_
      omega
    · intro hall q hq
      refine (fullQuota_startPost (h q) T body).mpr ?_
      by_cases hlast : i.requests = q
      · exact Or.inl hlast
      · exact Or.inr (hall q (by omega))
  | complete n ok tlsext op rest taken after =>
    subst after
    have hmoves := moves_of_complete taken hsucceed (T := T)
    have hown := ownCount_iff h taken ok tlsext
    rw [requests_completed, hown, ← forall₂_and]
    exact forall₂_congr fun q _ => fullQuota_moves (h q) (hmoves q)

/-- When no resolve, connect or handshake fails, every request of a run is written until its first
success or until four attempts have failed, and no more often, if and only if each failed write
has found `retried_` below 3 exactly when fewer than three writes of its own request had failed
before. -/
theorem fullQuota_iff {T : StreamType} {as : List Action} {t : Invoker}
    (hrun : run (step T) init as = some t) (hsucceed : Guarded (step T) StagesSucceed init as) :
    (∀ q < t.requests, t.FullQuota q) ↔ Guarded (step T) OwnCount init as := by
  refine run_guarded_iff (Q := fun t => ∀ q < t.requests, t.FullQuota q) ?_ hrun ?_
  · exact fun q hq => absurd hq (Nat.not_lt_zero q)
  · intro pre a post i t' has hi ht'
    subst has
    have haccount := run_accounted hi hsucceed.prefix
    exact fullQuota_step haccount (hsucceed pre a post i rfl hi) ht'

/-! ## A request that pays for another -/

/-- The stages of a request on a closed socket, up to its write. -/
def toWrite : List Action := [.complete 0 true true, .complete 0 true true, .complete 0 true true]

/-- The write of the only request on its way fails, and it is tried again. -/
def failAgain : List Action := .complete 0 false true :: toWrite

/-- One request that fails four times. -/
def fourFailures : List Action :=
  .startPost [65] true :: toWrite ++ failAgain ++ failAgain ++ failAgain ++
    [.complete 0 false true]

theorem fullQuota_iff_fourFailures : ∃ t, run (step .ssl) init fourFailures = some t ∧
    t.written 0 = 4 ∧
    ((∀ q < t.requests, t.FullQuota q) ↔ Guarded (step .ssl) OwnCount init fourFailures) := by
  refine ⟨_, rfl, by decide, fullQuota_iff rfl (guarded_of_check ?_)⟩
  decide

/-- The first request is written at its second attempt. The second one fails three times. -/
def carriedOver : List Action :=
  .startPost [65] true :: toWrite ++ failAgain ++ [.complete 0 true true, .complete 0 true true] ++
    [.startPost [66] true] ++ failAgain ++ failAgain ++ [.complete 0 false true]

/-- The second request is given up after two retries. -/
theorem carriedOver_givenUp : ∃ t, run (step .ssl) init carriedOver = some t ∧
    t.successes 0 = 1 ∧ t.stages 1 = 0 ∧ t.failures 1 = 3 ∧ t.written 1 = 3 ∧
    ¬ ∀ q < t.requests, t.FullQuota q := by
  refine ⟨_, rfl, by decide, by decide, by decide, by decide, fun hall => ?_⟩
  exact absurd ((hall 1 (by decide)).inProgress.mpr ⟨by decide, by decide⟩) (by decide)

end CppSerializer.Trigger.Invoker
