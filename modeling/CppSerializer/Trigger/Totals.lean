import CppSerializer.Library.Work
import CppSerializer.Trigger.Retries

/-!
# All requests of an invoker

What `retried_` does to a single request depends on the others; what it does to all of them does
not. It is the number of failed writes modulo four, so every fourth failed write, whichever
requests they are of, gives its request up (`requests_tallied`). So the requests on their way, those
that were written and those that were given up are as many as the posts, unless a stage before a
write has failed, and in all there are at most four times as many writes as posts; a single request
may be written more often. The invoker does not go on for ever either: `completions_bounded` is the
bound on what it does before the next post.
-/

namespace CppSerializer.Trigger.Invoker

open Pack Completion Transition Work

/-! ## The totals -/

/-- The requests that are on their way. -/
def inProgress (i : Invoker) : Nat := i.pending.countP fun op => op.request?.isSome

/-- The writes that are in progress. -/
def inFlight (i : Invoker) : Nat := i.pending.countP fun op => op.writes?.isSome

/-- The writes that have failed. -/
def failed (i : Invoker) : Nat := i.log.outcomes.countP fun o => !o.2

/-- The writes that have succeeded. -/
def succeeded (i : Invoker) : Nat := i.log.outcomes.countP fun o => o.2

theorem inFlight_le (i : Invoker) : i.inFlight ≤ i.inProgress := by
  refine List.countP_mono_left fun op _ hop => ?_
  cases op with
  | write req => rfl
  | resolve | connect | handshake | read => cases hop

/-- What a completion does to the totals; the index says that a request was dropped because a
stage before its write has failed. -/
inductive Tally (i t : Invoker) : Bool → Prop
  | stage (inProgress : t.inProgress = i.inProgress) (inFlight : t.inFlight = i.inFlight)
      (writes : t.log.writes = i.log.writes) (outcomes : t.log.outcomes = i.log.outcomes)
      (retried : t.retried = i.retried) : Tally i t false
  | write (inProgress : t.inProgress = i.inProgress) (inFlight : t.inFlight = i.inFlight + 1)
      (writes : t.log.writes.length = i.log.writes.length + 1)
      (outcomes : t.log.outcomes = i.log.outcomes) (retried : t.retried = i.retried) :
      Tally i t false
  | drop (inProgress : t.inProgress + 1 = i.inProgress) (inFlight : t.inFlight = i.inFlight)
      (writes : t.log.writes = i.log.writes) (outcomes : t.log.outcomes = i.log.outcomes)
      (retried : t.retried = i.retried) : Tally i t true
  | success (inProgress : t.inProgress + 1 = i.inProgress) (inFlight : t.inFlight + 1 = i.inFlight)
      (writes : t.log.writes = i.log.writes) (failed : t.failed = i.failed)
      (succeeded : t.succeeded = i.succeeded + 1) (retried : t.retried = i.retried) :
      Tally i t false
  | again (dropped : Bool) (below : i.retried < 3)
      (inProgress : t.inProgress + dropped.toNat = i.inProgress)
      (inFlight : t.inFlight + 1 = i.inFlight) (writes : t.log.writes = i.log.writes)
      (failed : t.failed = i.failed + 1) (succeeded : t.succeeded = i.succeeded)
      (retried : t.retried = i.retried + 1) : Tally i t dropped
  | givenUp (reached : ¬ i.retried < 3) (inProgress : t.inProgress + 1 = i.inProgress)
      (inFlight : t.inFlight + 1 = i.inFlight) (writes : t.log.writes = i.log.writes)
      (failed : t.failed = i.failed + 1) (succeeded : t.succeeded = i.succeeded)
      (retried : t.retried = 0) : Tally i t false

/-! ## Completions -/

section Starts

variable (i : Invoker) (op : Op) (req : Request)

theorem inProgress_start : (i.start op).inProgress =
    i.inProgress + if op.request?.isSome then 1 else 0 := by
  rw [inProgress, start, List.countP_append, List.countP_singleton]
  rfl

theorem inFlight_start : (i.start op).inFlight =
    i.inFlight + if op.writes?.isSome then 1 else 0 := by
  rw [inFlight, start, List.countP_append, List.countP_singleton]
  rfl

theorem failed_outcome (ok : Bool) :
    (i.outcome req ok).failed = i.failed + if !ok then 1 else 0 := by
  rw [failed, outcome, List.countP_append, List.countP_singleton]
  rfl

theorem succeeded_outcome (ok : Bool) :
    (i.outcome req ok).succeeded = i.succeeded + if ok then 1 else 0 := by
  rw [succeeded, outcome, List.countP_append, List.countP_singleton]
  rfl

end Starts

/-- The write of a request whose last stage before it has completed. -/
theorem tally_startWrite {i j : Invoker} (req : Request)
    (hprogress : i.inProgress = j.inProgress + 1) (hflight : i.inFlight = j.inFlight)
    (hlog : j.log = i.log) (hretried : j.retried = i.retried) :
    Tally i (j.startWrite req) false := by
  have hprogress' := inProgress_start
    { j with log := { j.log with writes := j.log.writes ++ [⟨req.number, j.handshaken, j.busy⟩] } }
    (.write req)
  have hflight' := inFlight_start
    { j with log := { j.log with writes := j.log.writes ++ [⟨req.number, j.handshaken, j.busy⟩] } }
    (.write req)
  refine .write (hprogress'.trans hprogress.symm) ?_ ?_ ?_ hretried
  · rw [hflight]
    exact hflight'
  · rw [← hlog]
    exact List.length_append
  · rw [← hlog]
    rfl

/-- The next stage before the write. -/
theorem tally_start {i j : Invoker} {op : Op} (hop : op.request?.isSome = true)
    (hwrites : op.writes? = none) (hprogress : i.inProgress = j.inProgress + 1)
    (hflight : i.inFlight = j.inFlight) (hlog : j.log = i.log) (hretried : j.retried = i.retried) :
    Tally i (j.start op) false := by
  refine .stage ?_ ?_ (congrArg Log.writes hlog) (congrArg Log.outcomes hlog) hretried
  · rw [inProgress_start, hop, if_pos rfl, hprogress]
  · rw [inFlight_start, hwrites, hflight]
    rfl

/-- The completion handler of a write that has failed. -/
theorem tally_failed {T : StreamType} {i j : Invoker} (tlsext : Bool) (req : Request)
    (hprogress : i.inProgress = j.inProgress + 1) (hflight : i.inFlight = j.inFlight + 1)
    (hlog : j.log = i.log) (hretried : j.retried = i.retried) :
    Tally i (completed T false tlsext j (.write req))
      (decide (i.retried < 3 ∧ T = .ssl ∧ tlsext = false)) := by
  have hfailed : (j.outcome req false).failed = i.failed + 1 := by
    rw [failed_outcome, failed, hlog]
    rfl
  have hsucceeded : (j.outcome req false).succeeded = i.succeeded := by
    rw [succeeded_outcome, succeeded, hlog]
    rfl
  have hwrites : (j.outcome req false).log.writes = i.log.writes := by
    change j.log.writes = i.log.writes
    rw [hlog]
  simp only [completed, Bool.false_eq_true, if_false, hretried]
  by_cases hbelow : i.retried < 3
  · rw [if_pos hbelow, startResolve]
    by_cases hname : T = .ssl ∧ tlsext = false
    · rw [if_pos hname, decide_eq_true ⟨hbelow, hname⟩]
      exact .again true hbelow hprogress.symm hflight.symm hwrites hfailed hsucceeded rfl
    · rw [if_neg hname, decide_eq_false fun h => hname h.2]
      refine .again false hbelow ?_ ?_ hwrites hfailed hsucceeded rfl
      · exact (inProgress_start (j.outcome req false) (.resolve req)).trans hprogress.symm
      · rw [hflight]
        exact congrArg Nat.succ (inFlight_start (j.outcome req false) (.resolve req))
  · rw [if_neg hbelow, decide_eq_false fun h => hbelow h.1]
    exact .givenUp hbelow hprogress.symm hflight.symm hwrites hfailed hsucceeded rfl

/-- The completion drops a request. -/
def drops (T : StreamType) (ok tlsext : Bool) (i : Invoker) (op : Op) : Bool :=
  !ok && match op with
    | .resolve _ | .connect _ | .handshake _ _ => true
    | .write _ => decide (i.retried < 3 ∧ T = .ssl ∧ tlsext = false)
    | .read => false

theorem tally_of_complete (T : StreamType) {i : Invoker} {n : Nat} (ok tlsext : Bool) {op : Op}
    {rest : List Op} (htaken : complete i.pending n = some (op, rest)) :
    Tally i (completed T ok tlsext { i with pending := rest } op) (drops T ok tlsext i op) := by
  have hprogress := countP_complete htaken fun op => op.request?.isSome
  have hflight := countP_complete htaken fun op => op.writes?.isSome
  change i.inProgress = inProgress { i with pending := rest } + _ at hprogress
  change i.inFlight = inFlight { i with pending := rest } + _ at hflight
  cases op with
  | resolve req =>
    cases ok with
    | true => exact tally_start rfl rfl hprogress hflight rfl rfl
    | false => exact .drop hprogress.symm hflight.symm rfl rfl rfl
  | connect req =>
    cases ok with
    | true =>
      cases T with
      | ssl => exact tally_start rfl rfl hprogress hflight rfl rfl
      | tcp => exact tally_startWrite req hprogress hflight rfl rfl
    | false => exact .drop hprogress.symm hflight.symm rfl rfl rfl
  | handshake req connection =>
    cases ok with
    | true => exact tally_startWrite req hprogress hflight rfl rfl
    | false => exact .drop hprogress.symm hflight.symm rfl rfl rfl
  | write req =>
    cases ok with
    | true =>
      refine .success ?_ ?_ rfl ?_ ?_ rfl
      · exact (congrArg Nat.succ (inProgress_start _ .read)).trans hprogress.symm
      · exact (congrArg Nat.succ (inFlight_start _ .read)).trans hflight.symm
      · exact failed_outcome _ req true
      · exact succeeded_outcome _ req true
    | false => exact tally_failed tlsext req hprogress hflight rfl rfl
  | read => cases ok <;> exact .stage hprogress.symm hflight.symm rfl rfl rfl

/-! ## Posts -/

/-- A post puts a request on its way, or drops it because the name of the host is refused. -/
theorem tally_startPost (T : StreamType) (tlsext : Bool) (i : Invoker) (body : Bytes) :
    ∃ m n, n ≤ m ∧ m ≤ 1 ∧ (tlsext = true → m = 1) ∧
      (i.startPost T tlsext body).inProgress = i.inProgress + m ∧
      (i.startPost T tlsext body).inFlight = i.inFlight + n ∧
      (i.startPost T tlsext body).log.writes.length = i.log.writes.length + n ∧
      (i.startPost T tlsext body).log.outcomes = i.log.outcomes ∧
      (i.startPost T tlsext body).retried = i.retried ∧
      (i.startPost T tlsext body).requests = i.requests + 1 := by
  simp only [startPost]
  split
  · exact ⟨1, 1, Nat.le_refl 1, Nat.le_refl 1, fun _ => rfl, inProgress_start _ (.write _),
      inFlight_start _ (.write _), List.length_append, rfl, rfl, rfl⟩
  · rw [startResolve]
    split
    · rename_i hname
      refine ⟨0, 0, Nat.le_refl 0, Nat.zero_le 1, ?_, rfl, rfl, rfl, rfl, rfl, rfl⟩
      intro hset
      rw [hname.2] at hset
      cases hset
    · exact ⟨1, 0, Nat.zero_le 1, Nat.le_refl 1, fun _ => rfl, inProgress_start _ (.resolve _),
        inFlight_start _ (.resolve _), rfl, rfl, rfl, rfl⟩

/-! ## What holds of the totals -/

/-- `retried_` counts the failed writes modulo four, each fourth of them gives a request up, and
each of the others was a request that is not given up with it. -/
structure Tallied (i : Invoker) : Prop where
  retried : i.retried = i.failed % 4
  writes : i.log.writes.length = i.succeeded + i.failed + i.inFlight
  requests : i.inProgress + i.succeeded + i.failed / 4 ≤ i.requests
  spare : i.failed % 4 ≠ 0 → i.failed / 4 < i.requests

theorem Tallied.congr {i t : Invoker} (h : i.Tallied) (hpending : t.pending = i.pending)
    (hlog : t.log = i.log) (hretried : t.retried = i.retried)
    (hrequests : t.requests = i.requests) : t.Tallied := by
  obtain ⟨hretried', hwrites, hposted, hspare⟩ := h
  constructor
  · rw [hretried, failed, hlog]
    exact hretried'
  · rw [succeeded, failed, inFlight, hpending, hlog]
    exact hwrites
  · rw [inProgress, succeeded, failed, hpending, hlog, hrequests]
    exact hposted
  · rw [failed, hlog, hrequests]
    exact hspare

theorem Tallied.complete {i t : Invoker} (h : i.Tallied) {dropped : Bool}
    (htally : Tally i t dropped) (hrequests : t.requests = i.requests) : t.Tallied := by
  obtain ⟨hretried, hwrites, hposted, hspare⟩ := h
  have hle := inFlight_le i
  cases htally with
  | stage inProgress inFlight writes outcomes retried
  | drop inProgress inFlight writes outcomes retried =>
    have hfailed : t.failed = i.failed := by rw [failed, failed, outcomes]
    have hsucceeded : t.succeeded = i.succeeded := by rw [succeeded, succeeded, outcomes]
    have hlength := congrArg List.length writes
    constructor <;> omega
  | write inProgress inFlight writes outcomes retried =>
    have hfailed : t.failed = i.failed := by rw [failed, failed, outcomes]
    have hsucceeded : t.succeeded = i.succeeded := by rw [succeeded, succeeded, outcomes]
    constructor <;> omega
  | success inProgress inFlight writes failed succeeded retried
  | givenUp reached inProgress inFlight writes failed succeeded retried =>
    have hlength := congrArg List.length writes
    constructor <;> omega
  | again dropped below inProgress inFlight writes failed succeeded retried =>
    have hlength := congrArg List.length writes
    -- the request of the write is on its way, so it is not one of those that were given up
    constructor <;> omega

theorem Tallied.startPost {i : Invoker} (h : i.Tallied) (T : StreamType) (tlsext : Bool)
    (body : Bytes) : (i.startPost T tlsext body).Tallied := by
  obtain ⟨m, n, hnm, hm, -, hprogress, hflight, hwrites', houtcomes, hretried', hrequests⟩ :=
    tally_startPost T tlsext i body
  obtain ⟨hretried, hwrites, hposted, hspare⟩ := h
  have hfailed : (i.startPost T tlsext body).failed = i.failed := by
    rw [failed, failed, houtcomes]
  have hsucceeded : (i.startPost T tlsext body).succeeded = i.succeeded := by
    rw [succeeded, succeeded, houtcomes]
  constructor <;> omega

theorem Tallied.step {T : StreamType} {i t : Invoker} {a : Action} (h : i.Tallied)
    (hstep : step T i a = some t) : t.Tallied := by
  cases step_cases hstep with
  | registerOnRead f after | close after =>
    subst after
    exact h.congr rfl rfl rfl rfl
  | startPost body tlsext after =>
    subst after
    exact h.startPost T tlsext body
  | complete n ok tlsext op rest taken after =>
    subst after
    exact h.complete (tally_of_complete T ok tlsext taken) (requests_completed T ok tlsext _ op)

/-! ## Runs -/

theorem run_tallied {T : StreamType} {as : List Action} {t : Invoker}
    (hrun : run (step T) init as = some t) : t.Tallied := by
  refine run_induction (P := fun _ i => i.Tallied) ?_ ?_ as t hrun
  · exact ⟨rfl, rfl, Nat.le_refl 0, fun h => absurd rfl h⟩
  · exact fun _ i a t _ ih ht => ih.step ht

/-- No request is dropped when no stage before a write fails. -/
theorem drops_eq_false {T : StreamType} {i : Invoker} {n : Nat} {ok tlsext : Bool} {op : Op}
    {rest : List Op} (htaken : Completion.complete i.pending n = some (op, rest))
    (hsucceed : i.StagesSucceed (.complete n ok tlsext)) : drops T ok tlsext i op = false := by
  obtain ⟨rfl, hok⟩ := hsucceed
  cases ok with
  | true => rfl
  | false =>
    have hwrite := hok rfl op (complete_eq_some.mp htaken).1
    cases op with
    | write req => simp [drops]
    | read => rfl
    | resolve | connect | handshake => cases hwrite

theorem run_kept {T : StreamType} {as : List Action} {t : Invoker}
    (hrun : run (step T) init as = some t) (hsucceed : Guarded (step T) StagesSucceed init as) :
    t.inProgress + t.succeeded + t.failed / 4 = t.requests := by
  revert hsucceed
  refine run_induction (P := fun as t => Guarded (step T) StagesSucceed init as →
    t.inProgress + t.succeeded + t.failed / 4 = t.requests) (fun _ => rfl) ?_ as t hrun
  intro as i a t hi ih ht hsucceed
  have hold := ih hsucceed.prefix
  have hlast := hsucceed.last hi
  obtain ⟨hretried, -, -, -⟩ := run_tallied hi
  cases step_cases ht with
  | registerOnRead f after | close after =>
    subst after
    exact hold
  | startPost body tlsext after =>
    subst after
    obtain ⟨m, n, -, -, hm, hprogress, -, -, houtcomes, -, hrequests⟩ :=
      tally_startPost T tlsext i body
    have hone := hm hlast
    have hfailed : (i.startPost T tlsext body).failed = i.failed := by
      rw [failed, failed, houtcomes]
    have hsucceeded : (i.startPost T tlsext body).succeeded = i.succeeded := by
      rw [succeeded, succeeded, houtcomes]
    omega
  | complete n ok tlsext op rest taken after =>
    have htally := tally_of_complete T ok tlsext taken
    have hrequests := requests_completed T ok tlsext { i with pending := rest } op
    rw [drops_eq_false taken hlast, ← after] at htally
    rw [← after] at hrequests
    change t.requests = i.requests at hrequests
    cases htally with
    | stage inProgress inFlight writes outcomes | write inProgress inFlight writes outcomes =>
      have hfailed : t.failed = i.failed := by rw [failed, failed, outcomes]
      have hsucceeded : t.succeeded = i.succeeded := by rw [succeeded, succeeded, outcomes]
      omega
    | success inProgress inFlight writes failed succeeded => omega
    | again _ below inProgress inFlight writes failed succeeded =>
      rw [Bool.toNat_false] at inProgress
      omega
    | givenUp reached inProgress inFlight writes failed succeeded => omega

/-- In every run `retried_` is the number of failed writes modulo four. The requests on their way,
the writes that have succeeded, and one for every fourth failed write, are no more than the posts,
and as many if no resolve, connect or handshake has failed. In all there were at most four times as
many writes as posts. -/
theorem requests_tallied {T : StreamType} {as : List Action} {t : Invoker}
    (hrun : run (step T) init as = some t) :
    t.retried = t.failed % 4 ∧
    t.inProgress + t.succeeded + t.failed / 4 ≤ t.requests ∧
    (Guarded (step T) StagesSucceed init as →
      t.inProgress + t.succeeded + t.failed / 4 = t.requests) ∧
    t.log.writes.length ≤ 4 * t.requests := by
  obtain ⟨hretried, hwrites, hrequests, hspare⟩ := run_tallied hrun
  refine ⟨hretried, hrequests, run_kept hrun, ?_⟩
  have hle := inFlight_le t
  omega

theorem requests_tallied_carriedOver : ∃ t, run (step .ssl) init carriedOver = some t ∧
    t.failed = 4 ∧ t.log.writes.length = 5 ∧
    t.retried = t.failed % 4 ∧ t.inProgress + t.succeeded + t.failed / 4 = t.requests := by
  have hsucceed : Guarded (step .ssl) StagesSucceed init carriedOver := guarded_of_check (by decide)
  have hrun : ∃ t, run (step .ssl) init carriedOver = some t ∧ t.failed = 4 ∧
      t.log.writes.length = 5 := ⟨_, rfl, by decide, by decide⟩
  obtain ⟨t, ht, hfailed, hwrites⟩ := hrun
  obtain ⟨hretried, -, hall, -⟩ := requests_tallied ht
  exact ⟨t, ht, hfailed, hwrites, hretried, hall hsucceed⟩

/-! ## The work of an invoker -/

/-- What an operation costs, with those that its completion handlers start. -/
def opWork : Op → Nat
  | .resolve _ => 17
  | .connect _ => 16
  | .handshake _ _ => 15
  | .write _ => 14
  | .read => 1

/-- The operations in progress, and the retries that are left until `retried_` is reset. A failed
write that is tried again adds 3 and takes a retry, which is worth 4; one that gives its request
up takes the whole write away and brings three retries back. -/
def work (i : Invoker) : Nat := weight opWork i.pending + 4 * (3 - i.retried)

theorem work_start (i : Invoker) (op : Op) : (i.start op).work = i.work + opWork op := by
  simp only [work, start, weight_append, weight_cons, weight_nil]
  omega

theorem work_startWrite (i : Invoker) (req : Request) : (i.startWrite req).work = i.work + 14 :=
  work_start { i with log := { i.log with writes := i.log.writes ++
    [⟨req.number, i.handshaken, i.busy⟩] } } (.write req)

theorem work_startConnect (i : Invoker) (req : Request) :
    (i.startConnect req).work = i.work + 16 :=
  work_start { i with isOpen := true, connection := i.connection + 1, handshaken := false }
    (.connect req)

theorem work_startResolve (T : StreamType) (tlsext : Bool) (i : Invoker) (req : Request) :
    (startResolve T tlsext i req).work ≤ i.work + 17 := by
  rw [startResolve]
  split
  · exact Nat.le_add_right _ 17
  · exact Nat.le_of_eq (work_start i (.resolve req))

theorem work_startPost (T : StreamType) (tlsext : Bool) (i : Invoker) (body : Bytes) :
    (i.startPost T tlsext body).work ≤ i.work + 17 := by
  simp only [startPost]
  split
  · rw [work_startWrite]
    exact Nat.add_le_add_left (by decide : 14 ≤ 17) _
  · exact work_startResolve T tlsext { i with requests := i.requests + 1 } _

/-- The request that is tried again takes a retry. -/
theorem work_again (T : StreamType) (tlsext : Bool) (i : Invoker) (req : Request)
    (hbelow : i.retried < 3) :
    work { startResolve T tlsext i req with retried := i.retried + 1 } + 4 ≤ i.work + 17 := by
  have hresolve : (startResolve T tlsext i req).retried = i.retried := by
    rw [startResolve]
    split <;> rfl
  have hle := work_startResolve T tlsext i req
  simp only [work, hresolve] at hle ⊢
  omega

theorem opWork_pos (op : Op) : 0 < opWork op := by
  cases op <;> exact Nat.succ_pos _

/-- Every completion uses work up, whatever it says. -/
theorem work_completed (T : StreamType) (ok tlsext : Bool) (i : Invoker) (op : Op) :
    (completed T ok tlsext i op).work < i.work + opWork op := by
  have hdropped : i.work < i.work + opWork op := Nat.lt_add_of_pos_right (opWork_pos op)
  cases op with
  | resolve req =>
    cases ok with
    | true =>
      rw [completed, if_pos rfl, work_startConnect, opWork]
      omega
    | false => exact hdropped
  | connect req =>
    cases ok with
    | true =>
      cases T with
      | ssl =>
        rw [completed, if_pos rfl, work_start, opWork, opWork]
        omega
      | tcp =>
        rw [completed, if_pos rfl, work_startWrite, opWork]
        omega
    | false => exact hdropped
  | handshake req connection =>
    cases ok with
    | true =>
      rw [completed, if_pos rfl, work_startWrite, opWork]
      exact Nat.lt_add_one (i.work + 14)
    | false => exact hdropped
  | write req =>
    simp only [completed, opWork]
    split
    · have hread := work_start (i.outcome req ok) .read
      change _ = i.work + 1 at hread
      rw [startRead, hread]
      omega
    · split
      · rename_i hbelow
        have hagain := work_again T tlsext (i.outcome req ok) req hbelow
        change _ ≤ i.work + 17 at hagain
        exact Nat.lt_of_add_lt_add_right (Nat.lt_of_le_of_lt hagain (Nat.lt_add_one (i.work + 17)))
      · rename_i hreached
        simp only [work, outcome]
        omega
  | read => cases ok <;> exact hdropped

theorem work_complete {T : StreamType} {i t : Invoker} {n : Nat} {ok tlsext : Bool} {op : Op}
    {rest : List Op} (htaken : Completion.complete i.pending n = some (op, rest))
    (hafter : t = completed T ok tlsext { i with pending := rest } op) : t.work < i.work := by
  obtain ⟨hop, hrest⟩ := complete_eq_some.mp htaken
  have hweight := weight_eraseIdx (f := opWork) hop
  have hless := work_completed T ok tlsext { i with pending := rest } op
  rw [← hafter] at hless
  simp only [work, ← hrest] at hweight hless ⊢
  omega

theorem uses_completions (T : StreamType) :
    Uses (step T) (fun _ => True) (fun _ a => a.IsCompletion) work := by
  rintro i (f | ⟨body, tlsext⟩ | ⟨n, ok, tlsext⟩ | _) t - ha ht
  · cases ha
  · cases ha
  · cases step_cases ht with
    | complete n ok tlsext op rest taken after => exact ⟨trivial, work_complete taken after⟩
  · cases ha

/-- The first operation in progress can complete. -/
theorem exists_completion (T : StreamType) {i : Invoker} (hpending : i.pending ≠ []) :
    ∃ t, i.step T (.complete 0 true true) = some t := by
  obtain ⟨op, rest, hcons⟩ := List.exists_cons_of_ne_nil hpending
  have htaken : Completion.complete i.pending 0 = some (op, rest) :=
    complete_eq_some.mpr ⟨by rw [hcons]; rfl, by rw [hcons]; rfl⟩
  exact ⟨_, step_complete htaken true true⟩

/-- The completions of a run. -/
def completions (as : List Action) : Nat := as.countP fun
  | .complete _ _ _ => true
  | .registerOnRead _ | .startPost _ _ | .close => false

theorem completions_concat (as : List Action) (a : Action) :
    completions (as ++ [a]) = completions as + completions [a] := List.countP_append

theorem run_completions {T : StreamType} {as : List Action} {t : Invoker}
    (hrun : run (step T) init as = some t) : completions as + t.work ≤ 17 * t.requests + 12 := by
  refine run_induction (P := fun as t => completions as + t.work ≤ 17 * t.requests + 12) ?_ ?_
    as t hrun
  · exact Nat.le_refl 12
  · intro as i a t _ ih ht
    rw [completions_concat]
    cases step_cases ht with
    | registerOnRead f after | close after =>
      subst after
      exact ih
    | startPost body tlsext after =>
      have hpost := work_startPost T tlsext i body
      obtain ⟨-, -, -, -, -, -, -, -, -, -, hrequests⟩ := tally_startPost T tlsext i body
      rw [← after] at hpost hrequests
      change completions as + 0 + t.work ≤ _
      omega
    | complete n ok tlsext op rest taken after =>
      have hless := work_complete taken after
      have hrequests := requests_completed T ok tlsext { i with pending := rest } op
      rw [← after] at hrequests
      change t.requests = i.requests at hrequests
      change completions as + 1 + t.work ≤ _
      omega

/-- However the operations go and whatever the retries do, a run has 17 completions at most for
each post, and 12 more. So an invoker that is given no more posts comes to have nothing in
progress. -/
theorem completions_bounded {T : StreamType} {as : List Action} {t : Invoker}
    (hrun : run (step T) init as = some t) :
    completions as ≤ 17 * t.requests + 12 ∧
    ∃ bs u, (∀ b ∈ bs, b.IsCompletion) ∧ run (step T) t bs = some u ∧ u.pending = [] := by
  refine ⟨Nat.le_trans (Nat.le_add_right _ _) (run_completions hrun), ?_⟩
  obtain ⟨bs, u, hbs, hguard, hrest⟩ := (uses_completions T).exists_rest (s := t) trivial
  refine ⟨bs, u, ?_, hbs, ?_⟩
  · exact hguard.forall_mem hbs
  · by_contra hpending
    obtain ⟨v, hv⟩ := exists_completion T hpending
    rw [hrest (.complete 0 true true) trivial] at hv
    cases hv

theorem completions_bounded_carriedOver : ∃ t, run (step .ssl) init carriedOver = some t ∧
    completions carriedOver ≤ 17 * t.requests + 12 ∧
    ∃ bs u, (∀ b ∈ bs, b.IsCompletion) ∧ run (step .ssl) t bs = some u ∧ u.pending = [] := by
  have hrun : ∃ t, run (step .ssl) init carriedOver = some t := ⟨_, rfl⟩
  obtain ⟨t, ht⟩ := hrun
  exact ⟨t, ht, completions_bounded ht⟩

end CppSerializer.Trigger.Invoker
