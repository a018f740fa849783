import CppSerializer.Trigger.Invoker

/-!
# The stages of a request

When `start_post` finds the socket open it writes at once, whatever the stage of the connection
is: the connect or the handshake may be in progress or have failed, or another request may be
written. So the stream is used well only if a request is posted when no other is on its way, and,
on an open socket, when the handshake has succeeded. The completions need no such condition:
`wellUsed_iff` states that this one on the posts is enough, whatever completes and when, and that
a post without it can always be continued to a write that misuses the stream.
-/

namespace CppSerializer.Trigger.Invoker

open Pack Completion Transition

/-! ## The property and the condition -/

/-- Every write was started when the handshake of its connection had succeeded and no connect,
handshake or write was in progress. -/
def WellUsed (i : Invoker) : Prop :=
  ∀ w ∈ i.log.writes, w.handshaken = true ∧ w.busy = false

/-- No request is between its post and the outcome of its write. -/
def Idle (i : Invoker) : Prop := ∀ op ∈ i.pending, op.request? = none

/-- A post that starts anything finds no other request on its way, and an open socket only after
the handshake. -/
def PostsAlone (i : Invoker) : Action → Prop
  | .startPost _ tlsext =>
    if i.isOpen then i.handshaken = true ∧ i.Idle else tlsext = true → i.Idle
  | _ => True

/-! ## Runs that meet the condition -/

/-- The one request on its way, if there is one, has the handshake of the current connection. -/
structure Alone (i : Invoker) : Prop where
  one : i.pending.countP (fun op => op.request?.isSome) ≤ 1
  current : ∀ req n, .handshake req n ∈ i.pending → n = i.connection
  wellUsed : i.WellUsed

theorem Idle.not_busy {i : Invoker} (h : i.Idle) : i.busy = false := by
  refine List.any_eq_false.mpr fun op hop => ?_
  have hnone := h op hop
  cases op with
  | read | resolve req => simp [Op.usesStream]
  | connect req | handshake req n | write req => cases hnone

theorem idle_iff {i : Invoker} : i.Idle ↔ i.pending.countP (fun op => op.request?.isSome) = 0 := by
  simp [Idle, List.countP_eq_zero]

theorem WellUsed.startWrite {i : Invoker} (h : i.WellUsed) (hidle : i.Idle)
    (hshaken : i.handshaken = true) (req : Request) : (i.startWrite req).WellUsed := by
  intro w hw
  rcases List.mem_append.mp hw with hw | hw
  · exact h w hw
  · rw [List.mem_singleton.mp hw]
    exact ⟨hshaken, hidle.not_busy⟩

/-- An operation that is started when no request is on its way. -/
theorem Alone.start {i t : Invoker} (hidle : i.Idle) (op : Op)
    (hpending : t.pending = i.pending ++ [op]) (hused : t.WellUsed)
    (hcurrent : ∀ req n, op = .handshake req n → n = t.connection) : t.Alone := by
  refine ⟨?_, ?_, hused⟩
  · rw [hpending, List.countP_append, idle_iff.mp hidle, Nat.zero_add]
    exact List.countP_le_length
  · intro req n hmem
    rw [hpending] at hmem
    rcases List.mem_append.mp hmem with hmem | hmem
    · cases hidle _ hmem
    · exact hcurrent req n (List.mem_singleton.mp hmem).symm

theorem Alone.startWrite {i : Invoker} (hidle : i.Idle) (hused : i.WellUsed)
    (hshaken : i.handshaken = true) (req : Request) : (i.startWrite req).Alone :=
  .start hidle (.write req) rfl (hused.startWrite hidle hshaken req) fun _ _ he => nomatch he

theorem Alone.idle {i : Invoker} (hidle : i.Idle) (hused : i.WellUsed) : i.Alone := by
  refine ⟨?_, fun req n hmem => (by cases hidle _ hmem), hused⟩
  rw [idle_iff.mp hidle]
  exact Nat.zero_le 1

theorem Alone.startResolve {i : Invoker} (hidle : i.Idle) (hused : i.WellUsed) (tlsext : Bool)
    (req : Request) : (startResolve .ssl tlsext i req).Alone := by
  unfold Invoker.startResolve
  split
  · exact .idle hidle hused
  · exact .start hidle (.resolve req) rfl hused fun _ _ he => nomatch he

theorem Alone.startPost {i : Invoker} (h : i.Alone) {body : Bytes} {tlsext : Bool}
    (hguard : i.PostsAlone (.startPost body tlsext)) : (i.startPost .ssl tlsext body).Alone := by
  simp only [PostsAlone] at hguard
  simp only [Invoker.startPost]
  split
  · next hopen =>
    rw [if_pos hopen] at hguard
    exact .startWrite (i := { i with requests := i.requests + 1 }) hguard.2 h.wellUsed hguard.1 _
  · next hclosed =>
    rw [if_neg hclosed] at hguard
    cases tlsext with
    | false => exact ⟨h.one, h.current, h.wellUsed⟩
    | true =>
      exact .startResolve (i := { i with requests := i.requests + 1 }) (hguard rfl) h.wellUsed
        true _

/-- Nothing is on its way once the operation of a request has completed. -/
theorem Alone.idle_rest {i : Invoker} (h : i.Alone) {n : Nat} {op : Op} {rest : List Op}
    (htaken : complete i.pending n = some (op, rest)) (hop : op.request?.isSome = true) :
    Idle { i with pending := rest } := by
  have hcount := countP_complete htaken (fun op => op.request?.isSome)
  have hone := h.one
  rw [if_pos hop] at hcount
  rw [idle_iff]
  change rest.countP _ = 0
  omega

/-- A completion keeps the invariant, whether it succeeds or fails. -/
theorem Alone.completed {i : Invoker} (h : i.Alone) {n : Nat} {op : Op} {rest : List Op}
    (htaken : complete i.pending n = some (op, rest)) (ok tlsext : Bool) :
    (completed .ssl ok tlsext { i with pending := rest } op).Alone := by
  cases op with
  | resolve req =>
    have hidle := h.idle_rest htaken rfl
    cases ok with
    | true => exact .start hidle (.connect req) rfl h.wellUsed fun _ _ he => nomatch he
    | false => exact .idle hidle h.wellUsed
  | connect req =>
    have hidle := h.idle_rest htaken rfl
    cases ok with
    | true =>
      refine .start hidle (.handshake req i.connection) rfl h.wellUsed fun _ _ he => ?_
      exact (Op.handshake.inj he).2.symm
    | false => exact .idle hidle h.wellUsed
  | handshake req connection =>
    have hidle := h.idle_rest htaken rfl
    cases ok with
    | true =>
      have hcurrent := h.current req connection (mem_of_complete htaken)
      have hshaken : (i.handshaken || connection == i.connection) = true := by simp [hcurrent]
      exact .startWrite (i := { i with
        pending := rest, handshaken := i.handshaken || connection == i.connection })
        hidle h.wellUsed hshaken req
    | false => exact .idle hidle h.wellUsed
  | write req =>
    have hidle := h.idle_rest htaken rfl
    cases ok with
    | true => exact .start hidle .read rfl h.wellUsed fun _ _ he => nomatch he
    | false =>
      simp only [Invoker.completed, Bool.false_eq_true, if_false]
      split
      · have hresolve := Alone.startResolve (i := outcome { i with pending := rest } req false)
          hidle h.wellUsed tlsext req
        exact ⟨hresolve.one, hresolve.current, hresolve.wellUsed⟩
      · exact .idle hidle h.wellUsed
  | read =>
    have hcount := countP_complete htaken (fun op => op.request?.isSome)
    have hone := h.one
    have hrest : Alone { i with pending := rest } := by
      refine ⟨?_, fun req n hmem => h.current req n (mem_of_mem_rest htaken hmem), h.wellUsed⟩
      change rest.countP _ ≤ 1
      omega
    cases ok with
    | true => exact ⟨hrest.one, hrest.current, hrest.wellUsed⟩
    | false => exact hrest

theorem Alone.step {i t : Invoker} {a : Action} (h : i.Alone) (hguard : i.PostsAlone a)
    (hstep : step .ssl i a = some t) : t.Alone := by
  cases step_cases hstep with
  | registerOnRead f after | close after =>
    subst after
    exact ⟨h.one, h.current, h.wellUsed⟩
  | startPost body tlsext after =>
    subst after
    exact h.startPost hguard
  | complete n ok tlsext op rest taken after =>
    subst after
    exact h.completed taken ok tlsext

theorem run_alone {as : List Action} {t : Invoker} (hrun : run (step .ssl) init as = some t)
    (hguard : Guarded (step .ssl) PostsAlone init as) : t.Alone := by
  refine run_guarded ?_ (fun _ _ _ hi hg ht => hi.step hg ht) hrun hguard
  refine ⟨Nat.zero_le 1, fun _ _ hmem => ?_, fun _ hw => ?_⟩
  · cases hmem
  · cases hw

/-! ## Runs that do not -/

theorem not_wellUsed_startWrite {i : Invoker} (h : i.handshaken = true → i.busy = true)
    (req : Request) : ¬ (i.startWrite req).WellUsed := by
  intro hused
  obtain ⟨hshaken, hbusy⟩ := hused _ (List.mem_append_right _ (List.mem_singleton_self _))
  exact absurd (h hshaken) (by simpa using hbusy)

/-- From here some completions lead to a write that misuses the stream. -/
def CanMisuse (i : Invoker) : Prop :=
  ∃ bs t, (∀ b ∈ bs, b.IsCompletion) ∧ run (step .ssl) i bs = some t ∧ ¬ t.WellUsed

theorem CanMisuse.of_complete {i t : Invoker} {n : Nat}
    (hstep : step .ssl i (.complete n true true) = some t) (h : t.CanMisuse) : i.CanMisuse := by
  obtain ⟨bs, u, hbs, hrun, hmisused⟩ := h
  refine ⟨.complete n true true :: bs, u, ?_, ?_, hmisused⟩
  · intro b hb
    rcases List.mem_cons.mp hb with rfl | hb
    · trivial
    · exact hbs b hb
  · rw [run_cons, hstep]
    exact hrun

/-- A request that is resolved comes to its write while the stream is used by another. -/
theorem canMisuse_of_resolve {i : Invoker} {n : Nat} {req : Request} {rest : List Op}
    (htaken : complete i.pending n = some (.resolve req, rest))
    (hbusy : rest.any Op.usesStream = true) : i.CanMisuse := by
  refine .of_complete (step_complete htaken true true) ?_
  refine .of_complete (step_complete (complete_concat rest (.connect req)) true true) ?_
  refine .of_complete
    (step_complete (complete_concat rest (.handshake req (i.connection + 1))) true true) ?_
  refine ⟨[], _, by simp, rfl, not_wellUsed_startWrite ?_ req⟩
  exact fun _ => hbusy

/-- The two kinds of operations that a request on its way can be in. -/
theorem resolve_or_usesStream {op : Op} (h : op.request? ≠ none) :
    (∃ req, op = .resolve req) ∨ op.usesStream = true := by
  cases op with
  | resolve req => exact Or.inl ⟨req, rfl⟩
  | connect req | handshake req n | write req => exact Or.inr rfl
  | read => exact absurd rfl h

/-- A request on its way is resolved, or uses the stream. -/
theorem resolves_or_busy {i : Invoker} (h : ¬ i.Idle) :
    (∃ req, .resolve req ∈ i.pending) ∨ i.busy = true := by
  simp only [Idle, not_forall] at h
  obtain ⟨op, hop, hreq⟩ := h
  rcases resolve_or_usesStream hreq with ⟨req, rfl⟩ | huses
  · exact Or.inl ⟨req, hop⟩
  · exact Or.inr (List.any_eq_true.mpr ⟨op, hop, huses⟩)

/-- A post that does not meet the condition leads to a misuse. -/
theorem canMisuse_of_post {i : Invoker} {body : Bytes} {tlsext : Bool}
    (h : ¬ i.PostsAlone (.startPost body tlsext)) : (i.startPost .ssl tlsext body).CanMisuse := by
  simp only [PostsAlone] at h
  simp only [Invoker.startPost]
  split
  · next hopen =>
    rw [if_pos hopen, not_and] at h
    by_cases hnow : i.handshaken = true → i.busy = true
    · exact ⟨[], _, by simp, rfl,
        not_wellUsed_startWrite (i := { i with requests := i.requests + 1 }) hnow _⟩
    · -- only a request that is still resolved can be on its way
      obtain ⟨hshaken, hfree⟩ := Classical.not_imp.mp hnow
      rcases resolves_or_busy (h hshaken) with ⟨req, hop⟩ | hbusy
      · obtain ⟨n, rest, htaken⟩ := exists_complete hop
        refine canMisuse_of_resolve (complete_append htaken [.write ⟨i.requests, body⟩]) ?_
        simp [Op.usesStream]
      · exact absurd hbusy hfree
  · next hclosed =>
    rw [if_neg hclosed, not_forall] at h
    obtain ⟨rfl, hidle⟩ := h
    have hlast := complete_concat i.pending (.resolve ⟨i.requests, body⟩)
    rcases resolves_or_busy hidle with ⟨req, hop⟩ | hbusy
    · -- the new request is connected first, and the other is resolved then
      obtain ⟨n, rest, htaken⟩ := exists_complete hop
      refine .of_complete (step_complete hlast true true) ?_
      refine canMisuse_of_resolve (complete_append htaken [.connect ⟨i.requests, body⟩]) ?_
      simp [Op.usesStream]
    · exact canMisuse_of_resolve hlast hbusy

/-! ## The theorem -/

/-- Whatever completes after any part of a run, and in whatever order, every write has found the
handshake done and the stream free, if and only if every post of the run finds no other request
on its way and, on an open socket, the handshake done. -/
theorem wellUsed_iff (as : List Action) : Guarded (step .ssl) PostsAlone init as ↔
    ∀ pre, pre <+: as → ∀ bs, (∀ b ∈ bs, b.IsCompletion) →
      ∀ t, run (step .ssl) init (pre ++ bs) = some t → t.WellUsed := by
  constructor
  · rintro hguard pre ⟨post, rfl⟩ bs hbs t hrun
    have hbefore := hguard.prefix
    refine (run_alone hrun (hbefore.append fun s _ => ?_)).wellUsed
    refine guarded_of_forall fun b hb s => ?_
    cases b with
    | complete n ok tlsext => trivial
    | registerOnRead | startPost | close => cases hbs _ hb
  · intro hall pre a post s has hrun
    cases a with
    | registerOnRead | complete | close => trivial
    | startPost body tlsext =>
      by_contra hviolated
      obtain ⟨bs, t, hbs, hrest, hmisused⟩ := canMisuse_of_post hviolated
      refine hmisused (hall (pre ++ [.startPost body tlsext]) ⟨post, by simp [has]⟩ bs hbs t ?_)
      rw [run_append, run_concat hrun rfl]
      exact hrest

/-! ## Two posts, one after the other -/

/-- The drain loop of a bucket posts twice; the first request is being connected when the second
finds the socket open. -/
def twoPosts : List Action :=
  [.startPost [65] true, .complete 0 true true, .startPost [66] true]

/-- The second request is written while the connect is in progress, before any handshake. -/
theorem twoPosts_misuse : ∃ t, run (step .ssl) init twoPosts = some t ∧
    t.log.writes = [⟨1, false, true⟩] ∧ ¬ t.WellUsed := by
  refine ⟨_, rfl, by decide, fun hused => ?_⟩
  exact absurd (hused ⟨1, false, true⟩ (by decide)).1 (by decide)

end CppSerializer.Trigger.Invoker
