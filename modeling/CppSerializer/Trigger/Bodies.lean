import CppSerializer.Trigger.Totals

/-!
# The bodies that an invoker was given

A request is its body from the post to the last write of it: what an invoker has in progress, and
what it has written, are requests that it was given, each with the body of its post (`run_carries`).
-/

namespace CppSerializer.Trigger

open Pack Completion Transition

/-- The body of a post. -/
def Action.body? : Action → Option Bytes
  | .startPost body _ => some body
  | .registerOnRead _ | .complete _ _ _ | .close => none

/-- The request that the operation is a part of. -/
def Op.carried : Op → Option Request
  | .resolve req | .connect req | .handshake req _ | .write req => some req
  | .read => none

namespace Invoker

/-- The bodies of the posts. -/
def bodies (as : List Action) : List Bytes := as.filterMap Action.body?

theorem bodies_concat (as : List Action) (a : Action) :
    bodies (as ++ [a]) = bodies as ++ a.body?.toList := by
  rw [bodies, bodies, List.filterMap_append]
  cases h : a.body? <;> simp [h]

/-- The request was given, with its body. -/
def Given (bs : List Bytes) (req : Request) : Prop := bs[req.number]? = some req.body

/-- Everything that the invoker does is for one of the bodies. -/
structure Carries (bs : List Bytes) (i : Invoker) : Prop where
  requests : i.requests = bs.length
  pending : ∀ op ∈ i.pending, ∀ req ∈ op.carried, Given bs req
  writes : ∀ w ∈ i.log.writes, w.request < i.requests

theorem Given.mono {bs : List Bytes} {req : Request} (h : Given bs req) (bs' : List Bytes) :
    Given (bs ++ bs') req := by
  obtain ⟨hlt, -⟩ := List.getElem?_eq_some_iff.mp h
  rw [Given, List.getElem?_append_left hlt]
  exact h

theorem Given.lt {bs : List Bytes} {req : Request} (h : Given bs req) : req.number < bs.length :=
  (List.getElem?_eq_some_iff.mp h).1

variable {bs : List Bytes} {i : Invoker} {req : Request}

theorem Carries.start (h : Carries bs i) {op : Op} (hop : ∀ req ∈ op.carried, Given bs req) :
    Carries bs (i.start op) := by
  refine ⟨h.requests, ?_, h.writes⟩
  intro op' hop'
  rcases List.mem_append.mp hop' with hold | hnew
  · exact h.pending op' hold
  · rw [List.mem_singleton.mp hnew]
    exact hop

theorem Carries.startWrite (h : Carries bs i) (hreq : Given bs req) :
    Carries bs (i.startWrite req) := by
  obtain ⟨hrequests, hpending, hwrites⟩ := h
  refine Carries.start (i := { i with
    log := { i.log with writes := i.log.writes ++ [⟨req.number, i.handshaken, i.busy⟩] } })
    ⟨hrequests, hpending, ?_⟩ ?_
  · intro w hw
    rcases List.mem_append.mp hw with hold | hnew
    · exact hwrites w hold
    · rw [List.mem_singleton.mp hnew, hrequests]
      exact hreq.lt
  · rintro _ ⟨⟩
    exact hreq

theorem Carries.startResolve (T : StreamType) (tlsext : Bool) (h : Carries bs i)
    (hreq : Given bs req) : Carries bs (Invoker.startResolve T tlsext i req) := by
  rw [Invoker.startResolve]
  split
  · exact h
  · refine h.start ?_
    rintro _ ⟨⟩
    exact hreq

theorem Carries.startPost (T : StreamType) (tlsext : Bool) (h : Carries bs i) (body : Bytes) :
    Carries (bs ++ [body]) (i.startPost T tlsext body) := by
  have hnew : Given (bs ++ [body]) ⟨i.requests, body⟩ := by
    rw [Given, h.requests]
    exact List.getElem?_concat_length
  have hgiven : Carries (bs ++ [body]) { i with requests := i.requests + 1 } := by
    refine ⟨?_, fun op hop req hreq => (h.pending op hop req hreq).mono [body], ?_⟩
    · rw [List.length_append, ← h.requests]
      rfl
    · exact fun w hw => Nat.lt_succ_of_lt (h.writes w hw)
  simp only [Invoker.startPost]
  split
  · exact hgiven.startWrite hnew
  · exact hgiven.startResolve T tlsext hnew

/-- A completion handler goes on with the request of its operation. -/
theorem Carries.completed (T : StreamType) (ok tlsext : Bool) (h : Carries bs i) {op : Op}
    (hop : ∀ req ∈ op.carried, Given bs req) : Carries bs (completed T ok tlsext i op) := by
  cases op with
  | resolve req =>
    have hreq := hop req rfl
    cases ok with
    | true =>
      refine Carries.start (i := { i with
        isOpen := true, connection := i.connection + 1, handshaken := false })
        ⟨h.requests, h.pending, h.writes⟩ ?_
      rintro _ ⟨⟩
      exact hreq
    | false => exact h
  | connect req =>
    have hreq := hop req rfl
    cases ok with
    | true =>
      cases T with
      | ssl =>
        refine h.start ?_
        rintro _ ⟨⟩
        exact hreq
      | tcp => exact h.startWrite hreq
    | false => exact h
  | handshake req connection =>
    have hreq := hop req rfl
    cases ok with
    | true =>
      exact Carries.startWrite (i := { i with
        handshaken := i.handshaken || connection == i.connection })
        ⟨h.requests, h.pending, h.writes⟩ hreq
    | false => exact h
  | write req =>
    have hreq := hop req rfl
    have houtcome : Carries bs (i.outcome req ok) := ⟨h.requests, h.pending, h.writes⟩
    simp only [Invoker.completed]
    split
    · refine houtcome.start ?_
      rintro _ ⟨⟩
    · split
      · obtain ⟨hrequests, hpending, hwrites⟩ := houtcome.startResolve T tlsext hreq
        exact ⟨hrequests, hpending, hwrites⟩
      · exact ⟨houtcome.requests, houtcome.pending, houtcome.writes⟩
  | read =>
    cases ok with
    | true => exact ⟨h.requests, h.pending, h.writes⟩
    | false => exact h

theorem Carries.step {T : StreamType} {t : Invoker} {a : Action} (h : Carries bs i)
    (ha : a.body? = none) (hstep : step T i a = some t) : Carries bs t := by
  cases step_cases hstep with
  | registerOnRead f after | close after =>
    subst after
    exact ⟨h.requests, h.pending, h.writes⟩
  | startPost body tlsext after => cases ha
  | complete n ok tlsext op rest taken after =>
    subst after
    obtain ⟨hop, hrest⟩ := complete_eq_some.mp taken
    have hless : Carries bs { i with pending := rest } := by
      refine ⟨h.requests, ?_, h.writes⟩
      intro op' hop'
      rw [hrest] at hop'
      exact h.pending op' (List.mem_of_mem_eraseIdx hop')
    exact hless.completed T ok tlsext (h.pending op (List.mem_of_getElem? hop))

theorem run_carries {T : StreamType} {as : List Action} {t : Invoker}
    (hrun : run (Invoker.step T) init as = some t) : Carries (bodies as) t := by
  refine run_induction (P := fun as t => Carries (bodies as) t) ?_ ?_ as t hrun
  · constructor <;> simp [init, bodies]
  · intro as i a t _ ih ht
    rw [bodies_concat]
    cases a with
    | startPost body tlsext =>
      cases ht
      exact ih.startPost T tlsext body
    | registerOnRead | complete | close =>
      change Carries (bodies as ++ []) t
      rw [List.append_nil]
      exact ih.step rfl ht

end Invoker

end CppSerializer.Trigger
