import CppSerializer.Process.Components

/-!
# The read token of a connection

A connection may read when it is accepted. That right goes from the read to its handler, from
there to the next read, to a job and back through its callback, or to a worker with the socket.
`tokens` counts the places that it is in, and no step makes a second one as long as the callback
of every job is called once at most.
-/

namespace CppSerializer.Process

open Pack Bucket ReadLoop TcpConnection Transition Shares
open Launcher (JobId)

/-! ## Jobs without an answer -/

/-- The jobs of the connection whose callback was not called. -/
def pending (p : Process) (c : Connection) : List JobId :=
  (List.range p.owners.length).filter fun j =>
    p.owners[j]? = some c ∧ j ∉ p.launcher.callees

theorem pending_nodup (p : Process) (c : Connection) : (p.pending c).Nodup :=
  List.nodup_range.filter _

theorem mem_pending {p : Process} {c : Connection} {j : JobId} :
    j ∈ p.pending c ↔ p.owners[j]? = some c ∧ j ∉ p.launcher.callees := by
  rw [pending, List.mem_filter, List.mem_range, decide_eq_true_eq]
  constructor
  · exact fun h => h.2
  · intro h
    exact ⟨(List.getElem?_eq_some_iff.mp h.1).1, h⟩

theorem pending_congr {p q : Process} (howners : q.owners = p.owners)
    (hcallees : q.launcher.callees = p.launcher.callees) (c : Connection) :
    q.pending c = p.pending c := by
  rw [pending, pending, howners, hcallees]

/-- The jobs of a connection stay as long as those of others are made and done. -/
theorem OthersOnly.pending {p q : Process} {c : Connection} (h : OthersOnly p q c) :
    q.pending c = p.pending c := by
  obtain ⟨⟨made, howners, hmade⟩, done, hcompletions, hdone⟩ := h
  have hcallees : q.launcher.callees =
      p.launcher.callees ++ done.map Launcher.Completion.callee := by
    rw [Launcher.State.callees, hcompletions, List.map_append]
    rfl
  rw [Process.pending, Process.pending, howners, List.length_append, List.range_add,
    List.filter_append, hcallees]
  have hnew : ((List.range made.length).map (p.owners.length + ·)).filter (fun j =>
      (p.owners ++ made)[j]? = some c ∧
        j ∉ p.launcher.callees ++ done.map Launcher.Completion.callee) = [] := by
    rw [List.filter_eq_nil_iff]
    intro j hj howner
    obtain ⟨k, -, rfl⟩ := List.mem_map.mp hj
    have hfound := (of_decide_eq_true howner).1
    rw [List.getElem?_append_right (Nat.le_add_right _ k), Nat.add_sub_cancel_left] at hfound
    exact hmade (List.mem_of_getElem? hfound)
  rw [hnew, List.append_nil]
  apply List.filter_congr
  intro j hj
  rw [List.getElem?_append_left (List.mem_range.mp hj), decide_eq_decide, List.mem_append, not_or]
  constructor
  · exact fun h => ⟨h.1, h.2.1⟩
  · rintro ⟨howner, hold⟩
    refine ⟨howner, hold, ?_⟩
    intro hmem
    obtain ⟨d, hd, rfl⟩ := List.mem_map.mp hmem
    exact hdone d hd howner

/-- A job that is made is one more to wait for. -/
theorem pending_submit {p q : Process} {c₀ : Connection} (howners : q.owners = p.owners ++ [c₀])
    (hcallees : q.launcher.callees = p.launcher.callees)
    (hlt : ∀ j ∈ p.launcher.callees, j < p.owners.length) (c : Connection) :
    q.pending c = p.pending c ++ if c₀ = c then [p.owners.length] else [] := by
  have hnew : p.owners.length ∉ p.launcher.callees := fun h => Nat.lt_irrefl _ (hlt _ h)
  rw [pending, pending, howners, hcallees, List.length_append, List.length_singleton,
    List.range_succ, List.filter_append]
  congr 1
  · apply List.filter_congr
    intro j hj
    rw [List.getElem?_append_left (List.mem_range.mp hj)]
  · rw [List.filter_singleton, List.getElem?_concat_length]
    by_cases hc : c₀ = c
    · simp [hc, hnew]
    · simp [hc]

theorem callees_append {p q : Process} {done : Launcher.Completion}
    (h : q.launcher.log.completions = p.launcher.log.completions ++ [done]) :
    q.launcher.callees = p.launcher.callees ++ [done.callee] := by
  rw [Launcher.State.callees, h, List.map_append]
  rfl

/-- A callback that is called once was not called before. -/
theorem callee_fresh {p q : Process} {k : JobId}
    (hcallees : q.launcher.callees = p.launcher.callees ++ [k])
    (honce : q.launcher.callees.Nodup) : k ∉ p.launcher.callees := by
  rw [hcallees, List.nodup_append] at honce
  intro hmem
  exact honce.2.2 _ hmem _ (List.mem_singleton_self _) rfl

/-- A callback is called: this job is not waited for any more. -/
theorem pending_perm {p q : Process} {k : JobId} (howners : q.owners = p.owners)
    (hcallees : q.launcher.callees = p.launcher.callees ++ [k])
    (hfresh : k ∉ p.launcher.callees) {c : Connection} (howner : p.owners[k]? = some c) :
    (p.pending c).Perm (k :: q.pending c) := by
  have hmem : ∀ j, j ∈ q.pending c ↔ j ∈ p.pending c ∧ j ≠ k := by
    intro j
    rw [mem_pending, mem_pending, howners, hcallees, List.mem_append, List.mem_singleton, not_or]
    exact and_assoc.symm
  refine (List.perm_ext_iff_of_nodup (p.pending_nodup c) ?_).mpr fun j => ?_
  · refine List.nodup_cons.mpr ⟨?_, q.pending_nodup c⟩
    exact fun hk => ((hmem k).mp hk).2 rfl
  · rw [List.mem_cons, hmem]
    constructor
    · intro hj
      by_cases hk : j = k
      · exact Or.inl hk
      · exact Or.inr ⟨hj, hk⟩
    · rintro (rfl | ⟨hj, -⟩)
      · exact mem_pending.mpr ⟨howner, hfresh⟩
      · exact hj

/-! ## The token -/

/-- The operation hands the token on: it starts a read, makes a job or gives the socket away. -/
def passes (op : Op) : Bool := op.start.isSome || submits op || moves op

/-- The operations of handlers that have still to hand it on. -/
def Session.passing (s : Session) : List Op :=
  s.loop.handlers.flatMap fun code => code.filter passes

/-- The places that the token of the connection is in. -/
def tokens (p : Process) (c : Connection) (s : Session) : Nat :=
  s.loop.reads.length + s.passing.length + (p.pending c).length + s.moved.toNat

theorem passes_headerCode (request : Nat) (pack : Packet) :
    ((headerCode request pack).filter passes).length ≤ 1 := by
  rw [headerCode]
  split <;> exact Nat.le_of_ble_eq_true rfl

/-- Every handler hands the token on once at most. -/
theorem passes_got (request : Nat) (r : Read) (buf : Bytes) :
    ((r.got request buf).filter passes).length ≤ 1 := by
  cases r with
  | header =>
    rw [Read.got]
    split
    · exact passes_headerCode _ _
    · exact Nat.zero_le 1
  | body request pack =>
    rw [Read.got]
    split
    · exact Nat.le_refl 1
    · exact Nat.zero_le 1
  | trigger request pack => exact Nat.le_refl 1

theorem passing_post (s : Session) (code : List Op) :
    (s.post code).passing.length = s.passing.length + (code.filter passes).length := by
  rw [Session.passing, Session.passing, Session.post, List.flatMap_append, List.flatMap_singleton,
    List.length_append]

/-- Before and after its first operation is performed, what a handler still passes on. -/
theorem passing_set {s : Session} {k : Nat} {op : Op} {ops : List Op}
    (hcode : s.loop.handlers[k]? = some (op :: ops)) :
    ((s.loop.handlers.set k ops).flatMap fun code => code.filter passes).length +
      (passes op).toNat = s.passing.length := by
  have hold := flatMap_perm (f := fun code : List Op => code.filter passes) hcode
  have hnew := flatMap_set_perm (f := fun code : List Op => code.filter passes) hcode ops
  replace hold := hold.length_eq
  replace hnew := hnew.length_eq
  have hfirst : ((op :: ops).filter passes).length =
      (passes op).toNat + (ops.filter passes).length := by
    rw [List.filter_cons]
    cases passes op with
    | true => rw [if_pos rfl, List.length_cons, Bool.toNat_true, Nat.add_comm]
    | false => rw [if_neg Bool.false_ne_true, Bool.toNat_false, Nat.zero_add]
  simp only [List.length_append] at hold hnew
  rw [Session.passing]
  omega

/-- The operation takes the token to one place. -/
theorem passes_toNat (op : Op) :
    op.start.toList.length + (submits op).toNat + (moves op).toNat = (passes op).toNat := by
  cases op with
  | effect request e => cases e <;> rfl
  | _ => rfl

theorem pending_performed {p q : Process} {c : Connection}
    {randomSalt sequence : List.Vector UnitT 4} {op : Op}
    (h : Performed p q c randomSalt sequence op)
    (hlt : ∀ j ∈ p.launcher.callees, j < p.owners.length) :
    (q.pending c).length = (p.pending c).length + (submits op).toNat := by
  have hcallees : q.launcher.callees = p.launcher.callees := by
    rw [Launcher.State.callees, Launcher.State.callees, h.completions]
  have howners := h.owners
  cases hsubmits : submits op with
  | true =>
    rw [hsubmits, if_pos rfl] at howners
    rw [pending_submit howners hcallees hlt, List.length_append, if_pos rfl]
    rfl
  | false =>
    rw [hsubmits, if_neg Bool.false_ne_true, List.append_nil] at howners
    rw [pending_congr howners hcallees, Bool.toNat_false, Nat.add_zero]

theorem tokens_congr {p q : Process} {c : Connection} (h : q.pending c = p.pending c)
    (s : Session) : q.tokens c s = p.tokens c s := by
  rw [tokens, tokens, h]

theorem tokens_complete (p : Process) {c : Connection} {s : Session} {i : Nat} {r : Read}
    (hr : s.loop.reads[i]? = some r) (code : List Op) (hcode : (code.filter passes).length ≤ 1)
    (buffer : Bytes) (requests : List Request) : p.tokens c { s with
      loop := {
        buffer := buffer
        reads := s.loop.reads.eraseIdx i
        handlers := s.loop.handlers ++ [code] }
      requests := requests } ≤ p.tokens c s := by
  obtain ⟨hlt, -⟩ := List.getElem?_eq_some_iff.mp hr
  have herase := List.length_eraseIdx_of_lt hlt
  have hpassing : Session.passing { s with
      loop := {
        buffer := buffer
        reads := s.loop.reads.eraseIdx i
        handlers := s.loop.handlers ++ [code] }
      requests := requests } = s.passing ++ code.filter passes := by
    rw [Session.passing, Session.passing, List.flatMap_append, List.flatMap_singleton]
  rw [tokens, tokens, hpassing, List.length_append]
  simp only [herase]
  omega

/-- An operation makes no second token, and does not lose the one there is. -/
theorem tokens_performed {p q : Process} {c : Connection} {s : Session} {k : Nat}
    {randomSalt sequence : List.Vector UnitT 4} {op : Op} {ops : List Op}
    (hcode : s.loop.handlers[k]? = some (op :: ops))
    (hperformed : Performed (p.setSession c { s with loop := { s.loop with
      reads := s.loop.reads ++ op.start.toList, handlers := s.loop.handlers.set k ops } }) q c
        randomSalt sequence op)
    (hlt : ∀ j ∈ p.launcher.callees, j < p.owners.length) :
    q.tokens c (Session.performed { s with loop := { s.loop with
      reads := s.loop.reads ++ op.start.toList, handlers := s.loop.handlers.set k ops } } op) ≤
        p.tokens c s ∧ (1 ≤ p.tokens c s →
    1 ≤ q.tokens c (Session.performed { s with loop := { s.loop with
      reads := s.loop.reads ++ op.start.toList, handlers := s.loop.handlers.set k ops } } op)) := by
  have hpending := pending_performed hperformed hlt
  have hpassing := passing_set hcode
  have hplaces := passes_toNat op
  have hmoved : (s.moved || moves op).toNat ≤ s.moved.toNat + (moves op).toNat ∧
      s.moved.toNat ≤ (s.moved || moves op).toNat ∧
      (moves op).toNat ≤ (s.moved || moves op).toNat := by
    cases s.moved <;> cases moves op <;> decide
  change (q.pending c).length = (p.pending c).length + (submits op).toNat at hpending
  have hafter : q.tokens c (Session.performed { s with loop := { s.loop with
      reads := s.loop.reads ++ op.start.toList, handlers := s.loop.handlers.set k ops } } op) =
      (s.loop.reads ++ op.start.toList).length +
        ((s.loop.handlers.set k ops).flatMap fun code => code.filter passes).length +
          (q.pending c).length + (s.moved || moves op).toNat := rfl
  rw [hafter, tokens, List.length_append]
  omega

/-- The token goes from the job to its callback. -/
theorem tokens_callback {p q : Process} {k : JobId} {c : Connection}
    (howners : q.owners = p.owners) (hcallees : q.launcher.callees = p.launcher.callees ++ [k])
    (hfresh : k ∉ p.launcher.callees) (howner : p.owners[k]? = some c) (s : Session)
    (resp : Packet) : q.tokens c (s.post (callbackCode resp)) = p.tokens c s := by
  have hpending := (pending_perm howners hcallees hfresh howner).length_eq
  rw [List.length_cons] at hpending
  have hpost := passing_post s (callbackCode resp)
  have hcallback : ((callbackCode resp).filter passes).length = 1 := rfl
  rw [tokens, tokens, hpost, hcallback, hpending]
  change s.loop.reads.length + _ + _ + s.moved.toNat = _
  omega

/-! ## Steps -/

/-- Every connection has one token at most. -/
structure OneReader (p : Process) : Prop where
  jobs : p.owners.length = p.launcher.jobs.length
  owners : ∀ c ∈ p.owners, ∃ s, p.sessions[c]? = some s
  one : ∀ (c : Connection) (s : Session), p.sessions[c]? = some s → p.tokens c s ≤ 1

theorem OneReader.accept {p : Process} (hi : OneReader p) {c : Connection}
    (hnone : p.sessions[c]? = none) : p.tokens c Session.accepted ≤ 1 := by
  -- nobody had the number before
  have hpending : p.pending c = [] := by
    apply List.eq_nil_iff_forall_not_mem.mpr
    intro j hj
    obtain ⟨s, hs⟩ := hi.owners c (List.mem_of_getElem? (mem_pending.mp hj).1)
    rw [hnone] at hs
    cases hs
  change 1 + 0 + (p.pending c).length + 0 ≤ 1
  rw [hpending]
  exact Nat.le_refl 1

/-- Nothing gives a connection that was there one more. -/
theorem SessionStep.tokens_le {p q : Process} {c : Connection} {s t : Session} {a : Action}
    (h : SessionStep p q c s a t) (hlt : ∀ j ∈ p.launcher.callees, j < p.owners.length)
    (honce : q.launcher.callees.Nodup) : q.tokens c t ≤ p.tokens c s := by
  cases h with
  | stays a other jobs => exact (tokens_congr jobs.pending s).le
  | arrive chunk jobs => exact (tokens_congr jobs.pending _).le
  | complete i r outstanding size jobs =>
    rw [tokens_congr jobs.pending]
    exact tokens_complete p outstanding _ (passes_got _ r _) _ _
  | fail i r outstanding jobs =>
    rw [tokens_congr jobs.pending]
    exact tokens_complete p outstanding [] (Nat.zero_le 1) s.loop.buffer s.requests
  | next k randomSalt sequence op ops code performed =>
    exact (tokens_performed code performed hlt).1
  | topics a out step jobs => exact (tokens_congr jobs.pending _).le
  | callback a done owner owners completions =>
    have hcallees := callees_append completions
    exact (tokens_callback owners hcallees (callee_fresh hcallees honce) owner s done.pack).le

theorem jobs_performed {p q : Process} {c : Connection}
    {randomSalt sequence : List.Vector UnitT 4} {op : Op}
    (h : Performed p q c randomSalt sequence op)
    (hjobs : p.owners.length = p.launcher.jobs.length) :
    q.owners.length = q.launcher.jobs.length := by
  have howners := h.owners
  rcases h.launcher with ⟨hsame, hnone⟩ | ⟨a, ha, hstep⟩
  · have hsubmits : submits op = false := by
      cases op with
      | effect request e => cases e <;> first | rfl | cases hnone
      | _ => rfl
    rw [howners, hsubmits, hsame, if_neg Bool.false_ne_true, List.append_nil, hjobs]
  · cases op with
    | effect request e =>
      cases e with
      | startTriggerPost body =>
        cases ha
        rw [howners, Launcher.length_submit hstep, List.length_append, hjobs]
        rfl
      | addWorker | startJobs =>
        cases ha
        rw [howners, Launcher.length_jobs hstep (by simp), List.length_append, hjobs]
        rfl
      | _ => cases ha
    | _ => cases ha

/-- Every job has its connection, and every connection of a job is there. -/
theorem owners_of_step {p q : Process} {a : Action} (h : p.step a = some q)
    (hjobs : p.owners.length = p.launcher.jobs.length) :
    q.owners.length = q.launcher.jobs.length ∧
      ∀ c ∈ q.owners, c ∈ p.owners ∨ ∃ s, p.sessions[c]? = some s := by
  cases step_cases h with
  | accept | arrive | complete | fail => exact ⟨hjobs, fun c hc => Or.inl hc⟩
  | next c k randomSalt sequence s found op ops code q performed =>
    refine ⟨jobs_performed performed hjobs, ?_⟩
    intro c' hc'
    rw [performed.owners] at hc'
    rcases List.mem_append.mp hc' with hold | hnew
    · exact Or.inl hold
    · split at hnew
      · rw [List.mem_singleton.mp hnew]
        exact Or.inr ⟨s, found⟩
      · cases hnew
  | topics a own t out step q wrote =>
    rw [wrote.owners, wrote.launcher]
    exact ⟨hjobs, fun c hc => Or.inl hc⟩
  | launcher a own q step =>
    have hsubmit : ∀ randomSalt sequence body, a ≠ .startTriggerPost randomSalt sequence body := by
      rintro randomSalt sequence body rfl
      cases own
    cases step with
    | silent l step completions =>
      exact ⟨hjobs.trans (Launcher.length_jobs step hsubmit).symm, fun c hc => Or.inl hc⟩
    | callback l step done strand completions =>
      obtain ⟨-, hlauncher, howners⟩ := callback_topics { p with launcher := l } done
      rw [howners, hlauncher]
      exact ⟨hjobs.trans (Launcher.length_jobs step hsubmit).symm, fun c hc => Or.inl hc⟩

theorem OneReader.step {p q : Process} {a : Action} (hi : OneReader p) (h : p.step a = some q)
    (hlt : ∀ j ∈ p.launcher.callees, j < p.launcher.jobs.length)
    (honce : q.launcher.callees.Nodup) : OneReader q := by
  obtain ⟨hjobs, howners⟩ := owners_of_step h hi.jobs
  rw [← hi.jobs] at hlt
  refine ⟨hjobs, ?_, ?_⟩
  · intro c hc
    obtain ⟨s, hs⟩ := (howners c hc).elim (hi.owners c) id
    obtain ⟨t, ht, -⟩ := session_of_step h hs
    exact ⟨t, ht⟩
  · intro c t ht
    cases hs : p.sessions[c]? with
    | none =>
      obtain ⟨rfl, rfl⟩ := accepted_of_step h hs ht
      cases step_cases h
      exact hi.accept hs
    | some s =>
      obtain ⟨t', ht', hstep⟩ := sessionStep h hs
      rw [ht] at ht'
      cases ht'
      exact (hstep.tokens_le hlt honce).trans (hi.one c s hs)

/-! ## Runs -/

theorem run_callees {as : List Action} {p : Process} (hrun : run step init as = some p)
    (hanswers : Guarded step (OnLauncher Launcher.Answers) init as)
    (hother : Guarded step (OnLauncher Launcher.FindsNoOther) init as) :
    p.launcher.callees.Nodup ∧ ∀ j ∈ p.launcher.callees, j < p.launcher.jobs.length := by
  have hboth : Guarded step (OnLauncher fun s l =>
      Launcher.Answers s l ∧ Launcher.FindsNoOther s l) init as := by
    intro pre a post q has hq l hl
    exact ⟨hanswers pre a post q has hq l hl, hother pre a post q has hq l hl⟩
  obtain ⟨ls, hls, hguard⟩ := run_launcher (by
    intro s l hcall
    refine ⟨Launcher.answers_of_ne ?_, ?_⟩
    · rintro w origin pack rfl
      cases hcall
    · intro j hj
      cases l with
      | strand i => cases hcall
      | _ => cases hj) hrun hboth
  refine ⟨?_, Launcher.callees_lt hls⟩
  exact Launcher.callees_nodup hls (hguard.mono fun _ _ h => h.1) (hguard.mono fun _ _ h => h.2)

theorem run_oneReader {as : List Action} {p : Process} (hrun : run step init as = some p)
    (hanswers : Guarded step (OnLauncher Launcher.Answers) init as)
    (hother : Guarded step (OnLauncher Launcher.FindsNoOther) init as) : OneReader p := by
  revert hanswers hother
  refine run_induction (P := fun as p => Guarded step (OnLauncher Launcher.Answers) init as →
    Guarded step (OnLauncher Launcher.FindsNoOther) init as → OneReader p) ?_ ?_ as p hrun
  · intro _ _
    refine ⟨rfl, ?_, ?_⟩
    · intro c hc
      cases hc
    · intro c s hs
      cases hs
  intro as p a q hp ih hq hanswers hother
  have hbefore := run_callees hp hanswers.prefix hother.prefix
  have hafter := run_callees (run_concat hp hq) hanswers hother
  exact (ih hanswers.prefix hother.prefix).step hq hbefore.2 hafter.1

/-! ## Sockets that were given away -/

/-- A socket that a worker has does not come back. -/
theorem moved_of_run {bs : List Action} {p q : Process} (hrun : run step p bs = some q)
    {c : Connection} {s : Session} (hs : p.sessions[c]? = some s) (hmoved : s.moved = true) :
    ∃ t, q.sessions[c]? = some t ∧ t.moved = true := by
  refine run_induction (P := fun _ q => ∃ t, q.sessions[c]? = some t ∧ t.moved = true)
    ⟨s, hs, hmoved⟩ ?_ bs q hrun
  rintro _ p a q _ ⟨t, ht, htmoved⟩ hq
  obtain ⟨u, hu, hkept⟩ := session_of_step hq ht
  exact ⟨u, hu, hkept htmoved⟩

/-! ## Reads that are outstanding -/

/-- In every state of a run in which responses find no other job than theirs, a connection has
one read outstanding at most, or one job whose callback was not called; and neither, for ever
after its socket was given to a worker. -/
theorem one_reader {as : List Action} {p : Process} (hrun : run step init as = some p)
    (hanswers : Guarded step (OnLauncher Launcher.Answers) init as)
    (hother : Guarded step (OnLauncher Launcher.FindsNoOther) init as) {c : Connection}
    {s : Session} (hs : p.sessions[c]? = some s) :
    s.loop.reads.length + (p.pending c).length ≤ 1 ∧
    ∀ pre q t, pre <+: as → run step init pre = some q → q.sessions[c]? = some t →
      t.moved = true → s.loop.reads.length + (p.pending c).length = 0 := by
  have hone := (run_oneReader hrun hanswers hother).one c s hs
  rw [tokens] at hone
  refine ⟨by omega, ?_⟩
  rintro pre q t ⟨post, rfl⟩ hq ht htmoved
  obtain ⟨q', hq', hrest⟩ := run_append_some hrun
  rw [hq] at hq'
  cases hq'
  obtain ⟨s', hs', hmoved⟩ := moved_of_run hrest ht htmoved
  rw [hs] at hs'
  cases hs'
  rw [hmoved, Bool.toNat_true] at hone
  omega

/-! ## Two triggers and a worker -/

/-- A header with a payload of the given size. -/
def requestHeader (type : MsgT) (datasize : Nat) : PacketHeader :=
  { type := type, key := List.Vector.replicate 32 7, datasize := BitVec.ofNat (8 * 4) datasize
    sequence := List.Vector.replicate 4 1, randomSalt := List.Vector.replicate 4 1 }

/-- Two clients send a trigger, a third registers as a worker and is given both packets. The
salts of the jobs are `1` and `salt`. -/
def triggersPosted (salt : UnitT) : List Action :=
  let draw := fun unit : UnitT => List.Vector.replicate 4 unit
  [.accept, .accept, .accept,
    .arrive 0 ((requestHeader .trigger 1).bytes ++ [65]), .complete 0 0,
    .next 0 0 (draw 1) (draw 2), .complete 0 0, .next 0 1 (draw 1) (draw 2),
    .arrive 1 ((requestHeader .trigger 1).bytes ++ [66]), .complete 1 0,
    .next 1 0 (draw salt) (draw 3), .complete 1 0, .next 1 1 (draw salt) (draw 3),
    .arrive 2 (requestHeader .workerReg 0).bytes, .complete 2 0,
    .next 2 0 (draw 1) (draw 1), .next 2 0 (draw 1) (draw 1)] ++
  [.call 0 .emplace, .call 1 .emplace,
    .call 2 .tryPop, .call 2 (.look 0), .call 2 .startPost, .call 2 .asyncWait,
    .call 2 .expiresFromNow,
    .call 3 .tryPop, .call 3 (.look 0), .call 3 .startPost, .call 3 .asyncWait,
    .call 3 .expiresFromNow].map Action.launcher

/-- The packet of the job with these draws. -/
def postedPacket (salt sequence unit : UnitT) : Packet :=
  (Launcher.Job.new (List.Vector.replicate 4 salt) (List.Vector.replicate 4 sequence)
    [unit]).pack.sized

/-- What the worker answers to it. -/
def answer (salt sequence unit : UnitT) : Packet :=
  { header := { (postedPacket salt sequence unit).header with type := .workerResponse }
    data := ⟨[90]⟩ }

/-- The worker answers both, and the handlers and callbacks run. -/
def triggersRun (salt : UnitT) (callbacks : List Action) : List Action :=
  triggersPosted salt ++ [.launcher (.respond 0 (some 0) (answer 1 2 65))] ++
    [.launcher (.respond 0 (some 1) (answer salt 3 66))] ++
    ([.launcher (.strand 0), .launcher (.strand 0)] ++ callbacks)

def callbackRun (c : Connection) (k : Nat) : List Action :=
  let draw := List.Vector.replicate 4 1
  [.next c k draw draw, .next c k draw draw]

theorem triggersPosted_end {salt : UnitT} (h : salt = 1 ∨ salt = 4) :
    ((run step init (triggersPosted salt)).map fun p =>
      (p.launcher.workers.map Launcher.Worker.posted, p.launcher.log.received)) =
      some ([[(0, postedPacket 1 2 65), (1, postedPacket salt 3 66)]], []) := by
  rcases h with rfl | rfl
  · decide +kernel
  · decide +kernel

theorem firstAnswer_end {salt : UnitT} (h : salt = 1 ∨ salt = 4) :
    ((run step init (triggersPosted salt ++
      [.launcher (.respond 0 (some 0) (answer 1 2 65))])).map fun p =>
        (p.launcher.workers.map Launcher.Worker.posted, p.launcher.log.received)) =
      some ([[(0, postedPacket 1 2 65), (1, postedPacket salt 3 66)]], [some 0]) := by
  rcases h with rfl | rfl
  · decide +kernel
  · decide +kernel

theorem answers_of_posted {s : Launcher.State} {posted : List (JobId × Packet)} {j : JobId}
    {salt sequence unit : UnitT} (hposted : s.workers.map Launcher.Worker.posted = [posted])
    (hmem : (j, postedPacket salt sequence unit) ∈ posted)
    (hcount : s.log.received.count (some j) < (posted.map Prod.fst).count j) :
    Launcher.Answers s (.respond 0 (some j) (answer salt sequence unit)) := by
  obtain ⟨worker, rest, hworkers, hfirst, hrest⟩ := List.map_eq_cons_iff.mp hposted
  obtain rfl := List.map_eq_nil_iff.mp hrest
  refine ⟨?_, ?_⟩
  · intro w origin pack ha
    cases ha
    refine ⟨j, postedPacket salt sequence unit, worker, rfl, ?_, hfirst ▸ hmem, rfl⟩
    rw [hworkers]
    rfl
  · intro w k pack ha
    cases ha
    rw [Launcher.State.timesPosted, Launcher.State.allPosted, hworkers, List.flatMap_singleton,
      hfirst]
    exact hcount

theorem triggersRun_answers {salt : UnitT} (h : salt = 1 ∨ salt = 4) {c : Connection} {k : Nat} :
    Guarded step (OnLauncher Launcher.Answers) init
      (triggersRun salt (callbackRun 0 2 ++ callbackRun c k)) := by
  have hquiet : ∀ bs : List Action, (∀ w origin pack,
      Action.launcher (.respond w origin pack) ∉ bs) →
        ∀ a ∈ bs, ∀ p, OnLauncher Launcher.Answers p a := by
    rintro bs hbs a ha p l rfl
    apply Launcher.answers_of_ne
    rintro w origin pack rfl
    exact hbs w origin pack ha
  have hposts : Guarded step (OnLauncher Launcher.Answers) init (triggersPosted salt) :=
    guarded_of_forall (hquiet _ (by simp [triggersPosted]))
  obtain ⟨p, hp, hend⟩ := Option.map_eq_some_iff.mp (triggersPosted_end h)
  obtain ⟨q, hq, hend'⟩ := Option.map_eq_some_iff.mp (firstAnswer_end h)
  obtain ⟨hposted, hreceived⟩ := Prod.mk.inj hend
  obtain ⟨hposted', hreceived'⟩ := Prod.mk.inj hend'
  refine Guarded.append ((hposts.concat hp ?_).concat hq ?_) fun t _ => ?_
  · rintro l hl
    cases hl
    apply answers_of_posted hposted (by simp)
    rw [hreceived]
    exact Nat.zero_lt_one
  · rintro l hl
    cases hl
    apply answers_of_posted hposted' (by simp)
    rw [hreceived']
    exact Nat.zero_lt_one
  · exact guarded_of_forall (hquiet _ (by simp [callbackRun]))

/-- The headers of the jobs are different, but for the size that `serialize` fills in. -/
def HeadersDiffer (p : Process) : Prop :=
  (p.launcher.jobs.map fun job => { job.pack.header with datasize := 0 }).Nodup

instance (p : Process) : Decidable p.HeadersDiffer :=
  inferInstanceAs (Decidable (List.Nodup _))

theorem sameSaltRun_end : ((run step init (triggersRun 1 (callbackRun 0 2 ++ callbackRun 0 3))).map
    fun p => (decide p.HeadersDiffer, p.sessions[0]?.map fun s => s.loop.reads)) =
      some (true, some [.header, .header]) := by
  decide +kernel

theorem differentSalts_end :
    ((run step init (triggersRun 4 (callbackRun 0 2 ++ callbackRun 1 2))).map fun p =>
      (p.sessions[0]?.map fun s => s.loop.reads, p.sessions[2]?.map fun s => s.moved)) =
      some (some [.header], some true) := by
  decide +kernel

/-- Two jobs drew the same salt, so that both answers complete the first. -/
theorem same_salt_two_reads : ¬ ∀ as p, run step init as = some p →
    Guarded step (OnLauncher Launcher.Answers) init as → p.HeadersDiffer →
      ∀ (c : Connection) (s : Session), p.sessions[c]? = some s →
        s.loop.reads.length + (p.pending c).length ≤ 1 := by
  intro hall
  obtain ⟨p, hp, hend⟩ := Option.map_eq_some_iff.mp sameSaltRun_end
  obtain ⟨hdiffer, hreads⟩ := Prod.mk.inj hend
  obtain ⟨s, hs, hreads⟩ := Option.map_eq_some_iff.mp hreads
  have hone := hall _ p hp (triggersRun_answers (Or.inl rfl)) (of_decide_eq_true hdiffer) 0 s hs
  rw [hreads, List.length_cons, List.length_singleton] at hone
  omega

theorem one_reader_differentSalts : ∃ p s w,
    run step init (triggersRun 4 (callbackRun 0 2 ++ callbackRun 1 2)) = some p ∧
    p.sessions[0]? = some s ∧ p.sessions[2]? = some w ∧ s.loop.reads = [.header] ∧
    s.loop.reads.length + (p.pending 0).length ≤ 1 ∧
    w.loop.reads.length + (p.pending 2).length = 0 := by
  obtain ⟨p, hp, hend⟩ := Option.map_eq_some_iff.mp differentSalts_end
  obtain ⟨hclient, hworker⟩ := Prod.mk.inj hend
  obtain ⟨s, hs, hreads⟩ := Option.map_eq_some_iff.mp hclient
  obtain ⟨w, hw, hmoved⟩ := Option.map_eq_some_iff.mp hworker
  have hanswers := triggersRun_answers (c := 1) (k := 2) (Or.inr rfl)
  have hother : Guarded step (OnLauncher Launcher.FindsNoOther) init
      (triggersRun 4 (callbackRun 0 2 ++ callbackRun 1 2)) :=
    guarded_of_check (by decide +kernel)
  refine ⟨p, s, w, hp, hs, hw, hreads, (one_reader hp hanswers hother hs).1, ?_⟩
  exact (one_reader hp hanswers hother hw).2 _ p w (List.prefix_refl _) hp hw hmoved

end CppSerializer.Process
