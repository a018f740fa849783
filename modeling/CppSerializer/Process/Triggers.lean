import CppSerializer.Launcher.Payload
import CppSerializer.Process.Reads

/-!
# Triggers

The way of the body of a trigger: the read of `start_trigger`, its handler, the job that
`start_trigger_post` makes, and the packet that a worker is given. No body is lost, changed or
doubled on this way, however handlers interleave (`triggers_submitted`).
-/

namespace CppSerializer.Process

open Pack Bucket ReadLoop TcpConnection Transition Shares
open Launcher (JobId)

/-! ## What the connections hold -/

section Held

variable {β : Type*} {p q : Process} {c₀ : Connection}

/-- What the connection holds, if it is there. -/
def held (p : Process) (c : Connection) (g : Session → List β) : List β :=
  p.sessions[c]?.toList.flatMap g

theorem held_eq {c : Connection} {s : Session} (hs : p.sessions[c]? = some s)
    (g : Session → List β) : p.held c g = g s := by
  rw [held, hs, Option.toList_some, List.flatMap_singleton]

theorem held_setSession {s : Session} (hs : p.sessions[c₀]? = some s) (t : Session)
    (g : Session → List β) (c : Connection) :
    (p.setSession c₀ t).held c g = if c₀ = c then g t else p.held c g := by
  rw [held, getElem?_setSession p hs]
  by_cases hc : c₀ = c
  · rw [if_pos hc, if_pos hc, Option.toList_some, List.flatMap_singleton]
  · rw [if_neg hc, if_neg hc, held]

/-- A step of every connection that changes nothing of what it holds. -/
theorem held_map {f : Session → Session} {c : Connection}
    (hsessions : q.sessions[c]? = p.sessions[c]?.map f) {g : Session → List β}
    (hg : ∀ s, g (f s) = g s) : q.held c g = p.held c g := by
  rw [held, held, hsessions]
  cases p.sessions[c]? with
  | none => rfl
  | some s => simp only [Option.map_some, Option.toList_some, List.flatMap_singleton, hg]

/-- A connection that was just accepted holds nothing. -/
theorem held_accept (p : Process) {g : Session → List β} (hg : g Session.accepted = [])
    (c : Connection) :
    held { p with sessions := p.sessions ++ [Session.accepted] } c g = p.held c g := by
  rw [held, held, List.getElem?_append]
  split
  · rfl
  · rename_i hlt
    rw [List.getElem?_eq_none_iff.mpr (Nat.le_of_not_lt hlt)]
    cases hnew : [Session.accepted][c - p.sessions.length]? with
    | none => rfl
    | some s =>
      rw [List.mem_singleton.mp (List.mem_of_getElem? hnew), Option.toList_some,
        List.flatMap_singleton, hg]
      rfl

/-- What the handlers of the connection have still to do with the things that `h` counts. -/
def Session.left (h : Op → List β) (s : Session) : List β :=
  s.loop.handlers.flatMap fun code => code.flatMap h

theorem left_post (h : Op → List β) (s : Session) (code : List Op) :
    (s.post code).left h = s.left h ++ code.flatMap h := by
  rw [Session.left, Session.left, Session.post, List.flatMap_append, List.flatMap_singleton]

/-- The first operation of a handler goes. -/
theorem left_next (h : Op → List β) {s : Session} {k : Nat} {op : Op} {ops : List Op}
    (hcode : s.loop.handlers[k]? = some (op :: ops)) :
    (s.left h).Perm (h op ++
      (s.loop.handlers.set k ops).flatMap fun code => code.flatMap h) := by
  have hold := flatMap_perm (f := fun code : List Op => code.flatMap h) hcode
  have hnew := flatMap_set_perm (f := fun code : List Op => code.flatMap h) hcode ops
  rw [List.flatMap_cons, List.append_assoc] at hold
  exact hold.trans (hnew.symm.append_left _)

/-- What handlers of a connection hold, before and after one performs an operation. -/
theorem held_next (h : Op → List β) {s : Session} (hs : p.sessions[c₀]? = some s) {k : Nat}
    {randomSalt sequence : List.Vector UnitT 4} {op : Op} {ops : List Op}
    (hcode : s.loop.handlers[k]? = some (op :: ops))
    (hperformed : Performed (p.setSession c₀ { s with loop := { s.loop with
      reads := s.loop.reads ++ op.start.toList, handlers := s.loop.handlers.set k ops } }) q c₀
        randomSalt sequence op) (c : Connection) :
    (p.held c (Session.left h)).Perm
      ((if c₀ = c then h op else []) ++ q.held c (Session.left h)) := by
  have hsame : ∀ s : Session,
      (if c₀ = c then s.performed op else s).left h = s.left h := by
    intro s
    split <;> rfl
  rw [held_map (hperformed.sessions c) hsame, held_setSession hs]
  by_cases hc : c₀ = c
  · subst hc
    rw [if_pos rfl, if_pos rfl, held_eq hs]
    exact left_next h hcode
  · rw [if_neg hc, if_neg hc]
    exact List.Perm.refl _

end Held

/-! ## Bodies -/

/-- The body that the read is complete with, if it is that of a trigger. -/
def Session.triggerBody (s : Session) (i : Nat) : List Bytes :=
  match s.loop.reads[i]? with
  | some (.trigger request pack) => [s.loop.buffer.take (Read.trigger request pack).size]
  | _ => []

/-- The body of a trigger that the step has read from the connection. -/
def triggered (c : Connection) (p : Process) : Action → List Bytes
  | .complete c₀ i => if c₀ = c then p.held c fun s => s.triggerBody i else []
  | _ => []

/-- The bodies of triggers that were read from the connection, in order. -/
def triggers (c : Connection) (as : List Action) : List Bytes := trace step (triggered c) init as

/-- The body that the operation gives to `start_trigger_post`. -/
def bodyOf : Op → List Bytes
  | .effect _ (.startTriggerPost body) => [body]
  | _ => []

/-- The body of the job, if it is one of the connection. -/
def jobBody (p : Process) (c : Connection) (j : JobId) : List Bytes :=
  if p.owners[j]? = some c then p.launcher.packets[j]?.toList.map fun pack => pack.data.buf else []

/-- The bodies of the jobs of the connection, in the order that they were made. -/
def jobBodies (p : Process) (c : Connection) : List Bytes :=
  (List.range p.owners.length).flatMap (p.jobBody c)

theorem bodies_headerCode (request : Nat) (pack : Packet) :
    (headerCode request pack).flatMap bodyOf = [] := by
  rw [headerCode]
  split <;> rfl

theorem bodies_got (request : Nat) (s : Session) {i : Nat} {r : Read}
    (hr : s.loop.reads[i]? = some r) :
    (r.got request (s.loop.buffer.take r.size)).flatMap bodyOf = s.triggerBody i := by
  rw [Session.triggerBody, hr]
  cases r with
  | header =>
    rw [Read.got]
    split
    · exact bodies_headerCode _ _
    · rfl
  | body n pack =>
    rw [Read.got]
    split <;> rfl
  | trigger n pack => rfl

/-! ## Jobs -/

/-- The jobs that an operation makes, with their packets. -/
theorem packets_performed {p q : Process} {c : Connection}
    {randomSalt sequence : List.Vector UnitT 4} {op : Op}
    (h : Performed p q c randomSalt sequence op) :
    ∃ made, q.launcher.packets = p.launcher.packets ++ made ∧
      made.map (fun pack => pack.data.buf) = bodyOf op ∧
      made.length = if submits op then 1 else 0 := by
  rcases h.launcher with ⟨hsame, hnone⟩ | ⟨a, ha, hstep⟩
  · refine ⟨[], by rw [hsame, List.append_nil], ?_, ?_⟩ <;> cases op with
    | effect request e => cases e <;> first | rfl | cases hnone
    | _ => rfl
  · refine ⟨a.submitted, Launcher.packets_of_step hstep, ?_, ?_⟩ <;> cases op with
    | effect request e => cases e <;> cases ha <;> rfl
    | _ => cases ha

/-- Jobs are made for the operations of handlers only. -/
theorem packets_launcher {p q : Process} {a : Launcher.Action} (hown : launcherCall a = false)
    (h : LauncherStep p a q) :
    q.launcher.packets = p.launcher.packets ∧ q.owners = p.owners := by
  have hsubmitted : a.submitted = [] := by
    cases a with
    | startTriggerPost randomSalt sequence body => cases hown
    | _ => rfl
  cases h with
  | silent l step completions =>
    refine ⟨?_, rfl⟩
    have hpackets := Launcher.packets_of_step step
    rwa [hsubmitted, List.append_nil] at hpackets
  | callback l step done strand completions =>
    obtain ⟨-, hlauncher, howners⟩ := callback_topics { p with launcher := l } done
    refine ⟨?_, howners⟩
    have hpackets := Launcher.packets_of_step step
    rw [hlauncher]
    rwa [hsubmitted, List.append_nil] at hpackets

theorem jobBody_congr {p q : Process} (howners : q.owners = p.owners)
    (hpackets : q.launcher.packets = p.launcher.packets) (c : Connection) :
    q.jobBody c = p.jobBody c := by
  funext j
  rw [jobBody, jobBody, howners, hpackets]

/-- Jobs that are there already keep their bodies. -/
theorem jobBody_append {p q : Process} {owners : List Connection} {made : List Packet}
    (hjobs : p.owners.length = p.launcher.packets.length) (howners : q.owners = p.owners ++ owners)
    (hpackets : q.launcher.packets = p.launcher.packets ++ made) (c : Connection) {j : JobId}
    (hj : j < p.owners.length) : q.jobBody c j = p.jobBody c j := by
  rw [jobBody, jobBody, howners, hpackets, List.getElem?_append_left hj,
    List.getElem?_append_left (hjobs ▸ hj)]

/-- The bodies that were read are those of the jobs and those that handlers hold. -/
structure Conserved (as : List Action) (p : Process) : Prop where
  jobs : p.owners.length = p.launcher.packets.length
  bodies : ∀ c, (p.jobBodies c ++ p.held c (Session.left bodyOf)).Perm (triggers c as)

theorem jobBodies_performed {p q : Process} {c : Connection}
    {randomSalt sequence : List.Vector UnitT 4} {op : Op}
    (h : Performed p q c randomSalt sequence op)
    (hjobs : p.owners.length = p.launcher.packets.length) :
    q.owners.length = q.launcher.packets.length ∧ ∀ c',
      q.jobBodies c' = p.jobBodies c' ++ if c = c' then bodyOf op else [] := by
  obtain ⟨made, hpackets, hbodies, hlength⟩ := packets_performed h
  have howners := h.owners
  cases hsubmits : submits op with
  | false =>
    rw [hsubmits, if_neg Bool.false_ne_true] at howners hlength
    obtain rfl := List.length_eq_zero_iff.mp hlength
    rw [List.append_nil] at howners hpackets
    refine ⟨by rw [howners, hpackets, hjobs], ?_⟩
    intro c'
    rw [jobBodies, jobBodies, jobBody_congr howners hpackets, howners, ← hbodies, List.map_nil,
      ite_self, List.append_nil]
  | true =>
    rw [hsubmits, if_pos rfl] at howners hlength
    obtain ⟨pack, rfl⟩ := List.length_eq_one_iff.mp hlength
    have hnumber : q.owners.length = p.owners.length + 1 := by
      rw [howners, List.length_append, List.length_singleton]
    refine ⟨by rw [hnumber, hpackets, List.length_append, hjobs, List.length_singleton], ?_⟩
    intro c'
    have hold : ∀ j ∈ List.range p.owners.length, q.jobBody c' j = p.jobBody c' j :=
      fun j hj => jobBody_append hjobs howners hpackets c' (List.mem_range.mp hj)
    have hnew : q.jobBody c' p.owners.length = if c = c' then bodyOf op else [] := by
      rw [jobBody, howners, hpackets, List.getElem?_concat_length, hjobs,
        List.getElem?_concat_length, ← hbodies]
      simp only [Option.some.injEq, Option.toList_some]
    rw [jobBodies, jobBodies, hnumber, List.range_succ, List.flatMap_append,
      List.flatMap_singleton, hnew, List.flatMap_congr hold]

/-! ## Steps -/

theorem Conserved.step {as : List Action} {p q : Process} {a : Action} (hi : Conserved as p)
    (hrun : run step init as = some p) (h : p.step a = some q) : Conserved (as ++ [a]) q := by
  have htriggers : ∀ c, triggers c (as ++ [a]) = triggers c as ++ triggered c p a :=
    fun c => trace_concat hrun a
  -- what a step that reads no trigger and makes no job has to show
  have hquiet : q.owners = p.owners → q.launcher.packets = p.launcher.packets →
      (∀ c, triggered c p a = []) →
      (∀ c, q.held c (Session.left bodyOf) = p.held c (Session.left bodyOf)) →
      Conserved (as ++ [a]) q := by
    intro howners hpackets hnone hheld
    refine ⟨by rw [howners, hpackets, hi.jobs], ?_⟩
    intro c
    rw [jobBodies, jobBody_congr howners hpackets, howners, hheld, htriggers, hnone,
      List.append_nil]
    exact hi.bodies c
  cases step_cases h with
  | accept => exact hquiet rfl rfl (fun c => rfl) (p.held_accept rfl)
  | arrive c₀ chunk s found =>
    refine hquiet rfl rfl (fun c => rfl) ?_
    intro c
    rw [held_setSession found]
    split
    · rename_i hc
      rw [← hc, held_eq found]
      rfl
    · rfl
  | complete c₀ i s found r outstanding size =>
    refine ⟨hi.jobs, ?_⟩
    intro c
    have hbodies := hi.bodies c
    rw [htriggers, held_setSession found, triggered]
    change (p.jobBodies c ++ _).Perm _
    by_cases hc : c₀ = c
    · subst hc
      rw [if_pos rfl, if_pos rfl, held_eq found, ← bodies_got s.requests.length s outstanding]
      rw [held_eq found] at hbodies
      rw [Session.left, List.flatMap_append, List.flatMap_singleton, ← List.append_assoc]
      exact hbodies.append_right _
    · rw [if_neg hc, if_neg hc, List.append_nil]
      exact hbodies
  | fail c₀ i s found r outstanding =>
    refine hquiet rfl rfl (fun c => rfl) ?_
    intro c
    rw [held_setSession found]
    split
    · rename_i hc
      rw [← hc, held_eq found, Session.left, Session.left, List.flatMap_append,
        List.flatMap_singleton]
      exact List.append_nil _
    · rfl
  | next c₀ k randomSalt sequence s found op ops code q performed =>
    obtain ⟨hjobs, hmade⟩ := jobBodies_performed performed hi.jobs
    refine ⟨hjobs, ?_⟩
    intro c
    have hheld := held_next bodyOf found code performed c
    have hnone : triggered c p (.next c₀ k randomSalt sequence) = [] := rfl
    rw [htriggers, hmade, hnone, List.append_nil, List.append_assoc]
    exact (hheld.symm.append_left _).trans (hi.bodies c)
  | topics a own t out step q wrote =>
    exact hquiet wrote.owners (by rw [wrote.launcher]) (fun c => rfl)
      fun c => held_map (wrote.sessions c) fun s => rfl
  | launcher a own q step =>
    obtain ⟨hpackets, howners⟩ := packets_launcher own step
    refine hquiet howners hpackets (fun c => rfl) ?_
    intro c
    cases step with
    | silent l step completions => rfl
    | callback l step done strand completions =>
      refine held_map (getElem?_callback { p with launcher := l } done c) fun s => ?_
      split
      · rw [left_post]
        exact List.append_nil _
      · rfl

theorem run_conserved {as : List Action} {p : Process} (hrun : run step init as = some p) :
    Conserved as p := by
  refine run_induction (P := fun as p => Conserved as p) ?_ ?_ as p hrun
  · exact ⟨rfl, fun c => List.Perm.refl _⟩
  · intro as p a q hp ih hq
    exact ih.step hp hq

/-! ## Where the bodies are -/

/-- The payloads that workers were given for the jobs of the connection. -/
def given (p : Process) (c : Connection) : List Bytes :=
  p.launcher.allPosted.flatMap fun posted =>
    if p.owners[posted.1]? = some c then [posted.2.data.buf] else []

/-- Every job is in one place. -/
theorem places_perm {as : List Launcher.Action} {l : Launcher.State}
    (hrun : run Launcher.State.step Launcher.State.init as = some l) :
    (l.registeredJobs ++ l.calls.flatMap Launcher.Call.popped ++ l.allPosted.map Prod.fst).Perm
      (List.range l.jobs.length) := by
  rw [List.perm_iff_count]
  intro j
  have hcopies := Launcher.run_copies_eq hrun j
  rw [Launcher.State.copies, Launcher.State.popped, Launcher.State.timesPosted] at hcopies
  rw [List.count_append, List.count_append, hcopies, List.count_range]

theorem bodies_perm {as : List Action} {p : Process} (hrun : run step init as = some p)
    {ls : List Launcher.Action}
    (hls : run Launcher.State.step Launcher.State.init ls = some p.launcher)
    {c : Connection} {s : Session} (hs : p.sessions[c]? = some s) :
    (s.left bodyOf ++ p.launcher.registeredJobs.flatMap (p.jobBody c) ++
      (p.launcher.calls.flatMap Launcher.Call.popped).flatMap (p.jobBody c) ++
        p.given c).Perm (triggers c as) := by
  have hconserved := run_conserved hrun
  have hbodies := hconserved.bodies c
  rw [held_eq hs] at hbodies
  have hposted : p.given c = (p.launcher.allPosted.map Prod.fst).flatMap (p.jobBody c) := by
    rw [given, List.flatMap_map]
    apply List.flatMap_congr
    intro posted hmem
    rw [jobBody, Launcher.run_given hls posted hmem]
    rfl
  have hplaces := (places_perm hls).flatMap_right (p.jobBody c)
  rw [List.flatMap_append, List.flatMap_append, ← hposted] at hplaces
  have hlength : p.launcher.jobs.length = p.owners.length := by
    rw [hconserved.jobs, Launcher.State.packets, List.length_map]
  rw [hlength] at hplaces
  rw [List.append_assoc, List.append_assoc,
    ← List.append_assoc (p.launcher.registeredJobs.flatMap _)]
  exact (List.perm_append_comm.trans (hplaces.append_right _)).trans hbodies

/-- Every body of a trigger that was read from a connection is in one place: a handler is about
to submit it, its job is queued or held by a loop of `start_jobs`, or one worker was given it, as
the payload of a `worker_push_request`. -/
theorem triggers_conserved {as : List Action} {p : Process} (hrun : run step init as = some p) :
    (∀ (c : Connection) (s : Session), p.sessions[c]? = some s →
      (s.left bodyOf ++ p.launcher.registeredJobs.flatMap (p.jobBody c) ++
        (p.launcher.calls.flatMap Launcher.Call.popped).flatMap (p.jobBody c) ++
          p.given c).Perm (triggers c as)) ∧
    ∀ posted ∈ p.launcher.allPosted, posted.2.header.type = .workerPushRequest := by
  obtain ⟨ls, hls, -⟩ := run_launcher (G := fun _ _ => True) (fun _ _ _ => trivial) hrun
    fun _ _ _ _ _ _ _ _ => trivial
  refine ⟨fun c s hs => bodies_perm hrun hls hs, ?_⟩
  intro posted hmem
  exact Launcher.run_packets_type hls _
    (List.mem_of_getElem? (Launcher.run_given hls posted hmem))

theorem triggers_conserved_triggersPosted : ∃ p,
    run step init (triggersPosted 4) = some p ∧ p.given 0 = [[65]] ∧
    (∀ (c : Connection) (s : Session), p.sessions[c]? = some s →
      (s.left bodyOf ++ p.launcher.registeredJobs.flatMap (p.jobBody c) ++
        (p.launcher.calls.flatMap Launcher.Call.popped).flatMap (p.jobBody c) ++
          p.given c).Perm (triggers c (triggersPosted 4))) ∧
    ∀ posted ∈ p.launcher.allPosted, posted.2.header.type = .workerPushRequest := by
  have hend : ((run step init (triggersPosted 4)).map fun p => p.given 0) = some [[65]] := by
    decide +kernel
  obtain ⟨p, hp, hgiven⟩ := Option.map_eq_some_iff.mp hend
  exact ⟨p, hp, hgiven, triggers_conserved hp⟩

end CppSerializer.Process
