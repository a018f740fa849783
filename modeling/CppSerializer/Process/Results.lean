import CppSerializer.Process.Triggers
import Mathlib.Data.List.Forall2

/-!
# Triggers as calls

To its client a trigger is a call: the body goes to some worker, and what the worker makes of it
comes back. `triggers_answered` says that the replies of the jobs of a connection are, in order,
results of the bodies that were read from it, whatever the workers compute and however handlers
interleave. What is due to the client is carried by at most one operation or job, since the
connection reads on only when the last job has called back.
-/

namespace CppSerializer.Process

open Pack Bucket ReadLoop TcpConnection Transition Shares
open Launcher (JobId)

/-! ## What is due to a client -/

/-- What is due for the body of a trigger: a result of it, or the packet that is to be written. -/
inductive Due
  | body (body : Bytes)
  | reply (pack : Packet)

/-- The packet is what a worker may answer to the body. -/
structure IsReply (R : Bytes → Bytes → Prop) (body : Bytes) (pack : Packet) : Prop where
  type : pack.header.type = .workerResponse
  result : R body pack.data.buf

def Due.For (R : Bytes → Bytes → Prop) (body : Bytes) : Due → Prop
  | .body b => b = body
  | .reply pack => IsReply R body pack

/-- A result is there, or nothing has changed. -/
def Due.Advances (R : Bytes → Bytes → Prop) (d d' : Due) : Prop :=
  d' = d ∨ ∃ body pack, d = .body body ∧ d' = .reply pack ∧ IsReply R body pack

theorem Due.For.advance {R : Bytes → Bytes → Prop} {body : Bytes} {d d' : Due}
    (h : d.For R body) (hadvance : d.Advances R d') : d'.For R body := by
  rcases hadvance with rfl | ⟨b, pack, rfl, rfl, hreply⟩
  · exact h
  · cases h
    exact hreply

theorem forall₂_advance {R : Bytes → Bytes → Prop} {bodies : List Bytes} {ds ds' : List Due}
    (h : List.Forall₂ (fun body d => Due.For R body d) bodies ds)
    (hadvance : List.Forall₂ (Due.Advances R) ds ds') :
    List.Forall₂ (fun body d => Due.For R body d) bodies ds' := by
  induction hadvance generalizing bodies with
  | nil => exact h
  | cons hfirst _ ih =>
    cases h with
    | cons hbody hrest => exact .cons (hbody.advance hfirst) (ih hrest)

theorem advances_refl (R : Bytes → Bytes → Prop) (ds : List Due) :
    List.Forall₂ (Due.Advances R) ds ds :=
  List.forall₂_same.mpr fun _ _ => Or.inl rfl

/-- The operation carries what is due. -/
def dueOf : Op → List Due
  | .effect _ (.startTriggerPost body) => [.body body]
  | .callback resp => [.reply resp.sized]
  | _ => []

/-- The write answers a trigger. -/
def Write.jobReply (w : Write) : List Packet :=
  match w.origin with
  | .job => [w.pack]
  | .control _ | .listener => []

/-- What the callbacks of jobs have written, in order. -/
def Session.jobReplies (s : Session) : List Packet := s.writes.flatMap Write.jobReply

/-- What is due to the client for jobs without an answer. -/
def awaited (p : Process) (c : Connection) : List Due :=
  (p.pending c).flatMap fun j => (p.jobBody c j).map .body

/-- Everything that is due to the client. -/
def due (p : Process) (c : Connection) : List Due :=
  p.held c (Session.left dueOf) ++ p.awaited c

/-! ## Handlers -/

/-- The operation submits a trigger or writes its reply. -/
def carries (op : Op) : Bool :=
  match op with
  | .effect _ (.startTriggerPost _) | .callback _ => true
  | _ => false

theorem dueOf_eq_nil {op : Op} (h : carries op = false) : dueOf op = [] := by
  cases op with
  | effect request e =>
    cases e with
    | startTriggerPost body => cases h
    | _ => rfl
  | callback resp => cases h
  | _ => rfl

/-- A handler carries one thing at most, and then it still hands the right to read on. -/
inductive Carrying : List Op → Prop
  | none (code : List Op) (h : ∀ op ∈ code, carries op = false) : Carrying code
  | trigger (request : Nat) (body : Bytes) : Carrying [.effect request (.startTriggerPost body)]
  | callback (resp : Packet) : Carrying (callbackCode resp)

theorem Carrying.tail {op : Op} {ops : List Op} (h : Carrying (op :: ops)) : Carrying ops := by
  cases h with
  | none _ h => exact .none ops fun op' hop => h op' (List.mem_cons_of_mem _ hop)
  | trigger request body => exact .none [] (by simp)
  | callback resp => exact .none [.startReadHeader] (by simp [carries])

theorem Carrying.length_le {code : List Op} (h : Carrying code) :
    (code.flatMap dueOf).length ≤ (code.filter passes).length := by
  cases h with
  | none _ h =>
    rw [List.flatMap_eq_nil_iff.mpr fun op hop => dueOf_eq_nil (h op hop)]
    exact Nat.zero_le _
  | trigger request body => exact Nat.le_refl 1
  | callback resp => exact Nat.le_refl 1

theorem carrying_got (request : Nat) (r : Read) (buf : Bytes) : Carrying (r.got request buf) := by
  cases r with
  | header =>
    rw [Read.got]
    split
    · rename_i h _
      apply Carrying.none
      obtain ⟨type, key, datasize, sequence, randomSalt⟩ := h
      cases type <;> simp [headerCode, carries]
    · exact .none [] (by simp)
  | body n pack =>
    rw [Read.got]
    split
    · exact .none _ (by simp [carries])
    · exact .none [] (by simp)
  | trigger n pack => exact .trigger n buf

/-- Of what a read starts, only the body of a trigger is due an answer. -/
theorem due_got (request : Nat) (s : Session) {i : Nat} {r : Read}
    (hr : s.loop.reads[i]? = some r) :
    (r.got request (s.loop.buffer.take r.size)).flatMap dueOf =
      (s.triggerBody i).map .body := by
  rw [Session.triggerBody, hr]
  cases r with
  | header =>
    rw [Read.got]
    split
    · rename_i h _
      obtain ⟨type, key, datasize, sequence, randomSalt⟩ := h
      cases type <;> rfl
    · rfl
  | body n pack =>
    rw [Read.got]
    split <;> rfl
  | trigger n pack => rfl

def Carried (p : Process) : Prop :=
  ∀ c, ∀ code ∈ p.held c (fun s => s.loop.handlers), Carrying code

theorem Carried.step {p q : Process} {a : Action} (hi : Carried p) (h : p.step a = some q) :
    Carried q := by
  intro c code hcode
  cases step_cases h with
  | accept =>
    rw [held_accept p rfl] at hcode
    exact hi c code hcode
  | arrive c₀ chunk s found =>
    rw [held_setSession found] at hcode
    split at hcode
    · exact hi c₀ code (by rw [held_eq found]; exact hcode)
    · exact hi c code hcode
  | complete c₀ i s found r outstanding size =>
    rw [held_setSession found] at hcode
    split at hcode
    · rcases List.mem_append.mp hcode with hold | hnew
      · exact hi c₀ code (by rw [held_eq found]; exact hold)
      · rw [List.mem_singleton.mp hnew]
        exact carrying_got _ r _
    · exact hi c code hcode
  | fail c₀ i s found r outstanding =>
    rw [held_setSession found] at hcode
    split at hcode
    · rcases List.mem_append.mp hcode with hold | hnew
      · exact hi c₀ code (by rw [held_eq found]; exact hold)
      · rw [List.mem_singleton.mp hnew]
        exact .none [] (by simp)
    · exact hi c code hcode
  | next c₀ k randomSalt sequence s found op ops hop q performed =>
    have hsame : ∀ s : Session,
        (if c₀ = c then s.performed op else s).loop.handlers = s.loop.handlers := by
      intro s
      split <;> rfl
    rw [held_map (performed.sessions c) hsame, held_setSession found] at hcode
    split at hcode
    · have hmem : ∀ code' ∈ s.loop.handlers, Carrying code' := by
        intro code' hcode'
        exact hi c₀ code' (by rw [held_eq found]; exact hcode')
      rcases List.mem_or_eq_of_mem_set hcode with hold | rfl
      · exact hmem code hold
      · exact (hmem _ (List.mem_of_getElem? hop)).tail
    · exact hi c code hcode
  | topics a own t out step q wrote =>
    rw [held_map (wrote.sessions c) fun s => rfl] at hcode
    exact hi c code hcode
  | launcher a own q step =>
    cases step with
    | silent l step completions => exact hi c code hcode
    | callback l step done strand completions =>
      rw [held, getElem?_callback] at hcode
      change code ∈ (p.sessions[c]?.map _).toList.flatMap _ at hcode
      cases hs : p.sessions[c]? with
      | none =>
        rw [hs] at hcode
        cases hcode
      | some s =>
        rw [hs, Option.map_some, Option.toList_some, List.flatMap_singleton] at hcode
        have hold : code ∈ s.loop.handlers → Carrying code :=
          fun hmem => hi c code (by rw [held_eq hs]; exact hmem)
        split at hcode
        · rcases List.mem_append.mp hcode with hmem | hnew
          · exact hold hmem
          · rw [List.mem_singleton.mp hnew]
            exact .callback done.pack
        · exact hold hcode

theorem run_carried {as : List Action} {p : Process} (hrun : run step init as = some p) :
    Carried p := by
  refine run_induction (P := fun _ p => Carried p) ?_ ?_ as p hrun
  · intro c code hcode
    cases hcode
  · intro _ p a q _ ih hq
    exact ih.step hq

/-- What is due to a client is in a handler that still hands its token on, or with a job. -/
theorem length_due_le {p : Process} (hcarried : Carried p) {c : Connection} {s : Session}
    (hs : p.sessions[c]? = some s) :
    (p.due c).length ≤ s.passing.length + (p.pending c).length := by
  have hbody : ∀ j ∈ p.pending c, ((p.jobBody c j).map Due.body).length ≤ [j].length := by
    intro j _
    rw [jobBody, List.length_map, List.length_singleton]
    split
    · rw [List.length_map]
      exact Option.length_toList_le
    · exact Nat.zero_le 1
  have hawaited := length_flatMap_le hbody
  rw [List.flatMap_singleton'] at hawaited
  have hleft : (s.left dueOf).length ≤ s.passing.length := by
    apply length_flatMap_le
    intro code hcode
    exact (hcarried c code (by rw [held_eq hs]; exact hcode)).length_le
  rw [due, List.length_append, held_eq hs]
  exact Nat.add_le_add hleft hawaited

/-- One thing at most is due to a client, as it does not read on before that is written. -/
theorem length_due_le_one {p : Process} (hone : OneReader p) (hcarried : Carried p)
    (c : Connection) : (p.due c).length ≤ 1 := by
  cases hs : p.sessions[c]? with
  | none =>
    have hnone : p.pending c = [] := by
      apply List.eq_nil_iff_forall_not_mem.mpr
      intro j hj
      obtain ⟨s, hs'⟩ := hone.owners c (List.mem_of_getElem? (mem_pending.mp hj).1)
      rw [hs] at hs'
      cases hs'
    rw [due, held, hs, awaited, hnone]
    exact Nat.zero_le 1
  | some s =>
    have htokens := hone.one c s hs
    have hdue := length_due_le hcarried hs
    rw [tokens] at htokens
    omega

/-! ## Jobs -/

theorem awaited_congr {p q : Process} (howners : q.owners = p.owners)
    (hpackets : q.launcher.packets = p.launcher.packets)
    (hcallees : q.launcher.callees = p.launcher.callees) (c : Connection) :
    q.awaited c = p.awaited c := by
  rw [awaited, awaited, pending_congr howners hcallees, jobBody_congr howners hpackets]

/-- A job that is made is one more to wait for. -/
theorem awaited_performed {p q : Process} {c : Connection}
    {randomSalt sequence : List.Vector UnitT 4} {op : Op}
    (h : Performed p q c randomSalt sequence op)
    (hjobs : p.owners.length = p.launcher.packets.length)
    (hlt : ∀ j ∈ p.launcher.callees, j < p.owners.length) (c' : Connection) :
    q.awaited c' = p.awaited c' ++ if c = c' then (bodyOf op).map .body else [] := by
  obtain ⟨made, hpackets, hbodies, hlength⟩ := packets_performed h
  have howners := h.owners
  have hcallees : q.launcher.callees = p.launcher.callees := by
    rw [Launcher.State.callees, Launcher.State.callees, h.completions]
  cases hsubmits : submits op with
  | false =>
    rw [hsubmits, if_neg Bool.false_ne_true] at howners hlength
    obtain rfl := List.length_eq_zero_iff.mp hlength
    rw [List.append_nil] at howners hpackets
    rw [awaited_congr howners hpackets hcallees, ← hbodies, List.map_nil, List.map_nil, ite_self,
      List.append_nil]
  | true =>
    rw [hsubmits, if_pos rfl] at howners hlength
    obtain ⟨pack, rfl⟩ := List.length_eq_one_iff.mp hlength
    have hold : ∀ j ∈ p.pending c',
        (q.jobBody c' j).map Due.body = (p.jobBody c' j).map Due.body := by
      intro j hj
      obtain ⟨hj, -⟩ := List.getElem?_eq_some_iff.mp (mem_pending.mp hj).1
      rw [jobBody_append hjobs howners hpackets c' hj]
    have hnew : q.jobBody c' p.owners.length = if c = c' then bodyOf op else [] := by
      rw [jobBody, howners, hpackets, List.getElem?_concat_length, hjobs,
        List.getElem?_concat_length, ← hbodies]
      simp only [Option.some.injEq, Option.toList_some]
    rw [awaited, awaited, pending_submit howners hcallees hlt, List.flatMap_append,
      List.flatMap_congr hold]
    congr 1
    split
    · rename_i hc
      rw [List.flatMap_singleton, hnew, if_pos hc]
    · rfl

/-! ## Steps -/

/-- What an operation carries is a job that it makes, or a reply that it writes. -/
theorem dueOf_eq (op : Op) :
    dueOf op = (bodyOf op).map .body ++ ((written op).flatMap Write.jobReply).map .reply := by
  cases op with
  | effect request e => cases e <;> rfl
  | _ => rfl

/-- A handler is posted to a connection. -/
theorem due_posted {p : Process} {c₀ : Connection} {s t : Session}
    (hs : p.sessions[c₀]? = some s) {code : List Op} (hwrites : t.writes = s.writes)
    (hhandlers : t.loop.handlers = s.loop.handlers ++ [code]) (c : Connection) :
    (p.setSession c₀ t).held c Session.jobReplies = p.held c Session.jobReplies ∧
      (p.due c ++ if c₀ = c then code.flatMap dueOf else []).Perm ((p.setSession c₀ t).due c) := by
  have hawaited : (p.setSession c₀ t).awaited c = p.awaited c := rfl
  rw [due, due, hawaited, held_setSession hs, held_setSession hs]
  by_cases hc : c₀ = c
  · subst hc
    rw [if_pos rfl, if_pos rfl, if_pos rfl, held_eq hs, held_eq hs]
    refine ⟨by rw [Session.jobReplies, hwrites, Session.jobReplies], ?_⟩
    rw [Session.left, Session.left, hhandlers, List.flatMap_append, List.flatMap_singleton,
      List.append_assoc, List.append_assoc]
    exact List.perm_append_comm.append_left _
  · rw [if_neg hc, if_neg hc, if_neg hc, List.append_nil]
    exact ⟨rfl, .refl _⟩

theorem replies_wrote (s : Session) (out : List Topics.Output) (c : Connection) :
    (s.wrote (out.filterMap writeOf) c).jobReplies = s.jobReplies := by
  have hnone : (((out.filterMap writeOf).filter fun w => w.1 = c).map Prod.snd).flatMap
      Write.jobReply = [] := by
    rw [List.flatMap_eq_nil_iff]
    intro w hw
    obtain ⟨⟨c', w'⟩, hmem, rfl⟩ := List.mem_map.mp hw
    obtain ⟨o, -, ho⟩ := List.mem_filterMap.mp (List.mem_filter.mp hmem).1
    cases o with
    | reply | call =>
      cases ho
      rfl
    | post body => cases ho
  rw [Session.jobReplies, Session.jobReplies, Session.wrote, List.flatMap_append, hnone,
    List.append_nil]

/-- The replies of an operation of a handler, and what is due after it. -/
theorem due_next {p q : Process} {c₀ : Connection} {s : Session} (hs : p.sessions[c₀]? = some s)
    {k : Nat} {randomSalt sequence : List.Vector UnitT 4} {op : Op} {ops : List Op}
    (hcode : s.loop.handlers[k]? = some (op :: ops))
    (hperformed : Performed (p.setSession c₀ { s with loop := { s.loop with
      reads := s.loop.reads ++ op.start.toList, handlers := s.loop.handlers.set k ops } }) q c₀
        randomSalt sequence op)
    (hjobs : p.owners.length = p.launcher.packets.length)
    (hlt : ∀ j ∈ p.launcher.callees, j < p.owners.length) (c : Connection) :
    ∃ sent, q.held c Session.jobReplies = p.held c Session.jobReplies ++ sent ∧
      (p.due c).Perm (sent.map .reply ++ q.due c) := by
  have hheld := held_next dueOf hs hcode hperformed c
  have hawaited := awaited_performed hperformed hjobs hlt c
  change q.awaited c = p.awaited c ++ _ at hawaited
  rw [due, due, hawaited]
  by_cases hc : c₀ = c
  · subst hc
    rw [if_pos rfl, dueOf_eq] at hheld
    refine ⟨(written op).flatMap Write.jobReply, ?_, ?_⟩
    · rw [held, hperformed.sessions, getElem?_setSession p hs, if_pos rfl, Option.map_some,
        if_pos rfl, Option.toList_some, List.flatMap_singleton, held_eq hs, Session.jobReplies,
        Session.performed, List.flatMap_append]
      rfl
    · rw [if_pos rfl]
      refine (hheld.append_right (p.awaited c₀)).trans ?_
      simp only [List.append_assoc]
      refine List.perm_append_comm.trans ?_
      simp only [List.append_assoc]
      exact .refl _
  · rw [if_neg hc] at hheld
    refine ⟨[], ?_, ?_⟩
    · have hsame : ∀ s : Session,
          (if c₀ = c then s.performed op else s).jobReplies = s.jobReplies := by
        intro s
        rw [if_neg hc]
      rw [held_map (hperformed.sessions c) hsame, held_setSession hs, if_neg hc, List.append_nil]
    · rw [if_neg hc, List.append_nil]
      exact hheld.append_right _

/-- A step of the launcher is silent, or brings the result that is due to a client. -/
theorem due_launcher {R : Bytes → Bytes → Prop} {p q : Process} {a : Launcher.Action}
    (hown : launcherCall a = false) (h : LauncherStep p a q) (hone : OneReader p)
    (honce : q.launcher.callees.Nodup)
    (hresults : ∀ done ∈ q.launcher.log.completions,
      Launcher.IsResult R q.launcher done.callee done.pack) (c : Connection) :
    q.held c Session.jobReplies = p.held c Session.jobReplies ∧
      (q.due c = p.due c ∨ ∃ body pack rest, (p.due c).Perm (.body body :: rest) ∧
        (q.due c).Perm (.reply pack :: rest) ∧ IsReply R body pack) := by
  obtain ⟨hpackets, howners⟩ := packets_launcher hown h
  cases h with
  | silent l step completions =>
    refine ⟨rfl, Or.inl ?_⟩
    have hcallees : l.callees = p.launcher.callees := by
      rw [Launcher.State.callees, Launcher.State.callees, completions]
    have hawaited := awaited_congr (q := { p with launcher := l }) howners hpackets hcallees c
    rw [due, due, hawaited]
    rfl
  | callback l step done strand completions =>
    obtain ⟨-, hlauncher, -⟩ := callback_topics { p with launcher := l } done
    have hcompletions : (callback { p with launcher := l } done).launcher.log.completions =
        p.launcher.log.completions ++ [done] := by
      rw [hlauncher]
      exact completions
    have hcallees := callees_append (p := p) hcompletions
    have hfresh := callee_fresh (p := p) hcallees honce
    have hsessions := getElem?_callback { p with launcher := l } done c
    have hreplies : ∀ s : Session, (if p.owners[done.callee]? = some c then
        s.post (callbackCode done.pack) else s).jobReplies = s.jobReplies := by
      intro s
      split <;> rfl
    refine ⟨held_map hsessions hreplies, ?_⟩
    by_cases howner : p.owners[done.callee]? = some c
    · right
      have hdone : done ∈ (callback { p with launcher := l } done).launcher.log.completions := by
        rw [hcompletions]
        exact List.mem_append_right _ (List.mem_singleton_self _)
      obtain ⟨htype, given, hgiven, hresult⟩ := hresults done hdone
      obtain ⟨s, hs⟩ := hone.owners c (List.mem_of_getElem? howner)
      have hbody : p.jobBody c done.callee = [given.data.buf] := by
        rw [jobBody, if_pos howner, ← hpackets, hgiven]
        rfl
      have hpending := pending_perm howners hcallees hfresh howner
      have hawaited := hpending.flatMap_right fun j => (p.jobBody c j).map Due.body
      have hafter : awaited (callback { p with launcher := l } done) c =
          (pending (callback { p with launcher := l } done) c).flatMap
            fun j => (p.jobBody c j).map Due.body := by
        rw [awaited, jobBody_congr howners hpackets]
      rw [List.flatMap_cons, hbody, ← hafter] at hawaited
      have hleft : held (callback { p with launcher := l } done) c (Session.left dueOf) =
          p.held c (Session.left dueOf) ++ [.reply done.pack.sized] := by
        rw [held, hsessions]
        change (p.sessions[c]?.map _).toList.flatMap _ = _
        rw [held_eq hs, hs, Option.map_some, if_pos howner, Option.toList_some,
          List.flatMap_singleton, left_post]
        rfl
      refine ⟨given.data.buf, done.pack.sized, p.held c (Session.left dueOf) ++
        awaited (callback { p with launcher := l } done) c, ?_, ?_, htype, hresult⟩
      · exact (hawaited.append_left _).trans List.perm_middle
      · rw [due, hleft, List.append_assoc]
        exact List.perm_middle
    · left
      have hleft : ∀ s : Session, (if p.owners[done.callee]? = some c then
          s.post (callbackCode done.pack) else s).left dueOf = s.left dueOf := by
        intro s
        rw [if_neg howner]
      have hothers := OthersOnly.of_callback (p := p) howners hcompletions howner
      rw [due, due, held_map hsessions hleft, awaited, awaited, hothers.pending,
        jobBody_congr howners hpackets]
      rfl

/-- From `p` to `q` the connection writes what was due, and what it reads of triggers is due
then. -/
def DueStep (R : Bytes → Bytes → Prop) (p q : Process) (c : Connection) (bodies : List Bytes) :
    Prop :=
  ∃ sent, q.held c Session.jobReplies = p.held c Session.jobReplies ++ sent ∧
    List.Forall₂ (Due.Advances R) (p.due c ++ bodies.map .body) (sent.map .reply ++ q.due c)

section DueStep

variable {R : Bytes → Bytes → Prop} {p q : Process}

/-- A step that reads no trigger and moves nothing. -/
theorem dueStep_quiet {c : Connection}
    (hreplies : q.held c Session.jobReplies = p.held c Session.jobReplies)
    (hleft : q.held c (Session.left dueOf) = p.held c (Session.left dueOf))
    (hawaited : q.awaited c = p.awaited c) : DueStep R p q c [] := by
  refine ⟨[], by rw [hreplies, List.append_nil], ?_⟩
  rw [List.map_nil, List.append_nil, due, due, hleft, hawaited]
  exact advances_refl R _

theorem dueStep_arrive {c₀ : Connection} {s : Session} (hs : p.sessions[c₀]? = some s)
    (chunk : Bytes) (c : Connection) :
    DueStep R p (p.setSession c₀ { s with loop := s.loop.arrive chunk }) c [] := by
  have hsame : ∀ {β : Type} {g : Session → List β}, (∀ t : Session,
      g { t with loop := t.loop.arrive chunk } = g t) →
      (p.setSession c₀ { s with loop := s.loop.arrive chunk }).held c g = p.held c g := by
    intro β g hg
    rw [held_setSession hs]
    split
    · rename_i hc
      rw [hg, ← hc, held_eq hs]
    · rfl
  exact dueStep_quiet (hsame fun t => rfl) (hsame fun t => rfl) rfl

/-- A handler is posted that carries what was read. -/
theorem dueStep_posted {c₀ : Connection} {s t : Session} (hs : p.sessions[c₀]? = some s)
    {c : Connection} (hafter : ((p.setSession c₀ t).due c).length ≤ 1) (code : List Op)
    (hwrites : t.writes = s.writes) (hhandlers : t.loop.handlers = s.loop.handlers ++ [code])
    {bodies : List Bytes}
    (hbodies : bodies.map Due.body = if c₀ = c then code.flatMap dueOf else []) :
    DueStep R p (p.setSession c₀ t) c bodies := by
  obtain ⟨hreplies, hdue⟩ := due_posted hs hwrites hhandlers c
  refine ⟨[], by rw [hreplies, List.append_nil], ?_⟩
  rw [← hbodies] at hdue
  rw [eq_of_perm hdue (hdue.length_eq.trans_le hafter)]
  exact advances_refl R _

theorem dueStep_next {c₀ : Connection} {s : Session} (hs : p.sessions[c₀]? = some s)
    {k : Nat} {randomSalt sequence : List.Vector UnitT 4} {op : Op} {ops : List Op}
    (hcode : s.loop.handlers[k]? = some (op :: ops))
    (hperformed : Performed (p.setSession c₀ { s with loop := { s.loop with
      reads := s.loop.reads ++ op.start.toList, handlers := s.loop.handlers.set k ops } }) q c₀
        randomSalt sequence op)
    (hjobs : p.owners.length = p.launcher.packets.length)
    (hlt : ∀ j ∈ p.launcher.callees, j < p.owners.length) {c : Connection}
    (hbefore : (p.due c).length ≤ 1) : DueStep R p q c [] := by
  obtain ⟨sent, hreplies, hdue⟩ := due_next hs hcode hperformed hjobs hlt c
  refine ⟨sent, hreplies, ?_⟩
  rw [List.map_nil, List.append_nil, eq_of_perm hdue hbefore]
  exact advances_refl R _

theorem dueStep_launcher {a : Launcher.Action} (hown : launcherCall a = false)
    (h : LauncherStep p a q) (hone : OneReader p) (honce : q.launcher.callees.Nodup)
    (hresults : ∀ done ∈ q.launcher.log.completions,
      Launcher.IsResult R q.launcher done.callee done.pack) {c : Connection}
    (hbefore : (p.due c).length ≤ 1) : DueStep R p q c [] := by
  obtain ⟨hreplies, hdue⟩ := due_launcher hown h hone honce hresults c
  refine ⟨[], by rw [hreplies, List.append_nil], ?_⟩
  rw [List.map_nil, List.append_nil]
  rcases hdue with hsame | ⟨body, pack, rest, hold, hnew, hreply⟩
  · rw [hsame]
    exact advances_refl R _
  · have hlength := hold.length_eq
    rw [List.length_cons] at hlength
    obtain rfl : rest = [] := List.length_eq_zero_iff.mp (by omega)
    rw [List.perm_singleton.mp hold, List.perm_singleton.mp hnew]
    exact .cons (Or.inr ⟨body, pack, rfl, rfl, hreply⟩) .nil

end DueStep

/-- What a step writes for triggers was due, and what it reads of them is due then. -/
theorem due_of_step {R : Bytes → Bytes → Prop} {p q : Process} {a : Action}
    (h : p.step a = some q) (hone : OneReader p) (hcarried : Carried p) (hone' : OneReader q)
    (hcarried' : Carried q) (hjobs : p.owners.length = p.launcher.packets.length)
    (hlt : ∀ j ∈ p.launcher.callees, j < p.owners.length) (honce : q.launcher.callees.Nodup)
    (hresults : ∀ done ∈ q.launcher.log.completions,
      Launcher.IsResult R q.launcher done.callee done.pack) (c : Connection) :
    DueStep R p q c (triggered c p a) := by
  have hbefore := length_due_le_one hone hcarried c
  have hafter := length_due_le_one hone' hcarried' c
  cases step_cases h with
  | accept => exact dueStep_quiet (p.held_accept rfl c) (p.held_accept rfl c) rfl
  | arrive c₀ chunk s found => exact dueStep_arrive found chunk c
  | complete c₀ i s found r outstanding size =>
    refine dueStep_posted found hafter _ rfl rfl ?_
    rw [due_got _ s outstanding, triggered]
    split
    · rename_i hc
      rw [← hc, held_eq found]
    · rfl
  | fail c₀ i s found r outstanding =>
    exact dueStep_posted found hafter [] rfl rfl (ite_self _).symm
  | next c₀ k randomSalt sequence s found op ops code q performed =>
    exact dueStep_next found code performed hjobs hlt hbefore
  | topics a own t out step q wrote =>
    refine dueStep_quiet (held_map (wrote.sessions c) fun s => replies_wrote s out c)
      (held_map (wrote.sessions c) fun s => rfl) ?_
    refine awaited_congr wrote.owners ?_ ?_ c <;> rw [wrote.launcher]
  | launcher a own q step => exact dueStep_launcher own step hone honce hresults hbefore

/-! ## Runs -/

theorem answers_of_call (l : Launcher.State) {a : Launcher.Action} (h : launcherCall a = true) :
    Launcher.Answers l a := by
  apply Launcher.answers_of_ne
  rintro w origin pack rfl
  cases h

theorem computes_of_call (R : Bytes → Bytes → Prop) (l : Launcher.State) {a : Launcher.Action}
    (h : launcherCall a = true) : Launcher.Computes R l a := by
  refine ⟨answers_of_call l h, ?_⟩
  rintro w j pack rfl
  cases h

theorem findsNoOther_of_call (l : Launcher.State) {a : Launcher.Action}
    (h : launcherCall a = true) : Launcher.FindsNoOther l a := by
  intro j hj
  cases a with
  | strand i => cases h
  | _ => cases hj

/-- In the run of the launcher no response finds the job of another either. -/
theorem run_launcher_other {G : Launcher.State → Launcher.Action → Prop}
    (hcall : ∀ l a, launcherCall a = true → G l a) {as : List Action} {p : Process}
    (hrun : run step init as = some p) (hG : Guarded step (OnLauncher G) init as)
    (hother : Guarded step (OnLauncher Launcher.FindsNoOther) init as) :
    ∃ ls, run Launcher.State.step Launcher.State.init ls = some p.launcher ∧
      Guarded Launcher.State.step G Launcher.State.init ls ∧
      Guarded Launcher.State.step Launcher.FindsNoOther Launcher.State.init ls := by
  have hboth : Guarded step (OnLauncher fun l a => G l a ∧ Launcher.FindsNoOther l a) init as := by
    intro pre a post q has hq l hl
    exact ⟨hG pre a post q has hq l hl, hother pre a post q has hq l hl⟩
  obtain ⟨ls, hls, hguard⟩ :=
    run_launcher (fun l a h => ⟨hcall l a h, findsNoOther_of_call l h⟩) hrun hboth
  exact ⟨ls, hls, hguard.mono fun _ _ h => h.1, hguard.mono fun _ _ h => h.2⟩

/-- The callbacks are called with results of the bodies of their jobs. -/
theorem run_results {R : Bytes → Bytes → Prop} {as : List Action} {p : Process}
    (hrun : run step init as = some p)
    (hcomputes : Guarded step (OnLauncher (Launcher.Computes R)) init as)
    (hother : Guarded step (OnLauncher Launcher.FindsNoOther) init as) :
    ∀ done ∈ p.launcher.log.completions,
      Launcher.IsResult R p.launcher done.callee done.pack := by
  obtain ⟨ls, hls, hresults, hnone⟩ :=
    run_launcher_other (fun l a => computes_of_call R l) hrun hcomputes hother
  exact Launcher.run_results hls hresults hnone

/-- What is read of triggers is answered, or due. -/
theorem run_due {R : Bytes → Bytes → Prop} {as : List Action} {p : Process}
    (hrun : run step init as = some p)
    (hcomputes : Guarded step (OnLauncher (Launcher.Computes R)) init as)
    (hother : Guarded step (OnLauncher Launcher.FindsNoOther) init as) (c : Connection) :
    List.Forall₂ (fun body d => Due.For R body d) (triggers c as)
      ((p.held c Session.jobReplies).map .reply ++ p.due c) := by
  revert hcomputes hother
  refine run_induction (P := fun as p => Guarded step (OnLauncher (Launcher.Computes R)) init as →
    Guarded step (OnLauncher Launcher.FindsNoOther) init as →
    List.Forall₂ (fun body d => Due.For R body d) (triggers c as)
      ((p.held c Session.jobReplies).map .reply ++ p.due c)) (fun _ _ => .nil) ?_ as p hrun
  intro as p a q hp ih hq hcomputes hother
  have hbefore := ih hcomputes.prefix hother.prefix
  have hrunq := run_concat hp hq
  have hanswers : Guarded step (OnLauncher Launcher.Answers) init (as ++ [a]) :=
    hcomputes.mono fun p a h l hl => (h l hl).1
  have hone := run_oneReader hp hanswers.prefix hother.prefix
  have hcallees := run_callees hp hanswers.prefix hother.prefix
  have hconserved := run_conserved hp
  obtain ⟨sent, hreplies, hadvance⟩ := due_of_step hq hone (run_carried hp)
    (run_oneReader hrunq hanswers hother) (run_carried hrunq) hconserved.jobs
    (by rw [hone.jobs]; exact hcallees.2) (run_callees hrunq hanswers hother).1
    (run_results hrunq hcomputes hother) c
  have htriggers : triggers c (as ++ [a]) = triggers c as ++ triggered c p a :=
    trace_concat hp a
  rw [htriggers, hreplies, List.map_append, List.append_assoc]
  have hnew : List.Forall₂ (fun body d => Due.For R body d) (triggered c p a)
      ((triggered c p a).map .body) :=
    List.forall₂_map_right_iff.mpr (List.forall₂_same.mpr fun _ _ => rfl)
  have hread : List.Forall₂ (fun body d => Due.For R body d) (triggers c as ++ triggered c p a)
      ((p.held c Session.jobReplies).map .reply ++ p.due c ++
        (triggered c p a).map .body) := List.rel_append hbefore hnew
  rw [List.append_assoc] at hread
  have hall : List.Forall₂ (Due.Advances R)
      ((p.held c Session.jobReplies).map .reply ++ (p.due c ++ (triggered c p a).map .body))
      ((p.held c Session.jobReplies).map .reply ++ (sent.map .reply ++ q.due c)) :=
    List.rel_append (advances_refl R _) hadvance
  exact forall₂_advance hread hall

/-- The bodies that were read are those with an answer, and those for which one is due. -/
theorem run_answered {R : Bytes → Bytes → Prop} {as : List Action} {p : Process}
    (hrun : run step init as = some p)
    (hcomputes : Guarded step (OnLauncher (Launcher.Computes R)) init as)
    (hother : Guarded step (OnLauncher Launcher.FindsNoOther) init as) {c : Connection}
    {s : Session} (hs : p.sessions[c]? = some s) : ∃ answered waiting,
      triggers c as = answered ++ waiting ∧
      List.Forall₂ (IsReply R) answered s.jobReplies ∧ waiting.length = (p.due c).length := by
  have hdue := run_due hrun hcomputes hother c
  rw [held_eq hs] at hdue
  have hanswered := List.forall₂_take_append _ _ _ hdue
  have hwaiting := List.forall₂_drop_append _ _ _ hdue
  refine ⟨_, _, (List.take_append_drop _ _).symm, ?_, hwaiting.length_eq⟩
  exact (List.forall₂_map_right_iff (f := Due.reply)).mp hanswered

/-- The replies that the jobs of a connection have sent are, in order, results of the bodies of
triggers that were read from it, each of its own; one body at most has no answer yet, and none when
the handlers are done and no callback is outstanding. This holds in runs in which the headers of
jobs differ in key or salt and workers answer what they were given. -/
theorem triggers_answered {R : Bytes → Bytes → Prop} {as : List Action} {p : Process}
    (hrun : run step init as = some p)
    (hcomputes : Guarded step (OnLauncher (Launcher.Computes R)) init as)
    (hnodup : p.launcher.topics.Nodup) {c : Connection} {s : Session}
    (hs : p.sessions[c]? = some s) : ∃ answered waiting,
      triggers c as = answered ++ waiting ∧
      List.Forall₂ (IsReply R) answered s.jobReplies ∧ waiting.length ≤ 1 ∧
      (p.pending c = [] → (∀ code ∈ s.loop.handlers, code = []) → waiting = []) := by
  have hother := findsNoOther_of_run hrun hnodup
  have hone := run_oneReader hrun (hcomputes.mono fun p a h l hl => (h l hl).1) hother
  obtain ⟨answered, waiting, hsplit, hanswered, hwaiting⟩ := run_answered hrun hcomputes hother hs
  refine ⟨answered, waiting, hsplit, hanswered,
    hwaiting.trans_le (length_due_le_one hone (run_carried hrun) c), ?_⟩
  intro hpending hdone
  have hleft : s.left dueOf = [] := by
    rw [Session.left, List.flatMap_eq_nil_iff]
    intro code hcode
    rw [hdone code hcode]
    rfl
  have hnone : p.due c = [] := by
    rw [due, held_eq hs, hleft, awaited, hpending]
    rfl
  rw [hnone] at hwaiting
  exact List.length_eq_zero_iff.mp hwaiting

/-! ## Two triggers and a worker that answers both -/

theorem answeredRun_end :
    ((run step init (triggersRun 4 (callbackRun 0 2 ++ callbackRun 1 2))).map fun p =>
      (decide p.launcher.topics.Nodup, p.sessions[0]?.map fun s =>
        s.jobReplies.map fun pack => pack.data.buf)) = some (true, some [[90]]) := by
  decide +kernel

theorem answeredRun_computes :
    Guarded step (OnLauncher (Launcher.Computes fun _ result => result = [90])) init
      (triggersRun 4 (callbackRun 0 2 ++ callbackRun 1 2)) := by
  intro pre a post q has hq l hl
  refine ⟨triggersRun_answers (Or.inr rfl) pre a post q has hq l hl, ?_⟩
  rintro w j pack rfl worker given - -
  have hmem : a ∈ triggersRun 4 (callbackRun 0 2 ++ callbackRun 1 2) := by
    rw [has]
    simp
  subst hl
  simp only [triggersRun, triggersPosted, callbackRun, List.mem_append, List.mem_cons,
    List.mem_map, List.not_mem_nil, or_false, reduceCtorEq, false_or,
    exists_eq_or_imp, exists_eq_left, Action.launcher.injEq, Launcher.Action.respond.injEq] at hmem
  rcases hmem with ⟨-, -, rfl⟩ | ⟨-, -, rfl⟩ <;> rfl

theorem triggers_answered_differentSalts : ∃ p s answered waiting,
    run step init (triggersRun 4 (callbackRun 0 2 ++ callbackRun 1 2)) = some p ∧
    p.sessions[0]? = some s ∧ s.jobReplies.map (fun pack => pack.data.buf) = [[90]] ∧
    triggers 0 (triggersRun 4 (callbackRun 0 2 ++ callbackRun 1 2)) = answered ++ waiting ∧
    List.Forall₂ (IsReply fun _ result => result = [90]) answered s.jobReplies ∧
    waiting.length ≤ 1 := by
  obtain ⟨p, hp, hend⟩ := Option.map_eq_some_iff.mp answeredRun_end
  obtain ⟨hnodup, hclient⟩ := Prod.mk.inj hend
  obtain ⟨s, hs, hreplies⟩ := Option.map_eq_some_iff.mp hclient
  obtain ⟨answered, waiting, hsplit, hanswered, hwaiting, -⟩ :=
    triggers_answered hp answeredRun_computes (of_decide_eq_true hnodup) hs
  exact ⟨p, s, answered, waiting, hp, hs, hreplies, hsplit, hanswered, hwaiting⟩

end CppSerializer.Process
