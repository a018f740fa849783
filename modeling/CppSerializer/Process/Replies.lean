import CppSerializer.Process.Account
import CppSerializer.Process.Steps
import CppSerializer.Topics.Queues
import CppSerializer.Topics.Tasks

/-!
# Requests and control replies

The account of a connection, read off the process: what its reads and handlers, the tasks of its
puts and its writes hold. A step of the process is a step of the account of every connection
(`sound_step`), however handlers and tasks interleave.
-/

namespace CppSerializer.Process

open Pack Bucket ReadLoop TcpConnection Transition Shares

/-! ## The account of a connection -/

def itemOfRead : Read → List Item
  | .body request pack => [.awaits request pack.header]
  | .header | .trigger _ _ => []

def itemOfOp : Op → List Item
  | .startReadBody request pack => [.awaits request pack.header]
  | .effect request (.startStore pack) => [.stores request pack]
  | .effect request (.startWrite resp) => [.owes request resp]
  | _ => []

def itemOfTask (c : Connection) (task : Topics.Task) : List Item :=
  if task.self = c then
    if .pushMessage ∈ task.visible then [.stores task.request task.pack]
    else if .startWrite ∈ task.visible then [.acks task.request task.pack]
    else []
  else []

def itemOfWrite : Write → List Item
  | ⟨.control request, pack⟩ => [.replied request pack]
  | ⟨.listener, _⟩ | ⟨.job, _⟩ => []

def items (p : Process) (c : Connection) (s : Session) : List Item :=
  s.loop.reads.flatMap itemOfRead ++ (s.loop.handlers.flatMap fun code => code.flatMap itemOfOp) ++
    p.topics.tasks.flatMap (itemOfTask c) ++ s.writes.flatMap itemOfWrite

def account (p : Process) (c : Connection) (s : Session) : Account := ⟨s.requests, p.items c s⟩

/-- The payload of the request was pushed into the bucket of the topic. -/
def Stored (p : Process) (c : Connection) (request : Nat) (topic : Topic) (data : PacketData) :
    Prop :=
  ∃ r, ⟨r, c, request, data⟩ ∈ p.topics.log.pushed ∧ p.topics.Refers r topic

structure Accounted (p : Process) : Prop where
  isolated : p.topics.Isolated
  shaped : ∀ task ∈ p.topics.tasks, task.Shaped
  selves : ∀ task ∈ p.topics.tasks, ∃ s, p.sessions[task.self]? = some s
  sound : ∀ (c : Connection) (s : Session), p.sessions[c]? = some s →
    (p.account c s).Sound (p.Stored c)

/-! ## Steps of a connection -/

theorem items_headerCode (request : Nat) (h : PacketHeader) :
    (headerCode request ⟨h, ⟨[]⟩⟩).flatMap itemOfOp = itemOfHeader request h := by
  obtain ⟨type, key, datasize, sequence, randomSalt⟩ := h
  cases type <;> rfl

/-- A step of the reads and handlers of one connection. -/
theorem sound_setSession {p : Process} (hi : Accounted p) {c₀ : Connection} {s t : Session}
    (hs : p.sessions[c₀]? = some s)
    (hstep : Account.Step (p.Stored c₀) (p.account c₀ s) (p.account c₀ t)) (c : Connection)
    (s' : Session) (hs' : (p.setSession c₀ t).sessions[c]? = some s') :
    ((p.setSession c₀ t).account c s').Sound ((p.setSession c₀ t).Stored c) := by
  rw [getElem?_setSession p hs] at hs'
  split at hs'
  · rename_i hc
    subst hc
    cases hs'
    exact (hi.sound c₀ s hs).step (fun _ _ _ h => h) hstep
  · exact hi.sound c s' hs'

/-- A read goes, and its handler comes. -/
theorem perm_complete (p : Process) {c : Connection} {s : Session} {i : Nat} {r : Read}
    (hr : s.loop.reads[i]? = some r) (code : List Op) (buffer : Bytes) (requests : List Request) :
    ∃ rest, (p.items c s).Perm (itemOfRead r ++ rest) ∧ (p.items c { s with
      loop := {
        buffer := buffer
        reads := s.loop.reads.eraseIdx i
        handlers := s.loop.handlers ++ [code] }
      requests := requests }).Perm (code.flatMap itemOfOp ++ rest) := by
  have hreads := flatMap_perm (f := itemOfRead) hr
  refine ⟨(s.loop.reads.eraseIdx i).flatMap itemOfRead ++
    (s.loop.handlers.flatMap fun code => code.flatMap itemOfOp) ++
    p.topics.tasks.flatMap (itemOfTask c) ++ s.writes.flatMap itemOfWrite, ?_, ?_⟩
  · rw [List.perm_iff_count] at hreads ⊢
    intro x
    have hcount := hreads x
    simp only [items, List.count_append] at hcount ⊢
    omega
  · rw [List.perm_iff_count]
    intro x
    simp only [items, List.flatMap_append, List.flatMap_singleton, List.count_append]
    omega

theorem account_complete (p : Process) {c : Connection} {s : Session} {i : Nat} {r : Read}
    (hr : s.loop.reads[i]? = some r) (hsize : r.size ≤ s.loop.buffer.length) :
    Account.Step (p.Stored c) (p.account c s) (p.account c { s with
      loop := {
        buffer := s.loop.buffer.drop r.size
        reads := s.loop.reads.eraseIdx i
        handlers := s.loop.handlers ++ [r.got s.requests.length (s.loop.buffer.take r.size)] }
      requests := record s.requests r (s.loop.buffer.take r.size) }) := by
  have hlength : (s.loop.buffer.take r.size).length = r.size := List.length_take_of_le hsize
  obtain ⟨rest, hold, hnew⟩ := p.perm_complete (c := c) hr
    (r.got s.requests.length (s.loop.buffer.take r.size)) (s.loop.buffer.drop r.size)
    (record s.requests r (s.loop.buffer.take r.size))
  cases r with
  | header =>
    cases hparse : PacketHeader.parse (s.loop.buffer.take Read.header.size) 0 with
    | none =>
      simp only [record, Read.got, hparse] at hnew ⊢
      exact .keep _ (hnew.trans hold.symm)
    | some h =>
      simp only [record, Read.got, hparse, items_headerCode] at hnew ⊢
      exact .parsed h _ (hnew.trans (hold.symm.append_left _))
  | body n pack =>
    have hdata := parse_body hlength
    simp only [record, Read.got, hdata] at hnew ⊢
    exact .body n pack.header _ rest _ hold hnew
  | trigger n pack => exact .keep _ (hnew.trans hold.symm)

theorem account_fail (p : Process) {c : Connection} {s : Session} {i : Nat} {r : Read}
    (hr : s.loop.reads[i]? = some r) :
    Account.Step (p.Stored c) (p.account c s) (p.account c { s with
      loop := { s.loop with
        reads := s.loop.reads.eraseIdx i, handlers := s.loop.handlers ++ [[]] } }) := by
  obtain ⟨rest, hold, hnew⟩ := p.perm_complete (c := c) hr [] s.loop.buffer s.requests
  cases r with
  | body n pack => exact .lost n pack.header _ (hold.trans (hnew.symm.cons _))
  | header | trigger => exact .keep _ (hnew.trans hold.symm)

/-! ## Operations of handlers -/

theorem itemOfTask_startStore (c c' : Connection) (request : Nat) (pack : Packet) :
    itemOfTask c ⟨Bucket.startStore c' pack, request, none⟩ =
      if c' = c then [.stores request pack] else [] := rfl

theorem itemOfTask_startLoad (c c' : Connection) (request : Nat) (pack : Packet) :
    itemOfTask c ⟨Bucket.startLoad c' pack, request, none⟩ = [] := by
  unfold itemOfTask
  split <;> rfl

/-- What an operation makes of its item: it is handed on to a read or to a task, or it is a reply
that is written. -/
theorem items_performed (c : Connection) (t : Topics) (op : Op) : ∃ new,
    (posted c t op).tasks.flatMap (itemOfTask c) = t.tasks.flatMap (itemOfTask c) ++ new ∧
    (op.start.toList.flatMap itemOfRead ++ new ++ (written op).flatMap itemOfWrite = itemOfOp op ∨
      ∃ request resp, itemOfOp op = [.owes request resp] ∧
        op.start.toList.flatMap itemOfRead ++ new ++ (written op).flatMap itemOfWrite =
          [.replied request resp.sized]) := by
  cases op with
  | startReadHeader | startReadBody | startTrigger | callback =>
    exact ⟨[], (List.append_nil _).symm, Or.inl rfl⟩
  | effect request e =>
    cases e with
    | startWrite resp =>
      exact ⟨[], (List.append_nil _).symm, Or.inr ⟨request, resp, rfl, rfl⟩⟩
    | startStore pack =>
      refine ⟨[.stores request pack], ?_, Or.inl rfl⟩
      rw [posted, Topics.startStore, List.flatMap_append, List.flatMap_singleton,
        itemOfTask_startStore, if_pos rfl]
    | startLoad pack =>
      refine ⟨[], ?_, Or.inl rfl⟩
      rw [posted, Topics.startLoad, List.flatMap_append, List.flatMap_singleton,
        itemOfTask_startLoad]
    | parsed | startTriggerPost | addWorker | startJobs =>
      exact ⟨[], (List.append_nil _).symm, Or.inl rfl⟩

/-- The task that another connection posts is not for this one. -/
theorem items_posted_other {c c' : Connection} (hc : c' ≠ c) (t : Topics) (op : Op) :
    (posted c' t op).tasks.flatMap (itemOfTask c) = t.tasks.flatMap (itemOfTask c) := by
  cases op with
  | startReadHeader | startReadBody | startTrigger | callback => rfl
  | effect request e =>
    cases e with
    | startStore pack =>
      rw [posted, Topics.startStore, List.flatMap_append, List.flatMap_singleton,
        itemOfTask_startStore, if_neg hc, List.append_nil]
    | startLoad pack =>
      rw [posted, Topics.startLoad, List.flatMap_append, List.flatMap_singleton,
        itemOfTask_startLoad, List.append_nil]
    | _ => rfl

/-- The first operation of a handler goes, and what it starts, posts and writes comes. -/
theorem perm_performed {p q : Process} {c : Connection} {s : Session} {k : Nat} {op : Op}
    {ops : List Op} {new : List Item} (hcode : s.loop.handlers[k]? = some (op :: ops))
    (htasks : q.topics.tasks.flatMap (itemOfTask c) =
      p.topics.tasks.flatMap (itemOfTask c) ++ new) :
    ∃ rest, (p.items c s).Perm (itemOfOp op ++ rest) ∧ (q.items c (Session.performed { s with
      loop := { s.loop with
        reads := s.loop.reads ++ op.start.toList
        handlers := s.loop.handlers.set k ops } } op)).Perm
      (op.start.toList.flatMap itemOfRead ++ new ++ (written op).flatMap itemOfWrite ++ rest) := by
  have hold := flatMap_perm (f := fun code : List Op => code.flatMap itemOfOp) hcode
  have hset := flatMap_set_perm (f := fun code : List Op => code.flatMap itemOfOp) hcode ops
  refine ⟨s.loop.reads.flatMap itemOfRead ++
    ((s.loop.handlers.set k ops).flatMap fun code => code.flatMap itemOfOp) ++
    p.topics.tasks.flatMap (itemOfTask c) ++ s.writes.flatMap itemOfWrite, ?_, ?_⟩
  · rw [List.perm_iff_count] at hold hset ⊢
    intro x
    have hcount := hold x
    have hcount' := hset x
    simp only [items, List.flatMap_cons, List.count_append] at hcount hcount' ⊢
    omega
  · rw [List.perm_iff_count]
    intro x
    simp only [items, Session.performed, htasks, List.flatMap_append, List.count_append]
    omega

theorem account_performed {p q : Process} {c : Connection} {s : Session} {k : Nat} {op : Op}
    {ops : List Op} (hcode : s.loop.handlers[k]? = some (op :: ops))
    (htopics : q.topics = posted c p.topics op) :
    Account.Step (q.Stored c) (p.account c s) (q.account c (Session.performed { s with
      loop := { s.loop with
        reads := s.loop.reads ++ op.start.toList
        handlers := s.loop.handlers.set k ops } } op)) := by
  obtain ⟨new, htasks, hitems⟩ := items_performed c p.topics op
  rw [← htopics] at htasks
  obtain ⟨rest, hold, hnew⟩ := perm_performed (q := q) hcode htasks
  rcases hitems with hsame | ⟨request, resp, hitem, hreply⟩
  · rw [hsame] at hnew
    exact .keep _ (hnew.trans hold.symm)
  · rw [hitem] at hold
    rw [hreply] at hnew
    exact .reply request resp rest _ hold hnew

/-! ## Steps of tasks -/

theorem itemOfTask_congr {c : Connection} {task task' : Topics.Task}
    (hself : task'.self = task.self) (hpack : task'.pack = task.pack)
    (hrequest : task'.request = task.request)
    (hpush : .pushMessage ∈ task'.visible ↔ .pushMessage ∈ task.visible)
    (hwrite : .startWrite ∈ task'.visible ↔ .startWrite ∈ task.visible) :
    itemOfTask c task' = itemOfTask c task := by
  simp only [itemOfTask, hself, hpack, hrequest, hpush, hwrite]

theorem itemOfTask_stores {c : Connection} {task : Topics.Task} (hself : task.self = c)
    (hpush : .pushMessage ∈ task.visible) :
    itemOfTask c task = [.stores task.request task.pack] := by
  rw [itemOfTask, if_pos hself, if_pos hpush]

theorem itemOfTask_acks {c : Connection} {task : Topics.Task} (hself : task.self = c)
    (hpush : .pushMessage ∉ task.visible) (hwrite : .startWrite ∈ task.visible) :
    itemOfTask c task = [.acks task.request task.pack] := by
  rw [itemOfTask, if_pos hself, if_neg hpush, if_pos hwrite]

theorem itemOfTask_other {c : Connection} {task : Topics.Task} (hself : task.self ≠ c) :
    itemOfTask c task = [] := if_neg hself

theorem itemOfTask_done {c : Connection} {task : Topics.Task} (hdone : task.visible = []) :
    itemOfTask c task = [] := by
  rw [itemOfTask, hdone, if_neg List.not_mem_nil, if_neg List.not_mem_nil, ite_self]

/-- The item of a task goes, and what its operation makes of it comes. -/
theorem perm_task {p q : Process} {i : Nat} {before after : Topics.Task}
    (hbefore : p.topics.tasks[i]? = some before)
    (htasks : q.topics.tasks = p.topics.tasks.set i after) (c : Connection) (s : Session)
    (ws : List (Connection × Write)) :
    ∃ rest, (p.items c s).Perm (itemOfTask c before ++ rest) ∧
      (q.items c (s.wrote ws c)).Perm (itemOfTask c after ++
        ((ws.filter fun w => w.1 = c).map Prod.snd).flatMap itemOfWrite ++ rest) := by
  have hold := flatMap_perm (f := itemOfTask c) hbefore
  have hset := flatMap_set_perm (f := itemOfTask c) hbefore after
  refine ⟨s.loop.reads.flatMap itemOfRead ++
    (s.loop.handlers.flatMap fun code => code.flatMap itemOfOp) ++
    (p.topics.tasks.eraseIdx i).flatMap (itemOfTask c) ++ s.writes.flatMap itemOfWrite, ?_, ?_⟩
  · rw [List.perm_iff_count] at hold ⊢
    intro x
    have hcount := hold x
    simp only [items, List.count_append] at hcount ⊢
    omega
  · rw [List.perm_iff_count] at hset ⊢
    intro x
    have hcount := hset x
    simp only [items, htasks, Session.wrote, List.flatMap_append, List.count_append] at hcount ⊢
    omega

/-- A step that answers no request leaves the replies of the connection. -/
theorem replies_wrote_silent {out : List Topics.Output}
    (silent : ∀ o ∈ out, ∀ self request resp, o ≠ .reply self request resp) (s : Session)
    (c : Connection) : (s.wrote (out.filterMap writeOf) c).writes.flatMap itemOfWrite =
      s.writes.flatMap itemOfWrite := by
  have hnone : ∀ w ∈ out.filterMap writeOf, itemOfWrite w.2 = [] := by
    intro w hw
    obtain ⟨o, ho, hwo⟩ := List.mem_filterMap.mp hw
    cases o with
    | reply self request resp => exact absurd rfl (silent _ ho self request resp)
    | call listener pack =>
      cases hwo
      rfl
    | post body => cases hwo
  rw [Session.wrote, List.flatMap_append, List.flatMap_map]
  have hflat : ((out.filterMap writeOf).filter fun w => w.1 = c).flatMap
      (fun w => itemOfWrite w.2) = [] := by
    rw [List.flatMap_eq_nil_iff]
    intro w hw
    exact hnone w (List.mem_filter.mp hw).1
  rw [hflat, List.append_nil]

section Tasks

variable {p q : Process} {i : Nat} {task : Topics.Task}

/-- A task pushes the message of a put, and has to acknowledge it. -/
theorem account_push (hi : Accounted p) (hg : Topics.Grows p.topics q.topics)
    (before : p.topics.tasks[i]? = some (task.before .pushMessage)) {r : Topics.BucketRef}
    (found : task.found = some r) (tasks : q.topics.tasks = p.topics.tasks.set i task)
    (pushed : q.topics.log.pushed =
      p.topics.log.pushed ++ [⟨r, task.self, task.request, task.pack.data⟩])
    (c : Connection) (s : Session) :
    Account.Step (q.Stored c) (p.account c s) (q.account c (s.wrote [] c)) := by
  have hrest := ((hi.shaped _ (List.mem_of_getElem? before)).behind rfl).1 rfl
  obtain ⟨rest, hold, hnew⟩ := perm_task before tasks c s []
  by_cases hself : task.self = c
  · have hitem : itemOfTask c (task.before .pushMessage) = [.stores task.request task.pack] := by
      refine itemOfTask_stores (show (task.before .pushMessage).self = c from hself) ?_
      rw [task.visible_before rfl]
      exact List.mem_cons_self
    have hitem' : itemOfTask c task = [.acks task.request task.pack] := by
      apply itemOfTask_acks hself
      · simp [hrest]
      · simp [hrest]
    rw [hitem] at hold
    rw [hitem'] at hnew
    refine .push task.request task.pack rest _ hold hnew ?_
    have hrefers := (hi.isolated.tasks _ (List.mem_of_getElem? before)).found r found
    refine ⟨r, ?_, hrefers.mono hg⟩
    rw [pushed, hself]
    exact List.mem_append_right _ (List.mem_singleton_self _)
  · have hother : (task.before .pushMessage).self ≠ c := hself
    rw [itemOfTask_other hother] at hold
    rw [itemOfTask_other hself] at hnew
    exact .keep _ (hnew.trans hold.symm)

/-- A task writes the acknowledgement. -/
theorem account_ack (hi : Accounted p)
    (before : p.topics.tasks[i]? = some (task.before .startWrite))
    (tasks : q.topics.tasks = p.topics.tasks.set i task) (c : Connection) (s : Session) :
    Account.Step (q.Stored c) (p.account c s) (q.account c
      (s.wrote [(task.self, ⟨.control task.request, (response task.pack .ack).sized⟩)] c)) := by
  have hrest := ((hi.shaped _ (List.mem_of_getElem? before)).behind rfl).2 rfl
  obtain ⟨rest, hold, hnew⟩ := perm_task before tasks c s
    [(task.self, ⟨.control task.request, (response task.pack .ack).sized⟩)]
  by_cases hself : task.self = c
  · have hitem : itemOfTask c (task.before .startWrite) = [.acks task.request task.pack] := by
      refine itemOfTask_acks (show (task.before .startWrite).self = c from hself) ?_ ?_
      · rw [task.visible_before rfl, hrest]
        simp
      · rw [task.visible_before rfl]
        exact List.mem_cons_self
    rw [hitem] at hold
    rw [itemOfTask_done hrest, List.filter_cons_of_pos (by simpa using hself)] at hnew
    exact .ack task.request task.pack rest _ hold hnew
  · have hother : (task.before .startWrite).self ≠ c := hself
    rw [itemOfTask_other hother] at hold
    rw [itemOfTask_other hself, List.filter_cons_of_neg (by simpa using hself)] at hnew
    exact .keep _ (hnew.trans hold.symm)

end Tasks

/-- The account of a connection after a step of the topics, and what it has written. -/
theorem account_topics {p q : Process} {a : Topics.Action} (hown : topicsPost a = false)
    {out : List Topics.Output} (hi : Accounted p) (hg : Topics.Grows p.topics q.topics)
    (hmove : Topics.TaskMove p.topics q.topics a out) (c : Connection) (s : Session) :
    Account.Step (q.Stored c) (p.account c s)
      (q.account c (s.wrote (out.filterMap writeOf) c)) := by
  have hkeep : q.topics.tasks.flatMap (itemOfTask c) = p.topics.tasks.flatMap (itemOfTask c) →
      (s.wrote (out.filterMap writeOf) c).writes.flatMap itemOfWrite =
        s.writes.flatMap itemOfWrite →
      Account.Step (q.Stored c) (p.account c s)
        (q.account c (s.wrote (out.filterMap writeOf) c)) := by
    intro htasks hwrites
    refine .keep _ ?_
    rw [items, htasks, hwrites]
    exact List.Perm.refl _
  cases hmove with
  | put | get => cases hown
  | silent i op task task' before self pack request visible tasks =>
    apply hkeep
    · rw [tasks]
      apply flatMap_set_eq before
      exact itemOfTask_congr self pack request (by rw [visible]) (by rw [visible])
    · rw [List.filterMap_nil, s.wrote_nil]
  | use i op hop task before tasks =>
    apply hkeep
    · rw [tasks]
      apply flatMap_set_eq before
      have hvisible : op.visible = true := by rcases hop with rfl | rfl <;> rfl
      refine itemOfTask_congr (Eq.refl (task.before op).self) rfl rfl ?_ ?_
      · rw [task.visible_before hvisible, List.mem_cons]
        rcases hop with rfl | rfl <;> simp
      · rw [task.visible_before hvisible, List.mem_cons]
        rcases hop with rfl | rfl <;> simp
    · rw [List.filterMap_nil, s.wrote_nil]
  | strand _ _ silent tasks => exact hkeep (by rw [tasks]) (replies_wrote_silent silent s c)
  | push i task before r found tasks pushed =>
    exact account_push hi hg before found tasks pushed c s
  | write i task before tasks => exact account_ack hi before tasks c s

theorem account_callback {p q : Process} (htopics : q.topics = p.topics) (c : Connection)
    (s : Session) (owner : Prop) [Decidable owner] (resp : Packet) :
    q.account c (if owner then s.post (callbackCode resp) else s) = p.account c s := by
  split
  · simp [account, items, htopics, Session.post, callbackCode, itemOfOp]
  · rw [account, items, htopics]
    rfl

/-! ## Steps -/

/-- A connection that was just accepted has no account yet. -/
theorem account_accepted {p : Process} (hi : Accounted p) {c : Connection}
    (hc : p.sessions[c]? = none) : p.account c Session.accepted = ⟨[], []⟩ := by
  have htasks : p.topics.tasks.flatMap (itemOfTask c) = [] := by
    rw [List.flatMap_eq_nil_iff]
    intro task htask
    apply itemOfTask_other
    rintro rfl
    obtain ⟨s, hs⟩ := hi.selves task htask
    rw [hc] at hs
    cases hs
  simp [account, items, Session.accepted, Loop.listening, itemOfRead, htasks]

theorem sound_nil (stored : Nat → Topic → PacketData → Prop) :
    Account.Sound stored ⟨[], []⟩ := by
  refine ⟨List.nodup_nil, ?_, ?_⟩
  · intro item hitem
    cases hitem
  · intro n q resp hq
    cases hq

theorem Accounted.accept {p : Process} (hi : Accounted p) (c : Connection) (s : Session)
    (hs : (p.sessions ++ [Session.accepted])[c]? = some s) :
    (p.account c s).Sound (p.Stored c) := by
  by_cases hlt : c < p.sessions.length
  · rw [List.getElem?_append_left hlt] at hs
    exact hi.sound c s hs
  · have hnone : p.sessions[c]? = none := List.getElem?_eq_none_iff.mpr (Nat.le_of_not_lt hlt)
    rw [List.getElem?_append_right (Nat.le_of_not_lt hlt)] at hs
    obtain rfl := List.mem_singleton.mp (List.mem_of_getElem? hs)
    rw [account_accepted hi hnone]
    exact sound_nil _

/-- A step of the topics that are in the process. -/
theorem Accounted.topics {p q : Process} (hi : Accounted p) {a : Topics.Action}
    {out : List Topics.Output} (hstep : p.topics.step a = some (q.topics, out))
    (hselves : ∀ task ∈ q.topics.tasks, ∃ s, q.sessions[task.self]? = some s)
    (hsound : Topics.Grows p.topics q.topics → ∀ (c : Connection) (s : Session),
      q.sessions[c]? = some s → (q.account c s).Sound (q.Stored c)) : Accounted q :=
  ⟨hi.isolated.step hstep, Topics.Shaped.step hi.shaped hstep, hselves,
    hsound (Topics.grows_of_step (Topics.step_cases hstep))⟩

theorem stored_mono {p q : Process} (hg : Topics.Grows p.topics q.topics)
    (hpushed : ∀ push ∈ p.topics.log.pushed, push ∈ q.topics.log.pushed) {c : Connection}
    {n : Nat} {topic : Topic} {data : PacketData} (h : p.Stored c n topic data) :
    q.Stored c n topic data := by
  obtain ⟨r, hpush, hrefers⟩ := h
  exact ⟨r, hpushed _ hpush, hrefers.mono hg⟩

theorem pushed_of_move {t t' : Topics} {a : Topics.Action} {out : List Topics.Output}
    (h : Topics.TaskMove t t' a out) : ∀ push ∈ t.log.pushed, push ∈ t'.log.pushed := by
  intro push hpush
  cases h with
  | push i task before r found tasks pushed =>
    rw [pushed]
    exact List.mem_append_left _ hpush
  | put _ _ _ _ _ pushed | get _ _ _ _ pushed | silent _ _ _ _ _ _ _ _ _ _ pushed
  | use _ _ _ _ _ _ pushed | write _ _ _ _ pushed | strand _ _ _ _ pushed =>
    rw [pushed]
    exact hpush

/-- The connections of the tasks are there. -/
theorem selves_of_move {t t' : Topics} {a : Topics.Action} {out : List Topics.Output}
    (P : Connection → Prop) (h : Topics.TaskMove t t' a out) (hold : ∀ task ∈ t.tasks, P task.self)
    (hnew : ∀ c request header payload, a = .put c request header payload → P c)
    (hnew' : ∀ c request header, a = .get c request header → P c) :
    ∀ task ∈ t'.tasks, P task.self := by
  have hset : ∀ (i : Nat) (task task' : Topics.Task) (op : TaskOp),
      t.tasks[i]? = some (task.before op) → task'.self = task.self →
      ∀ x ∈ t.tasks.set i task', P x.self := by
    intro i task task' op hbefore hself x hx
    rcases List.mem_or_eq_of_mem_set hx with hx | rfl
    · exact hold x hx
    · have hbefore' := hold _ (List.mem_of_getElem? hbefore)
      rw [hself]
      exact hbefore'
  intro x hx
  cases h with
  | put self request header payload tasks =>
    rw [tasks] at hx
    rcases List.mem_append.mp hx with hx | hx
    · exact hold x hx
    · rw [List.mem_singleton.mp hx]
      exact hnew self request header payload rfl
  | get self request header tasks =>
    rw [tasks] at hx
    rcases List.mem_append.mp hx with hx | hx
    · exact hold x hx
    · rw [List.mem_singleton.mp hx]
      exact hnew' self request header rfl
  | silent i op task task' before self pack request visible tasks =>
    rw [tasks] at hx
    exact hset i task task' op before self x hx
  | use i op hop task before tasks =>
    rw [tasks] at hx
    exact hset i task task op before rfl x hx
  | push i task before r found tasks =>
    rw [tasks] at hx
    exact hset i task task _ before rfl x hx
  | write i task before tasks =>
    rw [tasks] at hx
    exact hset i task task _ before rfl x hx
  | strand _ _ _ tasks =>
    rw [tasks] at hx
    exact hold x hx

/-- A step of the process that leaves the topics as they are. -/
theorem Accounted.quiet {p q : Process} (hi : Accounted p) (htopics : q.topics = p.topics)
    (hthere : ∀ c : Connection, (∃ s, p.sessions[c]? = some s) → ∃ s, q.sessions[c]? = some s)
    (hsound : ∀ (c : Connection) (s : Session), q.sessions[c]? = some s →
      (q.account c s).Sound (q.Stored c)) : Accounted q := by
  refine ⟨htopics ▸ hi.isolated, htopics ▸ hi.shaped, ?_, hsound⟩
  intro task htask
  rw [htopics] at htask
  exact hthere _ (hi.selves task htask)

/-- What the operation of a handler leaves of the accounts. -/
theorem Accounted.performed {p q : Process} (hi : Accounted p) {c : Connection} {k : Nat}
    {randomSalt sequence : List.Vector UnitT 4} {s : Session} (hs : p.sessions[c]? = some s)
    {op : Op} {ops : List Op} (hcode : s.loop.handlers[k]? = some (op :: ops))
    (hperformed : Performed (p.setSession c { s with loop := { s.loop with
      reads := s.loop.reads ++ op.start.toList, handlers := s.loop.handlers.set k ops } }) q c
        randomSalt sequence op)
    (hstored : ∀ c' n topic data, p.Stored c' n topic data → q.Stored c' n topic data)
    (c' : Connection) (s' : Session) (hs' : q.sessions[c']? = some s') :
    (q.account c' s').Sound (q.Stored c') := by
  have htopics : q.topics = posted c p.topics op := hperformed.topics
  rw [hperformed.sessions, getElem?_setSession p hs] at hs'
  obtain ⟨s₁, hs₁, rfl⟩ := Option.map_eq_some_iff.mp hs'
  by_cases hc : c = c'
  · subst hc
    rw [if_pos rfl] at hs₁ ⊢
    cases hs₁
    exact (hi.sound c s hs).step (hstored c) (account_performed hcode htopics)
  · rw [if_neg hc] at hs₁ ⊢
    have haccount : q.account c' s₁ = p.account c' s₁ := by
      rw [account, items, htopics, items_posted_other hc]
      rfl
    rw [haccount]
    exact (hi.sound c' s₁ hs₁).mono (hstored c')

theorem Accounted.next {p q : Process} (hi : Accounted p) {c : Connection} {k : Nat}
    {randomSalt sequence : List.Vector UnitT 4} {s : Session} (hs : p.sessions[c]? = some s)
    {op : Op} {ops : List Op} (hcode : s.loop.handlers[k]? = some (op :: ops))
    (hperformed : Performed (p.setSession c { s with loop := { s.loop with
      reads := s.loop.reads ++ op.start.toList, handlers := s.loop.handlers.set k ops } }) q c
        randomSalt sequence op)
    (hthere : ∀ c' : Connection, (∃ s', p.sessions[c']? = some s') →
      ∃ s', q.sessions[c']? = some s') : Accounted q := by
  have htopics : q.topics = posted c p.topics op := hperformed.topics
  rcases posted_step c p.topics op with hsame | ⟨a, hstep, hput, hget⟩
  · refine hi.quiet (htopics.trans hsame) hthere (hi.performed hs hcode hperformed ?_)
    intro c' n topic data h
    rwa [Stored, htopics, hsame]
  · rw [← htopics] at hstep
    have hmove := Topics.taskMove hstep
    refine hi.topics hstep ?_ fun hg => hi.performed hs hcode hperformed fun c' n topic data h =>
      stored_mono hg (pushed_of_move hmove) h
    refine selves_of_move (fun c' => ∃ s', q.sessions[c']? = some s') hmove
      (fun task htask => hthere _ (hi.selves task htask)) ?_ ?_
    · intro c' request header payload ha
      rw [hput c' request header payload ha]
      exact hthere c ⟨s, hs⟩
    · intro c' request header ha
      rw [hget c' request header ha]
      exact hthere c ⟨s, hs⟩

theorem Accounted.step {p q : Process} {a : Action} (hi : Accounted p) (h : p.step a = some q) :
    Accounted q := by
  have hthere : ∀ c : Connection, (∃ s, p.sessions[c]? = some s) →
      ∃ s, q.sessions[c]? = some s := by
    rintro c ⟨s, hs⟩
    obtain ⟨t, ht, -⟩ := session_of_step h hs
    exact ⟨t, ht⟩
  cases step_cases h with
  | accept => exact hi.quiet rfl hthere hi.accept
  | arrive c chunk s found =>
    exact hi.quiet rfl hthere (sound_setSession hi found (.keep _ (List.Perm.refl _)))
  | complete c i s found r outstanding size =>
    exact hi.quiet rfl hthere (sound_setSession hi found (account_complete p outstanding size))
  | fail c i s found r outstanding =>
    exact hi.quiet rfl hthere (sound_setSession hi found (account_fail p outstanding))
  | next c k randomSalt sequence s found op ops code q performed =>
    exact hi.next found code performed hthere
  | topics a own t out step q wrote =>
    have htopics : q.topics = t := wrote.topics
    rw [← htopics] at step
    have hmove := Topics.taskMove step
    refine hi.topics step ?_ ?_
    · refine selves_of_move (fun c => ∃ s, q.sessions[c]? = some s) hmove
        (fun task htask => hthere _ (hi.selves task htask)) ?_ ?_
      · rintro c request header payload rfl
        cases own
      · rintro c request header rfl
        cases own
    · intro hg c s' hs'
      rw [wrote.sessions] at hs'
      obtain ⟨s, hs, rfl⟩ := Option.map_eq_some_iff.mp hs'
      exact (hi.sound c s hs).step (fun _ _ _ => stored_mono hg (pushed_of_move hmove))
        (account_topics own hi hg hmove c s)
  | launcher a own q step =>
    cases step with
    | silent l step completions => exact hi.quiet rfl hthere hi.sound
    | callback l step done strand completions =>
      obtain ⟨htopics, -, -⟩ := callback_topics { p with launcher := l } done
      refine hi.quiet htopics hthere ?_
      intro c s' hs'
      rw [getElem?_callback] at hs'
      obtain ⟨s, hs, rfl⟩ := Option.map_eq_some_iff.mp hs'
      have hsame := account_callback htopics c s (p.owners[done.callee]? = some c) done.pack
      rw [hsame]
      refine (hi.sound c s hs).mono ?_
      intro n topic data h
      rwa [Stored, htopics]

theorem run_accounted {as : List Action} {p : Process} (hrun : run step init as = some p) :
    Accounted p := by
  refine run_induction (P := fun _ p => Accounted p) ?_ ?_ as p hrun
  · have hempty : run Topics.next Topics.init [] = some Topics.init := rfl
    refine ⟨Topics.run_isolated hempty, ?_, ?_, ?_⟩
    · intro task htask
      cases htask
    · intro task htask
      cases htask
    · intro c s hs
      cases hs
  · intro _ p a q _ hi hstep
    exact hi.step hstep

/-! ## Control replies -/

/-- The control replies that the connection has started, each with the number of its request. -/
def Session.controls (s : Session) : List (Nat × Packet) :=
  s.writes.filterMap fun w =>
    match w.origin with
    | .control request => some (request, w.pack)
    | .listener | .job => none

/-- No handler of the connection and no task of a request of it is pending. -/
def Settled (p : Process) (c : Connection) (s : Session) : Prop :=
  (∀ code ∈ s.loop.handlers, code = []) ∧
    ∀ task ∈ p.topics.tasks, task.self = c → task.code = []

theorem items_controls (s : Session) :
    s.writes.flatMap itemOfWrite = s.controls.map fun r => .replied r.1 r.2 := by
  rw [Session.controls, List.map_filterMap]
  induction s.writes with
  | nil => rfl
  | cons w writes ih =>
    obtain ⟨origin, pack⟩ := w
    rw [List.flatMap_cons, List.filterMap_cons, ih]
    cases origin <;> rfl

theorem mem_items_of_controls {p : Process} {c : Connection} {s : Session} {n : Nat} {resp : Packet}
    (h : (n, resp) ∈ s.controls) : .replied n resp ∈ p.items c s := by
  rw [items, items_controls]
  exact List.mem_append_right _ (List.mem_map.mpr ⟨(n, resp), h, rfl⟩)

/-- When the connection is settled, what is left are bodies that are awaited and replies that
were written. -/
theorem items_of_settled {p : Process} {c : Connection} {s : Session} (hs : p.Settled c s)
    {item : Item} (hitem : item ∈ p.items c s) :
    (∃ n h, item = .awaits n h) ∨ ∃ n resp, item = .replied n resp ∧ (n, resp) ∈ s.controls := by
  rw [items, items_controls, List.mem_append, List.mem_append, List.mem_append] at hitem
  rcases hitem with ((hitem | hitem) | hitem) | hitem
  · obtain ⟨r, -, hitem⟩ := List.mem_flatMap.mp hitem
    cases r with
    | body n pack => exact Or.inl ⟨n, pack.header, List.mem_singleton.mp hitem⟩
    | header | trigger => cases hitem
  · obtain ⟨code, hcode, hitem⟩ := List.mem_flatMap.mp hitem
    rw [hs.1 code hcode] at hitem
    cases hitem
  · obtain ⟨task, htask, hitem⟩ := List.mem_flatMap.mp hitem
    by_cases hself : task.self = c
    · have hdone : task.visible = [] := by
        rw [Topics.Task.visible, hs.2 task htask hself]
        rfl
      rw [itemOfTask_done hdone] at hitem
      cases hitem
    · rw [itemOfTask_other hself] at hitem
      cases hitem
  · obtain ⟨r, hr, rfl⟩ := List.mem_map.mp hitem
    exact Or.inr ⟨r.1, r.2, rfl, hr⟩

/-! ## The queues -/

/-- The message that bucket `r` pops in the step. -/
def popped (r : Topics.BucketRef) (p : Process) : Action → List PacketData
  | .topics a => Topics.popped r p.topics a
  | .accept | .arrive _ _ | .complete _ _ | .fail _ _ | .next _ _ _ _ | .launcher _ => []

theorem posted_queue (c : Connection) (t : Topics) (op : Op) (r : Topics.BucketRef) :
    (posted c t op).queue r = t.queue r ∧ (posted c t op).pushesTo r = t.pushesTo r := by
  cases op with
  | effect request e => cases e <;> exact ⟨rfl, rfl⟩
  | callback | startReadHeader | startReadBody | startTrigger => exact ⟨rfl, rfl⟩

/-- What a bucket has popped and then what is in its queue is what was pushed into it. -/
theorem run_queue {as : List Action} {p : Process} (hrun : run step init as = some p)
    (r : Topics.BucketRef) :
    trace step (popped r) init as ++ p.topics.queue r = p.topics.pushesTo r := by
  refine run_induction (P := fun as p =>
    trace step (popped r) init as ++ p.topics.queue r = p.topics.pushesTo r) rfl ?_ as p hrun
  intro as p a q hp ih hq
  rw [trace_concat hp, List.append_assoc]
  have hquiet : popped r p a = [] → q.topics.queue r = p.topics.queue r →
      q.topics.pushesTo r = p.topics.pushesTo r →
      trace step (popped r) init as ++ (popped r p a ++ q.topics.queue r) =
        q.topics.pushesTo r := by
    intro hpopped hqueue hpushes
    rw [hpopped, hqueue, hpushes, List.nil_append]
    exact ih
  cases step_cases hq with
  | accept | arrive | complete | fail => exact hquiet rfl rfl rfl
  | next c k randomSalt sequence s found op ops code q performed =>
    have htopics : q.topics = posted c p.topics op := performed.topics
    obtain ⟨hqueue, hpushes⟩ := posted_queue c p.topics op r
    rw [← htopics] at hqueue hpushes
    exact hquiet rfl hqueue hpushes
  | topics a own t out step q wrote =>
    have htopics : q.topics = t := wrote.topics
    obtain ⟨new, hqueue, hpushes⟩ := Topics.queue_of_step step r
    rw [htopics, hpushes, ← ih, List.append_assoc]
    exact congrArg _ hqueue
  | launcher a own q step =>
    have htopics : q.topics = p.topics := by
      cases step with
      | silent l step completions => rfl
      | callback l step done strand completions => exact (callback_topics _ done).1
    exact hquiet rfl (congrArg (Topics.queue · r) htopics) (congrArg (Topics.pushesTo · r) htopics)

/-- On every connection the control replies that were started belong to different requests that
it has parsed; each is the reply that its request is due, and that of a put comes after its
payload was pushed into the bucket of its key and salt. When nothing of the connection is pending,
every request that is due a reply has got it. What was pushed into a bucket is what it has popped,
and then its queue. -/
theorem replies_match {as : List Action} {p : Process} (hrun : run step init as = some p)
    {c : Connection} {s : Session} (hs : p.sessions[c]? = some s) :
    (s.controls.map Prod.fst).Nodup ∧
    (∀ n resp, (n, resp) ∈ s.controls → ∃ q, s.requests[n]? = some q ∧ q.reply? = some resp ∧
      (q.header.type = .put → ∃ body r, q.body = some body ∧
        ⟨r, c, n, ⟨body⟩⟩ ∈ p.topics.log.pushed ∧
        p.topics.Refers r (q.header.key, q.header.randomSalt))) ∧
    (p.Settled c s → ∀ (n : Nat) (q : Request) (resp : Packet), s.requests[n]? = some q →
      q.reply? = some resp → (n, resp) ∈ s.controls) ∧
    ∀ r, trace step (popped r) init as ++ p.topics.queue r = p.topics.pushesTo r := by
  have hsound := (run_accounted hrun).sound c s hs
  have hfits : ∀ n resp, (n, resp) ∈ s.controls → ∃ q, s.requests[n]? = some q ∧
      q.reply? = some resp ∧ (q.header.type = .put →
        ∃ body, q.body = some body ∧ p.Stored c n q.header.topic ⟨body⟩) := by
    intro n resp h
    exact hsound.fits _ (mem_items_of_controls h)
  refine ⟨?_, ?_, ?_, run_queue hrun⟩
  · have hnodup := hsound.nodup
    change ((p.items c s).map Item.request).Nodup at hnodup
    rw [items, List.map_append, items_controls, List.map_map] at hnodup
    exact (List.nodup_append.mp hnodup).2.1
  · intro n resp h
    obtain ⟨q, hq, hreply, hput⟩ := hfits n resp h
    refine ⟨q, hq, hreply, fun htype => ?_⟩
    obtain ⟨body, hbody, r, hpushed, hrefers⟩ := hput htype
    exact ⟨body, r, hbody, hpushed, hrefers⟩
  · intro hsettled n q resp hq hreply
    obtain ⟨item, hitem, hn⟩ := List.mem_map.mp (hsound.due n q resp hq hreply)
    rcases items_of_settled hsettled hitem with ⟨n', h, rfl⟩ | ⟨n', resp', rfl, hcontrol⟩
    · -- a put whose body was not read is due nothing
      obtain ⟨hrequest, htype⟩ := hsound.fits _ hitem
      change n' = n at hn
      change s.requests[n']? = _ at hrequest
      rw [hn, hq] at hrequest
      cases hrequest
      rw [Request.reply?, htype] at hreply
      cases hreply
    · change n' = n at hn
      subst hn
      obtain ⟨q', hq', hreply', -⟩ := hfits n' resp' hcontrol
      rw [hq] at hq'
      cases hq'
      rw [hreply] at hreply'
      cases hreply'
      exact hcontrol

/-- A header with a payload of the given size. -/
def pipelinedHeader (type : MsgT) (sequence : UnitT) (datasize : Nat) : PacketHeader :=
  { type := type, key := List.Vector.replicate 32 7, datasize := BitVec.ofNat (8 * 4) datasize
    sequence := List.Vector.replicate 4 sequence, randomSalt := List.Vector.replicate 4 1 }

/-- A put, an ack and an err come in at once. The headers that follow the put are answered before
its task has run. -/
def pipelinedRun : List Action :=
  let draw := List.Vector.replicate 4 1
  [.accept,
    .arrive 0 ((pipelinedHeader .put 1 1).bytes ++ [65] ++ (pipelinedHeader .ack 2 0).bytes ++
      (pipelinedHeader .err 3 0).bytes),
    .complete 0 0, .next 0 0 draw draw, .complete 0 0, .next 0 1 draw draw, .next 0 1 draw draw,
    .complete 0 0, .next 0 2 draw draw, .next 0 2 draw draw,
    .complete 0 0, .next 0 3 draw draw, .next 0 3 draw draw,
    .topics (.task 0 .contains), .topics (.task 0 .emplace), .topics (.task 0 .at),
    .topics (.task 0 .pushMessage), .topics (.task 0 .startHandleEvents),
    .topics (.task 0 .startWrite)]

theorem pipelinedRun_end : ((run step init pipelinedRun).bind fun p =>
    p.sessions[0]?.map fun s => s.controls.map fun r => (r.1, r.2.header.type)) =
      some [(1, .ack), (2, .err), (0, .ack)] := by
  decide +kernel

theorem replies_match_pipelinedRun : ∃ p s, run step init pipelinedRun = some p ∧
    p.sessions[0]? = some s ∧
    s.controls.map (fun r => (r.1, r.2.header.type)) = [(1, .ack), (2, .err), (0, .ack)] ∧
    (s.controls.map Prod.fst).Nodup ∧
    (∀ n resp, (n, resp) ∈ s.controls → ∃ q, s.requests[n]? = some q ∧ q.reply? = some resp ∧
      (q.header.type = .put → ∃ body r, q.body = some body ∧
        ⟨r, 0, n, ⟨body⟩⟩ ∈ p.topics.log.pushed ∧
        p.topics.Refers r (q.header.key, q.header.randomSalt))) ∧
    (p.Settled 0 s → ∀ (n : Nat) (q : Request) (resp : Packet), s.requests[n]? = some q →
      q.reply? = some resp → (n, resp) ∈ s.controls) ∧
    ∀ r, trace step (popped r) init pipelinedRun ++ p.topics.queue r = p.topics.pushesTo r := by
  obtain ⟨p, hp, hend⟩ := Option.bind_eq_some_iff.mp pipelinedRun_end
  obtain ⟨s, hs, hcontrols⟩ := Option.map_eq_some_iff.mp hend
  exact ⟨p, s, hp, hs, hcontrols, replies_match hp hs⟩

end CppSerializer.Process
