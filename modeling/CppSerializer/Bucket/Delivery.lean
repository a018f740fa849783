import CppSerializer.Bucket.Log

/-!
# Delivery of messages

The bucket of a salt that is no trigger salt is a lossless queue: what was popped, followed
by what is still queued, is what was pushed, and a popped message is handed to every slot
connected at its emit, once each, and to at least one slot.

Only the running handler disconnects slots, so the slots that it has found connected at its
first test are still there at its last pop (`Delivered.busy`), however pushes and connects
interleave with it.
-/

namespace CppSerializer.Bucket

open Pack Transition

/-! ## The invariant -/

structure Delivered (s : State) : Prop where
  fresh : ∀ l ∈ s.bucket.listeners, l.slot < s.bucket.nextSlot
  nodup : s.bucket.listeners.Nodup
  busy : ∀ h, s.bucket.running = some h → h.next ≠ .listenerEmpty → s.bucket.listeners ≠ []
  owed : ∃ served, s.log.popped = served ++ s.owed ∧ served.length = s.log.emits.length
  past : ∀ c ∈ s.log.calls, c.emit < s.log.emits.length
  emits : ∀ k ls, s.log.emits[k]? = some ls → ls ≠ [] ∧
    ∃ m, s.log.popped[k]? = some m ∧ ∀ l, s.log.callsOf k l = if l ∈ ls then [m] else []

theorem delivered_init : Delivered State.init := by
  constructor <;> simp [State.init, Bucket.empty, Log.empty, Log.popped, State.owed]

/-! ## Tasks -/

theorem Delivered.task {s t : State} {op : TaskOp} {task : Task} {out : List Output}
    (hd : Delivered s) (hs : TaskStep s.bucket t.bucket op task out)
    (hlog : t.log = { s.log with
      pushed := s.log.pushed ++ if op = .pushMessage then [task.pack.data] else []
      connected := s.log.connected ++
        if op = .getConnect then [⟨s.bucket.nextSlot, task.self⟩] else [] }) :
    Delivered t := by
  have hpopped : t.log.popped = s.log.popped := by rw [hlog]; rfl
  have hemits : t.log.emits = s.log.emits := by rw [hlog]
  have hcalls : t.log.calls = s.log.calls := by rw [hlog]
  have howed : t.owed = s.owed := by rw [State.owed, hs.running]; rfl
  refine ⟨?_, ?_, ?_, ?_, ?_, ?_⟩
  · intro l hl
    rw [hs.listeners] at hl
    rw [hs.nextSlot]
    rcases List.mem_append.mp hl with hl | hl
    · exact Nat.lt_add_right _ (hd.fresh l hl)
    · by_cases hop : op = .getConnect
      · rw [if_pos hop, List.mem_singleton] at hl
        rw [if_pos hop, hl]
        exact Nat.lt_succ_self _
      · rw [if_neg hop] at hl
        cases hl
  · rw [hs.listeners]
    refine List.Nodup.append hd.nodup (by split <;> simp) ?_
    intro l hl hnew
    have hslot := hd.fresh l hl
    split at hnew
    · rw [List.mem_singleton.mp hnew] at hslot
      exact absurd hslot (Nat.lt_irrefl _)
    · cases hnew
  · intro h hrun hnext
    rw [hs.running] at hrun
    rw [hs.listeners]
    exact List.append_ne_nil_of_left_ne_nil (hd.busy h hrun hnext) _
  · rw [hpopped, howed, hemits]
    exact hd.owed
  · rw [hcalls, hemits]
    exact hd.past
  · intro k ls hk
    rw [hemits] at hk
    have hcallsOf : ∀ l, t.log.callsOf k l = s.log.callsOf k l := by
      intro l
      rw [Log.callsOf, hcalls, Log.callsOf]
    simp only [hcallsOf, hpopped]
    exact hd.emits k ls hk

/-! ## Handlers -/

/-- A step of the strand that pops nothing, calls nobody and removes no slot. -/
theorem Delivered.quiet {s t : State} (hd : Delivered s)
    (hlisteners : t.bucket.listeners = s.bucket.listeners)
    (hslot : t.bucket.nextSlot = s.bucket.nextSlot) (hlog : t.log = s.log)
    (howed : t.owed = s.owed)
    (hbusy : ∀ h, t.bucket.running = some h → h.next ≠ .listenerEmpty →
      t.bucket.listeners ≠ []) : Delivered t := by
  refine ⟨?_, ?_, hbusy, ?_, ?_, ?_⟩
  · rw [hlisteners, hslot]
    exact hd.fresh
  · rw [hlisteners]
    exact hd.nodup
  · rw [hlog, howed]
    exact hd.owed
  · rw [hlog]
    exact hd.past
  · rw [hlog]
    exact hd.emits

theorem callsOf_append_emit (log : Log) (resp : Packet) {ls : List Listener} (hls : ls.Nodup)
    (hpast : ∀ c ∈ log.calls, c.emit < log.emits.length) (k : Nat) (l : Listener) :
    ((log.calls ++ (emit resp ls).1.filterMap (Output.call? log.emits.length)).filter
      fun c => c.emit = k ∧ c.listener = l).map (fun c => c.pack.data) =
      if k = log.emits.length then (if l ∈ ls then [resp.data] else []) else log.callsOf k l := by
  have hnew : (((emit resp ls).1.filterMap (Output.call? log.emits.length)).filter
      fun c => c.emit = k ∧ c.listener = l).map (fun c => c.pack.data) =
      if k = log.emits.length then (if l ∈ ls then [resp.data] else []) else [] := by
    -- the calls seen as triples are those of `emit_listener_data`
    have htriple := congrArg (fun cs => (cs.filter fun x : Nat × Listener × PacketData =>
      x.1 = k ∧ x.2.1 = l).map fun x => x.2.2) (emit_listener_data log.emits.length resp ls)
    simp only [List.filter_map, List.map_map] at htriple
    refine htriple.trans ?_
    by_cases hk : k = log.emits.length
    · subst hk
      have hfilter := List.filter_eq (l := ls) l
      rw [hls.count] at hfilter
      simp only [Function.comp_def, true_and, hfilter, if_true]
      by_cases hl : l ∈ ls
      · simp [hl]
      · simp [hl]
    · have hk' : log.emits.length ≠ k := fun he => hk he.symm
      simp [Function.comp_def, hk, hk']
  rw [List.filter_append, List.map_append, hnew]
  by_cases hk : k = log.emits.length
  · have hold : log.calls.filter (fun c => c.emit = k ∧ c.listener = l) = [] := by
      refine List.filter_eq_nil_iff.mpr ?_
      intro c hc
      have := hpast c hc
      simp only [decide_eq_true_eq, not_and]
      omega
    rw [hold, if_pos hk, if_pos hk, List.map_nil, List.nil_append]
  · rw [if_neg hk, if_neg hk, List.append_nil]
    rfl

theorem Delivered.emit {s t : State} {h : Handler} (hd : Delivered s)
    (hrun : s.bucket.running = some h) (hnext : h.next = .emit)
    (hb : t.bucket = { s.bucket with
      running := some { h with
        resp := (Bucket.emit h.resp s.bucket.listeners).2, next := .tryPop } })
    (hlog : t.log = { s.log with
      emits := s.log.emits ++ [s.bucket.listeners]
      calls := s.log.calls ++ (Bucket.emit h.resp s.bucket.listeners).1.filterMap
        (Output.call? s.log.emits.length) }) : Delivered t := by
  have hlisteners : s.bucket.listeners ≠ [] := hd.busy h hrun (by rw [hnext]; decide)
  have howed : s.owed = [h.resp.data] := by rw [State.owed, hrun]; simp [hnext]
  have howed' : t.owed = [] := by rw [State.owed, hb]; simp
  have hpopped : t.log.popped = s.log.popped := by rw [hlog]; rfl
  have hemits : t.log.emits = s.log.emits ++ [s.bucket.listeners] := by rw [hlog]
  have hcallsOf : ∀ k l, t.log.callsOf k l = if k = s.log.emits.length then
      (if l ∈ s.bucket.listeners then [h.resp.data] else []) else s.log.callsOf k l := by
    intro k l
    rw [Log.callsOf, hlog]
    exact callsOf_append_emit s.log h.resp hd.nodup hd.past k l
  obtain ⟨served, hserved, hlen⟩ := hd.owed
  rw [howed] at hserved
  refine ⟨?_, ?_, ?_, ?_, ?_, ?_⟩
  · rw [hb]
    exact hd.fresh
  · rw [hb]
    exact hd.nodup
  · intro _ _ _
    rw [hb]
    exact hlisteners
  · refine ⟨s.log.popped, by rw [hpopped, howed', List.append_nil], ?_⟩
    rw [hserved, hemits, List.length_append, List.length_append, hlen]
    rfl
  · intro c hc
    rw [hemits, List.length_append]
    rw [hlog] at hc
    rcases List.mem_append.mp hc with hc | hc
    · exact Nat.lt_add_right _ (hd.past c hc)
    · rw [(mem_calls_of_emit hc).1]
      exact Nat.lt_succ_self _
  · intro k ls hk
    rw [hemits] at hk
    rw [hpopped]
    simp only [hcallsOf]
    by_cases hlast : k = s.log.emits.length
    · subst hlast
      rw [List.getElem?_concat_length] at hk
      cases hk
      refine ⟨hlisteners, h.resp.data, ?_, fun l => by rw [if_pos rfl]⟩
      rw [hserved, ← hlen]
      exact List.getElem?_concat_length
    · have hlt : k < s.log.emits.length := by
        have := List.getElem?_eq_some_iff.mp hk
        obtain ⟨hlt, -⟩ := this
        rw [List.length_append, List.length_singleton] at hlt
        omega
      rw [List.getElem?_append_left hlt] at hk
      simp only [if_neg hlast]
      exact hd.emits k ls hk

theorem Delivered.tryPop {s t : State} {h : Handler} {m : PacketData} {queue : List PacketData}
    (hd : Delivered s) (hrun : s.bucket.running = some h) (hnext : h.next = .tryPop)
    (hb : t.bucket = { s.bucket with
      messageQueue := queue
      running := some { h with resp := { h.resp with data := m }, next := .emit } })
    (hlog : t.log = { s.log with pops := s.log.pops ++ [⟨m, h.key⟩] }) : Delivered t := by
  have hlisteners : s.bucket.listeners ≠ [] := hd.busy h hrun (by rw [hnext]; decide)
  have howed : s.owed = [] := by rw [State.owed, hrun]; simp [hnext]
  have howed' : t.owed = [m] := by rw [State.owed, hb]; simp
  have hpopped : t.log.popped = s.log.popped ++ [m] := by rw [hlog]; simp [Log.popped]
  obtain ⟨served, hserved, hlen⟩ := hd.owed
  rw [howed, List.append_nil] at hserved
  refine ⟨?_, ?_, ?_, ?_, ?_, ?_⟩
  · rw [hb]
    exact hd.fresh
  · rw [hb]
    exact hd.nodup
  · intro _ _ _
    rw [hb]
    exact hlisteners
  · refine ⟨s.log.popped, by rw [hpopped, howed'], ?_⟩
    rw [hserved, hlen, hlog]
  · rw [hlog]
    exact hd.past
  · intro k ls hk
    rw [hlog] at hk
    obtain ⟨hls, m', hm', hcalls⟩ := hd.emits k ls hk
    refine ⟨hls, m', ?_, ?_⟩
    · rw [hpopped, List.getElem?_append_left (List.getElem?_eq_some_iff.mp hm').1]
      exact hm'
    · rw [hlog]
      exact hcalls

theorem owed_eq_nil {s : State} (h : ∀ h, s.bucket.running = some h → h.next ≠ .emit) :
    s.owed = [] := by
  unfold State.owed
  split
  · rename_i handler hrun
    exact if_neg (h handler hrun)
  · rfl

/-- A handler that is not about to emit ends, or passes on to another such step while there are
listeners. -/
theorem Delivered.passes {s t : State} {h : Handler} {after : Option Handler} (hd : Delivered s)
    (hrun : s.bucket.running = some h) (hnext : h.next ≠ .emit)
    (hb : t.bucket = { s.bucket with running := after }) (hlog : t.log = s.log)
    (hafter : ∀ h', after = some h' → h'.next ≠ .emit ∧ s.bucket.listeners ≠ []) :
    Delivered t := by
  have hbefore : s.owed = [] := owed_eq_nil fun h' hrun' => by
    rw [hrun] at hrun'
    cases hrun'
    exact hnext
  have hrunning : t.bucket.running = after := by rw [hb]
  have howed : t.owed = [] := owed_eq_nil fun h' hrun' => (hafter h' (hrunning ▸ hrun')).1
  refine hd.quiet (by rw [hb]) (by rw [hb]) hlog (howed.trans hbefore.symm) ?_
  intro h' hrun' _
  rw [hb]
  exact (hafter h' (hrunning ▸ hrun')).2

theorem Delivered.handler {s t : State} {h : Handler} {op : HandlerOp} {out : List Output}
    (hd : Delivered s) (hrun : s.bucket.running = some h) (hnext : h.next = op)
    (hbranch : ¬ op.IsTrigger) (hstep : s.bucket.handle h op = (t.bucket, out))
    (hlog : t.log = s.log.record s.bucket out (.handler op)) : Delivered t := by
  cases op with
  | triggerPop | startTriggerPost => exact absurd trivial hbranch
  | listenerEmpty =>
    have hnotEmit : h.next ≠ .emit := by rw [hnext]; decide
    rw [handle] at hstep
    split at hstep
    · obtain ⟨hb, -⟩ := Prod.mk.inj hstep
      exact hd.passes hrun hnotEmit hb.symm hlog (by simp)
    · rename_i hne
      obtain ⟨hb, -⟩ := Prod.mk.inj hstep
      refine hd.passes hrun hnotEmit hb.symm hlog ?_
      rintro _ ⟨⟩
      exact ⟨by simp, hne⟩
  | queueEmpty =>
    have hnotEmit : h.next ≠ .emit := by rw [hnext]; decide
    rw [handle] at hstep
    split at hstep
    · obtain ⟨hb, -⟩ := Prod.mk.inj hstep
      exact hd.passes hrun hnotEmit hb.symm hlog (by simp)
    · obtain ⟨hb, -⟩ := Prod.mk.inj hstep
      refine hd.passes hrun hnotEmit hb.symm hlog ?_
      rintro _ ⟨⟩
      exact ⟨by simp, hd.busy h hrun (by rw [hnext]; decide)⟩
  | tryPop =>
    rw [handle] at hstep
    split at hstep
    · rename_i m queue hqueue
      obtain ⟨hb, -⟩ := Prod.mk.inj hstep
      refine hd.tryPop hrun hnext hb.symm ?_
      rw [hlog, Log.record, hqueue, hrun]
      rfl
    · rename_i hqueue
      obtain ⟨hb, -⟩ := Prod.mk.inj hstep
      have hlog' : t.log = s.log := by
        rw [hlog, Log.record, hqueue]
        simp
      refine hd.passes hrun (by rw [hnext]; decide) hb.symm hlog' ?_
      rintro _ ⟨⟩
      exact ⟨by simp, hd.busy h hrun (by rw [hnext]; decide)⟩
  | emit =>
    obtain ⟨hb, hout⟩ := Prod.mk.inj hstep
    refine hd.emit hrun hnext hb.symm ?_
    rw [hlog, Log.record, ← hout]
  | disconnectAllSlots =>
    obtain ⟨hb, -⟩ := Prod.mk.inj hstep
    have hafter : t.bucket.running = none := by rw [← hb]
    have hbefore : s.owed = [] := owed_eq_nil fun h' hrun' => by
      rw [hrun] at hrun'
      cases hrun'
      rw [hnext]
      decide
    have howed' : t.owed = s.owed := by
      rw [hbefore, State.owed, hafter]
    have hlog' : t.log = s.log := hlog
    refine ⟨by rw [← hb]; simp, by rw [← hb]; simp, ?_, ?_, ?_, ?_⟩
    · intro h' hrun'
      rw [hafter] at hrun'
      cases hrun'
    · rw [hlog', howed']
      exact hd.owed
    · rw [hlog']
      exact hd.past
    · rw [hlog']
      exact hd.emits

/-! ## Runs -/

theorem Delivered.step {topic : Topic} (hsalt : ¬ IsTriggerTopic topic) {s t : State} {a : Action}
    (hr : Routed topic s.bucket) (hd : Delivered s) (h : s.step topic a = some t) :
    Delivered t := by
  obtain ⟨out, hb, hlog⟩ := State.step_some h
  cases step_cases hb with
  | post _ ha task _ _ hnew =>
    rw [Log.record_post _ _ _ ha] at hlog
    exact hd.quiet (by rw [hnew]; rfl) (by rw [hnew]; rfl) hlog
      (by rw [State.owed, hnew]; rfl) (by rw [hnew]; exact hd.busy)
  | task i op _ self pack code htask hperform =>
    rw [Log.record_task htask] at hlog
    exact hd.task (perform_spec hperform) hlog
  | begin i key hidle hkey hnew =>
    have hstart := Handler.start_of_not_trigger (hr.posted key (List.mem_of_getElem? hkey)) hsalt
    have hafter : t.bucket.running = some (Handler.start key) := by rw [hnew]
    refine hd.quiet (by rw [hnew]) (by rw [hnew]) hlog ?_ ?_
    · rw [State.owed, hafter, State.owed, hidle]
      simp [hstart]
    · intro h' hrun' hne
      rw [hafter] at hrun'
      cases hrun'
      exact absurd hstart hne
  | handler op handler _ hrun hop hstep =>
    refine hd.handler hrun hop ?_ hstep hlog
    rw [← hop, hr.running handler hrun]
    exact hsalt

theorem run_routed {topic : Topic} {as : List Action} {s : State}
    (hrun : run (State.step topic) State.init as = some s) : Routed topic s.bucket := by
  refine run_induction (P := fun _ s => Routed topic s.bucket) (routed_empty topic) ?_ as s hrun
  intro _ s a t _ hr ht
  obtain ⟨out, hb, -⟩ := State.step_some ht
  exact hr.step hb

theorem run_delivered {topic : Topic} (hsalt : ¬ IsTriggerTopic topic) {as : List Action}
    {s : State} (hrun : run (State.step topic) State.init as = some s) : Delivered s := by
  refine run_induction (P := fun _ s => Delivered s) delivered_init ?_ as s hrun
  intro as s a t hs hd ht
  exact hd.step hsalt (run_routed hs) ht

/-- A bucket loses, duplicates and reorders nothing. In every run, the messages popped and
then those in the queue are the messages pushed; every popped message but one that waits
for its emit has been handed, as it was pushed, exactly once to each of the slots connected
at its emit, of which there was one at least. -/
theorem bucket_delivers {topic : Topic} (hsalt : ¬ IsTriggerTopic topic) {as : List Action}
    {s : State} (hrun : run (State.step topic) State.init as = some s) :
    s.log.popped ++ s.bucket.messageQueue = s.log.pushed ∧
    s.log.popped.length = s.log.emits.length + s.owed.length ∧
    ∀ k ls, s.log.emits[k]? = some ls → ls ≠ [] ∧
      ∃ m, s.log.popped[k]? = some m ∧ ∀ l, s.log.callsOf k l = if l ∈ ls then [m] else [] := by
  have hd := run_delivered hsalt hrun
  refine ⟨run_fifo hrun, ?_, hd.emits⟩
  obtain ⟨served, hserved, hlen⟩ := hd.owed
  rw [hserved, List.length_append, hlen]

/-! ## A put and a get that meet -/

def deliveryTopic : Topic := (List.Vector.replicate 32 7, List.Vector.replicate 4 1)

def requestHeader (topic : Topic) (type : MsgT) : PacketHeader :=
  { type := type, key := topic.1, datasize := 0, sequence := List.Vector.replicate 4 9
    randomSalt := topic.2 }

/-- The get connects between the push and the handler of the put, which delivers. -/
def deliveryRun : List Action :=
  [.put 0 (requestHeader deliveryTopic .put) [65, 66], .task 0 .contains, .task 0 .emplace,
    .task 0 .at, .task 0 .pushMessage, .get 1 (requestHeader deliveryTopic .get),
    .task 1 .contains, .task 1 .at, .task 1 .getConnect, .task 0 .startHandleEvents, .begin 0,
    .handler .listenerEmpty, .handler .queueEmpty, .handler .tryPop, .handler .emit]

theorem bucket_delivers_deliveryRun :
    ∃ s, run (State.step deliveryTopic) State.init deliveryRun = some s ∧
      s.log.popped ++ s.bucket.messageQueue = s.log.pushed ∧
      s.log.popped.length = s.log.emits.length + s.owed.length ∧
      ∀ k ls, s.log.emits[k]? = some ls → ls ≠ [] ∧
        ∃ m, s.log.popped[k]? = some m ∧ ∀ l, s.log.callsOf k l = if l ∈ ls then [m] else [] := by
  have hrun : (run (State.step deliveryTopic) State.init deliveryRun).isSome := by
    decide +kernel
  obtain ⟨s, hs⟩ := Option.isSome_iff_exists.mp hrun
  have hsalt : ¬ IsTriggerTopic deliveryTopic := by
    unfold IsTriggerTopic
    decide
  exact ⟨s, hs, bucket_delivers hsalt hs⟩

end CppSerializer.Bucket
