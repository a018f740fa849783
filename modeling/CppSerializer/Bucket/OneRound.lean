import CppSerializer.Bucket.Model
import CppSerializer.Library.OnlyLeft

/-!
# A bucket that sees one put and one get

One client puts under a topic, waits for the ack, and gets with the same topic; nobody else
uses it. `Progress` is what such a bucket goes through and `Advance` how it may go on: the
message is stored, the put is acknowledged, the get connects its slot, a handler pops the
message, and emits it. Which of the two posted handlers that is, and how its steps interleave
with those of the tasks, is left open. `Holds.step` says that every step of the bucket is a
step of `Advance` or changes nothing of it, and `Holds.stuck` that a bucket without enabled
steps has nothing left to answer.
-/

namespace CppSerializer.Bucket

open Pack

/-! ## What the tasks have left to do -/

def Task.left (task : Task) : List (Connection × Packet × TaskOp) :=
  (task.code.filter TaskOp.visible).map fun op => (task.self, task.pack, op)

/-- The visible steps that are left in the bucket are `ops`, all of one task. -/
def Left (b : Bucket) (self : Connection) (pack : Packet) (ops : List TaskOp) : Prop :=
  OnlyLeft Task.left b.tasks (ops.map fun op => (self, pack, op))

theorem Left.post {b : Bucket} {self self' : Connection} {pack pack' : Packet}
    (h : Left b self pack []) (code : List TaskOp) :
    Left (b.post ⟨self', pack', code⟩) self' pack' (code.filter TaskOp.visible) :=
  h.concat ⟨self', pack', code⟩

/-- What a task step does when `ops` are left and afterwards `ops'`. -/
inductive LeftStep (b b' : Bucket) (self : Connection) (pack : Packet) :
    List TaskOp → List TaskOp → List Output → Prop
  | silent (ops : List TaskOp) (messageQueue : b'.messageQueue = b.messageQueue)
      (listeners : b'.listeners = b.listeners) (posted : b'.posted = b.posted)
      (running : b'.running = b.running) : LeftStep b b' self pack ops ops []
  | perform (op : TaskOp) (ops : List TaskOp) (out : List Output)
      (spec : TaskStep b b' op ⟨self, pack, ops⟩ out) : LeftStep b b' self pack (op :: ops) ops out

theorem TaskStep.silent {b b' : Bucket} {op : TaskOp} {task : Task} {out : List Output}
    (hs : TaskStep b b' op task out) (hop : op.visible = false) (self : Connection)
    (pack : Packet) (ops : List TaskOp) : LeftStep b b' self pack ops ops out := by
  have hne : ∀ op', op'.visible = true → op ≠ op' := by
    rintro _ hop' rfl
    rw [hop] at hop'
    cases hop'
  have hout : out = [] := by rw [hs.out, if_neg (hne _ rfl)]
  subst hout
  refine .silent ops ?_ ?_ ?_ hs.running
  · rw [hs.messageQueue, if_neg (hne _ rfl), List.append_nil]
  · rw [hs.listeners, if_neg (hne _ rfl), List.append_nil]
  · rw [hs.posted, if_neg (hne _ rfl), List.append_nil]

/-- A step of a task is not visible, or it is the first of those that are left. -/
theorem Left.step {b b' : Bucket} {self : Connection} {pack : Packet} {ops : List TaskOp}
    {i : Nat} {op : TaskOp} {out : List Output} (hleft : Left b self pack ops)
    (h : b.stepTask i op = some (b', out)) :
    ∃ ops', Left b' self pack ops' ∧ LeftStep b b' self pack ops ops' out := by
  obtain ⟨self', pack', code, htask, hperform⟩ := stepTask_some h
  obtain ⟨code', htasks, hcode'⟩ := perform_tasks hperform
  have hspec := perform_spec hperform
  have hsame : Task.left ⟨self', pack', code'⟩ = Task.left ⟨self', pack', code⟩ := by
    simp only [Task.left, hcode']
  unfold Left
  rw [htasks]
  cases hop : op.visible with
  | false =>
    refine ⟨ops, hleft.keep htask ?_, hspec.silent hop self pack ops⟩
    rw [hsame]
    simp only [Task.left, List.filter_cons, hop, Bool.false_eq_true, if_false]
  | true =>
    have hfirst : Task.left ⟨self', pack', op :: code⟩ =
        (self', pack', op) :: Task.left ⟨self', pack', code⟩ := by
      simp only [Task.left, List.filter_cons, hop, if_true, List.map_cons]
    obtain ⟨hall, hset⟩ := hleft.set htask (by rw [hfirst]; exact List.cons_ne_nil _ _)
    rw [hfirst] at hall
    cases ops with
    | nil => cases hall
    | cons op' rest =>
      obtain ⟨hhead, htail⟩ := List.cons.inj hall
      cases hhead
      refine ⟨rest, ?_, .perform op rest out ⟨hspec.messageQueue, hspec.listeners,
        hspec.nextSlot, hspec.posted, hspec.running, hspec.tasks, hspec.out⟩⟩
      rw [← htail, ← hsame]
      exact hset _

/-! ## The progress of the bucket -/

/-- What the bucket of a round goes through. -/
inductive Progress
  | storing
  | stored
  | loading
  | connected
  | popped
  | delivered
  deriving DecidableEq

/-- The header of the packet is that of an ack of the topic. -/
def IsAck (topic : Topic) (pack : Packet) : Prop :=
  pack.header.type = .ack ∧ pack.header.topic = topic

section

variable (topic : Topic) (c : Connection) (put get : Packet)

/-- One step of the round: the put is acknowledged, the slot is connected, the message is
popped and delivered. -/
inductive Advance : Progress → Progress → List Output → Prop
  | stay (p : Progress) : Advance p p []
  | acknowledge : Advance .storing .stored [.write c (response put .ack)]
  | connect : Advance .loading .connected []
  | pop : Advance .connected .popped []
  | deliver (slot : Nat) (resp : Packet) (hack : IsAck topic resp) (hdata : resp.data = put.data) :
      Advance .popped .delivered [.call ⟨slot, c⟩ resp]

/-- There is no listener, so that no handler gets beyond its first test. -/
structure Unheard (b : Bucket) : Prop where
  listeners : b.listeners = []
  running : ∀ h, b.running = some h → h.next = .listenerEmpty ∧ IsAck topic h.resp

structure Storing (b : Bucket) : Prop extends Unheard topic b where
  left :
    Left b c put [.pushMessage, .startHandleEvents, .startWrite] ∧ b.messageQueue = [] ∨
    Left b c put [.startHandleEvents, .startWrite] ∧ b.messageQueue = [put.data] ∨
    Left b c put [.startWrite] ∧ b.messageQueue = [put.data]

structure Stored (b : Bucket) : Prop extends Unheard topic b where
  left : Left b c put []
  messageQueue : b.messageQueue = [put.data]

structure Loading (b : Bucket) : Prop extends Unheard topic b where
  left : Left b c get [.getConnect, .startHandleEvents]
  messageQueue : b.messageQueue = [put.data]

/-- The slot of the client is connected, and a handler that will call it is at work or
still to come. -/
structure Connected (b : Bucket) : Prop where
  left : Left b c get [.startHandleEvents] ∨ Left b c get [] ∧ (b.posted ≠ [] ∨ b.running ≠ none)
  messageQueue : b.messageQueue = [put.data]
  listeners : ∃ slot, b.listeners = [⟨slot, c⟩]
  running : ∀ h, b.running = some h →
    (h.next = .listenerEmpty ∨ h.next = .queueEmpty ∨ h.next = .tryPop) ∧ IsAck topic h.resp

/-- The running handler holds the message. -/
structure Popped (b : Bucket) : Prop where
  left : Left b c get [.startHandleEvents] ∨ Left b c get []
  messageQueue : b.messageQueue = []
  listeners : ∃ slot, b.listeners = [⟨slot, c⟩]
  running : ∃ h, b.running = some h ∧ h.next = .emit ∧ IsAck topic h.resp ∧ h.resp.data = put.data

/-- The message is gone, so that handlers have nothing to emit. -/
structure Served (b : Bucket) : Prop where
  left : Left b c get [.startHandleEvents] ∨ Left b c get []
  messageQueue : b.messageQueue = []
  running : ∀ h, b.running = some h → h.next ≠ .emit

/-- The bucket has come that far. -/
inductive Holds : Progress → Bucket → Prop
  | storing (b : Bucket) (h : Storing topic c put b) : Holds .storing b
  | stored (b : Bucket) (h : Stored topic c put b) : Holds .stored b
  | loading (b : Bucket) (h : Loading topic c put get b) : Holds .loading b
  | connected (b : Bucket) (h : Connected topic c put get b) : Holds .connected b
  | popped (b : Bucket) (h : Popped topic c put get b) : Holds .popped b
  | delivered (b : Bucket) (h : Served c get b) : Holds .delivered b

end

variable {topic : Topic} {c : Connection} {put get : Packet} {b b' : Bucket} {out : List Output}

theorem unheard_empty (topic : Topic) : Unheard topic empty := ⟨rfl, by simp [empty]⟩

/-- The first step of a round: the task of the put is posted. -/
theorem storing_post (c : Connection) (put : Packet) :
    Storing topic c put (empty.post (startStore c put)) := by
  have hempty : Left empty c put [] := OnlyLeft.nil_iff.mpr (by simp [empty])
  exact ⟨⟨rfl, (unheard_empty topic).running⟩, Or.inl ⟨hempty.post _, rfl⟩⟩

theorem Stored.post (h : Stored topic c put b) (get : Packet) :
    Loading topic c put get (b.post (startLoad c get)) :=
  ⟨⟨h.listeners, h.running⟩, h.left.post _, h.messageQueue⟩

/-! ## Steps of tasks -/

theorem Unheard.of_eq (h : Unheard topic b) (hlisteners : b'.listeners = b.listeners)
    (hrunning : b'.running = b.running) : Unheard topic b' :=
  ⟨hlisteners ▸ h.listeners, hrunning ▸ h.running⟩

theorem Storing.task {i : Nat} {op : TaskOp} (h : Storing topic c put b)
    (hstep : b.stepTask i op = some (b', out)) :
    Storing topic c put b' ∧ out = [] ∨
      Stored topic c put b' ∧ out = [.write c (response put .ack)] := by
  rcases h.left with ⟨hleft, hqueue⟩ | ⟨hleft, hqueue⟩ | ⟨hleft, hqueue⟩
  · obtain ⟨_, hleft', hs⟩ := hleft.step hstep
    cases hs with
    | silent _ hqueue' hlisteners _ hrunning =>
      exact Or.inl ⟨⟨h.toUnheard.of_eq hlisteners hrunning,
        Or.inl ⟨hleft', hqueue'.trans hqueue⟩⟩, rfl⟩
    | perform _ _ _ hs =>
      have hqueue' : b'.messageQueue = [put.data] := by simpa [hqueue] using hs.messageQueue
      exact Or.inl ⟨⟨h.toUnheard.of_eq (by simpa using hs.listeners) hs.running,
        Or.inr (Or.inl ⟨hleft', hqueue'⟩)⟩, by simpa using hs.out⟩
  · obtain ⟨_, hleft', hs⟩ := hleft.step hstep
    cases hs with
    | silent _ hqueue' hlisteners _ hrunning =>
      exact Or.inl ⟨⟨h.toUnheard.of_eq hlisteners hrunning,
        Or.inr (Or.inl ⟨hleft', hqueue'.trans hqueue⟩)⟩, rfl⟩
    | perform _ _ _ hs =>
      have hqueue' : b'.messageQueue = [put.data] := by simpa [hqueue] using hs.messageQueue
      exact Or.inl ⟨⟨h.toUnheard.of_eq (by simpa using hs.listeners) hs.running,
        Or.inr (Or.inr ⟨hleft', hqueue'⟩)⟩, by simpa using hs.out⟩
  · obtain ⟨_, hleft', hs⟩ := hleft.step hstep
    cases hs with
    | silent _ hqueue' hlisteners _ hrunning =>
      exact Or.inl ⟨⟨h.toUnheard.of_eq hlisteners hrunning,
        Or.inr (Or.inr ⟨hleft', hqueue'.trans hqueue⟩)⟩, rfl⟩
    | perform _ _ _ hs =>
      have hqueue' : b'.messageQueue = [put.data] := by simpa [hqueue] using hs.messageQueue
      exact Or.inr ⟨⟨h.toUnheard.of_eq (by simpa using hs.listeners) hs.running, hleft', hqueue'⟩,
        by simpa using hs.out⟩

theorem Stored.task {i : Nat} {op : TaskOp} (h : Stored topic c put b)
    (hstep : b.stepTask i op = some (b', out)) : Stored topic c put b' ∧ out = [] := by
  obtain ⟨_, hleft', hs⟩ := h.left.step hstep
  cases hs with
  | silent _ hqueue hlisteners _ hrunning =>
    exact ⟨⟨h.toUnheard.of_eq hlisteners hrunning, hleft', hqueue.trans h.messageQueue⟩, rfl⟩

theorem Loading.task {i : Nat} {op : TaskOp} (h : Loading topic c put get b)
    (hstep : b.stepTask i op = some (b', out)) :
    (Loading topic c put get b' ∨ Connected topic c put get b') ∧ out = [] := by
  obtain ⟨_, hleft', hs⟩ := h.left.step hstep
  cases hs with
  | silent _ hqueue hlisteners _ hrunning =>
    exact ⟨Or.inl ⟨h.toUnheard.of_eq hlisteners hrunning, hleft', hqueue.trans h.messageQueue⟩, rfl⟩
  | perform _ _ _ hs =>
    have hqueue : b'.messageQueue = [put.data] := by
      simpa [h.messageQueue] using hs.messageQueue
    have hlisteners : b'.listeners = [⟨b.nextSlot, c⟩] := by
      simpa [h.listeners] using hs.listeners
    refine ⟨Or.inr ⟨Or.inl hleft', hqueue, ⟨_, hlisteners⟩, ?_⟩, by simpa using hs.out⟩
    intro handler hrun
    obtain ⟨hnext, hack⟩ := h.running handler (hs.running ▸ hrun)
    exact ⟨Or.inl hnext, hack⟩

theorem Connected.task {i : Nat} {op : TaskOp} (h : Connected topic c put get b)
    (hstep : b.stepTask i op = some (b', out)) :
    Connected topic c put get b' ∧ out = [] := by
  obtain ⟨slot, hslot⟩ := h.listeners
  rcases h.left with hleft | ⟨hleft, hwoken⟩
  · obtain ⟨_, hleft', hs⟩ := hleft.step hstep
    cases hs with
    | silent _ hqueue hlisteners _ hrunning =>
      exact ⟨⟨Or.inl hleft', hqueue.trans h.messageQueue, ⟨slot, hlisteners.trans hslot⟩,
        hrunning ▸ h.running⟩, rfl⟩
    | perform _ _ _ hs =>
      have hposted : b'.posted ≠ [] := by simp [hs.posted]
      have hqueue : b'.messageQueue = [put.data] := by
        simpa [h.messageQueue] using hs.messageQueue
      have hlisteners : b'.listeners = [⟨slot, c⟩] := by simpa [hslot] using hs.listeners
      exact ⟨⟨Or.inr ⟨hleft', Or.inl hposted⟩, hqueue, ⟨slot, hlisteners⟩,
        hs.running ▸ h.running⟩, by simpa using hs.out⟩
  · obtain ⟨_, hleft', hs⟩ := hleft.step hstep
    cases hs with
    | silent _ hqueue hlisteners hposted hrunning =>
      exact ⟨⟨Or.inr ⟨hleft', by rwa [hposted, hrunning]⟩, hqueue.trans h.messageQueue,
        ⟨slot, hlisteners.trans hslot⟩, hrunning ▸ h.running⟩, rfl⟩

/-- After the message is popped, a step of the task of the get changes nothing that matters. -/
theorem task_after_pop {i : Nat} {op : TaskOp}
    (hleft : Left b c get [.startHandleEvents] ∨ Left b c get [])
    (hstep : b.stepTask i op = some (b', out)) :
    (Left b' c get [.startHandleEvents] ∨ Left b' c get []) ∧
      b'.messageQueue = b.messageQueue ∧ b'.listeners = b.listeners ∧ b'.running = b.running ∧
      out = [] := by
  rcases hleft with hleft | hleft
  · obtain ⟨_, hleft', hs⟩ := hleft.step hstep
    cases hs with
    | silent _ hqueue hlisteners _ hrunning =>
      exact ⟨Or.inl hleft', hqueue, hlisteners, hrunning, rfl⟩
    | perform _ _ _ hs =>
      exact ⟨Or.inr hleft', by simpa using hs.messageQueue, by simpa using hs.listeners,
        hs.running, by simpa using hs.out⟩
  · obtain ⟨_, hleft', hs⟩ := hleft.step hstep
    cases hs with
    | silent _ hqueue hlisteners _ hrunning =>
      exact ⟨Or.inr hleft', hqueue, hlisteners, hrunning, rfl⟩

/-- A step of a task advances the round or leaves it where it is. -/
theorem Holds.task {p : Progress} {i : Nat} {op : TaskOp} (h : Holds topic c put get p b)
    (hstep : b.stepTask i op = some (b', out)) :
    ∃ p', Holds topic c put get p' b' ∧ Advance topic c put p p' out := by
  cases h with
  | storing _ h =>
    rcases h.task hstep with ⟨h', rfl⟩ | ⟨h', rfl⟩
    · exact ⟨_, .storing _ h', .stay _⟩
    · exact ⟨_, .stored _ h', .acknowledge⟩
  | stored _ h =>
    obtain ⟨h', rfl⟩ := h.task hstep
    exact ⟨_, .stored _ h', .stay _⟩
  | loading _ h =>
    obtain ⟨h' | h', rfl⟩ := h.task hstep
    · exact ⟨_, .loading _ h', .stay _⟩
    · exact ⟨_, .connected _ h', .connect⟩
  | connected _ h =>
    obtain ⟨h', rfl⟩ := h.task hstep
    exact ⟨_, .connected _ h', .stay _⟩
  | popped _ h =>
    obtain ⟨hleft, hqueue, hlisteners, hrunning, rfl⟩ := task_after_pop h.left hstep
    exact ⟨_, .popped _ ⟨hleft, hqueue.trans h.messageQueue, hlisteners ▸ h.listeners,
      hrunning ▸ h.running⟩, .stay _⟩
  | delivered _ h =>
    obtain ⟨hleft, hqueue, -, hrunning, rfl⟩ := task_after_pop h.left hstep
    exact ⟨_, .delivered _ ⟨hleft, hqueue.trans h.messageQueue, hrunning ▸ h.running⟩, .stay _⟩

/-! ## Steps of handlers -/

theorem isAck_response {key : Packet} (hkey : key.header.topic = topic) :
    IsAck topic (response key .ack) := ⟨rfl, hkey⟩

/-- A handler begins with the test of the listeners. -/
theorem Holds.begin {p : Progress} {i : Nat} (htopic : ¬ IsTriggerTopic topic)
    (hr : Routed topic b) (h : Holds topic c put get p b) (hstep : b.begin i = some b') :
    Holds topic c put get p b' := by
  obtain ⟨hidle, key, hkey, rfl⟩ := begin_some hstep
  have htopicKey := hr.posted key (List.mem_of_getElem? hkey)
  have hnext := Handler.start_of_not_trigger htopicKey htopic
  have hack : IsAck topic (Handler.start key).resp := isAck_response htopicKey
  have hrunning : ∀ handler, some (Handler.start key) = some handler →
      handler.next = .listenerEmpty ∧ IsAck topic handler.resp := by
    rintro _ ⟨⟩
    exact ⟨hnext, hack⟩
  cases h with
  | storing _ h => exact .storing _ ⟨⟨h.listeners, hrunning⟩, h.left⟩
  | stored _ h => exact .stored _ ⟨⟨h.listeners, hrunning⟩, h.left, h.messageQueue⟩
  | loading _ h => exact .loading _ ⟨⟨h.listeners, hrunning⟩, h.left, h.messageQueue⟩
  | connected _ h =>
    refine .connected _ ⟨?_, h.messageQueue, h.listeners, ?_⟩
    · rcases h.left with hleft | ⟨hleft, -⟩
      · exact Or.inl hleft
      · exact Or.inr ⟨hleft, Or.inr (by simp)⟩
    · intro handler hrun
      exact ⟨Or.inl (hrunning handler hrun).1, (hrunning handler hrun).2⟩
  | popped _ h =>
    obtain ⟨handler, hrun, -⟩ := h.running
    rw [hidle] at hrun
    cases hrun
  | delivered _ h =>
    refine .delivered _ ⟨h.left, h.messageQueue, ?_⟩
    intro handler hrun
    rw [(hrunning handler hrun).1]
    simp

theorem Unheard.handler {h : Handler} {op : HandlerOp} (hu : Unheard topic b)
    (hrun : b.running = some h) (hop : h.next = op) :
    b.handle h op = ({ b with running := none }, []) := by
  obtain ⟨hnext, -⟩ := hu.running h hrun
  rw [← hop, hnext, handle, if_pos hu.listeners]

/-- With the slot connected and the message in the queue, a handler gets through its two tests
and pops the message. -/
theorem Connected.handler {h : Handler} {op : HandlerOp} (hc : Connected topic c put get b)
    (hrun : b.running = some h) (hop : h.next = op) (hstep : b.handle h op = (b', out)) :
    (Connected topic c put get b' ∨ Popped topic c put get b') ∧ out = [] := by
  subst hop
  obtain ⟨slot, hslot⟩ := hc.listeners
  obtain ⟨hnext, hack⟩ := hc.running h hrun
  have hleft : Left b c get [.startHandleEvents] ∨ Left b c get [] := hc.left.imp_right And.left
  -- a handler that goes on keeps the get from being forgotten
  have hgoesOn : ∀ h' : Handler,
      (h'.next = .listenerEmpty ∨ h'.next = .queueEmpty ∨ h'.next = .tryPop) ∧
        IsAck topic h'.resp →
      Connected topic c put get { b with running := some h' } := by
    intro h' hh'
    refine ⟨hleft.imp_right fun hleft => ⟨hleft, Or.inr (by simp)⟩, hc.messageQueue,
      hc.listeners, ?_⟩
    rintro _ ⟨⟩
    exact hh'
  rcases hnext with hnext | hnext | hnext
  · rw [hnext, handle, if_neg (by simp [hslot])] at hstep
    cases hstep
    exact ⟨Or.inl (hgoesOn _ ⟨Or.inr (Or.inl rfl), hack⟩), rfl⟩
  · rw [hnext, handle, if_neg (by simp [hc.messageQueue])] at hstep
    cases hstep
    exact ⟨Or.inl (hgoesOn _ ⟨Or.inr (Or.inr rfl), hack⟩), rfl⟩
  · simp only [hnext, handle, hc.messageQueue] at hstep
    cases hstep
    exact ⟨Or.inr ⟨hleft, rfl, hc.listeners, _, rfl, rfl, hack, rfl⟩, rfl⟩

/-- The handler that holds the message calls the one slot. -/
theorem Popped.handler {h : Handler} {op : HandlerOp} (hp : Popped topic c put get b)
    (hrun : b.running = some h) (hop : h.next = op) (hstep : b.handle h op = (b', out)) :
    Served c get b' ∧ ∃ slot resp, IsAck topic resp ∧ resp.data = put.data ∧
      out = [.call ⟨slot, c⟩ resp] := by
  subst hop
  obtain ⟨slot, hslot⟩ := hp.listeners
  obtain ⟨h', hrun', hnext, hack, hdata⟩ := hp.running
  rw [hrun] at hrun'
  cases hrun'
  rw [hnext, handle, hslot] at hstep
  cases hstep
  refine ⟨⟨hp.left, hp.messageQueue, ?_⟩, slot, h.resp, hack, hdata, rfl⟩
  rintro _ ⟨⟩
  simp

/-- Without a message no handler gets to `emit` again. -/
theorem Served.handler {h : Handler} {op : HandlerOp} (htopic : ¬ IsTriggerTopic topic)
    (hr : Routed topic b) (hd : Served c get b) (hrun : b.running = some h)
    (hop : h.next = op) (hstep : b.handle h op = (b', out)) : Served c get b' ∧ out = [] := by
  subst hop
  have hnotEmit := hd.running h hrun
  have hnotTrigger := mt (hr.running h hrun).mp htopic
  cases hnext : h.next with
  | triggerPop | startTriggerPost =>
    rw [hnext] at hnotTrigger
    exact absurd trivial hnotTrigger
  | emit => exact absurd hnext hnotEmit
  | listenerEmpty =>
    rw [hnext, handle] at hstep
    split at hstep
    · cases hstep
      exact ⟨⟨hd.left, hd.messageQueue, by simp⟩, rfl⟩
    · cases hstep
      exact ⟨⟨hd.left, hd.messageQueue, by simp⟩, rfl⟩
  | queueEmpty =>
    rw [hnext, handle, if_pos hd.messageQueue] at hstep
    cases hstep
    exact ⟨⟨hd.left, hd.messageQueue, by simp⟩, rfl⟩
  | tryPop =>
    simp only [hnext, handle, hd.messageQueue] at hstep
    cases hstep
    exact ⟨⟨hd.left, rfl, by simp⟩, rfl⟩
  | disconnectAllSlots =>
    rw [hnext] at hstep
    cases hstep
    exact ⟨⟨hd.left, hd.messageQueue, by simp⟩, rfl⟩

/-- A step of a handler advances the round or leaves it where it is. -/
theorem Holds.handler {p : Progress} {op : HandlerOp} (htopic : ¬ IsTriggerTopic topic)
    (hr : Routed topic b) (h : Holds topic c put get p b)
    (hstep : b.stepHandler op = some (b', out)) :
    ∃ p', Holds topic c put get p' b' ∧ Advance topic c put p p' out := by
  obtain ⟨handler, hrun, hop, hhandle⟩ := stepHandler_some hstep
  have hends : ∀ hu : Unheard topic b, b' = { b with running := none } ∧ out = [] ∧
      Unheard topic b' := by
    intro hu
    rw [hu.handler hrun hop] at hhandle
    cases hhandle
    exact ⟨rfl, rfl, hu.listeners, by simp⟩
  cases h with
  | storing _ h =>
    obtain ⟨rfl, rfl, hu⟩ := hends h.toUnheard
    exact ⟨_, .storing _ ⟨hu, h.left⟩, .stay _⟩
  | stored _ h =>
    obtain ⟨rfl, rfl, hu⟩ := hends h.toUnheard
    exact ⟨_, .stored _ ⟨hu, h.left, h.messageQueue⟩, .stay _⟩
  | loading _ h =>
    obtain ⟨rfl, rfl, hu⟩ := hends h.toUnheard
    exact ⟨_, .loading _ ⟨hu, h.left, h.messageQueue⟩, .stay _⟩
  | connected _ h =>
    obtain ⟨h' | h', rfl⟩ := h.handler hrun hop hhandle
    · exact ⟨_, .connected _ h', .stay _⟩
    · exact ⟨_, .popped _ h', .pop⟩
  | popped _ h =>
    obtain ⟨h', slot, resp, hack, hdata, rfl⟩ := h.handler hrun hop hhandle
    exact ⟨_, .delivered _ h', .deliver slot resp hack hdata⟩
  | delivered _ h =>
    obtain ⟨h', rfl⟩ := h.handler htopic hr hrun hop hhandle
    exact ⟨_, .delivered _ h', .stay _⟩

/-- Every step of tasks and handlers is a step of the round, or changes nothing of it. -/
theorem Holds.step {p : Progress} {a : Action} (htopic : ¬ IsTriggerTopic topic)
    (hr : Routed topic b) (h : Holds topic c put get p b) (ha : ¬ a.IsPost)
    (hstep : b.step topic a = some (b', out)) :
    ∃ p', Holds topic c put get p' b' ∧ Advance topic c put p p' out := by
  cases a with
  | put self header payload => exact absurd trivial ha
  | get self header => exact absurd trivial ha
  | task i op => exact h.task hstep
  | begin i =>
    obtain ⟨b₁, hb, he⟩ := Option.map_eq_some_iff.mp hstep
    cases he
    exact ⟨p, h.begin htopic hr hb, .stay p⟩
  | handler op => exact h.handler htopic hr hstep

/-! ## Buckets without enabled steps -/

/-- The code calls `at` before it has looked for the entry. -/
def NeedsEntry : List TaskOp → Prop
  | [] => False
  | .at :: _ => True
  | .contains :: _ | .emplace :: _ => False
  | .pushMessage :: code | .getConnect :: code | .startHandleEvents :: code
  | .startWrite :: code => NeedsEntry code

/-- `at` finds an entry. -/
def Supplied (b : Bucket) : Prop := ∀ task ∈ b.tasks, NeedsEntry task.code → b.contained = true

theorem supplied_empty : Supplied empty := by
  simp [Supplied, empty]

theorem handle_contained (b : Bucket) (h : Handler) (op : HandlerOp) :
    (b.handle h op).1.contained = b.contained := by
  cases op with
  | triggerPop | tryPop | listenerEmpty | queueEmpty =>
    simp only [handle]
    split <;> rfl
  | _ => rfl

theorem Supplied.set {i : Nat} {task : Task} (hs : Supplied b)
    (htask : NeedsEntry task.code → b.contained = true) :
    ∀ t ∈ b.tasks.set i task, NeedsEntry t.code → b.contained = true := by
  intro t ht
  rcases List.mem_or_eq_of_mem_set ht with ht | rfl
  · exact hs t ht
  · exact htask

theorem Supplied.task {i : Nat} {op : TaskOp} {self : Connection} {pack : Packet}
    {code : List TaskOp} (hs : Supplied b) (htask : b.tasks[i]? = some ⟨self, pack, op :: code⟩)
    (hperform : b.perform i ⟨self, pack, code⟩ op = some (b', out)) : Supplied b' := by
  have hcode : NeedsEntry (op :: code) → b.contained = true :=
    hs _ (List.mem_of_getElem? htask)
  cases op with
  | contains =>
    cases hperform
    refine hs.set ?_
    split
    · exact fun _ => ‹_›
    · exact False.elim
  | emplace =>
    cases hperform
    exact fun _ _ _ => rfl
  | «at» =>
    rw [perform, if_pos (hcode trivial)] at hperform
    cases hperform
    exact hs.set fun _ => hcode trivial
  | pushMessage | getConnect | startHandleEvents | startWrite =>
    cases hperform
    exact hs.set hcode

theorem Supplied.step {a : Action} (hs : Supplied b) (hstep : b.step topic a = some (b', out)) :
    Supplied b' := by
  cases step_cases hstep with
  | post _ _ task _ hcode hafter =>
    rw [hafter]
    intro t ht
    rcases List.mem_append.mp ht with ht | ht
    · exact hs t ht
    · rw [List.mem_singleton.mp ht]
      obtain ⟨code, hcode⟩ := List.head?_eq_some_iff.mp hcode
      rw [hcode]
      exact False.elim
  | task i op _ self pack code htask hperform => exact hs.task htask hperform
  | begin i key _ _ hafter =>
    rw [hafter]
    exact hs
  | handler op handler _ _ _ hhandle =>
    have htasks := (handle_tasks_posted b handler op).1
    have hcontained := handle_contained b handler op
    simp only [hhandle] at htasks hcontained
    rwa [Supplied, htasks, hcontained]

/-- No task and no handler can perform a step. -/
def Stuck (topic : Topic) (b : Bucket) : Prop := ∀ a, ¬ a.IsPost → b.step topic a = none

theorem empty_stuck (topic : Topic) : Stuck topic empty := by
  intro a ha
  cases a with
  | put self header payload => exact absurd trivial ha
  | get self header => exact absurd trivial ha
  | task i op | begin i | handler op => rfl

/-- A task that has something left can perform it. -/
theorem Stuck.left_eq_nil {self : Connection} {pack : Packet} {ops : List TaskOp}
    (hstuck : Stuck topic b) (hs : Supplied b) (hleft : Left b self pack ops) : ops = [] := by
  by_contra hne
  obtain ⟨i, ⟨self', pack', code⟩, htask, hall⟩ :=
    hleft.exists_entry (mt List.map_eq_nil_iff.mp hne)
  cases code with
  | nil => exact hne (List.map_eq_nil_iff.mp hall.symm)
  | cons op code =>
    have hnone : b.stepTask i op = none := hstuck (.task i op) id
    simp only [stepTask, htask, if_true] at hnone
    cases op with
    | «at» =>
      rw [perform, if_pos (hs _ (List.mem_of_getElem? htask) trivial)] at hnone
      cases hnone
    | _ => cases hnone

theorem Stuck.running_eq_none (hstuck : Stuck topic b) : b.running = none := by
  cases hrun : b.running with
  | none => rfl
  | some h =>
    have hnone : b.stepHandler h.next = none := hstuck (.handler h.next) id
    rw [stepHandler_of_running hrun rfl] at hnone
    cases hnone

theorem Stuck.posted_eq_nil (hstuck : Stuck topic b) : b.posted = [] := by
  cases hposted : b.posted with
  | nil => rfl
  | cons key posted =>
    have hnone : (b.begin 0).map (fun b => (b, ([] : List Output))) = none := hstuck (.begin 0) id
    simp only [begin, hstuck.running_eq_none, hposted, List.getElem?_cons_zero] at hnone
    cases hnone

/-- A bucket without enabled steps has acknowledged the put, and delivered the message if the
get has come. -/
theorem Holds.stuck {p : Progress} (h : Holds topic c put get p b) (hs : Supplied b)
    (hstuck : Stuck topic b) : p = .stored ∨ p = .delivered := by
  cases h with
  | storing _ h =>
    rcases h.left with ⟨hleft, -⟩ | ⟨hleft, -⟩ | ⟨hleft, -⟩
    all_goals exact absurd (hstuck.left_eq_nil hs hleft) (List.cons_ne_nil _ _)
  | stored _ h => exact Or.inl rfl
  | loading _ h => exact absurd (hstuck.left_eq_nil hs h.left) (List.cons_ne_nil _ _)
  | connected _ h =>
    rcases h.left with hleft | ⟨-, hposted | hrunning⟩
    · exact absurd (hstuck.left_eq_nil hs hleft) (List.cons_ne_nil _ _)
    · exact absurd hstuck.posted_eq_nil hposted
    · exact absurd hstuck.running_eq_none hrunning
  | popped _ h =>
    obtain ⟨handler, hrun, -⟩ := h.running
    rw [hstuck.running_eq_none] at hrun
    cases hrun
  | delivered _ h => exact Or.inr rfl

end CppSerializer.Bucket
