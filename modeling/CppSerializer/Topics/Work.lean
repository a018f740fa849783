import CppSerializer.Library.Work
import CppSerializer.Topics.Model

/-!
# The work of the topics

What the tasks and the handlers have left to do. A task that is posted adds the work of its
code, and every other step uses some up, for what it leads to is paid by the step before: a push
pays for the message, a `start_handle_events` for its handler.
-/

namespace CppSerializer.Topics

open Pack Bucket UnorderedMap Work

/-- What a step of a task costs, with the `emplace`, the message or the handler that it makes. -/
def opWork : TaskOp → Nat
  | .contains => 2
  | .emplace | .at | .getConnect | .startWrite => 1
  | .pushMessage => 3
  | .startHandleEvents => 6

/-- What a handler costs from its next step on, when it finds no message. -/
def handlerWork : HandlerOp → Nat
  | .listenerEmpty => 4
  | .queueEmpty | .emit => 3
  | .tryPop | .startTriggerPost => 2
  | .disconnectAllSlots | .triggerPop => 1

def bucketWork (b : Bucket) : Nat :=
  2 * b.messageQueue.length + 5 * b.posted.length +
    weight (fun h => handlerWork h.next) b.running.toList

def taskWork (task : Task) : Nat := weight opWork task.code

def work (t : Topics) : Nat := weight taskWork t.tasks + weight (fun e => bucketWork e.2) t.entries

/-! ## Buckets -/

/-- Every handler of `start_handle_events` comes to its end. -/
theorem bucketWork_handle {b b' : Bucket} {h : Handler} {out : List Bucket.Output}
    (hrun : b.running = some h) (hstep : b.handle h h.next = (b', out)) :
    bucketWork b' < bucketWork b := by
  rw [bucketWork, bucketWork, hrun]
  cases hnext : h.next with
  | triggerPop | tryPop =>
    rw [hnext, handle] at hstep
    split at hstep
    · rename_i hqueue
      cases hstep
      simp [hqueue, hnext, handlerWork]
      omega
    · cases hstep
      simp [hnext, handlerWork]
  | listenerEmpty | queueEmpty =>
    rw [hnext, handle] at hstep
    split at hstep <;> cases hstep <;> simp [hnext, handlerWork]
  | startTriggerPost | emit | disconnectAllSlots =>
    rw [hnext] at hstep
    cases hstep
    simp [hnext, handlerWork]

theorem bucketWork_task {b b' : Bucket} {op : TaskOp} {task : Bucket.Task}
    {out : List Bucket.Output} (h : TaskStep b b' op task out) :
    bucketWork b' + 1 ≤ bucketWork b + opWork op := by
  rw [bucketWork, bucketWork, h.messageQueue, h.posted, h.running]
  cases op <;> simp [opWork] <;> omega

theorem bucketWork_begin {b : Bucket} {i : Nat} {key : Packet} (hidle : b.running = none)
    (hposted : b.posted[i]? = some key) :
    bucketWork { b with posted := b.posted.eraseIdx i, running := some (Handler.start key) } <
      bucketWork b := by
  obtain ⟨hlt, -⟩ := List.getElem?_eq_some_iff.mp hposted
  have hlength := List.length_eraseIdx_of_lt hlt
  have hstart : handlerWork (Handler.start key).next ≤ 4 := by
    rw [Handler.start_next]
    split <;> decide
  simp only [bucketWork, hidle, hlength, Option.toList_some, Option.toList_none, weight_cons,
    weight_nil]
  omega

/-! ## Steps -/

theorem weight_put {f : PacketHeader × Bucket → Nat} {entries : List (PacketHeader × Bucket)}
    {r : BucketRef} {e : PacketHeader × Bucket} (he : entries[r]? = some e) (b : Bucket) :
    weight f (put entries r b) + f e = weight f entries + f (e.1, b) :=
  weight_modify he fun e => (e.1, b)

theorem weight_insert (t : Topics) (h : PacketHeader) :
    weight (fun e => bucketWork e.2) (t.insert h).entries =
      weight (fun e => bucketWork e.2) t.entries := by
  change weight _ (emplace PacketHeader.keyTraits t.entries h newBucket) = _
  unfold emplace
  split
  · rfl
  · rw [weight_append]
    rfl

/-- A task that is posted adds the work of its code. -/
theorem work_startStore (t : Topics) (self : Connection) (request : Nat) (pack : Packet) :
    (t.startStore self request pack).work = t.work + 13 := by
  simp only [work, startStore, weight_append]
  change _ + (13 + 0) + _ = _
  omega

theorem work_startLoad (t : Topics) (self : Connection) (request : Nat) (pack : Packet) :
    (t.startLoad self request pack).work = t.work + 13 := by
  simp only [work, startLoad, weight_append]
  change _ + (13 + 0) + _ = _
  omega

/-- Every step of a task or of a handler uses work up. -/
theorem work_step {t t' : Topics} {a : Action} {out : List Output}
    (h : t.step a = some (t', out)) (hput : ∀ self request header payload,
      a ≠ .put self request header payload) (hget : ∀ self request header,
        a ≠ .get self request header) : t'.work < t.work := by
  cases step_cases h with
  | put self request header payload => exact absurd rfl (hput self request header payload)
  | get self request header => exact absurd rfl (hget self request header)
  | contains i task before code look after =>
    subst after
    have hset := weight_set (f := taskWork) before { task with code := code }
    have hcode : weight opWork code ≤ weight opWork task.code + 1 := by
      rw [look]
      split
      · exact Nat.le_succ _
      · exact Nat.le_of_eq (Nat.add_comm _ _)
    simp only [taskWork, Task.before, weight_cons] at hset
    simp only [work, setTask, opWork] at hset ⊢
    omega
  | emplace i task before after =>
    subst after
    have hset := weight_set (f := taskWork) before task
    have hentries := weight_insert t task.pack.header
    simp only [taskWork, Task.before, weight_cons] at hset
    simp only [work, setTask, opWork] at hset ⊢
    change weight _ (t.tasks.set i task) + _ < _
    omega
  | found i task before r find after =>
    subst after
    have hset := weight_set (f := taskWork) before { task with found := some r }
    simp only [taskWork, Task.before, weight_cons] at hset
    simp only [work, setTask, returned, opWork] at hset ⊢
    omega
  | use i op hop task before r found e entry b out step after =>
    subst after
    have hset := weight_set (f := taskWork) before task
    have hput := weight_put (f := fun e => bucketWork e.2) entry b
    have hbucket := bucketWork_task step
    simp only [taskWork, Task.before, weight_cons] at hset
    simp only [work, setTask, setBucket] at hset hput ⊢
    omega
  | startWrite i task before after =>
    subst after
    have hset := weight_set (f := taskWork) before task
    simp only [taskWork, Task.before, weight_cons] at hset
    simp only [work, setTask, opWork] at hset ⊢
    omega
  | begin r i e entry key idle posted after =>
    subst after
    have hput := weight_put (f := fun e => bucketWork e.2) entry
      { e.2 with posted := e.2.posted.eraseIdx i, running := some (Handler.start key) }
    have hbucket := bucketWork_begin idle posted
    simp only [work, setBucket] at hput ⊢
    omega
  | handler r op e entry handler running next b out handle after =>
    subst after next
    have hput := weight_put (f := fun e => bucketWork e.2) entry b
    have hbucket := bucketWork_handle running handle
    simp only [work, setBucket] at hput ⊢
    omega

end CppSerializer.Topics
