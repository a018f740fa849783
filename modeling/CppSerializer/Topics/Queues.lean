import CppSerializer.Bucket.Log
import CppSerializer.Topics.Isolation

/-!
# The queues of the topics

The log says which payload was pushed into which bucket. The queue of a bucket is first in, first
out, so the log says no more than what happens to the queues: what the handlers of a bucket have
popped, and then its queue, are the payloads that were pushed into it, in order (`run_queue`).
-/

namespace CppSerializer.Topics

open Pack Bucket UnorderedMap Transition

/-- The payloads that were pushed into bucket `r`. -/
def pushesTo (t : Topics) (r : BucketRef) : List PacketData :=
  (t.log.pushed.filter fun push => push.bucket = r).map Push.data

/-- The `message_queue_` of bucket `r`. -/
def queue (t : Topics) (r : BucketRef) : List PacketData :=
  (t.entries[r]?.map fun e => e.2.messageQueue).getD []

/-- The message that bucket `r` pops in the step. -/
def popped (r : BucketRef) (t : Topics) : Action → List PacketData
  | .handler r' op => if r' = r ∧ op.pops then (t.queue r).head?.toList else []
  | .put _ _ _ _ | .get _ _ _ | .task _ _ | .begin _ _ => []

/-! ## Steps -/

theorem queue_of_entry {t : Topics} {r : BucketRef} {e : PacketHeader × Bucket}
    (he : t.entries[r]? = some e) : t.queue r = e.2.messageQueue := by
  rw [queue, he]
  rfl

/-- A new entry has an empty queue, and the others stay. -/
theorem queue_insert (t : Topics) (h : PacketHeader) (r : BucketRef) :
    (t.insert h).queue r = t.queue r := by
  rw [queue, queue, insert]
  dsimp only
  unfold emplace
  split
  · rfl
  · by_cases hr : r < t.entries.length
    · rw [List.getElem?_append_left hr]
    · have hge := Nat.le_of_not_lt hr
      rw [List.getElem?_append_right hge, List.getElem?_eq_none hge]
      cases r - t.entries.length <;> rfl

/-- The queue of a bucket that is written back. -/
theorem queue_put {t t' : Topics} {r : BucketRef} {e : PacketHeader × Bucket} {b : Bucket}
    (he : t.entries[r]? = some e) (hentries : t'.entries = put t.entries r b) (r' : BucketRef) :
    t'.queue r' = if r = r' then b.messageQueue else t.queue r' := by
  rw [queue, hentries, getElem?_put]
  split
  · rename_i heq
    subst heq
    rw [he]
    rfl
  · rw [Option.map_id']
    rfl

/-- `push_message` adds to what was pushed into its bucket, and the other operations do not. -/
theorem pushesTo_use {t t' : Topics} {r' : BucketRef} {e : Bucket} {task : Task} {op : TaskOp}
    (hop : op = .pushMessage ∨ op = .getConnect ∨ op = .startHandleEvents)
    (hlog : t'.log = t.log.use r' e task op) (r : BucketRef) :
    t'.pushesTo r = t.pushesTo r ++
      if r' = r then (if op = .pushMessage then [task.pack.data] else []) else [] := by
  rw [pushesTo, hlog]
  rcases hop with rfl | rfl | rfl
  · change (List.filter _ (t.log.pushed ++ [_])).map Push.data = _
    rw [List.filter_append, List.map_append]
    congr 1
    split
    · rename_i heq
      subst heq
      simp
    · rename_i hne
      simp [hne]
  · simp only [reduceCtorEq, if_false, ite_self, List.append_nil]
    rfl
  · simp only [reduceCtorEq, if_false, ite_self, List.append_nil]
    rfl

/-- What a step pushes into a bucket comes to the end of its queue, and what it pops was at the
front. -/
theorem queue_of_step {t t' : Topics} {a : Action} {out : List Output}
    (h : t.step a = some (t', out)) (r : BucketRef) : ∃ new,
      popped r t a ++ t'.queue r = t.queue r ++ new ∧ t'.pushesTo r = t.pushesTo r ++ new := by
  have hnone : popped r t a = [] → t'.queue r = t.queue r → t'.log.pushed = t.log.pushed →
      ∃ new, popped r t a ++ t'.queue r = t.queue r ++ new ∧
        t'.pushesTo r = t.pushesTo r ++ new := by
    intro hpopped hqueue hpushed
    refine ⟨[], ?_, ?_⟩
    · rw [hpopped, hqueue, List.nil_append, List.append_nil]
    · rw [pushesTo, hpushed, List.append_nil]
      rfl
  cases step_cases h with
  | put _ _ _ _ after | get _ _ _ after =>
    subst after
    exact hnone rfl rfl rfl
  | contains _ _ _ _ _ after | found _ _ _ _ _ after | startWrite _ _ _ after =>
    subst after
    exact hnone rfl rfl rfl
  | emplace i task before after =>
    subst after
    exact hnone rfl (queue_insert t task.pack.header r) rfl
  | use i op hop task before r' found e entry b out' step after =>
    have hentries : t'.entries = put t.entries r' b := by rw [after]; rfl
    have hqueue := queue_put entry hentries r
    have hlog : t'.log = t.log.use r' e.2 task op := by rw [after]; rfl
    refine ⟨_, ?_, pushesTo_use hop hlog r⟩
    rw [popped, List.nil_append, hqueue]
    split
    · rename_i heq
      subst heq
      rw [queue_of_entry entry]
      exact step.messageQueue
    · rw [List.append_nil]
  | begin r' i e entry key idle posted after =>
    have hentries : t'.entries = put t.entries r' { e.2 with
        posted := e.2.posted.eraseIdx i, running := some (.start key) } := by
      rw [after]
      rfl
    have hqueue := queue_put entry hentries r
    refine hnone rfl ?_ (by rw [after]; rfl)
    rw [hqueue]
    split
    · rename_i heq
      subst heq
      exact (queue_of_entry entry).symm
    · rfl
  | handler r' op e entry handler running next b out' handle after =>
    have hentries : t'.entries = put t.entries r' b := by rw [after]; rfl
    have hqueue := queue_put entry hentries r
    refine ⟨[], ?_, ?_⟩
    · rw [List.append_nil, popped, hqueue]
      by_cases heq : r' = r
      · subst heq
        rw [queue_of_entry entry, if_pos rfl]
        simpa only [true_and] using handle_messageQueue handle
      · rw [if_neg heq, if_neg fun hand => heq hand.1]
        rfl
    · rw [after, List.append_nil]
      rfl

/-! ## Runs -/

/-- What a bucket has popped and then what is in its queue is what was pushed into it. -/
theorem run_queue {as : List Action} {t : Topics} (hrun : run next init as = some t)
    (r : BucketRef) : trace next (popped r) init as ++ t.queue r = t.pushesTo r := by
  refine run_induction (P := fun as t =>
    trace next (popped r) init as ++ t.queue r = t.pushesTo r) rfl ?_ as t hrun
  intro as t a t' hs ih ht
  obtain ⟨⟨t₁, out⟩, hstep, rfl⟩ := Option.map_eq_some_iff.mp ht
  obtain ⟨new, hqueue, hpushes⟩ := queue_of_step hstep r
  rw [trace_concat hs, List.append_assoc, hqueue, ← List.append_assoc, ih, hpushes]

end CppSerializer.Topics
