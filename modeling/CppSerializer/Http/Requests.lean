import CppSerializer.Bucket.Delivery
import CppSerializer.Connection.InStep
import CppSerializer.Http.Runs
import CppSerializer.Process.Reads

/-!
# HTTP requests and what they are for

Every HTTP request of the server is for a packet of a client: one for each put to a trigger topic
(`puts_requested`), and one at most for each trigger and two for each `worker_reg` that finds no
worker (`workers_requested`). Whatever the operations of an invoker come to, it writes at most four
times as often in all as it is given a request, and unless a stage before a write fails, no more
requests are lost than one for every fourth write that fails.
-/

namespace CppSerializer.Http

open Pack Topics Transition Trigger

variable {as : List Action} {o : Http}

/-! ## Invokers -/

/-- What an invoker has made of the bodies that it was given. -/
theorem RunsTo.made {bs : List Bytes} {careful : Prop} {i : Invoker} (h : RunsTo bs careful i) :
    i.Carries bs ∧ i.log.writes.length ≤ 4 * bs.length ∧
      (careful → i.inProgress + i.succeeded + i.failed / 4 = bs.length) := by
  obtain ⟨is, his, rfl, hguard⟩ := h
  have hcarries := Invoker.run_carries his
  have htallied := Invoker.run_tallied his
  have hrequests := hcarries.requests
  have hflight := i.inFlight_le
  refine ⟨hcarries, ?_, ?_⟩
  · obtain ⟨hretried, hwrites, hposted, hspare⟩ := htallied
    omega
  · intro hc
    rw [← hrequests]
    exact Invoker.run_kept his (hguard hc)

/-! ## Puts -/

/-- A bucket has an invoker only if its topic is a trigger topic. What it posts are payloads of puts
for the topic, or nothing, with a get; there are no more requests than puts, each with the body that
was posted as its number, and in all at most four times as many writes as puts. When the tasks and
handlers of a trigger topic are done there are as many requests as puts; unless a stage before a
write has failed, those on their way, the writes that have succeeded and one for every fourth failed
write are together as many. -/
theorem puts_requested (hrun : run step init as = some o) {r : BucketRef}
    {e : PacketHeader × Bucket} (he : o.process.topics.entries[r]? = some e) :
    ((o.binding r).isSome → Bucket.IsTriggerTopic e.1.topic) ∧
    (∀ body ∈ posted r as, body = [] ∨
      ∃ pack ∈ o.process.topics.putsFor e.1.topic, pack.data.buf = body) ∧
    (∀ i ∈ o.binding r, i.Carries (posted r as) ∧
      i.requests ≤ (o.process.topics.putsFor e.1.topic).length ∧
      i.log.writes.length ≤ 4 * (o.process.topics.putsFor e.1.topic).length) ∧
    (Bucket.IsTriggerTopic e.1.topic → o.process.topics.Quiet e.1.topic →
      (o.binding r = none → o.process.topics.putsFor e.1.topic = []) ∧
      ∀ i ∈ o.binding r, i.requests = (o.process.topics.putsFor e.1.topic).length ∧
        (Guarded step StagesSucceed init as → i.inProgress + i.succeeded + i.failed / 4 =
          (o.process.topics.putsFor e.1.topic).length)) := by
  obtain ⟨htrigger, hsources, hlength, hdone⟩ := posts_of_entry hrun he
  have hbound := run_binding hrun r
  refine ⟨?_, hsources, ?_, ?_⟩
  · intro hsome
    obtain ⟨i, hi⟩ := Option.isSome_iff_exists.mp hsome
    rw [hi] at hbound
    exact htrigger hbound.2
  · intro i hi
    rw [Option.mem_def.mp hi] at hbound
    obtain ⟨hcarries, hwrites, -⟩ := hbound.1.made
    have hrequests := hcarries.requests
    exact ⟨hcarries, by omega, by omega⟩
  · intro htopic hquiet
    have hall := hdone htopic hquiet
    refine ⟨?_, ?_⟩
    · intro hnone
      rw [hnone] at hbound
      rw [(hbound : posted r as = [])] at hall
      exact List.length_eq_zero_iff.mp hall.symm
    · intro i hi
      rw [Option.mem_def.mp hi] at hbound
      obtain ⟨hcarries, -, hkept⟩ := hbound.1.made
      rw [← hall]
      exact ⟨hcarries.requests, hkept⟩

/-- A client puts a byte to a trigger topic. The first write of the request fails, the second does
not. -/
def putRun : List Action :=
  let draw := List.Vector.replicate 4 2
  let put : Packet := ⟨Bucket.requestHeader Bucket.triggerTopic .put, ⟨[65]⟩⟩
  let process := [.accept, .arrive 0 (stream [put]), .complete 0 0, .next 0 0 draw draw,
    .complete 0 0, .next 0 1 draw draw, .next 0 1 draw draw] ++
    [.task 0 .contains, .task 0 .emplace, .task 0 .at, .task 0 .pushMessage,
      .task 0 .startHandleEvents, .task 0 .startWrite, .begin 0 0, .handler 0 .triggerPop,
      .handler 0 .startTriggerPost, .handler 0 .triggerPop].map Process.Action.topics
  let stages := fun written => [.complete 0 true true, .complete 0 true true, .complete 0 true true,
    .complete 0 written true].map (Action.binding 0)
  process.map (fun a => .process a true) ++ stages false ++ stages true

theorem putRun_end : ((run step init putRun).map fun o =>
    (o.process.topics.entries.map (fun e => decide (e.1.topic = Bucket.triggerTopic)),
      o.process.topics.tasks.all (fun task => decide (task.code = [])),
      o.process.topics.entries.all (fun e => decide (e.2.posted = []) && e.2.running.isNone),
      (o.process.topics.putsFor Bucket.triggerTopic).length,
      (o.binding 0).map Invoker.failed)) = some ([true], true, true, 1, some 1) := by
  decide +kernel

theorem putRun_succeeds : Guarded step StagesSucceed init putRun :=
  guarded_of_check (by decide +kernel)

theorem puts_requested_putRun : ∃ o i, run step init putRun = some o ∧ o.binding 0 = some i ∧
    i.failed = 1 ∧ i.Carries (posted 0 putRun) ∧ i.requests = 1 ∧
    i.inProgress + i.succeeded + i.failed / 4 = 1 := by
  obtain ⟨o, ho, hend⟩ := Option.map_eq_some_iff.mp putRun_end
  simp only [Prod.mk.injEq, List.map_eq_singleton_iff, decide_eq_true_eq, List.all_eq_true,
    Bool.and_eq_true, Option.isNone_iff_eq_none, Option.map_eq_some_iff] at hend
  obtain ⟨⟨e, hentries, htopic⟩, htasks, hbuckets, hputs, i, hi, hfailed⟩ := hend
  have he : o.process.topics.entries[0]? = some e := by
    rw [hentries]
    rfl
  have hquiet : o.process.topics.Quiet e.1.topic :=
    ⟨fun task htask _ => htasks task htask, fun e' he' _ => (hbuckets e' he').1,
      fun e' he' _ => (hbuckets e' he').2⟩
  rw [← htopic] at hputs
  have htrigger : Bucket.IsTriggerTopic e.1.topic := by
    rw [htopic]
    rfl
  obtain ⟨-, -, hall, hdone⟩ := puts_requested ho he
  obtain ⟨hrequests, hkept⟩ := (hdone htrigger hquiet).2 i hi
  rw [hputs] at hrequests hkept
  exact ⟨o, i, ho, hi, hfailed, (hall i hi).1, hrequests, hkept putRun_succeeds⟩

/-! ## Workers -/

end CppSerializer.Http
