import CppSerializer.Bucket.Posts
import CppSerializer.Topics.View

/-!
# What a topic posts

A run of `topics` is a run of the bucket of each topic, and it is so with its history: the puts of
the bucket are the packets given to `start_store` for the topic, and the bodies in its log are those
that the steps for the topic have posted (`run_history`). So what holds of the bodies of a bucket
holds of those of a topic of the server (`run_posts`).
-/

namespace CppSerializer.Topics

open Pack Bucket Transition

/-! ## The history -/

/-- A body among the outputs. -/
def Output.body? : Output → Option Bytes
  | .post body => some body
  | .reply _ _ _ | .call _ _ => none

/-- The bodies that the step posts for the topic. -/
def bodies (topic : Topic) (t : Topics) (a : Action) : List Bytes :=
  if t.topicOf a = some topic then (t.step a).elim [] fun x => x.2.filterMap Output.body? else []

/-- The packet that the step gives to `start_store`. -/
def Action.put? : Action → Option Packet
  | .put _ _ header payload => some ⟨header, ⟨payload⟩⟩
  | .get _ _ _ | .task _ _ | .begin _ _ | .handler _ _ => none

/-- The packets given to `start_store` for the topic. -/
def putsFor (t : Topics) (topic : Topic) : List Packet :=
  t.log.puts.filter fun pack => pack.header.topic = topic

theorem bodies_ofTopic (out : List Output) :
    (out.map Output.ofTopic).filterMap Bucket.Output.body? = out.filterMap Output.body? := by
  rw [List.filterMap_map]
  congr 1
  ext o : 1
  cases o <;> rfl

theorem within_put? (a : Action) (k : Nat) : (a.within k).put? = a.put? := by
  cases a <;> rfl

theorem puts_of_step {t t' : Topics} {a : Action} {out : List Output}
    (h : t.step a = some (t', out)) : t'.log.puts = t.log.puts ++ a.put?.toList := by
  cases step_cases h with
  | put self request header payload after =>
    subst after
    rfl
  | use i op hop task before r found e entry b out' step after =>
    subst after
    rcases hop with rfl | rfl | rfl <;> exact (List.append_nil _).symm
  | get _ _ _ after | contains _ _ _ _ _ after | emplace _ _ _ after | found _ _ _ _ _ after
  | startWrite _ _ _ after | begin _ _ _ _ _ _ _ after =>
    subst after
    exact (List.append_nil _).symm
  | handler _ _ _ _ _ _ _ _ _ _ after =>
    subst after
    exact (List.append_nil _).symm

theorem topicOf_put {t : Topics} {a : Action} {pack : Packet} (h : a.put? = some pack) :
    t.topicOf a = some pack.header.topic := by
  cases a with
  | put self request header payload =>
    cases h
    rfl
  | get | task | begin | handler => cases h

/-- Every topic goes through a run of the bucket model, with the same puts and the same bodies. -/
theorem run_history {as : List Action} {t : Topics} (hrun : run next init as = some t)
    (topic : Topic) : ∃ bs s, run (Bucket.State.step topic) Bucket.State.init bs = some s ∧
      s.bucket = t.view topic ∧ Bucket.puts bs = t.putsFor topic ∧
      s.log.bodies = trace next (bodies topic) init as := by
  refine run_induction (P := fun as t => ∃ bs s,
    run (Bucket.State.step topic) Bucket.State.init bs = some s ∧ s.bucket = t.view topic ∧
      Bucket.puts bs = t.putsFor topic ∧ s.log.bodies = trace next (bodies topic) init as)
    ⟨[], Bucket.State.init, rfl, rfl, rfl, rfl⟩ ?_ as t hrun
  rintro as t a t' hs ⟨bs, s, hbs, hbucket, hputs, hbodies⟩ ht
  obtain ⟨⟨t₁, out⟩, hstep, rfl⟩ := Option.map_eq_some_iff.mp ht
  obtain ⟨own, hown, hseen⟩ := view_step (run_isolated hs) (run_shelved hs) hstep topic
  rw [trace_concat hs, bodies, hown]
  have hlog : putsFor t₁ topic =
      t.putsFor topic ++ a.put?.toList.filter fun pack => pack.header.topic = topic := by
    rw [putsFor, puts_of_step hstep, List.filter_append]
    rfl
  cases hseen with
  | other ne same =>
    refine ⟨bs, s, hbs, hbucket.trans same.symm, ?_, ?_⟩
    · have hnone : (a.put?.toList.filter fun pack => pack.header.topic = topic) = [] := by
        rw [List.filter_eq_nil_iff]
        intro pack hpack
        have hput := topicOf_put (t := t) (Option.mem_toList.mp hpack)
        rw [hown] at hput
        cases hput
        simpa using ne
      rw [hputs, hlog, hnone, List.append_nil]
    · rw [if_neg (by simpa using ne), List.append_nil]
      exact hbodies
  | own k eq hb =>
    subst eq
    rw [← hbucket] at hb
    refine ⟨bs ++ [a.within k], ⟨t₁.view own,
      s.log.record s.bucket (out.map Output.ofTopic) (a.within k)⟩, ?_, rfl, ?_, ?_⟩
    · apply run_concat hbs
      rw [Bucket.State.step, hb]
      rfl
    · have hall : (a.put?.toList.filter fun pack => pack.header.topic = own) = a.put?.toList := by
        rw [List.filter_eq_self]
        intro pack hpack
        have hput := topicOf_put (t := t) (Option.mem_toList.mp hpack)
        rw [hown] at hput
        cases hput
        exact decide_eq_true rfl
      rw [puts_concat, within_put?, hputs, hlog, hall]
    · rw [if_pos rfl, hstep, Option.elim_some, ← hbodies, ← bodies_ofTopic]
      exact record_bodies hb s.log

/-! ## What is posted -/

/-- No task and no handler of the topic has anything left to do. -/
structure Quiet (t : Topics) (topic : Topic) : Prop where
  tasks : ∀ task ∈ t.tasks, task.pack.header.topic = topic → task.code = []
  posted : ∀ e ∈ t.entries, e.1.topic = topic → e.2.posted = []
  running : ∀ e ∈ t.entries, e.1.topic = topic → e.2.running = none

theorem Quiet.view {t : Topics} {topic : Topic} (h : t.Quiet topic) :
    (∀ task ∈ (t.view topic).tasks, task.code = []) ∧ (t.view topic).posted = [] ∧
      (t.view topic).running = none := by
  refine ⟨?_, ?_⟩
  · intro task htask
    obtain ⟨task', hmem, rfl⟩ := List.mem_map.mp htask
    obtain ⟨htask', htopic⟩ := List.mem_filter.mp hmem
    exact h.tasks task' htask' (of_decide_eq_true htopic)
  · change (t.bucketOf topic).posted = [] ∧ (t.bucketOf topic).running = none
    unfold bucketOf
    cases hfind : t.entries.find? fun e => e.1.topic = topic with
    | none => exact ⟨rfl, rfl⟩
    | some e =>
      have hmem := List.mem_of_find?_eq_some hfind
      have htopic := List.find?_some hfind
      exact ⟨h.posted e hmem (of_decide_eq_true htopic),
        h.running e hmem (of_decide_eq_true htopic)⟩

/-- The bodies `posted` for a topic of the server: none unless it is a trigger topic, and then one
for each put at most, and one for each when nothing is left to do. -/
structure Posts (t : Topics) (topic : Topic) (posted : List Bytes) : Prop where
  trigger : posted ≠ [] → IsTriggerTopic topic
  sources : ∀ body ∈ posted, body = [] ∨ ∃ pack ∈ t.putsFor topic, pack.data.buf = body
  length : posted.length ≤ (t.putsFor topic).length
  done : IsTriggerTopic topic → t.Quiet topic → posted.length = (t.putsFor topic).length

theorem run_posts {as : List Action} {t : Topics} (hrun : run next init as = some t)
    (topic : Topic) : t.Posts topic (trace next (bodies topic) init as) := by
  obtain ⟨bs, s, hbs, hbucket, hputs, hbodies⟩ := run_history hrun topic
  rw [← hbodies]
  have htrigger : s.log.bodies ≠ [] → IsTriggerTopic topic := by
    intro hne
    by_contra hsalt
    exact hne (run_no_bodies hsalt hbs)
  refine ⟨htrigger, ?_, ?_, ?_⟩
  · rw [← hputs]
    exact (run_sources hbs).bodies
  · by_cases hne : s.log.bodies = []
    · rw [hne]
      exact Nat.zero_le _
    · have hposted := run_posted (htrigger hne) hbs
      rw [← hputs]
      omega
  · intro htopic hquiet
    obtain ⟨htasks, hposted, hrunning⟩ := hquiet.view
    rw [← hbucket] at htasks hposted hrunning
    rw [← hputs]
    exact posted_of_idle htopic hbs htasks hposted hrunning

/-! ## What a bucket posts -/

/-- The bodies that the handler of bucket `r` posts in the step. -/
def bodiesOf (r : BucketRef) (t : Topics) : Action → List Bytes
  | .handler r' op =>
    if r' = r then (t.step (.handler r' op)).elim [] fun x => x.2.filterMap Output.body? else []
  | .put _ _ _ _ | .get _ _ _ | .task _ _ | .begin _ _ => []

theorem bodies_eq_nil {t t' : Topics} {a : Action} {out : List Output}
    (h : t.step a = some (t', out)) (ha : ∀ r op, a ≠ .handler r op) (topic : Topic) :
    bodies topic t a = [] := by
  have hnone : out.filterMap Output.body? = [] := by
    cases step_cases h with
    | handler r op => exact absurd rfl (ha r op)
    | _ => rfl
  rw [bodies, h, Option.elim_some, hnone]
  exact ite_self []

/-- What a bucket has posted is what was posted for its topic. -/
theorem trace_bodiesOf {as : List Action} {t : Topics} (hrun : run next init as = some t)
    {r : BucketRef} {topic : Topic} (hr : t.Refers r topic) :
    trace next (bodiesOf r) init as = trace next (bodies topic) init as := by
  have hsame : ∀ r' topic', t.Refers r' topic' → (r' = r ↔ topic' = topic) := by
    rintro r' topic' ⟨e', he', rfl⟩
    obtain ⟨e, he, rfl⟩ := hr
    have hdistinct := (run_isolated hrun).distinct
    constructor
    · rintro rfl
      rw [he] at he'
      cases he'
      rfl
    · exact fun htopic => hdistinct.unique PacketHeader.keyTraits_lawful he' he
        (PacketHeader.keyCompare_iff.mpr htopic)
  clear hr
  revert hsame
  refine run_induction (P := fun as t =>
    (∀ r' topic', t.Refers r' topic' → (r' = r ↔ topic' = topic)) →
      trace next (bodiesOf r) init as = trace next (bodies topic) init as) (fun _ => rfl) ?_
      as t hrun
  intro as t a t' hs ih ht hsame
  obtain ⟨⟨t₁, out⟩, hstep, rfl⟩ := Option.map_eq_some_iff.mp ht
  have hgrows := grows_of_step (step_cases hstep)
  rw [trace_concat hs, trace_concat hs, ih fun r' topic' h => hsame r' topic' (h.mono hgrows)]
  congr 1
  cases a with
  | handler r' op =>
    cases step_cases hstep with
    | handler _ _ e entry =>
      have hiff := hsame r' e.1.topic (Refers.mono ⟨e, entry, rfl⟩ hgrows)
      rw [bodiesOf, bodies, topicOf, entry]
      simp only [Option.map_some, Option.some.injEq, hiff]
  | put | get | task | begin =>
    rw [bodies_eq_nil hstep (by simp)]
    rfl

end CppSerializer.Topics
