import CppSerializer.Bucket.Log
import CppSerializer.Library.Shares
import CppSerializer.Topics.Isolation

/-!
# Each topic is a bucket

The part of `topics` that is for one key and salt: the bucket of its entry, and the tasks of the
requests for it. A step of `topics` is a step of `Bucket.step` there, or it leaves the part as it
is (`view_step`), so whatever holds of all runs of a bucket holds of every topic of the server
(`run_view`).
-/

namespace CppSerializer.Topics

open Pack Bucket UnorderedMap Transition PacketHeader Shares

/-! ## The bucket of a topic -/

/-- The bucket in the map, or one that nobody has used. -/
def bucketOf (t : Topics) (topic : Topic) : Bucket :=
  match t.entries.find? fun e => e.1.topic = topic with
  | some e => e.2
  | none => Bucket.empty

/-- The tasks of the requests for the topic. -/
def tasksOf (t : Topics) (topic : Topic) : List Bucket.Task :=
  (t.tasks.filter fun task => task.pack.header.topic = topic).map Task.toTask

/-- What the bucket model sees of the topic. -/
def view (t : Topics) (topic : Topic) : Bucket :=
  { t.bucketOf topic with tasks := t.tasksOf topic }

theorem bucketOf_entry {t : Topics} (hd : Distinct keyTraits t.entries) {r : BucketRef}
    {e : PacketHeader × Bucket} (he : t.entries[r]? = some e) : t.bucketOf e.1.topic = e.2 := by
  unfold bucketOf
  cases hfind : t.entries.find? fun e' => e'.1.topic = e.1.topic with
  | none =>
    have hnone := List.find?_eq_none.mp hfind e (List.mem_of_getElem? he)
    simp at hnone
  | some e' =>
    have hfound := List.find?_some hfind
    have htopic : e'.1.topic = e.1.topic := of_decide_eq_true hfound
    obtain ⟨j, hj⟩ := List.mem_iff_getElem?.mp (List.mem_of_find?_eq_some hfind)
    have hsame := hd.unique keyTraits_lawful hj he (keyCompare_iff.mpr htopic)
    subst hsame
    rw [he] at hj
    cases hj
    rfl

theorem bucketOf_none {t : Topics} {topic : Topic} (h : ∀ e ∈ t.entries, e.1.topic ≠ topic) :
    t.bucketOf topic = Bucket.empty := by
  have hfind : (t.entries.find? fun e => e.1.topic = topic) = none := by
    rw [List.find?_eq_none]
    intro e he
    simpa using h e he
  rw [bucketOf, hfind]

theorem bucketOf_put {t t' : Topics} (hd : Distinct keyTraits t.entries) {r : BucketRef}
    {e : PacketHeader × Bucket} (he : t.entries[r]? = some e) {b : Bucket}
    (hentries : t'.entries = put t.entries r b) (topic : Topic) :
    t'.bucketOf topic = if e.1.topic = topic then b else t.bucketOf topic := by
  have hd' : Distinct keyTraits t'.entries := by
    rw [hentries]
    exact hd.congr (map_fst_put b)
  have hentry : ∀ j, t'.entries[j]? = t.entries[j]?.map fun e =>
      if r = j then (e.1, b) else e := by
    intro j
    rw [hentries, getElem?_put]
  by_cases htopic : e.1.topic = topic
  · rw [if_pos htopic, ← htopic]
    apply bucketOf_entry hd' (e := (e.1, b)) (r := r)
    rw [hentry, he, Option.map_some, if_pos rfl]
  · rw [if_neg htopic]
    by_cases hsome : ∃ (j : BucketRef) (e' : PacketHeader × Bucket),
        t.entries[j]? = some e' ∧ e'.1.topic = topic
    · obtain ⟨j, e', he', rfl⟩ := hsome
      have hne : r ≠ j := by
        rintro rfl
        rw [he] at he'
        cases he'
        exact htopic rfl
      have he'' : t'.entries[j]? = some e' := by rw [hentry, he', Option.map_some, if_neg hne]
      rw [bucketOf_entry hd he', bucketOf_entry hd' he'']
    · have hnone : ∀ e' ∈ t.entries, e'.1.topic ≠ topic := by
        intro e' hmem htopic'
        obtain ⟨j, hj⟩ := List.mem_iff_getElem?.mp hmem
        exact hsome ⟨j, e', hj, htopic'⟩
      rw [bucketOf_none hnone, bucketOf_none]
      intro e' hmem
      obtain ⟨j, hj⟩ := List.mem_iff_getElem?.mp hmem
      rw [hentry] at hj
      obtain ⟨e₀, he₀, rfl⟩ := Option.map_eq_some_iff.mp hj
      have hold := hnone e₀ (List.mem_of_getElem? he₀)
      split <;> exact hold

/-- The buckets in the map have an entry, and the tasks are apart. -/
def Shelved (t : Topics) : Prop := ∀ e ∈ t.entries, e.2.contained = true ∧ e.2.tasks = []

theorem contained_bucketOf {t : Topics} (hs : t.Shelved) (h : PacketHeader) :
    (t.bucketOf h.topic).contained = contains keyTraits t.entries h := by
  rw [contains, find?_eq keyTraits_lawful, List.findIdx?_isSome]
  unfold bucketOf
  cases hfind : t.entries.find? fun e => e.1.topic = h.topic with
  | none =>
    rw [List.find?_eq_none] at hfind
    symm
    change _ = false
    rw [Bool.eq_false_iff, Ne, List.any_eq_true]
    rintro ⟨e, he, hequal⟩
    exact hfind e he (decide_eq_true (keyCompare_iff.mp hequal))
  | some e =>
    have hmem := List.mem_of_find?_eq_some hfind
    have hfound := List.find?_some hfind
    have htopic : e.1.topic = h.topic := of_decide_eq_true hfound
    rw [(hs e hmem).1]
    symm
    rw [List.any_eq_true]
    exact ⟨e, hmem, keyCompare_iff.mpr htopic⟩

theorem bucketOf_insert {t : Topics} (hs : t.Shelved) (h : PacketHeader) (topic : Topic) :
    (t.insert h).bucketOf topic =
      if h.topic = topic then { t.bucketOf topic with contained := true }
      else t.bucketOf topic := by
  have hcontained := contained_bucketOf hs h
  rw [insert, emplace]
  by_cases hc : contains keyTraits t.entries h = true
  · rw [if_pos hc]
    split
    · rename_i htopic
      rw [← htopic]
      rw [hc] at hcontained
      change t.bucketOf h.topic = _
      rw [← hcontained]
    · rfl
  · rw [if_neg hc]
    unfold bucketOf
    rw [List.find?_append]
    cases hfind : t.entries.find? fun e => e.1.topic = topic with
    | some e =>
      have hmem := List.mem_of_find?_eq_some hfind
      rw [Option.some_or]
      change e.2 = if h.topic = topic then { e.2 with contained := true } else e.2
      rw [← (hs e hmem).1, ite_self]
    | none =>
      rw [Option.none_or, List.find?_singleton]
      by_cases htopic : h.topic = topic
      · rw [if_pos htopic, if_pos (decide_eq_true htopic)]
        rfl
      · rw [if_neg htopic, if_neg (by simpa using htopic)]

/-! ## Tasks of a topic -/

theorem tasksOf_append {t t' : Topics} {task : Task} (h : t'.tasks = t.tasks ++ [task])
    (topic : Topic) : t'.tasksOf topic = t.tasksOf topic ++
      if task.pack.header.topic = topic then [task.toTask] else [] := by
  rw [tasksOf, tasksOf, h, List.filter_append, List.map_append]
  by_cases htopic : task.pack.header.topic = topic
  · rw [if_pos htopic, List.filter_cons_of_pos (by simpa using htopic)]
    rfl
  · rw [if_neg htopic, List.filter_cons_of_neg (by simpa using htopic)]
    rfl

theorem tasksOf_set_other {t t' : Topics} {i : Nat} {before task : Task}
    (hbefore : t.tasks[i]? = some before) (h : t'.tasks = t.tasks.set i task)
    (hpack : task.pack = before.pack) {topic : Topic}
    (htopic : before.pack.header.topic ≠ topic) : t'.tasksOf topic = t.tasksOf topic := by
  rw [tasksOf, tasksOf, h, filter_set_eq hbefore (by simpa using htopic)]
  rw [hpack]
  simpa using htopic

theorem tasksOf_set {t t' : Topics} {i : Nat} {before task : Task}
    (hbefore : t.tasks[i]? = some before) (h : t'.tasks = t.tasks.set i task)
    (hpack : task.pack = before.pack) {topic : Topic}
    (htopic : before.pack.header.topic = topic) :
    ∃ k, (t.tasksOf topic)[k]? = some before.toTask ∧
      t'.tasksOf topic = (t.tasksOf topic).set k task.toTask := by
  obtain ⟨k, hk, hset⟩ := exists_filter_set
    (p := fun task : Task => task.pack.header.topic = topic) hbefore (by simpa using htopic)
  refine ⟨k, ?_, ?_⟩
  · rw [tasksOf, List.getElem?_map, hk]
    rfl
  · rw [tasksOf, tasksOf, h, hset task (by rw [hpack]; simpa using htopic), List.map_set]

/-! ## Steps -/

/-- The topic that a step is for. -/
def topicOf (t : Topics) : Action → Option Topic
  | .put _ _ header _ | .get _ _ header => some header.topic
  | .task i _ => t.tasks[i]?.map fun task => task.pack.header.topic
  | .begin r _ | .handler r _ => t.entries[r]?.map fun e => e.1.topic

/-- The step as the bucket model has it, where its task is task `k` of the topic. -/
def Action.within (k : Nat) : Action → Bucket.Action
  | .put self _ header payload => .put self header payload
  | .get self _ header => .get self header
  | .task _ op => .task k op
  | .begin _ i => .begin i
  | .handler _ op => .handler op

/-- An output as the bucket model has it. -/
def Output.ofTopic : Output → Bucket.Output
  | .reply self _ resp => .write self resp
  | .call listener pack => .call listener pack
  | .post body => .post body

/-- The handlers of a bucket write no acks. -/
theorem ofTopic_ofHandler {b b' : Bucket} {h : Handler} {op : HandlerOp}
    {out : List Bucket.Output} (hhandle : b.handle h op = (b', out)) :
    (out.filterMap Output.ofHandler).map Output.ofTopic = out := by
  have hemit : ∀ (ls : List Listener) (resp : Packet),
      ((emit resp ls).1.filterMap Output.ofHandler).map Output.ofTopic = (emit resp ls).1 := by
    intro ls
    induction ls with
    | nil => exact fun _ => rfl
    | cons l ls ih =>
      intro resp
      change _ :: ((emit resp.sized ls).1.filterMap Output.ofHandler).map Output.ofTopic = _
      rw [ih]
      rfl
  cases op with
  | triggerPop | listenerEmpty | queueEmpty | tryPop =>
    rw [handle] at hhandle
    split at hhandle <;> cases hhandle <;> rfl
  | startTriggerPost | disconnectAllSlots =>
    cases hhandle
    rfl
  | emit =>
    cases hhandle
    exact hemit _ _

/-- A handler does not look at the tasks. -/
theorem handle_tasks {b b' : Bucket} {h : Handler} {op : HandlerOp} {out : List Bucket.Output}
    (hhandle : b.handle h op = (b', out)) (tasks : List Bucket.Task) :
    handle { b with tasks := tasks } h op = ({ b' with tasks := tasks }, out) := by
  cases op with
  | triggerPop | listenerEmpty | queueEmpty | tryPop =>
    simp only [handle] at hhandle ⊢
    split at hhandle <;> cases hhandle <;> simp_all
  | startTriggerPost | disconnectAllSlots | emit =>
    cases hhandle
    rfl

/-- A task does the same to the bucket wherever it stands. -/
theorem perform_elsewhere {b b' : Bucket} {i : Nat} {task : Bucket.Task} {op : TaskOp}
    {out : List Bucket.Output}
    (hop : op = .pushMessage ∨ op = .getConnect ∨ op = .startHandleEvents)
    (h : b.perform i task op = some (b', out)) (tasks : List Bucket.Task) (k : Nat) :
    out = [] ∧ b'.contained = b.contained ∧ b'.tasks = b.tasks.set i task ∧
      Bucket.perform { b with tasks := tasks } k task op =
        some ({ b' with tasks := tasks.set k task }, []) := by
  rcases hop with rfl | rfl | rfl <;> cases h <;> exact ⟨rfl, rfl, rfl, rfl⟩

/-- What a step for the topic `own` does to `topic`: it is the step `a` of its bucket, or the topic
does not see it. -/
inductive Seen (t u : Topics) (own topic : Topic) (out : List Bucket.Output)
    (a : Nat → Bucket.Action) : Prop
  | own (k : Nat) (eq : own = topic)
      (step : (t.view topic).step topic (a k) = some (u.view topic, out)) : Seen t u own topic out a
  | other (ne : own ≠ topic) (same : u.view topic = t.view topic) : Seen t u own topic out a

/-- The task of a request is posted in its topic. -/
theorem view_post {t u : Topics} {task : Task} (htasks : u.tasks = t.tasks ++ [task])
    (hbuckets : ∀ topic, u.bucketOf topic = t.bucketOf topic) {a : Bucket.Action}
    (hstep : ∀ b : Bucket, b.step task.pack.header.topic a = some (b.post task.toTask, []))
    (topic : Topic) : Seen t u task.pack.header.topic topic [] fun _ => a := by
  have happend := tasksOf_append htasks topic
  by_cases htopic : task.pack.header.topic = topic
  · rw [if_pos htopic] at happend
    subst htopic
    refine .own 0 rfl ?_
    rw [hstep, view, view, hbuckets, happend]
    rfl
  · rw [if_neg htopic, List.append_nil] at happend
    refine .other htopic ?_
    rw [view, view, hbuckets, happend]

/-- A step of a task is one of the bucket of its topic. -/
theorem view_task {t u : Topics} {i : Nat} {op : TaskOp} {task task' : Task}
    {out : List Bucket.Output} (hbefore : t.tasks[i]? = some (task.before op))
    (htasks : u.tasks = t.tasks.set i task') (hpack : task'.pack = task.pack)
    (hother : ∀ topic, task.pack.header.topic ≠ topic → u.bucketOf topic = t.bucketOf topic)
    (hself : ∀ k tasks, Bucket.perform { t.bucketOf task.pack.header.topic with tasks := tasks } k
      task.toTask op =
        some ({ u.bucketOf task.pack.header.topic with tasks := tasks.set k task'.toTask }, out))
    (topic : Topic) : Seen t u task.pack.header.topic topic out fun k => .task k op := by
  have hpack' : task'.pack = (task.before op).pack := hpack
  by_cases htopic : task.pack.header.topic = topic
  · subst htopic
    obtain ⟨k, hk, hset⟩ := tasksOf_set hbefore htasks hpack'
      (show (task.before op).pack.header.topic = task.pack.header.topic from rfl)
    refine .own k rfl ?_
    change Bucket.stepTask _ k op = _
    have hat : (t.view task.pack.header.topic).tasks[k]? = some (task.before op).toTask := hk
    rw [Bucket.stepTask, hat]
    change (if op = op then Bucket.perform _ k task.toTask op else none) = _
    rw [if_pos rfl, view, view, hself, hset]
  · refine .other htopic ?_
    rw [view, view, hother topic htopic, tasksOf_set_other hbefore htasks hpack' htopic]

/-- A step of the strand of a bucket is one of its topic. -/
theorem view_bucket {t u : Topics} (hd : Distinct keyTraits t.entries) {r : BucketRef}
    {e : PacketHeader × Bucket} (he : t.entries[r]? = some e) {b : Bucket}
    (hentries : u.entries = put t.entries r b) (htasks : u.tasks = t.tasks)
    {a : Bucket.Action} {out : List Bucket.Output}
    (hstep : ∀ tasks, Bucket.step e.1.topic { e.2 with tasks := tasks } a =
      some ({ b with tasks := tasks }, out)) (topic : Topic) :
    Seen t u e.1.topic topic out fun _ => a := by
  have hput := bucketOf_put hd he hentries topic
  have hsame : u.tasksOf topic = t.tasksOf topic := by rw [tasksOf, tasksOf, htasks]
  by_cases htopic : e.1.topic = topic
  · subst htopic
    refine .own 0 rfl ?_
    rw [view, view, hput, if_pos rfl, hsame, bucketOf_entry hd he]
    exact hstep _
  · refine .other htopic ?_
    rw [view, view, hput, if_neg htopic, hsame]

theorem topicOf_task {t : Topics} {i : Nat} {op : TaskOp} {task : Task}
    (hbefore : t.tasks[i]? = some (task.before op)) :
    t.topicOf (.task i op) = some task.pack.header.topic := by
  rw [topicOf, hbefore]
  rfl

theorem topicOf_bucket {t : Topics} {r : BucketRef} {e : PacketHeader × Bucket}
    (he : t.entries[r]? = some e) : (t.entries[r]?.map fun e => e.1.topic) = some e.1.topic := by
  rw [he]
  rfl

/-- A step of a task that uses its bucket, with what it does to the bucket. -/
theorem use_of_step {t t' : Topics} {i : Nat} {op : TaskOp} {out : List Output}
    (hop : op = .pushMessage ∨ op = .getConnect ∨ op = .startHandleEvents)
    (h : t.step (.task i op) = some (t', out)) : ∃ task r e b out',
      t.tasks[i]? = some (task.before op) ∧ task.found = some r ∧ t.entries[r]? = some e ∧
      e.2.perform i task.toTask op = some (b, out') ∧ t'.entries = put t.entries r b ∧
      t'.tasks = t.tasks.set i task ∧ out = [] := by
  obtain ⟨task, hbefore, hperform⟩ := stepTask_some h
  have huse : t.use i task op = some (t', out) := by
    rcases hop with rfl | rfl | rfl <;> exact hperform
  simp only [use, Option.bind_eq_bind, Option.bind_eq_some_iff] at huse
  obtain ⟨r, hr, e, he, ⟨b, out'⟩, hbucket, huse⟩ := huse
  cases huse
  exact ⟨task, r, e, b, out', hbefore, hr, he, hbucket, rfl, rfl, rfl⟩

theorem view_use {t t' : Topics} (hi : t.Isolated) {i : Nat} {op : TaskOp} {out : List Output}
    (hop : op = .pushMessage ∨ op = .getConnect ∨ op = .startHandleEvents)
    (h : t.step (.task i op) = some (t', out)) (topic : Topic) :
    ∃ own, t.topicOf (.task i op) = some own ∧
      Seen t t' own topic (out.map Output.ofTopic) fun k => .task k op := by
  obtain ⟨task, r, e, b, out', hbefore, hr, he, hperform, hentries, htasks, rfl⟩ :=
    use_of_step hop h
  obtain ⟨e', he', htopic⟩ := (hi.tasks _ (List.mem_of_getElem? hbefore)).found r hr
  rw [he] at he'
  cases he'
  change e.1.topic = task.pack.header.topic at htopic
  have hput := bucketOf_put hi.distinct he hentries
  refine ⟨task.pack.header.topic, topicOf_task hbefore, view_task hbefore htasks rfl ?_ ?_ topic⟩
  · intro topic hne
    rw [hput, if_neg (htopic ▸ hne)]
  · intro k tasks
    have hsome := (perform_elsewhere hop hperform tasks k).2.2.2
    rw [hput, if_pos htopic, ← htopic, bucketOf_entry hi.distinct he]
    exact hsome

/-- A step of `topics` is a step of the bucket of one topic, and the others do not see it. -/
theorem view_step {t t' : Topics} {a : Action} {out : List Output} (hi : t.Isolated)
    (hs : t.Shelved) (h : t.step a = some (t', out)) (topic : Topic) :
    ∃ own, t.topicOf a = some own ∧
      Seen t t' own topic (out.map Output.ofTopic) fun k => a.within k := by
  cases step_cases h with
  | put self request header payload after =>
    subst after
    refine ⟨header.topic, rfl, view_post (u := t.startStore self request ⟨header, ⟨payload⟩⟩) rfl
      (fun _ => rfl) (a := .put self header payload) ?_ topic⟩
    intro b
    rw [Bucket.step]
    exact if_pos rfl
  | get self request header after =>
    subst after
    refine ⟨header.topic, rfl, view_post (u := t.startLoad self request ⟨header, ⟨[]⟩⟩) rfl
      (fun _ => rfl) (a := .get self header) ?_ topic⟩
    intro b
    rw [Bucket.step]
    exact if_pos rfl
  | contains i task before code look after =>
    subst after
    refine ⟨_, topicOf_task before, view_task (u := t.setTask i { task with code := code }) before
      rfl rfl (fun _ _ => rfl) ?_ topic⟩
    intro k tasks
    have hcontained := contained_bucketOf hs task.pack.header
    simp only [look, ← hcontained]
    rfl
  | emplace i task before after =>
    subst after
    have hinsert := bucketOf_insert hs task.pack.header
    refine ⟨_, topicOf_task before,
      view_task (u := (t.insert task.pack.header).setTask i task) before
      rfl rfl ?_ ?_ topic⟩
    · intro topic hne
      exact (hinsert topic).trans (if_neg hne)
    · intro k tasks
      have hself := (hinsert task.pack.header.topic).trans (if_pos rfl)
      change _ = some ({ (t.insert task.pack.header).bucketOf task.pack.header.topic with
        tasks := tasks.set k task.toTask }, [])
      rw [hself]
      rfl
  | found i task before r find after =>
    subst after
    refine ⟨_, topicOf_task before, view_task (u := (t.returned task.pack.header r).setTask i
      { task with found := some r }) before rfl rfl (fun _ _ => rfl) ?_ topic⟩
    intro k tasks
    have hcontained := contained_bucketOf hs task.pack.header
    rw [contains, find] at hcontained
    exact if_pos hcontained
  | startWrite i task before after =>
    subst after
    exact ⟨_, topicOf_task before, view_task (u := t.setTask i task) before rfl rfl (fun _ _ => rfl)
      (fun _ _ => rfl) topic⟩
  | use i op hop => exact view_use hi hop h topic
  | begin r i e entry key idle posted after =>
    subst after
    refine ⟨_, topicOf_bucket entry, view_bucket (u := t.setBucket r _) hi.distinct entry rfl rfl
      (a := .begin i) ?_ topic⟩
    intro tasks
    rw [Bucket.step, Bucket.begin]
    simp only [idle, posted]
    rfl
  | handler r op e entry handler running next b out' handle after =>
    subst after
    rw [ofTopic_ofHandler handle]
    refine ⟨_, topicOf_bucket entry, view_bucket (u := { t.setBucket r b with log := _ })
      hi.distinct entry rfl rfl (a := .handler op) ?_ topic⟩
    intro tasks
    have hstep : Bucket.stepHandler { e.2 with tasks := tasks } op =
        some (Bucket.handle { e.2 with tasks := tasks } handler op) :=
      stepHandler_of_running running next
    exact hstep.trans (congrArg some (handle_tasks handle tasks))

theorem Shelved.put {t t' : Topics} (hs : t.Shelved) {r : BucketRef} {e : PacketHeader × Bucket}
    (he : t.entries[r]? = some e) {b : Bucket} (hentries : t'.entries = put t.entries r b)
    (hcontained : b.contained = e.2.contained) (htasks : e.2.tasks = [] → b.tasks = []) :
    t'.Shelved := by
  intro e' he'
  rw [hentries] at he'
  obtain ⟨j, hj⟩ := List.mem_iff_getElem?.mp he'
  rw [getElem?_put] at hj
  obtain ⟨e₀, he₀, rfl⟩ := Option.map_eq_some_iff.mp hj
  obtain ⟨hold, hnone⟩ := hs e (List.mem_of_getElem? he)
  split
  · exact ⟨hcontained.trans hold, htasks hnone⟩
  · exact hs e₀ (List.mem_of_getElem? he₀)

theorem handle_contained (b : Bucket) (h : Handler) (op : HandlerOp) :
    (b.handle h op).1.contained = b.contained := by
  cases op with
  | triggerPop | tryPop | listenerEmpty | queueEmpty =>
    simp only [handle]
    split <;> rfl
  | _ => rfl

theorem Shelved.step {t t' : Topics} {a : Action} {out : List Output} (hs : t.Shelved)
    (h : t.step a = some (t', out)) : t'.Shelved := by
  cases step_cases h with
  | put _ _ _ _ after | get _ _ _ after | contains _ _ _ _ _ after | found _ _ _ _ _ after
  | startWrite _ _ _ after =>
    subst after
    exact hs
  | emplace i task before after =>
    subst after
    intro e he
    change e ∈ UnorderedMap.emplace keyTraits t.entries task.pack.header newBucket at he
    unfold UnorderedMap.emplace at he
    split at he
    · exact hs e he
    · rcases List.mem_append.mp he with he | he
      · exact hs e he
      · rw [List.mem_singleton.mp he]
        exact ⟨rfl, rfl⟩
  | use i op hop =>
    obtain ⟨task, r, e, b, out', -, -, he, hb, hentries, -, -⟩ := use_of_step hop h
    obtain ⟨-, hcontained, htasks, -⟩ := perform_elsewhere hop hb [] 0
    refine hs.put he hentries hcontained ?_
    intro hnone
    rw [htasks, hnone]
    rfl
  | begin r i e entry key idle posted after =>
    subst after
    exact hs.put entry rfl rfl id
  | handler r op e entry handler running next b out' handle after =>
    subst after
    have hcontained := handle_contained e.2 handler op
    have hkeep := handle_tasks_posted e.2 handler op
    rw [handle] at hcontained hkeep
    refine hs.put entry rfl hcontained ?_
    intro hnone
    rw [hkeep.1, hnone]

/-! ## Runs -/

theorem run_shelved {as : List Action} {t : Topics} (hrun : run next init as = some t) :
    t.Shelved := by
  refine run_induction (P := fun _ t => Shelved t) ?_ ?_ as t hrun
  · intro e he
    cases he
  · intro _ t a t' _ hs ht
    obtain ⟨⟨t₁, out⟩, hstep, rfl⟩ := Option.map_eq_some_iff.mp ht
    exact hs.step hstep

/-- In every run of `topics`, every topic goes through a run of the bucket model. -/
theorem run_view {as : List Action} {t : Topics} (hrun : run next init as = some t)
    (topic : Topic) : ∃ bs s, run (Bucket.State.step topic) Bucket.State.init bs = some s ∧
      s.bucket = t.view topic := by
  refine run_induction (P := fun _ t => ∃ bs s,
    run (Bucket.State.step topic) Bucket.State.init bs = some s ∧ s.bucket = t.view topic)
    ⟨[], Bucket.State.init, rfl, rfl⟩ ?_ as t hrun
  rintro as t a t' hs ⟨bs, s, hbs, hbucket⟩ ht
  obtain ⟨⟨t₁, out⟩, hstep, rfl⟩ := Option.map_eq_some_iff.mp ht
  obtain ⟨own, -, hseen⟩ := view_step (run_isolated hs) (run_shelved hs) hstep topic
  cases hseen with
  | other ne same => exact ⟨bs, s, hbs, hbucket.trans same.symm⟩
  | own k eq hb =>
    rw [← hbucket] at hb
    refine ⟨bs ++ [a.within k], ⟨t₁.view topic,
      s.log.record s.bucket (out.map Output.ofTopic) (a.within k)⟩, ?_, rfl⟩
    apply run_concat hbs
    rw [Bucket.State.step, hb]
    rfl

end CppSerializer.Topics
