import CppSerializer.Topics.Model
import CppSerializer.Library.Transition

/-!
# Topics are isolated

Each entry of `topics` is for one key and salt, and whatever is in its bucket is for them: the
payloads queued were put with them, and the handlers posted and the listeners connected belong to
requests with them. A reference is taken from `at` only, and `at` is called only when the entry
has been seen or inserted, so no task uses the bucket of another topic, and `at` finds one.
-/

namespace CppSerializer.Topics

open Pack Bucket UnorderedMap Transition PacketHeader

/-! ## References -/

/-- Entry `r` is that of the topic. -/
def Refers (t : Topics) (r : BucketRef) (topic : Topic) : Prop :=
  ∃ e, t.entries[r]? = some e ∧ e.1.topic = topic

theorem refers_of_find {t : Topics} {h : PacketHeader} {r : BucketRef}
    (hr : find? keyTraits t.entries h = some r) : t.Refers r h.topic := by
  obtain ⟨e, he, hequal⟩ := equal_of_find? keyTraits_lawful hr
  exact ⟨e, he, keyCompare_iff.mp hequal⟩

theorem exists_refers {t : Topics} {h : PacketHeader}
    (hc : contains keyTraits t.entries h = true) : ∃ r, t.Refers r h.topic := by
  obtain ⟨r, hr⟩ := Option.isSome_iff_exists.mp hc
  exact ⟨r, refers_of_find hr⟩

theorem find_isSome {t : Topics} {h : PacketHeader} (hr : ∃ r, t.Refers r h.topic) :
    (find? keyTraits t.entries h).isSome = true := by
  obtain ⟨r, e, he, htopic⟩ := hr
  rw [find?_eq keyTraits_lawful, List.findIdx?_isSome, List.any_eq_true]
  exact ⟨e, List.mem_of_getElem? he, keyCompare_iff.mpr htopic⟩

/-- A payload was given to `start_store` for the topic. -/
def PutFor (t : Topics) (topic : Topic) (data : PacketData) : Prop :=
  ∃ p ∈ t.log.puts, p.header.topic = topic ∧ p.data = data

/-- What is never taken back: the entries, the puts and the listeners that were connected. -/
structure Grows (t t' : Topics) : Prop where
  keys : t.entries.map Prod.fst <+: t'.entries.map Prod.fst
  puts : ∀ p ∈ t.log.puts, p ∈ t'.log.puts
  connects : ∀ c ∈ t.log.connects, c ∈ t'.log.connects

theorem Grows.of_keys {t t' : Topics} (hkeys : t'.entries.map Prod.fst = t.entries.map Prod.fst)
    (hputs : t'.log.puts = t.log.puts) (hconnects : t'.log.connects = t.log.connects) :
    Grows t t' := by
  refine ⟨hkeys ▸ List.prefix_rfl, ?_, ?_⟩
  · rw [hputs]
    exact fun _ hp => hp
  · rw [hconnects]
    exact fun _ hc => hc

theorem grows_of_step {t t' : Topics} {a : Action} {out : List Output}
    (h : Topics.Step t t' a out) : Grows t t' := by
  cases h with
  | put _ _ _ _ after =>
    rw [after]
    exact ⟨List.prefix_rfl, fun p hp => List.mem_append_left _ hp, fun _ hc => hc⟩
  | get _ _ _ after =>
    rw [after]
    exact .of_keys rfl rfl rfl
  | contains _ _ _ _ _ after | found _ _ _ _ _ after | startWrite _ _ _ after =>
    rw [after]
    exact .of_keys rfl rfl rfl
  | emplace _ _ _ after =>
    rw [after]
    exact ⟨List.IsPrefix.map Prod.fst <| emplace_prefix newBucket, fun _ hp => hp, fun _ hc => hc⟩
  | use _ op _ task _ r _ e _ b _ _ after =>
    rw [after]
    refine ⟨?_, ?_, ?_⟩
    · change _ <+: (put t.entries r b).map Prod.fst
      rewrite [map_fst_put]
      exact List.prefix_rfl
    · intro p hp
      change p ∈ (t.log.use r e.2 task op).puts
      cases op <;> exact hp
    · intro c hc
      change c ∈ (t.log.use r e.2 task op).connects
      cases op with
      | getConnect => exact List.mem_append_left _ hc
      | _ => exact hc
  | begin _ _ _ _ _ _ _ after =>
    rw [after]
    exact .of_keys (map_fst_put _) rfl rfl
  | handler _ _ _ _ _ _ _ _ _ _ after =>
    rw [after]
    exact .of_keys (map_fst_put _) rfl rfl

theorem Refers.mono {t t' : Topics} {r : BucketRef} {topic : Topic} (h : t.Refers r topic)
    (hg : Grows t t') : t'.Refers r topic := by
  obtain ⟨e, he, htopic⟩ := h
  have hkey : (t.entries.map Prod.fst)[r]? = some e.1 := by
    rw [List.getElem?_map, he]
    rfl
  obtain ⟨hlt, hget⟩ := List.getElem?_eq_some_iff.mp hkey
  have hkey' := List.prefix_iff_getElem?.mp hg.keys r hlt
  rw [hget, List.getElem?_map] at hkey'
  obtain ⟨e', he', hfst⟩ := Option.map_eq_some_iff.mp hkey'
  exact ⟨e', he', hfst ▸ htopic⟩

theorem PutFor.mono {t t' : Topics} {topic : Topic} {data : PacketData} (h : t.PutFor topic data)
    (hg : Grows t t') : t'.PutFor topic data := by
  obtain ⟨p, hp, hfor⟩ := h
  exact ⟨p, hg.puts p hp, hfor⟩

/-! ## The invariant -/

/-- What a task has still to do. It ends a call of `get_bucket` that it has begun, and does not
use a bucket before. -/
inductive Code : Bool → List TaskOp → Prop
  | done (found : Bool) : Code found []
  | contains (found : Bool) (code : List TaskOp) (rest : Code true code) :
      Code found (.contains :: .at :: code)
  | emplace (found : Bool) (code : List TaskOp) (rest : Code true code) :
      Code found (.emplace :: .at :: code)
  | found (found : Bool) (code : List TaskOp) (rest : Code true code) : Code found (.at :: code)
  | use (op : TaskOp) (visible : op.visible = true) (code : List TaskOp) (rest : Code true code) :
      Code true (op :: code)

theorem Code.call {found : Bool} {op : TaskOp} {code : List TaskOp} (h : Code found (op :: code))
    (hop : op = .contains ∨ op = .emplace) : ∃ later, code = .at :: later ∧ Code true later := by
  cases h with
  | contains _ later rest => exact ⟨later, rfl, rest⟩
  | emplace _ later rest => exact ⟨later, rfl, rest⟩
  | found => simp at hop
  | use _ visible => rcases hop with rfl | rfl <;> cases visible

theorem Code.after_found {found : Bool} {code : List TaskOp} (h : Code found (.at :: code)) :
    Code true code := by
  cases h with
  | found _ _ rest => exact rest
  | use _ visible => cases visible

theorem Code.after_use {found : Bool} {op : TaskOp} {code : List TaskOp}
    (h : Code found (op :: code)) (hop : op.visible = true) : found = true ∧ Code true code := by
  cases h with
  | contains | emplace | found => cases hop
  | use _ _ _ rest => exact ⟨rfl, rest⟩

theorem code_startStore (self : Connection) (pack : Packet) :
    Code false (Bucket.startStore self pack).code :=
  .contains _ _ (.use _ rfl _ (.use _ rfl _ (.use _ rfl _ (.done _))))

theorem code_startLoad (self : Connection) (pack : Packet) :
    Code false (Bucket.startLoad self pack).code :=
  .contains _ _ (.use _ rfl _ (.contains _ _ (.use _ rfl _ (.done _))))

structure TaskIsolated (t : Topics) (task : Task) : Prop where
  code : Code task.found.isSome task.code
  inserted : task.code.head? = some .at → ∃ r, t.Refers r task.pack.header.topic
  found : ∀ r, task.found = some r → t.Refers r task.pack.header.topic
  put : .pushMessage ∈ task.code → task.pack ∈ t.log.puts

/-- All that is in bucket `r` belongs to the topic. -/
structure BucketIsolated (t : Topics) (r : BucketRef) (topic : Topic) (b : Bucket) : Prop where
  queue : ∀ m ∈ b.messageQueue, t.PutFor topic m
  listeners : ∀ l ∈ b.listeners, ∃ h, ⟨r, l, h⟩ ∈ t.log.connects
  posted : ∀ key ∈ b.posted, key.header.topic = topic
  running : ∀ h, b.running = some h →
    h.resp.header.topic = topic ∧ (h.next = .emit → t.PutFor topic h.resp.data)

structure Isolated (t : Topics) : Prop where
  distinct : Distinct keyTraits t.entries
  tasks : ∀ task ∈ t.tasks, t.TaskIsolated task
  entries : ∀ r e, t.entries[r]? = some e → t.BucketIsolated r e.1.topic e.2
  buckets : ∀ x ∈ t.log.buckets, t.Refers x.2 x.1.topic
  connects : ∀ c ∈ t.log.connects, t.Refers c.bucket c.header.topic
  handed : ∀ x ∈ t.log.handed, (∃ h, ⟨x.bucket, x.listener, h⟩ ∈ t.log.connects) ∧
    t.Refers x.bucket x.pack.header.topic ∧ t.PutFor x.pack.header.topic x.pack.data

theorem TaskIsolated.mono {t t' : Topics} {task : Task} (h : t.TaskIsolated task)
    (hg : Grows t t') : t'.TaskIsolated task := by
  refine ⟨h.code, ?_, fun r hr => (h.found r hr).mono hg, fun hp => hg.puts _ (h.put hp)⟩
  intro hhead
  obtain ⟨r, hr⟩ := h.inserted hhead
  exact ⟨r, hr.mono hg⟩

theorem BucketIsolated.mono {t t' : Topics} {r : BucketRef} {topic : Topic} {b : Bucket}
    (h : t.BucketIsolated r topic b) (hg : Grows t t') : t'.BucketIsolated r topic b := by
  refine ⟨fun m hm => (h.queue m hm).mono hg, ?_, h.posted, ?_⟩
  · intro l hl
    obtain ⟨header, hc⟩ := h.listeners l hl
    exact ⟨header, hg.connects _ hc⟩
  · intro handler hrun
    obtain ⟨htopic, hput⟩ := h.running handler hrun
    exact ⟨htopic, fun hnext => (hput hnext).mono hg⟩

/-- What a step has to show: that what is new is isolated. -/
theorem Isolated.of_step {t t' : Topics} (hi : Isolated t) (hg : Grows t t')
    (hdistinct : Distinct keyTraits t'.entries)
    (htasks : ∀ task ∈ t'.tasks, task ∈ t.tasks ∨ t'.TaskIsolated task)
    (hentries : ∀ r e, t'.entries[r]? = some e →
      t.entries[r]? = some e ∨ t'.BucketIsolated r e.1.topic e.2)
    (hbuckets : ∀ x ∈ t'.log.buckets, x ∈ t.log.buckets ∨ t'.Refers x.2 x.1.topic)
    (hconnects : ∀ c ∈ t'.log.connects,
      c ∈ t.log.connects ∨ t'.Refers c.bucket c.header.topic)
    (hhanded : ∀ x ∈ t'.log.handed, x ∈ t.log.handed ∨
      (∃ h, ⟨x.bucket, x.listener, h⟩ ∈ t'.log.connects) ∧
      t'.Refers x.bucket x.pack.header.topic ∧ t'.PutFor x.pack.header.topic x.pack.data) :
    Isolated t' := by
  refine ⟨hdistinct, ?_, ?_, ?_, ?_, ?_⟩
  · intro task htask
    rcases htasks task htask with hold | hnew
    · exact (hi.tasks task hold).mono hg
    · exact hnew
  · intro r e he
    rcases hentries r e he with hold | hnew
    · exact (hi.entries r e hold).mono hg
    · exact hnew
  · intro x hx
    rcases hbuckets x hx with hold | hnew
    · exact (hi.buckets x hold).mono hg
    · exact hnew
  · intro c hc
    rcases hconnects c hc with hold | hnew
    · exact (hi.connects c hold).mono hg
    · exact hnew
  · intro x hx
    rcases hhanded x hx with hold | hnew
    · obtain ⟨⟨h, hc⟩, hrefers, hput⟩ := hi.handed x hold
      exact ⟨⟨h, hg.connects _ hc⟩, hrefers.mono hg, hput.mono hg⟩
    · exact hnew

/-! ## Steps of tasks -/

theorem mem_setTask {t : Topics} {i : Nat} {task task' : Task}
    (h : task' ∈ (t.setTask i task).tasks) : task' ∈ t.tasks ∨ task' = task :=
  List.mem_or_eq_of_mem_set h

/-- A step that changes a task and nothing else but the log of buckets. -/
theorem Isolated.setTask {t t' : Topics} (hi : Isolated t) {i : Nat} {task : Task}
    (htask : t'.TaskIsolated task) (htasks : t'.tasks = t.tasks.set i task)
    (hentries : t'.entries = t.entries) (hputs : t'.log.puts = t.log.puts)
    (hconnects : t'.log.connects = t.log.connects) (hhanded : t'.log.handed = t.log.handed)
    (hbuckets : ∀ x ∈ t'.log.buckets, x ∈ t.log.buckets ∨ t'.Refers x.2 x.1.topic) :
    Isolated t' := by
  have hg : Grows t t' := Grows.of_keys (by rw [hentries]) hputs hconnects
  refine hi.of_step hg (hentries ▸ hi.distinct) ?_ ?_ hbuckets ?_ ?_
  · intro task' hmem
    rw [htasks] at hmem
    rcases List.mem_or_eq_of_mem_set hmem with hold | rfl
    · exact Or.inl hold
    · exact Or.inr htask
  · intro r e he
    rw [hentries] at he
    exact Or.inl he
  · intro c hc
    rw [hconnects] at hc
    exact Or.inl hc
  · intro x hx
    rw [hhanded] at hx
    exact Or.inl hx

theorem Isolated.post {t t' : Topics} (hi : Isolated t) {task : Task}
    (htask : t'.TaskIsolated task) (htasks : t'.tasks = t.tasks ++ [task])
    (hentries : t'.entries = t.entries) (hputs : ∀ p ∈ t.log.puts, p ∈ t'.log.puts)
    (hconnects : t'.log.connects = t.log.connects) (hhanded : t'.log.handed = t.log.handed)
    (hbuckets : t'.log.buckets = t.log.buckets) : Isolated t' := by
  have hg : Grows t t' := by
    refine ⟨?_, hputs, ?_⟩
    · rewrite [hentries]
      exact List.prefix_rfl
    · rw [hconnects]
      exact fun _ hc => hc
  refine hi.of_step hg (hentries ▸ hi.distinct) ?_ ?_ ?_ ?_ ?_
  · intro task' hmem
    rw [htasks] at hmem
    rcases List.mem_append.mp hmem with hold | hnew
    · exact Or.inl hold
    · rw [List.mem_singleton.mp hnew]
      exact Or.inr htask
  · intro r e he
    rw [hentries] at he
    exact Or.inl he
  · intro x hx
    rw [hbuckets] at hx
    exact Or.inl hx
  · intro c hc
    rw [hconnects] at hc
    exact Or.inl hc
  · intro x hx
    rw [hhanded] at hx
    exact Or.inl hx

theorem taskIsolated_contains {t : Topics} {task : Task}
    (h : t.TaskIsolated (task.before .contains)) {code : List TaskOp}
    (hcode : code = if contains keyTraits t.entries task.pack.header then task.code
      else .emplace :: task.code) : t.TaskIsolated { task with code := code } := by
  obtain ⟨later, hlater, hrest⟩ := h.code.call (Or.inl rfl)
  change task.code = .at :: later at hlater
  rw [hlater] at hcode
  refine ⟨?_, ?_, h.found, ?_⟩
  · rw [hcode]
    split
    · exact .found _ later hrest
    · exact .emplace _ later hrest
  · intro hhead
    rw [hcode] at hhead
    split at hhead
    · rename_i hcontains
      exact exists_refers hcontains
    · cases hhead
  · intro hmem
    apply h.put
    have hmem' : TaskOp.pushMessage ∈ later := by
      rw [hcode] at hmem
      split at hmem
      · simpa using hmem
      · simpa using hmem
    change _ ∈ TaskOp.contains :: task.code
    rw [hlater]
    exact List.mem_cons_of_mem _ (List.mem_cons_of_mem _ hmem')

theorem taskIsolated_emplace {t t' : Topics} {task : Task}
    (h : t.TaskIsolated (task.before .emplace)) (hg : Grows t t')
    (hinserted : ∃ r, t'.Refers r task.pack.header.topic) : t'.TaskIsolated task := by
  obtain ⟨later, hlater, hrest⟩ := h.code.call (Or.inr rfl)
  refine ⟨?_, fun _ => hinserted, fun r hr => (h.found r hr).mono hg, ?_⟩
  · change task.code = .at :: later at hlater
    rw [hlater]
    exact .found _ later hrest
  · intro hmem
    exact hg.puts _ (h.put (List.mem_cons_of_mem _ hmem))

theorem taskIsolated_found {t : Topics} {task : Task} (h : t.TaskIsolated (task.before .at))
    {r : BucketRef} (hr : t.Refers r task.pack.header.topic) :
    t.TaskIsolated { task with found := some r } := by
  refine ⟨h.code.after_found, ?_, ?_, fun hmem => h.put (List.mem_cons_of_mem _ hmem)⟩
  · intro _
    exact ⟨r, hr⟩
  · rintro _ ⟨⟩
    exact hr

/-- A visible step comes after a call of `get_bucket`. -/
theorem taskIsolated_use {t : Topics} {task : Task} {op : TaskOp}
    (h : t.TaskIsolated (task.before op)) (hop : op.visible = true) : t.TaskIsolated task := by
  obtain ⟨hsome, hrest⟩ := h.code.after_use hop
  change task.found.isSome = true at hsome
  refine ⟨hsome ▸ hrest, ?_, h.found, fun hmem => h.put (List.mem_cons_of_mem _ hmem)⟩
  intro _
  obtain ⟨r, hr⟩ := Option.isSome_iff_exists.mp hsome
  exact ⟨r, h.found r hr⟩

theorem Isolated.insert {t t' : Topics} (hi : Isolated t) (hg : Grows t t') {i : Nat} {task : Task}
    (hbefore : t.tasks[i]? = some (task.before .emplace))
    (hafter : t' = (t.insert task.pack.header).setTask i task) : Isolated t' := by
  have hinserted : ∃ r, t'.Refers r task.pack.header.topic := by
    rw [hafter]
    exact exists_refers (contains_emplace keyTraits_lawful newBucket)
  have htask := taskIsolated_emplace (hi.tasks _ (List.mem_of_getElem? hbefore)) hg hinserted
  refine hi.of_step hg ?_ ?_ ?_ ?_ ?_ ?_
  · rw [hafter]
    exact hi.distinct.emplace keyTraits_lawful newBucket
  · intro task' hmem
    rw [hafter] at hmem
    rcases mem_setTask hmem with hold | rfl
    · exact Or.inl hold
    · exact Or.inr htask
  · intro r e he
    rw [hafter] at he
    change (emplace keyTraits t.entries task.pack.header newBucket)[r]? = some e at he
    unfold emplace at he
    split at he
    · exact Or.inl he
    · by_cases hr : r < t.entries.length
      · rw [List.getElem?_append_left hr] at he
        exact Or.inl he
      · rw [List.getElem?_append_right (Nat.le_of_not_lt hr)] at he
        obtain rfl := List.mem_singleton.mp (List.mem_of_getElem? he)
        refine Or.inr ⟨?_, ?_, ?_, ?_⟩
        · intro m hm
          cases hm
        · intro l hl
          cases hl
        · intro key hkey
          cases hkey
        · intro h hrun
          cases hrun
  · intro x hx
    rw [hafter] at hx
    exact Or.inl hx
  · intro c hc
    rw [hafter] at hc
    exact Or.inl hc
  · intro x hx
    rw [hafter] at hx
    exact Or.inl hx

/-! ## Steps of buckets -/

/-- A step on bucket `r`, which a task may take. -/
theorem Isolated.bucket {t t' : Topics} (hi : Isolated t) {r : BucketRef}
    {e : PacketHeader × Bucket} (he : t.entries[r]? = some e) {b : Bucket}
    (hentries : t'.entries = put t.entries r b) (hg : Grows t t')
    (hb : t'.BucketIsolated r e.1.topic b) (hbuckets : t'.log.buckets = t.log.buckets)
    (htasks : ∀ task ∈ t'.tasks, task ∈ t.tasks ∨ t'.TaskIsolated task)
    (hconnects : ∀ c ∈ t'.log.connects,
      c ∈ t.log.connects ∨ t'.Refers c.bucket c.header.topic)
    (hhanded : ∀ x ∈ t'.log.handed, x ∈ t.log.handed ∨ x.bucket = r ∧
      (∃ h, ⟨r, x.listener, h⟩ ∈ t'.log.connects) ∧ x.pack.header.topic = e.1.topic ∧
      t'.PutFor e.1.topic x.pack.data) : Isolated t' := by
  have hrefers : t'.Refers r e.1.topic := Refers.mono ⟨e, he, rfl⟩ hg
  refine hi.of_step hg ?_ htasks ?_ ?_ hconnects ?_
  · rw [hentries]
    exact hi.distinct.congr (map_fst_put b)
  · intro r' e' he'
    rw [hentries, getElem?_put] at he'
    obtain ⟨e₀, he₀, heq⟩ := Option.map_eq_some_iff.mp he'
    by_cases hr : r = r'
    · subst hr
      rw [he] at he₀
      cases he₀
      rw [if_pos rfl] at heq
      cases heq
      exact Or.inr hb
    · rw [if_neg hr] at heq
      cases heq
      exact Or.inl he₀
  · rw [hbuckets]
    exact fun x hx => Or.inl hx
  · intro x hx
    rcases hhanded x hx with hold | ⟨rfl, hconnect, htopic, hput⟩
    · exact Or.inl hold
    · exact Or.inr ⟨hconnect, htopic ▸ hrefers, htopic ▸ hput⟩

theorem connects_use (t : Topics) (r : BucketRef) (e : Bucket) (task : Task) (op : TaskOp) :
    (t.log.use r e task op).connects = t.log.connects ++
      if op = .getConnect then [⟨r, ⟨e.nextSlot, task.self⟩, task.pack.header⟩] else [] := by
  cases op <;> simp [Log.use]

/-- What a task leaves of the bucket of its topic. -/
theorem bucketIsolated_use {t t' : Topics} {op : TaskOp} {task : Task}
    (hold : t.TaskIsolated (task.before op)) {r : BucketRef} {e : Bucket} {topic : Topic}
    (htopic : task.pack.header.topic = topic) (hbucket : t'.BucketIsolated r topic e)
    {b : Bucket} {out : List Bucket.Output} (hs : TaskStep e b op task.toTask out)
    (hlog : t'.log = t.log.use r e task op) : t'.BucketIsolated r topic b := by
  have hputs : t'.log.puts = t.log.puts := by
    rw [hlog]
    cases op <;> rfl
  refine ⟨?_, ?_, ?_, ?_⟩
  · intro m hm
    rw [hs.messageQueue] at hm
    rcases List.mem_append.mp hm with hm | hm
    · exact hbucket.queue m hm
    · split at hm
      · rename_i hpush
        rw [List.mem_singleton.mp hm]
        refine ⟨task.pack, ?_, htopic, rfl⟩
        rw [hputs]
        apply hold.put
        rw [hpush]
        exact List.mem_cons_self
      · cases hm
  · intro l hl
    rw [hs.listeners] at hl
    rcases List.mem_append.mp hl with hl | hl
    · exact hbucket.listeners l hl
    · split at hl
      · rename_i hconnect
        rw [List.mem_singleton.mp hl]
        refine ⟨task.pack.header, ?_⟩
        rw [hlog, connects_use, if_pos hconnect]
        exact List.mem_append_right _ (List.mem_singleton_self _)
      · cases hl
  · intro key hkey
    rw [hs.posted] at hkey
    rcases List.mem_append.mp hkey with hkey | hkey
    · exact hbucket.posted key hkey
    · split at hkey
      · rw [List.mem_singleton.mp hkey]
        exact htopic
      · cases hkey
  · intro h hrun
    rw [hs.running] at hrun
    exact hbucket.running h hrun

theorem Isolated.use {t t' : Topics} (hi : Isolated t) (hg : Grows t t') {i : Nat} {op : TaskOp}
    (hop : op = .pushMessage ∨ op = .getConnect ∨ op = .startHandleEvents) {task : Task}
    (hbefore : t.tasks[i]? = some (task.before op))
    {r : BucketRef} (hfound : task.found = some r) {e : PacketHeader × Bucket}
    (he : t.entries[r]? = some e) {b : Bucket} {out : List Bucket.Output}
    (hs : TaskStep e.2 b op task.toTask out)
    (hafter : t' = { t.setBucket r b with log := t.log.use r e.2 task op }.setTask i task) :
    Isolated t' := by
  have hvisible : op.visible = true := by
    rcases hop with rfl | rfl | rfl <;> rfl
  have hold := hi.tasks _ (List.mem_of_getElem? hbefore)
  have htopic : task.pack.header.topic = e.1.topic := by
    obtain ⟨e', he', htopic⟩ := hold.found r hfound
    rw [he] at he'
    cases he'
    exact htopic.symm
  have hentries : t'.entries = put t.entries r b := by rw [hafter]; rfl
  have hlog : t'.log = t.log.use r e.2 task op := by rw [hafter]; rfl
  have hbucket := (hi.entries r e he).mono hg
  refine hi.bucket he hentries hg (bucketIsolated_use hold htopic hbucket hs hlog) ?_ ?_ ?_ ?_
  · rw [hlog]
    cases op <;> rfl
  · intro task' hmem
    rw [hafter] at hmem
    rcases mem_setTask hmem with hmem | rfl
    · exact Or.inl hmem
    · exact Or.inr ((taskIsolated_use hold hvisible).mono hg)
  · intro c hc
    rw [hlog, connects_use] at hc
    rcases List.mem_append.mp hc with hc | hc
    · exact Or.inl hc
    · split at hc
      · rw [List.mem_singleton.mp hc]
        refine Or.inr ?_
        change t'.Refers r task.pack.header.topic
        rw [htopic]
        exact Refers.mono ⟨e, he, rfl⟩ hg
      · cases hc
  · intro x hx
    rw [hlog] at hx
    cases op <;> exact Or.inl hx

/-! ## Steps of handlers -/

theorem mem_handed {r : BucketRef} {out : List Bucket.Output} {x : Handed}
    (h : x ∈ out.filterMap (Handed.ofHandler r)) :
    x.bucket = r ∧ .call x.listener x.pack ∈ out := by
  obtain ⟨o, ho, hx⟩ := List.mem_filterMap.mp h
  cases o with
  | call listener pack =>
    cases hx
    exact ⟨rfl, ho⟩
  | write self pack | post body => cases hx

/-- An emit calls the slots with the header of `resp`, but for the size, and with its data. -/
theorem call_of_emit {resp : Packet} {ls : List Listener} {l : Listener} {pack : Packet}
    (h : .call l pack ∈ (emit resp ls).1) :
    l ∈ ls ∧ pack.header.topic = resp.header.topic ∧ pack.data = resp.data := by
  induction ls generalizing resp with
  | nil => cases h
  | cons l' ls ih =>
    rcases List.mem_cons.mp h with h | h
    · cases h
      exact ⟨List.mem_cons_self, rfl, rfl⟩
    · obtain ⟨hl, htopic, hdata⟩ := ih h
      exact ⟨List.mem_cons_of_mem _ hl, htopic, hdata⟩

theorem emit_topic (resp : Packet) (ls : List Listener) :
    (emit resp ls).2.header.topic = resp.header.topic := by
  induction ls generalizing resp with
  | nil => rfl
  | cons l ls ih => exact ih resp.sized

/-- What a step of the running handler leaves of the bucket, and whom it calls. -/
theorem handle_isolated {t : Topics} {r : BucketRef} {topic : Topic} {b b' : Bucket} {h : Handler}
    {op : HandlerOp} {out : List Bucket.Output} (hb : t.BucketIsolated r topic b)
    (hrun : b.running = some h) (hnext : h.next = op) (hstep : b.handle h op = (b', out)) :
    t.BucketIsolated r topic b' ∧ ∀ l pack, .call l pack ∈ out →
      l ∈ b.listeners ∧ pack.header.topic = topic ∧ t.PutFor topic pack.data := by
  obtain ⟨htopic, hput⟩ := hb.running h hrun
  have hnone : ∀ l pack, Bucket.Output.call l pack ∈ [] → l ∈ b.listeners ∧
      pack.header.topic = topic ∧ t.PutFor topic pack.data := by
    intro l pack hmem
    cases hmem
  cases op with
  | triggerPop | tryPop =>
    rw [handle] at hstep
    split at hstep <;> cases hstep
    · rename_i m queue hqueue
      have hall : ∀ m' ∈ m :: queue, t.PutFor topic m' := hqueue ▸ hb.queue
      refine ⟨⟨fun m' hm' => hall m' (List.mem_cons_of_mem _ hm'), hb.listeners, hb.posted, ?_⟩,
        hnone⟩
      rintro _ ⟨⟩
      exact ⟨htopic, fun _ => hall m List.mem_cons_self⟩
    · refine ⟨⟨hb.queue, hb.listeners, hb.posted, ?_⟩, hnone⟩
      first
      | rintro _ ⟨⟩
        exact ⟨htopic, by simp⟩
      | intro handler hrun'
        cases hrun'
  | listenerEmpty | queueEmpty =>
    rw [handle] at hstep
    split at hstep <;> cases hstep
    · refine ⟨⟨hb.queue, hb.listeners, hb.posted, ?_⟩, hnone⟩
      intro handler hrun'
      cases hrun'
    · refine ⟨⟨hb.queue, hb.listeners, hb.posted, ?_⟩, hnone⟩
      rintro _ ⟨⟩
      exact ⟨htopic, by simp⟩
  | startTriggerPost =>
    cases hstep
    refine ⟨⟨hb.queue, hb.listeners, hb.posted, ?_⟩, ?_⟩
    · rintro _ ⟨⟩
      exact ⟨htopic, by simp⟩
    · intro l pack hmem
      simp at hmem
  | emit =>
    cases hstep
    refine ⟨⟨hb.queue, hb.listeners, hb.posted, ?_⟩, ?_⟩
    · rintro _ ⟨⟩
      exact ⟨(emit_topic _ _).trans htopic, by simp⟩
    · intro l pack hmem
      obtain ⟨hl, hheader, hdata⟩ := call_of_emit hmem
      exact ⟨hl, hheader.trans htopic, hdata ▸ hput hnext⟩
  | disconnectAllSlots =>
    cases hstep
    refine ⟨⟨hb.queue, fun l hl => (by cases hl), hb.posted, ?_⟩, hnone⟩
    intro handler hrun'
    cases hrun'

/-! ## Runs -/

theorem Isolated.step {t t' : Topics} {a : Action} {out : List Output} (hi : Isolated t)
    (h : t.step a = some (t', out)) : Isolated t' := by
  have hstep := step_cases h
  have hg := grows_of_step hstep
  cases hstep with
  | put self request header payload after =>
    subst after
    refine hi.post ?_ rfl rfl hg.puts rfl rfl rfl
    refine ⟨code_startStore self _, by simp [Bucket.startStore, getBucket], by simp, ?_⟩
    intro _
    exact List.mem_append_right _ (List.mem_singleton_self _)
  | get self request header after =>
    subst after
    refine hi.post ?_ rfl rfl hg.puts rfl rfl rfl
    exact ⟨code_startLoad self _, by simp [Bucket.startLoad, getBucket], by simp,
      by simp [Bucket.startLoad, getBucket]⟩
  | contains i task before code look after =>
    subst after
    have htask := taskIsolated_contains (hi.tasks _ (List.mem_of_getElem? before)) look
    exact hi.setTask (htask.mono hg) rfl rfl rfl rfl rfl (fun x hx => Or.inl hx)
  | emplace i task before after => exact hi.insert hg before after
  | found i task before r find after =>
    subst after
    have hrefers := refers_of_find find
    have htask := taskIsolated_found (hi.tasks _ (List.mem_of_getElem? before)) hrefers
    refine hi.setTask (htask.mono hg) rfl rfl rfl rfl rfl ?_
    intro x hx
    rcases List.mem_append.mp hx with hx | hx
    · exact Or.inl hx
    · rw [List.mem_singleton.mp hx]
      exact Or.inr hrefers
  | use i op hop task before r found e entry b out step after =>
    exact hi.use hg hop before found entry step after
  | startWrite i task before after =>
    subst after
    have htask := taskIsolated_use (hi.tasks _ (List.mem_of_getElem? before)) rfl
    exact hi.setTask (htask.mono hg) rfl rfl rfl rfl rfl (fun x hx => Or.inl hx)
  | begin r i e entry key idle posted after =>
    subst after
    have hb := (hi.entries r e entry).mono hg
    refine hi.bucket entry rfl hg ?_ rfl (fun _ hm => Or.inl hm) (fun _ hc => Or.inl hc)
      (fun _ hx => Or.inl hx)
    refine ⟨hb.queue, hb.listeners, fun k hk => hb.posted k (List.mem_of_mem_eraseIdx hk), ?_⟩
    rintro _ ⟨⟩
    refine ⟨hb.posted key (List.mem_of_getElem? posted), ?_⟩
    rw [Handler.start_next]
    split <;> simp
  | handler r op e entry h running next b out handle after =>
    have hold := (hi.entries r e entry).mono hg
    obtain ⟨hb, hcalls⟩ := handle_isolated hold running next handle
    subst after
    refine hi.bucket entry rfl hg hb rfl (fun _ hm => Or.inl hm) (fun _ hc => Or.inl hc) ?_
    intro x hx
    rcases List.mem_append.mp hx with hx | hx
    · exact Or.inl hx
    · obtain ⟨hr, hcall⟩ := mem_handed hx
      obtain ⟨hl, htopic, hput⟩ := hcalls _ _ hcall
      exact Or.inr ⟨hr, hold.listeners _ hl, htopic, hput⟩

/-- The run of the topics, without what they make others do. -/
def next (t : Topics) (a : Action) : Option Topics := (t.step a).map Prod.fst

theorem run_isolated {as : List Action} {t : Topics} (hrun : run next init as = some t) :
    Isolated t := by
  refine run_induction (P := fun _ t => Isolated t) ?_ ?_ as t hrun
  · constructor <;> simp [init, Distinct]
  · intro _ t a t' _ hi ht
    obtain ⟨⟨t₁, out⟩, hstep, rfl⟩ := Option.map_eq_some_iff.mp ht
    exact hi.step hstep

/-- Whenever two calls of `get_bucket` were made in a run, they have returned the same bucket
exactly if their headers have the same key and salt; a task that is about to call `at` finds an
entry; and what a bucket has handed to the listener of a get has the key and the salt of the get,
and a payload that was put with them. -/
theorem topics_isolated {as : List Action} {t : Topics} (hrun : run next init as = some t) :
    (∀ h₁ r₁ h₂ r₂, (h₁, r₁) ∈ t.log.buckets → (h₂, r₂) ∈ t.log.buckets →
      (r₁ = r₂ ↔ h₁.key = h₂.key ∧ h₁.randomSalt = h₂.randomSalt)) ∧
    (∀ task ∈ t.tasks, task.code.head? = some .at →
      (find? keyTraits t.entries task.pack.header).isSome = true) ∧
    ∀ x ∈ t.log.handed, (∃ h, ⟨x.bucket, x.listener, h⟩ ∈ t.log.connects) ∧
      ∀ h, ⟨x.bucket, x.listener, h⟩ ∈ t.log.connects →
        x.pack.header.key = h.key ∧ x.pack.header.randomSalt = h.randomSalt ∧
        ∃ p ∈ t.log.puts, p.header.key = h.key ∧ p.header.randomSalt = h.randomSalt ∧
          p.data = x.pack.data := by
  have hi := run_isolated hrun
  refine ⟨?_, ?_, ?_⟩
  · intro h₁ r₁ h₂ r₂ hr₁ hr₂
    obtain ⟨e₁, he₁, htopic₁⟩ := hi.buckets _ hr₁
    obtain ⟨e₂, he₂, htopic₂⟩ := hi.buckets _ hr₂
    rw [hi.distinct.eq_iff keyTraits_lawful he₁ (keyCompare_iff.mpr htopic₁) he₂
      (keyCompare_iff.mpr htopic₂)]
    exact keyCompare_iff.trans Prod.mk_inj
  · intro task htask hhead
    exact find_isSome ((hi.tasks task htask).inserted hhead)
  · intro x hx
    obtain ⟨hconnect, ⟨e, he, htopic⟩, hput⟩ := hi.handed x hx
    refine ⟨hconnect, ?_⟩
    intro h hh
    obtain ⟨e', he', htopic'⟩ := hi.connects _ hh
    rw [he] at he'
    cases he'
    have hsame : x.pack.header.topic = h.topic := htopic.symm.trans htopic'
    obtain ⟨hkey, hsalt⟩ := Prod.mk.inj hsame
    obtain ⟨p, hp, hfor, hdata⟩ := hput
    obtain ⟨hkey', hsalt'⟩ := Prod.mk.inj (hfor.trans hsame)
    exact ⟨hkey, hsalt, p, hp, hkey', hsalt', hdata⟩

/-- A header with a salt and a sequence. -/
def raceHeader (type : MsgT) (salt sequence : UnitT) : PacketHeader :=
  { type := type, key := List.Vector.replicate 32 7, datasize := 0
    sequence := List.Vector.replicate 4 sequence, randomSalt := List.Vector.replicate 4 salt }

/-- A put and a get both find their topic missing and insert it; the get is served. A put with
another salt comes last. -/
def raceRun : List Action :=
  [.put 0 0 (raceHeader .put 1 2) [65], .get 1 0 (raceHeader .get 1 3),
    .put 0 1 (raceHeader .put 9 2) [66],
    .task 0 .contains, .task 1 .contains, .task 0 .emplace, .task 1 .emplace, .task 1 .at,
    .task 0 .at, .task 0 .pushMessage, .task 1 .getConnect, .task 1 .contains, .task 1 .at,
    .task 1 .startHandleEvents, .begin 0 0, .handler 0 .listenerEmpty, .handler 0 .queueEmpty,
    .handler 0 .tryPop, .handler 0 .emit, .task 2 .contains, .task 2 .emplace, .task 2 .at]

theorem raceRun_end : ((run next init raceRun).map fun t =>
    (t.log.buckets.map Prod.snd,
      t.log.handed.map fun x => (x.listener.connection, x.pack.data.buf))) =
      some ([0, 0, 0, 1], [(1, [65])]) := by
  decide +kernel

theorem topics_isolated_raceRun : ∃ t, run next init raceRun = some t ∧
    t.log.buckets.map Prod.snd = [0, 0, 0, 1] ∧
    (∀ h₁ r₁ h₂ r₂, (h₁, r₁) ∈ t.log.buckets → (h₂, r₂) ∈ t.log.buckets →
      (r₁ = r₂ ↔ h₁.key = h₂.key ∧ h₁.randomSalt = h₂.randomSalt)) ∧
    (∀ task ∈ t.tasks, task.code.head? = some .at →
      (find? keyTraits t.entries task.pack.header).isSome = true) ∧
    ∀ x ∈ t.log.handed, (∃ h, ⟨x.bucket, x.listener, h⟩ ∈ t.log.connects) ∧
      ∀ h, ⟨x.bucket, x.listener, h⟩ ∈ t.log.connects →
        x.pack.header.key = h.key ∧ x.pack.header.randomSalt = h.randomSalt ∧
        ∃ p ∈ t.log.puts, p.header.key = h.key ∧ p.header.randomSalt = h.randomSalt ∧
          p.data = x.pack.data := by
  obtain ⟨t, ht, hend⟩ := Option.map_eq_some_iff.mp raceRun_end
  exact ⟨t, ht, (Prod.mk.inj hend).1, topics_isolated ht⟩

end CppSerializer.Topics
