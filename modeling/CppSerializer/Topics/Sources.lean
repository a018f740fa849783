import CppSerializer.Topics.Identity

/-!
# What a step of the topics adds

Whose tasks connect slots, and what a step adds to the log: the packet of a put, the slot of a
task of a get, the packets that a handler hands to slots.
-/

namespace CppSerializer.Topics

open Pack Bucket

/-- A task that will connect a slot is the same one as before, or that of a get. -/
theorem listens_of_step {t t' : Topics} {a : Action} {out : List Output}
    (h : t.step a = some (t', out)) : ∀ task ∈ t'.tasks, .getConnect ∈ task.code →
      (∃ task' ∈ t.tasks, .getConnect ∈ task'.code ∧ task'.self = task.self ∧
        task'.pack = task.pack) ∨ ∃ request, a = .get task.self request task.pack.header := by
  have hset : ∀ {i : Nat} {op : TaskOp} {before : Task} (after : Task),
      t.tasks[i]? = some (before.before op) →
      (.getConnect ∈ after.code → .getConnect ∈ (before.before op).code) →
      after.self = before.self → after.pack = before.pack →
      ∀ task ∈ t.tasks.set i after, .getConnect ∈ task.code →
        ∃ task' ∈ t.tasks, .getConnect ∈ task'.code ∧ task'.self = task.self ∧
          task'.pack = task.pack := by
    intro i op before after hbefore hcode hself hpack task htask hconnect
    rcases List.mem_or_eq_of_mem_set htask with hold | rfl
    · exact ⟨task, hold, hconnect, rfl, rfl⟩
    · exact ⟨_, List.mem_of_getElem? hbefore, hcode hconnect, hself.symm, hpack.symm⟩
  intro task htask hconnect
  cases step_cases h with
  | put self request header payload after =>
    rw [after] at htask
    rcases List.mem_append.mp htask with hold | hnew
    · exact Or.inl ⟨task, hold, hconnect, rfl, rfl⟩
    · rw [List.mem_singleton.mp hnew] at hconnect
      simp [Bucket.startStore, getBucket] at hconnect
  | get self request header after =>
    rw [after] at htask
    rcases List.mem_append.mp htask with hold | hnew
    · exact Or.inl ⟨task, hold, hconnect, rfl, rfl⟩
    · rw [List.mem_singleton.mp hnew]
      exact Or.inr ⟨request, rfl⟩
  | contains i task' before code look after =>
    rw [after] at htask
    refine Or.inl (hset { task' with code := code } before ?_ rfl rfl task htask hconnect)
    intro hmem
    apply List.mem_cons_of_mem
    change _ ∈ code at hmem
    rw [look] at hmem
    split at hmem
    · exact hmem
    · simpa using hmem
  | emplace i task' before after =>
    rw [after] at htask
    exact Or.inl (hset task' before (List.mem_cons_of_mem _) rfl rfl task htask hconnect)
  | found i task' before r find after =>
    rw [after] at htask
    exact Or.inl (hset { task' with found := some r } before (List.mem_cons_of_mem _) rfl rfl task
      htask hconnect)
  | use i op hop task' before r found e entry b out step after =>
    rw [after] at htask
    exact Or.inl (hset task' before (List.mem_cons_of_mem _) rfl rfl task htask hconnect)
  | startWrite i task' before after =>
    rw [after] at htask
    exact Or.inl (hset task' before (List.mem_cons_of_mem _) rfl rfl task htask hconnect)
  | begin r i e entry key idle posted after =>
    rw [after] at htask
    exact Or.inl ⟨task, htask, hconnect, rfl, rfl⟩
  | handler r op e entry handler running next b out handle after =>
    rw [after] at htask
    exact Or.inl ⟨task, htask, hconnect, rfl, rfl⟩

/-- What a step adds to the log. -/
structure Logs (t t' : Topics) (a : Action) (out : List Output) : Prop where
  puts : ∀ pack ∈ t'.log.puts, pack ∈ t.log.puts ∨
    ∃ self request, a = .put self request pack.header pack.data.buf
  connects : ∀ x ∈ t'.log.connects, x ∈ t.log.connects ∨
    ∃ task ∈ t.tasks, .getConnect ∈ task.code ∧ x.listener.connection = task.self ∧
      x.header = task.pack.header
  handed : ∀ x ∈ t.log.handed, x ∈ t'.log.handed
  called : ∀ l pack, .call l pack ∈ out → ∃ x ∈ t'.log.handed, x.listener = l ∧ x.pack = pack

theorem logs_of_step {t t' : Topics} {a : Action} {out : List Output}
    (h : t.step a = some (t', out)) : Logs t t' a out := by
  have hsame : t'.log.puts = t.log.puts → t'.log.connects = t.log.connects →
      t'.log.handed = t.log.handed → (∀ l pack, .call l pack ∉ out) → Logs t t' a out := by
    intro hputs hconnects hhanded hout
    refine ⟨?_, ?_, ?_, fun l pack hcall => absurd hcall (hout l pack)⟩
    · exact fun pack hpack => Or.inl (hputs ▸ hpack)
    · exact fun x hx => Or.inl (hconnects ▸ hx)
    · exact fun x hx => hhanded ▸ hx
  cases step_cases h with
  | put self request header payload after =>
    subst after
    refine ⟨?_, fun x hx => Or.inl hx, fun x hx => hx, by simp⟩
    intro pack hpack
    rcases List.mem_append.mp hpack with hold | hnew
    · exact Or.inl hold
    · rw [List.mem_singleton.mp hnew]
      exact Or.inr ⟨self, request, rfl⟩
  | get _ _ _ after | emplace _ _ _ after | startWrite _ _ _ after =>
    subst after
    exact hsame rfl rfl rfl (by simp)
  | contains _ _ _ _ _ after =>
    subst after
    exact hsame rfl rfl rfl (by simp)
  | found _ _ _ _ _ after =>
    subst after
    exact hsame rfl rfl rfl (by simp)
  | use i op hop task before r found e entry b out step after =>
    subst after
    refine ⟨?_, ?_, ?_, by simp⟩
    · cases op <;> exact fun pack hpack => Or.inl hpack
    · intro x hx
      rcases mem_connects_use hx with hold | ⟨rfl, rfl⟩
      · exact Or.inl hold
      · exact Or.inr ⟨_, List.mem_of_getElem? before, List.mem_cons_self, rfl, rfl⟩
    · cases op <;> exact fun x hx => hx
  | begin _ _ _ _ _ _ _ after =>
    subst after
    exact hsame rfl rfl rfl (by simp)
  | handler r op e entry handler running next b out handle after =>
    subst after
    refine ⟨fun pack hpack => Or.inl hpack, fun x hx => Or.inl hx,
      fun x hx => List.mem_append_left _ hx, ?_⟩
    intro l pack hcall
    obtain ⟨o, ho, hmade⟩ := List.mem_filterMap.mp hcall
    cases o with
    | call listener pack' =>
      cases hmade
      exact ⟨⟨r, l, pack⟩,
        List.mem_append_right _ (List.mem_filterMap.mpr ⟨_, ho, rfl⟩), rfl, rfl⟩
    | post body => cases hmade
    | write self pack' => cases hmade

end CppSerializer.Topics
