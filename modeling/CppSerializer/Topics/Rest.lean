import CppSerializer.Topics.Identity

/-!
# Steps of the topics that are left

A task that is not done can go on: `at` finds the entry that its task has seen or made, and a
bucket is used by a task that has found it (`step_task`). So can a handler that runs
(`step_handler`), and one that is posted where none runs (`step_begin`). What such a step makes
others do is a reply of the task, or calls of slots that are connected.
-/

namespace CppSerializer.Topics

open Pack Bucket UnorderedMap

/-- A task that has found the bucket uses it. -/
theorem use_isSome {t : Topics} (i : Nat) {task : Task} {r : BucketRef} {e : PacketHeader × Bucket}
    (hfound : task.found = some r) (hentry : t.entries[r]? = some e) {op : TaskOp}
    (hop : op = .pushMessage ∨ op = .getConnect ∨ op = .startHandleEvents) :
    ∃ t', t.use i task op = some (t', []) := by
  simp only [use, hfound, hentry, Option.bind_eq_bind, Option.bind_some]
  rcases hop with rfl | rfl | rfl <;> exact ⟨_, rfl⟩

theorem step_task {t : Topics} (hi : t.Isolated) {i : Nat} {task : Task}
    (htask : t.tasks[i]? = some task) (hcode : task.code ≠ []) :
    ∃ op t' out, t.step (.task i op) = some (t', out) ∧
      (out = [] ∨ out = [.reply task.self task.request (response task.pack .ack)]) := by
  have hisolated := hi.tasks task (List.mem_of_getElem? htask)
  obtain ⟨⟨self, pack, code⟩, request, found⟩ := task
  cases code with
  | nil => exact absurd rfl hcode
  | cons op code =>
    have hperform : t.step (.task i op) = t.perform i ⟨⟨self, pack, code⟩, request, found⟩ op := by
      change t.stepTask i op = _
      rw [stepTask, htask]
      exact if_pos rfl
    refine ⟨op, ?_⟩
    rw [hperform]
    have huse : op.visible = true →
        (op = .pushMessage ∨ op = .getConnect ∨ op = .startHandleEvents) →
        ∃ t', t.use i ⟨⟨self, pack, code⟩, request, found⟩ op = some (t', []) := by
      intro hvisible hop
      obtain ⟨hfound, -⟩ := hisolated.code.after_use hvisible
      obtain ⟨r, hr⟩ := Option.isSome_iff_exists.mp hfound
      obtain ⟨e, he, -⟩ := hisolated.found r hr
      exact @use_isSome t i ⟨⟨self, pack, code⟩, request, found⟩ r e hr he op hop
    cases op with
    | contains | emplace => exact ⟨_, _, rfl, Or.inl rfl⟩
    | «at» =>
      obtain ⟨r, hr⟩ := Option.isSome_iff_exists.mp (find_isSome (hisolated.inserted rfl))
      rw [perform, hr]
      exact ⟨_, _, rfl, Or.inl rfl⟩
    | startWrite => exact ⟨_, _, rfl, Or.inr rfl⟩
    | pushMessage | getConnect | startHandleEvents =>
      obtain ⟨t', ht'⟩ := huse rfl (by simp)
      exact ⟨t', [], ht', Or.inl rfl⟩

theorem step_begin {t : Topics} {r : BucketRef} {e : PacketHeader × Bucket}
    (hentry : t.entries[r]? = some e) (hidle : e.2.running = none) (hposted : e.2.posted ≠ []) :
    ∃ t', t.step (.begin r 0) = some (t', []) := by
  obtain ⟨key, rest, hkey⟩ := List.exists_cons_of_ne_nil hposted
  have hbegin : e.2.begin 0 = some { e.2 with
      posted := e.2.posted.eraseIdx 0, running := some (Handler.start key) } := by
    rw [Bucket.begin, hidle, hkey]
    rfl
  refine ⟨t.setBucket r { e.2 with
    posted := e.2.posted.eraseIdx 0, running := some (Handler.start key) }, ?_⟩
  change (t.begin r 0).map _ = _
  rw [begin, hentry, Option.bind_eq_bind, Option.bind_some, hbegin]
  rfl

/-- What the handler makes others do: a body is posted, or a slot that is connected is called
with the data of `resp`. -/
def CalledWith (b : Bucket) (h : Handler) (o : Output) : Prop :=
  (∃ body, o = .post body) ∨
    ∃ l pack, o = .call l pack ∧ l ∈ b.listeners ∧ pack.data = h.resp.data

theorem calledWith_handle (b : Bucket) (h : Handler) (op : HandlerOp) :
    ∀ o ∈ (b.handle h op).2.filterMap Output.ofHandler, CalledWith b h o := by
  intro o ho
  obtain ⟨x, hx, hmade⟩ := List.mem_filterMap.mp ho
  cases op with
  | triggerPop | tryPop | listenerEmpty | queueEmpty =>
    rw [handle] at hx
    split at hx <;> cases hx
  | startTriggerPost =>
    rw [List.mem_singleton.mp hx] at hmade
    cases hmade
    exact Or.inl ⟨_, rfl⟩
  | emit =>
    cases x with
    | call l pack =>
      cases hmade
      obtain ⟨hl, -, hdata⟩ := call_of_emit hx
      exact Or.inr ⟨l, pack, rfl, hl, hdata⟩
    | post body =>
      cases hmade
      exact Or.inl ⟨body, rfl⟩
    | write self pack => cases hmade
  | disconnectAllSlots => cases hx

theorem step_handler {t : Topics} {r : BucketRef} {e : PacketHeader × Bucket}
    (hentry : t.entries[r]? = some e) {h : Handler} (hrun : e.2.running = some h) :
    ∃ t' out, t.step (.handler r h.next) = some (t', out) ∧ ∀ o ∈ out, CalledWith e.2 h o := by
  have hstep : (t.stepHandler r h.next).map Prod.snd =
      some ((e.2.handle h h.next).2.filterMap Output.ofHandler) := by
    rw [stepHandler, hentry, Option.bind_eq_bind, Option.bind_some,
      stepHandler_of_running hrun rfl]
    rfl
  obtain ⟨⟨t', out⟩, ht', rfl⟩ := Option.map_eq_some_iff.mp hstep
  exact ⟨t', _, ht', calledWith_handle e.2 h h.next⟩

end CppSerializer.Topics
