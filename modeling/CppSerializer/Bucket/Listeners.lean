import CppSerializer.Bucket.Delivery

/-!
# Gets that are dropped

`disconnect_all_slots` removes whatever is connected at that moment, and connects happen
outside the strand. So a slot that is connected after the last emit of a handler and
before its disconnect is removed without having been called (`lost_get`). A run in which
this happens to no slot is one in which, of the steps of the bucket, an emit lies between
any connect and any later disconnect (`answered_iff`).
-/

namespace CppSerializer.Bucket

open Pack Transition

/-! ## What a step does to the slots -/

/-- The steps that matter to the slots: a connect, an emit, a disconnect, and the others. -/
inductive SlotStep (s t : State) : Action → Prop
  | connect (i : Nat) (l : Listener) (slot : l.slot = s.bucket.nextSlot)
      (nextSlot : t.bucket.nextSlot = s.bucket.nextSlot + 1)
      (listeners : t.bucket.listeners = s.bucket.listeners ++ [l])
      (connected : t.log.connected = s.log.connected ++ [l])
      (calls : t.log.calls = s.log.calls) : SlotStep s t (.task i .getConnect)
  | emit (new : List Call) (nextSlot : t.bucket.nextSlot = s.bucket.nextSlot)
      (listeners : t.bucket.listeners = s.bucket.listeners)
      (connected : t.log.connected = s.log.connected)
      (calls : t.log.calls = s.log.calls ++ new)
      (called : ∀ l ∈ s.bucket.listeners, ∃ c ∈ new, c.listener = l)
      (callee : ∀ c ∈ new, c.listener ∈ s.bucket.listeners) : SlotStep s t (.handler .emit)
  | disconnect (nextSlot : t.bucket.nextSlot = s.bucket.nextSlot)
      (listeners : t.bucket.listeners = [])
      (connected : t.log.connected = s.log.connected)
      (calls : t.log.calls = s.log.calls) : SlotStep s t (.handler .disconnectAllSlots)
  | other (a : Action) (hemit : a ≠ .handler .emit)
      (hdisconnect : a ≠ .handler .disconnectAllSlots)
      (nextSlot : t.bucket.nextSlot = s.bucket.nextSlot)
      (listeners : t.bucket.listeners = s.bucket.listeners)
      (connected : t.log.connected = s.log.connected)
      (calls : t.log.calls = s.log.calls) : SlotStep s t a

theorem slotStep_handler {s t : State} {h : Handler} {op : HandlerOp} {out : List Output}
    (hstep : s.bucket.handle h op = (t.bucket, out))
    (hlog : t.log = s.log.record s.bucket out (.handler op)) : SlotStep s t (.handler op) := by
  cases op with
  | emit =>
    obtain ⟨hb, hout⟩ := Prod.mk.inj hstep
    refine .emit ((Bucket.emit h.resp s.bucket.listeners).1.filterMap
      (Output.call? s.log.emits.length)) (by rw [← hb]) (by rw [← hb]) (by rw [hlog]; rfl)
      (by rw [hlog, ← hout]; rfl) ?_ ?_
    · intro l hl
      exact exists_call_of_emit _ hl
    · intro c hc
      exact (mem_calls_of_emit hc).2.1
  | disconnectAllSlots =>
    obtain ⟨hb, -⟩ := Prod.mk.inj hstep
    exact .disconnect (by rw [← hb]) (by rw [← hb]) (by rw [hlog]; rfl) (by rw [hlog]; rfl)
  | startTriggerPost =>
    obtain ⟨hb, -⟩ := Prod.mk.inj hstep
    exact .other _ (by simp) (by simp) (by rw [← hb]) (by rw [← hb]) (by rw [hlog]; rfl)
      (by rw [hlog]; rfl)
  | triggerPop | tryPop | listenerEmpty | queueEmpty =>
    rw [handle] at hstep
    split at hstep <;>
    · obtain ⟨hb, -⟩ := Prod.mk.inj hstep
      exact .other _ (by simp) (by simp) (by rw [← hb]) (by rw [← hb]) (by rw [hlog]; rfl)
        (by rw [hlog]; rfl)

theorem slotStep {topic : Topic} {s t : State} {a : Action} (h : s.step topic a = some t) :
    SlotStep s t a := by
  obtain ⟨out, hb, hlog⟩ := State.step_some h
  cases step_cases hb with
  | post a ha task _ _ hnew =>
    rw [Log.record_post _ _ _ ha] at hlog
    exact .other a (by rintro rfl; exact ha) (by rintro rfl; exact ha) (by rw [hnew]; rfl)
      (by rw [hnew]; rfl) (by rw [hlog]) (by rw [hlog])
  | task i op _ self pack code htask hperform =>
    have hs := perform_spec hperform
    rw [Log.record_task htask] at hlog
    by_cases hop : op = .getConnect
    · subst hop
      exact .connect i ⟨s.bucket.nextSlot, self⟩ rfl hs.nextSlot hs.listeners (by rw [hlog]; rfl)
        (by rw [hlog])
    · have hlisteners := hs.listeners
      have hnextSlot := hs.nextSlot
      rw [if_neg hop, List.append_nil] at hlisteners
      rw [if_neg hop] at hnextSlot
      exact .other _ (by simp) (by simp) hnextSlot hlisteners (by rw [hlog]; simp [hop])
        (by rw [hlog])
  | begin i key _ _ hnew =>
    exact .other _ (by simp) (by simp) (by rw [hnew]) (by rw [hnew]) (by rw [hlog]; rfl)
      (by rw [hlog]; rfl)
  | handler op handler _ _ _ hstep => exact slotStep_handler hstep hlog

/-! ## Slots that wait -/

/-- Slot numbers are given once. -/
structure Fresh (s : State) : Prop where
  listeners : ∀ l ∈ s.bucket.listeners, l.slot < s.bucket.nextSlot
  calls : ∀ c ∈ s.log.calls, c.listener.slot < s.bucket.nextSlot

theorem run_fresh {topic : Topic} {as : List Action} {s : State}
    (hrun : run (State.step topic) State.init as = some s) : Fresh s := by
  refine run_induction (P := fun _ s => Fresh s) ?_ ?_ as s hrun
  · constructor <;> simp [State.init, Bucket.empty, Log.empty]
  intro _ s a t _ hf ht
  cases slotStep ht with
  | connect i l slot nextSlot listeners connected calls =>
    constructor
    · intro l' hl'
      rw [nextSlot]
      rw [listeners] at hl'
      rcases List.mem_append.mp hl' with hl' | hl'
      · exact Nat.lt_succ_of_lt (hf.listeners l' hl')
      · rw [List.mem_singleton.mp hl', slot]
        exact Nat.lt_succ_self _
    · intro c hc
      rw [nextSlot]
      rw [calls] at hc
      exact Nat.lt_succ_of_lt (hf.calls c hc)
  | emit new nextSlot listeners connected calls called callee =>
    refine ⟨by rw [nextSlot, listeners]; exact hf.listeners, ?_⟩
    intro c hc
    rw [nextSlot]
    rw [calls] at hc
    rcases List.mem_append.mp hc with hc | hc
    · exact hf.calls c hc
    · exact hf.listeners _ (callee c hc)
  | disconnect nextSlot listeners connected calls =>
    exact ⟨by rw [listeners]; simp, by rw [nextSlot, calls]; exact hf.calls⟩
  | other _ _ _ nextSlot listeners connected calls =>
    exact ⟨by rw [nextSlot, listeners]; exact hf.listeners, by rw [nextSlot, calls]; exact hf.calls⟩

def Called (s : State) (l : Listener) : Prop := ∃ c ∈ s.log.calls, c.listener = l

/-- A connected slot that has not been called was connected after the last emit. -/
theorem called_or_waiting {topic : Topic} {as : List Action} {s : State}
    (hrun : run (State.step topic) State.init as = some s) :
    ∀ l ∈ s.bucket.listeners, Called s l ∨
      ∃ pre i mid, as = pre ++ .task i .getConnect :: mid ∧ .handler .emit ∉ mid := by
  refine run_induction (P := fun as s => ∀ l ∈ s.bucket.listeners, Called s l ∨
    ∃ pre i mid, as = pre ++ .task i .getConnect :: mid ∧ .handler .emit ∉ mid) ?_ ?_ as s hrun
  · simp [State.init, Bucket.empty]
  intro as s a t _ ih ht l hl
  -- a slot that waited before the step waits on if the step is no emit
  have hwait : l ∈ s.bucket.listeners → t.log.calls = s.log.calls → a ≠ .handler .emit →
      Called t l ∨ ∃ pre i mid, as ++ [a] = pre ++ .task i .getConnect :: mid ∧
        .handler .emit ∉ mid := by
    intro hmem hcalls hne
    rcases ih l hmem with ⟨c, hc, hcl⟩ | ⟨pre, i, mid, has, hmid⟩
    · exact Or.inl ⟨c, hcalls ▸ hc, hcl⟩
    · refine Or.inr ⟨pre, i, mid ++ [a], by rw [has]; simp, ?_⟩
      rw [List.mem_append, List.mem_singleton, not_or]
      exact ⟨hmid, fun he => hne he.symm⟩
  cases slotStep ht with
  | connect i l' slot nextSlot listeners connected calls =>
    rw [listeners] at hl
    rcases List.mem_append.mp hl with hl | hl
    · exact hwait hl calls (by simp)
    · exact Or.inr ⟨as, i, [], rfl, List.not_mem_nil⟩
  | emit new nextSlot listeners connected calls called callee =>
    rw [listeners] at hl
    obtain ⟨c, hc, hcl⟩ := called l hl
    exact Or.inl ⟨c, by rw [calls]; exact List.mem_append_right _ hc, hcl⟩
  | disconnect nextSlot listeners connected calls =>
    rw [listeners] at hl
    cases hl
  | other _ hemit _ nextSlot listeners connected calls =>
    rw [listeners] at hl
    exact hwait hl calls hemit

/-- Without an emit nobody is called. -/
theorem run_no_emit {topic : Topic} {s : State} {as : List Action} {t : State}
    (hrun : run (State.step topic) s as = some t) (hemit : .handler .emit ∉ as) :
    t.log.calls = s.log.calls ∧ ∀ l ∈ s.log.connected, l ∈ t.log.connected := by
  revert hemit
  refine run_induction (P := fun as t => .handler .emit ∉ as →
    t.log.calls = s.log.calls ∧ ∀ l ∈ s.log.connected, l ∈ t.log.connected) ?_ ?_ as t hrun
  · intro _
    exact ⟨rfl, fun _ hl => hl⟩
  intro as t a u _ ih hu hemit
  rw [List.mem_append, List.mem_singleton, not_or] at hemit
  obtain ⟨hcalls, hconnected⟩ := ih hemit.1
  cases slotStep hu with
  | connect i l slot nextSlot listeners connected calls =>
    refine ⟨calls.trans hcalls, fun l hl => ?_⟩
    rw [connected]
    exact List.mem_append_left _ (hconnected l hl)
  | emit => exact absurd rfl hemit.2
  | disconnect nextSlot listeners connected calls =>
    exact ⟨calls.trans hcalls, fun l hl => connected ▸ hconnected l hl⟩
  | other _ _ _ nextSlot listeners connected calls =>
    exact ⟨calls.trans hcalls, fun l hl => connected ▸ hconnected l hl⟩

/-! ## Answered gets -/

/-- Every slot ever connected is connected or has been called. -/
def Answered (s : State) : Prop :=
  ∀ l ∈ s.log.connected, l ∈ s.bucket.listeners ∨ Called s l

/-- An emit lies between a connect and any later disconnect. -/
def EmitBetween (as : List Action) : Prop :=
  ∀ pre i mid post,
    as = pre ++ .task i .getConnect :: (mid ++ .handler .disconnectAllSlots :: post) →
    .handler .emit ∈ mid

theorem EmitBetween.prefix {as bs : List Action} (h : EmitBetween (as ++ bs)) :
    EmitBetween as := by
  intro pre i mid post has
  exact h pre i mid (post ++ bs) (by rw [has]; simp)

theorem run_answered {topic : Topic} {as : List Action} {s : State}
    (hrun : run (State.step topic) State.init as = some s) (hemit : EmitBetween as) :
    Answered s := by
  revert hemit
  refine run_induction (P := fun as s => EmitBetween as → Answered s) ?_ ?_ as s hrun
  · intro _ l hl
    cases hl
  intro as s a t hs ih ht hemit l hl
  have hbefore := ih hemit.prefix
  cases slotStep ht with
  | connect i l' slot nextSlot listeners connected calls =>
    rw [connected] at hl
    rw [listeners]
    rcases List.mem_append.mp hl with hl | hl
    · rcases hbefore l hl with hmem | ⟨c, hc, hcl⟩
      · exact Or.inl (List.mem_append_left _ hmem)
      · exact Or.inr ⟨c, calls ▸ hc, hcl⟩
    · exact Or.inl (List.mem_append_right _ hl)
  | emit new nextSlot listeners connected calls called callee =>
    rw [connected] at hl
    rw [listeners]
    rcases hbefore l hl with hmem | ⟨c, hc, hcl⟩
    · exact Or.inl hmem
    · exact Or.inr ⟨c, by rw [calls]; exact List.mem_append_left _ hc, hcl⟩
  | disconnect nextSlot listeners connected calls =>
    rw [connected] at hl
    have hcalled : Called s l := by
      rcases hbefore l hl with hmem | hcalled
      · rcases called_or_waiting hs l hmem with hcalled | ⟨pre, i, mid, has, hmid⟩
        · exact hcalled
        · exact absurd (hemit pre i mid [] (by rw [has]; simp)) hmid
      · exact hcalled
    obtain ⟨c, hc, hcl⟩ := hcalled
    exact Or.inr ⟨c, calls ▸ hc, hcl⟩
  | other _ _ _ nextSlot listeners connected calls =>
    rw [connected] at hl
    rw [listeners]
    rcases hbefore l hl with hmem | ⟨c, hc, hcl⟩
    · exact Or.inl hmem
    · exact Or.inr ⟨c, calls ▸ hc, hcl⟩

/-- A connect that is followed by a disconnect without an emit between them leaves a slot
behind that is neither connected nor called. -/
theorem not_answered {topic : Topic} {pre mid : List Action} {i : Nat} {s : State}
    (hrun : run (State.step topic) State.init
      (pre ++ .task i .getConnect :: (mid ++ [.handler .disconnectAllSlots])) = some s)
    (hmid : .handler .emit ∉ mid) : ¬ Answered s := by
  obtain ⟨s₀, hs₀, hrest⟩ := run_append_some hrun
  rw [run_cons] at hrest
  obtain ⟨s₁, hconnect, hrest⟩ := Option.bind_eq_some_iff.mp hrest
  obtain ⟨s₂, hs₂, hdisconnect⟩ := run_concat_some hrest
  obtain ⟨hcalls₂, hconnected₂⟩ := run_no_emit hs₂ hmid
  cases slotStep hconnect with
  | other _ _ _ nextSlot listeners connected calls =>
    -- a connect is no other step
    obtain ⟨out, hb, hlog⟩ := State.step_some hconnect
    obtain ⟨self, pack, code, htask, hperform⟩ := stepTask_some hb
    have hslot := (perform_spec hperform).nextSlot
    rw [nextSlot] at hslot
    simp at hslot
  | connect _ l slot nextSlot listeners connected calls =>
    have hl : l ∈ s₂.log.connected := by
      refine hconnected₂ l ?_
      rw [connected]
      exact List.mem_append_right _ (List.mem_singleton_self l)
    have huncalled : ∀ c ∈ s₂.log.calls, c.listener ≠ l := by
      intro c hc he
      rw [hcalls₂, calls] at hc
      have := (run_fresh hs₀).calls c hc
      rw [he, slot] at this
      exact Nat.lt_irrefl _ this
    intro hanswered
    cases slotStep hdisconnect with
    | other _ _ hdisconnect => exact hdisconnect rfl
    | disconnect nextSlot listeners connected calls =>
      rcases hanswered l (connected ▸ hl) with hmem | ⟨c, hc, hcl⟩
      · rw [listeners] at hmem
        cases hmem
      · exact huncalled c (calls ▸ hc) hcl

/-- In a run every connected slot stays connected or is called, in all its states, exactly
if an emit lies between any connect and any later disconnect. -/
theorem answered_iff {topic : Topic} {as : List Action} {s : State}
    (hrun : run (State.step topic) State.init as = some s) :
    (∀ pre t, pre <+: as → run (State.step topic) State.init pre = some t → Answered t) ↔
      EmitBetween as := by
  constructor
  · intro hall pre i mid post has
    by_contra hmid
    have hsplit : as = (pre ++ .task i .getConnect ::
        (mid ++ [.handler .disconnectAllSlots])) ++ post := by rw [has]; simp
    rw [hsplit] at hrun
    obtain ⟨t, ht, -⟩ := run_append_some hrun
    exact not_answered ht hmid (hall _ t ⟨post, hsplit.symm⟩ ht)
  · rintro hemit pre t ⟨post, rfl⟩ ht
    exact run_answered ht hemit.prefix

/-! ## A get that is lost -/

/-- The first get is answered. The second connects after that emit, while the handler still
tries to pop, and the handler then disconnects it. -/
def lostRun : List Action :=
  deliveryRun ++ [.get 2 (requestHeader deliveryTopic .get), .task 2 .contains, .task 2 .at] ++
    .task 2 .getConnect :: ([.handler .tryPop] ++ [.handler .disconnectAllSlots])

theorem lost_get : ¬ ∀ topic, ¬ IsTriggerTopic topic → ∀ as s,
    run (State.step topic) State.init as = some s → Answered s := by
  intro hall
  have hrun : (run (State.step deliveryTopic) State.init lostRun).isSome := by
    decide +kernel
  obtain ⟨s, hs⟩ := Option.isSome_iff_exists.mp hrun
  have hsalt : ¬ IsTriggerTopic deliveryTopic := by
    unfold IsTriggerTopic
    decide
  exact not_answered hs (by simp) (hall deliveryTopic hsalt lostRun s hs)

theorem answered_iff_lostRun :
    ∃ s, run (State.step deliveryTopic) State.init lostRun = some s ∧
      ((∀ pre t, pre <+: lostRun →
        run (State.step deliveryTopic) State.init pre = some t → Answered t) ↔
        EmitBetween lostRun) := by
  have hrun : (run (State.step deliveryTopic) State.init lostRun).isSome := by
    decide +kernel
  obtain ⟨s, hs⟩ := Option.isSome_iff_exists.mp hrun
  exact ⟨s, hs, answered_iff hs⟩

end CppSerializer.Bucket
