import CppSerializer.Bucket.Delivery
import Mathlib.Data.Multiset.Basic
import Mathlib.Data.Multiset.AddSub
import Mathlib.Data.Multiset.MapFold

/-!
# Bodies posted by a trigger bucket

The handler of a trigger bucket pops messages, but posts the data of the packet that it has
captured. The bodies are the payloads popped, whenever no handler runs, in just those runs
in which every pop finds at the head of the queue the data of the handler's own packet
(`postsPopped_iff`). Two puts whose pushes both come before the first handler are enough to
leave that (`two_puts_one_handler`).
-/

namespace CppSerializer.Bucket

open Pack Transition

/-! ## Steps of a trigger bucket -/

/-- The steps that matter to the bodies posted. -/
inductive TriggerStep (s t : State) : Action → Prop
  | begin (i : Nat) (h : Handler) (idle : s.bucket.running = none)
      (running : t.bucket.running = some h) (next : h.next = .triggerPop)
      (pops : t.log.pops = s.log.pops) (bodies : t.log.bodies = s.log.bodies) :
      TriggerStep s t (.begin i)
  | pop (h : Handler) (m : PacketData) (queue : List PacketData)
      (running : s.bucket.running = some h) (next : h.next = .triggerPop)
      (messageQueue : s.bucket.messageQueue = m :: queue)
      (after : t.bucket.running =
        some { h with resp := { h.resp with data := m }, next := .startTriggerPost })
      (pops : t.log.pops = s.log.pops ++ [⟨m, h.key⟩]) (bodies : t.log.bodies = s.log.bodies) :
      TriggerStep s t (.handler .triggerPop)
  | finish (h : Handler) (running : s.bucket.running = some h) (next : h.next = .triggerPop)
      (after : t.bucket.running = none)
      (pops : t.log.pops = s.log.pops) (bodies : t.log.bodies = s.log.bodies) :
      TriggerStep s t (.handler .triggerPop)
  | post (h : Handler) (running : s.bucket.running = some h)
      (next : h.next = .startTriggerPost)
      (after : t.bucket.running = some { h with next := .triggerPop })
      (pops : t.log.pops = s.log.pops)
      (bodies : t.log.bodies = s.log.bodies ++ [h.key.data.buf]) :
      TriggerStep s t (.handler .startTriggerPost)
  | other (a : Action) (hpop : a ≠ .handler .triggerPop)
      (running : t.bucket.running = s.bucket.running)
      (pops : t.log.pops = s.log.pops) (bodies : t.log.bodies = s.log.bodies) :
      TriggerStep s t a

theorem triggerStep {topic : Topic} (htrigger : IsTriggerTopic topic) {s t : State} {a : Action}
    (hr : Routed topic s.bucket) (h : s.step topic a = some t) : TriggerStep s t a := by
  obtain ⟨out, hb, hlog⟩ := State.step_some h
  cases step_cases hb with
  | post a ha task _ _ hnew =>
    rw [Log.record_post _ _ _ ha] at hlog
    exact .other a (by rintro rfl; exact ha) (by rw [hnew]; rfl) (by rw [hlog]) (by rw [hlog])
  | task i op _ self pack code htask hperform =>
    rw [Log.record_task htask] at hlog
    exact .other _ (by simp) (perform_spec hperform).running (by rw [hlog]) (by rw [hlog])
  | begin i key hidle hkey hnew =>
    have hnext : (Handler.start key).next = .triggerPop := by
      have hkeyTopic := hr.posted key (List.mem_of_getElem? hkey)
      rw [Handler.start_next, if_pos ((isTrigger_iff hkeyTopic).mpr htrigger)]
    exact .begin i _ hidle (by rw [hnew]) hnext (by rw [hlog]; rfl) (by rw [hlog]; rfl)
  | handler op handler _ hrun hop hstep =>
    have hbranch := (hr.running handler hrun).mpr htrigger
    rw [hop] at hbranch
    cases op with
    | triggerPop =>
      rw [handle] at hstep
      split at hstep
      · rename_i m queue hqueue
        obtain ⟨hb, -⟩ := Prod.mk.inj hstep
        refine .pop handler m queue hrun hop hqueue (by rw [← hb]) ?_ (by rw [hlog]; rfl)
        rw [hlog, Log.record, hqueue, hrun]
        rfl
      · rename_i hqueue
        obtain ⟨hb, -⟩ := Prod.mk.inj hstep
        refine .finish handler hrun hop (by rw [← hb]) ?_ (by rw [hlog]; rfl)
        rw [hlog, Log.record, hqueue]
        exact List.append_nil _
    | startTriggerPost =>
      obtain ⟨hb, hout⟩ := Prod.mk.inj hstep
      refine .post handler hrun hop (by rw [← hb]) (by rw [hlog]; rfl) ?_
      rw [hlog, ← hout]
      rfl
    | _ => exact hbranch.elim

/-! ## Bodies and pops -/

/-- The body that the running handler has still to post for its last pop. -/
def State.pendingBody (s : State) : List Bytes :=
  match s.bucket.running with
  | some h => if h.next = .startTriggerPost then [h.key.data.buf] else []
  | none => []

theorem State.pendingBody_running {s : State} {h : Handler} (hrun : s.bucket.running = some h) :
    s.pendingBody = if h.next = .startTriggerPost then [h.key.data.buf] else [] := by
  rw [State.pendingBody, hrun]

theorem State.pendingBody_idle {s : State} (hidle : s.bucket.running = none) :
    s.pendingBody = [] := by
  rw [State.pendingBody, hidle]

/-- A body is posted for every pop, and it is the data of the packet of the handler. -/
theorem run_bodies {topic : Topic} (htrigger : IsTriggerTopic topic) {as : List Action}
    {s : State} (hrun : run (State.step topic) State.init as = some s) :
    s.log.bodies ++ s.pendingBody = s.log.pops.map fun p => p.key.data.buf := by
  refine run_induction (P := fun _ s =>
    s.log.bodies ++ s.pendingBody = s.log.pops.map fun p => p.key.data.buf) rfl ?_ as s hrun
  intro as s a t hs ih ht
  cases triggerStep htrigger (run_routed hs) ht with
  | begin i h idle running next pops bodies =>
    rw [State.pendingBody_idle idle] at ih
    rw [State.pendingBody_running running, next, pops, bodies]
    exact ih
  | pop h m queue running next messageQueue after pops bodies =>
    rw [State.pendingBody_running running, next] at ih
    rw [State.pendingBody_running after, pops, bodies, List.map_append, ← ih]
    simp
  | finish h running next after pops bodies =>
    rw [State.pendingBody_running running, next] at ih
    rw [State.pendingBody_idle after, pops, bodies]
    exact ih
  | post h running next after pops bodies =>
    rw [State.pendingBody_running running, next] at ih
    rw [State.pendingBody_running after, pops, bodies, ← ih]
    simp
  | other _ _ running pops bodies =>
    rw [State.pendingBody, running, pops, bodies]
    exact ih

/-! ## When the bodies are the payloads -/

/-- The multiset of the bodies posted is that of the payloads popped. -/
def PostsPopped (s : State) : Prop :=
  (s.log.bodies : Multiset Bytes) = (s.log.popped.map PacketData.buf : List Bytes)

/-- Every message was popped by the handler of the packet that had carried it. -/
def OwnPops (pops : List Pop) : Prop := ∀ p ∈ pops, p.message = p.key.data

/-- The condition on the state before a pop: the queue starts with the data of the packet of
the running handler. -/
def PopsOwn (s : State) (a : Action) : Prop :=
  a = .handler .triggerPop → ∀ h m queue, s.bucket.running = some h →
    s.bucket.messageQueue = m :: queue → m = h.key.data

theorem postsPopped_of_ownPops {topic : Topic} (htrigger : IsTriggerTopic topic)
    {as : List Action} {s : State} (hrun : run (State.step topic) State.init as = some s)
    (hidle : s.bucket.running = none) (hown : OwnPops s.log.pops) : PostsPopped s := by
  have hbodies := run_bodies htrigger hrun
  rw [State.pendingBody_idle hidle, List.append_nil] at hbodies
  rw [PostsPopped, hbodies, Log.popped, List.map_map]
  refine congrArg _ (List.map_congr_left ?_)
  intro p hp
  exact congrArg PacketData.buf (hown p hp).symm

theorem run_ownPops {topic : Topic} (htrigger : IsTriggerTopic topic) {as : List Action}
    {s : State} (hrun : run (State.step topic) State.init as = some s)
    (hguard : Guarded (State.step topic) PopsOwn State.init as) : OwnPops s.log.pops := by
  revert hguard
  refine run_induction (P := fun as s =>
    Guarded (State.step topic) PopsOwn State.init as → OwnPops s.log.pops) ?_ ?_ as s hrun
  · intro _ p hp
    cases hp
  intro as s a t hs ih ht hguard
  have hbefore := ih hguard.prefix
  cases triggerStep htrigger (run_routed hs) ht with
  | pop h m queue running next messageQueue after pops bodies =>
    intro p hp
    rw [pops] at hp
    rcases List.mem_append.mp hp with hp | hp
    · exact hbefore p hp
    · rw [List.mem_singleton.mp hp]
      exact hguard.last hs rfl h m queue running messageQueue
  | begin i h idle running next pops bodies => rwa [pops]
  | finish h running next after pops bodies => rwa [pops]
  | post h running next after pops bodies => rwa [pops]
  | other _ _ running pops bodies => rwa [pops]

/-- If all that a handler pops is posted under one body, up to order, it is that body. -/
theorem ownPops_of_perm {seg : List Pop} {key : Packet} (hkey : ∀ p ∈ seg, p.key = key)
    (hperm : (seg.map fun p => p.key.data.buf).Perm (seg.map fun p => p.message.buf)) :
    OwnPops seg := by
  intro p hp
  have hmem : p.message.buf ∈ seg.map fun p => p.key.data.buf :=
    hperm.symm.subset (List.mem_map_of_mem hp)
  obtain ⟨q, hq, he⟩ := List.mem_map.mp hmem
  rw [hkey q hq] at he
  rw [hkey p hp]
  exact congrArg PacketData.mk he.symm

/-- The pops of the handlers that are done, which are in order if the bodies were the
payloads whenever no handler ran, and then those of the running handler. -/
def Segmented (s : State) : Prop :=
  ∃ old seg, s.log.pops = old ++ seg ∧ OwnPops old ∧
    (∀ h, s.bucket.running = some h → ∀ p ∈ seg, p.key = h.key) ∧
    (s.bucket.running = none → seg = [])

theorem Segmented.finish {topic : Topic} (htrigger : IsTriggerTopic topic) {as : List Action}
    {s t : State} {h : Handler} (ht : run (State.step topic) State.init as = some t)
    (hs : Segmented s) (hrun : s.bucket.running = some h) (hpops : t.log.pops = s.log.pops)
    (hidle : t.bucket.running = none) (hposts : PostsPopped t) : Segmented t := by
  obtain ⟨old, seg, hsplit, hold, hseg, -⟩ := hs
  have hbodies := run_bodies htrigger ht
  rw [State.pendingBody_idle hidle, List.append_nil] at hbodies
  have hperm : (t.log.pops.map fun p => p.key.data.buf).Perm
      (t.log.pops.map fun p => p.message.buf) := by
    rw [← hbodies]
    refine (Multiset.coe_eq_coe.mp hposts).trans ?_
    rw [Log.popped, List.map_map]
    exact .refl _
  rw [hpops, hsplit, List.map_append, List.map_append] at hperm
  have hsame : (old.map fun p => p.key.data.buf) = old.map fun p => p.message.buf :=
    List.map_congr_left fun p hp => congrArg PacketData.buf (hold p hp).symm
  rw [hsame] at hperm
  have hown := ownPops_of_perm (hseg h hrun) ((List.perm_append_left_iff _).mp hperm)
  refine ⟨old ++ seg, [], by rw [hpops, hsplit, List.append_nil], ?_, ?_, fun _ => rfl⟩
  · intro p hp
    rcases List.mem_append.mp hp with hp | hp
    · exact hold p hp
    · exact hown p hp
  · intro _ _ p hp
    cases hp

theorem run_segmented {topic : Topic} (htrigger : IsTriggerTopic topic) {as : List Action}
    {s : State} (hrun : run (State.step topic) State.init as = some s)
    (hall : ∀ pre t, pre <+: as → run (State.step topic) State.init pre = some t →
      t.bucket.running = none → PostsPopped t) : Segmented s := by
  revert hall
  refine run_induction (P := fun as s =>
    (∀ pre t, pre <+: as → run (State.step topic) State.init pre = some t →
      t.bucket.running = none → PostsPopped t) → Segmented s) ?_ ?_ as s hrun
  · intro _
    refine ⟨[], [], rfl, ?_, ?_, fun _ => rfl⟩
    · intro p hp
      cases hp
    · intro _ _ p hp
      cases hp
  intro as s a t hs ih ht hall
  have hbefore := ih fun pre u hpre => hall pre u (hpre.trans (List.prefix_append as [a]))
  have hbefore' := hbefore
  obtain ⟨old, seg, hsplit, hold, hseg, hnil⟩ := hbefore'
  cases triggerStep htrigger (run_routed hs) ht with
  | begin i h idle running next pops bodies =>
    refine ⟨old, seg, pops.trans hsplit, hold, ?_, fun hidle => ?_⟩
    · intro _ _ p hp
      rw [hnil idle] at hp
      cases hp
    · rw [running] at hidle
      cases hidle
  | pop h m queue running next messageQueue after pops bodies =>
    refine ⟨old, seg ++ [⟨m, h.key⟩], by rw [pops, hsplit, List.append_assoc], hold, ?_, ?_⟩
    · intro h' hrun' p hp
      rw [after] at hrun'
      cases hrun'
      rcases List.mem_append.mp hp with hp | hp
      · exact hseg h running p hp
      · rw [List.mem_singleton.mp hp]
    · intro hidle
      rw [after] at hidle
      cases hidle
  | finish h running next after pops bodies =>
    have hrun := run_concat hs ht
    exact hbefore.finish htrigger hrun running pops after
      (hall _ t List.prefix_rfl hrun after)
  | post h running next after pops bodies =>
    refine ⟨old, seg, pops.trans hsplit, hold, ?_, fun hidle => ?_⟩
    · intro h' hrun'
      rw [after] at hrun'
      cases hrun'
      exact hseg h running
    · rw [after] at hidle
      cases hidle
  | other _ _ running pops bodies =>
    exact ⟨old, seg, pops.trans hsplit, hold, by rw [running]; exact hseg,
      by rw [running]; exact hnil⟩

/-- The log of pops only grows. -/
theorem run_pops_prefix {topic : Topic} (htrigger : IsTriggerTopic topic) {pre as : List Action}
    {s t : State} (hpre : run (State.step topic) State.init pre = some s)
    (hrun : run (State.step topic) s as = some t) : s.log.pops <+: t.log.pops := by
  refine run_induction (P := fun _ t => s.log.pops <+: t.log.pops)
    List.prefix_rfl ?_ as t hrun
  intro as t a u ht ih hu
  have hreach : run (State.step topic) State.init (pre ++ as) = some t := by
    rw [run_append, hpre]
    exact ht
  cases triggerStep htrigger (run_routed hreach) hu with
  | pop h m queue running next messageQueue after pops bodies =>
    rw [pops]
    exact ih.trans (List.prefix_append _ _)
  | begin i h idle running next pops bodies => rwa [pops]
  | finish h running next after pops bodies => rwa [pops]
  | post h running next after pops bodies => rwa [pops]
  | other _ _ running pops bodies => rwa [pops]

theorem guarded_of_ownPops {topic : Topic} (htrigger : IsTriggerTopic topic) {as : List Action}
    {s : State} (hrun : run (State.step topic) State.init as = some s)
    (hown : OwnPops s.log.pops) : Guarded (State.step topic) PopsOwn State.init as := by
  intro pre a post t has ht ha h m queue hrunning hqueue
  subst ha
  rw [has, run_append, ht, Option.bind_some, run_cons] at hrun
  obtain ⟨u, hu, hrest⟩ := Option.bind_eq_some_iff.mp hrun
  have hmono := run_pops_prefix htrigger (run_concat ht hu) hrest
  have hmem : (⟨m, h.key⟩ : Pop) ∈ u.log.pops := by
    cases triggerStep htrigger (run_routed ht) hu with
    | pop h' m' queue' running next messageQueue after pops bodies =>
      rw [hrunning] at running
      rw [hqueue] at messageQueue
      cases running
      cases messageQueue
      rw [pops]
      exact List.mem_append_right _ (List.mem_singleton_self _)
    | finish h' running next after pops bodies =>
      obtain ⟨out, hb, -⟩ := State.step_some hu
      obtain ⟨handler, hrun', hop, hstep⟩ := stepHandler_some hb
      rw [handle, hqueue] at hstep
      obtain ⟨hb, -⟩ := Prod.mk.inj hstep
      rw [← hb] at after
      cases after
    | other _ hpop => exact absurd rfl hpop
  exact hown _ (hmono.subset hmem)

/-- In a run of a trigger bucket up to a state in which no handler runs, the bodies posted
are the payloads popped in every such state, exactly if each pop finds the data of its
handler's packet at the head of the queue. -/
theorem postsPopped_iff {topic : Topic} (htrigger : IsTriggerTopic topic) {as : List Action}
    {s : State} (hrun : run (State.step topic) State.init as = some s)
    (hidle : s.bucket.running = none) :
    (∀ pre t, pre <+: as → run (State.step topic) State.init pre = some t →
      t.bucket.running = none → PostsPopped t) ↔
      Guarded (State.step topic) PopsOwn State.init as := by
  constructor
  · intro hall
    obtain ⟨old, seg, hsplit, hold, -, hnil⟩ := run_segmented htrigger hrun hall
    refine guarded_of_ownPops htrigger hrun ?_
    rw [hsplit, hnil hidle, List.append_nil]
    exact hold
  · rintro hguard pre t ⟨post, rfl⟩ ht hidle'
    exact postsPopped_of_ownPops htrigger ht hidle' (run_ownPops htrigger ht hguard.prefix)

/-! ## Two puts before a handler -/

def triggerTopic : Topic := (List.Vector.replicate 32 7, List.Vector.replicate 4 0)

def putTask (i : Nat) : List Action :=
  [.task i .contains, .task i .at, .task i .pushMessage, .task i .startHandleEvents]

/-- Both messages are pushed when the handler of the first put begins, and it drains the
queue. -/
def twoPutsRun : List Action :=
  [.put 0 (requestHeader triggerTopic .put) [65], .task 0 .contains, .task 0 .emplace,
    .task 0 .at, .task 0 .pushMessage, .task 0 .startHandleEvents,
    .put 1 (requestHeader triggerTopic .put) [66]] ++ putTask 1 ++
  [.begin 0, .handler .triggerPop, .handler .startTriggerPost, .handler .triggerPop,
    .handler .startTriggerPost, .handler .triggerPop]

theorem twoPutsRun_end : ((run (State.step triggerTopic) State.init twoPutsRun).map fun s =>
    (s.bucket.running, s.log.bodies, s.log.popped.map PacketData.buf)) =
      some (none, [[65], [65]], [[65], [66]]) := by
  decide +kernel

theorem two_puts_one_handler : ¬ ∀ topic, IsTriggerTopic topic → ∀ as s,
    run (State.step topic) State.init as = some s → s.bucket.running = none →
      PostsPopped s := by
  intro hall
  obtain ⟨s, hs, hend⟩ := Option.map_eq_some_iff.mp twoPutsRun_end
  simp only [Prod.mk.injEq] at hend
  obtain ⟨hidle, hbodies, hpopped⟩ := hend
  have hsalt : IsTriggerTopic triggerTopic := by
    unfold IsTriggerTopic
    decide
  have hposts := hall triggerTopic hsalt twoPutsRun s hs hidle
  rw [PostsPopped, hbodies, hpopped, Multiset.coe_eq_coe] at hposts
  exact absurd hposts (by decide)

theorem postsPopped_iff_twoPutsRun :
    ∃ s, run (State.step triggerTopic) State.init twoPutsRun = some s ∧
      s.bucket.running = none ∧
      ((∀ pre t, pre <+: twoPutsRun →
        run (State.step triggerTopic) State.init pre = some t →
        t.bucket.running = none → PostsPopped t) ↔
        Guarded (State.step triggerTopic) PopsOwn State.init twoPutsRun) := by
  obtain ⟨s, hs, hend⟩ := Option.map_eq_some_iff.mp twoPutsRun_end
  simp only [Prod.mk.injEq] at hend
  have hsalt : IsTriggerTopic triggerTopic := by
    unfold IsTriggerTopic
    decide
  exact ⟨s, hs, hend.1, postsPopped_iff hsalt hs hend.1⟩

end CppSerializer.Bucket
