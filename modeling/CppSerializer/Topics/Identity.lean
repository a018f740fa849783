import CppSerializer.Topics.Isolation

/-!
# Whose identity an answer carries

The header of an answer is that of the packet whose handler hands it out, with the type `ack`.
Whichever packet of the topic that is, the answer has the key and the salt of every get that
waits (`topics_isolated`); the sequence is the one of the handler's packet. An acknowledgement
echoes the sequence of its own request, and the client draws a new one for each request, but the
answer of a get carries it only if no other packet's handler delivers to its listener
(`carriesIdentity_iff`).
-/

namespace CppSerializer.Topics

open Pack Bucket UnorderedMap Transition PacketHeader

/-! ## The property and the condition -/

/-- The packet that `start_write` of the listener's connection writes. -/
def Handed.sent (x : Handed) : Packet := x.pack.sized

/-- The header of a get, as that of an acknowledgement with the data. -/
def answerHeader (h : PacketHeader) (data : PacketData) : PacketHeader :=
  { h with type := .ack, datasize := BitVec.ofNat (8 * 4) data.buf.length }

/-- Every packet handed to the listener of a get carries the identity of the get. -/
def CarriesIdentity (t : Topics) : Prop :=
  ∀ x ∈ t.log.handed, ∀ h, ⟨x.bucket, x.listener, h⟩ ∈ t.log.connects →
    x.sent.header = answerHeader h x.sent.data

/-- A handler calls the slots only of gets with the sequence of its own packet. -/
def EmitsOwn (t : Topics) : Action → Prop
  | .handler r .emit => ∀ e h, t.entries[r]? = some e → e.2.running = some h →
    ∀ l ∈ e.2.listeners, ∀ header, ⟨r, l, header⟩ ∈ t.log.connects →
      header.sequence = h.key.header.sequence
  | _ => True

/-! ## The header of `resp` -/

/-- The `resp` of a handler, with any data in it, is sent as an answer to its packet. -/
def Echoes (h : Handler) : Prop :=
  ∀ data, { h.resp with data := data }.sized.header = answerHeader h.key.header data

theorem echoes_start (key : Packet) : Echoes (Handler.start key) := fun _ => rfl

theorem emit_header (resp : Packet) (ls : List Listener) (data : PacketData) :
    { (emit resp ls).2 with data := data }.sized.header =
      { resp with data := data }.sized.header := by
  induction ls generalizing resp with
  | nil => rfl
  | cons l ls ih => exact ih resp.sized

/-- A step of the handler keeps the header of its `resp`. -/
theorem Echoes.handle {b b' : Bucket} {h h' : Handler} {op : HandlerOp} {out : List Bucket.Output}
    (he : Echoes h) (hstep : b.handle h op = (b', out)) (hrun : b'.running = some h') :
    Echoes h' := by
  cases op with
  | triggerPop | tryPop | listenerEmpty | queueEmpty =>
    rw [Bucket.handle] at hstep
    split at hstep <;> cases hstep <;> cases hrun <;> exact he
  | startTriggerPost =>
    cases hstep
    cases hrun
    exact he
  | emit =>
    cases hstep
    cases hrun
    exact fun data => (emit_header _ _ data).trans (he data)
  | disconnectAllSlots =>
    cases hstep
    cases hrun

/-! ## The slots -/

/-- What a bucket keeps of its handler, and that its next slot has not been connected. -/
structure EntryIdentity (t : Topics) (r : BucketRef) (b : Bucket) : Prop where
  running : ∀ h, b.running = some h → Echoes h
  fresh : ∀ l header, ⟨r, l, header⟩ ∈ t.log.connects → l.slot < b.nextSlot

def Identified (t : Topics) : Prop := ∀ r e, t.entries[r]? = some e → t.EntryIdentity r e.2

/-- A step that changes at most one bucket, and connects only slots that it has taken. -/
theorem Identified.setBucket {t t' : Topics} (hi : Identified t) {r : BucketRef}
    {e : PacketHeader × Bucket} (he : t.entries[r]? = some e) {b : Bucket}
    (hentries : t'.entries = put t.entries r b) (hrunning : ∀ h, b.running = some h → Echoes h)
    (hslot : e.2.nextSlot ≤ b.nextSlot)
    (hconnects : ∀ c ∈ t'.log.connects,
      c ∈ t.log.connects ∨ c.bucket = r ∧ c.listener.slot < b.nextSlot) : Identified t' := by
  intro r' e' he'
  rw [hentries, getElem?_put] at he'
  obtain ⟨e₀, he₀, heq⟩ := Option.map_eq_some_iff.mp he'
  have hold := hi r' e₀ he₀
  split at heq
  · next hr =>
    cases heq
    subst hr
    rw [he] at he₀
    cases he₀
    refine ⟨hrunning, fun l header hl => ?_⟩
    rcases hconnects _ hl with hl | ⟨-, hlt⟩
    · exact Nat.lt_of_lt_of_le (hold.fresh l header hl) hslot
    · exact hlt
  · next hr =>
    cases heq
    refine ⟨hold.running, fun l header hl => ?_⟩
    rcases hconnects _ hl with hl | ⟨hbucket, -⟩
    · exact hold.fresh l header hl
    · exact absurd hbucket.symm hr

theorem Identified.congr {t t' : Topics} (hi : Identified t) (hentries : t'.entries = t.entries)
    (hconnects : t'.log.connects = t.log.connects) : Identified t' := by
  intro r e he
  have hold := hi r e (hentries ▸ he)
  exact ⟨hold.running, fun l header hl => hold.fresh l header (hconnects ▸ hl)⟩

/-- A new entry is one that nobody has connected to. -/
theorem Identified.insert {t : Topics} (hi : Identified t) (hiso : Isolated t) (h : PacketHeader) :
    Identified (t.insert h) := by
  intro r e he
  change (emplace keyTraits t.entries h newBucket)[r]? = some e at he
  unfold emplace at he
  have hold : t.entries[r]? = some e → (t.insert h).EntryIdentity r e.2 := fun he =>
    ⟨(hi r e he).running, (hi r e he).fresh⟩
  split at he
  · exact hold he
  · by_cases hr : r < t.entries.length
    · rw [List.getElem?_append_left hr] at he
      exact hold he
    · rw [List.getElem?_append_right (Nat.le_of_not_lt hr)] at he
      obtain rfl := List.mem_singleton.mp (List.mem_of_getElem? he)
      refine ⟨fun _ hrun => (by cases hrun), fun l header hl => ?_⟩
      obtain ⟨e', he', -⟩ := hiso.connects _ hl
      exact absurd (List.getElem?_eq_some_iff.mp he').1 hr

theorem handle_nextSlot (b : Bucket) (h : Handler) (op : HandlerOp) :
    (b.handle h op).1.nextSlot = b.nextSlot := by
  cases op with
  | triggerPop | tryPop | listenerEmpty | queueEmpty =>
    simp only [handle]
    split <;> rfl
  | _ => rfl

theorem mem_connects_use {log : Log} {r : BucketRef} {b : Bucket} {task : Task} {op : TaskOp}
    {c : Connect} (hc : c ∈ (log.use r b task op).connects) : c ∈ log.connects ∨
      op = .getConnect ∧ c = ⟨r, ⟨b.nextSlot, task.self⟩, task.pack.header⟩ := by
  cases op with
  | getConnect =>
    rcases List.mem_append.mp hc with hc | hc
    · exact Or.inl hc
    · exact Or.inr ⟨rfl, List.mem_singleton.mp hc⟩
  | _ => exact Or.inl hc

theorem Identified.step {t t' : Topics} {a : Action} {out : List Output} (hi : Identified t)
    (hiso : Isolated t) (hstep : t.step a = some (t', out)) : Identified t' := by
  cases step_cases hstep with
  | put _ _ _ _ after | get _ _ _ after | contains _ _ _ _ _ after | found _ _ _ _ _ after
  | startWrite _ _ _ after =>
    subst after
    exact hi.congr rfl rfl
  | emplace i task before after =>
    subst after
    exact (hi.insert hiso task.pack.header).congr rfl rfl
  | use i op hop task before r found e entry b out step after =>
    subst after
    refine hi.setBucket entry rfl ?_ ?_ ?_
    · rw [step.running]
      exact (hi r e entry).running
    · rw [step.nextSlot]
      exact Nat.le_add_right _ _
    · intro c hc
      rcases mem_connects_use hc with hc | ⟨hop, rfl⟩
      · exact Or.inl hc
      · exact Or.inr ⟨rfl, by rw [step.nextSlot, if_pos hop]; exact Nat.lt_succ_self _⟩
  | begin r i e entry key idle posted after =>
    subst after
    refine hi.setBucket entry rfl ?_ (Nat.le_refl _) (fun _ hc => Or.inl hc)
    rintro _ ⟨⟩
    exact echoes_start key
  | handler r op e entry h running next b out handle after =>
    subst after
    have hslot := handle_nextSlot e.2 h op
    rw [handle] at hslot
    refine hi.setBucket entry rfl ?_ (Nat.le_of_eq hslot.symm) (fun _ hc => Or.inl hc)
    intro h' hrun
    exact ((hi r e entry).running h running).handle handle hrun

/-! ## What a step hands out -/

/-- An emit calls every slot with one packet, as far as that is sent. -/
theorem calls_emit {resp : Packet} {ls : List Listener} {l : Listener} {pack : Packet}
    (h : .call l pack ∈ (emit resp ls).1) : pack.sized = resp.sized := by
  induction ls generalizing resp with
  | nil => cases h
  | cons l' ls ih =>
    rcases List.mem_cons.mp h with h | h
    · cases h
      rfl
    · exact @ih resp.sized h

theorem exists_call_emit {resp : Packet} {ls : List Listener} {l : Listener} (h : l ∈ ls) :
    ∃ pack, .call l pack ∈ (emit resp ls).1 := by
  induction ls generalizing resp with
  | nil => cases h
  | cons l' ls ih =>
    rcases List.mem_cons.mp h with rfl | h
    · exact ⟨resp, List.mem_cons_self⟩
    · obtain ⟨pack, hcall⟩ := @ih resp.sized h
      exact ⟨pack, List.mem_cons_of_mem _ hcall⟩

/-- Only an emit calls slots. -/
theorem no_call_of_handle {b b' : Bucket} {h : Handler} {op : HandlerOp}
    {out : List Bucket.Output} (hop : op ≠ .emit) (hstep : b.handle h op = (b', out))
    (r : BucketRef) : out.filterMap (Handed.ofHandler r) = [] := by
  cases op with
  | emit => exact absurd rfl hop
  | triggerPop | tryPop | listenerEmpty | queueEmpty =>
    rw [handle] at hstep
    split at hstep <;> cases hstep <;> rfl
  | startTriggerPost | disconnectAllSlots =>
    cases hstep
    rfl

/-- The headers of a get and of a packet of the same topic differ in the sequence at most, once
both are answers. -/
theorem answerHeader_inj {h h' : PacketHeader} (htopic : h.topic = h'.topic) (data : PacketData) :
    answerHeader h data = answerHeader h' data ↔ h.sequence = h'.sequence := by
  obtain ⟨hkey, hsalt⟩ := Prod.mk.inj htopic
  simp [answerHeader, hkey, hsalt]

/-- What was handed out before a step is unaffected by it: a slot that the step connects is a
new one. -/
theorem handed_unaffected {t t' : Topics} {a : Action} {out : List Output} (hi : Identified t)
    (hiso : Isolated t) (h : t.step a = some (t', out)) {x : Handed} (hx : x ∈ t.log.handed)
    {header : PacketHeader} : ⟨x.bucket, x.listener, header⟩ ∈ t'.log.connects ↔
      ⟨x.bucket, x.listener, header⟩ ∈ t.log.connects := by
  refine ⟨fun hc => ?_, (grows_of_step (step_cases h)).connects _⟩
  cases step_cases h with
  | put _ _ _ _ after | get _ _ _ after | contains _ _ _ _ _ after | found _ _ _ _ _ after
  | startWrite _ _ _ after | emplace _ _ _ after | begin _ _ _ _ _ _ _ after
  | handler _ _ _ _ _ _ _ _ _ _ after =>
    subst after
    exact hc
  | use i op hop task before r found e entry b out step after =>
    subst after
    rcases mem_connects_use hc with hc | ⟨-, hnew⟩
    · exact hc
    · -- the slot of `x` is older
      obtain ⟨⟨header', hold⟩, -⟩ := hiso.handed x hx
      obtain ⟨hr, hl, -⟩ := Connect.mk.inj hnew
      rw [hr, hl] at hold
      exact absurd ((hi r e entry).fresh _ _ hold) (Nat.lt_irrefl _)

/-- An emit keeps the property exactly if the gets that wait have the sequence of the handler's
packet. -/
theorem answered_emit {t : Topics} (hi : Identified t) (hiso : Isolated t) {r : BucketRef}
    {e : PacketHeader × Bucket} (he : t.entries[r]? = some e) {h : Handler}
    (hrun : e.2.running = some h) :
    (∀ x ∈ (emit h.resp e.2.listeners).1.filterMap (Handed.ofHandler r), ∀ header,
        ⟨x.bucket, x.listener, header⟩ ∈ t.log.connects →
        x.sent.header = answerHeader header x.sent.data) ↔
      ∀ l ∈ e.2.listeners, ∀ header, ⟨r, l, header⟩ ∈ t.log.connects →
        header.sequence = h.key.header.sequence := by
  have hechoes := (hi r e he).running h hrun
  have htopic := ((hiso.entries r e he).running h hrun).1
  -- the packet of the handler has the topic of its `resp`
  have hkey : h.key.header.topic = e.1.topic :=
    (congrArg PacketHeader.topic (hechoes h.resp.data)).symm.trans htopic
  have hsent : ∀ l pack, .call l pack ∈ (emit h.resp e.2.listeners).1 →
      ∀ header, ⟨r, l, header⟩ ∈ t.log.connects →
      (pack.sized.header = answerHeader header pack.sized.data ↔
        header.sequence = h.key.header.sequence) := by
    intro l pack hcall header hc
    obtain ⟨e', he', htopic'⟩ := hiso.connects _ hc
    rw [he] at he'
    cases he'
    rw [calls_emit hcall]
    change { h.resp with data := h.resp.data }.sized.header = _ ↔ _
    rw [hechoes, eq_comm]
    exact answerHeader_inj (htopic'.symm.trans hkey.symm) h.resp.data
  constructor
  · intro hall l hl header hc
    obtain ⟨pack, hcall⟩ := @exists_call_emit h.resp _ _ hl
    exact (hsent l pack hcall header hc).mp
      (hall ⟨r, l, pack⟩ (List.mem_filterMap.mpr ⟨_, hcall, rfl⟩) header hc)
  · intro hall x hx header hc
    obtain ⟨hbucket, hcall⟩ := mem_handed hx
    rw [hbucket] at hc
    exact (hsent _ _ hcall header hc).mpr (hall _ (call_of_emit hcall).1 header hc)

/-- What one step does to the property: everything but an emit leaves it, and an emit keeps it
exactly if it calls only the gets with the sequence of the handler's packet. -/
theorem carriesIdentity_step {t t' : Topics} {a : Action} {out : List Output} (hi : Identified t)
    (hiso : Isolated t) (hstep : t.step a = some (t', out)) :
    t'.CarriesIdentity ↔ t.CarriesIdentity ∧ t.EmitsOwn a := by
  have hsame : (∀ x ∈ t.log.handed, ∀ h, ⟨x.bucket, x.listener, h⟩ ∈ t'.log.connects →
      x.sent.header = answerHeader h x.sent.data) ↔ t.CarriesIdentity :=
    forall₂_congr fun x hx => forall_congr' fun h =>
      imp_congr_left (handed_unaffected hi hiso hstep hx)
  have hnone : t'.log.handed = t.log.handed → t.EmitsOwn a →
      (t'.CarriesIdentity ↔ t.CarriesIdentity ∧ t.EmitsOwn a) := by
    intro hhanded hown
    rw [CarriesIdentity, hhanded, hsame]
    exact (and_iff_left hown).symm
  cases step_cases hstep with
  | put _ _ _ _ after | get _ _ _ after | contains _ _ _ _ _ after | found _ _ _ _ _ after
  | startWrite _ _ _ after | emplace _ _ _ after | begin _ _ _ _ _ _ _ after =>
    subst after
    exact hnone rfl trivial
  | use i op hop task before r found e entry b out step after =>
    subst after
    refine hnone ?_ trivial
    change (t.log.use r e.2 task op).handed = t.log.handed
    rcases hop with rfl | rfl | rfl <;> rfl
  | handler r op e entry h running next b out handle after =>
    by_cases hop : op = .emit
    · subst hop after
      cases handle
      refine (List.forall_mem_append).trans (and_congr hsame ?_)
      refine (answered_emit hi hiso entry running).trans ⟨fun hall e' h' he' hrun' => ?_,
        fun hown => hown e h entry running⟩
      rw [entry] at he'
      cases he'
      rw [running] at hrun'
      cases hrun'
      exact hall
    · subst after
      refine hnone ?_ ?_
      · change t.log.handed ++ out.filterMap (Handed.ofHandler r) = t.log.handed
        rw [no_call_of_handle hop handle, List.append_nil]
      · cases op with
        | emit => exact absurd rfl hop
        | _ => trivial

/-! ## Runs -/

theorem run_identified {as : List Action} {t : Topics} (hrun : run next init as = some t) :
    Identified t := by
  refine run_induction (P := fun _ t => Identified t) ?_ ?_ as t hrun
  · intro r e he
    cases he
  · intro as t a t' ht hi ht'
    obtain ⟨⟨t₁, out⟩, hstep, rfl⟩ := Option.map_eq_some_iff.mp ht'
    exact hi.step (run_isolated ht) hstep

/-- Every packet that a run has handed to the listener of a get is an answer to that get, with
its key, salt and sequence and the size of the payload, if and only if each handler that handed
one out did so while only gets with the sequence of its own packet were connected. -/
theorem carriesIdentity_iff {as : List Action} {t : Topics} (hrun : run next init as = some t) :
    t.CarriesIdentity ↔ Guarded next EmitsOwn init as := by
  refine run_guarded_iff ?_ hrun ?_
  · intro x hx
    cases hx
  · intro pre a post t t' _ has ht
    obtain ⟨⟨t₁, out⟩, hstep, rfl⟩ := Option.map_eq_some_iff.mp ht
    exact carriesIdentity_step (run_identified has) (run_isolated has) hstep

/-- The handler of the get itself delivers. -/
theorem carriesIdentity_iff_raceRun : ∃ t, run next init raceRun = some t ∧
    t.log.handed.length = 1 ∧ (t.CarriesIdentity ↔ Guarded next EmitsOwn init raceRun) := by
  obtain ⟨t, ht, hend⟩ := Option.map_eq_some_iff.mp raceRun_end
  have hlen := congrArg List.length (Prod.mk.inj hend).2
  rw [List.length_map] at hlen
  exact ⟨t, ht, hlen, carriesIdentity_iff ht⟩

/-! ## The handler of a put delivers -/

/-- The get connects its listener before the put posts its handler, which finds it there. -/
def crossRun : List Action :=
  [.put 0 0 (raceHeader .put 1 2) [65], .get 1 0 (raceHeader .get 1 3),
    .task 0 .contains, .task 0 .emplace, .task 0 .at, .task 0 .pushMessage,
    .task 1 .contains, .task 1 .at, .task 1 .getConnect, .task 0 .startHandleEvents,
    .begin 0 0, .handler 0 .listenerEmpty, .handler 0 .queueEmpty, .handler 0 .tryPop,
    .handler 0 .emit]

theorem crossRun_end : ((run next init crossRun).map fun t => (t.log.handed, t.log.connects)) =
    some ([⟨0, ⟨0, 1⟩, ⟨raceHeader .ack 1 2, ⟨[65]⟩⟩⟩], [⟨0, ⟨0, 1⟩, raceHeader .get 1 3⟩]) := by
  decide +kernel

/-- The get with sequence 3 is answered with sequence 2. -/
theorem crossRun_sequence :
    ∃ t, run next init crossRun = some t ∧ ¬ t.CarriesIdentity := by
  obtain ⟨t, ht, hend⟩ := Option.map_eq_some_iff.mp crossRun_end
  obtain ⟨hhanded, hconnects⟩ := Prod.mk.inj hend
  refine ⟨t, ht, fun hall => ?_⟩
  have hanswer := hall _ (hhanded ▸ List.mem_singleton_self _) (raceHeader .get 1 3)
    (hconnects ▸ List.mem_singleton_self _)
  exact absurd (congrArg PacketHeader.sequence hanswer) (by decide)

end CppSerializer.Topics
