import CppSerializer.Process.Clients

/-!
# Calls at rest

A connection keeps its token as long as no read of it fails and every header that it parses has a
branch of the switch (`run_kept`). So a client that sends triggers is never forgotten: when the
server has no step of its own left to take, its triggers are answered in order, all of them or up to
one whose job is queued, or with a worker that has not responded (`calls_complete`).
-/

namespace CppSerializer.Process

open Pack Bucket ReadLoop TcpConnection Transition
open Launcher (JobId)

/-! ## The token is kept -/

theorem tokens_pos_of_passing {p : Process} {c : Connection} {s : Session} {op : Op}
    (hop : op ∈ s.passing) : 1 ≤ p.tokens c s := by
  have hpos := List.length_pos_of_mem hop
  rw [tokens]
  omega

/-- The handler of a read hands the token on, unless the header it has parsed has no branch. -/
theorem exists_passing_got (n : Nat) (requests : List Request) {r : Read} {buf : Bytes}
    (hsize : buf.length = r.size)
    (henum : ∀ q ∈ record requests r buf, q.header.type.IsEnumerator) :
    ∃ op ∈ r.got n buf, passes op = true := by
  cases r with
  | header =>
    obtain ⟨h, hh⟩ := Option.isSome_iff_exists.mp
      (PacketHeader.parse_isSome (Nat.le_of_eq hsize.symm))
    have htype : h.type.IsEnumerator := by
      apply henum ⟨h, none⟩
      rw [record, hh]
      exact List.mem_append_right _ (List.mem_singleton_self _)
    rw [Read.got, hh]
    obtain ⟨type, key, datasize, sequence, randomSalt⟩ := h
    cases type with
    | unnamed b => exact htype.elim
    | _ => simp [headerCode, passes, submits, moves, Op.start]
  | body request pack =>
    rw [Read.got, parse_body hsize]
    exact ⟨.startReadHeader, by simp, rfl⟩
  | trigger request pack => exact ⟨_, List.mem_singleton_self _, rfl⟩

/-- The connection has its token. -/
def Alive (p : Process) (c : Connection) : Prop :=
  ∀ s, p.sessions[c]? = some s → (∀ q ∈ s.requests, q.header.type.IsEnumerator) → 1 ≤ p.tokens c s

/-- A connection that was there keeps its token, unless a read of it fails. -/
theorem SessionStep.tokens_pos {p q : Process} {a : Action} {c : Connection} {s t : Session}
    (h : SessionStep p q c s a t) (hlt : ∀ j ∈ p.launcher.callees, j < p.owners.length)
    (hsound : ∀ i, a ≠ .fail c i) (henum : ∀ q ∈ t.requests, q.header.type.IsEnumerator)
    (hkept : (∀ q ∈ s.requests, q.header.type.IsEnumerator) → 1 ≤ p.tokens c s) :
    1 ≤ q.tokens c t := by
  cases h with
  | stays a other jobs =>
    rw [tokens_congr jobs.pending]
    exact hkept henum
  | arrive chunk jobs =>
    rw [tokens_congr jobs.pending]
    exact hkept henum
  | complete i r outstanding size jobs =>
    obtain ⟨op, hop, hpasses⟩ := exists_passing_got s.requests.length s.requests
      (List.length_take_of_le size) henum
    refine tokens_pos_of_passing (List.mem_flatMap.mpr ⟨_, ?_, List.mem_filter.mpr ⟨hop, hpasses⟩⟩)
    exact List.mem_append_right _ (List.mem_singleton_self _)
  | fail i => exact absurd rfl (hsound i)
  | next k randomSalt sequence op ops code performed =>
    exact (tokens_performed code performed hlt).2 (hkept henum)
  | topics a out step jobs =>
    rw [tokens_congr jobs.pending]
    exact hkept henum
  | callback a done owner owners completions =>
    -- the callback has the token
    refine tokens_pos_of_passing (?_ : Op.startReadHeader ∈ _)
    rw [Session.passing, Session.post, List.flatMap_append]
    exact List.mem_append_right _ (List.mem_singleton_self _)

theorem Alive.step {p q : Process} {a : Action} {c : Connection} (hi : p.Alive c)
    (h : p.step a = some q) (hlt : ∀ j ∈ p.launcher.callees, j < p.owners.length)
    (hsound : ∀ i, a ≠ .fail c i) : q.Alive c := by
  intro t ht henum
  cases hs : p.sessions[c]? with
  | none =>
    obtain ⟨-, rfl⟩ := accepted_of_step h hs ht
    rw [tokens]
    change 1 ≤ 1 + _ + _ + _
    omega
  | some s =>
    obtain ⟨t', ht', hstep⟩ := sessionStep h hs
    rw [ht] at ht'
    cases ht'
    exact hstep.tokens_pos hlt hsound henum (hi s hs)

/-- A connection that has no failed read and has parsed the types of the enumeration only has its
token. -/
theorem run_kept {as : List Action} {p : Process} (hrun : run step init as = some p)
    (hanswers : Guarded step (OnLauncher Launcher.Answers) init as)
    (hother : Guarded step (OnLauncher Launcher.FindsNoOther) init as) {c : Connection}
    (hsound : ∀ i, .fail c i ∉ as) : p.Alive c := by
  revert hanswers hother hsound
  refine run_induction (P := fun as p => Guarded step (OnLauncher Launcher.Answers) init as →
    Guarded step (OnLauncher Launcher.FindsNoOther) init as → (∀ i, .fail c i ∉ as) →
      p.Alive c) ?_ ?_ as p hrun
  · intro _ _ _ s hs
    cases hs
  intro as p a q hp ih hq hanswers hother hsound
  have hbefore := ih hanswers.prefix hother.prefix
    fun i hi => hsound i (List.mem_append_left _ hi)
  refine hbefore.step hq ?_ ?_
  · rw [(run_oneReader hp hanswers.prefix hother.prefix).jobs]
    exact (run_callees hp hanswers.prefix hother.prefix).2
  · rintro i rfl
    exact hsound i (List.mem_append_right _ (List.mem_singleton_self _))

/-! ## Triggers without an answer -/

theorem forall₂_concat {α β : Type*} {R : α → β → Prop} {as : List α} {bs : List β} {b : β}
    (h : List.Forall₂ R as (bs ++ [b])) :
    ∃ init a, as = init ++ [a] ∧ List.Forall₂ R init bs ∧ R a b := by
  have hlast := List.forall₂_drop_append _ _ _ h
  obtain ⟨a, hdrop⟩ := List.length_eq_one_iff.mp hlast.length_eq
  rw [hdrop, List.forall₂_cons] at hlast
  refine ⟨_, a, ?_, List.forall₂_take_append _ _ _ h, hlast.1⟩
  rw [← hdrop, List.take_append_drop]

/-- What is due to a connection whose handlers are done is the body of its one job. -/
theorem due_of_pending {as : List Action} {p : Process} (hrun : run step init as = some p)
    (hone : OneReader p) {c : Connection} {s : Session} (hs : p.sessions[c]? = some s)
    (hhandlers : ∀ code ∈ s.loop.handlers, code = []) {j : JobId} (hj : j ∈ p.pending c) :
    ∃ body, p.jobBody c j = [body] ∧ p.due c = [.body body] := by
  have hjobs := (run_conserved hrun).jobs
  have howner := (mem_pending.mp hj).1
  obtain ⟨hlt, -⟩ := List.getElem?_eq_some_iff.mp howner
  have hpacket := List.getElem?_eq_getElem (hjobs ▸ hlt)
  have hbody : p.jobBody c j = [p.launcher.packets[j].data.buf] := by
    rw [jobBody, if_pos howner, hpacket]
    rfl
  have hpending : p.pending c = [j] := by
    have htokens := hone.one c s hs
    have hpos := List.length_pos_of_mem hj
    rw [tokens] at htokens
    obtain ⟨k, hk⟩ := List.length_eq_one_iff.mp (by omega : (p.pending c).length = 1)
    rw [hk] at hj ⊢
    rw [List.mem_singleton.mp hj]
  have hleft : s.left dueOf = [] := by
    rw [Session.left, List.flatMap_eq_nil_iff]
    intro code hcode
    rw [hhandlers code hcode]
    rfl
  refine ⟨_, hbody, ?_⟩
  rw [due, held_eq hs, hleft, awaited, hpending, List.flatMap_singleton, hbody]
  rfl

/-- A connection with its token and without a job waits for bytes, or its socket was moved. -/
theorem atEnd_of_served {as : List Action} {p : Process} (hserved : p.Served as) {c : Connection}
    {s : Session} (hs : p.sessions[c]? = some s) (htokens : 1 ≤ p.tokens c s)
    (hpending : p.pending c = []) : s.AtEnd := by
  have hpassing : s.passing = [] := by
    rw [Session.passing, List.flatMap_eq_nil_iff]
    intro code hcode
    rw [hserved.handlers c s hs code hcode]
    rfl
  rw [tokens, hpassing, hpending] at htokens
  cases hreads : s.loop.reads with
  | nil =>
    rw [hreads] at htokens
    change 1 ≤ 0 + 0 + 0 + s.moved.toNat at htokens
    rw [Nat.zero_add] at htokens
    exact Or.inl (Bool.toNat_eq_one.mp (Nat.le_antisymm s.moved.toNat_le htokens))
  | cons r rest =>
    have hr : r ∈ s.loop.reads := by
      rw [hreads]
      exact List.mem_cons_self
    exact Or.inr ⟨r, hr, hserved.reads c s hs r hr⟩

/-- A job of a connection that waits for it waits for a worker. -/
theorem unanswered_of_served {as : List Action} {p : Process} (hrun : run step init as = some p)
    (hanswers : Guarded step (OnLauncher Launcher.Answers) init as)
    (hother : Guarded step (OnLauncher Launcher.FindsNoOther) init as) (hserved : p.Served as)
    (hcrashed : p.launcher.crashed = false) {c : Connection} {j : JobId} (hj : j ∈ p.pending c) :
    p.launcher.Unanswered j := by
  obtain ⟨ls, hls, hall, hnone⟩ :=
    run_launcher_other (fun l a => answers_of_call l) hrun hanswers hother
  obtain ⟨howner, hcallee⟩ := mem_pending.mp hj
  have hlt := (List.getElem?_eq_some_iff.mp howner).1
  rw [(run_oneReader hrun hanswers hother).jobs] at hlt
  exact Launcher.unanswered_of_rest hls (hall.mono fun _ _ h => h.1) hnone hcrashed
    hserved.launcher.1 hserved.launcher.2.1 hlt hcallee

/-- The server has no step of its own left to take, and all bytes of a client that sends triggers
only have come: the triggers are answered in order, all of them, or all before one whose job is
queued, or with a worker that has not responded to it. This holds in runs in which the headers of
jobs differ in key or salt and workers answer what they were given. -/
theorem calls_complete {R : Bytes → Bytes → Prop} {as : List Action} {p : Process}
    (hrun : run step init as = some p)
    (hcomputes : Guarded step (OnLauncher (Launcher.Computes R)) init as)
    (hnodup : p.launcher.topics.Nodup) (hrest : p.AtRest) (hcrashed : p.launcher.crashed = false)
    (hfits : p.Fits) {c : Connection} {s : Session} (hs : p.sessions[c]? = some s)
    (hsound : ∀ i, .fail c i ∉ as) {packets : List Packet} (hpackets : Triggers packets)
    (hcome : received c as = stream packets) : ∃ answered rest,
      packets.map (fun pack => pack.data.buf) = answered ++ rest ∧
      List.Forall₂ (IsReply R) answered (s.writes.map Write.pack) ∧
      (rest = [] ∨ ∃ body more j, rest = body :: more ∧ p.jobBody c j = [body] ∧
        p.launcher.Unanswered j) := by
  have hother := findsNoOther_of_run hrun hnodup
  have hanswers : Guarded step (OnLauncher Launcher.Answers) init as :=
    hcomputes.mono fun p a h l hl => (h l hl).1
  have hone := run_oneReader hrun hanswers hother
  have hserved := served_of_rest hrun hrest hcrashed hfits
  obtain ⟨htype, hfirst, hall⟩ := triggers_of_packets hrun hanswers hother hs hpackets
    (hcome ▸ List.prefix_rfl)
  have hdue := run_due hrun hcomputes hother c
  rw [held_eq hs, ← writes_of_triggers hrun hs htype] at hdue
  have henum : ∀ q ∈ s.requests, q.header.type.IsEnumerator := by
    intro q hq
    rw [htype q hq]
    trivial
  have htokens := run_kept hrun hanswers hother hsound s hs henum
  cases hpending : p.pending c with
  | nil =>
    have hend := atEnd_of_served hserved hs htokens hpending
    have hnone := length_due_le (run_carried hrun) hs
    rw [quiet_of_atEnd (hone.one c s hs) hend] at hnone
    rw [hall hcome hend, List.length_eq_zero_iff.mp (Nat.le_zero.mp hnone), List.append_nil] at hdue
    exact ⟨_, [], (List.append_nil _).symm,
      (List.forall₂_map_right_iff (f := Due.reply)).mp hdue, Or.inl rfl⟩
  | cons j others =>
    have hj : j ∈ p.pending c := by
      rw [hpending]
      exact List.mem_cons_self
    obtain ⟨body, hjob, honly⟩ :=
      due_of_pending hrun hone hs (fun code => hserved.handlers c s hs code) hj
    rw [honly] at hdue
    obtain ⟨answered, b, htriggers, hanswered, hbody⟩ := forall₂_concat hdue
    obtain rfl : body = b := hbody
    obtain ⟨more, hmore⟩ := hfirst
    refine ⟨answered, body :: more, ?_, (List.forall₂_map_right_iff (f := Due.reply)).mp hanswered,
      Or.inr ⟨body, more, j, rfl, hjob, ?_⟩⟩
    · rw [← hmore, htriggers, List.append_assoc]
      rfl
    · exact unanswered_of_served hrun hanswers hother hserved hcrashed hj

/-! ## Two triggers that are answered -/

/-- The answers are written, the loops of `start_jobs` find the queue empty, and the handlers of
the waits run. -/
def restRun : List Action :=
  triggersRun 4 (callbackRun 0 2 ++ callbackRun 1 2) ++
    [.call 0 .tryPop, .call 1 .tryPop, .call 2 .tryPop, .call 3 .tryPop, .waited 0,
      .waited 0].map Action.launcher

theorem restRun_end : ((run step init restRun).map fun p =>
    (decide p.Idle, p.launcher.crashed, decide p.launcher.topics.Nodup,
      p.launcher.jobs.all (fun job =>
        decide (PacketHeader.bytesize + job.pack.data.buf.length < 2 ^ 32)),
      p.sessions[0]?.map fun s => s.writes.length)) = some (true, false, true, true, some 1) := by
  decide +kernel

theorem restRun_computes :
    Guarded step (OnLauncher (Launcher.Computes fun _ result => result = [90])) init restRun := by
  refine answeredRun_computes.append fun q _ => guarded_of_forall ?_
  intro a ha p l hl
  subst hl
  refine ⟨Launcher.answers_of_ne ?_, ?_⟩
  · rintro w origin pack rfl
    simp at ha
  · rintro w j pack rfl
    simp at ha

theorem calls_complete_restRun : ∃ p s, run step init restRun = some p ∧
    p.sessions[0]? = some s ∧
    List.Forall₂ (IsReply fun _ result => result = [90]) [[65]] (s.writes.map Write.pack) := by
  obtain ⟨p, hp, hend⟩ := Option.map_eq_some_iff.mp restRun_end
  simp only [Prod.mk.injEq, List.all_eq_true, decide_eq_true_eq] at hend
  obtain ⟨hidle, hcrashed, hnodup, hsize, hwrites⟩ := hend
  obtain ⟨s, hs, hwrites⟩ := Option.map_eq_some_iff.mp hwrites
  have hfits := hidle.fits hsize
  have hpackets : Triggers [⟨requestHeader .trigger 1, ⟨[65]⟩⟩] := by
    constructor <;> decide
  have hcome : received 0 restRun = stream [⟨requestHeader .trigger 1, ⟨[65]⟩⟩] := by
    decide +kernel
  have hsound : ∀ i, .fail 0 i ∉ restRun := by
    intro i
    simp [restRun, triggersRun, triggersPosted, callbackRun]
  obtain ⟨answered, rest, hsplit, hanswered, -⟩ := calls_complete hp restRun_computes hnodup
    hidle.atRest hcrashed hfits hs hsound hpackets hcome
  have hlength := hanswered.length_eq
  rw [List.length_map, hwrites] at hlength
  obtain ⟨body, rfl⟩ := List.length_eq_one_iff.mp hlength
  obtain rfl : [65] = body := (List.cons.inj hsplit).1
  exact ⟨p, s, hp, hs, hanswered⟩

end CppSerializer.Process
