import CppSerializer.Server.ReadYourWrite

/-!
# The clients finish their rounds

A client that waits for a reply waits for bytes that are due (`Client.Awaits`), and when neither
the server nor the network has anything left to do all of them are there. So a client that has a
round to do has its next call return, and the system cannot stop before every client has read
what it has put (`never_deadlocked`).
-/

namespace CppSerializer

open Pack AsyncWrite Bucket Transition

/-- The next call of a client returns when all that it waits for has come. -/
theorem Client.step_isSome {client : Client} {r : Round} {later : List Round} {rest : Bytes}
    (htodo : client.todo = r :: later) (hfits : r.Fits) (hawaits : client.Awaits rest) :
    (client.step rest).isSome := by
  have hput : PacketHeader.bytesize + r.putPacket.data.buf.length < 2 ^ 32 := hfits
  have hget : PacketHeader.bytesize + (r.getPacket r.putPacket.sized).data.buf.length <
      2 ^ 32 := Nat.lt_of_le_of_lt (Nat.le_add_right _ r.payload.length) hfits
  have hheader : ∀ (h : PacketHeader) (body : Bytes),
      readExact (h.bytes ++ body) PacketHeader.bytesize = some (h.bytes, body) :=
    fun h body => readExact_append body h.length_bytes
  unfold Client.step
  rw [Client.Awaits, htodo] at hawaits
  rw [htodo]
  cases hstage : client.stage with
  | put => simp [Packet.serialize_eq hput]
  | ack =>
    simp only [hstage] at hawaits
    have hread := hheader r.ackHeader []
    rw [List.append_nil] at hread
    simp [hawaits, hread, parse_header_bytes]
  | get => simp [Packet.serialize_eq hget]
  | header =>
    simp only [hstage] at hawaits
    obtain ⟨pack, hreply, rfl⟩ := hawaits
    simp [hreply.bytes_eq, hheader, parse_header_bytes]
  | body header =>
    simp only [hstage] at hawaits
    obtain ⟨pack, hreply, rfl, rfl⟩ := hawaits
    have hlength : pack.data.buf.length = pack.header.datasize.toNat := by
      rw [hreply.datasize, hreply.data]
    have hread := readExact_append [] hlength
    rw [List.append_nil] at hread
    simp [hread, PacketData.parse_eq hlength]

namespace System

/-- The step is one of the client, of its connection, or of the bucket of one of its rounds. -/
def Action.Concerns (rounds : Connection → List Round) (c : Connection) : Action → Prop
  | .client d | .arrive d _ | .read d | .send d _ _ => d = c
  | .bucket topic _ => topic ∈ (rounds c).map Round.topic

instance (rounds : Connection → List Round) (c : Connection) :
    DecidablePred (Action.Concerns rounds c)
  | .client d | .arrive d _ | .read d | .send d _ _ => inferInstanceAs (Decidable (d = c))
  | .bucket topic _ => inferInstanceAs (Decidable (topic ∈ (rounds c).map Round.topic))

variable {rounds : Connection → List Round} {s : System}

/-- Where nothing moves that concerns the client, it has nothing to do. -/
theorem Inv.todo_eq_nil (hown : OwnTopics rounds) (hfits : ∀ c, ∀ r ∈ rounds c, r.Fits)
    (h : Inv rounds s) {c : Connection}
    (hstalled : ∀ a : Action, a.Concerns rounds c → s.step a = none) :
    (s.clients c).todo = [] := by
  cases htodo : (s.clients c).todo with
  | nil => rfl
  | cons r later =>
    exfalso
    have hmem := h.mem_rounds htodo
    have hunderway : (s.connections c).underway = [] := by
      by_contra hsome
      have harrive := hstalled (.arrive c (s.connections c).underway.length) rfl
      simp only [System.step, System.arrive] at harrive
      rw [if_pos ⟨List.length_pos_of_ne_nil hsome, Nat.le_refl _⟩] at harrive
      cases harrive
    obtain ⟨rest, hawaits, -, hall⟩ := (h.inRound htodo).1.awaits htodo
    have hidle := h.idle_of_none hown htodo (hstalled (.read c) rfl)
      (fun i n => hstalled (.send c i n) rfl)
      fun a => hstalled (.bucket r.topic a) (List.mem_map_of_mem hmem)
    have hunread : s.unread c = rest := hall (h.supplied r.topic) hidle hunderway
    -- the client has all that it waits for
    have hclient := Client.step_isSome htodo (hfits c r hmem) hawaits
    rw [← hunread] at hclient
    obtain ⟨⟨client, buf⟩, hcall⟩ := Option.isSome_iff_exists.mp hclient
    have hnone : s.stepClient c = none := hstalled (.client c) rfl
    rw [System.stepClient, hcall] at hnone
    cases hnone

/-- A client that has done its rounds has read the payload of each. -/
theorem Inv.payloads (h : Inv rounds s) {c : Connection} (htodo : (s.clients c).todo = []) :
    (s.clients c).replies.map (fun x => x.2.data.buf) = (rounds c).map Round.payload := by
  have hrounds := (h.clients c).rounds_eq
  rw [htodo, List.append_nil] at hrounds
  rw [← hrounds, List.map_map]
  apply List.map_congr_left
  exact fun x hx => ((h.clients c).replies x hx).data

/-- In every reachable state somebody has a step to take, or every client has done all its
rounds, and has read in each of them the payload that it had put. -/
theorem never_deadlocked (hown : OwnTopics rounds) (hfits : ∀ c, ∀ r ∈ rounds c, r.Fits)
    (h : Reachable step (init rounds) s) :
    (∃ a t, s.step a = some t) ∨ ∀ c, (s.clients c).todo = [] ∧
      (s.clients c).replies.map (fun x => x.2.data.buf) = (rounds c).map Round.payload := by
  have hinv : Inv rounds s := h.invariant (inv_init rounds) fun _ _ _ hs ht => hs.step hown ht
  by_cases hstalled : ∀ a, s.step a = none
  · refine Or.inr fun c => ?_
    have htodo := hinv.todo_eq_nil (c := c) hown hfits fun a _ => hstalled a
    exact ⟨htodo, hinv.payloads htodo⟩
  · simp only [not_forall] at hstalled
    obtain ⟨a, ha⟩ := hstalled
    obtain ⟨t, ht⟩ := Option.ne_none_iff_exists'.mp ha
    exact Or.inl ⟨a, t, ht⟩

theorem fits_twoRounds : ∀ c, ∀ r ∈ twoRounds c, r.Fits := by
  rintro (_ | _ | c) r hr
  · rw [List.mem_singleton.mp hr, Round.Fits]
    decide
  · rw [List.mem_singleton.mp hr, Round.Fits]
    decide
  · cases hr

/-- Two clients with a round each, of which one has not read its ack. -/
theorem never_deadlocked_twoRoundsRun : ∃ s, run step (init twoRounds) twoRoundsRun = some s ∧
    ((∃ a t, s.step a = some t) ∨ ∀ c, (s.clients c).todo = [] ∧
      (s.clients c).replies.map (fun x => x.2.data.buf) = (twoRounds c).map Round.payload) := by
  obtain ⟨s, hs, -⟩ := Option.map_eq_some_iff.mp twoRoundsRun_end
  exact ⟨s, hs, never_deadlocked ownTopics_twoRounds fits_twoRounds ⟨twoRoundsRun, hs⟩⟩

end System

end CppSerializer
