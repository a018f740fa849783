import CppSerializer.Library.OnlyLeft
import Mathlib.Data.List.Perm.Basic
import Mathlib.Data.List.Flatten

/-!
# Writes that are sent in parts

A socket with the writes that were started on it. A write sends its buffer in any number of
parts, each some non-empty part of what remains, and nothing orders the parts of different
writes. `InTurn` is the invariant of a socket on which a write sends only when every other
write has sent nothing yet or everything: the bytes sent are the buffers of the complete
writes, in some order, and then what an incomplete write has sent.
-/

namespace AsyncWrite

/-- A write: what it has sent of its buffer, and what remains. -/
structure Write (α : Type*) where
  sent : List α
  remaining : List α
  deriving DecidableEq

structure Socket (α : Type*) where
  writes : List (Write α)
  wire : List α
  deriving DecidableEq

variable {α : Type*}

namespace Write

def buffer (w : Write α) : List α := w.sent ++ w.remaining

/-- The write has sent nothing, or everything. -/
def Idle (w : Write α) : Prop := w.sent = [] ∨ w.remaining = []

instance [DecidableEq α] (w : Write α) : Decidable w.Idle :=
  inferInstanceAs (Decidable (w.sent = [] ∨ w.remaining = []))

/-- What an incomplete write has sent. -/
def openPart (w : Write α) : List α := if w.remaining.isEmpty then [] else w.sent

theorem Idle.openPart {w : Write α} (h : w.Idle) : w.openPart = [] := by
  unfold Write.openPart
  rcases h with h | h
  · simp [h]
  · simp [h]

end Write

namespace Socket

def empty : Socket α := ⟨[], []⟩

/-- A write of a buffer is started. -/
def asyncWrite (s : Socket α) (buf : List α) : Socket α :=
  { s with writes := s.writes ++ [⟨[], buf⟩] }

/-- Write `i` sends the next `n` bytes of its buffer. -/
def send (s : Socket α) (i n : Nat) : Option (Socket α) :=
  match s.writes[i]? with
  | some w =>
    if 0 < n ∧ n ≤ w.remaining.length then
      some {
        writes := s.writes.set i ⟨w.sent ++ w.remaining.take n, w.remaining.drop n⟩
        wire := s.wire ++ w.remaining.take n }
    else none
  | none => none

theorem send_some {s t : Socket α} {i n : Nat} (h : s.send i n = some t) :
    ∃ w, s.writes[i]? = some w ∧ 0 < n ∧ n ≤ w.remaining.length ∧
      t.writes = s.writes.set i ⟨w.sent ++ w.remaining.take n, w.remaining.drop n⟩ ∧
      t.wire = s.wire ++ w.remaining.take n := by
  unfold send at h
  split at h
  · rename_i w hw
    split at h
    · rename_i hn
      cases h
      exact ⟨w, hw, hn.1, hn.2, rfl, rfl⟩
    · cases h
  · cases h

/-- The buffers of the writes. -/
def buffers (s : Socket α) : List (List α) := s.writes.map Write.buffer

theorem buffers_asyncWrite (s : Socket α) (buf : List α) :
    (s.asyncWrite buf).buffers = s.buffers ++ [buf] := by
  simp [buffers, asyncWrite, Write.buffer]

theorem buffers_send {s t : Socket α} {i n : Nat} (h : s.send i n = some t) :
    t.buffers = s.buffers := by
  obtain ⟨w, hw, -, -, hwrites, -⟩ := send_some h
  obtain ⟨hi, rfl⟩ := List.getElem?_eq_some_iff.mp hw
  have hbuffer : Write.buffer ⟨s.writes[i].sent ++ s.writes[i].remaining.take n,
      s.writes[i].remaining.drop n⟩ = s.writes[i].buffer := by
    simp [Write.buffer]
  rw [buffers, hwrites, List.map_set, hbuffer, buffers, ← List.getElem_map Write.buffer]
  · exact List.set_getElem_self _
  · rwa [List.length_map]

/-- Every write is complete. -/
def Complete (s : Socket α) : Prop := ∀ w ∈ s.writes, w.remaining = []

/-- Every write but `i` has sent nothing, or everything. -/
def Alone (s : Socket α) (i : Nat) : Prop :=
  ∀ j w, s.writes[j]? = some w → j ≠ i → w.Idle

instance [DecidableEq α] (s : Socket α) (i : Nat) : Decidable (s.Alone i) :=
  decidable_of_iff (∀ j : Fin s.writes.length, j.val ≠ i → (s.writes.get j).Idle) (by
    constructor
    · intro h j w hw hne
      obtain ⟨hj, rfl⟩ := List.getElem?_eq_some_iff.mp hw
      exact h ⟨j, hj⟩ hne
    · intro h j hne
      exact h j.val _ (List.getElem?_eq_getElem j.isLt) hne)

/-- The buffers of the complete writes. -/
def done (writes : List (Write α)) : List (List α) :=
  (writes.filter fun w => w.remaining.isEmpty).map Write.buffer

/-- What incomplete writes have sent. -/
def openParts (writes : List (Write α)) : List α := writes.flatMap Write.openPart

/-- The writes send in turn. -/
def InTurn (s : Socket α) : Prop :=
  ∃ order : List (List α), order.Perm (done s.writes) ∧
    s.wire = order.flatten ++ openParts s.writes

theorem inTurn_empty : InTurn (empty : Socket α) := ⟨[], .refl _, rfl⟩

theorem InTurn.asyncWrite {s : Socket α} (h : InTurn s) (buf : List α) :
    InTurn (s.asyncWrite buf) := by
  obtain ⟨order, hperm, hwire⟩ := h
  have hopen : openParts (s.asyncWrite buf).writes = openParts s.writes := by
    simp [openParts, Socket.asyncWrite, Write.openPart]
  by_cases hbuf : buf = []
  · subst hbuf
    refine ⟨order ++ [[]], ?_, ?_⟩
    · have hdone : done (s.asyncWrite []).writes = done s.writes ++ [[]] := by
        simp [done, Socket.asyncWrite, Write.buffer]
      rw [hdone]
      exact hperm.append_right _
    · rw [hopen, List.flatten_append]
      simpa [Socket.asyncWrite] using hwire
  · refine ⟨order, ?_, by rw [hopen]; exact hwire⟩
    have hdone : done (s.asyncWrite buf).writes = done s.writes := by
      simp [done, Socket.asyncWrite, hbuf]
    rwa [hdone]

theorem openParts_idle {writes : List (Write α)} (h : ∀ w ∈ writes, w.Idle) :
    openParts writes = [] :=
  List.flatMap_eq_nil_iff.mpr fun w hw => (h w hw).openPart

/-- Between idle writes only one counts. -/
theorem openParts_middle {before after : List (Write α)} {w : Write α}
    (hbefore : ∀ w ∈ before, w.Idle) (hafter : ∀ w ∈ after, w.Idle) :
    openParts (before ++ w :: after) = w.openPart := by
  have hfront := openParts_idle hbefore
  have hback := openParts_idle hafter
  unfold openParts at hfront hback ⊢
  rw [List.flatMap_append, List.flatMap_cons, hfront, hback, List.nil_append, List.append_nil]

/-- A write that sends alone leaves the writes in turn. -/
theorem InTurn.send {s t : Socket α} {i n : Nat} (h : InTurn s) (halone : Alone s i)
    (hsend : s.send i n = some t) : InTurn t := by
  obtain ⟨order, hperm, hwire⟩ := h
  obtain ⟨w, hw, -, -, hwrites, hwire'⟩ := send_some hsend
  obtain ⟨before, after, hsplit, rfl⟩ := OnlyLeft.exists_split hw
  have hbefore : ∀ w ∈ before, w.Idle := by
    intro x hx
    obtain ⟨j, hj, rfl⟩ := List.getElem_of_mem hx
    refine halone j _ ?_ (by omega)
    rw [hsplit, List.getElem?_append_left hj, List.getElem?_eq_getElem hj]
  have hafter : ∀ w ∈ after, w.Idle := by
    intro x hx
    obtain ⟨j, hj, rfl⟩ := List.getElem_of_mem hx
    refine halone (before.length + 1 + j) _ ?_ (by omega)
    rw [hsplit, List.getElem?_append_right (by omega)]
    have hsub : before.length + 1 + j - before.length = j + 1 := by omega
    rw [hsub, List.getElem?_cons_succ, List.getElem?_eq_getElem hj]
  have hremaining : w.remaining ≠ [] := by
    rintro he
    have := send_some hsend
    obtain ⟨w', hw', hpos, hle, -⟩ := this
    rw [hw] at hw'
    cases hw'
    rw [he, List.length_nil] at hle
    omega
  have hset : t.writes = before ++
      ⟨w.sent ++ w.remaining.take n, w.remaining.drop n⟩ :: after := by
    rw [hwrites, hsplit, List.set_append_right _ _ (Nat.le_refl _)]
    simp
  have hopen : openParts s.writes = w.sent := by
    rw [hsplit, openParts_middle hbefore hafter]
    simp [Write.openPart, hremaining]
  have hdone : done s.writes = done before ++ done after := by
    rw [hsplit]
    simp [done, hremaining]
  by_cases hlast : w.remaining.drop n = []
  · -- the write is complete, and its whole buffer stands at the end
    have hall : w.remaining.take n = w.remaining := by
      have := List.take_append_drop n w.remaining
      rwa [hlast, List.append_nil] at this
    refine ⟨order ++ [w.buffer], ?_, ?_⟩
    · have hdone' : done t.writes = done before ++ w.buffer :: done after := by
        rw [hset]
        simp [done, hlast, hall, Write.buffer]
      rw [hdone']
      rw [hdone] at hperm
      exact ((hperm.append_right _).trans (List.perm_append_singleton _ _)).trans
        List.perm_middle.symm
    · have hopen' : openParts t.writes = [] := by
        rw [hset, openParts_middle hbefore hafter]
        simp [Write.openPart, hlast]
      rw [hopen', hwire', hwire, hopen, hall]
      simp [Write.buffer]
  · refine ⟨order, ?_, ?_⟩
    · have hdone' : done t.writes = done before ++ done after := by
        rw [hset]
        simp [done, hlast]
      rwa [hdone', ← hdone]
    · have hopen' : openParts t.writes = w.sent ++ w.remaining.take n := by
        rw [hset, openParts_middle hbefore hafter]
        simp [Write.openPart, hlast]
      rw [hopen', hwire', hwire, hopen, List.append_assoc]

/-- When all writes are complete, their buffers stand one behind the other. -/
theorem InTurn.wire {s : Socket α} (h : InTurn s) (hcomplete : Complete s) :
    ∃ order : List (List α), order.Perm s.buffers ∧ s.wire = order.flatten := by
  obtain ⟨order, hperm, hwire⟩ := h
  have hdone : done s.writes = s.buffers := by
    rw [done, buffers, List.filter_eq_self.mpr]
    intro w hw
    rw [hcomplete w hw]
    rfl
  have hopen : openParts s.writes = [] := openParts_idle fun w hw => Or.inr (hcomplete w hw)
  rw [hdone] at hperm
  rw [hopen, List.append_nil] at hwire
  exact ⟨order, hperm, hwire⟩

/-! ## A peer that waits for one write -/

/-- A peer that has read `taken` elements is still to get `rest`: some of it is on the wire, and
at most one write has the remainder to send. -/
structure Pending (s : Socket α) (taken : Nat) (rest : List α) : Prop where
  taken_le : taken ≤ s.wire.length
  unsent : ∃ unsent, OnlyLeft Write.remaining s.writes unsent ∧
    s.wire.drop taken ++ unsent = rest

namespace Pending

variable {s t : Socket α} {taken n : Nat} {rest : List α}

theorem start : Pending (empty : Socket α) 0 [] :=
  ⟨Nat.le_refl 0, [], OnlyLeft.nil_iff.mpr (by simp [empty]), rfl⟩

theorem asyncWrite (h : s.Pending taken []) (buf : List α) :
    (s.asyncWrite buf).Pending taken buf := by
  obtain ⟨unsent, honly, hrest⟩ := h.unsent
  obtain ⟨hread, rfl⟩ := List.append_eq_nil_iff.mp hrest
  refine ⟨h.taken_le, buf, honly.concat ⟨[], buf⟩, ?_⟩
  show s.wire.drop taken ++ buf = buf
  rw [hread, List.nil_append]

theorem send {i : Nat} (h : s.Pending taken rest) (hsend : s.send i n = some t) :
    t.Pending taken rest := by
  obtain ⟨w, hw, hpos, hle, hwrites, hwire⟩ := send_some hsend
  obtain ⟨unsent, honly, hrest⟩ := h.unsent
  have hne : w.remaining ≠ [] := by
    intro he
    rw [he, List.length_nil] at hle
    omega
  obtain ⟨rfl, hset⟩ := honly.set hw hne
  refine ⟨?_, w.remaining.drop n, ?_, ?_⟩
  · rw [hwire, List.length_append]
    exact Nat.le_trans h.taken_le (Nat.le_add_right _ _)
  · rw [hwrites]
    exact hset _
  · rw [hwire, List.drop_append_of_le_length h.taken_le, List.append_assoc, List.take_append_drop,
      hrest]

/-- What the peer has not read of the wire belongs to the rest. -/
theorem unread_prefix (h : s.Pending taken rest) : s.wire.drop taken <+: rest := by
  obtain ⟨unsent, -, hrest⟩ := h.unsent
  exact ⟨unsent, hrest⟩

theorem read (h : s.Pending taken rest) (hn : n ≤ (s.wire.drop taken).length) :
    s.Pending (taken + n) (rest.drop n) := by
  obtain ⟨unsent, honly, rfl⟩ := h.unsent
  refine ⟨?_, unsent, honly, ?_⟩
  · have := h.taken_le
    rw [List.length_drop] at hn
    omega
  · rw [← List.drop_drop, List.drop_append_of_le_length hn]

/-- When no write can send, the rest is on the wire. -/
theorem unread_eq (h : s.Pending taken rest) (hsend : ∀ i n, s.send i n = none) :
    s.wire.drop taken = rest := by
  obtain ⟨unsent, honly, rfl⟩ := h.unsent
  by_cases hunsent : unsent = []
  · rw [hunsent, List.append_nil]
  · obtain ⟨i, w, hw, rfl⟩ := honly.exists_entry hunsent
    have hlength : 0 < w.remaining.length := List.length_pos_of_ne_nil hunsent
    have hnone := hsend i w.remaining.length
    simp only [Socket.send, hw, hlength, Nat.le_refl, and_self, if_true] at hnone
    cases hnone

end Pending

end Socket

end AsyncWrite
