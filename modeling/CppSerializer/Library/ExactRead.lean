import CppSerializer.Library.Transition

/-!
# Readers that ask for an exact number of elements

A reader as asynchronous programs write it: it asks for `n` elements of a stream, is called
back when they have come, in whatever chunks, and asks again; in between it may wait for a
signal of somebody else, or give the stream away. A `Session` is a reader with the elements
that have come and not been read, and with the events that its callbacks have caused.
-/

namespace ExactRead

/-- What a reader waits for: `n` elements, a signal, nothing because it has given the stream
away, or nothing because it has stopped. -/
inductive Wait
  | read (n : Nat)
  | signal
  | handedOver
  | dead
  deriving DecidableEq

/-- The callbacks of a reader: its read is complete, it is signalled, its read has failed. -/
structure Reader (σ α ρ ε : Type*) where
  wait : σ → Wait
  got : σ → List α → σ × List ε
  resumed : σ → ρ → σ × List ε
  failed : σ → σ × List ε

structure Session (σ α ε : Type*) where
  state : σ
  buffer : List α
  events : List ε

inductive Action (α ρ : Type*)
  | arrive (chunk : List α)
  | read
  | resume (r : ρ)
  | fail

variable {σ α ρ ε : Type*}

def Session.start (state : σ) : Session σ α ε := ⟨state, [], []⟩

/-- The callback with its result `r` is done. -/
def Session.after (s : Session σ α ε) (buffer : List α) (r : σ × List ε) : Session σ α ε :=
  ⟨r.1, buffer, s.events ++ r.2⟩

def step (R : Reader σ α ρ ε) (s : Session σ α ε) : Action α ρ → Option (Session σ α ε)
  | .arrive chunk => some { s with buffer := s.buffer ++ chunk }
  | .read =>
    match R.wait s.state with
    | .read n =>
      if n ≤ s.buffer.length then
        some (s.after (s.buffer.drop n) (R.got s.state (s.buffer.take n)))
      else none
    | _ => none
  | .resume r => if R.wait s.state = .signal then some (s.after s.buffer (R.resumed s.state r)) else none
  | .fail =>
    match R.wait s.state with
    | .read _ => some (s.after s.buffer (R.failed s.state))
    | _ => none

/-- The elements that have come. -/
def Action.chunk : Action α ρ → List α
  | .arrive chunk => chunk
  | .read | .resume _ | .fail => []

def arrived (as : List (Action α ρ)) : List α := as.flatMap Action.chunk

/-- The session has come to an end for now: what the reader asks for has not come, or the
stream is given away. -/
def Settled (R : Reader σ α ρ ε) (s : Session σ α ε) : Prop :=
  match R.wait s.state with
  | .read n => s.buffer.length < n
  | .handedOver => True
  | .signal | .dead => False

variable {R : Reader σ α ρ ε} {s t : Session σ α ε}

theorem step_read {n : Nat} (hwait : R.wait s.state = .read n) (hn : n ≤ s.buffer.length) :
    step R s .read = some (s.after (s.buffer.drop n) (R.got s.state (s.buffer.take n))) := by
  simp only [step, hwait, if_pos hn]

theorem step_resume (hwait : R.wait s.state = .signal) (r : ρ) :
    step R s (.resume r) = some (s.after s.buffer (R.resumed s.state r)) := by
  simp only [step, if_pos hwait]

theorem step_read_some (h : step R s .read = some t) : ∃ n, R.wait s.state = .read n ∧
    n ≤ s.buffer.length ∧ t = s.after (s.buffer.drop n) (R.got s.state (s.buffer.take n)) := by
  simp only [step] at h
  split at h
  · rename_i n hwait
    split at h
    · rename_i hn
      cases h
      exact ⟨n, hwait, hn, rfl⟩
    · cases h
  · cases h

theorem step_fail_some (h : step R s .fail = some t) :
    t = s.after s.buffer (R.failed s.state) := by
  simp only [step] at h
  split at h
  · cases h
    rfl
  · cases h

theorem arrived_append (as bs : List (Action α ρ)) :
    arrived (as ++ bs) = arrived as ++ arrived bs :=
  List.flatMap_append

end ExactRead
