import CppSerializer.Library.OnlyLeft
import Mathlib.Data.List.Perm.Basic

/-!
# Read loops that are kept alive by hand

A program that reads a stream with asynchronous reads, each of them for a number of elements.
When a read is complete, or has failed, its handler runs, operation by operation, and the next
read is one of the operations. Nothing keeps a program from having two reads outstanding, or
none. A read that is complete takes its elements off the buffer, whichever read it is.
-/

namespace ReadLoop

/-- `start` is the read that an operation of a handler starts. -/
structure Program (ρ κ α : Type*) where
  size : ρ → Nat
  got : ρ → List α → List κ
  failed : ρ → List κ
  start : κ → Option ρ

/-- `buffer` has come and is not read; a handler is what it has still to perform. -/
structure Loop (ρ κ α : Type*) where
  buffer : List α
  reads : List ρ
  handlers : List (List κ)
  deriving DecidableEq

variable {ρ κ α : Type*} {P : Program ρ κ α} {l l' : Loop ρ κ α}

namespace Loop

/-- A loop whose first read is outstanding. -/
def listening (r : ρ) : Loop ρ κ α := ⟨[], [r], []⟩

def arrive (l : Loop ρ κ α) (chunk : List α) : Loop ρ κ α :=
  { l with buffer := l.buffer ++ chunk }

/-- A read is started. -/
def read (l : Loop ρ κ α) (r : ρ) : Loop ρ κ α := { l with reads := l.reads ++ [r] }

/-- Read `i` is complete. -/
def complete (P : Program ρ κ α) (l : Loop ρ κ α) (i : Nat) : Option (Loop ρ κ α) :=
  match l.reads[i]? with
  | some r =>
    if P.size r ≤ l.buffer.length then
      some {
        buffer := l.buffer.drop (P.size r)
        reads := l.reads.eraseIdx i
        handlers := l.handlers ++ [P.got r (l.buffer.take (P.size r))] }
    else none
  | none => none

/-- Read `i` has failed. -/
def fail (P : Program ρ κ α) (l : Loop ρ κ α) (i : Nat) : Option (Loop ρ κ α) :=
  l.reads[i]?.map fun r =>
    { l with reads := l.reads.eraseIdx i, handlers := l.handlers ++ [P.failed r] }

/-- Handler `k` performs its next operation. -/
def next (P : Program ρ κ α) (l : Loop ρ κ α) (k : Nat) : Option (κ × Loop ρ κ α) :=
  match l.handlers[k]? with
  | some (op :: ops) =>
    some (op, { l with
      reads := l.reads ++ (P.start op).toList, handlers := l.handlers.set k ops })
  | _ => none

theorem complete_some {i : Nat} (h : l.complete P i = some l') :
    ∃ r, l.reads[i]? = some r ∧ P.size r ≤ l.buffer.length ∧
      l' = {
        buffer := l.buffer.drop (P.size r)
        reads := l.reads.eraseIdx i
        handlers := l.handlers ++ [P.got r (l.buffer.take (P.size r))] } := by
  unfold complete at h
  split at h
  · rename_i r hr
    split at h
    · rename_i hsize
      cases h
      exact ⟨r, hr, hsize, rfl⟩
    · cases h
  · cases h

theorem fail_some {i : Nat} (h : l.fail P i = some l') :
    ∃ r, l.reads[i]? = some r ∧
      l' = { l with reads := l.reads.eraseIdx i, handlers := l.handlers ++ [P.failed r] } := by
  obtain ⟨r, hr, rfl⟩ := Option.map_eq_some_iff.mp h
  exact ⟨r, hr, rfl⟩

theorem next_some {k : Nat} {op : κ} (h : l.next P k = some (op, l')) :
    ∃ ops, l.handlers[k]? = some (op :: ops) ∧
      l' = { l with
        reads := l.reads ++ (P.start op).toList, handlers := l.handlers.set k ops } := by
  unfold next at h
  split at h
  · rename_i op' ops hops
    cases h
    exact ⟨ops, hops, rfl⟩
  · cases h

/-! ## Loops with one thread of control -/

/-- One read is outstanding, and no handler runs. -/
def Listens (l : Loop ρ κ α) (r : ρ) : Prop := l.reads = [r] ∧ OnlyLeft id l.handlers []

/-- No read is outstanding, and of the handlers only one has something to do, which is `ops`. -/
def Handles (l : Loop ρ κ α) (ops : List κ) : Prop := l.reads = [] ∧ OnlyLeft id l.handlers ops

theorem listens_listening (r : ρ) : (listening r : Loop ρ κ α).Listens r := ⟨rfl, rfl⟩

theorem Listens.arrive {r : ρ} (h : l.Listens r) (chunk : List α) : (l.arrive chunk).Listens r := h

theorem Handles.arrive {ops : List κ} (h : l.Handles ops) (chunk : List α) :
    (l.arrive chunk).Handles ops := h

theorem erase_of_listens {r r' : ρ} {i : Nat} (h : l.Listens r) (hr : l.reads[i]? = some r') :
    r' = r ∧ l.reads.eraseIdx i = [] := by
  rw [h.1] at hr ⊢
  cases i with
  | zero =>
    cases hr
    exact ⟨rfl, rfl⟩
  | succ i => cases hr

/-- When the outstanding read is complete its handler is the only thing left to do. -/
theorem Listens.complete {r : ρ} {i : Nat} (h : l.Listens r) (hstep : l.complete P i = some l') :
    P.size r ≤ l.buffer.length ∧ l'.Handles (P.got r (l.buffer.take (P.size r))) := by
  obtain ⟨r', hr, hsize, rfl⟩ := complete_some hstep
  obtain ⟨rfl, hnone⟩ := erase_of_listens h hr
  exact ⟨hsize, hnone, h.2.concat _⟩

theorem Listens.fail {r : ρ} {i : Nat} (h : l.Listens r) (hstep : l.fail P i = some l') :
    l'.Handles (P.failed r) := by
  obtain ⟨r', hr, rfl⟩ := fail_some hstep
  obtain ⟨rfl, hnone⟩ := erase_of_listens h hr
  exact ⟨hnone, h.2.concat _⟩

theorem Listens.next {r : ρ} {k : Nat} (h : l.Listens r) : l.next P k = none := by
  cases hnext : l.next P k with
  | none => rfl
  | some p =>
    obtain ⟨op, l'⟩ := p
    obtain ⟨ops, hops, -⟩ := next_some hnext
    have hall := OnlyLeft.nil_iff.mp h.2 _ (List.mem_of_getElem? hops)
    cases hall

theorem Handles.complete {ops : List κ} {i : Nat} (h : l.Handles ops) :
    l.complete P i = none := by
  unfold Loop.complete
  rw [h.1]
  rfl

theorem Handles.fail {ops : List κ} {i : Nat} (h : l.Handles ops) : l.fail P i = none := by
  unfold Loop.fail
  rw [h.1]
  rfl

/-- The handler performs the first of the operations that are left; if it starts a read, and is
then done, the loop listens. -/
theorem Handles.next {ops : List κ} {op : κ} {k : Nat} (h : l.Handles ops)
    (hstep : l.next P k = some (op, l')) : ∃ rest, ops = op :: rest ∧
      l'.reads = (P.start op).toList ∧ OnlyLeft id l'.handlers rest := by
  obtain ⟨rest, hops, rfl⟩ := next_some hstep
  obtain ⟨rfl, hset⟩ := h.2.set hops (List.cons_ne_nil op rest)
  refine ⟨rest, rfl, ?_, hset rest⟩
  rw [h.1]
  rfl

end Loop

end ReadLoop
