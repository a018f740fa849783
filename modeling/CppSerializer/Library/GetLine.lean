import Mathlib.Data.List.Forall2
import Mathlib.Data.List.TakeWhile

/-!
# Reading a stream line by line

`getline` on an input stream that holds a text: it extracts up to the next delimiter and
discards the delimiter. At the end of the text it yields what is left, and fails if nothing
is left. A stream that has met the end of its text is not read again.

What a stream still yields is `pending`. For a fresh stream these are the `lines` of its
text: the pieces between the delimiters, without the last one if it is empty. So a
delimiter at the end of the text ends the last line and does not begin another.
-/

namespace GetLine

universe u

variable {α ε : Type*} {β γ : Type u} [DecidableEq α]

/-! ## Streams -/

/-- A stream over a text: the characters not yet extracted, and two of its state bits. -/
structure IStream (α : Type*) where
  rest : List α
  eofbit : Bool
  failbit : Bool

/-- A fresh stream. -/
def IStream.str (text : List α) : IStream α := ⟨text, false, false⟩

/-- `getline`; the line is `none` if the stream is `false` afterwards. -/
def getline (delim : α) (s : IStream α) : Option (List α) × IStream α :=
  if s.eofbit || s.failbit then (none, { s with failbit := true })
  else
    match s.rest.dropWhile (· != delim) with
    | _ :: rest => (some (s.rest.takeWhile (· != delim)), { s with rest := rest })
    | [] =>
      -- the end of the text is met before a delimiter
      if s.rest = [] then (none, ⟨[], true, true⟩) else (some s.rest, ⟨[], true, false⟩)

/-- Read `n` lines and handle each; `short` is thrown where no line is left. -/
def forLines (delim : α) (short : ε) (f : List α → Except ε β) :
    Nat → IStream α → Except ε (List β)
  | 0, _ => .ok []
  | n + 1, s =>
    match getline delim s with
    | (some line, s') => do return (← f line) :: (← forLines delim short f n s')
    | (none, _) => throw short

/-! ## Lines of a text -/

/-- The pieces between the delimiters, without an empty one after the last delimiter. -/
def lines (delim : α) (text : List α) : List (List α) :=
  if (text.splitOn delim).getLast? = some [] then (text.splitOn delim).dropLast
  else text.splitOn delim

@[simp] theorem lines_nil (delim : α) : lines delim [] = [] := by
  simp [lines, List.splitOn_nil]

theorem lines_of_notMem {delim : α} {text : List α} (h : delim ∉ text) (hne : text ≠ []) :
    lines delim text = [text] := by
  simp [lines, List.splitOn_eq_singleton h, hne]

theorem lines_append_cons {delim : α} {line : List α} (h : delim ∉ line) (text : List α) :
    lines delim (line ++ delim :: text) = line :: lines delim text := by
  have hne := List.splitOn_ne_nil delim text
  obtain ⟨p, ps, hps⟩ := List.exists_cons_of_ne_nil hne
  unfold lines
  rw [List.splitOn_append_cons_self_of_not_mem h, List.getLast?_cons_of_ne_nil hne,
    List.dropLast_cons_of_ne_nil hne]
  split <;> rfl

/-- A text has `k` lines if it has `k` pieces, unless the last of exactly `k` is empty. -/
theorem le_length_lines {delim : α} {text : List α} {k : Nat} :
    k ≤ (lines delim text).length ↔ k ≤ (text.splitOn delim).length ∧
      ¬ ((text.splitOn delim).length = k ∧ (text.splitOn delim).getLast? = some []) := by
  have hpos := List.length_pos_iff.mpr (List.splitOn_ne_nil delim text)
  unfold lines
  split
  · next hlast =>
    rw [List.length_dropLast]
    constructor
    · intro hk
      exact ⟨by omega, fun h => by omega⟩
    · rintro ⟨hk, hne⟩
      have : (text.splitOn delim).length ≠ k := fun he => hne ⟨he, hlast⟩
      omega
  · next hlast => exact ⟨fun hk => ⟨hk, fun h => hlast h.2⟩, fun h => h.1⟩

theorem take_lines {delim : α} {text : List α} {k : Nat} (h : k ≤ (lines delim text).length) :
    (lines delim text).take k = (text.splitOn delim).take k := by
  unfold lines at h ⊢
  split at h
  · next hlast =>
    rw [if_pos hlast, List.dropLast_eq_take, List.take_take]
    rw [List.length_dropLast] at h
    rw [min_eq_left h]
  · next hlast => rw [if_neg hlast]

/-! ## What a stream yields -/

/-- The lines that a stream still yields. -/
def pending (delim : α) (s : IStream α) : List (List α) :=
  if s.eofbit || s.failbit then [] else lines delim s.rest

@[simp] theorem pending_str (delim : α) (text : List α) :
    pending delim (IStream.str text) = lines delim text := rfl

/-- `getline` yields the first pending line and leaves the others. -/
theorem getline_spec (delim : α) (s : IStream α) :
    (getline delim s).1 = (pending delim s).head? ∧
      pending delim (getline delim s).2 = (pending delim s).tail := by
  unfold getline pending
  split
  · next hbad => exact ⟨rfl, by simp⟩
  · next hgood =>
    have hsplit := List.takeWhile_append_dropWhile (p := (· != delim)) (l := s.rest)
    have hline : delim ∉ s.rest.takeWhile (· != delim) := fun hm => by
      simpa using List.mem_takeWhile_imp hm
    split
    · next c rest hdrop =>
      have hc : c = delim := by
        have := List.head_dropWhile_not (· != delim) (l := s.rest) (by rw [hdrop]; simp)
        simpa [hdrop] using this
      rw [hdrop, hc] at hsplit
      rw [← hsplit, lines_append_cons hline]
      have htake : (s.rest.takeWhile (· != delim) ++ delim :: rest).takeWhile (· != delim) =
          s.rest.takeWhile (· != delim) := by rw [hsplit]
      exact ⟨by rw [htake]; rfl, by simp [hgood]⟩
    · next hdrop =>
      rw [hdrop, List.append_nil] at hsplit
      split
      · next hnil => simp [hnil]
      · next hne =>
        rw [hsplit] at hline
        rw [lines_of_notMem hline hne]
        exact ⟨rfl, rfl⟩

/-- A computation in `Except` succeeds if both of its parts do. -/
theorem bind_eq_ok {x : Except ε γ} {f : γ → Except ε β} {b : β} :
    x >>= f = .ok b ↔ ∃ a, x = .ok a ∧ f a = .ok b := by
  cases x with
  | error e => exact ⟨fun h => (by cases h), fun ⟨_, h, _⟩ => (by cases h)⟩
  | ok a => exact ⟨fun h => ⟨a, rfl, h⟩, fun ⟨_, ha, h⟩ => (by cases ha; exact h)⟩

/-- The loop succeeds if there are `n` lines and each of them is handled. -/
theorem forLines_eq_ok {delim : α} {short : ε} {f : List α → Except ε β} {n : Nat}
    {s : IStream α} {bs : List β} :
    forLines delim short f n s = .ok bs ↔ n ≤ (pending delim s).length ∧
      List.Forall₂ (fun line b => f line = .ok b) ((pending delim s).take n) bs := by
  induction n generalizing s bs with
  | zero => simp [forLines, eq_comm]
  | succ n ih =>
    obtain ⟨hline, hleft⟩ := getline_spec delim s
    unfold forLines
    cases hp : pending delim s with
    | nil =>
      rw [hp] at hline
      split
      · next he => simp [he] at hline
      · exact ⟨fun h => (by cases h), fun h => absurd h.1 (by simp)⟩
    | cons line ls =>
      rw [hp] at hline hleft
      split
      · next l s' he =>
        rw [he] at hline hleft
        obtain rfl : l = line := Option.some.inj hline
        obtain rfl : pending delim s' = ls := hleft
        rw [List.take_succ_cons, List.forall₂_cons_left_iff, List.length_cons,
          Nat.add_le_add_iff_right, bind_eq_ok]
        simp only [bind_eq_ok, ih]
        constructor
        · rintro ⟨b, hb, rest, ⟨hn, hall⟩, hbs⟩
          exact ⟨hn, b, rest, hb, hall, (Except.ok.inj hbs).symm⟩
        · rintro ⟨hn, b, rest, hb, hall, rfl⟩
          exact ⟨b, hb, rest, ⟨hn, hall⟩, rfl⟩
      · next he => simp [he] at hline

theorem exists_forall₂ {δ : Type*} {R : δ → β → Prop} {l : List δ} :
    (∃ bs, List.Forall₂ R l bs) ↔ ∀ a ∈ l, ∃ b, R a b := by
  induction l with
  | nil => simp
  | cons a l ih =>
    rw [List.forall_mem_cons, ← ih]
    constructor
    · rintro ⟨_, h⟩
      obtain ⟨b, bs, hab, hall, -⟩ := List.forall₂_cons_left_iff.mp h
      exact ⟨⟨b, hab⟩, bs, hall⟩
    · rintro ⟨⟨b, hab⟩, bs, hall⟩
      exact ⟨b :: bs, .cons hab hall⟩

theorem exists_forLines_eq_ok {delim : α} {short : ε} {f : List α → Except ε β} {n : Nat}
    {s : IStream α} : (∃ bs, forLines delim short f n s = .ok bs) ↔
      n ≤ (pending delim s).length ∧
        ∀ line ∈ (pending delim s).take n, ∃ b, f line = .ok b := by
  simp only [forLines_eq_ok, exists_and_left, exists_forall₂]

end GetLine
