import Mathlib.Data.List.Basic

/-!
# Prefix codes

A stream that carries one encoded value behind the other. `decode` splits one value off
the front of a list of symbols; `decodeAll` repeats this until the list is used up. If
`decode` inverts `encode` for single values (`PrefixCode`), then `decodeAll` inverts the
concatenation of encodings, in both directions.
-/

namespace PrefixCode

variable {α β : Type*}

/-- Split values off the front, at most `fuel` of them, until no symbol is left. -/
def decodeUpTo (decode : List β → Option (α × List β)) : Nat → List β → Option (List α)
  | _, [] => some []
  | 0, _ :: _ => none
  | fuel + 1, b :: bs =>
    match decode (b :: bs) with
    | some (a, rest) => (decodeUpTo decode fuel rest).map (a :: ·)
    | none => none

/-- Split values off the front until no symbol is left. Every value takes at least one
symbol, so the length bounds their number. -/
def decodeAll (decode : List β → Option (α × List β)) (bs : List β) : Option (List α) :=
  decodeUpTo decode bs.length bs

theorem forall_of_decodeUpTo {decode : List β → Option (α × List β)} {P : α → Prop}
    (hdecode : ∀ bs a rest, decode bs = some (a, rest) → P a) {fuel : Nat} {bs : List β}
    {as : List α} (h : decodeUpTo decode fuel bs = some as) : ∀ a ∈ as, P a := by
  induction fuel generalizing bs as with
  | zero =>
    cases bs <;> cases h
    exact fun a ha => absurd ha List.not_mem_nil
  | succ fuel ih =>
    cases bs with
    | nil =>
      cases h
      exact fun a ha => absurd ha List.not_mem_nil
    | cons b bs =>
      rw [decodeUpTo] at h
      split at h
      · rename_i a rest hone
        obtain ⟨tail, htail, rfl⟩ := Option.map_eq_some_iff.mp h
        intro x hx
        rcases List.mem_cons.mp hx with rfl | hx
        · exact hdecode _ _ _ hone
        · exact ih htail x hx
      · cases h

/-- What holds of every single decoded value holds of all values of a stream. -/
theorem forall_of_decodeAll {decode : List β → Option (α × List β)} {P : α → Prop}
    (hdecode : ∀ bs a rest, decode bs = some (a, rest) → P a) {bs : List β} {as : List α}
    (h : decodeAll decode bs = some as) : ∀ a ∈ as, P a :=
  forall_of_decodeUpTo hdecode h

end PrefixCode

/-- `decode` inverts `encode` on the values in `Valid`. -/
structure PrefixCode (α β : Type*) where
  encode : α → List β
  decode : List β → Option (α × List β)
  Valid : α → Prop
  encode_ne_nil : ∀ a, encode a ≠ []
  decode_encode : ∀ a rest, Valid a → decode (encode a ++ rest) = some (a, rest)
  encode_of_decode : ∀ bs a rest, decode bs = some (a, rest) → Valid a → bs = encode a ++ rest

namespace PrefixCode

variable {α β : Type*} (c : PrefixCode α β)

theorem decodeUpTo_encode {as : List α} (hvalid : ∀ a ∈ as, c.Valid a) {fuel : Nat}
    (hfuel : (as.flatMap c.encode).length ≤ fuel) :
    decodeUpTo c.decode fuel (as.flatMap c.encode) = some as := by
  induction as generalizing fuel with
  | nil => cases fuel <;> rfl
  | cons a as ih =>
    obtain ⟨b, bs, hb⟩ := List.exists_cons_of_ne_nil (c.encode_ne_nil a)
    rw [List.flatMap_cons] at hfuel ⊢
    have hone := c.decode_encode a (as.flatMap c.encode) (hvalid a List.mem_cons_self)
    rw [hb, List.cons_append] at hfuel hone ⊢
    cases fuel with
    | zero => simp at hfuel
    | succ fuel =>
      have hrest : (as.flatMap c.encode).length ≤ fuel := by
        simp only [List.length_cons, List.length_append] at hfuel
        omega
      rw [decodeUpTo, hone]
      simp only [ih (fun x hx => hvalid x (List.mem_cons_of_mem a hx)) hrest, Option.map_some]

/-- Reading back a stream of encoded values. -/
theorem decodeAll_encode {as : List α} (hvalid : ∀ a ∈ as, c.Valid a) :
    decodeAll c.decode (as.flatMap c.encode) = some as :=
  c.decodeUpTo_encode hvalid (Nat.le_refl _)

theorem encode_of_decodeUpTo {fuel : Nat} {bs : List β} {as : List α}
    (h : decodeUpTo c.decode fuel bs = some as) (hvalid : ∀ a ∈ as, c.Valid a) :
    bs = as.flatMap c.encode := by
  induction fuel generalizing bs as with
  | zero =>
    cases bs with
    | nil => cases h; rfl
    | cons b bs => cases h
  | succ fuel ih =>
    cases bs with
    | nil => cases h; rfl
    | cons b bs =>
      rw [decodeUpTo] at h
      split at h
      · rename_i a rest hone
        obtain ⟨tail, htail, rfl⟩ := Option.map_eq_some_iff.mp h
        have ha := hvalid a List.mem_cons_self
        have hrest := ih htail fun x hx => hvalid x (List.mem_cons_of_mem a hx)
        rw [List.flatMap_cons, ← hrest]
        exact c.encode_of_decode _ a rest hone ha
      · cases h

/-- A stream that is read to its end consists of the encodings of what was read. -/
theorem encode_of_decodeAll {bs : List β} {as : List α} (h : decodeAll c.decode bs = some as)
    (hvalid : ∀ a ∈ as, c.Valid a) : bs = as.flatMap c.encode :=
  c.encode_of_decodeUpTo h hvalid

end PrefixCode
