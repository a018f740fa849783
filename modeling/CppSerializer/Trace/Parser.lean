import CppSerializer.Library.GetLine
import Mathlib.Algebra.Group.Int.Defs

/-!
# Trace files

`trace_reader.hpp`: the reader of the traces that the emulators replay. A trace is a text
with one row a line and the columns of a row separated by commas; `traceParser` reads the
first rows of it.

`stol` follows the documented behaviour of `std::stol` in the "C" locale, with a `long` of
64 bits. What `std::stod` yields is a floating-point number, and whether it takes one that
is too small is left to the platform; so `double` and `stod` are parameters.

The columns are read by `getline`, so an empty column is missed if it is the last of its
row: a row of exactly eleven columns is refused if its last column is empty, although any
other column may be. `acceptsGrammar_iff` states that this is the only departure from
splitting the row at every comma.
-/

namespace CppSerializer.Trace

open GetLine

/-- `std::string`. -/
abbrev Text := List UInt8

def comma : UInt8 := ','.toUInt8

def newline : UInt8 := '\n'.toUInt8

/-! ## Numbers -/

/-- The exceptions thrown by the reader and by the conversions it calls. -/
inductive Exception
  | runtimeError (what : String)
  | invalidArgument
  | outOfRange
  deriving DecidableEq, Repr

/-- `long`. -/
abbrev Long := {v : Int // -2 ^ 63 ≤ v ∧ v < 2 ^ 63}

/-- `isspace`. -/
def isSpace (c : UInt8) : Bool := c = ' '.toUInt8 ∨ (9 ≤ c ∧ c ≤ 13)

/-- `isdigit`. -/
def isDigit (c : UInt8) : Bool := '0'.toUInt8 ≤ c ∧ c ≤ '9'.toUInt8

/-- The optional sign of a number, and what stands behind it. -/
def sign : Text → Bool × Text
  | [] => (false, [])
  | c :: str =>
    if c = '-'.toUInt8 then (true, str)
    else if c = '+'.toUInt8 then (false, str)
    else (false, c :: str)

/-- `std::stol`: what follows the digits is not looked at. -/
def stol (str : Text) : Except Exception Long :=
  let (negative, str) := sign (str.dropWhile isSpace)
  let digits := str.takeWhile isDigit
  let magnitude := digits.foldl (fun v c => v * 10 + (c.toNat - '0'.toNat)) 0
  let v : Int := if negative then -magnitude else magnitude
  if digits = [] then throw .invalidArgument
  else if h : -2 ^ 63 ≤ v ∧ v < 2 ^ 63 then return ⟨v, h⟩
  else throw .outOfRange

/-! ## Rows -/

/-- `access_type`. -/
inductive AccessType
  | readOp
  | writeOp
  deriving DecidableEq, Repr

/-- `trace_row`. -/
structure TraceRow (double : Type) where
  timestamp : Long
  invocationId : Long
  blobBytes : double
  appName : Text
  blobName : Text
  accessType : AccessType

/-- The string `True`. -/
def trueText : Text := ['T', 'r', 'u', 'e'].map Char.toUInt8

section Parser

variable {double : Type} (stod : Text → Except Exception double)

/-- `parse_row`. -/
def parseRow (row : Text) : Except Exception (TraceRow double) := do
  let unparsedRow ← forLines comma (.runtimeError "Invalid trace file") pure 11 (.str row)
  let col i := unparsedRow.getD i []
  let timestamp ← stol (col 0)
  let invocationId ← stol (col 4)
  let blobBytes ← stod (col 8)
  return {
    timestamp := timestamp
    appName := col 3
    invocationId := invocationId
    blobName := col 5
    blobBytes := blobBytes
    accessType := if col 10 = trueText then .writeOp else .readOp }

/-- The constructor `trace_parser`, as the rows it leaves; `trace` is `none` for a file that
could not be opened. -/
def traceParser (trace : Option Text) (numRowsToRead : Nat) :
    Except Exception (List (TraceRow double)) :=
  match trace with
  | some content =>
    forLines newline (.runtimeError "not enough rows to read") (parseRow stod) numRowsToRead
      (.str content)
  | none => throw (.runtimeError "Trace reader could not open trace file")

/-! ## The grammar -/

/-- A field of a line that is split at every comma. -/
def field (line : Text) (i : Nat) : Text := (line.splitOn comma).getD i []

/-- A line of the grammar. -/
structure Grammatical (line : Text) : Prop where
  columns : 11 ≤ (line.splitOn comma).length
  timestamp : ∃ v, stol (field line 0) = .ok v
  invocationId : ∃ v, stol (field line 4) = .ok v
  blobBytes : ∃ v, stod (field line 8) = .ok v

/-- The row that a line describes. -/
structure Describes (line : Text) (row : TraceRow double) : Prop where
  timestamp : stol (field line 0) = .ok row.timestamp
  invocationId : stol (field line 4) = .ok row.invocationId
  blobBytes : stod (field line 8) = .ok row.blobBytes
  appName : row.appName = field line 3
  blobName : row.blobName = field line 5
  accessType : row.accessType = .writeOp ↔ field line 10 = trueText

/-- The file has `n` lines and the first `n` of them are lines of the grammar. -/
def InGrammar (content : Text) (n : Nat) : Prop :=
  n ≤ (lines newline content).length ∧
    ∀ line ∈ (lines newline content).take n, Grammatical stod line

/-- The reader accepts the files of the grammar, and no others, and its rows are those that
the lines describe. -/
def AcceptsGrammar (content : Text) (n : Nat) : Prop :=
  ((∃ rows, traceParser stod (some content) n = .ok rows) ↔ InGrammar stod content n) ∧
    ∀ rows, traceParser stod (some content) n = .ok rows → rows.length = n ∧
      List.Forall₂ (Describes stod) ((lines newline content).take n) rows

/-- The line ends at its tenth comma. -/
def EndsAtLastColumn (line : Text) : Prop :=
  (line.splitOn comma).length = 11 ∧ (line.splitOn comma).getLast? = some []

/-! ## What a row is parsed into -/

theorem accessType_iff {b : Prop} [Decidable b] {t : AccessType} :
    (t = .writeOp ↔ b) ↔ t = if b then .writeOp else .readOp := by
  cases t <;> by_cases hb : b <;> simp [hb]

/-- The columns that `getline` reads are the fields before the commas, and the last one if
it is not empty. -/
theorem columns_eq_ok {row : Text} {e : Exception} {cols : List Text} :
    forLines comma e pure 11 (.str row) = .ok cols ↔
      (11 ≤ (row.splitOn comma).length ∧ ¬ EndsAtLastColumn row) ∧
        cols = (row.splitOn comma).take 11 := by
  rw [forLines_eq_ok, pending_str, le_length_lines]
  refine and_congr_right fun hlen => ?_
  rw [take_lines (le_length_lines.mpr hlen)]
  constructor
  · intro h
    have := h.imp (S := Eq) fun _ _ he => Except.ok.inj he
    exact (List.forall₂_eq_eq_eq ▸ this : _ = _).symm
  · rintro rfl
    exact List.forall₂_same.mpr fun _ _ => rfl

/-- The column at an index that the array has is the field at this index. -/
theorem column_eq_field {line : Text} {i : Nat} (hi : i < 11) :
    ((line.splitOn comma).take 11).getD i [] = field line i := by
  rw [field, List.getD_eq_getElem?_getD, List.getElem?_take_of_lt hi, List.getD_eq_getElem?_getD]

theorem parseRow_eq_ok {line : Text} {row : TraceRow double} :
    parseRow stod line = .ok row ↔
      11 ≤ (line.splitOn comma).length ∧ ¬ EndsAtLastColumn line ∧ Describes stod line row := by
  unfold parseRow
  simp only [bind_eq_ok, columns_eq_ok]
  constructor
  · rintro ⟨cols, ⟨⟨hlen, hend⟩, rfl⟩, t, ht, i, hi, b, hb, hrow⟩
    simp only [column_eq_field, Nat.reduceLT] at ht hi hb hrow
    cases hrow
    exact ⟨hlen, hend, ht, hi, hb, rfl, rfl, accessType_iff.mpr rfl⟩
  · rintro ⟨hlen, hend, h⟩
    refine ⟨_, ⟨⟨hlen, hend⟩, rfl⟩, ?_⟩
    simp only [column_eq_field, Nat.reduceLT]
    refine ⟨_, h.timestamp, _, h.invocationId, _, h.blobBytes, ?_⟩
    rw [← h.appName, ← h.blobName, ← accessType_iff.mp h.accessType]
    rfl

/-- A line of the grammar has a row that it describes. -/
theorem Grammatical.describes {line : Text} (h : Grammatical stod line) :
    ∃ row, Describes stod line row := by
  obtain ⟨t, ht⟩ := h.timestamp
  obtain ⟨i, hi⟩ := h.invocationId
  obtain ⟨b, hb⟩ := h.blobBytes
  exact ⟨⟨t, i, b, field line 3, field line 5,
    if field line 10 = trueText then .writeOp else .readOp⟩,
    ht, hi, hb, rfl, rfl, accessType_iff.mpr rfl⟩

theorem grammatical_of_parseRow {line : Text} {row : TraceRow double}
    (h : parseRow stod line = .ok row) : Grammatical stod line := by
  obtain ⟨hlen, -, hrow⟩ := (parseRow_eq_ok stod).mp h
  exact ⟨hlen, ⟨_, hrow.timestamp⟩, ⟨_, hrow.invocationId⟩, ⟨_, hrow.blobBytes⟩⟩

/-! ## What a file is read into -/

theorem traceParser_eq_ok {content : Text} {n : Nat} {rows : List (TraceRow double)} :
    traceParser stod (some content) n = .ok rows ↔ n ≤ (lines newline content).length ∧
      List.Forall₂ (fun line row => parseRow stod line = .ok row)
        ((lines newline content).take n) rows := by
  unfold traceParser
  rw [forLines_eq_ok, pending_str]

/-- The reader departs from its grammar exactly at the files of the grammar with a line, among
the lines it reads, that ends at its tenth comma. -/
theorem acceptsGrammar_iff (content : Text) (n : Nat) :
    AcceptsGrammar stod content n ↔ (InGrammar stod content n →
      ∀ line ∈ (lines newline content).take n, ¬ EndsAtLastColumn line) := by
  have hrows : (∃ rows, traceParser stod (some content) n = .ok rows) ↔
      n ≤ (lines newline content).length ∧
        ∀ line ∈ (lines newline content).take n, ∃ row, parseRow stod line = .ok row := by
    unfold traceParser
    rw [exists_forLines_eq_ok, pending_str]
  constructor
  · rintro ⟨haccept, -⟩ hin line hline
    obtain ⟨row, hrow⟩ := (hrows.mp (haccept.mpr hin)).2 line hline
    exact ((parseRow_eq_ok stod).mp hrow).2.1
  · intro hend
    refine ⟨⟨fun h => ?_, fun hin => ?_⟩, fun rows hok => ?_⟩
    · obtain ⟨hn, hall⟩ := hrows.mp h
      exact ⟨hn, fun line hline => grammatical_of_parseRow stod (hall line hline).choose_spec⟩
    · refine hrows.mpr ⟨hin.1, fun line hline => ?_⟩
      obtain ⟨row, hrow⟩ := (hin.2 line hline).describes
      exact ⟨row, (parseRow_eq_ok stod).mpr
        ⟨(hin.2 line hline).columns, hend hin line hline, hrow⟩⟩
    · obtain ⟨hn, hall⟩ := (traceParser_eq_ok stod).mp hok
      have hlen := hall.length_eq
      rw [List.length_take, min_eq_left hn] at hlen
      exact ⟨hlen.symm, hall.imp fun _ _ hrow => ((parseRow_eq_ok stod).mp hrow).2.2⟩

end Parser

/-! ## A row that is refused -/

/-- `1,,,app,2,blob,,,3,,`: a row with empty columns, the last one among them. -/
def emptyLast : Text := ("1,,,app,2,blob,,,3,,").toList.map Char.toUInt8

/-- Whatever `stod` makes of the field `3`, the row is one of the grammar and is refused. -/
theorem emptyLast_refused : ¬ ∃ (double : Type) (stod : Text → Except Exception double)
    (v : double), stod ['3'.toUInt8] = .ok v ∧ AcceptsGrammar stod emptyLast 1 := by
  rintro ⟨double, stod, v, hv, haccept, -⟩
  have hlines : lines newline emptyLast = [emptyLast] := by decide
  have hin : InGrammar stod emptyLast 1 := by
    refine ⟨by decide, fun line hline => ?_⟩
    obtain rfl : line = emptyLast := by simpa [hlines] using hline
    exact ⟨by decide, ⟨⟨1, by decide⟩, by decide⟩, ⟨⟨2, by decide⟩, by decide⟩, v, hv⟩
  obtain ⟨rows, hrows⟩ := haccept.mpr hin
  obtain ⟨-, hall⟩ := (traceParser_eq_ok stod).mp hrows
  rw [hlines, List.take_succ_cons, List.forall₂_cons_left_iff] at hall
  obtain ⟨row, -, hrow, -⟩ := hall
  exact ((parseRow_eq_ok stod).mp hrow).2.1 ⟨by decide, by decide⟩

end CppSerializer.Trace
