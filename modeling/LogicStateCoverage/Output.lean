-- The law of the output file. The daemon writes a header and a row for each report, and
-- the plotting script loads them. Each row has two fields more than the header has labels,
-- so the script never loads a file with a row in it.
import LogicStateCoverage.Text
import Mathlib.Algebra.GroupWithZero.Nat
import Mathlib.Logic.Function.Basic

namespace lscov

open text

/-! ## The writer -/

namespace daemon

/-- A `float`: a sign with `m * 2 ^ e`, an infinity or a NaN. -/
inductive CFloat where
  | finite (neg : Bool) (m : Nat) (e : Int)
  | inf (neg : Bool)
  | nan (neg : Bool)

/-- The hundredths of `m * 2 ^ e`, rounded to nearest, ties to even. -/
def hundredths (m : Nat) : Int → Nat
  | .ofNat e => 100 * m * 2 ^ e
  | .negSucc e =>
    let d := 2 ^ (e + 1)
    let q := 100 * m / d
    let r := 100 * m % d
    if d < 2 * r ∨ d = 2 * r ∧ q % 2 = 1 then q + 1 else q

def sign (neg : Bool) : List Char := if neg then ['-'] else []

/-- `%u` -/
def print_u (x : UInt32) : List Char := Nat.toDigits 10 x.toNat

/-- `%3.2f`. No text is shorter than 3 characters. -/
def print_f : CFloat → List Char
  | .finite neg m e =>
    let h := hundredths m e
    sign neg ++ Nat.toDigits 10 (h / 100) ++
      ['.', Nat.digitChar (h % 100 / 10), Nat.digitChar (h % 10)]
  | .inf neg => sign neg ++ "inf".toList
  | .nan neg => sign neg ++ "nan".toList

/-- The arguments of `out_append`. -/
structure Row where
  time : UInt32
  cov : UInt32
  lower_err : UInt32
  upper_err : UInt32
  density : CFloat
  rate_ins : UInt32
  rate_per : CFloat
  rate_avg : UInt32
  rate_per_avg : CFloat

/-- The line that `out_init` writes, less its newline. -/
def header (error_percent : UInt8) : List Char :=
  "Time,Coverage".toList ++
    (if error_percent > 0 then ",(Lower),(Upper)".toList else []) ++
    ",Density,RateS(ins),RateE(per),RateS(avg),RateE(avg)".toList

/-- The text of the file after `out_init`, whatever was in it before. -/
def out_init (error_percent : UInt8) : List Char := header error_percent ++ ['\n']

/-- The line that `out_append` writes, less its newline. -/
def row_line (error_percent : UInt8) (r : Row) : List Char :=
  print_u r.time ++ [','] ++ print_u r.cov ++
    (if error_percent > 0 then [','] ++ print_u r.lower_err ++ [','] ++ print_u r.upper_err
      else []) ++
    [','] ++ print_u r.time ++ [','] ++ print_u r.cov ++ [','] ++ print_f r.density ++
    [','] ++ print_u r.rate_ins ++ [','] ++ print_f r.rate_per ++ [','] ++ print_u r.rate_avg ++
    [','] ++ print_f r.rate_per_avg

/-- The text that `out_append` adds to the file. -/
def out_append (error_percent : UInt8) (r : Row) : List Char := row_line error_percent r ++ ['\n']

/-- The file after `out_init` and a call of `out_append` for each row. -/
def out_file (error_percent : UInt8) (rows : List Row) : List Char :=
  out_init error_percent ++ rows.flatMap (out_append error_percent)

end daemon

/-! ## The loader of `cov-to-fig.py` -/

namespace plot

/-- A Python number. A `float` is its decimal digits, `scale` of them past the point. -/
inductive Value where
  | int (n : Int)
  | float (neg : Bool) (digits scale : Nat)
  | inf (neg : Bool)
  | nan

inductive PyError where
  | indexError
  | valueError
  deriving DecidableEq

def digits (ds : List Char) : Nat := ds.foldl (fun n c => 10 * n + (c.toNat - '0'.toNat)) 0

/-- A sign, and the text after it. -/
def takeSign : List Char → Bool × List Char
  | '-' :: s => (true, s)
  | '+' :: s => (false, s)
  | s => (false, s)

/-- `int(d)`, for text without underscores. -/
def py_int (d : List Char) : Option Value :=
  let (neg, ds) := takeSign d
  if ds ≠ [] ∧ ds.all Char.isDigit then some (.int (if neg then -digits ds else digits ds))
  else none

/-- `float(d)`, for text with a point and without an exponent. -/
def py_float (d : List Char) : Option Value :=
  let (neg, ds) := takeSign d
  match split '.' ds with
  | [whole, frac] =>
    if whole ++ frac ≠ [] ∧ (whole ++ frac).all Char.isDigit then
      some (.float neg (digits (whole ++ frac)) frac.length)
    else none
  | _ => none

/-- `float(d)` for a field with a point in it, and `int(d)` for one without. -/
def parse (d : List Char) : Option Value := if '.' ∈ d then py_float d else py_int d

abbrev Data := List Char → List Value

/-- The inner loop, from field `i` on. The label is looked up before the field is
converted. -/
def load_fields (idx_to_label : List (List Char)) : Nat → List (List Char) → Data →
    Except PyError Data
  | _, [], data => .ok data
  | i, d :: ds, data =>
    match idx_to_label[i]? with
    | none => .error .indexError
    | some label =>
      match parse d with
      | none => .error .valueError
      | some v =>
        load_fields idx_to_label (i + 1) ds (Function.update data label (data label ++ [v]))

/-- The outer loop, over the rows. -/
def load_rows (idx_to_label : List (List Char)) : List (List Char) → Data → Except PyError Data
  | [], data => .ok data
  | raw_datum :: raw_data, data =>
    match load_fields idx_to_label 0 (split ',' (strip raw_datum)) data with
    | .error e => .error e
    | .ok data => load_rows idx_to_label raw_data data

/-- The loader: the labels, and the data of each label. -/
def load (file : List Char) : Except PyError (List (List Char) × Data) :=
  match readlines file with
  | [] => .error .indexError
  | first :: raw_data =>
    let labels := split ',' (strip first)
    match load_rows labels raw_data (fun _ => []) with
    | .error e => .error e
    | .ok data => .ok (labels, data)

/-- The labels that the plots index. -/
def plotted : List (List Char) :=
  ["Time", "Coverage", "RateS(ins)", "RateS(avg)", "RateE(ins)", "RateE(avg)"].map String.toList

end plot

/-! ## What the loader should give -/

open daemon plot

/-- A `float` to two decimals. -/
def two_decimals : CFloat → Value
  | .finite neg m e => .float neg (hundredths m e) 2
  | .inf neg => .inf neg
  | .nan _ => .nan

def uint (x : UInt32) : Value := .int x.toNat

/-- The columns of the file, each with the argument of `out_append` that it is for. -/
def columns (error_percent : UInt8) : List (List Char × (Row → Value)) :=
  [("Time".toList, fun r => uint r.time), ("Coverage".toList, fun r => uint r.cov)] ++
    (if error_percent > 0 then
      [("(Lower)".toList, fun r => uint r.lower_err), ("(Upper)".toList, fun r => uint r.upper_err)]
    else []) ++
    [("Density".toList, fun r => two_decimals r.density),
      ("RateS(ins)".toList, fun r => uint r.rate_ins),
      ("RateE(per)".toList, fun r => two_decimals r.rate_per),
      ("RateS(avg)".toList, fun r => uint r.rate_avg),
      ("RateE(avg)".toList, fun r => two_decimals r.rate_per_avg)]

/-- The script loads the file, each column has the values of the rows, and every label
that is plotted is there. -/
def ReadsBack (error_percent : UInt8) (rows : List Row) : Prop :=
  ∃ labels data, load (out_file error_percent rows) = .ok (labels, data) ∧
    labels = (columns error_percent).map Prod.fst ∧
    (∀ c ∈ columns error_percent, data c.1 = rows.map c.2) ∧
    ∀ label ∈ plotted, label ∈ labels

/-! ## The law -/

variable {error_percent : UInt8} {c : Char}

/-- The text has no comma and no newline in it, nor a carriage return. -/
def Plain (s : List Char) : Prop := ',' ∉ s ∧ '\n' ∉ s ∧ '\r' ∉ s

instance (s : List Char) : Decidable (Plain s) := inferInstanceAs (Decidable (_ ∧ _))

theorem plain_digits (n : Nat) : Plain (Nat.toDigits 10 n) := by
  have hdigit : ∀ c ∈ Nat.toDigits 10 n, c.isDigit = true :=
    fun c hc => Nat.isDigit_of_mem_toDigits (by decide) (by decide) hc
  refine ⟨fun h => ?_, fun h => ?_, fun h => ?_⟩
  all_goals cases hdigit _ h

theorem Plain.append {s t : List Char} (hs : Plain s) (ht : Plain t) : Plain (s ++ t) := by
  unfold Plain at hs ht ⊢
  simp only [List.mem_append, not_or]
  exact ⟨⟨hs.1, ht.1⟩, ⟨hs.2.1, ht.2.1⟩, hs.2.2, ht.2.2⟩

theorem plain_sign (neg : Bool) : Plain (sign neg) := by
  cases neg <;> decide

theorem plain_print_f (x : CFloat) : Plain (print_f x) := by
  cases x with
  | finite neg m e =>
    have hdigit : ∀ d < 10, Plain [Nat.digitChar d] := by decide
    unfold print_f
    apply Plain.append ((plain_sign neg).append (plain_digits _))
    apply Plain.append (s := ['.']) (by decide)
    apply Plain.append (s := [_])
    · exact hdigit _ (by omega)
    · exact hdigit _ (by omega)
  | inf neg => exact (plain_sign neg).append (by decide)
  | nan neg => exact (plain_sign neg).append (by decide)

theorem Plain.count {s : List Char} (h : Plain s) : s.count ',' = 0 := List.count_eq_zero.mpr h.1

/-- A row has two fields more than the header has labels. -/
theorem count_row (r : Row) :
    (row_line error_percent r).count ',' = (header error_percent).count ',' + 2 := by
  have hu : ∀ x, (print_u x).count ',' = 0 := fun x => (plain_digits _).count
  have hf : ∀ x, (print_f x).count ',' = 0 := fun x => (plain_print_f x).count
  unfold row_line header
  by_cases he : error_percent > 0
  · simp only [if_pos he, List.count_append, hu, hf]
    decide
  · simp only [if_neg he, List.count_append, hu, hf]
    decide

theorem newline_not_mem_header : '\n' ∉ header error_percent ∧ '\r' ∉ header error_percent := by
  unfold header
  by_cases he : error_percent > 0
  · rw [if_pos he]
    decide
  · rw [if_neg he]
    decide

theorem newline_not_mem_row (r : Row) :
    '\n' ∉ row_line error_percent r ∧ '\r' ∉ row_line error_percent r := by
  have hu : ∀ x, '\n' ∉ print_u x ∧ '\r' ∉ print_u x := fun x => (plain_digits _).2
  have hf : ∀ x, '\n' ∉ print_f x ∧ '\r' ∉ print_f x := fun x => (plain_print_f x).2
  unfold row_line
  by_cases he : error_percent > 0
  · simp [if_pos he, hu, hf]
  · simp [if_neg he, hu, hf]

/-- The writers write no carriage return. -/
theorem return_not_mem_out_file (error_percent : UInt8) (rows : List Row) :
    '\r' ∉ out_file error_percent rows := by
  simp only [out_file, out_init, List.mem_append, List.mem_flatMap, List.mem_singleton, not_or,
    not_exists, not_and]
  refine ⟨⟨newline_not_mem_header.2, by decide⟩, fun r _ => ?_⟩
  simp [out_append, (newline_not_mem_row r).2]

theorem length_fields (l : List Char) :
    (split ',' (strip (l ++ ['\n']))).length = l.count ',' + 1 := by
  rw [length_split, count_strip (by decide), List.count_append]
  rfl

/-- A row with more fields than there are labels raises an exception. -/
theorem load_fields_raises {labels fields : List (List Char)} {i : Nat} (data : Data)
    (hi : i ≤ labels.length) (h : labels.length < i + fields.length) :
    ∃ e, load_fields labels i fields data = .error e := by
  induction fields generalizing i data with
  | nil =>
    rw [List.length_nil] at h
    omega
  | cons d ds ih =>
    unfold load_fields
    split
    · exact ⟨_, rfl⟩
    · rename_i label hlabel
      have hlt := (List.getElem?_eq_some_iff.mp hlabel).1
      rw [List.length_cons] at h
      split
      · exact ⟨_, rfl⟩
      · exact ih _ (by omega) (by omega)

/-- A file with a row in it raises an exception. -/
theorem load_raises (error_percent : UInt8) (r : Row) (rows : List Row) :
    ∃ e, load (out_file error_percent (r :: rows)) = .error e := by
  have hlines : readlines (out_file error_percent (r :: rows)) =
      (header error_percent ++ ['\n']) :: (row_line error_percent r ++ ['\n']) ::
        lines (rows.flatMap (out_append error_percent)) := by
    unfold readlines
    rw [newlines_eq (return_not_mem_out_file _ _), out_file, out_init, List.append_assoc,
      List.singleton_append, lines_line newline_not_mem_header.1, List.flatMap_cons, out_append,
      List.append_assoc, List.singleton_append, lines_line (newline_not_mem_row r).1]
  have hmore : (split ',' (strip (header error_percent ++ ['\n']))).length <
      0 + (split ',' (strip (row_line error_percent r ++ ['\n']))).length := by
    rw [length_fields, length_fields, count_row]
    omega
  obtain ⟨e, he⟩ := load_fields_raises (fun _ => []) (Nat.zero_le _) hmore
  refine ⟨e, ?_⟩
  unfold load
  rw [hlines]
  simp only [load_rows, he]

/-- No file with a row in it reads back. -/
theorem no_row_reads_back (error_percent : UInt8) (r : Row) (rows : List Row) :
    ¬ ReadsBack error_percent (r :: rows) := by
  rintro ⟨labels, data, hload, -⟩
  obtain ⟨e, he⟩ := load_raises error_percent r rows
  rw [he] at hload
  cases hload

/-- The loader takes a row that has a field for each label. -/
example : (load "Time,Coverage,Density\n10,10465,0.01\n".toList).map
    (fun p => p.2 "Density".toList) = .ok [.float false 1 2] := rfl

/-- A first report. -/
def firstRow : Row where
  time := 10
  cov := 10465
  lower_err := 0
  upper_err := 0
  density := .finite false 1 (-7)
  rate_ins := 1046
  rate_per := .finite false 9981 (-8)
  rate_avg := 1046
  rate_per_avg := .finite false 9981 (-8)

/-- The row of a first report has no label for its eighth field. -/
theorem the_first_row_raises :
    row_line 0 firstRow = "10,10465,10,10465,0.01,1046,38.99,1046,38.99".toList ∧
      load (out_file 0 [firstRow]) = .error .indexError ∧ ¬ ReadsBack 0 [firstRow] := by
  have hload : load (out_file 0 [firstRow]) = .error .indexError := rfl
  refine ⟨rfl, hload, ?_⟩
  rintro ⟨labels, data, hok, -⟩
  rw [hload] at hok
  cases hok

end lscov
