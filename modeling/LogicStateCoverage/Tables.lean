-- The law of tables. A table of numbers is written as the daemon prints them, with one
-- label for each column. The loader of `cov-to-fig.py` reads back every such table, unless
-- there is an infinity or a NaN in it.
import LogicStateCoverage.Output

namespace lscov.plot

open text daemon

/-! ## Tables -/

/-- A number that the daemon prints. -/
inductive Cell where
  | u (x : UInt32)
  | f (x : CFloat)

/-- A cell as `%u` and `%3.2f` print it. -/
def Cell.print : Cell → List Char
  | .u x => print_u x
  | .f x => print_f x

/-- What the loader should make of a cell. -/
def Cell.value : Cell → Value
  | .u x => uint x
  | .f x => two_decimals x

def Cell.isFinite : Cell → Bool
  | .u _ | .f (.finite _ _ _) => true
  | .f (.inf _) | .f (.nan _) => false

/-- There is no comma and no blank in the text. -/
def Word (s : List Char) : Prop := ∀ c ∈ s, c ≠ ',' ∧ isSpace c = false

instance (s : List Char) : Decidable (Word s) := List.decidableBAll _ s

/-- A table: distinct labels, and rows with a cell for each of them. -/
structure Table where
  labels : List (List Char)
  rows : List (List Cell)
  some_label : labels ≠ []
  words : ∀ l ∈ labels, Word l
  distinct : labels.Nodup
  square : ∀ r ∈ rows, r.length = labels.length

def line (fields : List (List Char)) : List Char := [','].intercalate fields

/-- The file of a table. -/
def Table.write (t : Table) : List Char :=
  (line t.labels :: t.rows.map fun r => line (r.map Cell.print)).flatMap fun l => l ++ ['\n']

def Table.isFinite (t : Table) : Bool := t.rows.all fun r => r.all Cell.isFinite

/-! ## Cells -/

theorem digits_eq (ds : List Char) : digits ds = Nat.ofDigitChars 10 ds 0 := by
  rw [Nat.ofDigitChars_eq_foldl]
  rfl

theorem isDigit_of_toDigits {n : Nat} {c : Char} (h : c ∈ Nat.toDigits 10 n) : c.isDigit = true :=
  Nat.isDigit_of_mem_toDigits (by decide) (by decide) h

/-- The sign is taken off a number that begins with a digit. -/
theorem takeSign_sign {neg : Bool} {c : Char} (h : c.isDigit = true) (s : List Char) :
    takeSign (sign neg ++ c :: s) = (neg, c :: s) := by
  cases neg with
  | true => rfl
  | false =>
    show takeSign (c :: s) = (false, c :: s)
    unfold takeSign
    split
    · rename_i heq
      cases heq
      cases h
    · rename_i heq
      cases heq
      cases h
    · rfl

theorem takeSign_toDigits (neg : Bool) (n : Nat) (s : List Char) :
    takeSign (sign neg ++ (Nat.toDigits 10 n ++ s)) = (neg, Nat.toDigits 10 n ++ s) := by
  cases hn : Nat.toDigits 10 n with
  | nil => exact absurd hn Nat.toDigits_ne_nil
  | cons c ds =>
    have hc : c ∈ Nat.toDigits 10 n := hn ▸ List.mem_cons_self
    exact takeSign_sign (isDigit_of_toDigits hc) _

theorem parse_print_u (x : UInt32) : parse (print_u x) = some (uint x) := by
  have hpoint : '.' ∉ print_u x := fun h => absurd (isDigit_of_toDigits h) (by decide)
  have hall : (Nat.toDigits 10 x.toNat).all Char.isDigit = true :=
    List.all_eq_true.mpr fun c hc => isDigit_of_toDigits hc
  have hsign : takeSign (Nat.toDigits 10 x.toNat) = (false, Nat.toDigits 10 x.toNat) := by
    simpa [sign] using takeSign_toDigits false x.toNat []
  unfold parse
  rw [if_neg hpoint, py_int, print_u, hsign]
  simp [Nat.toDigits_ne_nil, hall, digits_eq, Nat.ofDigitChars_ten_toDigits, uint]

/-- The two digits past the point. -/
theorem digits_hundredths (h : Nat) :
    digits (Nat.toDigits 10 (h / 100) ++ [Nat.digitChar (h % 100 / 10), Nat.digitChar (h % 10)]) =
      h := by
  have htens : h % 100 / 10 < 10 := by omega
  have hones : h % 10 < 10 := Nat.mod_lt _ (by decide)
  rw [digits_eq, Nat.ofDigitChars_append, Nat.ofDigitChars_ten_toDigits,
    Nat.ofDigitChars_cons_digitChar_of_lt_ten htens,
    Nat.ofDigitChars_cons_digitChar_of_lt_ten hones, Nat.ofDigitChars_nil]
  omega

theorem parse_print_f (neg : Bool) (m : Nat) (e : Int) :
    parse (print_f (.finite neg m e)) = some (two_decimals (.finite neg m e)) := by
  have hdigit : ∀ d < 10, (Nat.digitChar d).isDigit = true ∧ Nat.digitChar d ≠ '.' := by decide
  obtain ⟨htens, htens'⟩ := hdigit (hundredths m e % 100 / 10) (by omega)
  obtain ⟨hones, hones'⟩ := hdigit (hundredths m e % 10) (by omega)
  have hwhole : (Nat.toDigits 10 (hundredths m e / 100)).all Char.isDigit = true :=
    List.all_eq_true.mpr fun c hc => isDigit_of_toDigits hc
  have hpoint : '.' ∉ Nat.toDigits 10 (hundredths m e / 100) :=
    fun h => absurd (isDigit_of_toDigits h) (by decide)
  have hsplit : split '.' (['.'].intercalate [Nat.toDigits 10 (hundredths m e / 100),
      [Nat.digitChar (hundredths m e % 100 / 10), Nat.digitChar (hundredths m e % 10)]]) =
      [Nat.toDigits 10 (hundredths m e / 100),
        [Nat.digitChar (hundredths m e % 100 / 10), Nat.digitChar (hundredths m e % 10)]] :=
    split_intercalate (by simp) (by simp [hpoint, Ne.symm htens', Ne.symm hones'])
  have hjoin : ['.'].intercalate [Nat.toDigits 10 (hundredths m e / 100),
        [Nat.digitChar (hundredths m e % 100 / 10), Nat.digitChar (hundredths m e % 10)]] =
      Nat.toDigits 10 (hundredths m e / 100) ++
        ['.', Nat.digitChar (hundredths m e % 100 / 10), Nat.digitChar (hundredths m e % 10)] := by
    simp [List.intercalate]
  rw [hjoin] at hsplit
  unfold parse
  rw [if_pos (by simp [print_f]), py_float, print_f, List.append_assoc, takeSign_toDigits]
  simp only [hsplit]
  simp [hwhole, htens, hones, digits_hundredths, two_decimals]

/-- An infinity or a NaN has no point in it, and `int` does not take it. -/
theorem parse_print (c : Cell) : parse c.print = if c.isFinite then some c.value else none := by
  cases c with
  | u x => exact parse_print_u x
  | f x =>
    cases x with
    | finite neg m e => exact parse_print_f neg m e
    | inf neg => cases neg <;> rfl
    | nan neg => cases neg <;> rfl

/-! ## Lines -/

theorem Word.append {s t : List Char} (hs : Word s) (ht : Word t) : Word (s ++ t) :=
  List.forall_mem_append.mpr ⟨hs, ht⟩

theorem word_toDigits (n : Nat) : Word (Nat.toDigits 10 n) := by
  intro c hc
  have hdigit := isDigit_of_toDigits hc
  refine ⟨?_, isSpace_of_isDigit hdigit⟩
  rintro rfl
  cases hdigit

theorem word_print (c : Cell) : Word c.print := by
  have hsign : ∀ neg, Word (sign neg) := by decide
  cases c with
  | u x => exact word_toDigits _
  | f x =>
    cases x with
    | finite neg m e =>
      have hdigit : ∀ d < 10, Word [Nat.digitChar d] := by decide
      have hpoint : Word ['.'] := by decide
      exact ((hsign neg).append (word_toDigits _)).append (hpoint.append
        ((hdigit (hundredths m e % 100 / 10) (by omega)).append
          (hdigit (hundredths m e % 10) (by omega))))
    | inf neg => exact (hsign neg).append (by decide)
    | nan neg => exact (hsign neg).append (by decide)

/-- A line has no blanks in it. -/
theorem not_blank_line {fields : List (List Char)} (h : ∀ f ∈ fields, Word f) :
    ∀ c ∈ line fields, isSpace c = false := by
  induction fields with
  | nil => exact fun c hc => absurd hc List.not_mem_nil
  | cons f fields ih =>
    obtain ⟨hf, hrest⟩ := List.forall_mem_cons.mp h
    have hword : ∀ c ∈ f, isSpace c = false := fun c hc => (hf c hc).2
    cases fields with
    | nil =>
      rw [line, List.intercalate_singleton]
      exact hword
    | cons g fields =>
      have hcomma : ∀ c ∈ [','], isSpace c = false := by simp [isSpace]
      rw [line, List.intercalate_cons_cons]
      exact List.forall_mem_append.mpr ⟨List.forall_mem_append.mpr ⟨hword, hcomma⟩, ih hrest⟩

theorem fields_line {fields : List (List Char)} (hne : fields ≠ []) (h : ∀ f ∈ fields, Word f) :
    split ',' (strip (line fields ++ ['\n'])) = fields := by
  rw [strip_line (not_blank_line h), line]
  exact split_intercalate hne fun f hf hc => (h f hf _ hc).1 rfl

/-! ## Rows -/

/-- What a row adds to the data. -/
def addRow (data : Data) (row : List (List Char × Value)) : Data :=
  row.foldl (fun data p => Function.update data p.1 (data p.1 ++ [p.2])) data

theorem addRow_of_not_mem (data : Data) {row : List (List Char × Value)} {l : List Char}
    (h : l ∉ row.map Prod.fst) : addRow data row l = data l := by
  induction row generalizing data with
  | nil => rfl
  | cons p row ih =>
    simp only [List.map_cons, List.mem_cons, not_or] at h
    have hrest := ih (Function.update data p.1 (data p.1 ++ [p.2])) h.2
    rw [Function.update_of_ne h.1] at hrest
    exact hrest

/-- Each label gets its own value. -/
theorem addRow_of_mem (data : Data) {row : List (List Char × Value)} {p : List Char × Value}
    (hdistinct : (row.map Prod.fst).Nodup) (hp : p ∈ row) :
    addRow data row p.1 = data p.1 ++ [p.2] := by
  induction row generalizing data with
  | nil => cases hp
  | cons q row ih =>
    rw [List.map_cons, List.nodup_cons] at hdistinct
    rcases List.mem_cons.mp hp with rfl | hrow
    · have hrest := addRow_of_not_mem (Function.update data p.1 (data p.1 ++ [p.2])) hdistinct.1
      rw [Function.update_self] at hrest
      exact hrest
    · have hne : p.1 ≠ q.1 := by
        intro heq
        exact hdistinct.1 (heq ▸ List.mem_map_of_mem hrow)
      have hrest := ih (Function.update data q.1 (data q.1 ++ [q.2])) hdistinct.2 hrow
      rw [Function.update_of_ne hne] at hrest
      exact hrest

theorem load_fields_cells {labels : List (List Char)} {cells : List Cell} {i : Nat} (data : Data)
    (h : i + cells.length ≤ labels.length) :
    load_fields labels i (cells.map Cell.print) data =
      if cells.all Cell.isFinite then
        .ok (addRow data ((labels.drop i).zip (cells.map Cell.value)))
      else .error .valueError := by
  induction cells generalizing i data with
  | nil => simp [load_fields, addRow]
  | cons c cells ih =>
    rw [List.length_cons] at h
    have hi : i < labels.length := by omega
    rw [List.map_cons, load_fields, List.getElem?_eq_getElem hi]
    simp only [parse_print]
    by_cases hc : c.isFinite = true
    · simp only [hc, if_true, List.all_cons, Bool.true_and]
      rw [ih _ (by omega), List.drop_eq_getElem_cons hi]
      rfl
    · simp [hc]

/-- The data after some rows. -/
def addRows (labels : List (List Char)) (data : Data) (rows : List (List Cell)) : Data :=
  rows.foldl (fun data r => addRow data (labels.zip (r.map Cell.value))) data

theorem load_rows_cells {labels : List (List Char)} {rows : List (List Cell)} (data : Data)
    (hne : labels ≠ []) (h : ∀ r ∈ rows, r.length = labels.length) :
    load_rows labels (rows.map fun r => line (r.map Cell.print) ++ ['\n']) data =
      if rows.all fun r => r.all Cell.isFinite then .ok (addRows labels data rows)
      else .error .valueError := by
  induction rows generalizing data with
  | nil => simp [load_rows, addRows]
  | cons r rows ih =>
    obtain ⟨hr, hrest⟩ := List.forall_mem_cons.mp h
    have hcells : r.map Cell.print ≠ [] := by
      intro hnil
      rw [List.map_eq_nil_iff] at hnil
      rw [hnil, List.length_nil] at hr
      exact hne (List.length_eq_zero_iff.mp hr.symm)
    have hwords : ∀ f ∈ r.map Cell.print, Word f := by
      intro f hf
      obtain ⟨c, -, rfl⟩ := List.mem_map.mp hf
      exact word_print c
    rw [List.map_cons, load_rows, fields_line hcells hwords,
      load_fields_cells data (by rw [Nat.zero_add]; exact Nat.le_of_eq hr), List.drop_zero]
    by_cases hfin : r.all Cell.isFinite = true
    · simp only [hfin, if_true, List.all_cons, Bool.true_and]
      exact ih _ hrest
    · simp [hfin]

/-- The data of the `j`-th label has the `j`-th cell of each row. -/
theorem addRows_column {labels : List (List Char)} {rows : List (List Cell)} (data : Data)
    (hdistinct : labels.Nodup) (h : ∀ r ∈ rows, r.length = labels.length) {j : Nat}
    {label : List Char} (hj : labels[j]? = some label) :
    (addRows labels data rows label).map some =
      (data label).map some ++ rows.map fun r => r[j]?.map Cell.value := by
  induction rows generalizing data with
  | nil => simp [addRows]
  | cons r rows ih =>
    obtain ⟨hr, hrest⟩ := List.forall_mem_cons.mp h
    obtain ⟨hlt, hlabel⟩ := List.getElem?_eq_some_iff.mp hj
    have hcell : r[j]? = some r[j] := List.getElem?_eq_getElem (hr ▸ hlt)
    have hkeys : ((labels.zip (r.map Cell.value)).map Prod.fst) = labels := by
      rw [List.map_fst_zip]
      rw [List.length_map, hr]
    have hmem : (label, r[j].value) ∈ labels.zip (r.map Cell.value) := by
      apply List.mem_of_getElem? (i := j)
      rw [List.getElem?_zip_eq_some, hj, List.getElem?_map, hcell]
      exact ⟨rfl, rfl⟩
    have hrow := addRow_of_mem data (hkeys.symm ▸ hdistinct) hmem
    have hstep := ih (addRow data (labels.zip (r.map Cell.value))) hrest
    rw [hrow] at hstep
    simpa [addRows, hcell] using hstep

/-! ## The law -/

/-- A table without infinities and NaNs is read back: each label has the values of its
column, in the order of the rows. In any other table the loader raises a `ValueError`. -/
theorem a_table_reads_back (t : Table) :
    (t.isFinite = true ∧ ∃ data, load t.write = .ok (t.labels, data) ∧
      ∀ (j : Nat) (label : List Char), t.labels[j]? = some label →
        (data label).map some = t.rows.map fun r => r[j]?.map Cell.value) ∨
    (t.isFinite = false ∧ load t.write = .error .valueError) := by
  have hnewline : ∀ fields : List (List Char), (∀ f ∈ fields, Word f) →
      '\n' ∉ line fields ∧ '\r' ∉ line fields := by
    intro fields h
    have hblank : ∀ c, isSpace c = true → c ∉ line fields := by
      intro c hc hmem
      rw [not_blank_line h c hmem] at hc
      cases hc
    exact ⟨hblank _ (by decide), hblank _ (by decide)⟩
  have hlines : readlines t.write = (line t.labels ++ ['\n']) ::
      t.rows.map fun r => line (r.map Cell.print) ++ ['\n'] := by
    unfold Table.write
    rw [readlines_lines]
    · simp
    · refine List.forall_mem_cons.mpr ⟨hnewline _ t.words, ?_⟩
      intro l hl
      obtain ⟨r, -, rfl⟩ := List.mem_map.mp hl
      refine hnewline _ fun f hf => ?_
      obtain ⟨c, -, rfl⟩ := List.mem_map.mp hf
      exact word_print c
  have hload : load t.write = if t.isFinite then
      .ok (t.labels, addRows t.labels (fun _ => []) t.rows) else .error .valueError := by
    unfold load Table.isFinite
    rw [hlines]
    simp only [fields_line t.some_label t.words, load_rows_cells _ t.some_label t.square]
    cases t.rows.all fun r => r.all Cell.isFinite <;> rfl
  cases hfin : t.isFinite with
  | true =>
    refine Or.inl ⟨rfl, addRows t.labels (fun _ => []) t.rows, by simp [hload, hfin], ?_⟩
    intro j label hj
    have hcolumn := addRows_column (fun _ => []) t.distinct t.square hj
    simpa using hcolumn
  | false => exact Or.inr ⟨rfl, by simp [hload, hfin]⟩

/-- The labels and the first row of `vault/aflpp-xmllint-epfl.csv`. All labels that the plots
index are there. -/
def vaultTable : Table where
  labels := ["Time", "Coverage", "Density", "RateS(ins)", "RateE(ins)", "RateS(avg)",
    "RateE(avg)"].map String.toList
  rows := [[.u 10, .u 10465, .f (.finite false 1 (-7)), .u 1046, .f (.finite false 9981 (-8)),
    .u 1046, .f (.finite false 9981 (-8))]]
  some_label := by decide
  words := by decide
  distinct := by decide
  square := by decide

example : vaultTable.write =
    ("Time,Coverage,Density,RateS(ins),RateE(ins),RateS(avg),RateE(avg)\n" ++
      "10,10465,0.01,1046,38.99,1046,38.99\n").toList ∧
    ∀ label ∈ plotted, label ∈ vaultTable.labels := ⟨rfl, by decide⟩

end lscov.plot
