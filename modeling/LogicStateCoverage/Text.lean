-- The laws of text. A text is read line by line, a line is stripped of the blanks at its
-- ends and split into fields at each separator. A string of C ends at its first NUL.
import Mathlib.Data.List.DropRight
import Mathlib.Data.List.Count
import Mathlib.Data.List.TakeWhile

namespace text

/-! ## Lines -/

/-- The newlines of a file that Python opens as a text: `\r\n` and `\r` become `\n`. -/
def newlines : List Char → List Char
  | [] => []
  | '\r' :: '\n' :: cs => '\n' :: newlines cs
  | '\r' :: cs => '\n' :: newlines cs
  | c :: cs => c :: newlines cs

/-- The lines of a text, each with its newline. -/
def lines : List Char → List (List Char)
  | [] => []
  | c :: cs =>
    if c = '\n' then ['\n'] :: lines cs
    else
      match lines cs with
      | [] => [[c]]
      | l :: ls => (c :: l) :: ls

/-- `readlines` in Python, of a file that is opened as a text. -/
def readlines (file : List Char) : List (List Char) := lines (newlines file)

theorem newlines_eq {s : List Char} (h : '\r' ∉ s) : newlines s = s := by
  induction s with
  | nil => rfl
  | cons c s ih =>
    rw [List.mem_cons, not_or] at h
    rw [newlines.eq_4, ih h.2]
    · rintro cs rfl
      exact absurd rfl h.1
    · rintro rfl
      exact absurd rfl h.1

theorem lines_line {l : List Char} (h : '\n' ∉ l) (rest : List Char) :
    lines (l ++ '\n' :: rest) = (l ++ ['\n']) :: lines rest := by
  induction l with
  | nil => rfl
  | cons c l ih =>
    have hc : c ≠ '\n' := fun hc => h (hc ▸ List.mem_cons_self)
    rw [List.cons_append, lines, if_neg hc, ih fun hm => h (List.mem_cons_of_mem _ hm)]
    rfl

/-! ## Fields -/

/-- The blanks of Python: those of ASCII, its separators and the spaces of Unicode. -/
def isSpace (c : Char) : Bool :=
  let n := c.toNat
  (0x09 ≤ n && n ≤ 0x0d) || (0x1c ≤ n && n ≤ 0x20) || n == 0x85 || n == 0xa0 || n == 0x1680 ||
    (0x2000 ≤ n && n ≤ 0x200a) || n == 0x2028 || n == 0x2029 || n == 0x202f || n == 0x205f ||
    n == 0x3000

theorem isSpace_of_isDigit {c : Char} (h : c.isDigit = true) : isSpace c = false := by
  obtain ⟨hlow, hhigh⟩ : 48 ≤ c.toNat ∧ c.toNat ≤ 57 := Char.isDigit_iff_toNat.mp h
  simp only [isSpace, Bool.or_eq_false_iff, Bool.and_eq_false_iff, decide_eq_false_iff_not,
    beq_eq_false_iff_ne]
  omega

/-- `strip` in Python. -/
def strip (s : List Char) : List Char := (s.dropWhile isSpace).rdropWhile isSpace

/-- `split` in Python, at a separator of one character. -/
def split (sep : Char) : List Char → List (List Char)
  | [] => [[]]
  | c :: cs =>
    if c = sep then [] :: split sep cs
    else
      match split sep cs with
      | [] => [[c]]
      | f :: fs => (c :: f) :: fs

theorem length_split (sep : Char) (s : List Char) : (split sep s).length = s.count sep + 1 := by
  induction s with
  | nil => rfl
  | cons c cs ih =>
    unfold split
    split
    · rename_i hc
      rw [hc, List.count_cons_self, List.length_cons, ih]
    · rename_i hc
      rw [List.count_cons_of_ne hc, ← ih]
      split
      · rename_i hnil
        rw [hnil] at ih
        cases ih
      · rename_i hcons
        rw [hcons]
        rfl

theorem count_dropWhile {p : Char → Bool} {c : Char} (h : p c = false) (s : List Char) :
    (s.dropWhile p).count c = s.count c := by
  induction s with
  | nil => rfl
  | cons x s ih =>
    rw [List.dropWhile_cons]
    split
    · rename_i hx
      have hne : x ≠ c := by
        intro heq
        rw [heq, h] at hx
        cases hx
      rw [ih, List.count_cons_of_ne hne]
    · rfl

/-- Blanks are stripped, and nothing else. -/
theorem count_strip {c : Char} (h : isSpace c = false) (s : List Char) :
    (strip s).count c = s.count c := by
  unfold strip List.rdropWhile
  rw [List.count_reverse, count_dropWhile h, List.count_reverse, count_dropWhile h]

/-! ## Lines and fields that are written -/

theorem lines_flatMap {ls : List (List Char)} (h : ∀ l ∈ ls, '\n' ∉ l) :
    lines (ls.flatMap fun l => l ++ ['\n']) = ls.map fun l => l ++ ['\n'] := by
  induction ls with
  | nil => rfl
  | cons l ls ih =>
    obtain ⟨hl, hls⟩ := List.forall_mem_cons.mp h
    rw [List.flatMap_cons, List.append_assoc, List.singleton_append, lines_line hl, ih hls,
      List.map_cons]

theorem readlines_lines {ls : List (List Char)} (h : ∀ l ∈ ls, '\n' ∉ l ∧ '\r' ∉ l) :
    readlines (ls.flatMap fun l => l ++ ['\n']) = ls.map fun l => l ++ ['\n'] := by
  have hreturn : '\r' ∉ ls.flatMap fun l => l ++ ['\n'] := by
    simp only [List.mem_flatMap, List.mem_append, List.mem_singleton, not_exists, not_and, not_or]
    exact fun l hl => ⟨(h l hl).2, by decide⟩
  unfold readlines
  rw [newlines_eq hreturn, lines_flatMap fun l hl => (h l hl).1]

theorem split_eq_splitOn (sep : Char) (s : List Char) : split sep s = s.splitOn sep := by
  induction s with
  | nil => rfl
  | cons c s ih =>
    rw [split, ih, List.splitOn_cons_eq_if_modifyHead]
    cases hs : s.splitOn sep with
    | nil => exact absurd hs (List.splitOn_ne_nil sep s)
    | cons f fs => simp [beq_iff_eq]

/-- Fields without the separator in them come back. -/
theorem split_intercalate {sep : Char} {fields : List (List Char)} (hne : fields ≠ [])
    (h : ∀ f ∈ fields, sep ∉ f) : split sep ([sep].intercalate fields) = fields := by
  rw [split_eq_splitOn, List.splitOn_intercalate sep h hne]

/-- A line without blanks comes back. -/
theorem strip_line {l : List Char} (h : ∀ c ∈ l, isSpace c = false) : strip (l ++ ['\n']) = l := by
  have hnone : ∀ c ∈ l, ¬ isSpace c = true := by
    intro c hc
    simp [h c hc]
  have hback : l.rdropWhile isSpace = l :=
    List.rdropWhile_eq_self_iff.mpr fun hl => hnone _ (List.getLast_mem hl)
  unfold strip
  cases l with
  | nil => rfl
  | cons c l =>
    rw [List.cons_append, List.dropWhile_cons_of_neg (hnone c List.mem_cons_self),
      ← List.cons_append, List.rdropWhile_concat_pos _ _ _ (by decide), hback]

/-! ## Strings of C -/

def NUL : Char := '\x00'

/-- The string that starts at the front of a buffer. Without a NUL in the buffer, it goes on
past the end, and so there is none. -/
def c_string (buf : List Char) : Option (List Char) :=
  if NUL ∈ buf then some (buf.takeWhile (· ≠ NUL)) else none

theorem c_string_append {s : List Char} (hs : NUL ∉ s) (rest : List Char) :
    c_string (s ++ rest) = (c_string rest).map (s ++ ·) := by
  unfold c_string
  have htake : (s ++ rest).takeWhile (· ≠ NUL) = s ++ rest.takeWhile (· ≠ NUL) := by
    apply List.takeWhile_append_of_pos
    intro c hc
    exact decide_eq_true fun h => hs (h ▸ hc)
  by_cases hr : NUL ∈ rest
  · rw [if_pos (List.mem_append_right s hr), if_pos hr, htake]
    rfl
  · rw [if_neg (by simp [hs, hr]), if_neg hr]
    rfl

theorem c_string_replicate {n : Nat} (h : 0 < n) : c_string (List.replicate n NUL) = some [] := by
  obtain ⟨n, rfl⟩ := Nat.exists_eq_add_of_lt h
  rw [c_string, if_pos (List.mem_replicate.mpr ⟨by omega, rfl⟩), List.replicate_succ]
  rfl

/-- The position of the last `c`, and -1 where there is none. -/
def rfind (c : Char) (s : List Char) : Int := s.length - 1 - s.reverse.idxOf c

theorem rfind_append {c : Char} (s : List Char) {t : List Char} (h : c ∉ t) :
    rfind c (s ++ c :: t) = s.length := by
  unfold rfind
  have hidx : (s ++ c :: t).reverse.idxOf c = t.length := by
    rw [List.reverse_append, List.reverse_cons, List.append_assoc,
      List.idxOf_append_of_notMem (by simpa using h), List.singleton_append,
      List.idxOf_cons_self, List.length_reverse, Nat.add_zero]
  rw [hidx, List.length_append, List.length_cons]
  omega

end text
