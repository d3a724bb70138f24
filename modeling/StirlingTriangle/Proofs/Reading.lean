import Std.Data.String.ToInt
import StirlingTriangle.Proofs.Text.Fields
import StirlingTriangle.Report

/-!
# Reading

The text of a report can be read back.

* `Reading` is what can be found in the text: the pair, its value, and for each
  way of evaluating the texts of its triangle, if it has one;
* `Reading.ofText?` reads. The text is cut into lines; a blank line begins a
  block, which its heading names; a row is cut after its number, which wraps like
  the one that is printed, and then wherever there are two spaces;
* `Reading.ofText?_text` says that it finds what the report has. No text of an
  entry contains a place to cut, and neither can it be taken for a blank line or
  a heading, since a row begins with its number;
* so reports with the same text have the same reading.
-/

namespace StirlingTriangle

variable {b : Nat}

/-! ## What there is to be read -/

/-- What can be found in the text of a report. -/
structure Reading where
  n : Int
  m : Int
  value : Nat
  /-- The texts of the entries, row by row. -/
  recursive : Option (List (List String))
  iterative : Option (List (List String))
deriving DecidableEq, Repr

/-- The texts of the entries, row by row. -/
def Triangle.texts (t : Triangle b) : List (List String) :=
  t.rows.map fun row => row.map Outcome.text

def Report.reading (r : Report b) : Reading where
  n := r.n
  m := r.m
  value := r.recursive.value.toNat
  recursive := r.recursive.triangle.map Triangle.texts
  iterative := r.iterative.triangle.map Triangle.texts

/-! ## Reading -/

namespace Reading

/-- The pair and the value. -/
def headline? (line : List Char) : Option (Int × Int × Nat) := do
  let rest ← line.dropPrefix? "A(".toList
  let n ← (String.ofList (rest.takeWhile fun c => c ≠ ',')).toInt?
  let rest ← (rest.dropWhile fun c => c ≠ ',').dropPrefix? ", ".toList
  let m ← (String.ofList (rest.takeWhile fun c => c ≠ ')')).toInt?
  let rest ← (rest.dropWhile fun c => c ≠ ')').dropPrefix? ") = ".toList
  let value ← (String.ofList rest).toNat?
  return (n, m, value)

/-- The entries of row `i`. If nothing follows its number, there are none. -/
def row? (i : Nat) (line : List Char) : Option (List String) :=
  (line.dropPrefix? s!"n={Triangle.rowNumber i}: ".toList).map fun rest =>
    if rest = [] then [] else (Fields.split rest).map String.ofList

/-- The rows from row `i` on. -/
def rows? (i : Nat) : List (List Char) → Option (List (List String))
  | [] => some []
  | line :: lines => do
    let row ← row? i line
    let rows ← rows? (i + 1) lines
    return row :: rows

/-- The rows of a triangle. -/
def triangle? (text : String) : Option (List (List String)) := rows? 1 (Fields.lines text.toList)

/-- The block with this heading, if it comes next, and the lines after it. -/
def block? (heading : String) (lines : List (List Char)) :
    Option (Option (List (List String)) × List (List Char)) :=
  match lines with
  | [] :: first :: rest =>
    if first = heading.toList then
      (rows? 1 (rest.takeWhile fun line => line ≠ [])).map fun rows =>
        (some rows, rest.dropWhile fun line => line ≠ [])
    else some (none, lines)
  | _ => some (none, lines)

def ofText? (text : String) : Option Reading :=
  match Fields.lines text.toList with
  | [] => none
  | line :: rest => do
    let (n, m, value) ← headline? line
    let (recursive, rest) ← block? "Calculating with recursion:" rest
    let (iterative, rest) ← block? "Calculating without recursion:" rest
    if rest = [] then return { n, m, value, recursive, iterative } else none

end Reading

/-! ## The lines of a report -/

/-- The line of a row, without its end. -/
def Triangle.rowChars (row : List (Outcome b)) (i : Nat) : List Char :=
  s!"n={rowNumber i}: ".toList ++ [' ', ' '].intercalate (row.map fun x => x.text.toList)

def Triangle.lines (t : Triangle b) : List (List Char) :=
  (t.rows.zipIdx 1).map fun (row, i) => rowChars row i

namespace Report

/-- The lines of a block, which begins with a blank one. -/
def blockLines (heading : String) : Option (Triangle b) → List (List Char)
  | some t => [] :: heading.toList :: t.lines
  | none => []

/-- The first line, without its end. -/
def headlineChars (n m : Int) (value : Nat) : List Char :=
  "A(".toList ++ ((toString n).toList ++ (", ".toList ++ ((toString m).toList ++
    (") = ".toList ++ (toString value).toList))))

def lines (r : Report b) : List (List Char) :=
  headlineChars r.n r.m r.recursive.value.toNat ::
    (blockLines "Calculating with recursion:" r.recursive.triangle ++
      blockLines "Calculating without recursion:" r.iterative.triangle)

end Report

namespace Triangle

theorem toList_rowNumber (i : Nat) :
    s!"n={rowNumber i}: ".toList =
      'n' :: '=' :: ((toString (rowNumber i)).toList ++ [':', ' ']) := by
  show ("n=" ++ toString (rowNumber i) ++ ": ").toList = _
  simp only [String.toList_append]
  rfl

theorem rowChars_ne_nil (row : List (Outcome b)) (i : Nat) : rowChars row i ≠ [] := by
  rw [rowChars, toList_rowNumber]
  exact List.cons_ne_nil _ _

theorem newline_notMem_rowChars (row : List (Outcome b)) (i : Nat) : '\n' ∉ rowChars row i := by
  have hnumber : '\n' ∉ (toString (rowNumber i)).toList :=
    (Fields.isNumeral_int _).notMem (by decide) (by decide)
  have hentries : '\n' ∉ [' ', ' '].intercalate (row.map fun x => x.text.toList) := by
    refine List.notMem_intercalate (by decide) fun f hf => ?_
    obtain ⟨x, -, rfl⟩ := List.mem_map.1 hf
    exact (Fields.isField_text x).oneLine
  rw [rowChars, toList_rowNumber]
  simp only [List.cons_append, List.mem_cons, List.mem_append, hnumber, hentries, or_false,
    false_or]
  decide

theorem newline_notMem_lines (t : Triangle b) : ∀ l ∈ t.lines, '\n' ∉ l := by
  intro l hl
  obtain ⟨⟨row, i⟩, -, rfl⟩ := List.mem_map.1 hl
  exact newline_notMem_rowChars row i

theorem ne_nil_of_mem_lines {t : Triangle b} : ∀ l ∈ t.lines, l ≠ [] := by
  intro l hl
  obtain ⟨⟨row, i⟩, -, rfl⟩ := List.mem_map.1 hl
  exact rowChars_ne_nil row i

theorem toList_rowLine (row : List (Outcome b)) (i : Nat) :
    (rowLine row i).toList = rowChars row i ++ ['\n'] := by
  rw [rowLine, String.toList_append, String.toList_append, String.toList_intercalate,
    List.map_map]
  rfl

theorem toList_text (t : Triangle b) :
    t.text.toList = t.lines.flatMap fun l => l ++ ['\n'] := by
  rw [text, String.toList_join, lines, List.flatMap_map, List.flatMap_map]
  simp only [toList_rowLine]

end Triangle

namespace Report

theorem toList_block (heading : String) (t : Option (Triangle b)) :
    (block heading t).toList = (blockLines heading t).flatMap fun l => l ++ ['\n'] := by
  cases t with
  | none => rfl
  | some t =>
      rw [block, blockLines]
      simp only [String.toList_append, t.toList_text, List.flatMap_cons]
      rfl

theorem toList_headline (r : Report b) :
    r.headline.toList = headlineChars r.n r.m r.recursive.value.toNat ++ ['\n'] := by
  show ("A(" ++ toString r.n ++ ", " ++ toString r.m ++ ") = " ++
    toString r.recursive.value.toNat ++ "\n").toList = _
  simp only [headlineChars, String.toList_append, List.append_assoc]
  rfl

theorem toList_text (r : Report b) : r.text.toList = r.lines.flatMap fun l => l ++ ['\n'] := by
  rw [text, String.toList_append, String.toList_append, toList_headline, toList_block,
    toList_block, lines, List.flatMap_cons, List.flatMap_append, List.append_assoc]

theorem newline_notMem_headlineChars (n m : Int) (value : Nat) :
    '\n' ∉ headlineChars n m value := by
  have hn : '\n' ∉ (toString n).toList := (Fields.isNumeral_int n).notMem (by decide) (by decide)
  have hm : '\n' ∉ (toString m).toList := (Fields.isNumeral_int m).notMem (by decide) (by decide)
  have hvalue : '\n' ∉ (toString value).toList :=
    (Fields.isNumeral_nat value).notMem (by decide) (by decide)
  simp only [headlineChars, List.mem_append, hn, hm, hvalue, or_false, false_or]
  decide

theorem newline_notMem_blockLines {heading : String} (h : '\n' ∉ heading.toList)
    (t : Option (Triangle b)) : ∀ l ∈ blockLines heading t, '\n' ∉ l := by
  cases t with
  | none => nofun
  | some t =>
      intro l hl
      simp only [blockLines, List.mem_cons] at hl
      rcases hl with rfl | rfl | hl
      · exact List.not_mem_nil
      · exact h
      · exact t.newline_notMem_lines l hl

/-- The text is cut into the lines that it has been put together from. -/
theorem lines_text (r : Report b) : Fields.lines r.text.toList = r.lines := by
  rw [toList_text]
  refine Fields.lines_flatMap fun l hl => ?_
  simp only [lines, List.mem_cons, List.mem_append] at hl
  rcases hl with rfl | hl | hl
  · exact newline_notMem_headlineChars _ _ _
  · exact newline_notMem_blockLines (by decide) _ l hl
  · exact newline_notMem_blockLines (by decide) _ l hl

end Report

/-! ## What is read -/

namespace Reading

theorem headline?_headlineChars (n m : Int) (value : Nat) :
    headline? (Report.headlineChars n m value) = some (n, m, value) := by
  have hn : ∀ c ∈ (toString n).toList, decide (c ≠ ',') = true :=
    (Fields.isNumeral_int n).forall_ne (by decide) (by decide)
  have hm : ∀ c ∈ (toString m).toList, decide (c ≠ ')') = true :=
    (Fields.isNumeral_int m).forall_ne (by decide) (by decide)
  have hcomma : ∀ rest, ∀ c ∈ (", ".toList ++ rest).head?, decide (c ≠ ',') = false := by simp
  have hclose : ∀ rest, ∀ c ∈ (") = ".toList ++ rest).head?, decide (c ≠ ')') = false := by simp
  have hnumber : ∀ k : Int, (String.ofList (toString k).toList).toInt? = some k := by
    intro k
    rw [String.ofList_toList, Int.toString_eq_repr, Int.toInt?_repr]
  have hvalue : (String.ofList (toString value).toList).toNat? = some value := by
    rw [String.ofList_toList]
    exact Nat.toNat?_repr value
  rw [headline?, Report.headlineChars, List.dropPrefix?_append_of_beq _ BEq.rfl]
  simp only [Option.bind_eq_bind, Option.bind_some, List.takeWhile_append_stop hn (hcomma _),
    List.dropWhile_append_stop hn (hcomma _), List.takeWhile_append_stop hm (hclose _),
    List.dropWhile_append_stop hm (hclose _), List.dropPrefix?_append_of_beq _ BEq.rfl, hnumber,
    hvalue]
  rfl

/-- A row is read back, with its number in front of it and its entries in order. -/
theorem row?_rowChars (row : List (Outcome b)) (i : Nat) :
    row? i (Triangle.rowChars row i) = some (row.map Outcome.text) := by
  rw [row?, Triangle.rowChars, List.dropPrefix?_append_of_beq _ BEq.rfl, Option.map_some]
  cases row with
  | nil => rfl
  | cons x row =>
      have hfields : ∀ f ∈ (x :: row).map fun x => x.text.toList, Fields.Tight false f := by
        intro f hf
        obtain ⟨y, -, rfl⟩ := List.mem_map.1 hf
        exact (Fields.isField_text y).tight
      have hsplit := Fields.split_intercalate (by simp) hfields
      -- the text of an entry is not empty, so one entry does not look like none
      have hne : [' ', ' '].intercalate ((x :: row).map fun x => x.text.toList) ≠ [] := by
        intro hnil
        rw [hnil, List.map_cons] at hsplit
        exact (Fields.isField_text x).nonempty (List.cons.inj hsplit).1.symm
      rw [if_neg hne, hsplit, List.map_map]
      simp [Function.comp_def]

theorem rows?_rowChars (rows : List (List (Outcome b))) (i : Nat) :
    rows? i ((rows.zipIdx i).map fun (row, k) => Triangle.rowChars row k) =
      some (rows.map fun row => row.map Outcome.text) := by
  induction rows generalizing i with
  | nil => rfl
  | cons row rows ih =>
      rw [List.zipIdx_cons, List.map_cons, rows?, row?_rowChars, ih (i + 1)]
      rfl

theorem triangle?_text (t : Triangle b) : triangle? t.text = some t.texts := by
  rw [triangle?, t.toList_text, Fields.lines_flatMap t.newline_notMem_lines]
  exact rows?_rowChars t.rows 1

/-- A block is read up to the blank line after it. One that is not there is not read, if what
comes instead has another heading. -/
theorem block?_blockLines {heading : String} (t : Option (Triangle b)) {rest : List (List Char)}
    (hblank : ∀ l ∈ rest.head?, l = [])
    (hother : ∀ lines, rest ≠ [] :: heading.toList :: lines) :
    block? heading (Report.blockLines heading t ++ rest) =
      some (t.map Triangle.texts, rest) := by
  cases t with
  | none =>
      rw [Report.blockLines, List.nil_append]
      unfold block?
      split
      next first lines =>
        have hfirst : first ≠ heading.toList := by
          rintro rfl
          exact hother lines rfl
        rw [if_neg hfirst]
        rfl
      next => rfl
  | some t =>
      have hlines : ∀ l ∈ t.lines, decide (l ≠ []) = true := fun l hl =>
        decide_eq_true (t.ne_nil_of_mem_lines l hl)
      have hstop : ∀ l ∈ rest.head?, decide (l ≠ []) = false := fun l hl => by simp [hblank l hl]
      have hrows : rows? 1 t.lines = some t.texts := rows?_rowChars t.rows 1
      rw [Report.blockLines, List.cons_append, List.cons_append, block?, if_pos rfl,
        List.takeWhile_append_stop hlines hstop, List.dropWhile_append_stop hlines hstop, hrows]
      rfl

/-- The text of a report is read back. -/
theorem ofText?_text (r : Report b) : ofText? r.text = some r.reading := by
  have hrecursive : block? "Calculating with recursion:"
      (Report.blockLines "Calculating with recursion:" r.recursive.triangle ++
        Report.blockLines "Calculating without recursion:" r.iterative.triangle) =
      some (r.recursive.triangle.map Triangle.texts,
        Report.blockLines "Calculating without recursion:" r.iterative.triangle) := by
    -- if only the second block is there, its heading is not the first one's
    refine block?_blockLines r.recursive.triangle ?_ ?_
    · cases r.iterative.triangle <;> simp [Report.blockLines]
    · cases r.iterative.triangle <;> simp [Report.blockLines]
  have hiterative : block? "Calculating without recursion:"
      (Report.blockLines "Calculating without recursion:" r.iterative.triangle) =
      some (r.iterative.triangle.map Triangle.texts, []) := by
    rw [← List.append_nil (Report.blockLines _ r.iterative.triangle)]
    exact block?_blockLines r.iterative.triangle nofun nofun
  rw [ofText?, r.lines_text, Report.lines]
  simp only [headline?_headlineChars, hrecursive, hiterative, Option.bind_eq_bind,
    Option.bind_some, if_true]
  rfl

theorem reading_eq_of_text_eq {c : Nat} {r : Report b} {r' : Report c} (h : r.text = r'.text) :
    r.reading = r'.reading := by
  have hread := ofText?_text r
  rw [h, ofText?_text r'] at hread
  exact (Option.some.inj hread).symm

/-- Nothing is lost in the text of a report. It can be read, which finds the pair, the value, which
triangles there are, and row by row the texts of their entries. So reports with the same text agree
on all of these, also when they are of different widths. The text of a triangle alone can be read
as well, by cutting its lines after their numbers and then wherever there are two spaces. -/
theorem text_read_back (b c : Nat) :
    (∀ r : Report b, ofText? r.text = some r.reading) ∧
    (∀ (r : Report b) (r' : Report c), r.text = r'.text →
      r.n = r'.n ∧ r.m = r'.m ∧ r.recursive.value.toNat = r'.recursive.value.toNat ∧
      r.recursive.triangle.map Triangle.texts = r'.recursive.triangle.map Triangle.texts ∧
      r.iterative.triangle.map Triangle.texts = r'.iterative.triangle.map Triangle.texts) ∧
    ∀ t : Triangle b, triangle? t.text = some t.texts := by
  refine ⟨ofText?_text, fun r r' h => ?_, triangle?_text⟩
  have hreading : r.reading = r'.reading := reading_eq_of_text_eq h
  simp only [Report.reading, Reading.mk.injEq] at hreading
  exact hreading

end Reading

end StirlingTriangle
