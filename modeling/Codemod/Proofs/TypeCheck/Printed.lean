import Codemod.Proofs.Text.Digits
import Codemod.Proofs.Text.Lines
import Codemod.Proofs.TypeCheck.Form

/-! Reports as the type checker prints them: one line for each diagnostic, the further lines of its
message indented behind it, and other lines in between. Reading one gives back its diagnostics. -/
namespace Codemod.Report
open Text

/-! ## Numbers -/

/-- A number in the digits of ASCII, not too many of them. -/
structure Numeral where
  digits : List Char
  ne_nil : digits ≠ []
  ascii : ∀ c ∈ digits, c.isDigit = true
  short : digits.length ≤ Number.digitLimit

def Numeral.value (n : Numeral) : Nat := Nat.ofDigitChars 10 n.digits 0

theorem Numeral.digitsValue_eq (n : Numeral) : digitsValue n.digits = n.value :=
  Text.digitsValue_eq n.ascii

theorem Numeral.read (n : Numeral) : Report.value n.digits = .ok n.value := by
  rw [Report.value, if_neg (Nat.not_lt.2 n.short), n.digitsValue_eq]

theorem Numeral.isDigits (n : Numeral) : Digits n.digits where
  ne_nil := n.ne_nil
  chars := fun c hc => by simp [isDigit, digit?_of_isDigit (n.ascii c hc)]

theorem Numeral.unbroken (n : Numeral) : Unbroken n.digits := fun c hc => by
  have hc := toNat_of_isDigit (n.ascii c hc)
  simp [isLineBreak]
  omega

/-! ## Diagnostics as they are printed -/

/-- Where a diagnostic was found. The name of the file has nothing in it that reads as a place. -/
structure Place where
  file : List Char
  row : Numeral
  column : Numeral
  ne_nil : file ≠ []
  unbroken : Unbroken file
  not_indented : file.head?.any isBlank = false
  nameable : nul ∉ file
  no_place : ¬ HoldsPlace file

/-- A diagnostic with the lines of its message. Without a place of its own, nothing in the message reads
as one. -/
structure Printed where
  place : Option Place
  code : Numeral
  message : List Char
  further : List (List Char)
  unbroken : Unbroken message
  no_place : place = none → ¬ HoldsPlace message
  further_unbroken : ∀ line ∈ further, Unbroken line
  further_indented : ∀ line ∈ further, line.head?.any isBlank = true
  further_not_blank : ∀ line ∈ further, trim line ≠ []

namespace Printed

/-- The first line of the diagnostic. -/
def head (e : Printed) : List Char :=
  match e.place with
  | some p => p.file ++ placeText p.row.digits p.column.digits (faultText e.code.digits e.message)
  | none => faultText e.code.digits e.message

/-- The file as it is reported. -/
def fileName (cwd : List String) (root : Path) (e : Printed) : String :=
  match e.place with
  | some p => toString ((root.join (.ofString (String.ofList p.file))).resolve cwd)
  | none => "unknown"

/-- The message with its further lines, each without the blanks around it. -/
def text (e : Printed) : List Char := joinWith ['\n'] (e.message :: e.further.map trim)

/-- The entry that the diagnostic is read as. -/
def entry (e : Printed) (message : List Char) : Entry where
  location :=
    match e.place with
    | some p => .place p.file p.row.value p.column.value
    | none => .project
  code := e.code.value
  message := message

theorem entryOf_head (e : Printed) : entryOf e.head = .ok (some (e.entry e.message)) := by
  obtain ⟨place, code, message, further, -, hno, -, -, -⟩ := e
  cases place with
  | some p =>
    have hplaced : placed? (placeText p.row.digits p.column.digits (faultText code.digits message)) =
        some (p.row.digits, p.column.digits, code.digits, message) :=
      placed?_eq_some_iff.2 ⟨p.row.isDigits, p.column.isDigits, code.isDigits, rfl⟩
    have hlocated := located?_append p.ne_nil p.no_place hplaced
    simp only [head, entryOf, hlocated, code.read, p.row.read, p.column.read]
    simp [p.nameable]
    rfl
  | none =>
    have hnone : located? (faultText code.digits message) = none :=
      located?_eq_none (not_isLocated_faultText code.isDigits (hno rfl))
    simp only [head, entryOf, hnone, fault?_faultText code.isDigits, code.read]
    rfl

theorem unbroken_head (e : Printed) : Unbroken e.head := by
  have herror : Unbroken errorMark := by decide
  have hcode : Unbroken codeEnd := by decide
  have hplace : Unbroken placeEnd := by decide
  have hbracket : Unbroken ['('] := by decide
  have hcomma : Unbroken [','] := by decide
  have hfault : Unbroken (faultText e.code.digits e.message) := by
    simp only [faultText, unbroken_append_iff]
    exact ⟨herror, e.code.unbroken, hcode, e.unbroken⟩
  unfold head
  split
  · next p hp =>
    rw [unbroken_append_iff]
    refine ⟨p.unbroken, ?_⟩
    have hsplit : placeText p.row.digits p.column.digits (faultText e.code.digits e.message) =
        ['('] ++ (p.row.digits ++ ([','] ++ (p.column.digits ++
          (placeEnd ++ faultText e.code.digits e.message)))) := rfl
    simp only [hsplit, unbroken_append_iff]
    exact ⟨hbracket, p.row.unbroken, hcomma, p.column.unbroken, hplace, hfault⟩
  · exact hfault

theorem head_not_indented (e : Printed) : e.head.head?.any isBlank = false := by
  unfold head
  split
  · next p hp =>
    obtain ⟨c, rest, hfile⟩ := List.exists_cons_of_ne_nil p.ne_nil
    have hindent := p.not_indented
    rw [hfile] at hindent
    rwa [hfile]
  · rfl

theorem head_ne_nil (e : Printed) : e.head ≠ [] := by
  unfold head
  split
  · next p hp => simp [p.ne_nil]
  · exact List.cons_ne_nil _ _

end Printed

/-! ## Reading line by line -/

theorem addLine_of_not_indented {line : List Char} (h : line.head?.any isBlank = false)
    (es : List Entry) {found : Option Entry} (hfound : entryOf line = .ok found)
    (hblank : trim line = [] → found = none) : addLine es line = .ok (es ++ found.toList) := by
  unfold addLine
  split
  · next hempty => simp [hblank (by simpa using hempty)]
  · rw [if_neg (by simp [h]), hfound]
    rfl

theorem continueLast_concat (line : List Char) (es : List Entry) (e : Entry) :
    continueLast line (es ++ [e]) = es ++ [{ e with message := e.message ++ '\n' :: trim line }] := by
  induction es with
  | nil => rfl
  | cons first es ih =>
    cases es with
    | nil => rfl
    | cons second es =>
      have hcons : continueLast line (first :: (second :: es ++ [e])) =
          first :: continueLast line (second :: es ++ [e]) := rfl
      rw [List.cons_append, hcons, ih]
      rfl

theorem joinWith_eq (first : List Char) (rest : List (List Char)) :
    joinWith ['\n'] (first :: rest) = first ++ rest.flatMap ('\n' :: ·) := by
  induction rest generalizing first with
  | nil => simp [joinWith_singleton]
  | cons next rest ih => rw [joinWith_cons _ _ (by simp), ih]; simp

theorem trim_ne_nil {line : List Char} (hne : line ≠ []) (h : line.head?.any isBlank = false) :
    trim line ≠ [] := by
  intro hnil
  obtain ⟨left, right, hline, hleft, hright⟩ := exists_trim line
  obtain ⟨c, rest, rfl⟩ := List.exists_cons_of_ne_nil hne
  rw [hnil, List.nil_append] at hline
  have hmem : c ∈ left ++ right := by simp [← hline]
  have hblank : isBlank c = true := (List.mem_append.1 hmem).elim (hleft c) (hright c)
  simp [hblank] at h

/-- The further lines of a message go to the last entry. -/
theorem foldlM_further (further : List (List Char))
    (hindented : ∀ line ∈ further, line.head?.any isBlank = true)
    (hblank : ∀ line ∈ further, trim line ≠ []) (es : List Entry) (e : Entry) :
    further.foldlM addLine (es ++ [e]) =
      .ok (es ++ [{ e with message := e.message ++ (further.map trim).flatMap ('\n' :: ·) }]) := by
  induction further generalizing e with
  | nil =>
    rw [List.map_nil, List.flatMap_nil, List.append_nil]
    rfl
  | cons line further ih =>
    have hline : addLine (es ++ [e]) line =
        .ok (es ++ [{ e with message := e.message ++ '\n' :: trim line }]) := by
      rw [addLine, if_neg (by simpa using hblank line (by simp)), if_pos (hindented line (by simp)),
        continueLast_concat]
    rw [List.foldlM_cons, hline]
    refine (ih (fun l hl => hindented l (by simp [hl])) (fun l hl => hblank l (by simp [hl])) _).trans ?_
    simp

/-- A diagnostic, or a line that is neither indented nor the beginning of one. -/
inductive Piece where
  | printed (e : Printed)
  | other (line : List Char) (unbroken : Unbroken line)
    (not_indented : line.head?.any isBlank = false) (not_located : ¬ IsLocated line)
    (not_fault : ¬ IsFault line)

namespace Piece

def lines : Piece → List (List Char)
  | .printed e => e.head :: e.further
  | .other line .. => [line]

def printed? : Piece → Option Printed
  | .printed e => some e
  | .other .. => none

theorem unbroken_lines (p : Piece) : ∀ line ∈ p.lines, Unbroken line := by
  cases p with
  | printed e =>
    intro line hline
    rcases List.mem_cons.1 hline with rfl | hline
    · exact e.unbroken_head
    · exact e.further_unbroken line hline
  | other line hunbroken =>
    intro l hl
    obtain rfl := List.mem_singleton.1 hl
    exact hunbroken

/-- One piece adds the entry of its diagnostic, if it is one. -/
theorem foldlM_lines (p : Piece) (es : List Entry) :
    p.lines.foldlM addLine es = .ok (es ++ (p.printed?.map fun e => e.entry e.text).toList) := by
  cases p with
  | printed e =>
    have hhead : addLine es e.head = .ok (es ++ [e.entry e.message]) :=
      addLine_of_not_indented e.head_not_indented es e.entryOf_head
        fun h => absurd h (trim_ne_nil e.head_ne_nil e.head_not_indented)
    rw [lines, List.foldlM_cons, hhead]
    refine (foldlM_further e.further e.further_indented e.further_not_blank es _).trans ?_
    rw [printed?, Option.map_some, Printed.text, joinWith_eq]
    rfl
  | other line _ hindented hlocated hfault =>
    have hnone : entryOf line = .ok none := by
      simp only [entryOf, located?_eq_none hlocated, fault?_eq_none_iff.2 hfault]
      rfl
    have hline : addLine es line = .ok (es ++ []) :=
      addLine_of_not_indented hindented es hnone fun _ => rfl
    rw [lines, List.foldlM_cons, hline]
    rfl

end Piece

/-- Reading the lines of the pieces adds the entries of their diagnostics in order. -/
theorem foldlM_pieces (pieces : List Piece) (es : List Entry) :
    (pieces.flatMap Piece.lines).foldlM addLine es =
      .ok (es ++ (pieces.filterMap Piece.printed?).map fun e => e.entry e.text) := by
  induction pieces generalizing es with
  | nil =>
    rw [List.filterMap_nil, List.map_nil, List.append_nil]
    rfl
  | cons p pieces ih =>
    rw [List.flatMap_cons, List.foldlM_append, p.foldlM_lines]
    refine (ih _).trans ?_
    cases p <;> simp [Piece.printed?, List.filterMap_cons]

/-- A report that was printed is read back: every diagnostic comes out once, in order, with its code,
the file seen from the project and the lines of its message. -/
theorem diagnostics_printed (disk : Disk) (root : Path) (pieces : List Piece) {output : List Char}
    (houtput : Lined (pieces.flatMap Piece.lines) output) :
    ∃ ds, diagnostics disk root output = .ok ds ∧
      ds.map (fun d => (d.code, d.file, d.message)) =
        (pieces.filterMap Piece.printed?).map fun e =>
          ((e.code.value : Int), e.fileName disk.cwd (root.resolve disk.cwd), String.ofList e.text) := by
  have hlines : lines output = pieces.flatMap Piece.lines := by
    refine lines_of_lined houtput fun line hline => ?_
    obtain ⟨p, -, hline⟩ := List.mem_flatMap.1 hline
    exact p.unbroken_lines line hline
  have hentries : entries output =
      .ok ((pieces.filterMap Piece.printed?).map fun e => e.entry e.text) := by
    rw [entries, hlines, foldlM_pieces, List.nil_append]
  rw [diagnostics, hentries]
  refine ⟨_, rfl, ?_⟩
  rw [List.map_map, List.map_map]
  refine List.map_congr_left fun e _ => ?_
  cases h : e.place <;>
    simp [Function.comp_apply, Entry.diagnostic, Entry.file, Printed.entry, Printed.fileName, h, noFile]

/-- A message of two lines for a file in a directory with brackets, a line of another kind, and a message
without a place. -/
def sample : List Piece :=
  [.printed {
     place := some {
       file := "app/(auth)/page.tsx".toList
       row := ⟨['2'], by decide, List.all_iff_forall_prop.1 (by decide), by decide⟩
       column := ⟨['0', '3'], by decide, List.all_iff_forall_prop.1 (by decide), by decide⟩
       ne_nil := by decide
       unbroken := by decide
       not_indented := by decide
       nameable := by decide
       no_place := by decide +kernel }
     code := ⟨['2', '3', '2', '2'], by decide, List.all_iff_forall_prop.1 (by decide), by decide⟩
     message := "No match.".toList
     further := ["  Not B.".toList]
     unbroken := by decide
     no_place := by simp
     further_unbroken := by decide
     further_indented := by decide
     further_not_blank := by decide },
   .other "done".toList (by decide) (by decide) (by decide) (by decide),
   .printed {
     place := none
     code := ⟨['5', '0', '8', '3'], by decide, List.all_iff_forall_prop.1 (by decide), by decide⟩
     message := "None.".toList
     further := []
     unbroken := by decide
     no_place := fun _ => by decide
     further_unbroken := by decide
     further_indented := by decide
     further_not_blank := by decide }]

def sampleOutput : List Char :=
  "app/(auth)/page.tsx(2,03): error TS2322: No match.".toList ++ '\n' ::
    ("  Not B.".toList ++ '\r' :: '\n' :: ("done".toList ++ '\n' :: "error TS5083: None.".toList))

theorem diagnostics_printed_sample : Lined (sample.flatMap Piece.lines) sampleOutput ∧
    ∃ ds, diagnostics ⟨["w"], []⟩ (.ofString "p") sampleOutput = .ok ds ∧
      ds.map (fun d => (d.code, d.file, d.message)) =
        [(2322, "/w/p/app/(auth)/page.tsx", "No match.\nNot B."), (5083, "unknown", "None.")] := by
  have hlines : sample.flatMap Piece.lines =
      ["app/(auth)/page.tsx(2,03): error TS2322: No match.".toList, "  Not B.".toList, "done".toList,
        "error TS5083: None.".toList] := by decide +kernel
  have hlined : Lined (sample.flatMap Piece.lines) sampleOutput := by
    rw [hlines]
    exact .feed _ (.crlf _ (.feed _ (.last (by decide))))
  obtain ⟨ds, hds, hmap⟩ := diagnostics_printed ⟨["w"], []⟩ (.ofString "p") sample hlined
  exact ⟨hlined, ds, hds, hmap.trans (by decide +kernel)⟩

/-- A name that no file can have ends the reading, and digits of another script make a place as well. -/
theorem diagnostics_not_printed :
    (Unbroken "a\x00b".toList ∧ ¬ HoldsPlace "a\x00b".toList ∧
      ∀ ds, diagnostics ⟨["w"], []⟩ (.ofString "p") "a\x00b(1,2): error TS1: m\n".toList ≠ .ok ds) ∧
    ∃ ds, diagnostics ⟨["w"], []⟩ (.ofString "p") "x(١,١): error TS١: y(1,2): error TS1: m\n".toList =
        .ok ds ∧
      ds.map (fun d => (d.code, d.file, d.message)) =
        [(1, "/w/p/x", "y(1,2): error TS1: m")] := by
  have hnul : diagnostics ⟨["w"], []⟩ (.ofString "p") "a\x00b(1,2): error TS1: m\n".toList =
      .error .notAName := by decide +kernel
  refine ⟨⟨by decide, by decide, fun ds h => ?_⟩, _, rfl, by decide +kernel⟩
  rw [hnul] at h
  cases h

end Codemod.Report
