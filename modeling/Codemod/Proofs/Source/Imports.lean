import Codemod.Proofs.Source.Found
import Codemod.Proofs.Source.Rendered

/-! The declarations of a text. Where one stands, the text in front of it is settled: the declarations
found there are the same whatever is written from its place on. -/
namespace Codemod.Source
open Text

/-! ## In front of a declaration -/

theorem importDecl_of_behind {behind : Option Char} (h : behind.any (· != '\n') = false)
    (cs : List Char) : importDecl behind cs = importDecl none cs := by
  simp [importDecl, h]

theorem importDecl_eq_none {behind : Option Char} (h : behind.any (· != '\n') = true)
    (cs : List Char) : importDecl behind cs = none := by
  simp [importDecl, h]

theorem wordWithBlanks?_eq_none {word line : List Char} (hline : ∃ c ∈ line, c ∉ word)
    (hnone : wordWithBlanks? word line = none) (rest : List Char) :
    wordWithBlanks? word (line ++ rest) = none := by
  unfold wordWithBlanks? at hnone ⊢
  rw [after?_append hline]
  cases hafter : after? word line with
  | none => rfl
  | some behind =>
    obtain ⟨c, hc, hword⟩ := hline
    rw [after?_eq_some_iff.1 hafter, List.mem_append] at hc
    cases behind with
    | nil => simp [hword] at hc
    | cons d behind =>
      rw [hafter, Option.bind_some] at hnone
      have hd : isBlank d = false := by
        by_contra hd
        simp [hd] at hnone
      simp [hd]

/-- A declaration that begins on a line and goes on through the whole of another one. -/
def Shape.begunAt (s : Shape) (indent : List Char) (blank : Char) (front : List Char)
    (hindent : ∀ c ∈ indent, isSpaceOrTab c = true) (hblank : isBlank blank = true)
    (hfront : ∀ c ∈ front, endsClause c = false) : Shape :=
  { s with
    indent, blank
    clause := front ++ (s.indent ++ (importWord ++ s.blank :: s.clause))
    indent_space := hindent
    isBlank_blank := hblank
    clause_plain := by
      intro c hc
      simp only [List.mem_append, List.mem_cons] at hc
      rcases hc with hc | hc | hc | rfl | hc
      · exact hfront c hc
      · exact (inner_of_isBlank (isBlank_of_isSpaceOrTab (s.indent_space c hc))).2
      · exact endsClause_importWord c hc
      · exact (inner_of_isBlank s.isBlank_blank).2
      · exact s.clause_plain c hc }

/-- A line that holds nothing which ends a clause either begins no declaration, whatever follows, or
begins one that goes on behind it. -/
theorem importDecl_line {line : List Char} (hline : '\n' ∈ line)
    (hplain : ∀ c ∈ line, endsClause c = false) (s : Shape) (tail : List Char) :
    (∀ rest, importDecl none (line ++ rest) = none) ∨
      ∃ d n, importDecl none (line ++ s.before tail) = some (d, n) ∧ line.length < n := by
  have hsplit : line = line.takeWhile isSpaceOrTab ++ line.dropWhile isSpaceOrTab :=
    List.takeWhile_append_dropWhile.symm
  have hdrop (rest : List Char) :
      (line ++ rest).dropWhile isSpaceOrTab = line.dropWhile isSpaceOrTab ++ rest :=
    dropWhile_append_of_mem ⟨'\n', hline, by decide⟩ rest
  have hin : '\n' ∈ line.dropWhile isSpaceOrTab := by
    rw [hsplit, List.mem_append] at hline
    refine hline.resolve_left fun hm => ?_
    exact absurd (List.mem_takeWhile_imp hm) (by decide)
  cases hword : wordWithBlanks? importWord (line.dropWhile isSpaceOrTab) with
  | none =>
    left
    intro rest
    rw [importDecl_eq, hdrop, wordWithBlanks?_eq_none ⟨'\n', hin, by decide⟩ hword]
    rfl
  | some found =>
    right
    obtain ⟨n, rest⟩ := found
    obtain ⟨c, gap, hcs, hc, hgap, -⟩ := eq_append_of_wordWithBlanks? hword
    have hrest : ∀ c ∈ gap ++ rest, endsClause c = false := by
      intro d hd
      apply hplain
      rw [hsplit, hcs]
      simp only [List.mem_append, List.mem_cons] at hd ⊢
      tauto
    have hwhole : line ++ s.before tail = (s.begunAt (line.takeWhile isSpaceOrTab) c (gap ++ rest)
        (fun c hc => List.mem_takeWhile_imp hc) hc hrest).before tail := by
      conv_lhs => rw [hsplit, hcs]
      simp [Shape.before, Shape.begunAt]
    obtain ⟨_, _, _, -, -, -, hread⟩ := Shape.importDecl_before (s.begunAt _ c (gap ++ rest)
      (fun c hc => List.mem_takeWhile_imp hc) hc hrest) tail
    refine ⟨_, _, hwhole ▸ hread, ?_⟩
    have hlen := congrArg List.length hsplit
    rw [hcs] at hlen
    rw [Shape.length_text]
    simp [Shape.begunAt, importWord] at hlen ⊢
    omega

/-- A declaration that stands behind a line and is not taken by one that begins there settles what the
line begins. -/
theorem importDecl_line_append {line : List Char} (hline : line.getLast? = some '\n') {s : Shape}
    {tail : List Char} (h : ∀ d n, importDecl none (line ++ s.before tail) = some (d, n) →
      n ≤ line.length) (rest : List Char) :
    importDecl none (line ++ rest) = importDecl none (line ++ s.before tail) := by
  -- either the line itself ends every clause, or a declaration begun on it takes in the one behind
  by_cases hbounded : Bounded line
  · obtain ⟨init, rfl⟩ := List.getLast?_eq_some_iff.1 hline
    have hinit : Bounded init := by
      obtain ⟨c, hc, hends⟩ := hbounded
      refine ⟨c, (List.mem_append.1 hc).resolve_right fun hm => ?_, hends⟩
      obtain rfl : c = '\n' := by simpa using hm
      exact absurd hends (by decide)
    have hsame (rest : List Char) :
        importDecl none ((init ++ ['\n']) ++ rest) = importDecl none init := by
      rw [List.append_assoc]
      exact hinit.importDecl_append (by simp [AtLineEnd])
    rw [hsame, hsame]
  · have hplain : ∀ c ∈ line, endsClause c = false := by
      intro c hc
      by_contra hends
      exact hbounded ⟨c, hc, by simpa using hends⟩
    rcases importDecl_line (List.mem_of_mem_getLast? hline) hplain s tail with hnone | ⟨d, n, hread, hlt⟩
    · rw [hnone, hnone]
    · exact absurd (h d n hread) (by omega)

/-- What is found in front of a place is the same whatever is written from the place on. -/
def Settled (pos skip : Nat) (behind : Option Char) (front : List Char) : Prop :=
  ∃ found, (∀ g ∈ found, g.start < pos + front.length) ∧ ∀ rest,
    foundFrom importDecl pos skip behind (front ++ rest) =
      found ++ foundFrom importDecl (pos + front.length) 0 (lastOr behind front) rest

theorem Settled.cons {pos skip k : Nat} {behind : Option Char} {c : Char} {front : List Char}
    (h : Settled (pos + 1) k (some c) front) (new : List (Found ImportDecl))
    (hnew : ∀ g ∈ new, g.start = pos)
    (hfirst : ∀ rest, foundFrom importDecl pos skip behind (c :: (front ++ rest)) =
      new ++ foundFrom importDecl (pos + 1) k (some c) (front ++ rest)) :
    Settled pos skip behind (c :: front) := by
  obtain ⟨found, hfound, hrest⟩ := h
  refine ⟨new ++ found, fun g hg => ?_, fun rest => ?_⟩
  · rw [List.length_cons]
    rcases List.mem_append.1 hg with hg | hg
    · have := hnew g hg
      omega
    · have := hfound g hg
      omega
  · rw [List.cons_append, hfirst, hrest, lastOr_cons, List.length_cons, List.append_assoc]
    congr 3
    omega

/-- A declaration settles what is found in front of it. -/
theorem settled_front {front : List Char} (hfront : front = [] ∨ front.getLast? = some '\n')
    {s : Shape} {tail : List Char} {pos skip : Nat} {behind : Option Char} {f : Found ImportDecl}
    (hf : f ∈ foundFrom importDecl pos skip behind (front ++ s.before tail))
    (hstart : f.start = pos + front.length) : Settled pos skip behind front := by
  -- along the scan of the text in front; what is still skipped there belongs to an earlier declaration
  induction front generalizing pos skip behind with
  | nil =>
    obtain rfl : skip = 0 := by
      have hskip := (isPlace_of_mem_foundFrom hf).2
      simp at hstart
      omega
    exact ⟨[], by simp, fun rest => rfl⟩
  | cons c front ih =>
    have hfront' : front = [] ∨ front.getLast? = some '\n' := by
      cases front with
      | nil => exact .inl rfl
      | cons d front => exact .inr (by simpa using hfront)
    have hlast : (c :: front).getLast? = some '\n' := hfront.resolve_left (by simp)
    rw [List.length_cons] at hstart
    cases skip with
    | succ k => exact (ih hfront' hf (by omega)).cons [] (by simp) fun rest => rfl
    | zero =>
      have hsame (h : ∀ d n, importDecl behind (c :: front ++ s.before tail) = some (d, n) →
          n ≤ (c :: front).length) (rest : List Char) : importDecl behind (c :: (front ++ rest)) =
            importDecl behind (c :: (front ++ s.before tail)) := by
        by_cases hbehind : behind.any (· != '\n') = true
        · rw [importDecl_eq_none hbehind, importDecl_eq_none hbehind]
        · have hbehind' : behind.any (· != '\n') = false := by simpa using hbehind
          simp only [importDecl_of_behind hbehind'] at h ⊢
          exact importDecl_line_append hlast h rest
      rw [List.cons_append, foundFrom] at hf
      split at hf
      · next d n hread =>
        rcases List.mem_cons.1 hf with rfl | hf
        · dsimp only at hstart
          omega
        · have hn : n ≤ (c :: front).length := by
            have hskip := (isPlace_of_mem_foundFrom hf).2
            rw [List.length_cons]
            omega
          refine (ih hfront' hf (by omega)).cons [⟨pos, n, d⟩] (by simp) fun rest => ?_
          have hread' := (hsame (fun d' n' h => ?_) rest).trans hread
          · rw [foundFrom, hread']
            rfl
          · rw [List.cons_append, hread] at h
            cases h
            exact hn
      · next hread =>
        refine (ih hfront' hf (by omega)).cons [] (by simp) fun rest => ?_
        have hread' := (hsame (fun d' n' h => ?_) rest).trans hread
        · rw [foundFrom, hread']
          rfl
        · rw [List.cons_append, hread] at h
          cases h

/-! ## Behind a declaration -/

/-- The declarations of a text, without their places. -/
def declarations (text : List Char) : List ImportDecl := (imports text).map (·.value)

theorem foundFrom_line (pos : Nat) (cs : List Char) :
    foundFrom importDecl pos 0 (some '\n') cs = foundFrom importDecl pos 0 none cs := by
  cases cs with
  | nil => rfl
  | cons c cs => rw [foundFrom, foundFrom, importDecl_of_behind (by decide : (some '\n').any _ = false)]

/-- From the beginning of a line on, the declarations are those of what follows. -/
theorem map_value_foundFrom_line {behind : Option Char} (h : behind.any (· != '\n') = false)
    (pos : Nat) (cs : List Char) :
    (foundFrom importDecl pos 0 behind cs).map (·.value) = declarations cs := by
  have hbehind : behind = none ∨ behind = some '\n' := by
    cases behind with
    | none => exact .inl rfl
    | some c => exact .inr (by simpa using h)
  rcases hbehind with rfl | rfl
  · exact map_value_foundFrom _ _ _ _ _ _
  · rw [foundFrom_line]
    exact map_value_foundFrom _ _ _ _ _ _

theorem importDecl_line_feed (cs : List Char) : importDecl none ('\n' :: cs) = none := by
  have hdrop : ('\n' :: cs).dropWhile isSpaceOrTab = '\n' :: cs := rfl
  rw [importDecl_eq, hdrop]
  rfl

theorem declarations_line_feed (cs : List Char) : declarations ('\n' :: cs) = declarations cs := by
  rw [declarations, imports, found, foundFrom, importDecl_line_feed]
  exact map_value_foundFrom_line (by decide) _ _

theorem declarations_drop_one {cs : List Char} (h : AtLineEnd cs) :
    declarations (cs.drop 1) = declarations cs := by
  cases cs with
  | nil => rfl
  | cons c cs =>
    obtain rfl : c = '\n' := h c rfl
    exact (declarations_line_feed cs).symm

theorem dropWhile_line {line tail : List Char} (hline : '\n' ∉ line) (htail : AtLineEnd tail) :
    (line ++ tail).dropWhile (· != '\n') = tail := by
  refine dropWhile_span (fun c hc => bne_iff_ne.2 fun heq => hline (heq ▸ hc)) fun c hc => ?_
  simp [htail c hc]

/-- Inside a line no declaration begins. -/
theorem map_value_foundFrom_inside {behind : Option Char} (h : behind.any (· != '\n') = true)
    (pos : Nat) (cs : List Char) : (foundFrom importDecl pos 0 behind cs).map (·.value) =
      declarations (cs.dropWhile (· != '\n')) := by
  induction cs generalizing pos behind with
  | nil => rfl
  | cons c cs ih =>
    rw [foundFrom, importDecl_eq_none h, List.dropWhile_cons]
    by_cases hc : c = '\n'
    · subst hc
      rw [if_neg (by decide), declarations_line_feed]
      exact map_value_foundFrom_line (by decide) _ _
    · rw [if_pos (by simpa using hc)]
      exact ih (by simpa using hc) _

/-- What a declaration takes of a text ends with its last quote or a semicolon. -/
theorem Shape.exists_last (s : Shape) (tail : List Char) : ∃ init c,
    s.text ++ tail.take (semicolonLength tail) = init ++ [c] ∧ (isQuote c = true ∨ c = ';') := by
  have htext : s.text = (s.indent ++ (importWord ++ s.blank :: (s.clause ++
      (fromWord ++ (s.gap ++ s.quote :: s.module))))) ++ [s.quote] := by
    simp [text, before, moduleText]
  generalize s.indent ++ (importWord ++ s.blank :: (s.clause ++
      (fromWord ++ (s.gap ++ s.quote :: s.module)))) = front at htext
  by_cases hsemicolon : hasSemicolon tail = true
  · obtain ⟨rest, hrest⟩ := List.head?_eq_some_iff.1 (beq_iff_eq.1 hsemicolon)
    have htail : tail = tail.takeWhile isSpaceOrTab ++ ';' :: rest := by
      rw [← hrest, drop_length_takeWhile, List.takeWhile_append_dropWhile]
    refine ⟨s.text ++ tail.takeWhile isSpaceOrTab, ';', ?_, .inr rfl⟩
    rw [semicolonLength, if_pos hsemicolon]
    conv_lhs =>
      arg 2
      arg 2
      rw [htail]
    rw [List.take_append, List.take_of_length_le (by omega)]
    simp
  · refine ⟨front, s.quote, ?_, .inl s.isQuote_quote⟩
    rw [semicolonLength, if_neg hsemicolon, List.take_zero, List.append_nil, htext]

theorem getLast?_of_importDecl {cs rest : List Char} {d : ImportDecl}
    (h : importDecl none (cs ++ rest) = some (d, cs.length)) :
    ∃ init c, cs = init ++ [c] ∧ (isQuote c = true ∨ c = ';') := by
  obtain ⟨s, tail, heq⟩ := exists_shape_of_importDecl h
  rw [heq] at h
  have hlen := (Shape.renderable h).2.2.2.2
  obtain ⟨init, c, hlast, hc⟩ := s.exists_last tail
  refine ⟨init, c, ?_, hc⟩
  have hcs : cs = (s.text ++ tail).take cs.length := by rw [s.text_append, ← heq, List.take_left]
  rw [← hlast, hcs, hlen, List.take_append, List.take_of_length_le (by omega)]
  congr 2
  omega

theorem lastOr_of_importDecl {cs rest : List Char} {d : ImportDecl}
    (h : importDecl none (cs ++ rest) = some (d, cs.length)) (behind : Option Char) :
    (lastOr behind cs).any (· != '\n') = true := by
  obtain ⟨init, c, rfl, hc⟩ := getLast?_of_importDecl h
  have hne : c ≠ '\n' := by
    rcases hc with hc | rfl
    · rintro rfl
      exact absurd hc (by decide)
    · decide
  rw [lastOr_append]
  simpa using hne

/-- A declaration and those behind its line. -/
theorem foundFrom_declaration {behind : Option Char} (hbehind : behind.any (· != '\n') = false)
    {cs rest : List Char} {d : ImportDecl} (h : importDecl none (cs ++ rest) = some (d, cs.length))
    (pos : Nat) : ∃ after, foundFrom importDecl pos 0 behind (cs ++ rest) = ⟨pos, cs.length, d⟩ :: after ∧
      after.map (·.value) = declarations (rest.dropWhile (· != '\n')) := by
  refine ⟨foundFrom importDecl (pos + cs.length) 0 (lastOr behind cs) rest, ?_,
    map_value_foundFrom_inside (lastOr_of_importDecl h behind) _ _⟩
  obtain ⟨init, last, rfl, -⟩ := getLast?_of_importDecl h
  cases init with
  | nil =>
    rw [List.nil_append, List.singleton_append] at h ⊢
    rw [foundFrom, importDecl_of_behind hbehind, h]
    rfl
  | cons c init =>
    have hskip := foundFrom_skip importDecl (pos + 1) (some c) (init ++ [last]) rest
    rw [List.cons_append, List.cons_append] at h ⊢
    rw [foundFrom, importDecl_of_behind hbehind, h]
    dsimp only
    rw [lastOr_cons, show (c :: (init ++ [last])).length - 1 = (init ++ [last]).length from rfl, hskip,
      List.length_cons]
    congr 2
    omega

end Codemod.Source
