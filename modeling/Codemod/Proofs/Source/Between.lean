import Codemod.Proofs.Source.Flush
import Codemod.Proofs.Source.Repoint
import Codemod.Proofs.Source.Reread

/-! The declarations of a text and what stands between them. When declarations are written anew, the text
between them stays; for another module, they keep their names with few exceptions. -/
namespace Codemod.Source
open Text

/-! ## The first declaration -/

/-- Only whether a line begins at a place matters to what is found from there on. -/
theorem foundFrom_behind {behind behind' : Option Char}
    (h : behind.any (· != '\n') = behind'.any (· != '\n')) (pos : Nat) (cs : List Char) :
    foundFrom importDecl pos 0 behind cs = foundFrom importDecl pos 0 behind' cs := by
  cases cs with
  | nil => rfl
  | cons c cs =>
    have hread : importDecl behind (c :: cs) = importDecl behind' (c :: cs) := by
      unfold importDecl
      rw [h]
    rw [foundFrom, foundFrom, hread]

/-- Offsets are counted from wherever one likes. -/
theorem foundFrom_shift (r : Recogniser α) (k pos skip : Nat) (behind : Option Char) (cs : List Char) :
    foundFrom r (k + pos) skip behind cs =
      (foundFrom r pos skip behind cs).map fun f => { f with start := k + f.start } := by
  induction cs generalizing pos skip behind with
  | nil => rfl
  | cons c cs ih =>
    cases skip with
    | succ n => exact ih (pos + 1) n (some c)
    | zero =>
      rw [foundFrom, foundFrom]
      cases r behind (c :: cs) with
      | none => exact ih (pos + 1) 0 (some c)
      | some read => exact congrArg (⟨k + pos, read.2, read.1⟩ :: ·) (ih (pos + 1) _ (some c))

/-- A declaration and what is found behind it. -/
theorem foundFrom_written {behind : Option Char} (hbehind : behind.any (· != '\n') = false)
    {cs rest : List Char} {d : ImportDecl} (h : importDecl none (cs ++ rest) = some (d, cs.length))
    (pos : Nat) : foundFrom importDecl pos 0 behind (cs ++ rest) =
      ⟨pos, cs.length, d⟩ :: foundFrom importDecl (pos + cs.length) 0 (lastOr behind cs) rest := by
  obtain ⟨init, last, rfl, -⟩ := getLast?_of_importDecl h
  cases init with
  | nil =>
    rw [List.nil_append, List.singleton_append] at h ⊢
    rw [foundFrom, importDecl_of_behind hbehind, h]
    rfl
  | cons c init =>
    have hskip := foundFrom_skip importDecl (pos + 1) (some c) (init ++ [last]) rest
    rw [List.cons_append, List.cons_append] at h ⊢
    rw [foundFrom, importDecl_of_behind hbehind, h]
    dsimp only
    rw [lastOr_cons, show (c :: (init ++ [last])).length - 1 = (init ++ [last]).length from rfl, hskip,
      List.length_cons]
    congr 2
    omega

/-- A text up to its first declaration, when it is read behind some character. What is found from the
declaration on does not depend on what stands in front of it. -/
structure First (behind : Option Char) (cs : List Char) where
  front : List Char
  written : List Char
  rest : List Char
  value : ImportDecl
  text_eq : cs = front ++ (written ++ rest)
  read : importDecl none (written ++ rest) = some (value, written.length)
  line : behind.any (· != '\n') = true → '\n' ∈ front
  found_eq : ∀ (pos : Nat) {behind' : Option Char} {written' rest' : List Char} {value' : ImportDecl},
    behind'.any (· != '\n') = behind.any (· != '\n') →
    importDecl none (written' ++ rest') = some (value', written'.length) →
    foundFrom importDecl pos 0 behind' (front ++ (written' ++ rest')) =
      ⟨pos + front.length, written'.length, value'⟩ ::
        foundFrom importDecl (pos + front.length + written'.length) 0 (some ';') rest'

/-- A text holds no declaration, or a first one. -/
theorem nonempty_first (behind : Option Char) (cs : List Char) :
    (∀ (pos : Nat) {behind' : Option Char}, behind'.any (· != '\n') = behind.any (· != '\n') →
      foundFrom importDecl pos 0 behind' cs = []) ∨ Nonempty (First behind cs) := by
  cases hfound : foundFrom importDecl 0 0 behind cs with
  | nil =>
    refine .inl fun pos behind' hbehind => ?_
    have hshift := foundFrom_shift importDecl pos 0 0 behind cs
    rw [hfound, Nat.add_zero] at hshift
    rw [foundFrom_behind hbehind, hshift, List.map_nil]
  | cons f fs =>
    have hf : f ∈ foundFrom importDecl 0 0 behind cs := by simp [hfound]
    obtain ⟨front, tail, rfl, hstart, hread⟩ := (isPlace_of_mem_foundFrom hf).1
    have hline : (lastOr behind front).any (· != '\n') = false := by
      by_contra hne
      rw [importDecl_eq_none (by simpa using hne)] at hread
      cases hread
    rw [importDecl_of_behind hline] at hread
    have hlen : f.length ≤ tail.length := length_le_of_importDecl hread
    have hlast : front = [] ∨ front.getLast? = some '\n' := by
      cases h : front.getLast? with
      | none => exact .inl (List.getLast?_eq_none_iff.1 h)
      | some c => exact .inr (by simpa [lastOr, h] using hline)
    obtain ⟨s, after, rfl⟩ := exists_shape_of_importDecl hread
    refine .inr ⟨front, (s.before after).take f.length, (s.before after).drop f.length, f.value, ?_, ?_,
      fun hbehind => ?_, ?_⟩
    · rw [List.take_append_drop]
    · rw [List.take_append_drop, hread]
      simp [hlen]
    · rcases hlast with rfl | hlast
      · rw [lastOr_nil, hbehind] at hline
        cases hline
      · exact List.mem_of_getLast? hlast
    · intro pos behind' written' rest' value' hbehind hread'
      have hline' : (lastOr behind' front).any (· != '\n') = false := by
        rcases hlast with rfl | hlast
        · rw [lastOr_nil, hbehind]
          exact hline
        · simp [lastOr, hlast]
      have hshift := foundFrom_shift importDecl pos 0 0 behind (front ++ s.before after)
      rw [hfound, List.map_cons, Nat.add_zero, ← foundFrom_behind hbehind] at hshift
      obtain ⟨found, hbefore, heq⟩ := settled_front hlast (f := { f with start := pos + f.start })
        (by rw [hshift]; exact List.mem_cons_self) (by dsimp only; omega)
      -- nothing is found in front of the first one
      cases found with
      | cons g found =>
        have hg := hbefore g (by simp)
        rw [heq, List.cons_append] at hshift
        rw [(List.cons.inj hshift).1] at hg
        dsimp only at hg
        omega
      | nil =>
        have hinside := lastOr_of_importDecl hread' (lastOr behind' front)
        rw [heq, List.nil_append, foundFrom_written hline' hread',
          foundFrom_behind (hinside.trans (by decide : true = (some ';').any (· != '\n')))]

/-! ## What stands between declarations -/

/-- What stands in front of each of some places, and behind the last. -/
def gapsFrom (cursor : Nat) (cs : List Char) : List (Found α) → List (List Char)
  | [] => [cs]
  | f :: fs => cs.take (f.start - cursor) :: gapsFrom f.stop (cs.drop (f.stop - cursor)) fs

/-- The text between the declarations. -/
def gaps (text : List Char) : List (List Char) := gapsFrom 0 text (imports text)

theorem gapsFrom_cons (pos : Nat) (front written rest : List Char) (value : α) (fs : List (Found α)) :
    gapsFrom pos (front ++ (written ++ rest)) (⟨pos + front.length, written.length, value⟩ :: fs) =
      front :: gapsFrom (pos + front.length + written.length) rest fs := by
  have hfront : pos + front.length - pos = front.length := by omega
  have hboth : pos + front.length + written.length - pos = (front ++ written).length := by
    rw [List.length_append]
    omega
  rw [gapsFrom, Found.stop]
  dsimp only
  rw [hfront, List.take_left, hboth, ← List.append_assoc, List.drop_left]

theorem hasSemicolon_line {front : List Char} (h : '\n' ∈ front) (rest rest' : List Char) :
    hasSemicolon (front ++ rest) = hasSemicolon (front ++ rest') := by
  obtain ⟨line, tail, rfl⟩ := List.append_of_mem h
  have hsame (rest : List Char) :
      hasSemicolon ((line ++ '\n' :: tail) ++ rest) = hasSemicolon line := by
    rw [List.append_assoc]
    exact (hasSemicolon_append line (by simp [AtLineEnd])).1
  rw [hsame, hsame]

/-- The semicolon of a declaration, with the blanks in front of it, and what follows it. -/
theorem semicolon_cases (tail : List Char) :
    (hasSemicolon tail = false ∧ semicolonLength tail = 0) ∨ ∃ gap rest, tail = gap ++ ';' :: rest ∧
      (∀ c ∈ gap, isSpaceOrTab c = true) := by
  by_cases h : hasSemicolon tail = true
  · obtain ⟨rest, hrest⟩ := List.head?_eq_some_iff.1 (beq_iff_eq.1 h)
    rw [drop_length_takeWhile] at hrest
    refine .inr ⟨tail.takeWhile isSpaceOrTab, rest, ?_, fun c hc => List.mem_takeWhile_imp hc⟩
    rw [← hrest, List.takeWhile_append_dropWhile]
  · exact .inl ⟨by simpa using h, by simp [semicolonLength, h]⟩

theorem hasSemicolon_gap {gap : List Char} (h : ∀ c ∈ gap, isSpaceOrTab c = true) (rest : List Char) :
    hasSemicolon (gap ++ ';' :: rest) = true ∧ semicolonLength (gap ++ ';' :: rest) = gap.length + 1 := by
  have hrun : (gap ++ ';' :: rest).takeWhile isSpaceOrTab = gap := takeWhile_span h (by simp [isSpaceOrTab])
  have hsemicolon : hasSemicolon (gap ++ ';' :: rest) = true := by
    rw [hasSemicolon, hrun, List.drop_left]
    rfl
  exact ⟨hsemicolon, by rw [semicolonLength, if_pos hsemicolon, hrun]⟩

/-- What stands behind a declaration matters to it only when a semicolon does. -/
theorem importDecl_rest {written rest rest' : List Char} {d : ImportDecl}
    (h : importDecl none (written ++ rest) = some (d, written.length))
    (hsame : hasSemicolon rest' = hasSemicolon rest) :
    importDecl none (written ++ rest') = some (d, written.length) := by
  obtain ⟨s, tail, heq⟩ := exists_shape_of_importDecl h
  rw [heq, s.importDecl_cutType] at h
  have hlen : s.text.length + semicolonLength tail = written.length := congrArg Prod.snd (Option.some.inj h)
  rw [← s.text_append] at heq
  rcases semicolon_cases tail with ⟨hnone, hzero⟩ | ⟨gap, after, rfl, hgap⟩
  · obtain ⟨rfl, rfl⟩ := List.append_inj heq (by omega)
    have hzero' : semicolonLength rest' = 0 := by simp [semicolonLength, hsame, hnone]
    rw [s.text_append, s.importDecl_cutType, hsame, hzero', ← hzero]
    exact h
  · rw [(hasSemicolon_gap hgap after).2] at hlen
    have hsplit : s.text ++ (gap ++ ';' :: after) = (s.text ++ (gap ++ [';'])) ++ after := by simp
    rw [hsplit] at heq
    obtain ⟨rfl, rfl⟩ := List.append_inj heq (by simp; omega)
    have hbefore : (s.text ++ (gap ++ [';'])) ++ rest' = s.before (gap ++ ';' :: rest') := by
      rw [← s.text_append]
      simp
    rw [hbefore, s.importDecl_cutType, (hasSemicolon_gap hgap rest').1, (hasSemicolon_gap hgap rest').2]
    rw [(hasSemicolon_gap hgap rest).1, (hasSemicolon_gap hgap rest).2] at h
    exact h

/-! ## Declarations written anew -/

/-- What is written in the place of each declaration, or nothing for one that stays. -/
abbrev Rewrite := ImportDecl → Option (List Char)

def Rewrite.edits (new : Rewrite) (fs : List (Found ImportDecl)) : List Edit :=
  fs.filterMap fun f => (new f.value).map fun text => ⟨f.start, f.stop, text⟩

/-- Whatever is written for a declaration reads as one that is related to it. -/
structure Rewrite.Rereads (new : Rewrite) (R : ImportDecl → ImportDecl → Prop) : Prop where
  kept : ∀ {d}, d.IsRead → new d = none → R d d
  written : ∀ {d text}, d.IsRead → new d = some text → ∀ {tail},
    (d.semicolon = false → hasSemicolon tail = false) →
      ∃ d', importDecl none (text ++ tail) = some (d', text.length) ∧ R d d'

namespace Rewrite

theorem start_le_of_mem_edits {new : Rewrite} {pos : Nat} {behind : Option Char} {cs : List Char} {e : Edit}
    (he : e ∈ new.edits (foundFrom importDecl pos 0 behind cs)) : pos ≤ e.start ∧ e.start ≤ e.stop := by
  obtain ⟨f, hf, hnew⟩ := List.mem_filterMap.1 he
  obtain ⟨text, -, rfl⟩ := Option.map_eq_some_iff.1 hnew
  exact ⟨(start_mem_foundFrom hf).1, Nat.le_add_right _ _⟩

/-- When declarations are written anew, the text between them stays. -/
theorem Rereads.spliceFrom {new : Rewrite} {R : ImportDecl → ImportDecl → Prop} (h : new.Rereads R)
    (pos : Nat) (behind : Option Char) (cs : List Char) :
    ∃ cs', Source.spliceFrom pos cs (new.edits (foundFrom importDecl pos 0 behind cs)) = cs' ∧
      (behind.any (· != '\n') = true → hasSemicolon cs' = hasSemicolon cs) ∧
      ∀ (pos' : Nat) (behind' : Option Char), behind'.any (· != '\n') = behind.any (· != '\n') →
        gapsFrom pos' cs' (foundFrom importDecl pos' 0 behind' cs') =
          gapsFrom pos cs (foundFrom importDecl pos 0 behind cs) ∧
        ((foundFrom importDecl pos 0 behind cs).map (·.value)).Forall₂ R
          ((foundFrom importDecl pos' 0 behind' cs').map (·.value)) := by
  -- what follows a declaration is shorter than the text and is read from inside a line
  induction hn : cs.length using Nat.strong_induction_on generalizing pos behind cs with
  | _ n ih =>
    rcases nonempty_first behind cs with hnone | ⟨front, written, rest, d, rfl, hread, hline, hfound⟩
    · refine ⟨cs, by rw [hnone pos rfl]; rfl, fun _ => rfl, fun pos' behind' hbehind => ?_⟩
      rw [hnone pos rfl, hnone pos' hbehind]
      exact ⟨rfl, .nil⟩
    have hshort : rest.length < n := by
      obtain ⟨init, c, rfl, -⟩ := getLast?_of_importDecl hread
      simp only [List.length_append, List.length_singleton] at hn
      omega
    obtain ⟨rest', hrest', hsemicolon, hbehind⟩ := ih rest.length hshort
      (pos + front.length + written.length) (some ';') rest rfl
    have hsame := hsemicolon (by decide)
    have hinside {e : Edit} (he : e ∈ new.edits (foundFrom importDecl (pos + front.length + written.length)
        0 (some ';') rest)) := start_le_of_mem_edits he
    -- what stands in the place of the declaration, and what it reads as there
    obtain ⟨written', d', hsplice, hread', hR⟩ : ∃ written' d', Source.spliceFrom pos (front ++
        (written ++ rest)) (new.edits (foundFrom importDecl pos 0 behind (front ++ (written ++ rest)))) =
          front ++ (written' ++ rest') ∧
        importDecl none (written' ++ rest') = some (d', written'.length) ∧ R d d' := by
      rw [hfound pos rfl hread, edits, List.filterMap_cons, ← edits]
      cases hnew : new d with
      | none =>
        have happend := spliceFrom_append (front ++ written) (fun e he => by
          have := hinside he
          rw [List.length_append, ← Nat.add_assoc]
          exact this) rest
        rw [List.length_append, ← Nat.add_assoc, hrest', List.append_assoc, List.append_assoc] at happend
        exact ⟨written, d, happend, importDecl_rest hread hsame, h.kept (isRead_of_importDecl hread) hnew⟩
      | some text =>
        obtain ⟨d', hread', hR⟩ := h.written (isRead_of_importDecl hread) hnew fun hnone =>
          hsame.trans ((renderable_of_importDecl hread).2 hnone)
        refine ⟨text, d', ?_, hread', hR⟩
        have hreplace := spliceFrom_replace ⟨pos + front.length, pos + front.length + written.length, text⟩
          rfl rest (new.edits (foundFrom importDecl (pos + front.length + written.length) 0 (some ';') rest))
        rw [hrest'] at hreplace
        rw [← hreplace]
        refine spliceFrom_append front (fun e he => ?_) (written ++ rest)
        rcases List.mem_cons.1 he with rfl | he
        · exact ⟨Nat.le_refl _, Nat.le_add_right _ _⟩
        · have := hinside he
          omega
    refine ⟨front ++ (written' ++ rest'), hsplice, fun hmem => hasSemicolon_line (hline hmem) _ _,
      fun pos' behind' hbehind' => ?_⟩
    obtain ⟨hgaps, hvalues⟩ := hbehind (pos' + front.length + written'.length) (some ';') rfl
    rw [hfound pos' hbehind' hread', hfound pos rfl hread, gapsFrom_cons, gapsFrom_cons, hgaps]
    exact ⟨rfl, .cons hR hvalues⟩

end Rewrite

/-! ## Repointing -/

/-- The declarations from one module are written anew for another. -/
def repointing (old new : List Char) : Rewrite := fun d =>
  if d.module = old then some ({ d with module := new }.render (d.named.getD [])) else none

/-- A declaration that keeps its names when it is written anew: its brace list is not an empty one, no name
in front of it is taken for the word `type`, and no brace of a name for one of the list. -/
structure ImportDecl.KeepsNames (d : ImportDecl) : Prop where
  listed : d.named ≠ some []
  untyped : ¬ d.ReadsAsType (d.named.getD [])
  bare : IsFlush d.braces → BareEnds (d.named.getD [])

/-- A declaration that imports from another module. -/
structure ImportDecl.PointedAt (new : List Char) (d d' : ImportDecl) : Prop where
  module : d'.module = new
  indent : d'.indent = d.indent
  quote : d'.quote = d.quote
  semicolon : d'.semicolon = d.semicolon
  names : d.SameNames d' ↔ d.KeepsNames

/-- What becomes of a declaration. -/
def Repointing (old new : List Char) (d d' : ImportDecl) : Prop :=
  if d.module = old then d.PointedAt new d' else d' = d

theorem bareEnds_nil : BareEnds [] := by
  rintro c (h | h) <;> cases h

theorem ImportDecl.IsRead.keepsNames_iff {d : ImportDecl} (h : d.IsRead) : d.KeepsNames ↔
    ¬ d.ReadsAsType (d.named.getD []) ∧ (if (d.named.getD []).isEmpty then none
      else some (specifiers (renderBraces (d.named.getD []) d.braces d.indent))) = d.named := by
  have hindent : ∀ c ∈ d.indent, isBlank c = true := fun c hc =>
    isBlank_of_isSpaceOrTab (h.renderable.indent c hc)
  have hitems := h.items
  have hparts : d.KeepsNames ↔ ¬ d.ReadsAsType (d.named.getD []) ∧
      (d.named ≠ some [] ∧ (IsFlush d.braces → BareEnds (d.named.getD []))) :=
    ⟨fun h => ⟨h.untyped, h.listed, h.bare⟩, fun h => ⟨h.2.1, h.1, h.2.2⟩⟩
  rw [hparts]
  refine and_congr Iff.rfl ?_
  cases hnamed : d.named with
  | none => simp [bareEnds_nil]
  | some items =>
    rw [hnamed] at hitems
    by_cases hne : items = []
    · simp [hne]
    · simpa [hne] using (specifiers_renderBraces_iff hitems hne hindent).symm

theorem rereads_repointing {old new : List Char} (hnew : IsModule new) :
    (repointing old new).Rereads (Repointing old new) := by
  refine ⟨fun {d} _ hkept => ?_, fun {d text} hread hwritten {tail} htail => ?_⟩
  · unfold repointing at hkept
    unfold Repointing
    split at hkept
    · cases hkept
    · next hmodule => rw [if_neg hmodule]
  · unfold repointing at hwritten
    unfold Repointing
    split at hwritten
    · next hmodule =>
      cases hwritten
      obtain ⟨d', heq, ⟨hindent, hmodule', hquote, hsemicolon⟩, htype, hnames⟩ :=
        (hread.withModule hnew).importDecl_render hread.items htail
      refine ⟨d', heq, ?_⟩
      rw [if_pos hmodule]
      refine ⟨hmodule', hindent, hquote, hsemicolon, ?_⟩
      rw [hread.keepsNames_iff]
      have hsame : { d with module := new }.ReadsAsType (d.named.getD []) =
        d.ReadsAsType (d.named.getD []) := rfl
      rw [hsame] at htype hnames
      constructor
      · intro hd'
        have huntyped : ¬ d.ReadsAsType (d.named.getD []) := by
          intro htyped
          have hempty : d'.typeWord = [] := by simpa [htyped.1] using hd'.typesOnly
          exact (htype.1 hempty).2 htyped
        exact ⟨huntyped, (hnames huntyped).2.2.symm.trans hd'.named⟩
      · rintro ⟨huntyped, hnamed⟩
        obtain ⟨hdefault, hall, hlist⟩ := hnames huntyped
        refine ⟨hdefault, hall, hlist.trans hnamed, ?_⟩
        rw [Bool.eq_iff_iff, List.isEmpty_iff, List.isEmpty_iff, htype]
        exact and_iff_left huntyped
    · cases hwritten

theorem repointImports_eq_splice_edits {old new : List Char} (hold : old ≠ []) (hne : old ≠ new)
    (text : List Char) :
    repointImports text old new = spliceFrom 0 text ((repointing old new).edits (imports text)) := by
  have hedits (fs : List (Found ImportDecl)) :
      (repointing old new).edits fs = (fs.filter (·.value.module == old)).map (repoint new) := by
    induction fs with
    | nil => rfl
    | cons f fs ih =>
      rw [Rewrite.edits, List.filterMap_cons, ← Rewrite.edits, ih, List.filter_cons]
      by_cases hmodule : f.value.module = old
      · simp [repointing, repoint, hmodule]
      · simp [repointing, hmodule]
  have hpairwise := (apart_repoint (List.nil_append (imports text)).symm old new).pairwise
  rw [repointImports, if_neg (by simp [hold, hne]), hedits]
  exact splice_of_perm (List.Perm.refl _) (hpairwise.imp And.left)

/-- Declarations that are pointed at another module keep their place and the text around them, and their
names as well unless a part of them is not written or is taken for another. A second time nothing is left
to point. -/
theorem editImport_repoints {old new : List Char} (hold : old ≠ []) (hne : old ≠ new)
    (hnew : IsModule new) (text : List Char) :
    let edited := editImport text old none new none
    gaps edited = gaps text ∧ (declarations text).Forall₂ (Repointing old new) (declarations edited) ∧
      editImport edited old none new none = edited := by
  have hedit (text : List Char) : editImport text old none new none = repointImports text old new := by
    have hgiven : given? (some new) = some new := by simp [given?, Option.filter, hnew.ne_nil]
    rw [editImport, hgiven]
    rfl
  intro edited
  obtain ⟨cs', hcs', -, hread⟩ := (rereads_repointing hnew).spliceFrom 0 none text
  obtain ⟨hgaps, hvalues⟩ := hread 0 none rfl
  have hedited : edited = cs' := by
    rw [← hcs', ← found, ← imports, ← repointImports_eq_splice_edits hold hne, ← hedit]
  rw [← hedited] at hgaps hvalues
  have hmodules : (declarations text).Forall₂ (Repointing old new) (declarations edited) := hvalues
  refine ⟨hgaps, hmodules, ?_⟩
  have hmoved : ∀ d' ∈ declarations edited, d'.module ≠ old := by
    generalize declarations edited = moved, declarations text = kept at hmodules
    induction hmodules with
    | nil => simp
    | @cons d d' _ _ hd _ ih =>
      refine List.forall_mem_cons.2 ⟨fun heq => ?_, ih⟩
      unfold Repointing at hd
      split at hd
      · exact hne (heq.symm.trans hd.module)
      · next hmodule => exact hmodule (hd ▸ heq)
  have hnone : (imports edited).filter (·.value.module == old) = [] :=
    List.filter_eq_nil_iff.2 fun f hf => by simpa using hmoved f.value (List.mem_map_of_mem hf)
  rw [hedit, repointImports, if_neg (by simp [hold, hne]), hnone, List.map_nil, splice_nil]

theorem editImport_repoints_sample :
    let old := "old".toList
    let new := "new".toList
    let text := "import D, \x7b a as b \x7d from 'old';\nimport \"old\"\nrun();\n".toList
    let edited := editImport text old none new none
    old ≠ [] ∧ old ≠ new ∧ IsModule new ∧
      gaps edited = ["".toList, "\nimport \"old\"\nrun();\n".toList] ∧
      (declarations text).Forall₂ (Repointing old new) (declarations edited) ∧
      editImport edited old none new none = edited := by
  intro old new text edited
  have hgaps : gaps text = ["".toList, "\nimport \"old\"\nrun();\n".toList] := by decide +kernel
  obtain ⟨hkept, hmoved, hagain⟩ :=
    editImport_repoints (by decide : old ≠ []) (by decide : old ≠ new) (by decide) text
  exact ⟨by decide, by decide, by decide, hkept.trans hgaps, hmoved, hagain⟩

/-! An empty brace list is not written again. -/

example : editImport "import \x7b\x7d from 'old'".toList "old".toList none "new".toList none =
    "import  from 'new'".toList := by decide +kernel

end Codemod.Source
