import Codemod.Proofs.Source.Rendered

/-! A declaration that is written anew and read again, with all its parts. Its clause is read from the
words in it alone. So a part is lost only where nothing is written for it, where a name stands for the
word `type`, or where a name begins or ends with a brace. -/
namespace Codemod.Source
open Text

/-! ## The word in front of a clause -/

theorem after?_append_of_head {piece rest : List Char} (h : ∀ c ∈ rest.head?, c ∉ piece)
    (cs : List Char) : after? piece (cs ++ rest) = (after? piece cs).map (· ++ rest) := by
  induction piece generalizing cs with
  | nil => rfl
  | cons p piece ih =>
    have ih := ih fun c hc hm => h c hc (List.mem_cons_of_mem _ hm)
    cases cs with
    | nil =>
      cases rest with
      | nil => rfl
      | cons c rest =>
        have hne : p ≠ c := fun heq => h c rfl (heq ▸ List.mem_cons_self)
        simp [after?, hne]
    | cons c cs =>
      rw [List.cons_append, after?, after?]
      split
      · exact ih cs
      · rfl

theorem wordWithBlanks?_cons (word : List Char) {c : Char} (hc : isBlank c = true) (cs : List Char) :
    wordWithBlanks? word (word ++ c :: cs) =
      some (word.length + ((cs.takeWhile isBlank).length + 1), trimLeft cs) := by
  have hafter : after? word (word ++ c :: cs) = some (c :: cs) := after?_eq_some_iff.2 rfl
  rw [wordWithBlanks?, hafter, Option.bind_some, List.takeWhile_cons, if_pos hc]
  simp [drop_length_takeWhile, trimLeft]

theorem afterType_append {rest : List Char}
    (h : ∀ c ∈ rest.head?, c ∉ typeName ∧ isBlank c = false) (cs : List Char) :
    afterType (cs ++ rest) = ((afterType cs).1, (afterType cs).2 ++ rest) := by
  have hword : wordWithBlanks? typeName (cs ++ rest) =
      (wordWithBlanks? typeName cs).map fun found => (found.1, found.2 ++ rest) := by
    unfold wordWithBlanks?
    rw [after?_append_of_head (fun c hc => (h c hc).1)]
    cases after? typeName cs with
    | none => rfl
    | some behind =>
      simp only [Option.map_some, Option.bind_some,
        takeWhile_append_of_head behind fun c hc => (h c hc).2]
      rw [List.drop_append_of_le_length (List.takeWhile_sublist _).length_le]
      split <;> rfl
  unfold afterType
  rw [hword]
  cases wordWithBlanks? typeName cs <;> rfl

/-- The word `type` in front of a clause, with the blanks behind it, and the clause. -/
def cutType (clause : List Char) : List Char × List Char :=
  ((trimLeft clause).take (afterType (trimLeft clause)).1, (afterType (trimLeft clause)).2)

theorem head?_moduleText {gap name tail : List Char} {quote : Char} :
    ∀ c ∈ (moduleText gap quote name tail).head?, c ∉ typeName ∧ isBlank c = false := by
  intro c hc
  obtain rfl : 'f' = c := by simpa [moduleText, fromWord] using hc
  decide

theorem afterType_le (cs : List Char) : (afterType cs).1 ≤ cs.length := by
  obtain ⟨word, hcs, hlen, -⟩ := eq_append_afterType cs
  have h := congrArg List.length hcs
  rw [List.length_append] at h
  omega

/-- What is read depends on the clause alone. -/
theorem Shape.importDecl_cutType (s : Shape) (tail : List Char) : importDecl none (s.before tail) =
    some (ImportDecl.withClause ⟨s.indent, (cutType s.clause).1, none, none, none, [], s.module,
      s.quote, hasSemicolon tail⟩ (trim (trimRight (cutType s.clause).2)),
        s.text.length + semicolonLength tail) := by
  obtain ⟨lead, clause, typeWord, -, -, -, hread⟩ := s.importDecl_before tail
  rw [hread, Option.some_inj, Prod.mk.injEq, eq_self, and_true]
  have hlead : trimLeft (s.clause ++ moduleText s.gap s.quote s.module tail) =
      trimLeft s.clause ++ moduleText s.gap s.quote s.module tail := by
    have hcons : moduleText s.gap s.quote s.module tail =
        'f' :: ("rom".toList ++ (s.gap ++ s.quote :: (s.module ++ s.quote :: tail))) := by
      simp [moduleText, fromWord]
    rw [hcons]
    exact trimLeft_append_cons s.clause (by decide) _
  have hblanks : (s.clause ++ moduleText s.gap s.quote s.module tail).takeWhile isBlank =
      s.clause.takeWhile isBlank :=
    takeWhile_append_of_head s.clause fun c hc => (head?_moduleText c hc).2
  have hplain : ∀ c ∈ (afterType (trimLeft s.clause)).2, endsClause c = false := by
    intro c hc
    obtain ⟨word, hcs, -⟩ := eq_append_afterType (trimLeft s.clause)
    have hmem : c ∈ trimLeft s.clause := by
      rw [hcs]
      exact List.mem_append_right _ hc
    exact s.clause_plain c ((List.dropWhile_sublist _).subset hmem)
  have htype : ((s.before tail).drop (s.indent.length + (importWord.length +
      ((s.clause.takeWhile isBlank).length + 1)))).take (afterType (trimLeft s.clause)).1 =
        (cutType s.clause).1 := by
    have hclause : s.clause = s.clause.takeWhile isBlank ++ trimLeft s.clause :=
      List.takeWhile_append_dropWhile.symm
    have hbefore : s.before tail =
        (s.indent ++ (importWord ++ s.blank :: s.clause.takeWhile isBlank)) ++
          (trimLeft s.clause ++ moduleText s.gap s.quote s.module tail) := by
      conv_lhs => rw [Shape.before, hclause]
      simp
    rw [hbefore, List.drop_left' (by simp), List.take_append_of_le_length (afterType_le _), cutType]
  rw [importDecl_eq, s.takeWhile_before, s.dropWhile_before,
    wordWithBlanks?_cons importWord s.isBlank_blank, Option.bind_some] at hread
  dsimp only at hread
  rw [hlead, afterType_append head?_moduleText, hblanks, htype] at hread
  dsimp only at hread
  rw [clause?_moduleText hplain s.gap_blank s.isQuote_quote s.isModule_module] at hread
  simp only [Option.map_some, drop_moduleText, Option.some_inj, Prod.mk.injEq] at hread
  exact hread.1.symm

theorem cutType_cases (clause : List Char) :
    ((cutType clause).1 = [] ∧ (cutType clause).2 = trimLeft clause) ∨
      ∃ c gap, (cutType clause).1 = typeName ++ c :: gap ∧ isBlank c = true ∧
        (∀ d ∈ gap, isBlank d = true) ∧ trimLeft clause = (cutType clause).1 ++ (cutType clause).2 := by
  unfold cutType
  generalize trimLeft clause = cs
  unfold afterType
  cases hread : wordWithBlanks? typeName cs with
  | none => exact .inl ⟨rfl, rfl⟩
  | some found =>
    obtain ⟨n, rest⟩ := found
    obtain ⟨c, gap, rfl, hc, hgap, rfl⟩ := eq_append_of_wordWithBlanks? hread
    have hsplit : typeName ++ c :: (gap ++ rest) = (typeName ++ c :: gap) ++ rest := by simp
    have htake : (typeName ++ c :: (gap ++ rest)).take (typeName.length + 1 + gap.length) =
        typeName ++ c :: gap := by
      rw [hsplit, List.take_left' (by simp; omega)]
    refine .inr ⟨c, gap, htake, hc, hgap, ?_⟩
    simp only [Option.getD_some]
    rw [htake, hsplit]

/-! ## The items of a clause -/

theorem trim_joinWith {parts : List (List Char)} (h : ∀ p ∈ parts, p ≠ [] ∧ trim p = p)
    (sep : List Char) : trim (joinWith sep parts) = joinWith sep parts := by
  by_cases hnil : parts = []
  · subst hnil
    rfl
  refine trim_eq_self (fun c hc => ?_) (fun c hc => ?_)
  · obtain ⟨p, rest, rfl⟩ := List.exists_cons_of_ne_nil hnil
    obtain ⟨hne, htrim⟩ := h p (by simp)
    obtain ⟨d, tail, rfl⟩ := List.exists_cons_of_ne_nil hne
    rw [joinWith_cons_cons] at hc
    exact isBlank_head?_trim (by rw [htrim]; exact hc)
  · obtain ⟨rest, p, rfl⟩ := List.eq_nil_or_concat parts |>.resolve_left hnil
    rw [List.concat_eq_append] at h hc
    obtain ⟨hne, htrim⟩ := h p (by simp)
    obtain ⟨front, heq, -⟩ := joinWith_concat sep p rest
    rw [heq, List.getLast?_append_of_ne_nil _ hne] at hc
    exact isBlank_getLast?_trim (htrim ▸ hc)

/-- Items joined by commas are the items between the commas. -/
theorem map_trim_pieces {items : List (List Char)} (hne : items ≠ [])
    (h : ∀ item ∈ items, trim item = item ∧ ',' ∉ item) {lead : List Char}
    (hlead : ∀ c ∈ lead, isBlank c = true) :
    (pieces (· == ',') (lead ++ joinWith ", ".toList items)).map trim = items := by
  have htrim {item : List Char} {lead : List Char} (hlead : ∀ c ∈ lead, isBlank c = true)
      (hitem : trim item = item) : trim (lead ++ item) = item := by
    rw [trim, trimLeft_blanks_append hlead, ← trim, hitem]
  have hcomma {item : List Char} {lead : List Char} (hlead : ∀ c ∈ lead, isBlank c = true)
      (hitem : ',' ∉ item) : ∀ c ∈ lead ++ item, (c == ',') = false := by
    intro c hc
    rcases List.mem_append.1 hc with hc | hc
    · exact not_comma_of_isBlank (hlead c hc)
    · exact beq_eq_false_iff_ne.2 fun heq => hitem (heq ▸ hc)
  induction items generalizing lead with
  | nil => exact absurd rfl hne
  | cons item items ih =>
    obtain ⟨hitem, hplain⟩ := h item (by simp)
    by_cases hnil : items = []
    · subst hnil
      rw [joinWith_singleton, pieces_eq_singleton (hcomma hlead hplain), List.map_singleton,
        htrim hlead hitem]
    · have hsplit : lead ++ joinWith ", ".toList (item :: items) =
          (lead ++ item) ++ ',' :: ([' '] ++ joinWith ", ".toList items) := by
        rw [joinWith_cons _ _ hnil]
        simp
      rw [hsplit, pieces_append_sep (hcomma hlead hplain) (by decide), List.map_cons,
        htrim hlead hitem, ih hnil (fun i hi => h i (by simp [hi]))
          (List.forall_mem_singleton.2 isBlank_space)]

/-- An item in front of a brace list: what stands between two commas, without the blanks around it. -/
structure IsHeadItem (item : List Char) : Prop where
  ne_nil : item ≠ []
  trim_eq : trim item = item
  chars : ∀ c ∈ item, InFront c ∧ c ≠ ','

/-- A declaration as reading gives it. -/
structure ImportDecl.IsRead (d : ImportDecl) : Prop where
  renderable : d.Renderable
  typeWord : d.typeWord = [] ∨ ∃ c gap, d.typeWord = typeName ++ c :: gap ∧ isBlank c = true ∧
    ∀ d ∈ gap, isBlank d = true
  defaultName : ∀ item ∈ d.defaultName, IsHeadItem item ∧ item.head? ≠ some '*'
  allNames : ∀ item ∈ d.allNames, IsHeadItem item ∧ item.head? = some '*'
  items : ∀ s ∈ d.named.getD [], s.Listable

namespace ImportDecl

variable {d : ImportDecl} {items : List Specifier}

/-- The name and the `* as name` in front of the brace list. -/
def headItems (d : ImportDecl) : List (List Char) := d.defaultName.toList ++ d.allNames.toList

theorem IsRead.isHeadItem (h : d.IsRead) : ∀ item ∈ d.headItems, IsHeadItem item := by
  intro item hitem
  rcases List.mem_append.1 hitem with hitem | hitem
  · exact (h.defaultName item (by simpa using hitem)).1
  · exact (h.allNames item (by simpa using hitem)).1

theorem IsRead.withModule (h : d.IsRead) {new : List Char} (hnew : IsModule new) :
    { d with module := new }.IsRead :=
  { h with renderable := { h.renderable with module := hnew } }

theorem IsRead.withBraces (h : d.IsRead) (braces : List Char) : { d with braces }.IsRead :=
  { h with renderable := ⟨h.renderable.indent, h.renderable.typeWord, h.renderable.items,
    h.renderable.quote, h.renderable.module⟩ }

/-- Items in front of a brace list are read as what they are. -/
theorem IsRead.foldl_withHeadItem (h : d.IsRead) (bare : ImportDecl) (hdefault : bare.defaultName = none)
    (hall : bare.allNames = none) : d.headItems.foldl withHeadItem bare =
      { bare with defaultName := d.defaultName, allNames := d.allNames } := by
  have hname (bare : ImportDecl) (hdefault : bare.defaultName = none) :
      d.defaultName.toList.foldl withHeadItem bare = { bare with defaultName := d.defaultName } := by
    cases hd : d.defaultName with
    | none =>
      have hsame : bare = { bare with defaultName := none } := by rw [← hdefault]
      exact hsame
    | some item =>
      obtain ⟨hitem, hstar⟩ := h.defaultName item (by simp [hd])
      obtain ⟨c, tail, rfl⟩ := List.exists_cons_of_ne_nil hitem.ne_nil
      have hc : c ≠ '*' := fun heq => hstar (by simp [heq])
      simp [withHeadItem, hc]
  have hstar (bare : ImportDecl) (hall : bare.allNames = none) :
      d.allNames.toList.foldl withHeadItem bare = { bare with allNames := d.allNames } := by
    cases hd : d.allNames with
    | none =>
      have hsame : bare = { bare with allNames := none } := by rw [← hall]
      exact hsame
    | some item =>
      obtain ⟨tail, rfl⟩ := List.head?_eq_some_iff.1 (h.allNames item (by simp [hd])).2
      rfl
  rw [headItems, List.foldl_append, hname bare hdefault]
  exact hstar { bare with defaultName := d.defaultName } hall

/-! ## What has been read -/

/-- No name in front of a brace list begins as the `* as name` does, which does. -/
def StarredApart (d : ImportDecl) : Prop :=
  (∀ item ∈ d.defaultName, item ≠ [] ∧ item.head? ≠ some '*') ∧
    ∀ item ∈ d.allNames, item.head? = some '*'

theorem StarredApart.withHead (h : d.StarredApart) (head : List Char) :
    (d.withHead head).StarredApart := by
  rw [withHead_eq_foldl]
  generalize (pieces (· == ',') head).map trim = items
  induction items generalizing d with
  | nil => exact h
  | cons item items ih =>
    refine ih ?_
    unfold withHeadItem
    split
    · exact h
    · refine ⟨h.1, fun other hother => ?_⟩
      obtain rfl := Option.some.inj hother
      rfl
    · next hempty hstar =>
      refine ⟨fun other hother => ?_, h.2⟩
      obtain rfl := Option.some.inj hother
      refine ⟨hempty, fun hhead => ?_⟩
      obtain ⟨tail, rfl⟩ := List.head?_eq_some_iff.1 hhead
      exact hstar tail rfl

theorem StarredApart.withClause (h : d.StarredApart) (clause : List Char) :
    (d.withClause clause).StarredApart := by
  unfold ImportDecl.withClause
  split
  · next head braces hbraces =>
    have hd : StarredApart { d with named := some (specifiers braces), braces } := h
    exact hd.withHead head
  · exact h.withHead clause

end ImportDecl

theorem isRead_of_importDecl {cs : List Char} {d : ImportDecl} {n : Nat}
    (h : importDecl none cs = some (d, n)) :
    d.IsRead := by
  have hitems {s : Specifier} (hs : s ∈ d.named.getD []) : s.Listable := by
    obtain ⟨text, htext, hchars⟩ := exists_ofText?_of_mem h hs
    refine ⟨Specifier.readable_of_ofText? htext, fun c hc => ?_⟩
    rcases Specifier.mem_of_ofText? htext hc with rfl | ⟨hc, -⟩
    · exact ⟨by decide, by decide⟩
    · exact (hchars c hc).symm
  obtain ⟨s, tail, rfl⟩ := exists_shape_of_importDecl h
  have hrenderable := (Shape.renderable h).1
  have hread := s.importDecl_cutType tail
  have hstarred : ImportDecl.StarredApart (ImportDecl.withClause ⟨s.indent, (cutType s.clause).1, none, none, none,
      [], s.module, s.quote, hasSemicolon tail⟩ (trim (trimRight (cutType s.clause).2))) := by
    refine ImportDecl.StarredApart.withClause ⟨?_, ?_⟩ _ <;> exact nofun
  obtain ⟨defaultName, allNames, heq, hpieces⟩ := withClause_eq
    ⟨s.indent, (cutType s.clause).1, none, none, none, [], s.module, s.quote, hasSemicolon tail⟩ rfl rfl
    rfl (trim (trimRight (cutType s.clause).2))
  rw [heq] at hread hstarred
  rw [hread] at h
  cases h
  have hitem {item : List Char} (hmem : item ∈ defaultName.toList ++ allNames.toList)
      (hne : item ≠ []) : IsHeadItem item := by
    obtain ⟨piece, rfl, -, hbrace, hcomma⟩ := hpieces item hmem
    refine ⟨hne, trim_trim piece, fun c hc => ⟨hrenderable.items _ hmem c hc, ?_⟩⟩
    rintro rfl
    exact hcomma (mem_of_mem_trim hc)
  refine ⟨hrenderable, ?_, fun item hmem => ?_, fun item hmem => ?_, fun s hs => hitems hs⟩
  · rcases cutType_cases s.clause with ⟨hnil, -⟩ | ⟨c, gap, heq, hc, hgap, -⟩
    · exact .inl hnil
    · exact .inr ⟨c, gap, heq, hc, hgap⟩
  · obtain ⟨hne, hstar⟩ := hstarred.1 item hmem
    exact ⟨hitem (List.mem_append_left _ (by simpa using hmem)) hne, hstar⟩
  · have hstar := hstarred.2 item hmem
    exact ⟨hitem (List.mem_append_right _ (by simpa using hmem)) (by rintro rfl; cases hstar), hstar⟩

/-! ## What is rendered for it -/

/-- The clause of a declaration as it is rendered. -/
def ImportDecl.clauseText (d : ImportDecl) (items : List Specifier) : List Char :=
  joinWith ", ".toList (d.clauseItems items)

/-- The clause begins with a name that is taken for the word `type`. -/
def ImportDecl.ReadsAsType (d : ImportDecl) (items : List Specifier) : Prop :=
  d.typeWord = [] ∧ (wordWithBlanks? typeName (d.clauseText items ++ [' '])).isSome = true

instance (d : ImportDecl) (items : List Specifier) : Decidable (d.ReadsAsType items) := by
  unfold ImportDecl.ReadsAsType
  infer_instance


theorem renderBraces_shape (items : List Specifier) (braces indent : List Char) :
    ∃ inner, renderBraces items braces indent = '{' :: (inner ++ ['}']) := by
  unfold renderBraces
  dsimp only
  split <;> exact ⟨_, rfl⟩

theorem trim_braced (inner : List Char) : trim ('{' :: (inner ++ ['}'])) = '{' :: (inner ++ ['}']) := by
  refine trim_eq_self (fun c hc => ?_) (fun c hc => ?_)
  · obtain rfl : '{' = c := by simpa using hc
    decide
  · rw [← List.cons_append, List.getLast?_concat] at hc
    obtain rfl : '}' = c := by simpa using hc
    decide

theorem joinWith_append_singleton (sep last : List Char) (texts : List (List Char)) :
    joinWith sep (texts ++ [last]) = joinWith sep (texts ++ [[]]) ++ last := by
  induction texts with
  | nil => simp [joinWith_singleton]
  | cons text texts ih =>
    rw [List.cons_append, List.cons_append, joinWith_cons _ _ (by simp), joinWith_cons _ _ (by simp), ih]
    simp

namespace ImportDecl

variable {d : ImportDecl} {items : List Specifier}

theorem clauseItems_of_nil (d : ImportDecl) : d.clauseItems [] = d.headItems := by
  simp [clauseItems, headItems]

theorem clauseItems_of_ne_nil (d : ImportDecl) (h : items ≠ []) :
    d.clauseItems items = d.headItems ++ [renderBraces items d.braces d.indent] := by
  simp [clauseItems, headItems, h]

theorem IsRead.trim_clauseText (h : d.IsRead) (items : List Specifier) :
    trim (d.clauseText items) = d.clauseText items := by
  refine trim_joinWith (fun item hitem => ?_) _
  by_cases hitems : items = []
  · subst hitems
    rw [clauseItems_of_nil] at hitem
    exact ⟨(h.isHeadItem item hitem).ne_nil, (h.isHeadItem item hitem).trim_eq⟩
  · rw [clauseItems_of_ne_nil d hitems, List.mem_append, List.mem_singleton] at hitem
    rcases hitem with hitem | rfl
    · exact ⟨(h.isHeadItem item hitem).ne_nil, (h.isHeadItem item hitem).trim_eq⟩
    · obtain ⟨inner, heq⟩ := renderBraces_shape items d.braces d.indent
      rw [heq]
      exact ⟨by simp, trim_braced inner⟩

/-- The items of the clause are read as what they are. -/
theorem IsRead.withClause_clauseText (h : d.IsRead) (bare : ImportDecl) (hdefault : bare.defaultName = none)
    (hall : bare.allNames = none) : bare.withClause (d.clauseText items) =
      { bare with
        defaultName := d.defaultName
        allNames := d.allNames
        named := if items.isEmpty then bare.named
          else some (specifiers (renderBraces items d.braces d.indent))
        braces := if items.isEmpty then bare.braces else renderBraces items d.braces d.indent } := by
  have hhead {texts : List (List Char)} (hne : texts ≠ [])
      (htexts : ∀ item ∈ texts, item = [] ∨ item ∈ d.headItems) :
      (pieces (· == ',') (joinWith ", ".toList texts)).map trim = texts := by
    refine map_trim_pieces hne (fun item hitem => ?_) (List.forall_mem_nil _)
    rcases htexts item hitem with rfl | hitem
    · exact ⟨rfl, by simp⟩
    · exact ⟨(h.isHeadItem item hitem).trim_eq,
        fun hm => ((h.isHeadItem item hitem).chars _ hm).2 rfl⟩
  have hfront {texts : List (List Char)} (htexts : ∀ item ∈ texts, item = [] ∨ item ∈ d.headItems) :
      '{' ∉ joinWith ", ".toList texts := by
    intro hm
    rcases mem_of_mem_joinWith hm with hm | ⟨item, hitem, hm⟩
    · exact (inFront_separator _ hm).2 rfl
    · rcases htexts item hitem with rfl | hitem
      · cases hm
      · exact ((h.isHeadItem item hitem).chars _ hm).1.2 rfl
  by_cases hnil : items = []
  · subst hnil
    rw [clauseText, clauseItems_of_nil, ImportDecl.withClause, bracesOf_eq_none (hfront fun _ => .inr)]
    by_cases hempty : d.headItems = []
    · have hfold := h.foldl_withHeadItem bare hdefault hall
      rw [hempty] at hfold ⊢
      exact hfold
    · dsimp only
      rw [withHead_eq_foldl, hhead hempty (fun _ => .inr), h.foldl_withHeadItem bare hdefault hall]
      rfl
  · have hmem : ∀ item ∈ d.headItems ++ [[]], item = [] ∨ item ∈ d.headItems := by
      intro item hitem
      rw [List.mem_append, List.mem_singleton] at hitem
      exact hitem.symm
    obtain ⟨inner, heq⟩ := renderBraces_shape items d.braces d.indent
    rw [clauseText, clauseItems_of_ne_nil d hnil, joinWith_append_singleton, ImportDecl.withClause, heq,
      bracesOf_append (hfront hmem)]
    dsimp only
    rw [withHead_eq_foldl, hhead (by simp) hmem, List.foldl_append]
    have hfold := h.foldl_withHeadItem { bare with
      named := some (specifiers ('{' :: (inner ++ ['}']))), braces := '{' :: (inner ++ ['}']) } hdefault hall
    rw [hfold]
    simp [withHeadItem, hnil]

theorem take_ne_nil_of_wordWithBlanks? {word cs rest : List Char} {n : Nat} (hword : word ≠ [])
    (h : wordWithBlanks? word cs = some (n, rest)) : cs.take n ≠ [] := by
  obtain ⟨c, gap, rfl, -, -, rfl⟩ := eq_append_of_wordWithBlanks? h
  obtain ⟨d, word, rfl⟩ := List.exists_cons_of_ne_nil hword
  simp [Nat.add_right_comm]

/-- What is taken for the word in front when the declaration is written anew. -/
theorem IsRead.cutType_render (h : d.IsRead) (items : List Specifier) :
    ((cutType (d.typeWord ++ (d.clauseText items ++ [' ']))).1 = [] ↔
        d.typeWord = [] ∧ ¬ d.ReadsAsType items) ∧
      (¬ d.ReadsAsType items →
        trim (trimRight (cutType (d.typeWord ++ (d.clauseText items ++ [' ']))).2) =
          d.clauseText items) := by
  have htrim := h.trim_clauseText items
  have hcore : trim (trim (d.clauseText items ++ [' '])) = d.clauseText items := by
    rw [trim_trim]
    by_cases hnil : d.clauseText items = []
    · rw [hnil]
      decide
    · rw [trim_append_blanks (by rwa [htrim]) (List.forall_mem_singleton.2 isBlank_space), htrim]
  have hleft : wordWithBlanks? typeName (trimLeft (d.clauseText items ++ [' '])) =
      wordWithBlanks? typeName (d.clauseText items ++ [' ']) := by
    cases hcl : d.clauseText items with
    | nil => rfl
    | cons c cs =>
      have hc : isBlank c = false := isBlank_head?_trim (by rw [htrim, hcl]; rfl)
      rw [List.cons_append, trimLeft, List.dropWhile_cons, if_neg (by simp [hc])]
  rcases h.typeWord with hnil | ⟨c, gap, heq, hc, hgap⟩
  · unfold cutType afterType ReadsAsType
    rw [hnil, List.nil_append, hleft]
    cases hread : wordWithBlanks? typeName (d.clauseText items ++ [' ']) with
    | none => exact ⟨by simp, fun _ => hcore⟩
    | some found => simpa using take_ne_nil_of_wordWithBlanks? (by decide) (hleft.trans hread)
  · have hclause : trimLeft (d.typeWord ++ (d.clauseText items ++ [' '])) =
        typeName ++ c :: (gap ++ (d.clauseText items ++ [' '])) := by
      rw [heq]
      simp [typeName, trimLeft, isBlank]
    have hread := wordWithBlanks?_cons typeName hc (gap ++ (d.clauseText items ++ [' ']))
    rw [trimLeft_blanks_append hgap] at hread
    unfold cutType afterType
    rw [hclause, hread]
    refine ⟨iff_of_false (take_ne_nil_of_wordWithBlanks? (by decide) hread) fun hm => ?_, fun _ => hcore⟩
    simp [heq, typeName] at hm

/-- A declaration with the same names, that imports types only if the other does. -/
structure SameNames (d d' : ImportDecl) : Prop where
  defaultName : d'.defaultName = d.defaultName
  allNames : d'.allNames = d.allNames
  named : d'.named = d.named
  typesOnly : d'.typeWord.isEmpty = d.typeWord.isEmpty

/-- A declaration that is written anew is read as one with the same names, unless it is read as one of
types only. -/
theorem IsRead.importDecl_render (h : d.IsRead)
    (hitems : ∀ s ∈ items, s.Listable) {tail : List Char}
    (htail : d.semicolon = false → hasSemicolon tail = false) :
    ∃ d', importDecl none (d.render items ++ tail) = some (d', (d.render items).length) ∧
      (d'.indent = d.indent ∧ d'.module = d.module ∧ d'.quote = d.quote ∧ d'.semicolon = d.semicolon) ∧
      (d'.typeWord = [] ↔ d.typeWord = [] ∧ ¬ d.ReadsAsType items) ∧
      (¬ d.ReadsAsType items → d'.defaultName = d.defaultName ∧ d'.allNames = d.allNames ∧
        d'.named = if items.isEmpty then none
          else some (specifiers (renderBraces items d.braces d.indent))) := by
  have hplain := h.renderable.plainClause hitems
  obtain ⟨hsemicolon, hlen⟩ := semicolonLength_render htail
  have hread := (h.renderable.shape hplain).importDecl_cutType ((if d.semicolon then [';'] else []) ++ tail)
  rw [h.renderable.shape_before hplain, hlen, ← h.renderable.length_render hplain, hsemicolon] at hread
  obtain ⟨htype, hclause⟩ := h.cutType_render items
  obtain ⟨defaultName, allNames, heq, -⟩ := withClause_eq ⟨d.indent,
    (cutType (d.typeWord ++ (d.clauseText items ++ [' ']))).1, none, none, none, [], d.module, d.quote,
    d.semicolon⟩ rfl rfl rfl
    (trim (trimRight (cutType (d.typeWord ++ (d.clauseText items ++ [' ']))).2))
  refine ⟨ImportDecl.withClause ⟨d.indent, (cutType (d.typeWord ++ (d.clauseText items ++ [' ']))).1,
    none, none, none, [], d.module, d.quote, d.semicolon⟩
    (trim (trimRight (cutType (d.typeWord ++ (d.clauseText items ++ [' ']))).2)), hread, ?_, ?_,
    fun hnot => ?_⟩
  · rw [heq]
    exact ⟨rfl, rfl, rfl, rfl⟩
  · rw [heq]
    exact htype
  · rw [hclause hnot, h.withClause_clauseText _ rfl rfl]
    exact ⟨rfl, rfl, rfl⟩

/-! ## Read again with other items -/

/-- A declaration that is read where another one has been written with the given items. -/
structure Reread (d : ImportDecl) (items : List Specifier) (d' : ImportDecl) : Prop where
  module : d'.module = d.module
  named : d'.named.getD [] = items
  typeWord : d'.typeWord = [] ↔ d.typeWord = [] ∧ ¬ d.ReadsAsType items

/-- Items without braces are read again, whatever is taken for the word `type`. -/
theorem IsRead.reread_render (h : d.IsRead) (hitems : ∀ s ∈ items, s.Legible) {tail : List Char}
    (htail : d.semicolon = false → hasSemicolon tail = false) :
    ∃ d', importDecl none (d.render items ++ tail) = some (d', (d.render items).length) ∧
      d.Reread items d' := by
  obtain ⟨d', hread, hmodule, hnamed⟩ := h.renderable.importDecl_render hitems htail
  obtain ⟨other, hother, -, htype, -⟩ := h.importDecl_render (fun s hs => (hitems s hs).listable) htail
  obtain rfl : other = d' := congrArg Prod.fst (Option.some.inj (hother.symm.trans hread))
  exact ⟨other, hread, hmodule, hnamed, htype⟩

/-- A name without blanks is not taken for the word `type` in front of further items. -/
theorem not_readsAsType (hdefault : ∀ name ∈ d.defaultName, IsName name)
    (hall : ∀ item ∈ d.allNames, item.head? = some '*') (hne : items ≠ []) : ¬ d.ReadsAsType items := by
  rintro ⟨-, htype⟩
  obtain ⟨⟨n, rest⟩, hread⟩ := Option.isSome_iff_exists.1 htype
  obtain ⟨c, gap, heq, hc, -⟩ := eq_append_of_wordWithBlanks? hread
  obtain ⟨inner, hbraces⟩ := renderBraces_shape items d.braces d.indent
  rw [clauseText, clauseItems_of_ne_nil d hne, hbraces, headItems] at heq
  cases hname : d.defaultName with
  | none =>
    rw [hname, Option.toList_none, List.nil_append] at heq
    cases hitem : d.allNames with
    | none => simp [hitem, joinWith_singleton, typeName] at heq
    | some item =>
      obtain ⟨tail, rfl⟩ := List.head?_eq_some_iff.1 (hall item hitem)
      simp [hitem, joinWith_cons_cons, typeName] at heq
  | some name =>
    -- the name ends in front of a comma, and the word `type` in front of a blank
    rw [hname, Option.toList_some, List.append_assoc, List.singleton_append,
      joinWith_cons _ _ (by simp)] at heq
    generalize joinWith ", ".toList (d.allNames.toList ++ ['{' :: (inner ++ ['}'])]) = listed at heq
    have hsplit : name ++ ',' :: (' ' :: (listed ++ [' '])) = (typeName ++ [c]) ++ (gap ++ rest) := by
      simpa using heq
    have hcomma : ',' ∉ typeName ++ [c] := by
      intro hm
      rcases List.mem_append.1 hm with hm | hm
      · exact absurd hm (by decide)
      · rw [← List.mem_singleton.1 hm] at hc
        exact absurd hc (by decide)
    obtain ⟨left, rfl, -⟩ := eq_append_of_append_cons hcomma hsplit
    have hblank := (hdefault _ hname).isBlank_eq_false (by simp : c ∈ (typeName ++ [c]) ++ left)
    rw [hc] at hblank
    cases hblank

end ImportDecl

end Codemod.Source
