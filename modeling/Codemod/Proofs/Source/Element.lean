import Codemod.Proofs.Source.Rename

/-! One element with its copy. Its two tags are found by two recognisers, of which only the one for
opening tags looks at the character in front; and each tag is renamed when the reader takes it for
live. The element stays well formed exactly when both of its tags are renamed or neither. -/
namespace Codemod.Source
open Text

/-- Two tags with `copy` between them and `before` in front. -/
def tagPair (before opening copy closing : List Char) : List Char :=
  before ++ '<' :: (opening ++ '>' :: (copy ++ '<' :: '/' :: (closing ++ ['>'])))

/-- An element called `name` with the text `copy` in it and `before` in front. -/
def elementText (before name copy : List Char) : List Char := tagPair before name copy name

/-- The opening tag behind `before` is one that a renaming finds. -/
def OpensLive (before name copy : List Char) : Prop :=
  ¬ Covered (elementText before name copy) before.length ∧ before.getLast?.any endsOperand = false

/-- The closing tag is one that a renaming finds. -/
def ClosesLive (before name copy : List Char) : Prop :=
  ¬ Covered (elementText before name copy) (before.length + name.length + 2 + copy.length)

instance (before name copy : List Char) : Decidable (OpensLive before name copy) :=
  inferInstanceAs (Decidable (_ ∧ _))

instance (before name copy : List Char) : Decidable (ClosesLive before name copy) :=
  inferInstanceAs (Decidable (¬ _))

variable {before copy old new : List Char}

/-! ## The two tags -/

theorem append_lt_inj {cs ds xs ys : List Char} (hcs : '<' ∉ cs) (hds : '<' ∉ ds)
    (h : cs ++ '<' :: xs = ds ++ '<' :: ys) : cs = ds ∧ xs = ys := by
  have hrun {run : List Char} (hm : '<' ∉ run) : ∀ c ∈ run, (c != '<') = true := by
    intro c hc
    exact bne_iff_ne.2 fun heq => hm (heq ▸ hc)
  have hend (rest : List Char) : ∀ c ∈ ('<' :: rest).head?, (c != '<') = false := by simp
  obtain ⟨rfl, hrest⟩ := span_unique (hrun hcs) (hrun hds) (hend xs) (hend ys) h
  exact ⟨rfl, (List.cons.inj hrest).2⟩

/-- The first `<` of an element stands in front of its name, the second behind the copy. -/
theorem elementText_eq_append_lt (hold : TagName old) (hbefore : '<' ∉ before) (hcopy : '<' ∉ copy)
    {cs rest : List Char} (h : elementText before old copy = cs ++ '<' :: rest) :
    (cs = before ∧ rest = old ++ '>' :: (copy ++ '<' :: '/' :: (old ++ ['>']))) ∨
      (cs = before ++ '<' :: (old ++ '>' :: copy) ∧ rest = '/' :: (old ++ ['>'])) := by
  by_cases hlt : '<' ∈ cs
  · obtain ⟨first, second, rfl, hfirst⟩ := List.eq_append_cons_of_mem hlt
    have hsplit : before ++ '<' :: (old ++ '>' :: (copy ++ '<' :: '/' :: (old ++ ['>']))) =
        first ++ '<' :: (second ++ '<' :: rest) := by simpa [elementText, tagPair] using h
    obtain ⟨rfl, hsecond⟩ := append_lt_inj hbefore hfirst hsplit
    have hbody : '<' ∉ old ++ '>' :: copy := by simp [hold.not_mem, hcopy]
    have hrest : (old ++ '>' :: copy) ++ '<' :: ('/' :: (old ++ ['>'])) = second ++ '<' :: rest := by
      simpa using hsecond
    by_cases hmore : '<' ∈ second
    · obtain ⟨third, fourth, rfl, hthird⟩ := List.eq_append_cons_of_mem hmore
      have hagain : (old ++ '>' :: copy) ++ '<' :: ('/' :: (old ++ ['>'])) =
          third ++ '<' :: (fourth ++ '<' :: rest) := by simpa using hrest
      obtain ⟨-, hend⟩ := append_lt_inj hbody hthird hagain
      have hnone : '<' ∉ '/' :: (old ++ ['>']) := by simp [hold.not_mem]
      exact absurd (by simp [hend]) hnone
    · obtain ⟨rfl, rfl⟩ := append_lt_inj hbody hmore hrest
      exact .inr ⟨rfl, rfl⟩
  · obtain ⟨rfl, rfl⟩ := append_lt_inj hbefore hlt h
    exact .inl ⟨rfl, rfl⟩

theorem tagLead?_opening (hold : TagName old) (behind : Option Char) (rest : List Char) :
    tagLead? old behind ('<' :: (old ++ '>' :: rest)) =
      if behind.any endsOperand then none else some ['<'] := by
  have hafter : after? ('<' :: old) ('<' :: (old ++ '>' :: rest)) = some ('>' :: rest) :=
    after?_eq_some_iff.2 rfl
  have hclosing : closingTag old behind ('<' :: (old ++ '>' :: rest)) = none := by
    by_contra hne
    obtain ⟨⟨⟨⟩, n⟩, hread⟩ := Option.ne_none_iff_exists'.1 hne
    obtain ⟨-, other, heq, -⟩ := closingTag_eq_some hread
    exact hold.append_ne_slash _ _ (List.cons.inj heq).2
  by_cases hbehind : behind.any endsOperand = true <;>
    simp [tagLead?, openingTag, hafter, hclosing, hbehind]

theorem tagLead?_closing (hold : TagName old) (behind : Option Char) :
    tagLead? old behind ('<' :: '/' :: (old ++ ['>'])) = some ['<', '/'] := by
  have hafter : after? ('<' :: '/' :: old) ('<' :: '/' :: (old ++ ['>'])) = some ['>'] :=
    after?_eq_some_iff.2 rfl
  refine (tagLead?_eq_closing_iff hold).2 ?_
  rw [closingTag, hafter]
  rfl

theorem opensLive_iff (hold : TagName old) : OpensLive before old copy ↔
    framesAfter [] before ('<' :: (old ++ '>' :: (copy ++ '<' :: '/' :: (old ++ ['>'])))) = some [] ∧
      tagLead? old (lastOr none before)
        ('<' :: (old ++ '>' :: (copy ++ '<' :: '/' :: (old ++ ['>'])))) = some ['<'] := by
  have hlast : lastOr none before = before.getLast? := by simp [lastOr]
  rw [OpensLive, elementText, tagPair, not_covered_iff_framesAfter (by decide) rfl,
    tagLead?_opening hold, hlast]
  simp

theorem closesLive_iff : ClosesLive before old copy ↔
    framesAfter [] (before ++ '<' :: (old ++ '>' :: copy)) ('<' :: '/' :: (old ++ ['>'])) =
      some [] := by
  have htext : elementText before old copy =
      (before ++ '<' :: (old ++ '>' :: copy)) ++ '<' :: '/' :: (old ++ ['>']) := by
    simp [elementText, tagPair]
  have hlen : before.length + old.length + 2 + copy.length =
      (before ++ '<' :: (old ++ '>' :: copy)).length := by
    simp
    omega
  rw [ClosesLive, htext, hlen, not_covered_iff_framesAfter (by decide) rfl]

/-- The edit of the opening tag. -/
def openingEdit (before old new : List Char) : Edit :=
  ⟨before.length, before.length + 1 + old.length, '<' :: new⟩

/-- The edit of the closing tag. -/
def closingEdit (before old new copy : List Char) : Edit :=
  ⟨before.length + old.length + 2 + copy.length,
    before.length + old.length + 2 + copy.length + 2 + old.length, '<' :: '/' :: new⟩

theorem openingEdit_start (old new : List Char) :
    (openingEdit before old new).start = before.length := rfl

theorem mem_tagEdits_elementText (hold : TagName old) (hbefore : '<' ∉ before) (hcopy : '<' ∉ copy)
    {e : Edit} : e ∈ tagEdits old new [] none 0 (elementText before old copy) ↔
      (OpensLive before old copy ∧ e = openingEdit before old new) ∨
        (ClosesLive before old copy ∧ e = closingEdit before old new copy) := by
  rw [mem_tagEdits_iff, opensLive_iff hold, closesLive_iff]
  constructor
  · rintro ⟨cs, rest, lead, heq, hframes, hlead, rfl⟩
    obtain ⟨tail, rfl⟩ : ∃ tail, rest = '<' :: tail := by
      obtain ⟨rfl | rfl, tail, rfl, -⟩ := tagLead?_eq_some hlead <;> exact ⟨_, rfl⟩
    obtain ⟨rfl, rfl⟩ | ⟨rfl, rfl⟩ := elementText_eq_append_lt hold hbefore hcopy heq
    · obtain rfl : lead = ['<'] := by
        rw [tagLead?_opening hold] at hlead
        simpa using (Option.ite_none_left_eq_some.1 hlead).2.symm
      exact .inl ⟨⟨hframes, hlead⟩, by simp [openingEdit]⟩
    · obtain rfl : lead = ['<', '/'] := by
        rw [tagLead?_closing hold] at hlead
        exact (Option.some.inj hlead).symm
      refine .inr ⟨hframes, ?_⟩
      simp [closingEdit]
      omega
  · rintro (⟨⟨hframes, hlead⟩, rfl⟩ | ⟨hframes, rfl⟩)
    · exact ⟨before, _, ['<'], rfl, hframes, hlead, by simp [openingEdit]⟩
    · refine ⟨before ++ '<' :: (old ++ '>' :: copy), _, ['<', '/'], ?_, hframes,
        tagLead?_closing hold _, ?_⟩
      · simp [elementText, tagPair]
      · simp [closingEdit]
        omega

/-- An element has at most one edit for each of its tags. -/
theorem tagEdits_elementText (hold : TagName old) (hbefore : '<' ∉ before) (hcopy : '<' ∉ copy) :
    tagEdits old new [] none 0 (elementText before old copy) =
      (if OpensLive before old copy then [openingEdit before old new] else []) ++
        (if ClosesLive before old copy then [closingEdit before old new copy] else []) := by
  have hleft := pairwise_tagEdits old new [] none 0 (elementText before old copy)
  have hright : ((if OpensLive before old copy then [openingEdit before old new] else []) ++
      (if ClosesLive before old copy then [closingEdit before old new copy] else [])).Pairwise
        fun a b => a.start < b.start := by
    split <;> split <;> simp [openingEdit, closingEdit]
    omega
  have hnodup {edits : List Edit} (h : edits.Pairwise fun a b => a.start < b.start) :
      edits.Nodup := h.imp fun hlt heq => by
    rw [heq] at hlt
    omega
  refine List.Perm.eq_of_pairwise (fun a b _ _ hab hba => by omega) hleft hright ?_
  refine (List.perm_ext_iff_of_nodup (hnodup hleft) (hnodup hright)).2 fun e => ?_
  rw [mem_tagEdits_elementText hold hbefore hcopy, List.mem_append]
  simp

/-! ## The renamed element -/

/-- An edit at the cursor, made or not, replaces what it covers or keeps it. -/
theorem spliceFrom_optional (p : Prop) [Decidable p] (e : Edit) (covered : List Char)
    (hstop : e.stop = e.start + covered.length) (rest : List Char) (edits : List Edit)
    (h : ∀ f ∈ edits, e.stop ≤ f.start ∧ f.start ≤ f.stop) :
    spliceFrom e.start (covered ++ rest) ((if p then [e] else []) ++ edits) =
      (if p then e.text else covered) ++ spliceFrom e.stop rest edits := by
  by_cases hp : p
  · simpa [hp] using spliceFrom_replace e hstop rest edits
  · rw [hstop] at h ⊢
    simpa [hp] using spliceFrom_append covered h rest

/-- Each tag of an element is renamed when a renaming finds it, whatever becomes of the other. -/
theorem renameElement_elementText (hold : TagName old) (hnew : TagName new) (hne : old ≠ new)
    (hbefore : '<' ∉ before) (hcopy : '<' ∉ copy) :
    renameElement (elementText before old copy) old new =
      tagPair before (if OpensLive before old copy then new else old) copy
        (if ClosesLive before old copy then new else old) := by
  have htext : elementText before old copy =
      before ++ (('<' :: old) ++ (('>' :: copy) ++ (('<' :: '/' :: old) ++ ['>']))) := by
    simp [elementText, tagPair]
  have hopening := spliceFrom_optional (OpensLive before old copy) (openingEdit before old new)
    ('<' :: old) (by simp [openingEdit]; omega) (('>' :: copy) ++ (('<' :: '/' :: old) ++ ['>']))
    (if ClosesLive before old copy then [closingEdit before old new copy] else [])
    (by simp [openingEdit, closingEdit]; omega)
  have hclosing := spliceFrom_optional (ClosesLive before old copy)
    (closingEdit before old new copy) ('<' :: '/' :: old) (by simp [closingEdit]; omega) ['>'] []
    (by simp)
  have hgap : (openingEdit before old new).stop + ('>' :: copy).length =
      (closingEdit before old new copy).start := by
    simp [openingEdit, closingEdit]
    omega
  rw [renameElement_eq hold hnew hne, tagEdits_elementText hold hbefore hcopy, htext,
    spliceFrom_append before, Nat.zero_add, ← openingEdit_start old new, hopening,
    spliceFrom_append ('>' :: copy), hgap, ← List.append_nil (ite _ [closingEdit _ _ _ _] _), hclosing]
  · split <;> split <;> simp [tagPair, openingEdit, closingEdit, spliceFrom]
  · intro e he
    obtain ⟨-, rfl⟩ : _ ∧ e = closingEdit before old new copy := by simpa using he
    simp [openingEdit, closingEdit]
    omega
  · intro e he
    rcases List.mem_append.1 he with he | he
    · obtain ⟨-, rfl⟩ : _ ∧ e = openingEdit before old new := by simpa using he
      simp [openingEdit]
      omega
    · obtain ⟨-, rfl⟩ : _ ∧ e = closingEdit before old new copy := by simpa using he
      simp [closingEdit]
      omega

/-- Texts that differ in the name of a tag differ. -/
theorem tagPair_inj {opening closing opening' closing' : List Char} (hopening : TagName opening)
    (hopening' : TagName opening')
    (h : tagPair before opening copy closing = tagPair before opening' copy closing') :
    opening = opening' ∧ closing = closing' := by
  have hends (rest : List Char) : EndsName ('>' :: rest) := ⟨'>', rest, rfl, .inr (.inr rfl)⟩
  have htail := (List.cons.inj (List.append_cancel_left h)).2
  have hname : opening = opening' :=
    name_unique hopening.chars hopening'.chars (hends _) (hends _) htail
  subst hname
  have hclose : closing ++ ['>'] = closing' ++ ['>'] := by simpa using htail
  exact ⟨rfl, List.append_cancel_right hclose⟩

/-- A character that begins no literal and no comment, whatever follows. -/
def OpensNothing (c : Char) : Prop := isQuote c = false ∧ c ≠ '`' ∧ c ≠ '/'

theorem plain_of_opensNothing {cs : List Char} (h : ∀ c ∈ cs, OpensNothing c) (rest : List Char) :
    Plain cs rest := by
  induction cs with
  | nil => trivial
  | cons c cs ih =>
    obtain ⟨hquote, htick, hslash⟩ := h c (by simp)
    refine ⟨?_, ih fun d hd => h d (by simp [hd])⟩
    simp [inertFrames, quoteFrames, hquote, htick, hslash]

theorem opensLive_of_opensNothing (hold : TagName old)
    (hchars : ∀ c ∈ before ++ copy, OpensNothing c)
    (hbehind : before.getLast?.any endsOperand = false) : OpensLive before old copy := by
  have hframes (rest : List Char) : framesAfter [] before rest = some [] :=
    framesAfter_plain (plain_of_opensNothing (fun c hc => hchars c (by simp [hc])) rest)
  refine (opensLive_iff hold).2 ⟨hframes _, ?_⟩
  rw [tagLead?_opening hold]
  simp [lastOr, hbehind]

theorem closesLive_of_opensNothing (hold : TagName old)
    (hchars : ∀ c ∈ before ++ copy, OpensNothing c) : ClosesLive before old copy := by
  have hplain {cs : List Char} (hcs : ∀ c ∈ cs, c ∈ before ++ copy ∨ c = '>') (rest : List Char) :
      framesAfter [] cs rest = some [] := by
    refine framesAfter_plain (plain_of_opensNothing (fun c hc => ?_) rest)
    rcases hcs c hc with hc | rfl
    · exact hchars c hc
    · exact ⟨rfl, by decide, by decide⟩
  have htext : before ++ '<' :: (old ++ '>' :: copy) = before ++ ((['<'] ++ old) ++ '>' :: copy) := by
    simp
  rw [closesLive_iff, htext, framesAfter_append, hplain (fun c hc => .inl (by simp [hc])),
    Option.bind_some, framesAfter_append, framesAfter_plain (plain_tag (.inl rfl) hold _),
    Option.bind_some, hplain]
  intro c hc
  rcases List.mem_cons.1 hc with rfl | hc
  · exact .inr rfl
  · exact .inl (by simp [hc])

/-- Each tag of an element is renamed when it is live, for the opening tag also not behind an operand;
so both are renamed or neither exactly when this holds of both or of neither. Copy that opens no
literal and no comment, behind text of the same kind, has both tags renamed. -/
theorem renameElement_renames_both_tags_iff (hold : TagName old) (hnew : TagName new)
    (hne : old ≠ new) (hbefore : '<' ∉ before) (hcopy : '<' ∉ copy) :
    renameElement (elementText before old copy) old new =
      tagPair before (if OpensLive before old copy then new else old) copy
        (if ClosesLive before old copy then new else old) ∧
    ((renameElement (elementText before old copy) old new = elementText before new copy ∨
        renameElement (elementText before old copy) old new = elementText before old copy) ↔
      (OpensLive before old copy ↔ ClosesLive before old copy)) ∧
    ((∀ c ∈ before ++ copy, OpensNothing c) → before.getLast?.any endsOperand = false →
      renameElement (elementText before old copy) old new = elementText before new copy) := by
  have hrenamed := renameElement_elementText hold hnew hne hbefore hcopy
  refine ⟨hrenamed, ?_, fun hchars hbehind => ?_⟩
  · rw [hrenamed, elementText, elementText]
    by_cases hopens : OpensLive before old copy <;> by_cases hcloses : ClosesLive before old copy
    · simp [hopens, hcloses]
    · simp only [hopens, hcloses, if_true, if_false, iff_false, not_true]
      rintro (h | h)
      · exact hne (tagPair_inj hnew hnew h).2
      · exact hne (tagPair_inj hnew hold h).1.symm
    · simp only [hopens, hcloses, if_true, if_false, iff_true]
      refine iff_of_false ?_ id
      rintro (h | h)
      · exact hne (tagPair_inj hold hnew h).1
      · exact hne (tagPair_inj hold hold h).2.symm
    · simp [hopens, hcloses]
  · rw [hrenamed, if_pos (opensLive_of_opensNothing hold hchars hbehind),
      if_pos (closesLive_of_opensNothing hold hchars)]
    rfl

/-- A word in front of the opening tag keeps it from being renamed, and the closing tag is renamed. -/
theorem renameElement_renames_both_tags_iff_sample :
    TagName "Foo".toList ∧ TagName "Bar".toList ∧ "Foo".toList ≠ "Bar".toList ∧
    '<' ∉ "Hello".toList ∧ '<' ∉ "x".toList ∧
    renameElement "Hello<Foo>x</Foo>".toList "Foo".toList "Bar".toList =
      "Hello<Foo>x</Bar>".toList := by
  have hold : TagName "Foo".toList := ⟨by decide, List.all_iff_forall_prop.1 (by decide)⟩
  have hnew : TagName "Bar".toList := ⟨by decide, List.all_iff_forall_prop.1 (by decide)⟩
  have hne : "Foo".toList ≠ "Bar".toList := by decide
  have hbefore : '<' ∉ "Hello".toList := by decide
  have hcopy : '<' ∉ "x".toList := by decide
  have hopens : ¬ OpensLive "Hello".toList "Foo".toList "x".toList := by decide +kernel
  have hcloses : ClosesLive "Hello".toList "Foo".toList "x".toList := by decide +kernel
  have hrenamed := (renameElement_renames_both_tags_iff hold hnew hne hbefore hcopy).1
  rw [if_neg hopens, if_pos hcloses] at hrenamed
  exact ⟨hold, hnew, hne, hbefore, hcopy, hrenamed⟩

end Codemod.Source
