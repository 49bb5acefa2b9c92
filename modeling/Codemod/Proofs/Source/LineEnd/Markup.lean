import Codemod.Proofs.Source.LineEnd.Basic
import Codemod.Proofs.Source.Nesting
import Codemod.Proofs.Source.Declaration
import Codemod.Proofs.Source.Rename

/-! Line ends and the edits of markup. Tag names and attributes end within a line, so what follows them
reads on as before. -/
namespace Codemod.Source
open Text

theorem inline_of_isAttributeChar {c : Char} (h : isAttributeChar c = true) : Inline c :=
  ⟨ne_of_isAttributeChar h (by decide), ne_of_isAttributeChar h (by decide)⟩

theorem inline_of_isNameStart {c : Char} (h : isNameStart c = true) : Inline c := by
  refine inline_of_isAttributeChar ?_
  simp [isAttributeChar, isIdentifier_of_isNameStart h]

/-! ## Where brackets and attributes end -/

/-- The outermost bracket is closed by its own character or stays open. -/
theorem step_bracket {frames next : List Frame} {closer c : Char} {rest : List Char}
    (h : step (frames ++ [.bracket closer]) c rest = some next) :
    (next = [] ∧ c = closer) ∨ ∃ inner, next = inner ++ [.bracket closer] := by
  by_cases hne : frames = []
  · subst hne
    simp only [List.nil_append, step] at h
    split at h
    · obtain ⟨hc, heq⟩ := Option.ite_none_right_eq_some.1 h
      exact .inl ⟨(Option.some.inj heq).symm, hc⟩
    · split at h
      · next inner hinner => exact .inr ⟨[.bracket inner], (Option.some.inj h).symm⟩
      · exact .inr ⟨_, (Option.some.inj h).symm⟩
  · rw [step_append hne] at h
    obtain ⟨inner, -, rfl⟩ := Option.map_eq_some_iff.1 h
    exact .inr ⟨inner, rfl⟩

/-- A bracket ends with its closing character. -/
theorem getElem?_of_extent? {closer : Char} {frames : List Frame} {cs : List Char} {n : Nat}
    (h : extent? (frames ++ [.bracket closer]) cs = some n) : cs[n - 1]? = some closer := by
  induction cs generalizing frames n with
  | nil => simp [extent?] at h
  | cons c rest ih =>
    unfold extent? at h
    split at h
    · cases h
    · next hstep =>
      rcases step_bracket hstep with ⟨-, rfl⟩ | ⟨inner, hinner⟩
      · cases h
        rfl
      · simp at hinner
    · next next hne hstep =>
      obtain ⟨m, hm, rfl⟩ := Option.map_eq_some_iff.1 h
      rcases step_bracket hstep with ⟨hnil, -⟩ | ⟨inner, rfl⟩
      · exact absurd hnil hne
      · have hpos := (extent?_le hm).1
        rw [Nat.add_sub_cancel, show m = m - 1 + 1 by omega, List.getElem?_cons_succ]
        exact ih hm

theorem getElem?_of_bracketExtent? {opening closer : Char} (hcloser : closer? opening = some closer)
    {cs : List Char} {n : Nat} (h : bracketExtent? opening cs = some n) :
    cs[n - 1]? = some closer := by
  unfold bracketExtent? at h
  rw [hcloser, Option.bind_some, ← List.nil_append [Frame.bracket closer]] at h
  exact getElem?_of_extent? h

theorem getElem?_of_valueLength? {cs : List Char} {n : Nat} (h : valueLength? cs = some n) :
    0 < n ∧ ∃ c, cs[n - 1]? = some c ∧ Inline c := by
  unfold valueLength? at h
  split at h
  · cases h
  · next c rest =>
    split at h
    · next hquote =>
      obtain ⟨i, hi, rfl⟩ := Option.map_eq_some_iff.1 h
      obtain ⟨head, tail, rfl, -, rfl⟩ := exists_of_idxOf? hi
      refine ⟨by omega, c, by simp, ?_⟩
      rcases Bool.or_eq_true_iff.1 hquote with hc | hc <;> rw [beq_iff_eq.1 hc] <;> decide
    · split at h
      · obtain ⟨m, hm, rfl⟩ := Option.map_eq_some_iff.1 h
        have hpos := (bracketExtent?_le hm).1
        refine ⟨by omega, '}', ?_, by decide⟩
        rw [Nat.add_sub_cancel, show m = m - 1 + 1 by omega, List.getElem?_cons_succ]
        exact getElem?_of_bracketExtent? (by decide) hm
      · cases h

/-- The attribute lies behind the offset `pos`, at which `cs` begins, and ends within a line. -/
def Attribute.EndsInline (a : Attribute) (pos : Nat) (cs : List Char) : Prop :=
  pos ≤ a.start ∧ a.start < a.stop ∧ ∃ c, cs[a.stop - 1 - pos]? = some c ∧ Inline c

theorem Attribute.EndsInline.of_drop {a : Attribute} {pos k : Nat} {cs : List Char}
    (h : a.EndsInline (pos + k) (cs.drop k)) : a.EndsInline pos cs := by
  obtain ⟨hstart, hstop, c, hc, hinline⟩ := h
  refine ⟨by omega, hstop, c, ?_, hinline⟩
  rw [List.getElem?_drop] at hc
  rw [← hc]
  congr 1
  omega

theorem endsInline_of_readAttribute? {pos : Nat} {c : Char} {rest : List Char} {a : Attribute}
    (hc : isNameStart c = true) (h : readAttribute? pos c rest = some a) :
    a.EndsInline pos (c :: rest) := by
  unfold readAttribute? at h
  dsimp only at h
  split at h
  · next value hvalue =>
    obtain ⟨n, hn, rfl⟩ := Option.map_eq_some_iff.1 h
    obtain ⟨hpos, d, hd, hinline⟩ := getElem?_of_valueLength? hn
    refine ⟨Nat.le_refl _, by dsimp only; omega, d, ?_, hinline⟩
    generalize (rest.takeWhile isAttributeChar).length = tail at hvalue ⊢
    generalize ((rest.drop tail).takeWhile isBlank).length = gap at hvalue ⊢
    have hat (k : Nat) : rest[tail + (gap + (k + 1))]? = value[k]? := by
      rw [← List.getElem?_drop, ← List.getElem?_drop, hvalue, List.getElem?_cons_succ]
    rw [List.getElem?_drop, ← hat] at hd
    generalize (value.takeWhile isBlank).length = inner at hd ⊢
    have hindex : pos + 1 + tail + (gap + 1 + inner + n) - 1 - pos =
        tail + (gap + (inner + (n - 1) + 1)) + 1 := by omega
    rw [hindex, List.getElem?_cons_succ, hd]
  · cases h
    refine ⟨Nat.le_refl _, by dsimp only; omega, ?_⟩
    have hname : ∀ d ∈ c :: rest.takeWhile isAttributeChar, Inline d := by
      intro d hd
      rcases List.mem_cons.1 hd with rfl | hd
      · exact inline_of_isNameStart hc
      · exact inline_of_isAttributeChar (List.mem_takeWhile_imp hd)
    have hlen : (rest.takeWhile isAttributeChar).length <
        (c :: rest.takeWhile isAttributeChar).length := Nat.lt_succ_self _
    refine ⟨_, ?_, hname _ (List.getElem_mem hlen)⟩
    obtain ⟨behind, hrest⟩ := List.takeWhile_prefix isAttributeChar (l := rest)
    rw [← List.getElem?_eq_getElem hlen, ← List.getElem?_append_left hlen, List.cons_append, hrest]
    congr 1
    dsimp only
    omega

/-- Attributes end where a name, a quote or a brace does. -/
theorem endsInline_of_attributesFrom {pos stop : Nat} {cs : List Char} {as : List Attribute}
    (h : attributesFrom pos cs = some (as, stop)) : ∀ a ∈ as, a.EndsInline pos cs := by
  have hdrop {gap : Nat} {c : Char} {cs rest : List Char} (hcons : cs.drop gap = c :: rest) (n : Nat) :
      rest.drop n = cs.drop (gap + 1 + n) := by
    rw [← List.drop_drop, ← List.drop_drop, hcons, List.drop_one, List.tail_cons]
  fun_induction attributesFrom pos cs generalizing as stop with
  | case5 pos cs gap rest n hextent hcons _ _ =>
    rename_i ih
    intro a ha
    have hlater := ih h a ha
    rw [hdrop hcons, Nat.add_assoc, Nat.add_assoc, ← Nat.add_assoc gap] at hlater
    exact hlater.of_drop
  | case7 pos cs gap c rest hcons _ _ _ hc a ha =>
    rename_i ih
    obtain ⟨⟨as, stop⟩, hlater, heq⟩ := Option.map_eq_some_iff.1 h
    cases heq
    have hfirst := endsInline_of_readAttribute? hc ha
    have hstart := hfirst.1
    have hstop := hfirst.2.1
    intro b hb
    rcases List.mem_cons.1 hb with rfl | hb
    · rw [← hcons] at hfirst
      exact hfirst.of_drop
    · have hbehind := ih hlater b hb
      rw [hdrop hcons] at hbehind
      refine Attribute.EndsInline.of_drop (k := gap + 1 + (a.stop - (pos + gap + 1))) ?_
      rwa [show pos + (gap + 1 + (a.stop - (pos + gap + 1))) = a.stop by omega]
  | case2 => cases h; simp
  | case3 => cases h; simp
  | case1 => cases h
  | case4 => cases h
  | case6 => cases h
  | case8 => cases h

theorem endsInline_of_mem_openingTags {text tag : List Char} {t : OpeningTag}
    (ht : t ∈ openingTags text tag) : ∀ a ∈ t.attributes, a.EndsInline 0 text := by
  obtain ⟨f, -, hf⟩ := List.mem_filterMap.1 ht
  obtain ⟨⟨as, stop⟩, has, rfl⟩ := Option.map_eq_some_iff.1 hf
  intro a ha
  have hlater := endsInline_of_attributesFrom has a ha
  rw [← Nat.zero_add (f.start + 1 + tag.length)] at hlater
  refine Attribute.EndsInline.of_drop (k := f.start + 1 + tag.length) ?_
  rwa [Nat.zero_add (f.start + 1 + tag.length)] at hlater ⊢

variable {text : List Char}

theorem Attribute.EndsInline.keepsCrlf {a : Attribute} (h : a.EndsInline 0 text) (hcrlf : Crlf text)
    {e : Edit} (hstart : e.start ≤ a.start) (hstop : e.stop = a.stop) (htext : Crlf e.text) :
    e.KeepsCrlf text := by
  obtain ⟨-, hlt, c, hc, hinline⟩ := h
  exact Edit.keepsCrlf_of_last hcrlf (by omega) (by rwa [hstop]) hinline.2 htext

/-! ## The edits -/

theorem crlf_removeAttribute (h : Crlf text) (tag attr : List Char) :
    Crlf (removeAttribute text tag attr) := by
  unfold removeAttribute
  split
  · exact h
  · refine crlf_splice h fun e he => ?_
    obtain ⟨t, ht, he⟩ := List.mem_flatMap.1 he
    obtain ⟨a, ha, rfl⟩ := List.mem_map.1 he
    have hends := endsInline_of_mem_openingTags ht a (List.mem_of_mem_filter ha)
    exact hends.keepsCrlf h (Nat.sub_le _ _) rfl trivial

theorem mem_or_mem_pieces (sep : Char → Bool) {cs : List Char} {c : Char} (hc : c ∈ cs) :
    sep c = true ∨ ∃ piece ∈ pieces sep cs, c ∈ piece := by
  induction cs with
  | nil => cases hc
  | cons d cs ih =>
    obtain ⟨first, rest, heq⟩ := List.exists_cons_of_ne_nil (pieces_ne_nil sep cs)
    by_cases hd : sep d = true
    · rw [pieces_sep hd]
      rcases List.mem_cons.1 hc with rfl | hc
      · exact .inl hd
      · refine (ih hc).imp_right ?_
        rintro ⟨piece, hpiece, hc⟩
        exact ⟨piece, by simp [hpiece], hc⟩
    · rw [pieces_cons (by simpa using hd) heq]
      rcases List.mem_cons.1 hc with rfl | hc
      · exact .inr ⟨c :: first, by simp, by simp⟩
      · refine (ih hc).imp_right ?_
        rintro ⟨piece, hpiece, hc⟩
        rw [heq] at hpiece
        rcases List.mem_cons.1 hpiece with rfl | hpiece
        · exact ⟨d :: piece, by simp, by simp [hc]⟩
        · exact ⟨piece, by simp [hpiece], hc⟩

theorem isAttributeChar_of_isMemberExpression {cs : List Char} (h : isMemberExpression cs = true) :
    ∀ c ∈ cs, isAttributeChar c = true := by
  intro c hc
  rcases mem_or_mem_pieces (· == '.') hc with hdot | ⟨piece, hpiece, hc⟩
  · rw [beq_iff_eq.1 hdot]
    decide
  · have hname := List.all_eq_true.1 h piece hpiece
    cases piece with
    | nil => cases hc
    | cons d rest =>
      obtain ⟨hd, hrest⟩ := Bool.and_eq_true_iff.1 hname
      rcases List.mem_cons.1 hc with rfl | hc
      · simp [isAttributeChar, isIdentifier_of_isNameStart hd]
      · simp [isAttributeChar, List.all_eq_true.1 hrest c hc]

theorem inline_of_isMemberExpression {cs : List Char} (h : isMemberExpression cs = true) :
    ∀ c ∈ cs, Inline c :=
  fun c hc => inline_of_isAttributeChar (isAttributeChar_of_isMemberExpression h c hc)

theorem crlf_convertAttribute (h : Crlf text) (tag old : List Char) {new : List Char}
    (hnew : ∀ c ∈ new, Inline c) : Crlf (convertAttribute text tag old new) := by
  unfold convertAttribute
  split
  · exact h
  · refine crlf_splice h fun e he => ?_
    obtain ⟨t, ht, he⟩ := List.mem_flatMap.1 he
    split at he
    · cases he
    · obtain ⟨a, ha, hcomponent⟩ := List.mem_filterMap.1 he
      obtain ⟨component, hnamed, rfl⟩ := Option.map_eq_some_iff.1 hcomponent
      have hends := endsInline_of_mem_openingTags ht a (List.mem_of_mem_filter ha)
      have hinline : ∀ c ∈ component, Inline c := by
        unfold namedComponent? at hnamed
        split at hnamed
        · obtain ⟨hmember, heq⟩ := Option.ite_none_right_eq_some.1 hnamed
          exact Option.some.inj heq ▸ inline_of_isMemberExpression hmember
        · cases hnamed
      have hfirst : Crlf new := crlf_of_notMem fun hm => (hnew _ hm).1 rfl
      have hsecond : Crlf component := crlf_of_notMem fun hm => (hinline _ hm).1 rfl
      refine hends.keepsCrlf h (Nat.le_refl _) rfl ?_
      exact ((hfirst.append (by decide)).append hsecond).append (by decide)

/-- The edit of a tag lies within its name and what stands in front of it. -/
theorem withinLine_of_mem_formEdits {r : Recogniser Unit} {lead old new : List Char}
    (hr : ∀ {behind cs n}, r behind cs = some ((), n) →
      n = lead.length + old.length ∧ ∃ rest, cs = lead ++ (old ++ rest))
    (hlead : ∀ c ∈ lead, Inline c) (hne : lead ≠ []) (hold : ∀ c ∈ old, Inline c)
    (hnew : ∀ c ∈ new, Inline c) {e : Edit} (he : e ∈ formEdits text new r lead) :
    e.WithinLine text := by
  obtain ⟨f, hf, he⟩ := List.mem_filterMap.1 he
  obtain ⟨-, heq⟩ := Option.ite_none_right_eq_some.1 he
  obtain rfl := Option.some.inj heq
  obtain ⟨front, tail, htext, hstart, hread⟩ := (isPlace_of_mem_foundFrom hf).1
  obtain ⟨hlength, rest, rfl⟩ := hr hread
  have happend {cs : List Char} (hcs : ∀ c ∈ cs, Inline c) : ∀ c ∈ lead ++ cs, Inline c := by
    intro c hc
    rcases List.mem_append.1 hc with hc | hc
    · exact hlead c hc
    · exact hcs c hc
  refine ⟨lead ++ old, ⟨front, rest, by simpa using htext, by simpa using hstart, ?_⟩, by simp [hne],
    happend hold, by simp [hne], happend hnew⟩
  rw [Found.stop, hlength, List.length_append]

/-- Renaming elements changes nothing about the line ends. -/
theorem crlf_renameElement_iff {old new : List Char} (hold : ∀ c ∈ old, Inline c)
    (hnew : ∀ c ∈ new, Inline c) : Crlf (renameElement text old new) ↔ Crlf text := by
  unfold renameElement
  split
  · exact Iff.rfl
  · refine crlf_splice_iff fun e he => ?_
    rcases List.mem_append.1 he with he | he
    · refine withinLine_of_mem_formEdits (fun hread => ?_) (List.all_iff_forall_prop.1 (by decide))
        (by decide) hold hnew he
      obtain ⟨-, hlength, rest, hcs, -⟩ := openingTag_eq_some hread
      exact ⟨by simp [hlength]; omega, rest, hcs⟩
    · refine withinLine_of_mem_formEdits (fun hread => ?_) (List.all_iff_forall_prop.1 (by decide))
        (by decide) hold hnew he
      obtain ⟨hlength, rest, hcs, -⟩ := closingTag_eq_some hread
      exact ⟨by simp [hlength]; omega, rest, hcs⟩

end Codemod.Source
