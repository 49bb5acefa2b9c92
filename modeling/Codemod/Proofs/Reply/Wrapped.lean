import Codemod.Proofs.Literal.Opening
import Codemod.Proofs.Reply.Bracketed
import Codemod.Proofs.Reply.Commas
import Codemod.Proofs.Reply.Plain

/-! Objects in answers that say more: in a fence, and between words. A bracket or a backtick around the
object would be taken for the beginning of it or of a fence; in its strings, what looks like the end of a
fence or like a comma too many is taken for that. -/
namespace Codemod.Reply
open Text

/-! ## Words around -/

/-- A character of the words around an object: no bracket opens with it, and no fence. -/
def isProse (c : Char) : Bool := (closingOf? c).isNone && c != '`'

theorem inert_of_isProse {c : Char} (h : isProse c = true) : closingOf? c = none ∧ c ≠ '`' := by
  simpa [isProse] using h

theorem isProse_of_isBlank {c : Char} (h : isBlank c = true) : isProse c = true := by
  have hne {d : Char} (hd : isBlank d = false) : c ≠ d := by
    rintro rfl
    rw [hd] at h
    cases h
  simp [isProse, closingOf?, hne (d := '\x7b') rfl, hne (d := '[') rfl, hne (d := '`') rfl]

theorem prose_plainChars {cs : List Char} (h : ∀ c ∈ cs, isProse c = true) :
    ∀ c ∈ plainChars cs, isProse c = true := by
  intro c hc
  obtain ⟨d, hd, hplain⟩ := List.mem_filterMap.1 hc
  have hprose := h d hd
  unfold plainChar? at hplain
  split at hplain <;> cases hplain
  · rfl
  · rfl
  · rfl
  · rfl
  · rfl
  · exact hprose

/-- What stands around a text stays words around it when the answer is trimmed and made plain. -/
theorem exists_around {cs front back : List Char} (hcs : ∀ c ∈ cs, c.toNat < 128) (hne : trim cs ≠ [])
    (hfront : ∀ c ∈ front, isProse c = true) (hback : ∀ c ∈ back, isProse c = true) :
    ∃ left right, (∀ c ∈ left, isProse c = true) ∧ (∀ c ∈ right, isProse c = true) ∧
      plainChars (trim (front ++ (cs ++ back))) = left ++ (trim cs ++ right) := by
  obtain ⟨blanks, blanks', hsplit, hblanks, hblanks'⟩ := exists_trim cs
  have hlead : ∀ c ∈ front ++ blanks, isProse c = true :=
    List.forall_mem_append.2 ⟨hfront, fun c hc => isProse_of_isBlank (hblanks c hc)⟩
  have htail : ∀ c ∈ blanks' ++ back, isProse c = true :=
    List.forall_mem_append.2 ⟨fun c hc => isProse_of_isBlank (hblanks' c hc), hback⟩
  have hwhole : front ++ (cs ++ back) = (front ++ blanks) ++ (trim cs ++ (blanks' ++ back)) := by
    calc front ++ (cs ++ back)
        = front ++ ((blanks ++ (trim cs ++ blanks')) ++ back) := by rw [← hsplit]
      _ = (front ++ blanks) ++ (trim cs ++ (blanks' ++ back)) := by simp only [List.append_assoc]
  refine ⟨plainChars (trimLeft (front ++ blanks)), plainChars (trimRight (blanks' ++ back)),
    prose_plainChars fun c hc => hlead c ((List.dropWhile_sublist _).subset hc),
    prose_plainChars fun c hc => htail c (mem_of_mem_trimRight hc), ?_⟩
  rw [hwhole, trim_around hne (trim_trim cs), plainChars_append, plainChars_append,
    plainChars_ascii fun c hc => hcs c (mem_of_mem_trim hc)]

theorem repaired?_around {core : List Char} {fields : List (String × Json)}
    (hcore : Json.read core = .ok (.obj fields)) (htrim : trim core = core) {left right : List Char}
    (hleft : ∀ c ∈ left, isProse c = true) (hright : ∀ c ∈ right, isProse c = true)
    (hread : Json.read (trim (left ++ (core ++ right))) = .error .malformed) :
    repaired? (left ++ (core ++ right)) = .ok (some (withoutTrailingCommas core)) := by
  have hne : core ≠ [] := by
    rintro rfl
    rw [Json.read_nil] at hcore
    cases hcore
  have hleft' : ∀ c ∈ trimLeft left, isProse c = true := fun c hc =>
    hleft c ((List.dropWhile_sublist _).subset hc)
  have hright' : ∀ c ∈ trimRight right, isProse c = true := fun c hc => hright c (mem_of_mem_trimRight hc)
  have htext : trim (left ++ (core ++ right)) = trimLeft left ++ (core ++ trimRight right) :=
    trim_around hne htrim
  have hsheltered : Sheltered (trimLeft left ++ (core ++ trimRight right)) :=
    ((sheltered_of_read hcore).before fun hc => (inert_of_isProse (hright' _ hc)).2 rfl).behind
      fun hc => (inert_of_isProse (hleft' _ hc)).2 rfl
  have hfound : bracketed? (trimLeft left ++ (core ++ trimRight right)) = some (trim core) :=
    bracketed_around hcore rfl (fun c hc => (inert_of_isProse (hleft' c hc)).1) _
  rw [repaired?_of_malformed (htext ▸ hsheltered.fenced?_eq_none) hread, htext, hfound, htrim]
  rfl

theorem parse_of_part {answer part : List Char} {v : Json}
    (hnone : valueOf? (plainChars (trim answer)) = .ok none)
    (hpart : repaired? (plainChars (trim answer)) = .ok (some part)) (hplain : plainChars part = part)
    (hv : Json.read part = .ok v) : parse answer = .ok v := by
  have hne : trim answer ≠ [] := by
    intro hnil
    rw [hnil] at hpart
    cases hpart
  have hpart' : part ≠ [] := by
    rintro rfl
    rw [Json.read_nil] at hv
    cases hv
  have hvalue : valueOf? part = .ok (some v) := by simp [valueOf?, hv]
  have hother : part ≠ plainChars (trim answer) := by
    rintro rfl
    rw [hnone] at hvalue
    cases hvalue
  simp [parse, hne, candidates, hpart, hpart', hother, hplain, firstValue?, hnone, hvalue, Except.bind]

/-! ## Answers that are read as a part of them -/

/-- A text of which nothing is made as a whole. -/
structure Unread (text : List Char) : Prop where
  value : valueOf? text = .ok none
  trimmed : Json.read (trim text) = .error .malformed

/-- A text that opens with a word. -/
def OpensWithWord (text : List Char) : Prop :=
  ∃ word rest, text = word ++ rest ∧ Literal.Opening word rest

theorem unread_of_opensWithWord {core left right : List Char} {fields : List (String × Json)}
    (hcore : Json.read core = .ok (.obj fields)) (htrim : trim core = core)
    (h : OpensWithWord (left ++ (core ++ right))) : Unread (left ++ (core ++ right)) := by
  obtain ⟨word, rest, htext, hword⟩ := h
  obtain ⟨c, hc, halpha⟩ := hword.letter
  obtain ⟨tail, rfl⟩ := List.head?_eq_some_iff.1 hc
  have htext' : left ++ (core ++ right) = c :: (tail ++ rest) := htext
  obtain ⟨d, inner, last, hends, hopen, -⟩ := exists_ends_of_bracketed? (bracketed_self hcore rfl)
  have hd : d ∈ core := by
    rw [← htrim, hends]
    simp
  obtain ⟨hspace, hatom, hother, -⟩ := opening_eq hopen
  have hbehind : ∀ text, d ∈ c :: text → Json.read (c :: text) = .error .malformed := by
    intro text hmem
    rcases List.mem_cons.1 hmem with rfl | hmem
    · rw [halpha] at hother
      cases hother
    · exact Json.read_of_isAlpha halpha hmem hspace hatom
  have hmem : d ∈ left ++ (core ++ right) := by simp [hd]
  have hmem' : d ∈ trim (left ++ (core ++ right)) := by
    rw [trim_around (List.ne_nil_of_mem hd) htrim]
    simp [hd]
  have hleft : trimLeft (left ++ (core ++ right)) = c :: (tail ++ rest) := by
    rw [htext']
    have hatom : Json.isAtomChar c = true := by simp [Json.isAtomChar, Char.isAlphanum, halpha]
    exact trimLeft_append_cons [] (isBlank_of_isAtomChar hatom) _
  refine ⟨?_, ?_⟩
  · have hread : Json.read (left ++ (core ++ right)) = .error .malformed := by
      rw [htext'] at hmem ⊢
      exact hbehind _ hmem
    have hliteral : Literal.parse? (left ++ (core ++ right)) = .ok none := by
      rw [htext, hword.parse?_eq]
    rw [valueOf?, hread, hliteral]
    rfl
  · obtain ⟨back, hback⟩ := trimRight_isPrefix (trimLeft (left ++ (core ++ right)))
    rw [← trim, hleft] at hback
    obtain ⟨e, trimmed, htrimmed⟩ := List.exists_cons_of_ne_nil (List.ne_nil_of_mem hmem')
    rw [htrimmed] at hback hmem' ⊢
    obtain ⟨rfl, -⟩ := List.cons.inj hback
    exact hbehind trimmed hmem'

theorem valueOf?_inFence (cs : List Char) : valueOf? (inFence cs) = .ok none := by
  have hread : Json.read (inFence cs) = .error .malformed := by
    rw [inFence_eq]
    exact Json.read_of_bad rfl (by simp [Json.nextToken_backtick])
  rw [valueOf?, hread, inFence_eq, Literal.parse?_backtick]
  rfl

/-- A text cut short in front of a backtick goes on with it. -/
theorem exists_core_front {cs front rest : List Char} (hcs : cs = front ++ '`' :: rest) :
    ∃ left front' rest', (∀ c ∈ left, isBlank c = true) ∧ front = left ++ front' ∧
      trim cs = front' ++ '`' :: rest' := by
  obtain ⟨left, right, hsplit, hleft, hright⟩ := exists_trim cs
  have hnot {blanks : List Char} (h : ∀ c ∈ blanks, isBlank c = true) : '`' ∉ blanks := fun hmem =>
    absurd (h _ hmem) (by decide)
  rw [hsplit] at hcs
  rcases List.append_eq_append_iff.1 hcs with ⟨gap, hfront, he⟩ | ⟨gap, hsplit', he⟩
  · rcases List.append_eq_append_iff.1 he with ⟨gap', -, he⟩ | ⟨gap', hcore, he⟩
    · exact absurd (by rw [he]; simp) (hnot hright)
    · cases gap' with
      | nil => exact absurd (by rw [← List.nil_append right, ← he]; simp) (hnot hright)
      | cons c gap' =>
        obtain ⟨rfl, -⟩ := List.cons.inj he
        exact ⟨left, gap, gap', hleft, hfront, hcore⟩
  · cases gap with
    | nil =>
      cases hcore : trim cs with
      | nil =>
        rw [hcore, List.nil_append, List.nil_append] at he
        exact absurd (by rw [← he]; simp) (hnot hright)
      | cons c tail =>
        rw [hcore] at he
        obtain ⟨rfl, -⟩ := List.cons.inj he
        exact ⟨left, [], tail, hleft, by rw [hsplit']; simp, rfl⟩
    | cons c gap =>
      obtain ⟨rfl, -⟩ := List.cons.inj he
      exact absurd (by rw [hsplit']; simp) (hnot hleft)

/-- A text cut short in front of a backtick is no JSON, and holds nothing that is. -/
theorem not_read_front {cs front rest : List Char} {fields : List (String × Json)}
    (h : Json.read (trim cs) = .ok (.obj fields)) (hcs : cs = front ++ '`' :: rest) :
    trim front ≠ [] ∧ (∀ v, Json.read (trim front) ≠ .ok v) ∧ bracketed? (trim front) = none := by
  obtain ⟨left, front', rest', hleft, rfl, hcore⟩ := exists_core_front hcs
  have hself : bracketed? (trim cs) = some (trim cs) := by rw [bracketed_self h rfl, trim_trim]
  obtain ⟨c, inner, last, hhead, hc, -⟩ := exists_ends_of_bracketed? hself
  obtain ⟨tail', rfl⟩ : ∃ tail', front' = c :: tail' := by
    rw [hhead] at hcore
    cases front' with
    | nil => obtain ⟨rfl, -⟩ := List.cons.inj hcore; cases hc
    | cons d tail' => exact ⟨tail', by rw [(List.cons.inj hcore).1]⟩
  have hblank : isBlank c = false := isBlank_head?_trim (by rw [hhead]; rfl)
  have htrim : trim (left ++ c :: tail') = c :: trimRight tail' := by
    have hleft' : trimLeft (c :: tail') = c :: tail' := trimLeft_append_cons [] hblank tail'
    have hright : trimRight ([c] ++ tail') = [c] ++ trimRight tail' :=
      trimRight_append_of_getLast rfl hblank tail'
    rw [trim, trimLeft_blanks_append hleft, hleft']
    exact hright
  have hnone : bracketed? (c :: trimRight tail') = none := by
    rw [Option.eq_none_iff_forall_ne_some]
    intro part hpart
    obtain ⟨blanks, hblanks⟩ := trimRight_isPrefix tail'
    obtain ⟨hfound, hlength⟩ := bracketed?_append hpart (blanks ++ '`' :: rest')
    have hwhole : c :: trimRight tail' ++ (blanks ++ '`' :: rest') = trim cs := by
      calc c :: trimRight tail' ++ (blanks ++ '`' :: rest')
          = c :: (trimRight tail' ++ blanks) ++ '`' :: rest' := by simp
        _ = trim cs := by rw [hblanks, hcore]
    -- a part found in front of the cut would be found in the whole, which is one part by itself
    rw [← hwhole, hfound] at hself
    obtain rfl := Option.some.inj hself
    simp only [List.length_append, List.length_cons] at hlength
    omega
  rw [htrim]
  refine ⟨List.cons_ne_nil _ _, fun v hv => ?_, hnone⟩
  obtain ⟨part, hpart⟩ := exists_bracketed_of_opening hc hv
  rw [hnone] at hpart
  cases hpart

theorem plainChars_inFence {cs : List Char} (h : ∀ c ∈ cs, c.toNat < 128) :
    plainChars (inFence cs) = inFence cs := by
  have hopening : plainChars "```json\n".toList = "```json\n".toList := by decide +kernel
  have hclosing : plainChars "\n```".toList = "\n```".toList := by decide +kernel
  unfold inFence
  rw [plainChars_append, plainChars_append, hopening, hclosing, plainChars_ascii h]

theorem parse_ne_ok_of_infix {cs answer : List Char} {fields : List (String × Json)}
    (hascii : ∀ c ∈ cs, c.toNat < 128) (h : Json.read (trim cs) = .ok (.obj fields))
    (htrim : trim answer = inFence cs) (hfence : fence <:+: cs) (v : Json) : parse answer ≠ .ok v := by
  obtain ⟨front, rest, hcs, hfenced⟩ := fenced?_inFence_of_infix hfence
  have hcut : cs = front ++ '`' :: ('`' :: '`' :: rest) := hcs
  obtain ⟨hne, hread, hnone⟩ := not_read_front h hcut
  have htext : withoutFence (trim (inFence cs)) = trim front := by
    rw [← htrim, trim_trim, htrim, withoutFence, hfenced]
    rfl
  have hcandidates : (candidates (inFence cs)).bind firstValue? = .error .tooManyDigits ∨
      (candidates (inFence cs)).bind firstValue? = .ok none := by
    cases hfront : Json.read (trim front) with
    | ok v => exact absurd hfront (hread v)
    | error e =>
      cases e with
      | tooManyDigits =>
        left
        simp [candidates, repaired?, htext, hne, hfront, Except.bind]
      | malformed =>
        right
        simp [candidates, repaired?, htext, hne, hfront, hnone, firstValue?, valueOf?_inFence, Except.bind]
  intro hv
  simp only [parse, htrim, plainChars_inFence hascii] at hv
  rw [if_neg (by simp [inFence_eq])] at hv
  rcases hcandidates with hc | hc <;> simp [hc] at hv

/-- Without the commas in front of closing brackets an object is an object still. -/
theorem exists_read_withoutTrailingCommas {cs : List Char} {fields : List (String × Json)}
    (h : Json.read cs = .ok (.obj fields)) :
    ∃ altered, Json.read (withoutTrailingCommas cs) = .ok (.obj altered) := by
  obtain ⟨s, hrun, -⟩ := Json.read_eq_ok_iff.1 h
  obtain ⟨w, hw, hobj⟩ := (alike_withoutTrailingCommas (Json.written_of_read h) hrun).read h
  obtain ⟨altered, rfl⟩ := Json.exists_fields hobj
  exact ⟨altered, hw⟩

/-- An object that is read on its own is read in a fence, unless a string of it could end the fence.
Between words it is read as well, unless the whole can be read in another way, but without the commas
that stand in front of closing brackets, and its strings have such commas. -/
theorem parse_unwraps_object {cs : List Char} {fields : List (String × Json)}
    (hascii : ∀ c ∈ cs, c.toNat < 128) (h : Json.read (trim cs) = .ok (.obj fields)) :
    (∀ answer, trim answer = inFence cs →
        (parse answer = .ok (.obj fields) ↔ ¬ fence <:+: cs)) ∧
      ∃ altered, Json.read (withoutTrailingCommas (trim cs)) = .ok (.obj altered) ∧
        ∀ front back, (∀ c ∈ front, isProse c = true) → (∀ c ∈ back, isProse c = true) →
          OpensWithWord (plainChars (trim (front ++ (cs ++ back)))) ∨
            Unread (plainChars (trim (front ++ (cs ++ back)))) →
          parse (front ++ (cs ++ back)) = .ok (.obj altered) := by
  have hne : trim cs ≠ [] := by
    intro hnil
    rw [hnil, Json.read_nil] at h
    cases h
  have hcore : ∀ c ∈ trim cs, c.toNat < 128 := fun c hc => hascii c (mem_of_mem_trim hc)
  constructor
  · intro answer htrim
    refine ⟨fun hv hfence => parse_ne_ok_of_infix hascii h htrim hfence _ hv, fun hfence => ?_⟩
    have hplain : plainChars (trim answer) = inFence cs := by rw [htrim, plainChars_inFence hascii]
    have hpart : repaired? (inFence cs) = .ok (some (trim cs)) := by
      rw [repaired?, withoutFence, ← htrim, trim_trim, htrim, fenced?_inFence hfence hne]
      simp [hne, h]
    rw [← hplain] at hpart
    exact parse_of_part (hplain ▸ valueOf?_inFence cs) hpart (plainChars_ascii hcore) h
  · obtain ⟨altered, haltered⟩ := exists_read_withoutTrailingCommas h
    refine ⟨altered, haltered, fun front back hfront hback hunread => ?_⟩
    obtain ⟨left, right, hleft, hright, htext⟩ := exists_around hascii hne hfront hback
    rw [htext] at hunread
    have hunread : Unread (left ++ (trim cs ++ right)) :=
      hunread.elim (unread_of_opensWithWord h (trim_trim cs)) id
    have hpart := repaired?_around h (trim_trim cs) hleft hright hunread.trimmed
    rw [← htext] at hunread hpart
    refine parse_of_part hunread.value hpart (plainChars_ascii fun c hc => ?_) haltered
    exact hcore c ((withoutTrailingCommas_sublist _).subset hc)

theorem parse_unwraps_object_sample :
    parse ("\n".toList ++ inFence "\x7b\"a\": 1\x7d".toList) = .ok (.obj [("a", .int 1)]) ∧
      parse ("Here: ".toList ++ ("\x7b\"a\": \",]\"\x7d".toList ++ "!".toList)) =
        .ok (.obj [("a", .str "]")]) := by
  have hone : Json.read (trim "\x7b\"a\": 1\x7d".toList) = .ok (.obj [("a", .int 1)]) := by with_unfolding_all rfl
  have hcomma : Json.read (trim "\x7b\"a\": \",]\"\x7d".toList) = .ok (.obj [("a", .str ",]")]) := by
    with_unfolding_all rfl
  have hopening : OpensWithWord (plainChars (trim ("Here: ".toList ++
      ("\x7b\"a\": \",]\"\x7d".toList ++ "!".toList)))) :=
    ⟨"Here".toList, ": \x7b\"a\": \",]\"\x7d!".toList, rfl,
      ⟨⟨'H', rfl, rfl⟩, List.all_eq_true.1 rfl, by rintro c ⟨⟩; decide, by decide⟩⟩
  refine ⟨((parse_unwraps_object (by simp) hone).1 _ rfl).2 (by decide +kernel), ?_⟩
  obtain ⟨altered, haltered, hparse⟩ := (parse_unwraps_object (by simp) hcomma).2
  have hcut : Json.read (withoutTrailingCommas (trim "\x7b\"a\": \",]\"\x7d".toList)) =
      .ok (.obj [("a", .str "]")]) := by with_unfolding_all rfl
  rw [hcut] at haltered
  obtain rfl := Json.obj.inj (Except.ok.inj haltered)
  exact hparse _ _ (List.all_eq_true.1 rfl) (List.all_eq_true.1 rfl) (.inl hopening)

end Codemod.Reply
