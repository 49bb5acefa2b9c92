import Codemod.Proofs.Json.Alike
import Codemod.Proofs.Reply.Fence
import Codemod.Reply.Value

/-! Answers that are JSON as they stand. What is looked for in other answers, a fence or typographic
characters, can stand in their strings: a fence is never found there, since no line ends in a string,
while the characters are exchanged wherever they stand. -/
namespace Codemod.Reply
open Text

/-! ## Typographic characters -/

theorem foreign_of_typographic {c : Char} (h : plainChar? c ≠ some c) : Json.Foreign c := by
  unfold plainChar? at h
  split at h
  all_goals first | exact ⟨rfl, rfl, by decide, rfl⟩ | exact absurd rfl h

theorem plainChar?_of_isSpace {c : Char} (h : Json.isSpace c = true) : plainChar? c = some c := by
  by_contra hne
  rw [(foreign_of_typographic hne).space] at h
  cases h

theorem plainChar?_of_sign {c : Char} {t : Json.Token} (h : Json.punctuation? c = some t) :
    plainChar? c = some c := by
  by_contra hne
  rw [(foreign_of_typographic hne).sign] at h
  cases h

theorem plainChar?_of_isAtomChar {c : Char} (h : Json.isAtomChar c = true) : plainChar? c = some c := by
  by_contra hne
  rw [(foreign_of_typographic hne).atom] at h
  cases h

theorem plainChar?_eq_of_head {cs : List Char} {ts : List Json.Token} (h : Json.Written cs ts) {c : Char}
    (hc : cs.head? = some c) : plainChar? c = some c := by
  cases h with
  | nil => cases hc
  | space hspace => cases hc; exact plainChar?_of_isSpace hspace
  | sign hsign => cases hc; exact plainChar?_of_sign hsign
  | string => cases hc; rfl
  | @atom lex _ _ _ hlex hatom =>
    obtain ⟨d, lex, rfl⟩ := List.exists_cons_of_ne_nil hlex
    cases hc
    exact plainChar?_of_isAtomChar (hatom c (by simp))

theorem plainChar?_eq_of_getLast {cs : List Char} {ts : List Json.Token} (h : Json.Written cs ts)
    {c : Char} (hc : cs.getLast? = some c) : plainChar? c = some c := by
  by_contra hne
  obtain ⟨front, rfl⟩ := List.getLast?_eq_some_iff.1 hc
  obtain ⟨inner, after, he, -⟩ := h.quote_behind (foreign_of_typographic hne) rfl
  simp at he

theorem plainChars_append (cs ds : List Char) : plainChars (cs ++ ds) = plainChars cs ++ plainChars ds :=
  List.filterMap_append

theorem plainChars_eq_self {cs : List Char} (h : ∀ c ∈ cs, plainChar? c = some c) :
    plainChars cs = cs := by
  induction cs with
  | nil => rfl
  | cons c cs ih =>
    rw [List.forall_mem_cons] at h
    rw [plainChars, List.filterMap_cons, h.1]
    exact congrArg (c :: ·) (ih h.2)

/-- Typographic characters are not at the ends of a JSON text, so nothing is left to trim there. -/
theorem trim_plainChars {cs : List Char} {ts : List Json.Token} (h : Json.Written (trim cs) ts) :
    trim (plainChars (trim cs)) = plainChars (trim cs) := by
  refine trim_eq_self (fun c hc => ?_) fun c hc => ?_
  · cases hcs : trim cs with
    | nil => simp [hcs, plainChars] at hc
    | cons d rest =>
      have hhead : (trim cs).head? = some d := by rw [hcs]; rfl
      rw [hcs, plainChars, List.filterMap_cons, plainChar?_eq_of_head h hhead] at hc
      cases hc
      exact isBlank_head?_trim hhead
  · rcases List.eq_nil_or_concat (trim cs) with hcs | ⟨front, d, hcs⟩
    · simp [hcs, plainChars] at hc
    · rw [List.concat_eq_append] at hcs
      have hlast : (trim cs).getLast? = some d := by rw [hcs, List.getLast?_concat]
      have hd : plainChars [d] = [d] :=
        plainChars_eq_self (by simpa using plainChar?_eq_of_getLast h hlast)
      rw [hcs, plainChars_append, hd, List.getLast?_concat] at hc
      cases hc
      exact isBlank_getLast?_trim hlast

theorem plainChars_ascii {cs : List Char} (h : ∀ c ∈ cs, c.toNat < 128) : plainChars cs = cs := by
  refine plainChars_eq_self fun c hc => ?_
  have hlow := h c hc
  unfold plainChar?
  split <;> first | rfl | exact absurd hlow (by decide)

/-- What may stand in a string may stand there with its characters exchanged, unless one of them becomes
the quote that ends it. -/
theorem quotable_plainChars {raw : List Char} (h : Json.Quotable raw)
    (hquotes : ∀ c ∈ raw, c ≠ '\u201C' ∧ c ≠ '\u201D') : Json.Quotable (plainChars raw) := by
  induction h with
  | nil => exact .nil
  | @plain c cs hquote hslash hc _ ih =>
    rw [List.forall_mem_cons] at hquotes
    have hcs := ih hquotes.2
    rw [plainChars, List.filterMap_cons]
    unfold plainChar?
    split
    · exact hcs
    · next d hd =>
      split at hd <;> cases hd
      · exact absurd rfl hquotes.1.1
      · exact absurd rfl hquotes.1.2
      · exact .plain (by decide) (by decide) (by decide) hcs
      · exact .plain (by decide) (by decide) (by decide) hcs
      · exact .plain (by decide) (by decide) (by decide) hcs
      · exact .plain hquote hslash hc hcs
  | @escape e cs he _ ih =>
    rw [List.forall_mem_cons, List.forall_mem_cons] at hquotes
    have hplain : plainChar? e = some e := by
      unfold Json.simpleEscape? at he
      split at he <;> first | rfl | cases he
    rw [plainChars, List.filterMap_cons, List.filterMap_cons, hplain]
    exact .escape he (ih hquotes.2.2)
  | @unit hex cs hlength hhex _ ih =>
    rw [List.forall_mem_cons, List.forall_mem_cons, List.forall_mem_append] at hquotes
    have hplain : plainChars ('\\' :: 'u' :: hex) = '\\' :: 'u' :: hex := by
      refine plainChars_ascii ?_
      rw [List.forall_mem_cons, List.forall_mem_cons]
      refine ⟨by decide, by decide, fun c hc => ?_⟩
      have := Json.toNat_hexDigit (Json.hexDigits_of_hexValue hhex c hc)
      omega
    rw [← List.cons_append, ← List.cons_append, plainChars_append, hplain]
    exact .unit hlength hhex (ih hquotes.2.2.2)

/-- Outside strings no character is exchanged. -/
theorem alike_plainChars {cs : List Char} {ts : List Json.Token} (h : Json.Written cs ts)
    (hquotes : ∀ c ∈ cs, c ≠ '\u201C' ∧ c ≠ '\u201D') : Json.Alike cs (plainChars cs) := by
  have hkept {lex cs : List Char} (hlex : ∀ c ∈ lex, plainChar? c = some c ∧ c ≠ '"')
      (h : Json.Alike cs (plainChars cs)) : Json.Alike (lex ++ cs) (plainChars (lex ++ cs)) := by
    rw [plainChars_append, plainChars_eq_self fun c hc => (hlex c hc).1]
    exact h.behind fun hmem => (hlex _ hmem).2 rfl
  induction h with
  | nil => exact .plain List.not_mem_nil
  | @space c cs ts hc _ ih =>
    have hquote : c ≠ '"' := by rintro rfl; cases hc
    rw [List.forall_mem_cons] at hquotes
    exact hkept (List.forall_mem_singleton.2 ⟨plainChar?_of_isSpace hc, hquote⟩) (ih hquotes.2)
  | @sign c t cs ts hc _ ih =>
    have hquote : c ≠ '"' := by rintro rfl; cases hc
    rw [List.forall_mem_cons] at hquotes
    exact hkept (List.forall_mem_singleton.2 ⟨plainChar?_of_sign hc, hquote⟩) (ih hquotes.2)
  | @string raw text cs ts hraw _ ih =>
    rw [List.forall_mem_cons, List.forall_mem_append, List.forall_mem_cons] at hquotes
    have htext : plainChars (raw ++ '"' :: cs) = plainChars raw ++ '"' :: plainChars cs :=
      plainChars_append raw ('"' :: cs)
    rw [show plainChars ('"' :: (raw ++ '"' :: cs)) = '"' :: plainChars (raw ++ '"' :: cs) from rfl, htext]
    exact .string List.not_mem_nil hraw (quotable_plainChars hraw hquotes.2.1) (ih hquotes.2.2.2)
  | @atom lex t cs ts _ hlex _ _ ih =>
    rw [List.forall_mem_append] at hquotes
    refine hkept (fun c hc => ⟨plainChar?_of_isAtomChar (hlex c hc), ?_⟩) (ih hquotes.2)
    rintro rfl
    exact absurd (hlex _ hc) (by decide)

/-! ## Reading -/

theorem repaired?_of_read {text : List Char} {v : Json} (h : Json.read text = .ok v)
    (htrim : trim text = text) : repaired? text = .ok (some text) := by
  have hfence : withoutFence text = text := by
    rw [withoutFence, (sheltered_of_read h).fenced?_eq_none]
    rfl
  have hne : text.isEmpty = false := by
    cases text with
    | nil => rw [Json.read_nil] at h; cases h
    | cons => rfl
  simp [repaired?, htrim, hfence, hne, h]

theorem parse_of_read {answer : List Char} {v : Json} (h : Json.read (plainChars (trim answer)) = .ok v)
    (htrim : trim (plainChars (trim answer)) = plainChars (trim answer)) : parse answer = .ok v := by
  have hne : (trim answer).isEmpty = false := by
    cases hanswer : trim answer with
    | nil =>
      rw [hanswer, show plainChars [] = [] from rfl, Json.read_nil] at h
      cases h
    | cons => rfl
  simp [parse, hne, candidates, repaired?_of_read h htrim, firstValue?, valueOf?, h, Except.bind]

/-- An answer that is JSON is read as its value when no character in it is exchanged. When some are, it is
read as the value of what that leaves, which is JSON unless a typographic quote has become a plain one. -/
theorem parse_reads_json {answer : List Char} {v : Json} (h : Json.read (trim answer) = .ok v) :
    ((∀ c ∈ trim answer, plainChar? c = some c) → parse answer = .ok v) ∧
      ((∀ c ∈ trim answer, c ≠ '\u201C' ∧ c ≠ '\u201D') →
        ∃ w, Json.read (plainChars (trim answer)) = .ok w) ∧
      ∀ w, Json.read (plainChars (trim answer)) = .ok w → parse answer = .ok w := by
  have hwritten := Json.written_of_read h
  have htrim := trim_plainChars hwritten
  refine ⟨fun hplain => parse_of_read ?_ htrim, fun hquotes => ?_, fun w hw => parse_of_read hw htrim⟩
  · rw [plainChars_eq_self hplain, h]
  · obtain ⟨w, hw, -⟩ := (alike_plainChars hwritten hquotes).read h
    exact ⟨w, hw⟩

theorem parse_reads_json_sample :
    parse " [1, \"a\"]\n".toList = .ok (.arr [.int 1, .str "a"]) ∧
      parse "[\"a\u00A0b\"]".toList = .ok (.arr [.str "a b"]) := by
  have hplain : Json.read (trim " [1, \"a\"]\n".toList) = .ok (.arr [.int 1, .str "a"]) := by with_unfolding_all rfl
  have hspace : Json.read (trim "[\"a\u00A0b\"]".toList) = .ok (.arr [.str "a\u00A0b"]) := by with_unfolding_all rfl
  have hchars : (trim " [1, \"a\"]\n".toList).all (fun c => plainChar? c == some c) = true := by decide +kernel
  exact ⟨(parse_reads_json hplain).1 fun c hc => eq_of_beq (List.all_eq_true.1 hchars c hc),
    (parse_reads_json hspace).2.2 _ (by with_unfolding_all rfl)⟩

end Codemod.Reply
