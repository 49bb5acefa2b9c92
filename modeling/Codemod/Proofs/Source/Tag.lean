import Codemod.Source.Tag
import Codemod.Proofs.Source.Found
import Codemod.Proofs.Source.Inert
import Codemod.Proofs.Text.Span
import Mathlib.Tactic.Tauto

/-! Tags as the text shows them: what a tag name is made of, where a live tag of a name stands, and how
far one has to look to recognise it. -/
namespace Codemod.Source
open Text

/-- The name of a markup element: words joined by dots, colons and hyphens. -/
structure TagName (name : List Char) : Prop where
  ne_nil : name ≠ []
  chars : ∀ c ∈ name, isAttributeChar c = true

/-! ## Characters of a name -/

/-- The code points of the blank characters. -/
def blankCodes : List Nat :=
  List.range' 9 5 ++ List.range' 28 5 ++ [0x85, 0xA0, 0x1680] ++ List.range' 0x2000 11 ++
    [0x2028, 0x2029, 0x202F, 0x205F, 0x3000]

theorem mem_blankCodes {c : Char} (h : isBlank c = true) : c.toNat ∈ blankCodes := by
  unfold isBlank at h
  simp only [blankCodes, List.mem_append, List.mem_range'_1, List.mem_cons, List.not_mem_nil,
    or_false]
  dsimp only at h
  split at h
  · simp only [Bool.or_eq_true, Bool.and_eq_true, decide_eq_true_eq] at h
    omega
  · simp only [inRanges, blankRanges, List.any_cons, List.any_nil, Bool.or_eq_true,
      Bool.and_eq_true, decide_eq_true_eq, Bool.or_false] at h
    omega

/-- What is said of a blank character can be settled code point by code point. -/
theorem forall_isBlank {p : Char → Prop} (h : ∀ n ∈ blankCodes, p (Char.ofNat n)) {c : Char}
    (hc : isBlank c = true) : p c := by
  have hp := h c.toNat (mem_blankCodes hc)
  rwa [Char.ofNat_toNat] at hp

theorem isAttributeChar_of_isBlank {c : Char} (h : isBlank c = true) :
    isAttributeChar c = false := by
  refine forall_isBlank (p := fun c => isAttributeChar c = false) ?_ h
  decide +kernel

/-- The characters that a name does not hold. -/
theorem ne_of_isAttributeChar {c d : Char} (h : isAttributeChar c = true)
    (hd : isAttributeChar d = false) : c ≠ d := by
  rintro rfl
  rw [h] at hd
  cases hd

theorem inertFrames_of_isAttributeChar {c : Char} (h : isAttributeChar c = true)
    (rest : List Char) : inertFrames c rest = [] := by
  have hslash : c ≠ '/' := ne_of_isAttributeChar h (by decide)
  have hsingle : c ≠ '\'' := ne_of_isAttributeChar h (by decide)
  have hdouble : c ≠ '"' := ne_of_isAttributeChar h (by decide)
  have htick : c ≠ '`' := ne_of_isAttributeChar h (by decide)
  simp [inertFrames, quoteFrames, isQuote, hslash, hsingle, hdouble, htick]

/-! ## Tags -/

/-- The characters in front of the name of a tag that stands at the head of `cs`. -/
def tagLead? (name : List Char) (behind : Option Char) (cs : List Char) : Option (List Char) :=
  if (openingTag name behind cs).isSome then some ['<']
  else if (closingTag name behind cs).isSome then some ['<', '/']
  else none

/-- A tag of the name, opening or closing, stands at the offset, outside literals and comments. -/
def LiveTag (name text : List Char) (i : Nat) : Prop :=
  ¬ Covered text i ∧ (tagLead? name (text.take i).getLast? (text.drop i)).isSome

/-- What stands behind the name of a tag: a blank, or the end of the tag. -/
def EndsName (cs : List Char) : Prop :=
  ∃ c rest, cs = c :: rest ∧ (isBlank c = true ∨ c = '/' ∨ c = '>')

theorem EndsName.head?_not_isAttributeChar {cs : List Char} (h : EndsName cs) :
    ∀ c ∈ cs.head?, isAttributeChar c = false := by
  obtain ⟨c, rest, rfl, hc⟩ := h
  intro d hd
  obtain rfl : c = d := by simpa using hd
  rcases hc with hc | rfl | rfl
  · exact isAttributeChar_of_isBlank hc
  · decide
  · decide

theorem EndsName.head?_ne {cs : List Char} (h : EndsName cs) : cs.head? ≠ some '<' := by
  obtain ⟨c, rest, rfl, hc⟩ := h
  intro hlt
  obtain rfl : c = '<' := by simpa using hlt
  rcases hc with hc | hc | hc
  · exact absurd hc (by decide)
  · cases hc
  · cases hc

theorem EndsName.of_head {cs ds : List Char} (h : EndsName cs) (heq : ds.head? = cs.head?) :
    EndsName ds := by
  obtain ⟨c, rest, rfl, hc⟩ := h
  obtain ⟨rest', rfl⟩ := List.head?_eq_some_iff.1 heq
  exact ⟨c, rest', rfl, hc⟩

/-- A name does not begin with a slash, which tells opening and closing tags apart. -/
theorem TagName.append_ne_slash {name : List Char} (h : TagName name) (cs ds : List Char) :
    name ++ cs ≠ '/' :: ds := by
  obtain ⟨c, tail, rfl⟩ := List.exists_cons_of_ne_nil h.ne_nil
  intro heq
  have hc : c = '/' := (List.cons.inj heq).1
  exact ne_of_isAttributeChar (h.chars c (by simp)) (by decide) hc

theorem TagName.not_mem {name : List Char} (h : TagName name) : '<' ∉ name := fun hm =>
  ne_of_isAttributeChar (h.chars _ hm) (by decide) rfl

/-- A name reaches as far as its characters do, so two names in front of an end are one. -/
theorem name_unique {name other cs ds : List Char} (hn : ∀ c ∈ name, isAttributeChar c = true)
    (ho : ∀ c ∈ other, isAttributeChar c = true) (hc : EndsName cs) (hd : EndsName ds)
    (h : name ++ cs = other ++ ds) : name = other :=
  (span_unique hn ho hc.head?_not_isAttributeChar hd.head?_not_isAttributeChar h).1

theorem openingTag_eq_some {name cs : List Char} {behind : Option Char} {n : Nat}
    (h : openingTag name behind cs = some ((), n)) :
    behind.any endsOperand = false ∧ n = name.length + 1 ∧
      ∃ rest, cs = '<' :: (name ++ rest) ∧ EndsName rest := by
  unfold openingTag at h
  split at h
  · cases h
  · next hbehind =>
    split at h
    · next c rest hafter =>
      split at h
      · next hc =>
        cases h
        refine ⟨by simpa using hbehind, rfl, c :: rest, after?_eq_some_iff.1 hafter, c, rest, rfl, ?_⟩
        simp only [Bool.or_eq_true, beq_iff_eq] at hc
        tauto
      · cases h
    · cases h

theorem closingTag_eq_some {name cs : List Char} {behind : Option Char} {n : Nat}
    (h : closingTag name behind cs = some ((), n)) :
    n = name.length + 2 ∧ ∃ rest, cs = '<' :: '/' :: (name ++ rest) ∧ EndsName rest := by
  unfold closingTag at h
  split at h
  · next rest hafter =>
    split at h
    · next hclose =>
      cases h
      refine ⟨rfl, rest, after?_eq_some_iff.1 hafter, ?_⟩
      cases rest with
      | nil => simp [trimLeft] at hclose
      | cons c rest =>
        refine ⟨c, rest, rfl, ?_⟩
        by_cases hc : isBlank c = true
        · exact .inl hc
        · have htrim : trimLeft (c :: rest) = c :: rest := by simp [trimLeft, hc]
          rw [htrim] at hclose
          exact .inr (.inr (by simpa using hclose))
    · cases h
  · cases h

theorem ledBy_openingTag {name : List Char} (h : TagName name) :
    LedBy '<' (openingTag name) := by
  intro behind cs a n hread
  obtain ⟨-, rfl, rest, rfl, -⟩ := openingTag_eq_some hread
  exact ⟨name, rest, rfl, rfl, h.not_mem⟩

theorem ledBy_closingTag {name : List Char} (h : TagName name) :
    LedBy '<' (closingTag name) := by
  intro behind cs a n hread
  obtain ⟨rfl, rest, rfl, -⟩ := closingTag_eq_some hread
  exact ⟨'/' :: name, rest, rfl, rfl, by simp [h.not_mem]⟩

theorem tagLead?_eq_some {name cs lead : List Char} {behind : Option Char}
    (hlead : tagLead? name behind cs = some lead) :
    (lead = ['<'] ∨ lead = ['<', '/']) ∧ ∃ rest, cs = lead ++ name ++ rest ∧ EndsName rest := by
  unfold tagLead? at hlead
  split at hlead
  · next hopen =>
    cases hlead
    obtain ⟨⟨⟨⟩, n⟩, hread⟩ := Option.isSome_iff_exists.1 hopen
    obtain ⟨-, -, rest, rfl, hrest⟩ := openingTag_eq_some hread
    exact ⟨.inl rfl, rest, rfl, hrest⟩
  · split at hlead
    · next hclose =>
      cases hlead
      obtain ⟨⟨⟨⟩, n⟩, hread⟩ := Option.isSome_iff_exists.1 hclose
      obtain ⟨-, rest, rfl, hrest⟩ := closingTag_eq_some hread
      exact ⟨.inr rfl, rest, rfl, hrest⟩
    · cases hlead

@[simp] theorem tagLead?_nil (name : List Char) (behind : Option Char) :
    tagLead? name behind [] = none := by
  simp [tagLead?, openingTag, closingTag, after?]

/-- A tag begins with `<`. -/
theorem tagLead?_eq_none {name : List Char} {behind : Option Char} {c : Char} (hc : c ≠ '<')
    (cs : List Char) : tagLead? name behind (c :: cs) = none := by
  by_contra h
  obtain ⟨lead, hlead⟩ := Option.ne_none_iff_exists'.1 h
  obtain ⟨rfl | rfl, rest, hcs, -⟩ := tagLead?_eq_some hlead
  · exact hc (List.cons.inj hcs).1
  · exact hc (List.cons.inj hcs).1

/-- A tag up to the end of its name has one `<`, in front. -/
theorem exists_tag_body {lead name : List Char} (hlead : lead = ['<'] ∨ lead = ['<', '/'])
    (hname : TagName name) : ∃ body, lead ++ name = '<' :: body ∧ '<' ∉ body := by
  rcases hlead with rfl | rfl
  · exact ⟨name, rfl, hname.not_mem⟩
  · exact ⟨'/' :: name, rfl, by simp [hname.not_mem]⟩

/-- Nothing in a tag up to the end of its name opens a literal or comment. -/
theorem plain_tag {lead name : List Char} (hlead : lead = ['<'] ∨ lead = ['<', '/'])
    (hname : TagName name) (rest : List Char) : Plain (lead ++ name) rest := by
  have hchars : Plain name rest := by
    have hall := hname.chars
    clear hname
    induction name with
    | nil => trivial
    | cons c name ih =>
      exact ⟨inertFrames_of_isAttributeChar (hall c (by simp)) _,
        ih fun d hd => hall d (by simp [hd])⟩
  have hlt (ds : List Char) : inertFrames '<' ds = [] := rfl
  rcases hlead with rfl | rfl
  · exact ⟨hlt _, hchars⟩
  · obtain ⟨c, tail, rfl⟩ := List.exists_cons_of_ne_nil hname.ne_nil
    have hslash : c ≠ '/' := ne_of_isAttributeChar (hname.chars c (by simp)) (by decide)
    have hstar : c ≠ '*' := ne_of_isAttributeChar (hname.chars c (by simp)) (by decide)
    exact ⟨hlt _, by simp [inertFrames, hslash, hstar], hchars⟩

/-! ## How far one has to look -/

/-- A text up to its first `<`, which is the last character kept. -/
def stem : List Char → List Char
  | [] => []
  | c :: cs => if c = '<' then ['<'] else c :: stem cs

theorem head?_stem (cs : List Char) : (stem cs).head? = cs.head? := by
  cases cs with
  | nil => rfl
  | cons c cs => by_cases h : c = '<' <;> simp [stem, h]

theorem trimLeft_stem (cs : List Char) : (trimLeft (stem cs)).head? = (trimLeft cs).head? := by
  induction cs with
  | nil => rfl
  | cons c cs ih =>
    by_cases h : c = '<'
    · subst h
      have hb : isBlank '<' = false := by decide
      simp [stem, trimLeft, hb]
    · by_cases hb : isBlank c = true
      · simpa [stem, h, trimLeft, hb] using ih
      · simp [stem, h, trimLeft, hb]

theorem after?_stem {piece : List Char} (h : '<' ∉ piece) (cs : List Char) :
    after? piece (stem cs) = (after? piece cs).map stem := by
  induction piece generalizing cs with
  | nil => simp [after?]
  | cons p piece ih =>
    have hp : p ≠ '<' := fun hp => h (by simp [hp])
    have hpiece : '<' ∉ piece := fun hm => h (by simp [hm])
    cases cs with
    | nil => rfl
    | cons c cs =>
      by_cases hc : c = '<'
      · subst hc
        simp [stem, after?, hp]
      · by_cases hpc : p = c
        · simp [stem, hc, after?, hpc, ih hpiece]
        · simp [stem, hc, after?, hpc]

/-- Whether a tag begins here is settled before the next one can begin. -/
theorem tagLead?_stem {name : List Char} (h : TagName name) (behind : Option Char)
    (cs : List Char) : tagLead? name behind ('<' :: stem cs) = tagLead? name behind ('<' :: cs) := by
  have hname : '<' ∉ name := h.not_mem
  have hclosing : '<' ∉ '/' :: name := by simp [hname]
  have hopen : (openingTag name behind ('<' :: stem cs)).isSome =
      (openingTag name behind ('<' :: cs)).isSome := by
    simp only [openingTag, after?, if_true, after?_stem hname]
    cases after? name cs with
    | none => rfl
    | some rest =>
      cases rest with
      | nil => rfl
      | cons c rest => by_cases hc : c = '<' <;> simp [stem, hc]
  have hclose : (closingTag name behind ('<' :: stem cs)).isSome =
      (closingTag name behind ('<' :: cs)).isSome := by
    have hafter (ds : List Char) : after? ('<' :: '/' :: name) ('<' :: ds) =
        after? ('/' :: name) ds := rfl
    simp only [closingTag, hafter, after?_stem hclosing]
    cases after? ('/' :: name) cs with
    | none => rfl
    | some rest =>
      simp only [Option.map_some, trimLeft_stem]
  rw [tagLead?, tagLead?, hopen, hclose]

end Codemod.Source
