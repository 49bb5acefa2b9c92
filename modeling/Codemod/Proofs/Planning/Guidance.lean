import Codemod.Planning.Guidance
import Codemod.Proofs.Text.Span
import Mathlib.Data.List.Chain

/-! Bullets from migration notes. They are taken from the first six sentences around a keyword, so a short
sentence among these leaves a place unused; the first six of the longer sentences they are only when no place
is wasted or nothing is left that could have taken it. -/
namespace Codemod.Guidance
open Text

/-! ## The keyword -/

/-- The keywords that are looked for. -/
def wanted (keywords : List String) : List (List Char) := (keywords.filter (· != "")).map String.toList

/-- No wanted keyword stands further in front than this one, nor one listed before it at the same place. -/
def MentionsFirst (keywords : List String) (text keyword : List Char) : Prop :=
  ∃ i, IsLeast {i | ∃ v ∈ wanted keywords, Occurs v text i} i ∧
    (wanted keywords).find? (·.isPrefixOf (text.drop i)) = some keyword

theorem ne_nil_of_mem_wanted {keywords : List String} {v : List Char} (h : v ∈ wanted keywords) : v ≠ [] := by
  obtain ⟨s, hs, rfl⟩ := List.mem_map.1 h
  have hne : s ≠ "" := by simpa using (List.mem_filter.1 hs).2
  exact fun hnil => hne (String.toList_eq_nil_iff.1 hnil)

theorem find?_isPrefixOf_eq_none_iff {words : List (List Char)} {cs : List Char} :
    words.find? (·.isPrefixOf cs) = none ↔ ∀ v ∈ words, ¬ Occurs v cs 0 := by
  simp only [List.find?_eq_none, List.isPrefixOf_iff_prefix, Occurs, List.drop_zero]

theorem keywordIn?_eq_some {words : List (List Char)} {text keyword : List Char}
    (h : keywordIn? words text = some keyword) :
    ∃ i, IsLeast {i | ∃ v ∈ words, Occurs v text i} i ∧
      words.find? (·.isPrefixOf (text.drop i)) = some keyword := by
  induction text with
  | nil => cases h
  | cons c cs ih =>
    rcases Option.or_eq_some_iff.1 h with hfind | ⟨hnone, hlater⟩
    · have hprefix : keyword.isPrefixOf (c :: cs) = true := by
        simpa using List.find?_some hfind
      exact ⟨0, ⟨⟨keyword, List.mem_of_find?_eq_some hfind, List.isPrefixOf_iff_prefix.1 hprefix⟩,
        fun _ _ => Nat.zero_le _⟩, hfind⟩
    · obtain ⟨i, ⟨hmention, hleast⟩, hfind⟩ := ih hlater
      refine ⟨i + 1, ⟨hmention, fun k hk => ?_⟩, hfind⟩
      cases k with
      | zero =>
        obtain ⟨v, hv, hat⟩ := hk
        exact absurd hat (find?_isPrefixOf_eq_none_iff.1 hnone v hv)
      | succ k => exact Nat.succ_le_succ (hleast hk)

theorem not_occurs_of_keywordIn? {words : List (List Char)} (hwords : ∀ v ∈ words, v ≠ []) {text : List Char}
    (h : keywordIn? words text = none) : ∀ v ∈ words, ∀ i, ¬ Occurs v text i := by
  induction text with
  | nil =>
    intro v hv i hat
    rw [Occurs, List.drop_nil, List.prefix_nil] at hat
    exact hwords v hv hat
  | cons c cs ih =>
    obtain ⟨hnone, hlater⟩ := Option.or_eq_none_iff.1 h
    intro v hv i
    cases i with
    | zero => exact find?_isPrefixOf_eq_none_iff.1 hnone v hv
    | succ i => exact ih hlater v hv i

/-! ## The passage -/

/-- What surrounds the first place of the keyword, or the head of a document that lacks it. -/
inductive Passage (document keyword : List Char) : List Char → Prop
  | around {i : Nat} (h : IsLeast {i | Occurs keyword document i} i) :
    Passage document keyword (between (i - radius) (i + radius) document)
  | head (h : ∀ i, ¬ Occurs keyword document i) : Passage document keyword (document.take (radius - 1))

theorem passage_excerpt (document keyword : List Char) : Passage document keyword (excerpt document keyword) := by
  rw [excerpt]
  cases hfind : find? keyword document with
  | some i =>
    have hlow : ((i : Int) - radius).toNat = i - radius := by omega
    have hhigh : ((i : Int) + radius).toNat = i + radius := by omega
    dsimp only
    rw [hlow, hhigh]
    exact .around (find?_eq_some_iff.1 hfind)
  | none => exact .head (find?_eq_none_iff.1 hfind)

/-! ## Sentences -/

/-- In the text no mark that ends a sentence stands in front of a blank. -/
def Whole (s : List Char) : Prop := s.IsChain fun a b => endsSentence a = true → isBlank b = false

/-- A text cut behind each mark that blanks follow, the mark and all these blanks left out. -/
inductive Sentences : List Char → List (List Char) → Prop
  | last {s : List Char} (hs : Whole s) : Sentences s [s]
  | cut {s gap rest : List Char} {mark : Char} {ss : List (List Char)} (hs : Whole (s ++ [mark]))
    (hmark : endsSentence mark = true) (hgap : gap ≠ []) (hblank : ∀ c ∈ gap, isBlank c = true)
    (hrest : ∀ c ∈ rest.head?, isBlank c = false) (h : Sentences rest ss) :
    Sentences (s ++ mark :: (gap ++ rest)) (s :: ss)

theorem whole_cons_iff {c : Char} {s : List Char} :
    Whole (c :: s) ↔ (endsSentence c && s.head?.any isBlank) = false ∧ Whole s := by
  cases s with
  | nil => simp [Whole]
  | cons d s => simp [Whole]

/-- Behind a mark the blanks are passed over. -/
theorem sentences_true (cs : List Char) : sentences true cs = sentences false (trimLeft cs) := by
  induction cs with
  | nil => rfl
  | cons c cs ih =>
    cases hc : isBlank c with
    | true =>
      rw [trimLeft, List.dropWhile_cons, if_pos hc, ← trimLeft, ← ih, sentences, hc]
      rfl
    | false =>
      rw [trimLeft, List.dropWhile_cons, hc, if_neg Bool.false_ne_true, sentences, sentences, hc]
      rfl

theorem sentences_ne_nil (cs : List Char) : sentences false cs ≠ [] := by
  cases cs with
  | nil => exact List.cons_ne_nil _ _
  | cons c cs =>
    rw [sentences, Bool.false_and, if_neg Bool.false_ne_true]
    split
    · exact List.cons_ne_nil _ _
    · split <;> exact List.cons_ne_nil _ _

theorem sentences_mark {c : Char} {cs : List Char} (h : (endsSentence c && cs.head?.any isBlank) = true) :
    sentences false (c :: cs) = [] :: sentences false (trimLeft cs) := by
  rw [sentences, Bool.false_and, if_neg Bool.false_ne_true, if_pos h, sentences_true]

theorem sentences_cons {c : Char} {cs s : List Char} {ss : List (List Char)}
    (h : (endsSentence c && cs.head?.any isBlank) = false) (hcs : sentences false cs = s :: ss) :
    sentences false (c :: cs) = (c :: s) :: ss := by
  rw [sentences, Bool.false_and, if_neg Bool.false_ne_true, if_neg (by rw [h]; exact Bool.false_ne_true), hcs]

theorem Sentences.cons {c : Char} {cs s : List Char} {ss : List (List Char)}
    (hc : (endsSentence c && cs.head?.any isBlank) = false) (h : Sentences cs (s :: ss)) :
    Sentences (c :: cs) ((c :: s) :: ss) := by
  cases h with
  | last hs => exact .last (whole_cons_iff.2 ⟨hc, hs⟩)
  | @cut _ gap rest mark _ hs hmark hgap hblank hrest h =>
    have hhead : (s ++ mark :: (gap ++ rest)).head? = (s ++ [mark]).head? := by cases s <;> rfl
    rw [hhead] at hc
    exact .cut (s := c :: s) (whole_cons_iff.2 ⟨hc, hs⟩) hmark hgap hblank hrest h

theorem sentences_spec (cs : List Char) : Sentences cs (sentences false cs) := by
  induction hlen : cs.length using Nat.strong_induction_on generalizing cs with
  | _ n ih =>
    subst hlen
    cases cs with
    | nil => exact .last List.isChain_nil
    | cons c cs =>
      cases hc : endsSentence c && cs.head?.any isBlank with
      | true =>
        obtain ⟨hmark, hblank⟩ := Bool.and_eq_true_iff.1 hc
        have hsplit : cs = cs.takeWhile isBlank ++ trimLeft cs := List.takeWhile_append_dropWhile.symm
        have hgap : cs.takeWhile isBlank ≠ [] := by
          cases cs with
          | nil => cases hblank
          | cons d cs =>
            rw [List.takeWhile_cons, if_pos (by simpa using hblank)]
            exact List.cons_ne_nil _ _
        have hlater := ih _ (Nat.lt_succ_of_le (length_trimLeft_le cs)) (trimLeft cs) rfl
        have hblanks : ∀ d ∈ cs.takeWhile isBlank, isBlank d = true := fun d hd => List.mem_takeWhile_imp hd
        have hrest : ∀ d ∈ (trimLeft cs).head?, isBlank d = false := fun d hd => by
          have hhead := List.head?_dropWhile_not isBlank cs
          rwa [← trimLeft, hd] at hhead
        have hcut := Sentences.cut (s := []) (List.isChain_singleton c) hmark hgap hblanks hrest hlater
        rw [List.nil_append, ← hsplit] at hcut
        rwa [sentences_mark hc]
      | false =>
        have hlater := ih _ (Nat.lt_succ_self _) cs rfl
        obtain ⟨s, ss, heq⟩ := List.exists_cons_of_ne_nil (sentences_ne_nil cs)
        rw [heq] at hlater
        rw [sentences_cons hc heq]
        exact hlater.cons hc

theorem Sentences.eq_sentences {cs : List Char} {ss : List (List Char)} (h : Sentences cs ss) :
    ss = sentences false cs := by
  induction h with
  | @last s hs =>
    induction s with
    | nil => rfl
    | cons c s ih =>
      obtain ⟨hc, hs⟩ := whole_cons_iff.1 hs
      exact (sentences_cons hc (ih hs).symm).symm
  | @cut s gap rest mark ss hs hmark hgap hblank hrest _ ih =>
    induction s with
    | nil =>
      have htrim : trimLeft (gap ++ rest) = rest := dropWhile_span hblank hrest
      obtain ⟨d, gap, rfl⟩ := List.exists_cons_of_ne_nil hgap
      rw [List.nil_append, sentences_mark (by simp [hmark, hblank d]), htrim, ih]
    | cons c s ih' =>
      obtain ⟨hc, hs⟩ := whole_cons_iff.1 hs
      have hhead : (s ++ mark :: (gap ++ rest)).head? = (s ++ [mark]).head? := by cases s <;> rfl
      rw [List.append_eq, ← hhead] at hc
      exact (sentences_cons hc (ih' hs).symm).symm

/-! ## Bullets -/

/-- The sentence is long enough for a bullet. -/
def isLong (s : List Char) : Bool := minLength < (trim s).length

/-- Counting first and choosing then gives the same as the other way round only when all that are counted are
chosen, or nothing is chosen of the rest. -/
theorem map_filter_take_eq_iff {α β : Type} (p : α → Bool) (f : α → β) (n : Nat) (l : List α) :
    ((l.take n).filter p).map f = ((l.filter p).take n).map f ↔
      (∀ x ∈ l.take n, p x = true) ∨ ∀ x ∈ l.drop n, p x = false := by
  have hle : ((l.take n).filter p).length ≤ n := (List.length_filter_le _ _).trans (List.length_take_le _ _)
  have hsplit : (l.filter p).take n =
      (l.take n).filter p ++ ((l.drop n).filter p).take (n - ((l.take n).filter p).length) := by
    have happend : l.filter p = (l.take n).filter p ++ (l.drop n).filter p := by
      rw [← List.filter_append, List.take_append_drop]
    rw [happend, List.take_append, List.take_of_length_le hle]
  rw [hsplit, List.map_append, List.self_eq_append_right, List.map_eq_nil_iff]
  constructor
  · intro hnone
    rcases List.take_eq_nil_iff.1 hnone with hfull | hrest
    · have hlen := List.length_take_le n l
      have hfilter := List.length_filter_le p (l.take n)
      exact .inl (List.length_filter_eq_length_iff.1 (by omega))
    · exact .inr fun x hx => by simpa using List.filter_eq_nil_iff.1 hrest x hx
  · rintro (hall | hnone)
    · rw [List.filter_eq_self.2 hall]
      by_cases hlen : n ≤ l.length
      · rw [List.length_take_of_le hlen, Nat.sub_self, List.take_zero]
      · rw [List.drop_eq_nil_of_le (by omega), List.filter_nil, List.take_nil]
    · have hrest : (l.drop n).filter p = [] := List.filter_eq_nil_iff.2 fun x hx => by simp [hnone x hx]
      rw [hrest, List.take_nil]

def bullet (s : List Char) : String := String.ofList (trim s)

theorem bulletsOf_eq (passage : List Char) :
    bulletsOf passage = (((sentences false passage).take sentenceLimit).filter isLong).map bullet := by
  rw [bulletsOf]
  induction (sentences false passage).take sentenceLimit with
  | nil => rfl
  | cons s ss ih =>
    by_cases hs : minLength < (trim s).length
    · have hlong : isLong s = true := decide_eq_true hs
      rw [List.map_cons, List.filterMap_cons, if_pos hs, List.filter_cons, if_pos hlong, List.map_cons, ih]
      rfl
    · have hshort : ¬ isLong s = true := by simpa [isLong] using hs
      rw [List.map_cons, List.filterMap_cons, if_neg hs, List.filter_cons, if_neg hshort, ih]

/-- What guidance is taken from: a keyword of the hint or, when this has none, of the document, the passage around
it and the sentences of that. -/
structure Located (document hint : List Char) (keywords : List String) (keyword passage : List Char)
    (ss : List (List Char)) : Prop where
  mention : MentionsFirst keywords hint keyword ∨
    (∀ v ∈ wanted keywords, ∀ i, ¬ Occurs v hint i) ∧ MentionsFirst keywords document keyword
  around : Passage document keyword passage
  cut : Sentences passage ss

theorem located_of_ofText? {title : String} {document hint : List Char} {keywords : List String} {g : Guidance}
    (h : ofText? title document hint keywords = some g) : ∃ keyword passage ss,
      Located document hint keywords keyword passage ss ∧
      g.bullets = ((ss.take sentenceLimit).filter isLong).map bullet := by
  obtain ⟨keyword, hkeyword, rfl⟩ := Option.map_eq_some_iff.1 h
  refine ⟨keyword, excerpt document keyword, _, ⟨?_, passage_excerpt document keyword, sentences_spec _⟩,
    bulletsOf_eq _⟩
  rcases Option.or_eq_some_iff.1 hkeyword with hhint | ⟨hnone, hdocument⟩
  · exact .inl (keywordIn?_eq_some hhint)
  · exact .inr ⟨not_occurs_of_keywordIn? (fun _ => ne_nil_of_mem_wanted) hnone, keywordIn?_eq_some hdocument⟩

/-- The bullets are the long ones among the first six sentences of the passage. They are the first six of all long
sentences exactly when the first six sentences are long or no later one is. -/
theorem search_takes_bullets_iff {disk : Disk} {document : Path} {hint : String} {keywords : List String}
    {g : Guidance} (h : search disk document hint keywords = some g) :
    ∃ text keyword passage ss, disk.readLines document = .ok text ∧
      Located text.toList hint.toList keywords keyword passage ss ∧
      (∀ ss', Sentences passage ss' → ss' = ss) ∧
      g.bullets = ((ss.take sentenceLimit).filter isLong).map bullet ∧
      (g.bullets = ((ss.filter isLong).take sentenceLimit).map bullet ↔
        (∀ s ∈ ss.take sentenceLimit, isLong s = true) ∨ ∀ s ∈ ss.drop sentenceLimit, isLong s = false) := by
  rw [search] at h
  split at h
  · next text htext =>
    obtain ⟨keyword, passage, ss, hlocated, hbullets⟩ := located_of_ofText? h
    refine ⟨text, keyword, passage, ss, htext, hlocated, fun ss' h' => ?_, hbullets, ?_⟩
    · rw [h'.eq_sentences, hlocated.cut.eq_sentences]
    · rw [hbullets]
      exact map_filter_take_eq_iff _ _ _ _
  · cases h

namespace Sample

def notes : String := "A. B. C. D. E. F. Switch is now called Routes."

def disk : Disk := ⟨[], [(["notes.md"], .file notes.toUTF8)]⟩

end Sample

theorem search_takes_bullets_iff_sample :
    ∃ g, search Sample.disk (.absolute ["notes.md"]) "" ["Switch"] = some g ∧ g.bullets = [] ∧
      ∃ text keyword passage ss, Sample.disk.readLines (.absolute ["notes.md"]) = .ok text ∧
        Located text.toList [] ["Switch"] keyword passage ss ∧
        g.bullets = ((ss.take sentenceLimit).filter isLong).map bullet := by
  have hsearch : search Sample.disk (.absolute ["notes.md"]) "" ["Switch"] =
      some ⟨[], [⟨"notes.md", Sample.notes, none⟩]⟩ := by decide +kernel
  obtain ⟨text, keyword, passage, ss, htext, hlocated, -, hbullets, -⟩ := search_takes_bullets_iff hsearch
  exact ⟨_, hsearch, rfl, text, keyword, passage, ss, htext, hlocated, hbullets⟩

/-- The seventh sentence is long enough, but its place has been used up. -/
example : (sentences false Sample.notes.toList).map isLong =
    [false, false, false, false, false, false, true] := by decide

end Codemod.Guidance
