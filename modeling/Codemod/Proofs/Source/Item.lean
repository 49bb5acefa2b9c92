import Codemod.Source.Import
import Codemod.Proofs.Source.Tag

/-! One item of a brace list. An item is read word by word, so the blanks around it and between its
words do not matter, and an item that has been read is read again from what it is rendered to. -/
namespace Codemod.Source
open Text

/-- A character that ends no name in an import declaration. -/
def isNameChar (c : Char) : Bool :=
  !(isBlank c || c == ',' || c == '{' || c == '}' || c == ';' || isQuote c)

/-- A name as an import declaration binds it. -/
structure IsName (cs : List Char) : Prop where
  ne_nil : cs ≠ []
  chars : ∀ c ∈ cs, isNameChar c = true

instance (cs : List Char) : Decidable (IsName cs) :=
  decidable_of_iff (cs ≠ [] ∧ cs.all isNameChar = true)
    ⟨fun h => ⟨h.1, List.all_eq_true.1 h.2⟩, fun h => ⟨h.ne_nil, List.all_eq_true.2 h.chars⟩⟩

/-! ## Characters of a name -/

theorem isNameChar_of_isIdentifier {c : Char} (h : isIdentifier c = true) : isNameChar c = true := by
  have hattribute : isAttributeChar c = true := by simp [isAttributeChar, h]
  have hblank : isBlank c = false := by
    by_contra hblank
    rw [isAttributeChar_of_isBlank (by simpa using hblank)] at hattribute
    cases hattribute
  have hne {d : Char} (hd : isAttributeChar d = false) : (c == d) = false :=
    beq_eq_false_iff_ne.2 (ne_of_isAttributeChar hattribute hd)
  simp only [isNameChar, isQuote, Bool.not_eq_true', Bool.or_eq_false_iff]
  exact ⟨⟨⟨⟨⟨hblank, hne (by decide)⟩, hne (by decide)⟩, hne (by decide)⟩, hne (by decide)⟩,
    hne (by decide), hne (by decide)⟩

/-- Identifiers are names, also those with marks that are no word characters. -/
theorem IsName.of_identifier {cs : List Char} (hne : cs ≠ [])
    (h : ∀ c ∈ cs, isIdentifier c = true) : IsName cs :=
  ⟨hne, fun c hc => isNameChar_of_isIdentifier (h c hc)⟩

theorem IsName.ne_of_mem {cs : List Char} (h : IsName cs) {c d : Char} (hc : c ∈ cs)
    (hd : isNameChar d = false) : c ≠ d := by
  rintro rfl
  rw [h.chars c hc] at hd
  cases hd

theorem IsName.not_mem {cs : List Char} (h : IsName cs) {d : Char}
    (hd : isNameChar d = false) : d ∉ cs := fun hm => h.ne_of_mem hm hd rfl

theorem IsName.isBlank_eq_false {cs : List Char} (h : IsName cs) {c : Char} (hc : c ∈ cs) :
    isBlank c = false := by
  have hchar := h.chars c hc
  by_contra hblank
  simp [isNameChar, hblank] at hchar

theorem isName_type : IsName "type".toList := ⟨by decide, List.all_iff_forall_prop.1 (by decide)⟩

theorem isName_as : IsName "as".toList := ⟨by decide, List.all_iff_forall_prop.1 (by decide)⟩

/-! ## Words -/

/-- A run of characters that are no blanks. -/
structure IsWord (w : List Char) : Prop where
  ne_nil : w ≠ []
  chars : ∀ c ∈ w, isBlank c = false

theorem IsName.isWord {cs : List Char} (h : IsName cs) : IsWord cs :=
  ⟨h.ne_nil, fun _ hc => h.isBlank_eq_false hc⟩

theorem IsWord.not_mem {w : List Char} (h : IsWord w) {c : Char} (hc : isBlank c = true) : c ∉ w := by
  intro hm
  rw [h.chars c hm] at hc
  cases hc

/-- The word that is open in front of a text and the words behind it. -/
def openWord (cs : List Char) : List Char × List (List Char) :=
  cs.foldr (fun c (run, done) =>
    if isBlank c then ([], if run.isEmpty then done else run :: done) else (c :: run, done)) ([], [])

theorem words_eq (cs : List Char) :
    words cs = if (openWord cs).1.isEmpty then (openWord cs).2 else (openWord cs).1 :: (openWord cs).2 :=
  rfl

theorem openWord_blank {c : Char} (h : isBlank c = true) (cs : List Char) :
    openWord (c :: cs) = ([], words cs) := by
  rw [words_eq, openWord, List.foldr_cons, ← openWord]
  simp [h]

theorem openWord_append {w : List Char} (h : ∀ c ∈ w, isBlank c = false) (rest : List Char) :
    openWord (w ++ rest) = (w ++ (openWord rest).1, (openWord rest).2) := by
  induction w with
  | nil => rfl
  | cons c w ih =>
    have hc : isBlank c = false := h c (by simp)
    rw [List.cons_append, openWord, List.foldr_cons, ← openWord, ih fun d hd => h d (by simp [hd])]
    simp [hc]

@[simp] theorem words_nil : words [] = [] := rfl

theorem words_blank {c : Char} (h : isBlank c = true) (cs : List Char) :
    words (c :: cs) = words cs := by
  rw [words_eq, openWord_blank h]
  rfl

theorem words_blanks_append {gap : List Char} (h : ∀ c ∈ gap, isBlank c = true) (cs : List Char) :
    words (gap ++ cs) = words cs := by
  induction gap with
  | nil => rfl
  | cons c gap ih =>
    rw [List.cons_append, words_blank (h c (by simp)), ih fun d hd => h d (by simp [hd])]

theorem words_word {w : List Char} (h : IsWord w) : words w = [w] := by
  have hopen : openWord w = (w, []) := by simpa [openWord] using openWord_append h.chars []
  rw [words_eq, hopen]
  simp [h.ne_nil]

/-- A blank ends a word. -/
theorem words_append_blank (cs : List Char) {c : Char} (h : isBlank c = true) (rest : List Char) :
    words (cs ++ c :: rest) = words cs ++ words rest := by
  have hwords {ds : List Char}
      (hopen : openWord (ds ++ c :: rest) = ((openWord ds).1, (openWord ds).2 ++ words rest)) :
      words (ds ++ c :: rest) = words ds ++ words rest := by
    rw [words_eq (ds ++ c :: rest), hopen, words_eq ds]
    split <;> rfl
  refine hwords ?_
  induction cs with
  | nil => exact openWord_blank h rest
  | cons d ds ih =>
    by_cases hd : isBlank d = true
    · rw [List.cons_append, openWord_blank hd, openWord_blank hd, hwords ih]
    · have hd' : ∀ c ∈ [d], isBlank c = false := by simpa using hd
      rw [show d :: ds = [d] ++ ds from rfl, List.append_assoc, openWord_append hd',
        openWord_append hd', ih]

theorem words_append_blanks (cs : List Char) {gap : List Char} (h : ∀ c ∈ gap, isBlank c = true) :
    words (cs ++ gap) = words cs := by
  cases gap with
  | nil => simp
  | cons c gap =>
    have hgap : words gap = [] := by
      simpa using words_blanks_append (fun d hd => h d (by simp [hd])) []
    rw [words_append_blank cs (h c (by simp)), hgap, List.append_nil]

theorem isWord_of_mem_words {cs w : List Char} (h : w ∈ words cs) : IsWord w ∧ ∀ c ∈ w, c ∈ cs := by
  have hopen : (∀ c ∈ (openWord cs).1, isBlank c = false ∧ c ∈ cs) ∧
      ∀ w ∈ (openWord cs).2, IsWord w ∧ ∀ c ∈ w, c ∈ cs := by
    clear h
    induction cs with
    | nil => simp [openWord]
    | cons c cs ih =>
      have hdone : ∀ w ∈ (openWord cs).2, IsWord w ∧ ∀ d ∈ w, d ∈ c :: cs := fun w hw =>
        ⟨(ih.2 w hw).1, fun d hd => List.mem_cons_of_mem c ((ih.2 w hw).2 d hd)⟩
      by_cases hc : isBlank c = true
      · rw [openWord_blank hc, words_eq]
        refine ⟨by simp, fun w hw => ?_⟩
        split at hw
        · exact hdone w hw
        · next hne =>
          rcases List.mem_cons.1 hw with rfl | hw
          · exact ⟨⟨by simpa using hne, fun d hd => (ih.1 d hd).1⟩,
              fun d hd => List.mem_cons_of_mem c (ih.1 d hd).2⟩
          · exact hdone w hw
      · have hc' : ∀ d ∈ [c], isBlank d = false := by simpa using hc
        rw [show c :: cs = [c] ++ cs from rfl, openWord_append hc']
        refine ⟨fun d hd => ?_, hdone⟩
        rcases List.mem_append.1 hd with hd | hd
        · exact ⟨hc' d hd, by simpa using .inl (List.mem_singleton.1 hd)⟩
        · exact ⟨(ih.1 d hd).1, by simp [(ih.1 d hd).2]⟩
  rw [words_eq] at h
  split at h
  · exact hopen.2 w h
  · next hne =>
    rcases List.mem_cons.1 h with rfl | hw
    · exact ⟨⟨by simpa using hne, fun c hc => (hopen.1 c hc).1⟩, fun c hc => (hopen.1 c hc).2⟩
    · exact hopen.2 w hw

/-! ## Words with one space between two of them -/

/-- The words of a text, one space between two of them. -/
def spaced (ws : List (List Char)) : List Char := joinWith [' '] ws

theorem isBlank_space : isBlank ' ' = true := by decide

@[simp] theorem spaced_singleton (w : List Char) : spaced [w] = w := joinWith_singleton _ w

theorem spaced_cons (w : List Char) {ws : List (List Char)} (h : ws ≠ []) :
    spaced (w :: ws) = w ++ ' ' :: spaced ws := joinWith_cons [' '] w h

/-- The words begin with a word and go on. -/
def Leads (word : List Char) (ws : List (List Char)) : Prop := ws.head? = some word ∧ ws.tail ≠ []

instance (word : List Char) (ws : List (List Char)) : Decidable (Leads word ws) :=
  inferInstanceAs (Decidable (ws.head? = some word ∧ ws.tail ≠ []))

theorem leads_iff {word : List Char} {ws : List (List Char)} :
    Leads word ws ↔ ∃ vs, ws = word :: vs ∧ vs ≠ [] := by
  cases ws with
  | nil => simp [Leads]
  | cons w vs => simp [Leads]

variable {ws : List (List Char)} (hws : ∀ w ∈ ws, IsWord w)
include hws

theorem words_spaced : words (spaced ws) = ws := by
  induction ws with
  | nil => rfl
  | cons w ws ih =>
    have hw := words_word (hws w (by simp))
    by_cases hnil : ws = []
    · subst hnil
      rw [spaced_singleton, hw]
    · rw [spaced_cons w hnil, words_append_blank w isBlank_space, hw,
        ih fun v hv => hws v (by simp [hv])]
      rfl

theorem spaced_eq_nil_iff : spaced ws = [] ↔ ws = [] := by
  constructor
  · intro h
    rw [← words_spaced hws, h]
    rfl
  · rintro rfl
    rfl

theorem trim_spaced : trim (spaced ws) = spaced ws := by
  by_cases hnil : ws = []
  · subst hnil
    rfl
  refine trim_eq_self (fun c hc => ?_) (fun c hc => ?_)
  · obtain ⟨w, vs, rfl⟩ := List.exists_cons_of_ne_nil hnil
    have hw := hws w (by simp)
    obtain ⟨d, tail, rfl⟩ := List.exists_cons_of_ne_nil hw.ne_nil
    rw [spaced, joinWith_cons_cons] at hc
    exact hw.chars c (by simp [Option.mem_some_iff.1 hc])
  · obtain ⟨vs, w, rfl⟩ := List.eq_nil_or_concat ws |>.resolve_left hnil
    rw [List.concat_eq_append] at hws hc
    have hw := hws w (by simp)
    obtain ⟨front, heq, -⟩ := joinWith_concat [' '] w vs
    rw [spaced, heq, List.getLast?_append_of_ne_nil _ hw.ne_nil] at hc
    exact hw.chars c (List.mem_of_mem_getLast? hc)

/-- A word and a space at the head of a text of words are its first word, and not the only one. -/
theorem after?_spaced {word : List Char} (hword : IsWord word) :
    after? (word ++ [' ']) (spaced ws) =
      if Leads word ws then some (spaced ws.tail) else none := by
  have hspace : ∀ {w : List Char}, IsWord w → ∀ c ∈ w, (!isBlank c) = true := by
    intro w hw c hc
    simp [hw.chars c hc]
  split
  · next h =>
    obtain ⟨vs, rfl, hne⟩ := leads_iff.1 h
    rw [after?_eq_some_iff, List.tail_cons, spaced_cons word hne]
    simp
  · next h =>
    by_contra hne
    obtain ⟨rest, hrest⟩ := Option.ne_none_iff_exists'.1 hne
    rw [after?_eq_some_iff, List.append_assoc] at hrest
    cases ws with
    | nil => simp [spaced, joinWith] at hrest
    | cons w vs =>
      have hw := hws w (by simp)
      by_cases hnil : vs = []
      · subst hnil
        rw [spaced_singleton] at hrest
        exact hw.not_mem isBlank_space (by simp [hrest])
      · rw [spaced_cons w hnil] at hrest
        obtain ⟨rfl, -⟩ := span_unique (hspace hw) (hspace hword) (by simp [isBlank_space])
          (by simp [isBlank_space]) hrest
        exact h (leads_iff.2 ⟨vs, rfl, hnil⟩)

omit hws

/-! ## Reading an item -/

/-- The words on the two sides of the first `as` that stands between words. -/
def splitAs : List (List Char) → Option (List (List Char) × List (List Char))
  | [] => none
  | w :: ws =>
    if Leads "as".toList ws then some ([w], ws.tail)
    else (splitAs ws).map fun found => (w :: found.1, found.2)

theorem splitAt?_spaced {ws : List (List Char)} (hws : ∀ w ∈ ws, IsWord w) :
    splitAt? asWord (spaced ws) =
      (splitAs ws).map fun found => (spaced found.1, spaced found.2) := by
  have hfind (cs : List Char) : find? asWord (' ' :: cs) =
      if (after? ("as".toList ++ [' ']) cs).isSome then some 0 else (find? asWord cs).map (· + 1) := by
    have hprefix : asWord.isPrefixOf (' ' :: cs) = (after? ("as".toList ++ [' ']) cs).isSome := by
      rw [Bool.eq_iff_iff, List.isPrefixOf_iff_prefix, Option.isSome_iff_exists]
      simp only [after?_eq_some_iff]
      constructor
      · rintro ⟨rest, hrest⟩
        exact ⟨rest, by simpa [asWord] using hrest.symm⟩
      · rintro ⟨rest, rfl⟩
        exact ⟨rest, by simp [asWord]⟩
    rw [find?, hprefix]
  induction ws with
  | nil => rfl
  | cons w ws ih =>
    have hw : ' ' ∉ w := (hws w (by simp)).not_mem isBlank_space
    have hvs : ∀ v ∈ ws, IsWord v := fun v hv => hws v (by simp [hv])
    by_cases hnil : ws = []
    · subst hnil
      rw [spaced_singleton, splitAt?, show asWord = ' ' :: "as ".toList from rfl, find?_eq_none hw]
      rfl
    have hhead : find? asWord (w ++ ' ' :: spaced ws) =
        (find? asWord (' ' :: spaced ws)).map (· + w.length) := find?_append hw _
    have hlen : asWord.length = 4 := rfl
    rw [splitAs, spaced_cons w hnil, splitAt?, hhead, hfind, after?_spaced hvs isName_as.isWord]
    by_cases has : Leads "as".toList ws
    · obtain ⟨vs, rfl, hne⟩ := leads_iff.1 has
      rw [if_pos has, if_pos has, List.tail_cons, spaced_cons _ hne, hlen]
      simp
    · rw [if_neg has, if_neg has, Option.map_map]
      have hrec := ih hvs
      unfold splitAt? at hrec
      cases hfound : find? asWord (spaced ws) with
      | none =>
        rw [hfound, Option.map_none, eq_comm, Option.map_eq_none_iff] at hrec
        rw [hrec]
        rfl
      | some i =>
        rw [hfound, Option.map_some, eq_comm, Option.map_eq_some_iff] at hrec
        obtain ⟨⟨front, behind⟩, hsplit, hcut⟩ := hrec
        obtain ⟨hfront, hbehind⟩ := Prod.mk.inj hcut
        have hne : front ≠ [] := by
          rintro rfl
          cases ws with
          | nil => exact hnil rfl
          | cons v vs =>
            rw [splitAs] at hsplit
            split at hsplit
            · cases hsplit
            · simp at hsplit
        rw [hsplit]
        simp only [Option.map_some, Option.isSome_none, Bool.false_eq_true, if_false, Option.some_inj,
          Prod.mk.injEq, Function.comp]
        rw [spaced_cons w hne, hfront, hbehind, hlen,
          show i + 1 + w.length = w.length + (i + 1) by omega,
          show w.length + (i + 1) + 4 = w.length + (i + 4 + 1) by omega, List.take_length_add_append,
          List.drop_length_add_append, List.take_succ_cons, List.drop_succ_cons]
        exact ⟨rfl, rfl⟩

theorem of_splitAs {ws front behind : List (List Char)} (h : splitAs ws = some (front, behind)) :
    ws = front ++ "as".toList :: behind ∧ front ≠ [] ∧ behind ≠ [] ∧ splitAs front = none := by
  induction ws generalizing front with
  | nil => cases h
  | cons w ws ih =>
    rw [splitAs] at h
    split at h
    · next has =>
      obtain ⟨vs, rfl, hne⟩ := leads_iff.1 has
      cases h
      exact ⟨rfl, by simp, hne, rfl⟩
    · next has =>
      obtain ⟨⟨front', behind'⟩, hsplit, heq⟩ := Option.map_eq_some_iff.1 h
      cases heq
      obtain ⟨rfl, hne, hbehind, hnone⟩ := ih hsplit
      refine ⟨rfl, by simp, hbehind, ?_⟩
      -- the first word of what is in front is not an `as` with words behind it
      have hno : ¬ Leads "as".toList front' := by
        intro hleads
        obtain ⟨vs, rfl, -⟩ := leads_iff.1 hleads
        exact has (leads_iff.2 ⟨_, rfl, by simp⟩)
      rw [splitAs, if_neg hno, hnone]
      rfl

theorem isWord_of_splitAs {ws front behind : List (List Char)} (hws : ∀ w ∈ ws, IsWord w)
    (h : splitAs ws = some (front, behind)) :
    (∀ w ∈ front, IsWord w) ∧ ∀ w ∈ behind, IsWord w := by
  rw [(of_splitAs h).1] at hws
  exact ⟨fun w hw => hws w (by simp [hw]), fun w hw => hws w (by simp [hw])⟩

/-- The item that names are read as. -/
def Specifier.ofNames (typeOnly : Bool) (ws : List (List Char)) : Specifier :=
  match splitAs ws with
  | some (imported, bound) => ⟨spaced imported, spaced bound, typeOnly⟩
  | none => ⟨spaced ws, spaced ws, typeOnly⟩

/-- The item that words are read as. -/
def Specifier.ofWords (ws : List (List Char)) : Specifier :=
  if Leads "type".toList ws then ofNames true ws.tail else ofNames false ws

/-- An item is read word by word. -/
theorem Specifier.ofText?_eq (text : List Char) : Specifier.ofText? text =
    if words text = [] then none else some (Specifier.ofWords (words text)) := by
  have hwords : ∀ w ∈ words text, IsWord w := fun w hw => (isWord_of_mem_words hw).1
  have hempty : (spaced (words text)).isEmpty = true ↔ words text = [] := by
    rw [List.isEmpty_iff, spaced_eq_nil_iff hwords]
  have hafter := after?_spaced hwords isName_type.isWord
  unfold Specifier.ofText?
  change (if (spaced (words text)).isEmpty = true then none else _) = _
  by_cases hnil : words text = []
  · rw [if_pos (hempty.2 hnil), if_pos hnil]
  · rw [if_neg (mt hempty.1 hnil), if_neg hnil, ofWords]
    change after? "type ".toList (joinWith [' '] (words text)) = _ at hafter
    rw [hafter]
    by_cases htype : Leads "type".toList (words text)
    · have htail : ∀ w ∈ (words text).tail, IsWord w := fun w hw => hwords w (List.mem_of_mem_tail hw)
      rw [if_pos htype, if_pos htype, ofNames]
      dsimp only
      rw [trim_spaced htail, splitAt?_spaced htail]
      cases hsplit : splitAs (words text).tail with
      | none => rfl
      | some found =>
        obtain ⟨hfront, hbehind⟩ := isWord_of_splitAs htail hsplit
        dsimp only [Option.map_some]
        rw [trim_spaced hfront, trim_spaced hbehind]
    · rw [if_neg htype, if_neg htype, ofNames]
      dsimp only
      rw [show splitAt? asWord (joinWith [' '] (words text)) = _ from splitAt?_spaced hwords]
      cases hsplit : splitAs (words text) with
      | none => rfl
      | some found =>
        obtain ⟨hfront, hbehind⟩ := isWord_of_splitAs hwords hsplit
        dsimp only [Option.map_some]
        rw [trim_spaced hfront, trim_spaced hbehind]

/-! ## Reading an item again -/

/-- The words that an item is rendered to. -/
def Specifier.itemWords (s : Specifier) : List (List Char) :=
  (if s.typeOnly then ["type".toList] else []) ++
    (words s.imported ++ if s.bound = s.imported then [] else "as".toList :: words s.bound)

theorem Specifier.words_render (s : Specifier) : words s.render = s.itemWords := by
  have hnames : words (s.imported ++ if s.bound = s.imported then [] else asWord ++ s.bound) =
      words s.imported ++ if s.bound = s.imported then [] else "as".toList :: words s.bound := by
    split
    · simp
    · have hin : s.imported ++ (asWord ++ s.bound) =
          s.imported ++ ' ' :: ("as".toList ++ ' ' :: s.bound) := by simp [asWord]
      rw [hin, words_append_blank _ isBlank_space, words_append_blank _ isBlank_space,
        words_word isName_as.isWord]
      rfl
  rw [render, itemWords, ← hnames]
  cases s.typeOnly with
  | false => rfl
  | true =>
    have hin (cs : List Char) : "type ".toList ++ cs = "type".toList ++ ' ' :: cs := by simp
    rw [if_pos rfl, if_pos rfl, List.append_assoc, hin, words_append_blank _ isBlank_space,
      words_word isName_type.isWord]

/-- An item as reading gives it: the words that it is rendered to are read as the item. -/
structure Specifier.Readable (s : Specifier) : Prop where
  imported_ne_nil : words s.imported ≠ []
  bound_ne_nil : words s.bound ≠ []
  spaced_bound : spaced (words s.bound) = s.bound
  ofWords_itemWords : Specifier.ofWords s.itemWords = s

theorem Specifier.itemWords_ne_nil {s : Specifier} (h : words s.imported ≠ []) : s.itemWords ≠ [] := by
  simp [itemWords, h]

theorem Specifier.Readable.ofText?_render {s : Specifier} (h : s.Readable) {left right : List Char}
    (hleft : ∀ c ∈ left, isBlank c = true) (hright : ∀ c ∈ right, isBlank c = true) :
    Specifier.ofText? (left ++ (s.render ++ right)) = some s := by
  rw [Specifier.ofText?_eq, words_blanks_append hleft, words_append_blanks _ hright, s.words_render,
    if_neg (itemWords_ne_nil h.imported_ne_nil), h.ofWords_itemWords]

/-- The word `type` in front of names is taken for what it is, and no name for it. -/
theorem Specifier.ofWords_typed {typeOnly : Bool} {vs : List (List Char)} (hvs : vs ≠ [])
    (hno : typeOnly = false → ¬ Leads "type".toList vs) :
    ofWords ((if typeOnly then ["type".toList] else []) ++ vs) = ofNames typeOnly vs := by
  cases typeOnly with
  | false => exact if_neg (hno rfl)
  | true =>
    have hleads : Leads "type".toList (["type".toList] ++ vs) := leads_iff.2 ⟨vs, rfl, hvs⟩
    rw [if_pos rfl, ofWords, if_pos hleads]
    rfl

theorem Specifier.readable_ofNames {ws : List (List Char)} (hws : ∀ w ∈ ws, IsWord w) (hne : ws ≠ [])
    {typeOnly : Bool} (htype : typeOnly = false → ¬ Leads "type".toList ws) :
    (ofNames typeOnly ws).Readable := by
  cases hsplit : splitAs ws with
  | none =>
    have hs : ofNames typeOnly ws = ⟨spaced ws, spaced ws, typeOnly⟩ := by rw [ofNames, hsplit]
    have hwords := words_spaced hws
    refine ⟨?_, ?_, ?_, ?_⟩
    · rw [hs, hwords]
      exact hne
    · rw [hs, hwords]
      exact hne
    · rw [hs, hwords]
    · rw [hs, itemWords]
      dsimp only
      rw [if_pos rfl, hwords, List.append_nil, ofWords_typed hne htype, hs]
  | some found =>
    obtain ⟨front, behind⟩ := found
    have hs : ofNames typeOnly ws = ⟨spaced front, spaced behind, typeOnly⟩ := by rw [ofNames, hsplit]
    obtain ⟨hfront, hbehind⟩ := isWord_of_splitAs hws hsplit
    obtain ⟨hparts, hfrontNe, hbehindNe, hnone⟩ := of_splitAs hsplit
    have hfrontWords := words_spaced hfront
    have hbehindWords := words_spaced hbehind
    refine ⟨?_, ?_, ?_, ?_⟩
    · rw [hs, hfrontWords]
      exact hfrontNe
    · rw [hs, hbehindWords]
      exact hbehindNe
    · rw [hs, hbehindWords]
    · rw [hs, itemWords]
      dsimp only
      rw [hfrontWords, hbehindWords]
      by_cases heq : spaced behind = spaced front
      · have hno : typeOnly = false → ¬ Leads "type".toList front := by
          intro hvalue hleads
          obtain ⟨vs, rfl, -⟩ := leads_iff.1 hleads
          exact htype hvalue (leads_iff.2 ⟨_, hparts, by simp⟩)
        rw [if_pos heq, List.append_nil, ofWords_typed hfrontNe hno, ofNames, hnone, heq]
      · rw [if_neg heq, ← hparts, ofWords_typed hne htype, hs]

theorem Specifier.readable_of_ofText? {text : List Char} {s : Specifier}
    (h : Specifier.ofText? text = some s) : s.Readable := by
  have hwords : ∀ w ∈ words text, IsWord w := fun w hw => (isWord_of_mem_words hw).1
  rw [Specifier.ofText?_eq] at h
  split at h
  · cases h
  · next hne =>
    cases h
    unfold ofWords
    split
    · next htype =>
      exact readable_ofNames (fun w hw => hwords w (List.mem_of_mem_tail hw)) htype.2 (by simp)
    · next htype => exact readable_ofNames hwords hne fun _ => htype

/-- A name in front of an alias that has been read. -/
theorem Specifier.readable_of_isName {imported bound : List Char} {typeOnly : Bool}
    (himported : IsName imported) (hbound : words bound ≠ []) (hspaced : spaced (words bound) = bound)
    (htype : imported = "type".toList → bound = imported ∨ typeOnly = true) :
    (⟨imported, bound, typeOnly⟩ : Specifier).Readable := by
  have hwords := words_word himported.isWord
  refine ⟨by simp [hwords], hbound, hspaced, ?_⟩
  rw [itemWords]
  dsimp only
  rw [hwords]
  by_cases heq : bound = imported
  · have hsplit : splitAs [imported] = none := rfl
    rw [if_pos heq, List.append_nil, ofWords_typed (by simp) (by simp [Leads]), ofNames, hsplit,
      spaced_singleton, heq]
  · have hno : typeOnly = false → ¬ Leads "type".toList ([imported] ++ "as".toList :: words bound) := by
      rintro hvalue ⟨hhead, -⟩
      rcases htype (Option.some.inj hhead) with h | h
      · exact heq h
      · rw [hvalue] at h
        cases h
    have hsplit : splitAs ([imported] ++ "as".toList :: words bound) = some ([imported], words bound) :=
      if_pos (leads_iff.2 ⟨_, rfl, hbound⟩)
    rw [if_neg heq, ofWords_typed (by simp) hno, ofNames, hsplit]
    dsimp only
    rw [spaced_singleton, hspaced]

/-- The names of an item hold no brace. -/
def Specifier.Braceless (s : Specifier) : Prop := ∀ c ∈ s.imported ++ s.bound, isBrace c = false

instance (s : Specifier) : Decidable s.Braceless :=
  inferInstanceAs (Decidable (∀ c ∈ s.imported ++ s.bound, isBrace c = false))

/-- An item that reads as itself from what it is rendered to, whatever blanks stand around, and stands
apart from what a brace list holds besides its items. -/
structure Specifier.Legible (s : Specifier) : Prop where
  chars : ∀ c ∈ s.imported ++ s.bound, isNameChar c = true ∨ c = ' '
  readable : s.Readable

theorem Specifier.Legible.mem_render {s : Specifier} (h : s.Legible) {c : Char} (hc : c ∈ s.render) :
    isNameChar c = true ∨ c = ' ' := by
  have hword : ∀ c ∈ "type ".toList ++ asWord, isNameChar c = true ∨ c = ' ' :=
    List.all_iff_forall_prop.1 (by decide)
  simp only [Specifier.render, List.mem_append] at hc
  rcases hc with (hc | hc) | hc
  · split at hc
    · exact hword c (List.mem_append_left _ hc)
    · cases hc
  · exact h.chars c (List.mem_append_left _ hc)
  · split at hc
    · cases hc
    · rcases List.mem_append.1 hc with hc | hc
      · exact hword c (List.mem_append_right _ hc)
      · exact h.chars c (List.mem_append_right _ hc)

theorem mem_of_mem_spaced {ws : List (List Char)} {c : Char} (h : c ∈ spaced ws) :
    c = ' ' ∨ ∃ w ∈ ws, c ∈ w := by
  rcases mem_of_mem_joinWith h with hc | hw
  · exact .inl (by simpa using hc)
  · exact .inr hw

theorem Specifier.mem_of_mem_ofNames {typeOnly : Bool} {ws : List (List Char)} {c : Char}
    (h : c ∈ (ofNames typeOnly ws).imported ++ (ofNames typeOnly ws).bound) :
    c = ' ' ∨ ∃ w ∈ ws, c ∈ w := by
  unfold ofNames at h
  split at h
  · next front behind hsplit =>
    rw [(of_splitAs hsplit).1]
    rcases List.mem_append.1 h with h | h
    · rcases mem_of_mem_spaced h with hc | ⟨w, hw, hc⟩
      · exact .inl hc
      · exact .inr ⟨w, by simp [hw], hc⟩
    · rcases mem_of_mem_spaced h with hc | ⟨w, hw, hc⟩
      · exact .inl hc
      · exact .inr ⟨w, by simp [hw], hc⟩
  · rcases List.mem_append.1 h with h | h <;> exact mem_of_mem_spaced h

/-- The names of an item hold the characters of its text, and no blank but a space. -/
theorem Specifier.mem_of_ofText? {text : List Char} {s : Specifier}
    (h : Specifier.ofText? text = some s) {c : Char} (hc : c ∈ s.imported ++ s.bound) :
    c = ' ' ∨ (c ∈ text ∧ isBlank c = false) := by
  have hwords {w : List Char} (hw : w ∈ words text) (hc : c ∈ w) : c ∈ text ∧ isBlank c = false :=
    ⟨(isWord_of_mem_words hw).2 c hc, (isWord_of_mem_words hw).1.chars c hc⟩
  rw [Specifier.ofText?_eq] at h
  split at h
  · cases h
  · cases h
    unfold ofWords at hc
    split at hc
    · rcases mem_of_mem_ofNames hc with hc | ⟨w, hw, hc⟩
      · exact .inl hc
      · exact .inr (hwords (List.mem_of_mem_tail hw) hc)
    · rcases mem_of_mem_ofNames hc with hc | ⟨w, hw, hc⟩
      · exact .inl hc
      · exact .inr (hwords hw hc)

/-- An item that has been read between commas and holds no brace. -/
theorem Specifier.legible_of_ofText? {text : List Char} {s : Specifier}
    (h : Specifier.ofText? text = some s)
    (htext : ∀ c ∈ text, c ≠ ',' ∧ c ≠ ';' ∧ isQuote c = false)
    (hbraces : s.Braceless) : s.Legible := by
  refine ⟨fun c hc => ?_, readable_of_ofText? h⟩
  have hbrace := hbraces c hc
  rcases mem_of_ofText? h hc with rfl | ⟨hc, hblank⟩
  · exact .inr rfl
  · obtain ⟨hcomma, hsemicolon, hquote⟩ := htext c hc
    simp only [isBrace, Bool.or_eq_false_iff] at hbrace
    refine .inl ?_
    simp [isNameChar, hblank, hcomma, hsemicolon, hquote, hbrace.1, hbrace.2]

/-- What the word `type` with an alias reads as: a type that both words behind it name. -/
def typeAlias (name : List Char) : Specifier :=
  ⟨"as ".toList ++ name, "as ".toList ++ name, true⟩

example : Specifier.ofText? "type as x".toList = some (typeAlias "x".toList) := by decide

/-- An item of a brace list, `[type ]name[ as name]`, as it is read. -/
def Specifier.WellFormed (s : Specifier) : Prop :=
  (IsName s.imported ∧ IsName s.bound) ∨ ∃ name, IsName name ∧ s = typeAlias name

theorem isBrace_eq_false_of_isNameChar {c : Char} (h : isNameChar c = true) : isBrace c = false := by
  by_contra hbrace
  simp only [isBrace, Bool.not_eq_false, Bool.or_eq_true, beq_iff_eq] at hbrace
  rcases hbrace with rfl | rfl <;> exact absurd h (by decide)

theorem Specifier.WellFormed.braceless {s : Specifier} (h : s.WellFormed) : s.Braceless := by
  rcases h with ⟨himported, hbound⟩ | ⟨name, hname, rfl⟩
  · intro c hc
    refine isBrace_eq_false_of_isNameChar ?_
    rcases List.mem_append.1 hc with hc | hc
    · exact himported.chars c hc
    · exact hbound.chars c hc
  · have has : ∀ c ∈ "as ".toList, isBrace c = false := List.all_iff_forall_prop.1 (by decide)
    have halias : ∀ c ∈ "as ".toList ++ name, isBrace c = false := by
      intro c hc
      rcases List.mem_append.1 hc with hc | hc
      · exact has c hc
      · exact isBrace_eq_false_of_isNameChar (hname.chars c hc)
    intro c hc
    rcases List.mem_append.1 hc with hc | hc <;> exact halias c hc

end Codemod.Source
