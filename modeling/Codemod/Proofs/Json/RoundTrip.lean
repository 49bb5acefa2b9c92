import Mathlib
import Codemod.Proofs.Json.Escaped
import Codemod.Proofs.Json.Numeral
import Codemod.Proofs.Json.Sound
import Codemod.Proofs.Number.Shortest

/-! What a writer makes of a value is read back as that value. -/
namespace Codemod.Json
open Text Number

/-! ## Scalars -/

theorem tokens_of_longToken? {c : Char} {cs : List Char} {t : Token} (hspace : isSpace c = false)
    (hsign : punctuation? c = none) (h : longToken? c cs = some (t, [])) : tokens (c :: cs) = [t] := by
  have hnext : nextToken c cs = (t, []) := by
    rw [nextToken, hsign]
    dsimp only
    rw [h]
    rfl
  rw [tokens_cons hspace, hnext, tokens]

theorem not_sign_of_isDigit {c : Char} (hc : c.isDigit = true) :
    isSpace c = false ∧ punctuation? c = none ∧ c ≠ '"' ∧ c ≠ '-' := by
  have hne {d : Char} (hd : d.isDigit = false) : c ≠ d := by
    rintro rfl
    rw [hd] at hc
    cases hc
  refine ⟨?_, ?_, hne rfl, hne rfl⟩
  · simp [isSpace, hne (d := ' ') rfl, hne (d := '\t') rfl, hne (d := '\n') rfl, hne (d := '\r') rfl]
  · unfold punctuation?
    split <;> first | rfl | exact absurd rfl (hne rfl)

theorem tokens_numeral (negative : Bool) (n : Numeral) :
    tokens (signed negative n.text) = [n.token negative] := by
  have hread := n.number?_text negative
  cases negative with
  | true =>
    refine tokens_of_longToken? rfl rfl ?_
    rw [longToken?, if_neg (by decide), if_pos rfl, hread]
    rfl
  | false =>
    obtain ⟨c, cs, hcs⟩ := List.exists_cons_of_ne_nil n.ne_nil
    have htext : n.text = c :: (cs ++ (Numeral.fractionText n.fraction ++ Numeral.exponentText n.exponent)) := by
      rw [Numeral.text, hcs, List.cons_append]
    have hc : c.isDigit = true := n.whole_ascii c (by simp [hcs])
    obtain ⟨hspace, hsign, hquote, hminus⟩ := not_sign_of_isDigit hc
    rw [signed, if_neg (by decide), htext]
    rw [htext] at hread
    refine tokens_of_longToken? hspace hsign ?_
    rw [longToken?, if_neg hquote, if_neg hminus, if_pos (show isAsciiDigit c = true from hc), hread]

theorem int_toList (n : Int) : (toString n).toList = signed (n < 0) (Numeral.ofNat n.natAbs).text := by
  rw [Numeral.ofNat_text]
  cases n with
  | ofNat n =>
    have hn : ¬ Int.ofNat n < 0 := by simp
    rw [signed, decide_eq_false hn, if_neg (by decide)]
    change (toString n).toList = _
    rw [Nat.toString_eq_ofList_toDigits, String.toList_ofList]
    rfl
  | negSucc n =>
    rw [signed, decide_eq_true (Int.negSucc_lt_zero n), if_pos rfl]
    change ("-" ++ toString (n + 1)).toList = _
    simp only [Nat.toString_eq_ofList_toDigits, String.toList_append, String.toList_ofList]
    rfl

/-- An integer is read as it was written, if it has not too many digits. -/
theorem scalar?_int {n : Int} (h : n.natAbs < 10 ^ digitLimit) :
    scalar? ((Numeral.ofNat n.natAbs).token (n < 0)) = some (.ok (.int n)) := by
  have hlength : (Nat.toDigits 10 n.natAbs).length ≤ digitLimit :=
    (Nat.length_toDigits_le_iff (by decide) (by decide)).2 h
  rw [Numeral.ofNat_token, scalar?, wholeNumber, if_neg (Nat.not_lt.2 hlength), digitsValue_toDigits]
  dsimp only
  simp only [decide_eq_true_eq]
  congr 4
  split <;> omega

/-! ## Doubles -/

/-- Every spelling of the shortest decimal of a double is read as the double. -/
theorem ofDecimal_of_spells {x : Float} {negative : Bool} {m : Nat} {q : Int} {cs : List Char}
    {n : Numeral} (hx : Double.ofFloat x = .finite negative m q) (hn : Spells (shortest m q) cs n) :
    ofDecimal negative (digitsValue (n.whole ++ n.fraction)) n.scale = x := by
  have hvalue := hn.value
  rw [Numeral.value] at hvalue
  by_cases hm : m = 0
  · subst hm
    have hzero : digitsValue (n.whole ++ n.fraction) = 0 := by
      rw [shortest, if_pos rfl, Nat.cast_zero, zero_mul, mul_eq_zero] at hvalue
      exact_mod_cast hvalue.resolve_right (ten_pow_pos _).ne'
    rw [hzero]
    unfold ofDecimal
    dsimp only
    rw [if_pos rfl, nearest_zero hx]
  · refine ofDecimal_of_near hx hm ?_
    rw [hvalue]
    exact shortest_near (ofFloat_finite hx).1 hm

/-- The token that the text of a double is read as. -/
theorem exists_float_token (x : Float) : ∃ t, t.isAtom = true ∧ tokens (floatText x).toList = [t] ∧
    scalar? t = some (.ok (.float x)) := by
  unfold floatText
  split
  · next hx =>
    refine ⟨.nan, rfl, tokens_of_longToken? rfl rfl (by decide), ?_⟩
    rw [scalar?, eq_of_nan hx]
  · next negative hx =>
    refine ⟨.infinite negative, rfl, ?_, ?_⟩
    · cases negative with
      | true => exact tokens_of_longToken? rfl rfl (by decide)
      | false => exact tokens_of_longToken? rfl rfl (by decide)
    · rw [scalar?, nearest_infinite hx]
  · next negative m q hx =>
    obtain ⟨n, hn⟩ := exists_spells (shortest m q)
    have htoken : n.token negative =
        .decimal negative (n.whole ++ n.fraction) n.scale := by
      rw [Numeral.token, if_neg]
      simpa [Classical.or_iff_not_imp_left] using hn.fractional
    refine ⟨n.token negative, ?_, ?_, ?_⟩
    · rw [htoken]
      rfl
    · rw [spellShortest, hx, String.toList_ofList]
      dsimp only
      rw [← hn.text, tokens_numeral]
    · rw [htoken, scalar?, ofDecimal_of_spells hx hn]

/-! ## Reading on -/

/-- Feeds the tokens of a text to a state. -/
def State.readOn (s : State) (cs : List Char) : Except ReadError State := (tokens cs).foldlM State.feed s

/-- Whether a value may come next. -/
def State.Open (s : State) : Prop := s.expect = .value ∨ s.expect = .firstValue

/-- The text is read as the value, wherever one may come, up to a character that ends it. -/
def Reads (cs : List Char) (v : Json) : Prop :=
  ∀ (s : State) (q : Char) (rest : List Char), s.Open → isAtomChar q = false →
    s.readOn (cs ++ q :: rest) = (s.push v).readOn (q :: rest)

variable {s s' : State} {t : Token} {cs rest : List Char}

theorem State.readOn_of_tokens (htokens : tokens cs = t :: tokens rest) (h : s.feed t = .ok s') :
    s.readOn cs = s'.readOn rest := by
  rw [readOn, htokens, List.foldlM_cons, h]
  rfl

theorem State.readOn_spaces {gap : List Char} (hgap : ∀ c ∈ gap, isSpace c = true) (s : State)
    (rest : List Char) : s.readOn (gap ++ rest) = s.readOn rest := by
  induction gap with
  | nil => rfl
  | cons c gap ih =>
    rw [List.forall_mem_cons] at hgap
    rw [← ih hgap.2, readOn, readOn, List.cons_append, tokens, if_pos hgap.1]

theorem State.readOn_sign {c : Char} (hspace : isSpace c = false) (hsign : punctuation? c = some t)
    (h : s.feed t = .ok s') (rest : List Char) : s.readOn (c :: rest) = s'.readOn rest := by
  refine readOn_of_tokens ?_ h
  rw [tokens_cons hspace, nextToken, hsign]

theorem State.Open.feed_scalar {v : Json} (hs : s.Open) (ht : scalar? t = some (.ok v)) :
    s.feed t = .ok (s.push v) := by
  have hvalue : s.value t = .ok (s.push v) := by
    unfold State.value
    split
    · cases ht
    · cases ht
    · rw [ht]
      rfl
  have hclose : t ≠ .closeArray := by
    rintro rfl
    cases ht
  unfold feed
  rcases hs with h | h
  · rw [h]
    exact hvalue
  · rw [h]
    dsimp only
    rw [if_neg hclose, hvalue]

/-- A number or word is read as its value. -/
theorem reads_atom {v : Json} (hatom : t.isAtom = true) (htokens : tokens cs = [t])
    (ht : scalar? t = some (.ok v)) : Reads cs v := by
  have hbad : .bad ∉ tokens cs := by
    rw [htokens, List.mem_singleton]
    rintro rfl
    cases hatom
  intro s q rest hs hq
  refine State.readOn_of_tokens (t := t) ?_ (hs.feed_scalar ht)
  rw [tokens_append hq hbad, htokens]
  rfl

theorem reads_quote (ascii : Bool) (text : String) : Reads (quote ascii text).toList (.str text) := by
  intro s q rest hs hq
  refine State.readOn_of_tokens (tokens_quote ascii text _) (hs.feed_scalar ?_)
  rw [scalar?, String.ofList_toList]

theorem reads_null : Reads "null".toList .null :=
  reads_atom (t := .null) rfl (tokens_of_longToken? rfl rfl (by decide)) rfl

theorem reads_bool (b : Bool) : Reads (if b then "true" else "false").toList (.bool b) := by
  cases b with
  | true => exact reads_atom (t := .bool true) rfl (tokens_of_longToken? rfl rfl (by decide)) rfl
  | false => exact reads_atom (t := .bool false) rfl (tokens_of_longToken? rfl rfl (by decide)) rfl

theorem reads_int {n : Int} (h : n.natAbs < 10 ^ digitLimit) : Reads (toString n).toList (.int n) := by
  refine reads_atom (t := (Numeral.ofNat n.natAbs).token (n < 0)) rfl ?_ (scalar?_int h)
  rw [int_toList, tokens_numeral]

theorem reads_float (x : Float) : Reads (floatText x).toList (.float x) := by
  obtain ⟨t, hatom, htokens, hscalar⟩ := exists_float_token x
  exact reads_atom hatom htokens hscalar

/-! ## Arrays and objects -/

theorem State.push_array {read : List Json} {outer : List Partial} (h : s.stack = .array read :: outer)
    (v : Json) : s.push v = ⟨.array (v :: read) :: outer, .next, none⟩ := by
  rw [push, h]

theorem State.push_object {read : List (String × Json)} {key : String} {outer : List Partial}
    (h : s.stack = .object read key :: outer) (hkey : key ∉ read.map (·.1)) (v : Json) :
    s.push v = ⟨.object ((key, v) :: read) key :: outer, .next, none⟩ := by
  have hnew : ¬ read.any (·.1 == key) = true := by
    intro hany
    obtain ⟨f, hf, hname⟩ := List.any_eq_true.1 hany
    exact hkey (List.mem_map.2 ⟨f, hf, beq_iff_eq.1 hname⟩)
  rw [push, h]
  dsimp only
  rw [addField, if_neg hnew]

/-- A sign with spaces behind it. -/
def Spaced (sign : Char) (cs : List Char) : Prop :=
  ∃ gap, cs = sign :: gap ∧ ∀ c ∈ gap, isSpace c = true

/-- Whether a key may come next. -/
def State.OpenKey (s : State) : Prop := s.expect = .key ∨ s.expect = .firstKey

/-- The text of a field is read as it, wherever one may come whose key is new. -/
def ReadsField (cs : List Char) (field : String × Json) : Prop :=
  ∀ (s : State) (read : List (String × Json)) (key : String) (outer : List Partial) (q : Char)
    (rest : List Char), s.OpenKey → s.stack = .object read key :: outer → field.1 ∉ read.map (·.1) →
    isAtomChar q = false →
    s.readOn (cs ++ q :: rest) =
      State.readOn ⟨.object (field :: read) field.1 :: outer, .next, none⟩ (q :: rest)

theorem reads_field (ascii : Bool) {colon : List Char} (hcolon : Spaced ':' colon) {name : String}
    {v : Json} {text : List Char} (hv : Reads text v) :
    ReadsField ((quote ascii name).toList ++ (colon ++ text)) (name, v) := by
  intro s read key outer q rest hs hstack hkey hq
  obtain ⟨gap, rfl, hgap⟩ := hcolon
  have hname : s.feed (.str name.toList) = .ok ⟨.object read name :: outer, .colon, none⟩ := by
    have hread : s.key (.str name.toList) = .ok ⟨.object read name :: outer, .colon, none⟩ := by
      unfold State.key
      rw [hstack]
      dsimp only
      rw [String.ofList_toList]
    unfold State.feed
    rcases hs with h | h
    · rw [h]
      exact hread
    · rw [h]
      dsimp only
      rw [if_neg (by simp), hread]
  rw [List.append_assoc, State.readOn_of_tokens (tokens_quote ascii name _) hname, List.append_assoc,
    List.cons_append, State.readOn_sign (t := .colon) rfl rfl rfl, State.readOn_spaces hgap]
  rw [hv _ q rest (.inl rfl) hq, State.push_object rfl hkey]

section
variable {sep : List Char} (hsep : Spaced ',' sep) {q : Char} (hq : isAtomChar q = false)
include hsep hq

theorem readOn_items {text : Json → List Char} {items : List Json} (hne : items ≠ [])
    (hitems : ∀ v ∈ items, Reads (text v) v) {read : List Json} {outer : List Partial}
    (hs : s.Open) (hstack : s.stack = .array read :: outer) (rest : List Char) :
    s.readOn (sep.intercalate (items.map text) ++ q :: rest) =
      State.readOn ⟨.array (items.reverse ++ read) :: outer, .next, none⟩ (q :: rest) := by
  obtain ⟨gap, rfl, hgap⟩ := hsep
  induction items generalizing s read with
  | nil => exact absurd rfl hne
  | cons v items ih =>
    rw [List.forall_mem_cons] at hitems
    cases items with
    | nil =>
      rw [List.map_singleton, List.intercalate_singleton, hitems.1 s q rest hs hq, State.push_array hstack]
      rfl
    | cons w items =>
      rw [List.map_cons, List.map_cons, List.intercalate_cons_cons, ← List.map_cons, List.append_assoc,
        List.append_assoc, List.cons_append, hitems.1 s ',' _ hs rfl, State.push_array hstack,
        State.readOn_sign (t := .comma) rfl rfl rfl, State.readOn_spaces hgap,
        ih (by simp) hitems.2 (.inl rfl) rfl]
      simp

theorem readOn_fields {text : String × Json → List Char} {fields : List (String × Json)}
    (hne : fields ≠ []) (hfields : ∀ f ∈ fields, ReadsField (text f) f)
    (hkeys : (fields.map (·.1)).Nodup) {read : List (String × Json)} {key : String}
    {outer : List Partial} (hnew : ∀ f ∈ fields, f.1 ∉ read.map (·.1)) (hs : s.OpenKey)
    (hstack : s.stack = .object read key :: outer) (rest : List Char) :
    ∃ last, s.readOn (sep.intercalate (fields.map text) ++ q :: rest) =
      State.readOn ⟨.object (fields.reverse ++ read) last :: outer, .next, none⟩ (q :: rest) := by
  obtain ⟨gap, rfl, hgap⟩ := hsep
  induction fields generalizing s read key with
  | nil => exact absurd rfl hne
  | cons f fields ih =>
    rw [List.forall_mem_cons] at hfields hnew
    rw [List.map_cons, List.nodup_cons] at hkeys
    cases fields with
    | nil =>
      refine ⟨f.1, ?_⟩
      rw [List.map_singleton, List.intercalate_singleton, hfields.1 s read key outer q rest hs hstack hnew.1 hq]
      rfl
    | cons g fields =>
      have hnew' : ∀ g' ∈ g :: fields, g'.1 ∉ (f :: read).map (·.1) := by
        intro g' hg'
        rw [List.map_cons, List.mem_cons, not_or]
        refine ⟨?_, hnew.2 g' hg'⟩
        intro he
        exact hkeys.1 (he ▸ List.mem_map_of_mem hg')
      obtain ⟨last, hlast⟩ := ih (s := ⟨.object (f :: read) f.1 :: outer, .key, none⟩) (by simp) hfields.2
        hkeys.2 hnew' (.inl rfl) rfl
      refine ⟨last, ?_⟩
      rw [List.map_cons, List.map_cons, List.intercalate_cons_cons, ← List.map_cons, List.append_assoc,
        List.append_assoc, List.cons_append, hfields.1 s read key outer ',' _ hs hstack hnew.1 rfl,
        State.readOn_sign (t := .comma) rfl rfl rfl, State.readOn_spaces hgap, hlast]
      simp

end

/-! ## Layouts -/

/-- Layouts that keep the order of fields, and that put nothing but the signs and spaces between
values. -/
structure Layout.Faithful (layout : Layout) : Prop where
  comma : Spaced ',' layout.comma.toList
  colon : Spaced ':' layout.colon.toList
  order : layout.sortKeys = false

theorem faithful_indented : Layout.indented.Faithful where
  comma := ⟨[], rfl, by simp⟩
  colon := ⟨[' '], rfl, List.forall_mem_singleton.2 rfl⟩
  order := rfl

theorem newline_spaces (layout : Layout) (level : Nat) :
    ∀ c ∈ (newline layout level).toList, isSpace c = true := by
  unfold newline
  split
  · simp
  · intro c hc
    simp only [String.toList_append, String.toList_ofList, List.mem_append] at hc
    rcases hc with hc | hc
    · rw [List.mem_singleton.1 (show c ∈ ['\n'] from hc)]
      rfl
    · rw [List.eq_of_mem_replicate hc]
      rfl

theorem writeItems_eq (layout : Layout) (level : Nat) (items : List Json) :
    writeItems layout level items = items.map (write layout level) := by
  induction items with
  | nil => rfl
  | cons v items ih => rw [writeItems, ih, List.map_cons]

def fieldText (layout : Layout) (level : Nat) (f : String × Json) : String :=
  quote layout.ascii f.1 ++ layout.colon ++ write layout level f.2

theorem writeFields_eq (layout : Layout) (level : Nat) (fields : List (String × Json)) :
    (writeFields layout level fields).map (·.2) = fields.map (fieldText layout level) := by
  induction fields with
  | nil => rfl
  | cons f fields ih =>
    rw [writeFields, List.map_cons, ih, List.map_cons]
    rfl

theorem bracketed_nil_toList (layout : Layout) (level : Nat) (left right : String) :
    (bracketed layout level left right []).toList = left.toList ++ right.toList := by
  rw [bracketed, if_pos List.isEmpty_nil, String.toList_append]

theorem bracketed_toList (layout : Layout) (level : Nat) (left right : String) {texts : List String}
    (h : texts ≠ []) : (bracketed layout level left right texts).toList =
      left.toList ++ ((newline layout (level + 1)).toList ++
        ((layout.comma.toList ++ (newline layout (level + 1)).toList).intercalate (texts.map String.toList) ++
          ((newline layout level).toList ++ right.toList))) := by
  rw [bracketed, if_neg (by simpa using h)]
  simp [String.toList_intercalate]

section
variable {layout : Layout} (h : layout.Faithful)
include h

omit h in
theorem State.Open.feed_openArray (hs : s.Open) :
    s.feed .openArray = .ok ⟨.array [] :: s.stack, .firstValue, none⟩ := by
  unfold feed
  rcases hs with h | h <;> rw [h] <;> rfl

omit h in
theorem State.Open.feed_openObject (hs : s.Open) :
    s.feed .openObject = .ok ⟨.object [] "" :: s.stack, .firstKey, none⟩ := by
  unfold feed
  rcases hs with h | h <;> rw [h] <;> rfl

theorem spaced_separator (level : Nat) :
    Spaced ',' (layout.comma.toList ++ (newline layout level).toList) := by
  obtain ⟨gap, hcomma, hgap⟩ := h.comma
  refine ⟨gap ++ (newline layout level).toList, by rw [hcomma, List.cons_append], ?_⟩
  exact List.forall_mem_append.2 ⟨hgap, newline_spaces layout level⟩

omit h in
/-- Spaces and what is no part of a number or word end one. -/
theorem exists_stop {gap : List Char} (hgap : ∀ c ∈ gap, isSpace c = true) {c : Char}
    (hc : isAtomChar c = false) (rest : List Char) :
    ∃ q rest', gap ++ c :: rest = q :: rest' ∧ isAtomChar q = false := by
  cases gap with
  | nil => exact ⟨c, rest, rfl, hc⟩
  | cons d gap =>
    refine ⟨d, gap ++ c :: rest, rfl, ?_⟩
    have hd := hgap d (by simp)
    simp only [isSpace, Bool.or_eq_true, beq_iff_eq] at hd
    rcases hd with ((rfl | rfl) | rfl) | rfl <;> rfl

theorem reads_arr {items : List Json} (level : Nat)
    (hitems : ∀ v ∈ items, Reads (write layout (level + 1) v).toList v) :
    Reads (write layout level (.arr items)).toList (.arr items) := by
  intro s q rest hs hq
  have hopen := hs.feed_openArray
  have hgap := newline_spaces layout level
  obtain ⟨q', rest', hstop, hq'⟩ := exists_stop hgap (c := ']') rfl (q :: rest)
  rw [write, writeItems_eq]
  by_cases hne : items = []
  · rw [hne, List.map_nil, bracketed_nil_toList]
    change s.readOn ('[' :: ']' :: q :: rest) = _
    rw [State.readOn_sign (t := .openArray) rfl rfl hopen, State.readOn_sign (t := .closeArray) rfl rfl rfl]
    rfl
  · rw [bracketed_toList layout level _ _ (by simpa using hne), List.map_map]
    simp only [List.append_assoc]
    change s.readOn ('[' :: (_ ++ (_ ++ ((newline layout level).toList ++ ']' :: q :: rest)))) = _
    have hitems := readOn_items (spaced_separator h (level + 1)) hq' hne hitems
      (s := ⟨.array [] :: s.stack, .firstValue, none⟩) (.inr rfl) rfl rest'
    rw [State.readOn_sign (t := .openArray) rfl rfl hopen,
      State.readOn_spaces (newline_spaces layout (level + 1)), hstop]
    refine hitems.trans ?_
    rw [← hstop, State.readOn_spaces hgap, State.readOn_sign (t := .closeArray) rfl rfl rfl,
      List.append_nil, List.reverse_reverse]
    rfl

theorem reads_obj {fields : List (String × Json)} (level : Nat) (hkeys : (fields.map (·.1)).Nodup)
    (hfields : ∀ f ∈ fields, Reads (write layout (level + 1) f.2).toList f.2) :
    Reads (write layout level (.obj fields)).toList (.obj fields) := by
  intro s q rest hs hq
  have hopen := hs.feed_openObject
  have hgap := newline_spaces layout level
  obtain ⟨q', rest', hstop, hq'⟩ := exists_stop hgap (c := '\x7d') rfl (q :: rest)
  have htexts : ∀ f ∈ fields, ReadsField (fieldText layout (level + 1) f).toList f := by
    intro f hf
    rw [fieldText, String.toList_append, String.toList_append, List.append_assoc]
    exact reads_field layout.ascii h.colon (hfields f hf)
  rw [write, h.order, if_neg (by decide), writeFields_eq]
  by_cases hne : fields = []
  · rw [hne, List.map_nil, bracketed_nil_toList]
    change s.readOn ('\x7b' :: '\x7d' :: q :: rest) = _
    rw [State.readOn_sign (t := .openObject) rfl rfl hopen,
      State.readOn_sign (t := .closeObject) rfl rfl rfl]
    rfl
  · rw [bracketed_toList layout level _ _ (by simpa using hne), List.map_map]
    simp only [List.append_assoc]
    change s.readOn ('\x7b' :: (_ ++ (_ ++ ((newline layout level).toList ++ '\x7d' :: q :: rest)))) = _
    obtain ⟨last, hlast⟩ := readOn_fields (spaced_separator h (level + 1)) hq' hne htexts hkeys
      (s := ⟨.object [] "" :: s.stack, .firstKey, none⟩) (by simp) (.inr rfl) rfl rest'
    rw [State.readOn_sign (t := .openObject) rfl rfl hopen,
      State.readOn_spaces (newline_spaces layout (level + 1)), hstop]
    refine hlast.trans ?_
    rw [← hstop, State.readOn_spaces hgap, State.readOn_sign (t := .closeObject) rfl rfl rfl,
      List.append_nil, List.reverse_reverse]
    rfl

/-- What is written is read as the value. -/
theorem reads_write {v : Json} (hv : Sound v) (level : Nat) : Reads (write layout level v).toList v := by
  induction hv generalizing level with
  | null => exact reads_null
  | bool b => exact reads_bool b
  | int hn => exact reads_int hn
  | float x => exact reads_float x
  | str text => exact reads_quote layout.ascii text
  | arr _ ih => exact reads_arr h level fun v hv => ih v hv (level + 1)
  | obj _ hkeys ih => exact reads_obj h level hkeys fun f hf => ih f hf (level + 1)

/-- A value is read back from what is rendered of it, with a line break behind. -/
theorem parse_render {v : Json} (hv : Sound v) : parse (v.render layout ++ "\n") = .ok v := by
  have hread := reads_write h hv 0 .start '\n' [] (.inl rfl) rfl
  have hdone : (State.start.push v).readOn ['\n'] = .ok (State.start.push v) := by
    have hspace : ∀ c ∈ ['\n'], isSpace c = true := List.forall_mem_singleton.2 rfl
    refine (State.readOn_spaces hspace _ []).trans ?_
    rw [State.readOn, tokens]
    rfl
  rw [parse, String.toList_append, read_eq_ok_iff]
  exact ⟨_, hread.trans hdone, rfl⟩

end

end Codemod.Json
