import Codemod.Text.Find
import Mathlib.Data.Bool.AllAny
import Mathlib.Data.List.TakeWhile
import Mathlib.Order.Bounds.Basic

/-! Cutting a text: a run of characters of one class ends where the class does, trimming takes the blanks
of both ends, and a piece is found where it stands first. -/
namespace Codemod.Text

/-! ## Letters -/

theorem toNat_of_isAlpha {c : Char} (h : c.isAlpha = true) :
    (65 ≤ c.toNat ∧ c.toNat ≤ 90) ∨ (97 ≤ c.toNat ∧ c.toNat ≤ 122) := by
  change (decide (c.val ≥ 65 ∧ c.val ≤ 90) || (decide (c.val ≥ 97) && decide (c.val ≤ 122))) = true at h
  simp only [Bool.or_eq_true, Bool.and_eq_true, decide_eq_true_eq, ge_iff_le,
    UInt32.le_iff_toNat_le] at h
  exact h

theorem toNat_of_isDigit {c : Char} (h : c.isDigit = true) : 48 ≤ c.toNat ∧ c.toNat ≤ 57 := by
  change (c.val ≥ 48 && c.val ≤ 57) = true at h
  simp only [Bool.and_eq_true, decide_eq_true_eq, ge_iff_le, UInt32.le_iff_toNat_le] at h
  exact h

theorem isDigit_of_isAlpha {c : Char} (h : c.isAlpha = true) : c.isDigit = false := by
  rw [Bool.eq_false_iff]
  intro hdigit
  have := toNat_of_isAlpha h
  have := toNat_of_isDigit hdigit
  omega

theorem ne_of_isAlpha {c d : Char} (hc : c.isAlpha = true) (hd : d.isAlpha = false) : c ≠ d := by
  rintro rfl
  rw [hc] at hd
  cases hd

/-! ## Runs -/

/-- A run of characters that satisfy `p` ends where one does not. -/
theorem takeWhile_span {p : Char → Bool} {run rest : List Char} (hrun : ∀ c ∈ run, p c = true)
    (hrest : ∀ c ∈ rest.head?, p c = false) : (run ++ rest).takeWhile p = run := by
  have hnone : rest.takeWhile p = [] := by
    cases rest with
    | nil => rfl
    | cons c rest => rw [List.takeWhile_cons, if_neg (by simp [hrest c rfl])]
  rw [List.takeWhile_append_of_pos hrun, hnone, List.append_nil]

theorem dropWhile_span {p : Char → Bool} {run rest : List Char} (hrun : ∀ c ∈ run, p c = true)
    (hrest : ∀ c ∈ rest.head?, p c = false) : (run ++ rest).dropWhile p = rest := by
  have hsplit := List.takeWhile_append_dropWhile (p := p) (l := run ++ rest)
  rw [takeWhile_span hrun hrest] at hsplit
  exact List.append_cancel_left hsplit

/-- A text begins with a run, and what follows does not go on with it. -/
theorem exists_span (p : Char → Bool) (cs : List Char) : ∃ run rest, cs = run ++ rest ∧
    (∀ c ∈ run, p c = true) ∧ ∀ c ∈ rest.head?, p c = false := by
  refine ⟨cs.takeWhile p, cs.dropWhile p, List.takeWhile_append_dropWhile.symm,
    fun c hc => List.mem_takeWhile_imp hc, fun c hc => ?_⟩
  have hhead := List.head?_dropWhile_not p cs
  rwa [hc] at hhead

theorem drop_length_takeWhile (p : Char → Bool) (cs : List Char) :
    cs.drop (cs.takeWhile p).length = cs.dropWhile p := by
  induction cs with
  | nil => rfl
  | cons c cs ih =>
    rw [List.takeWhile_cons, List.dropWhile_cons]
    split
    · exact ih
    · rfl

/-- What follows does not matter for a run that it does not go on with. -/
theorem takeWhile_append_of_head {p : Char → Bool} (cs : List Char) {rest : List Char}
    (h : ∀ c ∈ rest.head?, p c = false) : (cs ++ rest).takeWhile p = cs.takeWhile p := by
  have hnone : ([] ++ rest).takeWhile p = [] := takeWhile_span (by simp) h
  rw [List.nil_append] at hnone
  rw [List.takeWhile_append, hnone, List.append_nil]
  split
  · next hall => exact (List.Sublist.eq_of_length (List.takeWhile_sublist p) hall).symm
  · rfl

/-- A run ends inside a text that has a character of another class. -/
theorem takeWhile_append_of_mem {p : Char → Bool} {cs : List Char} (h : ∃ c ∈ cs, p c = false)
    (rest : List Char) : (cs ++ rest).takeWhile p = cs.takeWhile p := by
  obtain ⟨c, hc, hp⟩ := h
  rw [List.takeWhile_append, if_neg]
  intro hall
  have hsame : cs.takeWhile p = cs := (List.takeWhile_sublist p).eq_of_length hall
  rw [← hsame] at hc
  have hc' : p c = true := List.mem_takeWhile_imp hc
  rw [hp] at hc'
  cases hc'

theorem dropWhile_append_of_mem {p : Char → Bool} {cs : List Char} (h : ∃ c ∈ cs, p c = false)
    (rest : List Char) : (cs ++ rest).dropWhile p = cs.dropWhile p ++ rest := by
  obtain ⟨c, hc, hp⟩ := h
  rw [List.dropWhile_append, if_neg]
  intro hempty
  have hnil : cs.dropWhile p = [] := by simpa using hempty
  have hc' : p c = true := List.dropWhile_eq_nil_iff.1 hnil c hc
  rw [hp] at hc'
  cases hc'

theorem after?_append {piece cs : List Char} (h : ∃ c ∈ cs, c ∉ piece) (rest : List Char) :
    after? piece (cs ++ rest) = (after? piece cs).map (· ++ rest) := by
  induction piece generalizing cs with
  | nil => rfl
  | cons p piece ih =>
    obtain ⟨c, hc, hpiece⟩ := h
    cases cs with
    | nil => cases hc
    | cons d cs =>
      by_cases hd : p = d
      · subst hd
        have hmem : c ∈ cs := (List.mem_cons.1 hc).resolve_left fun heq => hpiece (by simp [heq])
        rw [List.cons_append, after?, after?, if_pos rfl, if_pos rfl,
          ih ⟨c, hmem, fun hm => hpiece (by simp [hm])⟩]
      · rw [List.cons_append, after?, after?, if_neg hd, if_neg hd, Option.map_none]

/-- A text is cut in one way where its first run ends. -/
theorem span_unique {p : Char → Bool} {run run' rest rest' : List Char}
    (hrun : ∀ c ∈ run, p c = true) (hrun' : ∀ c ∈ run', p c = true)
    (hrest : ∀ c ∈ rest.head?, p c = false) (hrest' : ∀ c ∈ rest'.head?, p c = false)
    (h : run ++ rest = run' ++ rest') : run = run' ∧ rest = rest' := by
  have heq : run = run' := by rw [← takeWhile_span hrun hrest, h, takeWhile_span hrun' hrest']
  subst heq
  exact ⟨rfl, List.append_cancel_left h⟩

/-! ## Trimming and searching -/

theorem trimLeft_blanks_append {gap : List Char} (h : ∀ c ∈ gap, isBlank c = true)
    (cs : List Char) : trimLeft (gap ++ cs) = trimLeft cs := by
  induction gap with
  | nil => rfl
  | cons c gap ih =>
    have hc : isBlank c = true := h c (by simp)
    rw [List.cons_append, trimLeft, List.dropWhile_cons, if_pos hc, ← trimLeft,
      ih fun d hd => h d (by simp [hd])]

theorem trimRight_append_blanks {gap : List Char} (h : ∀ c ∈ gap, isBlank c = true)
    (cs : List Char) : trimRight (cs ++ gap) = trimRight cs := by
  have hgap : ∀ c ∈ gap.reverse, isBlank c = true := fun c hc => h c (by simpa using hc)
  have hdrop := trimLeft_blanks_append hgap cs.reverse
  simp only [trimLeft] at hdrop
  rw [trimRight, List.reverse_append, hdrop, trimRight]

theorem exists_trimRight (cs : List Char) :
    ∃ gap, cs = trimRight cs ++ gap ∧ ∀ c ∈ gap, isBlank c = true := by
  refine ⟨(cs.reverse.takeWhile isBlank).reverse, ?_, fun c hc => ?_⟩
  · rw [trimRight, ← List.reverse_append, List.takeWhile_append_dropWhile, List.reverse_reverse]
  · exact List.mem_takeWhile_imp (List.mem_reverse.1 hc)

/-- A text is its trimmed part with blanks on both sides. -/
theorem exists_trim (cs : List Char) : ∃ left right, cs = left ++ (trim cs ++ right) ∧
    (∀ c ∈ left, isBlank c = true) ∧ ∀ c ∈ right, isBlank c = true := by
  obtain ⟨right, hright, hblank⟩ := exists_trimRight (trimLeft cs)
  refine ⟨cs.takeWhile isBlank, right, ?_, fun c hc => List.mem_takeWhile_imp hc, hblank⟩
  rw [trim, ← hright, trimLeft, List.takeWhile_append_dropWhile]

theorem trim_isInfix (cs : List Char) : trim cs <:+: cs := by
  obtain ⟨left, right, hcs, -, -⟩ := exists_trim cs
  exact ⟨left, right, by rw [List.append_assoc, ← hcs]⟩

theorem trimRight_isPrefix (cs : List Char) : trimRight cs <+: cs := by
  rw [← List.reverse_suffix, trimRight, List.reverse_reverse]
  exact List.dropWhile_suffix _

theorem isBlank_head?_trim {cs : List Char} {c : Char} (h : (trim cs).head? = some c) :
    isBlank c = false := by
  obtain ⟨tail, htail⟩ := List.head?_eq_some_iff.1 h
  obtain ⟨right, hright⟩ := trimRight_isPrefix (trimLeft cs)
  have hhead := List.head?_dropWhile_not isBlank cs
  rw [← trim, htail, List.cons_append, trimLeft] at hright
  rw [← hright] at hhead
  exact hhead

theorem mem_of_mem_trim {cs : List Char} {c : Char} (h : c ∈ trim cs) : c ∈ cs := by
  obtain ⟨left, right, hcs, -, -⟩ := exists_trim cs
  rw [hcs]
  simp [h]

theorem mem_of_mem_trimRight {cs : List Char} {c : Char} (h : c ∈ trimRight cs) : c ∈ cs := by
  have hdrop := (List.dropWhile_sublist isBlank).subset (List.mem_reverse.1 h)
  exact List.mem_reverse.1 hdrop

theorem trimLeft_append_cons (cs : List Char) {c : Char} (hc : isBlank c = false)
    (rest : List Char) : trimLeft (cs ++ c :: rest) = trimLeft cs ++ c :: rest := by
  have hstop : (c :: rest).dropWhile isBlank = c :: rest := by
    rw [List.dropWhile_cons, if_neg (by simp [hc])]
  rw [trimLeft, List.dropWhile_append, hstop]
  split
  · next hempty =>
    rw [trimLeft, List.isEmpty_iff.1 hempty]
    rfl
  · rfl

theorem trimRight_eq_self {cs : List Char} (h : ∀ c ∈ cs.getLast?, isBlank c = false) :
    trimRight cs = cs := by
  have hdrop : cs.reverse.dropWhile isBlank = cs.reverse := by
    have hspan := dropWhile_span (p := isBlank) (by simp : ∀ c ∈ ([] : List Char), isBlank c = true)
      (by simpa using h : ∀ c ∈ cs.reverse.head?, isBlank c = false)
    simpa using hspan
  rw [trimRight, hdrop, List.reverse_reverse]

/-- A text that has no blank at its two ends is trimmed. -/
theorem trim_eq_self {cs : List Char} (hhead : ∀ c ∈ cs.head?, isBlank c = false)
    (hlast : ∀ c ∈ cs.getLast?, isBlank c = false) : trim cs = cs := by
  cases cs with
  | nil => rfl
  | cons c cs =>
    have hleft : trimLeft (c :: cs) = c :: cs := trimLeft_append_cons [] (hhead c rfl) cs
    rw [trim, hleft, trimRight_eq_self hlast]

theorem isBlank_getLast?_trim {cs : List Char} {c : Char} (h : (trim cs).getLast? = some c) :
    isBlank c = false := by
  rw [trim, trimRight, List.getLast?_reverse] at h
  have hhead := List.head?_dropWhile_not isBlank (trimLeft cs).reverse
  rw [h] at hhead
  exact hhead

theorem trimRight_append_of_getLast {cs : List Char} {c : Char} (hlast : cs.getLast? = some c)
    (hc : isBlank c = false) (rest : List Char) : trimRight (cs ++ rest) = cs ++ trimRight rest := by
  obtain ⟨front, rfl⟩ := List.getLast?_eq_some_iff.1 hlast
  have hleft := trimLeft_append_cons rest.reverse hc front.reverse
  unfold trimLeft at hleft
  simp only [trimRight, List.append_assoc, List.reverse_append, List.reverse_cons,
    List.nil_append, List.cons_append, hleft]
  simp

theorem trim_around {front core back : List Char} (hne : core ≠ []) (htrim : trim core = core) :
    trim (front ++ (core ++ back)) = trimLeft front ++ (core ++ trimRight back) := by
  obtain ⟨c, tail, rfl⟩ := List.exists_cons_of_ne_nil hne
  have hhead : isBlank c = false := isBlank_head?_trim (by rw [htrim]; rfl)
  obtain ⟨d, hd⟩ := List.getLast?_isSome.2 (List.cons_ne_nil c tail) |> Option.isSome_iff_exists.1
  have hlast : isBlank d = false := isBlank_getLast?_trim (by rw [htrim, hd])
  have hleft : trimLeft (front ++ (c :: tail ++ back)) = (trimLeft front ++ c :: tail) ++ back := by
    rw [List.cons_append, trimLeft_append_cons front hhead, List.append_assoc, List.cons_append]
  rw [trim, hleft, trimRight_append_of_getLast (by simp [hd]) hlast, List.append_assoc]

theorem trim_trim (cs : List Char) : trim (trim cs) = trim cs :=
  trim_eq_self (fun _ => isBlank_head?_trim) fun _ => isBlank_getLast?_trim

theorem trim_append_blanks {cs gap : List Char} (hcs : trim cs ≠ [])
    (hgap : ∀ c ∈ gap, isBlank c = true) :
    trim (cs ++ gap) = trim cs := by
  obtain ⟨left, right, hsplit, hleft, hright⟩ := exists_trim cs
  have hnone {blanks : List Char} (h : ∀ c ∈ blanks, isBlank c = true) :
      trimLeft blanks = [] ∧ trimRight blanks = [] := by
    have hl := trimLeft_blanks_append h []
    have hr := trimRight_append_blanks h []
    rw [List.append_nil] at hl
    exact ⟨hl, hr⟩
  have happend : cs ++ gap = left ++ (trim cs ++ (right ++ gap)) := by
    rw [hsplit, List.append_assoc, List.append_assoc, ← hsplit]
  rw [happend, trim_around hcs (trim_trim cs), (hnone hleft).1,
    (hnone (List.forall_mem_append.2 ⟨hright, hgap⟩)).2, List.nil_append, List.append_nil]

/-- A text cut at the length of its front. -/
theorem take_and_drop_of_append {cs front rest : List Char} {n : Nat} (h : cs = front ++ rest)
    (hn : n = front.length) : cs.take n = front ∧ cs.drop n = rest := by
  subst h hn
  simp

theorem find?_append {p : Char} {ps cs : List Char} (h : p ∉ cs) (rest : List Char) :
    find? (p :: ps) (cs ++ rest) = (find? (p :: ps) rest).map (· + cs.length) := by
  induction cs with
  | nil => simp
  | cons c cs ih =>
    have hc : p ≠ c := fun hc => h (by simp [hc])
    have hno : (p :: ps).isPrefixOf (c :: (cs ++ rest)) = false := by simp [List.isPrefixOf, hc]
    rw [List.cons_append, find?, hno, ih fun hm => h (by simp [hm])]
    cases find? (p :: ps) rest with
    | none => rfl
    | some i => simp; omega

theorem find?_eq_none {p : Char} {ps cs : List Char} (h : p ∉ cs) :
    find? (p :: ps) cs = none := by
  have happend : find? (p :: ps) (cs ++ []) = (find? (p :: ps) []).map (· + cs.length) :=
    find?_append h []
  rw [List.append_nil] at happend
  rw [happend]
  rfl

theorem eq_append_of_find? {piece cs : List Char} {i : Nat} (h : find? piece cs = some i) :
    ∃ rest, cs = cs.take i ++ (piece ++ rest) := by
  induction cs generalizing i with
  | nil =>
    rw [find?] at h
    split at h
    · next hempty =>
      obtain rfl : piece = [] := by simpa using hempty
      exact ⟨[], by simp⟩
    · cases h
  | cons c cs ih =>
    rw [find?] at h
    split at h
    · next hprefix =>
      obtain ⟨rest, hrest⟩ := List.isPrefixOf_iff_prefix.1 hprefix
      cases h
      exact ⟨rest, by simpa using hrest.symm⟩
    · obtain ⟨j, hj, rfl⟩ := Option.map_eq_some_iff.1 h
      obtain ⟨rest, hrest⟩ := ih hj
      exact ⟨rest, by rw [List.take_succ_cons, List.cons_append, ← hrest]⟩

/-! ## Joining -/

theorem joinWith_singleton (sep piece : List Char) : joinWith sep [piece] = piece := by
  simp [joinWith]

theorem joinWith_cons (sep piece : List Char) {pieces : List (List Char)} (h : pieces ≠ []) :
    joinWith sep (piece :: pieces) = piece ++ (sep ++ joinWith sep pieces) := by
  obtain ⟨next, pieces, rfl⟩ := List.exists_cons_of_ne_nil h
  simp [joinWith]

theorem joinWith_cons_cons (sep piece : List Char) (c : Char) (pieces : List (List Char)) :
    joinWith sep ((c :: piece) :: pieces) = c :: joinWith sep (piece :: pieces) := by
  cases pieces <;> simp [joinWith]

/-- Up to the last text. -/
theorem joinWith_concat (sep last : List Char) (texts : List (List Char)) :
    ∃ front, joinWith sep (texts ++ [last]) = front ++ last ∧
      ∀ c ∈ front, c ∈ sep ∨ ∃ text ∈ texts, c ∈ text := by
  induction texts with
  | nil => exact ⟨[], joinWith_singleton sep last, by simp⟩
  | cons text texts ih =>
    obtain ⟨front, heq, hfront⟩ := ih
    refine ⟨text ++ (sep ++ front), ?_, fun c hc => ?_⟩
    · rw [List.cons_append, joinWith_cons sep text (by simp), heq]
      simp
    · simp only [List.mem_append] at hc
      rcases hc with hc | hc | hc
      · exact .inr ⟨text, by simp, hc⟩
      · exact .inl hc
      · rcases hfront c hc with hc | ⟨other, hother, hc⟩
        · exact .inl hc
        · exact .inr ⟨other, by simp [hother], hc⟩

theorem mem_of_mem_joinWith {sep : List Char} {texts : List (List Char)} {c : Char}
    (h : c ∈ joinWith sep texts) : c ∈ sep ∨ ∃ text ∈ texts, c ∈ text := by
  induction texts with
  | nil => simp [joinWith] at h
  | cons text texts ih =>
    by_cases hnil : texts = []
    · subst hnil
      rw [joinWith_singleton] at h
      exact .inr ⟨text, by simp, h⟩
    · rw [joinWith_cons sep text hnil, List.mem_append, List.mem_append] at h
      rcases h with h | h | h
      · exact .inr ⟨text, by simp, h⟩
      · exact .inl h
      · rcases ih h with h | ⟨other, hother, hc⟩
        · exact .inl h
        · exact .inr ⟨other, by simp [hother], hc⟩

theorem between_eq {text front covered behind : List Char} {start stop : Nat}
    (h : text = front ++ (covered ++ behind)) (hstart : start = front.length) (hstop : stop = start + covered.length) :
    between start stop text = covered := by
  rw [between, h, hstart, List.drop_left, hstop, hstart, Nat.add_sub_cancel_left, List.take_left]

/-! # Where a piece stands

A search finds the first place of all, and a search within bounds the first one that lies between them. -/

/-- The piece stands at the offset. -/
def Occurs (piece cs : List Char) (i : Nat) : Prop := piece <+: cs.drop i

instance (piece cs : List Char) (i : Nat) : Decidable (Occurs piece cs i) :=
  inferInstanceAs (Decidable (piece <+: cs.drop i))

variable {piece cs : List Char} {i : Nat}

theorem Occurs.eq_append (h : Occurs piece cs i) : cs = cs.take i ++ (piece ++ cs.drop (i + piece.length)) := by
  obtain ⟨rest, hrest⟩ := h
  have hdrop : cs.drop (i + piece.length) = rest := by rw [← List.drop_drop, ← hrest, List.drop_left]
  rw [hdrop, hrest, List.take_append_drop]

theorem Occurs.add_length_le (h : Occurs piece cs i) (hne : piece ≠ []) : i + piece.length ≤ cs.length := by
  have hlen := h.length_le
  have hpos := List.length_pos_iff.2 hne
  rw [List.length_drop] at hlen
  omega

/-! ## Searching -/

theorem isLeast_of_find? (h : find? piece cs = some i) : IsLeast {i | Occurs piece cs i} i := by
  induction cs generalizing i with
  | nil =>
    obtain ⟨hempty, hzero⟩ := Option.ite_none_right_eq_some.1 h
    obtain rfl := List.isEmpty_iff.1 hempty
    obtain rfl := Option.some_inj.1 hzero
    exact ⟨List.nil_prefix, fun _ _ => Nat.zero_le _⟩
  | cons c cs ih =>
    rw [find?] at h
    split at h
    · next hprefix =>
      obtain rfl := Option.some_inj.1 h
      exact ⟨List.isPrefixOf_iff_prefix.1 hprefix, fun _ _ => Nat.zero_le _⟩
    · next hprefix =>
      obtain ⟨j, hj, rfl⟩ := Option.map_eq_some_iff.1 h
      obtain ⟨hoccurs, hleast⟩ := ih hj
      refine ⟨hoccurs, fun k hk => ?_⟩
      cases k with
      | zero => exact absurd (List.isPrefixOf_iff_prefix.2 hk) hprefix
      | succ k => exact Nat.succ_le_succ (hleast hk)

theorem not_occurs_of_find? (h : find? piece cs = none) (i : Nat) : ¬ Occurs piece cs i := by
  induction cs generalizing i with
  | nil =>
    intro hoccurs
    rw [Occurs, List.drop_nil, List.prefix_nil] at hoccurs
    rw [hoccurs] at h
    cases h
  | cons c cs ih =>
    rw [find?] at h
    split at h
    · cases h
    · next hprefix =>
      cases i with
      | zero => exact fun hoccurs => hprefix (List.isPrefixOf_iff_prefix.2 hoccurs)
      | succ i => exact ih (Option.map_eq_none_iff.1 h) i

theorem find?_eq_some_iff : find? piece cs = some i ↔ IsLeast {i | Occurs piece cs i} i := by
  refine ⟨isLeast_of_find?, fun h => ?_⟩
  cases hfind : find? piece cs with
  | none => exact absurd h.1 (not_occurs_of_find? hfind i)
  | some j => rw [(isLeast_of_find? hfind).unique h]

theorem find?_eq_none_iff : find? piece cs = none ↔ ∀ i, ¬ Occurs piece cs i := by
  refine ⟨not_occurs_of_find?, fun h => ?_⟩
  cases hfind : find? piece cs with
  | none => rfl
  | some j => exact absurd (isLeast_of_find? hfind).1 (h j)

/-! ## Searching within bounds -/

variable {low high : Nat}

theorem occurs_take_drop_iff (hne : piece ≠ []) : Occurs piece ((cs.take high).drop low) i ↔
    Occurs piece cs (low + i) ∧ low + i + piece.length ≤ high := by
  have hpos := List.length_pos_iff.2 hne
  rw [Occurs, List.drop_drop, List.drop_take, List.prefix_take_iff]
  refine and_congr_right fun _ => ?_
  omega

theorem findWithin?_eq_some_iff (hne : piece ≠ []) : findWithin? piece cs low high = some i ↔
    IsLeast {i | Occurs piece cs i ∧ low ≤ i ∧ i + piece.length ≤ high} i := by
  rw [findWithin?, Option.map_eq_some_iff]
  constructor
  · rintro ⟨j, hj, rfl⟩
    obtain ⟨hoccurs, hleast⟩ := find?_eq_some_iff.1 hj
    obtain ⟨hat, hhigh⟩ := (occurs_take_drop_iff hne).1 hoccurs
    rw [Nat.add_comm low j] at hat hhigh
    refine ⟨⟨hat, Nat.le_add_left _ _, hhigh⟩, fun k hk => ?_⟩
    obtain ⟨hk, hlow, hkhigh⟩ := hk
    obtain ⟨m, rfl⟩ := Nat.exists_eq_add_of_le hlow
    have hle : j ≤ m := hleast ((occurs_take_drop_iff hne).2 ⟨hk, hkhigh⟩)
    omega
  · rintro ⟨⟨hat, hlow, hhigh⟩, hleast⟩
    obtain ⟨j, rfl⟩ := Nat.exists_eq_add_of_le hlow
    refine ⟨j, find?_eq_some_iff.2 ⟨(occurs_take_drop_iff hne).2 ⟨hat, hhigh⟩, fun k hk => ?_⟩, Nat.add_comm _ _⟩
    obtain ⟨hk, hkhigh⟩ := (occurs_take_drop_iff hne).1 hk
    have hle : low + j ≤ low + k := hleast ⟨hk, Nat.le_add_right _ _, hkhigh⟩
    omega

theorem findWithin?_eq_none_iff (hne : piece ≠ []) : findWithin? piece cs low high = none ↔
    ∀ i, Occurs piece cs i → low ≤ i → ¬ i + piece.length ≤ high := by
  rw [findWithin?, Option.map_eq_none_iff, find?_eq_none_iff]
  constructor
  · intro h i hi hlow hhigh
    obtain ⟨j, rfl⟩ := Nat.exists_eq_add_of_le hlow
    exact h j ((occurs_take_drop_iff hne).2 ⟨hi, hhigh⟩)
  · intro h i hi
    obtain ⟨hat, hhigh⟩ := (occurs_take_drop_iff hne).1 hi
    exact h (low + i) hat (Nat.le_add_right _ _) hhigh

end Codemod.Text
