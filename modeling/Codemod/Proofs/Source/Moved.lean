import Codemod.Proofs.Source.Splice

/-! Where the characters that a list of edits keeps stand in the new text. Of edits that overlap the first
one is carried out; those that are carried out lie apart, and what lies between them only moves. -/
namespace Codemod.Source

/-! ## The edits that are carried out -/

/-- The sorted edits that are carried out from offset `cursor` on: an edit that begins before the cursor
overlaps one already made. -/
def carriedFrom (cursor : Nat) : List Edit → List Edit
  | [] => []
  | e :: edits =>
    if e.start < cursor then carriedFrom cursor edits else e :: carriedFrom e.stop edits

/-- The edits that a splice carries out, from the left. -/
def carriedOut (edits : List Edit) : List Edit := carriedFrom 0 (edits.mergeSort Edit.before)

variable {cursor : Nat} {text : List Char} {edits : List Edit} {e : Edit}

theorem carriedFrom_sublist (cursor : Nat) (edits : List Edit) :
    (carriedFrom cursor edits).Sublist edits := by
  induction edits generalizing cursor with
  | nil => exact .slnil
  | cons e edits ih =>
    rw [carriedFrom]
    split
    · exact (ih cursor).cons e
    · exact (ih e.stop).cons_cons e

theorem mem_of_mem_carriedOut (h : e ∈ carriedOut edits) : e ∈ edits :=
  List.mem_mergeSort.1 ((carriedFrom_sublist 0 _).subset h)

/-- The first of the sorted edits is carried out. -/
theorem eq_nil_of_carriedOut_eq_nil (h : carriedOut edits = []) : edits = [] := by
  have hperm := List.mergeSort_perm edits Edit.before
  unfold carriedOut at h
  cases hsorted : edits.mergeSort Edit.before with
  | nil =>
    rw [hsorted] at hperm
    exact hperm.symm.eq_nil
  | cons e sorted =>
    rw [hsorted, carriedFrom, if_neg (Nat.not_lt_zero _)] at h
    cases h

theorem spliceFrom_carriedFrom (cursor : Nat) (rest : List Char) (edits : List Edit) :
    spliceFrom cursor rest (carriedFrom cursor edits) = spliceFrom cursor rest edits := by
  induction edits generalizing cursor rest with
  | nil => rfl
  | cons e edits ih =>
    by_cases h : e.start < cursor
    · rw [carriedFrom, if_pos h, spliceFrom, if_pos h, ih]
    · rw [carriedFrom, if_neg h, spliceFrom, spliceFrom, if_neg h, if_neg h, ih]

theorem splice_eq_carriedOut (text : List Char) (edits : List Edit) :
    splice text edits = spliceFrom 0 text (carriedOut edits) :=
  (spliceFrom_carriedFrom 0 text _).symm

theorem le_start_of_mem_carriedFrom (hedits : ∀ e ∈ edits, e.start ≤ e.stop)
    (h : e ∈ carriedFrom cursor edits) : cursor ≤ e.start := by
  induction edits generalizing cursor with
  | nil => cases h
  | cons d edits ih =>
    have hd := hedits d (by simp)
    have hrest : ∀ e ∈ edits, e.start ≤ e.stop := fun e he => hedits e (by simp [he])
    rw [carriedFrom] at h
    split at h
    · exact ih hrest h
    · rcases List.mem_cons.1 h with rfl | h
      · omega
      · have := ih hrest h
        omega

theorem pairwise_carriedFrom (hedits : ∀ e ∈ edits, e.start ≤ e.stop) (cursor : Nat) :
    (carriedFrom cursor edits).Pairwise fun a b => a.stop ≤ b.start := by
  induction edits generalizing cursor with
  | nil => exact .nil
  | cons d edits ih =>
    have hrest : ∀ e ∈ edits, e.start ≤ e.stop := fun e he => hedits e (by simp [he])
    rw [carriedFrom]
    split
    · exact ih hrest cursor
    · exact List.pairwise_cons.2 ⟨fun e he => le_start_of_mem_carriedFrom hrest he, ih hrest d.stop⟩

theorem pairwise_carriedOut (h : ∀ e ∈ edits, e.start ≤ e.stop) :
    (carriedOut edits).Pairwise fun a b => a.stop ≤ b.start :=
  pairwise_carriedFrom (fun e he => h e (List.mem_mergeSort.1 he)) 0

/-- Edits that hold something and lie inside the text are carried out one behind the other. -/
theorem apart_carriedOut (h : ∀ e ∈ edits, e.start < e.stop ∧ e.stop ≤ text.length) :
    Apart text (carriedOut edits) where
  pairwise := by
    refine (pairwise_carriedOut fun e he => Nat.le_of_lt (h e he).1).imp_of_mem ?_
    intro a b ha _ hle
    have := (h a (mem_of_mem_carriedOut ha)).1
    omega
  inside e he := by
    have := h e (mem_of_mem_carriedOut he)
    omega

theorem Apart.stop_le (h : Apart text edits) {d : Edit} (hd : d ∈ edits) (he : e ∈ edits)
    (hlt : d.start < e.start) : d.stop ≤ e.start := by
  obtain ⟨before, behind, rfl⟩ := List.append_of_mem hd
  obtain ⟨-, hbehind, hbetween⟩ := List.pairwise_append.1 h.pairwise
  rcases List.mem_append.1 he with he | he
  · have := (hbetween e he d (by simp)).1
    omega
  · rcases List.mem_cons.1 he with rfl | he
    · omega
    · exact (List.rel_of_pairwise_cons hbehind he).2

theorem replaced_carriedOut (h : ∀ e ∈ edits, e.start ≤ e.stop ∧ e.stop ≤ text.length) :
    Replaced 0 (carriedOut edits) text (splice text edits) := by
  rw [splice_eq_carriedOut]
  refine replaced_spliceFrom (pairwise_carriedOut fun e he => (h e he).1) fun e he => ?_
  have := h e (mem_of_mem_carriedOut he)
  omega

/-- An edit is carried out when no other begins where it does and none that is carried out reaches over its
beginning. -/
theorem mem_carriedFrom_of_boundary (hsorted : edits.Pairwise fun a b => a.before b = true)
    (hmem : e ∈ edits) (hcursor : cursor ≤ e.start) (halone : ∀ d ∈ edits, d.start = e.start → d = e)
    (hover : ∀ d ∈ carriedFrom cursor edits, d.start < e.start → d.stop ≤ e.start) :
    e ∈ carriedFrom cursor edits := by
  induction edits generalizing cursor with
  | nil => cases hmem
  | cons d edits ih =>
    obtain ⟨hfirst, hsorted⟩ := List.pairwise_cons.1 hsorted
    rw [carriedFrom] at hover ⊢
    have halone' : ∀ d ∈ edits, d.start = e.start → d = e := fun b hb => halone b (by simp [hb])
    split at hover
    · next hlt =>
      rw [if_pos hlt]
      have hne : e ≠ d := by
        rintro rfl
        omega
      exact ih hsorted ((List.mem_cons.1 hmem).resolve_left hne) hcursor halone' hover
    · next hle =>
      rw [if_neg hle]
      by_cases heq : d = e
      · exact heq ▸ List.mem_cons_self
      · have hmem' : e ∈ edits := (List.mem_cons.1 hmem).resolve_left (Ne.symm heq)
        have hstart : d.start ≠ e.start := fun h => heq (halone d (by simp) h)
        have hbefore : d.start < e.start := by
          have := hfirst e hmem'
          simp only [Edit.before, Bool.or_eq_true, Bool.and_eq_true, decide_eq_true_eq,
            beq_iff_eq] at this
          omega
        refine List.mem_cons_of_mem d (ih hsorted hmem' (hover d (by simp) hbefore) halone' ?_)
        exact fun b hb => hover b (by simp [hb])

theorem mem_carriedOut_of_boundary (hmem : e ∈ edits) (halone : ∀ d ∈ edits, d.start = e.start → d = e)
    (hover : ∀ d ∈ carriedOut edits, d.start < e.start → d.stop ≤ e.start) :
    e ∈ carriedOut edits :=
  mem_carriedFrom_of_boundary (Edit.pairwise_mergeSort edits) (List.mem_mergeSort.2 hmem) (Nat.zero_le _)
    (fun d hd => halone d (List.mem_mergeSort.1 hd)) hover

/-! ## Where a character goes -/

/-- The offset in the new text of what stands at offset `i` in the old one, when the edits begin at offset
`old` or later, which stands at `new`. -/
def movedFrom (old new : Nat) : List Edit → Nat → Nat
  | [], i => new + (i - old)
  | e :: edits, i =>
    if i < e.stop then new + (i - old)
    else movedFrom e.stop (new + (e.start - old) + e.text.length) edits i

/-- Where edits in order move what stands at an offset that none of them covers. -/
def moved (edits : List Edit) (i : Nat) : Nat := movedFrom 0 0 edits i

/-- No edit covers the offset. -/
def Untouched (edits : List Edit) (i : Nat) : Prop := ∀ e ∈ edits, ¬ (e.start ≤ i ∧ i < e.stop)

instance (edits : List Edit) (i : Nat) : Decidable (Untouched edits i) :=
  inferInstanceAs (Decidable (∀ e ∈ edits, ¬ (e.start ≤ i ∧ i < e.stop)))

theorem movedFrom_add (old new k : Nat) (edits : List Edit) (i : Nat) :
    movedFrom old (k + new) edits i = k + movedFrom old new edits i := by
  induction edits generalizing old new with
  | nil => simp only [movedFrom, Nat.add_assoc]
  | cons e edits ih =>
    simp only [movedFrom]
    split
    · omega
    · rw [← ih]
      congr 1
      omega

/-- In front of the edits everything is moved alike. -/
theorem movedFrom_of_le {old new i : Nat} {edits : List Edit}
    (hedits : ∀ e ∈ edits, i ≤ e.start ∧ e.start < e.stop) :
    movedFrom old new edits i = new + (i - old) := by
  cases edits with
  | nil => rfl
  | cons e edits =>
    have := hedits e (by simp)
    rw [movedFrom, if_pos (by omega)]

/-- Behind the edits that have been carried out, what is left decides. -/
theorem Replaced.movedFrom_append {cursor : Nat} {left right : List Edit} {old new : List Char}
    (h : Replaced cursor left old new) (hright : ∀ e ∈ right, cursor + old.length ≤ e.start ∧ e.start < e.stop)
    {i : Nat} (hi : cursor + old.length ≤ i) (n : Nat) : movedFrom cursor n (left ++ right) i =
      movedFrom (cursor + old.length) (n + new.length) right i := by
  induction h generalizing n with
  | rest cursor kept =>
    rw [List.nil_append]
    cases right with
    | nil =>
      simp only [movedFrom]
      omega
    | cons e right =>
      have := hright e (by simp)
      simp only [movedFrom]
      split
      · omega
      · congr 1
        omega
  | @edit cursor e left old new kept covered hstart hstop later ih =>
    simp only [List.length_append] at hright hi ⊢
    have hlen : e.stop + old.length = cursor + (kept.length + (covered.length + old.length)) := by omega
    rw [List.cons_append, movedFrom, if_neg (by omega), ih (by rwa [hlen]) (by omega), hlen]
    congr 1
    omega

/-- Where a replaced text is cut at an offset that lies in no edit, the new text is cut too. -/
structure CutAt (cursor : Nat) (edits : List Edit) (old new : List Char) (i : Nat) where
  left : List Edit
  right : List Edit
  front : List Char
  rest : List Char
  front' : List Char
  rest' : List Char
  edits_eq : edits = left ++ right
  old_eq : old = front ++ rest
  new_eq : new = front' ++ rest'
  offset : i = cursor + front.length
  moved_eq : ∀ n, movedFrom cursor n edits i = n + front'.length
  before : Replaced cursor left front front'
  behind : Replaced i right rest rest'
  le : ∀ e ∈ left, e.stop ≤ i
  ge : ∀ e ∈ right, i ≤ e.start

theorem Replaced.cursor_le {old new : List Char} (h : Replaced cursor edits old new) :
    ∀ e ∈ edits, cursor ≤ e.start ∧ e.start ≤ e.stop ∧ e.stop ≤ cursor + old.length := by
  induction h with
  | rest => simp
  | @edit cursor e edits old new kept covered hstart hstop later ih =>
    intro d hd
    simp only [List.length_append]
    rcases List.mem_cons.1 hd with rfl | hd
    · omega
    · have := ih d hd
      omega

theorem Replaced.nonempty_cutAt {old new : List Char} (h : Replaced cursor edits old new) {i : Nat}
    (hi : cursor ≤ i ∧ i ≤ cursor + old.length)
    (hedits : ∀ e ∈ edits, e.start < e.stop ∧ ¬ (e.start < i ∧ i < e.stop)) :
    Nonempty (CutAt cursor edits old new i) := by
  induction h with
  | rest cursor kept =>
    have hlen : (kept.take (i - cursor)).length = i - cursor := by
      rw [List.length_take]
      omega
    exact ⟨{ left := [], right := [], front := kept.take (i - cursor), rest := kept.drop (i - cursor),
             front' := kept.take (i - cursor), rest' := kept.drop (i - cursor), edits_eq := rfl,
             old_eq := (List.take_append_drop _ _).symm, new_eq := (List.take_append_drop _ _).symm,
             offset := by omega, moved_eq := fun n => by rw [movedFrom, hlen], before := .rest _ _,
             behind := .rest _ _, le := by simp, ge := by simp }⟩
  | @edit cursor e edits old new kept covered hstart hstop later ih =>
    obtain ⟨hne, hover⟩ := hedits e (by simp)
    have hlater := later.cursor_le
    simp only [List.length_append] at hi
    by_cases hle : i ≤ e.start
    · have hlen : (kept.take (i - cursor)).length = i - cursor := by
        rw [List.length_take]
        omega
      have hsplit (cs : List Char) :
          kept ++ cs = kept.take (i - cursor) ++ (kept.drop (i - cursor) ++ cs) := by
        rw [← List.append_assoc, List.take_append_drop]
      refine ⟨{ left := [], right := e :: edits, front := kept.take (i - cursor),
                rest := kept.drop (i - cursor) ++ (covered ++ old), front' := kept.take (i - cursor),
                rest' := kept.drop (i - cursor) ++ (e.text ++ new), edits_eq := rfl,
                old_eq := hsplit _, new_eq := hsplit _, offset := by omega,
                moved_eq := fun n => ?_, before := .rest _ _, behind := ?_, le := by simp, ge := ?_ }⟩
      · rw [movedFrom, if_pos (by omega), hlen]
      · exact .edit _ _ (by rw [List.length_drop]; omega) hstop later
      · intro d hd
        rcases List.mem_cons.1 hd with rfl | hd
        · exact hle
        · have := hlater d hd
          omega
    · obtain ⟨cut⟩ := ih (by omega) fun d hd => hedits d (by simp [hd])
      have hoffset := cut.offset
      refine ⟨{ left := e :: cut.left, right := cut.right, front := kept ++ (covered ++ cut.front),
                rest := cut.rest, front' := kept ++ (e.text ++ cut.front'), rest' := cut.rest',
                edits_eq := congrArg (e :: ·) cut.edits_eq,
                old_eq := (congrArg (fun cs => kept ++ (covered ++ cs)) cut.old_eq).trans (by simp),
                new_eq := (congrArg (fun cs => kept ++ (e.text ++ cs)) cut.new_eq).trans (by simp),
                offset := by simp only [List.length_append]; omega, moved_eq := fun n => ?_,
                before := .edit kept covered hstart hstop cut.before, behind := cut.behind,
                le := ?_, ge := cut.ge }⟩
      · rw [movedFrom, if_neg (by omega), cut.moved_eq]
        simp only [List.length_append]
        omega
      · intro d hd
        rcases List.mem_cons.1 hd with rfl | hd
        · omega
        · exact cut.le d hd

/-- A character that no edit covers stands in the new text where it has been moved to. -/
theorem Replaced.getElem?_movedFrom {old new : List Char} (h : Replaced cursor edits old new)
    (hedits : ∀ e ∈ edits, e.start < e.stop) {i : Nat} (hi : Untouched edits i) (hcursor : cursor ≤ i)
    (hlen : i < cursor + old.length) : new[movedFrom cursor 0 edits i]? = old[i - cursor]? := by
  obtain ⟨left, right, front, rest, front', rest', rfl, rfl, rfl, hoffset, hmoved, -, hbehind, -, hge⟩ :=
    h.nonempty_cutAt (i := i) (by omega) fun e he => ⟨hedits e he, fun hover =>
      hi e he ⟨by omega, hover.2⟩⟩
  rw [hmoved, Nat.zero_add, show i - cursor = front.length by omega,
    List.getElem?_append_right (Nat.le_refl _), List.getElem?_append_right (Nat.le_refl _), Nat.sub_self,
    Nat.sub_self]
  -- the character itself is kept: an edit that began here would cover it
  cases hbehind with
  | rest => rfl
  | @edit _ e later' old new kept covered hstart hstop later =>
    cases kept with
    | cons c kept => rfl
    | nil =>
      have he : e ∈ left ++ e :: later' := by simp
      have := hedits e he
      simp only [List.length_nil, Nat.add_zero] at hstart
      exact absurd ⟨by omega, by omega⟩ (hi e he)

/-- What an edit puts in stands where its beginning has been moved to. -/
theorem Replaced.exists_movedFrom {cursor : Nat} {edits : List Edit} {old new : List Char}
    (h : Replaced cursor edits old new) (hedits : ∀ e ∈ edits, e.start < e.stop) {e : Edit} (he : e ∈ edits) (n : Nat) :
    ∃ front tail, new = front ++ (e.text ++ tail) ∧ movedFrom cursor n edits e.start = n + front.length := by
  induction h generalizing n with
  | rest => cases he
  | @edit cursor d edits old new kept covered hstart hstop later ih =>
    rcases List.mem_cons.1 he with rfl | he
    · refine ⟨kept, new, rfl, ?_⟩
      rw [movedFrom, if_pos (hedits e (by simp)), hstart, Nat.add_sub_cancel_left]
    · have hbehind := (later.cursor_le e he).1
      obtain ⟨front, tail, rfl, hmoved⟩ := ih (fun e he => hedits e (by simp [he])) he
        (n + (d.start - cursor) + d.text.length)
      refine ⟨kept ++ (d.text ++ front), tail, by simp, ?_⟩
      rw [movedFrom, if_neg (by omega), hmoved, hstart, Nat.add_sub_cancel_left]
      simp only [List.length_append]
      omega

end Codemod.Source
