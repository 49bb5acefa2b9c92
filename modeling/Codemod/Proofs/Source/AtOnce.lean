import Codemod.Proofs.Source.Moved
import Mathlib.Algebra.BigOperators.Group.List.Basic
import Mathlib.Algebra.Ring.Int.Defs

/-! Replacing at once. What a list of edits makes of a text can be said offset by offset, with no order in
which they are carried out: an offset shows what the edits put in there, and its own character unless one of
them covers it. A splice, which goes from the left and drops what overlaps, does this for all edits that lie
clear of each other, and otherwise for as many as it carries out. -/
namespace Codemod.Source

/-- Neither edit covers a character of the other or puts in something between its characters. -/
def Edit.ClearOf (a b : Edit) : Prop := a.stop ≤ b.start ∨ b.stop ≤ a.start

instance (a b : Edit) : Decidable (a.ClearOf b) := inferInstanceAs (Decidable (_ ∨ _))

theorem Edit.ClearOf.symm {a b : Edit} (h : a.ClearOf b) : b.ClearOf a := Or.symm h

/-- By how much an edit makes a text longer. -/
def Edit.growth (e : Edit) : Int := e.text.length - (e.stop - e.start)

/-- What the edits put in at an offset. -/
def putIn (edits : List Edit) (i : Nat) : List Char :=
  (edits.filter fun e => e.start = i).flatMap Edit.text

/-- The character at an offset, unless an edit covers it. -/
def keptAt (edits : List Edit) (i : Nat) (c : Char) : List Char :=
  if Untouched edits i then [c] else []

/-- A text from offset `i` on with all edits carried out at once. -/
def replacedFrom (edits : List Edit) (i : Nat) : List Char → List Char
  | [] => putIn edits i
  | c :: cs => putIn edits i ++ (keptAt edits i c ++ replacedFrom edits (i + 1) cs)

def replacedAtOnce (text : List Char) (edits : List Edit) : List Char := replacedFrom edits 0 text

/-- The characters of a text from offset `i` on that no edit covers. -/
def outsideFrom (edits : List Edit) (i : Nat) : List Char → List Char
  | [] => []
  | c :: cs => keptAt edits i c ++ outsideFrom edits (i + 1) cs

def outside (text : List Char) (edits : List Edit) : List Char := outsideFrom edits 0 text

variable {cursor i : Nat} {d e : Edit} {edits listed : List Edit}

/-! ## One offset -/

theorem putIn_eq_nil (h : ∀ e ∈ edits, e.start ≠ i) : putIn edits i = [] := by
  unfold putIn
  rw [List.filter_eq_nil_iff.2, List.flatMap_nil]
  intro e he
  simpa using h e he

theorem putIn_cons_self (h : d.start = i) : putIn (d :: edits) i = d.text ++ putIn edits i := by
  simp [putIn, h]

theorem putIn_cons_of_ne (h : d.start ≠ i) : putIn (d :: edits) i = putIn edits i := by
  simp [putIn, h]

theorem keptAt_of_untouched (h : Untouched edits i) (c : Char) : keptAt edits i c = [c] := if_pos h

theorem keptAt_covered (h : d.start ≤ i ∧ i < d.stop) (c : Char) : keptAt (d :: edits) i c = [] := by
  apply if_neg
  intro huntouched
  exact huntouched d (by simp) h

theorem keptAt_cons (h : ¬ (d.start ≤ i ∧ i < d.stop)) (c : Char) :
    keptAt (d :: edits) i c = keptAt edits i c := by
  have hiff : Untouched (d :: edits) i ↔ Untouched edits i := by
    unfold Untouched
    rw [List.forall_mem_cons]
    exact and_iff_right h
  unfold keptAt
  simp only [hiff]

/-! ## Stretches of a text -/

/-- In front of all edits the text stays. -/
theorem replacedFrom_append (kept : List Char) (h : ∀ e ∈ edits, i + kept.length ≤ e.start) (cs : List Char) :
    replacedFrom edits i (kept ++ cs) = kept ++ replacedFrom edits (i + kept.length) cs := by
  induction kept generalizing i with
  | nil => rfl
  | cons c kept ih =>
    have hlater : ∀ e ∈ edits, i + 1 + kept.length ≤ e.start := by
      intro e he
      have := h e he
      rw [List.length_cons] at this
      omega
    have hput : putIn edits i = [] := by
      apply putIn_eq_nil
      intro e he
      have := hlater e he
      omega
    have huntouched : Untouched edits i := by
      intro e he
      have := hlater e he
      omega
    rw [List.cons_append, replacedFrom, hput, keptAt_of_untouched huntouched, ih hlater, List.length_cons,
      Nat.add_right_comm, ← Nat.add_assoc]
    rfl

/-- Behind an edit nothing is left of it. -/
theorem replacedFrom_cons_behind (hstart : d.start < i) (hstop : d.stop ≤ i) (cs : List Char) :
    replacedFrom (d :: edits) i cs = replacedFrom edits i cs := by
  induction cs generalizing i with
  | nil => exact putIn_cons_of_ne (Nat.ne_of_lt hstart)
  | cons c cs ih =>
    rw [replacedFrom, replacedFrom, putIn_cons_of_ne (Nat.ne_of_lt hstart), keptAt_cons (by omega),
      ih (by omega) (by omega)]

section
variable (hbehind : ∀ e ∈ edits, d.stop ≤ e.start)
include hbehind

/-- What an edit covers goes. -/
theorem replacedFrom_cons_covered {covered : List Char} (hstart : d.start < i)
    (hstop : d.stop = i + covered.length) (cs : List Char) :
    replacedFrom (d :: edits) i (covered ++ cs) = replacedFrom edits d.stop cs := by
  induction covered generalizing i with
  | nil =>
    rw [hstop]
    exact replacedFrom_cons_behind hstart (Nat.le_of_eq hstop) cs
  | cons c covered ih =>
    rw [List.length_cons] at hstop
    have hput : putIn edits i = [] := by
      apply putIn_eq_nil
      intro e he
      have := hbehind e he
      omega
    rw [List.cons_append, replacedFrom, putIn_cons_of_ne (Nat.ne_of_lt hstart), hput,
      keptAt_covered (by omega), ih (by omega) (by omega)]
    rfl

/-- Where an edit begins, it puts in its text. -/
theorem replacedFrom_cons_start {covered : List Char} (hstop : d.stop = d.start + covered.length)
    (cs : List Char) :
    replacedFrom (d :: edits) d.start (covered ++ cs) = d.text ++ replacedFrom edits d.stop cs := by
  cases covered with
  | nil =>
    have hempty : d.stop = d.start := hstop
    rw [hempty]
    cases cs with
    | nil => exact putIn_cons_self rfl
    | cons c cs =>
      rw [List.nil_append, replacedFrom, replacedFrom, putIn_cons_self rfl, keptAt_cons (by omega),
        replacedFrom_cons_behind (by omega) (by omega), List.append_assoc]
  | cons c covered =>
    rw [List.length_cons] at hstop
    have hput : putIn edits d.start = [] := by
      apply putIn_eq_nil
      intro e he
      have := hbehind e he
      omega
    rw [List.cons_append, replacedFrom, putIn_cons_self rfl, hput, keptAt_covered (by omega),
      replacedFrom_cons_covered hbehind (by omega) (by omega), List.append_nil]
    rfl

end

/-! ## Edits in order -/

/-- Edits that are carried out one behind the other are carried out at once. -/
theorem Replaced.eq_replacedFrom {old new : List Char} (h : Replaced cursor edits old new) :
    new = replacedFrom edits cursor old := by
  induction h with
  | rest cursor kept =>
    have hkept : replacedFrom [] cursor (kept ++ []) = kept ++ replacedFrom [] (cursor + kept.length) [] :=
      replacedFrom_append kept (by simp) []
    rw [List.append_nil] at hkept
    rw [hkept]
    exact (List.append_nil kept).symm
  | @edit cursor e edits old new kept covered hstart hstop later ih =>
    have hbehind : ∀ d ∈ edits, e.stop ≤ d.start := fun d hd => (later.cursor_le d hd).1
    have hfront : ∀ d ∈ e :: edits, cursor + kept.length ≤ d.start := by
      intro d hd
      rcases List.mem_cons.1 hd with rfl | hd
      · omega
      · have := hbehind d hd
        omega
    rw [replacedFrom_append kept hfront, ← hstart, replacedFrom_cons_start hbehind hstop, ← ih]

theorem Replaced.length_eq {old new : List Char} (h : Replaced cursor edits old new) :
    (new.length : Int) = old.length + (edits.map Edit.growth).sum := by
  induction h with
  | rest => simp
  | edit kept covered hstart hstop later ih =>
    simp only [List.length_append, List.map_cons, List.sum_cons, Edit.growth]
    omega

theorem outsideFrom_sublist (edits : List Edit) (i : Nat) (cs : List Char) :
    (outsideFrom edits i cs).Sublist (replacedFrom edits i cs) := by
  induction cs generalizing i with
  | nil => exact List.nil_sublist _
  | cons c cs ih =>
    apply List.Sublist.trans _ (List.sublist_append_right (putIn edits i) _)
    exact (List.Sublist.refl _).append (ih (i + 1))

/-! ## Edits in any order -/

theorem keptAt_of_perm (h : listed.Perm edits) (i : Nat) (c : Char) : keptAt listed i c = keptAt edits i c := by
  have hiff : Untouched listed i ↔ Untouched edits i := by
    constructor
    · intro huntouched e he
      exact huntouched e (h.mem_iff.2 he)
    · intro huntouched e he
      exact huntouched e (h.mem_iff.1 he)
  unfold keptAt
  simp only [hiff]

section
variable (h : listed.Perm edits) (hstarts : edits.Pairwise fun a b => a.start ≠ b.start)
include h hstarts

/-- At most one edit puts in something at an offset. -/
theorem putIn_of_perm (i : Nat) : putIn listed i = putIn edits i := by
  have hlisted : listed.Pairwise fun a b => a.start ≠ b.start := h.symm.pairwise hstarts fun hne => hne.symm
  have hfilter : (listed.filter fun e => e.start = i) = edits.filter fun e => e.start = i := by
    refine (h.filter _).eq_of_pairwise ?_ (hlisted.filter _) (hstarts.filter _)
    intro a b ha hb hne _
    have hsame : a.start = b.start := by
      rw [of_decide_eq_true (List.mem_filter.1 ha).2, of_decide_eq_true (List.mem_filter.1 hb).2]
    exact absurd hsame hne
  unfold putIn
  rw [hfilter]

theorem replacedFrom_of_perm (i : Nat) (cs : List Char) : replacedFrom listed i cs = replacedFrom edits i cs := by
  induction cs generalizing i with
  | nil => exact putIn_of_perm h hstarts i
  | cons c cs ih => rw [replacedFrom, replacedFrom, putIn_of_perm h hstarts, keptAt_of_perm h, ih]

theorem replacedAtOnce_of_perm (text : List Char) : replacedAtOnce text listed = replacedAtOnce text edits :=
  replacedFrom_of_perm h hstarts 0 text

end

/-! ## Edits that are dropped -/

/-- Of sorted edits each one that is dropped begins inside one that is carried out. -/
theorem exists_dropped (cursor : Nat) (hsorted : edits.Pairwise fun a b => a.before b = true) :
    ∃ dropped, (carriedFrom cursor edits ++ dropped).Perm edits ∧
      ∀ d ∈ dropped, d.start < cursor ∨ ∃ e ∈ carriedFrom cursor edits, e.start ≤ d.start ∧ d.start < e.stop := by
  induction edits generalizing cursor with
  | nil => exact ⟨[], .refl _, by simp⟩
  | cons a edits ih =>
    obtain ⟨hfirst, hsorted⟩ := List.pairwise_cons.1 hsorted
    by_cases hlt : a.start < cursor
    · obtain ⟨dropped, hperm, hdropped⟩ := ih cursor hsorted
      rw [carriedFrom, if_pos hlt]
      refine ⟨a :: dropped, List.perm_middle.trans (hperm.cons a), ?_⟩
      rw [List.forall_mem_cons]
      exact ⟨.inl hlt, hdropped⟩
    · obtain ⟨dropped, hperm, hdropped⟩ := ih a.stop hsorted
      rw [carriedFrom, if_neg hlt]
      refine ⟨dropped, hperm.cons a, ?_⟩
      intro d hd
      right
      rcases hdropped d hd with hinside | ⟨e, he, hover⟩
      · have hbefore := hfirst d (hperm.subset (List.mem_append_right _ hd))
        simp only [Edit.before, Bool.or_eq_true, Bool.and_eq_true, decide_eq_true_eq, beq_iff_eq] at hbefore
        exact ⟨a, by simp, by omega, hinside⟩
      · exact ⟨e, List.mem_cons_of_mem a he, hover⟩

theorem exists_dropped_carriedOut (edits : List Edit) :
    ∃ dropped, (carriedOut edits ++ dropped).Perm edits ∧
      ∀ d ∈ dropped, ∃ e ∈ carriedOut edits, e.start ≤ d.start ∧ d.start < e.stop := by
  obtain ⟨dropped, hperm, hdropped⟩ := exists_dropped 0 (Edit.pairwise_mergeSort edits)
  refine ⟨dropped, hperm.trans (List.mergeSort_perm edits Edit.before), ?_⟩
  intro d hd
  exact (hdropped d hd).resolve_left (Nat.not_lt_zero _)

/-- Edits that lie clear of each other and begin apart are all carried out. -/
theorem carriedOut_perm (hcovers : ∀ e ∈ edits, e.start ≤ e.stop)
    (hclear : edits.Pairwise fun a b => a.start ≠ b.start ∧ a.ClearOf b) : (carriedOut edits).Perm edits := by
  obtain ⟨dropped, hperm, hdropped⟩ := exists_dropped_carriedOut edits
  have hnone : dropped = [] := by
    rw [List.eq_nil_iff_forall_not_mem]
    intro d hd
    obtain ⟨e, he, hle, hlt⟩ := hdropped d hd
    have hpair := hperm.symm.pairwise hclear fun hab => ⟨hab.1.symm, hab.2.symm⟩
    obtain ⟨hne, hor⟩ := (List.pairwise_append.1 hpair).2.2 e he d hd
    have hcovers := hcovers d (hperm.subset (List.mem_append_right _ hd))
    unfold Edit.ClearOf at hor
    omega
  rwa [hnone, List.append_nil] at hperm

/-- Edits inside a text that lie clear of each other are carried out at once, however they are listed. Of
edits that overlap those are dropped that begin inside one that is carried out. -/
theorem splice_replaces_at_once {text : List Char} {edits : List Edit}
    (hinside : ∀ e ∈ edits, e.start ≤ e.stop ∧ e.stop ≤ text.length) :
    ((edits.Pairwise fun a b => a.start ≠ b.start ∧ a.ClearOf b) →
      splice text edits = replacedAtOnce text edits ∧
        (outside text edits).Sublist (splice text edits) ∧
        ((splice text edits).length : Int) = text.length + (edits.map Edit.growth).sum ∧
        ∀ listed, listed.Perm edits → splice text listed = splice text edits) ∧
      ∃ carried dropped, (carried ++ dropped).Perm edits ∧ carried.Sublist (edits.mergeSort Edit.before) ∧
        carried.Pairwise Edit.ClearOf ∧ splice text edits = replacedAtOnce text carried ∧
        ∀ d ∈ dropped, ∃ e ∈ carried, e.start ≤ d.start ∧ d.start < e.stop := by
  have hreplaced {edits : List Edit} (h : ∀ e ∈ edits, e.start ≤ e.stop ∧ e.stop ≤ text.length) :
      splice text edits = replacedAtOnce text (carriedOut edits) := (replaced_carriedOut h).eq_replacedFrom
  constructor
  · intro hclear
    have hcarried : (carriedOut edits).Perm edits := carriedOut_perm (fun e he => (hinside e he).1) hclear
    have hall {listed : List Edit} (hperm : (carriedOut listed).Perm edits)
        (h : ∀ e ∈ listed, e.start ≤ e.stop ∧ e.stop ≤ text.length) :
        splice text listed = replacedAtOnce text edits := by
      rw [hreplaced h]
      exact replacedAtOnce_of_perm hperm (hclear.imp And.left) text
    refine ⟨hall hcarried hinside, ?_, ?_, ?_⟩
    · rw [hall hcarried hinside]
      exact outsideFrom_sublist edits 0 text
    · rw [(replaced_carriedOut hinside).length_eq, (hcarried.map Edit.growth).sum_eq]
    · intro listed hperm
      have hlisted : ∀ e ∈ listed, e.start ≤ e.stop ∧ e.stop ≤ text.length :=
        fun e he => hinside e (hperm.subset he)
      have hpair := hperm.symm.pairwise hclear fun hab => ⟨hab.1.symm, hab.2.symm⟩
      have hcarried' := carriedOut_perm (fun e he => (hlisted e he).1) hpair
      rw [hall (hcarried'.trans hperm) hlisted, hall hcarried hinside]
  · obtain ⟨dropped, hperm, hdropped⟩ := exists_dropped_carriedOut edits
    refine ⟨carriedOut edits, dropped, hperm, carriedFrom_sublist 0 _, ?_, hreplaced hinside, hdropped⟩
    exact (pairwise_carriedOut fun e he => (hinside e he).1).imp .inl

theorem splice_replaces_at_once_sample :
    splice "abcdef".toList [⟨5, 5, ['y']⟩, ⟨2, 5, ['X']⟩, ⟨0, 1, []⟩] = "bXyf".toList ∧
      ∃ carried dropped, (carried ++ dropped).Perm [⟨3, 3, ['y']⟩, ⟨2, 2, ['z']⟩, ⟨2, 5, ['X']⟩] ∧
        splice "abcdef".toList [⟨3, 3, ['y']⟩, ⟨2, 2, ['z']⟩, ⟨2, 5, ['X']⟩] =
          replacedAtOnce "abcdef".toList carried := by
  constructor
  · exact ((splice_replaces_at_once (by decide)).1 (by decide)).1.trans (by decide)
  · have hinside : ∀ e ∈ ([⟨3, 3, ['y']⟩, ⟨2, 2, ['z']⟩, ⟨2, 5, ['X']⟩] : List Edit),
        e.start ≤ e.stop ∧ e.stop ≤ "abcdef".toList.length := by decide
    obtain ⟨carried, dropped, hperm, -, -, hsplice, -⟩ := (splice_replaces_at_once hinside).2
    exact ⟨carried, dropped, hperm, hsplice⟩

end Codemod.Source
