import Codemod.Source.Element
import Codemod.Proofs.Source.Renamed
import Codemod.Proofs.Source.Splice

/-! Renaming an element. The edits of the two forms of tags are those of the live tags, and carried out
from the left they write the names of these anew and copy all else. -/
namespace Codemod.Source
open Text

/-! ## The edits of a renaming -/

/-- The edits that rename the live tags of `cs`, from the left. -/
def tagEdits (old new : List Char) : List Frame → Option Char → Nat → List Char → List Edit
  | _, _, _, [] => []
  | frames, behind, pos, c :: cs =>
    let here := if frames = [] then tagLead? old behind (c :: cs) else none
    (here.map fun lead => ⟨pos, pos + lead.length + old.length, lead ++ new⟩).toList ++
      match step frames c cs with
      | none => []
      | some next => tagEdits old new next (some c) (pos + 1) cs

theorem mem_tagEdits_iff {old new : List Char} {frames : List Frame} {behind : Option Char}
    {pos : Nat} {cs : List Char} {e : Edit} :
    e ∈ tagEdits old new frames behind pos cs ↔ ∃ before rest lead, cs = before ++ rest ∧
      framesAfter frames before rest = some [] ∧ tagLead? old (lastOr behind before) rest = some lead ∧
      e = ⟨pos + before.length, pos + before.length + lead.length + old.length, lead ++ new⟩ := by
  induction cs generalizing frames behind pos with
  | nil =>
    refine iff_of_false (by simp [tagEdits]) ?_
    rintro ⟨before, rest, lead, hcs, -, hlead, -⟩
    obtain ⟨rfl, rfl⟩ := List.append_eq_nil_iff.1 hcs.symm
    simp at hlead
  | cons c cs ih =>
    rw [tagEdits, List.mem_append]
    constructor
    · rintro (h | h)
      · simp only [Option.mem_toList, Option.map_eq_some_iff,
          Option.ite_none_right_eq_some] at h
        obtain ⟨lead, ⟨rfl, hlead⟩, rfl⟩ := h
        exact ⟨[], c :: cs, lead, rfl, rfl, hlead, rfl⟩
      · split at h
        · simp at h
        · next next hstep =>
          obtain ⟨before, rest, lead, rfl, hframes, hlead, rfl⟩ := ih.1 h
          refine ⟨c :: before, rest, lead, rfl, ?_, by simpa using hlead, ?_⟩
          · rw [framesAfter, hstep, Option.bind_some, hframes]
          · simp only [List.length_cons, Edit.mk.injEq, and_true]
            omega
    · rintro ⟨before, rest, lead, hcs, hframes, hlead, rfl⟩
      -- a tag stands at the head or behind the first character
      cases before with
      | nil =>
        obtain rfl : c :: cs = rest := hcs
        obtain rfl : frames = [] := by simpa [framesAfter] using hframes
        have hhere : tagLead? old behind (c :: cs) = some lead := hlead
        exact .inl (by simp [hhere])
      | cons b before =>
        obtain ⟨rfl, rfl⟩ : c = b ∧ cs = before ++ rest := by simpa using hcs
        rw [framesAfter] at hframes
        obtain ⟨next, hstep, hnext⟩ := Option.bind_eq_some_iff.1 hframes
        refine .inr ?_
        rw [hstep]
        refine ih.2 ⟨before, rest, lead, rfl, hnext, by simpa using hlead, ?_⟩
        simp only [List.length_cons, Edit.mk.injEq, and_true]
        omega

theorem start_of_mem_tagEdits {old new : List Char} {frames : List Frame} {behind : Option Char}
    {pos : Nat} {cs : List Char} {e : Edit} (h : e ∈ tagEdits old new frames behind pos cs) :
    pos ≤ e.start ∧ e.start ≤ e.stop := by
  obtain ⟨before, rest, lead, -, -, -, rfl⟩ := mem_tagEdits_iff.1 h
  exact ⟨by simp, by simp; omega⟩

theorem pairwise_tagEdits (old new : List Char) (frames : List Frame) (behind : Option Char)
    (pos : Nat) (cs : List Char) :
    (tagEdits old new frames behind pos cs).Pairwise fun a b => a.start < b.start := by
  induction cs generalizing frames behind pos with
  | nil => simp [tagEdits]
  | cons c cs ih =>
    rw [tagEdits]
    refine List.pairwise_append.2 ⟨?_, ?_, ?_⟩
    · generalize (Option.map _ _ : Option Edit) = here
      cases here <;> simp
    · split
      · exact .nil
      · exact ih _ _ _
    · intro a ha b hb
      simp only [Option.mem_toList, Option.map_eq_some_iff] at ha
      obtain ⟨lead, -, rfl⟩ := ha
      split at hb
      · simp at hb
      · have hstart := (start_of_mem_tagEdits hb).1
        dsimp only
        omega

/-- Characters without `<` have no edits; what follows has those that the frames open there give. -/
theorem tagEdits_skip {old new cs : List Char} (hlt : '<' ∉ cs) (frames : List Frame)
    (behind : Option Char) (pos : Nat) (rest : List Char) :
    tagEdits old new frames behind pos (cs ++ rest) =
      match framesAfter frames cs rest with
      | none => []
      | some next => tagEdits old new next (lastOr behind cs) (pos + cs.length) rest := by
  induction cs generalizing frames behind pos with
  | nil => rfl
  | cons c cs ih =>
    have hc : c ≠ '<' := fun hc => hlt (by simp [hc])
    rw [List.cons_append, tagEdits, tagLead?_eq_none hc, framesAfter]
    simp only [ite_self, Option.map_none, Option.toList_none, List.nil_append, lastOr_cons]
    cases step frames c (cs ++ rest) with
    | none => rfl
    | some next =>
      simp only [Option.bind_some]
      rw [ih (fun hm => hlt (by simp [hm])), List.length_cons,
        show pos + 1 + cs.length = pos + (cs.length + 1) by omega]

/-- Plain characters without `<` have no edits. -/
theorem tagEdits_append {old new cs rest : List Char} (h : Plain cs rest) (hlt : '<' ∉ cs)
    (behind : Option Char) (pos : Nat) :
    tagEdits old new [] behind pos (cs ++ rest) =
      tagEdits old new [] (lastOr behind cs) (pos + cs.length) rest := by
  rw [tagEdits_skip hlt, framesAfter_plain h]

theorem tagEdits_eq_nil {old : List Char} {frames : List Frame} {behind : Option Char}
    {cs : List Char} (h : TagFree old frames behind cs) (new : List Char) (pos : Nat) :
    tagEdits old new frames behind pos cs = [] := by
  refine List.eq_nil_iff_forall_not_mem.2 fun e he => ?_
  obtain ⟨before, rest, lead, rfl, hframes, hlead, -⟩ := mem_tagEdits_iff.1 he
  rw [h.tagLead?_eq_none hframes] at hlead
  cases hlead

/-- A tag has one edit, and the rest of the text its own. -/
theorem tagEdits_tag {old new lead rest : List Char} (hold : TagName old) {behind : Option Char}
    (hlead : tagLead? old behind (lead ++ (old ++ rest)) = some lead) (pos : Nat) :
    tagEdits old new [] behind pos (lead ++ (old ++ rest)) =
      ⟨pos, pos + lead.length + old.length, lead ++ new⟩ ::
        tagEdits old new [] (lastOr behind (lead ++ old)) (pos + lead.length + old.length) rest := by
  have hl := (tagLead?_eq_some hlead).1
  obtain ⟨body, hbody, hlt⟩ := exists_tag_body hl hold
  have hplain := plain_tag hl hold rest
  have hlen : lead.length + old.length = body.length + 1 := by
    rw [← List.length_append, hbody, List.length_cons]
  rw [← List.append_assoc, hbody] at hlead ⊢
  rw [hbody] at hplain
  have hstep : step [] '<' (body ++ rest) = some [] := congrArg some hplain.1
  rw [List.cons_append] at hlead ⊢
  rw [tagEdits, hlead, hstep]
  simp only [if_true, Option.map_some, Option.toList_some, List.singleton_append, lastOr_cons]
  rw [tagEdits_append hplain.2 hlt]
  congr 2
  omega

/-- Carried out from the left, the edits rename the live tags. -/
theorem renamed_spliceFrom {old new : List Char} (hold : TagName old) (frames : List Frame)
    (behind : Option Char) (pos : Nat) (cs : List Char) :
    Renamed old new frames behind cs
      (spliceFrom pos cs (tagEdits old new frames behind pos cs)) := by
  -- A renamed tag is passed over as a whole, so the induction is on the length of what is left.
  induction hn : cs.length using Nat.strongRecOn generalizing frames behind pos cs with
  | ind n ih =>
    cases cs with
    | nil => exact .nil
    | cons c cs =>
      cases hstep : step frames c cs with
      | none =>
        have hne : frames ≠ [] := by
          rintro rfl
          simp [step] at hstep
        have hedits : tagEdits old new frames behind pos (c :: cs) = [] := by
          simp [tagEdits, hstep, hne]
        rw [hedits]
        exact .stuck hstep
      | some next =>
        cases hhere : (if frames = [] then tagLead? old behind (c :: cs) else none) with
        | none =>
          have hedits : tagEdits old new frames behind pos (c :: cs) =
              tagEdits old new next (some c) (pos + 1) cs := by
            simp [tagEdits, hstep, hhere]
          have hkept : spliceFrom pos (c :: cs) (tagEdits old new next (some c) (pos + 1) cs) =
              c :: spliceFrom (pos + 1) cs (tagEdits old new next (some c) (pos + 1) cs) :=
            spliceFrom_append [c] (fun e he => start_of_mem_tagEdits he) cs
          rw [hedits, hkept]
          refine .keep hstep (fun hframes => by simpa [hframes] using hhere) ?_
          exact ih cs.length (by simp at hn; omega) next (some c) (pos + 1) cs rfl
        | some lead =>
          obtain ⟨rfl, hlead⟩ := Option.ite_none_right_eq_some.1 hhere
          obtain ⟨hl, rest, hcs, -⟩ := tagLead?_eq_some hlead
          rw [List.append_assoc] at hcs
          rw [hcs] at hn hlead ⊢
          have hstop : pos + lead.length + old.length = pos + (lead ++ old).length := by
            rw [List.length_append, Nat.add_assoc]
          have hreplace := spliceFrom_replace ⟨pos, pos + lead.length + old.length, lead ++ new⟩ hstop
            rest (tagEdits old new [] (lastOr behind (lead ++ old)) (pos + lead.length + old.length) rest)
          rw [tagEdits_tag hold hlead, ← List.append_assoc lead old rest, hreplace,
            List.append_assoc, List.append_assoc]
          refine .tag hlead (ih rest.length ?_ [] _ _ rest rfl)
          rcases hl with rfl | rfl <;> simp at hn <;> omega

/-- The edits that `renameElement` makes for one of the two forms of tags. -/
def formEdits (text new : List Char) (r : Recogniser Unit) (lead : List Char) : List Edit :=
  (found r text).filterMap fun f =>
    if (marks text)[f.start]? == some .live then some ⟨f.start, f.stop, lead ++ new⟩ else none

theorem mem_formEdits_iff {text new : List Char} {r : Recogniser Unit} (hr : LedBy '<' r)
    {lead : List Char} {e : Edit} :
    e ∈ formEdits text new r lead ↔ ∃ before rest n, text = before ++ rest ∧
      framesAfter [] before rest = some [] ∧ r (lastOr none before) rest = some ((), n) ∧
      e = ⟨before.length, before.length + n, lead ++ new⟩ := by
  have hlive {before rest : List Char} {n : Nat}
      (hread : r (lastOr none before) rest = some ((), n)) :
      (marks (before ++ rest))[before.length]? = some .live ↔
        framesAfter [] before rest = some [] := by
    obtain ⟨body, tail, rfl, -⟩ := hr hread
    have hlead : '<' ≠ '\n' := by decide
    exact (getElem?_marks_eq_live_iff hlead).trans (and_iff_left rfl)
  simp only [formEdits, List.mem_filterMap, found, mem_foundFrom_iff hr (by simp : '<' ∉ text.take 0),
    IsPlace, Nat.zero_add, beq_iff_eq, Option.ite_none_right_eq_some, Option.some_inj]
  constructor
  · rintro ⟨⟨start, n, ⟨⟩⟩, ⟨before, rest, rfl, rfl, hread⟩, hmark, rfl⟩
    exact ⟨before, rest, n, rfl, (hlive hread).1 hmark, hread, rfl⟩
  · rintro ⟨before, rest, n, rfl, hframes, hread, rfl⟩
    exact ⟨⟨before.length, n, ()⟩, ⟨before, rest, rfl, rfl, hread⟩, (hlive hread).2 hframes, rfl⟩

theorem nodup_formEdits (text new : List Char) (r : Recogniser Unit) (lead : List Char) :
    (formEdits text new r lead).Nodup := by
  refine ((pairwise_foundFrom r 0 0 none text).filterMap _ ?_)
  intro f g hlt a ha b hb hab
  simp only [Option.ite_none_right_eq_some, Option.some_inj] at ha hb
  obtain ⟨-, rfl⟩ := ha
  obtain ⟨-, rfl⟩ := hb
  have hstart : f.start = g.start := congrArg Edit.start hab
  omega

theorem tagLead?_eq_opening_iff {name rest : List Char} {behind : Option Char} :
    tagLead? name behind rest = some ['<'] ↔
      openingTag name behind rest = some ((), name.length + 1) := by
  constructor
  · intro h
    unfold tagLead? at h
    split at h
    · next hopen =>
      obtain ⟨⟨⟨⟩, n⟩, hread⟩ := Option.isSome_iff_exists.1 hopen
      rw [hread, (openingTag_eq_some hread).2.1]
    · split at h <;> simp at h
  · intro h
    simp [tagLead?, h]

theorem tagLead?_eq_closing_iff {name rest : List Char} {behind : Option Char} (h : TagName name) :
    tagLead? name behind rest = some ['<', '/'] ↔
      closingTag name behind rest = some ((), name.length + 2) := by
  constructor
  · intro hlead
    unfold tagLead? at hlead
    split at hlead
    · simp at hlead
    · split at hlead
      · next hclose =>
        obtain ⟨⟨⟨⟩, n⟩, hread⟩ := Option.isSome_iff_exists.1 hclose
        rw [hread, (closingTag_eq_some hread).1]
      · cases hlead
  · intro hread
    obtain ⟨-, tail, rfl, -⟩ := closingTag_eq_some hread
    have hopen : openingTag name behind ('<' :: '/' :: (name ++ tail)) = none := by
      by_contra hne
      obtain ⟨⟨⟨⟩, n⟩, hopen⟩ := Option.ne_none_iff_exists'.1 hne
      obtain ⟨-, -, other, heq, -⟩ := openingTag_eq_some hopen
      exact h.append_ne_slash _ _ (List.cons.inj heq).2.symm
    simp [tagLead?, hopen, hread]

/-- The edits of the two forms of tags are the edits of the live tags. -/
theorem perm_tagEdits {text old new : List Char} (hold : TagName old) :
    (tagEdits old new [] none 0 text).Perm
      (formEdits text new (openingTag old) ['<'] ++ formEdits text new (closingTag old) ['<', '/']) := by
  have hsorted := pairwise_tagEdits old new [] none 0 text
  have hnodup : (tagEdits old new [] none 0 text).Nodup := hsorted.imp fun h heq => by
    rw [heq] at h
    omega
  refine (List.perm_ext_iff_of_nodup hnodup (List.nodup_append.2 ⟨nodup_formEdits _ _ _ _,
    nodup_formEdits _ _ _ _, ?_⟩)).2 fun e => ?_
  · intro a ha b hb hab
    obtain ⟨_, _, _, -, -, -, rfl⟩ := (mem_formEdits_iff (ledBy_openingTag hold)).1 ha
    obtain ⟨_, _, _, -, -, -, rfl⟩ := (mem_formEdits_iff (ledBy_closingTag hold)).1 hb
    have hlen : (['<'] ++ new).length = (['<', '/'] ++ new).length :=
      congrArg (fun e => e.text.length) hab
    simp at hlen
  · rw [List.mem_append, mem_formEdits_iff (ledBy_openingTag hold),
      mem_formEdits_iff (ledBy_closingTag hold), mem_tagEdits_iff]
    constructor
    · rintro ⟨before, rest, lead, rfl, hframes, hlead, rfl⟩
      obtain rfl | rfl := (tagLead?_eq_some hlead).1
      · refine .inl ⟨before, rest, _, rfl, hframes, tagLead?_eq_opening_iff.1 hlead, ?_⟩
        simp
        omega
      · refine .inr ⟨before, rest, _, rfl, hframes, (tagLead?_eq_closing_iff hold).1 hlead, ?_⟩
        simp
        omega
    · rintro (⟨before, rest, n, rfl, hframes, hread, rfl⟩ | ⟨before, rest, n, rfl, hframes, hread, rfl⟩)
      · obtain rfl := (openingTag_eq_some hread).2.1
        refine ⟨before, rest, _, rfl, hframes, tagLead?_eq_opening_iff.2 hread, ?_⟩
        simp
        omega
      · obtain rfl := (closingTag_eq_some hread).1
        refine ⟨before, rest, _, rfl, hframes, (tagLead?_eq_closing_iff hold).2 hread, ?_⟩
        simp
        omega

theorem renameElement_eq {text old new : List Char} (hold : TagName old) (hnew : TagName new)
    (hne : old ≠ new) :
    renameElement text old new = spliceFrom 0 text (tagEdits old new [] none 0 text) := by
  have hcond : (old.isEmpty || new.isEmpty || old == new) = false := by
    simp [hold.ne_nil, hnew.ne_nil, hne]
  rw [← splice_of_perm (perm_tagEdits hold) (pairwise_tagEdits old new [] none 0 text),
    renameElement, hcond]
  rfl

theorem renamed_renameElement {text old new : List Char} (hold : TagName old) (hnew : TagName new)
    (hne : old ≠ new) : Renamed old new [] none text (renameElement text old new) := by
  rw [renameElement_eq hold hnew hne]
  exact renamed_spliceFrom hold [] none 0 text

/-! ## What is kept -/

/-- Between the first pieces and the others stands the name of a tag that begins where no frame is
open. -/
def CutAtTag (old : List Char) (frames : List Frame) (behind : Option Char) (cs : List Char)
    (pieces : List (List Char)) : Prop :=
  ∀ left right, pieces = left ++ right → left ≠ [] → right ≠ [] → ∃ before rest lead,
    cs = before ++ rest ∧ before ++ lead = joinWith old left ∧
      framesAfter frames before rest = some [] ∧ tagLead? old (lastOr behind before) rest = some lead

theorem cutAtTag_singleton (old : List Char) (frames : List Frame) (behind : Option Char)
    (cs piece : List Char) : CutAtTag old frames behind cs [piece] := by
  intro left right heq hleft hright
  have hlen := congrArg List.length heq
  have := List.length_pos_iff.2 hleft
  have := List.length_pos_iff.2 hright
  simp at hlen
  omega

theorem Renamed.exists_pieces {old new : List Char} (hold : TagName old) {frames : List Frame}
    {behind : Option Char} {cs cs' : List Char} (h : Renamed old new frames behind cs cs') :
    ∃ piece pieces, cs = joinWith old (piece :: pieces) ∧ cs' = joinWith new (piece :: pieces) ∧
      CutAtTag old frames behind cs (piece :: pieces) := by
  induction h with
  | nil => exact ⟨[], [], rfl, rfl, cutAtTag_singleton _ _ _ _ _⟩
  | @stuck _ _ c cs _ =>
    exact ⟨c :: cs, [], (joinWith_singleton _ _).symm, (joinWith_singleton _ _).symm,
      cutAtTag_singleton _ _ _ _ _⟩
  | @keep frames next behind c cs cs' hstep _ _ ih =>
    obtain ⟨piece, pieces, hcs, hcs', hcut⟩ := ih
    refine ⟨c :: piece, pieces, by rw [joinWith_cons_cons, ← hcs], by rw [joinWith_cons_cons, ← hcs'],
      fun left right heq hleft hright => ?_⟩
    obtain ⟨first, left, rfl⟩ := List.exists_cons_of_ne_nil hleft
    obtain ⟨rfl, rfl⟩ := List.cons.inj heq
    obtain ⟨before, rest, lead, hsplit, hjoin, hframes, hlead⟩ :=
      hcut (piece :: left) right rfl (by simp) hright
    refine ⟨c :: before, rest, lead, by rw [hsplit]; rfl, ?_, ?_, by simpa using hlead⟩
    · rw [joinWith_cons_cons, ← hjoin]
      rfl
    · rw [framesAfter, ← hsplit, hstep, Option.bind_some, hframes]
  | @tag behind lead cs cs' hlead _ ih =>
    obtain ⟨piece, pieces, hcs, hcs', hcut⟩ := ih
    refine ⟨lead, piece :: pieces, by rw [joinWith_cons _ _ (by simp), ← hcs],
      by rw [joinWith_cons _ _ (by simp), ← hcs'], fun left right heq hleft hright => ?_⟩
    obtain ⟨first, left, rfl⟩ := List.exists_cons_of_ne_nil hleft
    obtain ⟨rfl, hrest⟩ := List.cons.inj heq
    -- the first cut is at this tag, the others are those of the rest
    by_cases hnil : left = []
    · subst hnil
      exact ⟨[], lead ++ (old ++ cs), lead, rfl, (joinWith_singleton _ _).symm, rfl, hlead⟩
    · obtain ⟨before, rest, lead', hsplit, hjoin, hframes, hlead'⟩ := hcut left right hrest hnil hright
      have hplain := plain_tag (tagLead?_eq_some hlead).1 hold (before ++ rest)
      refine ⟨(lead ++ old) ++ before, rest, lead', by simp [hsplit], ?_, ?_, ?_⟩
      · rw [joinWith_cons _ _ hnil, ← hjoin]
        simp
      · rw [framesAfter_append, framesAfter_plain hplain, Option.bind_some, hframes]
      · rwa [lastOr_append]

/-- Renaming an element writes the name of its live tags anew and keeps all else, in order; literals and
comments are the same texts afterwards, no live tag of the old name is left, and a second renaming
finds nothing to do. -/
theorem renameElement_confined {text old new : List Char} (hold : TagName old) (hnew : TagName new)
    (hne : old ≠ new) :
    inertTexts (renameElement text old new) = inertTexts text ∧
    (∃ pieces, text = joinWith old pieces ∧ renameElement text old new = joinWith new pieces ∧
      ∀ left right, pieces = left ++ right → left ≠ [] → right ≠ [] →
        ∃ i, LiveTag old text i ∧ ∃ lead, (lead = ['<'] ∨ lead = ['<', '/']) ∧
          text.take i ++ lead = joinWith old left) ∧
    (∀ i, ¬ LiveTag old (renameElement text old new) i) ∧
    renameElement (renameElement text old new) old new = renameElement text old new := by
  have hrenamed : Renamed old new [] none text (renameElement text old new) :=
    renamed_renameElement hold hnew hne
  have hfree := hrenamed.tagFree hold hnew hne (.inl rfl)
  refine ⟨?_, ?_, not_liveTag_of_tagFree hfree, ?_⟩
  · rw [inertTexts_eq, inertTexts_eq]
    exact (hrenamed.inertTexts_eq hold hnew).1
  · obtain ⟨piece, pieces, hcs, hcs', hcut⟩ := hrenamed.exists_pieces hold
    refine ⟨piece :: pieces, hcs, hcs', fun left right heq hleft hright => ?_⟩
    obtain ⟨before, rest, lead, hsplit, hjoin, hframes, hlead⟩ := hcut left right heq hleft hright
    refine ⟨before.length, ?_, lead, (tagLead?_eq_some hlead).1, ?_⟩
    · rw [hsplit]
      exact liveTag_iff.2 ⟨hframes, by simp [hlead]⟩
    · rw [← hjoin, hsplit, List.take_left]
  · rw [renameElement_eq hold hnew hne, tagEdits_eq_nil hfree]
    rfl

/-- Type arguments, a comment and an attribute value keep the name; two tags are renamed. -/
theorem renameElement_confined_sample :
    TagName "Switch".toList ∧ TagName "Routes".toList ∧ "Switch".toList ≠ "Routes".toList ∧
    renameElement "f<Switch>(x) // <Switch>\n<Switch a='<Switch>'></Switch >".toList
        "Switch".toList "Routes".toList =
      "f<Switch>(x) // <Switch>\n<Routes a='<Switch>'></Routes >".toList ∧
    inertTexts "f<Switch>(x) // <Switch>\n<Routes a='<Switch>'></Routes >".toList =
      inertTexts "f<Switch>(x) // <Switch>\n<Switch a='<Switch>'></Switch >".toList ∧
    renameElement "f<Switch>(x) // <Switch>\n<Routes a='<Switch>'></Routes >".toList
        "Switch".toList "Routes".toList =
      "f<Switch>(x) // <Switch>\n<Routes a='<Switch>'></Routes >".toList := by
  have hold : TagName "Switch".toList := ⟨by decide, List.all_iff_forall_prop.1 (by decide)⟩
  have hnew : TagName "Routes".toList := ⟨by decide, List.all_iff_forall_prop.1 (by decide)⟩
  have hne : "Switch".toList ≠ "Routes".toList := by decide
  have hrenamed : renameElement "f<Switch>(x) // <Switch>\n<Switch a='<Switch>'></Switch >".toList
      "Switch".toList "Routes".toList =
        "f<Switch>(x) // <Switch>\n<Routes a='<Switch>'></Routes >".toList := by
    rw [renameElement_eq hold hnew hne]
    decide +kernel
  obtain ⟨hinert, -, -, hagain⟩ := @renameElement_confined
    "f<Switch>(x) // <Switch>\n<Switch a='<Switch>'></Switch >".toList _ _ hold hnew hne
  rw [hrenamed] at hinert hagain
  exact ⟨hold, hnew, hne, hrenamed, hinert, hagain⟩

end Codemod.Source
