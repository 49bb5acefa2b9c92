import Codemod.Proofs.Source.Moved
import Codemod.Proofs.Source.Neutral

/-! An old text and a new one that the reader reads alike: at each character that is kept it does the same
in both, and what has been exchanged leaves open the same. The two texts then agree on what is code and what
is literal, and on where brackets close. -/
namespace Codemod.Source

/-- With the frames open at offset `pos`, the reader does the same in the old text and in the new one at each
character kept, and the covered text of an edit leaves open what its new text does. -/
inductive Tracks : List Frame → Nat → List Edit → List Char → List Char → Prop
  | rest {frames : List Frame} {pos : Nat} {cs : List Char} : Tracks frames pos [] cs cs
  | keep {frames next : List Frame} {pos : Nat} {edits : List Edit} {c : Char} {cs cs' : List Char}
      (old : step frames c cs = some next) (new : step frames c cs' = some next)
      (later : Tracks next (pos + 1) edits cs cs') : Tracks frames pos edits (c :: cs) (c :: cs')
  | stuck {frames : List Frame} {pos : Nat} {edits : List Edit} {c : Char} {cs cs' : List Char}
      (old : step frames c cs = none) (new : step frames c cs' = none)
      (later : Replaced (pos + 1) edits cs cs') : Tracks frames pos edits (c :: cs) (c :: cs')
  | edit {frames next : List Frame} {pos : Nat} {edits : List Edit} {e : Edit} {covered cs cs' : List Char}
      (start : e.start = pos) (stop : e.stop = e.start + covered.length)
      (old : Passes frames next covered cs) (new : Passes frames next e.text cs')
      (later : Tracks next e.stop edits cs cs') :
      Tracks frames pos (e :: edits) (covered ++ cs) (e.text ++ cs')

theorem Replaced.cons {pos : Nat} {edits : List Edit} {cs cs' : List Char}
    (h : Replaced (pos + 1) edits cs cs') (c : Char) : Replaced pos edits (c :: cs) (c :: cs') := by
  cases h with
  | rest => exact .rest pos _
  | edit kept covered hstart hstop later =>
    exact .edit (c :: kept) covered (by rw [List.length_cons]; omega) hstop later

variable {frames : List Frame} {pos : Nat} {edits : List Edit} {cs cs' : List Char}

theorem Tracks.replaced (h : Tracks frames pos edits cs cs') : Replaced pos edits cs cs' := by
  induction h with
  | rest => exact .rest _ _
  | keep _ _ _ ih => exact ih.cons _
  | stuck _ _ hlater => exact hlater.cons _
  | edit hstart hstop _ _ _ ih => exact .edit [] _ (by simp [hstart]) hstop ih

/-- Both texts go on alike behind `front`, which is `front'` in the new one. -/
inductive CutAlike (frames next : List Frame) (pos : Nat) (edits : List Edit) (front rest cs' : List Char) :
    Prop
  | intro (left right : List Edit) (front' rest' : List Char) (edits_eq : edits = left ++ right)
      (new_eq : cs' = front' ++ rest') (before : Replaced pos left front front')
      (reads : framesAfter frames front' rest' = some next)
      (behind : Tracks next (pos + front.length) right rest rest')
      (inside : ∀ e ∈ left, e.start < pos + front.length) : CutAlike frames next pos edits front rest cs'

theorem Tracks.cutAlike_nil (h : Tracks frames pos edits cs cs') : CutAlike frames frames pos edits [] cs cs' :=
  .intro [] edits [] cs' rfl rfl (.rest pos []) rfl h (by simp)

/-- Two texts that are read alike can be cut where no edit is. -/
theorem Tracks.cutAlike {next : List Frame} {front rest : List Char}
    (h : Tracks frames pos edits (front ++ rest) cs') (hfront : framesAfter frames front rest = some next)
    (hedits : ∀ e ∈ edits, e.start < pos + front.length → e.stop ≤ pos + front.length) :
    CutAlike frames next pos edits front rest cs' := by
  generalize hcs : front ++ rest = cs at h
  induction h generalizing front with
  | @rest frames pos cs =>
    subst hcs
    exact .intro [] [] front rest rfl rfl (.rest pos front) hfront .rest (by simp)
  | @keep frames next' pos edits c cs cs' hold hnew later ih =>
    cases front with
    | nil =>
      obtain rfl := Option.some_inj.1 hfront
      exact (hcs ▸ Tracks.keep hold hnew later).cutAlike_nil
    | cons d front =>
      rw [List.cons_append] at hcs
      obtain ⟨rfl, rfl⟩ := List.cons.inj hcs
      rw [framesAfter, hold, Option.bind_some] at hfront
      rw [List.length_cons, Nat.add_comm front.length, ← Nat.add_assoc] at hedits
      obtain ⟨left, right, front', rest', hsplit, rfl, hbefore, hread, hbehind, hinside⟩ :=
        ih hfront hedits rfl
      rw [Nat.add_assoc, Nat.add_comm 1] at hbehind hinside
      exact .intro left right (d :: front') rest' hsplit rfl (hbefore.cons d)
        (by rw [framesAfter, hnew, Option.bind_some, hread]) hbehind hinside
  | @stuck frames pos edits c cs cs' hold hnew later =>
    cases front with
    | nil =>
      obtain rfl := Option.some_inj.1 hfront
      exact (hcs ▸ Tracks.stuck hold hnew later).cutAlike_nil
    | cons d front =>
      rw [List.cons_append] at hcs
      obtain ⟨rfl, rfl⟩ := List.cons.inj hcs
      rw [framesAfter, hold, Option.bind_none] at hfront
      cases hfront
  | @edit frames next' pos edits e covered cs cs' hstart hstop hold hnew later ih =>
    by_cases hfar : pos < pos + front.length
    · have hlen := hedits e (by simp) (by omega)
      obtain ⟨front, rfl, rfl⟩ : ∃ more, front = covered ++ more ∧ cs = more ++ rest := by
        rcases List.append_eq_append_iff.1 hcs with ⟨more, hcovered, hrest⟩ | hfront
        · have hnil : more = [] := by
            have := congrArg List.length hcovered
            rw [List.length_append] at this
            exact List.length_eq_zero_iff.1 (by omega)
          subst hnil
          exact ⟨[], by rw [hcovered, List.append_nil, List.append_nil], hrest.symm⟩
        · exact hfront
      have hpos : e.stop + front.length = pos + (covered ++ front).length := by
        rw [List.length_append]
        omega
      rw [framesAfter_append, hold.framesAfter_eq, Option.bind_some] at hfront
      rw [← hpos] at hedits
      obtain ⟨left, right, front', rest', rfl, rfl, hbefore, hread, hbehind, hinside⟩ :=
        ih hfront (fun d hd => hedits d (by simp [hd])) rfl
      rw [hpos] at hbehind hinside
      refine .intro (e :: left) right (e.text ++ front') rest' rfl (List.append_assoc _ _ _).symm
        (.edit [] covered (by simp [hstart]) hstop hbefore)
        (by rw [framesAfter_append, hnew.framesAfter_eq, Option.bind_some, hread]) hbehind fun d hd => ?_
      rcases List.mem_cons.1 hd with rfl | hd
      · rwa [hstart]
      · exact hinside d hd
    · obtain rfl : front = [] := List.length_eq_zero_iff.1 (by omega)
      obtain rfl := Option.some_inj.1 hfront
      exact (hcs ▸ Tracks.edit hstart hstop hold hnew later).cutAlike_nil

/-- An edit that begins at once has been carried out. -/
theorem Tracks.exists_first {next : List Frame} {e : Edit} {covered rest : List Char}
    (h : Tracks frames pos edits (covered ++ rest) cs') (hedits : ∀ e ∈ edits, e.start < e.stop) (he : e ∈ edits)
    (hstart : e.start = pos) (hstop : e.stop = e.start + covered.length)
    (hcovered : framesAfter frames covered rest = some next) : ∃ later rest', edits = e :: later ∧
      cs' = e.text ++ rest' ∧ Tracks next e.stop later rest rest' := by
  have hne := hedits e he
  generalize hcs : covered ++ rest = cs at h
  cases h with
  | rest => cases he
  | keep _ _ later =>
    have := (later.replaced.cursor_le e he).1
    omega
  | stuck _ _ later =>
    have := (later.cursor_le e he).1
    omega
  | @edit _ next' _ edits d covered' cs cs' hstart' hstop' hold hnew later =>
    obtain rfl : e = d := by
      refine (List.mem_cons.1 he).resolve_right fun hlater => ?_
      have := (later.replaced.cursor_le e hlater).1
      have := hedits d (by simp)
      omega
    obtain ⟨rfl, rfl⟩ := List.append_inj hcs (by omega)
    rw [hold.framesAfter_eq] at hcovered
    obtain rfl := Option.some_inj.1 hcovered
    exact ⟨edits, cs', rfl, rfl, later⟩

/-! ## Marks -/

theorem movedFrom_self (hedits : ∀ e ∈ edits, pos ≤ e.start ∧ e.start < e.stop) (n : Nat) :
    movedFrom pos n edits pos = n := by
  rw [movedFrom_of_le hedits, Nat.sub_self, Nat.add_zero]

theorem movedFrom_succ (hedits : ∀ e ∈ edits, pos + 1 ≤ e.start ∧ e.start < e.stop) {i : Nat}
    (hi : pos + 1 ≤ i) : movedFrom pos 0 edits i = movedFrom (pos + 1) 0 edits i + 1 := by
  cases edits with
  | nil =>
    simp only [movedFrom]
    omega
  | cons e edits =>
    have := hedits e (by simp)
    simp only [movedFrom]
    split
    · omega
    · rw [← Nat.add_comm 1, ← movedFrom_add]
      congr 1
      omega

theorem marksFrom_of_passes {frames next : List Frame} {piece rest : List Char}
    (h : Passes frames next piece rest) (k : Nat) :
    (marksFrom frames (piece ++ rest))[piece.length + k]? = (marksFrom next rest)[k]? := by
  rw [← List.getElem?_drop, drop_marksFrom, h.framesAfter_eq]

/-- A kept character has one mark in both texts. -/
theorem Tracks.getElem?_marksFrom (h : Tracks frames pos edits cs cs')
    (hedits : ∀ e ∈ edits, e.start < e.stop) {i : Nat} (hi : Untouched edits i) (hpos : pos ≤ i)
    (hlen : i < pos + cs.length) :
    (marksFrom frames cs')[movedFrom pos 0 edits i]? = (marksFrom frames cs)[i - pos]? := by
  induction h with
  | rest => rw [movedFrom, Nat.zero_add]
  | @keep frames next pos edits c cs cs' hold hnew later ih =>
    have hstarts : ∀ e ∈ edits, pos + 1 ≤ e.start ∧ e.start < e.stop :=
      fun e he => ⟨(later.replaced.cursor_le e he).1, hedits e he⟩
    rw [marksFrom, marksFrom, hold, hnew]
    by_cases heq : i = pos
    · subst heq
      rw [movedFrom_self fun e he => ⟨by have := hstarts e he; omega, hedits e he⟩, Nat.sub_self]
      rfl
    · rw [List.length_cons] at hlen
      rw [movedFrom_succ hstarts (by omega), show i - pos = i - (pos + 1) + 1 by omega]
      exact ih hedits hi (by omega) (by omega)
  | @stuck frames pos edits c cs cs' hold hnew later =>
    -- behind a mismatch everything is inside, wherever it stands
    have hmoved := (later.cons c).getElem?_movedFrom hedits hi hpos hlen
    have hinside (cs : List Char) (h : step frames c cs = none) :
        marksFrom frames (c :: cs) = (c :: cs).map fun _ => .inside := by
      rw [marksFrom, h]
      rfl
    rw [hinside cs hold, hinside cs' hnew, List.getElem?_map, List.getElem?_map, hmoved]
  | @edit frames next pos edits e covered cs cs' hstart hstop hold hnew later ih =>
    have hbehind : e.stop ≤ i := by
      have := hi e (by simp)
      omega
    rw [List.length_append] at hlen
    have hlater := ih (fun d hd => hedits d (by simp [hd])) (fun d hd => hi d (by simp [hd])) hbehind
      (by omega)
    have hmoved : movedFrom pos 0 (e :: edits) i = e.text.length + movedFrom e.stop 0 edits i := by
      rw [movedFrom, if_neg (by omega), ← movedFrom_add]
      congr 1
      omega
    rw [hmoved, show i - pos = covered.length + (i - e.stop) by omega, marksFrom_of_passes hnew,
      marksFrom_of_passes hold, hlater]

/-- What is code and what is literal stays so at every character that is kept. -/
theorem Tracks.covered_moved_iff {text text' : List Char} (h : Tracks [] 0 edits text text')
    (hedits : ∀ e ∈ edits, e.start < e.stop) {i : Nat} (hi : Untouched edits i) (hlen : i < text.length) :
    Covered text' (moved edits i) ↔ Covered text i := by
  have hmarks : (marks text')[moved edits i]? = (marks text)[i]? :=
    h.getElem?_marksFrom hedits hi (Nat.zero_le i) (by omega)
  rw [covered_iff, covered_iff, hmarks]

/-- A character that is kept has one mark in both texts, wherever it stands in the new one. -/
theorem Tracks.getElem?_marks_of_replaced {text text' piece piece' rest : List Char} {c : Char}
    {left right : List Edit} (h : Tracks [] 0 (left ++ right) text text')
    (hedits : ∀ e ∈ left ++ right, e.start < e.stop) (hold : text = piece ++ c :: rest)
    (hbefore : Replaced 0 left piece piece') (hright : ∀ e ∈ right, piece.length + 1 ≤ e.start) :
    (marks text')[piece'.length]? = (marks text)[piece.length]? := by
  have hfar : ∀ e ∈ right, 0 + piece.length ≤ e.start ∧ e.start < e.stop := fun e he =>
    ⟨by have := hright e he; omega, hedits e (by simp [he])⟩
  have hmoved : movedFrom 0 0 (left ++ right) piece.length = piece'.length := by
    rw [hbefore.movedFrom_append hfar (by omega), Nat.zero_add, Nat.zero_add,
      movedFrom_self fun e he => by have := hfar e he; omega]
  have huntouched : Untouched (left ++ right) piece.length := by
    intro e he
    rcases List.mem_append.1 he with he | he
    · have := (hbefore.cursor_le e he).2.2
      omega
    · have := hright e he
      omega
  have hlen : piece.length < 0 + text.length := by
    rw [hold, List.length_append, List.length_cons]
    omega
  have hmarks := h.getElem?_marksFrom hedits huntouched (Nat.zero_le _) hlen
  rwa [hmoved] at hmarks

/-! ## Brackets -/

/-- The open frames close in both texts or in neither; where they do, both texts go on alike. -/
inductive ClosesAlike (frames : List Frame) (pos : Nat) (edits : List Edit) (cs cs' : List Char) : Prop
  | never (old : extent? frames cs = none) (new : extent? frames cs' = none)
  | both (left right : List Edit) (inner rest inner' rest' : List Char) (edits_eq : edits = left ++ right)
      (old_eq : cs = inner ++ rest) (new_eq : cs' = inner' ++ rest')
      (old : extent? frames cs = some inner.length) (new : extent? frames cs' = some inner'.length)
      (before : Replaced pos left inner inner') (behind : Tracks [] (pos + inner.length) right rest rest')

theorem extent?_cons_eq (frames : List Frame) (c : Char) (cs : List Char) : extent? frames (c :: cs) =
    match step frames c cs with
    | none => none
    | some [] => some 1
    | some next => (extent? next cs).map (· + 1) := rfl

/-- Whatever brackets are open around what is read alike, they close alike. -/
theorem Tracks.closesAlike (h : Tracks frames pos edits cs cs') {stack : List Char} (hstack : stack ≠ []) :
    ClosesAlike (frames ++ bracketFrames stack) pos edits cs cs' := by
  induction h generalizing stack with
  | @rest frames pos cs =>
    cases hextent : extent? (frames ++ bracketFrames stack) cs with
    | none => exact .never hextent hextent
    | some n =>
      have hlen : (cs.take n).length = n := List.length_take_of_le (extent?_le hextent).2
      exact .both [] [] _ _ _ _ rfl (List.take_append_drop n cs).symm (List.take_append_drop n cs).symm
        (by rw [hlen, hextent]) (by rw [hlen, hextent]) (.rest _ _) .rest
  | @keep frames next pos edits c cs cs' hold hnew later ih =>
    have hsame := step_brackets_eq (hnew.trans hold.symm) stack
    cases hstep : step (frames ++ bracketFrames stack) c cs with
    | none =>
      refine .never ?_ ?_
      · rw [extent?_cons_eq, hstep]
      · rw [extent?_cons_eq, hsame, hstep]
    | some next' =>
      obtain ⟨frames', stack', hstep', rfl, hlast⟩ := step_brackets hstep
      obtain rfl : next = frames' := Option.some_inj.1 (hold.symm.trans hstep')
      by_cases hnil : stack' = []
      · subst hnil
        obtain rfl := hlast hstack rfl
        have hone : extent? (frames ++ bracketFrames stack) (c :: cs) = some [c].length := by
          rw [extent?_cons_eq, hstep]
          rfl
        have hone' : extent? (frames ++ bracketFrames stack) (c :: cs') = some [c].length := by
          rw [extent?_cons_eq, hsame, hstep]
          rfl
        exact .both [] edits [c] cs [c] cs' rfl rfl rfl hone hone' (.rest _ _) later
      · have hne : next ++ bracketFrames stack' ≠ [] := fun h =>
          hnil (bracketFrames_eq_nil_iff.1 (List.append_eq_nil_iff.1 h).2)
        have hcons : extent? (frames ++ bracketFrames stack) (c :: cs) =
            (extent? (next ++ bracketFrames stack') cs).map (· + 1) := extent?_of_step hstep hne
        have hcons' : extent? (frames ++ bracketFrames stack) (c :: cs') =
            (extent? (next ++ bracketFrames stack') cs').map (· + 1) :=
          extent?_of_step (hsame.trans hstep) hne
        cases ih hnil with
        | never hold' hnew' => exact .never (by rw [hcons, hold']; rfl) (by rw [hcons', hnew']; rfl)
        | both left right inner rest inner' rest' hedits hcs hcs' hold' hnew' hbefore hbehind =>
          refine .both left right (c :: inner) rest (c :: inner') rest' hedits (congrArg (c :: ·) hcs)
            (congrArg (c :: ·) hcs') (by rw [hcons, hold']; rfl) (by rw [hcons', hnew']; rfl)
            (hbefore.cons c) ?_
          rwa [List.length_cons, Nat.add_comm inner.length, ← Nat.add_assoc]
  | @stuck frames pos edits c cs cs' hold hnew later =>
    have hframes : frames ≠ [] := by
      rintro rfl
      simp [step] at hold
    refine .never ?_ ?_
    · rw [extent?_cons_eq, step_append hframes, hold]
      rfl
    · rw [extent?_cons_eq, step_append hframes, hnew]
      rfl
  | @edit frames next pos edits e covered cs cs' hstart hstop hold hnew later ih =>
    have hextent := hold.extent stack hstack
    have hextent' := hnew.extent stack hstack
    cases ih hstack with
    | never hold' hnew' =>
      exact .never (by rw [hextent, hold']; rfl) (by rw [hextent', hnew']; rfl)
    | both left right inner rest inner' rest' hedits hcs hcs' hold' hnew' hbefore hbehind =>
      refine .both (e :: left) right (covered ++ inner) rest (e.text ++ inner') rest'
        (congrArg (e :: ·) hedits) ?_ ?_ ?_ ?_ ?_ ?_
      · rw [hcs, List.append_assoc]
      · rw [hcs', List.append_assoc]
      · rw [hextent, hold', Option.map_some, List.length_append, Nat.add_comm]
      · rw [hextent', hnew', Option.map_some, List.length_append, Nat.add_comm]
      · exact .edit [] covered (by simp [hstart]) hstop hbefore
      · rw [List.length_append, ← Nat.add_assoc, ← hstart, ← hstop]
        exact hbehind

/-- A brace closes in both texts or in neither. -/
theorem Tracks.closesAlike_brace (h : Tracks [] pos edits cs cs') :
    ClosesAlike [.bracket '}'] pos edits cs cs' := @Tracks.closesAlike [] pos edits cs cs' h ['}'] (by simp)

end Codemod.Source
