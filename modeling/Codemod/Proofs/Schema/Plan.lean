import Codemod.Proofs.Schema.Agreement
import Codemod.Schema.Form

/-! The schema of plans against the check that plans go through. Both describe the same values, except
that whole numbers of more than 63 bits are only read when they are written without a fraction. -/
namespace Codemod

namespace Schema
open Wire

/-- The alternative that describes operations of a kind. -/
def alternative : Op → Schema
  | .editImport .. => editImport
  | .renameElement .. => renameElement
  | .removeAttribute .. => removeAttribute
  | .convertAttribute .. => convertAttribute
  | .rewriteCall .. => rewriteCall
  | .editText .. => editText
  | .formatFiles .. => formatFiles

theorem agrees_optional_text : Agrees Any (optional .text) (nullable Wire.string) (Json.ofOption .str) :=
  agrees_text.optional rfl

theorem agrees_optional_integer :
    Agrees Any (optional .integer) (nullable Wire.integer) (Json.ofOption .int) :=
  agrees_integer.optional rfl

/-! ## Operations -/

theorem agrees_action : Agrees Any (.words (Source.CallAction.all.map Source.CallAction.word))
    (word (Source.CallAction.all.map fun a => (a.word, a))) fun a => .str a.word :=
  agrees_words _ _ (fun a => by cases a <;> decide) fun a b => by cases a <;> cases b <;> decide

theorem agrees_callEdit : Agrees Any callEdit Source.CallEdit.check Source.CallEdit.toJson := by
  have h := (agrees_action.field (name "op") (fail .missing)).both
    ((agrees_optional_integer.field (name "index") (.ok none)).both
      (agrees_optional_text.field (name "value") (.ok none)))
  have hrecord : Agrees _ callEdit Source.CallEdit.check Source.CallEdit.toJson :=
    h.record rfl (by decide) fun _ => rfl
  exact hrecord.of_iff fun e =>
    ⟨fun _ => ⟨(e.action, e.index, e.value), by simp, rfl⟩, fun _ => trivial⟩

theorem agrees_kind (kind : String) :
    FieldsAgree Any [("kind", .words [kind])] (fun given => Op.kindField given kind)
      fun _ => [("kind", .str kind)] :=
  have h : Agrees Any (.words [kind]) (word [(kind, ())]) fun _ : Unit => .str kind :=
    agrees_words (fun _ => kind) [()] (by simp) (by simp)
  h.field (name "kind") _

theorem agrees_needed (n : Name) :
    FieldsAgree Any [(n.wire, .text)] (fun given => Wire.required given n Wire.string)
      fun s => [(n.wire, .str s)] :=
  agrees_text.field n _

theorem agrees_optionalText (n : Name) :
    FieldsAgree Any [(n.wire, optional .text)]
      (fun given => Wire.withDefault given n (nullable Wire.string) none)
      fun s => [(n.wire, Json.ofOption .str s)] :=
  agrees_optional_text.field n _

theorem agrees_maxChars (n : Name) (hn : n.wire = "maxChars") (value : Nat) :
    FieldsAgree Any [(n.wire, .integer)] (fun given => Wire.withDefault given n natural value)
      fun m => [(n.wire, .int m)] := by
  refine fieldsAgree_field n _ (fun _ _ => rfl) (fun _ _ => rfl) fun given v hfits hv hs => ?_
  obtain ⟨m, hm, hread, hsame⟩ := read_integer_of_accepts hs (hfits.field hv)
  obtain ⟨k, rfl⟩ := Int.eq_ofNat_of_zero_le (hfits.maxChars given v m (.self _) (hn ▸ hv) hm)
  exact ⟨k, trivial, by rw [natural, hread]; rfl, hsame⟩

/-- Operations of one kind agree when their fields do. -/
theorem FieldsAgree.operation {dom : α → Prop} {fields : List (String × Schema)}
    {read : Fields → Checked α} {write : α → List (String × Json)}
    (h : FieldsAgree dom fields read write) {names : List Name} {make : α → Op} {kind : String}
    (hnames : names.map (·.wire) = fields.map (·.1)) (hnodup : (fields.map (·.1)).Nodup)
    (hwrite : ∀ a, (make a).toJson = .obj (write a)) (hkind : ∀ a, (make a).kind = kind)
    (hmake : ∀ op : Op, op.kind = kind → ∃ a, dom a ∧ make a = op) :
    Agrees (fun op => op.kind = kind) (.record fields)
      (Wire.record names fun given => (read given).map make) Op.toJson :=
  (h.record hnames hnodup hwrite).of_iff fun op => ⟨hmake op, fun ⟨a, _, he⟩ => he ▸ hkind a⟩

theorem agrees_editImport :
    Agrees (fun op => op.kind = "EDIT_IMPORT") editImport Op.checkEditImport Op.toJson := by
  have h := (agrees_kind "EDIT_IMPORT").both ((agrees_needed Op.file).both
    ((agrees_needed ⟨"fromModule", "from_module"⟩).both
      ((agrees_optionalText ⟨"fromNamed", "from_named"⟩).both
        ((agrees_needed ⟨"toModule", "to_module"⟩).both
          (agrees_optionalText ⟨"toNamed", "to_named"⟩)))))
  refine h.operation rfl (by decide) (fun _ => rfl) (fun _ => rfl) fun op hop => ?_
  cases op with
  | editImport f m n m' n' => exact ⟨((), f, m, n, m', n'), by simp, rfl⟩
  | _ => simp [Op.kind] at hop

theorem agrees_renameElement :
    Agrees (fun op => op.kind = "RENAME_ELEMENT") renameElement Op.checkRenameElement Op.toJson := by
  have h := (agrees_kind "RENAME_ELEMENT").both ((agrees_needed Op.file).both
    ((agrees_needed ⟨"from", "from_name"⟩).both (agrees_needed ⟨"to", "to_name"⟩)))
  refine h.operation rfl (by decide) (fun _ => rfl) (fun _ => rfl) fun op hop => ?_
  cases op with
  | renameElement f a b => exact ⟨((), f, a, b), by simp, rfl⟩
  | _ => simp [Op.kind] at hop

theorem agrees_removeAttribute :
    Agrees (fun op => op.kind = "REMOVE_ATTRIBUTE") removeAttribute Op.checkRemoveAttribute
      Op.toJson := by
  have h := (agrees_kind "REMOVE_ATTRIBUTE").both ((agrees_needed Op.file).both
    ((agrees_needed (name "tag")).both (agrees_needed (name "attr"))))
  refine h.operation rfl (by decide) (fun _ => rfl) (fun _ => rfl) fun op hop => ?_
  cases op with
  | removeAttribute f t a => exact ⟨((), f, t, a), by simp, rfl⟩
  | _ => simp [Op.kind] at hop

theorem agrees_convertAttribute :
    Agrees (fun op => op.kind = "CONVERT_ATTRIBUTE_TO_ELEMENT") convertAttribute
      Op.checkConvertAttribute Op.toJson := by
  have h := (agrees_kind "CONVERT_ATTRIBUTE_TO_ELEMENT").both ((agrees_needed Op.file).both
    ((agrees_needed (name "tag")).both ((agrees_needed ⟨"fromAttr", "from_attr"⟩).both
      (agrees_needed ⟨"toAttr", "to_attr"⟩))))
  refine h.operation rfl (by decide) (fun _ => rfl) (fun _ => rfl) fun op hop => ?_
  cases op with
  | convertAttribute f t a b => exact ⟨((), f, t, a, b), by simp, rfl⟩
  | _ => simp [Op.kind] at hop

theorem agrees_rewriteCall :
    Agrees (fun op => op.kind = "REWRITE_CALL") rewriteCall Op.checkRewriteCall Op.toJson := by
  have h := (agrees_kind "REWRITE_CALL").both ((agrees_needed Op.file).both
    ((agrees_needed ⟨"calleeName", "callee_name"⟩).both
      (agrees_callEdit.list.field (name "edits") (.ok []))))
  refine h.operation rfl (by decide) (fun _ => rfl) (fun _ => rfl) fun op hop => ?_
  cases op with
  | rewriteCall f c es => exact ⟨((), f, c, es), by simp, rfl⟩
  | _ => simp [Op.kind] at hop

theorem agrees_editText :
    Agrees (fun op => op.kind = "EDIT_TEXT_NEAR_ANCHOR") editText Op.checkEditText Op.toJson := by
  have h := (agrees_kind "EDIT_TEXT_NEAR_ANCHOR").both ((agrees_needed Op.file).both
    ((agrees_optionalText (name "anchor")).both ((agrees_needed (name "before")).both
      ((agrees_needed (name "after")).both
        (agrees_maxChars ⟨"maxChars", "max_chars"⟩ rfl Op.defaultMaxChars)))))
  refine h.operation rfl (by decide) (fun _ => rfl) (fun _ => rfl) fun op hop => ?_
  cases op with
  | editText f a b c n => exact ⟨((), f, a, b, c, n), by simp, rfl⟩
  | _ => simp [Op.kind] at hop

theorem agrees_formatFiles :
    Agrees (fun op => op.kind = "FORMAT_FILES") formatFiles Op.checkFormatFiles Op.toJson := by
  have h := (agrees_kind "FORMAT_FILES").both (agrees_text.list.field (name "files") (.ok []))
  refine h.operation rfl (by decide) (fun _ => rfl) (fun _ => rfl) fun op hop => ?_
  cases op with
  | formatFiles fs => exact ⟨((), fs), by simp, rfl⟩
  | _ => simp [Op.kind] at hop

/-- The kinds of operations, each with what describes it and what reads it. -/
def kinds : List (String × Schema × (Json → Checked Op)) :=
  [("EDIT_IMPORT", editImport, Op.checkEditImport),
    ("RENAME_ELEMENT", renameElement, Op.checkRenameElement),
    ("REMOVE_ATTRIBUTE", removeAttribute, Op.checkRemoveAttribute),
    ("CONVERT_ATTRIBUTE_TO_ELEMENT", convertAttribute, Op.checkConvertAttribute),
    ("REWRITE_CALL", rewriteCall, Op.checkRewriteCall),
    ("EDIT_TEXT_NEAR_ANCHOR", editText, Op.checkEditText),
    ("FORMAT_FILES", formatFiles, Op.checkFormatFiles)]

theorem agrees_of_mem_kinds {k : String × Schema × (Json → Checked Op)} (hk : k ∈ kinds) :
    Agrees (fun op => op.kind = k.1) k.2.1 k.2.2 Op.toJson := by
  simp only [kinds, List.mem_cons, List.not_mem_nil, or_false] at hk
  rcases hk with rfl | rfl | rfl | rfl | rfl | rfl | rfl
  exacts [agrees_editImport, agrees_renameElement, agrees_removeAttribute, agrees_convertAttribute,
    agrees_rewriteCall, agrees_editText, agrees_formatFiles]

theorem agrees_op : Agrees Any op Op.check Op.toJson :=
  agrees_tagged (fun _ hk => agrees_of_mem_kinds hk) (fun op => by cases op <;> simp [Op.kind, kinds])
    (by decide)

/-- An operation is as the alternative of its kind says. -/
theorem accepts_alternative (op : Op) : accepts op.toJson (alternative op) = true := by
  cases op with
  | editImport => exact agrees_editImport.accepts_write _ rfl
  | renameElement => exact agrees_renameElement.accepts_write _ rfl
  | removeAttribute => exact agrees_removeAttribute.accepts_write _ rfl
  | convertAttribute => exact agrees_convertAttribute.accepts_write _ rfl
  | rewriteCall => exact agrees_rewriteCall.accepts_write _ rfl
  | editText => exact agrees_editText.accepts_write _ rfl
  | formatFiles => exact agrees_formatFiles.accepts_write _ rfl

/-! ## Plans -/

theorem unitInterval_eq {v : Json} {c : Float} (hv : Wire.number v = .ok c)
    (hc : 0.0 ≤ c ∧ c ≤ 1.0) : Wire.unitInterval v = .ok c := by
  simp [Wire.unitInterval, hv, Except.bind, hc.1, hc.2]

theorem read_confidence {v : Json} (hv : accepts v .number = true) (hunit : v.InUnit) :
    ∃ c : Float, (0.0 ≤ c ∧ c ≤ 1.0) ∧ Wire.unitInterval v = .ok c ∧ Json.Same v (.float c) := by
  cases v with
  | int n =>
    have hc : (0.0 ≤ Number.ofInt n ∧ Number.ofInt n ≤ 1.0) ∧
        Datum.sameReal (.inl n) (.inr (Number.ofInt n)) = true := by
      obtain ⟨h0, h1⟩ := hunit
      obtain rfl | rfl : n = 0 ∨ n = 1 := by omega
      · decide +kernel
      · decide +kernel
    exact ⟨Number.ofInt n, hc.1, unitInterval_eq rfl hc.1, .number rfl rfl hc.2⟩
  | float x => exact ⟨x, hunit, unitInterval_eq rfl hunit, .refl _⟩
  | _ => cases hv

theorem agrees_confidence (absent : Checked Float) :
    FieldsAgree (fun c : Float => 0.0 ≤ c ∧ c ≤ 1.0) [("confidence", .number)]
      (fun given => Wire.field given (name "confidence") Wire.unitInterval absent)
      fun c => [("confidence", .float c)] :=
  fieldsAgree_field (name "confidence") absent (fun _ _ => rfl) (fun _ => unitInterval_eq rfl)
    fun given v hfits hv hs => read_confidence hs (hfits.confidence given v (.self _) hv)

theorem agrees_plan :
    Agrees (fun p : Plan => 0.0 ≤ p.confidence ∧ p.confidence ≤ 1.0) plan Plan.check Plan.toJson := by
  have h := (agrees_integer.list.field ⟨"targetCodes", "target_codes"⟩ (.ok [])).both
    ((agrees_op.list.field (name "ops") (.ok [])).both
      ((agrees_text.list.field (name "why") (.ok [])).both (agrees_confidence (.ok 0.0))))
  have hrecord : Agrees _ plan Plan.check Plan.toJson := h.record rfl (by decide) fun _ => rfl
  refine hrecord.of_iff fun p => ⟨fun hp => ?_, ?_⟩
  · exact ⟨(p.targetCodes, p.ops, p.why, p.confidence), by simpa using hp, rfl⟩
  · rintro ⟨a, ⟨-, -, -, hc⟩, rfl⟩
    exact hc

end Schema

namespace Plan
open Schema

/-- What plans are written as is as their schema says, each operation as the alternative of its kind
says, and reads back as the plan; what the schema accepts, within the bounds, reads as a plan that is
written as the same value. -/
theorem schema_describes_check :
    (∀ p : Plan, 0.0 ≤ p.confidence → p.confidence ≤ 1.0 →
      accepts p.toJson Schema.plan = true ∧ (∀ op ∈ p.ops, accepts op.toJson (alternative op) = true) ∧
        check p.toJson = .ok p) ∧
    ∀ v : Json, accepts v Schema.plan = true → v.Fits → ∃ p, check v = .ok p ∧ v.Same p.toJson := by
  constructor
  · intro p h0 h1
    exact ⟨agrees_plan.accepts_write p ⟨h0, h1⟩, fun op _ => accepts_alternative op,
      agrees_plan.read_write p ⟨h0, h1⟩⟩
  · intro v hv hfits
    obtain ⟨p, -, hread, hsame⟩ := agrees_plan.read_accepted v hv hfits
    exact ⟨p, hread, hsame⟩

namespace Sample

/-- A value for a plan without operations, for one diagnostic code. -/
def forCode (code : Float) : Json :=
  .obj [("targetCodes", .arr [.float code]), ("ops", .arr []), ("why", .arr []),
    ("confidence", .float 0.5)]

theorem eq_of_within_forCode {code : Float} {fields : List (String × Json)}
    (h : (forCode code).Within (.obj fields)) : Json.obj fields = forCode code := by
  obtain h | h := h.of_obj
  · exact h
  · simp at h

theorem bounded_forCode (code : Float) : (forCode code).Bounded where
  confidence fields w h hw := by
    cases eq_of_within_forCode h
    cases hw
    exact (by decide +kernel : (0.0 : Float) ≤ 0.5 ∧ (0.5 : Float) ≤ 1.0)
  maxChars fields w n h hw := by
    cases eq_of_within_forCode h
    cases hw

theorem fits_forCode {code : Float}
    (hcode : ∀ n, Number.truncate? code = some n → n.natAbs < Nat.pow 2 63) : (forCode code).Fits where
  toBounded := bounded_forCode code
  narrow x n h hn := by
    have hx : x = code ∨ x = 0.5 := by simpa using h.of_obj
    rcases hx with rfl | rfl
    · exact hcode n hn
    · have hzero : Number.truncate? 0.5 = some 0 := by decide +kernel
      cases hzero.symm.trans hn
      decide

def plan : Plan :=
  { targetCodes := [6133]
    ops := [.editText "src/App.tsx" none "exact " "" 40, .rewriteCall "src/App.tsx" "render" [],
      .formatFiles ["src/App.tsx"]]
    why := ["the attribute is gone"]
    confidence := 0.5 }

end Sample

theorem schema_describes_check_sample :
    check Sample.plan.toJson = .ok Sample.plan ∧
      ∃ p, check (Sample.forCode 6133.0) = .ok p ∧ (Sample.forCode 6133.0).Same p.toJson :=
  ⟨(schema_describes_check.1 Sample.plan (by decide +kernel) (by decide +kernel)).2.2,
    schema_describes_check.2 _ (by decide +kernel) (Sample.fits_forCode fun n hn => by
      have hcode : Number.truncate? 6133.0 = some 6133 := by decide +kernel
      cases hcode.symm.trans hn
      decide)⟩

/-- A code that is written with a fraction of zeros and has more than 63 bits is as the schema says and
is not read. -/
theorem long_code_not_read :
    ¬ ∀ v : Json, accepts v Schema.plan = true → v.Bounded → ∃ p, check v = .ok p ∧ v.Same p.toJson := by
  intro h
  have hbounded := Sample.bounded_forCode 1e20
  obtain ⟨p, hp, -⟩ := h (Sample.forCode 1e20) (by decide +kernel) hbounded
  have hnone : (check (Sample.forCode 1e20)).toOption.isNone = true := by decide +kernel
  rw [hp] at hnone
  cases hnone

end Plan
end Codemod
