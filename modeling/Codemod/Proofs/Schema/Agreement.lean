import Codemod.Datum
import Codemod.Schema.Basic
import Codemod.Wire.Check
import Mathlib.Data.List.Forall2

/-! Schemas against the readers of records. A schema agrees with a reader and a writer when what is
written is as the schema says and is read back, and when the reader takes what the schema accepts for
the same value. Agreement is proved for the kinds of values first, and then field by field for
records. -/
namespace Codemod

namespace Json

def real? : Json → Option (Int ⊕ Float)
  | .int n => some (.inl n)
  | .float x => some (.inr x)
  | _ => none

/-- The whole number toward zero from a number. -/
def whole? : Json → Option Int
  | .int n => some n
  | .float x => Number.truncate? x
  | _ => none

/-- The same value: fields count by their names, in any order, and numbers by what they are, with or
without a fraction of zeros. -/
inductive Same : Json → Json → Prop
  | refl (v : Json) : Same v v
  | number {v w : Json} {r s : Int ⊕ Float} (hv : v.real? = some r) (hw : w.real? = some s)
      (h : Datum.sameReal r s = true) : Same v w
  | arr {vs ws : List Json} (h : List.Forall₂ Same vs ws) : Same (.arr vs) (.arr ws)
  | obj {fields others : List (String × Json)}
      (h : ∀ name, Option.Rel Same (get? fields name) (get? others name)) :
      Same (.obj fields) (.obj others)

/-- The values that a value consists of, itself among them. -/
inductive Within : Json → Json → Prop
  | self (v : Json) : Within v v
  | item {items : List Json} {v w : Json} (hv : v ∈ items) (h : Within v w) : Within (.arr items) w
  | field {fields : List (String × Json)} {name : String} {v w : Json}
      (hv : get? fields name = some v) (h : Within v w) : Within (.obj fields) w

@[simp] theorem within_str_iff {text : String} {w : Json} : Within (.str text) w ↔ w = .str text :=
  ⟨fun h => by cases h; rfl, fun h => h ▸ .self _⟩

@[simp] theorem within_int_iff {n : Int} {w : Json} : Within (.int n) w ↔ w = .int n :=
  ⟨fun h => by cases h; rfl, fun h => h ▸ .self _⟩

@[simp] theorem within_float_iff {x : Float} {w : Json} : Within (.float x) w ↔ w = .float x :=
  ⟨fun h => by cases h; rfl, fun h => h ▸ .self _⟩

@[simp] theorem within_arr_iff {items : List Json} {w : Json} :
    Within (.arr items) w ↔ w = .arr items ∨ ∃ v ∈ items, Within v w := by
  constructor
  · intro h
    cases h with
    | self => exact .inl rfl
    | item hv h => exact .inr ⟨_, hv, h⟩
  · rintro (rfl | ⟨v, hv, h⟩)
    · exact .self _
    · exact .item hv h

theorem Within.of_obj {fields : List (String × Json)} {w : Json} (h : Within (.obj fields) w) :
    w = .obj fields ∨ ∃ f ∈ fields, Within f.2 w := by
  cases h with
  | self => exact .inl rfl
  | field hv h =>
    obtain ⟨f, hf, rfl⟩ := Option.map_eq_some_iff.1 hv
    exact .inr ⟨f, List.mem_of_find?_eq_some hf, h⟩

theorem Same.obj_of_obj {v : Json} {others : List (String × Json)} (h : Same v (.obj others)) :
    ∃ fields, v = .obj fields := by
  cases h with
  | refl => exact ⟨_, rfl⟩
  | number _ hw => cases hw
  | obj => exact ⟨_, rfl⟩

theorem Same.get?_str {fields others : List (String × Json)} {name text : String}
    (h : Same (.obj fields) (.obj others)) (ht : get? others name = some (.str text)) :
    get? fields name = some (.str text) := by
  cases h with
  | refl => exact ht
  | number hv => cases hv
  | obj h =>
    have hrel := h name
    rw [ht] at hrel
    cases hf : get? fields name with
    | none => rw [hf] at hrel; cases hrel
    | some v =>
      rw [hf] at hrel
      cases hrel with
      | some hsame =>
        cases hsame with
        | refl => rfl
        | number _ hw => cases hw

/-- A number from 0 to 1. -/
def InUnit : Json → Prop
  | .int n => 0 ≤ n ∧ n ≤ 1
  | .float x => 0.0 ≤ x ∧ x ≤ 1.0
  | _ => False

/-- The bounds of numbers in plans, which a schema does not tell. -/
structure Bounded (v : Json) : Prop where
  confidence : ∀ fields w, v.Within (.obj fields) → get? fields "confidence" = some w → w.InUnit
  maxChars : ∀ fields w n, v.Within (.obj fields) → get? fields "maxChars" = some w →
    w.whole? = some n → 0 ≤ n

/-- Numbers within the bounds; a whole number that is written with a fraction of zeros has at most 63
bits. -/
structure Fits (v : Json) : Prop extends Bounded v where
  narrow : ∀ x n, v.Within (.float x) → Number.truncate? x = some n → n.natAbs < Nat.pow 2 63

theorem Fits.of_within {v w : Json} (h : v.Fits) (hw : ∀ u, w.Within u → v.Within u) : w.Fits where
  confidence fields u hu := h.confidence fields u (hw _ hu)
  maxChars fields u n hu := h.maxChars fields u n (hw _ hu)
  narrow x n hu := h.narrow x n (hw _ hu)

theorem Fits.item {items : List Json} (h : (Json.arr items).Fits) {v : Json} (hv : v ∈ items) :
    v.Fits :=
  h.of_within fun _ => .item hv

theorem Fits.field {fields : List (String × Json)} (h : (Json.obj fields).Fits) {name : String}
    {v : Json} (hv : get? fields name = some v) : v.Fits :=
  h.of_within fun _ => .field hv

end Json

namespace Schema
open Json Wire

/-! ## What a schema accepts -/

theorem accepts_list_iff {v : Json} {item : Schema} :
    accepts v (.list item) = true ↔ ∃ items, v = .arr items ∧ ∀ w ∈ items, accepts w item = true := by
  cases v <;> simp [accepts]

theorem acceptsAny_iff {v : Json} {options : List Schema} :
    acceptsAny v options = true ↔ ∃ s ∈ options, accepts v s = true := by
  induction options with
  | nil => simp [acceptsAny]
  | cons s options ih => simp [acceptsAny, ih]

theorem accepts_anyOf_iff {v : Json} {options : List Schema} :
    accepts v (.anyOf options) = true ↔ ∃ s ∈ options, accepts v s = true := by
  rw [accepts, acceptsAny_iff]

theorem acceptsFields_iff {given : List (String × Json)} {fields : List (String × Schema)} :
    acceptsFields given fields = true ↔
      ∀ f ∈ fields, ∃ v, get? given f.1 = some v ∧ accepts v f.2 = true := by
  induction fields with
  | nil => simp [acceptsFields]
  | cons f fields ih =>
    obtain ⟨name, s⟩ := f
    rw [acceptsFields, Bool.and_eq_true, ih, List.forall_mem_cons]
    cases get? given name <;> simp

theorem accepts_record_iff {v : Json} {fields : List (String × Schema)} :
    accepts v (.record fields) = true ↔ ∃ given, v = .obj given ∧
      (∀ f ∈ given, f.1 ∈ fields.map (·.1)) ∧ acceptsFields given fields = true := by
  cases v <;> simp [accepts]

/-! ## Values -/

/-- A schema agrees with a reader and a writer of the values in `dom`. -/
structure Agrees (dom : α → Prop) (s : Schema) (read : Json → Checked α) (write : α → Json) :
    Prop where
  accepts_write : ∀ a, dom a → accepts (write a) s = true
  read_write : ∀ a, dom a → read (write a) = .ok a
  read_accepted : ∀ v, accepts v s = true → v.Fits → ∃ a, dom a ∧ read v = .ok a ∧ Same v (write a)

/-- Any value at all. -/
def Any (_ : α) : Prop := True

@[simp] theorem any_holds (a : α) : Any a := trivial

variable {dom : α → Prop} {s : Schema} {read : Json → Checked α} {write : α → Json}

theorem Agrees.of_iff {dom' : α → Prop} (h : Agrees dom s read write) (hd : ∀ a, dom' a ↔ dom a) :
    Agrees dom' s read write :=
  (funext fun a => propext (hd a) : dom' = dom) ▸ h

theorem agrees_text : Agrees Any .text Wire.string .str where
  accepts_write _ _ := rfl
  read_write _ _ := rfl
  read_accepted v hv _ := by
    cases v with
    | str s => exact ⟨s, trivial, rfl, .refl _⟩
    | _ => cases hv

theorem read_integer_of_accepts {v : Json} (hv : accepts v .integer = true) (hfits : v.Fits) :
    ∃ n, v.whole? = some n ∧ Wire.integer v = .ok n ∧ Same v (.int n) := by
  cases v with
  | int n => exact ⟨n, rfl, rfl, .refl _⟩
  | float x =>
    obtain ⟨n, hn, hx⟩ := (Option.any_eq_true ..).1 hv
    have hnarrow : n.natAbs < Nat.pow 2 63 := hfits.narrow x n (.self _) hn
    refine ⟨n, hn, ?_, .number rfl rfl (by simp [Datum.sameReal, hn, hx])⟩
    simp only [Wire.integer, integerFloat, hn]
    rw [if_neg (by simp [bne, hx]), if_pos hnarrow]
  | _ => cases hv

theorem agrees_integer : Agrees Any .integer Wire.integer .int where
  accepts_write _ _ := rfl
  read_write _ _ := rfl
  read_accepted v hv hfits := by
    obtain ⟨n, -, hread, hsame⟩ := read_integer_of_accepts hv hfits
    exact ⟨n, trivial, hread, hsame⟩

theorem get?_map_word {word : α → String} {all : List α} (hinj : ∀ a b, word a = word b → a = b)
    {a : α} (ha : a ∈ all) : get? (all.map fun b => (word b, b)) (word a) = some a := by
  unfold get?
  rw [List.find?_map, Option.map_map]
  induction all with
  | nil => cases ha
  | cons b all ih =>
    by_cases hb : word b = word a
    · simp [hinj b a hb]
    · have hne : a ≠ b := fun h => hb (h ▸ rfl)
      simpa [hb] using ih ((List.mem_cons.1 ha).resolve_left hne)

/-- One of a few words that mean different things. -/
theorem agrees_words (word : α → String) (all : List α) (hall : ∀ a, a ∈ all)
    (hinj : ∀ a b, word a = word b → a = b) :
    Agrees Any (.words (all.map word)) (Wire.word (all.map fun a => (word a, a)))
      (fun a => .str (word a)) where
  accepts_write a _ := by simpa [accepts] using ⟨a, hall a, rfl⟩
  read_write a _ := by simp [Wire.word, get?_map_word hinj (hall a)]
  read_accepted v hv _ := by
    cases v with
    | str s =>
      obtain ⟨a, ha, rfl⟩ : ∃ a, a ∈ all ∧ word a = s := by simpa [accepts] using hv
      exact ⟨a, trivial, by simp [Wire.word, get?_map_word hinj ha], .refl _⟩
    | _ => cases hv

theorem nullable_of_ne {v : Json} (hv : v ≠ .null) (read : Json → Checked α) :
    nullable read v = (read v).map some := by
  cases v <;> first | rfl | exact absurd rfl hv

theorem Agrees.optional (h : Agrees Any s read write) (hnull : accepts .null s = false) :
    Agrees Any s.optional (nullable read) (Json.ofOption write) where
  accepts_write a _ := by
    cases a with
    | none => simp [Schema.optional, accepts, acceptsAny, Json.ofOption]
    | some a => exact accepts_anyOf_iff.2 ⟨s, by simp, h.accepts_write a trivial⟩
  read_write a _ := by
    cases a with
    | none => rfl
    | some a =>
      have hne : write a ≠ .null := by
        intro he
        have := h.accepts_write a trivial
        rw [he, hnull] at this
        cases this
      rw [Json.ofOption, nullable_of_ne hne, h.read_write a trivial]
      rfl
  read_accepted v hv hfits := by
    by_cases hne : v = .null
    · exact ⟨none, trivial, by rw [hne]; rfl, by rw [hne]; exact .refl _⟩
    · have hs : accepts v s = true := by
        obtain ⟨t, ht, hv⟩ := accepts_anyOf_iff.1 hv
        rcases List.mem_pair.1 ht with ht | ht
        · rwa [ht] at hv
        · rw [ht] at hv
          cases v with
          | null => exact absurd rfl hne
          | _ => cases hv
      obtain ⟨a, -, hread, hsame⟩ := h.read_accepted v hs hfits
      exact ⟨some a, trivial, by rw [nullable_of_ne hne, hread]; rfl, hsame⟩

theorem items_map (h : ∀ a, read (write a) = .ok a) (as : List α) (i : Nat) :
    items read i (as.map write) = .ok as := by
  induction as generalizing i with
  | nil => rfl
  | cons a as ih =>
    rw [List.map_cons, items, h a, ih]
    rfl

theorem items_of_forall {vs : List Json} (h : ∀ v ∈ vs, ∃ a, read v = .ok a ∧ Same v (write a))
    (i : Nat) : ∃ as, items read i vs = .ok as ∧ List.Forall₂ Same vs (as.map write) := by
  induction vs generalizing i with
  | nil => exact ⟨[], rfl, .nil⟩
  | cons v vs ih =>
    obtain ⟨a, hread, hsame⟩ := h v (by simp)
    obtain ⟨as, hreads, hsames⟩ := ih (fun w hw => h w (by simp [hw])) (i + 1)
    refine ⟨a :: as, ?_, .cons hsame hsames⟩
    rw [items, hread, hreads]
    rfl

theorem Agrees.list (h : Agrees Any s read write) :
    Agrees Any (.list s) (Wire.list read) (fun as => .arr (as.map write)) where
  accepts_write as _ := by simpa [accepts] using fun a _ => h.accepts_write a trivial
  read_write as _ := items_map (fun a => h.read_write a trivial) as 0
  read_accepted v hv hfits := by
    obtain ⟨vs, rfl, hvs⟩ := accepts_list_iff.1 hv
    have hitems : ∀ v ∈ vs, ∃ a, read v = .ok a ∧ Same v (write a) := by
      intro v hv
      obtain ⟨a, -, ha⟩ := h.read_accepted v (hvs v hv) (hfits.item hv)
      exact ⟨a, ha⟩
    obtain ⟨as, hread, hsame⟩ := items_of_forall hitems 0
    exact ⟨as, trivial, hread, .arr hsame⟩

/-! ## Records -/

/-- Fields of a record agree with a reader and a writer of them, among whatever fields they are. -/
structure FieldsAgree (dom : α → Prop) (fields : List (String × Schema)) (read : Fields → Checked α)
    (write : α → List (String × Json)) : Prop where
  names : ∀ a, (write a).map (·.1) = fields.map (·.1)
  accepts_write : ∀ a, dom a → ∀ given, (∀ f ∈ write a, get? given f.1 = some f.2) →
    acceptsFields given fields = true
  read_write : ∀ a, dom a → ∀ given, (∀ f ∈ write a, get? given f.1 = some f.2) →
    read given = .ok a
  read_accepted : ∀ given, (Json.obj given).Fits → acceptsFields given fields = true →
    ∃ a, dom a ∧ read given = .ok a ∧ ∀ f ∈ write a, ∃ v, get? given f.1 = some v ∧ Same v f.2

theorem field_eq {given : Fields} {n : Name} {v : Json} (h : get? given n.wire = some v)
    (read : Json → Checked α) (absent : Checked α) :
    Wire.field given n read absent = under (.field n.wire) (read v) := by
  simp [Wire.field, lookup, h]

/-- A field that agrees under what is known of the other fields. -/
theorem fieldsAgree_field (n : Name) (absent : Checked α)
    (haccepts : ∀ a, dom a → accepts (write a) s = true)
    (hread : ∀ a, dom a → read (write a) = .ok a)
    (haccepted : ∀ given v, (Json.obj given).Fits → get? given n.wire = some v →
      accepts v s = true → ∃ a, dom a ∧ read v = .ok a ∧ Same v (write a)) :
    FieldsAgree dom [(n.wire, s)] (fun given => Wire.field given n read absent)
      (fun a => [(n.wire, write a)]) where
  names _ := rfl
  accepts_write a ha given hg := by
    rw [List.forall_mem_singleton] at hg
    simp [acceptsFields, hg, haccepts a ha]
  read_write a ha given hg := by
    rw [List.forall_mem_singleton] at hg
    rw [field_eq hg, hread a ha]
    rfl
  read_accepted given hfits hg := by
    obtain ⟨v, hv, hs⟩ := acceptsFields_iff.1 hg _ (List.mem_singleton_self _)
    obtain ⟨a, ha, hread, hsame⟩ := haccepted given v hfits hv hs
    refine ⟨a, ha, by rw [field_eq hv, hread]; rfl, ?_⟩
    rw [List.forall_mem_singleton]
    exact ⟨v, hv, hsame⟩

theorem Agrees.field (h : Agrees dom s read write) (n : Name) (absent : Checked α) :
    FieldsAgree dom [(n.wire, s)] (fun given => Wire.field given n read absent)
      (fun a => [(n.wire, write a)]) :=
  fieldsAgree_field n absent h.accepts_write h.read_write
    fun _ v hfits hv hs => h.read_accepted v hs (hfits.field hv)

theorem FieldsAgree.both {dom' : β → Prop} {fields fields' : List (String × Schema)}
    {read : Fields → Checked α} {read' : Fields → Checked β} {write : α → List (String × Json)}
    {write' : β → List (String × Json)} (h : FieldsAgree dom fields read write)
    (h' : FieldsAgree dom' fields' read' write') :
    FieldsAgree (fun p : α × β => dom p.1 ∧ dom' p.2) (fields ++ fields')
      (fun given => Wire.both (read given) (read' given)) (fun p => write p.1 ++ write' p.2) where
  names p := by rw [List.map_append, List.map_append, h.names, h'.names]
  accepts_write p hp given hg := by
    rw [List.forall_mem_append] at hg
    rw [acceptsFields_iff, List.forall_mem_append]
    exact ⟨acceptsFields_iff.1 (h.accepts_write _ hp.1 _ hg.1),
      acceptsFields_iff.1 (h'.accepts_write _ hp.2 _ hg.2)⟩
  read_write p hp given hg := by
    rw [List.forall_mem_append] at hg
    exact both_eq_ok_iff.2 ⟨h.read_write _ hp.1 _ hg.1, h'.read_write _ hp.2 _ hg.2⟩
  read_accepted given hfits hg := by
    rw [acceptsFields_iff, List.forall_mem_append] at hg
    obtain ⟨a, ha, hread, hsame⟩ := h.read_accepted given hfits (acceptsFields_iff.2 hg.1)
    obtain ⟨b, hb, hread', hsame'⟩ := h'.read_accepted given hfits (acceptsFields_iff.2 hg.2)
    refine ⟨(a, b), ⟨ha, hb⟩, both_eq_ok_iff.2 ⟨hread, hread'⟩, ?_⟩
    rw [List.forall_mem_append]
    exact ⟨hsame, hsame'⟩

/-- In a record without repeated names every field is found. -/
theorem get?_of_mem {fields : List (String × α)} (hn : (fields.map (·.1)).Nodup) {f : String × α}
    (hf : f ∈ fields) : get? fields f.1 = some f.2 := by
  induction fields with
  | nil => cases hf
  | cons g fields ih =>
    rw [List.map_cons, List.nodup_cons] at hn
    rcases List.mem_cons.1 hf with rfl | hf
    · simp [get?]
    · have hne : g.1 ≠ f.1 := fun he => hn.1 (he ▸ List.mem_map_of_mem hf)
      simpa [get?, hne] using ih hn.2 hf

theorem get?_eq_none_iff {fields : List (String × α)} {name : String} :
    get? fields name = none ↔ name ∉ fields.map (·.1) := by
  rw [get?, Option.map_eq_none_iff, List.find?_eq_none, List.mem_map]
  constructor
  · rintro h ⟨f, hf, he⟩
    exact h f hf (by simpa using he)
  · exact fun h f hf he => h ⟨f, hf, by simpa using he⟩

theorem unknown_eq_nil {given : Fields} {names : List Name}
    (h : ∀ f ∈ given, f.1 ∈ names.map (·.wire)) : unknown given names = [] := by
  rw [unknown, List.filterMap_eq_nil_iff]
  intro f hf
  obtain ⟨n, hn, he⟩ := List.mem_map.1 (h f hf)
  have : (names.any fun n => f.1 == n.wire ||
      (f.1 == n.plain && !given.any (·.1 == n.wire))) = true :=
    List.any_eq_true.2 ⟨n, hn, by simp [he]⟩
  simp [this]

theorem record_eq {given : Fields} {names : List Name} {read : Fields → Checked α} {a : α}
    (h : ∀ f ∈ given, f.1 ∈ names.map (·.wire)) (hread : read given = .ok a) :
    Wire.record names read (.obj given) = .ok a := by
  simp [Wire.record, hread, unknown_eq_nil h]

/-- A record agrees when its fields do, whatever `make` makes of them. -/
theorem FieldsAgree.record {fields : List (String × Schema)} {read : Fields → Checked α}
    {write : α → List (String × Json)} (h : FieldsAgree dom fields read write) {names : List Name}
    (hnames : names.map (·.wire) = fields.map (·.1)) (hnodup : (fields.map (·.1)).Nodup)
    {make : α → β} {write' : β → Json} (hwrite : ∀ a, write' (make a) = .obj (write a)) :
    Agrees (fun b => ∃ a, dom a ∧ make a = b) (.record fields)
      (Wire.record names fun given => (read given).map make) write' where
  accepts_write := by
    rintro _ ⟨a, ha, rfl⟩
    rw [hwrite, accepts_record_iff]
    refine ⟨_, rfl, fun f hf => ?_, h.accepts_write a ha _ fun f hf => get?_of_mem ?_ hf⟩
    · rw [← h.names a]
      exact List.mem_map_of_mem hf
    · rwa [h.names a]
  read_write := by
    rintro _ ⟨a, ha, rfl⟩
    rw [hwrite]
    refine record_eq (fun f hf => ?_) ?_
    · rw [hnames, ← h.names a]
      exact List.mem_map_of_mem hf
    · rw [h.read_write a ha _ fun f hf => get?_of_mem (by rwa [h.names a]) hf]
      rfl
  read_accepted v hv hfits := by
    obtain ⟨given, rfl, hknown, hg⟩ := accepts_record_iff.1 hv
    obtain ⟨a, ha, hread, hsame⟩ := h.read_accepted given hfits hg
    refine ⟨make a, ⟨a, ha, rfl⟩, record_eq (hnames ▸ hknown) (by rw [hread]; rfl), ?_⟩
    rw [hwrite]
    have hn : ((write a).map (·.1)).Nodup := by rwa [h.names a]
    refine .obj fun name => ?_
    by_cases hm : name ∈ (write a).map (·.1)
    · obtain ⟨f, hf, rfl⟩ := List.mem_map.1 hm
      obtain ⟨w, hw, hs⟩ := hsame f hf
      rw [hw, get?_of_mem hn hf]
      exact .some hs
    · have hnot : name ∉ given.map (·.1) := by
        intro hmem
        obtain ⟨f, hf, rfl⟩ := List.mem_map.1 hmem
        rw [h.names a] at hm
        exact hm (hknown f hf)
      rw [get?_eq_none_iff.2 hm, get?_eq_none_iff.2 hnot]
      exact .none

/-! ## Objects of several kinds -/

theorem get?_map_value {entries : List (String × β)} {name : String} (f : β → γ) {b : β}
    (h : get? entries name = some b) :
    get? (entries.map fun e => (e.1, f e.2)) name = some (f b) := by
  obtain ⟨e, he, rfl⟩ := Option.map_eq_some_iff.1 h
  rw [get?, List.find?_map, Option.map_map]
  exact Option.map_eq_some_iff.2 ⟨e, he, rfl⟩

theorem tagged_eq {given : Fields} {kind : String} {readers : List (String × (Json → Checked α))}
    {read : Json → Checked α} {a : α} (hkind : get? given "kind" = some (.str kind))
    (hr : get? readers kind = some read) (hread : read (.obj given) = .ok a) :
    Wire.tagged readers (.obj given) = .ok a := by
  simp only [tagged, hkind, hr, hread]
  rfl

/-- Objects of several kinds agree when those of each kind do. -/
theorem agrees_tagged {kind : α → String} {parts : α → List (String × Json)}
    {kinds : List (String × Schema × (Json → Checked α))}
    (h : ∀ k ∈ kinds, Agrees (fun a => kind a = k.1) k.2.1 k.2.2
      fun a => .obj (("kind", .str (kind a)) :: parts a))
    (hkinds : ∀ a, kind a ∈ kinds.map (·.1)) (hnodup : (kinds.map (·.1)).Nodup) :
    Agrees Any (.anyOf (kinds.map (·.2.1))) (Wire.tagged (kinds.map fun k => (k.1, k.2.2)))
      fun a => .obj (("kind", .str (kind a)) :: parts a) where
  accepts_write a _ := by
    obtain ⟨k, hk, he⟩ := List.mem_map.1 (hkinds a)
    exact accepts_anyOf_iff.2 ⟨k.2.1, List.mem_map.2 ⟨k, hk, rfl⟩, (h k hk).accepts_write a he.symm⟩
  read_write a _ := by
    obtain ⟨k, hk, he⟩ := List.mem_map.1 (hkinds a)
    exact tagged_eq (by simp [get?, he]) (get?_map_value (·.2) (get?_of_mem hnodup hk))
      ((h k hk).read_write a he.symm)
  read_accepted v hv hfits := by
    obtain ⟨s, hs, hv⟩ := accepts_anyOf_iff.1 hv
    obtain ⟨k, hk, rfl⟩ := List.mem_map.1 hs
    obtain ⟨a, ha, hread, hsame⟩ := (h k hk).read_accepted v hv hfits
    obtain ⟨given, rfl⟩ := hsame.obj_of_obj
    have hkind : get? given "kind" = some (.str k.1) := by
      rw [← ha]
      exact hsame.get?_str (by simp [get?])
    exact ⟨a, trivial, tagged_eq hkind (get?_map_value (·.2) (get?_of_mem hnodup hk)) hread, hsame⟩

end Schema
end Codemod
