import AncillaRouting.Json.Codec
import AncillaRouting.Proofs.JsonReading
import AncillaRouting.Proofs.Outcome

/-!
# Serialized values come back

What is printed for a value of a serialized type is read and decoded as the value, so that no two values of a
type have the same text.
-/

namespace AncillaRouting

open Json (fields variant? record Fields)

/-- What is encoded is a text without fractions or surrogates, and is decoded again. -/
class LawfulSerial (α : Type) [Serial α] : Prop where
  textual : ∀ a : α, (Serial.encode a).Textual
  decode_encode : ∀ a : α, Serial.decode (Serial.encode a) = some a

open LawfulSerial

theorem mapM_map_of_inverse {α β : Type} {f : β → Option α} {g : α → β} (h : ∀ a, f (g a) = some a) (l : List α) :
    (l.map g).mapM f = some l := by
  induction l with
  | nil => rfl
  | cons a l ih => rw [List.map_cons, List.mapM_cons, h, ih]; rfl

theorem bind_eq_some_of {α β : Type} {x : Option α} {f : α → Option β} {a : α} {b : β} (hx : x = some a)
    (hf : f a = some b) : x >>= f = some b := by
  rw [hx]; exact hf

/-! ## Texts and objects -/

theorem CodePoints.text?_ofString (s : String) : text? (ofString s) = some s := by
  rw [text?, ofString, mapM_map_of_inverse Text.char?_toNat]
  exact congrArg some String.ofList_toList

namespace Json

variable {values : List (String × Json)} {names : List String}

theorem variant?_ofString (s : String) : variant? (.ofString s) = some s := CodePoints.text?_ofString s

theorem textual_ofString (s : String) : (Json.ofString s).Textual := .string s

theorem textual_record (h : ∀ m ∈ values, m.2.Textual) : (record values).Textual := by
  apply Textual.object
  · intro m hm
    obtain ⟨f, -, rfl⟩ := List.mem_map.mp hm
    exact ⟨f.1, rfl⟩
  · intro m hm
    obtain ⟨f, hf, rfl⟩ := List.mem_map.mp hm
    exact h f hf

theorem fields_record (hn : values.map (·.1) = names) (hd : names.Nodup) :
    fields names (record values) = some ⟨true, values⟩ := by
  have hkeys : (values.map fun f => (CodePoints.ofString f.1, f.2)).mapM
      (fun m => (·, m.2) <$> CodePoints.text? m.1) = some values := by
    refine mapM_map_of_inverse (fun f => ?_) values
    rw [CodePoints.text?_ofString]
    rfl
  have hknown : values.filter (fun f => names.contains f.1) = values := by
    apply List.filter_eq_self.mpr
    intro f hf
    simpa [← hn] using ⟨f.2, hf⟩
  refine bind_eq_some_of hkeys ?_
  show (if ((values.filter fun f => names.contains f.1).map (·.1)).Nodup
    then some (⟨true, values.filter fun f => names.contains f.1⟩ : Fields) else none) = _
  rw [hknown, hn, if_pos hd]

namespace Fields

variable {named : Bool} {name : String} {v : Json} {α : Type} [Serial α]

theorem get?_of_mem (hd : (values.map (·.1)).Nodup) (hm : (name, v) ∈ values) :
    (⟨named, values⟩ : Fields).get? name = some v := by
  have hfind : values.find? (·.1 == name) = some (name, v) := by
    induction values with
    | nil => cases hm
    | cons f values ih =>
      rw [List.map_cons, List.nodup_cons] at hd
      cases hm with
      | head => exact List.find?_cons_of_pos (by simp)
      | tail _ hm =>
        have hne : f.1 ≠ name := fun h => hd.1 (List.mem_map.mpr ⟨_, hm, h.symm⟩)
        rw [List.find?_cons_of_neg (by simpa using hne)]
        exact ih hd.2 hm
  exact congrArg (Option.map (·.2)) hfind

variable [LawfulSerial α]

theorem required_of_mem {a : α} (hd : (values.map (·.1)).Nodup) (hm : (name, Serial.encode a) ∈ values) :
    (⟨named, values⟩ : Fields).required name = some a := by
  rw [required, get?_of_mem hd hm]
  exact decode_encode a

theorem defaulted_of_mem {a default : α} (hd : (values.map (·.1)).Nodup) (hm : (name, Serial.encode a) ∈ values) :
    (⟨named, values⟩ : Fields).defaulted name default = some a := by
  rw [defaulted, get?_of_mem hd hm]
  exact decode_encode a

theorem optional_of_mem {o : Option α} (hn : ∀ a : α, Serial.encode a ≠ .null) (hd : (values.map (·.1)).Nodup)
    (hm : (name, Serial.encodeOption o) ∈ values) : (⟨named, values⟩ : Fields).optional name = some o := by
  rw [optional, get?_of_mem hd hm]
  cases o with
  | none => rfl
  | some a =>
    rw [Serial.encodeOption]
    split
    · rename_i hnull; exact absurd (Option.some.inj hnull) (hn a)
    · rename_i hv
      rw [← Option.some.inj hv, decode_encode]; rfl
    · rename_i hv; cases hv

end Fields

end Json

/-! ## Numbers and lists -/

instance : LawfulSerial Bool where
  textual b := .bool b
  decode_encode _ := rfl

instance : LawfulSerial UInt32 where
  textual n := .int n.toNat
  decode_encode n := by
    have hn := n.toNat_lt
    show (if (0 : Int) ≤ n.toNat ∧ (n.toNat : Int) < 4294967296 then _ else none) = _
    rw [if_pos (by omega), Int.toNat_natCast, UInt32.ofNat_toNat]

instance : LawfulSerial Int32 where
  textual i := .int i.toInt
  decode_encode i := by
    have hlo := i.le_toInt
    have hhi := i.toInt_lt
    show (if -2147483648 ≤ i.toInt ∧ i.toInt < 2147483648 then _ else none) = _
    rw [if_pos (by omega), Int32.ofInt_toInt]

instance {α : Type} [Serial α] [LawfulSerial α] : LawfulSerial (List α) where
  textual l := by
    apply Json.Textual.array
    intro v hv
    obtain ⟨a, -, rfl⟩ := List.mem_map.mp hv
    exact textual a
  decode_encode l := by
    exact mapM_map_of_inverse decode_encode l

/-! ## The types of the domain -/

instance : LawfulSerial Side where
  textual s := Json.textual_ofString _
  decode_encode s := by
    simp only [Serial.encode, Serial.decode, Json.variant?_ofString]
    cases s <;> rfl

instance : LawfulSerial Pauli where
  textual op := Json.textual_ofString _
  decode_encode op := by
    simp only [Serial.encode, Serial.decode, Json.variant?_ofString]
    cases op <;> rfl

instance : LawfulSerial SearchStrategy where
  textual s := Json.textual_ofString _
  decode_encode s := by
    simp only [Serial.encode, Serial.decode, Json.variant?_ofString]
    cases s <;> rfl

instance : LawfulSerial RouterKind where
  textual s := Json.textual_ofString _
  decode_encode s := by
    simp only [Serial.encode, Serial.decode, Json.variant?_ofString]
    cases s <;> rfl

instance : LawfulSerial PatchId where
  textual id := textual id.number
  decode_encode id := by
    show PatchId.mk <$> Serial.decode (Serial.encode id.number) = _
    rw [decode_encode]; rfl

instance : LawfulSerial Cell where
  textual c := Json.textual_record (by simp [textual])
  decode_encode c := by
    have hd : ["row", "col"].Nodup := by decide
    refine bind_eq_some_of (Json.fields_record rfl hd) ?_
    refine bind_eq_some_of (Fields.required_of_mem hd (.head _)) ?_
    exact bind_eq_some_of (Fields.required_of_mem hd (.tail _ (.head _))) rfl

theorem Pauli.encode_ne_null (op : Pauli) : Serial.encode op ≠ .null := fun h => by cases h

theorem Json.textual_option (o : Option Pauli) : (Serial.encodeOption o).Textual := by
  cases o with
  | none => exact .null
  | some op => exact textual op

instance : LawfulSerial Boundaries where
  textual b := Json.textual_record (by simp [Json.textual_option])
  decode_encode b := by
    have hd : ["top", "bottom", "left", "right"].Nodup := by decide
    refine bind_eq_some_of (Json.fields_record rfl hd) ?_
    refine bind_eq_some_of (Fields.optional_of_mem Pauli.encode_ne_null hd (.head _)) ?_
    refine bind_eq_some_of (Fields.optional_of_mem Pauli.encode_ne_null hd (.tail _ (.head _))) ?_
    refine bind_eq_some_of (Fields.optional_of_mem Pauli.encode_ne_null hd (.tail _ (.tail _ (.head _)))) ?_
    exact bind_eq_some_of (Fields.optional_of_mem Pauli.encode_ne_null hd (.tail _ (.tail _ (.tail _ (.head _))))) rfl

instance : LawfulSerial PatchCell where
  textual c := Json.textual_record (by simp [textual])
  decode_encode c := by
    have hd : ["cell", "boundaries"].Nodup := by decide
    refine bind_eq_some_of (Json.fields_record rfl hd) ?_
    refine bind_eq_some_of (Fields.required_of_mem hd (.head _)) ?_
    exact bind_eq_some_of (Fields.required_of_mem hd (.tail _ (.head _))) rfl

instance : LawfulSerial Patch where
  textual p := Json.textual_record (by simp [textual])
  decode_encode p := by
    have hd : ["id", "cells"].Nodup := by decide
    refine bind_eq_some_of (Json.fields_record rfl hd) ?_
    refine bind_eq_some_of (Fields.required_of_mem hd (.head _)) ?_
    exact bind_eq_some_of (Fields.required_of_mem hd (.tail _ (.head _))) rfl

instance : LawfulSerial FaceAnchor where
  textual a := Json.textual_record (by simp [textual])
  decode_encode a := by
    have hd : ["patch", "op", "cell", "side"].Nodup := by decide
    refine bind_eq_some_of (Json.fields_record rfl hd) ?_
    refine bind_eq_some_of (Fields.required_of_mem hd (.head _)) ?_
    refine bind_eq_some_of (Fields.required_of_mem hd (.tail _ (.head _))) ?_
    refine bind_eq_some_of (Fields.required_of_mem hd (.tail _ (.tail _ (.head _)))) ?_
    exact bind_eq_some_of (Fields.required_of_mem hd (.tail _ (.tail _ (.tail _ (.head _))))) rfl

instance : LawfulSerial RoutingCell where
  textual c := Json.textual_record (by simp [textual])
  decode_encode c := by
    have hd : ["cell", "connections"].Nodup := by decide
    refine bind_eq_some_of (Json.fields_record rfl hd) ?_
    refine bind_eq_some_of (Fields.required_of_mem hd (.head _)) ?_
    exact bind_eq_some_of (Fields.required_of_mem hd (.tail _ (.head _))) rfl

instance : LawfulSerial RoutingRegion where
  textual r := Json.textual_record (by simp [textual])
  decode_encode r := by
    have hd : ["cells", "source", "target"].Nodup := by decide
    refine bind_eq_some_of (Json.fields_record rfl hd) ?_
    refine bind_eq_some_of (Fields.required_of_mem hd (.head _)) ?_
    refine bind_eq_some_of (Fields.required_of_mem hd (.tail _ (.head _))) ?_
    exact bind_eq_some_of (Fields.required_of_mem hd (.tail _ (.tail _ (.head _)))) rfl

instance : LawfulSerial RouteKey where
  textual k := Json.textual_record (by simp [textual])
  decode_encode k := by
    have hd : ["source_cell", "source_op", "target_cell", "target_op"].Nodup := by decide
    refine bind_eq_some_of (Json.fields_record rfl hd) ?_
    refine bind_eq_some_of (Fields.required_of_mem hd (.head _)) ?_
    refine bind_eq_some_of (Fields.required_of_mem hd (.tail _ (.head _))) ?_
    refine bind_eq_some_of (Fields.required_of_mem hd (.tail _ (.tail _ (.head _)))) ?_
    exact bind_eq_some_of (Fields.required_of_mem hd (.tail _ (.tail _ (.tail _ (.head _))))) rfl

instance : LawfulSerial RouterConfig where
  textual c := Json.textual_record (by simp [textual])
  decode_encode c := by
    have hd : ["router", "graph_search", "edpc"].Nodup := by decide
    refine bind_eq_some_of (Json.fields_record rfl hd) ?_
    refine bind_eq_some_of (Fields.defaulted_of_mem hd (.head _)) ?_
    refine bind_eq_some_of (Fields.defaulted_of_mem hd (.tail _ (.head _))) ?_
    exact bind_eq_some_of (Fields.defaulted_of_mem hd (.tail _ (.tail _ (.head _)))) rfl

/-! ## Printing and reading -/

/-- Reading what was printed gives the value back, and no two values are printed alike. -/
def Serial.Faithful (α : Type) [Serial α] : Prop :=
  (∀ a : α, (Json.ofText? (Serial.encode a).text).bind Serial.decode = some a) ∧
    ∀ a b : α, (Serial.encode a).text = (Serial.encode b).text → a = b

theorem LawfulSerial.faithful (α : Type) [Serial α] [LawfulSerial α] : Serial.Faithful α := by
  have hread : ∀ a : α, (Json.ofText? (Serial.encode a).text).bind Serial.decode = some a := by
    intro a
    rw [Json.ofText?_text (textual a), Option.bind_some, decode_encode]
  refine ⟨hread, fun a b h => ?_⟩
  have ha := hread a
  rw [h, hread b] at ha
  exact (Option.some.inj ha).symm

/-- Every serialized value survives being printed and read. -/
theorem serial_forms_faithful :
    Serial.Faithful Cell ∧ Serial.Faithful Side ∧ Serial.Faithful Pauli ∧ Serial.Faithful PatchId ∧
      Serial.Faithful Boundaries ∧ Serial.Faithful PatchCell ∧ Serial.Faithful Patch ∧ Serial.Faithful FaceAnchor ∧
      Serial.Faithful RoutingCell ∧ Serial.Faithful RoutingRegion ∧ Serial.Faithful RouteKey ∧
      Serial.Faithful SearchStrategy ∧ Serial.Faithful RouterKind ∧ Serial.Faithful RouterConfig :=
  ⟨faithful _, faithful _, faithful _, faithful _, faithful _, faithful _, faithful _, faithful _, faithful _,
    faithful _, faithful _, faithful _, faithful _, faithful _⟩

end AncillaRouting
