import AncillaRouting.Json.Reader
import Mathlib.Data.List.TakeWhile

/-!
# Reading what was printed

The compact text of a value is read as the value, as long as its numbers are integers and its strings are
texts. The reader does not know the end of a word before the character after it, so that a value may be held
in two ways once its text is read.
-/

namespace AncillaRouting

namespace Json

/-- A value without fractions, exponents and surrogates. -/
inductive Textual : Json → Prop where
  | null : Textual .null
  | bool (b : Bool) : Textual (.bool b)
  | int (n : Int) : Textual (.int n)
  | string (s : String) : Textual (.string (.ofString s))
  | array {items : List Json} (h : ∀ v ∈ items, Textual v) : Textual (.array items)
  | object {members : List (CodePoints × Json)} (hk : ∀ m ∈ members, ∃ s, m.1 = .ofString s)
      (hv : ∀ m ∈ members, Textual m.2) : Textual (.object members)

end Json

namespace JsonReader

variable {s t u : State} {cs ds : List Char} {c : Char} {v : Json} {frames : List Frame}

/-! ## Runs of the reader -/

def Reads (s : State) (cs : List Char) (t : State) : Prop := cs.foldlM step s = some t

theorem reads_nil (s : State) : Reads s [] s := rfl

theorem Reads.cons (h : step s c = some t) (h' : Reads t cs u) : Reads s (c :: cs) u := by
  unfold Reads
  rw [List.foldlM_cons, h]
  exact h'

theorem Reads.append (h : Reads s cs t) (h' : Reads t ds u) : Reads s (cs ++ ds) u := by
  unfold Reads
  rw [List.foldlM_append, h]
  exact h'

theorem Reads.of_step_eq (h : step s c = step t c) (h' : Reads t (c :: cs) u) : Reads s (c :: cs) u := by
  unfold Reads at h' ⊢
  rw [List.foldlM_cons] at h' ⊢
  rwa [h]

/-- The text of the value is read, and only in a word could another character still belong to it. -/
inductive Holds (v : Json) (frames : List Frame) : State → Prop where
  | complete : Holds v frames ⟨.complete v, frames⟩
  | word {read : List Char} (h : word? read.reverse = some v) : Holds v frames ⟨.word read, frames⟩

theorem Holds.step (h : Holds v frames s) (hc : c = ',' ∨ c = ']' ∨ c = '\x7d') :
    step s c = stepComplete v c frames := by
  cases h with
  | complete => rfl
  | word h => rcases hc with rfl | rfl | rfl <;> simp [JsonReader.step, h]

theorem Holds.finish (h : Holds v [] s) : finish s = some v := by
  cases h with
  | complete => rfl
  | word h => exact h

structure Readable (v : Json) : Prop where
  starts : ∃ c cs, v.render = c :: cs ∧ isBlank c = false ∧ c ≠ ']'
  reads : ∀ frames, ∃ s, Reads ⟨.value, frames⟩ v.render s ∧ Holds v frames s

/-! ## Words -/

def isOrdinary (c : Char) : Bool := c.isAlphanum || c == '-'

theorem isBlank_of_ordinary (h : isOrdinary c = true) : isBlank c = false := by
  rw [Bool.eq_false_iff]
  intro hb
  simp only [isBlank, Bool.or_eq_true, beq_iff_eq] at hb
  rcases hb with ((rfl | rfl) | rfl) | rfl <;> revert h <;> decide

theorem ne_of_ordinary {d : Char} (h : isOrdinary c = true) (hd : isOrdinary d = false) : c ≠ d := by
  rintro rfl
  rw [h] at hd
  cases hd

theorem reads_word {read : List Char} (h : ∀ c ∈ cs, isOrdinary c = true) :
    Reads ⟨.word read, frames⟩ cs ⟨.word (cs.reverse ++ read), frames⟩ := by
  induction cs generalizing read with
  | nil => exact reads_nil _
  | cons c cs ih =>
    have hc := h c (.head _)
    refine .cons (t := ⟨.word (c :: read), frames⟩) ?_ ?_
    · simp [step, isBlank_of_ordinary hc, ne_of_ordinary hc (d := ',') (by decide),
        ne_of_ordinary hc (d := ']') (by decide), ne_of_ordinary hc (d := '\x7d') (by decide)]
    · rw [List.reverse_cons, List.append_assoc]
      exact ih fun d hd => h d (.tail _ hd)

theorem readable_word (hr : v.render = c :: cs) (ho : (c :: cs).all isOrdinary = true) (hw : word? (c :: cs) = some v) :
    Readable v := by
  have h := List.all_eq_true.mp ho
  have hc := h c (.head _)
  constructor
  · exact ⟨c, cs, hr, isBlank_of_ordinary hc, ne_of_ordinary hc (by decide)⟩
  · intro frames
    refine ⟨⟨.word (cs.reverse ++ [c]), frames⟩, ?_, .word (by simpa using hw)⟩
    rw [hr]
    refine .cons ?_ (reads_word fun d hd => h d (.tail _ hd))
    simp [step, stepValue, isBlank_of_ordinary hc, ne_of_ordinary hc (d := '\x22') (by decide),
        ne_of_ordinary hc (d := '[') (by decide), ne_of_ordinary hc (d := '\x7b') (by decide)]

theorem readable_null : Readable .null := readable_word rfl rfl rfl

theorem readable_bool (b : Bool) : Readable (.bool b) := by
  cases b with
  | true => exact readable_word rfl rfl rfl
  | false => exact readable_word rfl rfl rfl

/-! ## Integers -/

theorem isOrdinary_of_isDigit (h : c.isDigit = true) : isOrdinary c = true := by
  simp [isOrdinary, Char.isAlphanum, h]

theorem isDigit_toDigits {n : Nat} (h : c ∈ Nat.toDigits 10 n) : c.isDigit = true :=
  Nat.isDigit_of_mem_toDigits (by decide) (by decide) h

theorem natOfDigits_toDigits (n : Nat) : natOfDigits (Nat.toDigits 10 n) = n :=
  Nat.ofDigitChars_toDigits (by decide) (by decide)

theorem toDigits_cons (n : Nat) : ∃ d ds, Nat.toDigits 10 n = d :: ds := List.exists_cons_of_ne_nil Nat.toDigits_ne_nil

/-- Only zero is printed with a zero in front. -/
theorem toDigits_zero_cons {n : Nat} (h : Nat.toDigits 10 n = '0' :: ds) : ds = [] := by
  induction n using Nat.strongRecOn generalizing ds with
  | ind n ih =>
    by_cases hn : n < 10
    · rw [Nat.toDigits_of_lt_base hn] at h
      exact (List.cons.inj h).2.symm
    · rw [Nat.toDigits_of_base_le (by decide) (by omega)] at h
      obtain ⟨d, es, hd⟩ := toDigits_cons (n / 10)
      rw [hd, List.cons_append] at h
      obtain ⟨rfl, -⟩ := List.cons.inj h
      -- the number without its last digit begins with the zero, and so is zero
      have hes := ih (n / 10) (by omega) hd
      have hzero := natOfDigits_toDigits (n / 10)
      rw [hd, hes] at hzero
      have : n / 10 = 0 := hzero.symm
      omega

theorem afterInteger?_toDigits (n : Nat) : afterInteger? (Nat.toDigits 10 n) = some [] := by
  obtain ⟨d, ds, h⟩ := toDigits_cons n
  by_cases hd : d = '0'
  · subst hd
    rw [h, toDigits_zero_cons h]
    rfl
  · have hdigits : ∀ e ∈ d :: ds, isDigit e = true := fun e he => isDigit_toDigits (h ▸ he)
    have hrest : ds.dropWhile isDigit = [] := List.dropWhile_eq_nil_iff.mpr fun e he => hdigits e (.tail _ he)
    rw [h]
    unfold afterInteger?
    split
    · rename_i heq
      exact absurd (List.cons.inj heq).1 hd
    · simp only [afterDigits?, hdigits d (.head _), if_true, hrest]

theorem word?_toDigits (n : Nat) : word? (Nat.toDigits 10 n) = some (.int n) := by
  obtain ⟨d, ds, h⟩ := toDigits_cons n
  have hd : d.isDigit = true := isDigit_toDigits (h ▸ List.mem_cons_self)
  have hn : d ≠ 'n' := by rintro rfl; revert hd; decide
  have ht : d ≠ 't' := by rintro rfl; revert hd; decide
  have hf : d ≠ 'f' := by rintro rfl; revert hd; decide
  have hsign : d ≠ '-' := by rintro rfl; revert hd; decide
  have hint := afterInteger?_toDigits n
  have hval := natOfDigits_toDigits n
  rw [h] at hint hval ⊢
  unfold word? number?
  rw [if_neg (by simp [hn]), if_neg (by simp [ht]), if_neg (by simp [hf])]
  split
  rename_i negative magnitude heq
  split at heq
  · rename_i hcons
    exact absurd (List.cons.inj hcons).1 hsign
  · cases heq
    simp [hint, hval]

theorem word?_neg_toDigits {n : Nat} (hn : n ≠ 0) : word? ('-' :: Nat.toDigits 10 n) = some (.int (-n)) := by
  simp [word?, number?, afterInteger?_toDigits, natOfDigits_toDigits, hn]

theorem readable_int (n : Int) : Readable (.int n) := by
  have hr : (Json.int n).render = n.repr.toList := rfl
  rw [Int.repr_eq_if] at hr
  by_cases hn : 0 ≤ n
  · obtain ⟨d, ds, h⟩ := toDigits_cons n.toNat
    rw [if_pos hn, Nat.toList_repr, h] at hr
    refine readable_word hr (List.all_eq_true.mpr ?_) ?_
    · exact fun e he => isOrdinary_of_isDigit (isDigit_toDigits (h ▸ he))
    · rw [← h, word?_toDigits, Int.toNat_of_nonneg hn]
  · rw [if_neg hn, String.toList_append, Nat.toList_repr] at hr
    refine readable_word hr (List.all_eq_true.mpr ?_) ?_
    · intro e he
      cases he with
      | head => decide
      | tail _ he => exact isOrdinary_of_isDigit (isDigit_toDigits he)
    · show word? ('-' :: Nat.toDigits 10 (-n).toNat) = _
      rw [word?_neg_toDigits (by omega), Int.toNat_of_nonneg (by omega), Int.neg_neg]

/-! ## Strings -/

section
variable {members : Option (List (CodePoints × Json))} {points : List Nat}

theorem hexValue?_digit : ∀ n < 16, Text.hexValue? (Text.digit n) = some n := by decide

theorem reads_hexEscape {n : Nat} (hn : n < 32) :
    Reads ⟨.string members points .no, frames⟩ (CodePoints.hexEscape n)
      ⟨.string members (n :: points) .no, frames⟩ := by
  have hvalue : 16 * (16 * (16 * (16 * 0 + n / 4096 % 16) + n / 256 % 16) + n / 16 % 16) + n % 16 = n := by omega
  have hunit : addUnit n points = n :: points := by
    cases points with
    | nil => rfl
    | cons last points => exact if_neg (by omega)
  have hmore : ∀ m < 16, ∀ digits < 3, ∀ value,
      step ⟨.string members points (.hex digits value), frames⟩ (Text.digit m) =
        some ⟨.string members points (.hex (digits + 1) (16 * value + m)), frames⟩ := by
    intro m hm digits hd value
    simp [step, stepString, hexValue?_digit m hm, hd]
  have hlast : ∀ m < 16, ∀ value,
      step ⟨.string members points (.hex 3 value), frames⟩ (Text.digit m) =
        some ⟨.string members (addUnit (16 * value + m) points) .no, frames⟩ := by
    intro m hm value
    simp [step, stepString, hexValue?_digit m hm]
  unfold CodePoints.hexEscape
  refine .cons (t := ⟨.string members points .begun, frames⟩) rfl ?_
  refine .cons (t := ⟨.string members points (.hex 0 0), frames⟩) rfl ?_
  refine .cons (hmore _ (by omega) 0 (by omega) _) ?_
  refine .cons (hmore _ (by omega) 1 (by omega) _) ?_
  refine .cons (hmore _ (by omega) 2 (by omega) _) ?_
  refine .cons (hlast _ (by omega) _) ?_
  rw [hvalue, hunit]
  exact reads_nil _

theorem reads_short {n : Nat} (hn : n ∈ [0x22, 0x5C, 0x08, 0x0C, 0x0A, 0x0D, 0x09]) :
    Reads ⟨.string members points .no, frames⟩ (CodePoints.escape n) ⟨.string members (n :: points) .no, frames⟩ := by
  simp only [List.mem_cons, List.not_mem_nil, or_false] at hn
  rcases hn with rfl | rfl | rfl | rfl | rfl | rfl | rfl <;> rfl

theorem reads_escape (c : Char) :
    Reads ⟨.string members points .no, frames⟩ (CodePoints.escape c.toNat)
      ⟨.string members (c.toNat :: points) .no, frames⟩ := by
  by_cases hshort : c.toNat ∈ [0x22, 0x5C, 0x08, 0x0C, 0x0A, 0x0D, 0x09]
  · exact reads_short hshort
  · simp only [List.mem_cons, List.not_mem_nil, or_false, not_or] at hshort
    obtain ⟨hquote, hslash, hb, hf, hn, hr, ht⟩ := hshort
    unfold CodePoints.escape
    rw [if_neg hquote, if_neg hslash, if_neg hb, if_neg hf, if_neg hn, if_neg hr, if_neg ht]
    by_cases hcontrol : c.toNat < 0x20
    · rw [if_pos hcontrol]
      exact reads_hexEscape hcontrol
    · rw [if_neg hcontrol, Text.char?_toNat]
      have hq : c ≠ '\x22' := by rintro rfl; exact hquote rfl
      have hs : c ≠ '\\' := by rintro rfl; exact hslash rfl
      refine .cons ?_ (reads_nil _)
      simp [step, stepString, hq, hs, hcontrol]

theorem reads_points (cs : List Char) (points : List Nat) :
    Reads ⟨.string members points .no, frames⟩ ((cs.map Char.toNat).flatMap CodePoints.escape)
      ⟨.string members ((cs.map Char.toNat).reverse ++ points) .no, frames⟩ := by
  induction cs generalizing points with
  | nil => exact reads_nil _
  | cons c cs ih =>
    rw [List.map_cons, List.flatMap_cons, List.reverse_cons, List.append_assoc]
    exact (reads_escape c).append (ih _)

theorem reads_string (s : String) :
    Reads ⟨.string members [] .no, frames⟩ ((CodePoints.ofString s).flatMap CodePoints.escape ++ ['\x22'])
      ⟨closeString (CodePoints.ofString s).reverse members, frames⟩ := by
  have h : Reads ⟨.string members [] .no, frames⟩ _ ⟨_, frames⟩ := reads_points s.toList []
  rw [List.append_nil] at h
  exact h.append (.cons rfl (reads_nil _))

end

theorem readable_string (s : String) : Readable (.string (.ofString s)) where
  starts := ⟨_, _, rfl, by decide, by decide⟩
  reads frames := by
    refine ⟨_, .cons rfl (reads_string s), ?_⟩
    rw [closeString, List.reverse_reverse]
    exact .complete

/-! ## Arrays -/

theorem reads_items {items : List Json} (hv : Readable v) (h : ∀ w ∈ items, Readable w) (read : List Json)
    (frames : List Frame) :
    Reads ⟨.value, .array read :: frames⟩ (Json.renderItems (v :: items) ++ [']'])
      ⟨.complete (.array (read.reverse ++ v :: items)), frames⟩ := by
  induction items generalizing v read with
  | nil =>
    obtain ⟨s, hs, hh⟩ := hv.reads (.array read :: frames)
    refine hs.append (.cons ?_ (reads_nil _))
    rw [hh.step (.inr (.inl rfl))]
    simp [stepComplete, isBlank]
  | cons w items ih =>
    obtain ⟨s, hs, hh⟩ := hv.reads (.array read :: frames)
    have hcomma : step s ',' = some ⟨.value, .array (v :: read) :: frames⟩ := hh.step (.inl rfl)
    have hrest := ih (h w (.head _)) (fun x hx => h x (.tail _ hx)) (v :: read)
    rw [List.reverse_cons, List.append_assoc] at hrest
    rw [Json.renderItems, List.append_assoc]
    exact hs.append (.cons hcomma hrest)

theorem renderItems_cons (v : Json) (items : List Json) : ∃ cs, Json.renderItems (v :: items) = v.render ++ cs := by
  cases items with
  | nil => exact ⟨[], by simp [Json.renderItems]⟩
  | cons w items => exact ⟨_, by rw [Json.renderItems]⟩

theorem readable_array {items : List Json} (h : ∀ v ∈ items, Readable v) : Readable (.array items) where
  starts := ⟨_, _, by rw [Json.render], by decide, by decide⟩
  reads frames := by
    refine ⟨⟨.complete (.array items), frames⟩, ?_, .complete⟩
    rw [Json.render]
    refine .cons (t := ⟨.firstItem, frames⟩) rfl ?_
    cases items with
    | nil => exact .cons rfl (reads_nil _)
    | cons v items =>
      have hread := reads_items (h v (.head _)) (fun w hw => h w (.tail _ hw)) [] frames
      obtain ⟨rest, hrest⟩ := renderItems_cons v items
      obtain ⟨c, cs, hr, hblank, hclose⟩ := (h v (.head _)).starts
      rw [hrest, hr, List.cons_append, List.cons_append] at hread ⊢
      exact hread.of_step_eq (by simp [step, hblank, hclose])

/-! ## Objects -/

theorem reads_member (key : String) (hv : Readable v) (members : List (CodePoints × Json)) (frames : List Frame) :
    ∃ s, Reads ⟨.key members, frames⟩ (CodePoints.render (.ofString key) ++ ':' :: v.render) s ∧
      Holds v (.member members (.ofString key) :: frames) s := by
  obtain ⟨s, hs, hh⟩ := hv.reads (.member members (.ofString key) :: frames)
  have hkey : Reads ⟨.string (some members) [] .no, frames⟩ _ ⟨closeString _ _, frames⟩ := reads_string key
  rw [closeString, List.reverse_reverse] at hkey
  exact ⟨s, .cons rfl (hkey.append (.cons rfl hs)), hh⟩

theorem reads_members {key : CodePoints} {members : List (CodePoints × Json)} (hk : ∃ s, key = .ofString s)
    (hv : Readable v) (hks : ∀ m ∈ members, ∃ s, m.1 = .ofString s) (hvs : ∀ m ∈ members, Readable m.2)
    (read : List (CodePoints × Json)) (frames : List Frame) :
    Reads ⟨.key read, frames⟩ (Json.renderMembers ((key, v) :: members) ++ ['\x7d'])
      ⟨.complete (.object (read.reverse ++ (key, v) :: members)), frames⟩ := by
  induction members generalizing key v read with
  | nil =>
    obtain ⟨key, rfl⟩ := hk
    obtain ⟨s, hs, hh⟩ := reads_member key hv read frames
    rw [Json.renderMembers]
    refine hs.append (.cons ?_ (reads_nil _))
    rw [hh.step (.inr (.inr rfl))]
    simp [stepComplete, isBlank]
  | cons m members ih =>
    obtain ⟨key, rfl⟩ := hk
    obtain ⟨s, hs, hh⟩ := reads_member key hv read frames
    have hcomma : step s ',' = some ⟨.key ((.ofString key, v) :: read), frames⟩ := hh.step (.inl rfl)
    have hrest := ih (hks m (.head _)) (hvs m (.head _)) (fun x hx => hks x (.tail _ hx))
      (fun x hx => hvs x (.tail _ hx)) ((.ofString key, v) :: read)
    rw [List.reverse_cons, List.append_assoc] at hrest
    have hsplit : Json.renderMembers ((.ofString key, v) :: m :: members) ++ ['\x7d'] =
        (CodePoints.render (.ofString key) ++ ':' :: v.render) ++
          ',' :: (Json.renderMembers (m :: members) ++ ['\x7d']) := by
      rw [Json.renderMembers]
      simp
    rw [hsplit]
    exact hs.append (.cons hcomma hrest)

theorem renderMembers_cons (m : CodePoints × Json) (members : List (CodePoints × Json)) :
    ∃ cs, Json.renderMembers (m :: members) = '\x22' :: cs := by
  cases members with
  | nil => exact ⟨_, by rw [Json.renderMembers, CodePoints.render, List.cons_append]⟩
  | cons n members => exact ⟨_, by rw [Json.renderMembers, CodePoints.render, List.cons_append]⟩

theorem readable_object {members : List (CodePoints × Json)} (hk : ∀ m ∈ members, ∃ s, m.1 = .ofString s)
    (hv : ∀ m ∈ members, Readable m.2) : Readable (.object members) where
  starts := ⟨_, _, by rw [Json.render], by decide, by decide⟩
  reads frames := by
    refine ⟨⟨.complete (.object members), frames⟩, ?_, .complete⟩
    rw [Json.render]
    refine .cons (t := ⟨.firstKey, frames⟩) rfl ?_
    cases members with
    | nil => exact .cons rfl (reads_nil _)
    | cons m members =>
      have hread := reads_members (hk m (.head _)) (hv m (.head _)) (fun x hx => hk x (.tail _ hx))
        (fun x hx => hv x (.tail _ hx)) [] frames
      obtain ⟨rest, hrest⟩ := renderMembers_cons m members
      rw [hrest, List.cons_append] at hread ⊢
      exact hread.of_step_eq rfl

end JsonReader

namespace Json

open JsonReader

theorem Textual.readable {v : Json} (h : v.Textual) : Readable v := by
  induction h with
  | null => exact readable_null
  | bool b => exact readable_bool b
  | int n => exact readable_int n
  | string s => exact readable_string s
  | array _ ih => exact readable_array ih
  | object hk _ ih => exact readable_object hk ih

/-- What is printed for a value is read as the value. -/
theorem ofText?_text {v : Json} (h : v.Textual) : ofText? v.text = some v := by
  obtain ⟨s, hs, hh⟩ := h.readable.reads []
  unfold ofText? text
  rw [String.toList_ofList]
  exact Option.bind_eq_some_iff.mpr ⟨s, hs, hh.finish⟩

end Json

end AncillaRouting
