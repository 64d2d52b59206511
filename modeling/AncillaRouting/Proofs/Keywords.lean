import AncillaRouting.Text.Character
import Mathlib.Data.List.Basic

/-!
# The word of a text

What a text is compared by, said without the way it is computed: white space goes at both ends and nowhere
else, and of the rest only the capital letters of ASCII change.
-/

namespace AncillaRouting.Text

/-- The characters of the White_Space property, one by one. -/
def whiteSpace : List Char :=
  ['\t', '\n', '\x0b', '\x0c', '\r', ' ', '\u0085', '\u00a0', '\u1680', '\u2000', '\u2001', '\u2002', '\u2003',
    '\u2004', '\u2005', '\u2006', '\u2007', '\u2008', '\u2009', '\u200a', '\u2028', '\u2029', '\u202f', '\u205f',
    '\u3000']

/-- `core` is `cs` without the white space at both ends. -/
def Trims (cs core : List Char) : Prop :=
  ∃ before after, cs = before ++ core ++ after ∧ (∀ c ∈ before ++ after, c ∈ whiteSpace) ∧
    (∀ c, core.head? = some c → c ∉ whiteSpace) ∧ ∀ c, core.getLast? = some c → c ∉ whiteSpace

/-- The word that a text spells. -/
def Spells (s word : String) : Prop :=
  ∃ core, Trims s.toList core ∧ word = String.ofList (core.map Char.toLower)

/-! ## Characters -/

theorem isBlank_iff {c : Char} : isBlank c = true ↔ c ∈ whiteSpace := by
  simp only [isBlank, whiteSpace, List.mem_cons, List.not_mem_nil, or_false, ← Char.toNat_inj, Char.reduceToNat,
    Bool.or_eq_true, Bool.and_eq_true, decide_eq_true_eq, beq_iff_eq]
  omega

theorem isBlank_eq_false_iff {c : Char} : isBlank c = false ↔ c ∉ whiteSpace := by
  rw [← isBlank_iff, Bool.not_eq_true]

theorem lower_eq_toLower (c : Char) : lower c = c.toLower := by
  unfold lower Char.toLower
  split
  · next h =>
    have hge : 65 ≤ c.toNat := h.1
    have hle : c.toNat ≤ 90 := h.2
    have hvalid : (c.toNat + 32).isValidChar := .inl (by omega)
    rw [dif_pos (show c.val ≥ 'A'.val ∧ c.val ≤ 'Z'.val from h)]
    apply Char.toNat_inj.mp
    rw [Char.ofNat, dif_pos hvalid]
    exact (Nat.mod_eq_of_lt (show c.toNat + 32 < 4294967296 by omega)).symm
  · next h => rw [dif_neg (show ¬(c.val ≥ 'A'.val ∧ c.val ≤ 'Z'.val) from h)]

/-! ## Trimming -/

theorem dropWhile_eq_iff {α : Type} {p : α → Bool} {l rest : List α} :
    l.dropWhile p = rest ↔
      ∃ before, l = before ++ rest ∧ (∀ x ∈ before, p x = true) ∧ ∀ x, rest.head? = some x → p x = false := by
  constructor
  · rintro rfl
    refine ⟨l.takeWhile p, List.takeWhile_append_dropWhile.symm, ?_, fun x hx => ?_⟩
    · exact fun x hx => List.all_eq_true.mp List.all_takeWhile x hx
    · have hnot := List.head?_dropWhile_not p l
      rw [hx] at hnot
      exact hnot
  · rintro ⟨before, rfl, hbefore, hrest⟩
    rw [List.dropWhile_append_of_pos hbefore]
    cases rest with
    | nil => rfl
    | cons x rest => exact List.dropWhile_cons_of_neg (by simp [hrest x rfl])

theorem dropBlanks_eq_iff {cs rest : List Char} :
    cs.dropWhile isBlank = rest ↔
      ∃ before, cs = before ++ rest ∧ (∀ c ∈ before, c ∈ whiteSpace) ∧ ∀ c, rest.head? = some c → c ∉ whiteSpace := by
  simp only [dropWhile_eq_iff, isBlank_iff, isBlank_eq_false_iff]

theorem trims_trimChars (cs : List Char) : Trims cs (trimChars cs) := by
  obtain ⟨before, hcs, hbefore, hhead⟩ := dropBlanks_eq_iff.mp (Eq.refl (cs.dropWhile isBlank))
  obtain ⟨after, hrest, hafter, hlast⟩ :=
    dropBlanks_eq_iff.mp (Eq.refl ((cs.dropWhile isBlank).reverse.dropWhile isBlank))
  have hsplit : cs.dropWhile isBlank = trimChars cs ++ after.reverse := by
    rw [trimChars, ← List.reverse_append, ← hrest, List.reverse_reverse]
  refine ⟨before, after.reverse, ?_, fun c hc => ?_, fun c hc => ?_, fun c hc => ?_⟩
  · rw [List.append_assoc, ← hsplit]; exact hcs
  · rcases List.mem_append.mp hc with hc | hc
    · exact hbefore c hc
    · exact hafter c (List.mem_reverse.mp hc)
  · exact hhead c (by rw [hsplit, List.head?_append, hc]; rfl)
  · exact hlast c (by rwa [trimChars, List.getLast?_reverse] at hc)

theorem Trims.trimChars_eq {cs core : List Char} (h : Trims cs core) : trimChars cs = core := by
  obtain ⟨before, after, rfl, hblank, hhead, hlast⟩ := h
  have hbefore : ∀ c ∈ before, c ∈ whiteSpace := fun c hc => hblank c (List.mem_append_left _ hc)
  have hafter : ∀ c ∈ after.reverse, c ∈ whiteSpace :=
    fun c hc => hblank c (List.mem_append_right _ (List.mem_reverse.mp hc))
  unfold trimChars
  cases core with
  | nil =>
    -- of white space alone nothing is left, wherever it is cut in two
    have hall : (before ++ [] ++ after).dropWhile isBlank = [] :=
      dropBlanks_eq_iff.mpr ⟨before ++ after, by simp, hblank, nofun⟩
    rw [hall]; rfl
  | cons c core =>
    have hfirst : (before ++ c :: core ++ after).dropWhile isBlank = c :: core ++ after :=
      dropBlanks_eq_iff.mpr ⟨before, List.append_assoc .., hbefore, hhead⟩
    have hsecond : (c :: core ++ after).reverse.dropWhile isBlank = (c :: core).reverse :=
      dropBlanks_eq_iff.mpr ⟨after.reverse, List.reverse_append, hafter,
        fun d hd => hlast d (by rwa [List.head?_reverse] at hd)⟩
    rw [hfirst, hsecond, List.reverse_reverse]

theorem keyword_eq_iff {s word : String} : keyword s = word ↔ Spells s word := by
  have hlower : lower = Char.toLower := funext lower_eq_toLower
  rw [keyword, hlower]
  constructor
  · exact fun h => ⟨trimChars s.toList, trims_trimChars s.toList, h.symm⟩
  · rintro ⟨core, hcore, rfl⟩
    rw [hcore.trimChars_eq]

theorem spells_keyword (s : String) : Spells s (keyword s) := keyword_eq_iff.mp rfl

end AncillaRouting.Text
