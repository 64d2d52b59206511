import AncillaRouting.Search.Heap

/-!
# The order of a heap

In an ordered heap no item goes before its parent. Pushing and popping keep that, they neither lose
nor invent an item, and the item that is popped is one that no other goes before.
-/

namespace AncillaRouting.Heap

variable {α : Type} {before : α → α → Bool}

/-- A strict order for which being unordered is transitive. -/
structure StrictWeak (before : α → α → Bool) : Prop where
  asymm : ∀ {a b}, before a b = true → before b a = false
  trans : ∀ {a b c}, before b a = false → before c b = false → before c a = false

theorem StrictWeak.irrefl (hb : StrictWeak before) (a : α) : before a a = false := by
  cases h : before a a with
  | false => rfl
  | true => rw [← h, hb.asymm h]

theorem parent_lt {j n : Nat} (hj : j < n) : (j - 1) / 2 < n := by omega

/-- No item goes before its parent. -/
def InOrder (before : α → α → Bool) (a : Array α) : Prop :=
  ∀ j (hj : j < a.size) (hp : (j - 1) / 2 < a.size), 0 < j → before a[j] a[(j - 1) / 2] = false

def Ordered (before : α → α → Bool) (h : Heap α) : Prop := InOrder before h.items

/-- Only the item at `i` may go before its parent. Its children would be in order there too. -/
structure UpOrder (before : α → α → Bool) (a : Array α) (i : Nat) : Prop where
  lt : i < a.size
  except : ∀ j (hj : j < a.size), 0 < j → j ≠ i → before a[j] a[(j - 1) / 2] = false
  grand : ∀ j (hj : j < a.size), 0 < j → (j - 1) / 2 = i → 0 < i →
    before a[j] a[(i - 1) / 2] = false

/-- Only the item at `i` may be out of order, with its parent or with its children. -/
structure DownOrder (before : α → α → Bool) (a : Array α) (i : Nat) : Prop where
  lt : i < a.size
  except : ∀ j (hj : j < a.size), 0 < j → j ≠ i → (j - 1) / 2 ≠ i →
    before a[j] a[(j - 1) / 2] = false
  grand : ∀ j (hj : j < a.size), 0 < j → (j - 1) / 2 = i → 0 < i →
    before a[j] a[(i - 1) / 2] = false

/-! ## Rising -/

theorem UpOrder.swap (hb : StrictWeak before) {a : Array α} {i : Nat} (h : UpOrder before a i)
    (h0 : 0 < i) (hi : i < a.size) (hup : before a[i] a[(i - 1) / 2] = true) :
    UpOrder before (a.swap i ((i - 1) / 2) hi (by omega)) ((i - 1) / 2) := by
  have parent_ok : ∀ (_ : 0 < (i - 1) / 2),
      before (a[(i - 1) / 2]) (a[((i - 1) / 2 - 1) / 2]) = false := fun hp =>
    h.except _ (by omega) hp (by omega)
  refine ⟨by simp; omega, fun j hj hj0 hjp => ?_, fun j hj hj0 hjp hp => ?_⟩
  · have hj' : j < a.size := by simpa using hj
    simp only [Array.getElem_swap]
    -- the item that went down, its children, its former sibling, and the rest
    by_cases hji : j = i
    · subst hji
      simp only [if_true, if_neg (show (j - 1) / 2 ≠ j by omega)]
      exact hb.asymm hup
    · by_cases hpi : (j - 1) / 2 = i
      · simp only [if_neg hji, if_neg hjp, if_pos hpi]
        exact h.grand j hj' hj0 hpi h0
      · have hok := h.except j hj' hj0 hji
        by_cases hpp : (j - 1) / 2 = (i - 1) / 2
        · simp only [if_neg hji, if_neg hjp, if_neg hpi, if_pos hpp]
          refine hb.trans (hb.asymm hup) ?_
          simpa only [hpp] using hok
        · simp only [if_neg hji, if_neg hjp, if_neg hpi, if_neg hpp]
          exact hok
  · have hj' : j < a.size := by simpa using hj
    simp only [Array.getElem_swap]
    by_cases hji : j = i
    · subst hji
      simp only [if_true, if_neg (show ((j - 1) / 2 - 1) / 2 ≠ j by omega),
        if_neg (show ((j - 1) / 2 - 1) / 2 ≠ (j - 1) / 2 by omega)]
      exact parent_ok hp
    · have hok := h.except j hj' hj0 hji
      simp only [if_neg hji, if_neg (show j ≠ (i - 1) / 2 by omega),
        if_neg (show ((i - 1) / 2 - 1) / 2 ≠ i by omega),
        if_neg (show ((i - 1) / 2 - 1) / 2 ≠ (i - 1) / 2 by omega)]
      refine hb.trans (parent_ok hp) ?_
      simpa only [hjp] using hok

theorem rise_inOrder (hb : StrictWeak before) (a : Array α) (i : Nat) (hi : i < a.size)
    (h : UpOrder before a i) : InOrder before (rise before a i hi) := by
  fun_induction rise before a i hi with
  | case1 a hi => exact fun j hj _ hj0 => h.except j hj hj0 (by omega)
  | case2 a i hi h0 hp hup ih => exact ih (h.swap hb (by omega) hi hup)
  | case3 a i hi h0 hp hup =>
    intro j hj _ hj0
    by_cases hji : j = i
    · subst hji; simpa using hup
    · exact h.except j hj hj0 hji

theorem rise_perm (a : Array α) (i : Nat) (hi : i < a.size) : (rise before a i hi).Perm a := by
  fun_induction rise before a i hi with
  | case1 a hi => exact .rfl
  | case2 a i hi h0 hp hup ih => exact ih.trans (Array.swap_perm _ _)
  | case3 a i hi h0 hp hup => exact .rfl

/-! ## Sinking -/

theorem DownOrder.swap {a : Array α} {i m : Nat} (h : DownOrder before a i)
    (hm : m < a.size) (hm0 : 0 < m) (hmi : (m - 1) / 2 = i)
    (least : ∀ j (hj : j < a.size), 0 < j → (j - 1) / 2 = i → j ≠ m → before a[j] a[m] = false) :
    DownOrder before (a.swap i m h.lt hm) m := by
  have hi := h.lt
  refine ⟨by simpa using hm, fun j hj hj0 hjm hpm => ?_, fun j hj hj0 hjm _ => ?_⟩
  · have hj' : j < a.size := by simpa using hj
    simp only [Array.getElem_swap]
    by_cases hji : j = i
    · subst hji
      simp only [if_true, if_neg (show (j - 1) / 2 ≠ j by omega), if_neg hpm]
      exact h.grand m hm hm0 hmi hj0
    · by_cases hpi : (j - 1) / 2 = i
      · simp only [if_neg hji, if_neg hjm, if_pos hpi]
        exact least j hj' hj0 hpi hjm
      · simp only [if_neg hji, if_neg hjm, if_neg hpi, if_neg hpm]
        exact h.except j hj' hj0 hji hpi
  · have hj' : j < a.size := by simpa using hj
    simp only [Array.getElem_swap, if_neg (show j ≠ i by omega), if_neg (show j ≠ m by omega),
      if_pos hmi]
    simpa only [hjm] using h.except j hj' hj0 (by omega) (by omega)

theorem DownOrder.up {a : Array α} {i : Nat} (h : DownOrder before a i)
    (leaf : a.size ≤ 2 * i + 1) : UpOrder before a i :=
  ⟨h.lt, fun j hj hj0 hji => h.except j hj hj0 hji (by omega), h.grand⟩

theorem sink_inOrder (hb : StrictWeak before) (a : Array α) (i : Nat) (hi : i < a.size)
    (h : DownOrder before a i) : InOrder before (sink before a i hi) := by
  fun_induction sink before a i hi with
  | case1 a i hi hr hl ih =>
    refine ih (h.swap (by omega) (by omega) (by omega) fun j hj hj0 hji hjm => ?_)
    have : j = 2 * i + 2 := by omega
    subst this
    exact hb.asymm hl
  | case2 a i hi hr hl ih =>
    refine ih (h.swap (by omega) (by omega) (by omega) fun j hj hj0 hji hjm => ?_)
    have : j = 2 * i + 1 := by omega
    subst this
    simpa using hl
  | case3 a i hi hr hl =>
    refine rise_inOrder hb _ _ _ ?_
    refine (h.swap hl (by omega) (by omega) fun j hj hj0 hji hjm => ?_).up (by simp; omega)
    omega
  | case4 a i hi hr hl => exact rise_inOrder hb _ _ _ (h.up (by omega))

theorem sink_perm (a : Array α) (i : Nat) (hi : i < a.size) : (sink before a i hi).Perm a := by
  fun_induction sink before a i hi with
  | case1 a i hi hr hl ih => exact ih.trans (Array.swap_perm _ _)
  | case2 a i hi hr hl ih => exact ih.trans (Array.swap_perm _ _)
  | case3 a i hi hr hl => exact (rise_perm _ _ _).trans (Array.swap_perm _ _)
  | case4 a i hi hr hl => exact rise_perm _ _ _

/-! ## Pushing and popping -/

theorem ordered_empty : Ordered before empty := fun j hj => by simp [empty] at hj

theorem Ordered.push (hb : StrictWeak before) {h : Heap α} (ho : Ordered before h) (x : α) :
    Ordered before (h.push before x) := by
  refine rise_inOrder hb _ _ _ ⟨by simp, fun j hj hj0 hji => ?_, fun j hj hj0 hji _ => ?_⟩
  · have hj' : j < h.items.size := by simp at hj; omega
    simp only [Array.getElem_push_lt hj', Array.getElem_push_lt (show (j - 1) / 2 < h.items.size by omega)]
    exact ho j hj' (parent_lt hj') hj0
  · simp at hj; omega

theorem push_perm (h : Heap α) (x : α) : (h.push before x).items.toList.Perm (x :: h.items.toList) := by
  have hp : (h.push before x).items.toList.Perm (h.items.push x).toList := (rise_perm _ _ _).toList
  rw [Array.toList_push] at hp
  exact hp.trans (List.perm_append_singleton x _)

theorem mem_push {h : Heap α} {x y : α} : y ∈ (h.push before x).items ↔ y ∈ h.items ∨ y = x := by
  rw [push, (rise_perm _ _ _).mem_iff, Array.mem_push]

theorem InOrder.root (hb : StrictWeak before) {a : Array α} (ho : InOrder before a) (hp : 0 < a.size) :
    ∀ j (hj : j < a.size), before a[j] a[0] = false := by
  intro j
  induction j using Nat.strongRecOn with
  | ind j ih =>
    intro hj
    rcases Nat.eq_zero_or_pos j with rfl | h0
    · exact hb.irrefl _
    · exact hb.trans (ih ((j - 1) / 2) (by omega) (by omega)) (ho j hj (parent_lt hj) h0)

/-- What popping does: the heap is empty, or the last item sinks from the place of the root. -/
theorem pop?_cases (before : α → α → Bool) (h : Heap α) : (h.items = #[] ∧ h.pop? before = none) ∨
    ∃ x rest, h.pop? before = some (x, rest) ∧ ∃ hp : 0 < h.items.size, x = h.items[0] ∧
      ((h.items = #[x] ∧ rest.items = #[]) ∨ ∃ (last : α) (init : Array α) (hi : 0 < init.size),
        h.items = init.push last ∧ rest.items = sink before (init.set 0 last hi) 0 (by simpa using hi)) := by
  rcases h with ⟨a⟩
  by_cases ha : a = #[]
  · subst ha; exact .inl ⟨rfl, rfl⟩
  · obtain ⟨init, last, rfl⟩ := Array.exists_push_of_ne_empty ha
    right
    simp only [pop?, Array.back?_push, Array.pop_push]
    by_cases hi : 0 < init.size
    · rw [dif_pos hi]
      exact ⟨_, _, rfl, by simp, by simp [Array.getElem_push_lt hi], .inr ⟨last, init, hi, rfl, rfl⟩⟩
    · rw [dif_neg hi]
      obtain rfl : init = #[] := Array.eq_empty_of_size_eq_zero (by omega)
      exact ⟨_, _, rfl, by simp, by simp, .inl ⟨rfl, rfl⟩⟩

theorem pop?_eq_none {h : Heap α} (hp : h.pop? before = none) : h.items = #[] := by
  rcases pop?_cases before h with ⟨he, -⟩ | ⟨x, rest, hr, -⟩
  · exact he
  · rw [hr] at hp; cases hp

theorem pop?_perm {h rest : Heap α} {x : α} (hp : h.pop? before = some (x, rest)) :
    h.items.toList.Perm (x :: rest.items.toList) := by
  rcases pop?_cases before h with ⟨-, hn⟩ | ⟨y, r, hr, hpos, hy, hrest⟩
  · rw [hn] at hp; cases hp
  · rw [hr] at hp; cases hp
    rcases hrest with ⟨h1, h2⟩ | ⟨last, init, hi, h1, h2⟩
    · rw [h1, h2]
    · have hs : (sink before (init.set 0 last hi) 0 (by simpa using hi)).toList.Perm
          (init.set 0 last hi).toList := (sink_perm _ _ _).toList
      rcases init with ⟨_ | ⟨y, l⟩⟩
      · simp at hi
      · rw [h2]
        simp only [h1, Array.getElem_push_lt hi] at hy
        refine .trans ?_ (.cons _ hs.symm)
        simp only [h1, hy, List.push_toArray, List.set_toArray, List.getElem_toArray,
          List.getElem_cons_zero, List.set_cons_zero, List.cons_append]
        exact .cons _ (List.perm_append_singleton last l)

theorem Ordered.pop? (hb : StrictWeak before) {h rest : Heap α} {x : α} (ho : Ordered before h)
    (hp : h.pop? before = some (x, rest)) :
    Ordered before rest ∧ ∀ y ∈ rest.items, before y x = false := by
  constructor
  · rcases pop?_cases before h with ⟨-, hn⟩ | ⟨y, r, hr, hpos, hy, hrest⟩
    · rw [hn] at hp; cases hp
    · rw [hr] at hp; cases hp
      rcases hrest with ⟨-, h2⟩ | ⟨last, init, hi, h1, h2⟩
      · intro j hj; simp [h2] at hj
      · unfold Ordered; rw [h2]
        refine sink_inOrder hb _ _ _ ⟨by simpa using hi, fun j hj hj0 _ hjp => ?_, by omega⟩
        have hj' : j < init.size := by simpa using hj
        have := ho j (by rw [h1]; simp; omega) (by rw [h1]; simp; omega) hj0
        simp only [h1, Array.getElem_push_lt hj',
          Array.getElem_push_lt (show (j - 1) / 2 < init.size by omega)] at this
        simpa only [Array.getElem_set, if_neg (show 0 ≠ j by omega), if_neg (Ne.symm hjp)] using this
  · intro y hy
    have hm : y ∈ h.items.toList := (pop?_perm hp).mem_iff.mpr (List.mem_cons_of_mem _ (by simpa using hy))
    obtain ⟨j, hj, rfl⟩ := Array.mem_iff_getElem.mp (Array.mem_toList_iff.mp hm)
    rcases pop?_cases before h with ⟨-, hn⟩ | ⟨z, r, hr, hpos, hz, -⟩
    · rw [hn] at hp; cases hp
    · rw [hr] at hp; cases hp
      rw [hz]; exact InOrder.root hb ho hpos j hj

theorem mem_pop? {h rest : Heap α} {x y : α} (hp : h.pop? before = some (x, rest)) :
    y ∈ h.items ↔ y = x ∨ y ∈ rest.items := by
  have := (pop?_perm hp).mem_iff (a := y)
  simpa using this

theorem first_mem {h rest : Heap α} {x : α} (hp : h.pop? before = some (x, rest)) : x ∈ h.items :=
  (mem_pop? hp).mpr (.inl rfl)

end AncillaRouting.Heap
