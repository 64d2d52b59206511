import AncillaRouting.Cell
import AncillaRouting.Search.State

/-!
# Why a best-first search ends

A search ends because its nodes are finitely many. All that is needed of that is a list that holds
every value; no program ever walks it.

Meeting a node either gives it its first cost or lowers the one it has. So the pair of the number
of nodes not met yet and the sum of the known costs gets less, in lexicographic order, with every
edge that is not ignored; and a candidate whose edges are all ignored has left the frontier.
-/

namespace AncillaRouting

/-! ## Types with finitely many values -/

class Listed (ν : Type) : Prop where
  exists_list : ∃ l : List ν, ∀ v, v ∈ l

namespace Listed

noncomputable def list (ν : Type) [Listed ν] : List ν := Classical.choose (exists_list (ν := ν))

theorem mem_list {ν : Type} [Listed ν] (v : ν) : v ∈ list ν := Classical.choose_spec exists_list v

theorem of_surjective {α β : Type} [Listed α] (f : α → β) (hf : ∀ b, ∃ a, f a = b) : Listed β :=
  ⟨(list α).map f, fun b => List.mem_map.2 <| (hf b).imp fun a h => ⟨mem_list a, h⟩⟩

instance {n : Nat} : Listed (Fin n) := ⟨List.finRange n, List.mem_finRange⟩

instance {α β : Type} [Listed α] [Listed β] : Listed (α × β) :=
  ⟨(list α).flatMap fun a => (list β).map fun b => (a, b), fun (a, b) =>
    List.mem_flatMap.2 ⟨a, mem_list a, List.mem_map.2 ⟨b, mem_list b, rfl⟩⟩⟩

instance : Listed Int32 :=
  of_surjective (fun n : Fin (2 ^ 32) => ⟨⟨⟨n⟩⟩⟩) fun i => ⟨i.toBitVec.toFin, rfl⟩

instance : Listed Cell :=
  of_surjective (fun p : Int32 × Int32 => ⟨p.1, p.2⟩) fun c => ⟨(c.row, c.col), rfl⟩

end Listed

/-! ## The measure -/

namespace SearchState

variable {ν : Type} [BEq ν] [Hashable ν] [LawfulBEq ν] [Listed ν]

/-- How many times a node without a known cost occurs in the list of all nodes. -/
noncomputable def unmet (best : Std.HashMap ν Nat) : Nat :=
  (Listed.list ν).countP fun v => best[v]?.isNone

/-- The sum of the known costs over the list of all nodes. -/
noncomputable def total (best : Std.HashMap ν Nat) : Nat :=
  (Listed.list ν).foldr (fun v sum => best[v]?.getD 0 + sum) 0

def Cheaper (b' b : Std.HashMap ν Nat) : Prop :=
  Prod.Lex (· < ·) (· < ·) (unmet b', total b') (unmet b, total b)

omit [LawfulBEq ν] in
theorem Cheaper.trans {a b c : Std.HashMap ν Nat} (h₁ : Cheaper a b) (h₂ : Cheaper b c) :
    Cheaper a c := by
  simp only [Cheaper, Prod.lex_def] at *
  omega

private theorem countP_lt {α : Type} {p q : α → Bool} {l : List α} (hpq : ∀ x, p x → q x) {a : α}
    (ha : a ∈ l) (hq : q a = true) (hp : p a = false) : l.countP p < l.countP q := by
  induction l with
  | nil => cases ha
  | cons b l ih =>
    have hle : l.countP p ≤ l.countP q := List.countP_mono_left fun x _ => hpq x
    rw [List.countP_cons, List.countP_cons]
    rcases List.mem_cons.1 ha with rfl | ha
    · rw [if_neg (by rw [hp]; exact Bool.false_ne_true), if_pos hq]
      omega
    · have := ih ha
      have hb : (if p b then 1 else 0) ≤ if q b then 1 else 0 := by
        by_cases h : p b = true
        · exact Nat.le_of_eq (by rw [if_pos h, if_pos (hpq b h)])
        · rw [if_neg h]
          exact Nat.zero_le _
      omega

private theorem sum_lt {α : Type} {f g : α → Nat} {l : List α} (hfg : ∀ x, f x ≤ g x) {a : α}
    (ha : a ∈ l) (hlt : f a < g a) :
    l.foldr (fun x sum => f x + sum) 0 < l.foldr (fun x sum => g x + sum) 0 := by
  induction l with
  | nil => cases ha
  | cons b l ih =>
    have hle : l.foldr (fun x sum => f x + sum) 0 ≤ l.foldr (fun x sum => g x + sum) 0 := by
      clear ih ha
      induction l with
      | nil => exact Nat.le_refl 0
      | cons c l ih => exact Nat.add_le_add (hfg c) ih
    have hb := hfg b
    rw [List.foldr_cons, List.foldr_cons]
    rcases List.mem_cons.1 ha with rfl | ha
    · omega
    · have := ih ha; omega

theorem cheaper_insert [LawfulHashable ν] {best : Std.HashMap ν Nat} {v : ν} {cost : Nat}
    (h : ∀ b, best[v]? = some b → cost < b) : Cheaper (best.insert v cost) best := by
  have get (w : ν) : (best.insert v cost)[w]? = if v == w then some cost else best[w]? :=
    Std.HashMap.getElem?_insert
  rw [Cheaper, Prod.lex_def]
  cases hb : best[v]? with
  | none =>
    refine .inl (countP_lt (fun w hw => ?_) (Listed.mem_list v) (by simp [hb]) (by simp))
    rw [get] at hw
    split at hw
    · simp at hw
    · exact hw
  | some b =>
    have hlt := h b hb
    have hne (w : ν) (hw : (v == w) = true) : best[w]? = some b := by
      rw [← eq_of_beq hw]; exact hb
    refine .inr ⟨?_, sum_lt (fun w => ?_) (Listed.mem_list v) (by simp [hb, hlt])⟩
    · refine List.countP_congr fun w _ => ?_
      rw [get]
      split
      · next hw => simp [hne w hw]
      · rfl
    · rw [get]
      split
      · next hw => simp [hne w hw]; omega
      · exact Nat.le_refl _

theorem relax_cheaper [LawfulHashable ν] {space : SearchSpace ν} {u : ν} {cost : Nat}
    {s s' : SearchState ν} {edge : ν × Nat} (h : relax space u cost s edge = .ok s') :
    s' = s ∨ Cheaper s'.best s.best := by
  unfold relax at h
  cases hr : space.add cost edge.2 with
  | error f => rw [hr] at h; cases h
  | ok reached =>
    rw [hr] at h
    simp only [bind, Except.bind] at h
    split at h
    · next hi =>
      right
      simp only [meet, bind, Except.bind, pure, Except.pure] at h
      split at h
      · cases h
      · split at h
        · cases h
        · cases h
          refine cheaper_insert fun b hb => ?_
          simpa [improves, hb] using hi
    · left; cases h; rfl

theorem foldlM_relax_cheaper [LawfulHashable ν] {space : SearchSpace ν} {u : ν} {cost : Nat}
    {edges : List (ν × Nat)} {s s' : SearchState ν}
    (h : edges.foldlM (relax space u cost) s = .ok s') : s' = s ∨ Cheaper s'.best s.best := by
  induction edges generalizing s with
  | nil => left; cases h; rfl
  | cons e edges ih =>
    rw [List.foldlM_cons] at h
    cases hr : relax space u cost s e with
    | error f => rw [hr] at h; cases h
    | ok t =>
      rw [hr] at h
      rcases relax_cheaper hr with rfl | ht
      · exact ih h
      · rcases ih h with rfl | hs
        · exact .inr ht
        · exact .inr (hs.trans ht)

theorem expand_cheaper [LawfulHashable ν] {space : SearchSpace ν} {s s' : SearchState ν}
    {c : Candidate ν} (h : expand space s c = .ok s') : s' = s ∨ Cheaper s'.best s.best := by
  unfold expand at h
  cases he : space.edges c.node with
  | error f => rw [he] at h; cases h
  | ok edges => rw [he] at h; exact foldlM_relax_cheaper h

end SearchState

end AncillaRouting
