import AncillaRouting.Word

/-!
# Computations that may fail

When a computation in several steps has a value, which value a list of such computations has, and what becomes of a
state that is changed in place.
-/

namespace AncillaRouting.Outcome

variable {ε α β : Type}

theorem bind_eq_ok {x : Except ε α} {f : α → Except ε β} {b : β} :
    x >>= f = .ok b ↔ ∃ a, x = .ok a ∧ f a = .ok b := by
  cases x with
  | error e => exact ⟨nofun, nofun⟩
  | ok a =>
    refine ⟨fun h => ⟨a, rfl, h⟩, fun ⟨a', ha, h⟩ => ?_⟩
    cases ha; exact h

theorem bind_total {x : Except ε α} {f : α → Except ε β} (hx : ∃ a, x = .ok a) (hf : ∀ a, ∃ b, f a = .ok b) :
    ∃ b, x >>= f = .ok b := by
  obtain ⟨a, ha⟩ := hx
  obtain ⟨b, hb⟩ := hf a
  exact ⟨b, bind_eq_ok.mpr ⟨a, ha, hb⟩⟩

theorem map_eq_ok {x : Except ε α} {f : α → β} {b : β} :
    f <$> x = .ok b ↔ ∃ a, x = .ok a ∧ f a = b := by
  cases x with
  | error e => exact ⟨nofun, nofun⟩
  | ok a =>
    refine ⟨fun h => ?_, fun ⟨a', ha, h⟩ => ?_⟩
    · cases h; exact ⟨a, rfl, rfl⟩
    · cases ha; exact congrArg Except.ok h

theorem mapError_eq_ok {δ : Type} {x : Except ε α} {f : ε → δ} {a : α} :
    x.mapError f = .ok a ↔ x = .ok a := by
  cases x with
  | error e => exact ⟨nofun, nofun⟩
  | ok b => exact ⟨fun h => congrArg Except.ok (Except.ok.inj h), fun h => congrArg Except.ok (Except.ok.inj h)⟩

theorem mapError_eq_error {δ : Type} {x : Except ε α} {f : ε → δ} {d : δ} :
    x.mapError f = .error d ↔ ∃ e, x = .error e ∧ f e = d := by
  cases x with
  | error e =>
    refine ⟨fun h => ⟨e, rfl, Except.error.inj h⟩, fun ⟨e', he, h⟩ => ?_⟩
    cases he; exact congrArg Except.error h
  | ok a => exact ⟨nofun, nofun⟩

theorem isOk_iff {x : Except ε α} : x.isOk = true ↔ ∃ a, x = .ok a := by
  cases x with
  | error e => exact ⟨nofun, nofun⟩
  | ok a => exact ⟨fun _ => ⟨a, rfl⟩, fun _ => rfl⟩

theorem bind_eq_error {x : Except ε α} {f : α → Except ε β} {e : ε} :
    x >>= f = .error e ↔ x = .error e ∨ ∃ a, x = .ok a ∧ f a = .error e := by
  cases x with
  | error d =>
    refine ⟨fun h => ?_, fun h => ?_⟩
    · cases h; exact .inl rfl
    · cases h.resolve_right nofun; rfl
  | ok a =>
    refine ⟨fun h => .inr ⟨a, rfl, h⟩, fun h => ?_⟩
    obtain ⟨a', ha, h⟩ := h.resolve_left nofun
    cases ha; exact h

/-! ## Lists of computations -/

theorem mapM_total {f : α → Except ε β} {l : List α} (h : ∀ x ∈ l, ∃ y, f x = .ok y) :
    ∃ ys, l.mapM f = .ok ys := by
  induction l with
  | nil => exact ⟨[], rfl⟩
  | cons x l ih =>
    obtain ⟨y, hy⟩ := h x (List.mem_cons_self ..)
    obtain ⟨ys, hys⟩ := ih fun z hz => h z (List.mem_cons_of_mem _ hz)
    exact ⟨y :: ys, by rw [List.mapM_cons, hy, hys]; rfl⟩

theorem mem_of_mapM {f : α → Except ε β} : ∀ {l : List α} {ys : List β}, l.mapM f = .ok ys →
    ∀ {y}, y ∈ ys ↔ ∃ x ∈ l, f x = .ok y
  | [], ys, h, y => by
    cases h
    exact ⟨nofun, nofun⟩
  | x :: l, ys, h, y => by
    rw [List.mapM_cons] at h
    obtain ⟨z, hz, h⟩ := bind_eq_ok.mp h
    obtain ⟨zs, hzs, h⟩ := bind_eq_ok.mp h
    cases h
    have hxy : f x = .ok y ↔ y = z := by
      rw [hz]
      exact ⟨fun e => (Except.ok.inj e).symm, fun e => congrArg Except.ok e.symm⟩
    rw [List.mem_cons, mem_of_mapM hzs, ← hxy]
    simp only [List.mem_cons, or_and_right, exists_or, exists_eq_left]

theorem defined_of_mapM {f : α → Except ε β} {l : List α} {ys : List β} (h : l.mapM f = .ok ys) :
    ∀ x ∈ l, ∃ y ∈ ys, f x = .ok y := by
  have total : ∀ {l : List α} {ys : List β}, l.mapM f = .ok ys → ∀ x ∈ l, ∃ y, f x = .ok y := by
    intro l
    induction l with
    | nil => intro _ _ x hx; cases hx
    | cons a l ih =>
      intro ys h x hx
      rw [List.mapM_cons] at h
      obtain ⟨z, hz, h⟩ := bind_eq_ok.mp h
      obtain ⟨zs, hzs, -⟩ := bind_eq_ok.mp h
      rcases List.mem_cons.mp hx with rfl | hx
      · exact ⟨z, hz⟩
      · exact ih hzs x hx
  intro x hx
  obtain ⟨y, hy⟩ := total h x hx
  exact ⟨y, (mem_of_mapM h).mpr ⟨x, hx, hy⟩, hy⟩

theorem eq_map_of_mapM {f : α → Except ε β} {g : α → β} (hf : ∀ {x y}, f x = .ok y → y = g x) {l : List α}
    {ys : List β} (h : l.mapM f = .ok ys) : ys = l.map g := by
  induction l generalizing ys with
  | nil => cases h; rfl
  | cons x l ih =>
    rw [List.mapM_cons] at h
    obtain ⟨y, hy, h⟩ := bind_eq_ok.mp h
    obtain ⟨rest, hrest, h⟩ := bind_eq_ok.mp h
    cases h
    rw [hf hy, ih hrest]
    rfl

/-- The test that a computation comes to where it has a value. -/
private def verdict (f : α → Except ε Bool) (x : α) : Bool := (f x).toOption.getD false

private theorem verdict_eq {f : α → Except ε Bool} {x : α} {b : Bool} (h : f x = .ok b) : verdict f x = b := by
  rw [verdict, h]; rfl

private theorem filterAuxM_eq_ok {f : α → Except ε Bool} : ∀ {l acc r : List α},
    l.filterAuxM f acc = .ok r ↔ ∃ q : α → Bool, (∀ x ∈ l, f x = .ok (q x)) ∧ r = (l.filter q).reverse ++ acc
  | [], acc, r => by
    refine ⟨fun h => ⟨fun _ => false, nofun, ?_⟩, fun ⟨q, _, h⟩ => ?_⟩
    · cases h; rfl
    · exact congrArg Except.ok h.symm
  | x :: l, acc, r => by
    rw [List.filterAuxM, bind_eq_ok]
    constructor
    · rintro ⟨b, hb, h⟩
      obtain ⟨q, hq, rfl⟩ := filterAuxM_eq_ok.mp h
      refine ⟨verdict f, fun y hy => ?_, ?_⟩
      · rcases List.mem_cons.mp hy with rfl | hy
        · rw [verdict_eq hb, hb]
        · rw [verdict_eq (hq y hy), hq y hy]
      · have hl : l.filter (verdict f) = l.filter q := List.filter_congr fun y hy => verdict_eq (hq y hy)
        have hx : verdict f x = b := verdict_eq hb
        cases b <;> simp [hl, hx]
    · rintro ⟨q, hq, rfl⟩
      refine ⟨q x, hq x (List.mem_cons_self ..), filterAuxM_eq_ok.mpr
        ⟨q, fun y hy => hq y (List.mem_cons_of_mem _ hy), ?_⟩⟩
      cases hx : q x <;> simp [hx]

theorem filterM_eq_ok {f : α → Except ε Bool} {l r : List α} :
    l.filterM f = .ok r ↔ ∃ q : α → Bool, (∀ x ∈ l, f x = .ok (q x)) ∧ r = l.filter q := by
  rw [List.filterM, bind_eq_ok]
  constructor
  · rintro ⟨a, ha, h⟩
    obtain ⟨q, hq, rfl⟩ := filterAuxM_eq_ok.mp ha
    cases h
    exact ⟨q, hq, by simp⟩
  · rintro ⟨q, hq, rfl⟩
    exact ⟨(l.filter q).reverse, filterAuxM_eq_ok.mpr ⟨q, hq, by simp⟩, by rw [List.reverse_reverse]; rfl⟩

theorem filterM_total {f : α → Except ε Bool} {l : List α} (h : ∀ x ∈ l, ∃ b, f x = .ok b) :
    ∃ r, l.filterM f = .ok r := by
  refine ⟨_, filterM_eq_ok.mpr ⟨verdict f, fun x hx => ?_, rfl⟩⟩
  obtain ⟨b, hb⟩ := h x hx
  rw [verdict_eq hb, hb]

theorem mem_of_filterM {f : α → Except ε Bool} {l r : List α} (h : l.filterM f = .ok r) {x : α} :
    x ∈ r ↔ x ∈ l ∧ f x = .ok true := by
  obtain ⟨q, hq, rfl⟩ := filterM_eq_ok.mp h
  rw [List.mem_filter]
  apply and_congr_right
  intro hx
  rw [hq x hx]
  exact ⟨fun e => congrArg Except.ok e, fun e => Except.ok.inj e⟩

theorem allM_eq_true {f : α → Except ε Bool} : ∀ {l : List α},
    l.allM f = .ok true ↔ ∀ x ∈ l, f x = .ok true
  | [] => ⟨nofun, fun _ => rfl⟩
  | x :: l => by
    rw [List.allM_cons, List.forall_mem_cons, bind_eq_ok, ← allM_eq_true]
    constructor
    · rintro ⟨b, hb, h⟩
      cases b with
      | false => cases h
      | true => exact ⟨hb, h⟩
    · rintro ⟨hb, h⟩
      exact ⟨true, hb, h⟩

theorem allM_total {f : α → Except ε Bool} {l : List α} (h : ∀ x ∈ l, ∃ b, f x = .ok b) :
    ∃ b, l.allM f = .ok b := by
  induction l with
  | nil => exact ⟨true, rfl⟩
  | cons x l ih =>
    obtain ⟨b, hb⟩ := h x (List.mem_cons_self ..)
    obtain ⟨c, hc⟩ := ih fun y hy => h y (List.mem_cons_of_mem _ hy)
    rw [List.allM_cons, hb]
    cases b with
    | false => exact ⟨false, rfl⟩
    | true => exact ⟨c, hc⟩

/-- If no test fails and some test holds, the first place at which one holds is found. -/
theorem findM?_found {f : α → Except ε Bool} {l : List α} (h : ∀ x ∈ l, ∃ b, f x = .ok b)
    (ht : ∃ x ∈ l, f x = .ok true) : ∃ x ∈ l, l.findM? f = .ok (some x) ∧ f x = .ok true := by
  induction l with
  | nil => obtain ⟨x, hx, -⟩ := ht; cases hx
  | cons x l ih =>
    obtain ⟨b, hb⟩ := h x (List.mem_cons_self ..)
    cases b with
    | true => exact ⟨x, List.mem_cons_self .., by rw [List.findM?, hb]; rfl, hb⟩
    | false =>
      obtain ⟨y, hy, hty⟩ := ht
      have hyl : y ∈ l := by
        rcases List.mem_cons.mp hy with rfl | hy
        · rw [hb] at hty; cases hty
        · exact hy
      obtain ⟨z, hz, hf, htz⟩ := ih (fun z hz => h z (List.mem_cons_of_mem _ hz)) ⟨y, hyl, hty⟩
      exact ⟨z, List.mem_cons_of_mem _ hz, by rw [List.findM?, hb]; exact hf, htz⟩

theorem findM?_total {f : α → Except ε Bool} {l : List α} (h : ∀ x ∈ l, ∃ b, f x = .ok b) :
    ∃ found, l.findM? f = .ok found := by
  induction l with
  | nil => exact ⟨none, rfl⟩
  | cons x l ih =>
    obtain ⟨b, hb⟩ := h x (List.mem_cons_self ..)
    obtain ⟨found, hf⟩ := ih fun y hy => h y (List.mem_cons_of_mem _ hy)
    rw [List.findM?, hb]
    cases b with
    | false => exact ⟨found, hf⟩
    | true => exact ⟨some x, rfl⟩

theorem of_findM?_eq_some {f : α → Except ε Bool} {l : List α} {x : α} (h : l.findM? f = .ok (some x)) :
    f x = .ok true := by
  induction l with
  | nil => cases h
  | cons y l ih =>
    rw [List.findM?] at h
    obtain ⟨b, hb, h⟩ := bind_eq_ok.mp h
    cases b with
    | false => exact ih h
    | true => cases h; exact hb

theorem forM_eq_ok {f : α → Except ε Unit} : ∀ {l : List α}, l.forM f = .ok () ↔ ∀ x ∈ l, f x = .ok ()
  | [] => ⟨nofun, fun _ => rfl⟩
  | x :: l => by
    rw [List.forall_mem_cons, ← forM_eq_ok]
    exact bind_eq_ok.trans ⟨fun ⟨_, hx, h⟩ => ⟨hx, h⟩, fun ⟨hx, h⟩ => ⟨(), hx, h⟩⟩

/-- A list of computations fails as the first of them that fails. -/
theorem forM_eq_error {f : α → Except ε Unit} {e : ε} : ∀ {l : List α},
    l.forM f = .error e ↔ ∃ before x after, l = before ++ x :: after ∧ (∀ y ∈ before, f y = .ok ()) ∧ f x = .error e
  | [] => ⟨nofun, fun ⟨before, _, _, h, _⟩ => by cases before <;> cases h⟩
  | x :: l => by
    show (f x >>= fun _ => l.forM f) = .error e ↔ _
    rw [bind_eq_error, forM_eq_error]
    constructor
    · intro h
      rcases h with hx | ⟨_, hx, before, y, after, rfl, hb, hy⟩
      · exact ⟨[], x, l, rfl, nofun, hx⟩
      · exact ⟨x :: before, y, after, rfl, List.forall_mem_cons.mpr ⟨hx, hb⟩, hy⟩
    · intro h
      obtain ⟨before, y, after, h, hb, hy⟩ := h
      cases before with
      | nil =>
        cases h
        exact .inl hy
      | cons z before =>
        cases h
        rw [List.forall_mem_cons] at hb
        exact .inr ⟨(), hb.1, before, y, after, rfl, hb.2, hy⟩

/-! ## Folds -/

/-- What every step keeps of the value and the rest of the list holds at the end. -/
theorem foldlM_keeps {f : β → α → Except ε β} {I : List α → β → Prop}
    (step : ∀ {x l b b'}, I (x :: l) b → f b x = .ok b' → I l b') :
    ∀ {l : List α} {b r : β}, I l b → l.foldlM f b = .ok r → I [] r
  | [], b, r, hb, h => by cases h; exact hb
  | x :: l, b, r, hb, h => by
    rw [List.foldlM_cons] at h
    obtain ⟨b', hb', h⟩ := bind_eq_ok.mp h
    exact foldlM_keeps step (step hb hb') h

/-- What every step keeps of the value and the part of the list behind it holds of the whole list. -/
theorem foldlM_builds {f : β → α → Except ε β} {P : List α → β → Prop} {l : List α} {b r : β}
    (step : ∀ {done x b b'}, x ∈ l → P done b → f b x = .ok b' → P (done ++ [x]) b') (hb : P [] b)
    (h : l.foldlM f b = .ok r) : P l r := by
  obtain ⟨done, hd, hr⟩ := foldlM_keeps (I := fun todo b => ∃ done, done ++ todo = l ∧ P done b)
    (fun {x todo b b'} ⟨done, hd, hb⟩ hx =>
      have hm : x ∈ l := hd ▸ List.mem_append_right _ (List.mem_cons_self ..)
      ⟨done ++ [x], by rw [List.append_assoc]; exact hd, step hm hb hx⟩) ⟨[], rfl, hb⟩ h
  rw [List.append_nil] at hd
  exact hd ▸ hr

theorem foldlM_total {f : β → α → Except ε β} {I : List α → β → Prop}
    (step : ∀ {x l b}, I (x :: l) b → ∃ b', f b x = .ok b' ∧ I l b') :
    ∀ {l : List α} {b : β}, I l b → ∃ r, l.foldlM f b = .ok r
  | [], b, _ => ⟨b, rfl⟩
  | x :: l, b, hb => by
    obtain ⟨b', hb', hI⟩ := step hb
    obtain ⟨r, hr⟩ := foldlM_total step hI
    exact ⟨r, by rw [List.foldlM_cons]; exact bind_eq_ok.mpr ⟨b', hb', hr⟩⟩

/-- A fold that fails does so at one of its steps. -/
theorem of_foldlM_eq_error {f : β → α → Except ε β} {e : ε} : ∀ {l : List α} {b : β},
    l.foldlM f b = .error e → ∃ x ∈ l, ∃ b, f b x = .error e
  | [], b, h => by cases h
  | x :: l, b, h => by
    rw [List.foldlM_cons, bind_eq_error] at h
    rcases h with hx | ⟨b', -, hl⟩
    · exact ⟨x, List.mem_cons_self .., b, hx⟩
    · obtain ⟨y, hy, c, hc⟩ := of_foldlM_eq_error hl
      exact ⟨y, List.mem_cons_of_mem _ hy, c, hc⟩

/-! ## Changes in place -/

section

variable {σ : Type} {s t : σ}

/-- The result of a change that writes nothing where it fails. -/
def settle (s : σ) : Except ε (α × σ) → EStateM.Result ε σ α
  | .ok (a, t) => .ok a t
  | .error e => .error e s

theorem run_ofExcept (x : Except ε α) (s : σ) :
    (MonadExcept.ofExcept x : EStateM ε σ α).run s = settle s (x.map (·, s)) := by
  cases x <;> rfl

theorem settle_eq_ok {x : Except ε (α × σ)} {a : α} : settle s x = .ok a t ↔ x = .ok (a, t) := by
  cases x with
  | error e => exact ⟨nofun, nofun⟩
  | ok r =>
    refine ⟨fun h => ?_, fun h => ?_⟩
    · cases h; rfl
    · cases h; rfl

theorem settle_eq_error {x : Except ε (α × σ)} {e : ε} : settle s x = .error e t ↔ x = .error e ∧ t = s := by
  cases x with
  | ok r => exact ⟨nofun, nofun⟩
  | error e =>
    refine ⟨fun h => ?_, fun ⟨h, ht⟩ => ?_⟩
    · cases h; exact ⟨rfl, rfl⟩
    · cases h; rw [ht]; rfl

end

end AncillaRouting.Outcome
