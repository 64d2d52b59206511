import AncillaRouting.Proofs.Outcome
import AncillaRouting.Proofs.Trails
import AncillaRouting.Search.BestFirst

/-!
# What a best-first search maintains

Every known cost is the cost of a trail without repetitions. Every known node either waits in the
frontier at its known cost or has had its edges followed. Every node that is not a start node has a
parent from which it was reached at no less than its parent's known cost and the edge together.
-/

namespace AncillaRouting

open Outcome

/-! ## Tables -/

section
variable {α β : Type} [BEq α] [Hashable α] [LawfulBEq α] [LawfulHashable α] {m : Std.HashMap α β} {a x : α} {b y : β}

theorem getElem?_insert_of_ne (h : a ≠ x) : (m.insert a b)[x]? = m[x]? := by
  rw [Std.HashMap.getElem?_insert, if_neg fun e => h (eq_of_beq e)]

theorem of_getElem?_insert (h : (m.insert a b)[x]? = some y) : (a = x ∧ b = y) ∨ a ≠ x ∧ m[x]? = some y := by
  by_cases hax : a = x
  · subst hax
    rw [Std.HashMap.getElem?_insert_self] at h
    exact .inl ⟨rfl, Option.some.inj h⟩
  · rw [getElem?_insert_of_ne hax] at h
    exact .inr ⟨hax, h⟩

end

/-! ## Known costs -/

section
variable {ν : Type} [BEq ν] [Hashable ν]

def Within (best : Std.HashMap ν Nat) (v : ν) (k : Nat) : Prop := ∃ b, best[v]? = some b ∧ b ≤ k

/-- A trail without repetitions along which every node is known at what the trail has cost so far,
or less. -/
inductive Record (space : SearchSpace ν) (best : Std.HashMap ν Nat) : ν → List ν → Nat → Prop where
  | start {v : ν} {k : Nat} (h : (v, k) ∈ space.starts) (hv : Within best v k) :
      Record space best v [v] k
  | step {u v : ν} {nodes : List ν} {k w : Nat} (r : Record space best u nodes k)
      (e : space.Edge u v w) (hn : v ∉ nodes) (hv : Within best v (k + w)) :
      Record space best v (v :: nodes) (k + w)

variable {space : SearchSpace ν} {best : Std.HashMap ν Nat}

theorem Within.mono {v : ν} {j k : Nat} (h : Within best v j) (hjk : j ≤ k) : Within best v k := by
  obtain ⟨b, hb, hbj⟩ := h
  exact ⟨b, hb, Nat.le_trans hbj hjk⟩

theorem Record.trail {v : ν} {nodes : List ν} {k : Nat} (r : Record space best v nodes k) :
    space.Trail v nodes k := by
  induction r with
  | start h _ => exact .start h
  | step _ e _ _ ih => exact .step ih e

theorem Record.nodup {v : ν} {nodes : List ν} {k : Nat} (r : Record space best v nodes k) :
    nodes.Nodup := by
  induction r with
  | start => exact List.pairwise_singleton ..
  | step _ _ hn _ ih => exact List.nodup_cons.mpr ⟨hn, ih⟩

theorem Record.within {v x : ν} {nodes : List ν} {k : Nat} (r : Record space best v nodes k)
    (hx : x ∈ nodes) : Within best x k := by
  induction r with
  | start _ hv => rw [List.mem_singleton] at hx; subst hx; exact hv
  | step _ _ _ hv ih =>
    rcases List.mem_cons.mp hx with rfl | hx
    · exact hv
    · exact (ih hx).mono (Nat.le_add_right _ _)

variable [LawfulBEq ν] [LawfulHashable ν]

theorem Within.insert {v x : ν} {j k : Nat} (hk : ∀ b, best[v]? = some b → k ≤ b)
    (h : Within best x j) : Within (best.insert v k) x j := by
  obtain ⟨b, hb, hbj⟩ := h
  by_cases hxv : v = x
  · subst hxv
    exact ⟨k, Std.HashMap.getElem?_insert_self, Nat.le_trans (hk b hb) hbj⟩
  · exact ⟨b, by rw [getElem?_insert_of_ne hxv, hb], hbj⟩

theorem Within.insert_self (v : ν) (k : Nat) : Within (best.insert v k) v k :=
  ⟨k, Std.HashMap.getElem?_insert_self, Nat.le_refl k⟩

theorem Record.insert {v x : ν} {nodes : List ν} {j k : Nat} (hk : ∀ b, best[v]? = some b → k ≤ b)
    (r : Record space best x nodes j) : Record space (best.insert v k) x nodes j := by
  induction r with
  | start h hv => exact .start h (hv.insert hk)
  | step _ e hn hv ih => exact .step ih e hn (hv.insert hk)

end

/-! ## The invariant -/

namespace SearchState

variable {ν : Type} [BEq ν] [Hashable ν]

/-- How known costs and frontier go together, but for the edges that are still to be followed. -/
structure Tracks (space : SearchSpace ν) (pending : ν → ν → Nat → Prop) (s : SearchState ν) : Prop where
  ordered : s.frontier.Ordered space.before
  recorded : ∀ {v k}, s.best[v]? = some k → ∃ nodes, Record space s.best v nodes k
  waiting : ∀ {c}, c ∈ s.frontier.items →
    Within s.best c.node c.cost ∧ ∃ h, space.remaining c.node = .ok h ∧ c.estimate = c.cost + h
  followed : ∀ {v k}, s.best[v]? = some k →
    (∃ c ∈ s.frontier.items, c.node = v ∧ c.cost = k) ∨
      (space.isGoal v = false ∧ ∀ {x w}, space.Edge v x w → pending v x w ∨ Within s.best x (k + w))

def settled : ν → ν → Nat → Prop := fun _ _ _ => False

/-- Some edges out of `u` are still to be followed. -/
def leaving (u : ν) (todo : List (ν × Nat)) : ν → ν → Nat → Prop := fun v x w => v = u ∧ (x, w) ∈ todo

structure Invariant (space : SearchSpace ν) (pending : ν → ν → Nat → Prop) (s : SearchState ν) : Prop
    extends Tracks space pending s where
  started : ∀ {v k}, (v, k) ∈ space.starts → Within s.best v k
  root : ∀ {v k}, s.parent[v]? = none → s.best[v]? = some k → (v, k) ∈ space.starts
  climb : ∀ {v u}, s.parent[v]? = some u → space.isGoal u = false ∧
    ∃ j w k, s.best[u]? = some j ∧ space.Edge u v w ∧ s.best[v]? = some k ∧ j + w ≤ k

variable {space : SearchSpace ν} {pending : ν → ν → Nat → Prop} {s s' : SearchState ν}

theorem meet_eq_ok (hl : space.Lawful) {v : ν} {k : Nat} (h : meet space s v k = .ok s') :
    ∃ r, space.remaining v = .ok r ∧
      s' = ⟨s.best.insert v k, s.parent, s.frontier.push space.before ⟨k + r, k, v⟩⟩ := by
  obtain ⟨r, hr, h⟩ := bind_eq_ok.mp h
  obtain ⟨total, ht, h⟩ := bind_eq_ok.mp h
  cases h
  exact ⟨r, hr, by rw [hl.add_eq ht]⟩

theorem relax_cases (hl : space.Lawful) {u x : ν} {k w : Nat} (h : relax space u k s (x, w) = .ok s') :
    (Within s.best x (k + w) ∧ s' = s) ∨
      ((∀ b, s.best[x]? = some b → k + w < b) ∧ ∃ r, space.remaining x = .ok r ∧
        s' = ⟨s.best.insert x (k + w), s.parent.insert x u,
          s.frontier.push space.before ⟨k + w + r, k + w, x⟩⟩) := by
  obtain ⟨reached, ha, h⟩ := bind_eq_ok.mp h
  obtain rfl := hl.add_eq ha
  by_cases hi : s.improves x (k + w) = true
  · rw [if_pos hi] at h
    obtain ⟨r, hr, rfl⟩ := meet_eq_ok hl h
    refine .inr ⟨fun b hb => ?_, r, hr, rfl⟩
    simpa [improves, hb] using hi
  · rw [if_neg hi] at h
    cases h
    refine .inl ⟨?_, rfl⟩
    cases hb : s.best[x]? with
    | none => simp [improves, hb] at hi
    | some b => exact ⟨b, hb, by simpa [improves, hb] using hi⟩

theorem round_cases {o : Round ν} (h : round space s = .ok o) :
    (s.frontier.pop? space.before = none ∧ o = .exhausted) ∨
      ∃ c rest, s.frontier.pop? space.before = some (c, rest) ∧
        ((s.isStale c = true ∧ o = .open ⟨s.best, s.parent, rest⟩) ∨
          (s.isStale c = false ∧ space.isGoal c.node = true ∧ o = .reached c.node ⟨s.best, s.parent, rest⟩) ∨
          (s.isStale c = false ∧ space.isGoal c.node = false ∧ ∃ edges s', space.edges c.node = .ok edges ∧
            edges.foldlM (SearchState.relax space c.node c.cost) ⟨s.best, s.parent, rest⟩ = .ok s' ∧
            o = .open s')) := by
  obtain ⟨best, parent, frontier⟩ := s
  simp only [round] at h
  split at h
  · cases h; exact .inl ⟨by assumption, rfl⟩
  · rename_i c rest hpop
    refine .inr ⟨c, rest, hpop, ?_⟩
    change (if isStale ⟨best, parent, rest⟩ c then _ else _) = _ at h
    by_cases hst : isStale (⟨best, parent, rest⟩ : SearchState ν) c = true
    · rw [if_pos hst] at h
      cases h; exact .inl ⟨hst, rfl⟩
    · rw [if_neg hst] at h
      have hst' : isStale (⟨best, parent, rest⟩ : SearchState ν) c = false := by simpa using hst
      by_cases hg : space.isGoal c.node = true
      · rw [if_pos hg] at h
        cases h; exact .inr (.inl ⟨hst', hg, rfl⟩)
      · rw [if_neg hg] at h
        obtain ⟨t, ht, rfl⟩ := map_eq_ok.mp h
        obtain ⟨edges, he, ht⟩ := bind_eq_ok.mp ht
        exact .inr (.inr ⟨hst', by simpa using hg, edges, t, he, ht, rfl⟩)

theorem Tracks.best_of_fresh (t : Tracks space pending s) {c : Candidate ν} (hc : c ∈ s.frontier.items)
    (hst : s.isStale c = false) : s.best[c.node]? = some c.cost := by
  obtain ⟨⟨b, hb, hle⟩, -⟩ := t.waiting hc
  simp only [isStale, hb, decide_eq_false_iff_not, Nat.not_lt] at hst
  rw [hb, Nat.le_antisymm hle hst]

theorem Tracks.pop (hl : space.Lawful) (t : Tracks space settled s) {c : Candidate ν}
    {rest : Heap (Candidate ν)} (hp : s.frontier.pop? space.before = some (c, rest))
    (todo : ν → ν → Nat → Prop)
    (hc : s.best[c.node]? = some c.cost → space.isGoal c.node = false ∧
      ∀ {x w}, space.Edge c.node x w → todo c.node x w) :
    Tracks space todo ⟨s.best, s.parent, rest⟩ where
  ordered := (t.ordered.pop? hl.order hp).1
  recorded := t.recorded
  waiting h := t.waiting ((Heap.mem_pop? hp).mpr (.inr h))
  followed {v k} hv := by
    rcases t.followed hv with ⟨d, hd, hdv, hdk⟩ | ⟨hg, he⟩
    · rcases (Heap.mem_pop? hp).mp hd with rfl | hd
      · subst hdv hdk
        exact .inr ⟨(hc hv).1, fun e => .inl ((hc hv).2 e)⟩
      · exact .inl ⟨d, hd, hdv, hdk⟩
    · exact .inr ⟨hg, fun e => .inr ((he e).resolve_left id)⟩

/-- Once a fresh candidate is popped, the edges out of its node are still to be followed. -/
theorem Invariant.pop_leaving (hl : space.Lawful) (inv : Invariant space settled s) {c : Candidate ν}
    {rest : Heap (Candidate ν)} (hp : s.frontier.pop? space.before = some (c, rest))
    (hg : space.isGoal c.node = false) {edges : List (ν × Nat)} (he : space.edges c.node = .ok edges) :
    Invariant space (leaving c.node edges) ⟨s.best, s.parent, rest⟩ := by
  refine { inv with toTracks := inv.toTracks.pop hl hp _ fun _ => ⟨hg, fun {x w} e => ?_⟩ }
  obtain ⟨es, hes, hm⟩ := e
  rw [he] at hes; cases hes
  exact ⟨rfl, hm⟩

/-- An edge need not be followed again once its end is known at no more than the way along it costs. -/
theorem Tracks.follow {u x : ν} {k w : Nat} {todo : List (ν × Nat)}
    (t : Tracks space (leaving u ((x, w) :: todo)) s) (hu : s.best[u]? = some k)
    (hx : Within s.best x (k + w)) : Tracks space (leaving u todo) s := by
  refine { t with followed := fun {v j} hv => (t.followed hv).imp_right fun ⟨hg, he⟩ => ⟨hg, fun e => ?_⟩ }
  rcases he e with ⟨rfl, hm⟩ | hin
  · rcases List.mem_cons.mp hm with heq | hm
    · cases heq
      rw [hu] at hv
      cases hv
      exact .inr hx
    · exact .inl ⟨rfl, hm⟩
  · exact .inr hin

variable [LawfulBEq ν] [LawfulHashable ν]

theorem Tracks.meet (hl : space.Lawful) (t : Tracks space pending s) {v : ν} {k r : Nat}
    {nodes : List ν} (parent : Std.HashMap ν ν) (hk : ∀ b, s.best[v]? = some b → k ≤ b)
    (hrec : Record space (s.best.insert v k) v nodes k) (hr : space.remaining v = .ok r) :
    Tracks space pending
      ⟨s.best.insert v k, parent, s.frontier.push space.before ⟨k + r, k, v⟩⟩ where
  ordered := t.ordered.push hl.order _
  recorded {x j} hx := by
    rcases of_getElem?_insert hx with ⟨rfl, rfl⟩ | ⟨-, hx⟩
    · exact ⟨nodes, hrec⟩
    · obtain ⟨l, hl⟩ := t.recorded hx
      exact ⟨l, hl.insert hk⟩
  waiting {c} hc := by
    rcases Heap.mem_push.mp hc with hc | rfl
    · exact ⟨(t.waiting hc).1.insert hk, (t.waiting hc).2⟩
    · exact ⟨.insert_self v k, r, hr, rfl⟩
  followed {x j} hx := by
    rcases of_getElem?_insert hx with ⟨rfl, rfl⟩ | ⟨-, hx⟩
    · exact .inl ⟨_, Heap.mem_push.mpr (.inr rfl), rfl, rfl⟩
    · rcases t.followed hx with ⟨c, hc, hcv, hck⟩ | ⟨hg, he⟩
      · exact .inl ⟨c, Heap.mem_push.mpr (.inl hc), hcv, hck⟩
      · exact .inr ⟨hg, fun e => (he e).imp_right (.insert hk)⟩

/-! ## The start -/

/-- What holds while the start nodes are met: these have been met, and nothing else. -/
structure Starting (space : SearchSpace ν) (done : List (ν × Nat)) (s : SearchState ν) : Prop
    extends Tracks space settled s where
  orphans : s.parent = ∅
  only : ∀ {v k}, s.best[v]? = some k → (v, k) ∈ space.starts
  met : ∀ {v k}, (v, k) ∈ done → Within s.best v k

theorem Starting.empty : Starting space [] (.empty : SearchState ν) where
  ordered := Heap.ordered_empty
  recorded h := by simp [SearchState.empty] at h
  waiting h := by simp [SearchState.empty, Heap.empty] at h
  followed h := by simp [SearchState.empty] at h
  orphans := rfl
  only h := by simp [SearchState.empty] at h
  met h := by cases h

theorem Starting.meet (hl : space.Lawful) {done : List (ν × Nat)} (st : Starting space done s)
    {v : ν} {k : Nat} (hv : (v, k) ∈ space.starts) (h : s.meet space v k = .ok s') :
    Starting space (done ++ [(v, k)]) s' := by
  obtain ⟨r, hr, rfl⟩ := meet_eq_ok hl h
  have hk : ∀ b, s.best[v]? = some b → k ≤ b := fun b hb => Nat.le_of_eq (hl.starts_eq hv (st.only hb))
  refine ⟨st.toTracks.meet hl _ hk (.start hv (.insert_self v k)) hr, st.orphans, fun hx => ?_, fun hx => ?_⟩
  · rcases of_getElem?_insert hx with ⟨rfl, rfl⟩ | ⟨-, hx⟩
    · exact hv
    · exact st.only hx
  · rcases List.mem_append.mp hx with hx | hx
    · exact (st.met hx).insert hk
    · simp only [List.mem_singleton, Prod.mk.injEq] at hx
      obtain ⟨rfl, rfl⟩ := hx
      exact .insert_self _ _

theorem starting_of_foldlM (hl : space.Lawful) {done : List (ν × Nat)} (hd : ∀ v ∈ done, v ∈ space.starts)
    (h : done.foldlM (fun s v => SearchState.meet space s v.1 v.2) (.empty : SearchState ν) = .ok s) :
    Starting space done s :=
  foldlM_builds (P := Starting space) (fun hm st ht => st.meet hl (hd _ hm) ht) .empty h

theorem start_invariant (hl : space.Lawful) (h : start space = .ok s) : Invariant space settled s := by
  have st := starting_of_foldlM hl (fun _ hv => hv) h
  refine ⟨st.toTracks, st.met, fun _ hv => st.only hv, fun hp => ?_⟩
  simp [st.orphans] at hp

/-! ## A round -/

theorem Invariant.relax (hl : space.Lawful) {u x : ν} {k w : Nat} {todo : List (ν × Nat)}
    (inv : Invariant space (leaving u ((x, w) :: todo)) s) (hu : s.best[u]? = some k)
    (hg : space.isGoal u = false) (he : space.Edge u x w) (h : relax space u k s (x, w) = .ok s') :
    Invariant space (leaving u todo) s' ∧ s'.best[u]? = some k := by
  rcases relax_cases hl h with ⟨hx, rfl⟩ | ⟨hk, r, hr, rfl⟩
  · exact ⟨{ inv with toTracks := inv.toTracks.follow hu hx }, hu⟩
  · have hxu : x ≠ u := fun e => by
      have := hk k (e ▸ hu)
      omega
    have hle : ∀ b, s.best[x]? = some b → k + w ≤ b := fun b hb => Nat.le_of_lt (hk b hb)
    obtain ⟨nodes, hrec⟩ := inv.recorded hu
    have hxn : x ∉ nodes := fun hm => by
      obtain ⟨b, hb, hbk⟩ := hrec.within hm
      have := hk b hb
      omega
    have t := inv.toTracks.meet hl (s.parent.insert x u) hle
      (.step (hrec.insert hle) he hxn (.insert_self _ _)) hr
    have hut : (s.best.insert x (k + w))[u]? = some k := by rw [getElem?_insert_of_ne hxu, hu]
    refine ⟨⟨t.follow hut (.insert_self _ _), fun hv => (inv.started hv).insert hle, fun {v j} hp hv => ?_,
      fun {v y} hp => ?_⟩, hut⟩
    · by_cases hxv : x = v
      · subst hxv; simp at hp
      · rw [getElem?_insert_of_ne hxv] at hp hv
        exact inv.root hp hv
    · rcases of_getElem?_insert hp with ⟨rfl, rfl⟩ | ⟨hxv, hp⟩
      · exact ⟨hg, k, w, k + w, hut, he, Std.HashMap.getElem?_insert_self, Nat.le_refl _⟩
      · obtain ⟨hgy, j, z, i, hj, hz, hi, hle'⟩ := inv.climb hp
        rw [← getElem?_insert_of_ne (b := k + w) hxv] at hi
        refine ⟨hgy, ?_⟩
        -- a parent that gets cheaper stays cheap enough for its child
        by_cases hxy : x = y
        · subst hxy
          have := hk j hj
          exact ⟨k + w, z, i, Std.HashMap.getElem?_insert_self, hz, hi, by omega⟩
        · rw [← getElem?_insert_of_ne (b := k + w) hxy] at hj
          exact ⟨j, z, i, hj, hz, hi, hle'⟩

/-- What holds while the edges out of `u`, which was met at `k`, are followed: those of `todo` are left. -/
structure Expanding (space : SearchSpace ν) (u : ν) (k : Nat) (todo : List (ν × Nat)) (s : SearchState ν) : Prop where
  inv : Invariant space (leaving u todo) s
  best_eq : s.best[u]? = some k
  edges : ∀ e ∈ todo, space.Edge u e.1 e.2

theorem Expanding.relax (hl : space.Lawful) {u : ν} {k : Nat} {e : ν × Nat} {todo : List (ν × Nat)}
    (hg : space.isGoal u = false) (x : Expanding space u k (e :: todo) s) (h : relax space u k s e = .ok s') :
    Expanding space u k todo s' := by
  obtain ⟨inv, hu⟩ := x.inv.relax hl x.best_eq hg (x.edges e (List.mem_cons_self ..)) h
  exact ⟨inv, hu, fun e hm => x.edges e (List.mem_cons_of_mem _ hm)⟩

theorem Expanding.foldlM (hl : space.Lawful) {u : ν} {k : Nat} {todo : List (ν × Nat)}
    (hg : space.isGoal u = false) (x : Expanding space u k todo s)
    (h : todo.foldlM (SearchState.relax space u k) s = .ok s') : Invariant space settled s' := by
  have last : Invariant space (leaving u []) s' :=
    (foldlM_keeps (I := Expanding space u k) (fun x ht => x.relax hl hg ht) x h).inv
  refine { last with toTracks := { last.toTracks with followed := fun hv => ?_ } }
  exact (last.followed hv).imp_right fun ⟨hgv, hev⟩ =>
    ⟨hgv, fun e => (hev e).imp_left fun ⟨_, hm⟩ => by cases hm⟩

theorem Invariant.round (hl : space.Lawful) (inv : Invariant space settled s)
    (h : round space s = .ok (.open s')) : Invariant space settled s' := by
  rcases round_cases h with ⟨-, ho⟩ | ⟨c, rest, hp, ⟨hst, ho⟩ | ⟨-, -, ho⟩ | ⟨hst, hg, edges, t, he, ht, ho⟩⟩
  · cases ho
  · cases ho
    refine { inv with toTracks := inv.toTracks.pop hl hp settled fun hb => ?_ }
    simp [isStale, hb] at hst
  · cases ho
  · cases ho
    have hb := inv.best_of_fresh (Heap.first_mem hp) hst
    have x : Expanding space c.node c.cost edges ⟨s.best, s.parent, rest⟩ :=
      ⟨inv.pop_leaving hl hp hg he, hb, fun e hm => ⟨edges, he, hm⟩⟩
    exact x.foldlM hl hg ht

end SearchState

end AncillaRouting
