import AncillaRouting.Proofs.DirectRoutes
import AncillaRouting.Proofs.SliceRefinement

/-!
# What stands in the way of a route

A slice with fewer patches and lower prices leaves open every way that a fuller and dearer one leaves open. So
neither a patch nor a price nor clearance ever creates a route or makes one cheaper.
-/

namespace AncillaRouting

namespace Slice

variable {s t u : Slice}

/-- The slices have the same size, and what is placed on `s` is placed on `t` too. -/
structure Roomier (s t : Slice) : Prop where
  rows_eq : s.rows = t.rows
  cols_eq : s.cols = t.cols
  placed : ∀ p ∈ s.patches, p ∈ t.patches

/-- Besides, no cell of `s` costs more than it does on `t`. -/
structure Milder (s t : Slice) : Prop extends Roomier s t where
  cost_le : ∀ c, s.cost c ≤ t.cost c

/-! ## What is open to a route -/

theorem Roomier.inBounds (h : s.Roomier t) (c : Cell) : s.inBounds c = t.inBounds c := by
  rw [Bool.eq_iff_iff, inBounds_iff, inBounds_iff, h.rows_eq, h.cols_eq]

theorem Roomier.fits (h : s.Roomier t) (hf : s.Fits) : t.Fits := by
  constructor
  · rw [← h.rows_eq]; exact hf.rows_le
  · rw [← h.cols_eq]; exact hf.cols_le
  · rw [← h.rows_eq, ← h.cols_eq]; exact hf.size_lt

theorem Roomier.holds (h : s.Roomier t) {id : PatchId} (hid : s.Holds id) : t.Holds id := by
  obtain ⟨p, hp, hpid⟩ := hid
  exact ⟨p, h.placed p hp, hpid⟩

section
variable {a b id : PatchId} {op : Pauli} {clearance clearance' : Bool} {c : Cell} {q : RouteQuery} {path : List Cell}

theorem Roomier.usable (h : s.Roomier t) (hc : clearance = true → clearance' = true) (hu : t.Usable a b clearance' c) :
    s.Usable a b clearance c where
  inBounds := by rw [h.inBounds]; exact hu.inBounds
  uncovered p hp := hu.uncovered p (h.placed p hp)
  clear hcl d hd p hp := hu.clear (hc hcl) d hd p (h.placed p hp)

/-- A patch that is on both slices is the only one of its id on either, so it has the same faces. -/
theorem Roomier.borders (h : s.Roomier t) (ht : t.WellFormed) (hid : s.Holds id) (hb : t.Borders id op c) :
    s.Borders id op c := by
  obtain ⟨p, hp, rfl⟩ := hid
  exact ⟨p, hp, rfl, (ht.borders_iff (h.placed p hp)).mp hb⟩

theorem Roomier.connects (h : s.Roomier t) (ht : t.WellFormed) (hc : clearance = true → clearance' = true)
    (hsrc : s.Holds q.source) (htgt : s.Holds q.target) (hp : t.Connects q clearance' path) :
    s.Connects q clearance path := by
  obtain ⟨a, hhead, ha⟩ := hp.source
  obtain ⟨b, hlast, hb⟩ := hp.target
  constructor
  · intro c hm
    exact h.usable hc (hp.usable c hm)
  · exact hp.adjacent
  · exact ⟨a, hhead, h.borders ht hsrc ha⟩
  · exact ⟨b, hlast, h.borders ht htgt hb⟩

end

theorem pathCost_mono (h : ∀ c, s.cost c ≤ t.cost c) (path : List Cell) : s.pathCost path ≤ t.pathCost path := by
  induction path with
  | nil => exact Nat.le_refl 0
  | cons c path ih =>
    rw [pathCost_cons, pathCost_cons]
    exact Nat.add_le_add (UInt32.le_iff_toNat_le.mp (h c)) ih

/-! ## Burdens -/

theorem milder_refl (s : Slice) : s.Milder s where
  rows_eq := rfl
  cols_eq := rfl
  placed _ hp := hp
  cost_le c := UInt32.le_refl (s.cost c)

theorem Milder.trans (h : s.Milder t) (h' : t.Milder u) : s.Milder u where
  rows_eq := h.rows_eq.trans h'.rows_eq
  cols_eq := h.cols_eq.trans h'.cols_eq
  placed p hp := h'.placed p (h.placed p hp)
  cost_le c := UInt32.le_trans (h.cost_le c) (h'.cost_le c)

/-- The edit adds a patch, or sets a price that is no lower than the one before. -/
def Burdens (s : Slice) : Edit → Prop
  | .place _ => True
  | .remove _ => False
  | .setCost c cost => s.cost c ≤ cost

theorem le_max_one (a b : UInt32) (h : a ≤ b) : a ≤ max b 1 := by
  rw [show max b 1 = if b ≤ 1 then 1 else b from rfl]
  split
  · rename_i hb; exact UInt32.le_trans h hb
  · exact h

theorem milder_perform {e : Edit} (h : s.Burdens e) : s.Milder (s.perform e) := by
  cases e with
  | place p =>
    rcases perform_place_cases s p with ⟨-, he⟩ | ⟨-, he⟩
    · rw [he]; exact milder_refl s
    · rw [he]
      exact ⟨⟨rfl, rfl, fun _ hp => List.mem_append_left _ hp⟩, fun c => UInt32.le_refl (s.cost c)⟩
  | remove id => cases h
  | setCost c cost =>
    rcases perform_setCost_cases s c cost with ⟨-, he⟩ | ⟨-, he⟩
    · rw [he]; exact milder_refl s
    · rw [he]
      refine ⟨⟨rfl, rfl, fun _ hp => hp⟩, fun d => ?_⟩
      rw [cost_insert]
      by_cases hd : d = c
      · subst hd
        rw [if_pos rfl]
        exact le_max_one _ _ h
      · rw [if_neg hd]
        exact UInt32.le_refl _

/-- Each of the edits is a burden to the slice that it is performed on. -/
def Burdened (s : Slice) : List Edit → Prop
  | [] => True
  | e :: edits => s.Burdens e ∧ (s.perform e).Burdened edits

theorem milder_performAll {edits : List Edit} (h : s.Burdened edits) : s.Milder (s.performAll edits) := by
  induction edits generalizing s with
  | nil => exact milder_refl s
  | cons e edits ih => exact (milder_perform h.1).trans (ih h.2)

end Slice

/-! ## Answers -/

/-- What `answer'` finds on `t` is found by `answer` on `s` and at no higher cost, and where `answer` finds nothing
there is nothing for `answer'`. -/
structure Slice.NoWorse (s t : Slice) (answer answer' : Except RouteError (Option RoutingRegion)) : Prop where
  found : ∀ region', answer' = .ok (some region') → ∃ region j k, answer = .ok (some region) ∧
    region.cost s = .ok j ∧ region'.cost t = .ok k ∧ j ≤ k
  none : answer = .ok none → answer' = .ok none

namespace DirectRouter

variable {s t : Slice} {r r' : DirectRouter} {q : RouteQuery}

theorem noWorse_of_milder (hs : s.Reachable) (ht : t.Reachable) (hf : s.Fits) (h : s.Milder t) (hsrc : s.Holds q.source)
    (htgt : s.Holds q.target) (hr : r.Coherent) (hr' : r'.Coherent) (he : r.edpc = true → r'.edpc = true)
    (hm : r.Roomy s q) (hm' : r'.Roomy t q) : s.NoWorse t (r.route s q).1 (r'.route t q).1 := by
  have hanswer := (mayAnswer_route r s q).placed hs.wellFormed hf hr hm hsrc htgt
  have hanswer' := (mayAnswer_route r' t q).placed ht.wellFormed (h.fits hf) hr' hm' (h.holds hsrc) (h.holds htgt)
  have hopen : ∀ {path}, t.Connects q r'.edpc path → s.Connects q r.edpc path := fun hp =>
    h.connects ht.wellFormed he hsrc htgt hp
  constructor
  · intro region' hregion'
    rcases hanswer' with ⟨region'', ha', hb'⟩ | ⟨ha', -⟩
    · rw [hregion'] at ha'
      cases ha'
      rcases hanswer with ⟨region, ha, hb⟩ | ⟨-, hn⟩
      · refine ⟨region, _, _, ha, hb.cost, hb'.cost, ?_⟩
        calc
          s.pathCost region.path ≤ s.pathCost region'.path := hb.least _ (hopen hb'.connects)
          _ ≤ t.pathCost region'.path := Slice.pathCost_mono h.cost_le _
      · exact absurd (hopen hb'.connects) (hn _)
    · rw [hregion'] at ha'; cases ha'
  · intro hnone
    rcases hanswer with ⟨region, ha, -⟩ | ⟨-, hn⟩
    · rw [hnone] at ha; cases ha
    · rcases hanswer' with ⟨region', -, hb'⟩ | ⟨ha', -⟩
      · exact absurd (hopen hb'.connects) (hn _)
      · exact ha'

/-- What a router finds where there are more obstacles, a router finds where there are fewer, and at no higher cost,
as long as the graphs fit that the routers build, if any. So no route is created or made cheaper by placing patches,
raising prices and keeping clear of bystanders. -/
theorem route_milder (hs : s.Reachable) (hf : s.Fits) (hsrc : s.Holds q.source) (htgt : s.Holds q.target)
    (hr : r.Coherent) (hr' : r'.Coherent) (he : r.edpc = true → r'.edpc = true) (hm : r.Roomy s q) :
    (∀ t, t.Reachable → s.Milder t → r'.Roomy t q → s.NoWorse t (r.route s q).1 (r'.route t q).1) ∧
      ∀ edits, s.Burdened edits → r'.Roomy (s.performAll edits) q →
        s.NoWorse (s.performAll edits) (r.route s q).1 (r'.route (s.performAll edits) q).1 := by
  constructor
  · intro t ht h hm'
    exact noWorse_of_milder hs ht hf h hsrc htgt hr hr' he hm hm'
  · intro edits h hm'
    exact noWorse_of_milder hs (hs.performAll edits) hf (Slice.milder_performAll h) hsrc htgt hr hr' he hm hm'

end DirectRouter

/-- Two square patches at the ends of a row, with two empty rows below. -/
def Slice.yard : Slice :=
  (Slice.empty 3 4).performAll [.place (.square ⟨0⟩ ⟨0, 0⟩), .place (.square ⟨1⟩ ⟨0, 3⟩)]

/-- The yard with a third patch in its last row and a higher price on the straight way. -/
def Slice.fullYard : Slice := yard.performAll [.place (.square ⟨2⟩ ⟨2, 1⟩), .setCost ⟨0, 1⟩ 5]

theorem Slice.yard_reachable : yard.Reachable := ⟨3, 4, _, rfl⟩

theorem Slice.fullYard_reachable : fullYard.Reachable := yard_reachable.performAll _

theorem Slice.yard_board : yard.board = ⟨3, 4, [.square ⟨0⟩ ⟨0, 0⟩, .square ⟨1⟩ ⟨0, 3⟩], fun _ => 1⟩ := by
  have h := (wellFormed_empty 3 4).board_performAll [.place (.square ⟨0⟩ ⟨0, 0⟩), .place (.square ⟨1⟩ ⟨0, 3⟩)]
  rw [board_empty] at h
  exact h

theorem Slice.yard_patches : yard.patches = [.square ⟨0⟩ ⟨0, 0⟩, .square ⟨1⟩ ⟨0, 3⟩] := congrArg Board.patches yard_board

theorem Slice.yard_right_mem : .square ⟨1⟩ ⟨0, 3⟩ ∈ yard.patches := by rw [yard_patches]; decide

/-- The second patch of the yard is entered on the left or on the right. -/
theorem Slice.yard_right {anchor : FaceAnchor} {c : Cell} (h : yard.Anchored ⟨1⟩ .z anchor c) :
    c = ⟨0, 2⟩ ∨ c = ⟨0, 4⟩ := by
  obtain ⟨side, hside, hc⟩ := h.square yard_reachable.wellFormed yard_right_mem
  cases side with
  | top => cases hside
  | bottom => cases hside
  | left => cases hc; exact .inl rfl
  | right => cases hc; exact .inr rfl

theorem Slice.yard_cost (c : Cell) : yard.cost c = 1 := congrFun (congrArg Board.cost yard_board) c

theorem Slice.yard_pathCost (path : List Cell) : yard.pathCost path = path.length := by
  induction path with
  | nil => rfl
  | cons c path ih => rw [pathCost_cons, yard_cost, ih, List.length_cons, Nat.add_comm]; rfl

/-- The free cells in the first two rows of the yard. -/
def Slice.yardRows : List Cell := [⟨0, 1⟩, ⟨0, 2⟩, ⟨1, 0⟩, ⟨1, 1⟩, ⟨1, 2⟩, ⟨1, 3⟩]

theorem Slice.yard_usable {source target : PatchId} : ∀ c ∈ yardRows, yard.Usable source target false c := by
  intro c hc
  refine ⟨?_, ?_, nofun⟩
  · rw [← board_inBounds, yard_board]
    revert c
    decide
  · rw [yard_patches]
    revert c
    decide

/-- The two ways through the yard around a corner, from the side of one patch to the bottom of the other. -/
def Slice.upperTurn : List Cell := [⟨0, 1⟩, ⟨0, 2⟩, ⟨1, 2⟩, ⟨1, 3⟩]

def Slice.lowerTurn : List Cell := [⟨0, 1⟩, ⟨1, 1⟩, ⟨1, 2⟩, ⟨1, 3⟩]

theorem Slice.yard_turns {path : List Cell} (hp : path = upperTurn ∨ path = lowerTurn) :
    yard.Connects ⟨⟨0⟩, .z, ⟨1⟩, .x⟩ false path := by
  have hpath : path.IsChain (fun c d => c.apart d = 1) ∧ path.head? = some ⟨0, 1⟩ ∧ path.getLast? = some ⟨1, 3⟩ ∧
      ∀ c ∈ path, c ∈ yardRows := by
    rcases hp with rfl | rfl <;> decide
  obtain ⟨hch, hhead, hlast, hrows⟩ := hpath
  refine ⟨fun c hc => yard_usable c (hrows c hc), hch.imp fun _ _ => Cell.adjacent_iff_apart_eq_one.mpr,
    ⟨_, hhead, .square ⟨0⟩ ⟨0, 0⟩, ?_, rfl, ⟨0, 0⟩, .right, ⟨_, .head _, rfl, rfl⟩, rfl⟩,
    _, hlast, .square ⟨1⟩ ⟨0, 3⟩, yard_right_mem, rfl, ⟨0, 3⟩, .bottom, ⟨_, .head _, rfl, rfl⟩, rfl⟩
  rw [yard_patches]
  decide

theorem Slice.fullYard_patches :
    fullYard.patches = [.square ⟨0⟩ ⟨0, 0⟩, .square ⟨1⟩ ⟨0, 3⟩, .square ⟨2⟩ ⟨2, 1⟩] := by
  have h := yard_reachable.wellFormed.board_performAll [.place (.square ⟨2⟩ ⟨2, 1⟩), .setCost ⟨0, 1⟩ 5]
  rw [yard_board] at h
  exact congrArg Board.patches h

theorem Slice.yard_fits : yard.Fits := by
  have hr : yard.rows = 3 := congrArg Board.rows yard_board
  have hc : yard.cols = 4 := congrArg Board.cols yard_board
  constructor
  · rw [hr]; decide
  · rw [hc]; decide
  · rw [hr, hc]; decide

theorem Slice.yard_burdened : yard.Burdened [.place (.square ⟨2⟩ ⟨2, 1⟩), .setCost ⟨0, 1⟩ 5] := by
  refine ⟨trivial, ?_, trivial⟩
  have h := yard_reachable.wellFormed.board_perform (.place (.square ⟨2⟩ ⟨2, 1⟩))
  rw [yard_board] at h
  show (board _).cost ⟨0, 1⟩ ≤ 5
  rw [h]
  decide

theorem Slice.yard_milder : yard.Milder fullYard := milder_performAll yard_burdened

theorem Slice.fullYard_connects : fullYard.Connects ⟨⟨0⟩, .z, ⟨1⟩, .z⟩ true [⟨0, 1⟩, ⟨0, 2⟩] where
  usable c hc := by
    simp only [List.mem_cons, List.not_mem_nil, or_false] at hc
    constructor
    · rw [← yard_milder.inBounds, ← board_inBounds, yard_board]
      rcases hc with rfl | rfl <;> decide
    · rw [fullYard_patches]
      rcases hc with rfl | rfl <;> decide
    · intro _ d ⟨side, hd⟩ p hp hcovers
      rw [fullYard_patches] at hp
      revert p
      rcases hc with rfl | rfl <;> cases side <;> cases hd <;> decide
  adjacent := .cons_cons ⟨.right, rfl⟩ (.singleton _)
  source := ⟨_, rfl, .square ⟨0⟩ ⟨0, 0⟩, by rw [fullYard_patches]; decide, rfl,
    ⟨0, 0⟩, .right, ⟨_, .head _, rfl, rfl⟩, rfl⟩
  target := ⟨_, rfl, .square ⟨1⟩ ⟨0, 3⟩, by rw [fullYard_patches]; decide, rfl,
    ⟨0, 3⟩, .left, ⟨_, .head _, rfl, rfl⟩, rfl⟩

theorem Slice.yard_connects : yard.Connects ⟨⟨0⟩, .z, ⟨1⟩, .z⟩ true [⟨0, 1⟩, ⟨0, 2⟩] := by
  have hsrc : yard.Holds ⟨0⟩ := ⟨.square ⟨0⟩ ⟨0, 0⟩, by rw [yard_patches]; decide, rfl⟩
  have htgt : yard.Holds ⟨1⟩ := ⟨.square ⟨1⟩ ⟨0, 3⟩, by rw [yard_patches]; decide, rfl⟩
  exact yard_milder.connects fullYard_reachable.wellFormed (fun h => h) hsrc htgt fullYard_connects

theorem DirectRouter.route_milder_yard : ∃ region region' j k,
    ((withStrategy .dijkstra).route .yard ⟨⟨0⟩, .z, ⟨1⟩, .z⟩).1 = .ok (some region) ∧
      ((⟨.astar, true, 0⟩ : DirectRouter).route .fullYard ⟨⟨0⟩, .z, ⟨1⟩, .z⟩).1 = .ok (some region') ∧
      region.cost .yard = .ok j ∧ region'.cost .fullYard = .ok k ∧ j ≤ k := by
  have hf := Slice.yard_fits
  have hc := Slice.fullYard_connects
  have hr : (⟨.astar, true, 0⟩ : DirectRouter).Coherent := coherent_of_ne_graph (by decide)
  have hm' : (⟨.astar, true, 0⟩ : DirectRouter).Roomy .fullYard ⟨⟨0⟩, .z, ⟨1⟩, .z⟩ := roomy_of_ne_graph (by decide)
  obtain ⟨region', h'⟩ := route_of_connects Slice.fullYard_reachable.wellFormed (Slice.yard_milder.fits hf) hr hm' hc
  have hnoWorse := (route_milder (q := ⟨⟨0⟩, .z, ⟨1⟩, .z⟩) Slice.yard_reachable hf
    Slice.yard_connects.holds_source Slice.yard_connects.holds_target (coherent_withStrategy .dijkstra) hr
    (fun he => by cases he) (roomy_of_ne_graph (by decide))).1 .fullYard Slice.fullYard_reachable Slice.yard_milder hm'
  obtain ⟨region, j, k, h⟩ := hnoWorse.found region' h'
  exact ⟨region, region', j, k, h.1, h', h.2⟩

end AncillaRouting
