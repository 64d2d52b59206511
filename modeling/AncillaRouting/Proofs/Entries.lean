import AncillaRouting.Proofs.SliceInvariant
import AncillaRouting.Router.Query

/-!
# Entries and routable cells

Which cells a route may use, said without the order in which they are looked at, and which cells
across the faces of a patch a search starts from and ends at.
-/

namespace AncillaRouting

open Outcome

def Patch.Exposes (p : Patch) (op : Pauli) (cell : Cell) (side : Side) : Prop :=
  ∃ d ∈ p.cells, d.cell = cell ∧ d.boundaries.get side = some op

/-- The cell lies across a face of the patch that exposes the operator. -/
def Patch.Faces (p : Patch) (op : Pauli) (c : Cell) : Prop :=
  ∃ cell side, p.Exposes op cell side ∧ cell.neighbour side = .ok c

/-- What a route between two patches may use: a cell on the grid that no patch covers and, with
clearance, next to which no other patch lies. -/
structure Slice.Usable (s : Slice) (source target : PatchId) (clearance : Bool) (c : Cell) : Prop where
  inBounds : s.inBounds c = true
  uncovered : ∀ p ∈ s.patches, p.covers c = false
  clear : clearance = true → ∀ d, c.Adjacent d → ∀ p ∈ s.patches, p.covers d = true →
    p.id = source ∨ p.id = target

theorem Patch.mem_faces {p : Patch} {op : Pauli} {cell : Cell} {side : Side} :
    (cell, side) ∈ p.faces op ↔ p.Exposes op cell side := by
  simp only [faces, List.mem_flatMap, List.mem_map, List.mem_filter, Prod.mk.injEq]
  constructor
  · rintro ⟨d, hd, t, ⟨-, ht⟩, rfl, rfl⟩
    exact ⟨d, hd, rfl, eq_of_beq ht⟩
  · rintro ⟨d, hd, rfl, ht⟩
    exact ⟨d, hd, side, ⟨side.mem_all, by simpa using ht⟩, rfl, rfl⟩

namespace Terrain

variable {t : Terrain}

/-! ## Routable cells -/

theorem Routable.isFree {c : Cell} (h : t.Routable c) : t.slice.isFree c = true := by
  unfold Routable isRoutable at h
  by_cases hf : t.slice.isFree c = true
  · exact hf
  · rw [if_neg hf] at h; cases h

theorem Routable.inBounds {c : Cell} (h : t.Routable c) : t.slice.inBounds c = true :=
  (Slice.isFree_iff.mp h.isFree).1

theorem Routable.inner (ha : t.slice.Addressable) {c : Cell} (h : t.Routable c) : c.Inner := ha.inner h.inBounds

/-- Whether the cell across a side is covered by nothing but the patches that take part. -/
def clearAt (t : Terrain) (c : Cell) (side : Side) : Except Fault Bool := do
  match t.slice.patchAt (← c.neighbour side) with
  | none => return true
  | some id => return t.participants.contains id

theorem hasClearance_eq (c : Cell) : t.hasClearance c = Side.all.allM (t.clearAt c) := rfl

theorem clearAt_of_neighbour {c d : Cell} {side : Side} (h : c.neighbour side = .ok d) :
    t.clearAt c side = .ok ((t.slice.patchAt d).all t.participants.contains) := by
  simp only [clearAt, h, bind, Except.bind]
  cases t.slice.patchAt d <;> rfl

theorem hasClearance_iff {c : Cell} (hc : c.Inner) : t.hasClearance c = .ok true ↔
    ∀ d, c.Adjacent d → ∀ id, t.slice.patchAt d = some id → id ∈ t.participants := by
  rw [hasClearance_eq, allM_eq_true]
  constructor
  · rintro h d ⟨side, hd⟩ id hid
    have := h side side.mem_all
    rw [clearAt_of_neighbour hd, hid] at this
    simpa using Except.ok.inj this
  · intro h side _
    obtain ⟨d, hd⟩ := hc.neighbour side
    rw [clearAt_of_neighbour hd]
    cases hid : t.slice.patchAt d with
    | none => rfl
    | some id =>
      refine congrArg Except.ok ?_
      simpa using h d ⟨side, hd⟩ id hid

theorem isRoutable_total (ha : t.slice.Addressable) (c : Cell) : ∃ b, t.isRoutable c = .ok b := by
  unfold isRoutable
  by_cases hc : t.slice.isFree c = true
  · rw [if_pos hc]
    by_cases hcl : t.clearance = true
    · rw [if_pos hcl, hasClearance_eq]
      apply allM_total
      intro side _
      obtain ⟨d, hd⟩ := (ha.inner (Slice.isFree_iff.mp hc).1).neighbour side
      exact ⟨_, clearAt_of_neighbour hd⟩
    · exact ⟨true, by rw [if_neg hcl]⟩
  · exact ⟨false, by rw [if_neg hc]⟩

theorem routable_iff_isFree (ht : t.clearance = false) {c : Cell} : t.Routable c ↔ t.slice.isFree c = true := by
  unfold Routable isRoutable
  by_cases hc : t.slice.isFree c = true <;> simp [hc, ht]

theorem routable_iff_usable {s : Slice} (hw : s.WellFormed) (ha : s.Addressable) {a b : PatchId} {clearance : Bool}
    {c : Cell} : (⟨s, [a, b], clearance⟩ : Terrain).Routable c ↔ s.Usable a b clearance c := by
  have hsplit : (⟨s, [a, b], clearance⟩ : Terrain).Routable c ↔ s.isFree c = true ∧
      (clearance = true → (⟨s, [a, b], clearance⟩ : Terrain).hasClearance c = .ok true) := by
    unfold Routable isRoutable
    by_cases hc : s.isFree c = true <;> cases clearance <;> simp [hc]
  rw [hsplit]
  constructor
  · rintro ⟨hfree, hclear⟩
    obtain ⟨hb, hu⟩ := hw.isFree_iff.mp hfree
    refine ⟨hb, hu, fun hcl d hd p hp hpd => ?_⟩
    have := (hasClearance_iff (ha.inner hb)).mp (hclear hcl) d hd p.id (hw.covered.mpr ⟨p, hp, rfl, hpd⟩)
    simpa using this
  · rintro ⟨hb, hu, hclear⟩
    refine ⟨hw.isFree_iff.mpr ⟨hb, hu⟩, fun hcl => (hasClearance_iff (ha.inner hb)).mpr fun d hd id hid => ?_⟩
    obtain ⟨p, hp, rfl, hpd⟩ := hw.covered.mp hid
    simpa using hclear hcl d hd p hp hpd

theorem mem_routableNeighbours {c d : Cell} {ds : List Cell} (h : t.routableNeighbours c = .ok ds) :
    d ∈ ds ↔ c.Adjacent d ∧ t.Routable d := by
  obtain ⟨ns, hn, h⟩ := bind_eq_ok.mp h
  rw [mem_of_filterM h, Cell.mem_neighbours hn]
  rfl

theorem routableNeighbours_total (ha : t.slice.Addressable) {c : Cell} (hc : c.Inner) :
    ∃ ds, t.routableNeighbours c = .ok ds := by
  obtain ⟨ns, hn⟩ := hc.neighbours
  obtain ⟨ds, hd⟩ := filterM_total (f := t.isRoutable) (l := ns) fun d _ => isRoutable_total ha d
  exact ⟨ds, bind_eq_ok.mpr ⟨ns, hn, hd⟩⟩

/-! ## Entries -/

def addEntry (t : Terrain) (p : Patch) (op : Pauli) (entries : List EntryPoint) (face : Cell × Side) :
    Except Fault (List EntryPoint) := do
  let anchor : FaceAnchor := ⟨p.id, op, face.1, face.2⟩
  let entry ← anchor.entry
  if (← t.isRoutable entry) && !entries.any (·.cell == entry) then return entries ++ [⟨entry, anchor⟩]
  else return entries

theorem entries_eq (p : Patch) (op : Pauli) : t.entries p op = (p.faces op).foldlM (t.addEntry p op) [] := rfl

theorem addEntry_cases {p : Patch} {op : Pauli} {es es' : List EntryPoint} {face : Cell × Side}
    (h : t.addEntry p op es face = .ok es') : ∃ c, face.1.neighbour face.2 = .ok c ∧
      ((es' = es ∧ (t.Routable c → ∃ e ∈ es, e.cell = c)) ∨
        (es' = es ++ [⟨c, p.id, op, face.1, face.2⟩] ∧ t.Routable c ∧ ∀ e ∈ es, e.cell ≠ c)) := by
  obtain ⟨c, hc, h⟩ := bind_eq_ok.mp h
  obtain ⟨b, hb, h⟩ := bind_eq_ok.mp h
  refine ⟨c, hc, ?_⟩
  by_cases hcond : (b && !es.any (·.cell == c)) = true
  · rw [if_pos hcond] at h
    cases h
    rw [Bool.and_eq_true] at hcond
    exact .inr ⟨rfl, by rw [Routable, hb, hcond.1], by simpa using hcond.2⟩
  · rw [if_neg hcond] at h
    cases h
    refine .inl ⟨rfl, fun hr => ?_⟩
    rw [Routable, hb] at hr
    cases hr
    simpa using hcond

/-- What the entries of a patch are: one for each routable cell across a face, with such a face. -/
structure EntriesOf (t : Terrain) (p : Patch) (op : Pauli) (faces : List (Cell × Side))
    (es : List EntryPoint) : Prop where
  routable : ∀ e ∈ es, t.Routable e.cell
  anchored : ∀ e ∈ es, e.anchor.patch = p.id ∧ e.anchor.op = op ∧
    (e.anchor.cell, e.anchor.side) ∈ faces ∧ e.anchor.entry = .ok e.cell
  distinct : (es.map (·.cell)).Nodup
  complete : ∀ f ∈ faces, ∀ {c}, f.1.neighbour f.2 = .ok c → t.Routable c → ∃ e ∈ es, e.cell = c

theorem EntriesOf.nil {p : Patch} {op : Pauli} : t.EntriesOf p op [] [] where
  routable _ he := by cases he
  anchored _ he := by cases he
  distinct := List.nodup_nil
  complete _ hf := by cases hf

theorem EntriesOf.add {p : Patch} {op : Pauli} {faces : List (Cell × Side)} {es es' : List EntryPoint}
    {face : Cell × Side} (he : t.EntriesOf p op faces es) (h : t.addEntry p op es face = .ok es') :
    t.EntriesOf p op (faces ++ [face]) es' := by
  obtain ⟨c, hc, ⟨rfl, hin⟩ | ⟨rfl, hr, hnew⟩⟩ := addEntry_cases h
  · refine ⟨he.routable, fun e hm => ?_, he.distinct, fun f hf d hd hrd => ?_⟩
    · obtain ⟨h1, h2, h3, h4⟩ := he.anchored e hm
      exact ⟨h1, h2, List.mem_append_left _ h3, h4⟩
    · rcases List.mem_append.mp hf with hf | hf
      · exact he.complete f hf hd hrd
      · rw [List.mem_singleton.mp hf, hc] at hd
        cases hd; exact hin hrd
  · refine ⟨fun e hm => ?_, fun e hm => ?_, ?_, fun f hf d hd hrd => ?_⟩
    · rcases List.mem_append.mp hm with hm | hm
      · exact he.routable e hm
      · rw [List.mem_singleton.mp hm]; exact hr
    · rcases List.mem_append.mp hm with hm | hm
      · obtain ⟨h1, h2, h3, h4⟩ := he.anchored e hm
        exact ⟨h1, h2, List.mem_append_left _ h3, h4⟩
      · rw [List.mem_singleton.mp hm]
        exact ⟨rfl, rfl, List.mem_append_right _ (List.mem_singleton.mpr rfl), hc⟩
    · simp only [List.map_append, List.map_cons, List.map_nil]
      refine List.nodup_append.mpr ⟨he.distinct, List.pairwise_singleton .., fun a ha b hb => ?_⟩
      obtain ⟨e, hm, rfl⟩ := List.mem_map.mp ha
      rw [List.mem_singleton.mp hb]
      exact hnew e hm
    · rcases List.mem_append.mp hf with hf | hf
      · obtain ⟨e, hm, hce⟩ := he.complete f hf hd hrd
        exact ⟨e, List.mem_append_left _ hm, hce⟩
      · rw [List.mem_singleton.mp hf, hc] at hd
        cases hd
        exact ⟨_, List.mem_append_right _ (List.mem_singleton.mpr rfl), rfl⟩

theorem entriesOf_entries {p : Patch} {op : Pauli} {es : List EntryPoint} (h : t.entries p op = .ok es) :
    t.EntriesOf p op (p.faces op) es := by
  rw [entries_eq] at h
  exact foldlM_builds (P := t.EntriesOf p op) (fun _ he h => he.add h) .nil h

theorem EntriesOf.faces_iff {p : Patch} {op : Pauli} {es : List EntryPoint} (he : t.EntriesOf p op (p.faces op) es)
    {c : Cell} (hc : t.Routable c) : (∃ e ∈ es, e.cell = c) ↔ p.Faces op c := by
  constructor
  · rintro ⟨e, hm, rfl⟩
    obtain ⟨-, -, hf, hn⟩ := he.anchored e hm
    exact ⟨_, _, Patch.mem_faces.mp hf, hn⟩
  · rintro ⟨cell, side, hx, hn⟩
    exact he.complete (cell, side) (Patch.mem_faces.mpr hx) hn hc

theorem entries_total (ha : t.slice.Addressable) {p : Patch} (hp : ∀ d ∈ p.cells, t.slice.inBounds d.cell = true)
    (op : Pauli) : ∃ es, t.entries p op = .ok es := by
  rw [entries_eq]
  refine foldlM_total (I := fun todo _ => ∀ f ∈ todo, f ∈ p.faces op)
    (fun {f todo es} hI => ?_) fun _ h => h
  obtain ⟨d, hd, hcell, -⟩ := Patch.mem_faces.mp (hI f (List.mem_cons_self ..))
  obtain ⟨c, hc⟩ := (ha.inner (hcell ▸ hp d hd)).neighbour f.2
  obtain ⟨b, hb⟩ := isRoutable_total ha c
  refine ⟨if b && !es.any (·.cell == c) then es ++ [⟨c, p.id, op, f.1, f.2⟩] else es, ?_,
    fun g hg => hI g (List.mem_cons_of_mem _ hg)⟩
  refine bind_eq_ok.mpr ⟨c, hc, bind_eq_ok.mpr ⟨b, hb, ?_⟩⟩
  split <;> rfl

end Terrain

namespace SearchProblem

/-! ## Problems -/

/-- What a search over the grid relies on while its sums are exact: cells that have all their neighbours, none of
them free of charge, and routable source entries. -/
structure Grounded (p : SearchProblem) : Prop where
  addressable : p.slice.Addressable
  paid : ∀ c, 0 < p.cellCost c
  sources_routable : ∀ e ∈ p.sources, p.terrain.Routable e.cell

/-- What a search relies on: sizes that fit, no cell free of charge, and distinct routable entries
that lie across the faces of their anchors. -/
structure WellPosed (p : SearchProblem) : Prop where
  fits : p.slice.Fits
  paid : ∀ c, 0 < p.cellCost c
  sources_routable : ∀ e ∈ p.sources, p.terrain.Routable e.cell
  targets_routable : ∀ e ∈ p.targets, p.terrain.Routable e.cell
  sources_distinct : (p.sources.map (·.cell)).Nodup
  targets_distinct : (p.targets.map (·.cell)).Nodup
  sources_anchored : ∀ e ∈ p.sources, e.anchor.entry = .ok e.cell
  targets_anchored : ∀ e ∈ p.targets, e.anchor.entry = .ok e.cell

theorem WellPosed.grounded {p : SearchProblem} (hp : p.WellPosed) : p.Grounded :=
  ⟨hp.fits.addressable, hp.paid, hp.sources_routable⟩

theorem ofPatches_eq_ok {s : Slice} {a b : Patch} {aOp bOp : Pauli} {clearance : Bool} {p : SearchProblem}
    (h : ofPatches s a aOp b bOp clearance = .ok p) : p.terrain = ⟨s, [a.id, b.id], clearance⟩ ∧
      p.terrain.entries a aOp = .ok p.sources ∧ p.terrain.entries b bOp = .ok p.targets := by
  obtain ⟨src, hs, h⟩ := bind_eq_ok.mp h
  obtain ⟨tgt, ht, h⟩ := bind_eq_ok.mp h
  cases h
  exact ⟨rfl, hs, ht⟩

theorem ofPatches_slice {s : Slice} {a b : Patch} {aOp bOp : Pauli} {clearance : Bool} {p : SearchProblem}
    (h : ofPatches s a aOp b bOp clearance = .ok p) : p.slice = s := by
  rw [slice, (ofPatches_eq_ok h).1]

theorem ofPatches_total {s : Slice} (hw : s.WellFormed) (ha : s.Addressable) {a b : Patch} (hpa : a ∈ s.patches)
    (hpb : b ∈ s.patches) (aOp bOp : Pauli) (clearance : Bool) : ∃ p, ofPatches s a aOp b bOp clearance = .ok p := by
  have inside : ∀ {r : Patch}, r ∈ s.patches → ∀ d ∈ r.cells, s.inBounds d.cell = true :=
    fun {r} hr d hd => hw.inside r hr (Slice.covers_iff.mpr ⟨d, hd, rfl⟩)
  obtain ⟨src, hs⟩ := Terrain.entries_total (t := ⟨s, [a.id, b.id], clearance⟩) ha (inside hpa) aOp
  obtain ⟨tgt, ht⟩ := Terrain.entries_total (t := ⟨s, [a.id, b.id], clearance⟩) ha (inside hpb) bOp
  exact ⟨_, bind_eq_ok.mpr ⟨src, hs, bind_eq_ok.mpr ⟨tgt, ht, rfl⟩⟩⟩

theorem ofPatches_grounded {s : Slice} (hw : s.WellFormed) (ha : s.Addressable) {a b : Patch} {aOp bOp : Pauli}
    {clearance : Bool} {p : SearchProblem} (h : ofPatches s a aOp b bOp clearance = .ok p) : p.Grounded := by
  obtain ⟨-, hsrc, -⟩ := ofPatches_eq_ok h
  have hs := ofPatches_slice h
  exact ⟨hs ▸ ha, fun c => by rw [cellCost, hs]; exact hw.paid c, (Terrain.entriesOf_entries hsrc).routable⟩

theorem ofPatches_wellPosed {s : Slice} (hw : s.WellFormed) (hf : s.Fits) {a b : Patch} {aOp bOp : Pauli}
    {clearance : Bool} {p : SearchProblem} (h : ofPatches s a aOp b bOp clearance = .ok p) : p.WellPosed := by
  obtain ⟨-, ha, hb⟩ := ofPatches_eq_ok h
  have hs := ofPatches_slice h
  have ea := Terrain.entriesOf_entries ha
  have eb := Terrain.entriesOf_entries hb
  exact ⟨hs ▸ hf, fun c => by rw [cellCost, hs]; exact hw.paid c, ea.routable, eb.routable, ea.distinct,
    eb.distinct, fun e he => (ea.anchored e he).2.2.2, fun e he => (eb.anchored e he).2.2.2⟩

theorem ofQuery_eq_ok {s : Slice} {q : RouteQuery} {clearance : Bool} {p : SearchProblem} :
    ofQuery s q clearance = .ok p ↔ ∃ a b, s.getPatch q.source = .ok a ∧ s.getPatch q.target = .ok b ∧
      ofPatches s a q.sourceOp b q.targetOp clearance = .ok p := by
  unfold ofQuery
  simp only [bind_eq_ok, mapError_eq_ok]
  exact ⟨fun ⟨a, ha, b, hb, h⟩ => ⟨a, b, ha, hb, h⟩, fun ⟨a, b, ha, hb, h⟩ => ⟨a, ha, b, hb, h⟩⟩

theorem ofQuery_wellPosed {s : Slice} (hw : s.WellFormed) (hf : s.Fits) {q : RouteQuery} {clearance : Bool}
    {p : SearchProblem} (h : ofQuery s q clearance = .ok p) : p.WellPosed := by
  obtain ⟨a, b, -, -, h⟩ := ofQuery_eq_ok.mp h
  exact ofPatches_wellPosed hw hf h

theorem ofQuery_total {s : Slice} (hw : s.WellFormed) (hf : s.Fits) (q : RouteQuery) (clearance : Bool)
    {a b : Patch} (ha : a ∈ s.patches) (hb : b ∈ s.patches) (hqa : a.id = q.source) (hqb : b.id = q.target) :
    ∃ p, ofQuery s q clearance = .ok p := by
  obtain ⟨p, hp⟩ := ofPatches_total hw hf.addressable ha hb q.sourceOp q.targetOp clearance
  exact ⟨p, ofQuery_eq_ok.mpr ⟨a, b, hqa ▸ hw.getPatch ha, hqb ▸ hw.getPatch hb, hp⟩⟩

end SearchProblem

end AncillaRouting
