import AncillaRouting.Proofs.RegionJoints
import AncillaRouting.Proofs.SliceRefinement

/-!
# The faces that routes are joined to

A cell may lie across several faces of a patch. It is an entry once, and belongs to the first of these faces in the
order in which the patch lists them. A path from an entry to an entry, one step at a time, has a region, and the
region is joined to the faces that its ends belong to.
-/

namespace AncillaRouting

open Outcome

variable {faces : List (Cell × Side)} {face f g : Cell × Side} {c d : Cell} {m n : Nat}

/-- Face number `n` of a list is the first one across which the cell lies. -/
structure FirstAcross (faces : List (Cell × Side)) (c : Cell) (n : Nat) (f : Cell × Side) : Prop where
  nth : faces[n]? = some f
  across : f.1.neighbour f.2 = .ok c
  first : ∀ m g, m < n → faces[m]? = some g → g.1.neighbour g.2 ≠ .ok c

/-- The first face across which `c` lies comes before the first one across which `d` lies. -/
def Sooner (faces : List (Cell × Side)) (c d : Cell) : Prop :=
  ∃ m n f g, FirstAcross faces c m f ∧ FirstAcross faces d n g ∧ m < n

/-- The anchor is the first face of the patch that exposes the operator and across which the cell lies. -/
structure FaceAnchor.Foremost (a : FaceAnchor) (p : Patch) (op : Pauli) (c : Cell) : Prop where
  patch_eq : a.patch = p.id
  op_eq : a.op = op
  first : ∃ n, FirstAcross (p.faces op) c n (a.cell, a.side)

/-- The entries of a patch: the usable cells across its faces, each of them once, with the first of its faces and
in the order of these. -/
structure Patch.Entered (p : Patch) (op : Pauli) (usable : Cell → Prop) (es : List EntryPoint) : Prop where
  cells : ∀ c, (∃ e ∈ es, e.cell = c) ↔ usable c ∧ p.Faces op c
  once : (es.map (·.cell)).Nodup
  anchored : ∀ e ∈ es, e.anchor.Foremost p op e.cell
  ordered : es.Pairwise fun a b => Sooner (p.faces op) a.cell b.cell

/-! ## The first face across which a cell lies -/

theorem FirstAcross.lt_length (h : FirstAcross faces c n f) : n < faces.length :=
  (List.getElem?_eq_some_iff.mp h.nth).1

theorem FirstAcross.append (h : FirstAcross faces c n f) (more : List (Cell × Side)) :
    FirstAcross (faces ++ more) c n f := by
  have hn := h.lt_length
  refine ⟨by rw [List.getElem?_append_left hn, h.nth], h.across, fun m g hm hg => ?_⟩
  rw [List.getElem?_append_left (Nat.lt_trans hm hn)] at hg
  exact h.first m g hm hg

theorem firstAcross_concat (hf : f.1.neighbour f.2 = .ok c) (hnew : ∀ g ∈ faces, g.1.neighbour g.2 ≠ .ok c) :
    FirstAcross (faces ++ [f]) c faces.length f := by
  refine ⟨List.getElem?_concat_length, hf, fun m g hm hg => ?_⟩
  rw [List.getElem?_append_left hm] at hg
  exact hnew g (List.mem_of_getElem? hg)

theorem FirstAcross.mem (h : FirstAcross faces c n f) : f ∈ faces := List.mem_of_getElem? h.nth

theorem FirstAcross.number_eq (h : FirstAcross faces c m f) (h' : FirstAcross faces c n g) : m = n := by
  rcases Nat.lt_trichotomy m n with hlt | heq | hgt
  · exact absurd h.across (h'.first m f hlt h.nth)
  · exact heq
  · exact absurd h'.across (h.first n g hgt h'.nth)

theorem FirstAcross.face_eq (h : FirstAcross faces c m f) (h' : FirstAcross faces c n g) : f = g := by
  have hf := h.nth
  rw [h.number_eq h', h'.nth] at hf
  exact (Option.some.inj hf).symm

theorem Sooner.append (h : Sooner faces c d) (more : List (Cell × Side)) : Sooner (faces ++ more) c d := by
  obtain ⟨m, n, f, g, hf, hg, hlt⟩ := h
  exact ⟨m, n, f, g, hf.append more, hg.append more, hlt⟩

/-! ## The order of the entries -/

/-- Entries with the first faces to which they belong, in the order of these. -/
structure InFaceOrder (faces : List (Cell × Side)) (es : List EntryPoint) : Prop where
  first : ∀ e ∈ es, ∃ n, FirstAcross faces e.cell n (e.anchor.cell, e.anchor.side)
  ordered : es.Pairwise fun a b => Sooner faces a.cell b.cell

theorem inFaceOrder_nil : InFaceOrder [] [] := ⟨nofun, .nil⟩

theorem InFaceOrder.skip {es : List EntryPoint} (h : InFaceOrder faces es) (face : Cell × Side) :
    InFaceOrder (faces ++ [face]) es := by
  refine ⟨fun e he => ?_, h.ordered.imp fun hab => hab.append [face]⟩
  obtain ⟨n, hn⟩ := h.first e he
  exact ⟨n, hn.append [face]⟩

theorem InFaceOrder.concat {es : List EntryPoint} {e : EntryPoint} (h : InFaceOrder faces es)
    (hentry : e.anchor.entry = .ok e.cell) (hnew : ∀ g ∈ faces, g.1.neighbour g.2 ≠ .ok e.cell) :
    InFaceOrder (faces ++ [(e.anchor.cell, e.anchor.side)]) (es ++ [e]) := by
  have hskip := h.skip (e.anchor.cell, e.anchor.side)
  have hlast := firstAcross_concat (f := (e.anchor.cell, e.anchor.side)) hentry hnew
  refine ⟨fun a ha => ?_, ?_⟩
  · rcases List.mem_append.mp ha with ha | ha
    · exact hskip.first a ha
    · obtain rfl := List.mem_singleton.mp ha
      exact ⟨_, hlast⟩
  · -- every other entry belongs to an earlier face than the last one
    rw [List.pairwise_append]
    refine ⟨hskip.ordered, List.pairwise_singleton .., fun a ha b hb => ?_⟩
    obtain rfl := List.mem_singleton.mp hb
    obtain ⟨n, hn⟩ := h.first a ha
    exact ⟨_, _, _, _, hn.append _, hlast, hn.lt_length⟩

namespace Terrain

variable {t : Terrain} {p : Patch} {op : Pauli} {es es' : List EntryPoint}

theorem addEntry_inFaceOrder (he : t.EntriesOf p op faces es) (ho : InFaceOrder faces es)
    (h : t.addEntry p op es face = .ok es') : InFaceOrder (faces ++ [face]) es' := by
  obtain ⟨c, hc, ⟨rfl, -⟩ | ⟨rfl, hr, hnew⟩⟩ := addEntry_cases h
  · exact ho.skip face
  · -- an earlier face would have made the cell an entry
    have hfresh : ∀ g ∈ faces, g.1.neighbour g.2 ≠ .ok c := by
      intro g hg hgc
      obtain ⟨e, hm, hec⟩ := he.complete g hg hgc hr
      exact hnew e hm hec
    exact ho.concat (e := ⟨c, p.id, op, face.1, face.2⟩) hc hfresh

theorem entries_inFaceOrder (h : t.entries p op = .ok es) : InFaceOrder (p.faces op) es := by
  rw [entries_eq] at h
  have hbuilt := foldlM_builds (P := fun faces es => t.EntriesOf p op faces es ∧ InFaceOrder faces es)
    (fun _ hP hadd => ⟨hP.1.add hadd, addEntry_inFaceOrder hP.1 hP.2 hadd⟩) ⟨.nil, inFaceOrder_nil⟩ h
  exact hbuilt.2

theorem entered_of_entries (h : t.entries p op = .ok es) : p.Entered op t.Routable es := by
  have he := entriesOf_entries h
  have ho := entries_inFaceOrder h
  refine ⟨fun c => ?_, he.distinct, fun e hm => ?_, ho.ordered⟩
  · constructor
    · intro ⟨e, hm, hec⟩
      have hr := hec ▸ he.routable e hm
      exact ⟨hr, (he.faces_iff hr).mp ⟨e, hm, hec⟩⟩
    · intro ⟨hr, hf⟩
      exact (he.faces_iff hr).mpr hf
  · obtain ⟨hpatch, hop, -⟩ := he.anchored e hm
    exact ⟨hpatch, hop, ho.first e hm⟩

end Terrain

theorem Patch.Entered.of_iff {p : Patch} {op : Pauli} {es : List EntryPoint} {usable usable' : Cell → Prop}
    (h : p.Entered op usable es) (hiff : ∀ c, usable c ↔ usable' c) : p.Entered op usable' es :=
  ⟨fun c => by rw [h.cells, hiff], h.once, h.anchored, h.ordered⟩

/-! ## Regions between entries -/

theorem FaceAnchor.Foremost.entry {a : FaceAnchor} {p : Patch} {op : Pauli} (h : a.Foremost p op c) : a.entry = .ok c := by
  obtain ⟨n, hn⟩ := h.first
  exact hn.across

theorem FaceAnchor.Foremost.inner {s : Slice} (hw : s.WellFormed) (ha : s.Addressable) {a : FaceAnchor} {p : Patch}
    {op : Pauli} (hp : p ∈ s.patches) (h : a.Foremost p op c) : a.cell.Inner := by
  obtain ⟨n, hn⟩ := h.first
  obtain ⟨x, hx, hcell, -⟩ := Patch.mem_faces.mp hn.mem
  exact ha.inner (hw.inside p hp (Slice.covers_iff.mpr ⟨x, hx, hcell⟩))

namespace SearchProblem

variable {s : Slice} {p : SearchProblem} {a b : Patch} {aOp bOp : Pauli} {path : List Cell}

/-- What a path comes to: a region if it leads from an entry to an entry one step at a time, and nothing otherwise. -/
structure Finishes (p : SearchProblem) (a : Patch) (aOp : Pauli) (b : Patch) (bOp : Pauli) (path : List Cell)
    (found : Option RoutingRegion) : Prop where
  region_iff : (∃ r, found = some r) ↔ path ≠ [] ∧ (∃ e ∈ p.sources, path.head? = some e.cell) ∧
    (∃ e ∈ p.targets, path.getLast? = some e.cell) ∧ path.IsChain Cell.Adjacent
  along : ∀ r, found = some r → r.path = path ∧ (∃ c, path.head? = some c ∧ r.source.Foremost a aOp c) ∧
    ∃ c, path.getLast? = some c ∧ r.target.Foremost b bOp c

theorem finish_of_entered (hw : s.WellFormed) (ha : s.Addressable) (hpa : a ∈ s.patches) (hpb : b ∈ s.patches)
    {usable : Cell → Prop} (hsrc : a.Entered aOp usable p.sources) (htgt : b.Entered bOp usable p.targets)
    (hi : ∀ c ∈ path, c.Inner) : ∃ found, p.finish path = .ok found ∧ p.Finishes a aOp b bOp path found := by
  rcases p.finish_cases path with ⟨x, hx, y, hy, hhead, hlast, hof⟩ | ⟨hnone, hends⟩
  · have hsource := hsrc.anchored x hx
    have htarget := htgt.anchored y hy
    obtain ⟨found, hfound⟩ := RoutingRegion.ofPath_total hi (hsource.inner hw ha hpa) (htarget.inner hw ha hpb)
    refine ⟨found, hof.trans hfound, ⟨fun ⟨r, hr⟩ => ?_, fun ⟨_, _, _, hch⟩ => ?_⟩, fun r hr => ?_⟩
    · rw [hr] at hfound
      obtain ⟨first, rest, _, cells, rfl, -, -, -, hj, -⟩ := RoutingRegion.of_ofPath_eq_some hfound
      exact ⟨List.cons_ne_nil _ _, ⟨x, hx, hhead⟩, ⟨y, hy, hlast⟩, (RoutingRegion.joinFrom_chained hj).adjacent⟩
    · obtain ⟨r, hr, -⟩ := RoutingRegion.ofPath_eq_ok hi hch hhead hlast hsource.entry htarget.entry
      exact ⟨r, Except.ok.inj (hfound.symm.trans hr)⟩
    · rw [hr] at hfound
      obtain ⟨hrs, hrt, hpath, -⟩ := RoutingRegion.of_ofPath hfound
      exact ⟨hpath, ⟨x.cell, hhead, hrs ▸ hsource⟩, y.cell, hlast, hrt ▸ htarget⟩
  · refine ⟨none, hnone, ⟨nofun, fun ⟨_, ⟨x, hx, hhead⟩, ⟨y, hy, hlast⟩, _⟩ => ?_⟩, nofun⟩
    exact absurd hlast (hends x hx y hy hhead)

/-- Between placed patches, the entries are the usable cells across the faces of each, once and in the order of
their first faces. A path has a region if and only if it leads from an entry to an entry one step at a time, and
the region is joined to the first faces across which its ends lie. -/
theorem joined_to_first_faces (hs : s.Reachable) (ha : s.Addressable) (hpa : a ∈ s.patches) (hpb : b ∈ s.patches)
    (aOp bOp : Pauli) (clearance : Bool) : ∃ p, ofPatches s a aOp b bOp clearance = .ok p ∧
      a.Entered aOp (s.Usable a.id b.id clearance) p.sources ∧ b.Entered bOp (s.Usable a.id b.id clearance) p.targets ∧
      ∀ path, (∀ c ∈ path, c.Inner) → ∃ found, p.finish path = .ok found ∧ p.Finishes a aOp b bOp path found := by
  have hw := hs.wellFormed
  obtain ⟨p, hp⟩ := ofPatches_total hw ha hpa hpb aOp bOp clearance
  obtain ⟨ht, hsrc, htgt⟩ := ofPatches_eq_ok hp
  rw [ht] at hsrc htgt
  have husable : ∀ c, (⟨s, [a.id, b.id], clearance⟩ : Terrain).Routable c ↔ s.Usable a.id b.id clearance c :=
    fun c => Terrain.routable_iff_usable hw ha
  have hsources := (Terrain.entered_of_entries hsrc).of_iff husable
  have htargets := (Terrain.entered_of_entries htgt).of_iff husable
  exact ⟨p, hp, hsources, htargets, fun path hi => finish_of_entered hw ha hpa hpb hsources htargets hi⟩

end SearchProblem

/-! ## A cell across two faces -/

/-- Around a corner, with one of its cells listed twice. -/
def Patch.bend : Patch :=
  ⟨⟨0⟩, [⟨⟨1, 1⟩, .set .none .left (some .z)⟩, ⟨⟨0, 0⟩, .set .none .bottom (some .z)⟩,
    ⟨⟨1, 1⟩, .set .none .left (some .z)⟩]⟩

/-- The one free cell at the side lies across faces of two cells of the bend and of the square below it. -/
def Slice.nook : Slice := (empty 3 2).performAll [.place .bend, .place (.square ⟨1⟩ ⟨2, 0⟩)]

theorem Slice.nook_reachable : nook.Reachable := ⟨3, 2, _, rfl⟩

theorem Slice.nook_board : nook.board = ⟨3, 2, [.bend, .square ⟨1⟩ ⟨2, 0⟩], fun _ => 1⟩ := by
  have h := (wellFormed_empty 3 2).board_performAll [.place .bend, .place (.square ⟨1⟩ ⟨2, 0⟩)]
  rw [board_empty] at h
  exact h

theorem Slice.nook_patches : nook.patches = [.bend, .square ⟨1⟩ ⟨2, 0⟩] := congrArg Board.patches nook_board

theorem Slice.nook_size : nook.rows = 3 ∧ nook.cols = 2 :=
  ⟨congrArg Board.rows nook_board, congrArg Board.cols nook_board⟩

theorem Slice.nook_addressable : nook.Addressable := by
  obtain ⟨hr, hc⟩ := nook_size
  constructor
  · rw [hr]; decide
  · rw [hc]; decide

theorem Slice.nook_usable : nook.Usable ⟨0⟩ ⟨1⟩ true ⟨1, 0⟩ := by
  refine ⟨?_, ?_, fun _ d _ p hp _ => ?_⟩
  · rw [inBounds_iff, nook_size.1, nook_size.2]
    decide
  · rw [nook_patches]
    decide
  · rw [nook_patches, List.mem_cons, List.mem_singleton] at hp
    rcases hp with rfl | rfl
    · exact .inl rfl
    · exact .inr rfl

namespace SearchProblem

theorem joined_to_first_faces_nook : ∃ p r, ofPatches .nook .bend .z (.square ⟨1⟩ ⟨2, 0⟩) .x true = .ok p ∧
    p.finish [⟨1, 0⟩] = .ok (some r) ∧ r.path = [⟨1, 0⟩] ∧ (r.source.cell, r.source.side) = (⟨1, 1⟩, .left) := by
  have hbend : Patch.bend ∈ Slice.nook.patches := by rw [Slice.nook_patches]; exact .head _
  have hsquare : Patch.square ⟨1⟩ ⟨2, 0⟩ ∈ Slice.nook.patches := by rw [Slice.nook_patches]; exact .tail _ (.head _)
  have hi : ∀ c ∈ [(⟨1, 0⟩ : Cell)], c.Inner := by
    intro c hc
    obtain rfl := List.mem_singleton.mp hc
    constructor <;> decide
  obtain ⟨p, hp, hsrc, htgt, hfinish⟩ :=
    joined_to_first_faces Slice.nook_reachable Slice.nook_addressable hbend hsquare .z .x true
  obtain ⟨a, ha, hac⟩ := (hsrc.cells ⟨1, 0⟩).mpr ⟨Slice.nook_usable, ⟨1, 1⟩, .left, ⟨_, .head _, rfl, rfl⟩, rfl⟩
  obtain ⟨b, hb, hbc⟩ := (htgt.cells ⟨1, 0⟩).mpr ⟨Slice.nook_usable, ⟨2, 0⟩, .top, ⟨_, .head _, rfl, rfl⟩, rfl⟩
  obtain ⟨found, hfound, hfin⟩ := hfinish [⟨1, 0⟩] hi
  obtain ⟨r, rfl⟩ := hfin.region_iff.mpr
    ⟨List.cons_ne_nil _ _, ⟨a, ha, congrArg some hac.symm⟩, ⟨b, hb, congrArg some hbc.symm⟩, .singleton _⟩
  obtain ⟨hpath, ⟨c, hc, hfore⟩, -⟩ := hfin.along r rfl
  cases hc
  obtain ⟨n, hn⟩ := hfore.first
  have hfirst : FirstAcross (Patch.bend.faces .z) ⟨1, 0⟩ 0 (⟨1, 1⟩, .left) :=
    ⟨rfl, rfl, fun m _ hm => absurd hm (Nat.not_lt_zero m)⟩
  exact ⟨p, r, hp, hfound, hpath, hn.face_eq hfirst⟩

end SearchProblem

end AncillaRouting
