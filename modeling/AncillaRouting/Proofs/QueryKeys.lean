import AncillaRouting.Proofs.FirstFaces
import AncillaRouting.Proofs.RememberedRoutes
import AncillaRouting.Proofs.ReversedQueries

/-!
# Keys tell queries apart

A key has one cell in place of each patch. Patches hold at least one cell each and no cell is covered twice, so
on one slice the cell tells the patch, whichever of its cells the patch lists first. What is stored for a query
is therefore neither read nor written for another one.
-/

namespace AncillaRouting

variable {s : Slice} {q q' : RouteQuery} {key key' : RouteKey}

/-- Of all that is stored, only what is under the key of a query matters to its answer. -/
theorem CachedRouter.route_congr {r r' : CachedRouter} (hk : RouteKey.ofQuery s q = .ok key) (hi : r.inner = r'.inner)
    (hc : r.cached key = r'.cached key) : (r.route s q).1 = (r'.route s q).1 := by
  simp only [route, hk, hi, hc]
  cases r'.cached key with
  | some region => rfl
  | none => rcases r'.inner.route s q with ⟨_ | _ | region, inner⟩ <;> rfl

namespace RouteKey

theorem eq_iff_query_eq (hw : s.WellFormed) (hk : ofQuery s q = .ok key) (hk' : ofQuery s q' = .ok key') :
    key = key' ↔ q = q' := by
  constructor
  · rintro rfl
    exact ofQuery_injective hw hk hk'
  · rintro rfl
    exact Except.ok.inj (hk.symm.trans hk')

/-- Two queries between placed patches have one key only if they agree in everything. Otherwise neither sees
the entry of the other: it stays as it is, and the answer does not depend on it. -/
theorem tells_query (hs : s.Reachable) (q q' : RouteQuery) (hsrc : s.Holds q.source) (htgt : s.Holds q.target)
    (hsrc' : s.Holds q'.source) (htgt' : s.Holds q'.target) :
    ∃ key key', ofQuery s q = .ok key ∧ ofQuery s q' = .ok key' ∧
      (key = key' ↔ q.source = q'.source ∧ q.sourceOp = q'.sourceOp ∧ q.target = q'.target ∧
        q.targetOp = q'.targetOp) ∧
      (q ≠ q' → ∀ r : CachedRouter, (r.route s q).2.cached key' = r.cached key' ∧
        ∀ r' : CachedRouter, r.inner = r'.inner → (∀ other, other ≠ key' → r.cached other = r'.cached other) →
          (r.route s q).1 = (r'.route s q).1) := by
  have hw := hs.wellFormed
  obtain ⟨key, hk⟩ := ofQuery_of_holds hw hsrc htgt
  obtain ⟨key', hk'⟩ := ofQuery_of_holds hw hsrc' htgt'
  have hiff := eq_iff_query_eq hw hk hk'
  refine ⟨key, key', hk, hk', ?_, fun hne r => ?_⟩
  · rw [hiff]
    cases q
    cases q'
    simp only [RouteQuery.mk.injEq]
  · have hkeys : key ≠ key' := fun he => hne (hiff.mp he)
    constructor
    · have hown : ofQuery s q ≠ .ok key' := fun h => hkeys (Except.ok.inj (hk.symm.trans h))
      exact Router.remembered_route_of_ne (r := .cached r) hown
    · exact fun r' hi hothers => CachedRouter.route_congr hk hi (hothers key hkeys)

/-- One of the two patches lists a cell twice and not in order. -/
theorem tells_query_nook : ∃ key key', ofQuery .nook ⟨⟨0⟩, .z, ⟨1⟩, .x⟩ = .ok key ∧
    ofQuery .nook (RouteQuery.reverse ⟨⟨0⟩, .z, ⟨1⟩, .x⟩) = .ok key' ∧ key ≠ key' := by
  have hbend : Slice.nook.Holds ⟨0⟩ := ⟨.bend, by rw [Slice.nook_patches]; exact .head _, rfl⟩
  have hsquare : Slice.nook.Holds ⟨1⟩ := ⟨.square ⟨1⟩ ⟨2, 0⟩, by rw [Slice.nook_patches]; exact .tail _ (.head _), rfl⟩
  obtain ⟨key, key', hk, hk', hiff, -⟩ := tells_query Slice.nook_reachable ⟨⟨0⟩, .z, ⟨1⟩, .x⟩
    (RouteQuery.reverse ⟨⟨0⟩, .z, ⟨1⟩, .x⟩) hbend hsquare hsquare hbend
  exact ⟨key, key', hk, hk', fun he => absurd (hiff.mp he).1 (by decide)⟩

end RouteKey

end AncillaRouting
