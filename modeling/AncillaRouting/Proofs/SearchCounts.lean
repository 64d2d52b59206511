import AncillaRouting.Proofs.RouterRuns
import AncillaRouting.Proofs.Sessions
import Mathlib.Algebra.Ring.Nat
import Mathlib.Data.Finset.Card
import Mathlib.Data.Finset.Dedup

/-!
# How often a router searches

The log of a run tells how many searches there were. A direct router searches for every query that it does not
refuse. A router that remembers routes searches again for what it has not found, and otherwise once for every key
that is answered with a region, until routes are forgotten; so many routes are stored as keys were answered since.
A search that fails at a fault counts too.
-/

namespace AncillaRouting

/-! ## Logs -/

namespace LogEntry

def searched : LogEntry → Bool
  | query _ _ searched => searched
  | _ => false

def isAnswer : LogEntry → Bool
  | query _ (.ok _) _ => true
  | _ => false

def isAbsence : LogEntry → Bool
  | query _ (.ok none) _ => true
  | _ => false

/-- The search failed. -/
def isFault : LogEntry → Bool
  | query _ (.error (.fault _)) _ => true
  | _ => false

def isMiss (x : LogEntry) : Bool := x.isAbsence || x.isFault

def isCleared : LogEntry → Bool
  | cleared => true
  | _ => false

/-- The key of a query that was answered with a region. -/
def found? : LogEntry → Option RouteKey
  | query (.ok key) (.ok (some _)) _ => some key
  | _ => none

/-- The different keys that were answered with a region. -/
def answeredKeys (log : List LogEntry) : Finset RouteKey := (log.filterMap found?).toFinset

/-- The pieces of a log between the places where routes were forgotten. -/
def stretches (log : List LogEntry) : List (List LogEntry) := log.splitOnP isCleared

def sinceCleared (log : List LogEntry) : List LogEntry := (stretches log).getLastD []

/-- One search for every query that found nothing or failed at a fault, and one for every key answered with a region in
a stretch. -/
def searchesNeeded (log : List LogEntry) : Nat :=
  log.countP isMiss + ((stretches log).map fun stretch => (answeredKeys stretch).card).sum

variable {log : List LogEntry} {x : LogEntry}

theorem splitOnP_concat {α : Type} {p : α → Bool} {x : α} (hx : p x = false) {l current : List α}
    {earlier : List (List α)} (h : l.splitOnP p = earlier ++ [current]) :
    (l ++ [x]).splitOnP p = earlier ++ [current ++ [x]] := by
  induction l generalizing earlier current with
  | nil =>
    have hnil : [] ++ [[]] = earlier ++ [current] := h
    obtain ⟨rfl, hc⟩ := List.append_inj' hnil rfl
    cases hc
    simp [List.splitOnP_cons_eq_if_modifyHead, hx]
  | cons y l ih =>
    obtain ⟨e, c, hl⟩ := (List.eq_nil_or_concat' (l.splitOnP p)).resolve_left (List.splitOnP_ne_nil p l)
    rw [List.splitOnP_cons_eq_if_modifyHead, hl] at h
    rw [List.cons_append, List.splitOnP_cons_eq_if_modifyHead, ih hl]
    by_cases hy : p y = true
    · rw [if_pos hy, ← List.cons_append] at h
      obtain ⟨rfl, hc⟩ := List.append_inj' h rfl
      cases hc
      simp [hy]
    · rw [if_neg hy] at h
      rw [if_neg hy]
      cases e with
      | nil =>
        have hnil : [] ++ [y :: c] = earlier ++ [current] := h
        obtain ⟨rfl, hc⟩ := List.append_inj' hnil rfl
        cases hc
        rfl
      | cons a e =>
        have hcons : ((y :: a) :: e) ++ [c] = earlier ++ [current] := h
        obtain ⟨rfl, hc⟩ := List.append_inj' hcons rfl
        cases hc
        rfl

theorem stretches_cleared (log : List LogEntry) : stretches (log ++ [cleared]) = stretches log ++ [[]] :=
  List.splitOnP_append_cons log [] rfl

theorem stretches_eq (log : List LogEntry) : ∃ earlier, stretches log = earlier ++ [sinceCleared log] := by
  obtain ⟨earlier, current, h⟩ := (List.eq_nil_or_concat' (stretches log)).resolve_left (List.splitOnP_ne_nil _ log)
  exact ⟨earlier, by simp [sinceCleared, h]⟩

theorem sinceCleared_concat (hx : x.isCleared = false) : sinceCleared (log ++ [x]) = sinceCleared log ++ [x] := by
  obtain ⟨earlier, h⟩ := stretches_eq log
  have hsplit : stretches (log ++ [x]) = earlier ++ [sinceCleared log ++ [x]] := splitOnP_concat hx h
  simp [sinceCleared, hsplit]

theorem searchesNeeded_concat (log : List LogEntry) (hx : x.isCleared = false) :
    searchesNeeded (log ++ [x]) + (answeredKeys (sinceCleared log)).card =
      searchesNeeded log + [x].countP isMiss + (answeredKeys (sinceCleared log ++ [x])).card := by
  obtain ⟨earlier, h⟩ := stretches_eq log
  have hsplit : stretches (log ++ [x]) = earlier ++ [sinceCleared log ++ [x]] := splitOnP_concat hx h
  simp only [searchesNeeded, h, hsplit, List.countP_append, List.map_append, List.sum_append, List.map_cons,
    List.map_nil, List.sum_cons, List.sum_nil]
  omega

theorem answeredKeys_concat_none (h : x.found? = none) : answeredKeys (log ++ [x]) = answeredKeys log := by
  simp [answeredKeys, h]

theorem answeredKeys_concat_some {key : RouteKey} (h : x.found? = some key) :
    answeredKeys (log ++ [x]) = insert key (answeredKeys log) := by
  ext k
  simp [answeredKeys, h, eq_comm]

end LogEntry

open LogEntry Outcome

/-! ## The counter -/

theorem add_one_bne (n : UInt64) : (n + 1 != n) = true := by
  rw [bne_iff_ne]
  intro h
  have hn := congrArg UInt64.toNat h
  rw [UInt64.toNat_add, UInt64.toNat_one] at hn
  have hlt := n.toNat_lt
  omega

theorem DirectRouter.searches_route (r : DirectRouter) (s : Slice) (q : RouteQuery) :
    (r.route s q).2.searches = r.searches ∨ (r.route s q).2.searches = r.searches + 1 := by
  unfold DirectRouter.route
  cases SearchProblem.ofQuery s q r.edpc with
  | error e => exact .inl rfl
  | ok p => exact .inr rfl

namespace Router

variable {r : Router} {s : Slice} {q : RouteQuery} {call : RouterCall} {calls : List RouterCall}

theorem searches_route (r : Router) (s : Slice) (q : RouteQuery) :
    (r.route s q).2.searcher.searches = r.searcher.searches ∨
      (r.route s q).2.searcher.searches = r.searcher.searches + 1 := by
  cases r with
  | direct r => exact r.searches_route s q
  | cached r =>
    have hinner := r.inner.searches_route s q
    rcases r.route_cases s q with ⟨e, -, h⟩ | ⟨key, -, ⟨region, -, h⟩ | ⟨-, region, -, h⟩ | ⟨-, -, h⟩⟩
    · exact .inl (by simp [route, searcher, h])
    · exact .inl (by simp [route, searcher, h])
    · simpa [route, searcher, h] using hinner
    · simpa [route, searcher, h] using hinner

theorem searches_handle (r : Router) (call : RouterCall) : (r.handle call).searcher.searches =
    r.searcher.searches + if (r.record call).searched then 1 else 0 := by
  cases call with
  | route s q =>
    simp only [handle, record, searched]
    rcases r.searches_route s q with h | h
    · simp [h]
    · simp [h, add_one_bne]
  | setStrategy strategy =>
    cases r with
    | direct r => simpa [handle_direct, record, searched, searcher] using (r.setStrategy_keeps strategy).2
    | cached r => simpa [handle_cached, record, searched, searcher] using (r.inner.setStrategy_keeps strategy).2
  | enableEdpc =>
    cases r with
    | direct r => simpa [handle_direct, record, searched, searcher] using r.enableEdpc_keeps.2
    | cached r => simp [handle_cached, record, searched]
  | clear => cases r <;> simp [handle, clear, record, searched, searcher, CachedRouter.clear]

/-- The counter shows how many searches were begun, up to its width. -/
theorem searches_handleAll (r : Router) (calls : List RouterCall) : (r.handleAll calls).searcher.searches =
    r.searcher.searches + UInt64.ofNat ((r.log calls).countP searched) := by
  induction calls using List.reverseRecOn with
  | nil => simp [handleAll, log]
  | append_singleton calls call ih =>
    rw [handleAll_concat, log_concat, searches_handle, ih, List.countP_append, UInt64.ofNat_add, UInt64.add_assoc,
      List.countP_singleton]
    split <;> rfl

/-! ## Routers that remember routes -/

/-- The table holds the keys that were answered since routes were last forgotten, and as many searches were begun
as were needed. -/
structure Counted (log : List LogEntry) (r : CachedRouter) : Prop where
  mem_routes : ∀ key, key ∈ r.routes ↔ key ∈ answeredKeys (sinceCleared log)
  stored : r.stored = (answeredKeys (sinceCleared log)).card
  searches : log.countP searched = searchesNeeded log

variable {log : List LogEntry} {x : LogEntry} {c c' : CachedRouter}

theorem counted_withStrategy (strategy : SearchStrategy) : Counted [] (.withStrategy strategy) where
  mem_routes key := by simp [CachedRouter.withStrategy, answeredKeys, sinceCleared, stretches]
  stored := rfl
  searches := rfl

theorem Counted.keep (h : Counted log c) (hx : x.isCleared = false) (hfound : ∀ key, x.found? = some key → key ∈ c.routes)
    (hs : x.searched = x.isMiss) (hr : c'.routes = c.routes) : Counted (log ++ [x]) c' := by
  have hkeys : answeredKeys (sinceCleared (log ++ [x])) = answeredKeys (sinceCleared log) := by
    rw [sinceCleared_concat hx]
    cases hf : x.found? with
    | none => exact answeredKeys_concat_none hf
    | some key =>
      have hmem := (h.mem_routes key).mp (hfound key hf)
      rw [answeredKeys_concat_some hf, Finset.insert_eq_of_mem hmem]
  refine ⟨fun key => ?_, ?_, ?_⟩
  · rw [hkeys, hr]
    exact h.mem_routes key
  · rw [hkeys, ← h.stored, CachedRouter.stored, hr]
    rfl
  · have hneeded := searchesNeeded_concat log hx
    rw [← sinceCleared_concat hx, hkeys] at hneeded
    rw [List.countP_append, List.countP_singleton, hs, h.searches]
    rw [List.countP_singleton] at hneeded
    omega

theorem Counted.store (h : Counted log c) {key : RouteKey} {region : RoutingRegion} (hk : key ∉ c.routes)
    (hr : c'.routes = c.routes.insert key region) : Counted (log ++ [.query (.ok key) (.ok (some region)) true]) c' := by
  have hnew : key ∉ answeredKeys (sinceCleared log) := fun hm => hk ((h.mem_routes key).mpr hm)
  have hkeys : answeredKeys (sinceCleared (log ++ [.query (.ok key) (.ok (some region)) true])) =
      insert key (answeredKeys (sinceCleared log)) := by
    rw [sinceCleared_concat rfl]
    exact answeredKeys_concat_some rfl
  have hcard := Finset.card_insert_of_notMem hnew
  refine ⟨fun k => ?_, ?_, ?_⟩
  · rw [hkeys, hr, Std.HashMap.mem_insert, Finset.mem_insert, h.mem_routes, beq_iff_eq, eq_comm]
  · rw [hkeys, hcard, ← h.stored, CachedRouter.stored, hr, Std.HashMap.size_insert, if_neg hk]
    rfl
  · have hneeded := searchesNeeded_concat log (x := .query (.ok key) (.ok (some region)) true) rfl
    rw [← sinceCleared_concat rfl, hkeys, hcard] at hneeded
    rw [List.countP_append, h.searches]
    simp only [List.countP_singleton, searched, isMiss, isAbsence, isFault, if_true, Bool.false_eq_true, if_false,
      Bool.or_false] at hneeded ⊢
    omega

theorem Counted.clear (h : Counted log c) : Counted (log ++ [.cleared]) c.clear := by
  have hlast : sinceCleared (log ++ [.cleared]) = [] := by simp [sinceCleared, stretches_cleared]
  refine ⟨fun key => ?_, ?_, ?_⟩
  · rw [hlast]
    simp [CachedRouter.clear, answeredKeys]
  · rw [hlast]
    rfl
  · rw [List.countP_append, h.searches]
    simp [searchesNeeded, stretches_cleared, answeredKeys, List.countP_append, searched, isMiss, isAbsence, isFault]

theorem record_route {answer : Except RouteError (Option RoutingRegion)} (h : c.route s q = (answer, c')) :
    (cached c).record (.route s q) =
      .query (RouteKey.ofQuery s q) answer (c'.inner.searches != c.inner.searches) := by
  simp [record, route, searcher, h]

/-- A query without a key names a patch that is not placed. -/
theorem ofQuery_eq_error (hw : s.WellFormed) {e : RouteError} (h : RouteKey.ofQuery s q = .error e) :
    ∃ id, e = .slice (.patchNotFound id) := by
  by_cases hsrc : s.Holds q.source
  · by_cases htgt : s.Holds q.target
    · obtain ⟨key, hk⟩ := RouteKey.ofQuery_of_holds hw hsrc htgt
      rw [hk] at h; cases h
    · rw [RouteKey.ofQuery_missing_target hw hsrc htgt] at h
      cases h
      exact ⟨_, rfl⟩
  · rw [RouteKey.ofQuery_missing_source hsrc] at h
    cases h
    exact ⟨_, rfl⟩

theorem Counted.route (h : Counted log c) (he : c.inner.edpc = false) (hw : s.WellFormed) (hf : s.Fits) :
    Counted (log ++ [(cached c).record (.route s q)]) (c.route s q).2 := by
  rcases c.route_cases s q with ⟨e, hk, hr⟩ | ⟨key, hk, hcases⟩
  · obtain ⟨id, rfl⟩ := ofQuery_eq_error hw hk
    rw [record_route hr, hk, hr, bne_self_eq_false]
    exact h.keep rfl nofun rfl rfl
  · obtain ⟨hs, ht⟩ := RouteKey.holds_of_ofQuery hk
    have hstate := c.inner.searched_of_holds hw hf hs ht
    rcases hcases with ⟨region, hstored, hr⟩ | ⟨hmiss, region, hd, hr⟩ | ⟨hmiss, hd, hr⟩
    · rw [record_route hr, hk, hr, bne_self_eq_false]
      refine h.keep rfl (fun k hkey => ?_) rfl rfl
      cases hkey
      exact Std.HashMap.mem_iff_isSome_getElem?.mpr (by rw [hstored]; rfl)
    · rw [record_route hr, hk, hr, hstate, add_one_bne]
      have hnew : key ∉ c.routes := by simp [Std.HashMap.mem_iff_isSome_getElem?, hmiss]
      exact h.store hnew rfl
    · -- between placed patches the search found that there is no region, or failed
      rw [record_route hr, hk, hr, hstate, add_one_bne]
      rcases DirectRouter.route_of_holds hw hf (DirectRouter.coherent_plain he) hs ht with
        ⟨-, found, hfound⟩ | ⟨-, f, -, hfault⟩
      · cases found with
        | some region => exact absurd hfound (hd region)
        | none =>
          rw [hfound]
          exact h.keep rfl nofun rfl rfl
      · rw [hfault]
        exact h.keep rfl nofun rfl rfl

theorem Counted.handle (h : Counted log c) (he : c.inner.edpc = false) (hc : call.Proper)
    (hr : (cached c).handle call = cached c') : Counted (log ++ [(cached c).record call]) c' := by
  rw [handle_cached] at hr
  cases call with
  | route s q =>
    cases hr
    exact h.route he hc.1.wellFormed hc.2
  | setStrategy strategy =>
    cases hr
    exact h.keep rfl nofun rfl rfl
  | enableEdpc =>
    cases hr
    exact h.keep rfl nofun rfl rfl
  | clear =>
    cases hr
    exact h.clear

theorem counted (strategy : SearchStrategy) (hcalls : ∀ call ∈ calls, call.Proper)
    (hc : (cached (.withStrategy strategy)).handleAll calls = cached c) :
    Counted ((cached (.withStrategy strategy)).log calls) c := by
  induction calls using List.reverseRecOn generalizing c with
  | nil =>
    cases hc
    exact counted_withStrategy strategy
  | append_singleton calls call ih =>
    obtain ⟨c₀, hc₀⟩ := handleAll_eq_cached (.withStrategy strategy) calls
    have hbefore := ih (fun call hm => hcalls call (List.mem_append_left _ hm)) hc₀
    have hcon : (cached c₀).Consistent := hc₀ ▸ (Made.withStrategyCached strategy).consistent.handleAll calls
    rw [handleAll_concat, hc₀] at hc
    rw [log_concat, hc₀]
    exact hbefore.handle hcon (hcalls call (by simp)) hc

/-! ## Routers that search for every query -/

theorem searched_record_direct {r : DirectRouter} (hr : r.Coherent) (hc : call.Proper) :
    ((direct r).record call).searched = (((direct r).record call).isAnswer || ((direct r).record call).isFault) := by
  cases call with
  | route s q =>
    obtain ⟨hs, hf⟩ := hc
    cases hk : RouteKey.ofQuery s q with
    | error e =>
      obtain ⟨id, rfl⟩ := ofQuery_eq_error hs.wellFormed hk
      simp [record, searched, isAnswer, isFault, route_of_error hs.wellFormed hk]
    | ok key =>
      obtain ⟨hsrc, htgt⟩ := RouteKey.holds_of_ofQuery hk
      have hstate := r.searched_of_holds hs.wellFormed hf hsrc htgt
      rcases DirectRouter.route_of_holds hs.wellFormed hf hr hsrc htgt with ⟨-, found, hfound⟩ | ⟨-, f, -, hfault⟩
      · simp [record, route, searched, isAnswer, searcher, hfound, hstate, add_one_bne]
      · simp [record, route, searched, isAnswer, isFault, searcher, hfault, hstate, add_one_bne]
  | _ => rfl

theorem searched_log_direct {r : DirectRouter} (hr : r.Coherent) (hcalls : ∀ call ∈ calls, call.Proper) :
    ((direct r).log calls).countP searched = ((direct r).log calls).countP fun x => x.isAnswer || x.isFault := by
  induction calls generalizing r with
  | nil => rfl
  | cons call calls ih =>
    obtain ⟨r', hr'⟩ := handle_eq_direct r call
    have hcoh : (direct r').Consistent := hr' ▸ Consistent.handle (r := direct r) hr call
    rw [log, hr', List.countP_cons, List.countP_cons, ih hcoh fun call hm => hcalls call (List.mem_cons_of_mem _ hm),
      searched_record_direct hr (hcalls call (List.mem_cons_self ..))]

/-! ## All runs -/

theorem counter_of_fresh {start : Router} (h0 : start.searcher.searches = 0)
    (hfew : (start.log calls).countP searched < 2 ^ 64) :
    (start.handleAll calls).searcher.searches.toNat = (start.log calls).countP searched := by
  rw [searches_handleAll, h0, UInt64.zero_add, UInt64.toNat_ofNat', Nat.mod_eq_of_lt hfew]

/-- After any proper calls, the counter of a router that remembers routes shows one search for every query
that found nothing or failed at a fault, and one for every key that was answered with a region between two places where
routes were forgotten, and it stores the keys that were answered since the last of them. The counter of a direct router
shows the queries that were answered or failed at a fault. A query is refused where a patch is not placed, the source
first, and then leaves the router as it is. Between placed patches it fails exactly where the router is out of room for
the graph. Then the search has been counted and nothing is stored. -/
theorem searches_counted {start : Router} (hm : start.Made) {calls : List RouterCall}
    (hcalls : ∀ call ∈ calls, call.Proper) {r : Router} (hr : start.handleAll calls = r)
    (hfew : (start.log calls).countP searched < 2 ^ 64) :
    (∀ c, start = cached c → r.searcher.searches.toNat = searchesNeeded (start.log calls) ∧
      r.stored = (answeredKeys (sinceCleared (start.log calls))).card) ∧
      (∀ d, start = direct d →
        r.searcher.searches.toNat = (start.log calls).countP fun x => x.isAnswer || x.isFault) ∧
      ∀ s q, s.Reachable → s.Fits →
        (¬ s.Holds q.source → r.route s q = (.error (.slice (.patchNotFound q.source)), r)) ∧
        (s.Holds q.source → ¬ s.Holds q.target → r.route s q = (.error (.slice (.patchNotFound q.target)), r)) ∧
        (s.Holds q.source → s.Holds q.target → (¬ r.OutOfRoom s q → ∃ found, (r.route s q).1 = .ok found) ∧
          (r.OutOfRoom s q → (∃ f, f.IsLimit ∧ (r.route s q).1 = .error (.fault f)) ∧
            (r.route s q).2.searcher.searches = r.searcher.searches + 1 ∧
            ∀ key, (r.route s q).2.remembered key = r.remembered key)) := by
  have hcon : r.Consistent := hr ▸ hm.consistent.handleAll calls
  have hfresh := hm.fresh
  refine ⟨fun c hc => ?_, fun d hd => ?_, fun s q hs hf => ⟨fun hsrc => ?_, fun hsrc htgt => ?_, fun hsrc htgt => ?_⟩⟩
  · subst hc
    obtain ⟨strategy, rfl⟩ := hfresh
    obtain ⟨c', hc'⟩ := handleAll_eq_cached (.withStrategy strategy) calls
    have hcounted := counted strategy hcalls hc'
    obtain rfl := hc'.symm.trans hr
    constructor
    · rw [← hcounted.searches, ← counter_of_fresh rfl hfew, hc']
    · exact hcounted.stored
  · subst hd
    rw [← searched_log_direct hfresh.1 hcalls, ← hr]
    exact counter_of_fresh hfresh.2 hfew
  · exact route_of_error hs.wellFormed (RouteKey.ofQuery_missing_source hsrc) r
  · exact route_of_error hs.wellFormed (RouteKey.ofQuery_missing_target hs.wellFormed hsrc htgt) r
  · rcases hcon.route_of_holds hs.wellFormed hf hsrc htgt with ⟨hroom, hfound⟩ | ⟨hout, hfails⟩
    · exact ⟨fun _ => hfound, fun hout => absurd hout hroom⟩
    · exact ⟨fun hroom => absurd hout hroom, fun _ => hfails⟩

theorem searches_counted_corridor : ∃ r,
    (cached (.withStrategy .dijkstra)).handleAll [.enableEdpc, .route .corridor ⟨⟨0⟩, .z, ⟨1⟩, .z⟩] = r ∧
      r.searcher.searches.toNat = 1 ∧ r.stored = 1 := by
  obtain ⟨region, h⟩ := Session.answer_corridor .dijkstra
  obtain ⟨searched, hrecord⟩ : ∃ searched, (cached (.withStrategy .dijkstra)).record
      (.route .corridor ⟨⟨0⟩, .z, ⟨1⟩, .z⟩) = .query (.ok ⟨⟨0, 0⟩, .z, ⟨0, 3⟩, .z⟩) (.ok (some region)) searched :=
    ⟨_, congrArg₂ (LogEntry.query · · _) Session.key_corridor h⟩
  have hlog : (cached (.withStrategy .dijkstra)).log [.enableEdpc, .route .corridor ⟨⟨0⟩, .z, ⟨1⟩, .z⟩] =
      [.setting, .query (.ok ⟨⟨0, 0⟩, .z, ⟨0, 3⟩, .z⟩) (.ok (some region)) searched] :=
    congrArg (fun x => [LogEntry.setting, x]) hrecord
  have hproper : ∀ call ∈ [.enableEdpc, .route .corridor ⟨⟨0⟩, .z, ⟨1⟩, .z⟩], RouterCall.Proper call := by
    simp [RouterCall.Proper, Slice.corridor_reachable, Slice.corridor_fits]
  have hfew : ((cached (.withStrategy .dijkstra)).log
      [.enableEdpc, .route .corridor ⟨⟨0⟩, .z, ⟨1⟩, .z⟩]).countP LogEntry.searched < 2 ^ 64 :=
    List.countP_le_length.trans_lt (by simp [log])
  obtain ⟨hcounter, hstored⟩ := (searches_counted (.withStrategyCached .dijkstra) hproper rfl hfew).1 _ rfl
  rw [hlog] at hcounter hstored
  exact ⟨_, rfl, hcounter, hstored⟩

/-- On the large grid the patches are placed, and still the query is not answered. A search is counted that belongs to
no answer. -/
theorem counted_overfilled_expanse : Slice.expanse.Reachable ∧ Slice.expanse.Fits ∧ Slice.expanse.Holds ⟨0⟩ ∧
    Slice.expanse.Holds ⟨1⟩ ∧
    (∀ found, ((cached (.withStrategy .graph)).route .expanse ⟨⟨0⟩, .z, ⟨1⟩, .z⟩).1 ≠ .ok found) ∧
    ((cached (.withStrategy .graph)).route .expanse ⟨⟨0⟩, .z, ⟨1⟩, .z⟩).2.searcher.searches = 1 ∧
    (∀ found, ((direct (.withStrategy .graph)).route .expanse ⟨⟨0⟩, .z, ⟨1⟩, .z⟩).1 ≠ .ok found) ∧
    ((direct (.withStrategy .graph)).route .expanse ⟨⟨0⟩, .z, ⟨1⟩, .z⟩).2.searcher.searches = 1 := by
  have hw := Slice.expanse_reachable.wellFormed
  have hc := Slice.expanse_connects
  have fails : ∀ r : Router, r.Made → r.strategy = .graph → (∀ key, r.remembered key = none) →
      r.searcher.searches = 0 → (∀ found, (r.route .expanse ⟨⟨0⟩, .z, ⟨1⟩, .z⟩).1 ≠ .ok found) ∧
        (r.route .expanse ⟨⟨0⟩, .z, ⟨1⟩, .z⟩).2.searcher.searches = 1 := fun r hm hg hnone hzero => by
    rcases hm.consistent.route_of_holds hw Slice.expanse_fits hc.holds_source hc.holds_target with
      ⟨hroom, -⟩ | ⟨-, ⟨f, -, hfault⟩, hcount, -⟩
    · exact absurd ⟨hg, Slice.expanse_overfills, fun key _ => hnone key⟩ hroom
    · refine ⟨fun found h => ?_, ?_⟩
      · rw [hfault] at h; cases h
      · rw [hcount, hzero]; rfl
  obtain ⟨hcached, hcachedCount⟩ := fails (cached (.withStrategy .graph)) (.withStrategyCached .graph) rfl
    (fun key => by simp [remembered, CachedRouter.cached, CachedRouter.withStrategy]) rfl
  obtain ⟨hdirect, hdirectCount⟩ := fails (direct (.withStrategy .graph)) (.withStrategyDirect .graph) rfl (fun _ => rfl) rfl
  exact ⟨Slice.expanse_reachable, Slice.expanse_fits, hc.holds_source, hc.holds_target, hcached, hcachedCount, hdirect,
    hdirectCount⟩

end Router

end AncillaRouting
