import AdaptiveHls.Proofs.Url.Query

/-!
# What the address of a request asks for

The address of a request is made from that of the playlist: pairs with reserved names go, whoever put
them there, and the request's own pairs come last. The rest of the address is never looked at. So a
request whose address is made from that of another request forgets what the other one has asked for.
-/

namespace AdaptiveHls.Reload

/-- The number waited for comes first, then the part of it, and the wish for a delta update last. -/
theorem directivePairs_eq (target : Option Target) (skip : Bool) :
    directivePairs target skip =
      (target.toList.flatMap fun t =>
        ("_HLS_msn", toString t.sequence) ::
          t.part.toList.map fun part => ("_HLS_part", toString part)) ++
        if skip then [("_HLS_skip", "YES")] else [] := by
  rcases target with _ | ⟨n, _ | part⟩ <;> rfl

/-- All that a request asks for has a reserved name. -/
theorem all_isReserved_directivePairs (target : Option Target) (skip : Bool) :
    (directivePairs target skip).all isReserved = true := by
  have hreserved : ∀ name ∈ ["_HLS_msn", "_HLS_part", "_HLS_skip"], ∀ value,
      isReserved (name, value) = true := by
    intro name hname value
    change Text.beginsWith "_HLS_" name = true
    revert name
    decide
  rcases target with _ | ⟨n, _ | part⟩ <;> cases skip <;> simp [directivePairs, hreserved]

/-- A request has those pairs of the playlist that are not reserved, and no others of that kind. -/
theorem filter_queryPairs_requestUrl (u : Url) (target : Option Target) (skip : Bool) :
    (requestUrl u target skip).queryPairs.filter (fun p => !isReserved p) =
      u.queryPairs.filter fun p => !isReserved p := by
  have hnone : (directivePairs target skip).filter (fun p => !isReserved p) = [] := by
    rw [List.filter_eq_nil_iff]
    intro p hp
    simp [List.all_eq_true.1 (all_isReserved_directivePairs target skip) p hp]
  rw [queryPairs_requestUrl, List.filter_append, hnone, List.append_nil, List.filter_filter]
  simp only [Bool.and_self]

/-- Of the query of an address a request sees no more than the pairs that are not reserved. -/
theorem requestUrl_withQuery {u : Url} {query : Option String}
    (h : (u.withQuery query).queryPairs.filter (fun p => !isReserved p) =
      u.queryPairs.filter fun p => !isReserved p) (target : Option Target) (skip : Bool) :
    requestUrl (u.withQuery query) target skip = requestUrl u target skip := by
  simp only [requestUrl, h, Url.withQuery_withQuery]

/-- The pairs of a request are those of the playlist with names that are not reserved, in their
order, and then what is asked for. Nothing but the query is another than that of the playlist, and
what is made from a request is what is made from the playlist itself. -/
theorem requestUrl_asks_exactly (u : Url) (target : Option Target) (skip : Bool) :
    (requestUrl u target skip).queryPairs =
        (u.queryPairs.filter fun p => !Text.beginsWith "_HLS_" p.1) ++
          ((target.toList.flatMap fun t =>
            ("_HLS_msn", toString t.sequence) ::
              t.part.toList.map fun part => ("_HLS_part", toString part)) ++
            if skip then [("_HLS_skip", "YES")] else []) ∧
      (requestUrl u target skip).withQuery u.query = u ∧
      ∀ target' skip',
        requestUrl (requestUrl u target skip) target' skip' = requestUrl u target' skip' := by
  refine ⟨?pairs, ?rest, ?again⟩
  case pairs =>
    rw [queryPairs_requestUrl, directivePairs_eq]
    rfl
  case rest => rfl
  case again => exact requestUrl_withQuery (filter_queryPairs_requestUrl u target skip)

end AdaptiveHls.Reload
