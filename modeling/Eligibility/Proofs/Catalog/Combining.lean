/-
Combining what a catalog holds. The rules under some ids combine to what the texts under them combine to: each text
was read within the limit of catalogs and stands for the same rule within every wider one, so that the combiner is
given the same rules either way. An id without an entry is refused, the first of them in the list.
-/
import Eligibility.Proofs.Catalog.Consistency
import Eligibility.Proofs.Catalog.Lookup
import Eligibility.Proofs.Combination.Folding

namespace Eligibility

namespace Catalog

variable {c : Catalog} {id : String} {ids : List String} {combiner : Combiner}

/-- The texts of the entries under some ids, in the order of the ids. -/
def texts (c : Catalog) (ids : List String) : List String := ids.filterMap fun id => (c.get? id).map Entry.text

theorem combine_of_mapM {rules : List Rule} (h : ids.mapM c.rule = .ok rules) :
    c.combine ids combiner = combiner.combineRules rules := Combiner.combined_of_mapM h

/-! ## Entries under ids -/

theorem rule_of_get? {e : Entry} (h : c.get? id = some e) : c.rule id = .ok e.rule := by rw [rule, h]

theorem rule_of_absent (h : c.contains id = false) : c.rule id = .error (.ruleNotFound id) := by
  rw [rule, get?_eq_none.2 h]

/-- Ids that there are entries under are the ids of these entries. -/
theorem exists_entries (hc : c.Consistent) (live : ∀ id ∈ ids, c.contains id = true) :
    ∃ es : List Entry, es.map Entry.id = ids ∧ ∀ e ∈ es, c.get? e.id = some e := by
  induction ids with
  | nil => exact ⟨[], rfl, nofun⟩
  | cons id ids ih =>
    obtain ⟨es, hids, found⟩ := ih fun id hid => live id (List.mem_cons_of_mem _ hid)
    obtain ⟨e, hget⟩ := contains_iff.1 (live id List.mem_cons_self)
    obtain rfl : e.id = id := (hc id e (mem_of_get? hget)).id
    exact ⟨e :: es, congrArg (e.id :: ·) hids, List.forall_mem_cons.2 ⟨hget, found⟩⟩

/-- The texts under the ids of entries are those of the entries. -/
theorem texts_eq_map {es : List Entry} (found : ∀ e ∈ es, c.get? e.id = some e) :
    c.texts (es.map Entry.id) = es.map Entry.text := by
  rw [texts, List.filterMap_map, ← List.filterMap_eq_map]
  refine List.filterMap_congr fun e he => ?_
  rw [Function.comp_apply, found e he]
  rfl

/-! ## Combinations -/

/-- After any calls, ids that there are entries under combine to what their texts combine to, under every combiner
whose limit is no narrower than that of catalogs: to the same rule, or to a refusal for the same fault. Of a list
in which ids have no entry the first of these is refused. -/
theorem combine_as_texts (calls : List Call) (hlimit : defaultDepthLimit ≤ combiner.depthLimit) :
    let c := run calls
    (∀ ids, (∀ id ∈ ids, c.contains id = true) → c.combine ids combiner = combiner.combine (c.texts ids)) ∧
    ∀ before id after, (∀ id' ∈ before, c.contains id' = true) → c.contains id = false →
      c.combine (before ++ id :: after) combiner = .error (.ruleNotFound id) := by
  intro c
  have consistent : c.Consistent := consistent_run calls
  constructor
  · intro ids live
    obtain ⟨es, rfl, found⟩ := exists_entries consistent live
    -- the same rules, from the entries and from their texts
    have stored : (es.map Entry.id).mapM c.rule = .ok (es.map Entry.rule) :=
      mapM_map_eq_ok fun e he => rule_of_get? (found e he)
    have read : (es.map Entry.text).mapM (Rule.parse combiner.depthLimit) = .ok (es.map Entry.rule) :=
      mapM_map_eq_ok fun e he => Rule.parse_mono (consistent e.id e (mem_of_get? (found e he))).text hlimit
    rw [combine_of_mapM stored, texts_eq_map found, Combiner.combine_of_mapM read]
  · intro before id after live absent
    have refused : (before ++ id :: after).mapM c.rule = .error (.ruleNotFound id) := by
      refine mapM_refused (fun id' hid => ?_) (rule_of_absent absent) after
      obtain ⟨e, hget⟩ := contains_iff.1 (live id' hid)
      exact ⟨e.rule, rule_of_get? hget⟩
    rw [combine, if_neg (by simp), refused]
    rfl

/-- One id twice, its rule modified, under a combiner that drops what is repeated; and an id without an entry. -/
theorem combine_as_texts_of_three :
    let c := run [.create "r" "t0" "n" "a = 'x' OR b = 'y'", .create "s" "t1" "m" "( c = 'z' )",
      .modify "r" "t2" [.right] "d = 'u' AND e = 'v'"]
    let combiner : Combiner := ⟨.and, true, 300⟩
    defaultDepthLimit ≤ combiner.depthLimit ∧ (∀ id ∈ ["r", "s", "r"], c.contains id = true) ∧
    c.texts ["r", "s", "r"] =
      ["a = 'x' OR (d = 'u' AND e = 'v')", "( c = 'z' )", "a = 'x' OR (d = 'u' AND e = 'v')"] ∧
    c.combine ["r", "s", "r"] combiner = combiner.combine (c.texts ["r", "s", "r"]) ∧
    (c.combine ["r", "s", "r"] combiner).toOption.map Rule.render =
      some "(a = 'x' OR (d = 'u' AND e = 'v')) AND c = 'z'" ∧
    c.combine ["s", "p", "q"] combiner = .error (.ruleNotFound "p") := by
  intro c combiner
  have hlimit : defaultDepthLimit ≤ combiner.depthLimit := by decide
  obtain ⟨combined, refused⟩ := combine_as_texts
    [.create "r" "t0" "n" "a = 'x' OR b = 'y'", .create "s" "t1" "m" "( c = 'z' )",
      .modify "r" "t2" [.right] "d = 'u' AND e = 'v'"] hlimit
  have live : ∀ id ∈ ["r", "s", "r"], c.contains id = true := by decide +kernel
  exact ⟨hlimit, live, by decide +kernel, combined _ live, by decide +kernel,
    refused ["s"] "p" ["q"] (by decide +kernel) (by decide +kernel)⟩

end Catalog
end Eligibility
