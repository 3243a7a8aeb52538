/-
A catalog as a set of separate histories. Requests change the catalog or look at it, and may be refused; what is
under an id depends on no more than the changes that were granted and name this id. Main statement: an id has an
entry just if one was created and not removed since, and this entry is the created one after the granted
updates and modifications of its id, in their order, whatever else was done between them.
-/
import Eligibility.Proofs.Catalog.Lookup
import Mathlib.Data.List.Induction

namespace Eligibility

namespace Catalog

/-! ## Requests -/

/-- A look at a catalog. -/
inductive Query where
  | size
  | isEmpty
  | ids
  | contains (id : String)
  | entry (id : String)
  | rule (id : String)
  | combine (ids : List String) (combiner : Combiner)
  | evaluate (id : String) (a : Attributes)
  | stats

/-- What is asked of a catalog: a change, or a look at it. -/
inductive Request where
  | change (call : Call)
  | look (query : Query)

/-- What a request is answered with. -/
inductive Reply where
  | done
  | entry (e : Entry)
  | found (e? : Option Entry)
  | rule (r : Rule)
  | truth (b : Bool)
  | ids (ids : List String)
  | count (n : Nat)
  | stats (s : Stats)

/-- The answer to a call, and the catalog that it makes. -/
def answer (c : Catalog) : Call → Except Fault (Reply × Catalog)
  | .create id now name text => (c.create id now name text).map fun (e, c') => (.entry e, c')
  | .update id now text => (c.update id now text).map fun (e, c') => (.entry e, c')
  | .modify id now path text => (c.modify id now path text).map fun (e, c') => (.entry e, c')
  | .delete id => (c.delete id).map fun c' => (.done, c')
  | .clear => .ok (.done, empty)

/-- What is seen in a catalog. -/
def look (c : Catalog) : Query → Except Fault Reply
  | .size => .ok (.count c.size)
  | .isEmpty => .ok (.truth c.entries.isEmpty)
  | .ids => .ok (.ids c.ids)
  | .contains id => .ok (.truth (c.contains id))
  | .entry id => .ok (.found (c.get? id))
  | .rule id => (c.rule id).map .rule
  | .combine ids combiner => (c.combine ids combiner).map .rule
  | .evaluate id a => (c.evaluate id a).map .truth
  | .stats => .ok (.stats c.stats)

/-- The answer to a request, and the catalog after it. -/
def serve (c : Catalog) : Request → Except Fault Reply × Catalog
  | .look query => (c.look query, c)
  | .change call =>
    match c.answer call with
    | .ok (reply, c') => (.ok reply, c')
    | .error e => (.error e, c)

/-- The catalog after some requests. -/
def after (c : Catalog) (qs : List Request) : Catalog := qs.foldl (fun c q => (c.serve q).2) c

/-- The changes among some requests that were granted, in order. -/
def granted (c : Catalog) : List Request → List Call
  | [] => []
  | .look _ :: qs => c.granted qs
  | .change call :: qs =>
    match c.serve (.change call) with
    | (.ok _, c') => call :: c'.granted qs
    | (.error _, c') => c'.granted qs

theorem map_answer (c : Catalog) (call : Call) : (c.answer call).map (·.2) = c.perform call := by
  cases call with
  | create id now name text => rw [answer, perform]; cases c.create id now name text <;> rfl
  | update id now text => rw [answer, perform]; cases c.update id now text <;> rfl
  | modify id now path text => rw [answer, perform]; cases c.modify id now path text <;> rfl
  | delete id => rw [answer, perform]; cases c.delete id <;> rfl
  | clear => rfl

theorem serve_of_refused {c : Catalog} {q : Request} {e : Fault} (h : (c.serve q).1 = .error e) :
    (c.serve q).2 = c := by
  cases q with
  | look query => rfl
  | change call =>
    rw [serve] at h ⊢
    cases hanswer : c.answer call with
    | ok => rw [hanswer] at h; cases h
    | error => rfl

/-- A request leaves the catalog as it was and adds nothing to what was granted, or it is a change that is
granted. -/
theorem serve_cases (c : Catalog) (q : Request) :
    ((c.serve q).2 = c ∧ c.granted [q] = []) ∨
    ∃ call, c.perform call = .ok (c.serve q).2 ∧ c.granted [q] = [call] := by
  cases q with
  | look query => exact .inl ⟨rfl, rfl⟩
  | change call =>
    cases hanswer : c.answer call with
    | error e =>
      have served : c.serve (.change call) = (.error e, c) := by rw [serve, hanswer]
      exact .inl ⟨congrArg Prod.snd served, by simp only [granted, served]⟩
    | ok answered =>
      have served : c.serve (.change call) = (.ok answered.1, answered.2) := by rw [serve, hanswer]
      refine .inr ⟨call, ?_, by simp only [granted, served]⟩
      rw [served, ← map_answer, hanswer]
      rfl

theorem granted_cons (c : Catalog) (q : Request) (qs : List Request) :
    c.granted (q :: qs) = c.granted [q] ++ (c.serve q).2.granted qs := by
  cases q with
  | look query => rfl
  | change call =>
    rw [granted, granted]
    rcases c.serve (.change call) with ⟨_ | _, c'⟩ <;> rfl

theorem granted_append (c : Catalog) (qs rs : List Request) :
    c.granted (qs ++ rs) = c.granted qs ++ (c.after qs).granted rs := by
  induction qs generalizing c with
  | nil => rfl
  | cons q qs ih =>
    rw [List.cons_append, granted_cons, granted_cons c q qs, ih, List.append_assoc]
    rfl

theorem after_append (c : Catalog) (qs : List Request) (q : Request) :
    c.after (qs ++ [q]) = ((c.after qs).serve q).2 := by
  simp [after]

end Catalog

/-! ## What a call does to an id -/

/-- The id that a call creates an entry under. -/
def Catalog.Call.created? : Call → Option String
  | .create id _ _ _ => some id
  | _ => none

/-- The id whose entry a call gives another rule. -/
def Catalog.Call.revised? : Call → Option String
  | .update id _ _ | .modify id _ _ _ => some id
  | _ => none

/-- A call that removes the entry of an id. -/
def Catalog.Call.Removes (call : Call) (id : String) : Prop := call = .delete id ∨ call = .clear

instance (call : Catalog.Call) (id : String) : Decidable (call.Removes id) := inferInstanceAs (Decidable (_ ∨ _))

/-- An entry after a call that gives it another rule. -/
def Entry.redo (e : Entry) : Catalog.Call → Except Fault Entry
  | .update _ now text => do
    let rule ← Rule.parse defaultDepthLimit text
    return e.revise text rule now
  | .modify _ now path text => do
    let part ← Rule.parse defaultDepthLimit text
    let rule ← e.rule.replace path part
    let _ ← rule.checkDepth defaultDepthLimit
    return e.revise rule.render rule now
  | _ => return e

/-- The entry that is created from a text and given other rules by those of some calls that name its id. -/
def Entry.replay (id now name text : String) (calls : List Catalog.Call) : Except Fault Entry := do
  let rule ← Rule.parse defaultDepthLimit text
  (calls.filter fun call => call.revised? = some id).foldlM redo (create id name text rule now)

namespace Catalog

variable {c c' : Catalog} {call : Call}

/-- A call that gives an entry another rule is granted just if there is the entry and it takes the rule. -/
theorem perform_revised {id : String} (h : call.revised? = some id) :
    c.perform call = .ok c' ↔ ∃ e e', c.get? id = some e ∧ e.redo call = .ok e' ∧ c' = c.put id e' := by
  cases call with
  | update _ now text =>
    cases h
    simp only [perform, map_eq_ok, Prod.exists, update_eq_ok, Entry.redo, bind_eq_ok]
    constructor
    · rintro ⟨_, _, ⟨e, rule, hget, hp, rfl, rfl⟩, rfl⟩
      exact ⟨e, _, hget, ⟨rule, hp, rfl⟩, rfl⟩
    · rintro ⟨e, _, hget, ⟨rule, hp, ⟨⟩⟩, rfl⟩
      exact ⟨_, _, ⟨e, rule, hget, hp, rfl, rfl⟩, rfl⟩
  | modify _ now path text =>
    cases h
    simp only [perform, map_eq_ok, Prod.exists, modify_eq_ok, Entry.redo, bind_eq_ok, Rule.checkDepth_eq_ok]
    constructor
    · rintro ⟨_, _, ⟨e, part, rule, hget, hp, hr, hd, rfl, rfl⟩, rfl⟩
      exact ⟨e, _, hget, ⟨part, hp, rule, hr, rule.depth, ⟨rfl, hd⟩, rfl⟩, rfl⟩
    · rintro ⟨e, _, hget, ⟨part, hp, rule, hr, _, ⟨rfl, hd⟩, ⟨⟩⟩, rfl⟩
      exact ⟨_, _, ⟨e, part, rule, hget, hp, hr, hd, rfl, rfl⟩, rfl⟩
  | _ => cases h

/-- A granted call creates an entry, gives an entry another rule, removes an entry, or removes all. -/
theorem perform_cases (h : c.perform call = .ok c') :
    (∃ id now name text rule, call = .create id now name text ∧ Rule.parse defaultDepthLimit text = .ok rule ∧
      c' = c.put id (.create id name text rule now)) ∨
    (∃ id e e', call.revised? = some id ∧ c.get? id = some e ∧ e.redo call = .ok e' ∧ c' = c.put id e') ∨
    (∃ id, call = .delete id ∧ c' = ⟨c.entries.filter (·.1 ≠ id)⟩) ∨ call = .clear ∧ c' = empty := by
  cases call with
  | create id now name text =>
    obtain ⟨⟨e, _⟩, hcreate, rfl⟩ := map_eq_ok.1 h
    obtain ⟨rule, hp, rfl, rfl⟩ := create_eq_ok.1 hcreate
    exact .inl ⟨id, now, name, text, rule, rfl, hp, rfl⟩
  | update id now text =>
    obtain ⟨e, e', hget, hredo, heq⟩ := (perform_revised rfl).1 h
    exact .inr (.inl ⟨id, e, e', rfl, hget, hredo, heq⟩)
  | modify id now path text =>
    obtain ⟨e, e', hget, hredo, heq⟩ := (perform_revised rfl).1 h
    exact .inr (.inl ⟨id, e, e', rfl, hget, hredo, heq⟩)
  | delete id => exact .inr (.inr (.inl ⟨id, rfl, (delete_eq_ok.1 h).2⟩))
  | clear =>
    cases h
    exact .inr (.inr (.inr ⟨rfl, rfl⟩))

theorem created?_of_revised {id : String} (h : call.revised? = some id) : call.created? = none := by
  cases call <;> first | rfl | cases h

theorem not_removes_of_revised {id id' : String} (h : call.revised? = some id) : ¬ call.Removes id' := by
  rintro (rfl | rfl) <;> cases h

/-- What a granted call does to the entry of an id: it creates it, removes it, gives it another rule, or leaves
it alone. -/
theorem get?_of_perform (h : c.perform call = .ok c') (id : String) :
    (∃ now name text rule, call = .create id now name text ∧ Rule.parse defaultDepthLimit text = .ok rule ∧
      c'.get? id = some (.create id name text rule now)) ∨
    (call.Removes id ∧ c'.get? id = none) ∨
    (call.revised? = some id ∧ ∃ e e', c.get? id = some e ∧ e.redo call = .ok e' ∧ c'.get? id = some e') ∨
    (call.created? ≠ some id ∧ ¬ call.Removes id ∧ call.revised? ≠ some id ∧ c'.get? id = c.get? id) := by
  rcases perform_cases h with ⟨id', now, name, text, rule, rfl, hp, rfl⟩ | ⟨id', e, e', hrevised, hget, hredo, rfl⟩ |
    ⟨id', rfl, rfl⟩ | ⟨rfl, rfl⟩
  · rw [get?_put]
    by_cases hid : id = id'
    · subst hid
      exact .inl ⟨now, name, text, rule, rfl, hp, if_pos rfl⟩
    · simp [Call.Removes, Call.created?, Call.revised?, hid, Ne.symm hid]
  · rw [get?_put]
    by_cases hid : id = id'
    · subst hid
      exact .inr (.inr (.inl ⟨hrevised, e, e', hget, hredo, if_pos rfl⟩))
    · simp [created?_of_revised hrevised, not_removes_of_revised hrevised, hrevised, hid, Ne.symm hid]
  · rw [get?_removed]
    by_cases hid : id = id'
    · subst hid
      exact .inr (.inl ⟨.inl rfl, if_pos rfl⟩)
    · simp [Call.Removes, Call.created?, Call.revised?, hid, Ne.symm hid]
  · exact .inr (.inl ⟨.inr rfl, rfl⟩)

/-! ## Entries and their histories -/

/-- A history that goes on from the last creation under an id by calls that do not remove the entry. -/
def CreatedLast (id now name text : String) (later history : List Call) : Prop :=
  ∃ earlier, history = earlier ++ .create id now name text :: later ∧
    ∀ call ∈ later, call.created? ≠ some id ∧ ¬ call.Removes id

theorem createdLast_append {id now name text : String} {later history : List Call} {call : Call} :
    CreatedLast id now name text later (history ++ [call]) ↔
      (call = .create id now name text ∧ later = []) ∨
      ∃ later', later = later' ++ [call] ∧ CreatedLast id now name text later' history ∧
        call.created? ≠ some id ∧ ¬ call.Removes id := by
  constructor
  · rintro ⟨earlier, heq, hlater⟩
    rcases List.eq_nil_or_concat later with rfl | ⟨later', last, rfl⟩
    · obtain ⟨-, ⟨⟩⟩ := List.append_inj' heq rfl
      exact .inl ⟨rfl, rfl⟩
    · rw [List.concat_eq_append, ← List.cons_append, ← List.append_assoc] at heq
      obtain ⟨hhistory, ⟨⟩⟩ := List.append_inj' heq rfl
      simp only [List.concat_eq_append, List.forall_mem_append, List.forall_mem_singleton] at hlater ⊢
      exact .inr ⟨later', rfl, ⟨earlier, hhistory, hlater.1⟩, hlater.2⟩
  · rintro (⟨rfl, rfl⟩ | ⟨later', rfl, ⟨earlier, rfl, hlater⟩, hcall⟩)
    · exact ⟨history, rfl, by rintro _ ⟨⟩⟩
    · refine ⟨earlier, by simp, ?_⟩
      simp only [List.forall_mem_append, List.forall_mem_singleton]
      exact ⟨hlater, hcall⟩

theorem replay_append {id now name text : String} {calls : List Call} (h : call.revised? = some id) :
    Entry.replay id now name text (calls ++ [call]) =
      Entry.replay id now name text calls >>= fun e => e.redo call := by
  have last : [call].filter (fun call => decide (call.revised? = some id)) = [call] := by simp [h]
  unfold Entry.replay
  rw [List.filter_append, last]
  cases Rule.parse defaultDepthLimit text with
  | error e => rfl
  | ok rule => simp [ok_bind]

theorem replay_append_of_ne {id now name text : String} {calls : List Call} (h : call.revised? ≠ some id) :
    Entry.replay id now name text (calls ++ [call]) = Entry.replay id now name text calls := by
  simp [Entry.replay, h]

/-- The catalog follows a history of granted calls at an id: an entry there is of a creation that it tells, and
what was created last and not removed since is there as the calls of the id leave it. -/
structure Follows (c : Catalog) (history : List Call) (id : String) : Prop where
  created : ∀ e, c.get? id = some e → ∃ now name text later, CreatedLast id now name text later history
  replayed : ∀ now name text later, CreatedLast id now name text later history →
    ∃ e, c.get? id = some e ∧ Entry.replay id now name text later = .ok e

section Follows

variable {history : List Call} {id : String}

theorem follows_empty (id : String) : Follows empty [] id := by
  refine ⟨by rintro _ ⟨⟩, ?_⟩
  rintro _ _ _ _ ⟨earlier, heq, -⟩
  simp at heq

theorem follows_create {now name text : String} {rule : Rule} (hp : Rule.parse defaultDepthLimit text = .ok rule)
    (hget : c'.get? id = some (.create id name text rule now)) :
    Follows c' (history ++ [.create id now name text]) id := by
  refine ⟨fun _ _ => ⟨now, name, text, [], createdLast_append.2 (.inl ⟨rfl, rfl⟩)⟩, ?_⟩
  intro _ _ _ _ hlast
  rcases createdLast_append.1 hlast with ⟨⟨⟩, rfl⟩ | ⟨_, -, -, hcreated, -⟩
  · refine ⟨_, hget, ?_⟩
    rw [Entry.replay, hp]
    rfl
  · exact absurd rfl hcreated

theorem follows_remove (h : call.Removes id) (hget : c'.get? id = none) : Follows c' (history ++ [call]) id := by
  refine ⟨by simp [hget], ?_⟩
  intro _ _ _ _ hlast
  rcases createdLast_append.1 hlast with ⟨rfl, -⟩ | ⟨_, -, -, -, hremoves⟩
  · rcases h with ⟨⟨⟩⟩ | ⟨⟨⟩⟩
  · exact absurd h hremoves

/-- A call that neither creates nor removes goes on with the history since the creation. -/
theorem Follows.append (hc : Follows c history id) (hcreated : call.created? ≠ some id) (hremoves : ¬ call.Removes id)
    (hkept : ∀ e', c'.get? id = some e' → ∃ e, c.get? id = some e)
    (hnext : ∀ e now name text later, c.get? id = some e → Entry.replay id now name text later = .ok e →
      ∃ e', c'.get? id = some e' ∧ Entry.replay id now name text (later ++ [call]) = .ok e') :
    Follows c' (history ++ [call]) id := by
  constructor
  · intro e' hget'
    obtain ⟨e, hget⟩ := hkept e' hget'
    obtain ⟨now, name, text, later, hlast⟩ := hc.created e hget
    exact ⟨now, name, text, _, createdLast_append.2 (.inr ⟨later, rfl, hlast, hcreated, hremoves⟩)⟩
  · intro now name text _ hlast
    rcases createdLast_append.1 hlast with ⟨rfl, -⟩ | ⟨later, rfl, hlast, -, -⟩
    · exact absurd rfl hcreated
    · obtain ⟨e, hget, hreplay⟩ := hc.replayed now name text later hlast
      exact hnext e now name text later hget hreplay

theorem Follows.revise (hc : Follows c history id) (h : call.revised? = some id) {e e' : Entry}
    (hget : c.get? id = some e) (hredo : e.redo call = .ok e') (hget' : c'.get? id = some e') :
    Follows c' (history ++ [call]) id := by
  refine hc.append ?_ ?_ (fun _ _ => ⟨e, hget⟩) fun e₀ now name text later hget₀ hreplay => ?_
  · simp [created?_of_revised h]
  · exact not_removes_of_revised h
  · obtain rfl : e = e₀ := Option.some.inj (hget.symm.trans hget₀)
    refine ⟨e', hget', ?_⟩
    rw [replay_append h, hreplay]
    exact hredo

theorem Follows.leave (hc : Follows c history id) (hcreated : call.created? ≠ some id) (hremoves : ¬ call.Removes id)
    (hrevised : call.revised? ≠ some id) (hget : c'.get? id = c.get? id) : Follows c' (history ++ [call]) id := by
  refine hc.append hcreated hremoves (fun e' hget' => ⟨e', hget ▸ hget'⟩) fun e now name text later hget₀ hreplay => ?_
  exact ⟨e, hget.trans hget₀, (replay_append_of_ne hrevised).trans hreplay⟩

theorem Follows.perform (hc : Follows c history id) (h : c.perform call = .ok c') :
    Follows c' (history ++ [call]) id := by
  rcases get?_of_perform h id with ⟨now, name, text, rule, rfl, hp, hget⟩ | ⟨hremoves, hget⟩ |
    ⟨hrevised, e, e', hget, hredo, hget'⟩ | ⟨hcreated, hremoves, hrevised, hget⟩
  · exact follows_create hp hget
  · exact follows_remove hremoves hget
  · exact hc.revise hrevised hget hredo hget'
  · exact hc.leave hcreated hremoves hrevised hget

end Follows

/-- After any requests the catalog follows the changes that were granted. -/
theorem follows_after (qs : List Request) (id : String) : Follows (empty.after qs) (empty.granted qs) id := by
  -- on the last request, which finds the catalog as the others have left it
  induction qs using List.reverseRecOn with
  | nil => exact follows_empty id
  | append_singleton qs q ih =>
    rw [after_append, granted_append]
    rcases serve_cases (empty.after qs) q with ⟨hserve, hgranted⟩ | ⟨call, hcall, hgranted⟩
    · rwa [hserve, hgranted, List.append_nil]
    · rw [hgranted]
      exact ih.perform hcall

/-! ## Ids and what stays of a creation -/

theorem nodup_ids_perform (hc : c.ids.Nodup) (h : c.perform call = .ok c') : c'.ids.Nodup := by
  rcases perform_cases h with ⟨_, _, _, _, _, -, -, rfl⟩ | ⟨_, _, _, -, -, -, rfl⟩ | ⟨_, -, rfl⟩ | ⟨-, rfl⟩
  · exact nodup_ids_put hc _ _
  · exact nodup_ids_put hc _ _
  · exact nodup_ids_removed hc _
  · exact List.nodup_nil

theorem nodup_ids_after (qs : List Request) : (empty.after qs).ids.Nodup := by
  induction qs using List.reverseRecOn with
  | nil => exact List.nodup_nil
  | append_singleton qs q ih =>
    rw [after_append]
    rcases serve_cases (empty.after qs) q with ⟨hserve, -⟩ | ⟨call, hcall, -⟩
    · rwa [hserve]
    · exact nodup_ids_perform ih hcall

end Catalog

/-- Another rule changes neither the id of an entry nor its name nor the time of its creation. -/
theorem Entry.redo_keeps {e e' : Entry} {call : Catalog.Call} (h : e.redo call = .ok e') :
    e'.id = e.id ∧ e'.name = e.name ∧ e'.createdAt = e.createdAt := by
  cases call with
  | update id now text =>
    obtain ⟨rule, -, ⟨⟩⟩ := bind_eq_ok.1 h
    exact ⟨rfl, rfl, rfl⟩
  | modify id now path text =>
    obtain ⟨part, -, h⟩ := bind_eq_ok.1 h
    obtain ⟨rule, -, h⟩ := bind_eq_ok.1 h
    obtain ⟨d, -, ⟨⟩⟩ := bind_eq_ok.1 h
    exact ⟨rfl, rfl, rfl⟩
  | _ =>
    cases h
    exact ⟨rfl, rfl, rfl⟩

theorem Entry.foldlM_redo_keeps {e e' : Entry} {calls : List Catalog.Call} (h : calls.foldlM redo e = .ok e') :
    e'.id = e.id ∧ e'.name = e.name ∧ e'.createdAt = e.createdAt := by
  induction calls generalizing e with
  | nil =>
    cases h
    exact ⟨rfl, rfl, rfl⟩
  | cons call calls ih =>
    rw [List.foldlM_cons] at h
    obtain ⟨e₁, hredo, h⟩ := bind_eq_ok.1 h
    obtain ⟨hid, hname, hcreatedAt⟩ := redo_keeps hredo
    obtain ⟨hid', hname', hcreatedAt'⟩ := ih h
    exact ⟨hid'.trans hid, hname'.trans hname, hcreatedAt'.trans hcreatedAt⟩

theorem Entry.replay_keeps {id now name text : String} {calls : List Catalog.Call} {e : Entry}
    (h : replay id now name text calls = .ok e) : e.id = id ∧ e.name = name ∧ e.createdAt = now := by
  obtain ⟨rule, -, h⟩ := bind_eq_ok.1 h
  exact foldlM_redo_keeps h

namespace Catalog

/-- Under an id that is used once no other creation comes after the one that is told of. -/
theorem createdLast_of_nodup {id now name text : String} {earlier later : List Call}
    (fresh : ((earlier ++ .create id now name text :: later).filterMap Call.created?).Nodup)
    (hlater : ∀ call ∈ later, ¬ call.Removes id) :
    CreatedLast id now name text later (earlier ++ .create id now name text :: later) := by
  refine ⟨earlier, rfl, fun call hcall => ⟨fun hcreated => ?_, hlater call hcall⟩⟩
  have created : (Call.create id now name text).created? = some id := rfl
  rw [List.filterMap_append, List.filterMap_cons_some created] at fresh
  have unused := (List.nodup_cons.1 (List.nodup_append.1 fresh).2.1).1
  exact unused (List.mem_filterMap.2 ⟨call, hcall, hcreated⟩)

/-- A catalog keeps a separate history for every id. A refused request changes nothing. If no id is used for two
creations, an id has an entry just if one was created and not removed since, and the ids are told each once. The
entry has the id, the name and the time of its creation, and for the rest it is what the granted updates and
modifications of its id make of the created one, whatever was done to other ids in between. -/
theorem independent_histories (qs : List Request) (fresh : ((empty.granted qs).filterMap Call.created?).Nodup) :
    (∀ q e, ((empty.after qs).serve q).1 = .error e → ((empty.after qs).serve q).2 = empty.after qs) ∧
    (∀ id, (empty.after qs).contains id = true ↔ ∃ earlier now name text later,
      empty.granted qs = earlier ++ .create id now name text :: later ∧ ∀ call ∈ later, ¬ call.Removes id) ∧
    ((empty.after qs).ids.Nodup ∧ (∀ id, id ∈ (empty.after qs).ids ↔ (empty.after qs).contains id = true) ∧
      (empty.after qs).size = (empty.after qs).ids.length) ∧
    ∀ earlier id now name text later, empty.granted qs = earlier ++ .create id now name text :: later →
      (∀ call ∈ later, ¬ call.Removes id) →
      ∃ e, (empty.after qs).get? id = some e ∧ e.id = id ∧ e.name = name ∧ e.createdAt = now ∧
        Entry.replay id now name text later = .ok e := by
  have entry : ∀ earlier id now name text later, empty.granted qs = earlier ++ .create id now name text :: later →
      (∀ call ∈ later, ¬ call.Removes id) → ∃ e, (empty.after qs).get? id = some e ∧ e.id = id ∧ e.name = name ∧
        e.createdAt = now ∧ Entry.replay id now name text later = .ok e := by
    intro earlier id now name text later heq hlater
    have last : CreatedLast id now name text later (empty.granted qs) :=
      heq ▸ createdLast_of_nodup (heq ▸ fresh) hlater
    obtain ⟨e, hget, hreplay⟩ := (follows_after qs id).replayed now name text later last
    obtain ⟨hid, hname, hcreatedAt⟩ := Entry.replay_keeps hreplay
    exact ⟨e, hget, hid, hname, hcreatedAt, hreplay⟩
  refine ⟨fun q e h => serve_of_refused h, fun id => ?_, ⟨nodup_ids_after qs, fun id => mem_ids, ?_⟩, entry⟩
  · rw [contains_iff]
    constructor
    · rintro ⟨e, hget⟩
      obtain ⟨now, name, text, later, earlier, heq, hlater⟩ := (follows_after qs id).created e hget
      exact ⟨earlier, now, name, text, later, heq, fun call hcall => (hlater call hcall).2⟩
    · rintro ⟨earlier, now, name, text, later, heq, hlater⟩
      obtain ⟨e, hget, -⟩ := entry earlier id now name text later heq hlater
      exact ⟨e, hget⟩
  · simp [size, ids]

/-- Two rules with refused calls on both, one of which is removed in the end. -/
theorem independent_histories_of_two :
    let granted : List Call := [.create "r1" "t1" "adult" "age >= 18",
      .create "r2" "t2" "sales" "dept = 'Sales' AND age > 30", .update "r1" "t3" "age >= 21",
      .modify "r2" "t4" [.right] "level = 'A' OR level = 'B'", .delete "r1"]
    let qs : List Request := [.change granted[0], .change granted[1], .look .stats,
      .change (.update "r2" "t" "age >> 30"), .change granted[2],
      .change (.modify "r2" "t" [.left, .left] "age > 40"), .change granted[3],
      .change (.create "r3" "t" "broken" "age >"), .change granted[4], .change (.delete "r1")]
    ((empty.granted qs).filterMap Call.created?).Nodup ∧ (empty.after qs).contains "r1" = false ∧
      ∃ e, (empty.after qs).get? "r2" = some e ∧ e.name = "sales" ∧ e.createdAt = "t2" ∧
        e.text = "dept = 'Sales' AND (level = 'A' OR level = 'B')" ∧ e.attributes = ["dept", "level"] := by
  intro granted qs
  have history : empty.granted qs = granted := by decide +kernel
  have fresh : ((empty.granted qs).filterMap Call.created?).Nodup := by decide +kernel
  obtain ⟨-, contains, -, entry⟩ := independent_histories qs fresh
  obtain ⟨e, hget, -, hname, hcreatedAt, hreplay⟩ := entry [granted[0]] "r2" "t2" "sales"
    "dept = 'Sales' AND age > 30" (granted.drop 2) history (by decide)
  have text : (Entry.replay "r2" "t2" "sales" "dept = 'Sales' AND age > 30" (granted.drop 2)).toOption.map
      (fun e => (e.text, e.attributes)) =
      some ("dept = 'Sales' AND (level = 'A' OR level = 'B')", ["dept", "level"]) := by decide +kernel
  rw [hreplay] at text
  obtain ⟨htext, hattributes⟩ := Prod.mk.inj (Option.some.inj text)
  have removed : (empty.after qs).contains "r1" = false := by decide +kernel
  exact ⟨fresh, removed, e, hget, hname, hcreatedAt, htext, hattributes⟩

end Catalog
end Eligibility
