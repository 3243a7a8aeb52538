/-
Commands whose output is the input of others. A rule that is printed as JSON, of text or of a combination, is
taken back as a tree by the commands that evaluate and print it: the text of an object never names a file, and
the one limit of the settings admits on the way back whatever it admitted on the way out.
-/
import Eligibility.Command.Run
import Eligibility.Proofs.Engine.Limit
import Eligibility.Proofs.Rule.Origin

namespace Eligibility

namespace Command

/-! ## The text of a tree -/

/-- The JSON text of a rule, as a command prints it. -/
def written (pretty : Bool) (r : Rule) : String := if pretty then r.toJson.pretty else r.toJson.compact

theorem printRule_eq (pretty : Bool) (r : Rule) : printRule pretty r = .text (written pretty r) := rfl

theorem written_eq (pretty : Bool) (r : Rule) :
    ∃ write ∈ [Json.compact, Json.pretty], written pretty r = write r.toJson := by
  cases pretty
  · exact ⟨Json.compact, by simp, rfl⟩
  · exact ⟨Json.pretty, by simp, rfl⟩

/-- A tree is an object, so its text starts with a brace and names no file. -/
theorem filePath?_written (pretty : Bool) (r : Rule) : filePath? (written pretty r) = none := by
  have brace : ∃ cs, (written pretty r).toList = '\x7b' :: cs := by
    cases r <;> cases pretty <;> exact ⟨_, String.toList_ofList⟩
  obtain ⟨cs, hcs⟩ := brace
  simp [filePath?, hcs]

variable {settings : EngineSettings} {file? : String → Option String}

/-! ## What the commands do with a tree -/

/-- The output of an evaluation of a rule on the attributes of an argument. -/
def evaluation (settings : EngineSettings) (file? : String → Option String) (argument : String) (trace : Bool)
    (r : Rule) : Except Failure Output := do
  let a ← remarked "属性集合解析失败" (Attributes.ofJson (← content file? argument))
  if trace || settings.trace then return .explanation (← plain (r.explain true a))
  else return .text (toString (← plain (r.verdict a)))

theorem run_evaluate (source : Source) (argument : String) (trace : Bool) :
    run settings file? (.evaluate source argument trace) =
      readSource settings file? source >>= evaluation settings file? argument trace := rfl

theorem run_parse_eq_ok {rule : String} {pretty : Bool} {out : Output} :
    run settings file? (.parse rule pretty) = .ok out ↔ ∃ r, Rule.parse settings.maxDepth rule = .ok r ∧
      out = .text (written pretty r) := by
  simp only [run, plain, bind_eq_ok, mapError_eq_ok, printRule_eq]
  simp [pure, Except.pure, eq_comm]

theorem run_combine_eq_ok {rules : List String} {policy? : Option String} {dedup pretty : Bool} {out : Output} :
    run settings file? (.combine rules policy? dedup pretty) = .ok out ↔
      ∃ k r, readPolicy (policy?.getD settings.defaultPolicy) = .ok k ∧
        Combiner.combine ⟨k, dedup || settings.dedup, settings.maxDepth⟩ rules = .ok r ∧
        out = .text (written pretty r) := by
  simp only [run, plain, remarked, bind_eq_ok, mapError_eq_ok, printRule_eq]
  simp [pure, Except.pure, eq_comm]

section Tree

variable {r : Rule} (wellFormed : r.WellFormed) (within : r.depth ≤ settings.maxDepth)
include wellFormed within

theorem readTree_written (pretty : Bool) : readTree settings file? (written pretty r) = .ok r := by
  obtain ⟨write, hwrite, hw⟩ := written_eq pretty r
  -- the argument is taken as the text itself, whatever files there are
  have content : content file? (written pretty r) = .ok (written pretty r) := by
    rw [Command.content, filePath?_written]
  rw [readTree, content, ok_bind, hw, Rule.ofJson, Rule.ofJsonText_written wellFormed hwrite, ok_bind,
    Rule.checkDepth_eq_ok.2 ⟨rfl, within⟩]
  rfl

theorem run_evaluate_written (pretty : Bool) (argument : String) (trace : Bool) :
    run settings file? (.evaluate (.tree (written pretty r)) argument trace) =
      evaluation settings file? argument trace r := by
  rw [run_evaluate, readSource, readTree_written wellFormed within, ok_bind]

theorem run_render_written (pretty : Bool) :
    run settings file? (.render (written pretty r)) = .ok (.text r.render) := by
  rw [run, readTree_written wellFormed within, ok_bind]
  rfl

theorem run_parse_render (pretty : Bool) :
    run settings file? (.parse r.render pretty) = .ok (.text (written pretty r)) :=
  run_parse_eq_ok.2 ⟨r, Rule.parse_render wellFormed within, rfl⟩

end Tree

/-! ## Commands in turn -/

/-- A tree that a command printed is evaluated as the rule that it was printed for, be it the rule of a text or
the combination of several, and the text that it is rendered as is parsed to the same tree again. -/
theorem outputs_feed (settings : EngineSettings) (positive : 0 < settings.maxDepth)
    (file? : String → Option String) (pretty : Bool) :
    (∀ rule out, run settings file? (.parse rule pretty) = .ok out → ∃ json text, out = .text json ∧
      (∀ argument trace, run settings file? (.evaluate (.tree json) argument trace) =
        run settings file? (.evaluate (.text rule) argument trace)) ∧
      run settings file? (.render json) = .ok (.text text) ∧
      run settings file? (.parse text pretty) = .ok (.text json)) ∧
    ∀ rules policy? dedup out, run settings file? (.combine rules policy? dedup pretty) = .ok out →
      ∃ json text k r, out = .text json ∧ readPolicy (policy?.getD settings.defaultPolicy) = .ok k ∧
        Combiner.combine ⟨k, dedup || settings.dedup, settings.maxDepth⟩ rules = .ok r ∧
        (∀ argument trace, run settings file? (.evaluate (.tree json) argument trace) =
          evaluation settings file? argument trace r) ∧
        run settings file? (.render json) = .ok (.text text) ∧
        run settings file? (.parse text pretty) = .ok (.text json) := by
  constructor
  · intro rule out h
    obtain ⟨r, hr, rfl⟩ := run_parse_eq_ok.1 h
    have wellFormed := Rule.wellFormed_of_parse hr
    have within := Rule.depth_le_of_parse hr positive
    refine ⟨written pretty r, r.render, rfl, fun argument trace => ?_, run_render_written wellFormed within pretty,
      run_parse_render wellFormed within pretty⟩
    rw [run_evaluate_written wellFormed within, run_evaluate, readSource, plain, hr]
    rfl
  · intro rules policy? dedup out h
    obtain ⟨k, r, hk, hr, rfl⟩ := run_combine_eq_ok.1 h
    have wellFormed := Combiner.wellFormed_of_combine hr
    have within : r.depth ≤ settings.maxDepth := Combiner.depth_le_of_combine hr
    exact ⟨written pretty r, r.render, k, r, rfl, hk, hr, run_evaluate_written wellFormed within pretty,
      run_render_written wellFormed within pretty, run_parse_render wellFormed within pretty⟩

/-- A rule with parentheses, and two rules under the policy of the settings, at the limit that just admits them. -/
theorem outputs_feed_at_limit :
    let settings : EngineSettings := ⟨" Or ", false, false, 3⟩
    let file? : String → Option String := fun _ => none
    let rule := "age >= 18 AND (dept = 'HR' OR level != -0.5)"
    0 < settings.maxDepth ∧
    (∃ json text, run settings file? (.parse rule true) = .ok (.text json) ∧
      (∀ argument trace, run settings file? (.evaluate (.tree json) argument trace) =
        run settings file? (.evaluate (.text rule) argument trace)) ∧
      run settings file? (.render json) = .ok (.text text) ∧
      run settings file? (.parse text true) = .ok (.text json)) ∧
    ∃ json text r, run settings file? (.combine ["a = 1 AND b = 2", "c < 3"] none true true) = .ok (.text json) ∧
      Combiner.combine ⟨.or, true, 3⟩ ["a = 1 AND b = 2", "c < 3"] = .ok r ∧
      (∀ argument trace, run settings file? (.evaluate (.tree json) argument trace) =
        evaluation settings file? argument trace r) ∧
      run settings file? (.render json) = .ok (.text text) ∧
      run settings file? (.parse text true) = .ok (.text json) := by
  intro settings file? rule
  have positive : 0 < settings.maxDepth := by decide
  have parsed : ∃ r, Rule.parse 3 rule = .ok r := exists_eq_ok (by decide +kernel)
  have combined : ∃ r, Combiner.combine ⟨.or, true, 3⟩ ["a = 1 AND b = 2", "c < 3"] = .ok r :=
    exists_eq_ok (by decide +kernel)
  have policy : readPolicy " Or " = .ok .or := by
    have : Connective.ofPolicy? " Or " = some .or := by decide +kernel
    rw [readPolicy, this]
  refine ⟨positive, ?_, ?_⟩
  · obtain ⟨r, hr⟩ := parsed
    have printed : run settings file? (.parse rule true) = .ok (.text (written true r)) :=
      run_parse_eq_ok.2 ⟨r, hr, rfl⟩
    obtain ⟨json, text, hjson, feeds⟩ := (outputs_feed settings positive file? true).1 rule _ printed
    exact ⟨json, text, hjson ▸ printed, feeds⟩
  · obtain ⟨r, hr⟩ := combined
    have printed : run settings file? (.combine ["a = 1 AND b = 2", "c < 3"] none true true) =
        .ok (.text (written true r)) := run_combine_eq_ok.2 ⟨.or, r, policy, hr, rfl⟩
    obtain ⟨json, text, k, r', hjson, hk, hr', feeds⟩ :=
      (outputs_feed settings positive file? true).2 _ none true _ printed
    obtain rfl : .or = k := Except.ok.inj (policy.symm.trans hk)
    exact ⟨json, text, r', hjson ▸ printed, hr', feeds⟩

end Command
end Eligibility
