import FocusRules.Proofs.Acceptance
import FocusRules.Proofs.Congruence

/-! The order of rules. Each rule is asked on its own, and the first one that handles a node decides
about it. Rules before it leave no trace, and rules behind it are not heard. -/

namespace FocusRules

variable {g : NodeGraph} {v : Fin g.size}

theorem Rule.outcome_cases (r : Rule) (predicates : Predicates) (g : NodeGraph) (v : Fin g.size) :
    r.outcome predicates g v = .handled r.isFocus ∨ r.outcome predicates g v = .unhandled := by
  unfold outcome
  split
  · exact .inl rfl
  · exact .inr rfl

def Rule.verdict (r : Rule) : Verdict := ⟨r.name, r.isFocus⟩

namespace RuleSet

/-- Whether the rule, asked on its own, handles the node. -/
def handles (m : RuleSet) (g : NodeGraph) (v : Fin g.size) (r : Rule) : Bool :=
  (r.outcome m.predicates g v).isHandled

def withRules (m : RuleSet) (rules : List Rule) : RuleSet := { m with rules }

/-- The rule stands at place `k` and handles the node, and no rule before it does. -/
structure Decides (m : RuleSet) (g : NodeGraph) (v : Fin g.size) (k : ℕ) (r : Rule) : Prop where
  place : m.rules[k]? = some r
  handles : m.handles g v r = true
  first : ∀ j < k, ∀ r', m.rules[j]? = some r' → m.handles g v r' = false

theorem handles_eq (m : RuleSet) (r : Rule) :
    m.handles g v r = r.condition.holds m.predicates g v := by
  unfold handles Rule.outcome
  cases r.condition.holds m.predicates g v <;> rfl

theorem verdict?_outcome (m : RuleSet) (r : Rule) :
    (r.outcome m.predicates g v).verdict? r.name =
      if m.handles g v r then some r.verdict else none := by
  unfold handles
  rcases r.outcome_cases m.predicates g v with h | h
  · rw [h]; rfl
  · rw [h]; rfl

theorem findSome?_eq_find? (m : RuleSet) (rules : List Rule) :
    (rules.findSome? fun r => (r.outcome m.predicates g v).verdict? r.name) =
      (rules.find? (m.handles g v)).map Rule.verdict := by
  induction rules with
  | nil => rfl
  | cons r rest ih =>
    rw [List.findSome?_cons, List.find?_cons, verdict?_outcome, ih]
    cases m.handles g v r <;> rfl

/-- The loop over the rules is a search for the first one that handles the node. -/
theorem evaluate_withRules (m : RuleSet) (rules : List Rule) :
    (m.withRules rules).evaluate g v = (rules.find? (m.handles g v)).map Rule.verdict :=
  findSome?_eq_find? m rules

theorem evaluate_eq_find? (m : RuleSet) :
    m.evaluate g v = (m.rules.find? (m.handles g v)).map Rule.verdict :=
  evaluate_withRules m m.rules

theorem exists_decides_iff {m : RuleSet} {r : Rule} :
    (∃ k, m.Decides g v k r) ↔ m.rules.find? (m.handles g v) = some r := by
  rw [List.find?_eq_some_iff_getElem]
  constructor
  · rintro ⟨k, hplace, hr, hfirst⟩
    obtain ⟨hk, hget⟩ := List.getElem?_eq_some_iff.1 hplace
    refine ⟨hr, k, hk, hget, fun j hj => ?_⟩
    have hj' : m.rules[j]? = some m.rules[j] := List.getElem?_eq_getElem _
    rw [hfirst j hj _ hj']
    rfl
  · rintro ⟨hr, k, hk, hget, hfirst⟩
    refine ⟨k, List.getElem?_eq_some_iff.2 ⟨hk, hget⟩, hr, fun j hj r' hr' => ?_⟩
    obtain ⟨_, rfl⟩ := List.getElem?_eq_some_iff.1 hr'
    simpa using hfirst j hj

theorem evaluate_eq_some_iff {m : RuleSet} {w : Verdict} :
    m.evaluate g v = some w ↔ ∃ k r, m.Decides g v k r ∧ r.verdict = w := by
  rw [evaluate_eq_find?, Option.map_eq_some_iff, exists_comm]
  simp only [← exists_decides_iff, exists_and_right]

theorem isReadable_iff {m : RuleSet} :
    m.isReadable g v = true ↔ ∃ k r, m.Decides g v k r ∧ r.isFocus = true := by
  rw [isReadable, Option.any_eq_true]
  simp only [evaluate_eq_some_iff]
  constructor
  · rintro ⟨_, ⟨k, r, hr, rfl⟩, hfocus⟩
    exact ⟨k, r, hr, hfocus⟩
  · rintro ⟨k, r, hr, hfocus⟩
    exact ⟨_, ⟨k, r, hr, rfl⟩, hfocus⟩

theorem evaluate_append (m : RuleSet) (before after : List Rule) :
    (m.withRules (before ++ after)).evaluate g v =
      ((m.withRules before).evaluate g v).or ((m.withRules after).evaluate g v) := by
  simp only [evaluate_withRules, List.find?_append, Option.map_or]

/-- Only the rules that handle the node count. -/
theorem evaluate_congr {m : RuleSet} {rules rules' : List Rule}
    (h : rules'.filter (m.handles g v) = rules.filter (m.handles g v)) :
    (m.withRules rules').evaluate g v = (m.withRules rules).evaluate g v := by
  rw [evaluate_withRules, evaluate_withRules, ← List.head?_filter, h, List.head?_filter]

/-- Behind a rule that handles the node, other rules make no difference. -/
theorem evaluate_append_cons {m : RuleSet} {r : Rule} (hr : m.handles g v r = true)
    (before after after' : List Rule) :
    (m.withRules (before ++ r :: after')).evaluate g v =
      (m.withRules (before ++ r :: after)).evaluate g v := by
  simp only [evaluate_withRules, List.find?_append, List.find?_cons, hr]

/-- A verdict is that of the first rule that handles the node, and there is none if no rule does. A
list of rules decides as its first part does, or else as its second part. Rules that do not handle
the node, and rules behind one that does, can be left out or put in. The rules of a document are
tried in the order in which it lists them. -/
theorem first_match_decides (m : RuleSet) (g : NodeGraph) (v : Fin g.size) :
    (∀ w, m.evaluate g v = some w ↔ ∃ k r, m.Decides g v k r ∧ w = ⟨r.name, r.isFocus⟩) ∧
    (m.evaluate g v = none ↔ ∀ r ∈ m.rules, m.handles g v r = false) ∧
    (m.isReadable g v = true ↔ ∃ k r, m.Decides g v k r ∧ r.isFocus = true) ∧
    (∀ before after, (m.withRules (before ++ after)).evaluate g v =
      ((m.withRules before).evaluate g v).or ((m.withRules after).evaluate g v)) ∧
    (∀ rules rules', rules'.filter (m.handles g v) = rules.filter (m.handles g v) →
      (m.withRules rules').evaluate g v = (m.withRules rules).evaluate g v) ∧
    (∀ before r after after', m.handles g v r = true →
      (m.withRules (before ++ r :: after')).evaluate g v =
        (m.withRules (before ++ r :: after)).evaluate g v) ∧
    ∀ s j, ofJson s j = .ok m → ∃ js, j.get? "rules" = some (.array js) ∧
      List.Forall₂ (Rule.ReadFrom s) js m.rules := by
  refine ⟨fun w => ?_, ?_, isReadable_iff, m.evaluate_append, fun _ _ => evaluate_congr,
    fun before r after after' hr => evaluate_append_cons hr before after after', fun s j h => ?_⟩
  · rw [evaluate_eq_some_iff]
    simp only [eq_comm, Rule.verdict]
  · rw [evaluate_eq_find?, Option.map_eq_none_iff, List.find?_eq_none]
    simp only [Bool.not_eq_true]
  · obtain ⟨js, hjs, -, hrules⟩ := (ofJson_iff_readFrom.1 h).rules
    exact ⟨js, hjs, hrules⟩

/-- Three rules of one name. The first asks for a predicate that asks for itself. -/
def namesakes : Json := .object [
  ("defines", .object []),
  ("custom_props", .object [("loop", .object [
    ("condition_type", .string "or"),
    ("condition", .array [
      .object [("prop", .string "loop"), ("operator", .string "eq"), ("value", .bool true),
        ("is_custom", .bool true)],
      .object [("prop", .string "type"), ("operator", .string "eq"),
        ("value", .string "Image")]])])]),
  ("rules", .array [
    .object [("name", .string "same"), ("isfocus", .bool true), ("check", .object [
      ("condition_type", .string "single"),
      ("condition", .object [("prop", .string "loop"), ("operator", .string "eq"),
        ("value", .bool true), ("is_custom", .bool true)])])],
    .object [("name", .string "same"), ("isfocus", .bool false), ("check", .object [
      ("condition_type", .string "single"),
      ("condition", .object [("prop", .string "loop"), ("operator", .string "ne"),
        ("value", .bool true), ("is_custom", .bool true)])])],
    .object [("name", .string "same"), ("isfocus", .bool true), ("check", .object [
      ("condition_type", .string "single"),
      ("condition", .object [("prop", .string "type"), ("operator", .string "eq"),
        ("value", .string "Button")])])]])]

def loneButton : NodeGraph := .ofRows #[
  { node := { id := 1, attributes := { type := some "Button" } } }]

theorem first_match_decides_namesakes :
    let v : Fin loneButton.size := ⟨0, by decide⟩
    ∃ m r r' r'', ofJson .strict namesakes = .ok m ∧ m.rules = [r, r', r''] ∧
      m.handles loneButton v r = false ∧ m.handles loneButton v r' = true ∧
      m.handles loneButton v r'' = true ∧
      m.evaluate loneButton v = some ⟨"same", false⟩ ∧
      (m.withRules [r', r'']).evaluate loneButton v = some ⟨"same", false⟩ ∧
      (m.withRules [r, r']).evaluate loneButton v = some ⟨"same", false⟩ ∧
      ∃ js, namesakes.get? "rules" = some (.array js) ∧
        List.Forall₂ (Rule.ReadFrom .strict) js m.rules := by
  intro v
  obtain ⟨m, r, r', r'', h, hrules, hr, hr', hr'', hname⟩ : ∃ m r r' r'',
      ofJson .strict namesakes = .ok m ∧ m.rules = [r, r', r''] ∧
        m.handles loneButton v r = false ∧ m.handles loneButton v r' = true ∧
        m.handles loneButton v r'' = true ∧ r'.verdict = ⟨"same", false⟩ :=
    ⟨_, _, _, _, rfl, rfl, by decide, by decide, by decide, rfl⟩
  obtain ⟨hsome, -, -, -, hfilter, hbehind, hload⟩ := first_match_decides m loneButton v
  have hdecides : m.Decides loneButton v 1 r' := by
    refine ⟨by rw [hrules]; rfl, hr', fun j hj q hq => ?_⟩
    obtain rfl : j = 0 := by omega
    obtain rfl : r = q := by simpa [hrules] using hq
    exact hr
  have heval : m.evaluate loneButton v = some ⟨"same", false⟩ :=
    (hsome _).2 ⟨1, r', hdecides, hname.symm⟩
  have hwith : m.withRules [r, r', r''] = m := by rw [← hrules]; rfl
  refine ⟨m, r, r', r'', h, hrules, hr, hr', hr'', heval, ?_, ?_, hload .strict namesakes h⟩
  · rw [hfilter [r, r', r''] [r', r''] (by simp [hr]), hwith, heval]
  · calc (m.withRules ([r] ++ r' :: [])).evaluate loneButton v
      _ = (m.withRules ([r] ++ r' :: [r''])).evaluate loneButton v := hbehind [r] r' _ _ hr'
      _ = m.evaluate loneButton v := by rw [List.singleton_append, hwith]
      _ = some ⟨"same", false⟩ := heval

end RuleSet

end FocusRules
