import FocusRules.Checker
import Mathlib.Data.List.Basic

/-! The life of a checker. Between calls its cells are determined by the documents offered so far:
the first of them that is accepted stays in place, and whether any was offered or refused is all
that the others leave behind. -/

namespace FocusRules.Checker

/-- The document is no JSON or has a fault. -/
def Refuses (s : Strictness) (text : String) : Prop := ∀ m, RuleSet.ofText s text ≠ .ok m

/-- The documents that the calls of a run offer, in order. -/
def offered : List Call → List String
  | [] => []
  | .init text :: rest => text :: offered rest
  | .status :: rest => offered rest
  | .ask _ _ :: rest => offered rest

/-- What a caller is told about the documents of a run, in order. -/
def returned : List Reply → List Bool
  | [] => []
  | .init done :: rest => done :: returned rest
  | .status _ :: rest => returned rest
  | .answers _ :: rest => returned rest

/-- The rule set of the first document that is accepted. -/
def accepted? (s : Strictness) (texts : List String) : Option RuleSet :=
  texts.findSome? fun text => (RuleSet.ofText s text).toOption

/-- The answers of a checker that holds this rule set or none. -/
def answersBy (g : NodeGraph) (v : Fin g.size) : Option RuleSet → Answers
  | none => ⟨false, false, false, false, true⟩
  | some m => ⟨m.isReadable g v, m.types.isRoot (g.node v), m.types.isScrollIgnored (g.node v),
      m.types.isScrollable (g.node v), m.types.isAvailable g v⟩

def stateAfter (s : Strictness) (texts : List String) : State :=
  if (accepted? s texts).isSome then .initialized
  else if texts = [] then .uninitialized else .failed

/-- The reply to a call when these documents have been offered before it. -/
def replyAfter (s : Strictness) (texts : List String) : Call → Reply
  | .init text => .init (accepted? s (texts ++ [text])).isSome
  | .status =>
    .status ⟨stateAfter s texts, (accepted? s texts).isSome, !texts.isEmpty, accepted? s texts⟩
  | .ask g v => .answers (answersBy g v (accepted? s texts))

theorem refuses_iff {s : Strictness} {text : String} :
    Refuses s text ↔ (RuleSet.ofText s text).toOption = none := by
  unfold Refuses
  cases RuleSet.ofText s text with
  | ok m => simp [Except.toOption]
  | error e => simp [Except.toOption]

theorem accepted?_concat (s : Strictness) (texts : List String) (text : String) :
    accepted? s (texts ++ [text]) = (accepted? s texts).or (RuleSet.ofText s text).toOption := by
  rw [accepted?, List.findSome?_append, List.findSome?_singleton, accepted?]

theorem accepted?_of_refused {s : Strictness} {texts : List String}
    (h : ∀ t ∈ texts, Refuses s t) : accepted? s texts = none :=
  List.findSome?_eq_none_iff.2 fun t ht => refuses_iff.1 (h t ht)

theorem accepted?_of_first {s : Strictness} {before : List String} {text : String} {m : RuleSet}
    (hbefore : ∀ t ∈ before, Refuses s t) (hread : RuleSet.ofText s text = .ok m)
    (after : List String) : accepted? s (before ++ text :: after) = some m := by
  have hnone : before.findSome? (fun t => (RuleSet.ofText s t).toOption) = none :=
    accepted?_of_refused hbefore
  rw [accepted?, List.findSome?_append, hnone, List.findSome?_cons, hread]
  rfl

section

variable {c : Checker} {text : String} {m : RuleSet}

theorem init_of_some (h : c.rules? = some m) :
    c.init text = (true, { c with isChecked := true }) := by
  simp [init, h]

theorem init_of_accepted (h : c.rules? = none) (hread : RuleSet.ofText c.strictness text = .ok m) :
    c.init text = (true, { c with isChecked := true, rules? := some m }) := by
  simp [init, install, h, hread]

theorem init_of_refused (h : c.rules? = none) (hread : Refuses c.strictness text) :
    c.init text = (false, { c with isChecked := true, hasFailed := true }) := by
  cases ht : RuleSet.ofText c.strictness text with
  | ok m => exact absurd ht (hread m)
  | error e => simp [init, install, h, ht]

/-- Once a rule set is in place, nothing changes but that a document has been offered. -/
theorem init_cases (c : Checker) (text : String) :
    (∃ m, c.rules? = some m ∧ c.init text = (true, { c with isChecked := true })) ∨
    (∃ m, c.rules? = none ∧ RuleSet.ofText c.strictness text = .ok m ∧
      c.init text = (true, { c with isChecked := true, rules? := some m })) ∨
    (c.rules? = none ∧ Refuses c.strictness text ∧
      c.init text = (false, { c with isChecked := true, hasFailed := true })) := by
  rcases Option.eq_none_or_eq_some c.rules? with h | ⟨m, h⟩
  · by_cases hread : Refuses c.strictness text
    · exact .inr (.inr ⟨h, hread, init_of_refused h hread⟩)
    · obtain ⟨m, hm⟩ : ∃ m, RuleSet.ofText c.strictness text = .ok m := by
        simpa [Refuses] using hread
      exact .inr (.inl ⟨m, h, hm, init_of_accepted h hm⟩)
  · exact .inl ⟨m, h, init_of_some h⟩

end

theorem rules?_init (c : Checker) (text : String) :
    (c.init text).2.rules? = c.rules?.or (RuleSet.ofText c.strictness text).toOption := by
  obtain ⟨m, hm, h⟩ | ⟨m, hnone, hread, h⟩ | ⟨hnone, hrefused, h⟩ := init_cases c text
  · rw [h, hm]
    rfl
  · rw [h, hnone, hread]
    rfl
  · rw [h, hnone, refuses_iff.1 hrefused]
    rfl

theorem fst_init (c : Checker) (text : String) :
    (c.init text).1 = (c.init text).2.isInitialized := by
  obtain ⟨m, hm, h⟩ | ⟨m, hnone, hread, h⟩ | ⟨hnone, hrefused, h⟩ := init_cases c text
  · simp [h, isInitialized, hm]
  · simp [h, isInitialized]
  · simp [h, isInitialized, hnone]

/-- The cells of a checker between calls, after these documents have been offered. -/
structure After (s : Strictness) (texts : List String) (c : Checker) : Prop where
  strictness : c.strictness = s
  checked : c.isChecked = !texts.isEmpty
  pending : c.pending = 0
  rules : c.rules? = accepted? s texts
  failed : c.rules? = none → c.hasFailed = !texts.isEmpty

theorem After.fresh (s : Strictness) : After s [] { strictness := s } where
  strictness := rfl
  checked := rfl
  pending := rfl
  rules := rfl
  failed _ := rfl

variable {s : Strictness} {texts : List String} {c : Checker}

theorem After.init (h : After s texts c) (text : String) :
    After s (texts ++ [text]) (c.init text).2 := by
  have hrules : (c.init text).2.rules? = accepted? s (texts ++ [text]) := by
    rw [rules?_init, h.strictness, h.rules, accepted?_concat]
  obtain ⟨m, hm, hinit⟩ | ⟨m, -, -, hinit⟩ | ⟨-, -, hinit⟩ := init_cases c text
  · rw [hinit] at hrules ⊢
    exact ⟨h.strictness, by simp, h.pending, hrules, fun hnone => nomatch hm.symm.trans hnone⟩
  · rw [hinit] at hrules ⊢
    exact ⟨h.strictness, by simp, h.pending, hrules, nofun⟩
  · rw [hinit] at hrules ⊢
    exact ⟨h.strictness, by simp, h.pending, hrules, fun _ => by simp⟩

theorem After.run (h : After s texts c) (calls : List Call) :
    After s (texts ++ offered calls) (c.run calls).2 := by
  induction calls generalizing texts c with
  | nil => simpa [Checker.run, offered] using h
  | cons call rest ih =>
    cases call with
    | init text => simpa [Checker.run, perform, offered] using ih (h.init text)
    | status => exact ih h
    | ask g v => exact ih h

theorem returned_run_init (c : Checker) (text : String) (rest : List Call) :
    returned (c.run (.init text :: rest)).1 =
      (c.init text).1 :: returned ((c.init text).2.run rest).1 := rfl

theorem After.fst_init (h : After s texts c) (text : String) :
    (c.init text).1 = (accepted? s (texts ++ [text])).isSome := by
  rw [Checker.fst_init, isInitialized, (h.init text).rules]

/-- Each document is said to be in place or not as it and the documents before it decide. -/
theorem After.returned_eq (h : After s texts c) (calls : List Call) :
    returned (c.run calls).1 = (List.range (offered calls).length).map fun k =>
      (accepted? s (texts ++ (offered calls).take (k + 1))).isSome := by
  induction calls generalizing texts c with
  | nil => rfl
  | cons call rest ih =>
    cases call with
    | init text =>
      rw [returned_run_init, h.fst_init, ih (h.init text)]
      simp [offered, List.range_succ_eq_map, Function.comp_def]
    | status => exact ih h
    | ask g v => exact ih h

theorem returned_of_refused (h : After s [] c) {calls : List Call}
    (hrefused : ∀ t ∈ offered calls, Refuses s t) :
    returned (c.run calls).1 = List.replicate (offered calls).length false := by
  have hall : ∀ k, (accepted? s ([] ++ (offered calls).take (k + 1))).isSome = false := by
    intro k
    rw [List.nil_append, accepted?_of_refused fun t ht => hrefused t (List.mem_of_mem_take ht)]
    rfl
  simp only [h.returned_eq, hall, List.map_const', List.length_range]

theorem returned_of_accepted (h : After s [] c) {calls : List Call} {before : List String}
    {text : String} {after : List String} {m : RuleSet}
    (hcalls : offered calls = before ++ text :: after) (hbefore : ∀ t ∈ before, Refuses s t)
    (hread : RuleSet.ofText s text = .ok m) :
    returned (c.run calls).1 =
      List.replicate before.length false ++ List.replicate (after.length + 1) true := by
  have hfalse : ∀ k ∈ List.range before.length,
      (accepted? s ((before ++ text :: after).take (k + 1))).isSome = false := by
    intro k hk
    rw [List.take_append_of_le_length (List.mem_range.1 hk),
      accepted?_of_refused fun t ht => hbefore t (List.mem_of_mem_take ht)]
    rfl
  have htrue : ∀ k,
      (accepted? s ((before ++ text :: after).take (before.length + k + 1))).isSome = true := by
    intro k
    rw [Nat.add_assoc, List.take_length_add_append, List.take_succ_cons,
      accepted?_of_first hbefore hread]
    rfl
  rw [h.returned_eq, hcalls, List.length_append, List.range_add, List.map_append, List.map_map]
  simp only [List.nil_append, Function.comp_def, htrue, List.map_congr_left hfalse,
    List.map_const', List.length_range, List.length_cons]

/-- Each reply of a run is the one that the checker gives as the calls before have left it. -/
theorem getElem?_run (c : Checker) (before : List Call) (call : Call) (after : List Call) :
    (c.run (before ++ call :: after)).1[before.length]? =
      some ((c.run before).2.perform call).1 := by
  induction before generalizing c with
  | nil => rfl
  | cons first before ih => exact ih (c.perform first).2

theorem answers_eq (c : Checker) (g : NodeGraph) (v : Fin g.size) :
    c.answers g v = answersBy g v c.rules? := by
  cases h : c.rules? with
  | none => simp [answersBy, answers, isReadable, isRoot, isScrollIgnored, isScrollable,
      isAvailable, h]
  | some m => simp [answersBy, answers, isReadable, isRoot, isScrollIgnored, isScrollable,
      isAvailable, h]

/-- A checker is never caught trying a document between calls. -/
theorem After.state_eq (h : After s texts c) : c.state = stateAfter s texts := by
  have hp : ¬0 < c.pending := by rw [h.pending]; omega
  rw [state, if_neg hp, isInitialized, stateAfter, ← h.rules]
  cases hc : c.rules? with
  | some m => rfl
  | none =>
    rw [h.failed hc]
    cases texts <;> rfl

theorem After.reply_eq (h : After s texts c) (call : Call) :
    (c.perform call).1 = replyAfter s texts call := by
  cases call with
  | init text =>
    rw [perform, replyAfter, h.fst_init]
  | status =>
    rw [perform, replyAfter, status, h.state_eq, isInitialized, h.checked, h.rules]
  | ask g v => rw [perform, replyAfter, answers_eq, h.rules]

structure IsEmpty (c : Checker) : Prop where
  rules : c.rules? = none
  initialized : c.isInitialized = false
  answers : ∀ (g : NodeGraph) (v : Fin g.size), c.answers g v = answersBy g v none

structure HoldsRules (c : Checker) (m : RuleSet) : Prop where
  rules : c.rules? = some m
  initialized : c.isInitialized = true
  answers : ∀ (g : NodeGraph) (v : Fin g.size), c.answers g v = answersBy g v (some m)

theorem isEmpty_of_none (h : c.rules? = none) : c.IsEmpty where
  rules := h
  initialized := by rw [isInitialized, h]; rfl
  answers g v := h ▸ c.answers_eq g v

theorem holdsRules_of_some {m : RuleSet} (h : c.rules? = some m) : c.HoldsRules m where
  rules := h
  initialized := by rw [isInitialized, h]; rfl
  answers g v := h ▸ c.answers_eq g v

/-- Any run of calls on a fresh checker. While no document has been accepted the checker is empty,
and every document offered was refused. From the first document that is accepted, its rule set is in
place, whatever is offered afterwards. The reply to each call is settled by the documents offered
before it. -/
theorem run_life_cycle (s : Strictness) (calls : List Call) :
    let texts := offered calls
    let replies := (run { strictness := s } calls).1
    let c := (run { strictness := s } calls).2
    (c.isChecked = true ↔ 1 ≤ texts.length) ∧ c.state ≠ .initializing ∧
      ((∀ text ∈ texts, Refuses s text) →
        c.IsEmpty ∧ c.state = (if texts = [] then .uninitialized else .failed) ∧
          returned replies = List.replicate texts.length false) ∧
      (∀ before text after m, texts = before ++ text :: after → (∀ t ∈ before, Refuses s t) →
        RuleSet.ofText s text = .ok m →
          c.HoldsRules m ∧ c.state = .initialized ∧ returned replies =
            List.replicate before.length false ++ List.replicate (after.length + 1) true) ∧
      ∀ before call after, calls = before ++ call :: after →
        replies[before.length]? = some (replyAfter s (offered before) call) := by
  intro texts replies c
  have h : After s texts c := (After.fresh s).run calls
  refine ⟨?_, ?_, fun hrefused => ?_, fun before text after m htexts hbefore hread => ?_, ?_⟩
  · rw [h.checked, Bool.not_eq_true', List.isEmpty_eq_false_iff, Nat.one_le_iff_ne_zero, Ne, Ne,
      List.length_eq_zero_iff]
  · rw [h.state_eq, stateAfter]
    split
    · decide
    · split <;> decide
  · have hnone : accepted? s texts = none := accepted?_of_refused hrefused
    refine ⟨isEmpty_of_none (h.rules.trans hnone), ?_, returned_of_refused (After.fresh s) hrefused⟩
    rw [h.state_eq, stateAfter, hnone]
    rfl
  · have hsome : accepted? s texts = some m := htexts ▸ accepted?_of_first hbefore hread after
    refine ⟨holdsRules_of_some (h.rules.trans hsome), ?_,
      returned_of_accepted (After.fresh s) htexts hbefore hread⟩
    rw [h.state_eq, stateAfter, hsome]
    rfl
  · rintro before call after rfl
    have hbefore := (After.fresh s).run before
    rw [getElem?_run, hbefore.reply_eq, List.nil_append]

def buttonsText : String :=
  "\x7b\"defines\":\x7b\x7d,\"rules\":[\x7b\"name\":\"buttons\",\"isfocus\":true,\"check\":\x7b" ++
  "\"condition_type\":\"single\",\"condition\":\x7b\"prop\":\"type\",\"operator\":\"eq\"," ++
  "\"value\":\"Button\"\x7d\x7d\x7d]\x7d"

/-- A text that is no JSON, then a document, then a text that would not be a document. -/
theorem run_life_cycle_retry :
    let calls : List Call := [.init "[", .init buttonsText, .status, .init "[]"]
    let replies := (run {} calls).1
    let c := (run {} calls).2
    Refuses .lenient "[" ∧ Refuses .lenient "[]" ∧ c.state = .initialized ∧
      returned replies = [false, true, true] ∧
      ∃ m, RuleSet.ofText .lenient buttonsText = .ok m ∧ c.rules? = some m ∧
        replies[2]? = some (.status ⟨.initialized, true, true, some m⟩) := by
  intro calls replies c
  have hopen : Refuses .lenient "[" := nofun
  have hlist : Refuses .lenient "[]" := nofun
  obtain ⟨m, hm⟩ : ∃ m, RuleSet.ofText .lenient buttonsText = .ok m := by
    have hok : (RuleSet.ofText .lenient buttonsText).toOption.isSome = true := by decide +kernel
    cases hread : RuleSet.ofText .lenient buttonsText with
    | ok m => exact ⟨m, rfl⟩
    | error e => rw [hread] at hok; cases hok
  obtain ⟨-, -, -, hlife, hreply⟩ := run_life_cycle .lenient calls
  have hbefore : ∀ t ∈ ["["], Refuses .lenient t := List.forall_mem_singleton.2 hopen
  obtain ⟨hholds, hstate, hreturned⟩ := hlife ["["] buttonsText ["[]"] m rfl hbefore hm
  have hfirst : accepted? .lenient ["[", buttonsText] = some m := accepted?_of_first hbefore hm []
  have hstatus : replies[2]? = some (replyAfter .lenient ["[", buttonsText] .status) :=
    hreply [.init "[", .init buttonsText] .status [.init "[]"] rfl
  rw [replyAfter, stateAfter, hfirst] at hstatus
  exact ⟨hopen, hlist, hstate, hreturned, m, hm, hholds.rules, hstatus⟩

end FocusRules.Checker
