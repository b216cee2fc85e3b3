import FocusRules.Proofs.Indirection
import FocusRules.Proofs.Rearrangement

/-! How deep evaluations nest. A call evaluates a condition, an item, or what an item wants of one
node, in a context that lists the open questions and counts them. It makes further calls, and one
that follows an item into a definition opens a question first, if the guards let it. So the open
questions are different ones about defined predicates, and are never more than 32 or than there are
such questions. With every call either a question is opened or less of the condition remains, so
all calls return, and what they return is what evaluation says. -/

namespace FocusRules

/-- The open questions, the last one first, and how many they are said to be. -/
structure Context where
  opened : List Question
  depth : ℕ

namespace Context

def initial : Context := ⟨[], 0⟩

def enter (ctx : Context) (q : Question) : Context := ⟨q :: ctx.opened, ctx.depth + 1⟩

/-- Looks for the name and the id from the last question on outwards. -/
def isAmong (name : String) (id : NodeId) : List Question → Bool
  | [] => false
  | q :: outer => if q.id = id ∧ q.name = name then true else isAmong name id outer

def isOpen (ctx : Context) (name : String) (id : NodeId) : Bool := isAmong name id ctx.opened

variable {ctx : Context} {name : String} {id : NodeId} {q : Question}

@[simp] theorem opened_enter : (ctx.enter q).opened = q :: ctx.opened := rfl

@[simp] theorem depth_enter : (ctx.enter q).depth = ctx.depth + 1 := rfl

theorem isAmong_iff {opened : List Question} :
    isAmong name id opened = true ↔ ⟨name, id⟩ ∈ opened := by
  induction opened with
  | nil => simp [isAmong]
  | cons q outer ih =>
    rw [isAmong, List.mem_cons]
    by_cases h : q.id = id ∧ q.name = name
    · obtain ⟨rfl, rfl⟩ := h
      simp
    · have hne : (⟨name, id⟩ : Question) ≠ q := by rintro rfl; exact h ⟨rfl, rfl⟩
      rw [if_neg h, ih, or_iff_right hne]

theorem isOpen_iff : ctx.isOpen name id = true ↔ ⟨name, id⟩ ∈ ctx.opened := isAmong_iff

theorem isOpen_eq_false_iff : ctx.isOpen name id = false ↔ ⟨name, id⟩ ∉ ctx.opened := by
  rw [← isOpen_iff, Bool.not_eq_true]

end Context

/-- How much of a condition there is to go through. -/
noncomputable def Judgement.remaining {g : NodeGraph} : Judgement g → ℕ
  | .condition c _ => sizeOf c + 1
  | .item _ _ => 1
  | .target _ _ => 0

structure Call (g : NodeGraph) where
  context : Context
  judgement : Judgement g

namespace Call

variable {g : NodeGraph}

def start (c : Condition) (v : Fin g.size) : Call g := ⟨.initial, .condition c v⟩

/-- The calls that a call may make. Which of them it does make depends on whether an earlier one has
decided. -/
inductive Makes (predicates : Predicates) : Call g → Call g → Prop
  | single {ctx : Context} {item : Item} {v : Fin g.size} :
      Makes predicates ⟨ctx, .condition (.flat .single [item]) v⟩ ⟨ctx, .item item v⟩
  | item {ctx : Context} {mode : Mode} {items : List Item} {item : Item} {v : Fin g.size} :
      mode.Joins → item ∈ items →
      Makes predicates ⟨ctx, .condition (.flat mode items) v⟩ ⟨ctx, .item item v⟩
  | part {ctx : Context} {mode : Mode} {parts : List Condition} {c : Condition} {v : Fin g.size} :
      mode.Joins → c ∈ parts →
      Makes predicates ⟨ctx, .condition (.combined mode parts) v⟩ ⟨ctx, .condition c v⟩
  | target {ctx : Context} {item : Item} {v t : Fin g.size} :
      t ∈ item.targets g v → Makes predicates ⟨ctx, .item item v⟩ ⟨ctx, .target item t⟩
  | definition {ctx : Context} {item : Item} {name : String} {c : Condition} {t : Fin g.size} :
      item.subject = .predicate name → item.Admissible → ctx.depth < questionLimit →
      ctx.isOpen name (g.id t) = false → predicates.find? name = some c →
      Makes predicates ⟨ctx, .target item t⟩ ⟨ctx.enter ⟨name, g.id t⟩, .condition c t⟩

/-- How many more questions may be opened, and how much of the condition remains. -/
noncomputable def budget (call : Call g) : ℕ × ℕ :=
  (questionLimit - call.context.depth, call.judgement.remaining)

variable {predicates : Predicates} {call call' : Call g}

/-- Every call leaves less to do: it opens a question or is about less of the condition. -/
theorem Makes.budget_lt (h : Makes predicates call call') :
    Prod.Lex (· < ·) (· < ·) call'.budget call.budget := by
  cases h with
  | single => exact .right _ (by simp [Judgement.remaining])
  | item => exact .right _ (by simp [Judgement.remaining])
  | @part _ mode parts c v _ hc =>
    have hsize : sizeOf c < sizeOf (Condition.combined mode parts) := by
      have hlist := List.sizeOf_lt_of_mem hc
      rw [Condition.combined.sizeOf_spec]
      omega
    exact .right _ (Nat.succ_lt_succ hsize)
  | target => exact .right _ (by simp [Judgement.remaining])
  | definition _ _ hdepth =>
    have hless : questionLimit - (_ + 1) < questionLimit - _ := Nat.sub_succ_lt_self _ _ hdepth
    exact .left _ _ hless

theorem makes_wf (predicates : Predicates) :
    WellFounded fun call' call : Call g => Makes predicates call call' :=
  Subrelation.wf (fun h => h.budget_lt)
    (InvImage.wf budget (Prod.lex ⟨_, wellFounded_lt⟩ ⟨_, wellFounded_lt⟩).wf)

end Call

/-- The answer to a question that a call puts, where `run` says what further calls return. -/
def Context.ask {g : NodeGraph} (predicates : Predicates) (run : Call g → Bool) (ctx : Context)
    (name : String) (t : Fin g.size) : Option Bool :=
  if ctx.depth < questionLimit ∧ ctx.isOpen name (g.id t) = false then
    (predicates.find? name).map fun c => run ⟨ctx.enter ⟨name, g.id t⟩, .condition c t⟩
  else none

/-- What an item wants of a node depends on the call into the definition only, if there is one. -/
theorem Item.holdsAt_ask_congr {g : NodeGraph} {predicates : Predicates} {ctx : Context}
    {run run' : Call g → Bool} {t : Fin g.size} (item : Item)
    (h : ∀ call, Call.Makes predicates ⟨ctx, .target item t⟩ call → run call = run' call) :
    item.holdsAt g (ctx.ask predicates run) t = item.holdsAt g (ctx.ask predicates run') t := by
  refine holdsAt_congr fun name hs ha => ?_
  rw [Context.ask, Context.ask]
  split
  next hguards =>
    exact Option.map_congr fun c hc => h _ (.definition hs ha hguards.1 hguards.2 hc)
  next => rfl

namespace Call

variable {g : NodeGraph} {predicates : Predicates}

/-- What a call returns, where `run` says what further calls return. -/
def outcome (predicates : Predicates) (run : Call g → Bool) : Call g → Bool
  | ⟨ctx, .condition (.flat mode items) v⟩ =>
    (Condition.flat mode items).holdsBy fun item => run ⟨ctx, .item item v⟩
  | ⟨ctx, .condition (.combined mode parts) v⟩ =>
    mode.join (parts.map fun c => run ⟨ctx, .condition c v⟩)
  | ⟨ctx, .item item v⟩ => (item.targets g v).any fun t => run ⟨ctx, .target item t⟩
  | ⟨ctx, .target item t⟩ => item.holdsAt g (ctx.ask predicates run) t

/-- A call returns once all calls that it may make have returned. -/
inductive Returns (predicates : Predicates) : Call g → Bool → Prop
  | of_makes {call : Call g} (run : Call g → Bool) :
      (∀ call', Makes predicates call call' → Returns predicates call' (run call')) →
      Returns predicates call (call.outcome predicates run)

/-- Nothing counts but what the calls return that a call may make. -/
theorem outcome_congr {call : Call g} {run run' : Call g → Bool}
    (h : ∀ call', Makes predicates call call' → run call' = run' call') :
    call.outcome predicates run = call.outcome predicates run' := by
  obtain ⟨ctx, judgement⟩ := call
  cases judgement with
  | condition c v =>
    cases c with
    | flat mode items =>
      have hitem : ∀ item ∈ (Condition.flat mode items).atoms, mode.Joins →
          run ⟨ctx, .item item v⟩ = run' ⟨ctx, .item item v⟩ :=
        fun item hi hmode => h _ (.item hmode (by simpa using hi))
      cases mode with
      | unknown => rfl
      | single =>
        match items with
        | [] => rfl
        | [item] => exact h _ .single
        | _ :: _ :: _ => rfl
      | and => exact Condition.holdsBy_congr fun item hi => hitem item hi (.inl rfl)
      | or => exact Condition.holdsBy_congr fun item hi => hitem item hi (.inr rfl)
    | combined mode parts =>
      have hparts : mode.Joins → (parts.map fun c => run ⟨ctx, .condition c v⟩) =
          parts.map fun c => run' ⟨ctx, .condition c v⟩ :=
        fun hmode => List.map_congr_left fun c hc => h _ (.part hmode hc)
      cases mode with
      | unknown => rfl
      | single => rfl
      | and => exact congrArg Mode.and.join (hparts (.inl rfl))
      | or => exact congrArg Mode.or.join (hparts (.inr rfl))
  | item item v =>
    refine any_eq_of_forall₂ (List.forall₂_same.2 fun t ht => ?_) fun _ _ => id
    exact h _ (.target ht)
  | target item t => exact item.holdsAt_ask_congr h

end Call

def Context.answers (predicates : Predicates) (g : NodeGraph) (ctx : Context) :
    String → Fin g.size → Option Bool :=
  answer predicates g (questionLimit - ctx.depth) ctx.opened

namespace Call

variable {g : NodeGraph} {predicates : Predicates}

/-- What evaluation says of a call, in the context of the call. -/
def holds (predicates : Predicates) : Call g → Bool
  | ⟨ctx, .condition c v⟩ => c.holdsBy (Item.holdsWith g (ctx.answers predicates g) v)
  | ⟨ctx, .item item v⟩ => item.holdsWith g (ctx.answers predicates g) v
  | ⟨ctx, .target item t⟩ => item.holdsAt g (ctx.answers predicates g) t

theorem ask_holds (ctx : Context) (name : String) (t : Fin g.size) :
    ctx.ask predicates (holds predicates) name t = ctx.answers predicates g name t := by
  rw [Context.ask, Context.answers]
  by_cases hdepth : ctx.depth < questionLimit
  · have hleft : questionLimit - ctx.depth = questionLimit - (ctx.depth + 1) + 1 := by omega
    rw [hleft, answer]
    by_cases hopen : ⟨name, g.id t⟩ ∈ ctx.opened
    · rw [if_pos hopen, if_neg fun h => Context.isOpen_eq_false_iff.1 h.2 hopen]
    · rw [if_neg hopen, if_pos ⟨hdepth, Context.isOpen_eq_false_iff.2 hopen⟩]
      rfl
  · rw [if_neg fun h => hdepth h.1, Nat.sub_eq_zero_of_le (Nat.le_of_not_lt hdepth), answer]

/-- Evaluation says of a call what it has to say by what it says of further calls. -/
theorem outcome_holds (call : Call g) :
    call.outcome predicates (holds predicates) = call.holds predicates := by
  obtain ⟨ctx, judgement⟩ := call
  cases judgement with
  | condition c v =>
    cases c with
    | flat mode items => rfl
    | combined mode parts => exact (Condition.holdsBy_combined parts).symm
  | item item v => rfl
  | target item t =>
    rw [outcome, funext₂ (ask_holds ctx)]
    rfl

/-- No evaluation goes on for ever, whatever questions are open. -/
theorem returns_holds (call : Call g) : call.Returns predicates (call.holds predicates) := by
  -- on the calls, as each leaves less to do
  induction call using (makes_wf predicates).induction with
  | h call ih => exact call.outcome_holds ▸ .of_makes (holds predicates) ih

theorem Returns.eq_holds {call : Call g} {b : Bool} (h : call.Returns predicates b) :
    call.holds predicates = b := by
  induction h with
  | @of_makes call run _ ih =>
    calc
      call.holds predicates = call.outcome predicates (holds predicates) := call.outcome_holds.symm
      _ = call.outcome predicates run := outcome_congr ih

theorem returns_iff {call : Call g} {b : Bool} :
    call.Returns predicates b ↔ call.holds predicates = b :=
  ⟨Returns.eq_holds, fun h => h ▸ call.returns_holds⟩

end Call

/-- The open questions are as many as the context says and no more than allowed, they are different,
and they are about defined predicates and nodes of the graph. -/
structure Context.Sound (predicates : Predicates) (g : NodeGraph) (ctx : Context) : Prop where
  depth_eq : ctx.depth = ctx.opened.length
  depth_le : ctx.depth ≤ questionLimit
  nodup : ctx.opened.Nodup
  defined : ∀ q ∈ ctx.opened, (predicates.find? q.name).isSome
  placed : ∀ q ∈ ctx.opened, q.id ∈ g.ids

namespace Context.Sound

variable {predicates : Predicates} {g : NodeGraph} {ctx : Context}

theorem initial : Context.initial.Sound predicates g :=
  ⟨rfl, Nat.zero_le _, .nil, List.forall_mem_nil _, List.forall_mem_nil _⟩

/-- A question that the guards let through may be opened. -/
theorem enter (h : ctx.Sound predicates g) {name : String} {c : Condition} {t : Fin g.size}
    (hdepth : ctx.depth < questionLimit) (hclosed : ctx.isOpen name (g.id t) = false)
    (hc : predicates.find? name = some c) : (ctx.enter ⟨name, g.id t⟩).Sound predicates g where
  depth_eq := by rw [depth_enter, h.depth_eq, opened_enter, List.length_cons]
  depth_le := hdepth
  nodup := List.nodup_cons.2 ⟨isOpen_eq_false_iff.1 hclosed, h.nodup⟩
  defined := List.forall_mem_cons.2 ⟨Option.isSome_iff_exists.2 ⟨c, hc⟩, h.defined⟩
  placed := List.forall_mem_cons.2 ⟨Finset.mem_image_of_mem _ (Finset.mem_univ t), h.placed⟩

/-- There are only so many questions about defined predicates and nodes of the graph. -/
theorem depth_le_mul (h : ctx.Sound predicates g) :
    ctx.depth ≤ predicates.size * g.ids.card := by
  have hasked : ctx.opened.toFinset ⊆
      (predicates.keys.toFinset ×ˢ g.ids).image fun p => ⟨p.1, p.2⟩ := by
    intro q hq
    have hq := List.mem_toFinset.1 hq
    refine Finset.mem_image.2 ⟨(q.name, q.id), Finset.mem_product.2 ⟨?_, h.placed q hq⟩, rfl⟩
    exact List.mem_toFinset.2 (Dictionary.mem_keys_iff.2 (h.defined q hq))
  calc
    ctx.depth = ctx.opened.toFinset.card := by
      rw [List.toFinset_card_of_nodup h.nodup, h.depth_eq]
    _ ≤ predicates.keys.toFinset.card * g.ids.card :=
      (Finset.card_le_card hasked).trans
        (Finset.card_image_le.trans_eq (Finset.card_product _ _))
    _ ≤ predicates.keys.length * g.ids.card :=
      Nat.mul_le_mul_right _ (List.toFinset_card_le _)
    _ = predicates.size * g.ids.card := by rw [Dictionary.keys, List.length_map, Dictionary.size]

end Context.Sound

namespace Call

variable {predicates : Predicates} {g : NodeGraph} {call call' : Call g}

theorem Makes.sound (h : Makes predicates call call') (hs : call.context.Sound predicates g) :
    call'.context.Sound predicates g := by
  cases h with
  | single | item | part | target => exact hs
  | definition _ _ hdepth hclosed hc => exact hs.enter hdepth hclosed hc

theorem sound_of_reaches (h : Relation.ReflTransGen (Makes predicates) call call')
    (hs : call.context.Sound predicates g) : call'.context.Sound predicates g := by
  induction h with
  | refl => exact hs
  | tail _ hmakes ih => exact hmakes.sound ih

theorem reaches_definition {ctx : Context} {mode : Mode} {items : List Item} {item : Item}
    {name : String} {c : Condition} {v t : Fin g.size} (hmode : mode.Joins) (hi : item ∈ items)
    (ht : t ∈ item.targets g v) (hs : item.subject = .predicate name) (ha : item.Admissible)
    (hdepth : ctx.depth < questionLimit) (hclosed : ctx.isOpen name (g.id t) = false)
    (hc : predicates.find? name = some c) :
    Relation.ReflTransGen (Makes predicates) ⟨ctx, .condition (.flat mode items) v⟩
      ⟨ctx.enter ⟨name, g.id t⟩, .condition c t⟩ :=
  .head (.item hmode hi) (.head (.target ht) (.single (.definition hs ha hdepth hclosed hc)))

end Call

namespace Condition

/-- However predicates refer to each other, the calls that come of an evaluation have at most 32
questions open, all different and about defined predicates, so no more than there are names and ids
to make them of. Every call leaves less to do, so every call returns. It returns what evaluation
says with its questions open and as many more allowed as it leaves, and at the start that is whether
the condition holds. -/
theorem guards_bound_nesting (predicates : Predicates) (g : NodeGraph) (c : Condition)
    (v : Fin g.size) :
    (∀ call, Relation.ReflTransGen (Call.Makes predicates) (.start c v) call →
      let ctx := call.context
      ctx.depth = ctx.opened.length ∧ ctx.depth ≤ 32 ∧ ctx.opened.Nodup ∧
      (∀ q ∈ ctx.opened, (predicates.find? q.name).isSome) ∧
      (∀ name id, ctx.isOpen name id = true ↔ ⟨name, id⟩ ∈ ctx.opened) ∧
      ctx.depth ≤ min 32 (predicates.size * g.ids.card)) ∧
    (∀ call call' : Call g, call.Makes predicates call' →
      Prod.Lex (· < ·) (· < ·) call'.budget call.budget) ∧
    (∀ (call : Call g) (b : Bool), call.Returns predicates b ↔ call.holds predicates = b) ∧
    ∀ b, (Call.start c v).Returns predicates b ↔ c.holds predicates g v = b := by
  refine ⟨fun call hreach => ?_, fun _ _ => ?_, fun _ _ => ?_, fun b => ?_⟩
  · have hs := Call.sound_of_reaches hreach .initial
    have hbound := le_min hs.depth_le hs.depth_le_mul
    exact ⟨hs.depth_eq, hs.depth_le, hs.nodup, hs.defined, fun _ _ => Context.isOpen_iff, hbound⟩
  · exact Call.Makes.budget_lt
  · exact Call.returns_iff
  · exact Call.returns_iff

def ping : Condition := .flat .or [⟨.predicate "pong", .eq, .bool true, .self, false⟩,
  ⟨.predicate "pong", .ne, .bool true, .parent, false⟩]

def pong : Condition := .flat .and [⟨.predicate "ping", .eq, .bool true, .parent, false⟩,
  ⟨.predicate "ping", .ne, .bool false, .self, false⟩]

def toAndFro : Predicates := .ofList [("ping", ping), ("pong", pong)]

/-- Two names and two ids make four questions, and all of them are open at once. -/
theorem guards_bound_nesting_toAndFro :
    let g := Predicates.dialogAndButton
    let v : Fin g.size := ⟨1, by decide⟩
    let item : Item := ⟨.predicate "ping", .eq, .bool true, .self, false⟩
    let c : Condition := .flat .or [item]
    (∃ call : Call g, Relation.ReflTransGen (Call.Makes toAndFro) (.start c v) call ∧
      call.context.opened = [⟨"pong", 1⟩, ⟨"ping", 1⟩, ⟨"pong", 2⟩, ⟨"ping", 2⟩] ∧
      call.context.depth = 4 ∧ min 32 (toAndFro.size * g.ids.card) = 4 ∧
      call.context.opened.Nodup ∧ call.context.isOpen "ping" 2 = true) ∧
    Prod.Lex (· < ·) (· < ·) (Call.budget ⟨.initial, .item item v⟩) (Call.start c v).budget ∧
    (Call.start c v).Returns toAndFro true := by
  intro g v item c
  let up : Fin g.size := ⟨0, by decide⟩
  let asked : Context := Context.initial.enter ⟨"ping", g.id v⟩
  let answered : Context := asked.enter ⟨"pong", g.id v⟩
  let passed : Context := answered.enter ⟨"ping", g.id up⟩
  let full : Context := passed.enter ⟨"pong", g.id up⟩
  have hor : Mode.or.Joins := .inr rfl
  have hand : Mode.and.Joins := .inl rfl
  obtain ⟨hcontexts, hless, -, hreturns⟩ := guards_bound_nesting toAndFro g c v
  have hreach : Relation.ReflTransGen (Call.Makes toAndFro) (.start c v)
      ⟨full, .condition pong up⟩ := by
    calc
      Relation.ReflTransGen (Call.Makes toAndFro) (.start c v) ⟨asked, .condition ping v⟩ :=
        Call.reaches_definition hor List.mem_cons_self (List.mem_singleton_self v) rfl
          (by decide) (by decide) (by decide) rfl
      Relation.ReflTransGen (Call.Makes toAndFro) _ ⟨answered, .condition pong v⟩ :=
        Call.reaches_definition hor List.mem_cons_self (List.mem_singleton_self v) rfl
          (by decide) (by decide) (by decide) rfl
      Relation.ReflTransGen (Call.Makes toAndFro) _ ⟨passed, .condition ping up⟩ :=
        Call.reaches_definition hand List.mem_cons_self (List.mem_singleton_self up) rfl
          (by decide) (by decide) (by decide) rfl
      Relation.ReflTransGen (Call.Makes toAndFro) _ ⟨full, .condition pong up⟩ :=
        Call.reaches_definition hor List.mem_cons_self (List.mem_singleton_self up) rfl
          (by decide) (by decide) (by decide) rfl
  obtain ⟨hdepth, -, hnodup, -, hopen, -⟩ := hcontexts _ hreach
  have hfirst : Call.Makes toAndFro (.start c v) ⟨.initial, .item item v⟩ :=
    .item hor List.mem_cons_self
  have hholds : c.holds toAndFro g v = true := by decide
  refine ⟨⟨_, hreach, rfl, hdepth, by decide, hnodup, ?_⟩, hless _ _ hfirst, ?_⟩
  · exact (hopen "ping" 2).2 (by decide)
  · exact (hreturns true).2 hholds

end Condition

end FocusRules
