import Mathlib
import Sil.Proofs.Basic

/-!
Lowering as a system of rules. A rule gives the code of a phrase in pieces: instructions of its own
and the code of its parts, in their order. Successful lowering follows the rules, so that a property
of lowered code is proved once for each rule and never opens the lowering functions.
-/
namespace Sil.Lowering
open Counters

/-- What gets one segment of code: an expression with the operand that holds its value afterwards, a
statement, a list of statements, or the optional update of a loop. -/
inductive Phrase where
  | expr (n : Node) (value : Operand)
  | stmt (n : Node)
  | stmts (ns : List Node)
  | update (n : Option Node)

def Phrase.nodes : Phrase → List Node
  | .expr n _ => [n]
  | .stmt n => [n]
  | .stmts ns => ns
  | .update n => n.toList

/-- A lowered phrase: whether it stands in a function, its code, and the counters around it. -/
structure Segment where
  inFunction : Bool
  before : Counters
  phrase : Phrase
  code : List Instruction
  after : Counters

inductive Piece where
  | own (i : Instruction)
  | part (s : Segment)

def codeOf : List Piece → List Instruction
  | [] => []
  | .own i :: rest => i :: codeOf rest
  | .part s :: rest => s.code ++ codeOf rest

@[simp] theorem codeOf_nil : codeOf [] = [] := rfl

@[simp] theorem codeOf_own (i : Instruction) (ps : List Piece) :
    codeOf (.own i :: ps) = i :: codeOf ps := rfl

@[simp] theorem codeOf_part (s : Segment) (ps : List Piece) :
    codeOf (.part s :: ps) = s.code ++ codeOf ps := rfl

@[simp] theorem codeOf_append (ps qs : List Piece) :
    codeOf (ps ++ qs) = codeOf ps ++ codeOf qs := by
  induction ps with
  | nil => rfl
  | cons p ps ih => cases p <;> simp [ih]

@[simp] theorem codeOf_map_own (is : List Instruction) : codeOf (is.map .own) = is := by
  induction is with
  | nil => rfl
  | cons i is ih => simp [ih]

/-- The pieces of a phrase between two states of the counters. A rule allocates its temporaries and
labels where lowering does, so each part starts from the counters that lowering reaches it with. -/
inductive Rule : Bool → Counters → Phrase → List Piece → Counters → Prop
  | literal {f c loc value raw operand} (h : Operand.literal value raw = .ok operand) :
      Rule f c (.expr (.literal loc value raw) operand) [] c
  | identifier {f c loc name} : Rule f c (.expr (.identifier loc name) (.var name)) [] c
  | binary {f c c₁ c₂ loc operator op left right lhs rhs leftCode rightCode}
      (h : BinaryOp.ofSymbol? operator = some op) :
      Rule f c (.expr (.binary loc operator left right) (.temp (tempName c₂.temps)))
        [.part ⟨f, c, .expr left lhs, leftCode, c₁⟩,
          .part ⟨f, c₁, .expr right rhs, rightCode, c₂⟩,
          .own (.binary op (tempName c₂.temps) lhs rhs (loc.getD .unknown))]
        ⟨c₂.temps + 1, c₂.labels⟩
  | logical {f c c₁ c₂ loc operator skip left right lhs rhs leftCode rightCode}
      (h : shortCut? operator = some skip) :
      Rule f c (.expr (.logical loc operator left right) (.temp (tempName c₁.temps)))
        [.part ⟨f, c, .expr left lhs, leftCode, c₁⟩,
          .own (.cmp lhs (loc.getD .unknown)),
          .own (skip (labelName c₁.labels) (loc.getD .unknown)),
          .part ⟨f, ⟨c₁.temps + 1, c₁.labels + 2⟩, .expr right rhs, rightCode, c₂⟩,
          .own (.mov (tempName c₁.temps) rhs (loc.getD .unknown)),
          .own (.jump (labelName (c₁.labels + 1)) (loc.getD .unknown)),
          .own (.mark (labelName c₁.labels)),
          .own (.mov (tempName c₁.temps) lhs (loc.getD .unknown)),
          .own (.mark (labelName (c₁.labels + 1)))]
        c₂
  | assignment {f c c₁ loc targetLoc target right value code} :
      Rule f c (.expr (.assignment loc "=" (.identifier targetLoc target) right) (.var target))
        [.part ⟨f, c, .expr right value, code, c₁⟩,
          .own (.mov target value (loc.getD .unknown))]
        c₁
  | program {f c c₁ loc body code} :
      Rule f c (.stmt (.program loc body)) [.part ⟨f, c, .stmts body, code, c₁⟩] c₁
  | block {f c c₁ loc body code} :
      Rule f c (.stmt (.block loc body)) [.part ⟨f, c, .stmts body, code, c₁⟩] c₁
  | declaration {f c c₁ loc kind declarators code} :
      Rule f c (.stmt (.declaration loc kind declarators))
        [.part ⟨f, c, .stmts declarators, code, c₁⟩] c₁
  | declare {f c loc nameLoc name} :
      Rule f c (.stmt (.declarator loc (.identifier nameLoc name) none))
        [.own (.decl name (loc.getD .unknown))] c
  | initialise {f c c₁ loc nameLoc name init value code} :
      Rule f c (.stmt (.declarator loc (.identifier nameLoc name) (some init)))
        [.own (.decl name (loc.getD .unknown)),
          .part ⟨f, c, .expr init value, code, c₁⟩,
          .own (.mov name value (loc.getD .unknown))]
        c₁
  | expression {f c c₁ loc e value code} :
      Rule f c (.stmt (.expression loc e)) [.part ⟨f, c, .expr e value, code, c₁⟩] c₁
  | bare {f c c₁ n value code} : Rule f c (.stmt n) [.part ⟨f, c, .expr n value, code, c₁⟩] c₁
  | conditional {f c c₁ c₂ loc test consequent tested testCode code} :
      Rule f c (.stmt (.conditional loc test consequent none))
        [.part ⟨f, c, .expr test tested, testCode, c₁⟩,
          .own (.cmp tested (loc.getD .unknown)),
          .own (.jumpIfFalse (labelName c₁.labels) (loc.getD .unknown)),
          .part ⟨f, ⟨c₁.temps, c₁.labels + 1⟩, .stmt consequent, code, c₂⟩,
          .own (.mark (labelName c₁.labels))]
        c₂
  | alternative {f c c₁ c₂ c₃ loc test consequent alternate tested testCode code elseCode} :
      Rule f c (.stmt (.conditional loc test consequent (some alternate)))
        [.part ⟨f, c, .expr test tested, testCode, c₁⟩,
          .own (.cmp tested (loc.getD .unknown)),
          .own (.jumpIfFalse (labelName c₁.labels) (loc.getD .unknown)),
          .part ⟨f, ⟨c₁.temps, c₁.labels + 2⟩, .stmt consequent, code, c₂⟩,
          .own (.jump (labelName (c₁.labels + 1)) (loc.getD .unknown)),
          .own (.mark (labelName c₁.labels)),
          .part ⟨f, c₂, .stmt alternate, elseCode, c₃⟩,
          .own (.mark (labelName (c₁.labels + 1)))]
        c₃
  | whileLoop {f c c₁ c₂ loc test body tested testCode code} :
      Rule f c (.stmt (.whileLoop loc test body))
        [.own (.mark (labelName c.labels)),
          .part ⟨f, ⟨c.temps, c.labels + 2⟩, .expr test tested, testCode, c₁⟩,
          .own (.cmp tested (loc.getD .unknown)),
          .own (.jumpIfFalse (labelName (c.labels + 1)) (loc.getD .unknown)),
          .part ⟨f, c₁, .stmt body, code, c₂⟩,
          .own (.jump (labelName c.labels) (loc.getD .unknown)),
          .own (.mark (labelName (c.labels + 1)))]
        c₂
  | forLoop {f c c₁ c₂ c₃ c₄ loc init test update body tested initCode testCode code updateCode} :
      Rule f c (.stmt (.forLoop loc init (some test) update body))
        [.part ⟨f, c, .stmts init.toList, initCode, c₁⟩,
          .own (.mark (labelName c₁.labels)),
          .part ⟨f, ⟨c₁.temps, c₁.labels + 2⟩, .expr test tested, testCode, c₂⟩,
          .own (.cmp tested (loc.getD .unknown)),
          .own (.jumpIfFalse (labelName (c₁.labels + 1)) (loc.getD .unknown)),
          .part ⟨f, c₂, .stmt body, code, c₃⟩,
          .part ⟨f, c₃, .update update, updateCode, c₄⟩,
          .own (.jump (labelName c₁.labels) (loc.getD .unknown)),
          .own (.mark (labelName (c₁.labels + 1)))]
        c₄
  | endlessLoop {f c c₁ c₂ c₃ loc init update body initCode code updateCode} :
      Rule f c (.stmt (.forLoop loc init none update body))
        [.part ⟨f, c, .stmts init.toList, initCode, c₁⟩,
          .own (.mark (labelName c₁.labels)),
          .part ⟨f, ⟨c₁.temps, c₁.labels + 2⟩, .stmt body, code, c₂⟩,
          .part ⟨f, c₂, .update update, updateCode, c₃⟩,
          .own (.jump (labelName c₁.labels) (loc.getD .unknown)),
          .own (.mark (labelName (c₁.labels + 1)))]
        c₃
  | function {c c₁ loc nameLoc name params body paramCode code}
      (h : parameters params = .ok paramCode) :
      Rule false c (.stmt (.function loc (.identifier nameLoc name) params body))
        (.own (.func name (loc.getD .unknown)) :: paramCode.map .own ++
          [.part ⟨true, c, .stmt body, code, c₁⟩, .own (.endFunc (loc.getD .unknown))])
        c₁
  | ret {f c loc} : Rule f c (.stmt (.ret loc none)) [.own (.ret none (loc.getD .unknown))] c
  | retValue {f c c₁ loc argument value code} :
      Rule f c (.stmt (.ret loc (some argument)))
        [.part ⟨f, c, .expr argument value, code, c₁⟩,
          .own (.ret (some value) (loc.getD .unknown))]
        c₁
  | nil {f c} : Rule f c (.stmts []) [] c
  | cons {f c c₁ c₂ n rest code restCode} :
      Rule f c (.stmts (n :: rest))
        [.part ⟨f, c, .stmt n, code, c₁⟩, .part ⟨f, c₁, .stmts rest, restCode, c₂⟩] c₂
  | noUpdate {f c} : Rule f c (.update none) [] c
  | someUpdate {f c c₁ n value code} :
      Rule f c (.update (some n)) [.part ⟨f, c, .expr n value, code, c₁⟩] c₁

inductive Lowers : Segment → Prop
  | intro {f : Bool} {c c' : Counters} {p : Phrase} {pieces : List Piece}
      (rule : Rule f c p pieces c') (parts : ∀ t, .part t ∈ pieces → Lowers t) :
      Lowers ⟨f, c, p, codeOf pieces, c'⟩

def EachPart (P : Segment → Prop) : List Piece → Prop
  | [] => True
  | .own _ :: rest => EachPart P rest
  | .part s :: rest => P s ∧ EachPart P rest

theorem eachPart_iff {P : Segment → Prop} {ps : List Piece} :
    EachPart P ps ↔ ∀ t, .part t ∈ ps → P t := by
  induction ps with
  | nil => simp [EachPart]
  | cons p ps ih => cases p <;> simp [EachPart, ih]

theorem Lowers.of_parts {f : Bool} {c c' : Counters} {p : Phrase} {pieces : List Piece}
    {code : List Instruction} (rule : Rule f c p pieces c') (parts : EachPart Lowers pieces)
    (h : code = codeOf pieces) : Lowers ⟨f, c, p, code, c'⟩ :=
  h ▸ .intro rule (eachPart_iff.mp parts)

private theorem inner_inFunction {s s' : Scope} (h : inner s = .ok s') :
    s'.inFunction = s.inFunction := by
  unfold inner at h
  split at h <;> cases h
  rfl

theorem lowers_of_expression (n : Node) {s : Scope} {c c' : Counters} {code : List Instruction}
    {value : Operand} (h : expression s c n = .ok (code, value, c')) :
    Lowers ⟨s.inFunction, c, .expr n value, code, c'⟩ := by
  cases n with
  | literal loc v raw =>
    rw [expression] at h
    obtain ⟨s₁, hs, h⟩ := bind_eq_ok.mp h
    obtain ⟨operand, ho, h⟩ := bind_eq_ok.mp h
    cases h
    exact .of_parts (.literal ho) trivial rfl
  | identifier loc name =>
    rw [expression] at h
    obtain ⟨s₁, hs, h⟩ := bind_eq_ok.mp h
    cases h
    exact .of_parts .identifier trivial rfl
  | binary loc operator left right =>
    rw [expression] at h
    obtain ⟨s₁, hs, h⟩ := bind_eq_ok.mp h
    rw [← inner_inFunction hs]
    dsimp only at h
    split at h
    · cases h
    · rename_i op hop
      obtain ⟨⟨leftCode, lhs, c₁⟩, hl, h⟩ := bind_eq_ok.mp h
      obtain ⟨⟨rightCode, rhs, c₂⟩, hr, h⟩ := bind_eq_ok.mp h
      cases h
      exact .of_parts (.binary hop)
        ⟨lowers_of_expression left hl, lowers_of_expression right hr, trivial⟩
        (by simp [freshTemp, Node.place, Node.loc])
  | logical loc operator left right =>
    rw [expression] at h
    obtain ⟨s₁, hs, h⟩ := bind_eq_ok.mp h
    rw [← inner_inFunction hs]
    dsimp only at h
    split at h
    · cases h
    · rename_i skip hskip
      obtain ⟨⟨leftCode, lhs, c₁⟩, hl, h⟩ := bind_eq_ok.mp h
      obtain ⟨⟨rightCode, rhs, c₂⟩, hr, h⟩ := bind_eq_ok.mp h
      cases h
      exact .of_parts (.logical hskip)
        ⟨lowers_of_expression left hl, lowers_of_expression right hr, trivial⟩
        (by simp [freshTemp, freshLabel, Node.place, Node.loc])
  | assignment loc operator left right =>
    rw [expression] at h
    obtain ⟨s₁, hs, h⟩ := bind_eq_ok.mp h
    rw [← inner_inFunction hs]
    dsimp only at h
    split at h
    · cases h
    · rename_i heq
      obtain rfl : operator = "=" := by simpa using heq
      split at h
      · obtain ⟨⟨code, v, c₁⟩, hr, h⟩ := bind_eq_ok.mp h
        cases h
        exact .of_parts .assignment ⟨lowers_of_expression right hr, trivial⟩
          (by simp [Node.place, Node.loc])
      · cases h
  | _ =>
    rw [expression] at h
    obtain ⟨s₁, hs, h⟩ := bind_eq_ok.mp h
    cases h

private theorem lowers_of_update {s : Scope} {c c' : Counters} {update : Option Node}
    {code : List Instruction}
    (h : (match update with
      | none => Except.ok ([], c)
      | some update => do
        let (updateCode, _, c) ← expression s c update
        return (updateCode, c)) = .ok (code, c')) :
    Lowers ⟨s.inFunction, c, .update update, code, c'⟩ := by
  cases update with
  | none =>
    cases h
    exact .of_parts .noUpdate trivial rfl
  | some n =>
    obtain ⟨⟨code, value, c₁⟩, hn, h⟩ := bind_eq_ok.mp h
    cases h
    exact .of_parts .someUpdate ⟨lowers_of_expression n hn, trivial⟩ (by simp)

private theorem lowers_singleton {f : Bool} {c c' : Counters} {n : Node} {code : List Instruction}
    (h : Lowers ⟨f, c, .stmt n, code, c'⟩) : Lowers ⟨f, c, .stmts [n], code, c'⟩ :=
  .of_parts .cons ⟨h, .of_parts .nil trivial rfl, trivial⟩ (by simp)

theorem eachPart_own {P : Segment → Prop} (is : List Instruction) (ps : List Piece) :
    EachPart P (is.map .own ++ ps) ↔ EachPart P ps := by
  simp [eachPart_iff]

/-- Wherever a node is lowered as a statement, the rules allow what it becomes. -/
def StatementLowers (n : Node) : Prop :=
  ∀ (s : Scope) (c c' : Counters) (code : List Instruction), statement s c n = .ok (code, c') →
    Lowers ⟨s.inFunction, c, .stmt n, code, c'⟩

theorem lowers_of_each {ns : List Node} (hns : ∀ n ∈ ns, StatementLowers n) {s : Scope}
    {c c' : Counters} {code : List Instruction} (h : statements s c ns = .ok (code, c')) :
    Lowers ⟨s.inFunction, c, .stmts ns, code, c'⟩ := by
  induction ns generalizing c code with
  | nil =>
    cases h
    exact .of_parts .nil trivial rfl
  | cons n rest ih =>
    rw [List.forall_mem_cons] at hns
    rw [statements] at h
    obtain ⟨⟨first, c₁⟩, hn, h⟩ := bind_eq_ok.mp h
    obtain ⟨⟨restCode, c₂⟩, hr, h⟩ := bind_eq_ok.mp h
    cases h
    exact .of_parts .cons ⟨hns.1 s c c₁ first hn, ih hns.2 hr, trivial⟩ (by simp)

namespace StatementLowers

theorem program {loc : Option Location} {body : List Node} (hbody : ∀ n ∈ body, StatementLowers n) :
    StatementLowers (.program loc body) := by
  intro s c c' code h
  obtain ⟨s₁, hs, h⟩ := bind_eq_ok.mp h
  rw [← inner_inFunction hs]
  exact .of_parts .program ⟨lowers_of_each hbody h, trivial⟩ (by simp)

theorem block {loc : Option Location} {body : List Node} (hbody : ∀ n ∈ body, StatementLowers n) :
    StatementLowers (.block loc body) := by
  intro s c c' code h
  obtain ⟨s₁, hs, h⟩ := bind_eq_ok.mp h
  rw [← inner_inFunction hs]
  exact .of_parts .block ⟨lowers_of_each hbody h, trivial⟩ (by simp)

theorem declaration {loc : Option Location} {kind : String} {declarators : List Node}
    (hdeclarators : ∀ n ∈ declarators, StatementLowers n) :
    StatementLowers (.declaration loc kind declarators) := by
  intro s c c' code h
  obtain ⟨s₁, hs, h⟩ := bind_eq_ok.mp h
  rw [← inner_inFunction hs]
  exact .of_parts .declaration ⟨lowers_of_each hdeclarators h, trivial⟩ (by simp)

theorem declarator (loc : Option Location) (id : Node) (init : Option Node) :
    StatementLowers (.declarator loc id init) := by
  intro s c c' code h
  obtain ⟨s₁, hs, h⟩ := bind_eq_ok.mp h
  rw [← inner_inFunction hs]
  dsimp only at h
  split at h
  · cases init with
    | none =>
      cases h
      exact .of_parts .declare trivial rfl
    | some init =>
      obtain ⟨⟨code, value, c₁⟩, hi, h⟩ := bind_eq_ok.mp h
      cases h
      exact .of_parts .initialise ⟨lowers_of_expression init hi, trivial⟩
        (by simp [Node.place, Node.loc])
  · cases h

theorem expression (loc : Option Location) (e : Node) : StatementLowers (.expression loc e) := by
  intro s c c' code h
  obtain ⟨s₁, hs, h⟩ := bind_eq_ok.mp h
  obtain ⟨⟨code, value, c₁⟩, he, h⟩ := bind_eq_ok.mp h
  cases h
  rw [← inner_inFunction hs]
  exact .of_parts .expression ⟨lowers_of_expression e he, trivial⟩ (by simp)

theorem conditional {loc : Option Location} (test : Node) {consequent : Node}
    {alternate : Option Node} (hconsequent : StatementLowers consequent)
    (halternate : ∀ n ∈ alternate, StatementLowers n) :
    StatementLowers (.conditional loc test consequent alternate) := by
  intro s c c' code h
  rw [statement] at h
  obtain ⟨s₁, hs, h⟩ := bind_eq_ok.mp h
  obtain ⟨⟨testCode, tested, c₁⟩, ht, h⟩ := bind_eq_ok.mp h
  rw [← inner_inFunction hs]
  cases alternate with
  | none =>
    obtain ⟨⟨code, c₂⟩, hb, h⟩ := bind_eq_ok.mp h
    cases h
    exact .of_parts .conditional ⟨lowers_of_expression test ht, hconsequent _ _ _ _ hb, trivial⟩
      (by simp [Node.place, Node.loc])
  | some alternate =>
    obtain ⟨⟨code, c₂⟩, hb, h⟩ := bind_eq_ok.mp h
    obtain ⟨⟨elseCode, c₃⟩, ha, h⟩ := bind_eq_ok.mp h
    cases h
    exact .of_parts .alternative
      ⟨lowers_of_expression test ht, hconsequent _ _ _ _ hb, halternate alternate rfl _ _ _ _ ha,
        trivial⟩
      (by simp [Node.place, Node.loc])

theorem whileLoop {loc : Option Location} (test : Node) {body : Node}
    (hbody : StatementLowers body) :
    StatementLowers (.whileLoop loc test body) := by
  intro s c c' code h
  obtain ⟨s₁, hs, h⟩ := bind_eq_ok.mp h
  obtain ⟨⟨testCode, tested, c₁⟩, ht, h⟩ := bind_eq_ok.mp h
  obtain ⟨⟨code, c₂⟩, hb, h⟩ := bind_eq_ok.mp h
  cases h
  rw [← inner_inFunction hs]
  exact .of_parts .whileLoop ⟨lowers_of_expression test ht, hbody _ _ _ _ hb, trivial⟩
    (by simp [Node.place, Node.loc])

theorem forLoop {loc : Option Location} {init : Option Node} (test update : Option Node)
    {body : Node} (hinit : ∀ n ∈ init, StatementLowers n) (hbody : StatementLowers body) :
    StatementLowers (.forLoop loc init test update body) := by
  intro s c c' code h
  rw [statement] at h
  obtain ⟨s₁, hs, h⟩ := bind_eq_ok.mp h
  obtain ⟨⟨initCode, c₁⟩, hi, h⟩ := bind_eq_ok.mp h
  obtain ⟨⟨testCode, c₂⟩, ht, h⟩ := bind_eq_ok.mp h
  obtain ⟨⟨code, c₃⟩, hb, h⟩ := bind_eq_ok.mp h
  obtain ⟨⟨updateCode, c₄⟩, hu, h⟩ := bind_eq_ok.mp h
  cases h
  rw [← inner_inFunction hs]
  have hinitial : Lowers ⟨s₁.inFunction, c, .stmts init.toList, initCode, c₁⟩ := by
    cases init with
    | none =>
      cases hi
      exact .of_parts .nil trivial rfl
    | some n => exact lowers_singleton (hinit n rfl _ _ _ _ hi)
  cases test with
  | none =>
    cases ht
    exact .of_parts .endlessLoop ⟨hinitial, hbody _ _ _ _ hb, lowers_of_update hu, trivial⟩
      (by simp [Node.place, Node.loc])
  | some test =>
    obtain ⟨⟨testCode, tested, c₂⟩, ht, h⟩ := bind_eq_ok.mp ht
    cases h
    exact .of_parts .forLoop
      ⟨hinitial, lowers_of_expression test ht, hbody _ _ _ _ hb, lowers_of_update hu, trivial⟩
      (by simp [Node.place, Node.loc])

theorem function {loc : Option Location} (id : Node) (params : List Node) {body : Node}
    (hbody : StatementLowers body) : StatementLowers (.function loc id params body) := by
  intro s c c' code h
  obtain ⟨s₁, hs, h⟩ := bind_eq_ok.mp h
  rw [← inner_inFunction hs]
  dsimp only at h
  split at h
  · cases h
  · rename_i hf
    rw [Bool.not_eq_true] at hf
    split at h
    · obtain ⟨paramCode, hp, h⟩ := bind_eq_ok.mp h
      obtain ⟨⟨code, c₁⟩, hb, h⟩ := bind_eq_ok.mp h
      cases h
      rw [hf]
      exact .of_parts (.function hp) ((eachPart_own _ _).mpr ⟨hbody _ _ _ _ hb, trivial⟩)
        (by simp [Node.place, Node.loc])
    · cases h

theorem ret (loc : Option Location) (argument : Option Node) :
    StatementLowers (.ret loc argument) := by
  intro s c c' code h
  obtain ⟨s₁, hs, h⟩ := bind_eq_ok.mp h
  rw [← inner_inFunction hs]
  cases argument with
  | none =>
    cases h
    exact .of_parts .ret trivial rfl
  | some argument =>
    obtain ⟨⟨code, value, c₁⟩, ha, h⟩ := bind_eq_ok.mp h
    cases h
    exact .of_parts .retValue ⟨lowers_of_expression argument ha, trivial⟩
      (by simp [Node.place, Node.loc])

end StatementLowers

mutual

theorem statementLowers (n : Node) : StatementLowers n := by
  cases n with
  | program loc body => exact .program (statementLowers_all body)
  | block loc body => exact .block (statementLowers_all body)
  | declaration loc kind declarators => exact .declaration (statementLowers_all declarators)
  | declarator loc id init => exact .declarator loc id init
  | expression loc e => exact .expression loc e
  | conditional loc test consequent alternate =>
    exact .conditional test (statementLowers consequent) (statementLowers_some alternate)
  | whileLoop loc test body => exact .whileLoop test (statementLowers body)
  | forLoop loc init test update body =>
    exact .forLoop test update (statementLowers_some init) (statementLowers body)
  | function loc id params body => exact .function id params (statementLowers body)
  | ret loc argument => exact .ret loc argument
  | literal | identifier | binary | logical | assignment | foreign =>
    -- What is no statement is lowered as an expression.
    intro s c c' code h
    rw [statement] at h
    obtain ⟨⟨code, value, c₁⟩, he, h⟩ := bind_eq_ok.mp h
    cases h
    exact .of_parts .bare ⟨lowers_of_expression _ he, trivial⟩ (by simp)

theorem statementLowers_all (ns : List Node) : ∀ n ∈ ns, StatementLowers n := by
  cases ns with
  | nil => simp
  | cons n rest =>
    exact List.forall_mem_cons.mpr ⟨statementLowers n, statementLowers_all rest⟩

theorem statementLowers_some (o : Option Node) : ∀ n ∈ o, StatementLowers n := by
  cases o with
  | none => simp
  | some n =>
    intro m hm
    cases hm
    exact statementLowers n

end

theorem lowers_of_statement (n : Node) {s : Scope} {c c' : Counters} {code : List Instruction}
    (h : statement s c n = .ok (code, c')) : Lowers ⟨s.inFunction, c, .stmt n, code, c'⟩ :=
  statementLowers n s c c' code h

theorem lowers_of_statements (ns : List Node) {s : Scope} {c c' : Counters}
    {code : List Instruction} (h : statements s c ns = .ok (code, c')) :
    Lowers ⟨s.inFunction, c, .stmts ns, code, c'⟩ :=
  lowers_of_each (statementLowers_all ns) h

/-- A tree that lowers is a statement outside every function, numbered from zero. -/
theorem lowers_of_lower {limits : Limits} {tree : Node} {code : List Instruction}
    (h : tree.lower limits = .ok code) :
    ∃ c, Lowers ⟨false, {}, .stmt tree, code, c⟩ := by
  obtain ⟨⟨code, c⟩, hs, h⟩ := bind_eq_ok.mp h
  cases h
  exact ⟨c, lowers_of_statement tree hs⟩

end Sil.Lowering
